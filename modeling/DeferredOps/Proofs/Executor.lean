import DeferredOps.Proofs.Run
import DeferredOps.Executor

/-!
# What executing an instruction keeps

An instruction keeps every invariant of the single changes, and most failures are survived. Those
that escape are few: a pattern that cannot be used, a path with the character NUL, an endless copy,
and what a command runner raises beside the failures of the operating system.
-/

namespace DeferredOps

open Action

namespace Executor

open RunAction

variable {inv : Store → Prop} {nul : Prop} {allowed : Failure → Prop} {source destination : Path}

/-! ## Paths -/

theorem usable_below {directory p : Path} (hdirectory : directory.Usable nul) (hp : p.Usable nul) :
    (Path.below directory p).Usable nul := by
  unfold Path.below
  split
  · exact hp
  · constructor
    · intro name h
      exact (List.mem_append.mp h).elim (hdirectory.proper name) (hp.proper name)
    · intro h
      rw [Path.hasNul, List.any_append, Bool.or_eq_true] at h
      exact h.elim hdirectory.clean hp.clean

theorem proper_resolve {directory : Path} (hdirectory : directory.Proper) (text : String) :
    (Path.resolve text directory).Proper := by
  have hfirst : directory.Usable True := ⟨hdirectory, fun _ ↦ trivial⟩
  have hsecond : (Path.ofString text).Usable True := ⟨Path.proper_ofString text, fun _ ↦ trivial⟩
  exact (usable_below hfirst hsecond).proper

theorem usable_within (hdestination : destination.Usable nul) (hsource : source.Usable nul) :
    (within destination source).Usable nul := by
  unfold within
  split
  · next name h =>
    have hmem := List.mem_of_getLast? h
    constructor
    · exact hdestination.proper.child (hsource.proper name hmem)
    · intro hnul
      rw [Path.hasNul, Path.child, List.any_append, Bool.or_eq_true] at hnul
      refine hnul.elim hdestination.clean fun hlast ↦ hsource.clean ?_
      exact List.any_eq_true.mpr ⟨name, hmem, by simpa using hlast⟩
  · exact hdestination

/-- A usable pattern lies in the directory that it is written with. -/
theorem parent_of_wildcard {pattern : String} {wildcard : Wildcard} (directory : Path)
    (h : Wildcard.ofString pattern = .ok wildcard) :
    Path.below directory wildcard.parent = (Path.resolve pattern directory).parent := by
  unfold Wildcard.ofString at h
  dsimp only at h
  split at h
  · cases h
  next hname =>
  split at h
  · cases h
  cases h
  have hparts : (Path.ofString pattern).parts ≠ [] := by
    intro hnil
    apply hname
    simp [Path.name, hnil, Path.hasWildcard]
  unfold Path.resolve Path.below
  by_cases htop : (Path.ofString pattern).isAbsolute
  · rw [if_pos htop, if_pos (show (Path.ofString pattern).parent.isAbsolute from htop)]
  · rw [if_neg htop, if_neg (show ¬ (Path.ofString pattern).parent.isAbsolute from htop)]
    simp [Path.parent, List.dropLast_append_of_ne_nil hparts]

theorem delete_of_plain (x : Executor) {target : String} (h : Path.hasWildcard target = false) :
    x.delete target = surviving (fun f ↦ Report.failedDelete (Path.resolve target x.workingDirectory)
      f.reason) (deletePlain (Path.resolve target x.workingDirectory)) := by
  simp [delete, h]

theorem move_of_plain (x : Executor) {source : String} (destination : String)
    (policy : OverwritePolicy) (h : Path.hasWildcard source = false) :
    x.move source destination policy =
      moveEntry (Path.resolve source x.workingDirectory)
        (Path.resolve destination x.workingDirectory) policy := by
  simp [move, h]

theorem move_of_wildcard (x : Executor) {source : String} (destination : String)
    (policy : OverwritePolicy) (h : Path.hasWildcard source) :
    x.move source destination policy =
      surviving (fun f ↦ Report.failedMove (Path.resolve source x.workingDirectory)
        (Path.resolve destination x.workingDirectory) f.reason)
        (x.moveMatching source (Path.resolve destination x.workingDirectory) policy) := by
  simp [move, h]

/-! ## Questions -/

/-- A path with the character NUL leads to nothing. -/
theorem entryAt_of_hasNul {s : Store} {last : Store.LastLink} {p : Path} (h : p.hasNul) :
    s.entryAt last p = .ok none := by
  unfold Store.entryAt
  rw [if_pos h]

/-- A path that leads to something does not hold the character NUL. -/
theorem clean_of_answers {s : Store} {last : Store.LastLink} {p : Path} {test : Entry → Bool}
    (h : (s.entryAt last p).map (Store.answers test) = .ok true) : p.hasNul → nul := by
  intro hnul
  rw [entryAt_of_hasNul hnul] at h
  cases h

/-! ## Deleting -/

section Kept

variable (hinv : Store.Invariant inv)
include hinv

theorem keeps_deleteFile {file : Path} (hfile : file.hasNul → nul) :
    Keeps (Run.Sound inv nul) (Failure.OfChange nul) (deleteFile file) := by
  refine ((keeps_info hinv _).weaken fun _ ↦ .inr).bind fun _ ↦ ?_
  exact (keeps_onStore (StoreAction.keeps_unlink hinv hfile)).bind fun _ ↦ keeps_count _

theorem keeps_deletePlain (target : Path) :
    Keeps (Run.Sound inv nul) (Failure.OfChange nul) (deletePlain target) := by
  refine keeps_ask_bind (fun _ _ _ h ↦ .of_system (Store.isSystem_of_isDirectory h))
    fun s there _ hthere ↦ ?_
  split
  · next htrue =>
    subst htrue
    refine ((keeps_info hinv _).weaken fun _ ↦ .inr).bind fun _ ↦ ?_
    refine Keeps.bind ?_ fun _ ↦ keeps_count _
    exact keeps_onStore (StoreAction.keeps_removeTree hinv (clean_of_answers hthere))
  refine keeps_ask_bind (fun _ _ _ h ↦ .of_system (Store.isSystem_of_isFile h))
    fun s there _ hthere ↦ ?_
  split
  · next htrue => exact keeps_deleteFile hinv (clean_of_answers (htrue ▸ hthere))
  refine keeps_ask_bind (fun _ _ _ h ↦ .of_system (Store.isSystem_of_isLink h))
    fun s there _ hthere ↦ ?_
  split
  · next htrue => exact keeps_deleteFile hinv (clean_of_answers (htrue ▸ hthere))
  · exact keeps_pure _

/-- The files that a pattern stands for are named in the pattern's directory. -/
theorem ensures_matchingFiles (x : Executor) {wildcard : Wildcard}
    (hparent : (Path.below x.workingDirectory wildcard.parent).hasNul → nul) :
    Ensures (Run.Sound inv nul) (x.matchingFiles wildcard)
      (fun files r ↦ (∀ file ∈ files, ∃ name, Store.IsClean name ∧
        file = (Path.below x.workingDirectory wildcard.parent).child name) ∧ Run.Sound inv nul r)
      (fun f r ↦ Run.Sound inv nul r ∧ f.OfChange nul) := by
  intro r hr
  unfold matchingFiles
  rw [run_ask]
  cases hfiles : r.store.matchingFiles (Path.below x.workingDirectory wildcard.parent)
      wildcard.expression with
  | error f =>
    have hf := Store.ofChange_of_matchingFiles hfiles
    exact ⟨hr, hf.mono hparent⟩
  | ok files =>
    refine ⟨fun file hfile ↦ ?_, hr⟩
    obtain ⟨directory, -, hmem⟩ := Store.listed_of_matchingFiles hfiles
    obtain ⟨name, hname, rfl, -⟩ := hmem file hfile
    exact ⟨name, Store.isClean_of_mem_names (hinv.wellFormed hr.store) hname, rfl⟩

omit hinv in
theorem ensures_splitWildcard (pattern : String)
    (hallowed : ∀ e, Wildcard.ofString pattern = .error e → allowed (.wildcard e)) :
    Ensures (Run.Sound inv nul) (splitWildcard pattern)
      (fun wildcard r ↦ Wildcard.ofString pattern = .ok wildcard ∧ Run.Sound inv nul r)
      (fun f r ↦ Run.Sound inv nul r ∧ f.SystemOr allowed) := by
  unfold splitWildcard
  cases hsplit : Wildcard.ofString pattern with
  | error e => exact ensures_throw fun _ hr ↦ ⟨hr, .inr (hallowed e hsplit)⟩
  | ok wildcard => exact ensures_pure fun _ hr ↦ ⟨rfl, hr⟩

theorem keeps_delete (x : Executor) {pattern : String} (hnul : nul → allowed .embeddedNul)
    (hallowed : ∀ e, Path.hasWildcard pattern → Wildcard.ofString pattern = .error e →
      allowed (.wildcard e))
    (hparent : ∀ wildcard, Path.hasWildcard pattern → Wildcard.ofString pattern = .ok wildcard →
      (Path.below x.workingDirectory wildcard.parent).hasNul → nul) :
    Keeps (Run.Sound inv nul) allowed (x.delete pattern) := by
  have hchange (f : Failure) (hf : f.OfChange nul) : f.SystemOr allowed := hf.systemOr hnul
  refine keeps_surviving hinv hnul ?_
  split
  · next hwild =>
    refine (ensures_splitWildcard pattern fun e he ↦ hallowed e hwild he).bind fun wildcard ↦ ?_
    refine ensures_assume fun hsplit ↦ ?_
    have hdirectory := hparent wildcard hwild hsplit
    refine Ensures.bind ((ensures_matchingFiles hinv x hdirectory).weaken (fun _ hr ↦ hr)
      (fun _ _ hr ↦ hr) fun f r hr ↦ ⟨hr.1, hchange f hr.2⟩) fun files ↦ ?_
    refine ensures_assume fun hfiles ↦ keeps_forM fun file hfile ↦ ?_
    obtain ⟨name, hname, rfl⟩ := hfiles file hfile
    refine (keeps_deleteFile hinv fun h ↦ hdirectory ?_).weaken hchange
    rwa [Path.hasNul_child hname] at h
  · exact (keeps_deletePlain hinv _).weaken hchange

end Kept

/-! ## Moving -/

/-- The pairs of a source and a destination between which moves keep an invariant, together with
those of the moves that a merge is made of. -/
structure Movable (inv : Store → Prop) (nul : Prop) (allowed : Failure → Prop)
    (related : Path → Path → Prop) : Prop where
  embeddedNul : nul → allowed .embeddedNul
  source {S D} (h : related S D) : S.Usable nul
  destination {S D} (h : related S D) : D.Usable nul
  move {S D} (h : related S D) :
    Keeps inv (Failure.SystemOr allowed) (StoreAction.moveEntry S D)
  within {S D} (h : related S D) : related S (within D S)
  child {S D} (h : related S D) {name} (hname : Store.IsClean name) : related (S.child name) D

section Moves

variable {related : Path → Path → Prop} (hinv : Store.Invariant inv)
  (hmove : Movable inv nul allowed related)
include hinv hmove

omit hinv in
theorem Movable.ofChange {f : Failure} (hf : f.OfChange nul) : f.SystemOr allowed :=
  hf.systemOr hmove.embeddedNul

omit hinv in
theorem Movable.of_change {α : Type} {x : RunAction α}
    (h : Keeps (Run.Sound inv nul) (Failure.OfChange nul) x) :
    Keeps (Run.Sound inv nul) (Failure.SystemOr allowed) x :=
  h.weaken fun _ hf ↦ hmove.ofChange hf

theorem Movable.info (message : String) :
    Keeps (Run.Sound inv nul) (Failure.SystemOr allowed) (info message) :=
  hmove.of_change ((keeps_info hinv message).weaken fun _ ↦ .inr)

omit hinv hmove in
theorem keeps_mayReplace (policy : OverwritePolicy) (target : Path) :
    Keeps (Run.Sound inv nul) (Failure.SystemOr allowed) (mayReplace policy target) := by
  unfold mayReplace
  split
  · exact keeps_pure _
  · exact (keeps_ask fun _ _ _ h ↦ .inl (Store.isSystem_of_exists h)).bind fun _ ↦ keeps_pure _

theorem keeps_removeTarget (target : Path) :
    Keeps (Run.Sound inv nul) (Failure.SystemOr allowed) (removeTarget target) := by
  refine hmove.of_change ?_
  refine keeps_ask_bind (fun _ _ _ h ↦ .of_system (Store.isSystem_of_isDirectory h))
    fun s there _ hthere ↦ ?_
  split
  · next htrue =>
    subst htrue
    exact keeps_onStore (StoreAction.keeps_removeTree hinv (clean_of_answers hthere))
  refine keeps_ask_bind (fun _ _ _ h ↦ .of_system (Store.isSystem_of_exists h))
    fun s there _ hthere ↦ ?_
  split
  · next htrue =>
    subst htrue
    exact keeps_onStore (StoreAction.keeps_unlink hinv (clean_of_answers hthere))
  · exact keeps_pure _

omit hmove in
/-- The names that are found in a directory can stand in paths. -/
theorem ensures_sortedNames {directory : Path} (hdirectory : directory.hasNul → nul) :
    Ensures (Run.Sound inv nul) (sortedNames directory)
      (fun names r ↦ (∀ name ∈ names, Store.IsClean name) ∧ Run.Sound inv nul r)
      (fun f r ↦ Run.Sound inv nul r ∧ f.OfChange nul) := by
  intro r hr
  unfold sortedNames
  rw [run_ask]
  cases hlist : r.store.list directory with
  | error f =>
    exact ⟨hr, (Store.ofChange_of_list hlist).mono hdirectory⟩
  | ok names =>
    refine ⟨fun name hname ↦ ?_, hr⟩
    refine Store.isClean_of_mem_list (hinv.wellFormed hr.store) hlist ?_
    simpa [Store.sortNames] using hname

theorem keeps_mergeDirectory {moveChild : Path → Path → RunAction Unit} {source target : Path}
    (h : related source target)
    (hchild : ∀ S D, related S D →
      Keeps (Run.Sound inv nul) (Failure.SystemOr allowed) (moveChild S D)) :
    Keeps (Run.Sound inv nul) (Failure.SystemOr allowed)
      (mergeDirectory moveChild source target) := by
  have hclean := (hmove.source h).clean
  refine (hmove.info hinv _).bind fun _ ↦ ?_
  refine Ensures.bind ((ensures_sortedNames hinv hclean).weaken (fun _ hr ↦ hr)
    (fun _ _ hr ↦ hr) fun f r hr ↦ ⟨hr.1, hmove.ofChange hr.2⟩) fun names ↦ ?_
  refine ensures_assume fun hnames ↦ ?_
  refine Keeps.bind (keeps_forIn fun name hname ↦ ?_) fun _ ↦ ?_
  · exact (hchild _ _ (hmove.child h (hnames name hname))).yield
  refine (keeps_count _).bind fun _ ↦ hmove.of_change ?_
  refine (keeps_ask fun _ _ _ h ↦ (Store.ofChange_of_list h).mono hclean).bind fun left ↦ ?_
  split
  · exact keeps_onStore (StoreAction.keeps_removeDirectory hinv hclean)
  · exact keeps_pure _

theorem keeps_skip (message : String) : Keeps (Run.Sound inv nul) (Failure.SystemOr allowed)
    (do RunAction.info message; count "skipped") :=
  (hmove.info hinv _).bind fun _ ↦ keeps_count _

theorem keeps_moveDirectory {moveChild : Path → Path → RunAction Unit}
    (h : related source destination)
    (hchild : ∀ S D, related S D →
      Keeps (Run.Sound inv nul) (Failure.SystemOr allowed) (moveChild S D))
    (policy : OverwritePolicy) :
    Keeps (Run.Sound inv nul) (Failure.SystemOr allowed)
      (moveDirectory moveChild source destination policy) := by
  have hwithin := hmove.within h
  refine (keeps_ask fun _ _ _ h ↦ .inl (Store.isSystem_of_isDirectory h)).bind fun there ↦ ?_
  split
  · refine (hmove.info hinv _).bind fun _ ↦ ?_
    exact (keeps_onStore (hmove.move h)).bind fun _ ↦ keeps_count _
  refine (hmove.info hinv _).bind fun _ ↦ ?_
  refine (keeps_ask fun _ _ _ h ↦ .inl (Store.isSystem_of_samePlace h)).bind fun same ↦ ?_
  split
  · exact keeps_skip hinv hmove _
  refine (keeps_mayReplace policy _).bind fun replace ↦ ?_
  split
  · refine (keeps_removeTarget hinv hmove _).bind fun _ ↦ ?_
    exact (keeps_onStore (hmove.move hwithin)).bind fun _ ↦ keeps_count _
  · exact keeps_mergeDirectory hinv hmove hwithin hchild

theorem keeps_moveFile (h : related source destination) (policy : OverwritePolicy) :
    Keeps (Run.Sound inv nul) (Failure.SystemOr allowed)
      (moveFile source destination policy) := by
  refine (keeps_ask fun _ _ _ h ↦ .inl (Store.isSystem_of_isDirectory h)).bind fun there ↦ ?_
  have htarget : related source (if there then within destination source else destination) := by
    split
    · exact hmove.within h
    · exact h
  revert htarget
  generalize (if there then within destination source else destination) = target
  intro htarget
  refine (keeps_ask fun _ _ _ h ↦ .inl (Store.isSystem_of_samePlace h)).bind fun same ↦ ?_
  split
  · exact keeps_skip hinv hmove _
  refine (keeps_mayReplace policy _).bind fun replace ↦ ?_
  split
  · refine (hmove.info hinv _).bind fun _ ↦ ?_
    refine (keeps_ask fun _ _ _ h ↦ .inl (Store.isSystem_of_exists h)).bind fun there ↦ ?_
    have hunlink := StoreAction.keeps_unlinkIfThere hinv (hmove.destination htarget).clean
    have hrest := (hmove.of_change (keeps_onStore hunlink)).bind fun _ ↦
      (keeps_onStore (hmove.move htarget)).bind fun _ ↦ keeps_count "moved"
    split
    · exact Keeps.bind (keeps_throw (.inl rfl)) fun _ ↦ hrest
    · exact hrest
  · exact keeps_skip hinv hmove _

theorem keeps_moveEntryFrom (policy : OverwritePolicy) (depth : ℕ)
    (h : related source destination) :
    Keeps (Run.Sound inv nul) allowed (moveEntryFrom policy depth source destination) := by
  induction depth generalizing source destination with
  | zero => exact keeps_surviving hinv hmove.embeddedNul (keeps_throw (.inl rfl))
  | succ depth ih =>
    refine keeps_surviving hinv hmove.embeddedNul ?_
    refine (keeps_ask fun _ _ _ h ↦ .inl (Store.isSystem_of_isDirectory h)).bind fun there ↦ ?_
    split
    · refine keeps_moveDirectory hinv hmove h (fun S D hSD ↦ ?_) policy
      exact (ih hSD).weaken fun _ ↦ .inr
    · exact keeps_moveFile hinv hmove h policy

/-- The files that a pattern stands for are moved one by one. -/
theorem keeps_moveMatching (x : Executor) {pattern : String} {destination : Path}
    (policy : OverwritePolicy)
    (hallowed : ∀ e, Wildcard.ofString pattern = .error e → allowed (.wildcard e))
    (h : ∀ wildcard, Wildcard.ofString pattern = .ok wildcard → destination.Usable nul ∧
      ((Path.below x.workingDirectory wildcard.parent).hasNul → nul) ∧
      ∀ name, Store.IsClean name →
        related ((Path.below x.workingDirectory wildcard.parent).child name) destination) :
    Keeps (Run.Sound inv nul) (Failure.SystemOr allowed)
      (x.moveMatching pattern destination policy) := by
  refine (ensures_splitWildcard pattern hallowed).bind fun wildcard ↦ ensures_assume fun hsplit ↦ ?_
  obtain ⟨hdestination, hclean, hrelated⟩ := h wildcard hsplit
  have hensure := StoreAction.keeps_makeDirectoryAndParents hinv hdestination
  refine (hmove.of_change (keeps_onStore (hensure _))).bind fun _ ↦ ?_
  refine Ensures.bind ((ensures_matchingFiles hinv x hclean).weaken (fun _ hr ↦ hr)
    (fun _ _ hr ↦ hr) fun f r hr ↦ ⟨hr.1, hmove.ofChange hr.2⟩) fun files ↦ ?_
  refine ensures_assume fun hfiles ↦ ?_
  refine Keeps.bind (keeps_forIn fun file hfile ↦ ?_) fun _ ↦ keeps_pure _
  obtain ⟨name, hname, rfl⟩ := hfiles file hfile
  have hentry := keeps_moveEntryFrom hinv hmove policy Store.pathLimit (hrelated name hname)
  exact Ensures.bind (hmove.info hinv _) fun _ ↦ (hentry.weaken fun _ ↦ .inr).yield

theorem keeps_move (x : Executor) {source destination : String} (policy : OverwritePolicy)
    (hallowed : ∀ e, Path.hasWildcard source → Wildcard.ofString source = .error e →
      allowed (.wildcard e))
    (hplain : Path.hasWildcard source = false →
      related (Path.resolve source x.workingDirectory) (Path.resolve destination x.workingDirectory))
    (hmatching : Path.hasWildcard source → ∀ wildcard, Wildcard.ofString source = .ok wildcard →
      (Path.resolve destination x.workingDirectory).Usable nul ∧
      ((Path.below x.workingDirectory wildcard.parent).hasNul → nul) ∧
      ∀ name, Store.IsClean name →
        related ((Path.below x.workingDirectory wildcard.parent).child name)
          (Path.resolve destination x.workingDirectory)) :
    Keeps (Run.Sound inv nul) allowed (x.move source destination policy) := by
  cases hwild : Path.hasWildcard source with
  | false =>
    rw [move_of_plain x destination policy hwild]
    exact keeps_moveEntryFrom hinv hmove policy _ (hplain hwild)
  | true =>
    rw [move_of_wildcard x destination policy hwild]
    exact keeps_surviving hinv hmove.embeddedNul
      (keeps_moveMatching hinv hmove x policy (fun e ↦ hallowed e hwild) (hmatching hwild))

end Moves

/-- Moves between usable paths keep an invariant, though they may be endless. -/
theorem movable_usable (hinv : Store.Invariant inv) (hnul : nul → allowed .embeddedNul)
    (hendless : allowed .endlessCopy) :
    Movable inv nul allowed fun S D ↦ S.Usable nul ∧ D.Usable nul where
  embeddedNul := hnul
  source h := h.1
  destination h := h.2
  move h := by
    refine (StoreAction.keeps_moveEntry hinv h.1.clean h.2).weaken ?_
    rintro f ((hf | ⟨rfl, hn⟩) | rfl)
    · exact .inl hf
    · exact .inr (hnul hn)
    · exact .inr hendless
  within h := ⟨h.1, usable_within h.2 h.1⟩
  child h _ hname := ⟨h.1.child hname, h.2⟩

/-! ## Commands and instructions -/

theorem keeps_runCommand (hinv : Store.Invariant inv) (x : Executor) (commandLine : String)
    (hnul : nul → allowed .embeddedNul)
    (hrunner : ∀ runner line e, x.runner = some runner → runner line = some e →
      Failure.SystemOr allowed (.external e)) :
    Keeps (Run.Sound inv nul) allowed (x.runCommand commandLine) := by
  have hinfo (message : String) : Keeps (Run.Sound inv nul) allowed (info message) :=
    (keeps_info hinv message).weaken fun f hf ↦ hf.1 ▸ hnul hf.2
  unfold runCommand
  dsimp only
  split
  · exact hinfo _
  next runner hrunner' =>
  refine (hinfo _).bind fun _ ↦ keeps_surviving hinv hnul ?_
  refine Keeps.bind (keeps_modify fun _ hr ↦ ⟨hr.store, hr.journal⟩) fun _ ↦ ?_
  split
  · exact keeps_count _
  · next e he => exact keeps_throw (hrunner _ _ e hrunner' he)

/-- Executing an instruction keeps every store well-formed. -/
theorem keeps_execute (x : Executor) (hx : x.workingDirectory.Proper) (instruction : Instruction) :
    Keeps Run.WellFormed (fun _ ↦ True) (x.execute instruction) := by
  have hinv := Store.invariant_wellFormed
  have husable (text : String) : (Path.resolve text x.workingDirectory).Usable True :=
    ⟨proper_resolve hx text, fun _ ↦ trivial⟩
  unfold execute perform
  split
  · exact (keeps_info hinv _).weaken fun _ _ ↦ trivial
  · exact keeps_delete hinv x id (fun _ _ _ ↦ trivial) fun _ _ _ _ ↦ trivial
  · exact keeps_runCommand hinv x _ id fun _ _ _ _ _ ↦ .inr trivial
  · have hmove : Movable Store.WellFormed True (fun _ ↦ True) _ := movable_usable hinv id trivial
    refine keeps_move hinv hmove x _ (fun _ _ _ ↦ trivial) (fun _ ↦ ⟨husable _, husable _⟩)
      fun _ wildcard hsplit ↦ ⟨husable _, fun _ ↦ trivial, fun name hname ↦ ?_⟩
    rw [parent_of_wildcard x.workingDirectory hsplit]
    exact ⟨(husable _).parent.child hname, husable _⟩

end Executor

end DeferredOps
