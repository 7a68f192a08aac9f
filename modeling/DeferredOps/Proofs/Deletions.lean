import DeferredOps.Proofs.MoveCases
import DeferredOps.Proofs.Path.Length
import DeferredOps.Proofs.Store.Without

/-!
# Deletions in any order

In a store without symbolic links deletions take what their targets stood for at the beginning, in
whatever order they are done and however often. An entry that an earlier deletion has left is taken by
a later one exactly if the later one was to take it, although targets may lie in one another, match the same
files or lead nowhere any more.
-/

namespace DeferredOps

open Action

namespace Executor

open RunAction

/-- What a deletion is to take from a store. -/
def Deletes (x : Executor) (s : Store) (target : String) (l : Location) : Prop :=
  if Path.hasWildcard target then
    ∃ wildcard, Wildcard.ofString target = .ok wildcard ∧
      s.Matches (Path.below x.workingDirectory wildcard.parent) wildcard.expression l
  else s.Covers (Path.resolve target x.workingDirectory) l

/-- A target without `..` and NUL whose pattern, if it is one, can be split. -/
structure Deletable (target : String) : Prop where
  noDotDot : ".." ∉ (Path.ofString target).parts
  clean : (Path.ofString target).hasNul = false
  splits : Path.hasWildcard target → ∃ wildcard, Wildcard.ofString target = .ok wildcard

/-- No file that a target matches has a path that is too long to be used. -/
def MatchesInReach (x : Executor) (s : Store) (target : String) : Prop :=
  ∀ wildcard files, Path.hasWildcard target → Wildcard.ofString target = .ok wildcard →
    s.matchingFiles (Path.below x.workingDirectory wildcard.parent) wildcard.expression = .ok files →
      ∀ file ∈ files, file.text.utf8ByteSize < Store.pathLimit

variable {x : Executor} {s s' : Store} {p : Path} {target : String} {wildcard : Wildcard}
  {gone : Location → Prop} {l : Location} {entry : Entry}

/-! ## Targets -/

theorem Deletable.straight_resolve (ht : Deletable target) (hx : x.workingDirectory.Straight) :
    (Path.resolve target x.workingDirectory).Straight :=
  hx.below fun _ hname ↦ ⟨Path.ne_dot_of_mem_ofString hname, fun h ↦ ht.noDotDot (h ▸ hname)⟩

theorem Deletable.straight_parent (ht : Deletable target) (hx : x.workingDirectory.Straight)
    (hsplit : Wildcard.ofString target = .ok wildcard) :
    (Path.below x.workingDirectory wildcard.parent).Straight := by
  rw [parent_of_wildcard _ hsplit]
  have hresolved := ht.straight_resolve hx
  exact ⟨hresolved.isAbsolute, fun name hname ↦ hresolved.noDots name (List.mem_of_mem_dropLast hname)⟩

theorem Deletable.clean_resolve (ht : Deletable target)
    (h : (Path.resolve target x.workingDirectory).hasNul) : x.workingDirectory.hasNul := by
  have hclean := ht.clean
  unfold Path.resolve Path.below at h
  split at h
  · exact absurd h (by simp [hclean])
  · rw [Path.hasNul, List.any_append, Bool.or_eq_true] at h
    exact h.resolve_right (by simpa [Path.hasNul] using hclean)

theorem Deletable.clean_parent (ht : Deletable target)
    (hsplit : Wildcard.ofString target = .ok wildcard)
    (h : (Path.below x.workingDirectory wildcard.parent).hasNul) : x.workingDirectory.hasNul := by
  rw [parent_of_wildcard _ hsplit] at h
  obtain ⟨name, hname, hnul⟩ := List.any_eq_true.mp h
  exact ht.clean_resolve (List.any_eq_true.mpr ⟨name, List.mem_of_mem_dropLast hname, hnul⟩)

theorem deletes_of_without (hs : s.WellFormed) (hfree : s.LinkFree)
    (hx : x.workingDirectory.Straight) (ht : Deletable target) (h : s.Without gone s')
    (hentry : s'.entry? l = some entry) : x.Deletes s' target l ↔ x.Deletes s target l := by
  unfold Deletes
  split
  · exact exists_congr fun wildcard ↦ and_congr_right fun hsplit ↦
      Store.matches_of_without hs hfree (ht.straight_parent hx hsplit) h hentry
  · exact Store.covers_of_without hs hfree (ht.straight_resolve hx) h hentry

theorem MatchesInReach.of_without (hreach : x.MatchesInReach s target) (hs : s.WellFormed)
    (hfree : s.LinkFree) (hx : x.workingDirectory.Straight) (ht : Deletable target)
    (h : s.Without gone s') : x.MatchesInReach s' target := by
  intro wildcard files hwild hsplit hfiles file hfile
  have hp := ht.straight_parent hx hsplit
  have hs' := h.wellFormed
  have hfree' := h.linkFree hfree
  obtain ⟨directory, hlisted, -⟩ := Store.listed_of_matchingFiles hfiles
  obtain ⟨hnul, hshort, hdirectory, hdir⟩ := (Store.listed_straight_iff hs' hfree' hp).mp hlisted
  obtain ⟨_, heq, -, hmem⟩ := Store.matchingFiles_of_listed hs' hfree' hlisted wildcard.expression
  cases hfiles.symm.trans heq
  obtain ⟨name, id, content, hname, hentry, hmatches⟩ := (hmem file).mp hfile
  have hlisted₀ := (Store.listed_straight_iff hs hfree hp).mpr
    ⟨hnul, hshort, hdirectory, (h.of_entry hdir).2⟩
  obtain ⟨files₀, hfiles₀, -, hmem₀⟩ :=
    Store.matchingFiles_of_listed hs hfree hlisted₀ wildcard.expression
  exact hreach wildcard files₀ hwild hsplit hfiles₀ file
    ((hmem₀ file).mpr ⟨name, id, content, hname, (h.of_entry hentry).2, hmatches⟩)

/-! ## One deletion -/

/-- Asking leaves the store, and the failure of a question about it is survived. -/
theorem ends_ask_plain {question : Store → Except Failure Bool}
    (hsystem : ∀ f, question s = .error f → f.isSystem) :
    Ensures (Run.Ends (· = s)) (ask question)
      (fun a r ↦ question s = .ok a ∧ Run.Ends (· = s) r)
      (fun f r ↦ f.isSystem ∧ Run.Ends (· = s) r) := by
  rintro r ⟨rfl, hsilent⟩
  rw [run_ask]
  cases hanswer : question r.store with
  | ok a => exact ⟨rfl, rfl, hsilent⟩
  | error f => exact ⟨hsystem f hanswer, rfl, hsilent⟩

theorem ends_deleteFile {file : Path} {id : ℕ} {content : Bytes} (hs : s.WellFormed)
    (hfile : file.Straight) (hnul : file.hasNul = false)
    (hshort : file.text.utf8ByteSize < Store.pathLimit)
    (hentry : s.entry? file.parts = some (.file id content)) :
    Ensures (Run.Ends (· = s)) (deleteFile file)
      (fun _ ↦ Run.Ends (s.Without (· = file.parts))) (fun _ _ ↦ False) := by
  refine (on_info _).bind fun _ ↦ Ensures.bind (Q := fun _ ↦ Run.Ends (s.Without (· = file.parts)))
    ?_ fun _ ↦ on_count fun _ _ h ↦ h
  rintro r ⟨rfl, hsilent⟩
  have hrun : (StoreAction.unlink file).run r.store = (.ok (), r.store.erase file.parts) := by
    rw [StoreAction.unlink, StoreAction.run_change,
      Store.unlink_of_straight hs hfile hshort hentry rfl]
    simp [hnul]
  rw [run_onStore, hrun]
  exact ⟨Store.without_erase_file hs hentry, hsilent⟩

/-- The deletion of an entry. -/
theorem ends_deletePlain_of_found (hs : s.WellFormed) (hfree : s.LinkFree) (hp : p.Straight)
    (hfound : s.entryAt .kept p = .ok (some (p.parts, entry))) :
    Ensures (Run.Ends (· = s)) (deletePlain p) (fun _ ↦ Run.Ends (s.Without (s.Covers p)))
      (fun f r ↦ f.isSystem ∧ Run.Ends (s.Without (s.Covers p)) r) := by
  obtain ⟨hnul, hshort, -, hentry⟩ := (Store.entryAt_straight_iff hs hfree hp).mp hfound
  have hfollowed : s.entryAt .followed p = .ok (some (p.parts, entry)) :=
    (Store.entryAt_straight_iff hs hfree hp).mpr ⟨hnul, hshort, rfl, hentry⟩
  have hdirectory : s.isDirectory p = .ok entry.isDir := by
    simp [Store.isDirectory, hfollowed, Except.map, Store.answers]
  have hcovers {l : Location} := Store.covers_iff_of_found (l := l) hfound
  refine Ensures.bind (on_ask_of_eq fun _ _ heq ↦ heq ▸ hdirectory) fun there ↦
    ensures_assume fun hthere ↦ ?_
  subst hthere
  cases entry with
  | link text => exact absurd hentry (hfree _ _)
  | dir =>
    rw [if_pos (by rfl)]
    refine (on_info _).bind fun _ ↦ Ensures.bind (Q := fun _ ↦ Run.Ends (s.Without (s.Covers p)))
      ?_ fun _ ↦ on_count fun _ _ h ↦ h
    have hremoved {s' : Store} (h : s.Without (fun l ↦ p.parts <+: l ∧ l ≠ []) s') :
        s.Without (s.Covers p) s' := h.congr fun _ ↦ hcovers.symm
    refine (on_onStore fun _ ↦
      StoreAction.ensures_removeTree_straight hs hfree hp hnul hshort hentry).weaken
      (fun _ hr ↦ hr) (fun _ _ hr ↦ ends_mono (fun _ ↦ hremoved) hr) fun f r hr ↦ ?_
    exact ⟨hr.state.1, hremoved hr.state.2, hr.silent⟩
  | file id content =>
    have hfile : s.isFile p = .ok true := by
      simp [Store.isFile, hfollowed, Except.map, Store.answers, Entry.isFile]
    rw [if_neg (by simp [Entry.isDir])]
    refine Ensures.bind (on_ask_of_eq fun _ _ heq ↦ heq ▸ hfile) fun there ↦
      ensures_assume fun hthere ↦ ?_
    subst hthere
    rw [if_pos rfl]
    refine (ends_deleteFile hs hp hnul hshort hentry).weaken (fun _ hr ↦ hr)
      (fun _ _ hr ↦ ends_mono (fun s' h ↦ h.congr fun hl ↦ ?_) hr) fun _ _ h ↦ h.elim
    rw [hcovers]
    exact Store.eq_iff_below_file hs hentry hl

/-- The deletion of what is not there, or cannot be asked about. -/
theorem ends_deletePlain_of_absent (hs : s.WellFormed) (hfree : s.LinkFree) (hp : p.Straight)
    (habsent : ∀ entry, s.entryAt .kept p ≠ .ok (some (p.parts, entry))) :
    Ensures (Run.Ends (· = s)) (deletePlain p) (fun _ ↦ Run.Ends (s.Without (s.Covers p)))
      (fun f r ↦ f.isSystem ∧ Run.Ends (s.Without (s.Covers p)) r) := by
  have hcovers {l : Location} : ¬ s.Covers p l := by
    rintro ⟨location, entry, hother, -⟩
    obtain ⟨-, -, rfl, -⟩ := (Store.entryAt_straight_iff hs hfree hp).mp hother
    exact habsent entry hother
  have hno {last : Store.LastLink} {test : Entry → Bool}
      (h : (s.entryAt last p).map (Store.answers test) = .ok true) : False := by
    cases hanswer : s.entryAt last p with
    | error => simp [hanswer, Except.map] at h
    | ok answer =>
      cases answer with
      | none => simp [hanswer, Except.map, Store.answers] at h
      | some found =>
        obtain ⟨location, entry⟩ := found
        obtain ⟨hnul, hshort, rfl, hthere⟩ := (Store.entryAt_straight_iff hs hfree hp).mp hanswer
        exact habsent entry ((Store.entryAt_straight_iff hs hfree hp).mpr ⟨hnul, hshort, rfl, hthere⟩)
  have hstill {r : Run} (hr : Run.Ends (· = s) r) : Run.Ends (s.Without (s.Covers p)) r :=
    ends_mono (fun _ heq ↦ heq ▸ (Store.Without.refl hs).congr fun _ ↦ iff_of_false id hcovers) hr
  have hask {question : Store → Except Failure Bool}
      (hsystem : ∀ f, question s = .error f → f.isSystem) :
      Ensures (Run.Ends (· = s)) (ask question)
        (fun a r ↦ question s = .ok a ∧ Run.Ends (· = s) r)
        (fun f r ↦ f.isSystem ∧ Run.Ends (s.Without (s.Covers p)) r) :=
    (ends_ask_plain hsystem).weaken (fun _ hr ↦ hr) (fun _ _ hr ↦ hr) fun _ _ hr ↦ ⟨hr.1, hstill hr.2⟩
  refine (hask fun _ ↦ Store.isSystem_of_isDirectory).bind fun there ↦ ensures_assume fun hthere ↦ ?_
  split
  · next htrue => exact (hno (htrue ▸ hthere)).elim
  refine (hask fun _ ↦ Store.isSystem_of_isFile).bind fun there ↦ ensures_assume fun hthere ↦ ?_
  split
  · next htrue => exact (hno (htrue ▸ hthere)).elim
  refine (hask fun _ ↦ Store.isSystem_of_isLink).bind fun there ↦ ensures_assume fun hthere ↦ ?_
  split
  · next htrue => exact (hno (htrue ▸ hthere)).elim
  · exact ensures_pure fun _ hr ↦ hstill hr

/-- The deletion of what a path leads to, if it does. -/
theorem ends_deletePlain (hs : s.WellFormed) (hfree : s.LinkFree) (hp : p.Straight) :
    Ensures (Run.Ends (· = s)) (deletePlain p) (fun _ ↦ Run.Ends (s.Without (s.Covers p)))
      (fun f r ↦ f.isSystem ∧ Run.Ends (s.Without (s.Covers p)) r) := by
  by_cases hfound : ∃ entry, s.entryAt .kept p = .ok (some (p.parts, entry))
  · obtain ⟨entry, hfound⟩ := hfound
    exact ends_deletePlain_of_found hs hfree hp hfound
  · exact ends_deletePlain_of_absent hs hfree hp (not_exists.mp hfound)

/-- The deletion of files one after another. -/
theorem ends_deleteFiles (hs : s.WellFormed) {files : List Path} (hnodup : (files.map Path.parts).Nodup)
    (hfiles : ∀ file ∈ files, file.Straight ∧ file.hasNul = false ∧
      file.text.utf8ByteSize < Store.pathLimit ∧
        ∃ id content, s.entry? file.parts = some (.file id content)) :
    Ensures (Run.Ends (· = s)) (files.forM deleteFile)
      (fun _ ↦ Run.Ends (s.Without (· ∈ files.map Path.parts))) (fun _ _ ↦ False) := by
  let I (rest : List Path) : Run → Prop :=
    Run.Ends fun s' ↦ ∃ done, done ++ rest = files ∧ s.Without (· ∈ done.map Path.parts) s'
  refine (ensures_forM (I := I) (fun file rest r hr ↦ ?_) files).weaken (fun r hr ↦ ?_)
    (fun _ r hr ↦ ?_) fun _ _ h ↦ h
  · obtain ⟨⟨done, hdone, hwithout⟩, hsilent⟩ := hr
    have hmem : file ∈ files := hdone ▸ List.mem_append_right _ List.mem_cons_self
    obtain ⟨hstraight, hnul, hshort, id, content, hentry⟩ := hfiles file hmem
    have hlater : file.parts ∉ done.map Path.parts := by
      rw [← hdone, List.map_append, List.map_cons] at hnodup
      exact fun h ↦ (List.disjoint_of_nodup_append hnodup) h List.mem_cons_self
    refine ((ends_deleteFile hwithout.wellFormed hstraight hnul hshort
      ((hwithout.stays hlater).trans hentry)).weaken (fun _ hr ↦ hr)
      (fun _ _ hr ↦ ends_mono (fun s' h ↦ ?_) hr) fun _ _ h ↦ h) r ⟨rfl, hsilent⟩
    refine ⟨done ++ [file], by simp [hdone], (hwithout.trans h).congr fun _ ↦ ?_⟩
    simp
  · exact ends_mono (fun _ heq ↦ ⟨[], rfl, heq ▸ (Store.Without.refl hs).congr fun _ ↦ by simp⟩) hr
  · refine ends_mono (fun s' ⟨done, hdone, h⟩ ↦ ?_) hr
    rw [List.append_nil] at hdone
    exact hdone ▸ h

/-- The deletion of the files that match an expression. -/
theorem ends_deleteMatching (hs : s.WellFormed) (hfree : s.LinkFree)
    (hp : (Path.below x.workingDirectory wildcard.parent).Straight)
    (hreach : ∀ files, s.matchingFiles (Path.below x.workingDirectory wildcard.parent)
      wildcard.expression = .ok files → ∀ file ∈ files, file.text.utf8ByteSize < Store.pathLimit) :
    Ensures (Run.Ends (· = s)) (do (← x.matchingFiles wildcard).forM deleteFile)
      (fun _ ↦ Run.Ends (s.Without
        (s.Matches (Path.below x.workingDirectory wildcard.parent) wildcard.expression)))
      (fun f r ↦ f.OfChange (Path.below x.workingDirectory wildcard.parent).hasNul ∧
        Run.Ends (s.Without
          (s.Matches (Path.below x.workingDirectory wildcard.parent) wildcard.expression)) r) := by
  let p := Path.below x.workingDirectory wildcard.parent
  rintro r ⟨rfl, hsilent⟩
  rw [run_bind, matchingFiles, run_ask]
  cases hlisted : r.store.listed p with
  | error f =>
    have hfailed : r.store.matchingFiles p wildcard.expression = .error f := by
      simp [Store.matchingFiles, Store.matchingNames, hlisted, bind, Except.bind, Except.map]
    rw [hfailed]
    refine ⟨Store.ofChange_of_listed hlisted, (Store.Without.refl hs).congr fun _ ↦ ?_, hsilent⟩
    refine iff_of_false id ?_
    rintro ⟨directory, _, _, _, hother, -⟩
    cases hlisted.symm.trans hother
  | ok directory =>
    obtain ⟨files, hfiles, hnodup, hmem⟩ :=
      Store.matchingFiles_of_listed hs hfree hlisted wildcard.expression
    obtain ⟨hnul, -, hdirectory, -⟩ := (Store.listed_straight_iff hs hfree hp).mp hlisted
    rw [hfiles]
    have hparts (name : String) : (p.child name).parts = directory ++ [name] := by
      rw [hdirectory]
      rfl
    refine (ends_deleteFiles hs ?_ fun file hfile ↦ ?_).weaken (fun _ hr ↦ hr)
      (fun _ _ hr ↦ ends_mono (fun s' h ↦ h.congr fun {l e} hl ↦ ?_) hr)
      (fun _ _ h ↦ h.elim) r ⟨rfl, hsilent⟩
    · refine List.Nodup.map_on (fun file hfile other hother heq ↦ ?_) hnodup
      obtain ⟨name, -, -, rfl, -⟩ := (hmem file).mp hfile
      obtain ⟨otherName, -, -, rfl, -⟩ := (hmem other).mp hother
      simpa [Path.child] using heq
    · obtain ⟨name, id, content, rfl, hentry, hmatches⟩ := (hmem file).mp hfile
      have hname := hs.name hentry
      refine ⟨hp.child hname.ne_dot hname.ne_dotDot, ?_, hreach files hfiles _ hfile, id, content, ?_⟩
      · rw [Path.hasNul_child hname.isClean]
        exact hnul
      · rw [hparts]
        exact hentry
    · rw [List.mem_map]
      constructor
      · rintro ⟨file, hfile, rfl⟩
        obtain ⟨name, id, content, rfl, hentry, hmatches⟩ := (hmem file).mp hfile
        rw [hparts]
        exact ⟨directory, name, id, content, hlisted, rfl, hentry, hmatches⟩
      · rintro ⟨other, name, id, content, hother, rfl, hentry, hmatches⟩
        cases hlisted.symm.trans hother
        exact ⟨p.child name, (hmem _).mpr ⟨name, id, content, rfl, hentry, hmatches⟩, hparts name⟩

/-- A deletion takes what it is to take. It fails only in a working directory whose path holds NUL. -/
theorem ends_delete (hs : s.WellFormed) (hfree : s.LinkFree) (hx : x.workingDirectory.Straight)
    (ht : Deletable target) (hreach : x.MatchesInReach s target) :
    Ensures (Run.Ends (· = s)) (x.delete target)
      (fun _ ↦ Run.Ends (s.Without (x.Deletes s target)))
      (fun _ r ↦ x.workingDirectory.hasNul ∧ Run.Ends (s.Without (x.Deletes s target)) r) := by
  have hsurvived {operation : RunAction Unit}
      (h : Ensures (Run.Ends (· = s)) operation (fun _ ↦ Run.Ends (s.Without (x.Deletes s target)))
        (fun f r ↦ f.OfChange x.workingDirectory.hasNul ∧
          Run.Ends (s.Without (x.Deletes s target)) r)) :
      Ensures (Run.Ends (· = s)) (surviving (fun f ↦ Report.failedDelete
        (Path.resolve target x.workingDirectory) f.reason) operation)
        (fun _ ↦ Run.Ends (s.Without (x.Deletes s target)))
        (fun _ r ↦ x.workingDirectory.hasNul ∧ Run.Ends (s.Without (x.Deletes s target)) r) := by
    refine (on_surviving (E := fun f s' _ ↦ f.OfChange x.workingDirectory.hasNul ∧
      s.Without (x.Deletes s target) s') (h.weaken (fun _ hr ↦ hr) (fun _ _ hr ↦ hr)
      fun _ _ hr ↦ ⟨⟨hr.1, hr.2.state⟩, hr.2.silent⟩) fun _ _ _ _ h ↦ h.2).weaken (fun _ hr ↦ hr)
      (fun _ _ hr ↦ hr) fun f r hr ↦ ?_
    obtain ⟨⟨hsystem, hf, h⟩, hsilent⟩ := hr
    refine ⟨?_, h, hsilent⟩
    rcases hf with hf | ⟨-, hnul⟩
    · simp [hf] at hsystem
    · exact hnul
  unfold delete
  refine hsurvived ?_
  by_cases hwild : Path.hasWildcard target
  · obtain ⟨wildcard, hsplit⟩ := ht.splits hwild
    have hdeletes {l : Location} : s.Matches (Path.below x.workingDirectory wildcard.parent)
        wildcard.expression l ↔ x.Deletes s target l := by
      rw [Deletes, if_pos hwild]
      refine ⟨fun h ↦ ⟨wildcard, hsplit, h⟩, fun ⟨other, hother, h⟩ ↦ ?_⟩
      cases hsplit.symm.trans hother
      exact h
    rw [if_pos hwild, splitWildcard, hsplit, pure_bind]
    exact (ends_deleteMatching hs hfree (ht.straight_parent hx hsplit) fun files hfiles ↦
      hreach wildcard files hwild hsplit hfiles).weaken (fun _ hr ↦ hr)
      (fun _ _ hr ↦ ends_mono (fun _ h ↦ h.congr fun _ ↦ hdeletes) hr)
      fun _ _ hr ↦ ⟨hr.1.mono (ht.clean_parent hsplit), ends_mono (fun _ h ↦ h.congr fun _ ↦ hdeletes) hr.2⟩
  · have hdeletes {l : Location} :
        s.Covers (Path.resolve target x.workingDirectory) l ↔ x.Deletes s target l := by
      rw [Deletes, if_neg hwild]
    rw [if_neg hwild]
    exact (ends_deletePlain hs hfree (ht.straight_resolve hx)).weaken (fun _ hr ↦ hr)
      (fun _ _ hr ↦ ends_mono (fun _ h ↦ h.congr fun _ ↦ hdeletes) hr)
      fun _ _ hr ↦ ⟨.of_system hr.1, ends_mono (fun _ h ↦ h.congr fun _ ↦ hdeletes) hr.2⟩

/-! ## Deletions one after another -/

/-- The run after deletions one after another. Each is tried, however those before it have ended. -/
def deleteAll (x : Executor) (targets : List String) (r : Run) : Run :=
  targets.foldl (fun r target ↦ ((x.perform (.delete target)).run r).2) r

/-- Another deletion after some removals takes what it was to take before them. -/
theorem without_of_delete {r : Run} (hs : s.WellFormed) (hfree : s.LinkFree)
    (hx : x.workingDirectory.Straight) (ht : Deletable target) (hreach : x.MatchesInReach s target)
    (hr : Run.Ends (s.Without gone) r) :
    Run.Ends (s.Without fun l ↦ gone l ∨ x.Deletes s target l)
        ((x.perform (.delete target)).run r).2 ∧
      (x.workingDirectory.hasNul = false → ((x.perform (.delete target)).run r).1 = .ok ()) := by
  obtain ⟨h, hsilent⟩ := hr
  have hnext {s' : Store} (h' : r.store.Without (x.Deletes r.store target) s') :
      s.Without (fun l ↦ gone l ∨ x.Deletes s target l) s' := by
    refine (h.trans h').congr fun {l e} hentry ↦ or_congr_right' fun hstays ↦ ?_
    exact deletes_of_without hs hfree hx ht h ((h.stays hstays).trans hentry)
  have hend := ends_delete h.wellFormed (h.linkFree hfree) hx ht
    (hreach.of_without hs hfree hx ht h) r ⟨rfl, hsilent⟩
  change Outcome _ _ ((x.perform (.delete target)).run r) at hend
  rcases hrun : (x.perform (.delete target)).run r with ⟨f | ⟨⟩, r'⟩ <;> rw [hrun] at hend
  · refine ⟨ends_mono (fun _ ↦ hnext) hend.2, fun hnul ↦ ?_⟩
    cases hnul.symm.trans hend.1
  · exact ⟨ends_mono (fun _ ↦ hnext) hend, fun _ ↦ rfl⟩

/-- In a directory whose path leaves room for a name every file is in reach. -/
theorem matchesInReach_of_short (hs : s.WellFormed)
    (hshort : ∀ wildcard, Wildcard.ofString target = .ok wildcard →
      (Path.below x.workingDirectory wildcard.parent).text.utf8ByteSize + Store.nameLimit + 1 <
        Store.pathLimit) : x.MatchesInReach s target := by
  intro wildcard files _ hsplit hfiles file hfile
  have hroom := hshort wildcard hsplit
  obtain ⟨directory, -, hmem⟩ := Store.listed_of_matchingFiles hfiles
  obtain ⟨name, hname, rfl, -⟩ := hmem file hfile
  obtain ⟨entry, hentry⟩ := Store.exists_entry_of_mem_names hname
  have hlength := (hs.name hentry).short
  have hchild := Path.size_text_child (Path.below x.workingDirectory wildcard.parent) name
  omega

/-- Files whose paths are too long stay. -/
theorem still_of_unreachable {r : Run} (hsilent : r.journal.file = none)
    (hsplit : Wildcard.ofString target = .ok wildcard)
    (hwild : Path.hasWildcard target)
    (hlong : ∀ files, r.store.matchingFiles (Path.below x.workingDirectory wildcard.parent)
      wildcard.expression = .ok files → ∀ file ∈ files, Store.pathLimit ≤ file.text.utf8ByteSize) :
    ((x.perform (.delete target)).run r).2.store = r.store := by
  have hfile {file : Path} (hfile : Store.pathLimit ≤ file.text.utf8ByteSize) :
      Keeps (Run.Ends (· = r.store)) (fun _ ↦ True) (deleteFile file) := by
    refine (on_info _).bind fun _ ↦ Ensures.bind (Q := fun _ ↦ Run.Ends (· = r.store))
      (keeps_of_state fun r' hr' ↦ ?_) fun _ ↦ on_count fun _ _ h ↦ h
    rw [run_onStore, StoreAction.unlink, StoreAction.run_change]
    have hrefused : r'.store.unlink file = .error .nameTooLong := by
      simp [Store.unlink, Store.slot, Store.startChecked, hfile, bind, Except.bind]
    rw [hrefused]
    split <;> exact hr'
  have hdelete : Keeps (Run.Ends (· = r.store)) (fun _ ↦ True) (x.delete target) := by
    refine (ends_surviving ?_).weaken (fun _ hr ↦ hr) (fun _ _ hr ↦ hr) fun _ _ hr ↦ ⟨hr, trivial⟩
    rw [if_pos hwild, splitWildcard, hsplit, pure_bind]
    refine Ensures.bind (ends_ask _) fun files ↦ ensures_assume fun hfiles ↦ ?_
    have hloop : Keeps (Run.Ends (· = r.store)) (fun _ ↦ True) (files.forM deleteFile) :=
      keeps_forM fun file hmem ↦ hfile (hlong files hfiles file hmem)
    exact Ensures.weaken hloop (fun _ hr ↦ hr) (fun _ _ hr ↦ hr) fun _ _ hr ↦ hr.1
  exact (hdelete.state ⟨rfl, hsilent⟩).state

/-- Directories of one name in one another. -/
def nested (name : String) : ℕ → Store
  | 0 => .empty
  | depth + 1 => (nested name depth).put (List.replicate (depth + 1) name) .dir

theorem wellFormed_nested {name : String} (hname : IsName name) (depth : ℕ) :
    (nested name depth).WellFormed ∧
      Store.entry? (nested name depth) (List.replicate depth name) = some .dir ∧
        ∀ l, depth < l.length → Store.entry? (nested name depth) l = none := by
  induction depth with
  | zero =>
    refine ⟨Store.wellFormed_empty, rfl, fun l hl ↦ ?_⟩
    rw [Store.entry?_of_ne_nil (List.ne_nil_of_length_pos hl)]
    rfl
  | succ depth ih =>
    obtain ⟨hs, hdir, hfree⟩ := ih
    have hne : List.replicate (depth + 1) name ≠ [] := by simp
    refine ⟨?_, ?_, fun l hl ↦ ?_⟩
    · unfold nested
      rw [List.replicate_succ']
      exact hs.put hdir hname (hfree _ (by simp)) (by simp)
    · rw [nested, Store.entry?_put hne, if_pos rfl]
    · rw [nested, Store.entry?_put hne, if_neg ?_, hfree l (by omega)]
      rintro rfl
      simp at hl

/-- A name of a given length. -/
def letters (count : ℕ) : String :=
  String.ofList (List.replicate count 'd')

theorem size_letters (count : ℕ) : (letters count).utf8ByteSize = count := by
  induction count with
  | zero => rfl
  | succ count ih =>
    have hlast : letters (count + 1) = letters count ++ "d" := by
      rw [letters, List.replicate_succ', String.ofList_append]
      rfl
    rw [hlast, String.utf8ByteSize_append, ih]
    rfl

theorem isName_letters {count : ℕ} (hlong : 2 < count) (hshort : count ≤ Store.nameLimit) :
    IsName (letters count) := by
  have hne {text : String} (h : text.utf8ByteSize ≤ 2) : letters count ≠ text := by
    rintro rfl
    rw [size_letters] at h
    omega
  have hletter {c : Char} (h : c ∈ (letters count).toList) : c = 'd' := by
    rw [letters, String.toList_ofList] at h
    exact List.eq_of_mem_replicate h
  refine ⟨hne (by decide), hne (by decide), hne (by decide), fun h ↦ ?_, fun h ↦ ?_, ?_⟩
  · cases hletter h
  · cases hletter h
  · rw [size_letters]
    exact hshort

/-- The expression `*` matches every name. -/
theorem matchesName_star (name : String) : NamePattern.matchesName "*" name := by
  have hend (answers : List Bool) :
      ∃ later, NamePattern.anyFrom (answers ++ [true]) = true :: later := by
    induction answers with
    | nil => exact ⟨[], rfl⟩
    | cons answer rest ih =>
      obtain ⟨later, hlater⟩ := ih
      exact ⟨true :: later, by simp [NamePattern.anyFrom, hlater]⟩
  obtain ⟨later, hlater⟩ := hend (name.toList.map fun _ ↦ false)
  have hitems : NamePattern.items "*" = [.star] := by decide
  rw [NamePattern.matchesName, hitems, NamePattern.matchesItems, NamePattern.matchTable,
    NamePattern.matchTable, hlater]
  rfl

/-- The path of a directory that is deep but in reach. -/
def deepDirectory : Path :=
  ⟨.top, List.replicate 16 (letters 250)⟩

/-- A file in this directory, out of reach. -/
def deepFile : Store :=
  (nested (letters 250) 16).putFile (deepDirectory.parts ++ [letters 250]) []

theorem isName_of_deep {name : String} (h : name ∈ deepDirectory.parts) : IsName name :=
  List.eq_of_mem_replicate h ▸ isName_letters (by decide) (by decide)

theorem straight_deepDirectory : deepDirectory.Straight :=
  ⟨rfl, fun _ hname ↦ ⟨(isName_of_deep hname).ne_dot, (isName_of_deep hname).ne_dotDot⟩⟩

theorem wellFormed_deepFile : deepFile.WellFormed := by
  have hname : IsName (letters 250) := isName_letters (by decide) (by decide)
  obtain ⟨hs, hdir, hfree⟩ := wellFormed_nested hname 16
  exact hs.putFile hdir hname (hfree _ (by simp [deepDirectory]))

theorem linkFree_deepFile : deepFile.LinkFree :=
  Store.LinkFree.of_entries (by decide +kernel)

theorem entry?_deepFile :
    deepFile.entry? (deepDirectory.parts ++ [letters 250]) =
      some (.file (nested (letters 250) 16).freshId []) := by
  rw [deepFile, Store.entry?_putFile (by simp), if_pos rfl]

theorem size_deepDirectory : deepDirectory.text.utf8ByteSize = 4016 := by
  have hsize := Path.size_text (p := deepDirectory) (by simp [deepDirectory])
  have hslash : (Path.anchorText .top).utf8ByteSize = 1 := rfl
  simp only [deepDirectory, Path.namesSize_replicate, size_letters, hslash] at hsize ⊢
  omega

theorem hasNul_deepDirectory : deepDirectory.hasNul = false := by
  rw [Path.hasNul, List.any_eq_false]
  exact fun name hname ↦ by simpa using (isName_of_deep hname).noNul

/-- With a file beside them at the top, the directories are still there, and nothing in the deepest. -/
theorem beside_deepDirectory {name : String} {content : Bytes} {s : Store} (hname : IsName name)
    (hnone : Store.entry? (nested (letters 250) 16) [name] = none)
    (hs : s = (nested (letters 250) 16).putFile [name] content) :
    s.WellFormed ∧ s.LinkFree ∧ s.entry? deepDirectory.parts = some .dir ∧
      ∀ other, s.entry? (deepDirectory.parts ++ [other]) = none := by
  obtain ⟨hbare, hdir, hfree⟩ := wellFormed_nested (@isName_letters 250 (by decide) (by decide)) 16
  have hlinkFree : Store.LinkFree (nested (letters 250) 16) := .of_entries (by decide +kernel)
  generalize nested (letters 250) 16 = bare at *
  have hput (l : Location) : s.entry? l =
      if l = [name] then some (.file bare.freshId content) else bare.entry? l := by
    rw [hs, Store.entry?_putFile (by simp)]
  refine ⟨?_, fun l text ↦ ?_, ?_, fun other ↦ ?_⟩
  · have hwell : (bare.putFile ([] ++ [name]) content).WellFormed :=
      hbare.putFile (Store.entry?_nil _) hname hnone
    rwa [List.nil_append, ← hs] at hwell
  · rw [hput]
    split
    · simp
    · exact hlinkFree l text
  · rw [hput, if_neg (by simp [deepDirectory]), deepDirectory, hdir]
  · rw [hput, if_neg (by simp [deepDirectory]), hfree _ (by simp [deepDirectory])]

theorem listed_deepFile : deepFile.listed deepDirectory = .ok deepDirectory.parts := by
  refine (Store.listed_straight_iff wellFormed_deepFile linkFree_deepFile
    straight_deepDirectory).mpr
      ⟨hasNul_deepDirectory, ?_, rfl, wellFormed_deepFile.parent entry?_deepFile⟩
  rw [size_deepDirectory]
  decide

/-- The only file in the directory has a path that is too long. -/
theorem deepFile_unreachable {expression : String} {files : List Path} {file : Path}
    (hfiles : deepFile.matchingFiles deepDirectory expression = .ok files) (hfile : file ∈ files) :
    Store.pathLimit ≤ file.text.utf8ByteSize := by
  obtain ⟨directory, hlisted, hmem⟩ := Store.listed_of_matchingFiles hfiles
  cases listed_deepFile.symm.trans hlisted
  obtain ⟨name, hname, rfl, -⟩ := hmem file hfile
  obtain rfl : name = letters 250 := by
    rw [Store.mem_names, deepFile, Store.entry?_putFile (by simp)] at hname
    split at hname
    · next heq => simpa using heq
    · have hfree := (wellFormed_nested (@isName_letters 250 (by decide) (by decide)) 16).2.2
      rw [hfree _ (by simp [deepDirectory])] at hname
      cases hname
  have hsize := Path.size_text (p := deepDirectory.child (letters 250)) (by simp [Path.child])
  have hdirectory := Path.size_text (p := deepDirectory) (by simp [deepDirectory])
  have hlimit : Store.pathLimit = 4096 := rfl
  rw [size_deepDirectory] at hdirectory
  simp only [Path.child, Path.namesSize_append, Path.namesSize_cons, Path.namesSize_nil,
    size_letters] at hsize ⊢
  omega

/-- A run that reports to a file beside another one. -/
def reporting : Run :=
  { Run.first (Store.empty.putFile ["f"] [102]) with journal := ⟨some ⟨.top, ["e"]⟩, "", false, []⟩ }

end Executor

end DeferredOps
