import DeferredOps.Proofs.Executor
import DeferredOps.Proofs.SilentRun
import DeferredOps.Proofs.Store.LinkFree

/-!
# The failures that leave an instruction

Three failures leave an instruction: a pattern that cannot be used, a path with the character NUL
that is handed to the file system, and an endless copy. The first two do so exactly where the
operands say, and the third only where a symbolic link or a doubled slash hides that a directory is
copied into itself.
-/

namespace DeferredOps

open Action

namespace Executor

open RunAction

variable {s : Store} {source destination target : Path} {policy : OverwritePolicy}

/-- What the failures that a run survives leave behind: the store as it was. -/
def Refused (s : Store) (f : Failure) : Store → Counters → Prop :=
  fun s' _ ↦ s' = s ∧ f.isSystem

/-- The runs on one store. -/
abbrev Still (s : Store) : Run → Prop := Run.On fun s' _ ↦ s' = s

/-! ## Missing sources -/

theorem still_ask {α : Type} {question : Store → Except Failure α}
    (h : ∀ f, question s = .error f → f.isSystem) :
    Ensures (Still s) (ask question) (fun a r ↦ question s = .ok a ∧ Still s r)
      (fun f ↦ Run.On (Refused s f)) := by
  refine on_ask.weaken (fun _ hr ↦ hr) (fun a r hr ↦ ?_) fun f r hr ↦ ?_
  · obtain ⟨⟨heq, hanswer⟩, hsilent⟩ := hr
    exact ⟨heq ▸ hanswer, heq, hsilent⟩
  · obtain ⟨⟨heq, hanswer⟩, hsilent⟩ := hr
    exact ⟨⟨heq, h f (heq ▸ hanswer)⟩, hsilent⟩

theorem still_mayReplace (policy : OverwritePolicy) (target : Path) :
    Ensures (Still s) (mayReplace policy target) (fun _ ↦ Still s)
      (fun f ↦ Run.On (Refused s f)) := by
  unfold mayReplace
  split
  · exact ensures_pure fun _ hr ↦ hr
  · refine (still_ask fun f h ↦ Store.isSystem_of_exists h).bind fun there ↦ ?_
    exact ensures_pure fun _ hr ↦ hr.2

theorem still_skip (message : String) :
    Ensures (Still s) (do info message; count "skipped") (fun _ ↦ Still s)
      (fun f ↦ Run.On (Refused s f)) :=
  (on_info _).bind fun _ ↦ on_count fun _ _ h ↦ h

theorem exists_of_isDirectory {p : Path} (h : s.isDirectory p = .ok true) :
    s.exists? p = .ok true := by
  unfold Store.isDirectory at h
  unfold Store.exists?
  rcases hentry : s.entryAt .followed p with f | _ | found <;> simp_all [Except.map, Store.answers]

/-- A file that is not there is not moved, whatever the paths are. -/
theorem still_moveFile (hsource : s.exists? source ≠ .ok true) :
    Ensures (Still s) (moveFile source destination policy) (fun _ ↦ Still s)
      (fun f ↦ Run.On (Refused s f)) := by
  refine (still_ask fun f h ↦ Store.isSystem_of_isDirectory h).bind fun there ↦
    ensures_assume fun _ ↦ ?_
  generalize (if there then within destination source else destination) = target
  refine (still_ask fun f h ↦ Store.isSystem_of_samePlace h).bind fun same ↦
    ensures_assume fun _ ↦ ?_
  split
  · exact still_skip _
  refine (still_mayReplace policy target).bind fun replace ↦ ?_
  split
  · refine (on_info _).bind fun _ ↦ ?_
    refine (still_ask fun f h ↦ Store.isSystem_of_exists h).bind fun found ↦
      ensures_assume fun hfound ↦ ?_
    cases found with
    | true => exact absurd hfound hsource
    | false =>
      refine Ensures.bind (Q := fun _ _ ↦ False) (ensures_throw fun r hr ↦ ?_) fun _ _ h ↦ h.elim
      exact ⟨⟨hr.state, rfl⟩, hr.silent⟩
  · exact still_skip _

theorem still_moveEntryFrom (hsource : s.exists? source ≠ .ok true) (depth : ℕ) :
    Ensures (Still s) (moveEntryFrom policy depth source destination) (fun _ ↦ Still s)
      (fun _ _ ↦ False) := by
  have hnever {x : RunAction Unit} {report : Failure → String}
      (h : Ensures (Still s) x (fun _ ↦ Still s) (fun f ↦ Run.On (Refused s f))) :
      Ensures (Still s) (surviving report x) (fun _ ↦ Still s) (fun _ _ ↦ False) := by
    refine (on_surviving h fun f s' c _ hs' ↦ hs'.1).weaken (fun _ hr ↦ hr) (fun _ _ hr ↦ hr) ?_
    rintro f r ⟨⟨hnot, -, hsystem⟩, -⟩
    simp [hsystem] at hnot
  cases depth with
  | zero => exact hnever (ensures_throw fun r hr ↦ ⟨⟨hr.state, rfl⟩, hr.silent⟩)
  | succ depth =>
    refine hnever ?_
    refine (still_ask fun f h ↦ Store.isSystem_of_isDirectory h).bind fun there ↦
      ensures_assume fun hthere ↦ ?_
    split
    · next htrue =>
      subst htrue
      exact absurd (exists_of_isDirectory hthere) hsource
    · exact still_moveFile hsource

/-! ## Paths with the character NUL -/

theorem answers_of_hasNul {p : Path} {test : Entry → Bool} (h : p.hasNul) :
    (s.entryAt .followed p).map (Store.answers test) = .ok false := by
  rw [entryAt_of_hasNul h]
  rfl

theorem samePlace_of_hasNul {found : Location × Entry} (h : target.hasNul)
    (hsource : s.entryAt .followed source = .ok (some found)) :
    s.samePlace source target = .ok false := by
  unfold Store.samePlace
  simp only [hsource, entryAt_of_hasNul h, bind, Except.bind]
  rfl

/-- What is refused because of the character NUL is not survived. -/
theorem refuses_surviving {P : Run → Prop} {report : Failure → String} {operation : RunAction Unit}
    (h : Ensures P operation (fun _ _ ↦ False) (fun f _ ↦ f = .embeddedNul)) :
    Ensures P (surviving report operation) (fun _ _ ↦ False) (fun f _ ↦ f = .embeddedNul) := by
  refine h.tryCatch fun f ↦ ?_
  rintro r rfl
  exact rfl

theorem refuses_bind {α β : Type} {P : Run → Prop} {x : RunAction α} {next : α → RunAction β}
    (h : Ensures P x (fun _ _ ↦ False) (fun f _ ↦ f = .embeddedNul)) :
    Ensures P (x >>= next) (fun _ _ ↦ False) (fun f _ ↦ f = .embeddedNul) :=
  h.bind fun _ _ h ↦ h.elim

theorem refuses_onStore {α : Type} {action : StoreAction α}
    (h : (action.run s).1 = .error .embeddedNul) :
    Ensures (Still s) (onStore action) (fun _ _ ↦ False) (fun f _ ↦ f = .embeddedNul) := by
  intro r hr
  rw [run_onStore, hr.state, h]
  exact rfl

theorem moveEntry_of_hasNul (h : destination.hasNul) :
    ((StoreAction.moveEntry source destination).run s).1 = .error .embeddedNul := by
  unfold StoreAction.moveEntry
  rw [if_pos (by simp [h])]
  rfl

theorem unlinkIfThere_of_hasNul (h : target.hasNul) :
    ((StoreAction.unlinkIfThere target).run s).1 = .error .embeddedNul := by
  unfold StoreAction.unlinkIfThere
  rw [run_tryCatch, StoreAction.run_unlink, if_pos h]
  rfl

theorem ensureDirectory_of_hasNul (h : target.hasNul) :
    ((StoreAction.ensureDirectory target).run s).1 = .error .embeddedNul := by
  have hmake : (StoreAction.makeDirectory target).run s = (.error .embeddedNul, s) := by
    unfold StoreAction.makeDirectory
    rw [StoreAction.run_change, if_pos h]
  unfold StoreAction.ensureDirectory
  cases target.parts.length with
  | zero =>
    unfold StoreAction.makeDirectoryAndParents StoreAction.makeDirectoryAndParents.makeUnlessThere
    rw [run_tryCatch, hmake]
    rfl
  | succ parents =>
    unfold StoreAction.makeDirectoryAndParents
    rw [run_tryCatch, hmake]
    rfl

theorem refuses_moveEntryFrom (depth : ℕ) (hsource : s.exists? source = .ok true)
    (hdestination : destination.hasNul) :
    Ensures (Still s) (moveEntryFrom policy (depth + 1) source destination) (fun _ _ ↦ False)
      (fun f _ ↦ f = .embeddedNul) := by
  obtain ⟨found, hfound⟩ : ∃ found, s.entryAt .followed source = .ok (some found) := by
    unfold Store.exists? at hsource
    rcases hentry : s.entryAt .followed source with f | _ | found <;>
      simp_all [Except.map, Store.answers]
  have hask {α β : Type} {question : Store → Except Failure α} {answer : α}
      {next : α → RunAction β} (h : question s = .ok answer)
      (hnext : Ensures (Still s) (next answer) (fun _ _ ↦ False) (fun f _ ↦ f = .embeddedNul)) :
      Ensures (Still s) (ask question >>= next) (fun _ _ ↦ False) (fun f _ ↦ f = .embeddedNul) := by
    refine (on_ask_of_eq fun s' _ hs' ↦ hs' ▸ h).bind fun a ↦ ensures_assume fun ha ↦ ?_
    exact ha ▸ hnext
  have hinfo {β : Type} {message : String} {next : Unit → RunAction β}
      (hnext : Ensures (Still s) (next ()) (fun _ _ ↦ False) (fun f _ ↦ f = .embeddedNul)) :
      Ensures (Still s) (info message >>= next) (fun _ _ ↦ False) (fun f _ ↦ f = .embeddedNul) :=
    (on_info message).bind fun _ ↦ hnext
  have hkind : s.isDirectory source = .ok found.2.isDir := by
    simp [Store.isDirectory, hfound, Except.map, Store.answers]
  refine refuses_surviving (hask hkind ?_)
  have hdirectory : s.isDirectory destination = .ok false := answers_of_hasNul hdestination
  have hexists : s.exists? destination = .ok false := answers_of_hasNul hdestination
  split
  · unfold moveDirectory
    refine hask hdirectory (hinfo ?_)
    exact refuses_bind (refuses_onStore (moveEntry_of_hasNul hdestination))
  · unfold moveFile
    refine hask hdirectory (hask (samePlace_of_hasNul hdestination hfound) ?_)
    have hmay : Ensures (Still s) (mayReplace policy destination) (fun a r ↦ a = true ∧ Still s r)
        (fun f _ ↦ f = .embeddedNul) := by
      unfold mayReplace
      cases policy with
      | replace => exact ensures_pure fun _ hr ↦ ⟨rfl, hr⟩
      | merge =>
        refine (on_ask_of_eq fun s' _ hs' ↦ hs' ▸ hexists).bind fun a ↦ ensures_assume fun ha ↦ ?_
        subst ha
        exact ensures_pure fun _ hr ↦ ⟨rfl, hr⟩
    refine hmay.bind fun replace ↦ ensures_assume fun hreplace ↦ ?_
    subst hreplace
    refine hinfo (hask hsource ?_)
    exact refuses_bind (refuses_onStore (unlinkIfThere_of_hasNul hdestination))

/-! ## Exact conditions -/

/-- The directive is one with a pattern that cannot be used. -/
def Malformed (directive : Directive) (e : WildcardError) : Prop :=
  match directive with
  | .delete target => Path.hasWildcard target ∧ Wildcard.ofString target = .error e
  | .move source _ _ => Path.hasWildcard source ∧ Wildcard.ofString source = .error e
  | _ => False

/-- Executing the directive hands a path with the character NUL to the file system: the directory of
a pattern, or the destination of what is there to be moved. -/
def PassesNul (x : Executor) (s : Store) (directive : Directive) : Prop :=
  match directive with
  | .delete target =>
    Path.hasWildcard target ∧ ∃ wildcard, Wildcard.ofString target = .ok wildcard ∧
      (Path.below x.workingDirectory wildcard.parent).hasNul
  | .move source destination _ =>
    let destinationPath := Path.resolve destination x.workingDirectory
    (Path.hasWildcard source ∧ ∃ wildcard, Wildcard.ofString source = .ok wildcard ∧
      (destinationPath.hasNul ∨ (Path.below x.workingDirectory wildcard.parent).hasNul ∧
        ((StoreAction.ensureDirectory destinationPath).run s).1 = .ok ())) ∨
    (Path.hasWildcard source = false ∧ destinationPath.hasNul ∧
      s.exists? (Path.resolve source x.workingDirectory) = .ok true)
  | _ => False

/-- A directory may be copied into itself without its paths showing it. -/
def HidesItself (x : Executor) (s : Store) (directive : Directive) : Prop :=
  match directive with
  | .move source destination _ =>
    ¬ s.LinkFree ∨ ¬ ((Path.resolve source x.workingDirectory).anchor = .doubleTop ↔
      (Path.resolve destination x.workingDirectory).anchor = .doubleTop)
  | _ => False

theorem refuses_splitWildcard {wildcard : Wildcard} {pattern : String}
    {next : Wildcard → RunAction Unit} (hsplit : Wildcard.ofString pattern = .ok wildcard)
    (h : Ensures (Still s) (next wildcard) (fun _ _ ↦ False) (fun f _ ↦ f = .embeddedNul)) :
    Ensures (Still s) (splitWildcard pattern >>= next) (fun _ _ ↦ False)
      (fun f _ ↦ f = .embeddedNul) := by
  unfold splitWildcard
  rw [hsplit]
  exact h

theorem refuses_matchingFiles (x : Executor) {wildcard : Wildcard}
    (hparent : (Path.below x.workingDirectory wildcard.parent).hasNul) {P : Store → Prop} :
    Ensures (Run.On fun s' _ ↦ P s') (x.matchingFiles wildcard) (fun _ _ ↦ False)
      (fun f _ ↦ f = .embeddedNul) := by
  intro r hr
  unfold matchingFiles
  rw [run_ask]
  have hlisted : r.store.matchingFiles (Path.below x.workingDirectory wildcard.parent)
      wildcard.expression = .error .embeddedNul := by
    simp [Store.matchingFiles, Store.matchingNames, Store.listed, hparent, bind, Except.bind,
      Except.map]
  rw [hlisted]
  exact rfl

theorem refuses_perform (x : Executor) {directive : Directive} (h : x.PassesNul s directive) :
    Ensures (Still s) (x.perform directive) (fun _ _ ↦ False) (fun f _ ↦ f = .embeddedNul) := by
  cases directive with
  | comment text => exact h.elim
  | execute commandLine => exact h.elim
  | delete target =>
    obtain ⟨hwild, wildcard, hsplit, hparent⟩ := h
    refine refuses_surviving ?_
    rw [if_pos hwild]
    exact refuses_splitWildcard hsplit (refuses_bind (refuses_matchingFiles x hparent))
  | move source destination policy =>
    change Ensures _ (x.move source destination policy) _ _
    rcases h with ⟨hwild, wildcard, hsplit, hnul⟩ | ⟨hwild, hnul, hthere⟩
    · rw [move_of_wildcard x destination policy hwild]
      refine refuses_surviving (refuses_splitWildcard hsplit ?_)
      rcases hnul with hnul | ⟨hparent, hmade⟩
      · exact refuses_bind (refuses_onStore (ensureDirectory_of_hasNul hnul))
      · have hensure : Ensures (Still s)
            (onStore (StoreAction.ensureDirectory (Path.resolve destination x.workingDirectory)))
            (fun _ ↦ Run.On fun _ _ ↦ True) (fun f _ ↦ f = .embeddedNul) := by
          intro r hr
          rw [run_onStore, hr.state, hmade]
          exact ⟨trivial, hr.silent⟩
        exact hensure.bind fun _ ↦ refuses_bind (refuses_matchingFiles x hparent)
    · rw [move_of_plain x destination policy hwild]
      exact refuses_moveEntryFrom _ hthere hnul

/-! ## What is survived -/

section Kept

variable (x : Executor) (hx : x.workingDirectory.Proper) {directive : Directive}
  (hrunner : ∀ runner line e, x.runner = some runner → runner line = some e → e.isSystem)

theorem usable_resolve {x : Executor} (hx : x.workingDirectory.Proper) {text : String}
    (h : (Path.resolve text x.workingDirectory).hasNul = false) :
    (Path.resolve text x.workingDirectory).Usable False :=
  ⟨proper_resolve hx text, by simp [h]⟩

include hx

/-- A pattern whose directory or destination cannot be used is not moved, and this is survived. -/
theorem still_moveMatching {source destination : String} {wildcard : Wildcard}
    (policy : OverwritePolicy) (hs : s.WellFormed) (hsplit : Wildcard.ofString source = .ok wildcard)
    (hclean : (Path.resolve destination x.workingDirectory).hasNul = false)
    (hfails : ((StoreAction.ensureDirectory (Path.resolve destination x.workingDirectory)).run s).1 ≠
      .ok ()) :
    Ensures (Still s)
      (x.moveMatching source (Path.resolve destination x.workingDirectory) policy)
      (fun _ _ ↦ False) (fun f ↦ Run.On fun _ _ ↦ f.isSystem) := by
  have hensure := StoreAction.keeps_makeDirectoryAndParents Store.invariant_wellFormed
    (usable_resolve hx hclean) (Path.resolve destination x.workingDirectory).parts.length s hs
  have hmake : Ensures (Still s)
      (onStore (StoreAction.ensureDirectory (Path.resolve destination x.workingDirectory)))
      (fun _ _ ↦ False) (fun f ↦ Run.On fun _ _ ↦ f.isSystem) := by
    intro r hr
    rw [run_onStore, hr.state]
    unfold StoreAction.ensureDirectory at hfails ⊢
    rcases hrun : (StoreAction.makeDirectoryAndParents
      (Path.resolve destination x.workingDirectory) _).run s with ⟨f | ⟨⟩, s'⟩ <;>
      rw [hrun] at hensure hfails
    · exact ⟨hensure.2.resolve_right (by simp), hr.silent⟩
    · exact absurd rfl hfails
  unfold moveMatching splitWildcard
  rw [hsplit]
  exact hmake.bind fun _ _ h ↦ h.elim

omit hx in
/-- What any well-formed store keeps holds of the runs on one of them. -/
theorem ensures_of_keeps {operation : RunAction Unit} {allowed : Failure → Prop} (hs : s.WellFormed)
    (h : Keeps (Run.Sound Store.WellFormed False) allowed operation) :
    Ensures (Still s) operation (fun _ _ ↦ True) (fun f _ ↦ allowed f) :=
  Ensures.weaken h (fun _ hr ↦ ⟨hr.state ▸ hs, by simp [hr.silent]⟩) (fun _ _ _ ↦ trivial)
    fun _ _ h ↦ h.2

/-- The failures that leave a directive which hands over no path with the character NUL. -/
def Leaves (directive : Directive) (f : Failure) : Prop :=
  f = .endlessCopy ∨ ∃ e, f = .wildcard e ∧ Malformed directive e

theorem ensures_move_of_plain {source destination : String} (policy : OverwritePolicy)
    (hs : s.WellFormed) (hwild : Path.hasWildcard source = false)
    (hnul : ¬ x.PassesNul s (.move source destination policy)) :
    Ensures (Still s) (x.move source destination policy) (fun _ _ ↦ True)
      (fun f _ ↦ Leaves (.move source destination policy) f) := by
  have hinv := Store.invariant_wellFormed
  by_cases hclean : (Path.resolve source x.workingDirectory).hasNul = false ∧
      (Path.resolve destination x.workingDirectory).hasNul = false
  · refine ensures_of_keeps hs (keeps_move hinv (movable_usable hinv False.elim (.inl rfl)) x policy
      (fun e hwild he ↦ .inr ⟨e, rfl, hwild, he⟩) (fun _ ↦ ?_) fun h ↦ by simp [hwild] at h)
    exact ⟨usable_resolve hx hclean.1, usable_resolve hx hclean.2⟩
  · have hmissing : s.exists? (Path.resolve source x.workingDirectory) ≠ .ok true := by
      intro hthere
      by_cases hS : (Path.resolve source x.workingDirectory).hasNul
      · cases hthere.symm.trans (answers_of_hasNul hS)
      · exact hnul (.inr ⟨hwild, by simp_all, hthere⟩)
    rw [move_of_plain x destination policy hwild]
    exact (still_moveEntryFrom hmissing _).weaken (fun _ h ↦ h) (fun _ _ _ ↦ trivial)
      fun _ _ h ↦ h.elim

theorem ensures_move_of_wildcard {source destination : String} {wildcard : Wildcard}
    (policy : OverwritePolicy) (hs : s.WellFormed) (hwild : Path.hasWildcard source)
    (hsplit : Wildcard.ofString source = .ok wildcard)
    (hnul : ¬ x.PassesNul s (.move source destination policy)) :
    Ensures (Still s) (x.move source destination policy) (fun _ _ ↦ True)
      (fun f _ ↦ Leaves (.move source destination policy) f) := by
  have hinv := Store.invariant_wellFormed
  have hdestination : (Path.resolve destination x.workingDirectory).hasNul = false := by
    by_contra h
    exact hnul (.inl ⟨hwild, wildcard, hsplit, .inl (by simpa using h)⟩)
  by_cases hparent : (Path.below x.workingDirectory wildcard.parent).hasNul
  · have hfails := fun hmade ↦ hnul (.inl ⟨hwild, wildcard, hsplit, .inr ⟨hparent, hmade⟩⟩)
    have hstill := still_moveMatching x hx policy hs hsplit hdestination hfails
    rw [move_of_wildcard x destination policy hwild]
    have hends : Ensures (Still s) (x.moveMatching source
        (Path.resolve destination x.workingDirectory) policy)
        (fun _ ↦ Run.On fun _ _ ↦ True) (fun f ↦ Run.On fun _ _ ↦ f.isSystem) :=
      hstill.weaken (fun _ h ↦ h) (fun _ _ h ↦ h.elim) fun _ _ h ↦ h
    refine (on_surviving hends fun _ _ _ _ _ ↦ trivial).weaken (fun _ h ↦ h)
      (fun _ _ _ ↦ trivial) ?_
    rintro f r ⟨⟨hnot, hsystem⟩, -⟩
    simp [hsystem] at hnot
  · refine ensures_of_keeps hs (keeps_move hinv (movable_usable hinv False.elim (.inl rfl)) x policy
      (fun e hwild he ↦ .inr ⟨e, rfl, hwild, he⟩) (fun h ↦ by simp [hwild] at h) fun _ other h ↦ ?_)
    obtain rfl : wildcard = other := Except.ok.inj (hsplit.symm.trans h)
    have husable : (Path.below x.workingDirectory wildcard.parent).Usable False := by
      refine ⟨?_, hparent⟩
      rw [parent_of_wildcard x.workingDirectory hsplit]
      exact fun n hn ↦ proper_resolve hx source n (List.mem_of_mem_dropLast hn)
    exact ⟨usable_resolve hx hdestination, hparent, fun name hname ↦
      ⟨husable.child hname, usable_resolve hx hdestination⟩⟩

include hrunner

/-- No path with the character NUL is handed to the file system unless the operands say so. -/
theorem ensures_perform (hs : s.WellFormed) (hnul : ¬ x.PassesNul s directive) :
    Ensures (Still s) (x.perform directive) (fun _ _ ↦ True) (fun f _ ↦ Leaves directive f) := by
  have hinv := Store.invariant_wellFormed
  cases directive with
  | comment text => exact (on_info text).weaken (fun _ hr ↦ hr) (fun _ _ _ ↦ trivial) fun _ _ h ↦ h
  | delete target =>
    refine ensures_of_keeps hs
      (keeps_delete hinv x False.elim (fun e hwild he ↦ .inr ⟨e, rfl, hwild, he⟩) ?_)
    intro wildcard hwild hsplit hparent
    exact hnul ⟨hwild, wildcard, hsplit, hparent⟩
  | execute commandLine =>
    refine ensures_of_keeps hs (keeps_runCommand hinv x commandLine False.elim ?_)
    intro runner line e hsome he
    exact .inl (hrunner runner line e hsome he)
  | move source destination policy =>
    change Ensures _ (x.move source destination policy) _ _
    cases hwild : Path.hasWildcard source with
    | false => exact ensures_move_of_plain x hx policy hs hwild hnul
    | true =>
      cases hsplit : Wildcard.ofString source with
      | error e =>
        refine ensures_of_keeps hs (keeps_move hinv (movable_usable hinv False.elim (.inl rfl)) x policy
          (fun e hwild he ↦ .inr ⟨e, rfl, hwild, he⟩) (fun h ↦ by simp [hwild] at h) fun _ wildcard h ↦ ?_)
        cases hsplit.symm.trans h
      | ok wildcard => exact ensures_move_of_wildcard x hx policy hs hwild hsplit hnul

/-- Without symbolic links, and between paths that start alike, no copy is endless. -/
theorem ne_endlessCopy_of_perform {r : Run} (hs : r.store.WellFormed)
    (hjournal : r.journal.file = none) (hhidden : ¬ x.HidesItself r.store directive) {f : Failure}
    (hf : ((x.perform directive).run r).1 = .error f) : f ≠ .endlessCopy := by
  have hinv := Store.invariant_wellFormed
  have hsound {inv : Store → Prop} (h : inv r.store) : Run.Sound inv True r :=
    ⟨h, by simp [hjournal]⟩
  have husable (text : String) : (Path.resolve text x.workingDirectory).Usable True :=
    ⟨proper_resolve hx text, fun _ ↦ trivial⟩
  cases directive with
  | comment text =>
    have hinfo := (RunAction.keeps_info hinv text).failure (hsound hs) hf
    simp [hinfo.1]
  | delete target =>
    have hdelete : Keeps (Run.Sound Store.WellFormed True) (· ≠ .endlessCopy) (x.delete target) :=
      keeps_delete hinv x (fun _ ↦ by simp) (fun _ _ _ ↦ by simp) fun _ _ _ _ ↦ trivial
    exact hdelete.failure (hsound hs) hf
  | execute commandLine =>
    have hrun : Keeps (Run.Sound Store.WellFormed True) (· ≠ .endlessCopy)
        (x.runCommand commandLine) :=
      keeps_runCommand hinv x commandLine (fun _ ↦ by simp) fun runner line e hsome he ↦
        .inl (hrunner runner line e hsome he)
    exact hrun.failure (hsound hs) hf
  | move source destination policy =>
    obtain ⟨hfree, hanchors⟩ : r.store.LinkFree ∧
        ((Path.resolve source x.workingDirectory).anchor = .doubleTop ↔
          (Path.resolve destination x.workingDirectory).anchor = .doubleTop) := by
      unfold HidesItself at hhidden
      tauto
    let related (S D : Path) : Prop := S.Usable True ∧ D.Usable True ∧
      (S.anchor = .doubleTop ↔ D.anchor = .doubleTop)
    have hmove : Movable (fun s ↦ s.WellFormed ∧ s.LinkFree) True (· ≠ .endlessCopy) related := by
      refine ⟨fun _ ↦ by simp, fun h ↦ h.1, fun h ↦ h.2.1, fun h ↦ ?_, fun {S D} h ↦ ?_, ?_⟩
      · refine (StoreAction.keeps_moveEntry_linkFree h.1.clean h.2.1 h.2.2).weaken fun f hf ↦ ?_
        exact hf.systemOr fun _ ↦ by simp
      · have hanchor : (within D S).anchor = D.anchor := by
          unfold within
          split <;> rfl
        exact ⟨h.1, usable_within h.2.1 h.1, by rw [hanchor]; exact h.2.2⟩
      · exact fun h name hname ↦ ⟨h.1.child hname, h.2.1, h.2.2⟩
    have hkept := keeps_move Store.invariant_linkFree hmove x policy (fun _ _ _ ↦ by simp)
      (fun _ ↦ ⟨husable source, husable destination, hanchors⟩) fun _ wildcard hsplit ↦
        ⟨husable destination, fun _ ↦ trivial, fun name hname ↦ by
          rw [parent_of_wildcard x.workingDirectory hsplit]
          exact ⟨(husable source).parent.child hname, husable destination, hanchors⟩⟩
    exact hkept.failure (hsound ⟨hs, hfree⟩) hf

end Kept

theorem perform_of_malformed (x : Executor) {directive : Directive} {e : WildcardError}
    (h : Malformed directive e) (r : Run) :
    ((x.perform directive).run r).1 = .error (.wildcard e) := by
  have hsplit {pattern : String} {next : Wildcard → RunAction Unit} {report : Failure → String}
      (he : Wildcard.ofString pattern = .error e) :
      ((surviving report (splitWildcard pattern >>= next)).run r).1 = .error (.wildcard e) := by
    unfold surviving splitWildcard
    rw [he, run_tryCatch]
    rfl
  cases directive with
  | comment text => exact h.elim
  | execute commandLine => exact h.elim
  | delete target =>
    change ((x.delete target).run r).1 = _
    unfold delete
    dsimp only
    rw [if_pos h.1]
    exact hsplit h.2
  | move source destination policy =>
    change ((x.move source destination policy).run r).1 = _
    rw [move_of_wildcard x destination policy h.1]
    exact hsplit h.2

end Executor

end DeferredOps
