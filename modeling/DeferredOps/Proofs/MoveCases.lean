import DeferredOps.Proofs.DirectoryMove
import DeferredOps.Proofs.Escapes
import Mathlib.Logic.Relation

/-!
# What a move does step by step

A move in a silent run is a handful of actions on the store, chosen by what is at its source, its
destination and its target. The relations here have one rule for each choice, and a merge moves what
is in its source by the same relation. Later modules argue by these rules and never look at a run.
-/

namespace DeferredOps

open Action

/-- A silent run in whose store something holds. -/
abbrev Run.Ends (P : Store → Prop) : Run → Prop :=
  Run.On fun s _ ↦ P s

namespace Executor

open RunAction

/-- What becomes of a store when something that is no directory is moved. -/
inductive FileMove (policy : OverwritePolicy) (s : Store) (source destination : Path) : Store → Prop
  | still : FileMove policy s source destination s
  | moved {s₁ s' : Store} {result : Except Failure Unit}
      (hsame : s.samePlace source (landing s source destination) = .ok false)
      (hfree : policy = .merge → s.exists? (landing s source destination) = .ok false)
      (hsource : s.exists? source = .ok true)
      (hunlink : (StoreAction.unlinkIfThere (landing s source destination)).run s = (.ok (), s₁))
      (hmove : (StoreAction.moveEntry source (landing s source destination)).run s₁ = (result, s')) :
      FileMove policy s source destination s'

/-- What becomes of a store when a directory is moved. In a merge `child` moves what is in it, and the
merge can end after each name. -/
inductive DirectoryMove (child : Store → Path → Path → Store → Prop) (policy : OverwritePolicy)
    (s : Store) (source destination : Path) : Store → Prop
  | still : DirectoryMove child policy s source destination s
  | renamed {s' : Store} {result : Except Failure Unit}
      (hdirectory : s.isDirectory destination = .ok false)
      (hmove : (StoreAction.moveEntry source destination).run s = (result, s')) :
      DirectoryMove child policy s source destination s'
  | placed {s₁ s' : Store} {result : Except Failure Unit}
      (hdirectory : s.isDirectory destination = .ok true)
      (hsame : s.samePlace source (within destination source) = .ok false)
      (hfree : policy = .merge → s.exists? (within destination source) = .ok false)
      (hcleared : StoreAction.Cleared s (within destination source) s₁)
      (hmove : (StoreAction.moveEntry source (within destination source)).run s₁ = (result, s')) :
      DirectoryMove child policy s source destination s'
  | uncleared {s' : Store} {f : Failure} (hdirectory : s.isDirectory destination = .ok true)
      (hsame : s.samePlace source (within destination source) = .ok false)
      (hfree : policy = .merge → s.exists? (within destination source) = .ok false)
      (hthere : s.isDirectory (within destination source) = .ok true)
      (hremoval : StoreAction.RemovalEnds s (within destination source) (.error f) s') :
      DirectoryMove child policy s source destination s'
  | merged {s₁ s' : Store} {directory : Location} {names : List String} (hpolicy : policy = .merge)
      (hdirectory : s.isDirectory destination = .ok true)
      (hsame : s.samePlace source (within destination source) = .ok false)
      (hthere : s.exists? (within destination source) = .ok true)
      (hlisted : s.listed source = .ok directory) (hnames : names ⊆ s.names directory)
      (hchildren : Relation.ReflTransGen
        (fun t t' ↦ ∃ name ∈ names, child t (source.child name) (within destination source) t') s s₁)
      (hlast : s' = s₁ ∨ s₁.removeDirectory source = .ok s') :
      DirectoryMove child policy s source destination s'

/-- What becomes of a store when something is moved, by the depth to which directories are merged. -/
def Moves (policy : OverwritePolicy) : ℕ → Store → Path → Path → Store → Prop
  | 0, s, _, _, s' => s' = s
  | depth + 1, s, source, destination, s' =>
    s' = s ∨
      s.isDirectory source = .ok true ∧
        DirectoryMove (Moves policy depth) policy s source destination s' ∨
      s.isDirectory source = .ok false ∧ FileMove policy s source destination s'

variable {s : Store} {P : Store → Prop} {source destination target : Path} {policy : OverwritePolicy}

/-! ## Steps -/

theorem ends_ask {α : Type} (question : Store → Except Failure α) :
    Ensures (Run.Ends (· = s)) (ask question)
      (fun a r ↦ question s = .ok a ∧ Run.Ends (· = s) r) (fun _ ↦ Run.Ends (· = s)) := by
  rintro r ⟨rfl, hsilent⟩
  rw [run_ask]
  cases hanswer : question r.store with
  | ok a => exact ⟨rfl, rfl, hsilent⟩
  | error f => exact ⟨rfl, hsilent⟩

theorem ends_onStore (action : StoreAction Unit) :
    Ensures (Run.Ends P) (onStore action)
      (fun _ ↦ Run.Ends fun s' ↦ ∃ s₁, P s₁ ∧ action.run s₁ = (.ok (), s'))
      (fun f ↦ Run.Ends fun s' ↦ ∃ s₁, P s₁ ∧ action.run s₁ = (.error f, s')) := by
  intro r hr
  rw [run_onStore]
  rcases hrun : action.run r.store with ⟨f | ⟨⟩, s'⟩
  · exact ⟨⟨r.store, hr.state, hrun⟩, hr.silent⟩
  · exact ⟨⟨r.store, hr.state, hrun⟩, hr.silent⟩

theorem ends_mono {P' : Store → Prop} (h : ∀ s, P s → P' s) {r : Run} (hr : Run.Ends P r) :
    Run.Ends P' r :=
  ⟨h _ hr.state, hr.silent⟩

/-- A move of an entry, counted if it succeeds. -/
theorem ends_moveEntry {Q : Store → Prop}
    (h : ∀ s₁ s' result, P s₁ → (StoreAction.moveEntry source target).run s₁ = (result, s') → Q s') :
    Ensures (Run.Ends P) (do onStore (StoreAction.moveEntry source target); count "moved")
      (fun _ ↦ Run.Ends Q) (fun _ ↦ Run.Ends Q) := by
  refine Ensures.bind (Q := fun _ ↦ Run.Ends Q) ?_ fun _ ↦ on_count fun _ _ hs ↦ hs
  exact (ends_onStore _).weaken (fun _ hr ↦ hr)
    (fun _ _ hr ↦ ends_mono (fun s' ⟨s₁, hs, hrun⟩ ↦ h s₁ s' _ hs hrun) hr)
    fun _ _ hr ↦ ends_mono (fun s' ⟨s₁, hs, hrun⟩ ↦ h s₁ s' _ hs hrun) hr

/-- Whether a move goes on: a merge does so only where nothing is. -/
theorem ends_mayReplace (policy : OverwritePolicy) (target : Path) :
    Ensures (Run.Ends (· = s)) (mayReplace policy target)
      (fun goesOn r ↦ ((goesOn → policy = .merge → s.exists? target = .ok false) ∧
        (goesOn = false → policy = .merge ∧ s.exists? target = .ok true)) ∧ Run.Ends (· = s) r)
      (fun _ ↦ Run.Ends (· = s)) := by
  cases policy with
  | replace => exact ensures_pure fun _ hr ↦ ⟨by simp, hr⟩
  | merge =>
    refine (ends_ask _).bind fun there ↦ ensures_assume fun hthere ↦ ensures_pure fun _ hr ↦ ⟨?_, hr⟩
    cases there <;> simp [hthere]

/-- What stands in the way is removed, or the removal fails. -/
theorem ends_removeTarget (target : Path) :
    Ensures (Run.Ends (· = s)) (removeTarget target)
      (fun _ ↦ Run.Ends (StoreAction.Cleared s target))
      (fun _ ↦ Run.Ends fun s' ↦ s' = s ∨ s.isDirectory target = .ok true ∧
        ∃ f, StoreAction.RemovalEnds s target (.error f) s') := by
  have hstill (f : Failure) (r : Run) (hr : Run.Ends (· = s) r) : Run.Ends (fun s' ↦ s' = s ∨
      s.isDirectory target = .ok true ∧ ∃ f, StoreAction.RemovalEnds s target (.error f) s') r :=
    ends_mono (fun _ ↦ .inl) hr
  refine Ensures.bind ((ends_ask _).weaken (fun _ hr ↦ hr) (fun _ _ hr ↦ hr) hstill) fun directory ↦
    ensures_assume fun hdirectory ↦ ?_
  split
  · next htrue =>
    subst htrue
    refine on_onStore fun _ ↦ ?_
    exact (StoreAction.ensures_removeTree s target).weaken (fun _ h ↦ h)
      (fun _ _ h ↦ .directory hdirectory h) fun f _ h ↦ .inr ⟨hdirectory, f, h⟩
  next hfalse =>
  obtain rfl : directory = false := by simpa using hfalse
  refine Ensures.bind ((ends_ask _).weaken (fun _ hr ↦ hr) (fun _ _ hr ↦ hr) hstill) fun there ↦
    ensures_assume fun hthere ↦ ?_
  split
  · next htrue =>
    subst htrue
    refine on_onStore fun _ ↦ ?_
    exact (StoreAction.ensures_change (fun _ ↦ Failure.isPlain_system ..) fun _ _ hs _ h ↦
      .name hdirectory hthere (hs ▸ h)).weaken (fun _ h ↦ h) (fun _ _ h ↦ h) fun _ _ h ↦ .inl h.1
  · refine ensures_pure fun _ hr ↦ ends_mono (fun s' hs ↦ ?_) hr
    subst hs
    exact .free hdirectory

theorem ends_surviving {report : Failure → String} {operation : RunAction Unit}
    (h : Ensures (Run.Ends (· = s)) operation (fun _ ↦ Run.Ends P) (fun _ ↦ Run.Ends P)) :
    Ensures (Run.Ends (· = s)) (surviving report operation) (fun _ ↦ Run.Ends P)
      (fun _ ↦ Run.Ends P) :=
  (on_surviving h fun _ _ _ _ hs ↦ hs).weaken (fun _ hr ↦ hr) (fun _ _ hr ↦ hr)
    fun _ _ hr ↦ ⟨hr.state.2, hr.silent⟩

/-! ## Moves -/

theorem ends_moveFile (policy : OverwritePolicy) :
    Ensures (Run.Ends (· = s)) (moveFile source destination policy)
      (fun _ ↦ Run.Ends (FileMove policy s source destination))
      (fun _ ↦ Run.Ends (FileMove policy s source destination)) := by
  have hstill (r : Run) (hr : Run.Ends (· = s) r) :
      Run.Ends (FileMove policy s source destination) r := ends_mono (fun _ hs ↦ hs ▸ .still) hr
  have hask {α : Type} (question : Store → Except Failure α) :=
    (ends_ask (s := s) question).weaken (fun _ hr ↦ hr) (fun _ _ hr ↦ hr) fun _ r hr ↦ hstill r hr
  have hskipped (message : String) :
      Ensures (Run.Ends (· = s)) (do info message; count "skipped")
        (fun _ ↦ Run.Ends (FileMove policy s source destination))
        (fun _ ↦ Run.Ends (FileMove policy s source destination)) :=
    (on_info _).bind fun _ ↦ on_count fun _ _ hs ↦ hs ▸ .still
  unfold moveFile
  refine (hask _).bind fun directory ↦ ensures_assume fun hdirectory ↦ ?_
  rw [← landing_of_answer source hdirectory]
  refine (hask _).bind fun same ↦ ensures_assume fun hsame ↦ ?_
  split
  · exact hskipped _
  next hdistinct =>
  obtain rfl : same = false := by simpa using hdistinct
  refine Ensures.bind ((ends_mayReplace policy _).weaken (fun _ hr ↦ hr) (fun _ _ hr ↦ hr)
    fun _ r hr ↦ hstill r hr) fun goesOn ↦ ensures_assume fun hgoesOn ↦ ?_
  split
  · next hfree =>
    refine (on_info _).bind fun _ ↦ (hask _).bind fun there ↦ ensures_assume fun hthere ↦ ?_
    split
    · exact ensures_throw fun r hr ↦ hstill r hr
    next hnot =>
    obtain rfl : there = true := by simpa using hnot
    refine Ensures.bind (Q := fun _ ↦ Run.Ends fun s₁ ↦
      (StoreAction.unlinkIfThere (landing s source destination)).run s = (.ok (), s₁)) ?_ fun _ ↦ ?_
    · refine (ends_onStore _).weaken (fun _ hr ↦ hr)
        (fun _ _ hr ↦ ends_mono (fun _ ⟨_, hs, hrun⟩ ↦ hs ▸ hrun) hr) fun _ r hr ↦ hstill r ?_
      refine ends_mono (fun s' ⟨s₁, hs, hrun⟩ ↦ ?_) hr
      subst hs
      exact StoreAction.unlinkIfThere_error hrun
    · exact ends_moveEntry fun s₁ s' _ hunlink hmove ↦
        .moved hsame (hgoesOn.1 hfree) hthere hunlink hmove
  · exact hskipped _

/-- The names in a directory, as they are found. -/
theorem ends_sortedNames {directory : Path} : Ensures (Run.Ends (· = s)) (sortedNames directory)
    (fun names r ↦ (∃ location, s.listed directory = .ok location ∧ names ⊆ s.names location) ∧
      Run.Ends (· = s) r) (fun _ ↦ Run.Ends (· = s)) := by
  refine (ends_ask _).weaken (fun _ hr ↦ hr) (fun names _ ⟨hnames, hr⟩ ↦ ⟨?_, hr⟩) fun _ _ hr ↦ hr
  cases hlist : s.list directory with
  | error f =>
    rw [hlist] at hnames
    cases hnames
  | ok found =>
    rw [hlist] at hnames
    obtain rfl : Store.sortNames found = names := Except.ok.inj hnames
    obtain ⟨location, hlisted, rfl⟩ := Store.list_eq_ok_iff.mp hlist
    exact ⟨location, hlisted, (List.mergeSort_perm _ _).subset⟩

/-- Names are moved into the target one after another; the loop can stop after each of them. -/
theorem keeps_moveChildren {child : Store → Path → Path → Store → Prop}
    {moveChild : Path → Path → RunAction Unit}
    (hchild : ∀ t source target, Ensures (Run.Ends (· = t)) (moveChild source target)
      (fun _ ↦ Run.Ends (child t source target)) (fun _ ↦ Run.Ends (child t source target)))
    (names : List String) :
    Keeps (Run.Ends (Relation.ReflTransGen
        (fun t t' ↦ ∃ name ∈ names, child t (source.child name) target t') s)) (fun _ ↦ True)
      (forIn names PUnit.unit fun name _ ↦ do
        moveChild (source.child name) target
        pure (ForInStep.yield PUnit.unit)) := by
  refine keeps_forIn fun name hname ↦ Keeps.yield fun r hr ↦ ?_
  have hnext {r' : Run} (h : Run.Ends (child r.store (source.child name) target) r') :=
    ends_mono (fun _ hmoved ↦ hr.state.tail ⟨name, hname, hmoved⟩) h
  exact ((hchild r.store (source.child name) target).weaken (fun _ h ↦ h) (fun _ _ h ↦ hnext h)
    fun _ _ h ↦ ⟨hnext h, trivial⟩) r ⟨rfl, hr.silent⟩

/-- The names that were found in a directory are moved into the target one after another. -/
theorem ends_mergeDirectory {child : Store → Path → Path → Store → Prop}
    {moveChild : Path → Path → RunAction Unit}
    (hchild : ∀ t source target, Ensures (Run.Ends (· = t)) (moveChild source target)
      (fun _ ↦ Run.Ends (child t source target)) (fun _ ↦ Run.Ends (child t source target)))
    {Q : Store → Prop} (hstill : Q s)
    (hmerged : ∀ directory names s₁ s', s.listed source = .ok directory →
      names ⊆ s.names directory → Relation.ReflTransGen
        (fun t t' ↦ ∃ name ∈ names, child t (source.child name) target t') s s₁ →
      (s' = s₁ ∨ s₁.removeDirectory source = .ok s') → Q s') :
    Ensures (Run.Ends (· = s)) (mergeDirectory moveChild source target) (fun _ ↦ Run.Ends Q)
      (fun _ ↦ Run.Ends Q) := by
  refine (on_info _).bind fun _ ↦ Ensures.bind (ends_sortedNames.weaken (fun _ hr ↦ hr)
    (fun _ _ hr ↦ hr) fun _ _ hr ↦ ends_mono (fun _ hs ↦ hs ▸ hstill) hr) fun names ↦
    ensures_assume fun hfound ↦ ?_
  obtain ⟨directory, hlisted, hsub⟩ := hfound
  let Children := Relation.ReflTransGen
    (fun t t' ↦ ∃ name ∈ names, child t (source.child name) target t')
  have hended {r : Run} (hr : Run.Ends (Children s) r) : Run.Ends Q r :=
    ends_mono (fun s₁ h ↦ hmerged directory names s₁ s₁ hlisted hsub h (.inl rfl)) hr
  refine Ensures.bind (Ensures.weaken (keeps_moveChildren hchild names)
    (fun _ hr ↦ ends_mono (fun _ hs ↦ hs ▸ .refl) hr) (fun _ _ hr ↦ hr)
    fun _ _ hr ↦ hended hr.1) fun _ ↦ ?_
  refine Ensures.bind (Q := fun _ ↦ Run.Ends (Children s)) (on_count fun _ _ h ↦ h) fun _ ↦ ?_
  refine Ensures.bind (Q := fun _ ↦ Run.Ends (Children s)) (on_ask.weaken (fun _ hr ↦ hr)
    (fun _ _ hr ↦ ⟨hr.state.1, hr.silent⟩) fun _ _ hr ↦ hended ⟨hr.state.1, hr.silent⟩) fun left ↦ ?_
  split
  · have hlast {s₁ s' : Store} {result : Except Failure Unit} (hs : Children s s₁)
        (hrun : (StoreAction.removeDirectory source).run s₁ = (result, s')) : Q s' := by
      refine hmerged directory names s₁ s' hlisted hsub hs ?_
      rcases StoreAction.removeDirectory_run_cases hrun with ⟨-, hremoved⟩ | ⟨-, rfl⟩
      · exact .inr hremoved
      · exact .inl rfl
    exact (ends_onStore _).weaken (fun _ hr ↦ hr)
      (fun _ _ hr ↦ ends_mono (fun _ ⟨_, hs, hrun⟩ ↦ hlast hs hrun) hr)
      fun _ _ hr ↦ ends_mono (fun _ ⟨_, hs, hrun⟩ ↦ hlast hs hrun) hr
  · exact ensures_pure fun _ hr ↦ hended hr

theorem ends_moveDirectory {child : Store → Path → Path → Store → Prop}
    {moveChild : Path → Path → RunAction Unit}
    (hchild : ∀ t source target, Ensures (Run.Ends (· = t)) (moveChild source target)
      (fun _ ↦ Run.Ends (child t source target)) (fun _ ↦ Run.Ends (child t source target)))
    (policy : OverwritePolicy) :
    Ensures (Run.Ends (· = s)) (moveDirectory moveChild source destination policy)
      (fun _ ↦ Run.Ends (DirectoryMove child policy s source destination))
      (fun _ ↦ Run.Ends (DirectoryMove child policy s source destination)) := by
  have hstill (r : Run) (hr : Run.Ends (· = s) r) :
      Run.Ends (DirectoryMove child policy s source destination) r :=
    ends_mono (fun _ hs ↦ hs ▸ .still) hr
  have hask {α : Type} (question : Store → Except Failure α) :=
    (ends_ask (s := s) question).weaken (fun _ hr ↦ hr) (fun _ _ hr ↦ hr) fun _ r hr ↦ hstill r hr
  unfold moveDirectory
  refine (hask _).bind fun directory ↦ ensures_assume fun hdirectory ↦ ?_
  split
  · next hnone =>
    obtain rfl : directory = false := by simpa using hnone
    refine (on_info _).bind fun _ ↦ ends_moveEntry fun s₁ s' _ hs hmove ↦ ?_
    subst hs
    exact .renamed hdirectory hmove
  next hsome =>
  obtain rfl : directory = true := by simpa using hsome
  refine (on_info _).bind fun _ ↦ (hask _).bind fun same ↦ ensures_assume fun hsame ↦ ?_
  split
  · exact (on_info _).bind fun _ ↦ on_count fun _ _ hs ↦ hs ▸ .still
  next hdistinct =>
  obtain rfl : same = false := by simpa using hdistinct
  refine Ensures.bind ((ends_mayReplace policy _).weaken (fun _ hr ↦ hr) (fun _ _ hr ↦ hr)
    fun _ r hr ↦ hstill r hr) fun goesOn ↦ ensures_assume fun hgoesOn ↦ ?_
  split
  · next hfree =>
    refine Ensures.bind ((ends_removeTarget _).weaken (fun _ hr ↦ hr) (fun _ _ hr ↦ hr)
      fun _ r hr ↦ ends_mono (fun s' hs ↦ ?_) hr) fun _ ↦ ?_
    · rcases hs with rfl | ⟨hthere, f, hremoval⟩
      · exact .still
      · exact .uncleared hdirectory hsame (hgoesOn.1 hfree) hthere hremoval
    · exact ends_moveEntry fun s₁ s' _ hcleared hmove ↦
        .placed hdirectory hsame (hgoesOn.1 hfree) hcleared hmove
  · next hkept =>
    obtain ⟨hpolicy, hthere⟩ := hgoesOn.2 (by simpa using hkept)
    exact ends_mergeDirectory hchild .still fun _ _ _ _ hlisted hnames hchildren hlast ↦
      .merged hpolicy hdirectory hsame hthere hlisted hnames hchildren hlast

/-- A silent move ends in a store that it can become. -/
theorem ends_moveEntryFrom (policy : OverwritePolicy) (depth : ℕ) (s : Store)
    (source destination : Path) :
    Ensures (Run.Ends (· = s)) (moveEntryFrom policy depth source destination)
      (fun _ ↦ Run.Ends (Moves policy depth s source destination))
      (fun _ ↦ Run.Ends (Moves policy depth s source destination)) := by
  induction depth generalizing s source destination with
  | zero => exact ends_surviving (ensures_throw fun _ hr ↦ hr)
  | succ depth ih =>
    refine ends_surviving ?_
    refine Ensures.bind ((ends_ask _).weaken (fun _ hr ↦ hr) (fun _ _ hr ↦ hr)
      fun _ _ hr ↦ ends_mono (fun _ hs ↦ .inl hs) hr) fun directory ↦
      ensures_assume fun hdirectory ↦ ?_
    split
    · next htrue =>
      subst htrue
      exact (ends_moveDirectory ih policy).weaken (fun _ hr ↦ hr)
        (fun _ _ hr ↦ ends_mono (fun _ hs ↦ .inr (.inl ⟨hdirectory, hs⟩)) hr)
        fun _ _ hr ↦ ends_mono (fun _ hs ↦ .inr (.inl ⟨hdirectory, hs⟩)) hr
    · next hfalse =>
      obtain rfl : directory = false := by simpa using hfalse
      exact (ends_moveFile policy).weaken (fun _ hr ↦ hr)
        (fun _ _ hr ↦ ends_mono (fun _ hs ↦ .inr (.inr ⟨hdirectory, hs⟩)) hr)
        fun _ _ hr ↦ ends_mono (fun _ hs ↦ .inr (.inr ⟨hdirectory, hs⟩)) hr

end Executor

end DeferredOps
