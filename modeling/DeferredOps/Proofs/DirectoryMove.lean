import DeferredOps.Proofs.Counting
import DeferredOps.Proofs.Executor
import DeferredOps.Proofs.Store.Delivery

/-!
# Moves of directories that are counted as done

A move that counts neither a failure nor a merge nor a skip has carried the directory from where it
was to where it should go. What was in it is there afterwards, with one exception: a directory that
goes into itself, over a symbolic link that hides it, is removed with its own copy.
-/

namespace DeferredOps

open Action

namespace Executor

open RunAction

variable {s : Store} {c : Counters} {source destination target : Path} {origin : Location}
  {moveChild : Path → Path → RunAction Unit}

/-- The path that an entry ends at when it is moved to a path: in a directory it keeps its name. -/
def landing (s : Store) (source destination : Path) : Path :=
  match s.isDirectory destination with
  | .ok true => within destination source
  | _ => destination

theorem landing_of_answer {directory : Bool} (source : Path)
    (h : s.isDirectory destination = .ok directory) :
    landing s source destination = if directory then within destination source else destination := by
  unfold landing
  rw [h]
  cases directory <;> rfl

/-- A silent run with this store and these counters. -/
abbrev Starts (s : Store) (c : Counters) : Run → Prop :=
  Run.On fun s' c' ↦ s' = s ∧ c' = c

/-- What the source path names has been carried to what the target path names. -/
def CarriedTo (s : Store) (source target : Path) (s' : Store) : Prop :=
  ∃ d n location, s.Lies source d n ∧ s.Names target location ∧ s.Carried (d ++ [n]) location s'

/-- A failure, a merge or a skip has been counted. -/
def Hindered (c c' : Counters) : Prop :=
  ∃ name ∈ ["failed", "merged", "skipped"], c.value name < c'.value name

/-- A move has counted that something kept it from being a plain one, or it has been done and is
counted. -/
def MovedOr (s : Store) (c : Counters) (source target : Path) (s' : Store) (c' : Counters) : Prop :=
  Hindered c c' ∨ c' = c.increment "moved" ∧ CarriedTo s source target s'

theorem starts_counted {r : Run} (hr : Starts s c r) : r.Counted c :=
  ⟨hr.state.2 ▸ .refl c, hr.silent⟩

/-- No directory is in the way of a path that leads to none. -/
theorem starts_cleared {r : Run} (h : s.isDirectory target = .ok false) (hr : Starts s c r) :
    Run.On (fun s' c' ↦ StoreAction.Cleared s target s' ∧ c' = c) r := by
  refine ⟨⟨?_, hr.state.2⟩, hr.silent⟩
  rw [hr.state.1]
  exact .free h

/-! ## Steps -/

/-- The store does not depend on what is asked. -/
theorem starts_ask {α : Type} (question : Store → Except Failure α) :
    Ensures (Starts s c) (ask question) (fun a r ↦ question s = .ok a ∧ Starts s c r)
      (fun _ ↦ Run.Counted c) := by
  intro r hr
  rw [run_ask, hr.state.1]
  cases hanswer : question s with
  | ok a => exact ⟨rfl, hr⟩
  | error f => exact starts_counted hr

theorem starts_onStore {action : StoreAction Unit} {Q : Store → Prop}
    (h : Outcome (fun _ ↦ Q) (fun _ _ ↦ True) (action.run s)) :
    Ensures (Starts s c) (onStore action) (fun _ ↦ Run.On fun s' c' ↦ Q s' ∧ c' = c)
      (fun _ ↦ Run.Counted c) := by
  intro r hr
  rw [run_onStore, hr.state.1]
  rcases hrun : action.run s with ⟨f | ⟨⟩, s'⟩ <;> rw [hrun] at h
  · exact ⟨hr.state.2 ▸ .refl c, hr.silent⟩
  · exact ⟨⟨h, hr.state.2⟩, hr.silent⟩

theorem starts_mayReplace (policy : OverwritePolicy) (target : Path) :
    Ensures (Starts s c) (mayReplace policy target) (fun _ ↦ Starts s c)
      (fun _ ↦ Run.Counted c) := by
  cases policy with
  | replace => exact ensures_pure fun _ hr ↦ hr
  | merge => exact (starts_ask _).bind fun _ ↦ ensures_pure fun _ hr ↦ hr.2

/-- What stands in the way is removed, or the removal fails. -/
theorem starts_removeTarget (target : Path) :
    Ensures (Starts s c) (removeTarget target)
      (fun _ ↦ Run.On fun s' c' ↦ StoreAction.Cleared s target s' ∧ c' = c)
      (fun _ ↦ Run.Counted c) := by
  refine (starts_ask _).bind fun isDirectory ↦ ensures_assume fun hdirectory ↦ ?_
  split
  · next htrue =>
    subst htrue
    refine starts_onStore ?_
    exact (StoreAction.ensures_removeTree s target).outcome (fun _ _ h ↦ .directory hdirectory h)
      fun _ _ _ ↦ trivial
  next hnot =>
  obtain rfl : isDirectory = false := by simpa using hnot
  refine (starts_ask _).bind fun isThere ↦ ensures_assume fun hthere ↦ ?_
  split
  · next h =>
    subst h
    have hunlink : Ensures (· = s) (StoreAction.unlink target)
        (fun _ s' ↦ s.unlink target = .ok s') (fun f s' ↦ s' = s ∧ f.IsPlain) :=
      StoreAction.ensures_change (fun _ ↦ Failure.isPlain_system ..) fun _ _ hs _ h ↦ hs ▸ h
    exact starts_onStore
      (hunlink.outcome (fun _ _ h ↦ .name hdirectory hthere h) fun _ _ _ ↦ trivial)
  · next h =>
    exact ensures_pure fun r hr ↦ starts_cleared hdirectory hr

/-- The entry is moved once the way is clear, and this is counted. -/
theorem on_moveEntry (hs : s.WellFormed) (htarget : target.Proper)
    (hsource : s.target .followed source = .ok (.found origin .dir)) :
    Ensures (Run.On fun s' c' ↦ StoreAction.Cleared s target s' ∧ c' = c)
      (do onStore (StoreAction.moveEntry source target); count "moved")
      (fun _ ↦ Run.On (MovedOr s c source target)) (fun _ ↦ Run.Counted c) := by
  refine Ensures.bind (Q := fun _ ↦ Run.On fun s' c' ↦ CarriedTo s source target s' ∧ c' = c)
    (fun r hr ↦ ?_) fun _ ↦ on_count fun s' c' h ↦ .inr ⟨by rw [h.2], h.1⟩
  obtain ⟨hcleared, hcounters⟩ := hr.state
  have hmove : Outcome (fun _ ↦ CarriedTo s source target) (fun _ _ ↦ True)
      ((StoreAction.moveEntry source target).run r.store) :=
    (StoreAction.ensures_moveEntry (hcleared.wellFormed hs) htarget).outcome
      (fun _ _ h ↦ hcleared.carried hs htarget hsource h) fun _ _ _ ↦ trivial
  exact starts_onStore hmove r ⟨⟨rfl, hcounters⟩, hr.silent⟩

/-- A merge is counted as one. -/
theorem starts_mergeDirectory (hchild : ∀ source target, Counts c (moveChild source target))
    (source target : Path) {P : Store → Counters → Prop} (hP : ∀ s' c', Hindered c c' → P s' c') :
    Ensures (Starts s c) (mergeDirectory moveChild source target) (fun _ ↦ Run.On P)
      (fun _ ↦ Run.Counted c) := by
  have hcounts {α : Type} {operation : RunAction α} (h : Counts c operation) :
      Ensures (Run.Counted c) operation (fun _ ↦ Run.Counted c) (fun _ ↦ Run.Counted c) :=
    Ensures.weaken h (fun _ hr ↦ hr) (fun _ _ hr ↦ hr) fun _ _ hr ↦ hr.1
  have hmerged : Ensures (Run.Counted c) (count "merged")
      (fun _ ↦ Run.On fun _ c' ↦ Hindered c c' ∧ c.Le c') (fun _ ↦ Run.Counted c) :=
    on_count fun _ _ h ↦ ⟨⟨"merged", by simp, h.lt_increment _⟩, h.increment _⟩
  refine Ensures.weaken (P := Run.Counted c) (Q := fun _ ↦ Run.On fun _ c' ↦ Hindered c c' ∧ c.Le c')
    ?_ (fun _ hr ↦ starts_counted hr) (fun _ _ hr ↦ ⟨hP _ _ hr.state.1, hr.silent⟩) fun _ _ hr ↦ hr
  refine (hcounts (counts_info _)).bind fun _ ↦ (hcounts (counts_ask _)).bind fun names ↦ ?_
  refine Ensures.bind (hcounts (keeps_forIn fun name _ ↦ (hchild _ _).yield)) fun _ ↦ ?_
  refine hmerged.bind fun _ ↦ Ensures.bind (Q := fun _ ↦ Run.On fun _ c' ↦ Hindered c c' ∧ c.Le c')
    (on_ask.weaken (fun _ hr ↦ hr) (fun _ _ hr ↦ ⟨hr.state.1, hr.silent⟩)
      fun _ _ hr ↦ ⟨hr.state.1.2, hr.silent⟩) fun left ↦ ?_
  split
  · exact (on_uncounted _).weaken (fun _ hr ↦ hr) (fun _ _ hr ↦ hr)
      fun _ _ hr ↦ ⟨hr.state.2, hr.silent⟩
  · exact ensures_pure fun _ hr ↦ hr

/-! ## Moves -/

theorem starts_moveDirectory (hs : s.WellFormed) (hproper : source.Proper)
    (hdestination : destination.Proper)
    (hsource : s.target .followed source = .ok (.found origin .dir))
    (hchild : ∀ source target, Counts c (moveChild source target)) (policy : OverwritePolicy) :
    Ensures (Starts s c) (moveDirectory moveChild source destination policy)
      (fun _ ↦ Run.On (MovedOr s c source (landing s source destination)))
      (fun _ ↦ Run.Counted c) := by
  refine (starts_ask _).bind fun isDirectory ↦ ensures_assume fun hdirectory ↦ ?_
  unfold landing
  rw [hdirectory]
  cases isDirectory with
  | false =>
    refine (on_info _).bind fun _ r hr ↦ ?_
    exact on_moveEntry hs hdestination hsource r (starts_cleared hdirectory hr)
  | true =>
    have hdestination' : destination.Usable True := ⟨hdestination, fun _ ↦ trivial⟩
    have htarget := (usable_within hdestination' ⟨hproper, fun _ ↦ trivial⟩).proper
    refine (on_info _).bind fun _ ↦ (starts_ask _).bind fun same ↦ ensures_assume fun _ ↦ ?_
    split
    · refine (on_info _).bind fun _ ↦ on_count fun s' c' h ↦ .inl ⟨"skipped", by simp, ?_⟩
      exact Counters.Le.lt_increment (h.2 ▸ .refl c) _
    refine (starts_mayReplace policy _).bind fun replaces ↦ ?_
    split
    · exact (starts_removeTarget _).bind fun _ ↦ on_moveEntry hs htarget hsource
    · exact starts_mergeDirectory hchild _ _ fun _ _ ↦ .inl

theorem starts_moveEntryFrom (hs : s.WellFormed) (hproper : source.Proper)
    (hdestination : destination.Proper) (hsource : s.isDirectory source = .ok true)
    (policy : OverwritePolicy) (depth : ℕ) :
    Ensures (Starts s c) (moveEntryFrom policy depth source destination)
      (fun _ ↦ Run.On (MovedOr s c source (landing s source destination))) (fun _ _ ↦ True) := by
  have hfailed (f : Failure) (s' : Store) (c' : Counters) (_ : f.isSystem) (h : c.Le c') :
      MovedOr s c source (landing s source destination) s' (c'.increment "failed") :=
    .inl ⟨"failed", by simp, h.lt_increment _⟩
  cases depth with
  | zero =>
    have hthrow : Ensures (Starts s c) (throw (.ofPath .nameTooLong source) : RunAction Unit)
        (fun _ ↦ Run.On (MovedOr s c source (landing s source destination)))
        (fun _ ↦ Run.Counted c) := ensures_throw fun _ hr ↦ starts_counted hr
    exact (on_surviving hthrow hfailed).weaken (fun _ hr ↦ hr) (fun _ _ hr ↦ hr) fun _ _ _ ↦ trivial
  | succ depth =>
    obtain ⟨-, l, hleads⟩ := StoreAction.isDirectory_eq_true_iff.mp hsource
    have hmove := starts_moveDirectory (c := c) hs hproper hdestination hleads
      (counts_moveEntryFrom policy depth) policy
    refine (on_surviving ((starts_ask _).bind fun isDirectory ↦ ensures_assume fun hanswer ↦ ?_)
      hfailed).weaken (fun _ hr ↦ hr) (fun _ _ hr ↦ hr) fun _ _ _ ↦ trivial
    obtain rfl : true = isDirectory := Except.ok.inj (hsource.symm.trans hanswer)
    exact hmove

/-- A move of a directory that ends, and in which nothing has failed, been merged or been skipped,
has been counted once and has carried the directory to its target. It has delivered every file that
was in the directory, unless there were some and the target lies in the directory itself. -/
theorem carried_of_move (x : Executor) (hx : x.workingDirectory.Proper)
    {source destination : String} (policy : OverwritePolicy)
    (hplain : Path.hasWildcard source = false) {r r' : Run} (hr : r.store.WellFormed)
    (hsilent : r.journal.file = none)
    (hsource : r.store.isDirectory (Path.resolve source x.workingDirectory) = .ok true)
    (hrun : (x.move source destination policy).run r = (.ok (), r'))
    (hcounters : ∀ name ∈ ["failed", "merged", "skipped"],
      r'.counters.value name ≤ r.counters.value name) :
    r'.counters = r.counters.increment "moved" ∧
      ∃ d n target, r.store.Lies (Path.resolve source x.workingDirectory) d n ∧
        r.store.Names (landing r.store (Path.resolve source x.workingDirectory)
          (Path.resolve destination x.workingDirectory)) target ∧
        r.store.Carried (d ++ [n]) target r'.store ∧
        (r.store.Delivered r'.store (d ++ [n]) target ↔ (d ++ [n] <+: target →
          ∀ rest id content, r.store.entry? (d ++ [n] ++ rest) ≠ some (.file id content))) := by
  rw [move_of_plain x destination policy hplain] at hrun
  have hmove := starts_moveEntryFrom (c := r.counters) hr (proper_resolve hx source)
    (proper_resolve hx destination) hsource policy Store.pathLimit r ⟨⟨rfl, rfl⟩, hsilent⟩
  unfold moveEntry at hrun
  rw [hrun] at hmove
  rcases hmove.state with ⟨name, hname, hlt⟩ | ⟨hcount, d, n, target, hlies, hnames, hcarried⟩
  · have hle := hcounters name hname
    omega
  · exact ⟨hcount, d, n, target, hlies, hnames, hcarried, hcarried.delivered_iff hr⟩

/-- A directory that is moved to a symbolic link to itself is lost with the file in it. -/
theorem carried_of_move_to_own_link :
    let s := ((Store.empty.put ["S"] .dir).putFile ["S", "f"] [100]).put ["L"] (.link "S")
    let result := (move ⟨Path.here, none⟩ "S" "L" .replace).run (Run.first s)
    result.1 = .ok () ∧ result.2.counters = (Run.first s).counters.increment "moved" ∧
      s.Carried ["S"] ["S", "S"] result.2.store ∧
      ¬ s.Delivered result.2.store ["S"] ["S", "S"] := by
  intro s result
  have hs : s.WellFormed := by decide
  have hproper : Path.here.Proper := by simp [Path.Proper, Path.here]
  have hresult : result.1 = .ok () := by rfl
  have hrun : result = (.ok (), result.2) := run_of_ok hresult
  have hcounters : ∀ name ∈ ["failed", "merged", "skipped"],
      result.2.counters.value name ≤ (Run.first s).counters.value name := by
    decide +kernel
  obtain ⟨hcount, d, n, target, hlies, hnames, hcarried, hdelivered⟩ :=
    carried_of_move ⟨Path.here, none⟩ hproper .replace rfl hs rfl rfl hrun hcounters
  have hlies' : s.Lies (Path.ofString "S") [] "S" := Store.lies_of_slot rfl
  have hnames' : s.Names (Path.ofString "L/S") (["S"] ++ ["S"]) :=
    Store.names_of_lies (Store.lies_of_slot rfl) hs
  obtain ⟨rfl, rfl⟩ := hlies'.unique hlies
  obtain rfl := hnames'.unique hnames
  have hfile : s.entry? ([] ++ ["S"] ++ ["f"]) = some (.file 0 [100]) := rfl
  have hlost : ¬ s.Delivered result.2.store ([] ++ ["S"]) (["S"] ++ ["S"]) :=
    fun h ↦ hdelivered.mp h (by decide) ["f"] 0 [100] hfile
  exact ⟨hresult, hcount, hcarried, hlost⟩

end Executor

end DeferredOps
