import DeferredOps.Proofs.Bookkeeping
import DeferredOps.Proofs.Reports
import DeferredOps.Proofs.Store.MovesInStep

/-!
# Runs below two directories

Two runs are alike below two directories if their stores are, they have counted the same, and they have
reported as many events of the same severities. Operations keep runs alike until one of them has
reported that a path is too long: that depends on the directory, and so it excuses what follows.
-/

namespace DeferredOps

open Action

/-! ## Reports of long paths -/

/-- A failure because the path of one of these names below a directory is too long. -/
def Failure.OfLong (w : Path) (near : List String → Prop) (f : Failure) : Prop :=
  ∃ names, near names ∧ (w.extend names).TooLong f

/-- The text of a report that says that a path is too long: the path of what was to be deleted, or of a
name beside it, one of the paths of a move, or the path of a part of a copy. -/
inductive Report.OfLongPath : String → Prop
  | delete {target p : Path} {f : Failure} (h : p.TooLong f)
      (hp : p = target ∨ p = target.parent ∨ ∃ name, IsName name ∧ p = target.parent.child name) :
      OfLongPath (Report.failedDelete target f.reason)
  | move {source destination p : Path} {f : Failure} (h : p.TooLong f)
      (hp : p = source ∨ p = source.parent ∨ p = destination ∨
        p = Executor.within destination source) :
      OfLongPath (Report.failedMove source destination f.reason)
  | copy {source destination : Path} {f : Failure} (h : f.OfStrayPart) :
      OfLongPath (Report.failedMove source destination f.reason)

/-- A run has reported that a path is too long. -/
def Run.Hindered (r : Run) : Prop :=
  ∃ text, Report.OfLongPath text ∧ (Severity.warning, text) ∈ r.notices

theorem Run.Hindered.of_reported {r r' : Run} {news : List Notice} (h : r.Hindered)
    (hreported : Run.Reported news r r') : r'.Hindered := by
  obtain ⟨text, hlong, hmem⟩ := h
  exact ⟨text, hlong, hreported.notices ▸ List.mem_append_left _ hmem⟩

theorem bookkeeping_hindered : Bookkeeping Run.Hindered where
  store _ _ hr := hr
  command _ _ hr := hr
  count _ _ _ _ hr := hr
  info message := keeps_of_state fun _ hr ↦ hr.of_reported (RunAction.reported_report .info message _)
  failed message := by
    have hcount : Keeps Run.Hindered (fun _ ↦ True) (RunAction.count "failed") :=
      keeps_modify fun _ hr ↦ hr
    exact hcount.bind fun _ ↦ keeps_of_state fun _ hr ↦
      hr.of_reported (RunAction.reported_report .warning message _)

/-! ## Runs that are alike -/

/-- Two runs are alike below two directories. The paths of the known names may be asked about below
both. -/
structure Run.Alike (w w' : Path) (known : List (List String)) (r r' : Run) : Prop where
  store : Store.Alike w w' r.store r'.store
  counters : r'.counters = r.counters
  severities : r'.notices.map Prod.fst = r.notices.map Prod.fst
  silent : r.journal.file = none
  silent' : r'.journal.file = none
  reached {names} (h : names ∈ known) : Path.BothReached w w' names

namespace Run.Alike

variable {w w' : Path} {known more : List (List String)} {names : List String} {r r' : Run}

theorem forget (h : Alike w w' known r r') (hsub : more ⊆ known) : Alike w w' more r r' :=
  { h with reached := fun hmem ↦ h.reached (hsub hmem) }

theorem know (h : Alike w w' known r r') (hreached : Path.BothReached w w' names) :
    Alike w w' (names :: known) r r' := by
  refine { h with reached := fun {other} hmem ↦ ?_ }
  rcases List.mem_cons.mp hmem with rfl | hmem
  · exact hreached
  · exact h.reached hmem

theorem withStores (h : Alike w w' known r r') {s t : Store} (hst : Store.Alike w w' s t) :
    Alike w w' known { r with store := s } { r' with store := t } :=
  { h with store := hst }

theorem increment (h : Alike w w' known r r') (name : String) :
    Alike w w' known { r with counters := r.counters.increment name }
      { r' with counters := r'.counters.increment name } :=
  { h with counters := congrArg (·.increment name) h.counters }

theorem noted (h : Alike w w' known r r') (severity : Severity) (message message' : String) :
    Alike w w' known (r.noted severity message) (r'.noted severity message') where
  store := h.store
  counters := h.counters
  severities := by
    rw [(reported_noted severity message r).notices, (reported_noted severity message' r').notices,
      List.map_append, List.map_append, h.severities]
    rfl
  silent := h.silent
  silent' := h.silent'
  reached := h.reached

end Run.Alike

namespace RunAction

variable {α β : Type} {w w' : Path} {known : List (List String)} {names : List String}
  {left right : Failure → Prop} {x y : RunAction Unit} {V : α → α → Prop}
  {F : Failure → Failure → Run → Run → Prop}

/-- Two operations go from runs that are alike to what the condition on their results says, or fail in
the same way. -/
abbrev GoAlike (w w' : Path) (known : List (List String)) (left right : Failure → Prop)
    (x y : RunAction α) (Q : α → α → Run → Run → Prop) : Prop :=
  Alongside ⟨Run.Hindered, left, right⟩ (Run.Alike w w' known) x y Q
    (fun f g r r' ↦ f.Akin g ∧ Run.Alike w w' [] r r')

/-- Two operations go in step, from runs that are alike to runs that are alike. -/
abbrev InStep (w w' : Path) (known : List (List String)) (left right : Failure → Prop)
    (x y : RunAction Unit) : Prop :=
  GoAlike w w' known left right x y (fun _ _ ↦ Run.Alike w w' known)

theorem InStep.forget {more : List (List String)} (h : InStep w w' known left right x y)
    (hsub : known ⊆ more) :
    GoAlike w w' more left right x y (fun _ _ ↦ Run.Alike w w' known) :=
  h.weaken (fun _ _ hr ↦ hr.forget hsub) (fun _ _ _ _ hr ↦ hr) fun _ _ _ _ hr ↦ hr

theorem inStep_pure : InStep w w' known left right (pure ()) (pure ()) :=
  alongside_pure fun _ _ hr ↦ hr

theorem inStep_throw {f g : Failure} (h : f.Akin g) :
    InStep w w' known left right (throw f) (throw g) :=
  alongside_throw fun _ _ hr ↦ ⟨h, hr.forget (List.nil_subset _)⟩

/-! ## Counts and reports -/

theorem alongside_count (name : String) :
    Alongside ⟨Run.Hindered, left, right⟩ (Run.Alike w w' known) (count name) (count name)
      (fun _ _ ↦ Run.Alike w w' known) F where
  left := keeps_modify fun _ hr ↦ hr
  right := keeps_modify fun _ hr ↦ hr
  alike _ _ hr := .inr (.inr (hr.increment name))

theorem alongside_report (severity : Severity) (message message' : String) :
    Alongside ⟨Run.Hindered, left, right⟩ (Run.Alike w w' known)
      (discard (emit severity message (.obj []))) (discard (emit severity message' (.obj [])))
      (fun _ _ ↦ Run.Alike w w' known) F where
  left := keeps_of_state fun _ hr ↦ hr.of_reported (reported_report severity message _)
  right := keeps_of_state fun _ hr ↦ hr.of_reported (reported_report severity message' _)
  alike r r' hr := by
    rw [run_report, run_report, hr.silent, hr.silent']
    exact .inr (.inr (hr.noted severity message message'))

theorem alongside_info (message message' : String) :
    Alongside ⟨Run.Hindered, left, right⟩ (Run.Alike w w' known) (info message) (info message')
      (fun _ _ ↦ Run.Alike w w' known) F :=
  alongside_report .info message message'

/-! ## Actions and questions -/

/-- Actions on the stores that go in step go in step within runs. -/
theorem alongside_onStore {P : Store → Store → Prop} {action action' : StoreAction α}
    (h : Alongside (.failures left right) P action action' (fun a b s t ↦ V a b ∧ Store.Alike w w' s t)
      (fun f g s t ↦ f.Akin g ∧ Store.Alike w w' s t))
    (hP : ∀ r r', Run.Alike w w' known r r' → P r.store r'.store) :
    GoAlike w w' known left right (onStore action) (onStore action')
      (fun a b r r' ↦ V a b ∧ Run.Alike w w' known r r') where
  left := bookkeeping_hindered.onStore action
  right := bookkeeping_hindered.onStore action'
  alike r r' hr := by
    have hboth := h.alike r.store r'.store (hP r r' hr)
    rw [run_onStore, run_onStore]
    refine hboth.imp (fun h ↦ .inr (h.resolve_left id)) fun hboth ↦
      hboth.imp (fun h ↦ .inr (h.resolve_left id)) fun htogether ↦ ?_
    rcases hrun : action.run r.store with ⟨f | a, s⟩ <;>
      rcases hrun' : action'.run r'.store with ⟨g | b, t⟩ <;> rw [hrun, hrun'] at htogether
    · exact ⟨htogether.1, (hr.withStores htogether.2).forget (List.nil_subset _)⟩
    · cases htogether
    · cases htogether
    · exact ⟨htogether.1, hr.withStores htogether.2⟩

/-- Questions that are answered alike. -/
theorem alongside_ask {question question' : Store → Except Failure α}
    (h : ∀ s t, Store.Alike w w' s t →
      AnswersAlike (⟨Run.Hindered, left, right⟩ : Excuse Run) V (question s) (question' t)) :
    GoAlike w w' known left right (ask question) (ask question')
      (fun a b r r' ↦ V a b ∧ Run.Alike w w' known r r') where
  left := keeps_ask_frame question
  right := keeps_ask_frame question'
  alike r r' hr := by
    rw [run_ask, run_ask]
    have hanswers := h r.store r'.store hr.store
    generalize question r.store = answer at hanswers ⊢
    generalize question' r'.store = answer' at hanswers ⊢
    cases hanswers with
    | left h => exact .inl (.inr ⟨_, rfl, h⟩)
    | right h => exact .inr (.inl (.inr ⟨_, rfl, h⟩))
    | ok h => exact .inr (.inr ⟨h, hr⟩)
    | error h => exact .inr (.inr ⟨h, hr.forget (List.nil_subset _)⟩)

/-! ## Failures that are survived -/

/-- Two operations go in step and raise the same failures. No failure is an excuse any more, only a
report. -/
abbrev Tied (w w' : Path) (x y : RunAction Unit) : Prop :=
  Alongside ⟨Run.Hindered, fun _ ↦ False, fun _ ↦ False⟩ (Run.Alike w w' []) x y
    (fun _ _ ↦ Run.Alike w w' []) (fun f g r r' ↦ f = g ∧ Run.Alike w w' [] r r')

theorem Tied.inStep (h : Tied w w' x y) : InStep w w' [] left right x y :=
  (h.excuse (fun _ hf ↦ hf.elim) fun _ hf ↦ hf.elim).weaken (fun _ _ hr ↦ hr) (fun _ _ _ _ hr ↦ hr)
    fun _ _ _ _ hr ↦ ⟨.inl hr.1, hr.2⟩

/-- An operation whose failures are survived: one that is an excuse is reported. -/
theorem tied_surviving {report report' : Failure → String}
    (h : InStep w w' [] left right x y)
    (hleft : ∀ f, left f → f.isSystem ∧ Report.OfLongPath (report f))
    (hright : ∀ f, right f → f.isSystem ∧ Report.OfLongPath (report' f)) :
    Tied w w' (surviving report x) (surviving report' y) := by
  have hreported {report : Failure → String} {f : Failure} (r : Run)
      (hf : f.isSystem ∧ Report.OfLongPath (report f)) :
      Excused Run.Hindered (fun _ ↦ False) ((if f.isSystem then do count "failed"; warn (report f)
        else throw f : RunAction Unit).run r) := by
    rw [if_pos hf.1, run_bind]
    refine .inl ⟨report f, hf.2, ?_⟩
    have hnotices := (reported_report .warning (report f)
      { r with counters := r.counters.increment "failed" }).notices
    exact hnotices.symm ▸ List.mem_append_right _ (List.mem_singleton_self _)
  refine Alongside.tryCatch h (fun f r hf ↦ hreported r (hleft f hf))
    (fun g r hg ↦ hreported r (hright g hg)) fun f g ↦ ?_
  have hkept (f : Failure) (report : Failure → String) : Keeps Run.Hindered (fun _ ↦ True)
      (if f.isSystem then do count "failed"; warn (report f) else throw f : RunAction Unit) := by
    split
    · exact bookkeeping_hindered.failed _
    · exact keeps_throw trivial
  refine ⟨hkept f report, hkept g report', fun r r' ⟨hakin, hr⟩ ↦ ?_⟩
  by_cases hf : f.isSystem
  · have hg : g.isSystem := hakin.elim (· ▸ hf) And.right
    rw [if_pos hf, if_pos hg]
    exact ((alongside_count "failed").seq (alongside_report .warning _ _)).alike r r' hr
  · obtain rfl : f = g := hakin.resolve_right fun h ↦ hf h.1
    rw [if_neg hf, if_neg hf]
    exact .inr (.inr ⟨rfl, hr⟩)

end RunAction

end DeferredOps
