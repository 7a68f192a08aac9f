import DeferredOps.Proofs.Run

/-!
# Silent runs

A run that writes no event file changes its store only where an operation acts on it, and its
counters only where one counts. What an operation of such a run does is then what its actions on the
store do, step by step.
-/

namespace DeferredOps

open Action

/-- A run that writes no event file, with a property of its store and its counters. -/
structure Run.On (P : Store → Counters → Prop) (r : Run) : Prop where
  state : P r.store r.counters
  silent : r.journal.file = none

namespace RunAction

variable {α β : Type} {P P' : Store → Counters → Prop} {Q : α → Store → Counters → Prop}
  {E : Failure → Store → Counters → Prop} {F : Failure → Run → Prop}

/-! ## Steps -/

theorem on_onStore {action : StoreAction α}
    (h : ∀ c, Ensures (P · c) action (fun a s ↦ Q a s c) (fun f s ↦ E f s c)) :
    Ensures (Run.On P) (onStore action) (fun a ↦ Run.On (Q a)) (fun f ↦ Run.On (E f)) := by
  intro r hr
  have haction := h r.counters r.store hr.state
  rw [run_onStore]
  rcases hrun : action.run r.store with ⟨f | a, s⟩ <;> rw [hrun] at haction
  · exact ⟨haction, hr.silent⟩
  · exact ⟨haction, hr.silent⟩

theorem on_ask {question : Store → Except Failure α} :
    Ensures (Run.On P) (ask question) (fun a ↦ Run.On fun s c ↦ P s c ∧ question s = .ok a)
      (fun f ↦ Run.On fun s c ↦ P s c ∧ question s = .error f) := by
  intro r hr
  rw [run_ask]
  cases hanswer : question r.store with
  | ok => exact ⟨⟨hr.state, hanswer⟩, hr.silent⟩
  | error => exact ⟨⟨hr.state, hanswer⟩, hr.silent⟩

/-- A question whose answer is known. -/
theorem on_ask_of_eq {question : Store → Except Failure α} {answer : α}
    (h : ∀ s c, P s c → question s = .ok answer) :
    Ensures (Run.On P) (ask question) (fun a r ↦ a = answer ∧ Run.On P r) F := by
  intro r hr
  rw [run_ask, h _ _ hr.state]
  exact ⟨rfl, hr⟩

/-- What is known of the counters is known after an action on the store. -/
theorem on_uncounted {P : Counters → Prop} (action : StoreAction α) :
    Ensures (Run.On fun _ c ↦ P c) (onStore action) (fun _ ↦ Run.On fun _ c ↦ P c)
      (fun _ ↦ Run.On fun _ c ↦ P c) := by
  intro r hr
  rw [run_onStore]
  rcases action.run r.store with ⟨f | a, s⟩
  · exact ⟨hr.state, hr.silent⟩
  · exact ⟨hr.state, hr.silent⟩

theorem on_count {name : String} (h : ∀ s c, P s c → P' s (c.increment name)) :
    Ensures (Run.On P) (count name) (fun _ ↦ Run.On P') F :=
  ensures_modify fun _ hr ↦ ⟨h _ _ hr.state, hr.silent⟩

theorem on_log (level : LogLevel) (message : String) :
    Ensures (Run.On P) (log level message) (fun _ ↦ Run.On P) F :=
  ensures_modify fun _ hr ↦ ⟨hr.state, hr.silent⟩

/-- Reporting changes neither the store nor the counters, and it does not fail. -/
theorem on_emit (severity : Severity) (message : String) (context : Json) :
    Ensures (Run.On P) (emit severity message context) (fun _ ↦ Run.On P) F := by
  have hname : Ensures (Run.On P) freshName (fun _ ↦ Run.On P) F :=
    fun _ hr ↦ ⟨hr.state, hr.silent⟩
  have hnow : Ensures (Run.On P) now (fun _ ↦ Run.On P) F := fun _ hr ↦ ⟨hr.state, hr.silent⟩
  unfold emit
  refine hname.bind fun id ↦ hnow.bind fun time ↦ ensures_get_bind fun r hr ↦ ?_
  refine Ensures.bind (Q := fun _ ↦ Run.On P) (ensures_modify fun r' hr' ↦ ?_) fun _ ↦ ?_
  · subst hr'
    exact ⟨hr.state, hr.silent⟩
  dsimp only
  rw [hr.silent]
  split
  · exact (on_log _ _).bind fun _ ↦ ensures_pure fun _ h ↦ h
  · exact ensures_pure fun _ h ↦ h

theorem on_info (message : String) :
    Ensures (Run.On P) (info message) (fun _ ↦ Run.On P) F :=
  (on_emit _ _ _).bind fun _ ↦ ensures_pure fun _ h ↦ h

theorem on_warn (message : String) :
    Ensures (Run.On P) (warn message) (fun _ ↦ Run.On P) F :=
  (on_emit _ _ _).bind fun _ ↦ ensures_pure fun _ h ↦ h

/-! ## Survived failures -/

/-- A failure that is survived is counted; the others go on. -/
theorem on_surviving {report : Failure → String} {operation : RunAction Unit}
    (h : Ensures (Run.On P) operation (fun _ ↦ Run.On P') (fun f ↦ Run.On (E f)))
    (hsurvived : ∀ f s c, f.isSystem → E f s c → P' s (c.increment "failed")) :
    Ensures (Run.On P) (surviving report operation) (fun _ ↦ Run.On P')
      (fun f ↦ Run.On fun s c ↦ f.isSystem = false ∧ E f s c) := by
  refine h.tryCatch fun f ↦ ?_
  split
  · next hsystem => exact (on_count fun s c hE ↦ hsurvived f s c hsystem hE).bind fun _ ↦ on_warn _
  · next hsystem => exact ensures_throw fun _ hr ↦ ⟨⟨by simpa using hsystem, hr.state⟩, hr.silent⟩

end RunAction

end DeferredOps
