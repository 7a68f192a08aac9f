import DeferredOps.Proofs.Run

/-!
# Failures of the file system

Whether an action ends with a failure of the file system, or of a command, is found along the way in
which it is put together: a sequence does if one of its steps does, and a handled action does if its
handler does.
-/

namespace DeferredOps

namespace Action

variable {σ α β : Type}

/-- From a state an action ends with a failure of the file system or of a command. -/
def SystemFails (x : Action σ α) (s : σ) : Prop :=
  ∃ f s', x.run s = (.error f, s') ∧ f.isSystem = true

variable {x : Action σ α} {next : α → Action σ β} {s : σ}

theorem systemFails_of_ok {a : α} {s' : σ} (h : x.run s = (.ok a, s')) : ¬ SystemFails x s := by
  rintro ⟨f, t, hrun, -⟩
  cases h.symm.trans hrun

theorem systemFails_of_error {f : Failure} {s' : σ} (h : x.run s = (.error f, s')) :
    SystemFails x s ↔ f.isSystem = true := by
  constructor
  · rintro ⟨g, t, hrun, hg⟩
    cases h.symm.trans hrun
    exact hg
  · exact fun hf ↦ ⟨f, s', h, hf⟩

/-- An action ends with the value that is got from it. -/
theorem run_of_toOption {a : α} (h : (x.run s).1.toOption = some a) :
    x.run s = (.ok a, (x.run s).2) := by
  rcases hrun : x.run s with ⟨f | b, s'⟩ <;> rw [hrun] at h
  · cases h
  · obtain rfl : b = a := Option.some_inj.mp h
    rfl

/-- Only how an action ends matters. -/
theorem systemFails_congr {y : Action σ α} {t : σ} (h : x.run s = y.run t) :
    SystemFails x s ↔ SystemFails y t := by
  unfold SystemFails
  rw [h]

@[simp]
theorem not_systemFails_pure (a : α) : ¬ SystemFails (pure a : Action σ α) s :=
  systemFails_of_ok (run_pure a s)

@[simp]
theorem systemFails_throw (f : Failure) :
    SystemFails (throw f : Action σ α) s ↔ f.isSystem = true :=
  systemFails_of_error (run_throw f s)

@[simp]
theorem not_systemFails_modify (change : σ → σ) : ¬ SystemFails (modify change) s :=
  systemFails_of_ok (run_modify change s)

/-- After a first part that is known, only the second part matters. -/
theorem systemFails_bind_of_run {a : α} {s' : σ} (h : x.run s = (.ok a, s')) :
    SystemFails (x >>= next) s ↔ SystemFails (next a) s' :=
  systemFails_congr (by rw [run_bind, h])

theorem systemFails_bind_of_error {f : Failure} {s' : σ} (h : x.run s = (.error f, s')) :
    SystemFails (x >>= next) s ↔ f.isSystem = true :=
  systemFails_of_error (by rw [run_bind, h])

/-- A sequence fails in its first part, or in the second from where the first ends. -/
theorem systemFails_bind : SystemFails (x >>= next) s ↔
    SystemFails x s ∨ ∃ a s', x.run s = (.ok a, s') ∧ SystemFails (next a) s' := by
  rcases hrun : x.run s with ⟨f | a, s'⟩
  · rw [systemFails_bind_of_error hrun, systemFails_of_error hrun]
    exact ⟨.inl, fun h ↦ h.elim id fun ⟨_, _, heq, _⟩ ↦ nomatch heq⟩
  · rw [systemFails_bind_of_run hrun, or_iff_right (systemFails_of_ok hrun)]
    constructor
    · exact fun h ↦ ⟨a, s', rfl, h⟩
    · rintro ⟨_, _, heq, h⟩
      cases heq
      exact h

/-- A sequence of steps none of which fails does not fail. -/
theorem not_systemFails_bind (hx : ¬ SystemFails x s) (hnext : ∀ a s', ¬ SystemFails (next a) s') :
    ¬ SystemFails (x >>= next) s := by
  rw [systemFails_bind]
  rintro (h | ⟨a, s', -, h⟩)
  · exact hx h
  · exact hnext a s' h

theorem not_systemFails_forM {γ : Type} {body : γ → Action σ PUnit} {elements : List γ}
    (h : ∀ c s, ¬ SystemFails (body c) s) : ¬ SystemFails (elements.forM body) s := by
  induction elements generalizing s with
  | nil => exact not_systemFails_pure _
  | cons c rest ih => exact not_systemFails_bind (h c s) fun _ _ ↦ ih

/-- A handled action fails only in its handler. -/
theorem systemFails_tryCatch {handler : Failure → Action σ α} :
    SystemFails (tryCatch x handler) s ↔
      ∃ f s', x.run s = (.error f, s') ∧ SystemFails (handler f) s' := by
  rcases hrun : x.run s with ⟨f | a, s'⟩
  · rw [systemFails_congr (y := handler f) (t := s') (by rw [run_tryCatch, hrun])]
    constructor
    · exact fun h ↦ ⟨f, s', rfl, h⟩
    · rintro ⟨_, _, heq, h⟩
      cases heq
      exact h
  · have hno := systemFails_of_ok (x := tryCatch x handler) (s := s) (by rw [run_tryCatch, hrun])
    exact ⟨fun h ↦ (hno h).elim, nofun⟩

end Action

namespace RunAction

open Action

variable {α : Type} {r : Run}

theorem systemFails_onStore {action : StoreAction α} :
    SystemFails (onStore action) r ↔ SystemFails action r.store := by
  have hwhole := run_onStore action r
  rcases hrun : action.run r.store with ⟨f | a, s⟩ <;> rw [hrun] at hwhole
  · rw [systemFails_of_error hwhole, systemFails_of_error hrun]
  · exact iff_of_false (systemFails_of_ok hwhole) (systemFails_of_ok hrun)

theorem systemFails_ask {question : Store → Except Failure α} :
    SystemFails (ask question) r ↔ ∃ f, question r.store = .error f ∧ f.isSystem = true := by
  have hrun := run_ask question r
  generalize question r.store = answer at hrun ⊢
  cases answer with
  | ok a => simp [systemFails_of_ok hrun]
  | error f => simp [systemFails_of_error hrun]

theorem systemFails_ask_bind {β : Type} {question : Store → Except Failure α}
    {next : α → RunAction β} : SystemFails (ask question >>= next) r ↔
      match question r.store with
      | .ok a => SystemFails (next a) r
      | .error f => f.isSystem = true := by
  have hrun := run_ask question r
  generalize question r.store = answer at hrun ⊢
  cases answer with
  | ok a => exact systemFails_bind_of_run hrun
  | error f => exact systemFails_bind_of_error hrun

@[simp]
theorem not_systemFails_log (level : LogLevel) (message : String) :
    ¬ SystemFails (log level message) r :=
  not_systemFails_modify _

/-- A text that cannot be printed is no matter of the file system. -/
@[simp]
theorem not_systemFails_printLine (text : String) : ¬ SystemFails (printLine text) r := by
  unfold printLine
  rw [systemFails_bind_of_run (run_get r)]
  split
  · exact systemFails_of_ok (run_set _ _)
  · simp [Failure.isSystem]

end RunAction

end DeferredOps
