import DeferredOps.Proofs.Action
import Mathlib.Data.List.Forall2

/-!
# Two actions side by side

Two actions on states of the same kind are compared from two states that are related. They are to end
alike, both with a value or both with a failure, unless one of them is excused: it has come to a state
that excuses it from then on, or it ends with a failure that does.
-/

namespace DeferredOps

/-- Two failures that an instruction treats in the same way. -/
def Failure.Akin (f g : Failure) : Prop :=
  f = g ∨ f.isSystem ∧ g.isSystem

namespace Action

variable {σ α β γ : Type}

/-- What excuses two actions from a comparison: a state that either of them leaves behind, and the
failures of the first one and of the second. -/
structure Excuse (σ : Type) where
  state : σ → Prop
  left : Failure → Prop
  right : Failure → Prop

/-- Only failures are an excuse. -/
def Excuse.failures (left right : Failure → Prop) : Excuse σ := ⟨fun _ ↦ False, left, right⟩

/-- An outcome that leaves a state or ends with a failure that is an excuse. -/
def Excused (state : σ → Prop) (failure : Failure → Prop) (outcome : Except Failure α × σ) : Prop :=
  state outcome.2 ∨ ∃ f, outcome.1 = .error f ∧ failure f

/-- Two outcomes that are alike: two values as `value` says, or two failures as `failure` says, with
the states at the end. -/
def Together (value : α → α → σ → σ → Prop) (failure : Failure → Failure → σ → σ → Prop) :
    Except Failure α × σ → Except Failure α × σ → Prop
  | (.ok a, s), (.ok b, t) => value a b s t
  | (.error f, s), (.error g, t) => failure f g s t
  | _, _ => False

/-- From any two states that `before` relates, the two actions end alike, unless one of them is
excused. A state that is an excuse remains one. -/
structure Alongside (e : Excuse σ) (before : σ → σ → Prop) (x y : Action σ α)
    (value : α → α → σ → σ → Prop) (failure : Failure → Failure → σ → σ → Prop) : Prop where
  left : Keeps e.state (fun _ ↦ True) x
  right : Keeps e.state (fun _ ↦ True) y
  alike s t : before s t → Excused e.state e.left (x.run s) ∨ Excused e.state e.right (y.run t) ∨
    Together value failure (x.run s) (y.run t)

theorem Together.mono {Q Q' : α → α → σ → σ → Prop} {F F' : Failure → Failure → σ → σ → Prop}
    {outcome other : Except Failure α × σ} (h : Together Q F outcome other)
    (hQ : ∀ a b s t, Q a b s t → Q' a b s t) (hF : ∀ f g s t, F f g s t → F' f g s t) :
    Together Q' F' outcome other := by
  rcases outcome with ⟨f | a, s⟩ <;> rcases other with ⟨g | b, t⟩
  · exact hF f g s t h
  · cases h
  · cases h
  · exact hQ a b s t h

theorem Excused.mono {state : σ → Prop} {failure failure' : Failure → Prop}
    {outcome : Except Failure α × σ} (h : Excused state failure outcome)
    (himp : ∀ f, failure f → failure' f) : Excused state failure' outcome :=
  h.imp_right fun ⟨f, hf, hfailure⟩ ↦ ⟨f, hf, himp f hfailure⟩

section Rules

variable {e : Excuse σ} {P P' : σ → σ → Prop} {Q Q' : α → α → σ → σ → Prop}
  {R : β → β → σ → σ → Prop} {F F' : Failure → Failure → σ → σ → Prop}

/-- An excused action goes on to be excused. -/
theorem Excused.bind {failure : Failure → Prop} {x : Action σ α} {next : α → Action σ β} {s : σ}
    (h : Excused e.state failure (x.run s)) (hnext : ∀ a, Keeps e.state (fun _ ↦ True) (next a)) :
    Excused e.state failure ((x >>= next).run s) := by
  rw [run_bind]
  rcases hrun : x.run s with ⟨f | a, s'⟩ <;> rw [hrun] at h
  · refine h.imp_right ?_
    rintro ⟨g, hg, hfailure⟩
    cases hg
    exact ⟨f, rfl, hfailure⟩
  · rcases h with hstate | ⟨g, hg, -⟩
    · exact .inl ((hnext a).state hstate)
    · cases hg

theorem Alongside.weaken {x y : Action σ α} (h : Alongside e P x y Q F)
    (hP : ∀ s t, P' s t → P s t) (hQ : ∀ a b s t, Q a b s t → Q' a b s t)
    (hF : ∀ f g s t, F f g s t → F' f g s t) : Alongside e P' x y Q' F' where
  left := h.left
  right := h.right
  alike s t hst := (h.alike s t (hP s t hst)).imp_right fun h ↦ h.imp_right fun h ↦ h.mono hQ hF

/-- More failures may be excuses. -/
theorem Alongside.excuse {left right : Failure → Prop} {x y : Action σ α}
    (h : Alongside e P x y Q F) (hleft : ∀ f, e.left f → left f)
    (hright : ∀ f, e.right f → right f) : Alongside ⟨e.state, left, right⟩ P x y Q F where
  left := h.left
  right := h.right
  alike s t hst := (h.alike s t hst).imp (fun h ↦ h.mono hleft) fun h ↦
    h.imp_left fun h ↦ h.mono hright

/-- What is known of the end of each action is known of their ends together, and of every excuse. -/
theorem Alongside.and {x y : Action σ α} {V V' : α → Prop} {E E' : Failure → Prop}
    (h : Alongside e P x y Q F) (hx : ∀ s t, P s t → Outcome (fun a _ ↦ V a) (fun f _ ↦ E f) (x.run s))
    (hy : ∀ s t, P s t → Outcome (fun b _ ↦ V' b) (fun g _ ↦ E' g) (y.run t)) :
    Alongside ⟨e.state, fun f ↦ e.left f ∧ E f, fun g ↦ e.right g ∧ E' g⟩ P x y
      (fun a b s t ↦ Q a b s t ∧ V a ∧ V' b) (fun f g s t ↦ F f g s t ∧ E f ∧ E' g) where
  left := h.left
  right := h.right
  alike s t hst := by
    have hboth := h.alike s t hst
    have hleft := hx s t hst
    have hright := hy s t hst
    have hexcused {V E failure : _ → Prop} {outcome : Except Failure α × σ}
        (hend : Outcome (fun a _ ↦ V a) (fun f _ ↦ E f) outcome) (h : Excused e.state failure outcome) :
        Excused e.state (fun f ↦ failure f ∧ E f) outcome := by
      rcases outcome with ⟨f | a, s'⟩
      · refine h.imp_right ?_
        rintro ⟨g, hg, hfailure⟩
        cases hg
        exact ⟨f, rfl, hfailure, hend⟩
      · refine h.imp_right ?_
        rintro ⟨g, hg, -⟩
        cases hg
    rcases hboth with h | h | h
    · exact .inl (hexcused hleft h)
    · exact .inr (.inl (hexcused hright h))
    · refine .inr (.inr ?_)
      rcases hrun : x.run s with ⟨f | a, s'⟩ <;> rcases hrun' : y.run t with ⟨g | b, t'⟩ <;>
        rw [hrun, hrun'] at h <;> rw [hrun] at hleft <;> rw [hrun'] at hright
      · exact ⟨h, hleft, hright⟩
      · cases h
      · cases h
      · exact ⟨h, hleft, hright⟩

/-- Where only failures are an excuse, nothing has to be shown of the states. -/
theorem alongside_of_runs {left right : Failure → Prop} {x y : Action σ α}
    (h : ∀ s t, P s t → (∃ f, (x.run s).1 = .error f ∧ left f) ∨
      (∃ g, (y.run t).1 = .error g ∧ right g) ∨ Together Q F (x.run s) (y.run t)) :
    Alongside (.failures left right) P x y Q F where
  left := fun _ h ↦ h.elim
  right := fun _ h ↦ h.elim
  alike s t hst := (h s t hst).imp .inr fun h ↦ h.imp_left .inr

/-- Actions that do the same from the states in question. -/
theorem Alongside.of_eq {left right : Failure → Prop} {x y x' y' : Action σ α}
    (h : Alongside (.failures left right) P x y Q F)
    (hrun : ∀ s t, P s t → x'.run s = x.run s ∧ y'.run t = y.run t) :
    Alongside (.failures left right) P x' y' Q F where
  left := fun _ h ↦ h.elim
  right := fun _ h ↦ h.elim
  alike s t hst := by
    rw [(hrun s t hst).1, (hrun s t hst).2]
    exact h.alike s t hst

/-- A condition that does not depend on the states may be assumed, if only failures are an excuse. -/
theorem alongside_assume {left right : Failure → Prop} {x y : Action σ α} {p : Prop}
    (h : p → Alongside (.failures left right) P x y Q F) :
    Alongside (.failures left right) (fun s t ↦ p ∧ P s t) x y Q F where
  left := fun _ h ↦ h.elim
  right := fun _ h ↦ h.elim
  alike s t hst := (h hst.1).alike s t hst.2

theorem alongside_pure {a b : α} (h : ∀ s t, P s t → Q a b s t) :
    Alongside e P (pure a) (pure b) Q F where
  left := keeps_pure a
  right := keeps_pure b
  alike s t hst := .inr (.inr (h s t hst))

theorem alongside_throw {f g : Failure} (h : ∀ s t, P s t → F f g s t) :
    Alongside e P (throw f : Action σ α) (throw g) Q F where
  left := keeps_throw trivial
  right := keeps_throw trivial
  alike s t hst := .inr (.inr (h s t hst))

/-- Two actions one after the other. The two values between them need not be equal, but each of them
goes with one `i`. -/
theorem Alongside.bind_of {ι : Type} {u v : ι → α} {Q : ι → σ → σ → Prop} {x y : Action σ α}
    {next next' : α → Action σ β}
    (hxy : Alongside e P x y (fun a b s t ↦ ∃ i, a = u i ∧ b = v i ∧ Q i s t) F)
    (hleft : ∀ a, Keeps e.state (fun _ ↦ True) (next a))
    (hright : ∀ a, Keeps e.state (fun _ ↦ True) (next' a))
    (hnext : ∀ i, Alongside e (Q i) (next (u i)) (next' (v i)) R F) :
    Alongside e P (x >>= next) (y >>= next') R F where
  left := hxy.left.bind hleft
  right := hxy.right.bind hright
  alike s t hst := by
    rcases hxy.alike s t hst with hexcused | hexcused | htogether
    · exact .inl (hexcused.bind hleft)
    · exact .inr (.inl (hexcused.bind hright))
    · rw [run_bind, run_bind]
      rcases hrun : x.run s with ⟨f | a, s'⟩ <;> rcases hrun' : y.run t with ⟨g | b, t'⟩ <;>
        rw [hrun, hrun'] at htogether
      · exact .inr (.inr htogether)
      · cases htogether
      · cases htogether
      · obtain ⟨i, rfl, rfl, hQ⟩ := htogether
        exact (hnext i).alike s' t' hQ

/-- Two actions one after the other, with equal values between them. -/
theorem Alongside.bind {Q : α → σ → σ → Prop} {x y : Action σ α} {next next' : α → Action σ β}
    (hxy : Alongside e P x y (fun a b s t ↦ a = b ∧ Q a s t) F)
    (hnext : ∀ a, Alongside e (Q a) (next a) (next' a) R F) :
    Alongside e P (x >>= next) (y >>= next') R F := by
  refine Alongside.bind_of (u := fun a ↦ a) (v := fun a ↦ a) (hxy.weaken (fun _ _ h ↦ h) ?_
    fun _ _ _ _ h ↦ h) (fun a ↦ (hnext a).left) (fun a ↦ (hnext a).right) hnext
  rintro a _ s t ⟨rfl, hQ⟩
  exact ⟨a, rfl, rfl, hQ⟩

/-- The same where the first of the two returns nothing. -/
theorem Alongside.seq {x y : Action σ PUnit} {next next' : Action σ β}
    (hxy : Alongside e P x y (fun _ _ ↦ P') F) (hnext : Alongside e P' next next' R F) :
    Alongside e P (do x; next) (do y; next') R F :=
  Alongside.bind (Q := fun _ ↦ P')
    (hxy.weaken (fun _ _ h ↦ h) (fun _ _ _ _ h ↦ ⟨rfl, h⟩) fun _ _ _ _ h ↦ h) fun _ ↦ hnext

/-- Handlers of two failures that are related. A failure that is an excuse remains one. -/
theorem Alongside.tryCatch {left right : Failure → Prop} {x y : Action σ α}
    {handler handler' : Failure → Action σ α} (hxy : Alongside ⟨e.state, left, right⟩ P x y Q F)
    (hleft : ∀ f s, left f → Excused e.state e.left ((handler f).run s))
    (hright : ∀ f s, right f → Excused e.state e.right ((handler' f).run s))
    (hhandler : ∀ f g, Alongside e (F f g) (handler f) (handler' g) Q F') :
    Alongside e P (tryCatch x handler) (tryCatch y handler') Q F' where
  left := hxy.left.tryCatch fun f _ ↦ (hhandler f f).left
  right := hxy.right.tryCatch fun f _ ↦ (hhandler f f).right
  alike s t hst := by
    have hcaught {failure failure' : Failure → Prop} {z : Action σ α} {c : Failure → Action σ α}
        {w : σ} (hc : ∀ f, Keeps e.state (fun _ ↦ True) (c f))
        (hkept : ∀ f s, failure f → Excused e.state failure' ((c f).run s))
        (h : Excused e.state failure (z.run w)) :
        Excused e.state failure' ((MonadExcept.tryCatch z c).run w) := by
      have hcatch := run_tryCatch z c w
      rw [hcatch]
      rcases hrun : z.run w with ⟨f | a, w'⟩ <;> rw [hrun] at h
      · rcases h with hstate | ⟨g, hg, hfailure⟩
        · exact .inl ((hc f).state hstate)
        · cases hg
          exact hkept f w' hfailure
      · rcases h with hstate | ⟨g, hg, -⟩
        · exact .inl hstate
        · cases hg
    rcases hxy.alike s t hst with hexcused | hexcused | htogether
    · exact .inl (hcaught (fun f ↦ (hhandler f f).left) hleft hexcused)
    · exact .inr (.inl (hcaught (fun f ↦ (hhandler f f).right) hright hexcused))
    · rw [run_tryCatch, run_tryCatch]
      rcases hrun : x.run s with ⟨f | a, s'⟩ <;> rcases hrun' : y.run t with ⟨g | b, t'⟩ <;>
        rw [hrun, hrun'] at htogether
      · exact (hhandler f g).alike s' t' htogether
      · cases htogether
      · cases htogether
      · exact .inr (.inr htogether)

/-- Two loops over lists of one length, whose turns go side by side. -/
theorem alongside_forM {elements others : List γ} {body body' : γ → Action σ PUnit}
    (h : List.Forall₂ (fun c c' ↦ Alongside e P (body c) (body' c') (fun _ _ ↦ P) F) elements
      others) :
    Alongside e P (elements.forM body) (others.forM body') (fun _ _ ↦ P) F := by
  induction h with
  | nil => exact alongside_pure fun _ _ h ↦ h
  | @cons c c' rest rest' hturn _ ih =>
    change Alongside _ _ (body c >>= fun _ ↦ rest.forM body) (body' c' >>= fun _ ↦ rest'.forM body') _ _
    exact hturn.seq ih

/-- A loop whose turns all go on is a loop that collects nothing. -/
theorem forIn_eq_forM (elements : List γ) (body : γ → Action σ PUnit) :
    (forIn elements PUnit.unit fun c _ ↦ do body c; pure (ForInStep.yield PUnit.unit)) =
      elements.forM body := by
  induction elements with
  | nil => rfl
  | cons c rest ih =>
    rw [List.forIn_cons, bind_assoc]
    simp only [pure_bind, ih]
    rfl

end Rules

/-! ## Answers -/

/-- Two answers to questions that are alike, unless one of them is a failure that is an excuse. -/
inductive AnswersAlike (e : Excuse σ) (value : α → α → Prop) :
    Except Failure α → Except Failure α → Prop
  | left {f answer} (h : e.left f) : AnswersAlike e value (.error f) answer
  | right {g answer} (h : e.right g) : AnswersAlike e value answer (.error g)
  | ok {a b} (h : value a b) : AnswersAlike e value (.ok a) (.ok b)
  | error {f g} (h : f.Akin g) : AnswersAlike e value (.error f) (.error g)

namespace AnswersAlike

variable {e : Excuse σ} {V : α → α → Prop} {W : β → β → Prop} {answer answer' : Except Failure α}

theorem map {g g' : α → β} (h : AnswersAlike e V answer answer') (hV : ∀ a b, V a b → W (g a) (g' b)) :
    AnswersAlike e W (answer.map g) (answer'.map g') := by
  cases h with
  | left h => exact .left h
  | right h => exact .right h
  | ok h => exact .ok (hV _ _ h)
  | error h => exact .error h

theorem bind {g g' : α → Except Failure β} (h : AnswersAlike e V answer answer')
    (hV : ∀ a b, V a b → AnswersAlike e W (g a) (g' b)) :
    AnswersAlike e W (answer >>= g) (answer' >>= g') := by
  cases h with
  | left h => exact .left h
  | right h => exact .right h
  | ok h => exact hV _ _ h
  | error h => exact .error h

end AnswersAlike

end Action

end DeferredOps
