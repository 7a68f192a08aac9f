import DeferredOps.Failure

/-!
# Actions that can fail

An action changes a state and ends with a value or a failure; what it did before a failure stays
done. Statements about an action say how it ends from every state with a given property, once for
the values and once for the failures. The rules follow the ways in which actions are put together.
-/

namespace DeferredOps

variable {σ α β : Type}

/-- An action on a state. A failure leaves the state as it then is. -/
abbrev Action (σ α : Type) := ExceptT Failure (StateM σ) α

namespace Action

/-! ## Runs of composed actions -/

@[simp]
theorem run_pure (a : α) (s : σ) : (pure a : Action σ α).run s = (.ok a, s) := rfl

@[simp]
theorem run_throw (f : Failure) (s : σ) : (throw f : Action σ α).run s = (.error f, s) := rfl

@[simp]
theorem run_get (s : σ) : (get : Action σ σ).run s = (.ok s, s) := rfl

@[simp]
theorem run_set (s s' : σ) : (set s' : Action σ PUnit).run s = (.ok ⟨⟩, s') := rfl

@[simp]
theorem run_modify (f : σ → σ) (s : σ) :
    (modify f : Action σ PUnit).run s = (.ok ⟨⟩, f s) := rfl

theorem run_bind (x : Action σ α) (next : α → Action σ β) (s : σ) :
    (x >>= next).run s =
      match x.run s with
      | (.ok a, s') => (next a).run s'
      | (.error f, s') => (.error f, s') := by
  rw [ExceptT.run_bind]
  change StateT.bind x.run _ s = _
  unfold StateT.bind
  change (match x.run s with | (r, s') => _) = _
  rcases x.run s with ⟨_ | _, s'⟩ <;> rfl

theorem run_tryCatch (x : Action σ α) (handler : Failure → Action σ α) (s : σ) :
    (tryCatch x handler).run s =
      match x.run s with
      | (.ok a, s') => (.ok a, s')
      | (.error f, s') => (handler f).run s' := by
  rw [ExceptT.run_tryCatch]
  change StateT.bind x.run _ s = _
  unfold StateT.bind
  change (match x.run s with | (r, s') => _) = _
  rcases x.run s with ⟨_ | _, s'⟩ <;> rfl

/-- What would follow a failure is not run. -/
theorem throw_bind (f : Failure) (next : α → Action σ β) : (throw f >>= next : Action σ β) = throw f := rfl

theorem run_of_ok {x : Action σ α} {s : σ} {a : α} (h : (x.run s).1 = .ok a) :
    x.run s = (.ok a, (x.run s).2) :=
  Prod.ext h rfl

/-! ## How actions end -/

/-- A value as `value` says, or a failure as `failure` says, with the state at the end. -/
def Outcome (value : α → σ → Prop) (failure : Failure → σ → Prop) :
    Except Failure α × σ → Prop
  | (.ok a, s) => value a s
  | (.error f, s) => failure f s

/-- From every state with the property `before`, the action ends as `value` and `failure` say. -/
def Ensures (before : σ → Prop) (x : Action σ α) (value : α → σ → Prop)
    (failure : Failure → σ → Prop) : Prop :=
  ∀ s, before s → Outcome value failure (x.run s)

/-- The action keeps an invariant, however it ends, and fails only as allowed. -/
def Keeps (inv : σ → Prop) (allowed : Failure → Prop) (x : Action σ α) : Prop :=
  Ensures inv x (fun _ ↦ inv) (fun f s ↦ inv s ∧ allowed f)

section Rules

variable {P P' : σ → Prop} {Q Q' : α → σ → Prop} {R : β → σ → Prop} {E E' : Failure → σ → Prop}

theorem Ensures.weaken {x : Action σ α} (h : Ensures P x Q E) (hP : ∀ s, P' s → P s)
    (hQ : ∀ a s, Q a s → Q' a s) (hE : ∀ f s, E f s → E' f s) : Ensures P' x Q' E' := by
  intro s hs
  have hx := h s (hP s hs)
  rcases hrun : x.run s with ⟨f | a, s'⟩ <;> rw [hrun] at hx
  · exact hE f s' hx
  · exact hQ a s' hx

/-- What is known of an action in two ways is known together. -/
theorem Ensures.and {x : Action σ α} (h : Ensures P x Q E) (h' : Ensures P x Q' E') :
    Ensures P x (fun a s ↦ Q a s ∧ Q' a s) (fun f s ↦ E f s ∧ E' f s) := by
  intro s hs
  have hx := h s hs
  have hx' := h' s hs
  rcases hrun : x.run s with ⟨f | a, s'⟩ <;> rw [hrun] at hx hx'
  · exact ⟨hx, hx'⟩
  · exact ⟨hx, hx'⟩

/-- How an action ends from one state. -/
theorem Ensures.outcome {x : Action σ α} {s : σ} (h : Ensures (· = s) x Q E)
    (hQ : ∀ a s', Q a s' → Q' a s') (hE : ∀ f s', E f s' → E' f s') : Outcome Q' E' (x.run s) :=
  h.weaken (fun _ hs ↦ hs) hQ hE s rfl

/-- What holds at the end in either case. -/
theorem ensures_any (x : Action σ α) : Ensures P x (fun _ _ ↦ True) (fun _ _ ↦ True) := by
  intro s _
  rcases x.run s with ⟨f | a, s'⟩ <;> trivial

theorem Ensures.state {x : Action σ α} (h : Ensures P x (fun _ ↦ P') (fun _ ↦ P')) {s : σ}
    (hs : P s) : P' (x.run s).2 := by
  have hx := h s hs
  rcases hrun : x.run s with ⟨f | a, s'⟩ <;> rw [hrun] at hx
  · exact hx
  · exact hx

/-- A condition that does not depend on the state may be assumed. -/
theorem ensures_assume {x : Action σ α} {p : Prop} (h : p → Ensures P x Q E) :
    Ensures (fun s ↦ p ∧ P s) x Q E :=
  fun s hs ↦ h hs.1 s hs.2

/-- The same for a condition that comes second. -/
theorem ensures_assume_right {x : Action σ α} {p : Prop} (h : p → Ensures P x Q E) :
    Ensures (fun s ↦ P s ∧ p) x Q E :=
  fun s hs ↦ h hs.2 s hs.1

theorem ensures_pure {a : α} (h : ∀ s, P s → Q a s) : Ensures P (pure a) Q E :=
  fun s hs ↦ h s hs

theorem ensures_throw {f : Failure} (h : ∀ s, P s → E f s) :
    Ensures P (throw f : Action σ α) Q E :=
  fun s hs ↦ h s hs

theorem ensures_modify {change : σ → σ} {Q : PUnit → σ → Prop} (h : ∀ s, P s → Q ⟨⟩ (change s)) :
    Ensures P (modify change) Q E :=
  fun s hs ↦ h s hs

theorem ensures_set {s' : σ} {Q : PUnit → σ → Prop} (h : ∀ s, P s → Q ⟨⟩ s') :
    Ensures P (set s') Q E :=
  fun s hs ↦ h s hs

theorem Ensures.bind {x : Action σ α} {next : α → Action σ β} (hx : Ensures P x Q E)
    (hnext : ∀ a, Ensures (Q a) (next a) R E) : Ensures P (x >>= next) R E := by
  intro s hs
  have h := hx s hs
  rw [run_bind]
  rcases hrun : x.run s with ⟨f | a, s'⟩ <;> rw [hrun] at h
  · exact h
  · exact hnext a s' h

/-- Reading the state: what follows runs from the state that was read. -/
theorem ensures_get_bind {next : σ → Action σ β} (h : ∀ s, P s → Ensures (· = s) (next s) R E) :
    Ensures P (get >>= next) R E := by
  intro s hs
  rw [run_bind, run_get]
  exact h s hs s rfl

theorem Ensures.tryCatch {x : Action σ α} {handler : Failure → Action σ α} (hx : Ensures P x Q E)
    (hhandler : ∀ f, Ensures (E f) (handler f) Q E') : Ensures P (tryCatch x handler) Q E' := by
  intro s hs
  have h := hx s hs
  rw [run_tryCatch]
  rcases hrun : x.run s with ⟨f | a, s'⟩ <;> rw [hrun] at h
  · exact hhandler f s' h
  · exact h

/-- A loop over a list: `I` holds before each of its turns, of the elements still to come. -/
theorem ensures_forIn {γ : Type} {turn : γ → PUnit → Action σ (ForInStep PUnit)}
    {I : List γ → σ → Prop}
    (hturn : ∀ c rest,
      Ensures (I (c :: rest)) (turn c ⟨⟩) (fun step s ↦ step = .yield ⟨⟩ ∧ I rest s) E)
    (elements : List γ) :
    Ensures (I elements) (forIn elements PUnit.unit turn) (fun _ ↦ I []) E := by
  induction elements with
  | nil =>
    rw [List.forIn_nil]
    exact ensures_pure fun _ hs ↦ hs
  | cons c rest ih =>
    rw [List.forIn_cons]
    refine (hturn c rest).bind ?_
    rintro step s ⟨rfl, hs⟩
    exact ih s hs

/-- The same for a loop that collects nothing. -/
theorem ensures_forM {γ : Type} {body : γ → Action σ PUnit} {I : List γ → σ → Prop}
    (hbody : ∀ c rest, Ensures (I (c :: rest)) (body c) (fun _ ↦ I rest) E) (elements : List γ) :
    Ensures (I elements) (elements.forM body) (fun _ ↦ I []) E := by
  induction elements with
  | nil => exact ensures_pure fun _ hs ↦ hs
  | cons c rest ih =>
    change Ensures _ (body c >>= fun _ ↦ rest.forM body) _ _
    exact (hbody c rest).bind fun _ ↦ ih

/-- A loop that collects values: `I` relates the elements still to come to the values so far, in
reverse order. -/
theorem ensures_mapM {γ : Type} {body : γ → Action σ α} {I : List γ → List α → σ → Prop}
    (hbody : ∀ c rest done,
      Ensures (I (c :: rest) done) (body c) (fun a ↦ I rest (done ++ [a])) E)
    (elements : List γ) (done : List α) :
    Ensures (I elements done) (elements.mapM body) (fun values ↦ I [] (done ++ values)) E := by
  induction elements generalizing done with
  | nil =>
    rw [List.mapM_nil]
    exact ensures_pure fun _ hs ↦ by simpa using hs
  | cons c rest ih =>
    rw [List.mapM_cons]
    refine (hbody c rest done).bind fun a ↦ (ih (done ++ [a])).bind fun values ↦ ?_
    exact ensures_pure fun _ hs ↦ by simpa using hs

end Rules

/-! ## Invariants -/

section Invariants

variable {inv : σ → Prop} {allowed : Failure → Prop}

theorem keeps_pure (a : α) : Keeps inv allowed (pure a : Action σ α) :=
  ensures_pure fun _ hs ↦ hs

theorem keeps_throw {f : Failure} (h : allowed f) : Keeps inv allowed (throw f : Action σ α) :=
  ensures_throw fun _ hs ↦ ⟨hs, h⟩

theorem keeps_modify {change : σ → σ} (h : ∀ s, inv s → inv (change s)) :
    Keeps inv allowed (modify change : Action σ PUnit) :=
  ensures_modify h

theorem Keeps.bind {x : Action σ α} {next : α → Action σ β} (hx : Keeps inv allowed x)
    (hnext : ∀ a, Keeps inv allowed (next a)) : Keeps inv allowed (x >>= next) :=
  Ensures.bind hx hnext

theorem keeps_get_bind {next : σ → Action σ β} (h : ∀ s, inv s → Keeps inv allowed (next s)) :
    Keeps inv allowed (get >>= next) :=
  ensures_get_bind fun s hs _ heq ↦ h s hs _ (heq ▸ hs)

theorem Keeps.tryCatch {x : Action σ α} {handler : Failure → Action σ α} {A : Failure → Prop}
    (hx : Keeps inv A x) (hhandler : ∀ f, A f → Keeps inv allowed (handler f)) :
    Keeps inv allowed (tryCatch x handler) :=
  Ensures.tryCatch hx fun f s hs ↦ hhandler f hs.2 s hs.1

theorem Keeps.weaken {x : Action σ α} {A : Failure → Prop} (h : Keeps inv A x)
    (hallowed : ∀ f, A f → allowed f) : Keeps inv allowed x :=
  Ensures.weaken h (fun _ hs ↦ hs) (fun _ _ hs ↦ hs) fun f _ hs ↦ ⟨hs.1, hallowed f hs.2⟩

theorem Keeps.yield {x : Action σ PUnit} (h : Keeps inv allowed x) :
    Ensures inv (do x; pure (ForInStep.yield PUnit.unit)) (fun step s ↦ step = .yield ⟨⟩ ∧ inv s)
      (fun f s ↦ inv s ∧ allowed f) :=
  Ensures.bind h fun _ ↦ ensures_pure fun _ hs ↦ ⟨rfl, hs⟩

/-- In a loop over some elements, those still to come are some of them. -/
theorem ensures_turn {γ : Type} {x : Action σ α} {Q : α → σ → Prop} {c : γ}
    {rest elements : List γ} (hsub : c :: rest ⊆ elements)
    (h : Ensures inv x Q (fun f s ↦ inv s ∧ allowed f)) :
    Ensures inv x (fun a s ↦ rest ⊆ elements ∧ Q a s) (fun f s ↦ inv s ∧ allowed f) := by
  have hrest : rest ⊆ elements := fun d hd ↦ hsub (List.mem_cons_of_mem _ hd)
  exact h.weaken (fun _ hs ↦ hs) (fun _ _ hs ↦ ⟨hrest, hs⟩) fun _ _ hs ↦ hs

theorem keeps_forIn {γ : Type} {turn : γ → PUnit → Action σ (ForInStep PUnit)}
    {elements : List γ}
    (hturn : ∀ c ∈ elements, Ensures inv (turn c ⟨⟩) (fun step s ↦ step = .yield ⟨⟩ ∧ inv s)
      (fun f s ↦ inv s ∧ allowed f)) :
    Keeps inv allowed (forIn elements PUnit.unit turn) := by
  refine (ensures_forIn (I := fun rest s ↦ rest ⊆ elements ∧ inv s) (fun c rest ↦ ?_) elements).weaken
    (fun _ hs ↦ ⟨List.Subset.refl _, hs⟩) (fun _ _ hs ↦ hs.2) fun _ _ hs ↦ hs
  refine ensures_assume fun hsub ↦ (ensures_turn hsub (hturn c (hsub List.mem_cons_self))).weaken
    (fun _ hs ↦ hs) (fun _ _ hs ↦ ⟨hs.2.1, hs.1, hs.2.2⟩) fun _ _ hs ↦ hs

theorem keeps_forM {γ : Type} {body : γ → Action σ PUnit} {elements : List γ}
    (hbody : ∀ c ∈ elements, Keeps inv allowed (body c)) :
    Keeps inv allowed (elements.forM body) :=
  (ensures_forM (I := fun rest s ↦ rest ⊆ elements ∧ inv s) (fun c _ ↦ ensures_assume fun hsub ↦
    ensures_turn hsub (hbody c (hsub List.mem_cons_self))) elements).weaken
    (fun _ hs ↦ ⟨List.Subset.refl _, hs⟩) (fun _ _ hs ↦ hs.2) fun _ _ hs ↦ hs

theorem keeps_mapM {γ : Type} {body : γ → Action σ α} {elements : List γ}
    (hbody : ∀ c ∈ elements, Keeps inv allowed (body c)) :
    Keeps inv allowed (elements.mapM body) :=
  (ensures_mapM (I := fun rest _ s ↦ rest ⊆ elements ∧ inv s) (fun c _ _ ↦ ensures_assume fun hsub ↦
    ensures_turn hsub (hbody c (hsub List.mem_cons_self))) elements []).weaken
    (fun _ hs ↦ ⟨List.Subset.refl _, hs⟩) (fun _ _ hs ↦ hs.2) fun _ _ hs ↦ hs

theorem Keeps.state {x : Action σ α} (h : Keeps inv allowed x) {s : σ} (hs : inv s) :
    inv (x.run s).2 :=
  Ensures.state (Ensures.weaken h (fun _ hs ↦ hs) (fun _ _ hs ↦ hs) fun _ _ hs ↦ hs.1) hs

/-- An action that may fail in any way keeps what it leaves behind. -/
theorem keeps_of_state {x : Action σ α} (h : ∀ s, inv s → inv (x.run s).2) :
    Keeps inv (fun _ ↦ True) x := by
  intro s hs
  have hend := h s hs
  rcases hrun : x.run s with ⟨f | a, s'⟩ <;> rw [hrun] at hend
  · exact ⟨hend, trivial⟩
  · exact hend

theorem Keeps.failure {x : Action σ α} (h : Keeps inv allowed x) {s : σ} (hs : inv s) {f : Failure}
    (hf : (x.run s).1 = .error f) : allowed f := by
  have hx := h s hs
  rcases hrun : x.run s with ⟨g | a, s'⟩ <;> rw [hrun] at hx hf
  · cases hf
    exact hx.2
  · cases hf

end Invariants

end Action

end DeferredOps
