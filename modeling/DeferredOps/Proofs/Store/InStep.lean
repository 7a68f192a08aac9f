import DeferredOps.Proofs.Store.SideBySide

/-!
# Actions that go in step

An action about paths below one directory and the same action about the paths with the same names below
another go in step: from stores that are alike below the two directories they end alike and leave
stores that are alike, unless a path is too long.
-/

namespace DeferredOps

open Action

/-- The same error of the file system about two paths, or the same failure. -/
def Failure.SameCause (f g : Failure) : Prop :=
  f = g ∨ ∃ e p p', f = .ofPath e p ∧ g = .ofPath e p'

theorem Failure.SameCause.akin {f g : Failure} (h : f.SameCause g) : f.Akin g := by
  rcases h with h | ⟨e, p, p', rfl, rfl⟩
  · exact .inl h
  · exact .inr ⟨rfl, rfl⟩

theorem Failure.SameCause.isSystem {f g : Failure} (h : f.SameCause g) : f.isSystem = g.isSystem := by
  rcases h with rfl | ⟨e, p, p', rfl, rfl⟩ <;> rfl

/-- The failure that a name on the way is not there. -/
def Failure.IsMissing (f : Failure) : Prop :=
  ∃ p q, f = .system .noEntry p q

theorem Failure.SameCause.isMissing_iff {f g : Failure} (h : f.SameCause g) :
    f.IsMissing ↔ g.IsMissing := by
  rcases h with rfl | ⟨e, p, p', rfl, rfl⟩
  · exact Iff.rfl
  · cases e <;> simp [IsMissing, ofPath]

/-- The paths with the same names below two directories may be asked about. -/
def Path.BothReached (w w' : Path) (names : List String) : Prop :=
  (w.extend names).Reached ∧ (w'.extend names).Reached

/-- The paths on the way to one that is not too long are not too long. -/
theorem Path.short_of_append {p : Path} {front more : List String}
    (h : (p.extend (front ++ more)).text.utf8ByteSize < Store.pathLimit) :
    (p.extend front).text.utf8ByteSize < Store.pathLimit := by
  have hmono := p.size_text_extend_le front more
  have hlimit : 2 < Store.pathLimit := by decide
  omega

/-- Where neither path is too long, nothing is asked of an excuse. -/
theorem Action.Excuse.allows_of_short {σ : Type} {e : Excuse σ} {p p' : Path}
    (h : p.text.utf8ByteSize < Store.pathLimit) (h' : p'.text.utf8ByteSize < Store.pathLimit) :
    e.Allows p p' :=
  ⟨fun _ hlong ↦ absurd hlong.2.1 (Nat.not_le_of_lt h),
    fun _ hlong ↦ absurd hlong.2.1 (Nat.not_le_of_lt h')⟩

namespace StoreAction

open Store

variable {α β : Type} {w w' : Path} {names other : List String} {left right : Failure → Prop}
  {same : Failure → Failure → Prop} {op op' : Store → Except SystemError Store} {p : Path}

/-- Two actions go in step: they return the same or fail in the same way, as `same` says, unless one of
the failures is an excuse. -/
abbrev InStep (w w' : Path) (left right : Failure → Prop) (same : Failure → Failure → Prop)
    (x y : StoreAction α) : Prop :=
  Alongside (.failures left right) (Alike w w') x y (fun a b s t ↦ a = b ∧ Alike w w' s t)
    (fun f g s t ↦ same f g ∧ Alike w w' s t)

theorem inStep_throw {f g : Failure} (h : same f g) :
    InStep w w' left right same (throw f : StoreAction α) (throw g) :=
  alongside_throw fun _ _ hst ↦ ⟨h, hst⟩

theorem inStep_pure (a : α) : InStep w w' left right same (pure a) (pure a) :=
  alongside_pure fun _ _ hst ↦ ⟨rfl, hst⟩

theorem inStep_ask {V : α → α → Prop} {question question' : Store → Except Failure α}
    (h : ∀ s t, Alike w w' s t → AnswersAlike (.failures left right : Excuse Store) V (question s)
      (question' t)) :
    Alongside (.failures left right) (Alike w w') (ask question) (ask question')
      (fun a b s t ↦ V a b ∧ Alike w w' s t) (fun f g s t ↦ f.Akin g ∧ Alike w w' s t) := by
  refine alongside_of_runs fun s t hst ↦ ?_
  rw [run_ask, run_ask]
  have hanswers := h s t hst
  generalize question s = answer at hanswers ⊢
  generalize question' t = answer' at hanswers ⊢
  cases hanswers with
  | left h => exact .inl ⟨_, rfl, h⟩
  | right h => exact .inr (.inl ⟨_, rfl, h⟩)
  | ok h => exact .inr (.inr ⟨h, hst⟩)
  | error h => exact .inr (.inr ⟨h, hst⟩)

/-- The removal of a directory with everything in it, by what its path leads to. -/
theorem run_removeTree (s : Store) (hclean : p.hasNul = false) :
    (removeTree p).run s =
      match s.target .kept p with
      | .error e => (.error (.ofPath e p), s)
      | .ok (.absent _ _) => (.error (.ofPath .noEntry p), s)
      | .ok (.found _ (.link _)) => (.error .linkAsTree, s)
      | .ok (.found _ (.file _ _)) => (.error (.ofPath .notDirectory p), s)
      | .ok (.found location .dir) => (removeDirectory p).run (s.clear location) := by
  unfold removeTree
  rw [if_neg (by simp [hclean]), run_bind, run_get]
  dsimp only
  rcases s.target .kept p with e | ⟨_, _ | _ | _⟩ | _ <;> rfl

/-! ## Single changes -/

section Changes

variable (he : (Excuse.failures left right : Excuse Store).Allows (w.extend names) (w'.extend names))
include he

theorem inStep_change
    (hlong : ∀ s, pathLimit ≤ (w.extend names).text.utf8ByteSize → op s = .error .nameTooLong)
    (hlong' : ∀ t, pathLimit ≤ (w'.extend names).text.utf8ByteSize → op' t = .error .nameTooLong)
    (h : ∀ s t, Alike w w' s t → (w.extend names).hasNul = false →
      (w.extend names).text.utf8ByteSize < pathLimit → (w'.extend names).text.utf8ByteSize < pathLimit →
        ChangesAlike w w' (op s) (op' t)) :
    InStep w w' left right Failure.SameCause (change (w.extend names) (.ofPath · (w.extend names)) op)
      (change (w'.extend names) (.ofPath · (w'.extend names)) op') := by
  refine alongside_of_runs fun s t hst ↦ ?_
  rw [run_change, run_change]
  cases hst.limits names with
  | nul hnul hnul' =>
    rw [if_pos hnul, if_pos hnul']
    exact .inr (.inr ⟨.inl rfl, hst⟩)
  | left hclean hlarge =>
    rw [hclean, hlong s hlarge]
    exact .inl ⟨_, rfl, he.left _ ⟨hclean, hlarge, rfl⟩⟩
  | right hclean hlarge =>
    rw [hclean, hlong' t hlarge]
    exact .inr (.inl ⟨_, rfl, he.right _ ⟨hclean, hlarge, rfl⟩⟩)
  | short hclean hclean' hshort hshort' =>
    have hchange := h s t hst hclean hshort hshort'
    rw [hclean, hclean']
    generalize op s = outcome at hchange ⊢
    generalize op' t = outcome' at hchange ⊢
    cases hchange with
    | ok h => exact .inr (.inr ⟨rfl, h⟩)
    | error e => exact .inr (.inr ⟨.inr ⟨e, _, _, rfl, rfl⟩, hst⟩)

theorem inStep_unlink (hnames : PlainNames names) :
    InStep w w' left right Failure.SameCause (unlink (w.extend names)) (unlink (w'.extend names)) :=
  inStep_change he (fun _ ↦ unlink_of_long) (fun _ ↦ unlink_of_long) fun _ _ h _ hshort hshort' ↦
    h.unlink hnames hshort hshort'

theorem inStep_removeDirectory (hnames : PlainNames names) :
    InStep w w' left right Failure.SameCause (removeDirectory (w.extend names))
      (removeDirectory (w'.extend names)) :=
  inStep_change he (fun _ ↦ removeDirectory_of_long) (fun _ ↦ removeDirectory_of_long)
    fun _ _ h _ hshort hshort' ↦ h.removeDirectory hnames hshort hshort'

theorem inStep_makeDirectory (hnames : PlainNames names) :
    InStep w w' left right Failure.SameCause (makeDirectory (w.extend names))
      (makeDirectory (w'.extend names)) :=
  inStep_change he (fun _ ↦ makeDirectory_of_long) (fun _ ↦ makeDirectory_of_long)
    fun _ _ h hclean hshort hshort' ↦ h.makeDirectory hnames hclean hshort hshort'

end Changes

theorem allows_tooLong (p p' : Path) :
    (Excuse.failures p.TooLong p'.TooLong : Excuse Store).Allows p p' :=
  ⟨fun _ h ↦ h, fun _ h ↦ h⟩

section Changes

variable (he : (Excuse.failures left right : Excuse Store).Allows (w.extend names) (w'.extend names))
include he

/-- A failure of one change is handled. The handlers let the failure of a path that is too long go on. -/
theorem inStep_tryCatch {x y : StoreAction Unit} {handler handler' : Failure → StoreAction Unit}
    {same' : Failure → Failure → Prop}
    (hxy : InStep w w' (w.extend names).TooLong (w'.extend names).TooLong same x y)
    (hleft : ∀ f s, (w.extend names).TooLong f → (handler f).run s = (.error f, s))
    (hright : ∀ f t, (w'.extend names).TooLong f → (handler' f).run t = (.error f, t))
    (hhandler : ∀ f g, same f g → InStep w w' left right same' (handler f) (handler' g)) :
    InStep w w' left right same' (tryCatch x handler) (tryCatch y handler') := by
  refine Alongside.tryCatch (e := .failures left right) hxy (fun f s hf ↦ ?_) (fun g t hg ↦ ?_)
    fun f g ↦ alongside_assume (hhandler f g)
  · rw [hleft f s hf]
    exact .inr ⟨f, rfl, he.left f hf⟩
  · rw [hright g t hg]
    exact .inr ⟨g, rfl, he.right g hg⟩

theorem inStep_unlinkIfThere (hnames : PlainNames names) :
    InStep w w' left right Failure.SameCause (unlinkIfThere (w.extend names))
      (unlinkIfThere (w'.extend names)) := by
  refine inStep_tryCatch he (inStep_unlink (allows_tooLong _ _) hnames)
    (fun f s ⟨_, _, hf⟩ ↦ hf ▸ rfl) (fun f t ⟨_, _, hf⟩ ↦ hf ▸ rfl)
    fun f g hsame ↦ ?_
  rcases hsame with rfl | ⟨e, p, p', rfl, rfl⟩
  · split
    · exact inStep_pure ()
    · exact inStep_throw (.inl rfl)
  · cases e with
    | noEntry => exact inStep_pure ()
    | _ => exact inStep_throw (.inr ⟨_, p, p', rfl, rfl⟩)

theorem inStep_removeTree (hnames : PlainNames names) :
    InStep w w' left right Failure.SameCause (removeTree (w.extend names))
      (removeTree (w'.extend names)) := by
  refine alongside_of_runs fun s t hst ↦ ?_
  cases hst.limits names with
  | nul hnul hnul' =>
    unfold removeTree
    rw [if_pos hnul, if_pos hnul']
    exact .inr (.inr ⟨.inl rfl, hst⟩)
  | left hclean hlong =>
    rw [run_removeTree s hclean, target_of_long hlong]
    exact .inl ⟨_, rfl, he.left _ ⟨hclean, hlong, rfl⟩⟩
  | right hclean hlong =>
    rw [run_removeTree t hclean, target_of_long hlong]
    exact .inr (.inl ⟨_, rfl, he.right _ ⟨hclean, hlong, rfl⟩⟩)
  | short hclean hclean' hshort hshort' =>
    have htarget : TargetsAlike s t _ _ (s.target .kept (w.extend names)) (t.target .kept (w'.extend names)) :=
      hst.target hnames hshort hshort'
    rw [run_removeTree s hclean, run_removeTree t hclean']
    generalize s.target .kept (w.extend names) = answer at htarget ⊢
    generalize t.target .kept (w'.extend names) = answer' at htarget ⊢
    cases htarget with
    | error e => exact .inr (.inr ⟨.inr ⟨e, _, _, rfl, rfl⟩, hst⟩)
    | absent => exact .inr (.inr ⟨.inr ⟨_, _, _, rfl, rfl⟩, hst⟩)
    | @found entry entry' hentry hentry' hform =>
      cases entry with
      | link text => exact absurd hentry (hst.left.noLinks _ text (List.prefix_append _ _))
      | file =>
        cases entry' with
        | file => exact .inr (.inr ⟨.inr ⟨_, _, _, rfl, rfl⟩, hst⟩)
        | dir | link => cases hform
      | dir =>
        cases entry' with
        | file | link => cases hform
        | dir =>
          rcases (inStep_removeDirectory he hnames).alike _ _ (hst.clear names) with h | h | h
          · exact .inl (h.resolve_left id)
          · exact .inr (.inl (h.resolve_left id))
          · exact .inr (.inr h)

end Changes

/-! ## Missing directories -/

/-- A change is made, or fails for another reason, only if the path is not too long. -/
theorem ensures_short_change (hlong : ∀ s, pathLimit ≤ p.text.utf8ByteSize → op s = .error .nameTooLong) :
    Ensures (fun _ ↦ True) (change p (.ofPath · p) op) (fun _ _ ↦ p.text.utf8ByteSize < pathLimit)
      (fun f _ ↦ f.IsMissing → p.text.utf8ByteSize < pathLimit) := by
  intro s _
  rw [run_change]
  split
  · rintro ⟨_, _, hf⟩
    cases hf
  by_cases hshort : p.text.utf8ByteSize < pathLimit
  · split <;> simp [Outcome, hshort]
  · rw [hlong s (Nat.le_of_not_lt hshort)]
    rintro ⟨_, _, hf⟩
    cases hf

/-- Of a working directory only the last name can be missing. -/
theorem makeDirectory_ne_noEntry {s : Store} (hw : w.Home) (hs : s.Orderly w.parts) :
    s.makeDirectory w ≠ .error .noEntry := by
  by_cases hshort : w.text.utf8ByteSize < pathLimit
  · obtain ⟨front, name, hparts⟩ := List.eq_nil_or_concat w.parts |>.resolve_left hw.named
    rw [List.concat_eq_append] at hparts
    have hdir := hs.above
    rw [hparts, List.dropLast_concat] at hdir
    have hslot := slot_of_dir hs.wellFormed hw.isAbsolute hshort hparts (hw.isName name (by simp [hparts]))
      hdir
    simp only [Store.makeDirectory, create, hslot, bind, Except.bind]
    split <;> simp [pure, Except.pure]
  · rw [makeDirectory_of_long (Nat.le_of_not_lt hshort)]
    simp

theorem ensures_not_isMissing {s : Store} (hw : w.Home) (hs : s.Orderly w.parts) :
    Outcome (fun _ _ ↦ True) (fun f _ ↦ ¬ f.IsMissing) ((makeDirectory w).run s) := by
  have hne := makeDirectory_ne_noEntry hw hs
  rw [run_makeDirectory]
  split
  · rintro ⟨p, q, hf⟩
    cases hf
  · cases hmake : s.makeDirectory w with
    | ok => trivial
    | error e =>
      rintro ⟨p, q, hf⟩
      cases hf
      exact hne hmake

theorem run_keepDirectory_of_tooLong {f : Failure} (h : p.TooLong f) (s : Store) :
    (makeDirectoryAndParents.keepDirectory p f).run s = (.error f, s) := by
  obtain ⟨hclean, hlong, rfl⟩ := h
  have hanswer : s.isDirectory p = .error (.ofPath .nameTooLong p) := by
    rw [Store.isDirectory, entryAt_of_long hclean hlong]
    rfl
  unfold makeDirectoryAndParents.keepDirectory
  rw [if_neg (by simp [Failure.ofPath, Failure.isSystem]), run_bind, run_ask, hanswer]

section Making

variable (he : (Excuse.failures left right : Excuse Store).Allows (w.extend names) (w'.extend names))
  (hnames : PlainNames names)
include he hnames

theorem inStep_isDirectory :
    InStep w w' left right Failure.Akin (ask (·.isDirectory (w.extend names)))
      (ask (·.isDirectory (w'.extend names))) :=
  (inStep_ask fun _ _ h ↦ h.kind Entry.isDir_form hnames he).weaken (fun _ _ h ↦ h)
    (fun _ _ _ _ h ↦ ⟨h.1.1, h.2⟩) fun _ _ _ _ h ↦ h

theorem inStep_keepDirectory {f g : Failure} (h : f.SameCause g) :
    InStep w w' left right Failure.Akin (makeDirectoryAndParents.keepDirectory (w.extend names) f)
      (makeDirectoryAndParents.keepDirectory (w'.extend names) g) := by
  unfold makeDirectoryAndParents.keepDirectory
  rw [h.isSystem]
  by_cases hsystem : g.isSystem
  · simp only [hsystem, Bool.not_true, Bool.false_eq_true, if_false]
    refine (inStep_isDirectory he hnames).bind fun isDirectory ↦ ?_
    cases isDirectory with
    | false => exact inStep_throw h.akin
    | true => exact inStep_pure ()
  · rw [if_pos (by simp [hsystem]), if_pos (by simp [hsystem])]
    exact inStep_throw h.akin

theorem inStep_makeUnlessThere :
    InStep w w' left right Failure.Akin (makeDirectoryAndParents.makeUnlessThere (w.extend names))
      (makeDirectoryAndParents.makeUnlessThere (w'.extend names)) := by
  refine inStep_tryCatch he (inStep_makeDirectory (allows_tooLong _ _) hnames) (fun f s hf ↦ ?_)
    (fun f t hf ↦ ?_) fun f g hsame ↦ ?_
  · obtain ⟨-, -, rfl⟩ := id hf
    exact run_keepDirectory_of_tooLong hf s
  · obtain ⟨-, -, rfl⟩ := id hf
    exact run_keepDirectory_of_tooLong hf t
  · have hthrow : InStep w w' left right Failure.Akin (throw f : StoreAction Unit) (throw g) :=
      inStep_throw hsame.akin
    have hkeep := inStep_keepDirectory he hnames hsame
    rcases hsame with rfl | ⟨e, p, p', rfl, rfl⟩
    · split
      · exact hthrow
      · exact hkeep
    · cases e with
      | noEntry => exact hthrow
      | _ => exact hkeep

end Making

/-- A failure to make a directory is handled in one of two ways: if a name on the way is missing, the
parents are made first, and otherwise a directory that is there is kept. -/
theorem exists_handler (p : Path) (parents : ℕ) :
    ∃ handler, makeDirectoryAndParents p parents = tryCatch (makeDirectory p) handler ∧
      (∀ f, ¬ f.IsMissing → handler f = makeDirectoryAndParents.keepDirectory p f) ∧
        ∀ f n, f.IsMissing → parents = n + 1 → p.parts ≠ [] →
          handler f = (makeDirectoryAndParents p.parent n >>= fun _ ↦
            makeDirectoryAndParents.makeUnlessThere p) := by
  cases parents with
  | zero =>
    refine ⟨_, rfl, fun f hf ↦ ?_, fun _ _ _ h ↦ by cases h⟩
    split
    · exact absurd ⟨_, _, rfl⟩ hf
    · rfl
  | succ parents =>
    refine ⟨_, rfl, fun f hf ↦ ?_, ?_⟩
    · split
      · exact absurd ⟨_, _, rfl⟩ hf
      · rfl
    · rintro _ n ⟨q, q', rfl⟩ hparents hne
      cases hparents
      dsimp only
      rw [if_neg (by simpa using hne)]

/-- Two handlers of a failure to make a directory, which keep a directory that is there. What else is
known of the failures may be used where a name on the way is missing. -/
theorem inStep_handlers {handler handler' : Failure → StoreAction Unit} {E E' : Failure → Prop}
    (he : (Excuse.failures left right : Excuse Store).Allows (w.extend names) (w'.extend names))
    (hnames : PlainNames names)
    (hkeep : ∀ f, ¬ f.IsMissing →
      handler f = makeDirectoryAndParents.keepDirectory (w.extend names) f)
    (hkeep' : ∀ g, ¬ g.IsMissing →
      handler' g = makeDirectoryAndParents.keepDirectory (w'.extend names) g)
    (hleft : ∀ s t, Alike w w' s t →
      Outcome (fun _ _ ↦ True) (fun f _ ↦ E f) ((makeDirectory (w.extend names)).run s))
    (hright : ∀ s t, Alike w w' s t →
      Outcome (fun _ _ ↦ True) (fun g _ ↦ E' g) ((makeDirectory (w'.extend names)).run t))
    (hmissing : ∀ f g, f.IsMissing → g.IsMissing → E f → E' g →
      InStep w w' left right Failure.Akin (handler f) (handler' g)) :
    InStep w w' left right Failure.Akin (tryCatch (makeDirectory (w.extend names)) handler)
      (tryCatch (makeDirectory (w'.extend names)) handler') := by
  -- A path that is too long is no reason to make parents.
  have hlong {q : Path} {f : Failure} (hf : q.TooLong f) : ¬ f.IsMissing := by
    obtain ⟨-, -, rfl⟩ := hf
    rintro ⟨_, _, hf⟩
    cases hf
  have hmake : InStep w w' (w.extend names).TooLong (w'.extend names).TooLong
      (fun f g ↦ f.SameCause g ∧ E f ∧ E' g) (makeDirectory (w.extend names))
      (makeDirectory (w'.extend names)) :=
    (((inStep_makeDirectory (allows_tooLong _ _) hnames).and hleft hright).excuse (fun _ h ↦ h.1)
      fun _ h ↦ h.1).weaken (fun _ _ h ↦ h) (fun _ _ _ _ h ↦ h.1) fun _ _ _ _ h ↦ ⟨⟨h.1.1, h.2⟩, h.1.2⟩
  refine inStep_tryCatch he hmake (fun f s hf ↦ ?_) (fun g t hg ↦ ?_) fun f g ⟨hsame, hE, hE'⟩ ↦ ?_
  · rw [hkeep f (hlong hf)]
    exact run_keepDirectory_of_tooLong hf s
  · rw [hkeep' g (hlong hg)]
    exact run_keepDirectory_of_tooLong hg t
  · by_cases hf : f.IsMissing
    · exact hmissing f g hf (hsame.isMissing_iff.mp hf) hE hE'
    · rw [hkeep f hf, hkeep' g (hsame.isMissing_iff.not.mp hf)]
      exact inStep_keepDirectory he hnames hsame

/-- The last name of a path can only be missing itself, so the two go on making parents together. -/
theorem inStep_makeDirectoryAndParents
    (he : (Excuse.failures left right : Excuse Store).Allows (w.extend names) (w'.extend names))
    (hnames : PlainNames names) {parents parents' : ℕ} (hparents : names.length ≤ parents)
    (hparents' : names.length ≤ parents') :
    InStep w w' left right Failure.Akin (makeDirectoryAndParents (w.extend names) parents)
      (makeDirectoryAndParents (w'.extend names) parents') := by
  induction names using List.reverseRecOn generalizing parents parents' with
  | nil =>
    obtain ⟨handler, heq, hkeep, -⟩ := exists_handler (w.extend []) parents
    obtain ⟨handler', heq', hkeep', -⟩ := exists_handler (w'.extend []) parents'
    rw [heq, heq']
    refine inStep_handlers he hnames hkeep hkeep' (fun s t hst ↦ ?_)
      (fun s t _ ↦ ensures_any (P := fun _ ↦ True) _ t trivial) fun f g hf _ hnot _ ↦ absurd hf hnot
    exact ensures_not_isMissing (by simpa using hst.home) (by simpa using hst.left)
  | append_singleton front name ih =>
    rw [List.length_append, List.length_singleton] at hparents hparents'
    obtain ⟨handler, heq, hkeep, hmissing⟩ := exists_handler (w.extend (front ++ [name])) parents
    obtain ⟨handler', heq', hkeep', hmissing'⟩ := exists_handler (w'.extend (front ++ [name])) parents'
    rw [heq, heq']
    have hmake (q : Path) (r : Store) : Outcome (fun _ _ ↦ True)
        (fun f _ ↦ f.IsMissing → q.text.utf8ByteSize < pathLimit) ((makeDirectory q).run r) :=
      (ensures_short_change fun _ ↦ makeDirectory_of_long).weaken (fun _ h ↦ h)
        (fun _ _ _ ↦ trivial) (fun _ _ h ↦ h) r trivial
    refine inStep_handlers he hnames hkeep hkeep' (fun s _ _ ↦ hmake _ s) (fun _ t _ ↦ hmake _ t)
      fun f g hf hg hshort hshort' ↦ ?_
    rw [hmissing f (parents - 1) hf (by omega) (by simp),
      hmissing' g (parents' - 1) hg (by omega) (by simp)]
    have hparent (v : Path) : (v.extend (front ++ [name])).parent = v.extend front := by
      simp [Path.parent, Path.extend]
    rw [hparent, hparent]
    have hallowed : (Excuse.failures left right : Excuse Store).Allows (w.extend front) (w'.extend front) :=
      Excuse.allows_of_short (Path.short_of_append (hshort hf)) (Path.short_of_append (hshort' hg))
    exact Alongside.bind (Q := fun _ ↦ Alike w w')
      (ih hallowed (fun n hn ↦ hnames n (List.mem_append_left _ hn)) (by omega) (by omega)) fun _ ↦
        inStep_makeUnlessThere he hnames

theorem inStep_ensureDirectory
    (he : (Excuse.failures left right : Excuse Store).Allows (w.extend names) (w'.extend names))
    (hnames : PlainNames names) :
    InStep w w' left right Failure.Akin (ensureDirectory (w.extend names))
      (ensureDirectory (w'.extend names)) :=
  inStep_makeDirectoryAndParents he hnames (by simp) (by simp)

/-! ### The directory of a copy -/

/-- Where the directory must be new, every failure to make it goes on. -/
theorem makeLast_eq (p : Path) : makeDirectoriesFrom.makeLast false p = makeDirectory p := by
  refine ExceptT.ext (StateT.ext fun s ↦ ?_)
  change (makeDirectoriesFrom.makeLast false p).run s = (makeDirectory p).run s
  unfold makeDirectoriesFrom.makeLast
  rw [run_tryCatch]
  rcases (makeDirectory p).run s with ⟨f | _, s'⟩
  · dsimp only
    by_cases hsystem : f.isSystem <;> simp [hsystem, run_bind]
  · rfl

/-- Parents of the directory are made where its parent is missing; one that is there then is none the
worse. -/
theorem run_makeDirectoriesFrom (parents : ℕ) (s : Store) :
    (makeDirectoriesFrom false p (parents + 1)).run s =
      if 2 ≤ p.parts.length ∧ cautious (s.exists? p.parent) = false then
        ((tryCatch (makeDirectoriesFrom false p.parent parents) fun f ↦
          match f with
          | .system .fileExists _ _ => pure ()
          | f => throw f) >>= fun _ ↦ makeDirectory p).run s
      else (makeDirectory p).run s := by
  rw [makeDirectoriesFrom, makeLast_eq, run_bind, run_get]
  dsimp only
  by_cases hmissing : 2 ≤ p.parts.length ∧ cautious (s.exists? p.parent) = false
  · rw [if_pos hmissing, if_pos (by simpa using hmissing)] <;> rfl
  · rw [if_neg hmissing, if_neg (by simpa using hmissing)]

/-- The directory above a working directory is there. -/
theorem exists_parent_of_orderly {s : Store} (hw : w.Home) (hs : s.Orderly w.parts)
    (hshort : w.text.utf8ByteSize < pathLimit) : s.exists? w.parent = .ok true := by
  have hshort' : w.parent.text.utf8ByteSize < pathLimit := by
    have hmono := Path.size_text_mono (p := w.parent) (q := w) rfl (List.dropLast_prefix _)
    have hlimit : 2 < pathLimit := by decide
    omega
  have hclean : w.parent.hasNul = false := by
    rw [Path.hasNul, List.any_eq_false]
    exact fun name hname ↦ by simpa using (hw.isName name (List.mem_of_mem_dropLast hname)).noNul
  have htarget : s.target .followed w.parent = .ok (.found w.parts.dropLast .dir) := by
    have hwalk : s.walk .followed linkLimit [] (w.parts.dropLast ++ []) = _ :=
      walk_append_of_dir hs.wellFormed (entry?_nil s) (by simpa using hs.above)
    rw [target_eq_walk (p := w.parent) hw.isAbsolute hshort']
    rw [List.append_nil] at hwalk
    exact hwalk.trans (walk_nil ..)
  simp [Store.exists?, Store.entryAt, hclean, htarget, Except.map, answers]

/-- So nothing has to be made before a working directory. -/
theorem run_makeDirectoriesFrom_of_orderly {s : Store} (hw : w.Home) (hs : s.Orderly w.parts)
    (hshort : w.text.utf8ByteSize < pathLimit) (parents : ℕ) :
    (makeDirectoriesFrom false w parents).run s = (makeDirectory w).run s := by
  cases parents with
  | zero => rw [makeDirectoriesFrom, makeLast_eq]
  | succ parents =>
    rw [run_makeDirectoriesFrom, exists_parent_of_orderly hw hs hshort, if_neg (by simp [cautious])]

/-- Actions in step still are if it is overlooked that a name is there. -/
theorem inStep_overlooked {x y : StoreAction Unit}
    (h : InStep w w' (fun _ ↦ False) (fun _ ↦ False) Failure.SameCause x y) :
    InStep w w' (fun _ ↦ False) (fun _ ↦ False) Failure.SameCause
      (tryCatch x fun f ↦
        match f with
        | .system .fileExists _ _ => pure ()
        | f => throw f)
      (tryCatch y fun f ↦
        match f with
        | .system .fileExists _ _ => pure ()
        | f => throw f) := by
  refine Alongside.tryCatch (e := .failures (fun _ ↦ False) fun _ ↦ False) h
    (fun _ _ h ↦ h.elim) (fun _ _ h ↦ h.elim) fun f g ↦ alongside_assume fun hsame ↦ ?_
  rcases hsame with rfl | ⟨e, p, p', rfl, rfl⟩
  · split
    · exact inStep_pure ()
    · exact inStep_throw (.inl rfl)
  · cases e with
    | fileExists => exact inStep_pure ()
    | _ => exact inStep_throw (.inr ⟨_, p, p', rfl, rfl⟩)

/-- Where neither path is too long, both lead to something or neither does. -/
theorem cautious_exists_eq {s t : Store} (hst : Alike w w' s t) (hnames : PlainNames names)
    (hshort : (w.extend names).text.utf8ByteSize < pathLimit)
    (hshort' : (w'.extend names).text.utf8ByteSize < pathLimit) :
    cautious (s.exists? (w.extend names)) = cautious (t.exists? (w'.extend names)) := by
  have hallowed : (Excuse.failures (fun _ ↦ False) (fun _ ↦ False) : Excuse Store).Allows
      (w.extend names) (w'.extend names) := Excuse.allows_of_short hshort hshort'
  have hanswers : AnswersAlike _ _ (s.exists? (w.extend names)) (t.exists? (w'.extend names)) :=
    hst.kind (fun _ ↦ rfl) hnames hallowed
  generalize s.exists? (w.extend names) = answer at hanswers ⊢
  generalize t.exists? (w'.extend names) = answer' at hanswers ⊢
  cases hanswers with
  | left h => exact h.elim
  | right h => exact h.elim
  | ok h => exact h.1
  | error => rfl

/-- Where neither path is too long, the missing parents of a directory are made together. -/
theorem inStep_makeDirectoriesFrom (hnames : PlainNames names)
    (hshort : (w.extend names).text.utf8ByteSize < pathLimit)
    (hshort' : (w'.extend names).text.utf8ByteSize < pathLimit) {parents parents' : ℕ}
    (hparents : names.length ≤ parents) (hparents' : names.length ≤ parents') :
    InStep w w' (fun _ ↦ False) (fun _ ↦ False) Failure.SameCause
      (makeDirectoriesFrom false (w.extend names) parents)
      (makeDirectoriesFrom false (w'.extend names) parents') := by
  have hmake {names : List String} (hnames : PlainNames names)
      (hshort : (w.extend names).text.utf8ByteSize < pathLimit)
      (hshort' : (w'.extend names).text.utf8ByteSize < pathLimit) :
      InStep w w' (fun _ ↦ False) (fun _ ↦ False) Failure.SameCause (makeDirectory (w.extend names))
        (makeDirectory (w'.extend names)) :=
    inStep_makeDirectory (Excuse.allows_of_short hshort hshort') hnames
  induction names using List.reverseRecOn generalizing parents parents' with
  | nil =>
    refine (hmake hnames hshort hshort').of_eq fun s t hst ↦ ?_
    rw [Path.extend_nil] at hshort hshort' ⊢
    rw [Path.extend_nil]
    exact ⟨run_makeDirectoriesFrom_of_orderly hst.home hst.left hshort parents,
      run_makeDirectoriesFrom_of_orderly hst.home' hst.right hshort' parents'⟩
  | append_singleton front name ih =>
    rw [List.length_append, List.length_singleton] at hparents hparents'
    obtain ⟨n, rfl⟩ : ∃ n, parents = n + 1 := ⟨parents - 1, by omega⟩
    obtain ⟨n', rfl⟩ : ∃ n', parents' = n' + 1 := ⟨parents' - 1, by omega⟩
    have hfront : PlainNames front := fun n hn ↦ hnames n (List.mem_append_left _ hn)
    have hshorter := Path.short_of_append hshort
    have hshorter' := Path.short_of_append hshort'
    have hparent (v : Path) : (v.extend (front ++ [name])).parent = v.extend front := by
      simp [Path.parent, Path.extend]
    have hlength {v : Path} (hv : v.Home) : 2 ≤ (v.extend (front ++ [name])).parts.length := by
      have hpositive := List.length_pos_iff.mpr hv.named
      simp only [Path.parts_extend, List.length_append, List.length_singleton]
      omega
    have hmissing := ih hfront hshorter hshorter' (Nat.le_of_succ_le_succ hparents)
      (Nat.le_of_succ_le_succ hparents')
    refine ⟨fun _ h ↦ h.elim, fun _ h ↦ h.elim, fun s t hst ↦ ?_⟩
    rw [run_makeDirectoriesFrom, run_makeDirectoriesFrom, hparent, hparent]
    have hexists := cautious_exists_eq hst hfront hshorter hshorter'
    by_cases hthere : cautious (t.exists? (w'.extend front))
    · rw [if_neg (by simp [hexists, hthere]), if_neg (by simp [hthere])]
      exact (hmake hnames hshort hshort').alike s t hst
    · rw [if_pos ⟨hlength hst.home, by simp [hexists, hthere]⟩,
        if_pos ⟨hlength hst.home', by simp [hthere]⟩]
      exact (Alongside.bind (Q := fun _ ↦ Alike w w') (inStep_overlooked hmissing) fun _ ↦
        hmake hnames hshort hshort').alike s t hst

theorem inStep_makeDirectories (hnames : PlainNames names)
    (hshort : (w.extend names).text.utf8ByteSize < pathLimit)
    (hshort' : (w'.extend names).text.utf8ByteSize < pathLimit) :
    InStep w w' (fun _ ↦ False) (fun _ ↦ False) Failure.SameCause (makeDirectories false (w.extend names))
      (makeDirectories false (w'.extend names)) :=
  inStep_makeDirectoriesFrom hnames hshort hshort' (by simp) (by simp)

end StoreAction

end DeferredOps
