import DeferredOps.Proofs.Store.Actions

/-!
# The limits of paths

A path that leads nowhere is answered with no, so a question can fail for one reason only: the path, or a
name that is looked up on its way, is too long.
-/

namespace DeferredOps.Store

variable {s : Store} {last : LastLink} {p : Path} {f : Failure} {e : SystemError}

/-- What keeps a path from being followed: it leads nowhere, or a name is too long. -/
def Unfollowed (e : SystemError) : Prop :=
  e.meansAbsent ∨ e = .nameTooLong

theorem unfollowed_of_walkNames
    {follow : LastLink → Location → List String → Except SystemError Target}
    (hfollow : ∀ mode, mode ≠ .written → ∀ d names e, follow mode d names = .error e → Unfollowed e)
    (hlast : last ≠ .written) {directory : Location} {names : List String}
    (h : s.walkNames last follow directory names = .error e) : Unfollowed e := by
  have hwritten : decide (last = .written) = false := by simpa using hlast
  induction names generalizing directory with
  | nil => cases h
  | cons name rest ih =>
    unfold walkNames at h
    split at h
    · exact ih h
    split at h
    · exact ih h
    split at h
    · cases h
      exact .inl rfl
    split at h
    · cases h
      exact .inr rfl
    dsimp only at h
    split at h
    · split at h
      · cases h
      · cases h
        exact .inl rfl
    · exact ih h
    · split at h
      · cases h
      · cases h
        exact .inl rfl
    · split at h
      · cases h
      · rw [hwritten, Bool.and_false, Bool.false_and, if_neg Bool.false_ne_true] at h
        exact hfollow last hlast _ _ _ h

theorem unfollowed_of_walk (hlast : last ≠ .written) {links : ℕ} {directory : Location}
    {names : List String} (h : s.walk last links directory names = .error e) : Unfollowed e := by
  induction links generalizing last directory names e with
  | zero =>
    refine unfollowed_of_walkNames (fun _ _ _ _ e he ↦ ?_) hlast h
    cases he
    exact .inl rfl
  | succ links ih => exact unfollowed_of_walkNames (fun _ hmode _ _ _ he ↦ ih hmode he) hlast h

theorem unfollowed_of_target (hlast : last ≠ .written) (h : s.target last p = .error e) :
    Unfollowed e := by
  unfold target startChecked at h
  split at h
  · cases h
    exact .inr rfl
  · exact unfollowed_of_walk hlast h

/-- A question about a path fails only if it is too long. -/
theorem entryAt_eq_error_iff (hlast : last ≠ .written) :
    s.entryAt last p = .error f ↔
      p.hasNul = false ∧ s.target last p = .error .nameTooLong ∧ f = .ofPath .nameTooLong p := by
  unfold entryAt
  split
  · next hnul => simp [hnul]
  · next hnul =>
    split
    · next htarget => simp [htarget]
    · next htarget => simp [htarget]
    · next e htarget =>
      rcases unfollowed_of_target hlast htarget with habsent | rfl
      · have hne : e ≠ .nameTooLong := by
          rintro rfl
          cases habsent
        simp [habsent, htarget, hne]
      · simp [SystemError.meansAbsent, htarget, hnul, eq_comm]

/-- A path that is too long is not followed. -/
theorem target_of_long (hlong : pathLimit ≤ p.text.utf8ByteSize) :
    s.target last p = .error .nameTooLong := by
  rw [target, startChecked, if_pos hlong]
  rfl

/-- A path that is too long cannot be asked about. -/
theorem entryAt_of_long (hclean : p.hasNul = false) (hlong : pathLimit ≤ p.text.utf8ByteSize) :
    s.entryAt last p = .error (.ofPath .nameTooLong p) := by
  simp [entryAt, hclean, target_of_long hlong, SystemError.meansAbsent]

theorem listed_of_long (hclean : p.hasNul = false) (hlong : pathLimit ≤ p.text.utf8ByteSize) :
    s.listed p = .error (.ofPath .nameTooLong p) := by
  simp [listed, hclean, target_of_long hlong]

theorem slot_of_long (hlong : pathLimit ≤ p.text.utf8ByteSize) : s.slot p = .error .nameTooLong := by
  rw [slot, startChecked, if_pos hlong]
  rfl

theorem unlink_of_long (hlong : pathLimit ≤ p.text.utf8ByteSize) : s.unlink p = .error .nameTooLong := by
  rw [unlink, slot_of_long hlong]
  rfl

theorem removeDirectory_of_long (hlong : pathLimit ≤ p.text.utf8ByteSize) :
    s.removeDirectory p = .error .nameTooLong := by
  rw [removeDirectory, slot_of_long hlong]
  rfl

theorem makeDirectory_of_long (hlong : pathLimit ≤ p.text.utf8ByteSize) :
    s.makeDirectory p = .error .nameTooLong := by
  rw [makeDirectory, create, slot_of_long hlong]
  rfl

end DeferredOps.Store
