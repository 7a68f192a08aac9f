import DeferredOps.Proofs.Store.Straight

/-!
# Splitting patterns

A pattern splits into its last name and the path before it, and it can be used if the wildcard characters
are all in that name. What is found in the directory of a usable pattern under its last name is what the
whole pattern names.
-/

namespace DeferredOps

namespace Path

variable {name pattern : String} {names : List String} {p : Path}

/-! ## Wildcard characters of names -/

theorem hasWildcard_append (front back : String) :
    hasWildcard (front ++ back) = (hasWildcard front || hasWildcard back) := by
  simp [hasWildcard, String.toList_append]

theorem hasWildcard_intercalate (names : List String) :
    hasWildcard ("/".intercalate names) = names.any hasWildcard := by
  induction names with
  | nil => rfl
  | cons name rest ih =>
    cases rest with
    | nil => simp [String.intercalate_singleton]
    | cons second rest =>
      have hslash : hasWildcard "/" = false := rfl
      rw [String.intercalate_cons_cons, hasWildcard_append, hasWildcard_append, hslash, Bool.or_false,
        ih]
      rfl

/-- The text of a path has the wildcard characters of its names. -/
theorem hasWildcard_text (p : Path) : hasWildcard p.text = p.parts.any hasWildcard := by
  have hanchor : hasWildcard (anchorText p.anchor) = false := by
    cases p.anchor <;> rfl
  unfold text
  split
  · next hempty =>
    have hparts : p.parts = [] := by simpa using (Bool.and_eq_true_iff.mp hempty).2
    rw [hparts]
    rfl
  · rw [hasWildcard_append, hanchor, Bool.false_or, hasWildcard_intercalate]

/-- A name with a wildcard character is the last one of its path. -/
theorem parts_eq_of_hasWildcard_name (h : hasWildcard p.name) :
    p.parts = p.parts.dropLast ++ [p.name] := by
  unfold name at h ⊢
  cases hlast : p.parts.getLast? with
  | none =>
    rw [hlast] at h
    cases h
  | some last => rw [Option.getD_some, List.dropLast_append_getLast? _ hlast]

/-! ## Paths of one name -/

theorem splitOn_of_notMem {separator : Char} {text : List Char} (h : separator ∉ text) :
    Text.splitOn separator text = [text] := by
  induction text with
  | nil => rfl
  | cons c rest ih =>
    obtain ⟨hc, hrest⟩ : separator ≠ c ∧ separator ∉ rest := by simpa using h
    rw [Text.splitOn, if_neg (Ne.symm hc), ih hrest]

/-- A name that is read as a path is that name in the directory where it is used. -/
theorem ofString_of_isPart (hname : IsPart name) (hdot : name ≠ ".") : ofString name = ⟨.here, [name]⟩ := by
  have hslashes : name.toList.takeWhile (· = '/') = [] := by
    have hnone := hname.noSlash
    cases hchars : name.toList with
    | nil => rfl
    | cons c rest =>
      rw [hchars] at hnone
      have hc : c ≠ '/' := by
        rintro rfl
        exact hnone List.mem_cons_self
      exact List.takeWhile_cons_of_neg (by simpa using hc)
  have hne : name.toList ≠ [] := by simpa using hname.ne_empty
  have hdot' : name.toList ≠ ['.'] := fun h ↦ hdot (String.toList_inj.mp h)
  unfold ofString partsOfText
  dsimp only
  rw [hslashes, splitOn_of_notMem hname.noSlash]
  simp [hne, hdot', anchorOfSlashes]

/-! ## Misplaced wildcard characters -/

/-- A pattern whose wildcard characters are not all in its last name. -/
def Misplaced (pattern : String) : Prop :=
  hasWildcard pattern ∧
    (hasWildcard (ofString pattern).name = false ∨
      ∃ name ∈ (ofString pattern).parts.dropLast, hasWildcard name)

end Path

namespace Wildcard

variable {pattern : String} {wildcard : Wildcard}

/-- What is wrong with a misplaced wildcard character. -/
theorem ofString_of_misplaced (h : Path.Misplaced pattern) :
    ofString pattern = .error
      ⟨if Path.hasWildcard (Path.ofString pattern).name then .parentIsWild else .nameIsLiteral,
        pattern⟩ := by
  unfold ofString
  dsimp only
  cases hname : Path.hasWildcard (Path.ofString pattern).name with
  | false => rfl
  | true =>
    obtain ⟨name, hmem, hwild⟩ := h.2.resolve_left (by simp [hname])
    have hparent : Path.hasWildcard (Path.ofString pattern).parent.text := by
      rw [Path.hasWildcard_text]
      exact List.any_eq_true.mpr ⟨name, hmem, hwild⟩
    rw [if_neg (by simp), if_pos hparent, if_pos rfl]

/-- Every other pattern splits into its last name and the path before it. -/
theorem ofString_of_not_misplaced (hwild : Path.hasWildcard pattern) (h : ¬ Path.Misplaced pattern) :
    ofString pattern = .ok ⟨(Path.ofString pattern).parent, (Path.ofString pattern).name⟩ := by
  obtain ⟨hname, hparts⟩ := not_or.mp fun hor ↦ h ⟨hwild, hor⟩
  have hparent : Path.hasWildcard (Path.ofString pattern).parent.text = false := by
    rw [Path.hasWildcard_text, List.any_eq_false]
    exact fun name hmem hwild ↦ hparts ⟨name, hmem, hwild⟩
  unfold ofString
  dsimp only
  rw [if_neg (by simpa using hname), if_neg (by simp [hparent])]

/-- A usable pattern: its directory holds no wildcard character, its expression no slash, and the two
name the same as the whole pattern. -/
theorem split_of_ofString (h : ofString pattern = .ok wildcard) (directory : Path) :
    Path.hasWildcard wildcard.parent.text = false ∧ '/' ∉ wildcard.expression.toList ∧
      Path.resolve wildcard.expression (Path.below directory wildcard.parent) =
        Path.resolve pattern directory := by
  unfold ofString at h
  dsimp only at h
  split at h
  · cases h
  next hname =>
  split at h
  · cases h
  next hparent =>
  cases h
  rw [Bool.not_eq_true', Bool.not_eq_false] at hname
  rw [Bool.not_eq_true] at hparent
  have hparts := Path.parts_eq_of_hasWildcard_name hname
  have hmem : (Path.ofString pattern).name ∈ (Path.ofString pattern).parts := by
    rw [hparts]
    simp [Path.name]
  have hpart := Path.proper_ofString pattern _ hmem
  refine ⟨hparent, hpart.noSlash, ?_⟩
  rw [Path.resolve, Path.ofString_of_isPart hpart (Path.ne_dot_of_mem_ofString hmem), Path.resolve]
  have hhere : Path.isAbsolute ⟨.here, [(Path.ofString pattern).name]⟩ = false := rfl
  rw [Path.below, hhere, if_neg Bool.false_ne_true]
  unfold Path.below
  by_cases htop : (Path.ofString pattern).isAbsolute
  · rw [if_pos htop, if_pos (show (Path.ofString pattern).parent.isAbsolute from htop)]
    dsimp only [Path.parent]
    rw [← hparts]
  · rw [if_neg htop, if_neg (show ¬ (Path.ofString pattern).parent.isAbsolute from htop)]
    dsimp only [Path.parent]
    rw [List.append_assoc, ← hparts]

end Wildcard

end DeferredOps
