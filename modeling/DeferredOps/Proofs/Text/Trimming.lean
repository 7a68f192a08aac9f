import DeferredOps.Text.Blank
import Mathlib.Data.List.DropRight
import Mathlib.Data.List.TakeWhile

/-!
# What trimming leaves

Trimming takes characters away from both ends of a text and stops at the first one on each side that
has to stay. This determines what is left, in whichever order the two ends are trimmed.
-/

namespace DeferredOps.Text

/-- What is left of a text when characters that satisfy `front` are taken away from its front and
characters that satisfy `back` from its end. -/
structure Stripped (front back : Char → Bool) (text rest : List Char) : Prop where
  split : ∃ first last, text = first ++ rest ++ last ∧ (∀ c ∈ first, front c) ∧ ∀ c ∈ last, back c
  starts (h : rest ≠ []) : front (rest.head h) = false
  ends (h : rest ≠ []) : back (rest.getLast h) = false

variable {front back test : Char → Bool} {text rest : List Char}

theorem dropEndWhile_eq (test : Char → Bool) (text : List Char) :
    dropEndWhile test text = text.rdropWhile test := rfl

/-- The end may be trimmed first. -/
theorem stripped_dropWhile (front back : Char → Bool) (text : List Char) :
    Stripped front back text ((dropEndWhile back text).dropWhile front) := by
  rw [dropEndWhile_eq]
  constructor
  · refine ⟨(text.rdropWhile back).takeWhile front, text.rtakeWhile back, ?_,
      fun c ↦ List.mem_takeWhile_imp, fun c ↦ List.mem_rtakeWhile_imp⟩
    rw [List.takeWhile_append_dropWhile, List.rdropWhile_append_rtakeWhile]
  · exact List.head_dropWhile_not front
  · intro h
    have hsuffix := List.dropWhile_suffix front (l := text.rdropWhile back)
    rw [hsuffix.getLast h]
    simpa using List.rdropWhile_last_not back text (hsuffix.ne_nil h)

/-- The front may be trimmed first. -/
theorem stripped_dropEndWhile (front back : Char → Bool) (text : List Char) :
    Stripped front back text (dropEndWhile back (text.dropWhile front)) := by
  rw [dropEndWhile_eq]
  constructor
  · refine ⟨text.takeWhile front, (text.dropWhile front).rtakeWhile back, ?_,
      fun c ↦ List.mem_takeWhile_imp, fun c ↦ List.mem_rtakeWhile_imp⟩
    rw [List.append_assoc, List.rdropWhile_append_rtakeWhile, List.takeWhile_append_dropWhile]
  · intro h
    have hleft := List.rdropWhile_prefix back (l := text.dropWhile front)
    rw [hleft.head h]
    exact List.head_dropWhile_not front _
  · intro h
    simpa using List.rdropWhile_last_not back _ h

theorem stripped_trim (text : List Char) : Stripped isBlank isBlank text (trim text) :=
  stripped_dropEndWhile isBlank isBlank text

theorem rdropWhile_append_of_pos {last : List Char} (h : ∀ c ∈ last, test c) :
    (text ++ last).rdropWhile test = text.rdropWhile test := by
  unfold List.rdropWhile
  rw [List.reverse_append, List.dropWhile_append_of_pos fun c hc ↦ h c (List.mem_reverse.mp hc)]

/-- What is left is what trimming finds, if all that is taken away at the end could be taken away at
the front. -/
theorem Stripped.eq_dropEndWhile (h : Stripped front back text rest) (himp : ∀ c, back c → front c) :
    rest = dropEndWhile back (text.dropWhile front) := by
  obtain ⟨first, last, rfl, hfirst, hlast⟩ := h.split
  rw [dropEndWhile_eq, List.append_assoc, List.dropWhile_append_of_pos hfirst]
  by_cases hrest : rest = []
  · subst hrest
    have hnil : last.dropWhile front = [] :=
      List.dropWhile_eq_nil_iff.mpr fun c hc ↦ himp c (hlast c hc)
    rw [List.nil_append, hnil, List.rdropWhile_nil]
  · have hfront : (rest ++ last).dropWhile front = rest ++ last := by
      obtain ⟨c, more, rfl⟩ := List.exists_cons_of_ne_nil hrest
      have hc : front c = false := h.starts hrest
      rw [List.cons_append, List.dropWhile_cons, if_neg (by simp [hc])]
    have hback : rest.rdropWhile back = rest :=
      List.rdropWhile_eq_self_iff.mpr fun hne ↦ by simp [h.ends hne]
    rw [hfront, rdropWhile_append_of_pos hlast, hback]

theorem Stripped.eq_trim (h : Stripped isBlank isBlank text rest) : rest = trim text :=
  h.eq_dropEndWhile fun _ hc ↦ hc

/-- The order in which the two ends are trimmed makes no difference. -/
theorem Stripped.eq_dropWhile (h : Stripped front back text rest) (himp : ∀ c, back c → front c) :
    rest = (dropEndWhile back text).dropWhile front :=
  (h.eq_dropEndWhile himp).trans ((stripped_dropWhile front back text).eq_dropEndWhile himp).symm

theorem isBlank_of_isLineEnd {c : Char} (h : isLineEnd c) : isBlank c := by
  rw [isLineEnd, Bool.or_eq_true, beq_iff_eq, beq_iff_eq] at h
  rcases h with rfl | rfl <;> rfl

end DeferredOps.Text
