import DeferredOps.Instruction.Parse
import Mathlib.Algebra.Group.Nat.Even

/-!
# Where operators stand

The scan of a line counts the characters that stand outside quotes. A character stands there if it is
no double quote and an even number of double quotes come before it, so the scan finds a single operator
exactly where one stands outside quotes and no other one does.
-/

namespace DeferredOps

variable {c : Char} {i position : ℕ} {quoted : Bool} {line text : List Char}

/-- A character of a text stands outside quotes. -/
def Unquoted (text : List Char) (i : ℕ) (c : Char) : Prop :=
  text[i]? = some c ∧ c ≠ '"' ∧ Even ((text.take i).count '"')

/-- A character stands outside quotes at one position of a line only. -/
def OnlyUnquoted (line : List Char) (i : ℕ) (c : Char) : Prop :=
  Unquoted line i c ∧ ∀ j, Unquoted line j c → j = i

/-- The operator of a move stands at a position: the only `>` outside quotes, or, if there is no
single one, the only `)` outside quotes. -/
inductive OperatorAt (line : List Char) : ℕ → OverwritePolicy → Prop
  | replace {i : ℕ} (h : OnlyUnquoted line i '>') : OperatorAt line i .replace
  | merge {i : ℕ} (hnone : ∀ j, ¬ OnlyUnquoted line j '>') (h : OnlyUnquoted line i ')') :
      OperatorAt line i .merge

namespace OperatorScan

/-! ## Places outside quotes -/

/-- The positions at which a character stands outside quotes, in a text that starts at a position,
within quotes or not. -/
def places (c : Char) (position : ℕ) (quoted : Bool) : List Char → List ℕ
  | [] => []
  | d :: rest =>
    if d = '"' then places c (position + 1) (!quoted) rest
    else if quoted = false ∧ d = c then position :: places c (position + 1) quoted rest
    else places c (position + 1) quoted rest

/-- The scan notes the places of both operators in their order. -/
theorem scanFrom_eq (position : ℕ) (quoted : Bool) (found : OperatorScan) (text : List Char) :
    scanFrom position quoted found text =
      ⟨(places '>' position quoted text).foldl Occurrences.add found.replace,
        (places ')' position quoted text).foldl Occurrences.add found.merge⟩ := by
  induction text generalizing position quoted found with
  | nil => rfl
  | cons d rest ih =>
    unfold scanFrom places
    by_cases hquote : d = '"'
    · rw [if_pos hquote, if_pos hquote, if_pos hquote, ih]
    rw [if_neg hquote, if_neg hquote, if_neg hquote]
    cases quoted with
    | true => simp [ih]
    | false =>
      by_cases hreplace : d = '>'
      · simp [hreplace, ih]
      · by_cases hmerge : d = ')' <;> simp [hreplace, hmerge, ih]

/-- A quote in front of a text turns its inside out. -/
theorem even_quote_iff (n : ℕ) (quoted : Bool) :
    Even (n + 1 + quoted.toNat) ↔ Even (n + (!quoted).toNat) := by
  cases quoted with
  | false => rfl
  | true =>
    change Even (n + 1 + 1) ↔ Even n
    rw [Nat.even_add_one, Nat.even_add_one, not_not]

theorem mem_places (hc : c ≠ '"') : i ∈ places c position quoted text ↔
    ∃ k, i = position + k ∧ text[k]? = some c ∧
      Even ((text.take k).count '"' + quoted.toNat) := by
  induction text generalizing position quoted with
  | nil => simp [places]
  | cons d rest ih =>
    -- The position is that of the first character, or one in the rest.
    rw [← Nat.or_exists_add_one]
    simp only [List.getElem?_cons_zero, List.getElem?_cons_succ, List.take_zero, List.take_succ_cons,
      List.count_nil, List.count_cons, Option.some_inj, Nat.zero_add, Nat.add_zero]
    have hshift (k : ℕ) : i = position + (k + 1) ↔ i = position + 1 + k := by omega
    simp only [hshift]
    unfold places
    by_cases hquote : d = '"'
    · subst hquote
      simp only [if_true, beq_self_eq_true, even_quote_iff, ih, hc.symm, false_and, and_false,
        false_or]
    have hbeq : (d == '"') = false := by simpa using hquote
    simp only [if_neg hquote, hbeq, Bool.false_eq_true, if_false, Nat.add_zero]
    cases quoted with
    | true => simp [ih]
    | false =>
      by_cases hsame : d = c <;> simp [hsame, ih]

theorem pairwise_places (hc : c ≠ '"') (position : ℕ) (quoted : Bool) (text : List Char) :
    (places c position quoted text).Pairwise (· < ·) := by
  induction text generalizing position quoted with
  | nil => exact .nil
  | cons d rest ih =>
    unfold places
    split
    · exact ih _ _
    split
    · refine .cons (fun j hj ↦ ?_) (ih _ _)
      obtain ⟨k, rfl, -⟩ := (mem_places hc).mp hj
      omega
    · exact ih _ _

theorem mem_places_line (hc : c ≠ '"') : i ∈ places c 0 false line ↔ Unquoted line i c := by
  rw [mem_places hc]
  unfold Unquoted
  simp [hc]

/-- There is a single place if no other one stands outside quotes. -/
theorem places_eq_singleton_iff (hc : c ≠ '"') :
    places c 0 false line = [i] ↔ OnlyUnquoted line i c := by
  unfold OnlyUnquoted
  simp only [← mem_places_line hc]
  constructor
  · intro h
    simp [h]
  · rintro ⟨hi, honly⟩
    have hpairwise := pairwise_places hc 0 false line
    cases hplaces : places c 0 false line with
    | nil => simp [hplaces] at hi
    | cons first rest =>
      rw [hplaces] at hi honly hpairwise
      obtain rfl : first = i := honly first List.mem_cons_self
      cases rest with
      | nil => rfl
      | cons second rest =>
        have hlt : first < second := (List.pairwise_cons.mp hpairwise).1 second List.mem_cons_self
        have heq : second = first := honly second (by simp)
        omega

/-! ## The scan of a line -/

theorem count_foldl_add (o : Occurrences) (found : List ℕ) :
    (found.foldl Occurrences.add o).count = o.count + found.length := by
  induction found generalizing o with
  | nil => rfl
  | cons position found ih =>
    rw [List.foldl_cons, ih, List.length_cons]
    change o.count + 1 + found.length = _
    omega

/-- The occurrences of a character outside quotes. -/
def occurrences (c : Char) (line : List Char) : Occurrences :=
  (places c 0 false line).foldl Occurrences.add .none

theorem ofLine_eq (line : List Char) : ofLine line = ⟨occurrences '>' line, occurrences ')' line⟩ :=
  scanFrom_eq 0 false .empty line

theorem count_occurrences (c : Char) (line : List Char) :
    (occurrences c line).count = (places c 0 false line).length :=
  (count_foldl_add .none _).trans (Nat.zero_add _)

/-- What has been counted once has been noted where it stands. -/
theorem last_occurrences (hc : c ≠ '"') (hcount : (occurrences c line).count = 1) :
    (occurrences c line).last = some i ↔ OnlyUnquoted line i c := by
  rw [count_occurrences] at hcount
  obtain ⟨j, hplaces⟩ := List.length_eq_one_iff.mp hcount
  have hlast : (occurrences c line).last = some j := by
    unfold occurrences
    rw [hplaces]
    rfl
  rw [hlast, ← places_eq_singleton_iff hc, hplaces]
  simp

theorem count_eq_one_iff (hc : c ≠ '"') :
    (occurrences c line).count = 1 ↔ ∃ i, OnlyUnquoted line i c := by
  rw [count_occurrences, List.length_eq_one_iff]
  simp only [places_eq_singleton_iff hc]

end OperatorScan

open OperatorScan in
/-- The operator of a move is found exactly where it stands. -/
theorem Instruction.operator?_eq_some_iff {policy : OverwritePolicy} :
    operator? line = some (i, policy) ↔ OperatorAt line i policy := by
  have hreplace : '>' ≠ '"' := by decide
  have hmerge : ')' ≠ '"' := by decide
  unfold operator?
  rw [ofLine_eq]
  dsimp only
  constructor
  · intro h
    split at h
    · next hone =>
      simp only [Option.map_eq_some_iff, Prod.mk.injEq] at h
      obtain ⟨j, hlast, rfl, rfl⟩ := h
      exact .replace ((last_occurrences hreplace hone).mp hlast)
    · next hnone =>
      split at h
      · next hone =>
        simp only [Option.map_eq_some_iff, Prod.mk.injEq] at h
        obtain ⟨j, hlast, rfl, rfl⟩ := h
        exact .merge (fun k hk ↦ hnone ((count_eq_one_iff hreplace).mpr ⟨k, hk⟩))
          ((last_occurrences hmerge hone).mp hlast)
      · cases h
  · rintro (h | ⟨hnone, h⟩)
    · have hone := (count_eq_one_iff hreplace).mpr ⟨i, h⟩
      rw [if_pos hone, (last_occurrences hreplace hone).mpr h]
      rfl
    · have hone := (count_eq_one_iff hmerge).mpr ⟨i, h⟩
      have hother : ¬ (occurrences '>' line).count = 1 := by
        rw [count_eq_one_iff hreplace]
        rintro ⟨j, hj⟩
        exact hnone j hj
      rw [if_neg hother, if_pos hone, (last_occurrences hmerge hone).mpr h]
      rfl

end DeferredOps
