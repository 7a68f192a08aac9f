import DeferredOps.Json.Basic
import DeferredOps.Terminal
import Mathlib.Data.Int.Notation
import Mathlib.Data.List.Basic

/-!
# Literals and terminals

The literals in messages show what is not printable by escapes, so the character ESC is not in them,
whatever value they show. A text without it has no control sequences, and is the same for a terminal and
for other places.
-/

namespace DeferredOps

namespace Text

/-- A text without the character ESC. -/
def Escapeless (s : String) : Prop :=
  '\x1b' ∉ s.toList

instance (s : String) : Decidable (Escapeless s) :=
  inferInstanceAs (Decidable ('\x1b' ∉ s.toList))

@[simp]
theorem escapeless_append {s t : String} : Escapeless (s ++ t) ↔ Escapeless s ∧ Escapeless t := by
  simp [Escapeless]

@[simp]
theorem escapeless_ofList {chars : List Char} : Escapeless (String.ofList chars) ↔ '\x1b' ∉ chars := by
  simp [Escapeless]

theorem escapeless_intercalate {separator : String} {texts : List String}
    (hseparator : Escapeless separator) (h : ∀ t ∈ texts, Escapeless t) :
    Escapeless (separator.intercalate texts) := by
  induction texts with
  | nil => simp [Escapeless]
  | cons t rest ih =>
    have ht := h t List.mem_cons_self
    have hrest := ih fun u hu ↦ h u (List.mem_cons_of_mem _ hu)
    cases rest with
    | nil => simpa using ht
    | cons u more =>
      rw [String.intercalate_cons_cons]
      simp [ht, hseparator, hrest]

/-! ## Numbers -/

theorem escapeless_repr (n : ℕ) : Escapeless n.repr := by
  intro h
  rw [Nat.toList_repr] at h
  cases Nat.isDigit_of_mem_toDigits (by decide) (by decide) h

theorem hexDigit_ne_escape (n : ℕ) : hexDigit (n % 16) ≠ '\x1b' := by
  have hdigits : ∀ d < 16, hexDigit d ≠ '\x1b' := by decide
  exact hdigits _ (Nat.mod_lt _ (by decide))

theorem escape_notMem_hexDigits (width n : ℕ) : '\x1b' ∉ hexDigits width n := by
  induction width generalizing n with
  | zero => simp [hexDigits]
  | succ width ih => simp [hexDigits, ih, (hexDigit_ne_escape n).symm]

end Text

namespace Binary64

open Text

theorem escapeless_exponentText (exponent : ℤ) : Escapeless (exponentText exponent) := by
  unfold exponentText
  simp only [escapeless_append]
  refine ⟨⟨?_, ?_⟩, escapeless_repr _⟩ <;> split <;> decide

theorem escapeless_zeros (count : ℕ) : Escapeless (zeros count) := by
  simp [zeros]

theorem escapeless_pointedText {digits : String} (h : Escapeless digits) (point : ℤ) :
    Escapeless (pointedText digits point) := by
  have hdigits : '\x1b' ∉ digits.toList := h
  unfold pointedText
  dsimp only
  split
  · split
    · decide
    · next d rest hchars =>
      rw [hchars, List.mem_cons, not_or] at hdigits
      rw [escapeless_append, escapeless_ofList]
      refine ⟨?_, escapeless_exponentText _⟩
      split <;> simp [hdigits.1, hdigits.2]
  · split
    · simp only [escapeless_append]
      exact ⟨⟨by decide, escapeless_zeros _⟩, h⟩
    · split
      · simp only [escapeless_append]
        exact ⟨⟨h, escapeless_zeros _⟩, by decide⟩
      · simp only [escapeless_append, escapeless_ofList]
        exact ⟨⟨fun h ↦ hdigits (List.mem_of_mem_take h), by decide⟩,
          fun h ↦ hdigits (List.mem_of_mem_drop h)⟩

theorem escapeless_text (x : Binary64) : Escapeless x.text := by
  cases x with
  | nan => decide
  | infinite negative => cases negative <;> decide
  | finite negative significand exponent =>
    have hbody : Escapeless (if significand = 0 then "0.0" else
        pointedText (shortest significand exponent).digits.repr
          ((shortest significand exponent).digits.repr.length + (shortest significand exponent).exponent)) := by
      split
      · decide
      · exact escapeless_pointedText (escapeless_repr _) _
    unfold text
    dsimp only
    split
    · exact escapeless_append.mpr ⟨by decide, hbody⟩
    · exact hbody

end Binary64

namespace Text

/-! ## Strings -/

theorem isPrintable_escape : isPrintable '\x1b' = false := rfl

theorem escape_notMem_codePointEscape (c : Char) : '\x1b' ∉ codePointEscape c := by
  unfold codePointEscape
  dsimp only
  split
  · simp [escape_notMem_hexDigits]
  · split <;> simp [escape_notMem_hexDigits]

theorem escape_notMem_literalChar {quote : Char} (hquote : quote ≠ '\x1b') (c : Char) :
    '\x1b' ∉ literalChar quote c := by
  unfold literalChar
  split
  · next hescaped =>
    have hc : c ≠ '\x1b' := by
      rintro rfl
      simp [hquote.symm] at hescaped
    simp [hc.symm]
  · split
    · decide
    · split
      · decide
      · split
        · decide
        · split
          · next hprintable =>
            rw [List.mem_singleton]
            rintro rfl
            rw [isPrintable_escape] at hprintable
            cases hprintable
          · exact escape_notMem_codePointEscape c

theorem literalQuote_ne_escape (text : List Char) : literalQuote text ≠ '\x1b' := by
  unfold literalQuote
  split <;> decide

theorem escapeless_literal (text : String) : Escapeless (literal text) := by
  have hquote := literalQuote_ne_escape text.toList
  unfold literal
  rw [escapeless_ofList]
  simp [hquote.symm, escape_notMem_literalChar hquote]

end Text

namespace Json

open Text

theorem escapeless_intText (n : ℤ) : Escapeless (intText n) := by
  unfold intText
  split
  · exact escapeless_append.mpr ⟨by decide, escapeless_repr _⟩
  · exact escapeless_repr _

theorem escapeless_partsLiteral (parts : List StringPart) : Escapeless (partsLiteral parts) := by
  have hquote := literalQuote_ne_escape (parts.filterMap StringPart.char?)
  have hpart : ∀ part : StringPart, '\x1b' ∉ partLiteral (literalQuote (parts.filterMap StringPart.char?)) part
    | .char c => escape_notMem_literalChar hquote c
    | .half unit => by simp [partLiteral, escape_notMem_hexDigits]
  unfold partsLiteral
  rw [escapeless_ofList]
  simp [hquote.symm, hpart]

mutual

theorem escapeless_literal : ∀ value : Json, Escapeless value.literal
  | .null => by simp only [literal]; decide
  | .bool b => by cases b <;> simp only [literal] <;> decide
  | .int n => by simpa only [literal] using escapeless_intText n
  | .float x => by simpa only [literal] using x.escapeless_text
  | .str s => by simpa only [literal] using Text.escapeless_literal s
  | .broken parts => by simpa only [literal] using escapeless_partsLiteral parts
  | .arr items => by
    simp only [literal, escapeless_append]
    exact ⟨⟨by decide, escapeless_intercalate (by decide) (escapeless_literals items)⟩, by decide⟩
  | .obj fields => by
    simp only [literal, escapeless_append]
    exact ⟨⟨by decide, escapeless_intercalate (by decide) (escapeless_fieldLiterals fields)⟩, by decide⟩

theorem escapeless_literals : ∀ items : List Json, ∀ t ∈ literals items, Escapeless t
  | [] => by simp [literals]
  | item :: rest => by
    simp only [literals, List.mem_cons, forall_eq_or_imp]
    exact ⟨escapeless_literal item, escapeless_literals rest⟩

theorem escapeless_fieldLiterals : ∀ fields : List (String × Json), ∀ t ∈ fieldLiterals fields, Escapeless t
  | [] => by simp [fieldLiterals]
  | (name, value) :: rest => by
    simp only [fieldLiterals, List.mem_cons, forall_eq_or_imp, escapeless_append]
    exact ⟨⟨⟨Text.escapeless_literal name, by decide⟩, escapeless_literal value⟩,
      escapeless_fieldLiterals rest⟩

end

theorem escapeless_kindName (value : Json) : Escapeless value.kindName := by
  cases value <;> simp only [kindName] <;> decide

end Json

/-! ## Terminals -/

namespace Terminal

open Text

theorem styleLength_eq_none {text : List Char} (h : '\x1b' ∉ text) : styleLength? text = none := by
  unfold styleLength?
  split
  · simp at h
  · rfl

theorem command_eq_none {text : List Char} (h : '\x1b' ∉ text) : command? text = none := by
  unfold command?
  split
  · simp at h
  · rfl

theorem withoutStyles_eq {text : List Char} (h : '\x1b' ∉ text) : withoutStyles 0 text = text := by
  induction text with
  | nil => rfl
  | cons c rest ih =>
    have hrest : '\x1b' ∉ rest := fun hmem ↦ h (List.mem_cons_of_mem _ hmem)
    have hnone : markedStyleLength? (c :: rest) = none := by
      unfold markedStyleLength?
      split
      · next heq =>
        cases heq
        rw [styleLength_eq_none hrest]
        rfl
      · exact styleLength_eq_none h
    simp only [withoutStyles, hnone, ih hrest]

theorem commandsFrom_eq_nil {text : List Char} (h : '\x1b' ∉ text) (place : ℕ) :
    commandsFrom place 0 text = [] := by
  induction text generalizing place with
  | nil => rfl
  | cons c rest ih =>
    have hrest : '\x1b' ∉ rest := fun hmem ↦ h (List.mem_cons_of_mem _ hmem)
    have hnone : markedCommand? (c :: rest) = none := by
      unfold markedCommand?
      split
      · next heq =>
        cases heq
        rw [command_eq_none hrest]
        rfl
      · exact command_eq_none h
    simp only [commandsFrom, hnone, ih hrest]

/-- A text without ESC has no control sequences. -/
theorem plain_of_escapeless {text : String} (h : Escapeless text) : plain? text = some text := by
  unfold plain?
  rw [commandsFrom_eq_nil h]
  simp [withoutCommands, withoutStyles_eq h]

end Terminal

end DeferredOps
