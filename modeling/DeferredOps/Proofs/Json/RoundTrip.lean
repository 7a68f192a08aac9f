import DeferredOps.Json.Printer
import DeferredOps.Proofs.Json.Reader
import Mathlib.Data.Nat.Notation
import Mathlib.Data.Int.Notation
import Mathlib.Tactic.IntervalCases

/-!
# What is written as JSON is read back

The one-line form of a value consists of printable ASCII characters. A value of words, whole numbers,
texts, arrays and objects is read back from it: each character of a text is one step of the reader
whatever is written for it, a whole number ends where its digits do, and an array or an object is read
item by item. No character of a value's form is taken for a part of what stands after it.
-/

namespace DeferredOps.Json

/-- The values that are read back: no numbers with a fraction and no halves of surrogate pairs; whole
numbers with no more digits than are read, and objects with different names. -/
inductive Storable : Json → Prop
  | null : Storable .null
  | bool (b : Bool) : Storable (.bool b)
  | int {n : ℤ} (hdigits : n.natAbs.repr.length ≤ digitLimit) : Storable (.int n)
  | str (s : String) : Storable (.str s)
  | arr {items : List Json} (hitems : ∀ item ∈ items, Storable item) : Storable (.arr items)
  | obj {fields : List (String × Json)} (hnames : (fields.map (·.1)).Nodup)
      (hfields : ∀ field ∈ fields, Storable field.2) : Storable (.obj fields)

variable {c : Char} {rest text : List Char} {nests : ℕ} {value : Json}

/-! ## Characters -/

theorem hexValue_hexDigit {d : ℕ} (h : d < 16) : hexValue? (Text.hexDigit d) = some d := by
  interval_cases d <;> rfl

theorem length_hexDigits (width n : ℕ) : (Text.hexDigits width n).length = width := by
  induction width generalizing n with
  | zero => rfl
  | succ width ih => simp [Text.hexDigits, ih]

/-- Four digits write a number below 65536. -/
theorem unit_hexDigits {n : ℕ} (h : n < 65536) : unit? (Text.hexDigits 4 n) = some n := by
  have hdigit (m : ℕ) : hexValue? (Text.hexDigit (m % 16)) = some (m % 16) :=
    hexValue_hexDigit (Nat.mod_lt _ (by decide))
  simp only [Text.hexDigits, List.nil_append, List.cons_append, unit?, hdigit, bind, Option.bind, pure]
  congr 1
  omega

theorem take_hexDigits (n : ℕ) (rest : List Char) :
    (Text.hexDigits 4 n ++ rest).take 4 = Text.hexDigits 4 n :=
  List.take_left' (length_hexDigits 4 n)

theorem drop_hexDigits (n : ℕ) (rest : List Char) : (Text.hexDigits 4 n ++ rest).drop 4 = rest :=
  List.drop_left' (length_hexDigits 4 n)

/-- A number that is no half of a pair is read as its character. -/
theorem readUnitEscape_single {n : ℕ} (hn : n < 65536) (hwhole : n < 0xD800 ∨ 0xDFFF < n) (hrest : rest ≠ [])
    (place : List Char) :
    readUnitEscape place (Text.hexDigits 4 n ++ rest) = .ok (.char (Char.ofNat n), rest) := by
  have hhigh : isHighSurrogate n = false := by
    unfold isHighSurrogate
    simp
    omega
  have hlow : isLowSurrogate n = false := by
    unfold isLowSurrogate
    simp
    omega
  have hpart : partOfUnit n = .char (Char.ofNat n) := by simp [partOfUnit, hhigh, hlow]
  unfold readUnitEscape
  rw [drop_hexDigits, take_hexDigits, unit_hexDigits hn]
  simp only [List.isEmpty_iff, hrest, if_false, hpart, hhigh, Bool.false_and, Bool.false_eq_true]
  split <;> rfl

/-- The halves of a pair are read as its character. -/
theorem readUnitEscape_pair {high low : ℕ} (hhigh : 0xD800 ≤ high ∧ high ≤ 0xDBFF)
    (hlow : 0xDC00 ≤ low ∧ low ≤ 0xDFFF) (hrest : rest ≠ []) (place : List Char) :
    readUnitEscape place (Text.hexDigits 4 high ++ (unitEscape low ++ rest)) =
      .ok (.char (charOfPair high low), rest) := by
  have hhigh' : isHighSurrogate high = true := by simpa [isHighSurrogate] using hhigh
  have hlow' : isLowSurrogate low = true := by simpa [isLowSurrogate] using hlow
  unfold readUnitEscape
  rw [drop_hexDigits, take_hexDigits, unit_hexDigits (by omega)]
  simp only [unitEscape, List.cons_append, List.isEmpty_cons, List.drop_succ_cons, drop_hexDigits, take_hexDigits,
    unit_hexDigits (show low < 65536 by omega), hhigh', hlow', Bool.false_eq_true, if_false, if_true]
  simp [hrest]

theorem readString_escape (opening : List Char) (budget : ℕ) (done : List StringPart) {e c : Char}
    (he : e ≠ 'u') (hescaped : escaped? e = some c) (rest : List Char) :
    readString opening (budget + 1) done ('\\' :: e :: rest) =
      readString opening budget (.char c :: done) rest := by
  simp [readString, he, hescaped]

theorem readString_unitEscape (opening : List Char) (budget : ℕ) (done : List StringPart) {part : StringPart}
    {escape rest : List Char} (h : readUnitEscape ('u' :: escape) escape = .ok (part, rest)) :
    readString opening (budget + 1) done ('\\' :: 'u' :: escape) =
      readString opening budget (part :: done) rest := by
  simp [readString, h, bind, Except.bind]

/-- Each character of a text is one step of the reader. -/
theorem readString_printChar (opening : List Char) (budget : ℕ) (done : List StringPart) (c : Char)
    (hrest : rest ≠ []) : readString opening (budget + 1) done (printChar c ++ rest) =
      readString opening budget (.char c :: done) rest := by
  have hescape {e : Char} (he : e ≠ 'u') (hescaped : escaped? e = some c) :=
    readString_escape opening budget done he hescaped rest
  have hvalid : c.toNat < 0xD800 ∨ 0xDFFF < c.toNat ∧ c.toNat < 0x110000 := c.valid
  have hchar : Char.ofNat c.toNat = c := Char.ofNat_toNat c
  unfold printChar
  split
  · next h => exact hescape (by decide) (by subst h; rfl)
  next hquote =>
  split
  · next h => exact hescape (by decide) (by subst h; rfl)
  next hbackslash =>
  split
  · next h => exact hescape (by decide) (by subst h; rfl)
  split
  · next h => exact hescape (by decide) (by subst h; rfl)
  split
  · next h => exact hescape (by decide) (by subst h; rfl)
  split
  · next h => exact hescape (by decide) (by subst h; rfl)
  split
  · next h => exact hescape (by decide) (by subst h; rfl)
  dsimp only
  split
  · next hprintable =>
    have hcontrol : ¬ c.toNat ≤ 0x1F := by
      simp only [Bool.and_eq_true, decide_eq_true_eq] at hprintable
      omega
    simp [readString, hquote, hbackslash, hcontrol]
  split
  · next hsmall =>
    have hread := readUnitEscape_single (show c.toNat < 65536 by omega) (by omega) hrest
      ('u' :: (Text.hexDigits 4 c.toNat ++ rest))
    rw [hchar] at hread
    exact readString_unitEscape opening budget done hread
  · next hlarge =>
    have hpair : charOfPair (0xD800 + (c.toNat - 0x10000) / 0x400) (0xDC00 + (c.toNat - 0x10000) % 0x400) = c := by
      have hnumber : 0x10000 + (0xD800 + (c.toNat - 0x10000) / 0x400 - 0xD800) * 0x400 +
          (0xDC00 + (c.toNat - 0x10000) % 0x400 - 0xDC00) = c.toNat := by omega
      unfold charOfPair
      rw [hnumber, hchar]
    have hread (place : List Char) := readUnitEscape_pair
      (show 0xD800 ≤ 0xD800 + (c.toNat - 0x10000) / 0x400 ∧ _ ≤ 0xDBFF by omega)
      (show 0xDC00 ≤ 0xDC00 + (c.toNat - 0x10000) % 0x400 ∧ _ ≤ 0xDFFF by omega) hrest place
    rw [hpair] at hread
    rw [List.append_assoc]
    exact readString_unitEscape opening budget done (hread _)

/-- A text is read up to its closing quote. -/
theorem readString_text (opening : List Char) (chars : List Char) (rest : List Char) {budget : ℕ}
    (hbudget : chars.length < budget) (done : List StringPart) :
    readString opening budget done (chars.flatMap printChar ++ '"' :: rest) =
      .ok (done.reverse ++ chars.map .char, rest) := by
  induction chars generalizing budget done with
  | nil =>
    obtain ⟨budget, rfl⟩ := Nat.exists_eq_succ_of_ne_zero (Nat.ne_of_gt hbudget)
    simp [readString]
  | cons c chars ih =>
    obtain ⟨budget, rfl⟩ := Nat.exists_eq_succ_of_ne_zero (Nat.ne_of_gt (Nat.zero_lt_of_lt hbudget))
    rw [List.flatMap_cons, List.append_assoc, readString_printChar opening budget done c (by simp),
      ih (by simpa using hbudget)]
    simp

theorem printChar_ne_nil (c : Char) : printChar c ≠ [] := by
  unfold printChar
  dsimp only
  repeat' split
  all_goals simp [unitEscape]

theorem length_le_printed (chars : List Char) : chars.length ≤ (chars.flatMap printChar).length := by
  induction chars with
  | nil => simp
  | cons c chars ih =>
    have hpositive := List.length_pos_of_ne_nil (printChar_ne_nil c)
    rw [List.flatMap_cons, List.length_append, List.length_cons]
    omega

/-- A text is read from its quotes. -/
theorem readQuoted_printString (place : List Char) (s : String) (rest : List Char) :
    readQuoted place (s.toList.flatMap printChar ++ '"' :: rest) = .ok (s.toList.map .char, rest) := by
  have hlength := length_le_printed s.toList
  unfold readQuoted
  rw [readString_text]
  · rfl
  · rw [List.length_append]
    omega

theorem ofParts_chars (s : String) : ofParts (s.toList.map .char) = .str s := by
  have hchars (chars : List Char) : (chars.map StringPart.char).mapM StringPart.char? = some chars := by
    induction chars with
    | nil => rfl
    | cons c chars ih => simp [StringPart.char?, ih]
  simp [ofParts, hchars]

theorem textOf_chars (s : String) : StringPart.textOf (s.toList.map .char) = s := by
  simp [StringPart.textOf, Function.comp_def, StringPart.replaced]

/-! ## Numbers -/

/-- What may stand after a value: nothing, or a character between items or at the end of an array or an
object. -/
def Follows (rest : List Char) : Prop :=
  ∀ c ∈ rest.head?, c = ',' ∨ c = ']' ∨ c = '\x7d'

theorem isDigit_of_mem_toDigits {m : ℕ} (h : c ∈ Nat.toDigits 10 m) : isDigit c = true := by
  have hdigit := Nat.isDigit_of_mem_toDigits (by decide) (by decide) h
  simp only [Char.isDigit, ge_iff_le, Bool.and_eq_true, decide_eq_true_eq, UInt32.le_iff_toNat_le] at hdigit
  simpa [isDigit] using hdigit

theorem exists_toDigits (m : ℕ) : ∃ d digits, Nat.toDigits 10 m = d :: digits ∧ isDigit d = true := by
  obtain ⟨d, digits, hcons⟩ := List.exists_cons_of_ne_nil (Nat.toDigits_ne_nil : Nat.toDigits 10 m ≠ [])
  exact ⟨d, digits, hcons, isDigit_of_mem_toDigits (hcons ▸ List.mem_cons_self)⟩

/-- A number other than zero is written without a zero in front. -/
theorem head_toDigits_ne_zero {m : ℕ} (h : m ≠ 0) : (Nat.toDigits 10 m).head? ≠ some '0' := by
  induction m using Nat.base_induction 10 (by decide) with
  | single m hm =>
    rw [Nat.toDigits_of_lt_base hm]
    interval_cases m
    · exact absurd rfl h
    all_goals decide
  | digit m k hk hm ih =>
    rw [← Nat.toDigits_append_toDigits (by decide) hm hk, List.head?_append_of_ne_nil _ Nat.toDigits_ne_nil]
    exact ih (Nat.ne_of_gt hm)

theorem digitsValue_toDigits (m : ℕ) : digitsValue (Nat.toDigits 10 m) = m := by
  have hfold : digitsValue (Nat.toDigits 10 m) = Nat.ofDigitChars 10 (Nat.toDigits 10 m) 0 := by
    simp only [digitsValue, Nat.ofDigitChars_eq_foldl, Nat.mul_comm]
    rfl
  rw [hfold, Nat.ofDigitChars_ten_toDigits]

theorem spanDigits_toDigits (m : ℕ) (hrest : Follows rest) :
    spanDigits (Nat.toDigits 10 m ++ rest) = (Nat.toDigits 10 m, rest) := by
  have hend : rest.takeWhile isDigit = [] ∧ rest.dropWhile isDigit = rest := by
    cases rest with
    | nil => simp
    | cons c rest =>
      have hc : isDigit c = false := by
        rcases hrest c rfl with rfl | rfl | rfl <;> decide
      simp [hc]
  unfold spanDigits
  rw [List.takeWhile_append_of_pos fun _ ↦ isDigit_of_mem_toDigits,
    List.dropWhile_append_of_pos fun _ ↦ isDigit_of_mem_toDigits, hend.1, hend.2, List.append_nil]

theorem wholePart_toDigits (m : ℕ) (hrest : Follows rest) :
    wholePart? (Nat.toDigits 10 m ++ rest) = some (Nat.toDigits 10 m, rest) := by
  by_cases hm : m = 0
  · subst hm
    rfl
  have hspan := spanDigits_toDigits m hrest
  have hhead := head_toDigits_ne_zero hm
  have hdigit := fun c (h : c ∈ Nat.toDigits 10 m) ↦ isDigit_of_mem_toDigits h
  cases hdigits : Nat.toDigits 10 m with
  | nil => exact absurd hdigits Nat.toDigits_ne_nil
  | cons d digits =>
    rw [hdigits] at hspan hhead hdigit
    have hzero : d ≠ '0' := by simpa using hhead
    rw [List.cons_append] at hspan ⊢
    simp only [wholePart?, hzero, if_false, hdigit d List.mem_cons_self, if_true, hspan]

/-- A whole number ends where its digits do. -/
theorem readNumber_int {n : ℤ} (hdigits : n.natAbs.repr.length ≤ digitLimit) (hrest : Follows rest) :
    readNumber ((intText n).toList ++ rest) = .ok (.int n, rest) := by
  have hfraction : fractionPart rest = ([], rest) := by
    unfold fractionPart
    split
    · next more =>
      rcases hrest '.' rfl with h | h | h <;> exact absurd h (by decide)
    · rfl
  have hexponent : exponentPart rest = (none, rest) := by
    cases rest with
    | nil => rfl
    | cons c rest =>
      unfold exponentPart
      have hc : (c = 'e' || c = 'E') = false := by
        rcases hrest c rfl with rfl | rfl | rfl <;> decide
      simp [hc]
  have hlength : ¬ digitLimit < (Nat.toDigits 10 n.natAbs).length := by
    rw [← Nat.toList_repr, String.length_toList]
    exact Nat.not_lt_of_le hdigits
  have hwhole := wholePart_toDigits n.natAbs hrest
  unfold intText
  by_cases hn : n < 0
  · have htext : ("-" ++ n.natAbs.repr).toList ++ rest = '-' :: (Nat.toDigits 10 n.natAbs ++ rest) := by
      simp [String.toList_append]
    rw [if_pos hn, htext]
    simp only [readNumber, hwhole, hfraction, hexponent, hlength, digitsValue_toDigits, List.isEmpty_nil,
      Option.isNone_none, Bool.and_self, if_true, if_false, Except.ok.injEq, Prod.mk.injEq, Json.int.injEq, and_true]
    omega
  · have hsign : ∀ more, Nat.toDigits 10 n.natAbs ++ rest ≠ '-' :: more := by
      intro more heq
      obtain ⟨d, digits, hcons, hd⟩ := exists_toDigits n.natAbs
      rw [hcons] at heq
      cases heq
      exact absurd hd (by decide)
    rw [if_neg hn, Nat.toList_repr]
    unfold readNumber
    split
    next negative unsigned hunsigned =>
    split at hunsigned
    · next more heq => exact absurd heq (hsign more)
    cases hunsigned
    simp only [hwhole, hfraction, hexponent, hlength, digitsValue_toDigits, List.isEmpty_nil,
      Option.isNone_none, Bool.and_self, if_true, if_false, Except.ok.injEq, Prod.mk.injEq, Json.int.injEq, and_true]
    simp
    omega

/-! ## Values -/

/-- A value that is read from its form, whatever follows, with two steps for each character. -/
def Reads (nests : ℕ) (value : Json) : Prop :=
  ∀ budget rest, 2 * (printChars value).length ≤ budget + 1 → Follows rest →
    readValue (budget + 1) nests (printChars value ++ rest) = .ok (value, rest)

/-- A form begins with a character that is no blank and ends no array and no object. -/
def Begins (text : List Char) : Prop :=
  ∃ c more, text = c :: more ∧ isSpace c = false ∧ c ≠ ']' ∧ c ≠ '\x7d'

theorem Begins.append (h : Begins text) (more : List Char) : Begins (text ++ more) := by
  obtain ⟨c, chars, rfl, hc⟩ := h
  exact ⟨c, chars ++ more, rfl, hc⟩

theorem Begins.skipSpace (h : Begins text) : skipSpace text = text := by
  obtain ⟨c, chars, rfl, hc, -⟩ := h
  simp [Json.skipSpace, hc]

/-- A whole number is written with a sign or a digit first. -/
theorem exists_intText (n : ℤ) :
    ∃ c more, (intText n).toList = c :: more ∧ (c = '-' ∨ isDigit c = true) := by
  unfold intText
  split
  · exact ⟨'-', _, by rw [String.toList_append]; rfl, .inl rfl⟩
  · obtain ⟨d, digits, hcons, hd⟩ := exists_toDigits n.natAbs
    exact ⟨d, digits, Nat.toList_repr.trans hcons, .inr hd⟩

theorem ne_of_number {d : Char} (hc : c = '-' ∨ isDigit c = true) (hd : d ≠ '-') (hdigit : isDigit d = false) :
    c ≠ d := by
  rintro rfl
  rcases hc with hc | hc
  · exact hd hc
  · rw [hdigit] at hc
    cases hc

theorem begins_intText (n : ℤ) : Begins (intText n).toList := by
  obtain ⟨c, more, htext, hc⟩ := exists_intText n
  have hne {d : Char} := ne_of_number (d := d) hc
  refine ⟨c, more, htext, ?_, hne (by decide) (by decide), hne (by decide) (by decide)⟩
  simp only [isSpace, Bool.or_eq_false_iff, beq_eq_false_iff_ne]
  exact ⟨⟨⟨hne (by decide) (by decide), hne (by decide) (by decide)⟩, hne (by decide) (by decide)⟩,
    hne (by decide) (by decide)⟩

theorem begins_printChars (h : Storable value) : Begins (printChars value) := by
  cases h with
  | null => exact ⟨'n', _, rfl, by decide⟩
  | bool b => cases b <;> exact ⟨_, _, rfl, by decide⟩
  | int => exact begins_intText _
  | str s => exact ⟨'"', _, rfl, by decide⟩
  | arr => exact ⟨'[', _, rfl, by decide⟩
  | obj => exact ⟨'\x7b', _, rfl, by decide⟩

theorem readWord_of_int (n : ℤ) (rest : List Char) : readWord? ((intText n).toList ++ rest) = none := by
  obtain ⟨d, digits, hcons, hd⟩ := exists_toDigits n.natAbs
  have hletter : ∀ letter ∈ ['n', 't', 'f', 'N', 'I', '-'], letter ≠ d := by
    rintro letter hmem rfl
    have hnone : ∀ letter ∈ ['n', 't', 'f', 'N', 'I', '-'], isDigit letter = false := by
      simp [isDigit]
    rw [hnone letter hmem] at hd
    cases hd
  simp only [List.forall_mem_cons] at hletter
  unfold intText readWord? words
  split
  · simp [String.toList_append, hcons, hletter]
  · simp [hcons, hletter]

theorem reads_null : Reads nests .null :=
  fun _ _ _ _ ↦ rfl

theorem reads_bool (b : Bool) : Reads nests (.bool b) := by
  intro budget rest _ _
  cases b <;> rfl

theorem reads_int {n : ℤ} (hdigits : n.natAbs.repr.length ≤ digitLimit) : Reads nests (.int n) := by
  intro budget rest _ hrest
  have hword := readWord_of_int n rest
  have hnumber := readNumber_int hdigits hrest
  obtain ⟨c, more, htext, hc⟩ := exists_intText n
  rw [htext, List.cons_append] at hword hnumber
  rw [printChars, htext, List.cons_append]
  unfold readValue
  dsimp only
  rw [if_neg (ne_of_number hc (by decide) (by decide)), if_neg (ne_of_number hc (by decide) (by decide)),
    if_neg (ne_of_number hc (by decide) (by decide)), hword]
  exact hnumber

theorem reads_str (s : String) : Reads nests (.str s) := by
  intro budget rest _ _
  have htext : printChars (.str s) ++ rest = '"' :: (s.toList.flatMap printChar ++ '"' :: rest) := by
    simp [printChars, printString]
  rw [htext]
  unfold readValue
  dsimp only
  rw [if_pos rfl, readQuoted_printString]
  dsimp only [bind, Except.bind, pure, Except.pure]
  rw [ofParts_chars]

/-! ## Arrays and objects -/

theorem joinItems_cons_cons (item second : List Char) (items : List (List Char)) :
    joinItems (item :: second :: items) = item ++ ',' :: ' ' :: joinItems (second :: items) := rfl

theorem begins_joinItems {item : List Char} (h : Begins item) (items : List (List Char)) :
    Begins (joinItems (item :: items)) := by
  cases items with
  | nil => exact h
  | cons second items => exact h.append _

theorem skipSpace_blank (h : Begins text) : skipSpace (' ' :: text) = text := by
  have hblank : skipSpace (' ' :: text) = skipSpace text := by simp [skipSpace, isSpace]
  rw [hblank, h.skipSpace]

/-- The items of an array are read one after the other. -/
theorem readItems_of_reads {items : List Json} (hitems : ∀ item ∈ items, Reads nests item)
    (hbegins : ∀ item ∈ items, Begins (printChars item)) (hne : items ≠ []) {budget : ℕ}
    (hbudget : 2 * (joinItems (printItems items)).length ≤ budget + 1) (rest : List Char) :
    readItems (budget + 2) nests (joinItems (printItems items) ++ ']' :: rest) = .ok (items, rest) := by
  induction items generalizing budget with
  | nil => exact absurd rfl hne
  | cons item items ih =>
    have hread := hitems item List.mem_cons_self budget
    cases items with
    | nil =>
      have hitem := hread (']' :: rest) hbudget (by simp [Follows])
      unfold readItems
      change (readValue (budget + 1) nests (printChars item ++ ']' :: rest) >>= _) = _
      rw [hitem]
      rfl
    | cons second items =>
      have hsecond : Begins (joinItems (printItems (second :: items))) :=
        begins_joinItems (hbegins second (.tail _ (.head _))) _
      have hsplit : joinItems (printItems (item :: second :: items)) =
          printChars item ++ ',' :: ' ' :: joinItems (printItems (second :: items)) := rfl
      rw [hsplit, List.length_append, List.length_cons, List.length_cons] at hbudget
      have hitem := hread (',' :: ' ' :: (joinItems (printItems (second :: items)) ++ ']' :: rest)) (by omega)
        (by simp [Follows])
      obtain ⟨budget, rfl⟩ : ∃ more, budget = more + 1 := ⟨budget - 1, by omega⟩
      have hmore := ih (fun item hitem ↦ hitems item (.tail _ hitem))
        (fun item hitem ↦ hbegins item (.tail _ hitem)) (by simp) (show _ ≤ budget + 1 by omega)
      rw [hsplit, List.append_assoc, List.cons_append, List.cons_append]
      unfold readItems
      rw [hitem]
      change (readItems (budget + 2) nests (skipSpace (' ' :: _)) >>= _) = _
      rw [skipSpace_blank (hsecond.append _), hmore]
      rfl

section Fields

variable {name : String} {done : List (String × Json)} {budget : ℕ}

theorem printString_append (name : String) (more : List Char) :
    printString name ++ more = '"' :: (name.toList.flatMap printChar ++ '"' :: more) := by
  simp [printString]

theorem skipSpace_colon (more : List Char) : skipSpace (':' :: more) = ':' :: more := by
  simp [skipSpace, isSpace]

/-- What is read after the value of a field. -/
def afterField (budget nests : ℕ) (fields : List (String × Json)) (text : List Char) :
    Except Fault (List (String × Json) × List Char) :=
  match skipSpace text with
  | '\x7d' :: rest => .ok (fields, rest)
  | ',' :: rest => readFields budget nests fields (skipSpace rest)
  | rest => .error (.mistake .noComma rest)

/-- A field of an object is read up to the end of its value. -/
theorem readFields_field {after : List Char} (hvalue : Reads nests value) (hbegins : Begins (printChars value))
    (hname : name ∉ done.map (·.1)) (hbudget : 2 * (printChars value).length ≤ budget + 1)
    (hafter : Follows after) :
    readFields (budget + 2) nests done (printString name ++ ':' :: ' ' :: (printChars value ++ after)) =
      afterField (budget + 1) nests (done ++ [(name, value)]) after := by
  have hread := hvalue budget after hbudget hafter
  rw [printString_append]
  conv_lhs => unfold readFields
  change (readQuoted _ (name.toList.flatMap printChar ++ '"' :: _) >>= _) = _
  rw [readQuoted_printString]
  simp only [bind, Except.bind, skipSpace_colon, skipSpace_blank (hbegins.append _), hread, textOf_chars,
    setField_of_notMem hname]
  rfl

/-- The fields of an object are read one after the other. -/
theorem readFields_of_reads {fields : List (String × Json)} (hfields : ∀ field ∈ fields, Reads nests field.2)
    (hbegins : ∀ field ∈ fields, Begins (printChars field.2)) (hne : fields ≠ [])
    (hnames : ((done ++ fields).map (·.1)).Nodup)
    (hbudget : 2 * (joinItems (printFields fields)).length ≤ budget + 1) (rest : List Char) :
    readFields (budget + 2) nests done (joinItems (printFields fields) ++ '\x7d' :: rest) =
      .ok (done ++ fields, rest) := by
  induction fields generalizing done budget with
  | nil => exact absurd rfl hne
  | cons field fields ih =>
    obtain ⟨name, value⟩ := field
    have hname : name ∉ done.map (·.1) := by
      rw [List.map_append, List.map_cons] at hnames
      exact fun hmem ↦ (List.nodup_append.mp hnames).2.2 name hmem name List.mem_cons_self rfl
    have hvalue : Reads nests value := hfields _ List.mem_cons_self
    have hfirst : Begins (printChars value) := hbegins _ List.mem_cons_self
    cases fields with
    | nil =>
      have hform : joinItems (printFields [(name, value)]) =
          printString name ++ ':' :: ' ' :: printChars value := rfl
      rw [hform, List.length_append, List.length_cons, List.length_cons] at hbudget
      rw [hform, List.append_assoc, List.cons_append, List.cons_append]
      exact readFields_field hvalue hfirst hname (by omega) (by simp [Follows])
    | cons second fields =>
      have hform : joinItems (printFields ((name, value) :: second :: fields)) =
          printString name ++ ':' :: ' ' :: printChars value ++
            ',' :: ' ' :: joinItems (printFields (second :: fields)) := rfl
      have hsecond : Begins (joinItems (printFields (second :: fields))) :=
        begins_joinItems ⟨'"', _, rfl, by decide⟩ _
      simp only [hform, List.length_append, List.length_cons] at hbudget
      obtain ⟨budget, rfl⟩ : ∃ more, budget = more + 1 := ⟨budget - 1, by omega⟩
      have hmore := ih (fun field hfield ↦ hfields field (.tail _ hfield))
        (fun field hfield ↦ hbegins field (.tail _ hfield)) (by simp)
        (show ((done ++ [(name, value)] ++ (second :: fields)).map (·.1)).Nodup by simpa using hnames)
        (show _ ≤ budget + 1 by omega)
      have hassoc : joinItems (printFields ((name, value) :: second :: fields)) ++ '\x7d' :: rest =
          printString name ++ ':' :: ' ' :: (printChars value ++
            ',' :: ' ' :: (joinItems (printFields (second :: fields)) ++ '\x7d' :: rest)) := by
        simp [hform]
      rw [hassoc, readFields_field hvalue hfirst hname (by omega) (by simp [Follows])]
      change readFields (budget + 2) nests _ (skipSpace (' ' :: _)) = _
      rw [skipSpace_blank (hsecond.append _), hmore]
      simp

end Fields

/-- An array that is not empty is read by its items. -/
theorem readValue_array (budget nests : ℕ) (h : Begins text) :
    readValue (budget + 1) (nests + 1) ('[' :: text) =
      (readItems budget nests text).map fun (items, after) ↦ (.arr items, after) := by
  have hspace := h.skipSpace
  obtain ⟨c, more, rfl, -, hc, -⟩ := h
  unfold readValue
  dsimp only
  rw [if_neg (by decide), if_neg (by decide), if_pos rfl, hspace]
  split
  · next hnone => cases hnone
  · next hclose =>
    cases hclose
    exact absurd rfl hc
  · next hnests _ =>
    cases hnests
    cases readItems budget nests (c :: more) <;> rfl

/-- An object that is not empty is read by its fields. -/
theorem readValue_object (budget nests : ℕ) (h : Begins text) :
    readValue (budget + 1) (nests + 1) ('\x7b' :: text) =
      (readFields budget nests [] text).map fun (fields, after) ↦ (.obj fields, after) := by
  have hspace := h.skipSpace
  obtain ⟨c, more, rfl, -, -, hc⟩ := h
  unfold readValue
  dsimp only
  rw [if_neg (by decide), if_pos rfl, hspace]
  split
  · next hnone => cases hnone
  · next hclose =>
    cases hclose
    exact absurd rfl hc
  · next hnests _ =>
    cases hnests
    cases readFields budget nests [] (c :: more) <;> rfl

theorem begins_printItems {item : Json} (h : Begins (printChars item)) (items : List Json) :
    Begins (joinItems (printItems (item :: items))) :=
  begins_joinItems h _

theorem begins_printFields (field : String × Json) (fields : List (String × Json)) :
    Begins (joinItems (printFields (field :: fields))) :=
  begins_joinItems ⟨'"', _, rfl, by decide⟩ _

theorem reads_arr {items : List Json} (hitems : ∀ item ∈ items, Reads nests item)
    (hbegins : ∀ item ∈ items, Begins (printChars item)) : Reads (nests + 1) (.arr items) := by
  intro budget rest hbudget _
  cases items with
  | nil => rfl
  | cons item items =>
    have hform : printChars (.arr (item :: items)) ++ rest =
        '[' :: (joinItems (printItems (item :: items)) ++ ']' :: rest) := by
      simp [printChars]
    have hlength : (printChars (.arr (item :: items))).length =
        (joinItems (printItems (item :: items))).length + 2 := by
      simp [printChars]
    obtain ⟨budget, rfl⟩ : ∃ more, budget = more + 2 := ⟨budget - 2, by omega⟩
    rw [hform, readValue_array _ _ ((begins_printItems (hbegins item List.mem_cons_self) items).append _),
      readItems_of_reads hitems hbegins (by simp) (by omega)]
    rfl

theorem reads_obj {fields : List (String × Json)} (hfields : ∀ field ∈ fields, Reads nests field.2)
    (hbegins : ∀ field ∈ fields, Begins (printChars field.2)) (hnames : (fields.map (·.1)).Nodup) :
    Reads (nests + 1) (.obj fields) := by
  intro budget rest hbudget _
  cases fields with
  | nil => rfl
  | cons field fields =>
    have hform : printChars (.obj (field :: fields)) ++ rest =
        '\x7b' :: (joinItems (printFields (field :: fields)) ++ '\x7d' :: rest) := by
      simp [printChars]
    have hlength : (printChars (.obj (field :: fields))).length =
        (joinItems (printFields (field :: fields))).length + 2 := by
      simp [printChars]
    obtain ⟨budget, rfl⟩ : ∃ more, budget = more + 2 := ⟨budget - 2, by omega⟩
    rw [hform, readValue_object _ _ ((begins_printFields field fields).append _),
      readFields_of_reads hfields hbegins (by simp) (by simpa using hnames) (by omega)]
    rfl

theorem reads_of_storable (h : Storable value) (hdepth : value.depth ≤ nests) : Reads nests value := by
  induction h generalizing nests with
  | null => exact reads_null
  | bool b => exact reads_bool b
  | int hdigits => exact reads_int hdigits
  | str s => exact reads_str s
  | arr hitems ih =>
    rw [depth] at hdepth
    obtain ⟨nests, rfl⟩ := Nat.exists_eq_succ_of_ne_zero (Nat.ne_zero_of_lt hdepth)
    have hwithin := depthItems_le_iff.mp (Nat.le_of_succ_le_succ hdepth)
    exact reads_arr (fun item hitem ↦ ih item hitem (hwithin item hitem))
      fun item hitem ↦ begins_printChars (hitems item hitem)
  | obj hnames hfields ih =>
    rw [depth] at hdepth
    obtain ⟨nests, rfl⟩ := Nat.exists_eq_succ_of_ne_zero (Nat.ne_zero_of_lt hdepth)
    have hwithin := depthFields_le_iff.mp (Nat.le_of_succ_le_succ hdepth)
    exact reads_obj (fun field hfield ↦ ih field hfield (hwithin field hfield))
      (fun field hfield ↦ begins_printChars (hfields field hfield)) hnames

/-! ## Printable forms -/

/-- A character of printable ASCII. -/
def IsAsciiPrintable (c : Char) : Prop :=
  0x20 ≤ c.toNat ∧ c.toNat ≤ 0x7E

instance : DecidablePred IsAsciiPrintable :=
  fun c ↦ inferInstanceAs (Decidable (0x20 ≤ c.toNat ∧ c.toNat ≤ 0x7E))

theorem printable_of_all {chars : List Char} (h : chars.all (IsAsciiPrintable ·) = true) :
    ∀ c ∈ chars, IsAsciiPrintable c := by
  simpa using h

theorem printable_unitEscape (unit : ℕ) : ∀ c ∈ unitEscape unit, IsAsciiPrintable c := by
  have hdigit {d : ℕ} (h : d < 16) : IsAsciiPrintable (Text.hexDigit d) := by
    interval_cases d <;> decide
  have hdigits (width n : ℕ) : ∀ c ∈ Text.hexDigits width n, IsAsciiPrintable c := by
    induction width generalizing n with
    | zero => exact fun c hc ↦ nomatch hc
    | succ width ih =>
      intro c hc
      rcases List.mem_append.mp hc with hc | hc
      · exact ih _ c hc
      · exact List.mem_singleton.mp hc ▸ hdigit (Nat.mod_lt _ (by decide))
  simp only [unitEscape, List.forall_mem_cons]
  exact ⟨by decide, by decide, hdigits 4 unit⟩

theorem printable_printChar (c : Char) : ∀ d ∈ printChar c, IsAsciiPrintable d := by
  unfold printChar
  dsimp only
  -- the escapes with one letter
  repeat (split; · exact printable_of_all rfl)
  split
  · next hprintable =>
    intro d hd
    rw [List.mem_singleton.mp hd]
    simpa only [IsAsciiPrintable, Bool.and_eq_true, decide_eq_true_eq] using hprintable
  split
  · exact printable_unitEscape _
  · exact fun d hd ↦ (List.mem_append.mp hd).elim (printable_unitEscape _ d) (printable_unitEscape _ d)

theorem printable_printString (s : String) : ∀ c ∈ printString s, IsAsciiPrintable c := by
  have hquote : IsAsciiPrintable '"' := by decide
  intro c hc
  simp only [printString, List.cons_append, List.mem_cons, List.mem_append, List.mem_flatMap, List.not_mem_nil,
    or_false] at hc
  obtain rfl | ⟨d, -, hd⟩ | rfl := hc
  · exact hquote
  · exact printable_printChar d c hd
  · exact hquote

theorem printable_intText (n : ℤ) : ∀ c ∈ (intText n).toList, IsAsciiPrintable c := by
  have hdigits : ∀ c ∈ n.natAbs.repr.toList, IsAsciiPrintable c := by
    rw [Nat.toList_repr]
    intro c hc
    have hdigit := isDigit_of_mem_toDigits hc
    simp only [isDigit, Bool.and_eq_true, decide_eq_true_eq] at hdigit
    exact ⟨by omega, by omega⟩
  unfold intText
  split
  · rw [String.toList_append]
    exact fun c hc ↦ (List.mem_append.mp hc).elim (fun hc ↦ List.mem_singleton.mp hc ▸ by decide) (hdigits c)
  · exact hdigits

theorem printItems_eq_map (items : List Json) : printItems items = items.map printChars := by
  induction items with
  | nil => rfl
  | cons item items ih => rw [printItems, ih, List.map_cons]

theorem printFields_eq_map (fields : List (String × Json)) :
    printFields fields = fields.map fun field ↦ printString field.1 ++ ':' :: ' ' :: printChars field.2 := by
  induction fields with
  | nil => rfl
  | cons field fields ih => rw [printFields, ih, List.map_cons]

theorem printable_joinItems {items : List (List Char)} (h : ∀ item ∈ items, ∀ c ∈ item, IsAsciiPrintable c) :
    ∀ c ∈ joinItems items, IsAsciiPrintable c := by
  induction items with
  | nil => exact fun c hc ↦ nomatch hc
  | cons item items ih =>
    have hitem := h item List.mem_cons_self
    cases items with
    | nil => exact hitem
    | cons second items =>
      have hmore := ih fun item hmem ↦ h item (.tail _ hmem)
      rw [joinItems_cons_cons]
      simp only [List.forall_mem_append, List.forall_mem_cons]
      exact ⟨hitem, by decide, by decide, hmore⟩

/-- The form of a value is printable ASCII. -/
theorem printable_printChars (h : Storable value) : ∀ c ∈ printChars value, IsAsciiPrintable c := by
  have hclosed {inside : List Char} {first last : Char} (hfirst : IsAsciiPrintable first)
      (hinside : ∀ c ∈ inside, IsAsciiPrintable c) (hlast : IsAsciiPrintable last) :
      ∀ c ∈ first :: inside ++ [last], IsAsciiPrintable c := by
    simp only [List.cons_append, List.forall_mem_cons, List.forall_mem_append]
    exact ⟨hfirst, hinside, hlast, fun c hc ↦ nomatch hc⟩
  induction h with
  | null => exact printable_of_all rfl
  | bool b => cases b <;> exact printable_of_all rfl
  | int => exact printable_intText _
  | str s => exact printable_printString s
  | arr _ ih =>
    refine hclosed (by decide) (printable_joinItems ?_) (by decide)
    rw [printItems_eq_map]
    exact List.forall_mem_map.mpr ih
  | obj _ _ ih =>
    refine hclosed (by decide) (printable_joinItems ?_) (by decide)
    rw [printFields_eq_map]
    refine List.forall_mem_map.mpr fun field hfield ↦ ?_
    simp only [List.forall_mem_append, List.forall_mem_cons]
    exact ⟨printable_printString _, by decide, by decide, ih field hfield⟩

/-! ## Documents -/

/-- A value that is nested no deeper than may be is read back from its form. -/
theorem parseWithin_printChars (h : Storable value) (hdepth : value.depth ≤ nests) :
    parseWithin nests (printChars value) = .ok value := by
  have hbegins := begins_printChars h
  have hread := reads_of_storable h hdepth (2 * (printChars value).length + 1) [] (by omega) (by simp [Follows])
  have hmark : ∀ more, printChars value ≠ '\uFEFF' :: more := by
    intro more hmarked
    have hmark := printable_printChars h '\uFEFF' (hmarked ▸ List.mem_cons_self)
    exact absurd hmark (by decide)
  have hdocument : readDocument nests (printChars value) = .ok value := by
    rw [List.append_nil] at hread
    unfold readDocument
    split
    · next hmarked => exact absurd hmarked (hmark _)
    · rw [hbegins.skipSpace, hread]
      rfl
  rw [parseWithin, hdocument]

/-- A value is read back from its form exactly if it is nested no deeper than may be. -/
theorem parseWithin_printChars_iff (h : Storable value) :
    parseWithin nests (printChars value) = .ok value ↔ value.depth ≤ nests :=
  ⟨depth_le_of_parseWithin, parseWithin_printChars h⟩

end DeferredOps.Json
