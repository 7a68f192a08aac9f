import DeferredOps.Text.Utf8
import Mathlib.Data.List.Basic
import Mathlib.Tactic.IntervalCases

/-!
# Texts are read back from their bytes

The stored form of a character is one that the reader takes a single step for, whatever stands after
it. So the bytes of a text have no ill-formed run and are read as the text, and a byte below 128 stands
in them only for the character with that number.
-/

namespace DeferredOps.Utf8

variable {c : Char} {b : UInt8} {text : List Char} {bytes rest : Bytes}

/-! ## One character -/

/-- The byte that continues a character with the six lowest bits of a number. -/
def continuation (n : ℕ) : UInt8 :=
  .ofNat (n % 64 + 128)

theorem toNat_continuation (n : ℕ) : (continuation n).toNat = n % 64 + 128 := by
  simp only [continuation, UInt8.toNat_ofNat']
  omega

theorem continuation_within {n : ℕ} {low high : UInt8} (hlow : low.toNat ≤ n % 64 + 128)
    (hhigh : n % 64 + 128 ≤ high.toNat) :
    (decide (low ≤ continuation n) && decide (continuation n ≤ high)) = true := by
  rw [Bool.and_eq_true, decide_eq_true_eq, decide_eq_true_eq, UInt8.le_iff_toNat_le,
    UInt8.le_iff_toNat_le, toNat_continuation]
  exact ⟨hlow, hhigh⟩

theorem readMore_continuation (more done bits n : ℕ) (rest : Bytes) :
    readMore (more + 1) done bits (continuation n :: rest) =
      readMore more (done + 1) (bits * 64 + n % 64) rest := by
  have hwithin : isContinuation (continuation n) := by
    apply continuation_within
    · change 128 ≤ _
      omega
    · change _ ≤ 191
      omega
  rw [readMore, if_pos hwithin, toNat_continuation, Nat.add_sub_cancel]

/-- A character is read from a first byte that announces it, a second byte in the announced range, and
further bytes that are read as they come. -/
theorem step_lead {lead : Lead} {n : ℕ} (hbyte : 128 ≤ b.toNat) (hlead : lead? b = some lead)
    (hlow : lead.low.toNat ≤ n % 64 + 128) (hhigh : n % 64 + 128 ≤ lead.high.toNat) (rest : Bytes) :
    step b (continuation n :: rest) = readMore lead.more 2 (lead.bits * 64 + n % 64) rest := by
  have hlarge : ¬ b < 0x80 := by
    rw [UInt8.lt_iff_toNat_lt]
    change ¬ b.toNat < 128
    omega
  unfold step
  rw [if_neg hlarge, hlead]
  dsimp only
  rw [if_pos (continuation_within hlow hhigh), toNat_continuation, Nat.add_sub_cancel]

theorem lead?_two {k : ℕ} (hlow : 2 ≤ k) (hhigh : k < 32) :
    lead? (.ofNat (k + 192)) = some ⟨k, 0x80, 0xBF, 0⟩ := by
  interval_cases k <;> rfl

theorem lead?_three {k : ℕ} (hhigh : k < 16) :
    lead? (.ofNat (k + 224)) =
      some ⟨k, if k = 0 then 0xA0 else 0x80, if k = 13 then 0x9F else 0xBF, 1⟩ := by
  interval_cases k <;> rfl

theorem lead?_four {k : ℕ} (hhigh : k ≤ 4) :
    lead? (.ofNat (k + 240)) =
      some ⟨k, if k = 0 then 0x90 else 0x80, if k = 4 then 0x8F else 0xBF, 2⟩ := by
  interval_cases k <;> rfl

theorem toNat_ofNat_of_lt {n : ℕ} (h : n < 256) : (UInt8.ofNat n).toNat = n := by
  rw [UInt8.toNat_ofNat', Nat.mod_eq_of_lt h]

/-- A character below 128 is stored as its number. -/
theorem step_one {n : ℕ} (h : n ≤ 127) (rest : Bytes) :
    step (.ofNat n) rest = .char (Char.ofNat n) rest := by
  have hbyte : (UInt8.ofNat n).toNat = n := toNat_ofNat_of_lt (by omega)
  have hsmall : UInt8.ofNat n < 0x80 := by
    rw [UInt8.lt_iff_toNat_lt, hbyte]
    change n < 128
    omega
  unfold step
  rw [if_pos hsmall, hbyte]

theorem step_two {n : ℕ} (hlow : 128 ≤ n) (hhigh : n ≤ 2047) (rest : Bytes) :
    step (.ofNat (n / 64 % 32 + 192)) (continuation n :: rest) = .char (Char.ofNat n) rest := by
  have hbyte : (UInt8.ofNat (n / 64 % 32 + 192)).toNat = n / 64 % 32 + 192 :=
    toNat_ofNat_of_lt (by omega)
  have hlead : lead? (.ofNat (n / 64 % 32 + 192)) = some ⟨n / 64 % 32, 0x80, 0xBF, 0⟩ :=
    lead?_two (by omega) (by omega)
  have hbits : n / 64 % 32 * 64 + n % 64 = n := by omega
  rw [step_lead (by omega) hlead, readMore, hbits]
  · change 128 ≤ _
    omega
  · change _ ≤ 191
    omega

/-- A second byte below the usual range would make a longer form than needed, and one above it a
surrogate. -/
theorem step_three {n : ℕ} (hlow : 2048 ≤ n) (hhigh : n ≤ 65535)
    (hvalid : n < 0xD800 ∨ 0xDFFF < n) (rest : Bytes) :
    step (.ofNat (n / 4096 % 16 + 224)) (continuation (n / 64) :: continuation n :: rest) =
      .char (Char.ofNat n) rest := by
  have hbyte : (UInt8.ofNat (n / 4096 % 16 + 224)).toNat = n / 4096 % 16 + 224 :=
    toNat_ofNat_of_lt (by omega)
  have hlead := lead?_three (show n / 4096 % 16 < 16 by omega)
  have hbits : (n / 4096 % 16 * 64 + n / 64 % 64) * 64 + n % 64 = n := by omega
  rw [step_lead (by omega) hlead]
  · dsimp only
    rw [readMore_continuation, readMore, hbits]
  · dsimp only
    split
    · change 160 ≤ _
      omega
    · change 128 ≤ _
      omega
  · dsimp only
    split
    · change _ ≤ 159
      omega
    · change _ ≤ 191
      omega

/-- A second byte below the usual range would make a longer form than needed, and one above it a
number that is too large. -/
theorem step_four {n : ℕ} (hlow : 65536 ≤ n) (hhigh : n < 0x110000) (rest : Bytes) :
    step (.ofNat (n / 262144 % 8 + 240))
        (continuation (n / 4096) :: continuation (n / 64) :: continuation n :: rest) =
      .char (Char.ofNat n) rest := by
  have hbyte : (UInt8.ofNat (n / 262144 % 8 + 240)).toNat = n / 262144 % 8 + 240 :=
    toNat_ofNat_of_lt (by omega)
  have hlead := lead?_four (show n / 262144 % 8 ≤ 4 by omega)
  have hbits : ((n / 262144 % 8 * 64 + n / 4096 % 64) * 64 + n / 64 % 64) * 64 + n % 64 = n := by
    omega
  rw [step_lead (by omega) hlead]
  · dsimp only
    rw [readMore_continuation, readMore_continuation, readMore, hbits]
  · dsimp only
    split
    · change 144 ≤ _
      omega
    · change 128 ≤ _
      omega
  · dsimp only
    split
    · change _ ≤ 143
      omega
    · change _ ≤ 191
      omega

/-! ## Texts -/

theorem encode_append (text more : List Char) : encode (text ++ more) = encode text ++ encode more :=
  List.flatMap_append

/-- The bytes in which the character with a number is stored. -/
def stored (n : ℕ) : Bytes :=
  if n ≤ 127 then [.ofNat n]
  else if n ≤ 2047 then [.ofNat (n / 64 % 32 + 192), continuation n]
  else if n ≤ 65535 then [.ofNat (n / 4096 % 16 + 224), continuation (n / 64), continuation n]
  else [.ofNat (n / 262144 % 8 + 240), continuation (n / 4096), continuation (n / 64),
    continuation n]

theorem utf8EncodeChar_eq (c : Char) : String.utf8EncodeChar c = stored c.toNat := rfl

theorem pieces_cons_of_char (h : step b bytes = .char c rest) :
    pieces (b :: bytes) = .char c :: pieces rest := by
  rw [pieces]
  split
  · next heq =>
    cases heq.symm.trans h
    rfl
  · next heq => cases heq.symm.trans h

theorem pieces_stored_append (c : Char) (rest : Bytes) :
    pieces (stored c.toNat ++ rest) = .char c :: pieces rest := by
  have hvalid : c.toNat < 0xD800 ∨ 0xDFFF < c.toNat ∧ c.toNat < 0x110000 := c.valid
  have hchar : Char.ofNat c.toNat = c := Char.ofNat_toNat c
  generalize c.toNat = n at hvalid hchar
  unfold stored
  split_ifs with hone htwo hthree <;> apply pieces_cons_of_char <;> rw [← hchar]
  · exact step_one hone rest
  · exact step_two (by omega) htwo rest
  · exact step_three (by omega) hthree (by omega) rest
  · exact step_four (by omega) (by omega) rest

/-- The characters of a text are read from its bytes, and then what stands after them. -/
theorem pieces_encode_append (text : List Char) (rest : Bytes) :
    pieces (encode text ++ rest) = text.map .char ++ pieces rest := by
  induction text with
  | nil => rfl
  | cons c text ih =>
    calc pieces (encode (c :: text) ++ rest)
        = pieces (stored c.toNat ++ (encode text ++ rest)) := by
          rw [encode, List.flatMap_cons, utf8EncodeChar_eq, List.append_assoc]
          rfl
      _ = .char c :: pieces (encode text ++ rest) := pieces_stored_append c _
      _ = (c :: text).map .char ++ pieces rest := by rw [ih, List.map_cons, List.cons_append]

@[simp]
theorem pieces_nil : pieces [] = [] := by
  rw [pieces]

@[simp]
theorem pieces_encode (text : List Char) : pieces (encode text) = text.map .char := by
  have h := pieces_encode_append text []
  rwa [List.append_nil, pieces_nil, List.append_nil] at h

@[simp]
theorem decodeReplacing_encode (text : List Char) : decodeReplacing (encode text) = text := by
  unfold decodeReplacing
  rw [pieces_encode, List.map_map]
  exact List.map_id text

theorem decode_encode (text : List Char) : decode (encode text) = .ok text := by
  have hpieces (offset : ℕ) : textOfPieces offset (text.map .char) = .ok text := by
    induction text generalizing offset with
    | nil => rfl
    | cons c text ih => rw [List.map_cons, textOfPieces, ih, Except.map]
  unfold decode
  rw [pieces_encode]
  exact hpieces 0

/-! ## Small bytes -/

theorem eq_of_mem_stored {n : ℕ} (hb : b ∈ stored n) (hsmall : b.toNat < 128) : b.toNat = n := by
  have hcontinuation (m : ℕ) : b ≠ continuation m := by
    intro h
    rw [h, toNat_continuation] at hsmall
    omega
  have hlead {m : ℕ} (hlow : 128 ≤ m) (hhigh : m < 256) : b ≠ .ofNat m := by
    intro h
    rw [h, toNat_ofNat_of_lt hhigh] at hsmall
    omega
  unfold stored at hb
  split_ifs at hb with hone
  · rw [List.mem_singleton.mp hb]
    exact toNat_ofNat_of_lt (by omega)
  all_goals
    simp only [List.mem_cons, List.not_mem_nil, or_false, hcontinuation] at hb
    exact absurd hb (hlead (by omega) (by omega))

/-- A byte below 128 stands in the bytes of a text only for the character with its number. -/
theorem mem_of_mem_encode (hb : b ∈ encode text) (hsmall : b.toNat < 128) :
    Char.ofNat b.toNat ∈ text := by
  obtain ⟨c, hc, hmem⟩ := List.mem_flatMap.mp hb
  have hnumber : b.toNat = c.toNat := eq_of_mem_stored hmem hsmall
  rw [hnumber, Char.ofNat_toNat]
  exact hc

/-! ## Byte-order marks -/

theorem encode_byteOrderMark : encode ['\uFEFF'] = byteOrderMark := by
  decide

/-- Bytes that start with a byte-order mark are read from after it. -/
@[simp]
theorem dropByteOrderMark_marked (bytes : Bytes) :
    dropByteOrderMark (byteOrderMark ++ bytes) = bytes := by
  unfold dropByteOrderMark
  split
  · next h =>
    have hlength := (List.isPrefixOf_iff_prefix.mp h).length_le
    rw [List.length_append] at hlength
    exact (List.length_eq_zero_iff.mp (by omega)).symm
  · rw [if_pos (List.isPrefixOf_iff_prefix.mpr (List.prefix_append _ _))]
    rfl

theorem head?_of_encode_append (h : encode text ++ rest = encode [c] ++ bytes) :
    text = [] ∨ text.head? = some c := by
  have hpieces := congrArg pieces h
  rw [pieces_encode_append, pieces_encode_append] at hpieces
  cases text with
  | nil => exact .inl rfl
  | cons d text =>
    simp only [List.map_cons, List.cons_append, List.cons.injEq, Piece.char.injEq] at hpieces
    rw [hpieces.1]
    exact .inr rfl

/-- A text that does not begin with the mark's character keeps all its bytes. -/
theorem dropByteOrderMark_encode (h : text.head? ≠ some '\uFEFF') :
    dropByteOrderMark (encode text) = encode text := by
  unfold dropByteOrderMark
  rw [← encode_byteOrderMark]
  split
  · next hprefix =>
    obtain ⟨rest, hrest⟩ := List.isPrefixOf_iff_prefix.mp hprefix
    have hend : encode text ++ rest = encode ['\uFEFF'] ++ [] := by rw [hrest, List.append_nil]
    rw [(head?_of_encode_append hend).resolve_right h]
    rfl
  split
  · next hprefix =>
    obtain ⟨rest, hrest⟩ := List.isPrefixOf_iff_prefix.mp hprefix
    have hend : encode text ++ [] = encode ['\uFEFF'] ++ rest := by rw [hrest, List.append_nil]
    rcases head?_of_encode_append hend with rfl | hhead
    · rfl
    · exact absurd hhead h
  · rfl

end DeferredOps.Utf8
