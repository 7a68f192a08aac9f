import DeferredOps.Text.Blank

/-!
# Whole numbers in texts

A whole number as people write it: blanks around it, a sign, and decimal digits of any script, with
single underscores between them.
-/

namespace DeferredOps.Decimal

/-- The zeros of the scripts that have decimal digits in Unicode 14; the other nine follow each. -/
def zeros : List Nat := [
    0x30, 0x660, 0x6F0, 0x7C0, 0x966, 0x9E6, 0xA66, 0xAE6, 0xB66, 0xBE6, 0xC66, 0xCE6, 0xD66,
    0xDE6, 0xE50, 0xED0, 0xF20, 0x1040, 0x1090, 0x17E0, 0x1810, 0x1946, 0x19D0, 0x1A80, 0x1A90,
    0x1B50, 0x1BB0, 0x1C40, 0x1C50, 0xA620, 0xA8D0, 0xA900, 0xA9D0, 0xA9F0, 0xAA50, 0xABF0,
    0xFF10, 0x104A0, 0x10D30, 0x11066, 0x110F0, 0x11136, 0x111D0, 0x112F0, 0x11450, 0x114D0,
    0x11650, 0x116C0, 0x11730, 0x118E0, 0x11950, 0x11C50, 0x11D50, 0x11DA0, 0x16A60, 0x16AC0,
    0x16B50, 0x1D7CE, 0x1D7D8, 0x1D7E2, 0x1D7EC, 0x1D7F6, 0x1E140, 0x1E2F0, 0x1E950, 0x1FBF0]

/-- The value of a decimal digit. -/
def digit? (c : Char) : Option Nat :=
  (zeros.find? fun start ↦ start ≤ c.toNat && c.toNat < start + 10).map (c.toNat - ·)

/-- The most digits that a number may have. -/
def digitLimit : Nat := 4300

/-- The blanks around a number; the information separators are none here. -/
def isSurrounding (c : Char) : Bool :=
  Text.isBlank c && !(0x1C ≤ c.toNat && c.toNat ≤ 0x1F)

/-- The value of digits with single underscores between them, given the value and the number of
those before, at least one. -/
def digitsFrom (value count : Nat) : List Char → Option (Nat × Nat)
  | [] => some (value, count)
  | '_' :: c :: rest => do digitsFrom (value * 10 + (← digit? c)) (count + 1) rest
  | c :: rest => do digitsFrom (value * 10 + (← digit? c)) (count + 1) rest

/-- The value of digits with single underscores between them. -/
def digits? : List Char → Option Nat
  | [] => none
  | c :: rest => do
    let (value, count) ← digitsFrom (← digit? c) 1 rest
    if digitLimit < count then none else some value

/-- Read a whole number. -/
def whole? (text : String) : Option Int :=
  match Text.dropEndWhile isSurrounding (text.toList.dropWhile isSurrounding) with
  | '-' :: digits => (digits? digits).map fun n ↦ -(n : Int)
  | '+' :: digits => (digits? digits).map fun n ↦ (n : Int)
  | digits => (digits? digits).map fun n ↦ (n : Int)

end DeferredOps.Decimal
