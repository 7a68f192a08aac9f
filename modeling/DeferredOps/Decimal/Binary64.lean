/-!
# Floating-point numbers of sixty-four bits

The values of the IEEE 754 format with 53 significant bits, kept as a whole number times a power
of two. A decimal is read as the nearest value, a tie going to the even neighbour. A value is
written with the fewest digits that read back as it, and of these with the digits nearest to it.
-/

namespace DeferredOps

/-- A number of the format, or its not-a-number value. -/
inductive Binary64
  | nan
  | infinite (negative : Bool)
  /-- The value `significand * 2 ^ exponent`, with the sign apart. -/
  | finite (negative : Bool) (significand : Nat) (exponent : Int)
  deriving DecidableEq, Repr

namespace Binary64

/-- The number of bits of a significand. -/
def precision : Nat := 53

/-- The exponent of the smallest positive value. -/
def leastExponent : Int := -1074

/-- The exponent of the largest finite values. -/
def greatestExponent : Int := 971

/-- The power of two above the greatest finite value. -/
def bound : Rat :=
  (2 : Rat) ^ (greatestExponent + precision)

/-- The zero of either sign. -/
def zero (negative : Bool) : Binary64 :=
  .finite negative 0 leastExponent

/-- The whole number nearest to a fraction, a tie going to the even one. -/
def roundEven (q : Rat) : Nat :=
  let below := q.floor.toNat
  let rest := q - below
  if rest < 1 / 2 then below
  else if 1 / 2 < rest then below + 1
  else below + below % 2

/-- The exponent at which a positive fraction has a significand of full precision, or the least
exponent if that is greater. -/
def exponentOf (q : Rat) : Int :=
  let guess := max ((q.num.toNat.log2 : Int) - (q.den.log2 : Int) - precision) leastExponent
  if (2 : Rat) ^ precision ≤ q / (2 : Rat) ^ guess then guess + 1 else guess

/-- The value nearest to a fraction that is not negative, with the given sign. -/
def ofRat (negative : Bool) (q : Rat) : Binary64 :=
  if q = 0 then zero negative
  else
    let exponent := exponentOf q
    let significand := roundEven (q / (2 : Rat) ^ exponent)
    let (significand, exponent) :=
      if significand = Nat.pow 2 precision then (Nat.pow 2 (precision - 1), exponent + 1)
      else (significand, exponent)
    if greatestExponent < exponent then .infinite negative
    else .finite negative significand exponent

/-- The value nearest to `digits * 10 ^ exponent`. Decimals far outside the format's range are
told by their number of digits alone. -/
def ofDecimal (negative : Bool) (digits : Nat) (exponent : Int) : Binary64 :=
  let magnitude : Int := digits.repr.length + exponent
  if digits = 0 || magnitude < -400 then zero negative
  else if 400 < magnitude then .infinite negative
  else ofRat negative (digits * (10 : Rat) ^ exponent)

/-- The value nearest to a fraction of either sign. -/
def nearest (q : Rat) : Binary64 :=
  if q < 0 then ofRat true (-q) else ofRat false q

/-- Whether a number is finite. -/
def isFinite : Binary64 → Bool
  | .finite .. => true
  | _ => false

/-- The exact value of a finite number without its sign, and zero for the others. -/
def magnitude : Binary64 → Rat
  | .finite _ significand exponent => significand * (2 : Rat) ^ exponent
  | _ => 0

/-- The exact value of a finite number, and zero for the others. -/
def toRat : Binary64 → Rat
  | .finite negative significand exponent =>
    let q := significand * (2 : Rat) ^ exponent
    if negative then -q else q
  | _ => 0

/-- The fractions that read as one positive finite number: an interval whose ends belong to it or
not. -/
structure Reading where
  low : Rat
  high : Rat
  closed : Bool

/-- The reading interval of a significand and an exponent. Below a power of two the neighbour is
nearer than above; the ends belong to an even significand. -/
def reading (significand : Nat) (exponent : Int) : Reading :=
  let value := significand * (2 : Rat) ^ exponent
  let half := (2 : Rat) ^ (exponent - 1)
  let halfBelow :=
    if significand = Nat.pow 2 (precision - 1) && leastExponent < exponent then half / 2 else half
  ⟨value - halfBelow, value + half, significand % 2 == 0⟩

/-- Whether a fraction lies in the interval. -/
def Reading.mem (r : Reading) (q : Rat) : Bool :=
  if r.closed then r.low ≤ q && q ≤ r.high else r.low < q && q < r.high

/-- The exponent of the first decimal digit of a positive fraction that is at least `10 ^ -400`. -/
def decimalExponent (q : Rat) : Int :=
  ((q * (10 : Rat) ^ (400 : Int)).floor.toNat.repr.length : Int) - 401

/-- A decimal `digits * 10 ^ exponent`. -/
structure Decimal where
  digits : Nat
  exponent : Int
  deriving DecidableEq, Repr

/-- A decimal without zeros at the end of its digits, as far as `most` of them. -/
def Decimal.trimmed : (most : Nat) → Decimal → Decimal
  | 0, d => d
  | most + 1, d =>
    if d.digits % 10 = 0 then Decimal.trimmed most ⟨d.digits / 10, d.exponent + 1⟩ else d

/-- Of the two neighbours of a fraction among the multiples of a power of ten, the nearest one
that lies in the interval; the even one of two that are equally near. -/
def nearestOnGrid (r : Reading) (q : Rat) (exponent : Int) : Option Decimal :=
  let unit := (10 : Rat) ^ exponent
  let below := (q / unit).floor.toNat
  let above := below + 1
  let candidate (n : Nat) : Decimal := ⟨n, exponent⟩
  match r.mem (below * unit), r.mem (above * unit) with
  | true, true => some (candidate (roundEven (q / unit)))
  | true, false => some (candidate below)
  | false, true => some (candidate above)
  | false, false => none

/-- The first grid, from coarse to fine, that has a multiple in the interval. Seventeen digits
always suffice, so the search is given that many tries. -/
def shortestFrom (r : Reading) (q : Rat) (exponent : Int) : (tries : Nat) → Decimal
  | 0 => ⟨(q / (10 : Rat) ^ exponent).floor.toNat, exponent⟩
  | tries + 1 => (nearestOnGrid r q exponent).getD (shortestFrom r q (exponent - 1) tries)

/-- The shortest decimal that reads as a positive finite number. -/
def shortest (significand : Nat) (exponent : Int) : Decimal :=
  let q := significand * (2 : Rat) ^ exponent
  (shortestFrom (reading significand exponent) q (decimalExponent q) 17).trimmed 17

/-! ## Text -/

/-- Numbers are written positionally from this place of the point on. -/
def leastPoint : Int := -3

/-- Numbers are written positionally up to this place of the point. -/
def greatestPoint : Int := 16

/-- An exponent has a sign and at least two digits. -/
def exponentText (exponent : Int) : String :=
  let digits := exponent.natAbs.repr
  (if exponent < 0 then "e-" else "e+") ++ (if digits.length < 2 then "0" else "") ++ digits

/-- A run of zeros. -/
def zeros (count : Nat) : String :=
  String.ofList (List.replicate count '0')

/-- Write digits with the point after `point` of them: positionally, with a digit on both sides of
the point, or with an exponent when the point is far away. -/
def pointedText (digits : String) (point : Int) : String :=
  let ds := digits.toList
  if point < leastPoint || greatestPoint < point then
    match ds with
    | [] => ""
    | d :: rest =>
      String.ofList (d :: (if rest.isEmpty then [] else '.' :: rest)) ++ exponentText (point - 1)
  else if point ≤ 0 then "0." ++ zeros (-point).toNat ++ digits
  else
    let n := point.toNat
    if ds.length ≤ n then digits ++ zeros (n - ds.length) ++ ".0"
    else String.ofList (ds.take n) ++ "." ++ String.ofList (ds.drop n)

/-- The shortest text of a number that reads back as it. -/
def text : Binary64 → String
  | .nan => "nan"
  | .infinite negative => if negative then "-inf" else "inf"
  | .finite negative significand exponent =>
    let body :=
      if significand = 0 then "0.0"
      else
        let d := shortest significand exponent
        let digits := d.digits.repr
        pointedText digits (digits.length + d.exponent)
    if negative then "-" ++ body else body

end Binary64

end DeferredOps
