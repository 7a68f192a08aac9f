import DeferredOps.Decimal.Binary64
import DeferredOps.Text.Literal

/-!
# JSON values

Values with the fields of an object in the order in which their names first came. Numbers without
a fraction and an exponent are whole numbers of any size. A string can also be written with halves of
surrogate pairs that stand alone; it is no text then, and is kept by its parts.
-/

namespace DeferredOps

/-- A part of a string: a character, or half of a surrogate pair. -/
inductive StringPart
  | char (c : Char)
  | half (unit : Nat)
  deriving DecidableEq, Repr

namespace StringPart

/-- The character of a part that is one. -/
def char? : StringPart → Option Char
  | .char c => some c
  | .half _ => none

/-- The character in place of a part where there can be nothing else. -/
def replaced : StringPart → Char
  | .char c => c
  | .half _ => '\uFFFD'

/-- The text of parts, with replacements for those that are no characters. -/
def textOf (parts : List StringPart) : String :=
  String.ofList (parts.map replaced)

end StringPart

/-- A JSON value. -/
inductive Json
  | null
  | bool (b : Bool)
  | int (n : Int)
  | float (x : Binary64)
  | str (s : String)
  /-- A string that is no text, by its parts. -/
  | broken (parts : List StringPart)
  | arr (items : List Json)
  | obj (fields : List (String × Json))
  deriving Repr

namespace Json

/-- The string with these parts. -/
def ofParts (parts : List StringPart) : Json :=
  match parts.mapM StringPart.char? with
  | some chars => .str (String.ofList chars)
  | none => .broken parts

/-- The text of a string; with replacements if it is none. -/
def text? : Json → Option String
  | .str s => some s
  | .broken parts => some (StringPart.textOf parts)
  | _ => none

/-- The value of a field. -/
def field? (fields : List (String × Json)) (name : String) : Option Json :=
  fields.lookup name

/-- Give a field a value: the last value wins, the first place stays. -/
def setField (fields : List (String × Json)) (name : String) (value : Json) :
    List (String × Json) :=
  match fields with
  | [] => [(name, value)]
  | (other, old) :: rest =>
    if other = name then (name, value) :: rest else (other, old) :: setField rest name value

/-- The field of an object; `none` also for the other values. -/
def get? : Json → String → Option Json
  | .obj fields, name => field? fields name
  | _, _ => none

/-- Whether a value counts as given: not null, false, zero or empty. -/
def isGiven : Json → Bool
  | .null => false
  | .bool b => b
  | .int n => n != 0
  | .float (.finite _ significand _) => significand != 0
  | .float _ => true
  | .str s => s != ""
  | .broken parts => !parts.isEmpty
  | .arr items => !items.isEmpty
  | .obj fields => !fields.isEmpty

/-- The number that a value is; 0 for the values that are none. -/
def number : Json → Rat
  | .int n => n
  | .float x => x.toRat
  | _ => 0

/-- The name of a value's kind in messages. -/
def kindName : Json → String
  | .null => "NoneType"
  | .bool _ => "bool"
  | .int _ => "int"
  | .float _ => "float"
  | .str _ | .broken _ => "str"
  | .arr _ => "list"
  | .obj _ => "dict"

/-- The wording of a refusal to turn a whole number into one with a fraction. -/
def outOfRangeText : String := "int too large to convert to float"

/-! ## Literals -/

/-- The text of a whole number. -/
def intText (n : Int) : String :=
  if n < 0 then "-" ++ n.natAbs.repr else n.natAbs.repr

/-- A part of a string in a literal with the given quote. -/
def partLiteral (quote : Char) : StringPart → List Char
  | .char c => Text.literalChar quote c
  | .half unit => '\\' :: 'u' :: Text.hexDigits 4 unit

/-- The literal of a string by its parts. -/
def partsLiteral (parts : List StringPart) : String :=
  let quote := Text.literalQuote (parts.filterMap StringPart.char?)
  String.ofList (quote :: parts.flatMap (partLiteral quote) ++ [quote])

mutual

/-- The form in which messages show a value exactly. -/
def literal : Json → String
  | .null => "None"
  | .bool b => if b then "True" else "False"
  | .int n => intText n
  | .float x => x.text
  | .str s => Text.literal s
  | .broken parts => partsLiteral parts
  | .arr items => "[" ++ ", ".intercalate (literals items) ++ "]"
  | .obj fields => "\x7b" ++ ", ".intercalate (fieldLiterals fields) ++ "\x7d"

/-- The literals of the items of an array. -/
def literals : List Json → List String
  | [] => []
  | item :: rest => literal item :: literals rest

/-- The literals of the fields of an object. -/
def fieldLiterals : List (String × Json) → List String
  | [] => []
  | (name, value) :: rest => (Text.literal name ++ ": " ++ literal value) :: fieldLiterals rest

end

/-- The form in which messages show a value plainly: a string as it is, the others as literals. -/
def plain : Json → String
  | .str s => s
  | .broken parts => StringPart.textOf parts
  | value => value.literal

end Json

end DeferredOps
