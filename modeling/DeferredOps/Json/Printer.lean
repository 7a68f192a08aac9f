import DeferredOps.Json.Basic

/-!
# Writing JSON

The one-line form of a value, in printable ASCII alone: a comma and a blank between items, a colon
and a blank after a name, and every other character as one escape or, above U+FFFF, as the escapes
of its surrogate pair.
-/

namespace DeferredOps.Json

/-- The escape of a number below 65536. -/
def unitEscape (unit : Nat) : List Char :=
  '\\' :: 'u' :: Text.hexDigits 4 unit

/-- One character within a string. -/
def printChar (c : Char) : List Char :=
  if c = '"' then ['\\', '"']
  else if c = '\\' then ['\\', '\\']
  else if c = '\n' then ['\\', 'n']
  else if c = '\r' then ['\\', 'r']
  else if c = '\t' then ['\\', 't']
  else if c = '\x08' then ['\\', 'b']
  else if c = '\x0c' then ['\\', 'f']
  else
    let n := c.toNat
    if 0x20 ≤ n && n ≤ 0x7E then [c]
    else if n ≤ 0xFFFF then unitEscape n
    else unitEscape (0xD800 + (n - 0x10000) / 0x400) ++ unitEscape (0xDC00 + (n - 0x10000) % 0x400)

/-- A string with its quotes. -/
def printString (s : String) : List Char :=
  '"' :: s.toList.flatMap printChar ++ ['"']

/-- One part of a string. -/
def printPart : StringPart → List Char
  | .char c => printChar c
  | .half unit => unitEscape unit

/-- A floating-point number; the three values that are no numbers have names. -/
def printFloat : Binary64 → String
  | .nan => "NaN"
  | .infinite negative => if negative then "-Infinity" else "Infinity"
  | x => x.text

/-- Texts with a comma and a blank between them. -/
def joinItems : List (List Char) → List Char
  | [] => []
  | [item] => item
  | item :: rest => item ++ ',' :: ' ' :: joinItems rest

mutual

/-- The characters of a value's one-line form. -/
def printChars : Json → List Char
  | .null => "null".toList
  | .bool b => (if b then "true" else "false").toList
  | .int n => (intText n).toList
  | .float x => (printFloat x).toList
  | .str s => printString s
  | .broken parts => '"' :: parts.flatMap printPart ++ ['"']
  | .arr items => '[' :: joinItems (printItems items) ++ [']']
  | .obj fields => '\x7b' :: joinItems (printFields fields) ++ ['\x7d']

/-- The forms of the items of an array. -/
def printItems : List Json → List (List Char)
  | [] => []
  | item :: rest => printChars item :: printItems rest

/-- The forms of the fields of an object. -/
def printFields : List (String × Json) → List (List Char)
  | [] => []
  | (name, value) :: rest =>
    (printString name ++ ':' :: ' ' :: printChars value) :: printFields rest

end

/-- The one-line form of a value. -/
def print (value : Json) : String :=
  String.ofList (printChars value)

end DeferredOps.Json
