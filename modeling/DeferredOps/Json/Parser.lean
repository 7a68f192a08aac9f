import DeferredOps.Json.Basic
import DeferredOps.Text.Blank

/-!
# Reading JSON

A reader that accepts the standard form, and NaN, Infinity and -Infinity as numbers. Each part of
the reader returns what it read together with the text after it; a fault carries the text that
stands where it was found, from which its line and column follow. The readers of values and of the
items of arrays and objects go on under a budget of steps; two for each character and two more
are always enough. Arrays and objects may lie within each other only so deep.
-/

namespace DeferredOps.Json

/-- What is wrong with a text that is no JSON. -/
inductive Mistake
  | byteOrderMark
  | noValue
  | noName
  | noColon
  | noComma
  | extraData
  | unterminated
  | controlCharacter
  | unknownEscape
  | badUnitEscape
  deriving DecidableEq, Repr

/-- The wording of a mistake. -/
def Mistake.text : Mistake → String
  | .byteOrderMark => "Unexpected UTF-8 BOM (decode using utf-8-sig)"
  | .noValue => "Expecting value"
  | .noName => "Expecting property name enclosed in double quotes"
  | .noColon => "Expecting ':' delimiter"
  | .noComma => "Expecting ',' delimiter"
  | .extraData => "Extra data"
  | .unterminated => "Unterminated string starting at"
  | .controlCharacter => "Invalid control character at"
  | .unknownEscape => "Invalid \\escape"
  | .badUnitEscape => "Invalid \\uXXXX escape"

/-- The values that hold others. -/
inductive Nest
  | array
  | object
  deriving DecidableEq, Repr

/-- The name of such a value in messages. -/
def Nest.name : Nest → String
  | .array => "array"
  | .object => "object"

/-- The most arrays and objects within each other. -/
def nestLimit : Nat := 988

/-- Why reading stopped, with the text from the place of the mistake on. -/
inductive Fault
  | mistake (kind : Mistake) (place : List Char)
  /-- An array or object within too many others. -/
  | tooDeep (nest : Nest)
  /-- A whole number with more digits than can be read. -/
  | tooManyDigits (count : Nat)

/-- The blanks between the parts of a value. -/
def isSpace (c : Char) : Bool :=
  c == ' ' || c == '\t' || c == '\n' || c == '\r'

/-- The text from its first character that is no blank. -/
def skipSpace (text : List Char) : List Char :=
  text.dropWhile isSpace

/-! ## Strings -/

/-- The value of a hexadecimal digit. -/
def hexValue? (c : Char) : Option Nat :=
  let n := c.toNat
  if 48 ≤ n && n ≤ 57 then some (n - 48)
  else if 97 ≤ n && n ≤ 102 then some (n - 87)
  else if 65 ≤ n && n ≤ 70 then some (n - 55)
  else none

/-- The number that four hexadecimal digits write. -/
def unit? : List Char → Option Nat
  | [a, b, c, d] => do
    let a ← hexValue? a
    let b ← hexValue? b
    let c ← hexValue? c
    let d ← hexValue? d
    return ((a * 16 + b) * 16 + c) * 16 + d
  | _ => none

/-- The character that an escape with one letter stands for. -/
def escaped? (c : Char) : Option Char :=
  if c = '"' || c = '\\' || c = '/' then some c
  else if c = 'b' then some '\x08'
  else if c = 'f' then some '\x0c'
  else if c = 'n' then some '\n'
  else if c = 'r' then some '\r'
  else if c = 't' then some '\t'
  else none

/-- The first half of a surrogate pair. -/
def isHighSurrogate (unit : Nat) : Bool :=
  0xD800 ≤ unit && unit ≤ 0xDBFF

/-- The second half of a surrogate pair. -/
def isLowSurrogate (unit : Nat) : Bool :=
  0xDC00 ≤ unit && unit ≤ 0xDFFF

/-- The part of a string that a number stands for on its own. -/
def partOfUnit (unit : Nat) : StringPart :=
  if isHighSurrogate unit || isLowSurrogate unit then .half unit else .char (Char.ofNat unit)

/-- The character of a surrogate pair. -/
def charOfPair (high low : Nat) : Char :=
  Char.ofNat (0x10000 + (high - 0xD800) * 0x400 + (low - 0xDC00))

/-- Read the part of a string of an escape by number, from after its letter; `place` is the text from the
letter on. At least one character has to follow the digits. -/
def readUnitEscape (place text : List Char) : Except Fault (StringPart × List Char) :=
  if (text.drop 4).isEmpty then .error (.mistake .badUnitEscape place)
  else match unit? (text.take 4) with
    | none => .error (.mistake .badUnitEscape place)
    | some unit =>
      let rest := text.drop 4
      match rest with
      | '\\' :: 'u' :: more =>
        if isHighSurrogate unit && !(rest.drop 6).isEmpty then
          match unit? (more.take 4) with
          | none => .error (.mistake .badUnitEscape ('u' :: more))
          | some second =>
            if isLowSurrogate second then .ok (.char (charOfPair unit second), more.drop 4)
            else .ok (partOfUnit unit, rest)
        else .ok (partOfUnit unit, rest)
      | _ => .ok (partOfUnit unit, rest)

/-- Read the rest of a string, up to its closing quote; `opening` is the text from the opening
quote on, `done` the parts read so far in reverse. -/
def readString (opening : List Char) : (budget : Nat) → (done : List StringPart) → List Char →
    Except Fault (List StringPart × List Char)
  | 0, _, _ => .error (.mistake .unterminated opening)
  | _ + 1, _, [] => .error (.mistake .unterminated opening)
  | budget + 1, done, c :: rest =>
    if c = '"' then .ok (done.reverse, rest)
    else if c = '\\' then
      match rest with
      | [] => .error (.mistake .unterminated opening)
      | e :: more =>
        if e = 'u' then do
          let (d, after) ← readUnitEscape rest more
          readString opening budget (d :: done) after
        else match escaped? e with
          | some d => readString opening budget (.char d :: done) more
          | none => .error (.mistake .unknownEscape (c :: rest))
    else if c.toNat ≤ 0x1F then .error (.mistake .controlCharacter (c :: rest))
    else readString opening budget (.char c :: done) rest

/-! ## Numbers -/

/-- A decimal digit. -/
def isDigit (c : Char) : Bool :=
  48 ≤ c.toNat && c.toNat ≤ 57

/-- The number that a run of decimal digits writes. -/
def digitsValue (digits : List Char) : Nat :=
  digits.foldl (fun n c ↦ n * 10 + (c.toNat - 48)) 0

/-- The longest run of digits at the front, and the text after it. -/
def spanDigits (text : List Char) : List Char × List Char :=
  (text.takeWhile isDigit, text.dropWhile isDigit)

/-- The digits of the whole part: a single zero, or a run that starts with another digit. -/
def wholePart? : List Char → Option (List Char × List Char)
  | [] => none
  | c :: rest =>
    if c = '0' then some (['0'], rest)
    else if isDigit c then some (spanDigits (c :: rest))
    else none

/-- The digits after a point; none if no digit follows it. -/
def fractionPart : List Char → List Char × List Char
  | '.' :: rest =>
    let (digits, after) := spanDigits rest
    if digits.isEmpty then ([], '.' :: rest) else (digits, after)
  | text => ([], text)

/-- The exponent with its sign; none if no digit follows. -/
def exponentPart (text : List Char) : Option Int × List Char :=
  match text with
  | [] => (none, text)
  | c :: rest =>
    if c = 'e' || c = 'E' then
      let (negative, unsigned) :=
        match rest with
        | '-' :: more => (true, more)
        | '+' :: more => (false, more)
        | _ => (false, rest)
      let (digits, after) := spanDigits unsigned
      if digits.isEmpty then (none, text)
      else
        let n : Int := digitsValue digits
        (some (if negative then -n else n), after)
    else (none, text)

/-- The most digits that a whole number may have. -/
def digitLimit : Nat := 4300

/-- Read a number. -/
def readNumber (place : List Char) : Except Fault (Json × List Char) :=
  let (negative, unsigned) :=
    match place with
    | '-' :: rest => (true, rest)
    | _ => (false, place)
  match wholePart? unsigned with
  | none => .error (.mistake .noValue place)
  | some (whole, rest) =>
    let (fraction, rest) := fractionPart rest
    let (exponent, rest) := exponentPart rest
    if fraction.isEmpty && exponent.isNone then
      if digitLimit < whole.length then .error (.tooManyDigits whole.length)
      else
        let n : Int := digitsValue whole
        .ok (.int (if negative then -n else n), rest)
    else
      let digits := digitsValue (whole ++ fraction)
      .ok (.float (.ofDecimal negative digits (exponent.getD 0 - fraction.length)), rest)

/-! ## Values -/

/-- The words that stand for values. -/
def words : List (List Char × Json) :=
  [("null".toList, .null), ("true".toList, .bool true), ("false".toList, .bool false),
    ("NaN".toList, .float .nan), ("Infinity".toList, .float (.infinite false)),
    ("-Infinity".toList, .float (.infinite true))]

/-- A word at the front of a text, and the text after it. -/
def readWord? (text : List Char) : Option (Json × List Char) :=
  words.findSome? fun (word, value) ↦
    if word.isPrefixOf text then some (value, text.drop word.length) else none

/-- Read a string whose opening quote is the first character. -/
def readQuoted (place rest : List Char) : Except Fault (List StringPart × List Char) :=
  readString place (rest.length + 1) [] rest

mutual

/-- Read a value; `nests` more arrays and objects may be opened in it. -/
def readValue : (budget nests : Nat) → List Char → Except Fault (Json × List Char)
  | 0, _, text => .error (.mistake .noValue text)
  | budget + 1, nests, text =>
    match text with
    | [] => .error (.mistake .noValue text)
    | c :: rest =>
      if c = '"' then do
        let (parts, after) ← readQuoted text rest
        return (ofParts parts, after)
      else if c = '\x7b' then
        match nests, skipSpace rest with
        | 0, _ => .error (.tooDeep .object)
        | _ + 1, '\x7d' :: after => .ok (.obj [], after)
        | nests + 1, inside => do
          let (fields, after) ← readFields budget nests [] inside
          return (.obj fields, after)
      else if c = '[' then
        match nests, skipSpace rest with
        | 0, _ => .error (.tooDeep .array)
        | _ + 1, ']' :: after => .ok (.arr [], after)
        | nests + 1, inside => do
          let (items, after) ← readItems budget nests inside
          return (.arr items, after)
      else match readWord? text with
        | some found => .ok found
        | none => readNumber text

/-- Read the items of an array, up to its closing bracket. -/
def readItems : (budget nests : Nat) → List Char → Except Fault (List Json × List Char)
  | 0, _, text => .error (.mistake .noValue text)
  | budget + 1, nests, text => do
    let (item, after) ← readValue budget nests text
    match skipSpace after with
    | ']' :: rest => return ([item], rest)
    | ',' :: rest =>
      let (items, after) ← readItems budget nests (skipSpace rest)
      return (item :: items, after)
    | rest => .error (.mistake .noComma rest)

/-- Read the fields of an object, up to its closing brace, after those already read. -/
def readFields : (budget nests : Nat) → (done : List (String × Json)) → List Char →
    Except Fault (List (String × Json) × List Char)
  | 0, _, _, text => .error (.mistake .noName text)
  | budget + 1, nests, done, text => do
    match text with
    | '"' :: rest =>
      let (name, after) ← readQuoted text rest
      match skipSpace after with
      | ':' :: rest =>
        let (value, after) ← readValue budget nests (skipSpace rest)
        let fields := setField done (StringPart.textOf name) value
        match skipSpace after with
        | '\x7d' :: rest => return (fields, rest)
        | ',' :: rest => readFields budget nests fields (skipSpace rest)
        | rest => .error (.mistake .noComma rest)
      | rest => .error (.mistake .noColon rest)
    | _ => .error (.mistake .noName text)

end

/-! ## Documents -/

/-- A mistake with its place in the text: the characters before it, its line and its column, both
from one. -/
structure Misplaced where
  kind : Mistake
  offset : Nat
  line : Nat
  column : Nat
  deriving DecidableEq, Repr

/-- Why a document could not be read. -/
inductive Refusal
  | misplaced (place : Misplaced)
  | tooDeep (nest : Nest)
  | tooManyDigits (count : Nat)
  deriving DecidableEq, Repr

/-- The place of a mistake after the given characters. -/
def Misplaced.after (kind : Mistake) (before : List Char) : Misplaced where
  kind := kind
  offset := before.length
  line := before.count '\n' + 1
  column := (before.reverse.takeWhile (· ≠ '\n')).length + 1

/-- The wording of a mistake with its place. -/
def Misplaced.text (m : Misplaced) : String :=
  m.kind.text ++ ": line " ++ m.line.repr ++ " column " ++ m.column.repr ++ " (char " ++
    m.offset.repr ++ ")"

/-- The wording of a refusal for the depth of a value. -/
def tooDeepText (nest : Nest) : String :=
  "maximum recursion depth exceeded while decoding a JSON " ++ nest.name ++
    " from a unicode string"

/-- The wording of a refusal for the number of digits. -/
def tooManyDigitsText (count : Nat) : String :=
  "Exceeds the limit (" ++ digitLimit.repr ++ " digits) for integer string conversion: value has " ++
    count.repr ++ " digits; use sys.set_int_max_str_digits() to increase the limit"

/-- Read a value with nothing but blanks around it, with at most `nests` arrays and objects within
each other. -/
def readDocument (nests : Nat) (text : List Char) : Except Fault Json := do
  match text with
  | '\uFEFF' :: _ => throw (.mistake .byteOrderMark text)
  | _ =>
    let (value, after) ← readValue (2 * text.length + 2) nests (skipSpace text)
    match skipSpace after with
    | [] => return value
    | rest => throw (.mistake .extraData rest)

/-- Read a document with at most `nests` arrays and objects within each other, saying where a
mistake stands. -/
def parseWithin (nests : Nat) (text : List Char) : Except Refusal Json :=
  match readDocument nests text with
  | .ok value => .ok value
  | .error (.mistake kind place) =>
    .error (.misplaced (.after kind (text.take (text.length - place.length))))
  | .error (.tooDeep nest) => .error (.tooDeep nest)
  | .error (.tooManyDigits count) => .error (.tooManyDigits count)

/-- Read a document. -/
def parse (text : List Char) : Except Refusal Json :=
  parseWithin nestLimit text

end DeferredOps.Json
