import DeferredOps.Text.Blank

/-!
# Environment references

Operands may refer to variables in two ways: `%NAME%`, and `$NAME` or with the name in braces after
the dollar sign. Each way has a reader that cuts a text into single characters and references; the
expansion puts a variable's value in place of its reference and leaves a reference to an unknown
variable as it is written. The two ways are expanded one after the other, the first way first, so
the second reader also sees the values that the first expansion put in.
-/

namespace DeferredOps

/-- The variables that are set, by name. -/
structure Environment where
  values : List (String × String)
  deriving Repr

namespace Environment

/-- The environment with no variable. -/
def empty : Environment := ⟨[]⟩

/-- The value of a variable. -/
def value? (env : Environment) (name : String) : Option String :=
  env.values.lookup name

/-- A piece of a text: a character that is no part of a reference, or a reference. -/
inductive Piece
  | char (c : Char)
  /-- A reference: the name between its marks, given together with the marks. -/
  | reference (opening name closing : List Char)
  deriving DecidableEq, Repr

/-- A piece as it is written. -/
def Piece.written : Piece → List Char
  | .char c => [c]
  | .reference opening name closing => opening ++ name ++ closing

/-- A piece with the value of a known variable in place of its reference. -/
def Piece.expanded (env : Environment) : Piece → List Char
  | .char c => [c]
  | .reference opening name closing =>
    match env.value? (String.ofList name) with
    | some value => value.toList
    | none => opening ++ name ++ closing

/-- Put the pieces of a text together, with the values of known variables. -/
def substitute (env : Environment) (pieces : List Piece) : List Char :=
  pieces.flatMap (Piece.expanded env)

/-- The pieces of a text in which references start with a mark; `reference?` finds the one that goes
on with the text after a mark. -/
def piecesAfter (mark : Char) (reference? : List Char → Option Piece) : List Char → List Piece
  | [] => []
  | c :: rest =>
    match if c = mark then reference? rest else none with
    | some piece =>
      piece :: piecesAfter mark reference? (rest.drop (piece.written.length - 1))
    | none => .char c :: piecesAfter mark reference? rest
  termination_by text => text.length
  decreasing_by
    · simp only [List.length_drop, List.length_cons]
      omega
    · simp

/-! ## References between percent signs -/

/-- The characters of a name between percent signs. -/
def isPercentNameChar (c : Char) : Bool :=
  c ≠ '%' && !Text.isBlank c

/-- The reference that starts after a percent sign, if there is one. -/
def percentReference? (text : List Char) : Option Piece :=
  let name := text.takeWhile isPercentNameChar
  if !name.isEmpty && (text.drop name.length).head? = some '%' then
    some (.reference ['%'] name ['%'])
  else none

/-- The pieces of a text with references between percent signs. -/
def percentPieces : List Char → List Piece :=
  piecesAfter '%' percentReference?

/-! ## References after a dollar sign -/

/-- The first character of a name without braces. -/
def isNameStart (c : Char) : Bool :=
  let n := c.toNat
  (65 ≤ n && n ≤ 90) || (97 ≤ n && n ≤ 122) || c == '_'

/-- The further characters of a name without braces. -/
def isNameChar (c : Char) : Bool :=
  isNameStart c || (48 ≤ c.toNat && c.toNat ≤ 57)

/-- The reference that starts after a dollar sign, if there is one. -/
def dollarReference? : List Char → Option Piece
  | [] => none
  | c :: rest =>
    if c = '\x7b' then
      let name := rest.takeWhile (· ≠ '\x7d')
      if !name.isEmpty && (rest.drop name.length).head? = some '\x7d' then
        some (.reference ['$', '\x7b'] name ['\x7d'])
      else none
    else if isNameStart c then some (.reference ['$'] (c :: rest.takeWhile isNameChar) [])
    else none

/-- The pieces of a text with references after dollar signs. -/
def dollarPieces : List Char → List Piece :=
  piecesAfter '$' dollarReference?

/-! ## Expansion -/

/-- Expand the references of a text. -/
def expandChars (env : Environment) (text : List Char) : List Char :=
  substitute env (dollarPieces (substitute env (percentPieces text)))

/-- Expand the references of a string. -/
def expand (env : Environment) (text : String) : String :=
  String.ofList (expandChars env text.toList)

/-- A text without a pair of double quotes that surrounds it. -/
def unquote (text : List Char) : List Char :=
  if 2 ≤ text.length && text.head? = some '"' && text.getLast? = some '"' then
    (text.drop 1).dropLast
  else text

/-- Clean an operand: trim it, take off one pair of surrounding quotes, and expand it. -/
def normalizeChars (env : Environment) (operand : List Char) : List Char :=
  expandChars env (unquote (Text.trim operand))

/-- Clean an operand. -/
def normalize (env : Environment) (operand : String) : String :=
  String.ofList (normalizeChars env operand.toList)

end Environment

end DeferredOps
