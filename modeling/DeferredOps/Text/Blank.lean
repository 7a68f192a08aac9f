/-!
# Blank characters

The characters that are trimmed around operands and lines. The set is the Unicode white space
together with the four information separators U+001C to U+001F.
-/

namespace DeferredOps.Text

/-- Unicode white space and the information separators. -/
def isBlank (c : Char) : Bool :=
  let n := c.toNat
  (9 ≤ n && n ≤ 13) || (28 ≤ n && n ≤ 32) || n == 0x85 || n == 0xA0 || n == 0x1680 ||
    (0x2000 ≤ n && n ≤ 0x200A) || n == 0x2028 || n == 0x2029 || n == 0x202F || n == 0x205F ||
    n == 0x3000

/-- The characters that end a line. -/
def isLineEnd (c : Char) : Bool :=
  c == '\n' || c == '\r'

/-- Drop the longest run at the end whose characters satisfy the test. -/
def dropEndWhile (test : Char → Bool) (text : List Char) : List Char :=
  (text.reverse.dropWhile test).reverse

/-- Drop the blank characters at the front. -/
def trimStart (text : List Char) : List Char :=
  text.dropWhile isBlank

/-- Drop the blank characters at both ends. -/
def trim (text : List Char) : List Char :=
  dropEndWhile isBlank (trimStart text)

/-- Drop the blank characters at both ends of a string. -/
def trimmed (text : String) : String :=
  String.ofList (trim text.toList)

/-- A string with no character outside the blank ones. -/
def isBlankText (text : String) : Bool :=
  text.toList.all isBlank

/-- Whether the second text occurs in the first as a run of neighbouring characters. -/
def contains (text part : List Char) : Bool :=
  part.isPrefixOf text ||
    match text with
    | [] => false
    | _ :: rest => contains rest part

/-- The text before the first separator and the pieces that follow, never empty. -/
def splitOn (separator : Char) : List Char → List (List Char)
  | [] => [[]]
  | c :: rest =>
    if c = separator then [] :: splitOn separator rest
    else match splitOn separator rest with
      | [] => [[c]]
      | piece :: pieces => (c :: piece) :: pieces

end DeferredOps.Text
