import DeferredOps.Text.Printable

/-!
# Quoted literals

The form in which messages show a text exactly: in single quotes, or in double quotes when the
text holds a single quote and no double quote, with escapes for the quote, the backslash and every
character that is not printable.
-/

namespace DeferredOps.Text

/-- The digit of a number below sixteen, in lower case. -/
def hexDigit (n : Nat) : Char :=
  if n < 10 then Char.ofNat (48 + n) else Char.ofNat (87 + n)

/-- The lower-case hexadecimal digits of a number, exactly as many as asked for. -/
def hexDigits : (width : Nat) → Nat → List Char
  | 0, _ => []
  | width + 1, n => hexDigits width (n / 16) ++ [hexDigit (n % 16)]

/-- The quote around a literal: single, unless the text holds only the single one. -/
def literalQuote (text : List Char) : Char :=
  if text.contains '\'' && !text.contains '"' then '"' else '\''

/-- A character that is not printable is written by its code point, in the shortest of the three
forms that hold it. -/
def codePointEscape (c : Char) : List Char :=
  let n := c.toNat
  if n ≤ 0xFF then '\\' :: 'x' :: hexDigits 2 n
  else if n ≤ 0xFFFF then '\\' :: 'u' :: hexDigits 4 n
  else '\\' :: 'U' :: hexDigits 8 n

/-- One character of a literal with the given quote. -/
def literalChar (quote c : Char) : List Char :=
  if c = quote || c = '\\' then ['\\', c]
  else if c = '\n' then ['\\', 'n']
  else if c = '\r' then ['\\', 'r']
  else if c = '\t' then ['\\', 't']
  else if isPrintable c then [c]
  else codePointEscape c

/-- The text as a quoted literal. -/
def literal (text : String) : String :=
  let quote := literalQuote text.toList
  String.ofList (quote :: text.toList.flatMap (literalChar quote) ++ [quote])

end DeferredOps.Text
