import DeferredOps.Environment
import DeferredOps.Instruction.Basic
import DeferredOps.Instruction.Operators

/-!
# Reading instructions

The first character of a line tells its kind: `#` a comment, `<` a deletion, `@` a command. Any
other line is a move, split at its operator: at the only unquoted `>`, or else at the only unquoted
`)`. Operands are cleaned and must not be empty.
-/

namespace DeferredOps.Instruction

/-- The operator of a move: where it stands, and the policy that it means. -/
def operator? (line : List Char) : Option (Nat × OverwritePolicy) :=
  let scan := OperatorScan.ofLine line
  if scan.replace.count = 1 then scan.replace.last.map (·, .replace)
  else if scan.merge.count = 1 then scan.merge.last.map (·, .merge)
  else none

/-- Read a move. -/
def parseMove? (env : Environment) (line : List Char) : Option Directive := do
  let (position, policy) ← operator? line
  let source := env.normalizeChars (line.take position)
  let destination := env.normalizeChars (line.drop (position + 1))
  if source.isEmpty || destination.isEmpty then none
  else some (.move (String.ofList source) (String.ofList destination) policy)

/-- Read a line that has been trimmed. -/
def parseTrimmed? (env : Environment) (line : List Char) : Option Directive :=
  match line with
  | [] => none
  | c :: rest =>
    if c = '#' then some (.comment (String.ofList line))
    else if c = '<' then
      let target := env.normalizeChars rest
      if target.isEmpty then none else some (.delete (String.ofList target))
    else if c = '@' then some (.execute (String.ofList rest))
    else parseMove? env line

/-- A line without its end and without the blanks at its front. -/
def trimLine (line : List Char) : List Char :=
  Text.trimStart (Text.dropEndWhile Text.isLineEnd line)

/-- Number what was read from a line, or refuse the line. -/
def numbered (line : List Char) (lineNumber : Int) (read : Option Directive) :
    Except InstructionError Instruction :=
  match read with
  | some directive => .ok ⟨directive, lineNumber⟩
  | none => .error ⟨String.ofList line, lineNumber⟩

/-- Read the instruction of a line. -/
def parse (env : Environment) (lineNumber : Int) (line : String) :
    Except InstructionError Instruction :=
  let line := trimLine line.toList
  numbered line lineNumber (parseTrimmed? env line)

/-- Read the instruction of a line that is known to be a move, just as it is written. -/
def parseMove (env : Environment) (lineNumber : Int) (line : String) :
    Except InstructionError Instruction :=
  numbered line.toList lineNumber (parseMove? env line.toList)

end DeferredOps.Instruction
