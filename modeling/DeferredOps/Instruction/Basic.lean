import DeferredOps.Text.Blank

/-!
# Instructions

One line of an instruction file, read: a comment, a deletion, a command to run, or a move under a
policy for what is already there.
-/

namespace DeferredOps

/-- What a move does with an existing destination. -/
inductive OverwritePolicy
  /-- Replace it. -/
  | replace
  /-- Keep it, and merge directories. -/
  | merge
  deriving DecidableEq, Repr

/-- What a line asks for. -/
inductive Directive
  | comment (text : String)
  | delete (target : String)
  | execute (commandLine : String)
  | move (source destination : String) (policy : OverwritePolicy)
  deriving DecidableEq, Repr

/-- A directive and the number of its line. -/
structure Instruction where
  directive : Directive
  lineNumber : Int
  deriving DecidableEq, Repr

/-- A line that is no instruction, as it was read. -/
structure InstructionError where
  line : String
  lineNumber : Int
  deriving DecidableEq, Repr

/-- The wording of the refusal. -/
def InstructionError.message (e : InstructionError) : String :=
  "Unknown file handling instruction: " ++ e.line

/-- A directive in one line, for people. -/
def Directive.describe : Directive → String
  | .comment text => "comment  " ++ text
  | .delete target => "delete   " ++ target
  | .execute commandLine => "execute  " ++ Text.trimmed commandLine
  | .move source destination policy =>
    let mode := match policy with
      | .replace => "replace"
      | .merge => "merge"
    "move     " ++ source ++ " -> " ++ destination ++ " (" ++ mode ++ ")"

/-- The operands of a directive that are paths or patterns. -/
def Directive.operands : Directive → List String
  | .delete target => [target]
  | .move source destination _ => [source, destination]
  | .comment _ | .execute _ => []

/-- Whether a directive is a comment. -/
def Directive.isComment : Directive → Bool
  | .comment _ => true
  | _ => false

end DeferredOps
