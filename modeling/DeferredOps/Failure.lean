import DeferredOps.Instruction.Basic
import DeferredOps.Json.Parser
import DeferredOps.Path.Wildcard
import DeferredOps.Text.Utf8

/-!
# Failures

Everything that can stop an operation, by its cause. The failures that the file system and the
command runner report are told apart from the others: an instruction that meets one of them has
failed and the next one goes on, while the others end the run.
-/

namespace DeferredOps

/-- The errors of the file system. -/
inductive SystemError
  | noEntry
  | busy
  | fileExists
  | notDirectory
  | isDirectory
  | invalidArgument
  | nameTooLong
  | notEmpty
  | tooManyLinks
  deriving DecidableEq, Repr

namespace SystemError

/-- The number of an error. -/
def number : SystemError → Nat
  | .noEntry => 2
  | .busy => 16
  | .fileExists => 17
  | .notDirectory => 20
  | .isDirectory => 21
  | .invalidArgument => 22
  | .nameTooLong => 36
  | .notEmpty => 39
  | .tooManyLinks => 40

/-- The wording of an error. -/
def text : SystemError → String
  | .noEntry => "No such file or directory"
  | .busy => "Device or resource busy"
  | .fileExists => "File exists"
  | .notDirectory => "Not a directory"
  | .isDirectory => "Is a directory"
  | .invalidArgument => "Invalid argument"
  | .nameTooLong => "File name too long"
  | .notEmpty => "Directory not empty"
  | .tooManyLinks => "Too many levels of symbolic links"

/-- Whether an error says that a path leads nowhere, which a question about the path answers with
no. The others are reported even by questions. -/
def meansAbsent : SystemError → Bool
  | .noEntry | .notDirectory | .tooManyLinks => true
  | _ => false

end SystemError

/-! ## Failures of commands -/

/-- A failure that the command runner reported: its kind, whether that is one of the operating
system's kinds, and the values that came with it. -/
structure ExternalFailure where
  kind : String
  isSystem : Bool
  arguments : List Json
  deriving Repr

namespace ExternalFailure

/-- The kinds of the operating system's failures. -/
def systemKinds : List String :=
  ["OSError", "IOError", "EnvironmentError", "BlockingIOError", "ChildProcessError",
    "ConnectionError", "BrokenPipeError", "ConnectionAbortedError", "ConnectionRefusedError",
    "ConnectionResetError", "FileExistsError", "FileNotFoundError", "InterruptedError",
    "IsADirectoryError", "NotADirectoryError", "PermissionError", "ProcessLookupError",
    "TimeoutError", "Error", "SameFileError", "SpecialFileError", "ExecError", "ReadError"]

/-- The particular kind of a general failure with an error number. -/
def kindOfNumber? (n : Int) : Option String :=
  if n = 2 then some "FileNotFoundError"
  else if n = 17 then some "FileExistsError"
  else if n = 1 || n = 13 then some "PermissionError"
  else if n = 20 then some "NotADirectoryError"
  else if n = 21 then some "IsADirectoryError"
  else if n = 3 then some "ProcessLookupError"
  else if n = 4 then some "InterruptedError"
  else if n = 10 then some "ChildProcessError"
  else if n = 11 || n = 114 || n = 115 then some "BlockingIOError"
  else if n = 32 || n = 108 then some "BrokenPipeError"
  else if n = 103 then some "ConnectionAbortedError"
  else if n = 104 then some "ConnectionResetError"
  else if n = 110 then some "TimeoutError"
  else if n = 111 then some "ConnectionRefusedError"
  else none

/-- A failure of a kind with the given values. A general failure with a number, a text and up to
three further values is of the number's kind. -/
def ofArguments (kind : String) (arguments : List Json) : ExternalFailure :=
  let isSystem := systemKinds.contains kind
  let general := kind = "OSError" || kind = "IOError" || kind = "EnvironmentError"
  let kind := if general then "OSError" else kind
  let kind :=
    match arguments with
    | .int n :: _ :: more =>
      if general && more.length ≤ 3 then (kindOfNumber? n).getD kind else kind
    | _ => kind
  ⟨kind, isSystem, arguments⟩

/-- The values by their position, when there are two to five of them; then they are an error number,
a wording, a path, a value without meaning, and a second path. -/
def detail? (e : ExternalFailure) (position : Nat) : Option Json :=
  if e.isSystem && 2 ≤ e.arguments.length && e.arguments.length ≤ 5 then e.arguments[position]?
  else none

/-- Whether a value counts the characters that were written before an operation would have had to
wait, which such a failure has in place of the first path. -/
def isWrittenCount (e : ExternalFailure) (position : Nat) : Json → Bool
  | .int _ | .bool _ => position = 2 && e.kind = "BlockingIOError"
  | _ => false

/-- A path among the values; null is none. -/
def path? (e : ExternalFailure) (position : Nat) : Option Json :=
  match e.detail? position with
  | some .null => none
  | some value => if e.isWrittenCount position value then none else some value
  | none => none

/-- The values without an arrangement: the only one plainly, several as a group. -/
def argumentsText (e : ExternalFailure) : String :=
  match e.arguments with
  | [] => ""
  | [value] => if e.kind = "KeyError" then value.literal else value.plain
  | values => "(" ++ ", ".intercalate (Json.literals values) ++ ")"

/-- The kinds of failures to read a text as what it is written in. -/
def grammarKinds : List String := ["SyntaxError", "IndentationError", "TabError"]

/-- The wording of a failure to read a text: the first value, and the name of the file and the number
of the line in the second. -/
def grammarText (e : ExternalFailure) : String :=
  let what := (e.arguments.headD .null).plain
  let place : List Json := match e.arguments with
    | [_, .arr place] => place
    | _ => []
  let file := match place.head? with
    | some (.str file) => [String.ofList ((Text.splitOn '/' file.toList).getLast?.getD [])]
    | _ => []
  let line := match (place.drop 1).head? with
    | some (.int n) => ["line " ++ Json.intText (if n.natAbs < Nat.pow 2 63 then n else -1)]
    | _ => []
  match file ++ line with
  | [] => what
  | parts => what ++ " (" ++ ", ".intercalate parts ++ ")"

/-- The place and the reason of a failure to store the characters of a text between two positions. -/
def charactersText (text : String) (first last : Int) (reason : String) : String :=
  match text.toList[first.toNat]? with
  | some c =>
    if 0 ≤ first && last = first + 1 then
      "character '" ++ String.ofList (Text.codePointEscape c) ++ "' in position " ++ Json.intText first ++
        ": " ++ reason
    else several
  | none => several
where
  /-- The wording for more than one character. -/
  several : String :=
    "characters in position " ++ Json.intText first ++ "-" ++ Json.intText (last - 1) ++ ": " ++
      reason

/-- The wording of the kinds that arrange their values in a way of their own. -/
def ownText? (e : ExternalFailure) : Option String :=
  if grammarKinds.contains e.kind then some e.grammarText
  else match e.kind, e.arguments with
    | "UnicodeEncodeError", [.str encoding, .str text, .int first, .int last, .str reason] =>
      some ("'" ++ encoding ++ "' codec can't encode " ++ charactersText text first last reason)
    | "UnicodeTranslateError", [.str text, .int first, .int last, .str reason] =>
      some ("can't translate " ++ charactersText text first last reason)
    | _, _ => none

/-- The wording of a failure. -/
def message (e : ExternalFailure) : String :=
  match e.detail? 0, e.detail? 1 with
  | some number, some text =>
    "[Errno " ++ number.plain ++ "] " ++ text.plain ++
      (match e.path? 2, e.path? 4 with
        | some path, some other => ": " ++ path.literal ++ " -> " ++ other.literal
        | some path, none => ": " ++ path.literal
        | none, _ => "")
  | _, _ => e.ownText?.getD e.argumentsText

/-- The reason of a failure: the error's wording, else the whole wording, else the kind. -/
def reason (e : ExternalFailure) : String :=
  let text := match e.detail? 1 with
    | some text => if text.isGiven then text.plain else e.message
    | none => e.message
  if text.isEmpty then e.kind else text

end ExternalFailure

/-! ## All failures -/

/-- A part of a directory that could not be copied. -/
structure CopyFailure where
  source : String
  destination : String
  message : String
  deriving DecidableEq, Repr

/-- The form of a copy failure in a list of them. -/
def CopyFailure.literal (f : CopyFailure) : String :=
  "(" ++ Text.literal f.source ++ ", " ++ Text.literal f.destination ++ ", " ++
    Text.literal f.message ++ ")"

/-- What stops an operation. -/
inductive Failure
  /-- An error of the file system, with the path and the second path that it concerns. -/
  | system (error : SystemError) (path? other? : Option String)
  /-- The recursive removal of a symbolic link. -/
  | linkAsTree
  /-- The move of a directory below itself. -/
  | intoItself (source destination : String)
  /-- The copy of a file onto itself. -/
  | ontoItself (source destination : String)
  /-- The copy of a directory, parts of which could not be copied. -/
  | partialCopy (failures : List CopyFailure)
  /-- The copy of a directory into a part of itself that is reached under another path. -/
  | endlessCopy
  /-- An instruction file that grows as fast as it is applied. -/
  | endlessBatch
  /-- A text that would give a window a title where there is no terminal. -/
  | windowTitle
  /-- A failure of the command runner. -/
  | external (failure : ExternalFailure)
  /-- A path with the character NUL in it. -/
  | embeddedNul
  | wildcard (error : WildcardError)
  | instruction (error : InstructionError)
  /-- A file that is no text. -/
  | undecodable (place : Utf8.Malformed)
  /-- An array or object of a file within too many others. -/
  | tooDeep (nest : Json.Nest)
  /-- A whole number with more digits than can be read. -/
  | tooManyDigits (count : Nat)
  /-- A whole number too large to be added to one of the numbers with a fraction. -/
  | outOfRange
  /-- A time with an offset from UTC and one without. -/
  | incomparableTimes
  /-- A value that is no instruction. -/
  | notInstruction (value : Json)
  /-- Settings whose values cannot be used together. -/
  | settings (message : String)
  deriving Repr

namespace Failure

/-- An error of the file system about one path. -/
def ofPath (error : SystemError) (path : Path) : Failure :=
  .system error (some path.text) none

/-- Whether a failure is one of the file system or of a command, which a single instruction
survives. -/
def isSystem : Failure → Bool
  | .system .. | .linkAsTree | .intoItself .. | .ontoItself .. | .partialCopy _ => true
  | .external e => e.isSystem
  | _ => false

/-- The wording of a failure. -/
def message : Failure → String
  | .system error path? other? =>
    "[Errno " ++ error.number.repr ++ "] " ++ error.text ++
      (match path?, other? with
        | some path, some other => ": " ++ Text.literal path ++ " -> " ++ Text.literal other
        | some path, none => ": " ++ Text.literal path
        | none, _ => "")
  | .linkAsTree => "Cannot call rmtree on a symbolic link"
  | .intoItself source destination =>
    "Cannot move a directory '" ++ source ++ "' into itself '" ++ destination ++ "'."
  | .ontoItself source destination =>
    Text.literal source ++ " and " ++ Text.literal destination ++ " are the same file"
  | .partialCopy failures => "[" ++ ", ".intercalate (failures.map CopyFailure.literal) ++ "]"
  | .endlessCopy => "maximum recursion depth exceeded"
  | .endlessBatch => "the instruction file does not end"
  | .windowTitle => "'NoneType' object has no attribute 'set_title'"
  | .external e => e.message
  | .embeddedNul => "embedded null byte"
  | .wildcard e => e.message
  | .instruction e => e.message
  | .undecodable place => place.message
  | .tooDeep nest => Json.tooDeepText nest
  | .tooManyDigits count => Json.tooManyDigitsText count
  | .outOfRange => Json.outOfRangeText
  | .incomparableTimes => "can't compare offset-naive and offset-aware datetimes"
  | .notInstruction value => "Not an instruction: " ++ value.literal
  | .settings message => message

/-- The reason that a report gives for a failure. -/
def reason : Failure → String
  | .system error _ _ => error.text
  | .external e => e.reason
  | f => f.message

end Failure

end DeferredOps
