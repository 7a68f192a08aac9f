import DeferredOps.Executor
import DeferredOps.Text.Lines

/-!
# Configuration

The settings of a run: defaults, over which a configuration file is laid as a whole or not at all.
The file holds a JSON object. Each known setting has a rule for its value; if one of them is broken,
each broken rule is printed and the defaults stay.
-/

namespace DeferredOps

/-- The settings by name. -/
structure Config where
  settings : List (String × Json)
  deriving Repr

namespace Config

/-- The settings without a file. -/
def default : Config :=
  ⟨[("base_path", .null), ("working_directory", .null), ("instructions_suffix", .str ".copies"),
    ("event_log", .null), ("wait_timeout_seconds", .int 60), ("max_log_files", .int 5),
    ("log_folder", .str "logs")]⟩

/-- The value of a setting; null if there is none. -/
def get (config : Config) (name : String) : Json :=
  (Json.field? config.settings name).getD .null

/-- Give a setting a value. -/
def put (config : Config) (name : String) (value : Json) : Config :=
  ⟨Json.setField config.settings name value⟩

/-- Lay settings over the others. -/
def overlay (config : Config) (fields : List (String × Json)) : Config :=
  fields.foldl (fun config field ↦ config.put field.1 field.2) config

/-! ## Rules -/

/-- A rule for a setting that is a whole number: its range, and a value that keeps it. -/
structure NumberRule where
  name : String
  least : Int
  greatest : Int
  sample : Int

/-- The settings that are whole numbers. -/
def numberRules : List NumberRule :=
  [⟨"max_log_files", 1, 100, 5⟩, ⟨"wait_timeout_seconds", 0, 3600, 60⟩]

/-- The lines of a broken rule's description. -/
def describe (lines : List String) : String :=
  "\n".intercalate ("ERROR: Invalid config value" :: lines)

/-- What is wrong with the value of a number setting, if anything is. -/
def NumberRule.complaint? (rule : NumberRule) (value : Json) : Option String :=
  match value with
  | .int n =>
    if rule.least ≤ n && n ≤ rule.greatest then none
    else some (describe ["  Field: " ++ rule.name, "  Value: " ++ Json.intText n,
      "  Expected: number between " ++ Json.intText rule.least ++ " and " ++
        Json.intText rule.greatest,
      "  Example: " ++ Json.intText rule.sample])
  | _ => some (describe ["  Field: " ++ rule.name,
      "  Value: " ++ value.literal ++ " (" ++ value.kindName ++ ")",
      "  Expected: number (integer)",
      "  Example: " ++ Json.intText rule.sample,
      "  Valid range: " ++ Json.intText rule.least ++ " to " ++ Json.intText rule.greatest])

/-- The settings that are paths or null, each with a value that would do. -/
def pathRules : List (String × String) :=
  [("base_path", "C:\\Services\\myservice"), ("working_directory", "C:\\Services"),
    ("event_log", "logs/events.jsonl")]

/-- Whether a value is a string with a character that is not blank. -/
def isPathText : Json → Bool
  | .str s => !Text.isBlankText s
  | .broken _ => true
  | _ => false

/-- What is wrong with the value of a path setting, if anything is. -/
def pathComplaint? (name sample : String) (value : Json) : Option String :=
  match value with
  | .null => none
  | _ =>
    if isPathText value then none
    else some (describe ["  Field: " ++ name, "  Value: " ++ value.literal,
      "  Expected: non-empty path string or null", "  Example: " ++ Text.literal sample])

/-- Whether a value is a string of at least two characters that starts with a point. -/
def isSuffix (value : Json) : Bool :=
  match value.text?.map String.toList with
  | some ('.' :: _ :: _) => true
  | _ => false

/-- What is wrong with the suffix of instruction files, if anything is. -/
def suffixComplaint? (value : Json) : Option String :=
  if isSuffix value then none
  else some (describe ["  Field: instructions_suffix", "  Value: " ++ value.literal,
    "  Problem: Suffix must start with '.'", "  Example: '.copies'"])

/-- What is wrong with the folder of log files, if anything is. -/
def folderComplaint? : Json → Option String
  | .str _ | .broken _ => none
  | value => some ("log_folder must be a string, got " ++ value.kindName)

/-- What is wrong with the settings of a file: one complaint for each known setting that it gives a
value against the rule. -/
def complaints (fields : List (String × Json)) : List String :=
  let about (name : String) (complaint? : Json → Option String) : List String :=
    ((Json.field? fields name).bind complaint?).toList
  numberRules.flatMap (fun rule ↦ about rule.name rule.complaint?) ++
    pathRules.flatMap (fun (name, sample) ↦ about name (pathComplaint? name sample)) ++
    about "instructions_suffix" suffixComplaint? ++
    about "log_folder" folderComplaint?

/-! ## Loading -/

open RunAction

/-- The absolute form of a path, as messages show it. -/
def absoluteText (path : Path) : RunAction String := do
  if path.isAbsolute then return path.text
  return (Path.below (← Executor.currentDirectory) path).text

/-- Print some lines about a configuration file. -/
def printAbout (path : Path) (heading : String) (lines : List String) : RunAction Unit := do
  printLine ("\n" ++ heading)
  printLine ("  Config file: " ++ (← absoluteText path))
  lines.forM printLine

/-- The settings after a file with these fields. -/
def ofFields (path : Path) (fields : List (String × Json)) : RunAction Config := do
  match complaints fields with
  | [] => return default.overlay fields
  | found =>
    printAbout path "Configuration validation failed:" [""]
    found.forM fun complaint ↦ do
      printLine complaint
      printLine ""
    printLine "Using default configuration instead."
    log .warning ("Invalid config " ++ path.text ++ ": " ++ found.length.repr ++ " error(s)")
    return default

/-- The settings after a file with this text. -/
def ofText (path : Path) (text : List Char) : RunAction Config :=
  match Json.parse text with
  | .ok (.obj fields) => ofFields path fields
  | .ok _ => do
    printAbout path "ERROR: Config file must contain a JSON object"
      ["Using default configuration."]
    return default
  | .error (.misplaced m) => do
    printAbout path "ERROR: Invalid JSON in config file"
      ["  Problem: " ++ m.text, "  Line: " ++ m.line.repr ++ ", Column: " ++ m.column.repr, "",
        "Fix the JSON syntax and try again.", "Using default configuration."]
    return default
  | .error (.tooDeep nest) => throw (.tooDeep nest)
  | .error (.tooManyDigits n) => throw (.tooManyDigits n)

/-- The content of a configuration file, or nothing if it cannot be opened, which is printed. -/
def content? (path : Path) : RunAction (Option Bytes) :=
  tryCatch (do return some (← onStore (StoreAction.read path))) fun f ↦ do
    if !f.isSystem then throw f
    printAbout path "ERROR: Could not load config file"
      ["  Problem: " ++ f.message, "", "Using default configuration."]
    return none

/-- The settings after a configuration file, if there is one. -/
def load (path : Option Path) : RunAction Config :=
  match path with
  | none => return default
  | some path => do
    if !(← ask (·.exists? path)) then return default
    match ← content? path with
    | none => return default
    | some bytes =>
      match Utf8.decode bytes with
      | .ok text => ofText path (Text.unifyLineEnds text)
      | .error m => throw (.undecodable m)

/-! ## Values -/

/-- The path whose text is the base of the instruction file's name. -/
def basePath (config : Config) : Json :=
  config.get "base_path"

/-- The refusal of a kind of value as a path. -/
def noPath (kind : String) : Failure :=
  .settings ("expected str, bytes or os.PathLike object, not " ++ kind)

/-- The refusal of a value after one that can only be joined to its own kind. -/
def notJoined (kind : String) (suffix : Json) : Failure :=
  .settings ("can only concatenate " ++ kind ++ " (not \"" ++ suffix.kindName ++ "\") to " ++ kind)

/-- Why a base and a suffix that are not both texts make no path. Arrays are joined and numbers are
added, but what comes of it is no path. -/
def joinFailure (base suffix : Json) : Failure :=
  match base, suffix with
  | .str _, _ | .broken _, _ => notJoined "str" suffix
  | .arr _, .arr _ => noPath "list"
  | .arr _, _ => notJoined "list" suffix
  | .int n, .float _ | .float _, .int n =>
    if (Binary64.nearest n).isFinite then noPath "float" else .outOfRange
  | .float _, .float _ | .float _, .bool _ | .bool _, .float _ => noPath "float"
  | .int _, .int _ | .int _, .bool _ | .bool _, .int _ | .bool _, .bool _ => noPath "int"
  | _, _ =>
    .settings ("unsupported operand type(s) for +: '" ++ base.kindName ++ "' and '" ++
      suffix.kindName ++ "'")

/-- The instruction file: the base path with the suffix after it, or none without a base path. -/
def instructionsFile (config : Config) : Except Failure (Option Path) :=
  if !config.basePath.isGiven then .ok none
  else
    let suffix := config.get "instructions_suffix"
    match config.basePath.text?, suffix.text? with
    | some baseText, some suffixText => .ok (some (Path.ofString (baseText ++ suffixText)))
    | _, _ => .error (joinFailure config.basePath suffix)

/-- The path that a setting names, or none if it is not given. -/
def path? (config : Config) (name : String) : Except Failure (Option Path) :=
  let value := config.get name
  if !value.isGiven then .ok none
  else match value.text? with
    | some text => .ok (some (Path.ofString text))
    | none => .error (noPath value.kindName)

/-- The directory that relative paths are taken from: the one of the settings, or the current one. -/
def workingDirectory (config : Config) : RunAction Path := do
  match ← ask fun _ ↦ config.path? "working_directory" with
  | some path => return path
  | none => Executor.currentDirectory

/-- The file that events are written to. -/
def eventLog (config : Config) : Except Failure (Option Path) :=
  config.path? "event_log"

end Config

end DeferredOps
