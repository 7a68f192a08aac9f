import DeferredOps.Decimal.Whole
import DeferredOps.Json.Basic

/-!
# Command-line arguments

Arguments are options, the values of options, and one path. A long option may be cut short as long
as only one option starts that way; its value follows an equals sign or is the next argument. The
value of a short option may also follow it directly, and so may further short options if it has no
value. After `--` nothing is an option; as the value in the argument of its option `--` is an empty
one.
-/

namespace DeferredOps

/-- The value of an option that asks for a whole number. -/
inductive NumberValue
  | whole (n : Int)
  /-- The option was given an empty value. -/
  | empty
  deriving DecidableEq, Repr

/-- A value as JSON: an empty one is an empty array. -/
def NumberValue.toJson : NumberValue → Json
  | .whole n => .int n
  | .empty => .arr []

/-- What the command line asks for. An empty value of an option for a path is as none. -/
structure Options where
  base : Option String
  basePath : Option String
  workingDirectory : Option String
  config : Option String
  check : Bool
  waitPid : Option NumberValue
  waitTimeout : Option NumberValue
  eventLog : Option String
  noColor : Bool
  deriving DecidableEq, Repr

namespace Options

/-- A command line without arguments. -/
def none : Options :=
  ⟨.none, .none, .none, .none, false, .none, .none, .none, false⟩

end Options

/-- Why a command line is not carried out. -/
inductive UsageError
  /-- Help was asked for. -/
  | help
  | ambiguous (argument : String) (candidates : List String)
  /-- The option needs a value and none follows. -/
  | missingValue (option : String)
  /-- The option takes no value and one is given. -/
  | needlessValue (option value : String)
  /-- The option's value is no whole number. -/
  | notWhole (option value : String)
  | unrecognized (arguments : List String)
  deriving DecidableEq, Repr

/-- The wording of an error. -/
def UsageError.message : UsageError → String
  | .help => ""
  | .ambiguous argument candidates =>
    "ambiguous option: " ++ argument ++ " could match " ++ ", ".intercalate candidates
  | .missingValue option => "argument " ++ option ++ ": expected one argument"
  | .needlessValue option value =>
    "argument " ++ option ++ ": ignored explicit argument " ++ Text.literal value
  | .notWhole option value =>
    "argument " ++ option ++ ": invalid int value: " ++ Text.literal value
  | .unrecognized arguments => "unrecognized arguments: " ++ " ".intercalate arguments

namespace Arguments

/-- The options. -/
inductive Key
  | help
  | base
  | workingDirectory
  | config
  | check
  | waitPid
  | waitTimeout
  | eventLog
  | noColor
  deriving DecidableEq, Repr

/-- The spellings of the options, in the order in which they are looked through. -/
def spellings : List (String × Key) :=
  [("-h", .help), ("--help", .help), ("--base", .base), ("-b", .base),
    ("--working-dir", .workingDirectory), ("-w", .workingDirectory), ("--config", .config),
    ("-c", .config), ("--check", .check), ("--wait-pid", .waitPid), ("--wait-timeout", .waitTimeout),
    ("--event-log", .eventLog), ("--no-color", .noColor)]

/-- The name of an option in errors: all its spellings. -/
def Key.name (key : Key) : String :=
  "/".intercalate ((spellings.filter fun entry ↦ entry.2 = key).map (·.1))

/-- Whether an option has a value. -/
def Key.hasValue : Key → Bool
  | .help | .check | .noColor => false
  | _ => true

/-- A use of an option: the spelling meant, and the value in the same argument, if there is one. -/
structure Use where
  spelling : String
  key : Key
  value : Option String
  deriving DecidableEq, Repr

/-- What an argument is. -/
inductive Token
  /-- The argument after which nothing is an option. -/
  | separator
  | operand (text : String)
  | option (use : Use)
  /-- An argument that looks like an option and is none. -/
  | unknown (text : String)
  deriving DecidableEq, Repr

/-! ## Telling options from operands -/

/-- Cut a text at its first equals sign. -/
def splitEquals (text : List Char) : List Char × Option String :=
  match text.dropWhile (· ≠ '=') with
  | [] => (text, none)
  | _ :: value => (text.takeWhile (· ≠ '='), some (String.ofList value))

/-- The options that an argument can mean: those that a long one is the beginning of, or the short
one that it starts with. -/
def candidates (argument : List Char) : List Use :=
  match argument with
  | '-' :: '-' :: _ =>
    let (start, value) := splitEquals argument
    (spellings.filter fun entry ↦ start.isPrefixOf entry.1.toList).map fun entry ↦
      ⟨entry.1, entry.2, value⟩
  | _ =>
    spellings.filterMap fun entry ↦
      if entry.1.toList = argument.take 2 then
        some ⟨entry.1, entry.2, some (String.ofList (argument.drop 2))⟩
      else if argument.isPrefixOf entry.1.toList then some ⟨entry.1, entry.2, none⟩
      else none

/-- Whether a text is made of decimal digits. -/
def allDigits (text : List Char) : Bool :=
  text.all fun c ↦ (Decimal.digit? c).isSome

/-- Whether an argument is a negative number: a hyphen and digits, with or without a point before
the last of them. A line may end after it. -/
def isNegativeNumber (argument : List Char) : Bool :=
  match if argument.getLast? = some '\n' then argument.dropLast else argument with
  | '-' :: digits =>
    let whole := digits.takeWhile (· ≠ '.')
    match digits.dropWhile (· ≠ '.') with
    | [] => !whole.isEmpty && allDigits whole
    | _ :: fraction => allDigits whole && !fraction.isEmpty && allDigits fraction
  | _ => false

/-- The option with a spelling. -/
def spelled? (spelling : List Char) : Option Key :=
  spellings.lookup (String.ofList spelling)

/-- Tell what an argument before any separator is. -/
def token (argument : String) : Except UsageError Token :=
  let chars := argument.toList
  if chars.head? ≠ some '-' then .ok (.operand argument)
  else match spelled? chars with
    | some key => .ok (.option ⟨argument, key, none⟩)
    | none =>
      if chars.length = 1 then .ok (.operand argument)
      else match splitEquals chars with
        | (start, some value) =>
          match spelled? start with
          | some key => .ok (.option ⟨String.ofList start, key, some value⟩)
          | none => ofCandidates chars
        | _ => ofCandidates chars
where
  /-- Tell what an argument is by the options that it can mean. -/
  ofCandidates (chars : List Char) : Except UsageError Token :=
    match candidates chars with
    | [use] => .ok (.option use)
    | [] =>
      if isNegativeNumber chars || chars.contains ' ' then .ok (.operand argument)
      else .ok (.unknown argument)
    | uses => .error (.ambiguous argument (uses.map (·.spelling)))

/-- Tell what the arguments are. -/
def tokens : List String → Except UsageError (List Token)
  | [] => .ok []
  | argument :: rest =>
    if argument = "--" then .ok (.separator :: rest.map Token.operand)
    else do
      let first ← token argument
      return first :: (← tokens rest)

/-! ## Taking options and operands -/

/-- What has been read so far: the options, and the arguments that found no use. -/
structure Reading where
  options : Options
  pathTaken : Bool
  extras : List String

/-- Give an option its value. -/
def setValue (options : Options) (key : Key) (value : String) : Except UsageError Options :=
  let whole : Except UsageError NumberValue :=
    match Decimal.whole? value with
    | some n => .ok (.whole n)
    | none => .error (.notWhole key.name value)
  match key with
  | .base => .ok { options with base := value }
  | .workingDirectory => .ok { options with workingDirectory := value }
  | .config => .ok { options with config := value }
  | .eventLog => .ok { options with eventLog := value }
  | .waitPid => whole.map fun n ↦ { options with waitPid := some n }
  | .waitTimeout => whole.map fun n ↦ { options with waitTimeout := some n }
  | .help | .check | .noColor => .ok options

/-- Give an option the value that follows in its argument. -/
def setOwnValue (options : Options) (key : Key) (value : String) : Except UsageError Options :=
  if value ≠ "--" then setValue options key value
  else match key with
    | .base => .ok { options with base := none }
    | .workingDirectory => .ok { options with workingDirectory := none }
    | .config => .ok { options with config := none }
    | .eventLog => .ok { options with eventLog := none }
    | .waitPid => .ok { options with waitPid := some .empty }
    | .waitTimeout => .ok { options with waitTimeout := some .empty }
    | .help | .check | .noColor => .ok options

/-- Set an option without a value. -/
def setFlag (options : Options) : Key → Except UsageError Options
  | .help => .error .help
  | .check => .ok { options with check := true }
  | .noColor => .ok { options with noColor := true }
  | _ => .ok options

/-- Check that the characters after a short option without a value are further short options, up to
the first with a value. That is the rest of the characters, or else the next argument. -/
def checkCluster (key : Key) (next : Option Token) : List Char → Except UsageError Unit
  | [] => .ok ()
  | c :: rest =>
    match spelled? ['-', c] with
    | none => .error (.needlessValue key.name (String.ofList (c :: rest)))
    | some key =>
      if !key.hasValue then checkCluster key next rest
      else if !rest.isEmpty then .ok ()
      else match next with
        | some (.operand _) => .ok ()
        | _ => .error (.missingValue key.name)

/-- Take an option that has no value of its own from an argument that goes on after it. Only help has
a short spelling, and asking for it ends the reading. -/
def takeFlagWithMore (options : Options) (use : Use) (value : String) (next : Option Token) :
    Except UsageError Options :=
  if use.spelling.toList.take 2 = ['-', '-'] || value.isEmpty then
    .error (.needlessValue use.key.name value)
  else do
    checkCluster use.key next value.toList
    setFlag options use.key

/-- The arguments that the path takes: separators, at most one operand, and separators. -/
def pathArguments : List Token → List Token × List Token
  | .separator :: .operand text :: rest => ([.separator, .operand text], rest)
  | .separator :: rest => ([.separator], rest)
  | .operand text :: .separator :: rest => ([.operand text, .separator], rest)
  | .operand text :: rest => ([.operand text], rest)
  | rest => ([], rest)

/-- The path among its arguments. -/
def pathOf (taken : List Token) : Option String :=
  taken.findSome? fun
    | .operand text => some text
    | _ => none

/-- A token as the argument that it was given as. -/
def argumentOf : Token → String
  | .separator => "--"
  | .operand text => text
  | .unknown text => text
  | .option use => use.spelling

/-- Whether a token stands where an option does. -/
def isOptionLike : Token → Bool
  | .option _ | .unknown _ => true
  | _ => false

/-- Read the tokens. As long as an option is still to come, operands before it are the path or find
no use; after the last option the path takes what it can. -/
def readFrom (reading : Reading) : (budget : Nat) → List Token → Except UsageError Reading
  | 0, _ => .ok reading
  | _ + 1, [] => .ok reading
  | budget + 1, tokens@(first :: rest) =>
    match first with
    | .unknown text => readFrom { reading with extras := reading.extras ++ [text] } budget rest
    | .option use =>
      match use.value, use.key.hasValue with
      | some value, true => do
        let options ← setOwnValue reading.options use.key value
        readFrom { reading with options } budget rest
      | some value, false => do
        let options ← takeFlagWithMore reading.options use value rest.head?
        readFrom { reading with options } budget rest
      | none, false => do
        let options ← setFlag reading.options use.key
        readFrom { reading with options } budget rest
      | none, true =>
        match rest with
        | .operand value :: rest => do
          let options ← setValue reading.options use.key value
          readFrom { reading with options } budget rest
        | _ => .error (.missingValue use.key.name)
    | _ =>
      if reading.pathTaken then
        let unused := tokens.takeWhile fun token ↦ !isOptionLike token
        readFrom { reading with extras := reading.extras ++ unused.map argumentOf } budget
          (tokens.drop unused.length)
      else
        let (taken, rest) := pathArguments tokens
        readFrom
          { reading with
            options := { reading.options with basePath := pathOf taken }
            pathTaken := true }
          budget rest

/-- Read the arguments of a command line. -/
def parse (arguments : List String) : Except UsageError Options := do
  let tokens ← tokens arguments
  let reading ← readFrom ⟨.none, false, []⟩ (tokens.length + 1) tokens
  if reading.extras.isEmpty then return reading.options
  else throw (.unrecognized reading.extras)

end Arguments

end DeferredOps
