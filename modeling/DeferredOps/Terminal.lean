import DeferredOps.Decimal.Whole

/-!
# Text for terminals

Coloured text for a terminal, and the same text for other places. There the control sequences are
left out: first the commands, ESC and `]` up to the next BEL, and then the styles, ESC and `[`, digits
and semicolons, and a letter. Both take along the mark U+0001 before and U+0002 after them. The
command that gives the window a title cannot be carried out without a terminal.
-/

namespace DeferredOps.Terminal

/-! ## Styles -/

/-- The styles of a text. -/
inductive Style
  | dim
  | red
  | green
  | yellow
  | cyan
  | white
  deriving DecidableEq, Repr

/-- The number of a style in control sequences. -/
def Style.number : Style → Nat
  | .dim => 2
  | .red => 31
  | .green => 32
  | .yellow => 33
  | .cyan => 36
  | .white => 37

/-- The control sequence that selects the style with a number; 0 ends all of them. -/
def selection (number : Nat) : String :=
  "\x1b[" ++ number.repr ++ "m"

/-- A text in a style. -/
def styled (style : Style) (text : String) : String :=
  selection style.number ++ text ++ selection 0

/-- Whether a character can be among the parameters of a style. -/
def isParameter (c : Char) : Bool :=
  (Decimal.digit? c).isSome || c == ';'

/-- A letter of the ASCII alphabet. -/
def isLetter (c : Char) : Bool :=
  (65 ≤ c.toNat && c.toNat ≤ 90) || (97 ≤ c.toNat && c.toNat ≤ 122)

/-- The number of marks that follow a control sequence. -/
def marksAfter (text : List Char) : Nat :=
  if text.head? = some '\x02' then 1 else 0

/-- The length of the style that a text starts with, without a mark in front. -/
def styleLength? : List Char → Option Nat
  | '\x1b' :: '[' :: rest =>
    let parameters := rest.takeWhile isParameter
    match rest.drop parameters.length with
    | letter :: more =>
      if isLetter letter then some (parameters.length + 3 + marksAfter more) else none
    | [] => none
  | _ => none

/-- The length of the style that a text starts with. -/
def markedStyleLength? (text : List Char) : Option Nat :=
  match text with
  | '\x01' :: rest => (styleLength? rest).map (· + 1)
  | _ => styleLength? text

/-- Leave out the styles; `skip` characters belong to one. -/
def withoutStyles (skip : Nat) : List Char → List Char
  | [] => []
  | c :: rest =>
    match skip with
    | skip + 1 => withoutStyles skip rest
    | 0 =>
      match markedStyleLength? (c :: rest) with
      | some length => withoutStyles (length - 1) rest
      | none => c :: withoutStyles 0 rest

/-! ## Commands -/

/-- A command in a text: its parameters, and its length. -/
structure Command where
  parameters : List Char
  length : Nat
  deriving DecidableEq, Repr

/-- The command that a text starts with, without a mark in front. -/
def command? : List Char → Option Command
  | '\x1b' :: ']' :: rest =>
    let parameters := rest.takeWhile (· ≠ '\x07')
    match rest.drop parameters.length with
    | _ :: more => some ⟨parameters, parameters.length + 3 + marksAfter more⟩
    | [] => none
  | _ => none

/-- The command that a text starts with. -/
def markedCommand? (text : List Char) : Option Command :=
  match text with
  | '\x01' :: rest => (command? rest).map fun c ↦ { c with length := c.length + 1 }
  | _ => command? text

/-- The commands of a text, each with its place, when `place` characters come before and `skip` of
the next ones belong to a command. -/
def commandsFrom (place skip : Nat) : List Char → List (Nat × Command)
  | [] => []
  | c :: rest =>
    match skip with
    | skip + 1 => commandsFrom (place + 1) skip rest
    | 0 =>
      match markedCommand? (c :: rest) with
      | some command => (place, command) :: commandsFrom (place + 1) (command.length - 1) rest
      | none => commandsFrom (place + 1) 0 rest

/-- Whether a command gives the window a title: its parameters are one of four numbers, and a
text after the only semicolon. -/
def Command.setsTitle (c : Command) : Bool :=
  c.parameters.count ';' = 1 &&
    ["", "0", "2", "02"].contains (String.ofList (c.parameters.takeWhile (· ≠ ';')))

/-- Leave out the commands, one after the other. Each is taken from its place in the text as it was
in the beginning, so only the first of them is sure to be left out exactly. -/
def withoutCommands (commands : List (Nat × Command)) (text : List Char) : List Char :=
  commands.foldl (fun text (place, c) ↦ text.take place ++ text.drop (place + c.length)) text

/-! ## Plain text -/

/-- A text without its control sequences; `none` if it would give a window a title. -/
def plain? (text : String) : Option String :=
  let commands := commandsFrom 0 0 text.toList
  if commands.any (·.2.setsTitle) then none
  else some (String.ofList (withoutStyles 0 (withoutCommands commands text.toList)))

end DeferredOps.Terminal
