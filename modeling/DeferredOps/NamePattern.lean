/-!
# Name patterns

The expressions that file names are matched with: `*` for any run of characters, `?` for any
character, a set of characters in brackets, and every other character for itself. A set that starts
with `!` means the characters outside it. A bracket without its partner stands for itself.
-/

namespace DeferredOps

/-- A run of neighbouring characters. -/
structure CharRange where
  first : Char
  last : Char
  deriving DecidableEq, Repr

/-- Whether a character lies in the run. -/
def CharRange.mem (r : CharRange) (c : Char) : Bool :=
  r.first.toNat ≤ c.toNat && c.toNat ≤ r.last.toNat

namespace NamePattern

/-- One item of a pattern. -/
inductive Item
  | star
  | any
  | char (c : Char)
  | set (negated : Bool) (ranges : List CharRange)
  deriving DecidableEq, Repr

/-! ## Sets -/

/-- The text between the brackets of a set, and the text after it, from after the opening bracket.
The closing bracket is not looked for in the first place, nor right after a `!` in the first
place. -/
def splitSet? (text : List Char) : Option (List Char × List Char) :=
  let mark := if text.head? = some '!' then 1 else 0
  let fixed := if (text.drop mark).head? = some ']' then mark + 1 else mark
  let inner := (text.drop fixed).takeWhile (· ≠ ']')
  match (text.drop (fixed + inner.length)) with
  | [] => none
  | _ :: rest => some (text.take (fixed + inner.length), rest)

/-- Cut a set at the hyphens that make ranges. A hyphen is looked for only after `skip` further
characters, since one at the front of a piece, or right after a range, stands for itself. -/
def chunksFrom (skip : Nat) (chunk : List Char) : List Char → List (List Char)
  | [] => [chunk.reverse]
  | c :: rest =>
    match skip with
    | 0 =>
      if c = '-' then chunk.reverse :: chunksFrom 2 [] rest
      else chunksFrom 0 (c :: chunk) rest
    | skip + 1 => chunksFrom skip (c :: chunk) rest

/-- Put a hyphen that ends a set back where it stands for itself. -/
def restoreLastHyphen : List (List Char) → List (List Char)
  | [] => []
  | [chunk] => [chunk]
  | [chunk, []] => [chunk ++ ['-']]
  | chunk :: rest => chunk :: restoreLastHyphen rest

/-- Drop the ranges that run backwards, from the last one on: the pieces on both sides of such a
range lose its ends and grow together. -/
def dropEmptyRanges : List (List Char) → List (List Char)
  | [] => []
  | chunk :: rest =>
    match dropEmptyRanges rest with
    | [] => [chunk]
    | next :: more =>
      match chunk.getLast?, next with
      | some low, high :: tail =>
        if high.toNat < low.toNat then (chunk.dropLast ++ tail) :: more else chunk :: next :: more
      | _, _ => chunk :: next :: more

/-- Each character as a run of its own. -/
def singles (chunk : List Char) : List CharRange :=
  chunk.map fun c ↦ ⟨c, c⟩

/-- The runs of pieces: the characters of each, and a range over each cut. A cut with no character
on one of its sides is a hyphen that stands for itself. -/
def rangesOf : List (List Char) → List CharRange
  | [] => []
  | [chunk] => singles chunk
  | chunk :: next :: rest =>
    let cut := match chunk.getLast?, next.head? with
      | some first, some last => ⟨first, last⟩
      | _, _ => ⟨'-', '-'⟩
    singles chunk ++ cut :: rangesOf (next :: rest)

/-- The item of a set with this text between its brackets. An empty set matches no character, and
the negation of an empty set matches every one. -/
def setItem (text : List Char) : Item :=
  let skip := if text.head? = some '!' then 2 else 1
  let chunks := dropEmptyRanges (restoreLastHyphen (chunksFrom skip [] text))
  match chunks with
  | ('!' :: chunk) :: rest => .set true (rangesOf (chunk :: rest))
  | _ => .set false (rangesOf chunks)

/-! ## Patterns -/

/-- The items of a pattern. -/
def itemsFrom : (budget : Nat) → List Char → List Item
  | 0, _ => []
  | _ + 1, [] => []
  | budget + 1, c :: rest =>
    if c = '*' then .star :: itemsFrom budget rest
    else if c = '?' then .any :: itemsFrom budget rest
    else if c = '[' then
      match splitSet? rest with
      | some (inside, after) => setItem inside :: itemsFrom budget after
      | none => .char '[' :: itemsFrom budget rest
    else .char c :: itemsFrom budget rest

/-- Read a pattern. -/
def items (expression : String) : List Item :=
  itemsFrom (expression.toList.length + 1) expression.toList

/-- Whether an item other than a star matches a character. -/
def Item.matchesChar : Item → Char → Bool
  | .star, _ => true
  | .any, _ => true
  | .char d, c => c = d
  | .set negated ranges, c => (ranges.any fun r ↦ r.mem c) != negated

/-- For every place of a list from its front to its end, whether one of the answers from there on
is yes. -/
def anyFrom : List Bool → List Bool
  | [] => []
  | answer :: answers =>
    match anyFrom answers with
    | [] => [answer]
    | later :: more => (answer || later) :: later :: more

/-- For every place of a name from its front to its end, whether the items match what follows
there. A star matches there what the items after it match there or further on. -/
def matchTable (name : List Char) : List Item → List Bool
  | [] => name.map (fun _ ↦ false) ++ [true]
  | .star :: items => anyFrom (matchTable name items)
  | item :: items =>
    List.zipWith (fun c later ↦ item.matchesChar c && later) name (matchTable name items).tail ++
      [false]

/-- Whether the items match a whole name. -/
def matchesItems (items : List Item) (name : List Char) : Bool :=
  (matchTable name items).headD false

/-- Whether a name matches an expression. -/
def matchesName (expression name : String) : Bool :=
  matchesItems (items expression) name.toList

end NamePattern

end DeferredOps
