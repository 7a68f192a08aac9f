/-!
# Operators outside quotes

Double quotes toggle between quoted and unquoted text, and nothing escapes a quote. The operators
of a move are `>` and `)` where they stand unquoted.
-/

namespace DeferredOps

/-- How often an operator stands unquoted, and where it does so last. -/
structure Occurrences where
  count : Nat
  last : Option Nat
  deriving DecidableEq, Repr

namespace Occurrences

/-- No occurrence. -/
def none : Occurrences := ⟨0, .none⟩

/-- One more occurrence, behind the others. -/
def add (o : Occurrences) (position : Nat) : Occurrences := ⟨o.count + 1, some position⟩

end Occurrences

/-- The unquoted operators of a line. -/
structure OperatorScan where
  replace : Occurrences
  merge : Occurrences
  deriving DecidableEq, Repr

namespace OperatorScan

/-- The scan of an empty line. -/
def empty : OperatorScan := ⟨.none, .none⟩

/-- Scan a line from a position on, quoted or not, after what was found before. -/
def scanFrom (position : Nat) (quoted : Bool) (found : OperatorScan) :
    List Char → OperatorScan
  | [] => found
  | c :: rest =>
    if c = '"' then scanFrom (position + 1) (!quoted) found rest
    else if quoted then scanFrom (position + 1) quoted found rest
    else if c = '>' then
      scanFrom (position + 1) quoted { found with replace := found.replace.add position } rest
    else if c = ')' then
      scanFrom (position + 1) quoted { found with merge := found.merge.add position } rest
    else scanFrom (position + 1) quoted found rest

/-- Scan a line. -/
def ofLine (line : List Char) : OperatorScan :=
  scanFrom 0 false empty line

end OperatorScan

end DeferredOps
