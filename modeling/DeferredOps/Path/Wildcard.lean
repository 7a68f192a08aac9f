import DeferredOps.Path.Basic

/-!
# Wildcard patterns

A path with `*` or `?` in it stands for the files whose names match its last name. The names before
the last one are taken literally, so they may hold neither character.
-/

namespace DeferredOps

namespace Path

/-- The characters that make a name a wildcard. -/
def isWildcardChar (c : Char) : Bool :=
  c == '*' || c == '?'

/-- Whether a text holds a wildcard character. -/
def hasWildcard (text : String) : Bool :=
  text.toList.any isWildcardChar

end Path

/-- What is wrong with a wildcard pattern. -/
inductive WildcardFault
  /-- The last name holds no wildcard, or there is none. -/
  | nameIsLiteral
  /-- A name before the last one holds a wildcard. -/
  | parentIsWild
  deriving DecidableEq, Repr

/-- A pattern that cannot be used, as it was written. -/
structure WildcardError where
  fault : WildcardFault
  pattern : String
  deriving DecidableEq, Repr

/-- The wording of the refusal. -/
def WildcardError.message (e : WildcardError) : String :=
  match e.fault with
  | .nameIsLiteral => "Wildcard must be in the file name part: " ++ e.pattern
  | .parentIsWild => "Wildcard not allowed in parent directory: " ++ e.pattern

/-- A usable pattern: a directory and the expression that names in it have to match. -/
structure Wildcard where
  parent : Path
  expression : String
  deriving DecidableEq, Repr

/-- Split a pattern into its directory and its expression. -/
def Wildcard.ofString (pattern : String) : Except WildcardError Wildcard :=
  let path := Path.ofString pattern
  if !Path.hasWildcard path.name then .error ⟨.nameIsLiteral, pattern⟩
  else if Path.hasWildcard path.parent.text then .error ⟨.parentIsWild, pattern⟩
  else .ok ⟨path.parent, path.name⟩

end DeferredOps
