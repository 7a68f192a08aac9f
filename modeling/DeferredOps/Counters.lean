/-!
# Counters

Whole numbers by name, in the order in which the names first came.
-/

namespace DeferredOps

/-- The counters of a run. -/
structure Counters where
  values : List (String × Int)
  deriving DecidableEq, Repr

namespace Counters

/-- No counter. -/
def empty : Counters := ⟨[]⟩

/-- The value of a counter. -/
def get? (c : Counters) (name : String) : Option Int :=
  c.values.lookup name

/-- The value of a counter; zero if there is none. -/
def value (c : Counters) (name : String) : Int :=
  (c.get? name).getD 0

/-- Give a counter a value. -/
def put (c : Counters) (name : String) (value : Int) : Counters :=
  if c.values.any (·.1 = name) then
    ⟨c.values.map fun entry ↦ if entry.1 = name then (name, value) else entry⟩
  else ⟨c.values ++ [(name, value)]⟩

/-- Add one to a counter. -/
def increment (c : Counters) (name : String) : Counters :=
  c.put name (c.value name + 1)

/-- Start a counter at zero if there is none. -/
def start (c : Counters) (name : String) : Counters :=
  if (c.get? name).isSome then c else c.put name 0

end Counters

end DeferredOps
