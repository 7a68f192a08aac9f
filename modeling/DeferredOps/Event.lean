import DeferredOps.Json.Printer
import DeferredOps.Path.Basic
import DeferredOps.Timestamp

/-!
# Events

What a run reports, one event for each message. Events are kept in memory, where they can be asked
for, and each has a one-line JSON form for an event file.
-/

namespace DeferredOps

/-- How serious an event is. -/
inductive Severity
  | info
  | warning
  deriving DecidableEq, Repr

/-- The name of a severity. -/
def Severity.name : Severity → String
  | .info => "INFO"
  | .warning => "WARNING"

/-- A message with the circumstances of its report. -/
structure Event where
  id : String
  time : Timestamp
  severity : Severity
  message : String
  context : Json
  session : Option String
  deriving Repr

namespace Event

/-- An event as a JSON object. -/
def toJson (e : Event) : Json :=
  .obj [("event_id", .str e.id), ("timestamp", .str e.time.iso), ("severity", .str e.severity.name),
    ("message", .str e.message), ("context", e.context),
    ("session_id", match e.session with
      | some session => .str session
      | none => .null)]

/-- The one-line form of an event. -/
def line (e : Event) : String :=
  e.toJson.print

end Event

/-- Where a run's events go: they are all kept; with `console` each also becomes a log record, and
with a file each is also written there as one line. -/
structure Journal where
  file : Option Path
  session : String
  console : Bool
  events : List Event
  deriving Repr

namespace Journal

/-- A journal that only keeps its events. -/
def silent : Journal := ⟨none, "", false, []⟩

/-- The events of a severity and with a text in their message; each of the two conditions may be
left out, and an empty text is none. -/
def query (journal : Journal) (severity : Option Severity) (part : String) : List Event :=
  journal.events.filter fun e ↦
    severity.all (e.severity = ·) && Text.contains e.message.toList part.toList

/-- The events of a query that are not before a time, if one is given; `none` if it cannot be
compared with the times of events. -/
def querySince? (journal : Journal) (severity : Option Severity) (part : String)
    (since : Option Timestamp) : Option (List Event) :=
  match since with
  | none => some (journal.query severity part)
  | some since => (journal.query severity part).filterM (·.time.notBefore? since)

/-- The number of warnings. -/
def warningCount (journal : Journal) : Nat :=
  (journal.query (some .warning) "").length

end Journal

end DeferredOps
