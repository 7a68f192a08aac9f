import DeferredOps.Run

/-!
# Waiting for the host process

Instructions are applied only after the host process has ended. Waiting goes in turns: each asks for
the state of the process, reads the clock, and waits for the end of the process no longer than until
the deadline and no longer than the poll interval. What the process and the clock answer is given
turn by turn; after the last turn the process ends when it is waited for. Times are exact fractions
of seconds; what a clock cannot tell exactly it rounds.
-/

namespace DeferredOps.HostProcess

/-- The times that a clock can tell. -/
structure TimeScale where
  /-- The time that stands for the result of an addition or a subtraction. -/
  round : Rat → Rat
  /-- Whether a time is within the range of the clock. -/
  reaches : Rat → Bool

/-- All times, exactly. -/
def TimeScale.exact : TimeScale := ⟨id, fun _ ↦ true⟩

/-- The times that are floating-point numbers of sixty-four bits. Beyond the greatest of them is one
further time. -/
def TimeScale.binary64 : TimeScale where
  round time :=
    match Binary64.nearest time with
    | .infinite negative => if negative then -Binary64.bound else Binary64.bound
    | x => x.toRat
  reaches time := (Binary64.nearest time).isFinite

/-- What a process answers when it is asked for its state. -/
inductive StateAnswer
  | running
  | zombie
  | gone
  | denied
  deriving DecidableEq, Repr

/-- What comes of a wait. -/
inductive WaitAnswer
  | ended
  /-- The time ran out, and the clock then was further on than the time waited by this much. -/
  | expired (extra : Rat)
  | gone
  | denied
  deriving DecidableEq, Repr

/-- One turn: the state, the time that passes before the clock is read, and the wait. -/
structure Turn where
  state : StateAnswer
  pause : Rat
  wait : WaitAnswer
  deriving DecidableEq, Repr

/-- The turn of a process that ends when it is waited for. -/
def Turn.last : Turn := ⟨.running, 0, .ended⟩

/-- What is found when the process is first looked for. -/
inductive Lookup
  | there (turns : List Turn)
  | missing
  | denied
  deriving Repr

/-- What is waited for: the process, how long, how often, and whether its number is still taken when
the process cannot be asked. -/
structure Request where
  pid : Int
  timeout : Rat
  /-- The timeout as messages show it. -/
  timeoutText : String
  pollInterval : Rat
  pidTaken : Bool
  deriving Repr

/-- Why the waiting ended. -/
inductive Verdict
  | notRunning
  | zombie
  | exited
  | stillRunning
  /-- The process cannot be asked. -/
  | unreadable
  deriving DecidableEq, Repr

/-- The timeouts that were asked for, in order, and why the waiting ended. -/
structure Outcome where
  waits : List Rat
  verdict : Verdict
  deriving Repr

/-- An outcome after one more wait before it. -/
def Outcome.after (o : Outcome) (wait : Rat) : Outcome :=
  { o with waits := wait :: o.waits }

/-- How long the next wait may take: until the deadline, no longer than the poll interval, and not
less than no time. -/
def waitTime (scale : TimeScale) (r : Request) (deadline clock : Rat) : Rat :=
  let left := scale.round (deadline - clock)
  let time := if left ≤ r.pollInterval then left else r.pollInterval
  if time ≤ 0 then 0 else time

/-- Take turns until the waiting ends. -/
def takeTurns (scale : TimeScale) (r : Request) (deadline clock : Rat) : List Turn → Outcome
  | [] => ⟨[waitTime scale r deadline clock], .exited⟩
  | turn :: turns =>
    match turn.state with
    | .zombie => ⟨[], .zombie⟩
    | .gone => ⟨[], .exited⟩
    | .denied => ⟨[], .unreadable⟩
    | .running =>
      let clock := scale.round (clock + turn.pause)
      let wait := waitTime scale r deadline clock
      match turn.wait with
      | .ended | .gone => ⟨[wait], .exited⟩
      | .denied => ⟨[wait], .unreadable⟩
      | .expired extra =>
        let clock := scale.round (clock + scale.round (wait + extra))
        if deadline ≤ clock then ⟨[wait], .stillRunning⟩
        else (takeTurns scale r deadline clock turns).after wait

/-- Why a process cannot be waited for. -/
inductive Obstacle
  /-- The process may not be looked for. -/
  | denied
  /-- The timeout is out of the clock's range. -/
  | tooLong
  deriving DecidableEq, Repr

/-- Wait for a process, from a reading of the clock on. -/
def wait (scale : TimeScale) (r : Request) (clock : Rat) : Lookup → Except Obstacle Outcome
  | .missing => .ok ⟨[], .notRunning⟩
  | .denied => .error .denied
  | .there turns =>
    if scale.reaches r.timeout then
      .ok (takeTurns scale r (scale.round (clock + scale.round r.timeout)) clock turns)
    else .error .tooLong

/-- Whether the process is gone. -/
def Verdict.isGone (r : Request) : Verdict → Bool
  | .notRunning | .zombie | .exited => true
  | .stillRunning => false
  | .unreadable => !r.pidTaken

/-- The text of a refusal to ask a process. -/
def deniedText (pid : Int) : String :=
  "(pid=" ++ Json.intText pid ++ ")"

/-- The wording of an obstacle. -/
def Obstacle.message (r : Request) : Obstacle → String
  | .denied => deniedText r.pid
  | .tooLong => Json.outOfRangeText

/-- The log record of a verdict. -/
def Verdict.record (r : Request) : Verdict → LogRecord
  | .notRunning => ⟨.info, "Host process " ++ Json.intText r.pid ++ " is not running"⟩
  | .zombie => ⟨.info, "Host process " ++ Json.intText r.pid ++ " has exited (zombie)"⟩
  | .exited => ⟨.info, "Host process " ++ Json.intText r.pid ++ " has exited"⟩
  | .stillRunning =>
    ⟨.warning, "Host process " ++ Json.intText r.pid ++ " still running after " ++ r.timeoutText ++
      "s"⟩
  | .unreadable =>
    ⟨.warning, "Cannot inspect host process " ++ Json.intText r.pid ++ ": " ++ deniedText r.pid⟩

end DeferredOps.HostProcess
