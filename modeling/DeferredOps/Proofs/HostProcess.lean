import DeferredOps.HostProcess
import Mathlib.Algebra.Order.Ring.Rat
import Mathlib.Tactic.NormNum

/-!
# Waiting within bounds

A script of turns, with the readings of the clock that belong to them, is played up to the first turn
that ends the waiting. No wait may take longer than until the deadline or than the poll interval,
nothing is asked after the deadline has been seen, and the answer that the process is gone, or that
it is still there, has a reason in the last turn that was played.
-/

namespace DeferredOps.HostProcess

/-! ## Rounds -/

/-- How much further on than the time waited the clock is when a wait has expired. -/
def WaitAnswer.extra : WaitAnswer → Rat
  | .expired extra => extra
  | _ => 0

/-- A turn with its readings of the clock, right before the wait and after it, and with the time that
the wait may take. -/
structure Round where
  turn : Turn
  before : Rat
  time : Rat
  after : Rat

/-- A turn that begins at a reading of the clock. -/
def Turn.round (r : Request) (deadline clock : Rat) (turn : Turn) : Round :=
  let before := clock + turn.pause
  let time := max (min (deadline - before) r.pollInterval) 0
  ⟨turn, before, time, before + (time + turn.wait.extra)⟩

/-- Any two readings of the clock are those of a turn whose wait expires. -/
theorem Turn.exists_round (r : Request) (deadline clock before after : Rat) :
    ∃ pause extra, (Turn.round r deadline clock ⟨.running, pause, .expired extra⟩).before = before ∧
      (Turn.round r deadline clock ⟨.running, pause, .expired extra⟩).after = after := by
  refine ⟨before - clock, after - before - max (min (deadline - before) r.pollInterval) 0, ?_, ?_⟩
  · simp [Turn.round]
  · simp [Turn.round, WaitAnswer.extra]

/-- The rounds of a script one after another, whether or not the waiting ends before. -/
def rounds (r : Request) (deadline clock : Rat) : List Turn → List Round
  | [] => [Turn.last.round r deadline clock]
  | turn :: turns =>
    turn.round r deadline clock :: rounds r deadline (turn.round r deadline clock).after turns

/-- The rounds of what is found at a reading of the clock, from which the timeout counts. -/
def Lookup.rounds (r : Request) (start : Rat) : Lookup → List Round
  | .there turns => HostProcess.rounds r (start + r.timeout) start turns
  | _ => []

namespace Round

/-- The wait of a round was asked for and expired. -/
def Expired (x : Round) : Prop :=
  x.turn.state = .running ∧ ∃ extra, x.turn.wait = .expired extra

/-- The process was found missing or a zombie, or it ended or went away during a wait. -/
def Ended (x : Round) : Prop :=
  x.turn.state = .zombie ∨ x.turn.state = .gone ∨
    x.turn.state = .running ∧ (x.turn.wait = .ended ∨ x.turn.wait = .gone)

/-- The process could not be asked, or could not be waited for. -/
def Unreadable (x : Round) : Prop :=
  x.turn.state = .denied ∨ x.turn.state = .running ∧ x.turn.wait = .denied

/-- The waits that a round asks for. -/
def waits (x : Round) : List Rat :=
  if x.turn.state = .running then [x.time] else []

/-- How a round ends the waiting, unless it goes on. -/
def verdict? (deadline : Rat) (x : Round) : Option Verdict :=
  match x.turn.state, x.turn.wait with
  | .zombie, _ => some .zombie
  | .gone, _ => some .exited
  | .denied, _ => some .unreadable
  | .running, .ended => some .exited
  | .running, .gone => some .exited
  | .running, .denied => some .unreadable
  | .running, .expired _ => if deadline ≤ x.after then some .stillRunning else none

end Round

variable {r : Request} {deadline clock start : Rat} {turn : Turn} {turns : List Turn} {x : Round}
  {verdict : Verdict} {o : Outcome}

/-- Only a wait that expired before the deadline lets the waiting go on. -/
theorem Round.verdict?_eq_none_iff :
    x.verdict? deadline = none ↔ x.Expired ∧ x.after < deadline := by
  obtain ⟨⟨state, pause, wait⟩, before, time, after⟩ := x
  cases state <;> cases wait <;> simp [verdict?, Expired]

/-- The verdict of a round says that the process is gone if it has ended, or if it cannot be asked
and its number is free. -/
theorem Round.isGone_iff (h : x.verdict? deadline = some verdict) :
    verdict.isGone r = true ↔ x.Ended ∨ x.Unreadable ∧ r.pidTaken = false := by
  obtain ⟨⟨state, pause, wait⟩, before, time, after⟩ := x
  cases state with
  | zombie | gone | denied =>
    cases h
    simp [Verdict.isGone, Ended, Unreadable]
  | running =>
    cases wait with
    | ended | gone | denied =>
      cases h
      simp [Verdict.isGone, Ended, Unreadable]
    | expired extra =>
      obtain ⟨-, hverdict⟩ := Option.ite_none_right_eq_some.mp h
      cases hverdict
      simp [Verdict.isGone, Ended, Unreadable]

/-- It says that the process is still there if a wait has expired by the deadline, or if the process
cannot be asked and its number is taken. -/
theorem Round.isGone_eq_false_iff (h : x.verdict? deadline = some verdict) :
    verdict.isGone r = false ↔
      x.Expired ∧ deadline ≤ x.after ∨ x.Unreadable ∧ r.pidTaken = true := by
  obtain ⟨⟨state, pause, wait⟩, before, time, after⟩ := x
  cases state with
  | zombie | gone | denied =>
    cases h
    simp [Verdict.isGone, Expired, Unreadable]
  | running =>
    cases wait with
    | ended | gone | denied =>
      cases h
      simp [Verdict.isGone, Expired, Unreadable]
    | expired extra =>
      obtain ⟨hlate, hverdict⟩ := Option.ite_none_right_eq_some.mp h
      cases hverdict
      simp [Verdict.isGone, Expired, Unreadable, hlate]

/-! ## One turn -/

theorem waitTime_exact : waitTime .exact r deadline clock =
    max (min (deadline - clock) r.pollInterval) 0 := by
  unfold waitTime
  rw [max_def, min_def]
  rfl

/-- No wait may take longer than until the deadline, nor than the poll interval. -/
theorem Turn.time_round (r : Request) (deadline clock : Rat) (turn : Turn) :
    0 ≤ (turn.round r deadline clock).time ∧
      (turn.round r deadline clock).time ≤ max r.pollInterval 0 ∧
      (turn.round r deadline clock).time ≤
        max (deadline - (turn.round r deadline clock).before) 0 :=
  ⟨le_max_right _ _, max_le_max_right 0 (min_le_right _ _), max_le_max_right 0 (min_le_left _ _)⟩

/-- A turn ends the waiting with the verdict of its round, or leaves the rest to the turns after it. -/
theorem takeTurns_cons (r : Request) (deadline clock : Rat) (turn : Turn) (turns : List Turn) :
    takeTurns .exact r deadline clock (turn :: turns) =
      match (turn.round r deadline clock).verdict? deadline with
      | some verdict => ⟨(turn.round r deadline clock).waits, verdict⟩
      | none =>
        (takeTurns .exact r deadline (turn.round r deadline clock).after turns).after
          (turn.round r deadline clock).time := by
  obtain ⟨state, pause, wait⟩ := turn
  rw [takeTurns]
  dsimp only
  rw [waitTime_exact]
  cases state with
  | zombie | gone | denied => rfl
  | running =>
    cases wait with
    | ended | gone | denied => rfl
    | expired extra =>
      let x := Turn.round r deadline clock ⟨.running, pause, .expired extra⟩
      change _ = match if deadline ≤ x.after then some Verdict.stillRunning else none with
        | some verdict => (⟨x.waits, verdict⟩ : Outcome)
        | none => (takeTurns .exact r deadline x.after turns).after x.time
      by_cases hlate : deadline ≤ x.after
      · rw [if_pos hlate]
        exact if_pos hlate
      · rw [if_neg hlate]
        exact if_neg hlate

theorem takeTurns_nil (r : Request) (deadline clock : Rat) :
    takeTurns .exact r deadline clock [] =
      ⟨(Turn.last.round r deadline clock).waits, .exited⟩ := by
  rw [takeTurns, waitTime_exact]
  simp [Turn.round, Turn.last, Round.waits]

/-! ## A whole run -/

/-- A run goes through rounds that leave the waiting open, and ends with the verdict of the one after
them. -/
structure Played (deadline : Rat) (passed : List Round) (last : Round) (o : Outcome) : Prop where
  left_open : ∀ x ∈ passed, x.verdict? deadline = none
  verdict : last.verdict? deadline = some o.verdict
  waits : o.waits = (passed ++ [last]).flatMap Round.waits

theorem Played.cons {passed : List Round} (h : Played deadline passed x o) {first : Round}
    (hfirst : first.verdict? deadline = none) :
    Played deadline (first :: passed) x (o.after first.time) where
  left_open := List.forall_mem_cons.mpr ⟨hfirst, h.left_open⟩
  verdict := h.verdict
  waits := by
    have hrunning : first.turn.state = .running := (Round.verdict?_eq_none_iff.mp hfirst).1.1
    have hwaits : first.waits = [first.time] := if_pos hrunning
    rw [List.cons_append, List.flatMap_cons, ← h.waits, hwaits]
    rfl

/-- A script is played up to a round that ends the waiting. When that is an expired wait, what the
script goes on with does not matter. -/
theorem exists_played (r : Request) (deadline : Rat) (turns : List Turn) (clock : Rat) :
    ∃ passed last, passed ++ [last] <+: rounds r deadline clock turns ∧
      Played deadline passed last (takeTurns .exact r deadline clock turns) ∧
      (last.Expired → ∀ more,
        takeTurns .exact r deadline clock (turns.take (passed.length + 1) ++ more) =
          takeTurns .exact r deadline clock turns) := by
  induction turns generalizing clock with
  | nil =>
    refine ⟨[], Turn.last.round r deadline clock, List.prefix_rfl, ?_, ?_⟩
    · rw [takeTurns_nil]
      exact ⟨by simp, rfl, by simp⟩
    · rintro ⟨-, extra, hwait⟩
      cases hwait
  | cons turn turns ih =>
    cases hverdict : (turn.round r deadline clock).verdict? deadline with
    | some verdict =>
      have hturn (more : List Turn) : takeTurns .exact r deadline clock (turn :: more) =
          ⟨(turn.round r deadline clock).waits, verdict⟩ := by
        rw [takeTurns_cons, hverdict]
      refine ⟨[], turn.round r deadline clock, ?_, ?_, ?_⟩
      · exact (List.prefix_cons_inj _).mpr List.nil_prefix
      · rw [hturn]
        exact ⟨by simp, hverdict, by simp⟩
      · intro _ more
        exact (hturn _).trans (hturn _).symm
    | none =>
      have hturn (more : List Turn) : takeTurns .exact r deadline clock (turn :: more) =
          (takeTurns .exact r deadline (turn.round r deadline clock).after more).after
            (turn.round r deadline clock).time := by
        rw [takeTurns_cons, hverdict]
      obtain ⟨passed, last, hfront, hplayed, hsettled⟩ := ih (turn.round r deadline clock).after
      refine ⟨turn.round r deadline clock :: passed, last, ?_, ?_, ?_⟩
      · exact (List.prefix_cons_inj _).mpr hfront
      · rw [hturn]
        exact hplayed.cons hverdict
      · intro hexpired more
        rw [hturn, ← hsettled hexpired more]
        exact hturn _

theorem time_of_mem_rounds (turns : List Turn) (clock : Rat)
    (hx : x ∈ rounds r deadline clock turns) :
    0 ≤ x.time ∧ x.time ≤ max r.pollInterval 0 ∧ x.time ≤ max (deadline - x.before) 0 := by
  induction turns generalizing clock with
  | nil =>
    rw [List.mem_singleton.mp hx]
    exact Turn.time_round r deadline clock _
  | cons turn turns ih =>
    rcases List.mem_cons.mp hx with rfl | hx
    · exact Turn.time_round r deadline clock turn
    · exact ih _ hx

/-- The readings of the clock, from one on, never go back. -/
def Advances (clock : Rat) (asked : List Round) : Prop :=
  (clock :: asked.flatMap fun x ↦ [x.before, x.after]).Pairwise (· ≤ ·)

/-- What a run that asks for these rounds, out of those that were scripted, may do and may answer. -/
structure Sound (r : Request) (start : Rat) (found : Lookup) (o : Outcome) (asked : List Round) :
    Prop where
  scripted : asked <+: found.rounds r start
  waits : o.waits = asked.flatMap Round.waits
  /-- No wait takes longer than the poll interval, nor than until the deadline. -/
  bounded : ∀ x ∈ asked, 0 ≤ x.time ∧ x.time ≤ max r.pollInterval 0 ∧
    x.time ≤ max (start + r.timeout - x.before) 0
  /-- Nothing is asked once a wait has expired by the deadline. -/
  last_of_late : ∀ before x after, asked = before ++ x :: after → x.Expired →
    start + r.timeout ≤ x.after → after = []
  /-- Nor does it matter what would have been answered then. -/
  settled : ∀ turns, found = .there turns → ∀ x ∈ asked.getLast?, x.Expired →
    ∀ more, wait .exact r start (.there (turns.take asked.length ++ more)) = .ok o
  once : r.timeout ≤ 0 → Advances start asked → o.waits.length ≤ 1
  isGone_iff : o.verdict.isGone r = true ↔ found = .missing ∨
    ∃ x ∈ asked.getLast?, x.Ended ∨ x.Unreadable ∧ r.pidTaken = false
  isGone_eq_false_iff : o.verdict.isGone r = false ↔
    ∃ x ∈ asked.getLast?, x.Expired ∧ start + r.timeout ≤ x.after ∨
      x.Unreadable ∧ r.pidTaken = true

theorem wait_there (r : Request) (start : Rat) (turns : List Turn) :
    wait .exact r start (.there turns) =
      .ok (takeTurns .exact r (start + r.timeout) start turns) :=
  rfl

theorem Round.length_waits_le (x : Round) : x.waits.length ≤ 1 := by
  unfold waits
  split <;> simp

/-- With no time to wait, a round whose clock does not go back ends the waiting. -/
theorem Played.eq_nil_of_advances {passed : List Round}
    (h : Played (start + r.timeout) passed x o) (htimeout : r.timeout ≤ 0)
    (hadvances : Advances start (passed ++ [x])) : passed = [] := by
  cases passed with
  | nil => rfl
  | cons first passed =>
    have hearly : first.after < start + r.timeout :=
      (Round.verdict?_eq_none_iff.mp (h.left_open first List.mem_cons_self)).2
    have hlate : start ≤ first.after := (List.pairwise_cons.mp hadvances).1 _ (by simp)
    have hpast : start + r.timeout ≤ start := add_le_of_nonpos_right htimeout
    exact absurd (hearly.trans_le hpast) hlate.not_gt

theorem sound_of_played {passed : List Round}
    (hscripted : passed ++ [x] <+: rounds r (start + r.timeout) start turns)
    (hplayed : Played (start + r.timeout) passed x
      (takeTurns .exact r (start + r.timeout) start turns))
    (hsettled : x.Expired → ∀ more,
      takeTurns .exact r (start + r.timeout) start (turns.take (passed.length + 1) ++ more) =
        takeTurns .exact r (start + r.timeout) start turns) :
    Sound r start (.there turns) (takeTurns .exact r (start + r.timeout) start turns)
      (passed ++ [x]) where
  scripted := hscripted
  waits := hplayed.waits
  bounded y hy := time_of_mem_rounds turns start (hscripted.subset hy)
  last_of_late before y after hasked hexpired hlate := by
    rcases List.eq_nil_or_concat after with rfl | ⟨after, z, rfl⟩
    · rfl
    · have hpassed : passed ++ [x] = before ++ y :: after ++ [z] := by simpa using hasked
      have hy : y ∈ passed := by
        rw [(List.append_inj' hpassed rfl).1]
        simp
      have hearly := (Round.verdict?_eq_none_iff.mp (hplayed.left_open y hy)).2
      exact absurd hearly hlate.not_gt
  settled others hothers y hy hexpired more := by
    cases hothers
    rw [List.getLast?_concat, Option.mem_some_iff] at hy
    rw [wait_there, List.length_append]
    exact congrArg _ (hsettled (hy ▸ hexpired) more)
  once htimeout hadvances := by
    have hpassed := hplayed.eq_nil_of_advances htimeout hadvances
    rw [hplayed.waits, hpassed, List.nil_append, List.flatMap_singleton]
    exact x.length_waits_le
  isGone_iff := by
    rw [Round.isGone_iff hplayed.verdict]
    simp
  isGone_eq_false_iff := by
    rw [Round.isGone_eq_false_iff hplayed.verdict]
    simp

/-- Waiting keeps to its bounds, and its answer has a reason, whatever the process and the clock
answer. -/
theorem exists_sound (r : Request) (start : Rat) (found : Lookup) (hfound : found ≠ .denied) :
    ∃ o asked, wait .exact r start found = .ok o ∧ Sound r start found o asked := by
  cases found with
  | denied => exact absurd rfl hfound
  | missing =>
    refine ⟨⟨[], .notRunning⟩, [], rfl, ?_⟩
    exact { scripted := List.prefix_rfl
            waits := rfl
            bounded := by simp
            last_of_late := by simp
            settled := by simp
            once := by simp
            isGone_iff := by simp [Verdict.isGone]
            isGone_eq_false_iff := by simp [Verdict.isGone] }
  | there turns =>
    obtain ⟨passed, last, hscripted, hplayed, hsettled⟩ :=
      exists_played r (start + r.timeout) turns start
    exact ⟨_, passed ++ [last], rfl, sound_of_played hscripted hplayed hsettled⟩

/-- Two waits expire, the second one after a late reading of the clock. -/
theorem exists_sound_two_waits :
    Lookup.there [⟨.running, 0, .expired 0⟩, ⟨.running, 1 / 4, .expired (1 / 2)⟩] ≠ .denied ∧
      wait .exact ⟨7, 1, "1", 1 / 2, true⟩ 1000
          (.there [⟨.running, 0, .expired 0⟩, ⟨.running, 1 / 4, .expired (1 / 2)⟩]) =
        .ok ⟨[1 / 2, 1 / 4], .stillRunning⟩ ∧
      ∃ o asked, wait .exact ⟨7, 1, "1", 1 / 2, true⟩ 1000
          (.there [⟨.running, 0, .expired 0⟩, ⟨.running, 1 / 4, .expired (1 / 2)⟩]) = .ok o ∧
        Sound ⟨7, 1, "1", 1 / 2, true⟩ 1000
          (.there [⟨.running, 0, .expired 0⟩, ⟨.running, 1 / 4, .expired (1 / 2)⟩]) o asked := by
  refine ⟨nofun, ?_, exists_sound _ _ _ nofun⟩
  norm_num [wait, takeTurns, waitTime, TimeScale.exact, Outcome.after]

end DeferredOps.HostProcess
