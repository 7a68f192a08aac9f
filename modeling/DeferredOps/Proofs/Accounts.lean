import DeferredOps.Proofs.Passes

/-!
# Accounts of failures

Every failure that an operation survives is counted once and warned of once, and so is every line that
is no instruction, wherever in a pass it happens and however the pass ends. Along any sequence of calls
that share their counters and their journal, the warnings are therefore as many as these two counters
have counted, no counter falls, and the counters of others are left alone.
-/

namespace DeferredOps

open Action

/-! ## Accounts -/

/-- What has been counted that is warned of. -/
def Counters.troubles (c : Counters) : ℤ :=
  c.value "failed" + c.value "unrecognized"

/-- A later state of a run has as many more warnings as its counters have more troubles. No counter is
lower than before, and those that are neither a batch's nor an executor's are what they were. -/
structure Run.Accounted (r r' : Run) : Prop where
  warnings : (r'.journal.warningCount : ℤ) - r.journal.warningCount =
    r'.counters.troubles - r.counters.troubles
  grown : r.counters.Le r'.counters
  others : ∀ name ∉ Batch.counterNames ++ Executor.counterNames,
    r'.counters.get? name = r.counters.get? name

/-- A call of a batch or of an executor. -/
inductive Call
  | run (batch : Batch)
  | execute (x : Executor) (instruction : Instruction)
  | executeValue (value : Json)
  | delete (x : Executor) (pattern : String)
  | move (x : Executor) (source destination : String) (policy : OverwritePolicy)
  | runCommand (x : Executor) (commandLine : String)

/-- What is called. -/
def Call.operation : Call → RunAction Unit
  | .run batch => batch.run
  | .execute x instruction => x.execute instruction
  | .executeValue value => Executor.executeValue value
  | .delete x pattern => x.delete pattern
  | .move x source destination policy => x.move source destination policy
  | .runCommand x commandLine => x.runCommand commandLine

/-- The state after a sequence of calls. A call that fails does not keep the next one from being
made. -/
def Run.after (r : Run) (calls : List Call) : Run :=
  calls.foldl (fun state call ↦ (call.operation.run state).2) r

variable {r r' r'' : Run} {c : Counters} {name other message : String}

/-! ## What is warned of -/

namespace Counters

theorem get?_increment (h : other ≠ name) : (c.increment name).get? other = c.get? other := by
  unfold increment
  rw [get?_put, if_neg h]

theorem troubles_increment : (c.increment name).troubles =
    c.troubles + if name = "failed" ∨ name = "unrecognized" then 1 else 0 := by
  unfold troubles
  rw [value_increment, value_increment]
  by_cases hfailed : name = "failed"
  · subst hfailed
    rw [if_pos rfl, if_neg (by decide), if_pos (.inl rfl)]
    omega
  · by_cases hunrecognized : name = "unrecognized"
    · subst hunrecognized
      rw [if_neg (by decide), if_pos rfl, if_pos (.inr rfl)]
      omega
    · rw [if_neg (Ne.symm hfailed), if_neg (Ne.symm hunrecognized),
        if_neg (not_or.mpr ⟨hfailed, hunrecognized⟩)]
      omega

end Counters

/-- The warnings of a journal are those among what has been reported. -/
theorem Run.warningCount_eq (r : Run) :
    r.journal.warningCount = r.notices.countP (·.1 = .warning) := by
  have hempty (text : List Char) : Text.contains text [] = true := by
    unfold Text.contains
    rfl
  unfold Journal.warningCount Journal.query Run.notices
  rw [List.countP_map, List.countP_eq_length_filter]
  congr 1
  apply List.filter_congr
  intro e _
  simp [hempty]

theorem Run.Reported.warningCount {news : List Notice} (h : r.Reported news r') :
    r'.journal.warningCount = r.journal.warningCount + news.countP (·.1 = .warning) := by
  rw [r'.warningCount_eq, r.warningCount_eq, h.notices, List.countP_append]

/-! ## Steps -/

namespace Run

theorem Accounted.trans (h : r.Accounted r') (h' : r'.Accounted r'') : r.Accounted r'' where
  warnings := by
    have hfirst := h.warnings
    have hsecond := h'.warnings
    omega
  grown name := Int.le_trans (h.grown name) (h'.grown name)
  others name hname := (h'.others name hname).trans (h.others name hname)

/-- Reports account for counts that came before them if they warn of as many troubles. -/
theorem Reported.accounted {news : List Notice} (h : Reported news { r with counters := c } r')
    (htroubles : c.troubles = r.counters.troubles + news.countP (·.1 = .warning))
    (hgrown : r.counters.Le c)
    (hothers : ∀ name ∉ Batch.counterNames ++ Executor.counterNames,
      c.get? name = r.counters.get? name) : r.Accounted r' where
  warnings := by
    have hwarnings : r'.journal.warningCount = r.journal.warningCount + news.countP (·.1 = .warning) :=
      h.warningCount
    rw [h.counters, htroubles, hwarnings]
    omega
  grown := by
    rw [h.counters]
    exact hgrown
  others name hname := by
    rw [h.counters]
    exact hothers name hname

theorem Reported.accounted_of_quiet {news : List Notice} (h : Reported news r r')
    (hquiet : news.countP (·.1 = .warning) = 0) : r.Accounted r' :=
  h.accounted (by rw [hquiet]; omega) (.refl _) fun _ _ ↦ rfl

/-- A count is warned of exactly if it is one of trouble. -/
theorem Reported.accounted_increment {news : List Notice}
    (h : Reported news { r with counters := r.counters.increment name } r')
    (hname : name ∈ Batch.counterNames ++ Executor.counterNames)
    (hnews : news.countP (·.1 = .warning) =
      if name = "failed" ∨ name = "unrecognized" then 1 else 0) : r.Accounted r' := by
  refine h.accounted ?_ ((Counters.Le.refl _).increment name) fun other hother ↦ ?_
  · rw [Counters.troubles_increment, hnews]
    split <;> rfl
  · exact Counters.get?_increment fun heq ↦ hother (heq ▸ hname)

theorem accounted_of_eq (hjournal : r'.journal = r.journal) (hcounters : r'.counters = r.counters) :
    r.Accounted r' where
  warnings := by
    rw [hjournal, hcounters]
    omega
  grown := hcounters ▸ .refl r.counters
  others _ _ := by rw [hcounters]

end Run

/-- What accounts for itself may come after what is accounted for. -/
theorem keeps_accounted {α : Type} {x : RunAction α}
    (h : ∀ t : Run, t.Accounted (x.run t).2) : Keeps r.Accounted (fun _ ↦ True) x :=
  keeps_of_state fun t ht ↦ ht.trans (h t)

/-- A trouble is counted and warned of, even if the warning cannot be written to the event file. -/
theorem keeps_accounted_trouble (hname : name ∈ Batch.counterNames ++ Executor.counterNames)
    (htrouble : name = "failed" ∨ name = "unrecognized") (message : String) :
    Keeps r.Accounted (fun _ ↦ True) (do RunAction.count name; RunAction.warn message) := by
  apply keeps_accounted
  intro t
  -- Between the count and the report the two disagree, so they are taken as one step.
  have hreported := RunAction.reported_report .warning message
    { t with counters := t.counters.increment name }
  exact hreported.accounted_increment hname (by rw [if_pos htrouble]; rfl)

theorem keeps_accounted_count (hname : name ∈ Batch.counterNames ++ Executor.counterNames)
    (htrouble : ¬ (name = "failed" ∨ name = "unrecognized")) :
    Keeps r.Accounted (fun _ ↦ True) (RunAction.count name) := by
  apply keeps_accounted
  intro t
  exact (Run.Reported.none rfl rfl rfl).accounted_increment hname (by rw [if_neg htrouble]; rfl)

theorem keeps_accounted_info (message : String) :
    Keeps r.Accounted (fun _ ↦ True) (RunAction.info message) := by
  apply keeps_accounted
  intro t
  exact (RunAction.reported_report .info message t).accounted_of_quiet rfl

/-- The operations of an executor account for what they do. -/
theorem bookkeeping_accounted (r : Run) : Bookkeeping r.Accounted where
  store t _ ht := ht.trans (Run.accounted_of_eq rfl rfl)
  command t _ ht := ht.trans (Run.accounted_of_eq rfl rfl)
  count t name hname hother ht := by
    have htrouble : ¬ (name = "failed" ∨ name = "unrecognized") := by
      rintro (rfl | rfl)
      · exact hother rfl
      · exact absurd hname (by decide)
    exact (keeps_accounted_count (List.mem_append_right _ hname) htrouble).state ht
  info := keeps_accounted_info
  failed := keeps_accounted_trouble (by decide) (.inl rfl)

/-! ## Passes -/

namespace Batch

open RunAction

theorem keeps_accounted_processLine (batch : Batch) (lineNumber : ℕ) (line : String) :
    Keeps r.Accounted (fun _ ↦ True) (batch.processLine lineNumber line) := by
  refine (keeps_accounted_count (by decide) (by decide)).bind fun _ ↦
    (keeps_accounted_info _).bind fun _ ↦ ?_
  split
  · exact keeps_accounted_trouble (by decide) (.inr rfl) _
  · have hexecute := (bookkeeping_accounted r).execute batch.executor
    split
    · exact (keeps_accounted_count (by decide) (by decide)).bind fun _ ↦ hexecute _
    · exact hexecute _

theorem keeps_accounted_run (batch : Batch) : Keeps r.Accounted (fun _ ↦ True) batch.run := by
  have hstore {α : Type} (action : StoreAction α) := (bookkeeping_accounted r).onStore action
  -- The instruction file is looked for, then read line by line, closed, and removed.
  refine Keeps.bind ?_ fun path? ↦ ?_
  · refine (keeps_ask_frame _).bind fun path? ↦ ?_
    split
    · exact keeps_pure _
    · exact (keeps_ask_frame _).bind fun _ ↦ keeps_pure _
  split
  · exact keeps_pure _
  · refine keeps_ending ((hstore _).bind fun opened ↦ ?_) (hstore _)
    refine keeps_ending (keeps_processFrom batch.keeps_accounted_processLine _ _ _ _)
      (keeps_modify fun t ht ↦ ?_)
    exact ht.trans (Run.accounted_of_eq rfl rfl)

end Batch

/-! ## Calls -/

theorem Call.accounted (call : Call) (r : Run) : r.Accounted (call.operation.run r).2 := by
  have hexecutor := bookkeeping_accounted r
  have hcall : Keeps r.Accounted (fun _ ↦ True) call.operation := by
    cases call with
    | run batch => exact batch.keeps_accounted_run
    | execute x instruction => exact hexecutor.execute x instruction
    | executeValue value => exact keeps_throw trivial
    | delete x pattern => exact hexecutor.delete x pattern
    | move x source destination policy => exact hexecutor.move x source destination policy
    | runCommand x commandLine => exact hexecutor.runCommand x commandLine
  exact hcall.state (Run.accounted_of_eq rfl rfl)

/-- From any moment in a sequence of calls to any later one, warnings and counters agree. -/
theorem accounted_after (r : Run) (earlier later : List Call) :
    (r.after earlier).Accounted (r.after (earlier ++ later)) := by
  unfold Run.after
  rw [List.foldl_append]
  generalize earlier.foldl _ r = t
  induction later generalizing t with
  | nil => exact Run.accounted_of_eq rfl rfl
  | cons call later ih => exact (call.accounted t).trans (ih _)

end DeferredOps
