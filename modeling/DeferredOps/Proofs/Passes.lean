import DeferredOps.Proofs.Abreast
import DeferredOps.Proofs.Batch
import DeferredOps.Proofs.Text.Lines

/-!
# Lines that are applied

A pass over an instruction file reads it line by line while its instructions are at work. As long as
nothing is added to the file, the pass applies the lines that stood there at first. Each line is
counted and reported, and then its instruction is executed: beside the counts and the reports of the
lines, a pass does what the instructions do one after another, up to the first one that fails.
-/

namespace DeferredOps

open Action

namespace PlannedLine

/-- A line that was read as a comment. -/
def isComment (line : PlannedLine) : Bool :=
  match line.outcome with
  | .ok instruction => instruction.directive.isComment
  | .error _ => false

/-- A line that is no instruction. -/
def isUnrecognized (line : PlannedLine) : Bool :=
  match line.outcome with
  | .ok _ => false
  | .error _ => true

/-- The report of progress that comes before a line is applied. -/
def progress (line : PlannedLine) : Notice :=
  (.info, "(" ++ line.lineNumber.repr ++ ") File operation: " ++ line.text)

/-- What is reported in all when a line is applied whose instruction makes some reports itself. -/
def notices (line : PlannedLine) (own : List Notice) : List Notice :=
  line.progress ::
    if line.isUnrecognized then
      (.warning, Report.unknownInstruction line.text line.lineNumber) :: own
    else own

theorem notices_append (line : PlannedLine) (own : List Notice) :
    line.notices [] ++ own = line.notices own := by
  unfold notices
  split <;> rfl

/-- Report a line before its instruction is executed. -/
def report (line : PlannedLine) : RunAction Unit := do
  RunAction.info line.progress.2
  if line.isUnrecognized then
    RunAction.warn (Report.unknownInstruction line.text line.lineNumber)

/-- The counters of a batch after a line has been counted. -/
def counted (line : PlannedLine) (c : Counters) : Counters :=
  let c := c.increment "lines"
  if line.isUnrecognized then c.increment "unrecognized"
  else if line.isComment then c.increment "comments"
  else c

theorem value_counted_lines (line : PlannedLine) (c : Counters) :
    (line.counted c).value "lines" = c.value "lines" + 1 := by
  unfold counted
  split
  · simp [Counters.value_increment]
  · split <;> simp [Counters.value_increment]

theorem value_counted_comments (line : PlannedLine) (c : Counters) :
    (line.counted c).value "comments" = c.value "comments" + if line.isComment then 1 else 0 := by
  unfold counted isUnrecognized isComment
  cases line.outcome with
  | error f => simp [Counters.value_increment]
  | ok instruction =>
    by_cases h : instruction.directive.isComment <;> simp [h, Counters.value_increment]

theorem value_counted_unrecognized (line : PlannedLine) (c : Counters) :
    (line.counted c).value "unrecognized" =
      c.value "unrecognized" + if line.isUnrecognized then 1 else 0 := by
  unfold counted
  split
  · simp [Counters.value_increment]
  · split <;> simp [Counters.value_increment]

end PlannedLine

namespace Batch

open RunAction

/-- The counters of a batch. -/
def counterNames : List String :=
  ["lines", "comments", "unrecognized"]

theorem value_counted_other (line : PlannedLine) (c : Counters) {name : String}
    (hname : name ∉ counterNames) : (line.counted c).value name = c.value name := by
  simp only [counterNames, List.mem_cons, List.not_mem_nil, or_false, not_or] at hname
  unfold PlannedLine.counted
  dsimp only
  split
  · simp [Counters.value_increment, hname]
  · split <;> simp [Counters.value_increment, hname]

variable {batch : Batch} {path : Path} {r : Run} {file : ℕ} {content : Bytes}

/-- Apply the lines of a plan one after another. -/
def follow (batch : Batch) : List PlannedLine → RunAction Unit
  | [] => pure ()
  | line :: rest => do
    batch.processLine line.lineNumber line.text
    batch.follow rest

/-- Execute the instruction of a line, if it has one. -/
def perform (batch : Batch) (line : PlannedLine) : RunAction Unit :=
  match line.outcome with
  | .ok instruction => batch.executor.execute instruction
  | .error _ => pure ()

/-- Execute the instruction of a line, with or without a report of the line before. -/
def executeLine (batch : Batch) (announced : Bool) (line : PlannedLine) : RunAction Unit := do
  if announced then line.report
  batch.perform line

/-- Execute the instructions of a plan one after another. -/
def executeAll (batch : Batch) (announced : Bool) : List PlannedLine → RunAction Unit
  | [] => pure ()
  | line :: rest => do
    batch.executeLine announced line
    batch.executeAll announced rest

/-- The lines that are not blank, numbered and with what they are read as. -/
def plannedLines (batch : Batch) (lineNumber : ℕ) (lines : List Bytes) : List PlannedLine :=
  (lines.zipIdx lineNumber).filterMap fun e ↦
    (lineText? e.1).map fun text ↦ ⟨e.2, text, batch.parseLine e.2 text⟩

/-! ## The parts of a pass -/

theorem composed_processLine (hdirectory : batch.executor.workingDirectory.Proper) (lineNumber : ℕ)
    (line : String) : Composed (counterNames ++ Executor.counterNames)
      (batch.processLine lineNumber line) := by
  refine .bind (.count (by decide)) fun _ ↦ .bind (.report _ _) fun _ ↦ ?_
  split
  · exact .bind (.count (by decide)) fun _ ↦ .report _ _
  · next instruction _ =>
    have hexecute : Composed (counterNames ++ Executor.counterNames)
        (batch.executor.execute instruction) :=
      (Executor.composed_execute batch.executor hdirectory instruction).mono
        (List.subset_append_right _ _)
    split
    · exact .bind (.count (by decide)) fun _ ↦ hexecute
    · exact hexecute

theorem composed_follow (hdirectory : batch.executor.workingDirectory.Proper)
    (planned : List PlannedLine) :
    Composed (counterNames ++ Executor.counterNames) (batch.follow planned) := by
  induction planned with
  | nil => exact .pure _
  | cons line rest ih => exact .bind (composed_processLine hdirectory _ _) fun _ ↦ ih

/-! ## Reading line by line -/

theorem plannedLines_cons (batch : Batch) (lineNumber : ℕ) (line : Bytes) (rest : List Bytes) :
    batch.plannedLines lineNumber (line :: rest) =
      match lineText? line with
      | some text => ⟨lineNumber, text, batch.parseLine lineNumber text⟩ ::
          batch.plannedLines (lineNumber + 1) rest
      | none => batch.plannedLines (lineNumber + 1) rest := by
  unfold plannedLines
  rw [List.zipIdx_cons, List.filterMap_cons]
  cases lineText? line <;> rfl

/-- Nothing has been added so far to a file to which nothing has been added in the end. -/
theorem openContent_of_follow (hdirectory : batch.executor.workingDirectory.Proper)
    (planned : List PlannedLine) (hr : Run.Reads file content r)
    (hquiet : ((batch.follow planned).run r).2.store.openContent file = content) :
    r.store.openContent file = content := by
  have hlater : Run.Reads file (r.store.openContent file) r := ⟨hr.sound, List.prefix_refl _⟩
  have hend := ((composed_follow hdirectory planned).keeps_reads.state hlater).begins
  rw [hquiet] at hend
  exact hend.eq_of_length_le hr.begins.length_le

/-- A pass over an open file that nothing is added to meanwhile applies the planned lines. -/
theorem run_processFrom (hdirectory : batch.executor.workingDirectory.Proper)
    (budget offset lineNumber : ℕ) (hbudget : (content.drop offset).length < budget)
    (hr : r.Sound Store.WellFormed False) (hcontent : r.store.openContent file = content)
    (hquiet : ((batch.follow (batch.plannedLines lineNumber (Text.lines (content.drop offset)))).run
      r).2.store.openContent file = content) :
    (batch.processFrom file budget offset lineNumber).run r =
      (batch.follow (batch.plannedLines lineNumber (Text.lines (content.drop offset)))).run r := by
  induction budget generalizing offset lineNumber r with
  | zero => omega
  | succ budget ih =>
    unfold processFrom
    rw [run_bind, run_get]
    dsimp only
    rw [hcontent]
    cases hrest : content.drop offset with
    | nil =>
      rw [Text.lines_nil]
      rfl
    | cons b rest =>
      have hnext : (b :: rest).drop (Text.firstLine (b :: rest)).2 =
          content.drop (offset + (Text.firstLine (b :: rest)).2) := by
        rw [← hrest, List.drop_drop]
      have hpositive := Text.firstLine_size_pos b rest
      have hshorter : (content.drop (offset + (Text.firstLine (b :: rest)).2)).length < budget := by
        simp only [List.length_drop] at hbudget ⊢
        have hlength := congrArg List.length hrest
        simp only [List.length_drop, List.length_cons] at hlength
        omega
      rw [hrest, Text.lines_cons, hnext, plannedLines_cons] at hquiet
      rw [Text.lines_cons, hnext, plannedLines_cons]
      dsimp only
      cases hline : lineText? (Text.firstLine (b :: rest)).1 with
      | none =>
        simp only [hline] at hquiet
        exact ih _ _ hshorter hr hcontent hquiet
      | some text =>
        simp only [hline, follow] at hquiet ⊢
        rw [run_bind] at hquiet ⊢
        rw [run_bind]
        have hreads : Run.Reads file content r := ⟨hr, hcontent ▸ List.prefix_refl _⟩
        have hmiddle := (composed_processLine hdirectory lineNumber text).keeps_reads.state hreads
        rcases hrun : (batch.processLine lineNumber text).run r with ⟨f | ⟨⟩, r'⟩
        · rfl
        · rw [hrun] at hquiet hmiddle
          have hsame := openContent_of_follow hdirectory _ hmiddle hquiet
          exact ih _ _ hshorter hmiddle.sound hsame hquiet

/-! ## Reported lines -/

variable {e : Run} {line : PlannedLine}

theorem composed_line_report (line : PlannedLine) : Composed [] line.report := by
  refine .bind (.report _ _) fun _ ↦ ?_
  split
  · exact .report _ _
  · exact .pure _

theorem composed_perform (hdirectory : batch.executor.workingDirectory.Proper)
    (line : PlannedLine) : Composed Executor.counterNames (batch.perform line) := by
  unfold perform
  split
  · exact Executor.composed_execute batch.executor hdirectory _
  · exact .pure _

/-- A line is reported and counted, and then its instruction is executed. -/
theorem run_processLine (houtcome : line.outcome = batch.parseLine line.lineNumber line.text)
    (hr : r.Sound Store.WellFormed False) :
    ∃ r', line.report.run r = (.ok (), r') ∧ Run.Reported (line.notices []) r r' ∧
      (batch.processLine line.lineNumber line.text).run r =
        (batch.perform line).run { r' with counters := line.counted r.counters } := by
  have hcount (name : String) (t : Run) : (count name).run t =
      (.ok (), { t with counters := t.counters.increment name }) := rfl
  have hcounters {severity : Severity} {message : String} {t t' : Run}
      (h : (discard (emit severity message (.obj []))).run t = (.ok (), t')) (c : Counters) :
      (discard (emit severity message (.obj []))).run { t with counters := c } =
        (.ok (), { t' with counters := c }) := by
    rw [run_report_counters, h]
  obtain ⟨r₁, hinfo, h₁, hsound₁⟩ := run_report_ok .info
    ("(" ++ line.lineNumber.repr ++ ") File operation: " ++ line.text) hr
  unfold processLine PlannedLine.report PlannedLine.progress
  rw [run_bind, info, hinfo, run_bind, hcount, ← houtcome]
  dsimp only
  rw [run_bind, hcounters hinfo]
  dsimp only
  unfold perform PlannedLine.counted PlannedLine.isUnrecognized PlannedLine.isComment
  cases hline : line.outcome with
  | error f =>
    obtain ⟨r₂, hwarn, h₂, -⟩ := run_report_ok .warning
      (Report.unknownInstruction line.text line.lineNumber) hsound₁
    refine ⟨r₂, hwarn, ?_, ?_⟩
    · simpa [PlannedLine.notices, PlannedLine.progress, PlannedLine.isUnrecognized, hline]
        using h₁.trans h₂
    · dsimp only
      rw [run_bind, hcount]
      dsimp only
      rw [warn, hcounters hwarn]
      rfl
  | ok instruction =>
    refine ⟨r₁, rfl, ?_, ?_⟩
    · simpa [PlannedLine.notices, PlannedLine.progress, PlannedLine.isUnrecognized, hline] using h₁
    · by_cases hcomment : instruction.directive.isComment <;> simp [hcomment, run_bind, hcount]

/-- Without an event file, reporting a line leaves the store alone. -/
theorem store_line_report (line : PlannedLine) (hsilent : r.journal.file = none) :
    (line.report.run r).2.store = r.store := by
  have hkeeps : Keeps (fun t : Run ↦ t.journal.file = none ∧ t.store = r.store) (fun _ ↦ True)
      line.report := by
    have hreport (severity : Severity) (message : String) :
        Keeps (fun t : Run ↦ t.journal.file = none ∧ t.store = r.store) (fun _ ↦ True)
          (discard (emit severity message (.obj []))) := by
      intro t ht
      rw [run_report, ht.1]
      exact ht
    refine (hreport _ _).bind fun _ ↦ ?_
    split
    · exact hreport _ _
    · exact keeps_pure _
  exact (hkeeps.state ⟨hsilent, rfl⟩).2

/-- In a run that stands beside another one a line is reported in the same way, unless it is left out
where no event is written. -/
theorem report_beside {announced : Bool} (line : PlannedLine) (h : r.Abreast e)
    (hsink : announced = false → r.journal.file = none) {r' : Run}
    (hrun : line.report.run r = (.ok (), r')) (hreported : Run.Reported (line.notices []) r r') :
    ∃ e', (if announced then line.report else pure () : RunAction Unit).run e = (.ok (), e') ∧
      r'.Abreast e' ∧ e'.counters.value = e.counters.value ∧ e'.commands = e.commands ∧
      e'.notices = e.notices ++ if announced then line.notices [] else [] := by
  cases announced with
  | false =>
    have hsilent := hsink rfl
    have hstore := store_line_report line hsilent
    rw [hrun] at hstore
    exact ⟨e, rfl, ⟨by rw [hstore, h.store]; rfl, ⟨hstore ▸ h.wellFormed.store, by
      rw [hreported.file]; exact h.wellFormed.journal⟩, h.file.trans hreported.file.symm,
      fun hfile ↦ absurd (hreported.file.trans hsilent) hfile⟩, rfl, rfl, by simp⟩
  | true =>
    obtain ⟨hresult, hstep⟩ := (composed_line_report line).sameIn r e h
    rw [hrun] at hresult hstep
    rcases hrun' : line.report.run e with ⟨f | ⟨⟩, e'⟩ <;>
      rw [hrun'] at hresult hstep <;> cases hresult
    refine ⟨e', hrun', hstep.toAbreast, funext fun name ↦ ?_, ?_, ?_⟩
    · have hcounters : r'.counters.value name - r.counters.value name =
          e'.counters.value name - e.counters.value name := hstep.counters name
      rw [hreported.counters] at hcounters
      omega
    · obtain ⟨new, hr', he'⟩ := hstep.commands
      obtain rfl : new = [] := by simpa [hreported.commands] using hr'
      simpa using he'
    · obtain ⟨new, hr', he'⟩ := hstep.notices
      obtain rfl : new = line.notices [] := by
        rw [hreported.notices] at hr'
        exact (List.append_cancel_left hr').symm
      simpa using he'

/-! ## Applied lines and executed instructions -/

/-- A pass over lines, from `r` to `r'`, beside the execution of their instructions, from `e` to `e'`.
The instructions make the reports `own`, one list for each line. -/
structure Beside (announced : Bool) (done : List PlannedLine) (own : List (List Notice))
    (r r' e e' : Run) : Prop extends Run.Abreast r' e' where
  kept : r'.journal.file = r.journal.file
  length : own.length = done.length
  notices : r'.notices = r.notices ++ (List.zipWith PlannedLine.notices done own).flatten
  ownNotices : e'.notices = e.notices ++
    (if announced then List.zipWith PlannedLine.notices done own else own).flatten
  commands : ∃ new, r'.commands = r.commands ++ new ∧ e'.commands = e.commands ++ new
  lines : r'.counters.value "lines" = r.counters.value "lines" + done.length
  comments : r'.counters.value "comments" =
    r.counters.value "comments" + done.countP PlannedLine.isComment
  unrecognized : r'.counters.value "unrecognized" =
    r.counters.value "unrecognized" + done.countP PlannedLine.isUnrecognized
  others name (hname : name ∉ counterNames) :
    r'.counters.value name - r.counters.value name = e'.counters.value name - e.counters.value name

variable {announced : Bool} {r' r'' e' e'' : Run} {done : List PlannedLine}
  {ownLine : List Notice} {own : List (List Notice)}

theorem Beside.nil (h : r.Abreast e) : Beside announced [] [] r r e e where
  toAbreast := h
  kept := rfl
  length := rfl
  notices := by simp
  ownNotices := by simp
  commands := ⟨[], by simp⟩
  lines := by simp
  comments := by simp
  unrecognized := by simp
  others _ _ := by omega

theorem Beside.cons (h : Beside announced [line] [ownLine] r r' e e')
    (h' : Beside announced done own r' r'' e' e'') :
    Beside announced (line :: done) (ownLine :: own) r r'' e e'' where
  toAbreast := h'.toAbreast
  kept := h'.kept.trans h.kept
  length := by simp [h'.length]
  notices := by
    rw [h'.notices, h.notices]
    simp
  ownNotices := by
    rw [h'.ownNotices, h.ownNotices]
    cases announced <;> simp
  commands := by
    obtain ⟨new, hr, he⟩ := h.commands
    obtain ⟨more, hr', he'⟩ := h'.commands
    exact ⟨new ++ more, by rw [hr', hr, List.append_assoc], by rw [he', he, List.append_assoc]⟩
  lines := by
    rw [h'.lines, h.lines]
    simp only [List.length_cons, List.length_nil]
    omega
  comments := by
    rw [h'.comments, h.comments, List.countP_cons, List.countP_cons]
    simp only [List.countP_nil]
    omega
  unrecognized := by
    rw [h'.unrecognized, h.unrecognized, List.countP_cons, List.countP_cons]
    simp only [List.countP_nil]
    omega
  others name hname := by
    have hfirst := h.others name hname
    have hsecond := h'.others name hname
    omega

/-- One line is applied as its instruction is executed. -/
theorem beside_line (hdirectory : batch.executor.workingDirectory.Proper)
    (houtcome : line.outcome = batch.parseLine line.lineNumber line.text)
    (hr : r.Sound Store.WellFormed False) (h : r.Abreast e)
    (hsink : announced = false → r.journal.file = none) :
    ((batch.executeLine announced line).run e).1 =
        ((batch.processLine line.lineNumber line.text).run r).1 ∧
      ∃ own, Beside announced [line] [own] r ((batch.processLine line.lineNumber line.text).run r).2 e
        ((batch.executeLine announced line).run e).2 := by
  obtain ⟨t, hreport, hreported, hrun⟩ := run_processLine houtcome hr
  obtain ⟨e₁, hreport', habreast, hcounters, hcommands, hnotices⟩ :=
    report_beside line h hsink hreport hreported
  have hrun' : (batch.executeLine announced line).run e = (batch.perform line).run e₁ := by
    unfold executeLine
    cases announced with
    | false =>
      cases hreport'
      rfl
    | true =>
      rw [if_pos rfl] at hreport' ⊢
      rw [run_bind, hreport']
  have hcounted : Run.Abreast { t with counters := line.counted r.counters } e₁ :=
    ⟨habreast.store, ⟨habreast.wellFormed.store, habreast.wellFormed.journal⟩, habreast.file,
      habreast.written⟩
  rw [hrun, hrun']
  obtain ⟨hresult, hstep⟩ := (composed_perform hdirectory line).sameIn _ _ hcounted
  obtain ⟨own, hown, hown'⟩ := hstep.notices
  refine ⟨hresult, own, hstep.toAbreast, hstep.kept.trans hreported.file, rfl, ?_, ?_, ?_, ?_, ?_, ?_,
    fun name hname ↦ ?_⟩
  · rw [hown]
    change t.notices ++ own = _
    rw [hreported.notices, List.append_assoc, PlannedLine.notices_append]
    simp
  · rw [hown', hnotices, List.append_assoc]
    cases announced <;> simp [PlannedLine.notices_append]
  · obtain ⟨new, hr', he'⟩ := hstep.commands
    exact ⟨new, by rw [hr', ← hreported.commands], by rw [he', hcommands]⟩
  · rw [hstep.others "lines" (by decide), PlannedLine.value_counted_lines]
    rfl
  · rw [hstep.others "comments" (by decide), PlannedLine.value_counted_comments, List.countP_singleton]
    split <;> rfl
  · rw [hstep.others "unrecognized" (by decide), PlannedLine.value_counted_unrecognized,
      List.countP_singleton]
    split <;> rfl
  · have hsame := hstep.counters name
    rwa [value_counted_other line _ hname, congrFun hcounters name] at hsame

/-- These are the lines of a plan up to the first one whose instruction fails, if one does, when their
instructions are executed. -/
structure UpToFailure (batch : Batch) (announced : Bool) (planned done : List PlannedLine)
    (outcome : Except Failure Unit) (e : Run) : Prop where
  within : done <+: planned
  result : ((batch.executeAll announced done).run e).1 = outcome
  complete (hok : outcome = .ok ()) : done = planned
  first front (hfront : front <+: done) (hne : front ≠ done) :
    ((batch.executeAll announced front).run e).1 = .ok ()

/-- The lines of a plan up to the first one whose instruction fails are applied as their instructions
are executed. -/
theorem beside_follow (hdirectory : batch.executor.workingDirectory.Proper)
    (planned : List PlannedLine)
    (houtcomes : ∀ line ∈ planned, line.outcome = batch.parseLine line.lineNumber line.text)
    (hr : r.Sound Store.WellFormed False) (h : r.Abreast e)
    (hsink : announced = false → r.journal.file = none) :
    ∃ done own, batch.UpToFailure announced planned done ((batch.follow planned).run r).1 e ∧
      Beside announced done own r ((batch.follow planned).run r).2 e
        ((batch.executeAll announced done).run e).2 := by
  induction planned generalizing r e with
  | nil => exact ⟨[], [], ⟨List.prefix_refl _, rfl, fun _ ↦ rfl, fun _ _ _ ↦ by simp_all⟩, .nil h⟩
  | cons line rest ih =>
    have houtcome := houtcomes line List.mem_cons_self
    obtain ⟨hresult, ownLine, hline⟩ := beside_line hdirectory houtcome hr h hsink
    have hlater := (composed_processLine hdirectory line.lineNumber line.text).sound hr
    unfold follow
    rw [run_bind]
    rcases hrun : (batch.processLine line.lineNumber line.text).run r with ⟨f | ⟨⟩, r'⟩ <;>
      rcases hrun' : (batch.executeLine announced line).run e with ⟨f' | ⟨⟩, e'⟩ <;>
      rw [hrun, hrun'] at hresult hline <;> rw [hrun] at hlater <;> cases hresult
    · -- The instruction of this line fails.
      have hall : (batch.executeAll announced [line]).run e = (.error f, e') := by
        unfold executeAll
        rw [run_bind, hrun']
      refine ⟨[line], [ownLine], ⟨(List.prefix_cons_inj line).mpr List.nil_prefix, by rw [hall],
        by simp, fun front hfront hne ↦ ?_⟩, ?_⟩
      · rcases List.prefix_cons_iff.mp hfront with rfl | ⟨front, rfl, hpre⟩
        · rfl
        · exact absurd (by rw [List.prefix_nil.mp hpre]) hne
      · rw [hall]
        exact hline
    · have hcons (lines : List PlannedLine) : (batch.executeAll announced (line :: lines)).run e =
          (batch.executeAll announced lines).run e' := by
        rw [executeAll, run_bind, hrun']
      obtain ⟨done, own, hdone, hbeside⟩ :=
        ih (fun line hline ↦ houtcomes line (List.mem_cons_of_mem _ hline)) hlater hline.toAbreast
          fun hsilent ↦ hline.kept.trans (hsink hsilent)
      refine ⟨line :: done, ownLine :: own, ⟨(List.prefix_cons_inj line).mpr hdone.within,
        by rw [hcons]; exact hdone.result, fun hok ↦ by rw [hdone.complete hok],
        fun front hfront hne ↦ ?_⟩, by rw [hcons]; exact hline.cons hbeside⟩
      rcases List.prefix_cons_iff.mp hfront with rfl | ⟨front, rfl, hpre⟩
      · rfl
      · rw [hcons]
        exact hdone.first front hpre fun heq ↦ hne (heq ▸ rfl)

end Batch

end DeferredOps
