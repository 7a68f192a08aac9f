import DeferredOps.Proofs.Run

/-!
# What a report does

A report notes an event with a fresh name and the time, and where there is an event file it adds the
line of the event to it. Nothing else changes, and a report fails only if the path of the event file
holds the character NUL.
-/

namespace DeferredOps

open Action

/-- A message with its severity. -/
abbrev Notice := Severity × String

namespace Run

/-- What a run has reported, without names and times. -/
def notices (r : Run) : List Notice :=
  r.journal.events.map fun e ↦ (e.severity, e.message)

/-- The event that the next report makes. -/
def nextEvent (r : Run) (severity : Severity) (message : String) : Event :=
  ⟨r.names.stem ++ (r.names.used + 1).repr, r.clock.read.1, severity, message, .obj [],
    some r.journal.session⟩

/-- A run that has noted an event and not written it. -/
def noted (r : Run) (severity : Severity) (message : String) : Run :=
  { r with
    names := { r.names with used := r.names.used + 1 }
    clock := r.clock.read.2
    journal := { r.journal with events := r.journal.events ++ [r.nextEvent severity message] }
    log :=
      if r.journal.console then
        r.log ++ [⟨match severity with
          | .info => .info
          | .warning => .warning, message⟩]
      else r.log }

/-- The event that the next report makes in a context. -/
def nextEventIn (r : Run) (severity : Severity) (message : String) (context : Json) : Event :=
  { r.nextEvent severity message with context }

/-- A run that has noted an event in a context and not written it. -/
def notedIn (r : Run) (severity : Severity) (message : String) (context : Json) : Run :=
  { r.noted severity message with
    journal :=
      { r.journal with events := r.journal.events ++ [r.nextEventIn severity message context] } }

/-- Reports have been made. Nothing else has changed, apart from the store and the log. -/
structure Reported (news : List Notice) (r r' : Run) : Prop where
  counters : r'.counters = r.counters
  file : r'.journal.file = r.journal.file
  notices : r'.notices = r.notices ++ news
  commands : r'.commands = r.commands

theorem Reported.none {r r' : Run} (hcounters : r'.counters = r.counters)
    (hjournal : r'.journal = r.journal) (hcommands : r'.commands = r.commands) :
    Reported [] r r' where
  counters := hcounters
  file := by rw [hjournal]
  notices := by simp [Run.notices, hjournal]
  commands := hcommands

theorem Reported.trans {news more : List Notice} {r r' r'' : Run} (h : Reported news r r')
    (h' : Reported more r' r'') : Reported (news ++ more) r r'' where
  counters := h'.counters.trans h.counters
  file := h'.file.trans h.file
  notices := by rw [h'.notices, h.notices, List.append_assoc]
  commands := h'.commands.trans h.commands

theorem reported_noted (severity : Severity) (message : String) (r : Run) :
    Reported [(severity, message)] r (r.noted severity message) :=
  ⟨rfl, rfl, by simp [Run.notices, noted, nextEvent], rfl⟩

end Run

namespace RunAction

variable {nul : Prop} {r : Run}

/-- An event is noted and then, if there is an event file, written to it. -/
theorem run_emit (severity : Severity) (message : String) (context : Json) (r : Run) :
    (emit severity message context).run r =
      match r.journal.file with
      | none => (.ok (r.nextEventIn severity message context), r.notedIn severity message context)
      | some file =>
        match (writeEvent file (r.nextEventIn severity message context)).run
            (r.notedIn severity message context) with
        | (.ok _, r') => (.ok (r.nextEventIn severity message context), r')
        | (.error f, r') => (.error f, r') := by
  have hlast (x : RunAction Unit) (event : Event) (t : Run) :
      (x >>= fun _ ↦ pure event : RunAction Event).run t =
        match x.run t with
        | (.ok _, t') => (.ok event, t')
        | (.error f, t') => (.error f, t') := by
    rw [run_bind]
    rcases x.run t with ⟨_ | _, _⟩ <;> rfl
  have hname : freshName.run r =
      (.ok (r.names.stem ++ (r.names.used + 1).repr),
        { r with names := { r.names with used := r.names.used + 1 } }) := rfl
  have hnow (t : Run) : now.run t = (.ok t.clock.read.1, { t with clock := t.clock.read.2 }) := rfl
  obtain ⟨store, counters, ⟨file, session, console, events⟩, clock, names, log, logFile, commands,
    output, onTerminal⟩ := r
  unfold emit
  rw [run_bind, hname]
  dsimp only
  rw [run_bind, hnow]
  dsimp only
  rw [run_bind, run_get]
  dsimp only
  rw [run_bind, run_modify]
  dsimp only
  cases file with
  | none => cases console <;> rfl
  | some file => cases console <;> exact hlast (writeEvent file _) _ _

/-- A report that is not asked for its event. -/
theorem run_report (severity : Severity) (message : String) (r : Run) :
    (discard (emit severity message (.obj []))).run r =
      match r.journal.file with
      | none => (.ok (), r.noted severity message)
      | some file =>
        (writeEvent file (r.nextEvent severity message)).run (r.noted severity message) := by
  have hdiscard (x : RunAction Event) : (discard x).run r =
      match x.run r with
      | (.ok _, r') => (.ok (), r')
      | (.error f, r') => (.error f, r') := by
    change (x >>= fun _ ↦ pure PUnit.unit).run r = _
    rw [run_bind]
    rcases x.run r with ⟨_ | _, _⟩ <;> rfl
  have hevent : r.nextEventIn severity message (.obj []) = r.nextEvent severity message := rfl
  have hnoted : r.notedIn severity message (.obj []) = r.noted severity message := rfl
  rw [hdiscard, run_emit, hevent, hnoted]
  cases r.journal.file with
  | none => rfl
  | some file =>
    dsimp only
    rcases (writeEvent file (r.nextEvent severity message)).run (r.noted severity message) with
      ⟨_ | ⟨⟩, _⟩ <;> rfl

theorem run_report_of_silent (severity : Severity) (message : String) (hsilent : r.journal.file = none) :
    (discard (emit severity message (.obj []))).run r = (.ok (), r.noted severity message) := by
  rw [run_report, hsilent]

/-- A failure that is survived is counted, and then it is warned of. -/
theorem run_surviving_of_failed {report : Failure → String} {operation : RunAction Unit} {r' : Run}
    {f : Failure} (h : operation.run r = (.error f, r')) (hf : f.isSystem) :
    (surviving report operation).run r =
      (warn (report f)).run { r' with counters := r'.counters.increment "failed" } := by
  unfold surviving
  rw [run_tryCatch, h]
  dsimp only
  rw [if_pos hf, run_bind]
  rfl

/-- Writing an event to the event file changes the store and the log. -/
theorem keeps_writeEvent_frame (file : Path) (event : Event) (r : Run) :
    Keeps (fun t ↦ t.counters = r.counters ∧ t.journal = r.journal ∧ t.commands = r.commands)
      (fun _ ↦ True) (writeEvent file event) := by
  refine Keeps.tryCatch (keeps_onStore_frame fun _ _ ht ↦ ht) fun f _ ↦ ?_
  split
  · exact keeps_modify fun _ ht ↦ ht
  · exact keeps_throw trivial

theorem reported_report (severity : Severity) (message : String) (r : Run) :
    Run.Reported [(severity, message)] r
      ((discard (emit severity message (.obj []))).run r).2 := by
  have hnoted := Run.reported_noted severity message r
  rw [run_report]
  cases r.journal.file with
  | none => exact hnoted
  | some file =>
    have hframe := (keeps_writeEvent_frame file (r.nextEvent severity message)
      (r.noted severity message)).state ⟨rfl, rfl, rfl⟩
    obtain ⟨hcounters, hjournal, hcommands⟩ := hframe
    refine ⟨hcounters.trans hnoted.counters, by rw [hjournal]; exact hnoted.file, ?_,
      hcommands.trans hnoted.commands⟩
    rw [← hnoted.notices]
    unfold Run.notices
    rw [hjournal]

/-- Writing an event acts on the store as a write to the event file does. -/
theorem store_writeEvent (file : Path) (event : Event) (r : Run) :
    ((writeEvent file event).run r).2.store = ((StoreAction.write file fun content ↦
      content ++ Utf8.encodeString (event.line ++ "\n")).run r.store).2 := by
  unfold writeEvent
  rw [run_tryCatch, run_onStore]
  rcases (StoreAction.write file _).run r.store with ⟨f | ⟨⟩, s⟩
  · dsimp only
    split <;> rfl
  · rfl

/-- A report leaves the store alone, or writes to the event file. -/
theorem store_report (severity : Severity) (message : String) (r : Run) :
    ((discard (emit severity message (.obj []))).run r).2.store = r.store ∨
      ∃ file change, r.journal.file = some file ∧ file.hasNul = false ∧
        r.store.write file change = .ok ((discard (emit severity message (.obj []))).run r).2.store := by
  rw [run_report]
  cases hfile : r.journal.file with
  | none => exact .inl rfl
  | some file =>
    dsimp only
    rw [store_writeEvent, StoreAction.write, StoreAction.run_change]
    split
    · exact .inl rfl
    next hnul =>
    have hstore : (r.noted severity message).store = r.store := rfl
    rw [hstore]
    split
    · next s hwrite => exact .inr ⟨file, _, rfl, by simpa using hnul, hwrite⟩
    · exact .inl rfl

/-- A report succeeds, whatever becomes of the event file. -/
theorem run_report_ok (severity : Severity) (message : String)
    (hr : r.Sound Store.WellFormed False) :
    ∃ r', (discard (emit severity message (.obj []))).run r = (.ok (), r') ∧
      Run.Reported [(severity, message)] r r' ∧ r'.Sound Store.WellFormed False := by
  have hreported := reported_report severity message r
  have hkeeps : Keeps (Run.Sound Store.WellFormed False) (fun f ↦ f = .embeddedNul ∧ False)
      (discard (emit severity message (.obj []))) :=
    (keeps_emit Store.invariant_wellFormed severity message (.obj [])).bind fun _ ↦ keeps_pure _
  have hsound := hkeeps r hr
  rcases hrun : (discard (emit severity message (.obj []))).run r with ⟨f | ⟨⟩, r'⟩ <;>
    rw [hrun] at hsound hreported
  · exact hsound.2.2.elim
  · exact ⟨r', rfl, hreported, hsound⟩

/-- A report does not depend on what has been counted. -/
theorem run_report_counters (severity : Severity) (message : String) (r : Run)
    (counters : Counters) :
    (discard (emit severity message (.obj []))).run { r with counters } =
      (((discard (emit severity message (.obj []))).run r).1,
        { ((discard (emit severity message (.obj []))).run r).2 with counters }) := by
  have hnoted : Run.noted { r with counters } severity message =
      { r.noted severity message with counters } := rfl
  have hevent : Run.nextEvent { r with counters } severity message = r.nextEvent severity message :=
    rfl
  rw [run_report, run_report, hnoted, hevent]
  cases r.journal.file with
  | none => rfl
  | some file =>
    generalize r.noted severity message = t
    dsimp only
    unfold writeEvent
    rw [run_tryCatch, run_tryCatch, run_onStore, run_onStore]
    dsimp only
    rcases (StoreAction.write file _).run t.store with ⟨f | ⟨⟩, s⟩
    · dsimp only
      split <;> rfl
    · rfl

end RunAction

end DeferredOps
