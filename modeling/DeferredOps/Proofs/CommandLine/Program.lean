import DeferredOps.CommandLine.Program
import DeferredOps.Proofs.Planning
import DeferredOps.Proofs.Store.Directories
import DeferredOps.Proofs.Store.Limits

/-!
# Failures that the program does not report

The program reports failures of the file system that it meets when it opens its log, and those that end
the pass over the instructions. The steps in between are not guarded. What follows is a list of all ways
in which a failure of the file system leaves the program.
-/

namespace DeferredOps

open Action RunAction Terminal

/-! ## Settings -/

namespace Config

variable {config : Config} {f : Failure}

/-- Settings that make no path are no matter of the file system. -/
theorem not_isSystem_of_instructionsFile (h : config.instructionsFile = .error f) :
    f.isSystem = false := by
  have hjoin (base suffix : Json) : (joinFailure base suffix).isSystem = false := by
    unfold joinFailure noPath notJoined
    split <;> first | rfl | (split <;> rfl)
  unfold instructionsFile at h
  split at h
  · cases h
  · dsimp only at h
    split at h
    · cases h
    · cases h
      exact hjoin _ _

theorem not_isSystem_of_path {name : String} (h : config.path? name = .error f) :
    f.isSystem = false := by
  unfold path? at h
  dsimp only at h
  split at h
  · cases h
  · split at h
    · cases h
    · cases h
      rfl

/-- The working directory is known: it is set, or the current directory is still there. -/
def KnowsDirectory (config : Config) (s : Store) : Prop :=
  ∃ path?, config.path? "working_directory" = .ok path? ∧
    (path? = none → Store.isRemoved s.current = false)

theorem not_knowsDirectory {s : Store} (hunset : config.path? "working_directory" = .ok none)
    (hremoved : Store.isRemoved s.current = true) : ¬ config.KnowsDirectory s := by
  rintro ⟨path?, hpath, hcurrent⟩
  obtain rfl := Except.ok.inj (hunset.symm.trans hpath)
  rw [hcurrent rfl] at hremoved
  cases hremoved

end Config

/-! ## Plans -/

namespace Batch

variable {batch : Batch} {environment : Environment} {config : Config} {r : Run}

theorem not_systemFails_instructionsFile :
    ¬ SystemFails (ask fun _ ↦ config.instructionsFile) r := by
  rw [systemFails_ask]
  rintro ⟨f, h, hf⟩
  simp [Config.not_isSystem_of_instructionsFile h] at hf

theorem systemFails_isFile_iff {file : Path} : SystemFails (ask (·.isFile file)) r ↔
    file.hasNul = false ∧ r.store.target .followed file = .error .nameTooLong := by
  rw [systemFails_ask]
  constructor
  · rintro ⟨f, h, -⟩
    obtain ⟨hnul, htarget, -⟩ :=
      (Store.entryAt_eq_error_iff (by simp)).mp (Store.map_eq_error h)
    exact ⟨hnul, htarget⟩
  · rintro ⟨hnul, htarget⟩
    have hentry := (Store.entryAt_eq_error_iff (by simp)).mpr ⟨hnul, htarget, rfl⟩
    exact ⟨_, by rw [Store.isFile, hentry]; rfl, rfl⟩

theorem isFile_of_file? {file : Path} {r' : Run} (h : batch.file?.run r = (.ok (some file), r')) :
    r' = r ∧ r.store.isFile file = .ok true := by
  rcases hpath : batch.config.instructionsFile with f | _ | path
  · rw [file?, run_bind, run_ask, hpath] at h
    cases h
  · rw [file?, run_bind, run_ask, hpath] at h
    cases h
  · rw [run_file? hpath] at h
    rcases hthere : r.store.isFile path with f | _ | _ <;> rw [hthere] at h <;> cases h
    exact ⟨rfl, hthere⟩

/-- Reading the instruction file fails only where its path is too long to be asked about. -/
theorem systemFails_plan_iff : SystemFails batch.plan r ↔
    ∃ file, batch.config.instructionsFile = .ok (some file) ∧ file.hasNul = false ∧
      r.store.target .followed file = .error .nameTooLong := by
  have hfile : SystemFails batch.file? r ↔
      ∃ file, batch.config.instructionsFile = .ok (some file) ∧ file.hasNul = false ∧
        r.store.target .followed file = .error .nameTooLong := by
    unfold file?
    rw [systemFails_bind, or_iff_right not_systemFails_instructionsFile]
    constructor
    · rintro ⟨path, r', hrun, h⟩
      rw [run_ask] at hrun
      obtain ⟨hpath, rfl⟩ := Prod.mk.inj hrun
      cases path with
      | none => exact (not_systemFails_pure _ h).elim
      | some file =>
        obtain h | ⟨there, r', -, h⟩ := systemFails_bind.mp h
        · exact ⟨file, hpath, systemFails_isFile_iff.mp h⟩
        · exact (not_systemFails_pure _ h).elim
    · rintro ⟨file, hpath, hlong⟩
      refine ⟨some file, r, by rw [run_ask, hpath], ?_⟩
      exact systemFails_bind.mpr (.inl (systemFails_isFile_iff.mpr hlong))
  unfold plan
  rw [systemFails_bind, hfile, or_iff_left]
  rintro ⟨found, r', hrun, h⟩
  cases found with
  | none => exact not_systemFails_pure _ h
  | some file =>
    obtain ⟨rfl, hthere⟩ := isFile_of_file? hrun
    obtain ⟨id, content, -, -, hread⟩ := run_open_read hthere
    rw [systemFails_bind_of_run hread] at h
    exact not_systemFails_pure _ h

/-! ## The creation of a batch -/

theorem run_workingDirectory : config.workingDirectory.run r =
    (match config.path? "working_directory" with
      | .ok (some path) => .ok path
      | .ok none =>
        if Store.isRemoved r.store.current then .error (.system .noEntry none none)
        else .ok ⟨.top, r.store.current⟩
      | .error f => .error f, r) := by
  unfold Config.workingDirectory
  rw [run_bind, run_ask]
  rcases config.path? "working_directory" with f | _ | path
  · rfl
  · dsimp only
    unfold Executor.currentDirectory StoreAction.currentDirectory
    rw [run_bind, run_onStore, run_bind, run_get]
    by_cases hremoved : Store.isRemoved r.store.current <;> simp [hremoved]
  · rfl

/-- A batch is created where its working directory is known. -/
theorem run_create_of_knows (environment : Environment) (h : config.KnowsDirectory r.store) :
    ∃ directory r', (create config environment).run r =
      (.ok ⟨config, ⟨directory, none⟩, environment⟩, r') ∧ r'.store = r.store := by
  obtain ⟨path?, hpath, hcurrent⟩ := h
  suffices hdirectory : ∃ directory, ∀ t : Run, t.store = r.store →
      config.workingDirectory.run t = (.ok directory, t) by
    obtain ⟨directory, hdirectory⟩ := hdirectory
    have hstarted : startCounters.run r = (.ok ⟨⟩, { r with
        counters := ["lines", "comments", "unrecognized"].foldl Counters.start .empty }) :=
      run_modify _ r
    have hcounted (t : Run) : Executor.startCounters.run t = (.ok ⟨⟩, { t with
        counters := Executor.counterNames.foldl Counters.start t.counters }) := run_modify _ t
    generalize ["lines", "comments", "unrecognized"].foldl Counters.start .empty = counters at hstarted
    refine ⟨directory, { r with
      counters := Executor.counterNames.foldl Counters.start counters }, ?_, rfl⟩
    unfold create
    simp only [run_bind, hstarted, hdirectory { r with counters := counters } rfl, hcounted, run_pure]
  cases path? with
  | none =>
    exact ⟨⟨.top, r.store.current⟩, fun t ht ↦ by simp [run_workingDirectory, hpath, ht, hcurrent rfl]⟩
  | some path => exact ⟨path, fun t ht ↦ by simp [run_workingDirectory, hpath]⟩

theorem run_create_of_not_knows (environment : Environment) (h : ¬ config.KnowsDirectory r.store) :
    ∃ f r', (create config environment).run r = (.error f, r') ∧
      (f.isSystem = true ↔
        config.path? "working_directory" = .ok none ∧ Store.isRemoved r.store.current) := by
  unfold create
  rw [run_bind, startCounters, run_modify]
  dsimp only
  rw [run_bind, run_workingDirectory]
  rcases hpath : config.path? "working_directory" with f | _ | path
  · exact ⟨f, _, rfl, by simp [Config.not_isSystem_of_path hpath]⟩
  · have hremoved : Store.isRemoved r.store.current = true := by
      by_contra hstill
      exact h ⟨none, hpath, fun _ ↦ by simpa using hstill⟩
    simp only [hremoved, if_true]
    exact ⟨_, _, rfl, by simp [Failure.isSystem]⟩
  · exact absurd ⟨some path, hpath, fun hnone ↦ by cases hnone⟩ h

end Batch

namespace Program

variable {options : Options} {environment : Environment} {gone : WaitRequest → Bool}
  {config : Config} {batch : Batch} {r : Run}

/-! ## The guarded steps -/

/-- A failure that ends the pass is reported. -/
theorem not_systemFails_apply : ¬ SystemFails (apply batch) r := by
  unfold apply
  rw [systemFails_tryCatch]
  rintro ⟨f, r', -, hhandler⟩
  have haborted (f : Failure) : ¬ SystemFails (apply.aborted f) r' :=
    not_systemFails_bind (not_systemFails_log _ _) fun _ _ ↦
      not_systemFails_bind (not_systemFails_printLine _) fun _ _ ↦ not_systemFails_pure _
  split at hhandler
  · exact haborted _ hhandler
  · exact haborted _ hhandler
  · split at hhandler
    · exact haborted _ hhandler
    · next hsystem => exact hsystem ((systemFails_throw _).mp hhandler)

theorem not_systemFails_finish (stage : Stage) : ¬ SystemFails (finish gone stage) r := by
  unfold finish
  split
  · exact not_systemFails_pure _
  · exact not_systemFails_apply
  · split
    · exact not_systemFails_apply
    · exact not_systemFails_bind (not_systemFails_printLine _) fun _ _ ↦ not_systemFails_pure _

theorem not_systemFails_logIsOpen : ¬ SystemFails (logIsOpen config) r := by
  unfold logIsOpen
  rw [systemFails_tryCatch]
  rintro ⟨f, r', -, hhandler⟩
  cases hf : f.isSystem with
  | true =>
    rw [hf] at hhandler
    exact not_systemFails_bind (not_systemFails_printLine _) (fun _ _ ↦ not_systemFails_pure _) hhandler
  | false => simp [hf] at hhandler

/-! ## The other steps -/

theorem systemFails_printPlan_iff : SystemFails (printPlan batch) r ↔ SystemFails batch.plan r := by
  unfold printPlan
  rw [systemFails_bind, or_iff_left]
  rintro ⟨lines, r', -, h⟩
  revert h
  refine not_systemFails_bind Batch.not_systemFails_instructionsFile fun file r' ↦ ?_
  dsimp only
  have hprint (text : String) {t : Run} := not_systemFails_printLine text (r := t)
  split
  · exact hprint _
  · refine not_systemFails_bind (hprint _) fun _ _ ↦ not_systemFails_bind (hprint _) fun _ _ ↦ ?_
    refine not_systemFails_bind (hprint _) fun _ _ ↦ not_systemFails_bind ?_ fun _ _ ↦ hprint _
    exact not_systemFails_forM fun line _ ↦ hprint _

/-- Opening the journal fails only where the directory of its file cannot be made. -/
theorem systemFails_openJournal_iff {file? : Option Path} {session : Option String} {console : Bool} :
    SystemFails (openJournal file? session console) r ↔
      ∃ file, file? = some file ∧ file.parent.hasNul = false ∧
        ((StoreAction.ensureDirectory file.parent).run r.store).2.isDirectory file.parent ≠
          .ok true := by
  cases file? with
  | none =>
    have hopen (name : String) (t : Run) : ¬ SystemFails (do
        modify fun run : Run ↦ { run with journal := ⟨none, name, console, []⟩ }
        pure ()) t := by
      rw [systemFails_bind_of_run (run_modify _ _)]
      exact not_systemFails_pure _
    refine iff_of_false ?_ (by simp)
    unfold openJournal
    dsimp only
    split
    · exact mt (systemFails_bind_of_run (run_pure _ _)).mp (hopen _ _)
    · exact mt (systemFails_bind_of_run rfl).mp (hopen _ _)
  | some file =>
    have hopen (name : String) {t : Run} (ht : t.store = r.store) :
        SystemFails (do
          modify fun run : Run ↦ { run with journal := ⟨some file, name, console, []⟩ }
          onStore (StoreAction.ensureDirectory file.parent)) t ↔
        file.parent.hasNul = false ∧
          ((StoreAction.ensureDirectory file.parent).run r.store).2.isDirectory file.parent ≠
            .ok true := by
      rw [systemFails_bind_of_run (run_modify _ _), ← ht, systemFails_onStore,
        StoreAction.systemFails_ensureDirectory_iff]
    simp only [Option.some.injEq, exists_eq_left']
    unfold openJournal
    dsimp only
    split
    · exact (systemFails_bind_of_run (run_pure _ _)).trans (hopen _ rfl)
    · exact (systemFails_bind_of_run rfl).trans (hopen _ rfl)

/-! ## The whole -/

/-- What stands in the way of a run of the program that has opened its log. -/
inductive Obstructed (options : Options) (config : Config) (opened : Run) : Prop
  /-- The directory of the event file is not there, and it cannot be made. -/
  | eventFile {file : Path} (hfile : config.eventLog = .ok (some file))
      (hnul : file.parent.hasNul = false)
      (hmissing : ((StoreAction.ensureDirectory file.parent).run opened.store).2.isDirectory
        file.parent ≠ .ok true)
  /-- The current directory is needed, and it has been removed. -/
  | directory {file? : Option Path} {ready : Run} (hfile : config.eventLog = .ok file?)
      (hready : (openJournal file? none true).run opened = (.ok (), ready))
      (hunset : config.path? "working_directory" = .ok none)
      (hremoved : Store.isRemoved ready.store.current)
  /-- The instructions are to be printed, and the path of their file is too long. -/
  | instructionsFile {file? : Option Path} {ready : Run} {file : Path}
      (hfile : config.eventLog = .ok file?)
      (hready : (openJournal file? none true).run opened = (.ok (), ready))
      (hdirectory : config.KnowsDirectory ready.store) (hcheck : options.check)
      (hpath : config.instructionsFile = .ok (some file)) (hnul : file.hasNul = false)
      (hlong : ready.store.target .followed file = .error .nameTooLong)

/-- What is left of the start once a batch has been created. -/
def goOn (options : Options) (config : Config) (batch : Batch) : RunAction Stage := do
  if options.check then
    printPlan batch
    return .ended 0
  let wait := waitRequest options config
  match wait with
  | some request =>
    printLine (styled .cyan
      ("Waiting for host process " ++ request.pid.toJson.plain ++ " to exit..."))
  | none => pure ()
  return .ready batch wait

theorem systemFails_goOn_iff : SystemFails (goOn options config batch) r ↔
    options.check ∧ SystemFails batch.plan r := by
  unfold goOn
  dsimp only
  split
  · next hcheck =>
    rw [systemFails_bind, systemFails_printPlan_iff, or_iff_left]
    · simp [hcheck]
    · rintro ⟨_, _, -, h⟩
      exact not_systemFails_pure _ h
  · next hcheck =>
    simp only [hcheck, Bool.false_eq_true, false_and, iff_false]
    split
    · exact not_systemFails_bind (not_systemFails_printLine _) fun _ _ ↦ not_systemFails_pure _
    · exact not_systemFails_pure _

/-- What is left of the start once the log has been opened. -/
def goOnOpened (options : Options) (config : Config) (environment : Environment) :
    RunAction Stage := do
  let eventLog ← ask fun _ ↦ config.eventLog
  openJournal eventLog none true
  let batch ← Batch.create config environment
  goOn options config batch

theorem systemFails_goOnOpened_iff :
    SystemFails (goOnOpened options config environment) r ↔ Obstructed options config r := by
  unfold goOnOpened
  rw [systemFails_ask_bind]
  cases hfile : config.eventLog with
  | error f =>
    have hf : f.isSystem = false := Config.not_isSystem_of_path hfile
    simp only [hf, Bool.false_eq_true, false_iff]
    rintro (h | h | h) <;> simp_all
  | ok file? =>
    dsimp only
    constructor
    · intro h
      rcases systemFails_bind.mp h with h | ⟨⟨⟩, ready, hready, h⟩
      · obtain ⟨file, rfl, hnul, hmissing⟩ := systemFails_openJournal_iff.mp h
        exact .eventFile hfile hnul hmissing
      by_cases hknows : config.KnowsDirectory ready.store
      · obtain ⟨directory, r', hcreate, hstore⟩ :=
          Batch.run_create_of_knows environment hknows
        rw [systemFails_bind_of_run hcreate, systemFails_goOn_iff, Batch.systemFails_plan_iff] at h
        obtain ⟨hcheck, file, hpath, hnul, hlong⟩ := h
        rw [hstore] at hlong
        exact .instructionsFile hfile hready hknows hcheck hpath hnul hlong
      · obtain ⟨f, r', hcreate, hf⟩ :=
          Batch.run_create_of_not_knows environment hknows
        rw [systemFails_bind_of_error hcreate, hf] at h
        exact .directory hfile hready h.1 h.2
    · rintro (⟨hfile', hnul, hmissing⟩ | ⟨hfile', hready, hunset, hremoved⟩ |
        ⟨hfile', hready, hknows, hcheck, hpath, hnul, hlong⟩)
      all_goals obtain rfl := Except.ok.inj (hfile.symm.trans hfile')
      · exact systemFails_bind.mpr (.inl (systemFails_openJournal_iff.mpr ⟨_, rfl, hnul, hmissing⟩))
      · rw [systemFails_bind_of_run hready]
        obtain ⟨f, r', hcreate, hf⟩ := Batch.run_create_of_not_knows environment
          (Config.not_knowsDirectory hunset hremoved)
        rw [systemFails_bind_of_error hcreate, hf]
        exact ⟨hunset, hremoved⟩
      · rw [systemFails_bind_of_run hready]
        obtain ⟨directory, r', hcreate, hstore⟩ :=
          Batch.run_create_of_knows environment hknows
        rw [systemFails_bind_of_run hcreate, systemFails_goOn_iff, Batch.systemFails_plan_iff, hstore]
        exact ⟨hcheck, _, hpath, hnul, hlong⟩

/-- A run whose output is as the options ask for. -/
def shown (options : Options) (r : Run) : Run :=
  if options.noColor then { r with onTerminal := false } else r

/-- What is left of the start once the settings have been read. -/
def goOnConfigured (options : Options) (config : Config) (environment : Environment) :
    RunAction Stage := do
  if !config.basePath.isGiven then
    printLine (styled .red
      "No base path given. Pass BASE_PATH or --base, or set base_path in config.")
    return .ended 1
  if !(← logIsOpen config) then return .ended 1
  goOnOpened options config environment

theorem run_start : (start options environment).run r =
    (do goOnConfigured options (← configuration options) environment : RunAction Stage).run
      (shown options r) := by
  unfold start shown
  cases options.noColor <;> rfl

theorem systemFails_goOnConfigured_iff :
    SystemFails (goOnConfigured options config environment) r ↔
      config.basePath.isGiven ∧ ∃ opened, (logIsOpen config).run r = (.ok true, opened) ∧
        Obstructed options config opened := by
  unfold goOnConfigured
  cases hgiven : config.basePath.isGiven with
  | true =>
    simp only [Bool.not_true, Bool.false_eq_true, if_false, true_and]
    rw [systemFails_bind, or_iff_right not_systemFails_logIsOpen]
    constructor
    · rintro ⟨isOpen, opened, hopened, h⟩
      cases isOpen with
      | false => exact (not_systemFails_pure _ h).elim
      | true => exact ⟨opened, hopened, systemFails_goOnOpened_iff.mp h⟩
    · rintro ⟨opened, hopened, h⟩
      exact ⟨true, opened, hopened, systemFails_goOnOpened_iff.mpr h⟩
  | false =>
    simp only [Bool.not_false, if_true, Bool.false_eq_true, false_and, iff_false]
    exact not_systemFails_bind (not_systemFails_printLine _) fun _ _ ↦ not_systemFails_pure _

/-- After the settings have been read, a failure of the file system leaves the program exactly if the
directory of the event file cannot be made, the current directory has been removed where it is needed, or
the path of an instruction file that is to be printed is too long. -/
theorem systemFails_run_iff (environment : Environment) (gone : WaitRequest → Bool) {loaded : Run}
    (hconfig : (configuration options).run (shown options r) = (.ok config, loaded)) :
    SystemFails (run options environment gone) r ↔
      config.basePath.isGiven ∧ ∃ opened, (logIsOpen config).run loaded = (.ok true, opened) ∧
        Obstructed options config opened := by
  have hstart : SystemFails (start options environment) r ↔
      SystemFails (goOnConfigured options config environment) loaded :=
    systemFails_congr (by rw [run_start, run_bind, hconfig])
  unfold run
  rw [systemFails_bind, hstart, systemFails_goOnConfigured_iff, or_iff_left]
  rintro ⟨stage, r', -, h⟩
  exact not_systemFails_finish stage h

theorem systemFails_run_event_file_below_file :
    let options : Options := { Options.none with basePath := some "x", eventLog := some "f/e" }
    let r := Run.first (Store.empty.putFile ["f"] [100])
    (Arguments.parse ["x", "--event-log", "f/e"]).toOption = some options ∧
      ∃ config, (configuration options).run (shown options r) = (.ok config, r) ∧
        SystemFails (run options .empty fun _ ↦ true) r := by
  intro options r
  generalize hsettings :
    override (override Config.default "base_path" (some "x")) "event_log" (some "f/e") = config
  have hconfig : (configuration options).run (shown options r) = (.ok config, r) := by
    subst hsettings
    rfl
  have hgiven : config.basePath.isGiven = true := by
    subst hsettings
    decide +kernel
  have hopened : ((logIsOpen config).run r).1.toOption = some true := by
    subst hsettings
    decide +kernel
  have hfile : config.eventLog = .ok (some (Path.ofString "f/e")) := by
    subst hsettings
    rfl
  have hmissing : (((StoreAction.ensureDirectory (Path.ofString "f/e").parent).run
      ((logIsOpen config).run r).2.store).2.isDirectory (Path.ofString "f/e").parent).toOption =
        some false := by
    subst hsettings
    decide +kernel
  have hiff := systemFails_run_iff .empty (fun _ ↦ true) hconfig
  refine ⟨by decide +kernel, config, hconfig, hiff.mpr ⟨hgiven, _, run_of_toOption hopened, ?_⟩⟩
  refine .eventFile hfile (by decide +kernel) fun hthere ↦ ?_
  rw [hthere] at hmissing
  cases hmissing

end Program

end DeferredOps
