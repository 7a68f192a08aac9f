import DeferredOps.Proofs.CommandLine.Program
import DeferredOps.Proofs.LogFolder

/-!
# What the program does before it applies the instructions

Up to the point where the instruction file can be applied, the program reads its settings, opens its
log, and makes the directory of its event file. Whether it ends there or goes on, nothing else has
been done to the store, and it goes on only when the host process is gone.
-/

namespace DeferredOps

open Action RunAction

namespace RunAction

variable {P : Store → Prop}

theorem stores_ask {α : Type} (question : Store → Except Failure α) :
    Keeps (Run.Stores P) (fun _ ↦ True) (ask question) :=
  keeps_ask_frame question

theorem stores_log (level : LogLevel) (message : String) :
    Keeps (Run.Stores P) (fun _ ↦ True) (log level message) :=
  keeps_modify fun _ h ↦ h

theorem stores_printLine (text : String) :
    Keeps (Run.Stores P) (fun _ ↦ True) (printLine text) :=
  keeps_printLine text fun _ _ h ↦ h

theorem stores_currentDirectory :
    Keeps (Run.Stores P) (fun _ ↦ True) Executor.currentDirectory := by
  refine Keeps.bind (keeps_onStore_stores ?_) fun _ ↦ keeps_pure _
  refine keeps_get_bind fun s _ ↦ ?_
  dsimp only
  split
  · exact keeps_throw trivial
  · exact keeps_pure _

theorem stores_read (path : Path) :
    Keeps (Run.Stores P) (fun _ ↦ True) (onStore (StoreAction.read path)) :=
  have hread : Keeps _ (Failure.OfChange True) (StoreAction.read path) :=
    StoreAction.keeps_read fun _ ↦ trivial
  keeps_onStore_stores (hread.weaken fun _ _ ↦ trivial)

end RunAction

/-! ## Settings -/

namespace Config

variable {P : Store → Prop}

theorem stores_printAbout (path : Path) (heading : String) (lines : List String) :
    Keeps (Run.Stores P) (fun _ ↦ True) (printAbout path heading lines) := by
  refine (stores_printLine _).bind fun _ ↦ Keeps.bind ?_ fun _ ↦ (stores_printLine _).bind fun _ ↦ ?_
  · unfold absoluteText
    split
    · exact keeps_pure _
    · exact stores_currentDirectory.bind fun _ ↦ keeps_pure _
  · exact keeps_forM fun line _ ↦ stores_printLine line

theorem stores_ofFields (path : Path) (fields : List (String × Json)) :
    Keeps (Run.Stores P) (fun _ ↦ True) (ofFields path fields) := by
  unfold ofFields
  split
  · exact keeps_pure _
  · refine (stores_printAbout _ _ _).bind fun _ ↦ Keeps.bind (keeps_forM fun _ _ ↦ ?_) fun _ ↦ ?_
    · exact (stores_printLine _).bind fun _ ↦ stores_printLine _
    · exact (stores_printLine _).bind fun _ ↦ (stores_log _ _).bind fun _ ↦ keeps_pure _

theorem stores_ofText (path : Path) (text : List Char) :
    Keeps (Run.Stores P) (fun _ ↦ True) (ofText path text) := by
  unfold ofText
  split
  · exact stores_ofFields path _
  · exact (stores_printAbout _ _ _).bind fun _ ↦ keeps_pure _
  · exact (stores_printAbout _ _ _).bind fun _ ↦ keeps_pure _
  · exact keeps_throw trivial
  · exact keeps_throw trivial

theorem stores_content? (path : Path) :
    Keeps (Run.Stores P) (fun _ ↦ True) (content? path) := by
  refine Keeps.tryCatch ((stores_read path).bind fun _ ↦ keeps_pure _) fun f _ ↦ ?_
  split
  · exact (keeps_throw trivial).bind fun _ ↦ (stores_printAbout _ _ _).bind fun _ ↦ keeps_pure _
  · exact (stores_printAbout _ _ _).bind fun _ ↦ keeps_pure _

theorem proper_of_path {config : Config} {name : String} {path : Path}
    (h : config.path? name = .ok (some path)) : path.Proper := by
  unfold path? at h
  dsimp only at h
  split at h
  · cases h
  · split at h
    · cases h
      exact Path.proper_ofString _
    · cases h

/-- Settings are read without a change of the store. -/
theorem stores_load (path : Option Path) :
    Keeps (Run.Stores P) (fun _ ↦ True) (load path) := by
  unfold load
  split
  · exact keeps_pure _
  · refine (stores_ask _).bind fun there ↦ ?_
    split
    · exact keeps_pure _
    · refine (stores_content? _).bind fun content ↦ ?_
      split
      · exact keeps_pure _
      · split
        · exact stores_ofText _ _
        · exact keeps_throw trivial

end Config

namespace Batch

variable {P : Store → Prop} {batch : Batch}

theorem stores_file? : Keeps (Run.Stores P) (fun _ ↦ True) batch.file? := by
  refine (stores_ask _).bind fun path? ↦ ?_
  split
  · exact keeps_pure _
  · exact (stores_ask _).bind fun _ ↦ keeps_pure _

/-- Instructions are read without a change of the store. -/
theorem stores_plan : Keeps (Run.Stores P) (fun _ ↦ True) batch.plan := by
  refine stores_file?.bind fun path? ↦ ?_
  split
  · exact keeps_pure _
  · exact (stores_read _).bind fun _ ↦ keeps_pure _

theorem stores_create (config : Config) (environment : Environment) :
    Keeps (Run.Stores P) (fun _ ↦ True) (create config environment) := by
  have hcounters : Keeps (Run.Stores P) (fun _ ↦ True) startCounters := keeps_modify fun _ h ↦ h
  refine hcounters.bind fun _ ↦ Keeps.bind ?_ fun _ ↦ Keeps.bind ?_ fun _ ↦ keeps_pure _
  · refine (stores_ask _).bind fun path? ↦ ?_
    split
    · exact keeps_pure _
    · exact stores_currentDirectory
  · exact keeps_modify fun _ h ↦ h

end Batch

namespace Program

variable {P : Store → Prop} {options : Options} {environment : Environment}
  {gone : WaitRequest → Bool} {config : Config} {batch : Batch} {r : Run} {s : Store}

theorem stores_configuration : Keeps (Run.Stores P) (fun _ ↦ True) (configuration options) :=
  (stores_ask _).bind fun _ ↦ (Config.stores_load _).bind fun _ ↦ keeps_pure _

theorem stores_printPlan : Keeps (Run.Stores P) (fun _ ↦ True) (printPlan batch) := by
  refine Batch.stores_plan.bind fun lines ↦ (stores_ask _).bind fun _ ↦ ?_
  dsimp only
  split
  · exact stores_printLine _
  · refine (stores_printLine _).bind fun _ ↦ (stores_printLine _).bind fun _ ↦ ?_
    refine (stores_printLine _).bind fun _ ↦ Keeps.bind ?_ fun _ ↦ stores_printLine _
    exact keeps_forM fun line _ ↦ stores_printLine _

theorem stores_goOn : Keeps (Run.Stores P) (fun _ ↦ True) (goOn options config batch) := by
  unfold goOn
  dsimp only
  split
  · exact stores_printPlan.bind fun _ ↦ keeps_pure _
  · split
    · exact (stores_printLine _).bind fun _ ↦ keeps_pure _
    · exact keeps_pure _

/-! ## What is made -/

/-- The places of the directories that the program makes for itself: the log folder, the directory of
the event file, and what they lie in. -/
inductive OwnDirectory (config : Config) (s : Store) : Location → Prop
  | logFolder {folder : String} {front : List String}
      (hfolder : (config.get "log_folder").text? = some folder)
      (hfront : front <+: (Path.ofString folder).parts) :
      OwnDirectory config s (s.place ⟨(Path.ofString folder).anchor, front⟩)
  | eventFolder {file : Path} {front : List String} (hfile : config.eventLog = .ok (some file))
      (hfront : front <+: file.parent.parts) :
      OwnDirectory config s (s.place ⟨file.anchor, front⟩)

theorem keeps_openLog : Keeps (Run.Stores (s.Prepared (OwnDirectory config s))) (fun _ ↦ True)
    (openLog config) := by
  unfold openLog
  dsimp only
  cases hfolder : (config.get "log_folder").text? with
  | none =>
    dsimp only
    exact Ensures.bind (ensures_throw (Q := fun _ _ ↦ False) fun _ h ↦ ⟨h, trivial⟩)
      fun _ _ h ↦ h.elim
  | some folder =>
    dsimp only
    rw [pure_bind]
    refine (LogFolder.keeps_setup folder _ fun front hfront ↦ .logFolder hfolder hfront).bind fun _ ↦ ?_
    refine (stores_log _ _).bind fun _ ↦ (stores_log _ _).bind fun _ ↦ (stores_log _ _).bind fun _ ↦ ?_
    exact (stores_ask _).bind fun _ ↦ stores_log _ _

theorem keeps_logIsOpen : Keeps (Run.Stores (s.Prepared (OwnDirectory config s))) (fun _ ↦ True)
    (logIsOpen config) := by
  refine Keeps.tryCatch (keeps_openLog.bind fun _ ↦ keeps_pure _) fun f _ ↦ ?_
  split
  · exact (keeps_throw trivial).bind fun _ ↦ (stores_printLine _).bind fun _ ↦ keeps_pure _
  · exact (stores_printLine _).bind fun _ ↦ keeps_pure _

theorem keeps_openJournal {file? : Option Path} (hfile : config.eventLog = .ok file?) :
    Keeps (Run.Stores (s.Prepared (OwnDirectory config s))) (fun _ ↦ True)
      (openJournal file? none true) := by
  refine Keeps.bind (fun _ h ↦ h) fun session ↦ Keeps.bind (keeps_modify fun _ h ↦ h) fun _ ↦ ?_
  cases file? with
  | none => exact keeps_pure _
  | some file =>
    have hproper : file.parent.Proper := fun name hname ↦
      Config.proper_of_path hfile name (List.mem_of_mem_dropLast hname)
    refine keeps_onStore_stores (LogFolder.keeps_prepared fun t ht hfree hcurrent ↦ ?_)
    refine (StoreAction.madeParents_of_ensureDirectory ht hproper).prepared hfree fun front hfront ↦ ?_
    have hmade : OwnDirectory config s (s.place ⟨file.anchor, front⟩) := .eventFolder hfile hfront
    rwa [Store.place_of_current hcurrent]

/-- Going on to the point where the instruction file can be applied changes nothing else. -/
theorem keeps_goOnConfigured : Keeps (Run.Stores (s.Prepared (OwnDirectory config s)))
    (fun _ ↦ True) (goOnConfigured options config environment) := by
  unfold goOnConfigured
  split
  · exact (stores_printLine _).bind fun _ ↦ keeps_pure _
  · refine keeps_logIsOpen.bind fun isOpen ↦ ?_
    split
    · exact keeps_pure _
    · intro t ht
      unfold goOnOpened
      rw [run_bind, run_ask]
      cases hfile : config.eventLog with
      | error f => exact ⟨ht, trivial⟩
      | ok file? =>
        refine ((keeps_openJournal hfile).bind fun _ ↦ ?_) t ht
        exact (Batch.stores_create _ _).bind fun _ ↦ stores_goOn

/-! ## The pass -/

/-- A stage that waits for the process of the arguments, if they name one. -/
def Awaits (options : Options) : Stage → Prop
  | .ended _ => True
  | .ready _ wait => wait.map (·.pid) = options.waitPid

theorem awaits_goOn : Ensures (fun _ ↦ True) (goOn options config batch)
    (fun stage _ ↦ Awaits options stage) (fun _ _ ↦ True) := by
  have hready (wait : Option WaitRequest) (hwait : waitRequest options config = wait) :
      Awaits options (.ready batch wait) := by
    subst hwait
    cases hpid : options.waitPid <;> simp [Awaits, waitRequest, hpid]
  unfold goOn
  dsimp only
  split
  · exact (ensures_any _).bind fun _ ↦ ensures_pure fun _ _ ↦ trivial
  · split
    · next request hrequest =>
      exact (ensures_any _).bind fun _ ↦ ensures_pure fun _ _ ↦ hready _ rfl
    · exact ensures_pure fun _ _ ↦ hready _ rfl

theorem awaits_start : Ensures (fun _ ↦ True) (start options environment)
    (fun stage _ ↦ Awaits options stage) (fun _ _ ↦ True) := by
  suffices h : Ensures (fun _ ↦ True)
      (do goOnConfigured options (← configuration options) environment : RunAction Stage)
      (fun stage _ ↦ Awaits options stage) (fun _ _ ↦ True) by
    intro t ht
    rw [run_start]
    exact h _ trivial
  refine (ensures_any _).bind fun config ↦ ?_
  unfold goOnConfigured
  split
  · exact (ensures_any _).bind fun _ ↦ ensures_pure fun _ _ ↦ trivial
  · refine (ensures_any _).bind fun isOpen ↦ ?_
    split
    · exact ensures_pure fun _ _ ↦ trivial
    · exact (ensures_any _).bind fun _ ↦ (ensures_any _).bind fun _ ↦
        (ensures_any _).bind fun _ ↦ awaits_goOn

/-- The pass over the instruction file that a run of the program comes to, if it does: its batch, and
the state in which it begins. -/
def pass? (options : Options) (environment : Environment) (gone : WaitRequest → Bool) (r : Run) :
    Option (Batch × Run) :=
  match (start options environment).run r with
  | (.ok (.ready batch none), ready) => some (batch, ready)
  | (.ok (.ready batch (some request)), ready) => if gone request then some (batch, ready) else none
  | _ => none

theorem prepared_of_start (hs : r.store.WellFormed) (hfree : r.store.LinkFree) :
    r.store.Prepared (fun l ↦ ∃ config loaded,
      (configuration options).run (shown options r) = (.ok config, loaded) ∧
        OwnDirectory config r.store l) ((start options environment).run r).2.store := by
  have hshown : (shown options r).store = r.store := by
    unfold shown
    split <;> rfl
  have hloaded : ((configuration options).run (shown options r)).2.store = r.store :=
    (stores_configuration (P := (· = r.store))).state hshown
  rw [run_start, run_bind]
  rcases hconfig : (configuration options).run (shown options r) with ⟨f | config, loaded⟩ <;>
    rw [hconfig] at hloaded <;> dsimp only at hloaded ⊢
  · rw [hloaded]
    exact .refl hs hfree
  · have hstart : Run.Stores (r.store.Prepared (OwnDirectory config r.store)) loaded := by
      rw [Run.Stores, hloaded]
      exact .refl hs hfree
    exact (keeps_goOnConfigured.state hstart).mono fun l hl ↦ ⟨config, loaded, rfl, hl⟩

/-- A run of the program that does not come to the pass over the instruction file has done nothing but
prepare: log files have come or gone, and the folder of the log and that of the event file have been
made. A run that comes to the pass has done no more before it, and the process that it was to wait for
is gone. -/
theorem prepared_of_run (options : Options) (environment : Environment) (gone : WaitRequest → Bool)
    {r : Run} (hs : r.store.WellFormed) (hfree : r.store.LinkFree) :
    let Made l := ∃ config loaded,
      (configuration options).run (shown options r) = (.ok config, loaded) ∧
        OwnDirectory config r.store l
    match pass? options environment gone r with
    | none => r.store.Prepared Made ((run options environment gone).run r).2.store
    | some (batch, ready) =>
      r.store.Prepared Made ready.store ∧
        (run options environment gone).run r = (apply batch).run ready ∧
        ∀ pid, options.waitPid = some pid → ∃ request, request.pid = pid ∧ gone request := by
  intro Made
  have hprepared : r.store.Prepared Made ((start options environment).run r).2.store :=
    prepared_of_start hs hfree
  have hawaits : Outcome (fun stage _ ↦ Awaits options stage) (fun _ _ ↦ True)
      ((start options environment).run r) := awaits_start r trivial
  unfold pass? run
  rw [run_bind]
  rcases hstart : (start options environment).run r with ⟨f | code | ⟨batch, wait⟩, ready⟩ <;>
    rw [hstart] at hprepared hawaits
  · exact hprepared
  · exact hprepared
  cases wait with
  | none =>
    refine ⟨hprepared, rfl, fun pid hpid ↦ ?_⟩
    cases hawaits.trans hpid
  | some request =>
    dsimp only
    unfold finish
    dsimp only
    by_cases hgone : gone request
    · simp only [if_pos hgone]
      exact ⟨hprepared, trivial, fun pid hpid ↦
        ⟨request, Option.some.inj (hawaits.trans hpid), hgone⟩⟩
    · simp only [if_neg hgone]
      exact ((stores_printLine _).bind fun _ ↦ keeps_pure _).state hprepared

theorem prepared_of_run_host_still_there :
    let options : Options :=
      { Options.none with basePath := some "x", eventLog := some "e/e", waitPid := some (.whole 7) }
    let s := ((Store.empty.putFile ["x.copies"] [60, 102]).put ["logs"] .dir).putFile
      ["logs", "copyops-0.log"] []
    let r := Run.first s
    s.WellFormed ∧ s.LinkFree ∧ (pass? options .empty (fun _ ↦ false) r).isNone ∧
      s.Prepared (fun l ↦ ∃ config loaded,
        (configuration options).run (shown options r) = (.ok config, loaded) ∧
          OwnDirectory config s l)
        ((run options .empty fun _ ↦ false).run r).2.store := by
  intro options s r
  have hs : s.WellFormed := by decide +kernel
  have hfree : s.LinkFree := .of_entries (by decide)
  have hnone : (pass? options .empty (fun _ ↦ false) r).isNone := by decide +kernel
  have hprepared := prepared_of_run options .empty (fun _ ↦ false) (r := r) hs hfree
  rw [Option.isNone_iff_eq_none.mp hnone] at hprepared
  exact ⟨hs, hfree, hnone, hprepared⟩

end Program

end DeferredOps
