import DeferredOps.Proofs.Executor
import DeferredOps.Batch

/-!
# Instruction files are applied once

However a batch ends, its instruction file is gone afterwards: the lines may have moved, replaced or
removed it, the directories on the way to it, or the current directory, and the pass may have
stopped at any of them. A second run finds nothing and changes nothing.
-/

namespace DeferredOps

open Action

/-! ## The last removal -/

/-- A name that cannot be removed is not that of a file. -/
theorem StoreAction.ensures_unlink (path : Path) :
    Ensures Store.WellFormed (StoreAction.unlink path) (fun _ s ↦ s.isFile path ≠ .ok true)
      (fun _ s ↦ s.isFile path ≠ .ok true) := by
  intro s hs
  unfold StoreAction.unlink
  rw [StoreAction.run_change]
  split
  · next hnul =>
    intro hfile
    simp [(Store.unlink_of_isFile hfile).1] at hnul
  · cases hunlink : s.unlink path with
    | ok s' => exact Store.not_isFile_of_unlink hs hunlink
    | error e =>
      intro hfile
      obtain ⟨-, s', h⟩ := Store.unlink_of_isFile hfile
      cases hunlink.symm.trans h

theorem StoreAction.ensures_unlinkIfThere (path : Path) :
    Ensures Store.WellFormed (StoreAction.unlinkIfThere path)
      (fun _ s ↦ s.isFile path ≠ .ok true) (fun _ s ↦ s.isFile path ≠ .ok true) := by
  refine (StoreAction.ensures_unlink path).tryCatch fun f ↦ ?_
  split
  · exact ensures_pure fun _ hs ↦ hs
  · exact ensures_throw fun _ hs ↦ hs

namespace Batch

open RunAction

variable {batch : Batch} {path : Path} {r : Run}

/-! ## Making a batch -/

theorem proper_current {s : Store} (hs : s.WellFormed)
    (hcurrent : Store.isRemoved s.current = false) : Path.Proper ⟨.top, s.current⟩ := by
  intro name hname
  have hthere := Store.Standing.entry? hs.current hcurrent
  exact (hs.isName_of_mem hthere hname).isPart

theorem ensures_currentDirectory : Ensures Run.WellFormed Executor.currentDirectory
    (fun directory r ↦ directory.Proper ∧ r.WellFormed) (fun _ r ↦ r.WellFormed) := by
  intro r hr
  unfold Executor.currentDirectory StoreAction.currentDirectory
  rw [run_bind, run_onStore, run_bind, run_get]
  dsimp only
  cases hremoved : Store.isRemoved r.store.current
  · exact ⟨proper_current hr.store hremoved, hr⟩
  · exact hr

theorem ensures_workingDirectory (config : Config) : Ensures Run.WellFormed config.workingDirectory
    (fun directory r ↦ directory.Proper ∧ r.WellFormed) (fun _ r ↦ r.WellFormed) := by
  intro r hr
  unfold Config.workingDirectory
  rw [run_bind, run_ask]
  cases hpath : config.path? "working_directory" with
  | error f => exact hr
  | ok path? =>
    cases path? with
    | none => exact ensures_currentDirectory r hr
    | some path =>
      refine ⟨?_, hr⟩
      unfold Config.path? at hpath
      dsimp only at hpath
      split at hpath
      · cases hpath
      split at hpath
      · cases hpath
        exact Path.proper_ofString _
      · cases hpath

/-- A batch takes relative paths from a directory whose path could have been read from a text. -/
theorem ensures_create (config : Config) (env : Environment) :
    Ensures Run.WellFormed (Batch.create config env)
      (fun batch r ↦ batch.executor.workingDirectory.Proper ∧ r.WellFormed)
      (fun _ r ↦ r.WellFormed) := by
  have hfirst : Ensures Run.WellFormed startCounters (fun _ ↦ Run.WellFormed)
      (fun _ ↦ Run.WellFormed) := ensures_modify fun _ hr ↦ ⟨hr.store, hr.journal⟩
  have hsecond : Ensures Run.WellFormed Executor.startCounters (fun _ ↦ Run.WellFormed)
      (fun _ ↦ Run.WellFormed) := ensures_modify fun _ hr ↦ ⟨hr.store, hr.journal⟩
  refine hfirst.bind fun _ ↦ ?_
  refine (ensures_workingDirectory config).bind fun directory ↦ ensures_assume fun hproper ↦ ?_
  exact hsecond.bind fun _ ↦ ensures_pure fun _ hr ↦ ⟨hproper, hr⟩

/-! ## The pass -/

theorem keeps_processLine (hdirectory : batch.executor.workingDirectory.Proper) (lineNumber : ℕ)
    (line : String) : Keeps Run.WellFormed (fun _ ↦ True) (batch.processLine lineNumber line) := by
  have hinv := Store.invariant_wellFormed
  refine (keeps_count _).bind fun _ ↦ ?_
  refine ((keeps_info hinv _).weaken fun _ _ ↦ trivial).bind fun _ ↦ ?_
  split
  · refine (keeps_count _).bind fun _ ↦ ?_
    exact (keeps_warn hinv _).weaken fun _ _ ↦ trivial
  · next instruction _ =>
    have hexecute := Executor.keeps_execute batch.executor hdirectory instruction
    split
    · exact (keeps_count _).bind fun _ ↦ hexecute
    · exact hexecute

/-- What every line keeps is kept by a pass over an open file. -/
theorem keeps_processFrom {inv : Run → Prop}
    (hline : ∀ lineNumber line, Keeps inv (fun _ ↦ True) (batch.processLine lineNumber line))
    (file budget offset lineNumber : ℕ) :
    Keeps inv (fun _ ↦ True) (batch.processFrom file budget offset lineNumber) := by
  induction budget generalizing offset lineNumber with
  | zero => exact keeps_throw trivial
  | succ budget ih =>
    refine keeps_get_bind fun r _ ↦ ?_
    split
    · exact keeps_pure _
    · dsimp only
      split
      · exact (hline _ _).bind fun _ ↦ ih _ _
      · exact ih _ _

theorem keeps_processFile (hdirectory : batch.executor.workingDirectory.Proper) (path : Path) :
    Keeps Run.WellFormed (fun _ ↦ True) (batch.processFile path) := by
  have hinv := Store.invariant_wellFormed
  have hopen : Keeps Store.WellFormed (fun _ ↦ True) (StoreAction.openFile path) :=
    (StoreAction.keeps_openFile hinv id).weaken fun _ _ ↦ trivial
  refine (keeps_onStore hopen).bind fun opened ↦ ?_
  refine keeps_ending (keeps_processFrom (keeps_processLine hdirectory) _ _ _ _) ?_
  exact keeps_modify fun _ hr ↦ ⟨hinv.closeFile hr.store, hr.journal⟩

theorem run_file? (hpath : batch.config.instructionsFile = .ok (some path)) (r : Run) :
    batch.file?.run r =
      ((r.store.isFile path).map fun there ↦ if there then some path else none, r) := by
  unfold file?
  rw [run_bind, run_ask, hpath]
  dsimp only
  rw [run_bind, run_ask]
  cases r.store.isFile path <;> rfl

/-- The batch does nothing where its instruction file is no file. -/
theorem run_of_not_isFile (hpath : batch.config.instructionsFile = .ok (some path))
    (hfile : r.store.isFile path ≠ .ok true) : (batch.run.run r).2 = r := by
  unfold run
  rw [run_bind, run_file? hpath]
  rcases hthere : r.store.isFile path with f | _ | _
  · rfl
  · rfl
  · exact absurd hthere hfile

/-- However the pass ends, the name of the instruction file is removed after it. -/
theorem run_of_isFile (hpath : batch.config.instructionsFile = .ok (some path))
    (hfile : r.store.isFile path = .ok true) :
    batch.run.run r = (ending (batch.processFile path)
      (onStore (StoreAction.unlinkIfThere path))).run r := by
  unfold run
  rw [run_bind, run_file? hpath, hfile]
  rfl

/-- After a batch has run, its instruction file is gone, and running it again changes nothing. -/
theorem run_consumes (hr : r.WellFormed) (hdirectory : batch.executor.workingDirectory.Proper)
    (hpath : batch.config.instructionsFile = .ok (some path)) :
    let after := (batch.run.run r).2
    after.store.isFile path ≠ .ok true ∧ (batch.run.run after).2 = after := by
  suffices hgone : (batch.run.run r).2.store.isFile path ≠ .ok true from
    ⟨hgone, run_of_not_isFile hpath hgone⟩
  by_cases hfile : r.store.isFile path = .ok true
  · rw [run_of_isFile hpath hfile]
    have hpass := (keeps_processFile hdirectory path).state hr
    have hlast := (StoreAction.ensures_unlinkIfThere path).state hpass.store
    rwa [state_ending, run_onStore]
  · rwa [run_of_not_isFile hpath hfile]

theorem run_consumes_single_file :
    let batch : Batch := ⟨Config.default.put "base_path" (.str "x"), ⟨Path.here, none⟩, .empty⟩
    let r := Run.first (Store.empty.putFile ["x.copies"] [60, 120])
    let after := (batch.run.run r).2
    r.store.isFile (Path.ofString "x.copies") = .ok true ∧
      after.store.isFile (Path.ofString "x.copies") ≠ .ok true ∧ (batch.run.run after).2 = after := by
  have hr : (Run.first (Store.empty.putFile ["x.copies"] [60, 120])).WellFormed :=
    Run.wellFormed_first (by decide)
  have hfile : (Store.empty.putFile ["x.copies"] [60, 120]).isFile (Path.ofString "x.copies") =
      .ok true := by
    refine Store.isFile_eq_true_iff.mpr ⟨by decide, ["x.copies"], 0, [60, 120], ?_⟩
    rw [Store.target_eq_ok_iff]
    exact ⟨by decide, .file ⟨by decide, by decide, by decide, by decide⟩ rfl⟩
  exact ⟨hfile, run_consumes hr (by simp [Path.Proper, Path.here]) rfl⟩

end Batch

end DeferredOps
