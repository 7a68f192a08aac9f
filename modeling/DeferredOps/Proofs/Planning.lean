import DeferredOps.Proofs.Passes

/-!
# Plans foretell runs

A plan reads the instruction file at once and a run reads it line by line while its instructions are
at work, but both find the same lines as long as nothing is written to the file. Without an event file
nothing is, and a run is then the execution of the planned instructions up to the first one that
fails, with the reports and the counts of the lines between them.
-/

namespace DeferredOps

open Action

namespace Batch

open RunAction

variable {batch : Batch} {path : Path} {r : Run} {file : ℕ} {content : Bytes}

/-- The instruction file is looked for in vain, or it is there. -/
theorem file?_cases (batch : Batch) (r : Run) :
    (∃ f, batch.file?.run r = (.error f, r)) ∨ batch.file?.run r = (.ok none, r) ∨
      ∃ path, batch.config.instructionsFile = .ok (some path) ∧ r.store.isFile path = .ok true := by
  cases hpath : batch.config.instructionsFile with
  | error f =>
    left
    unfold file?
    rw [run_bind, run_ask, hpath]
    exact ⟨f, rfl⟩
  | ok path? =>
    cases path? with
    | none =>
      right; left
      unfold file?
      rw [run_bind, run_ask, hpath]
      rfl
    | some path =>
      rw [run_file? hpath]
      rcases hthere : r.store.isFile path with f | _ | _
      · exact .inl ⟨f, rfl⟩
      · exact .inr (.inl rfl)
      · exact .inr (.inr ⟨path, rfl, hthere⟩)

theorem run_of_file?_error {f : Failure} (h : batch.file?.run r = (.error f, r)) :
    batch.plan.run r = (.error f, r) ∧ batch.run.run r = (.error f, r) := by
  unfold plan run
  rw [run_bind, run_bind, h]
  exact ⟨rfl, rfl⟩

theorem run_of_file?_none (h : batch.file?.run r = (.ok none, r)) :
    batch.plan.run r = (.ok [], r) ∧ batch.run.run r = (.ok (), r) := by
  unfold plan run
  rw [run_bind, run_bind, h]
  exact ⟨rfl, rfl⟩

/-- A file that is there can be opened and read. -/
theorem run_open_read (hfile : r.store.isFile path = .ok true) :
    ∃ file content, r.store.file path = .ok (file, content) ∧
      (onStore (StoreAction.openFile path)).run r =
        (.ok (file, content), { r with store := r.store.openFile file content }) ∧
      (onStore (StoreAction.read path)).run r = (.ok content, r) := by
  obtain ⟨hclean, l, file, content, htarget⟩ := Store.isFile_eq_true_iff.mp hfile
  have hfound : r.store.file path = .ok (file, content) := by
    simp [Store.file, htarget, bind, Except.bind]
    rfl
  refine ⟨file, content, hfound, ?_, ?_⟩
  · have hopen : (StoreAction.openFile path).run r.store =
        (.ok (file, content), r.store.openFile file content) := by
      unfold StoreAction.openFile
      rw [hclean, if_neg (by simp), run_bind, run_get]
      dsimp only
      rw [hfound]
      rfl
    rw [run_onStore, hopen]
  · have hread : (StoreAction.read path).run r.store = (.ok content, r.store) := by
      unfold StoreAction.read
      rw [hclean, if_neg (by simp), run_bind, run_get]
      dsimp only
      rw [Store.read, hfound]
      rfl
    rw [run_onStore, hread]

/-- The lines of a content, as a plan shows them. -/
theorem plannedLines_eq (batch : Batch) (content : Bytes) :
    (numberedLines content).map (fun (lineNumber, line) ↦
      (⟨lineNumber, line, batch.parseLine lineNumber line⟩ : PlannedLine)) =
      batch.plannedLines 1 (Text.lines (Utf8.dropByteOrderMark content)) := by
  unfold numberedLines plannedLines
  rw [List.map_filterMap]
  congr 1
  funext ⟨line, lineNumber⟩
  cases hline : lineText? line <;> simp [hline]

theorem outcome_of_mem_plannedLines {line : PlannedLine} {lineNumber : ℕ} {lines : List Bytes}
    (h : line ∈ batch.plannedLines lineNumber lines) :
    line.outcome = batch.parseLine line.lineNumber line.text := by
  obtain ⟨e, -, he⟩ := List.mem_filterMap.mp h
  obtain ⟨text, -, rfl⟩ := Option.map_eq_some_iff.mp he
  rfl

theorem drop_byteOrderMark (content : Bytes) :
    content.drop (content.length - (Utf8.dropByteOrderMark content).length) =
      Utf8.dropByteOrderMark content := by
  have hsuffix : Utf8.dropByteOrderMark content <:+ content := by
    unfold Utf8.dropByteOrderMark
    split
    · exact List.nil_suffix
    · split
      · exact List.drop_suffix 3 content
      · exact List.suffix_refl content
  exact (List.suffix_iff_eq_drop.mp hsuffix).symm

theorem run_ending_congr {x y last : RunAction Unit} {t : Run} (h : x.run r = y.run t) :
    (ending x last).run r = (ending y last).run t := by
  rw [run_ending, run_ending, h]

theorem sound_openFile (hr : r.Sound Store.WellFormed False) (file : ℕ) (content : Bytes) :
    Run.Sound Store.WellFormed False { r with store := r.store.openFile file content } :=
  ⟨Store.invariant_wellFormed.openFile hr.store, hr.journal⟩

theorem openContent_openFile (s : Store) (file : ℕ) (content : Bytes) :
    (s.openFile file content).openContent file = content := by
  simp [Store.openFile, Store.openContent]

/-- Close a file after a pass over it. -/
def close (file : ℕ) : RunAction Unit :=
  modify fun run ↦ { run with store := run.store.closeFile file }

/-- The pass over an instruction file that nothing is added to meanwhile applies the planned lines. -/
theorem run_processFile (hdirectory : batch.executor.workingDirectory.Proper)
    (hr : r.Sound Store.WellFormed False)
    (hopen : (onStore (StoreAction.openFile path)).run r =
      (.ok (file, content), { r with store := r.store.openFile file content }))
    (hquiet : ((batch.follow (batch.plannedLines 1 (Text.lines (Utf8.dropByteOrderMark content)))).run
      { r with store := r.store.openFile file content }).2.store.openContent file = content) :
    (batch.processFile path).run r =
      (ending (batch.follow (batch.plannedLines 1 (Text.lines (Utf8.dropByteOrderMark content))))
        (close file)).run { r with store := r.store.openFile file content } := by
  unfold processFile
  rw [run_bind, hopen]
  dsimp only
  refine run_ending_congr ?_
  have hdrop := drop_byteOrderMark content
  generalize content.length - (Utf8.dropByteOrderMark content).length = start at hdrop ⊢
  rw [← hdrop] at hquiet ⊢
  refine run_processFrom hdirectory _ _ 1 ?_ (sound_openFile hr file content)
    (openContent_openFile r.store file content) hquiet
  simp only [List.length_drop, growthLimit]
  omega

/-- What is added to an open file without an event file is nothing. -/
theorem openContent_of_silent (hdirectory : batch.executor.workingDirectory.Proper)
    (planned : List PlannedLine) (hr : r.store.WellFormed) (hsilent : r.journal.file = none) :
    ((batch.follow planned).run r).2.store.openContent file = r.store.openContent file := by
  have hstill : Run.Still r.store.opened r := ⟨hr, hsilent, rfl⟩
  have hend := ((composed_follow hdirectory planned).keeps_still.state hstill).opened
  unfold Store.openContent
  rw [hend]

/-- A plan shows the lines of the instruction file that is there. -/
theorem run_plan (hpath : batch.config.instructionsFile = .ok (some path))
    (hthere : r.store.isFile path = .ok true) (hfound : r.store.file path = .ok (file, content)) :
    batch.plan.run r =
      (.ok (batch.plannedLines 1 (Text.lines (Utf8.dropByteOrderMark content))), r) := by
  obtain ⟨file', content', hfound', -, hread⟩ := run_open_read hthere
  cases hfound.symm.trans hfound'
  unfold plan
  rw [run_bind, run_file? hpath, hthere]
  dsimp only [Except.map]
  rw [if_pos rfl, run_bind, hread, ← plannedLines_eq]
  rfl

theorem run_plan_single (hpath : batch.config.instructionsFile = .ok (some path))
    (hthere : r.store.isFile path = .ok true) (hfound : r.store.file path = .ok (file, content))
    (line : Bytes) (text : String) (hlines : Text.lines (Utf8.dropByteOrderMark content) = [line])
    (htext : lineText? line = some text) :
    batch.plan.run r = (.ok [⟨1, text, batch.parseLine 1 text⟩], r) := by
  rw [run_plan hpath hthere hfound, hlines, plannedLines_cons, htext]
  rfl

/-- A plan changes nothing, and it finds what a run of the batch in the same state finds. If the file
is not written to while the run reads it, the run applies the planned lines, and removes the file at
last. It executes the instructions of the lines up to the first one that fails, in the same order and
with the same effects as their execution alone has, with each line counted, and reported before its
instruction. Reports have effects of their own where there is an event file, and the comparison is
then with instructions before each of which the line is reported. -/
theorem run_follows_plan (hr : r.Sound Store.WellFormed False)
    (hdirectory : batch.executor.workingDirectory.Proper) :
    (batch.plan.run r).2 = r ∧
    (∀ f, (batch.plan.run r).1 = .error f → batch.run.run r = (.error f, r)) ∧
    ∀ planned, (batch.plan.run r).1 = .ok planned →
      (planned = [] ∧ batch.run.run r = (.ok (), r)) ∨
      ∃ path file content, batch.config.instructionsFile = .ok (some path) ∧
        r.store.file path = .ok (file, content) ∧
        let opened : Run := { r with store := r.store.openFile file content }
        let pass := (batch.follow planned).run opened
        (r.journal.file = none ∨ pass.2.store.openContent file = content →
          batch.run.run r = (ending (ending (batch.follow planned) (close file))
            (onStore (StoreAction.unlinkIfThere path))).run opened) ∧
        ∀ announced, (announced = false → r.journal.file = none) →
          ∃ done own, batch.UpToFailure announced planned done pass.1 r ∧
            Beside announced done own opened pass.2 r ((batch.executeAll announced done).run r).2 := by
  rcases batch.file?_cases r with ⟨f, hfile⟩ | hfile | ⟨path, hpath, hthere⟩
  · obtain ⟨hplan, hrun⟩ := run_of_file?_error hfile
    rw [hplan]
    exact ⟨rfl, fun g hg ↦ by cases hg; exact hrun, nofun⟩
  · obtain ⟨hplan, hrun⟩ := run_of_file?_none hfile
    rw [hplan]
    exact ⟨rfl, nofun, fun planned h ↦ by cases h; exact .inl ⟨rfl, hrun⟩⟩
  · obtain ⟨file, content, hfound, hopen, -⟩ := run_open_read hthere
    rw [run_plan hpath hthere hfound]
    refine ⟨rfl, nofun, fun planned h ↦ .inr ⟨path, file, content, hpath, hfound, ?_⟩⟩
    cases h
    have hopened := sound_openFile hr file content
    refine ⟨fun hquiet ↦ ?_, fun announced hsink ↦ ?_⟩
    · rw [run_of_isFile hpath hthere]
      refine run_ending_congr (run_processFile hdirectory hr hopen ?_)
      rcases hquiet with hsilent | hquiet
      · exact (openContent_of_silent hdirectory _ hopened.store hsilent).trans
          (openContent_openFile r.store file content)
      · exact hquiet
    · refine beside_follow hdirectory _ (fun line hline ↦ outcome_of_mem_plannedLines hline)
        hopened ?_ hsink
      exact ⟨rfl, ⟨hopened.store, fun path h ↦ ⟨(hr.journal path h).proper, fun _ ↦ trivial⟩⟩, rfl,
        fun _ ↦ ⟨rfl, rfl, rfl⟩⟩

theorem run_follows_plan_single_line :
    let batch : Batch := ⟨Config.default.put "base_path" (.str "x"), ⟨Path.here, none⟩, .empty⟩
    let r := Run.first (Store.empty.putFile ["x.copies"] [98, 111, 103, 117, 115])
    let planned : List PlannedLine := [⟨1, "bogus", batch.parseLine 1 "bogus"⟩]
    r.Sound Store.WellFormed False ∧ batch.executor.workingDirectory.Proper ∧
      (batch.plan.run r).1 = .ok planned ∧ (batch.plan.run r).2 = r ∧
      ∃ file content done own, r.store.file (Path.ofString "x.copies") = .ok (file, content) ∧
        let opened : Run := { r with store := r.store.openFile file content }
        let pass := (batch.follow planned).run opened
        batch.run.run r = (ending (ending (batch.follow planned) (close file))
          (onStore (StoreAction.unlinkIfThere (Path.ofString "x.copies")))).run opened ∧
        batch.UpToFailure false planned done pass.1 r ∧
        Beside false done own opened pass.2 r ((batch.executeAll false done).run r).2 := by
  intro batch r planned
  have hr : r.Sound Store.WellFormed False :=
    ⟨(Run.wellFormed_first (by decide)).store, by simp [r, Run.first, Journal.silent]⟩
  have hdirectory : batch.executor.workingDirectory.Proper := by
    simp [batch, Path.Proper, Path.here]
  have hplan : (batch.plan.run r).1 = .ok planned := by
    have hthere : r.store.isFile (Path.ofString "x.copies") = .ok true := rfl
    have hfound : r.store.file (Path.ofString "x.copies") = .ok (0, [98, 111, 103, 117, 115]) := rfl
    rw [run_plan_single rfl hthere hfound [98, 111, 103, 117, 115] "bogus" (by decide +kernel)
      (by decide +kernel)]
  obtain ⟨hsame, -, hplanned⟩ := run_follows_plan hr hdirectory
  refine ⟨hr, hdirectory, hplan, hsame, ?_⟩
  rcases hplanned planned hplan with ⟨hnone, -⟩ | ⟨path, file, content, hpath, hfound, hrun, hbeside⟩
  · exact absurd hnone (List.cons_ne_nil _ _)
  · have heq : path = Path.ofString "x.copies" := by
      have hconfig : batch.config.instructionsFile = .ok (some (Path.ofString "x.copies")) := rfl
      cases hpath.symm.trans hconfig
      rfl
    subst heq
    obtain ⟨done, own, hdone, hown⟩ := hbeside false fun _ ↦ rfl
    exact ⟨file, content, done, own, hfound, hrun (.inl rfl), hdone, hown⟩

/-- A run reports a line that is no instruction, which is not part of the execution of instructions;
with an event file it writes there what it reports; and it counts no line that it cannot report. -/
theorem run_beyond_plan :
    let batch : Batch := ⟨Config.default.put "base_path" (.str "x"), ⟨Path.here, none⟩, .empty⟩
    let r := Run.first (Store.empty.putFile ["x.copies"] [98, 111, 103, 117, 115])
    let reporting (file : String) : Run :=
      { r with journal := { r.journal with file := some (Path.ofString file) } }
    let planned : List PlannedLine := [⟨1, "bogus", batch.parseLine 1 "bogus"⟩]
    ((batch.plan.run r).1 = .ok planned ∧ (batch.run.run r).2.notices =
        [(.info, "(1) File operation: bogus"),
          (.warning, "Unknown file handling instruction (line 1): bogus")] ∧
      ((batch.executeAll false planned).run r).2.notices = []) ∧
    ((batch.plan.run (reporting "events")).1 = .ok planned ∧
      ((batch.run.run (reporting "events")).2.store.isFile (Path.ofString "events")).toOption =
        some true ∧
      (((batch.executeAll false planned).run (reporting "events")).2.store.isFile
        (Path.ofString "events")).toOption = some false) ∧
    ((batch.plan.run (reporting "\x00")).1 = .ok planned ∧
      planned.countP PlannedLine.isUnrecognized = 1 ∧
      (batch.run.run (reporting "\x00")).2.counters.value "unrecognized" = 0) := by
  intro batch r reporting planned
  have hplan (t : Run) (ht : t.store = r.store) : (batch.plan.run t).1 = .ok planned := by
    have hthere : t.store.isFile (Path.ofString "x.copies") = .ok true := by rw [ht]; rfl
    have hfound : t.store.file (Path.ofString "x.copies") = .ok (0, [98, 111, 103, 117, 115]) := by
      rw [ht]; rfl
    rw [run_plan_single rfl hthere hfound [98, 111, 103, 117, 115] "bogus" (by decide +kernel)
      (by decide +kernel)]
  exact ⟨⟨hplan _ rfl, by decide +kernel, by decide +kernel⟩,
    ⟨hplan _ rfl, by decide +kernel, by decide +kernel⟩,
    hplan _ rfl, by decide +kernel, by decide +kernel⟩

end Batch

end DeferredOps
