import DeferredOps.Proofs.Instruction.Writing
import DeferredOps.Proofs.Planning

/-!
# Plans of stored lines

What a plan shows depends on the lines of the instruction file and not on the form in which they are
stored. Every line that is not blank is shown, from its first character that is not blank on, under
its number among all lines. Directives that were written one in a line are read back as they are.
-/

namespace DeferredOps.Batch

open RunAction

variable {batch : Batch} {lineNumber : ℕ} {lines : List Bytes} {texts : List (List Char)} {r : Run}

/-- The instruction file of a batch is there, with a content. -/
def Holds (batch : Batch) (content : Bytes) (r : Run) : Prop :=
  ∃ path file, batch.config.instructionsFile = .ok (some path) ∧ r.store.isFile path = .ok true ∧
    r.store.file path = .ok (file, content)

theorem Holds.run_plan {content : Bytes} (h : batch.Holds content r) :
    batch.plan.run r =
      (.ok (batch.plannedLines 1 (Text.lines (Utf8.dropByteOrderMark content))), r) := by
  obtain ⟨path, file, hpath, hthere, hfound⟩ := h
  exact Batch.run_plan hpath hthere hfound

/-- An instruction file that is alone in the working directory. -/
theorem holds_single (env : Environment) (content : Bytes) :
    (⟨Config.default.put "base_path" (.str "x"), ⟨Path.here, none⟩, env⟩ : Batch).Holds content
      (Run.first (Store.empty.putFile ["x.copies"] content)) :=
  ⟨Path.ofString "x.copies", 0, rfl, rfl, rfl⟩

/-! ## Entries -/

theorem lineText?_encode (text : List Char) :
    lineText? (Utf8.encode text) =
      if Text.trimStart text = [] then none else some (String.ofList (Text.trimStart text)) := by
  unfold lineText?
  rw [Utf8.decodeReplacing_encode]
  simp

theorem mem_plannedLines {entry : PlannedLine} :
    entry ∈ batch.plannedLines lineNumber lines ↔
      ∃ i line text, lines[i]? = some line ∧ lineText? line = some text ∧
        entry = ⟨lineNumber + i, text, batch.parseLine (lineNumber + i) text⟩ := by
  unfold plannedLines
  rw [List.mem_filterMap]
  constructor
  · rintro ⟨⟨line, number⟩, hmem, hentry⟩
    obtain ⟨hle, hline⟩ := List.mk_mem_zipIdx_iff_le_and_getElem?_sub.mp hmem
    obtain ⟨text, htext, rfl⟩ := Option.map_eq_some_iff.mp hentry
    obtain ⟨i, rfl⟩ := Nat.exists_eq_add_of_le hle
    rw [Nat.add_sub_cancel_left] at hline
    exact ⟨i, line, text, hline, htext, rfl⟩
  · rintro ⟨i, line, text, hline, htext, rfl⟩
    refine ⟨(line, lineNumber + i), List.mk_add_mem_zipIdx_iff_getElem?.mpr hline, ?_⟩
    rw [htext]
    rfl

theorem pairwise_plannedLines (batch : Batch) (lineNumber : ℕ) (lines : List Bytes) :
    (batch.plannedLines lineNumber lines).Pairwise (·.lineNumber < ·.lineNumber) := by
  -- The numbers are ascending before the blank lines are left out.
  have hnumbers : (lines.zipIdx lineNumber).Pairwise (·.2 < ·.2) := by
    rw [← List.pairwise_map, List.zipIdx_map_snd]
    exact List.pairwise_lt_range'
  refine hnumbers.filterMap _ fun e e' hlt entry hentry entry' hentry' ↦ ?_
  obtain ⟨text, -, rfl⟩ := Option.map_eq_some_iff.mp hentry
  obtain ⟨text', -, rfl⟩ := Option.map_eq_some_iff.mp hentry'
  exact hlt

/-! ## Forms -/

/-- An empty line at the end is not shown. -/
theorem plannedLines_append_nil (batch : Batch) (lineNumber : ℕ) (lines : List Bytes) :
    batch.plannedLines lineNumber (lines ++ [[]]) = batch.plannedLines lineNumber lines := by
  have hblank : lineText? [] = none := lineText?_encode []
  unfold plannedLines
  rw [List.zipIdx_append, List.filterMap_append]
  simp [hblank]

theorem plannedLines_congr {found expected : List Bytes} (h : Text.SameLines found expected) :
    batch.plannedLines lineNumber found = batch.plannedLines lineNumber expected := by
  rcases h with rfl | rfl | rfl
  · rfl
  · exact (plannedLines_append_nil ..).symm
  · exact plannedLines_append_nil ..

/-- The plan of lines that are stored in some form. -/
theorem Holds.run_plan_store {form : Text.LineForm} (h : batch.Holds (form.store texts) r)
    (htexts : ∀ text ∈ texts, Text.IsLine text)
    (hfirst : ∀ text, texts.head? = some text → text.head? ≠ some '\uFEFF') :
    batch.plan.run r = (.ok (batch.plannedLines 1 (texts.map Utf8.encode)), r) := by
  rw [h.run_plan, plannedLines_congr (Text.sameLines_store form htexts hfirst)]

/-- All forms in which the same lines can be stored have the same plan. It shows the lines that are
not blank, in their order, each trimmed at its front and under its number among all lines. -/
theorem plan_of_stored_lines (batch : Batch) (htexts : ∀ text ∈ texts, Text.IsLine text)
    (hfirst : ∀ text, texts.head? = some text → text.head? ≠ some '\uFEFF') :
    ∃ planned : List PlannedLine,
      (∀ (form : Text.LineForm) (r : Run), batch.Holds (form.store texts) r →
        batch.plan.run r = (.ok planned, r)) ∧
      planned.Pairwise (·.lineNumber < ·.lineNumber) ∧
      ∀ entry, entry ∈ planned ↔
        ∃ i text, texts[i]? = some text ∧ Text.trimStart text ≠ [] ∧
          entry = ⟨i + 1, String.ofList (Text.trimStart text),
            batch.parseLine (i + 1) (String.ofList (Text.trimStart text))⟩ := by
  refine ⟨batch.plannedLines 1 (texts.map Utf8.encode),
    fun form r h ↦ h.run_plan_store htexts hfirst, pairwise_plannedLines .., fun entry ↦ ?_⟩
  rw [mem_plannedLines]
  constructor
  · rintro ⟨i, line, shown, hline, hshown, rfl⟩
    rw [List.getElem?_map, Option.map_eq_some_iff] at hline
    obtain ⟨text, htext, rfl⟩ := hline
    rw [lineText?_encode] at hshown
    split at hshown
    · cases hshown
    · next hne =>
      cases hshown
      exact ⟨i, text, htext, hne, by rw [Nat.add_comm 1 i]⟩
  · rintro ⟨i, text, htext, hne, rfl⟩
    refine ⟨i, Utf8.encode text, _, by rw [List.getElem?_map, htext]; rfl, ?_,
      by rw [Nat.add_comm 1 i]⟩
    rw [lineText?_encode, if_neg hne]

/-- A line separator of Unicode is trimmed like a blank but does not end a line. -/
theorem plan_of_stored_lines_separator :
    let batch : Batch := ⟨Config.default.put "base_path" (.str "x"), ⟨Path.here, none⟩, .empty⟩
    let texts : List (List Char) := ["\u2028 # a\u2028b".toList, [], "@ls".toList, [' ']]
    let run (form : Text.LineForm) : Run :=
      Run.first (Store.empty.putFile ["x.copies"] (form.store texts))
    (∀ text ∈ texts, Text.IsLine text) ∧
      (∀ text, texts.head? = some text → text.head? ≠ some '\uFEFF') ∧
      ∃ planned : List PlannedLine,
        (∀ form, batch.plan.run (run form) = (.ok planned, run form)) ∧
        planned.Pairwise (·.lineNumber < ·.lineNumber) ∧
        (⟨1, "# a\u2028b", batch.parseLine 1 "# a\u2028b"⟩ : PlannedLine) ∈ planned ∧
        (⟨3, "@ls", batch.parseLine 3 "@ls"⟩ : PlannedLine) ∈ planned := by
  intro batch texts run
  have htexts : ∀ text ∈ texts, Text.IsLine text := by
    decide +kernel
  have hfirst : ∀ text, texts.head? = some text → text.head? ≠ some '\uFEFF' := by
    intro text htext
    cases htext
    decide +kernel
  obtain ⟨planned, hplan, hpairwise, hmem⟩ := plan_of_stored_lines batch htexts hfirst
  refine ⟨htexts, hfirst, planned, fun form ↦ hplan form _ (holds_single _ _), hpairwise, ?_, ?_⟩
  · exact (hmem _).mpr ⟨0, "\u2028 # a\u2028b".toList, rfl, by decide +kernel, rfl⟩
  · exact (hmem _).mpr ⟨2, "@ls".toList, rfl, by decide +kernel, rfl⟩

/-! ## Written directives -/

/-- The entry of a directive that is written in a line. -/
def entry (directive : Directive) (line : List Char) (lineNumber : ℕ) : PlannedLine :=
  ⟨lineNumber, String.ofList line, .ok ⟨directive, lineNumber⟩⟩

theorem plannedLines_of_written {directives : List Directive}
    (hwritten : List.Forall₂ Directive.Written directives texts)
    (hwritable : ∀ directive ∈ directives, directive.Writable)
    (hplain : ∀ directive ∈ directives, directive.Plain batch.environment) (lineNumber : ℕ) :
    batch.plannedLines lineNumber (texts.map Utf8.encode) =
      ((directives.zip texts).zipIdx lineNumber).map fun e ↦ entry e.1.1 e.1.2 e.2 := by
  induction hwritten generalizing lineNumber with
  | nil => rfl
  | @cons directive line directives texts hline _ ih =>
    obtain ⟨hwritable, hwritables⟩ := List.forall_mem_cons.mp hwritable
    obtain ⟨hplain, hplains⟩ := List.forall_mem_cons.mp hplain
    have htext : lineText? (Utf8.encode line) = some (String.ofList line) := by
      obtain ⟨c, rest, hcons, -, -⟩ := hline.head hwritable
      rw [lineText?_encode, hline.trimStart_eq hwritable, if_neg (hcons ▸ List.cons_ne_nil c rest)]
    have hparse : batch.parseLine lineNumber (String.ofList line) = .ok ⟨directive, lineNumber⟩ :=
      hline.parse hwritable hplain lineNumber
    rw [List.map_cons, plannedLines_cons, htext, List.zip_cons_cons, List.zipIdx_cons, List.map_cons,
      ← ih hwritables hplains]
    dsimp only
    rw [hparse]
    rfl

theorem exists_written {directives : List Directive}
    (h : List.Forall₂ Directive.Written directives texts) :
    ∀ text ∈ texts, ∃ directive ∈ directives, directive.Written text := by
  induction h with
  | nil => exact nofun
  | cons hline _ ih =>
    rw [List.forall_mem_cons]
    refine ⟨⟨_, List.mem_cons_self, hline⟩, fun text htext ↦ ?_⟩
    obtain ⟨directive, hmem, hwritten⟩ := ih text htext
    exact ⟨directive, List.mem_cons_of_mem _ hmem, hwritten⟩

/-- Directives that are written one in a line and stored in some form are what the plan shows, each
under the number of its line, if their operands refer to no variable that is set. -/
theorem plan_of_written_directives {directives : List Directive} {form : Text.LineForm}
    (hwritten : List.Forall₂ Directive.Written directives texts)
    (hwritable : ∀ directive ∈ directives, directive.Writable)
    (hplain : ∀ directive ∈ directives, directive.Plain batch.environment)
    (h : batch.Holds (form.store texts) r) :
    batch.plan.run r =
      (.ok (((directives.zip texts).zipIdx 1).map fun e ↦ entry e.1.1 e.1.2 e.2), r) := by
  have hlines : ∀ text ∈ texts, Text.IsLine text := by
    intro text htext
    obtain ⟨directive, hmem, hline⟩ := exists_written hwritten text htext
    exact hline.isLine (hwritable directive hmem)
  have hfirst : ∀ text, texts.head? = some text → text.head? ≠ some '\uFEFF' := by
    intro text htext
    obtain ⟨directive, hmem, hline⟩ := exists_written hwritten text (List.mem_of_head? htext)
    obtain ⟨c, rest, rfl, -, hmark⟩ := hline.head (hwritable directive hmem)
    exact fun heq ↦ hmark (Option.some_inj.mp heq)
  rw [h.run_plan_store hlines hfirst, plannedLines_of_written hwritten hwritable hplain]

/-- Quoted operands may have operators, markers, blanks and references in them. -/
theorem plan_of_written_directives_unset :
    let batch : Batch :=
      ⟨Config.default.put "base_path" (.str "x"), ⟨Path.here, none⟩, ⟨[("USER", "me")]⟩⟩
    let directives : List Directive := [.comment "# a > b", .delete "<%TEMP%>\"*",
      .execute " ls )", .move "a > b)" "$HOME\u2028%USER " .merge]
    let texts : List (List Char) := ["# a > b".toList, "<\"<%TEMP%>\"*\"".toList, "@ ls )".toList,
      "\"a > b)\" )\u2003\"$HOME\u2028%USER \"".toList]
    let form : Text.LineForm := ⟨.lineFeed, false, false⟩
    let r := Run.first (Store.empty.putFile ["x.copies"] (form.store texts))
    List.Forall₂ Directive.Written directives texts ∧
      (∀ directive ∈ directives, directive.Writable) ∧
      (∀ directive ∈ directives, directive.Plain batch.environment) ∧
      batch.Holds (form.store texts) r ∧
      batch.plan.run r = (.ok [entry (.comment "# a > b") "# a > b".toList 1,
        entry (.delete "<%TEMP%>\"*") "<\"<%TEMP%>\"*\"".toList 2,
        entry (.execute " ls )") "@ ls )".toList 3,
        entry (.move "a > b)" "$HOME\u2028%USER " .merge)
          "\"a > b)\" )\u2003\"$HOME\u2028%USER \"".toList 4], r) := by
  intro batch directives texts form r
  have hwritten : List.Forall₂ Directive.Written directives texts := by
    refine .cons (.comment _) (.cons ?_ (.cons ?_ (.cons ?_ .nil)))
    · exact .delete "<%TEMP%>\"*"
    · exact .execute " ls )"
    · have hbefore : IsSpacing [' '] := by decide
      have hafter : IsSpacing ['\u2003'] := by decide
      exact .move "a > b)" "$HOME\u2028%USER " .merge hbefore hafter
  have hwritable : ∀ directive ∈ directives, directive.Writable := by decide +kernel
  have hplain : ∀ directive ∈ directives, directive.Plain batch.environment := by decide +kernel
  have hthere : batch.Holds (form.store texts) r := holds_single _ _
  exact ⟨hwritten, hwritable, hplain, hthere,
    plan_of_written_directives hwritten hwritable hplain hthere⟩

end DeferredOps.Batch
