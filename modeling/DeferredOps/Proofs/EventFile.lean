import DeferredOps.Proofs.Json.RoundTrip
import DeferredOps.Proofs.Reports
import DeferredOps.Proofs.Store.Growth
import DeferredOps.Proofs.Store.Writable
import DeferredOps.Proofs.Text.Lines
import Mathlib.Data.List.Forall2

/-!
# Events are read back from their file

The line of an event is printable ASCII, and the event is read back from it if its context is made of what is
read back from JSON. A file that was not there when its journal was opened, and that nothing else changes,
holds one line for each report that was made, in order.
-/

namespace DeferredOps

open Action Json

/-! ## Lines -/

namespace Event

variable {e : Event}

theorem storable_toJson (h : e.context.Storable) : e.toJson.Storable := by
  refine .obj (by simp) ?_
  simp only [List.forall_mem_cons]
  refine ⟨.str _, .str _, .str _, .str _, h, ?_, fun _ hnone ↦ nomatch hnone⟩
  cases e.session with
  | none => exact .null
  | some session => exact .str session

theorem depth_toJson (e : Event) : e.toJson.depth = e.context.depth + 1 := by
  unfold toJson
  cases e.session <;> simp [depth, depthFields]

theorem toList_line (e : Event) : e.line.toList = printChars e.toJson := by
  simp [line, print]

/-- The line of an event is printable ASCII, so nothing in it ends a line. -/
theorem printable_line (h : e.context.Storable) : ∀ c ∈ e.line.toList, IsAsciiPrintable c := by
  rw [toList_line]
  exact printable_printChars (storable_toJson h)

theorem isLine_line (h : e.context.Storable) : Text.IsLine e.line.toList := by
  intro c hc
  have hprintable := printable_line h c hc
  simp only [Text.isLineEnd, Bool.or_eq_false_iff, beq_eq_false_iff_ne]
  constructor <;> rintro rfl <;> exact absurd hprintable (by decide)

/-- An event is read back from its line exactly if its context is not nested too deep. -/
theorem parse_line_iff (h : e.context.Storable) :
    Json.parse e.line.toList = .ok e.toJson ↔ e.context.depth < nestLimit := by
  rw [toList_line, parse, parseWithin_printChars_iff (storable_toJson h), depth_toJson]
  rfl

/-- The bytes of a line are those of this event. -/
def ReadFrom (e : Event) (line : Bytes) : Prop :=
  ∃ text, Utf8.decode line = .ok text ∧ Json.parse text = .ok e.toJson

theorem readFrom_line (h : e.context.Storable) (hdepth : e.context.depth < nestLimit) :
    e.ReadFrom (Utf8.encodeString e.line) :=
  ⟨e.line.toList, Utf8.decode_encode _, (parse_line_iff h).mpr hdepth⟩

/-- The content of a file with the lines of events. -/
def written (events : List Event) : Bytes :=
  events.flatMap fun e ↦ Utf8.encodeString (e.line ++ "\n")

theorem written_concat (events : List Event) (e : Event) :
    written (events ++ [e]) = written events ++ Utf8.encodeString (e.line ++ "\n") := by
  simp [written]

/-- The lines of a file are those of the events that were written to it. -/
theorem lines_written {events : List Event} (h : ∀ e ∈ events, e.context.Storable) :
    Text.lines (written events) = events.map fun e ↦ Utf8.encodeString e.line := by
  induction events with
  | nil => exact Text.lines_nil
  | cons e events ih =>
    have hbytes : written (e :: events) =
        Utf8.encode e.line.toList ++ Utf8.encode Text.LineEnd.lineFeed.chars ++ written events := by
      simp [written, Utf8.encodeString, Utf8.encode, Text.LineEnd.chars]
    rw [hbytes, Text.lines_encode_append .lineFeed (isLine_line (h e List.mem_cons_self)) (by simp),
      ih fun e he ↦ h e (.tail _ he)]
    rfl

end Event

/-! ## Reports -/

/-- A message with its severity and its context. -/
structure Message where
  severity : Severity
  text : String
  context : Json

namespace Message

/-- Report a message. -/
def emit (m : Message) : RunAction Event :=
  RunAction.emit m.severity m.text m.context

/-- What an event of a session says. -/
def Told (session : String) (m : Message) (e : Event) : Prop :=
  e.severity = m.severity ∧ e.message = m.text ∧ e.context = m.context ∧ e.session = some session

end Message

/-- Nothing has happened to the journal and to its file, which can still be written to. -/
structure Undisturbed (file : Path) (r r' : Run) : Prop where
  journal : r'.journal = r.journal
  wellFormed : r'.store.WellFormed
  writable {content} (h : r.store.Writable file content) : r'.store.Writable file content

/-- The runs in which messages have been reported to a journal whose file was not there when the journal
was opened, with anything in between that leaves the journal and its file as they are. -/
inductive Recorded (file : Path) : List Message → Run → Prop
  | opened {r r' session console directory name} (hwell : r.store.WellFormed)
      (hopen : (RunAction.openJournal (some file) session console).run r = (.ok (), r'))
      (habsent : r'.store.target .written file = .ok (.absent directory name)) : Recorded file [] r'
  | reported {messages r} (h : Recorded file messages r) (m : Message) :
      Recorded file (messages ++ [m]) (m.emit.run r).2
  | other {messages r r'} (h : Recorded file messages r) (hsame : Undisturbed file r r') :
      Recorded file messages r'

namespace RunAction

variable {file : Path} {r r' : Run}

/-- An opened journal has no events, and the store is as it can be. -/
theorem ensures_openJournal (hproper : file.Proper) (session : Option String) (console : Bool) :
    Ensures (fun r ↦ r.store.WellFormed) (openJournal (some file) session console)
      (fun _ r ↦ r.store.WellFormed ∧ r.journal.file = some file ∧ r.journal.events = []) (fun _ _ ↦ True) := by
  have hparent : file.parent.Proper := fun name hname ↦ hproper name (List.mem_of_mem_dropLast hname)
  have hmade (name : String) : Ensures (fun r : Run ↦ r.store.WellFormed) (do
      modify fun run : Run ↦ { run with journal := ⟨some file, name, console, []⟩ }
      onStore (StoreAction.ensureDirectory file.parent))
      (fun _ r ↦ r.store.WellFormed ∧ r.journal.file = some file ∧ r.journal.events = []) (fun _ _ ↦ True) := by
    intro r hr
    have hwell := (StoreAction.madeParents_of_ensureDirectory hr hparent).wellFormed
    rw [run_bind, run_modify]
    dsimp only
    rw [run_onStore]
    dsimp only
    rcases hrun : (StoreAction.ensureDirectory file.parent).run r.store with ⟨_ | ⟨⟩, s⟩ <;> rw [hrun] at hwell
    · trivial
    · exact ⟨hwell, rfl, rfl⟩
  unfold openJournal
  dsimp only
  split
  · exact hmade _
  · intro r hr
    rw [run_bind]
    exact hmade _ { r with names := { r.names with used := r.names.used + 1 } } hr

/-- A report to a file that can be written to notes its event and adds its line to the file. -/
theorem run_emit_of_writable {content : Bytes} (hproper : file.Proper) (hnul : file.hasNul = false)
    (hwell : r.store.WellFormed) (hfile : r.journal.file = some file) (h : r.store.Writable file content)
    (m : Message) :
    ∃ e r', m.emit.run r = (.ok e, r') ∧ m.Told r.journal.session e ∧
      r'.journal = { r.journal with events := r.journal.events ++ [e] } ∧ r'.store.WellFormed ∧
      r'.store.HasContent file (content ++ Utf8.encodeString (e.line ++ "\n")) := by
  obtain ⟨s, hwrite, hs, hcontent⟩ := h.write hwell hproper hnul
    fun content ↦ content ++ Utf8.encodeString ((r.nextEventIn m.severity m.text m.context).line ++ "\n")
  have hstore : (r.notedIn m.severity m.text m.context).store = r.store := rfl
  have hevent : (writeEvent file (r.nextEventIn m.severity m.text m.context)).run
      (r.notedIn m.severity m.text m.context) =
        (.ok (), { r.notedIn m.severity m.text m.context with store := s }) := by
    unfold writeEvent
    rw [run_tryCatch, run_onStore, hstore, StoreAction.write, StoreAction.run_change, hnul, hwrite]
    rfl
  refine ⟨r.nextEventIn m.severity m.text m.context, { r.notedIn m.severity m.text m.context with store := s },
    ?_, ⟨rfl, rfl, rfl, rfl⟩, rfl, hs, hcontent⟩
  rw [Message.emit, run_emit, hfile]
  dsimp only
  rw [hevent]

end RunAction

/-! ## Sequences of reports -/

namespace Recorded

variable {file : Path} {messages : List Message} {r : Run}

/-- What stays so while messages are reported: there is one event for each message, and the file holds the
lines of the events. -/
structure Kept (file : Path) (messages : List Message) (r : Run) : Prop where
  wellFormed : r.store.WellFormed
  journal : r.journal.file = some file
  told : List.Forall₂ (Message.Told r.journal.session) messages r.journal.events
  writable : r.store.Writable file (Event.written r.journal.events)

theorem Kept.emit (h : Kept file messages r) (hproper : file.Proper) (hnul : file.hasNul = false) (m : Message) :
    ∃ e r', m.emit.run r = (.ok e, r') ∧ r'.journal.events = r.journal.events ++ [e] ∧
      Kept file (messages ++ [m]) r' := by
  obtain ⟨e, r', hrun, htold, hjournal, hwell, hcontent⟩ :=
    RunAction.run_emit_of_writable hproper hnul h.wellFormed h.journal h.writable m
  refine ⟨e, r', hrun, by rw [hjournal], hwell, by rw [hjournal]; exact h.journal, ?_, ?_⟩
  · rw [hjournal]
    exact List.rel_append h.told (.cons htold .nil)
  · rw [hjournal, Event.written_concat]
    exact .inr hcontent

theorem kept (h : Recorded file messages r) (hproper : file.Proper) (hnul : file.hasNul = false) :
    Kept file messages r := by
  induction h with
  | @opened _ _ session console _ _ hwell hopen habsent =>
    have hready := RunAction.ensures_openJournal hproper session console _ hwell
    rw [hopen] at hready
    obtain ⟨hwell', hfile, hevents⟩ := hready
    refine ⟨hwell', hfile, ?_, ?_⟩
    · rw [hevents]
      exact .nil
    · rw [hevents]
      exact .inl ⟨rfl, _, _, habsent⟩
  | reported _ m ih =>
    obtain ⟨e, r', hrun, -, hkept⟩ := ih.emit hproper hnul m
    rw [hrun]
    exact hkept
  | other _ hsame ih =>
    refine ⟨hsame.wellFormed, by rw [hsame.journal]; exact ih.journal, by rw [hsame.journal]; exact ih.told, ?_⟩
    rw [hsame.journal]
    exact hsame.writable ih.writable

end Recorded

/-- Each event comes from a message. -/
theorem exists_told {session : String} {messages : List Message} {events : List Event}
    (h : List.Forall₂ (Message.Told session) messages events) {e : Event} (he : e ∈ events) :
    ∃ m ∈ messages, m.Told session e := by
  induction h with
  | nil => cases he
  | cons htold _ ih =>
    rcases List.mem_cons.mp he with rfl | he
    · exact ⟨_, List.mem_cons_self, htold⟩
    · obtain ⟨m, hm, htold⟩ := ih he
      exact ⟨m, List.mem_cons_of_mem _ hm, htold⟩

/-- The line of an event is printable ASCII and the event is read back from it, if its context is what is read
back from JSON and not nested too deep. After any reports to a journal with a file that was not there, the file
holds one line for each of them, from which the event is read back that was noted for it, and the next report
returns. -/
theorem events_read_back :
    (∀ e : Event, e.context.Storable → e.context.depth < nestLimit →
      (∀ c ∈ e.line.toList, IsAsciiPrintable c) ∧ Json.parse e.line.toList = .ok e.toJson) ∧
    ∀ {file : Path} {messages : List Message} {r : Run}, file.Proper → file.hasNul = false →
      Recorded file messages r →
      (∀ m ∈ messages, m.context.Storable ∧ m.context.depth < nestLimit) →
      List.Forall₂ (Message.Told r.journal.session) messages r.journal.events ∧
        (messages ≠ [] → ∃ content, r.store.read file = .ok content ∧
          List.Forall₂ Event.ReadFrom r.journal.events (Text.lines content)) ∧
        ∀ m : Message, ∃ e r', m.emit.run r = (.ok e, r') ∧ r'.journal.events = r.journal.events ++ [e] := by
  refine ⟨fun e h hdepth ↦ ⟨Event.printable_line h, (Event.parse_line_iff h).mpr hdepth⟩, ?_⟩
  intro file messages r hproper hnul hrecorded hcontexts
  have hkept := hrecorded.kept hproper hnul
  have hevents : ∀ e ∈ r.journal.events, e.context.Storable ∧ e.context.depth < nestLimit := by
    intro e he
    obtain ⟨m, hm, -, -, hcontext, -⟩ := exists_told hkept.told he
    exact hcontext ▸ hcontexts m hm
  have hlines := Event.lines_written fun e he ↦ (hevents e he).1
  refine ⟨hkept.told, fun hne ↦ ⟨Event.written r.journal.events, ?_, ?_⟩, fun m ↦ ?_⟩
  · refine (hkept.writable.hasContent fun hnil ↦ hne ?_).read
    rw [hnil, Text.lines_nil] at hlines
    have hnone : r.journal.events = [] := List.map_eq_nil_iff.mp hlines.symm
    exact List.length_eq_zero_iff.mp (hkept.told.length_eq.trans (by rw [hnone, List.length_nil]))
  · rw [hlines, List.forall₂_map_right_iff, List.forall₂_same]
    exact fun e he ↦ Event.readFrom_line (hevents e he).1 (hevents e he).2
  · obtain ⟨e, r', hrun, hnext, -⟩ := hkept.emit hproper hnul m
    exact ⟨e, r', hrun, hnext⟩

/-- A message with characters that are escaped, in a context with values within others. -/
def awkward : Message :=
  ⟨.warning, "\"a\\b\n\x7f\u2028😀", .obj [("k", .arr [.int (-5), .null, .obj []])]⟩

theorem storable_awkward : awkward.context.Storable ∧ awkward.context.depth < nestLimit := by
  refine ⟨.obj (by simp) ?_, by decide⟩
  simp only [List.forall_mem_singleton]
  refine .arr ?_
  simp only [List.forall_mem_cons]
  exact ⟨.int (by decide), .null, .obj List.nodup_nil nofun, nofun⟩

/-- A run that has opened a journal in an empty store. -/
def readyToReport : Run :=
  ((RunAction.openJournal (some ⟨.top, ["e"]⟩) (some "s") true).run (Run.first .empty)).2

/-- Two reports of an awkward message in a row are read back. -/
theorem events_read_back_of_awkward :
    let r := (awkward.emit.run (awkward.emit.run readyToReport).2).2
    Json.parse (readyToReport.nextEventIn .warning awkward.text awkward.context).line.toList =
        .ok (readyToReport.nextEventIn .warning awkward.text awkward.context).toJson ∧
      ∃ content, r.store.read ⟨.top, ["e"]⟩ = .ok content ∧
        List.Forall₂ Event.ReadFrom r.journal.events (Text.lines content) ∧ (Text.lines content).length = 2 := by
  have hproper : Path.Proper ⟨.top, ["e"]⟩ := by simpa [Path.Proper] using ⟨by decide, by decide⟩
  have hopen : (RunAction.openJournal (some ⟨.top, ["e"]⟩) (some "s") true).run (Run.first .empty) =
      (.ok (), readyToReport) := rfl
  have habsent : readyToReport.store.target .written ⟨.top, ["e"]⟩ = .ok (.absent [] "e") := rfl
  have hopened : Recorded ⟨.top, ["e"]⟩ [] readyToReport := .opened Store.wellFormed_empty hopen habsent
  have hrecorded := (hopened.reported awkward).reported awkward
  obtain ⟨htold, hread, -⟩ := events_read_back.2 hproper (by decide) hrecorded
    (by simpa using storable_awkward)
  obtain ⟨content, hcontent, hlines⟩ := hread (by simp)
  exact ⟨(events_read_back.1 _ storable_awkward.1 storable_awkward.2).2, content, hcontent, hlines,
    hlines.length_eq.symm.trans htold.length_eq.symm⟩

/-- An empty array within so many others. -/
def tower : ℕ → Json
  | 0 => .arr []
  | n + 1 => .arr [tower n]

theorem depth_tower (n : ℕ) : (tower n).depth = n + 1 := by
  induction n with
  | zero => rfl
  | succ n ih => simp [tower, depth, depthItems, ih]

theorem storable_tower (n : ℕ) : (tower n).Storable := by
  induction n with
  | zero => exact .arr nofun
  | succ n ih => exact .arr (by simpa using ih)

/-- An event whose context holds an empty array within so many others. -/
def nestedEvent (arrays : ℕ) : Event :=
  ⟨"id-1", .ofDate ⟨2024, 1, 1⟩ 0 0 1, .info, "m", .obj [("k", tower arrays)], none⟩

theorem storable_nestedEvent (arrays : ℕ) : (nestedEvent arrays).context.Storable :=
  .obj (by simp) (by simpa using storable_tower arrays)

theorem parse_nestedEvent_iff (arrays : ℕ) :
    Json.parse (nestedEvent arrays).line.toList = .ok (nestedEvent arrays).toJson ↔ arrays + 2 < nestLimit := by
  have hdepth : (nestedEvent arrays).context.depth = arrays + 2 := by
    simp [nestedEvent, depth, depthFields, depth_tower]
  rw [Event.parse_line_iff (storable_nestedEvent arrays), hdepth]

/-- An event with three thousand arrays within each other is not read back. -/
theorem not_read_back_of_nested :
    (nestedEvent 2999).context.Storable ∧
      Json.parse (nestedEvent 2999).line.toList ≠ .ok (nestedEvent 2999).toJson :=
  ⟨storable_nestedEvent 2999, fun hread ↦ absurd ((parse_nestedEvent_iff 2999).mp hread) (by decide)⟩

end DeferredOps
