import DeferredOps.Proofs.Store.Actions
import DeferredOps.Run

/-!
# What every operation of a run keeps

The operations of a run reach the store only through actions on it, and beside these they count,
report and log. An invariant of stores is therefore one of runs, if the path of the event file could
have been read from a text.
-/

namespace DeferredOps

open Action

/-- A run whose store has a property and whose event file, if there is one, has a usable path. -/
structure Run.Sound (inv : Store → Prop) (nul : Prop) (r : Run) : Prop where
  store : inv r.store
  journal : ∀ file, r.journal.file = some file → file.Usable nul

/-- A run with a well-formed store. -/
abbrev Run.WellFormed : Run → Prop := Run.Sound Store.WellFormed True

/-- A run whose store has a property, wherever it reports. -/
abbrev Run.Stores (P : Store → Prop) (r : Run) : Prop := P r.store

/-- A run on a store that has counted and reported nothing yet. -/
def Run.first (s : Store) : Run :=
  ⟨s, .empty, .silent, ⟨.ofDate Date.last 0 0 0, 0⟩, ⟨"", 0⟩, [], none, [], "", false⟩

theorem Run.wellFormed_first {s : Store} (hs : s.WellFormed) : (Run.first s).WellFormed :=
  ⟨hs, by simp [Run.first, Journal.silent]⟩

/-- A failure that an instruction survives, or another one that is allowed. -/
def Failure.SystemOr (allowed : Failure → Prop) (f : Failure) : Prop :=
  f.isSystem ∨ allowed f

theorem Failure.OfChange.systemOr {nul : Prop} {allowed : Failure → Prop} {f : Failure}
    (h : f.OfChange nul) (hnul : nul → allowed .embeddedNul) : f.SystemOr allowed := by
  rcases h with hsystem | ⟨rfl, hn⟩
  · exact .inl hsystem
  · exact .inr (hnul hn)

namespace RunAction

variable {inv : Store → Prop} {nul : Prop} {allowed : Failure → Prop} {α : Type} {r : Run}

/-! ## Runs of the simplest operations -/

theorem run_onStore (action : StoreAction α) (r : Run) :
    (onStore action).run r =
      ((action.run r.store).1, { r with store := (action.run r.store).2 }) := by
  unfold onStore
  rw [run_bind, run_get]
  dsimp only
  rcases action.run r.store with ⟨_ | _, s⟩ <;> rfl

theorem run_ask (question : Store → Except Failure α) (r : Run) :
    (ask question).run r = (question r.store, r) := by
  unfold ask
  rw [run_bind, run_get]
  dsimp only
  cases question r.store <;> rfl

theorem keeps_onStore {action : StoreAction α} (h : Keeps inv allowed action) :
    Keeps (Run.Sound inv nul) allowed (onStore action) := by
  intro r hr
  have haction := h r.store hr.store
  rw [run_onStore]
  rcases hrun : action.run r.store with ⟨f | a, s⟩ <;> rw [hrun] at haction
  · exact ⟨⟨haction.1, hr.journal⟩, haction.2⟩
  · exact ⟨haction, hr.journal⟩

theorem keeps_ask {question : Store → Except Failure α}
    (h : ∀ s f, inv s → question s = .error f → allowed f) :
    Keeps (Run.Sound inv nul) allowed (ask question) := by
  intro r hr
  rw [run_ask]
  cases hanswer : question r.store with
  | ok => exact hr
  | error f => exact ⟨hr, h _ f hr.store hanswer⟩

/-- What follows a question may use that some store has given the answer. -/
theorem keeps_ask_bind {β : Type} {question : Store → Except Failure α} {next : α → RunAction β}
    (h : ∀ s f, inv s → question s = .error f → allowed f)
    (hnext : ∀ s a, inv s → question s = .ok a → Keeps (Run.Sound inv nul) allowed (next a)) :
    Keeps (Run.Sound inv nul) allowed (ask question >>= next) := by
  intro r hr
  rw [run_bind, run_ask]
  cases hanswer : question r.store with
  | ok a => exact hnext _ a hr.store hanswer r hr
  | error f => exact ⟨hr, h _ f hr.store hanswer⟩

/-- What does not depend on the store is kept by an action on it. -/
theorem keeps_onStore_frame {kept : Run → Prop} {action : StoreAction α}
    (h : ∀ t store, kept t → kept { t with store }) :
    Keeps kept (fun _ ↦ True) (onStore action) := by
  intro t ht
  rw [run_onStore]
  rcases action.run t.store with ⟨_ | _, store⟩
  · exact ⟨h t store ht, trivial⟩
  · exact h t store ht

theorem keeps_ask_frame {kept : Run → Prop} (question : Store → Except Failure α) :
    Keeps kept (fun _ ↦ True) (ask question) := by
  intro t ht
  rw [run_ask]
  cases question t.store with
  | ok => exact ht
  | error => exact ⟨ht, trivial⟩

theorem stores_onStore {P : Store → Prop} {Q : α → Store → Prop} {E : Failure → Store → Prop}
    {action : StoreAction α} (h : Ensures P action Q E) :
    Ensures (Run.Stores P) (onStore action) (fun a ↦ Run.Stores (Q a)) (fun f ↦ Run.Stores (E f)) := by
  intro t ht
  have haction := h t.store ht
  rw [run_onStore]
  rcases hrun : action.run t.store with ⟨f | a, s⟩ <;> rw [hrun] at haction <;> exact haction

theorem keeps_onStore_stores {P : Store → Prop} {action : StoreAction α} (h : Keeps P allowed action) :
    Keeps (Run.Stores P) allowed (onStore action) :=
  stores_onStore h

/-- What does not depend on the output is kept by printing. -/
theorem keeps_printLine {kept : Run → Prop} (text : String)
    (h : ∀ t output, kept t → kept { t with output }) :
    Keeps kept (fun _ ↦ True) (printLine text) := by
  refine keeps_get_bind fun t ht ↦ ?_
  cases (if t.onTerminal then some text else Terminal.plain? text : Option String) with
  | none => exact keeps_throw trivial
  | some plain => exact ensures_set fun _ _ ↦ h t _ ht

theorem keeps_count (name : String) : Keeps (Run.Sound inv nul) allowed (count name) :=
  keeps_modify fun _ hr ↦ ⟨hr.store, hr.journal⟩

theorem keeps_log (level : LogLevel) (message : String) :
    Keeps (Run.Sound inv nul) allowed (log level message) :=
  keeps_modify fun _ hr ↦ ⟨hr.store, hr.journal⟩

theorem keeps_freshName : Keeps (Run.Sound inv nul) allowed freshName :=
  fun _ hr ↦ ⟨hr.store, hr.journal⟩

theorem keeps_now : Keeps (Run.Sound inv nul) allowed now :=
  fun _ hr ↦ ⟨hr.store, hr.journal⟩

/-! ## Reporting -/

section Kept

variable (hinv : Store.Invariant inv)
include hinv

/-- Only a path with the character NUL keeps an event from being reported. -/
theorem keeps_writeEvent {file : Path} (hfile : file.Usable nul) (event : Event) :
    Keeps (Run.Sound inv nul) (fun f ↦ f = .embeddedNul ∧ nul) (writeEvent file event) := by
  refine (keeps_onStore (StoreAction.keeps_write hinv hfile _)).tryCatch fun f hf ↦ ?_
  split
  · exact keeps_log _ _
  · next hsystem => exact keeps_throw (hf.resolve_left hsystem)

theorem keeps_emit (severity : Severity) (message : String) (context : Json) :
    Keeps (Run.Sound inv nul) (fun f ↦ f = .embeddedNul ∧ nul) (emit severity message context) := by
  unfold emit
  refine keeps_freshName.bind fun id ↦ keeps_now.bind fun time ↦ ?_
  refine keeps_get_bind fun r hr ↦ ?_
  refine (keeps_modify fun _ hr' ↦ ⟨hr'.store, hr.journal⟩).bind fun _ ↦ ?_
  dsimp only
  cases hfile : r.journal.file with
  | none =>
    split
    · exact (keeps_log _ _).bind fun _ ↦ keeps_pure _
    · exact keeps_pure _
  | some file =>
    have hwrite (event : Event) := keeps_writeEvent hinv (hr.journal file hfile) event
    split
    · exact (keeps_log _ _).bind fun _ ↦ (hwrite _).bind fun _ ↦ keeps_pure _
    · exact (hwrite _).bind fun _ ↦ keeps_pure _

theorem keeps_info (message : String) : Keeps (Run.Sound inv nul) (fun f ↦ f = .embeddedNul ∧ nul) (info message) :=
  (keeps_emit hinv _ _ _).bind fun _ ↦ keeps_pure _

theorem keeps_warn (message : String) : Keeps (Run.Sound inv nul) (fun f ↦ f = .embeddedNul ∧ nul) (warn message) :=
  (keeps_emit hinv _ _ _).bind fun _ ↦ keeps_pure _

/-- What a survived operation may still fail with is no failure that it survives. -/
theorem keeps_surviving {report : Failure → String} {operation : RunAction Unit}
    (hnul : nul → allowed .embeddedNul)
    (h : Keeps (Run.Sound inv nul) (Failure.SystemOr allowed) operation) :
    Keeps (Run.Sound inv nul) allowed (surviving report operation) := by
  refine h.tryCatch fun f hf ↦ ?_
  split
  · refine (keeps_count _).bind fun _ ↦ (keeps_warn hinv _).weaken ?_
    rintro _ ⟨rfl, h⟩
    exact hnul h
  · next hsystem => exact keeps_throw (hf.resolve_left hsystem)

end Kept

/-- The last operation runs from where the first one ends, and its failure counts first. -/
theorem run_ending (operation last : RunAction Unit) (r : Run) :
    (ending operation last).run r =
      match operation.run r with
      | (.ok _, r') => last.run r'
      | (.error f, r') =>
        match last.run r' with
        | (.ok _, r'') => (.error f, r'')
        | (.error g, r'') => (.error g, r'') := by
  unfold ending
  rw [run_bind, run_tryCatch, run_bind]
  rcases operation.run r with ⟨f | ⟨⟩, r'⟩
  · simp only [run_pure, run_bind]
    rcases last.run r' with ⟨g | ⟨⟩, r''⟩ <;> rfl
  · simp only [run_pure, run_bind]
    rcases last.run r' with ⟨g | ⟨⟩, r''⟩ <;> rfl

theorem state_ending (operation last : RunAction Unit) (r : Run) :
    ((ending operation last).run r).2 = (last.run (operation.run r).2).2 := by
  rw [run_ending]
  rcases operation.run r with ⟨f | ⟨⟩, r'⟩
  · dsimp only
    rcases last.run r' with ⟨g | ⟨⟩, r''⟩ <;> rfl
  · rfl

theorem keeps_ending {kept : Run → Prop} {operation last : RunAction Unit}
    (h : Keeps kept allowed operation) (hlast : Keeps kept allowed last) :
    Keeps kept allowed (ending operation last) := by
  intro r hr
  have hfirst := h r hr
  rw [run_ending]
  rcases hrun : operation.run r with ⟨f | ⟨⟩, r'⟩ <;> rw [hrun] at hfirst
  · have hsecond := hlast r' hfirst.1
    dsimp only
    rcases hrun' : last.run r' with ⟨g | ⟨⟩, r''⟩ <;> rw [hrun'] at hsecond
    · exact hsecond
    · exact ⟨hsecond, hfirst.2⟩
  · exact hlast r' hfirst

end RunAction

end DeferredOps
