import DeferredOps.Proofs.Composed

/-!
# Runs side by side

What an operation does depends on the store, and where there is an event file on what stands in
events. From two runs with the same of these, whose stores differ at most in what is open, it ends in
the same way, with such runs again, and it reports, counts and hands over the same in both, whatever
they had reported and counted before.
-/

namespace DeferredOps

open Action

/-- Two runs on the same store but for what is open, with the same event file, if any, and the same
circumstances of the next event if it is written. -/
structure Run.Abreast (a b : Run) : Prop where
  store : b.store = a.store.withOpened b.store.opened
  wellFormed : a.WellFormed
  file : b.journal.file = a.journal.file
  written (hfile : a.journal.file ≠ none) :
    b.journal.session = a.journal.session ∧ b.names = a.names ∧ b.clock = a.clock

/-- Two runs have gone on in the same way. -/
structure Run.InStep (names : List String) (a b a' b' : Run) : Prop extends Run.Abreast a' b' where
  kept : a'.journal.file = a.journal.file
  notices : ∃ new, a'.notices = a.notices ++ new ∧ b'.notices = b.notices ++ new
  commands : ∃ new, a'.commands = a.commands ++ new ∧ b'.commands = b.commands ++ new
  counters name : a'.counters.value name - a.counters.value name =
    b'.counters.value name - b.counters.value name
  others name (hname : name ∉ names) : a'.counters.value name = a.counters.value name

namespace Run

variable {names : List String} {a b a' b' a'' b'' : Run}

theorem InStep.refl (h : Abreast a b) : InStep names a b a b where
  toAbreast := h
  kept := rfl
  notices := ⟨[], by simp⟩
  commands := ⟨[], by simp⟩
  counters _ := by omega
  others _ _ := rfl

theorem InStep.trans (h : InStep names a b a' b') (h' : InStep names a' b' a'' b'') :
    InStep names a b a'' b'' where
  toAbreast := h'.toAbreast
  kept := h'.kept.trans h.kept
  notices := by
    obtain ⟨new, ha, hb⟩ := h.notices
    obtain ⟨more, ha', hb'⟩ := h'.notices
    exact ⟨new ++ more, by rw [ha', ha, List.append_assoc], by rw [hb', hb, List.append_assoc]⟩
  commands := by
    obtain ⟨new, ha, hb⟩ := h.commands
    obtain ⟨more, ha', hb'⟩ := h'.commands
    exact ⟨new ++ more, by rw [ha', ha, List.append_assoc], by rw [hb', hb, List.append_assoc]⟩
  counters name := by
    have hfirst := h.counters name
    have hsecond := h'.counters name
    omega
  others name hname := (h'.others name hname).trans (h.others name hname)

/-- Two runs stand side by side after the same reports. -/
theorem Abreast.inStep {news : List Notice} (h : Abreast a' b') (ha : Reported news a a')
    (hb : Reported news b b') : InStep names a b a' b' where
  toAbreast := h
  kept := ha.file
  notices := ⟨news, ha.notices, hb.notices⟩
  commands := ⟨[], by simp [ha.commands], by simp [hb.commands]⟩
  counters _ := by rw [ha.counters, hb.counters]; omega
  others _ _ := by rw [ha.counters]

theorem Abreast.noted (h : Abreast a b) (severity : Severity) (message : String) :
    Abreast (a.noted severity message) (b.noted severity message) where
  store := h.store
  wellFormed := ⟨h.wellFormed.store, h.wellFormed.journal⟩
  file := h.file
  written hfile := by
    obtain ⟨hsession, hnames, hclock⟩ := h.written hfile
    simp [Run.noted, hsession, hnames, hclock]

end Run

namespace RunAction

variable {names : List String} {α β : Type} {a b : Run}

/-- The operation does the same in two runs. -/
def SameIn (names : List String) (x : RunAction α) : Prop :=
  ∀ a b, a.Abreast b → (x.run b).1 = (x.run a).1 ∧ Run.InStep names a b (x.run a).2 (x.run b).2

theorem SameIn.bind {x : RunAction α} {next : α → RunAction β} (hx : SameIn names x)
    (hnext : ∀ a, SameIn names (next a)) : SameIn names (x >>= next) := by
  intro a b h
  obtain ⟨hresult, hstep⟩ := hx a b h
  rw [run_bind, run_bind]
  rcases hrun : x.run a with ⟨f | value, a'⟩ <;> rcases hrun' : x.run b with ⟨f' | value', b'⟩ <;>
    rw [hrun, hrun'] at hresult hstep <;> cases hresult
  · exact ⟨rfl, hstep⟩
  · obtain ⟨hresult', hstep'⟩ := hnext _ a' b' hstep.toAbreast
    exact ⟨hresult', hstep.trans hstep'⟩

theorem SameIn.tryCatch {x : RunAction α} {handler : Failure → RunAction α} (hx : SameIn names x)
    (hhandler : ∀ f, SameIn names (handler f)) : SameIn names (tryCatch x handler) := by
  intro a b h
  obtain ⟨hresult, hstep⟩ := hx a b h
  rw [run_tryCatch, run_tryCatch]
  rcases hrun : x.run a with ⟨f | value, a'⟩ <;> rcases hrun' : x.run b with ⟨f' | value', b'⟩ <;>
    rw [hrun, hrun'] at hresult hstep <;> cases hresult
  · obtain ⟨hresult', hstep'⟩ := hhandler _ a' b' hstep.toAbreast
    exact ⟨hresult', hstep.trans hstep'⟩
  · exact ⟨rfl, hstep⟩

/-- An action that is unaware of open files does the same in two runs. -/
theorem sameIn_onStore {action : StoreAction Unit} (hunaware : StoreAction.Unaware action)
    (hstore : ∀ s, s.WellFormed → (action.run s).2.WellFormed) : SameIn names (onStore action) := by
  intro a b hab
  obtain ⟨opened, hrun⟩ := hunaware a.store b.store.opened
  rw [← hab.store] at hrun
  rw [run_onStore, run_onStore, hrun]
  exact ⟨rfl, Run.Abreast.inStep ⟨rfl, ⟨hstore _ hab.wellFormed.store, hab.wellFormed.journal⟩,
    hab.file, hab.written⟩ (.none rfl rfl rfl) (.none rfl rfl rfl)⟩

theorem sameIn_log (level : LogLevel) (message : String) : SameIn names (log level message) :=
  fun _ _ hab ↦ ⟨rfl, Run.Abreast.inStep ⟨hab.store, ⟨hab.wellFormed.store, hab.wellFormed.journal⟩,
    hab.file, hab.written⟩ (.none rfl rfl rfl) (.none rfl rfl rfl)⟩

theorem sameIn_writeEvent {file : Path} (hfile : file.Usable True) (event : Event) :
    SameIn names (writeEvent file event) := by
  refine SameIn.tryCatch (sameIn_onStore (StoreAction.unaware_write file _) fun s hs ↦ ?_) fun f ↦ ?_
  · exact (StoreAction.keeps_write Store.invariant_wellFormed hfile _).state hs
  · split
    · exact sameIn_log _ _
    · exact fun a b h ↦ ⟨rfl, .refl h⟩

theorem sameIn_report (severity : Severity) (message : String) :
    SameIn names (discard (emit severity message (.obj []))) := by
  intro a b h
  have hnoted : Run.InStep names a b (a.noted severity message) (b.noted severity message) :=
    (h.noted severity message).inStep (Run.reported_noted severity message a)
      (Run.reported_noted severity message b)
  rw [run_report, run_report, h.file]
  cases hfile : a.journal.file with
  | none => exact ⟨rfl, hnoted⟩
  | some file =>
    have hevent : b.nextEvent severity message = a.nextEvent severity message := by
      obtain ⟨hsession, hnames, hclock⟩ := h.written (by simp [hfile])
      simp [Run.nextEvent, hsession, hnames, hclock]
    dsimp only
    rw [hevent]
    obtain ⟨hresult, hstep⟩ := sameIn_writeEvent (h.wellFormed.journal file hfile)
      (a.nextEvent severity message) _ _ (h.noted severity message)
    exact ⟨hresult, hnoted.trans hstep⟩

theorem sameIn_count {name : String} (hname : name ∈ names) : SameIn names (count name) := by
  intro a b h
  refine ⟨rfl, ⟨h.store, ⟨h.wellFormed.store, h.wellFormed.journal⟩, h.file, h.written⟩, rfl,
    ⟨[], by simp [Run.notices, count]⟩, ⟨[], by simp [count]⟩, fun other ↦ ?_, fun other hother ↦ ?_⟩
  · change (a.counters.increment name).value other - _ = (b.counters.increment name).value other - _
    rw [Counters.value_increment, Counters.value_increment]
    split
    · next heq =>
      subst heq
      omega
    · omega
  · change (a.counters.increment name).value other = _
    rw [Counters.value_increment, if_neg]
    rintro rfl
    exact hother hname

/-- What is put together from parts does the same in two runs. -/
theorem Composed.sameIn {x : RunAction α} (h : Composed names x) : SameIn names x := by
  induction h with
  | pure => exact fun a b h ↦ ⟨rfl, .refl h⟩
  | throw => exact fun a b h ↦ ⟨rfl, .refl h⟩
  | bind _ _ hx hnext => exact hx.bind hnext
  | tryCatch _ _ hx hhandler => exact hx.tryCatch hhandler
  | @ask _ _ question _ hsame _ hnext =>
    intro a b h
    have hanswer : question b.store = question a.store := by
      rw [h.store]
      exact hsame _ _
    rw [run_bind, run_bind, run_ask, run_ask, hanswer]
    cases hvalue : question a.store with
    | error f => exact ⟨rfl, .refl h⟩
    | ok value => exact hnext a.store value h.wellFormed.store hvalue a b h
  | act h => exact sameIn_onStore h.unaware fun _ ↦ h.wellFormed
  | count h => exact sameIn_count h
  | report severity message => exact sameIn_report severity message
  | command line =>
    intro a b h
    exact ⟨rfl, ⟨h.store, ⟨h.wellFormed.store, h.wellFormed.journal⟩, h.file, h.written⟩, rfl,
      ⟨[], by simp [Run.notices]⟩, ⟨[line], rfl, rfl⟩, fun _ ↦ by dsimp only [run_modify]; omega,
      fun _ _ ↦ rfl⟩

end RunAction

end DeferredOps
