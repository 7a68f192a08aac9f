import DeferredOps.Proofs.Alongside
import DeferredOps.Proofs.MatchingDeletions
import DeferredOps.Proofs.Store.Bystander

/-!
# Deletions beside an entry that does not match

A deletion by a pattern asks about every name of the directory. An entry that does not match makes no
difference if it gets an answer: the deletion is step by step the same. A link that cannot be followed gets
none, and then nothing is deleted at all.
-/

namespace DeferredOps

open Action

namespace Store

/-- A symbolic link that gets no answer when its directory is asked for files. One that leads to nothing
does get one. -/
def Obstructs (s : Store) (p : Path) (directory : Location) (name : String) : Prop :=
  ∃ text e, s.entry? (directory ++ [name]) = some (.link text) ∧
    s.target .followed (p.spelledChild name) = .error e ∧ e ≠ .noEntry

variable {s s' : Store} {p : Path} {directory l : Location} {name : String} {entry : Entry}

/-- What does not obstruct a listing gets an answer. -/
theorem exists_isFileName (h : ¬ s.Obstructs p directory name) :
    ∃ b, s.isFileName p directory name = .ok b := by
  cases hanswer : s.isFileName p directory name with
  | ok b => exact ⟨b, rfl⟩
  | error f =>
    obtain ⟨text, e, hlink, hfailed, hne, -⟩ := isFileName_eq_error_iff.mp hanswer
    exact absurd ⟨text, e, hlink, hfailed, hne⟩ h

/-- A directory with an obstruction in it cannot be read. -/
theorem Obstructs.not_readable (h : s.Obstructs p directory name)
    (hlisted : s.listed p = .ok directory) (other : Location) : ¬ s.Readable p other := by
  intro hreadable
  obtain rfl := Except.ok.inj (hlisted.symm.trans hreadable.listed)
  obtain ⟨text, e, hlink, hfailed, hne⟩ := h
  exact hne (hreadable.link hlink hfailed)

/-- A name beside the entry is removed in both stores, or in neither. -/
theorem Beside.unlink_child (hbeside : s.Beside l entry s') (hs' : s'.WellFormed) (hl : l ≠ [])
    (hp : s.target .followed p = .ok (.found directory .dir)) (hne : directory ++ [name] ≠ l) :
    (∃ e, s.unlink (p.child name) = .error e ∧ s'.unlink (p.child name) = .error e) ∨
      s.unlink (p.child name) = .ok (s.erase (directory ++ [name])) ∧
        s'.unlink (p.child name) = .ok (s'.erase (directory ++ [name])) ∧
        ∃ e, s.entry? (directory ++ [name]) = some e ∧ e ≠ .dir := by
  have hslot' : s'.slot (p.child name) = s.slot (p.child name) := hbeside.slot_child hs' hl hp
  unfold Store.unlink
  rw [hslot']
  cases hslot : s.slot (p.child name) with
  | error e => exact .inl ⟨e, rfl, rfl⟩
  | ok slot =>
    cases slot with
    | here | above | top => exact .inl ⟨_, rfl, rfl⟩
    | name d n =>
      obtain ⟨-, front, hparts, hfront, -⟩ := slot_eq_name_iff.mp hslot
      obtain ⟨rfl, hlast⟩ := List.append_inj' (hparts.symm.trans (rfl : (p.child name).parts = _)) rfl
      obtain rfl : n = name := by simpa using hlast
      obtain ⟨rfl, -⟩ := Target.found.inj (hfront.unique (target_eq_ok_iff.mp hp).2)
      simp only [bind, Except.bind]
      rw [hbeside.entry?_of_ne hne]
      rcases hentry : s.entry? (d ++ [n]) with _ | e
      · exact .inl ⟨_, rfl, rfl⟩
      · cases e with
        | dir => exact .inl ⟨_, rfl, rfl⟩
        | file id content => exact .inr ⟨rfl, rfl, _, rfl, by simp⟩
        | link text => exact .inr ⟨rfl, rfl, _, rfl, by simp⟩

end Store

/-- Two runs that differ by one entry of their stores. -/
def Run.Beside (r : Run) (l : Location) (entry : Entry) (r' : Run) : Prop :=
  ∃ s', r' = { r with store := s' } ∧ r.store.Beside l entry s'

namespace Executor

open RunAction Store

/-- Two runs that differ by an entry, where leaves of a store may be gone. -/
structure Abiding (s : Store) (l : Location) (entry : Entry) (r r' : Run) : Prop where
  wellFormed : r.store.WellFormed
  kept {l e} (h : s.entry? l = some e) : s.Leaf l ∨ r.store.entry? l = some e
  current : r.store.current = s.current
  silent : r.journal.file = none
  beside : r.Beside l entry r'
  wellFormed' : r'.store.WellFormed

/-- An operation does the same in two runs, which differ by an entry at the end. -/
abbrev Abides (before : Run → Run → Prop) (s : Store) (l : Location) (entry : Entry)
    (operation : RunAction Unit) : Prop :=
  Alongside (.failures (fun _ ↦ False) fun _ ↦ False) before operation operation
    (fun _ _ ↦ Abiding s l entry) (fun f g r r' ↦ f = g ∧ Abiding s l entry r r')

variable {x : Executor} {r r' : Run} {s : Store} {p : Path} {directory l : Location}
  {name pattern : String} {entry : Entry} {wildcard : Wildcard} {before : Run → Run → Prop}
  {operation : RunAction Unit}

/-- It ends in the same way then. -/
theorem Abides.run (h : Abides before s l entry operation) (hbefore : before r r') :
    (operation.run r').1 = (operation.run r).1 ∧
      (operation.run r).2.Beside l entry (operation.run r').2 := by
  rcases h.alike r r' hbefore with (h | ⟨_, -, h⟩) | (h | ⟨_, -, h⟩) | htogether
  iterate 4 exact h.elim
  rcases hrun : operation.run r with ⟨f | ⟨⟩, t⟩ <;>
    rcases hrun' : operation.run r' with ⟨g | ⟨⟩, t'⟩ <;> rw [hrun, hrun'] at htogether
  · obtain ⟨rfl, hend⟩ := htogether
    exact ⟨rfl, hend.beside⟩
  · cases htogether
  · cases htogether
  · exact ⟨rfl, htogether.beside⟩

theorem abides_report (severity : Severity) (message : String) :
    Abides (Abiding s l entry) s l entry (discard (emit severity message (.obj []))) := by
  refine alongside_of_runs fun r r' h ↦ .inr (.inr ?_)
  obtain ⟨s', rfl, hbeside⟩ := h.beside
  rw [run_report, run_report]
  dsimp only
  rw [h.silent]
  exact ⟨h.wellFormed, h.kept, h.current, h.silent, ⟨s', rfl, hbeside⟩, h.wellFormed'⟩

theorem abides_count (name : String) : Abides (Abiding s l entry) s l entry (count name) := by
  refine alongside_of_runs fun r r' h ↦ .inr (.inr ?_)
  obtain ⟨s', rfl, hbeside⟩ := h.beside
  exact ⟨h.wellFormed, h.kept, h.current, h.silent, ⟨s', rfl, hbeside⟩, h.wellFormed'⟩

/-- A leaf of the directory is removed in both runs. -/
theorem Abiding.erase (h : Abiding s l entry r r') (hleaf : s.Leaf (directory ++ [name]))
    (hne : directory ++ [name] ≠ l) {e : Entry} (hentry : r.store.entry? (directory ++ [name]) = some e)
    (hdir : e ≠ .dir) :
    Abiding s l entry { r with store := r.store.erase (directory ++ [name]) }
      { r' with store := r'.store.erase (directory ++ [name]) } := by
  obtain ⟨s', rfl, hbeside⟩ := h.beside
  have hs' : s'.WellFormed := h.wellFormed'
  have hempty {t : Store} (ht : t.WellFormed) (hthere : t.entry? (directory ++ [name]) = some e)
      (below : String) : t.entry? (directory ++ [name] ++ [below]) = none :=
    ht.none_of_append (by simp) (by simpa [hthere] using hdir)
  have hentry' : s'.entry? (directory ++ [name]) = some e := by rw [hbeside.entry?_of_ne hne, hentry]
  refine ⟨h.wellFormed.erase (hempty h.wellFormed hentry), fun {other e'} hother ↦ ?_, ?_, h.silent,
    ⟨_, rfl, hbeside.erase hne⟩, hs'.erase (hempty hs' hentry')⟩
  · by_cases heq : other = directory ++ [name]
    · exact .inl (heq ▸ hleaf)
    · refine (h.kept hother).imp_right fun hthere ↦ ?_
      change entry? (r.store.erase (directory ++ [name])) other = some e'
      rw [entry?_erase (by simp), if_neg heq, hthere]
  · exact (h.wellFormed.current_erase hentry hdir).trans h.current

section Directory

variable (hl : l ≠ []) (hp : s.target .followed p = .ok (.found directory .dir))
  (hleaf : s.Leaf (directory ++ [name])) (hne : directory ++ [name] ≠ l)
include hl hp hleaf hne

theorem abides_unlink :
    Abides (Abiding s l entry) s l entry (onStore (StoreAction.unlink (p.child name))) := by
  refine alongside_of_runs fun r r' h ↦ .inr (.inr ?_)
  have hp' : r.store.target .followed p = .ok (.found directory .dir) :=
    target_of_leaves hp (fun _ _ ↦ h.kept) h.current
  obtain ⟨s', rfl, hbeside⟩ := h.beside
  rw [run_onStore, run_onStore, StoreAction.run_unlink, StoreAction.run_unlink]
  cases (p.child name).hasNul
  case true => exact ⟨rfl, h⟩
  rcases hbeside.unlink_child h.wellFormed' hl hp' hne with
    ⟨e, hunlink, hunlink'⟩ | ⟨hunlink, hunlink', e, hentry, hdir⟩
  · dsimp only
    rw [hunlink, hunlink']
    exact ⟨rfl, h⟩
  · dsimp only
    rw [hunlink, hunlink']
    exact h.erase hleaf hne hentry hdir

theorem abides_deleteFile : Abides (Abiding s l entry) s l entry (deleteFile (p.child name)) :=
  (abides_report _ _).seq ((abides_unlink hl hp hleaf hne).seq (abides_count _))

end Directory

theorem abides_surviving {report : Failure → String} (h : Abides before s l entry operation) :
    Abides before s l entry (surviving report operation) := by
  refine Alongside.tryCatch h (fun _ _ ↦ False.elim) (fun _ _ ↦ False.elim) fun f g ↦ ?_
  refine alongside_assume fun heq ↦ ?_
  subst heq
  split
  · exact (abides_count _).seq (abides_report _ _)
  · exact alongside_throw fun _ _ h ↦ ⟨rfl, h⟩

/-- A deletion by a pattern does the same in two runs in which it finds the same files. -/
theorem abides_delete (hsplit : Wildcard.ofString pattern = .ok wildcard) (hl : l ≠ [])
    (hlisted : r.store.listed (Path.below x.workingDirectory wildcard.parent) = .ok directory)
    (hstart : Abiding r.store l entry r r')
    (hnames : r'.store.matchingNames (Path.below x.workingDirectory wildcard.parent) wildcard.expression =
      r.store.matchingNames (Path.below x.workingDirectory wildcard.parent) wildcard.expression)
    (hne : ∀ name, NamePattern.matchesName wildcard.expression name → directory ++ [name] ≠ l) :
    Abides (fun t t' ↦ t = r ∧ t' = r') r.store l entry (x.delete pattern) := by
  obtain ⟨-, hp⟩ := listed_eq_ok_iff.mp hlisted
  refine abides_surviving ?_
  rw [if_pos (hasWildcard_of_split hsplit), splitWildcard, hsplit]
  dsimp only
  rw [pure_bind]
  refine Alongside.bind (Q := fun files t t' ↦ r.store.matchingFiles
    (Path.below x.workingDirectory wildcard.parent) wildcard.expression = .ok files ∧
      Abiding r.store l entry t t') (alongside_of_runs fun t t' hstart' ↦ .inr (.inr ?_)) fun files ↦ ?_
  · obtain ⟨rfl, rfl⟩ := hstart'
    rw [matchingFiles, run_ask, run_ask, Store.matchingFiles, Store.matchingFiles, hnames]
    cases t.store.matchingNames (Path.below x.workingDirectory wildcard.parent) wildcard.expression with
    | error f => exact ⟨rfl, hstart⟩
    | ok names => exact ⟨rfl, rfl, hstart⟩
  · refine alongside_assume fun hfiles ↦ ?_
    obtain ⟨directory', hlisted', hmem⟩ := listed_of_matchingFiles hfiles
    obtain rfl := Except.ok.inj (hlisted.symm.trans hlisted')
    refine alongside_forM (List.forall₂_same.mpr fun file hfile ↦ ?_)
    obtain ⟨name, -, rfl, hisFile, hmatches⟩ := hmem file hfile
    exact abides_deleteFile hl hp (leaf_of_namesFile hstart.wellFormed hp (isFileName_eq_true_iff.mp hisFile))
      (hne name hmatches)

/-- Where a link cannot be followed, nothing is deleted and one failure is counted and reported. -/
theorem obstructed_of_delete (hsilent : r.journal.file = none)
    (hsplit : Wildcard.ofString pattern = .ok wildcard)
    (hlisted : r.store.listed (Path.below x.workingDirectory wildcard.parent) = .ok directory)
    (h : r.store.Obstructs (Path.below x.workingDirectory wildcard.parent) directory name) :
    let ended := (x.delete pattern).run r
    ended.1 = .ok () ∧ ended.2.store = r.store ∧ ended.2.counters = r.counters.increment "failed" ∧
      ∃ reason, ended.2.notices = r.notices ++
        [(.warning, Report.failedDelete (Path.resolve pattern x.workingDirectory) reason)] := by
  intro ended
  obtain ⟨f, hnames⟩ := matchingNames_of_unreadable (fun other ↦ h.not_readable hlisted other)
    wildcard.expression
  have hfailed : r.store.matchingFiles (Path.below x.workingDirectory wildcard.parent)
      wildcard.expression = .error f := by
    rw [Store.matchingFiles, hnames]
    rfl
  have hf : f.isSystem := by
    refine (ofChange_of_matchingFiles hfailed).resolve_right fun h ↦ ?_
    cases (listed_eq_ok_iff.mp hlisted).1.symm.trans h.2
  have hrun : ended = _ := run_delete_of_unlisted hsplit hsilent hfailed hf
  have hnoted := Run.reported_noted .warning
    (Report.failedDelete (Path.resolve pattern x.workingDirectory) f.reason)
    { r with counters := r.counters.increment "failed" }
  rw [hrun]
  exact ⟨rfl, rfl, rfl, f.reason, hnoted.notices⟩

/-- A deletion by a pattern does the same beside an entry that does not match and that nothing refers to.
Only a link that cannot be followed keeps it from deleting anything. -/
theorem beside_of_delete (x : Executor) {pattern : String} {wildcard : Wildcard} {r : Run} {s' : Store}
    {directory : Location} {name : String} {entry : Entry} (hs : r.store.WellFormed)
    (hs' : s'.WellFormed) (hsilent : r.journal.file = none)
    (hsplit : Wildcard.ofString pattern = .ok wildcard)
    (hlisted : r.store.listed (Path.below x.workingDirectory wildcard.parent) = .ok directory)
    (hbeside : r.store.Beside (directory ++ [name]) entry s')
    (halone : ¬ r.store.Referred (directory ++ [name]))
    (hname : NamePattern.matchesName wildcard.expression name = false) :
    let p := Path.below x.workingDirectory wildcard.parent
    let ended := (x.perform (.delete pattern)).run r
    let ended' := (x.perform (.delete pattern)).run { r with store := s' }
    (¬ s'.Obstructs p directory name →
      ended'.1 = ended.1 ∧ ended.2.Beside (directory ++ [name]) entry ended'.2) ∧
    (s'.Obstructs p directory name →
      ended'.1 = .ok () ∧ ended'.2.store = s' ∧ ended'.2.counters = r.counters.increment "failed" ∧
        ∃ reason, ended'.2.notices = r.notices ++
          [(.warning, Report.failedDelete (Path.resolve pattern x.workingDirectory) reason)]) := by
  intro p ended ended'
  refine ⟨fun hanswered ↦ ?_, fun hobstructs ↦ ?_⟩
  · obtain ⟨b, hanswer⟩ := exists_isFileName hanswered
    have hnames := hbeside.matchingNames_eq hs' hs hlisted halone hanswer hname
    have hstart : Abiding r.store (directory ++ [name]) entry r { r with store := s' } :=
      ⟨hs, .inr, rfl, hsilent, ⟨s', rfl, hbeside⟩, hs'⟩
    have hne (other : String) (hother : NamePattern.matchesName wildcard.expression other) :
        directory ++ [other] ≠ directory ++ [name] := by
      intro heq
      obtain rfl : other = name := by simpa using heq
      cases hname.symm.trans hother
    exact Abides.run (abides_delete hsplit (by simp) hlisted hstart hnames hne) ⟨rfl, rfl⟩
  · obtain ⟨hnul, hp⟩ := listed_eq_ok_iff.mp hlisted
    have hlisted' : s'.listed p = .ok directory :=
      listed_eq_ok_iff.mpr ⟨hnul, hbeside.target hs' (by simp) hp⟩
    exact obstructed_of_delete (r := { r with store := s' }) hsilent hsplit hlisted' hobstructs

/-- A link to nothing, which makes no difference, and a link over a file, because of which nothing is
deleted. -/
theorem beside_of_delete_links :
    let s := ((Store.empty.put ["d"] .dir).putFile ["d", "a"] [97]).put ["d", "b"] .dir
    let x : Executor := ⟨⟨.top, []⟩, none⟩
    let ended := (x.perform (.delete "d/a*")).run (Run.first s)
    let endedDangling := (x.perform (.delete "d/a*")).run (Run.first (s.put ["d", "l"] (.link "missing")))
    let endedOver := (x.perform (.delete "d/a*")).run (Run.first (s.put ["d", "l"] (.link "a/b")))
    endedDangling.1 = ended.1 ∧ ended.2.Beside ["d", "l"] (.link "missing") endedDangling.2 ∧
      endedOver.2.store = s.put ["d", "l"] (.link "a/b") ∧
      endedOver.2.counters = (Run.first s).counters.increment "failed" := by
  intro s x ended endedDangling endedOver
  have hs : (Run.first s).store.WellFormed := by decide
  have hsplit : Wildcard.ofString "d/a*" = .ok ⟨⟨.here, ["d"]⟩, "a*"⟩ := by decide
  have hbeside (text : String) : s.Beside ["d", "l"] (.link text) (s.put ["d", "l"] (.link text)) :=
    ⟨s.entries, [], rfl, rfl⟩
  have halone : ¬ s.Referred ["d", "l"] := by
    rintro ⟨other, text, hlink, -⟩
    exact LinkFree.of_entries (by decide) _ _ hlink
  have hname : NamePattern.matchesName "a*" "l" = false := by decide +kernel
  have hdangling : ¬ (s.put ["d", "l"] (.link "missing")).Obstructs ⟨.top, ["d"]⟩ ["d"] "l" := by
    rintro ⟨text, e, -, hfailed, -⟩
    cases hfailed
  have hover : (s.put ["d", "l"] (.link "a/b")).Obstructs ⟨.top, ["d"]⟩ ["d"] "l" :=
    ⟨"a/b", .notDirectory, rfl, rfl, by simp⟩
  obtain ⟨hresult, hend⟩ := (beside_of_delete x (r := Run.first s) hs (by decide) rfl hsplit rfl
    (hbeside "missing") halone hname).1 hdangling
  obtain ⟨-, hstore, hcounters, -⟩ := (beside_of_delete x (r := Run.first s) hs (by decide) rfl hsplit rfl
    (hbeside "a/b") halone hname).2 hover
  exact ⟨hresult, hend, hstore, hcounters⟩

end Executor

end DeferredOps
