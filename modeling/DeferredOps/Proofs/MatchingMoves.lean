import DeferredOps.Proofs.FileMoves
import DeferredOps.Proofs.MatchingDeletions
import DeferredOps.Proofs.Store.Creatable

/-!
# Moves of matching files, one by one

The files that match a pattern are moved into a directory one after another. Each of these moves ends in
one of three ways, and none of them changes how another one ends: they have different names, so they
deal with different entries of the two directories, and no way to a directory leads over a file.
-/

namespace DeferredOps

open Action

namespace Executor

open RunAction Store

/-! ## Verdicts -/

/-- How the move of a file ends. -/
inductive Verdict
  | moved
  | skipped
  | failed
  deriving DecidableEq, Repr

/-- The counter of the moves that end in this way. -/
def Verdict.counter : Verdict → String
  | .moved => "moved"
  | .skipped => "skipped"
  | .failed => "failed"

/-- A verdict has been carried out on one entry and counted. -/
def Settles (verdict : Verdict) (s : Store) (c : Counters) (source target : Location) (s' : Store)
    (c' : Counters) : Prop :=
  (if verdict = .moved then s.EntryMoved source target s' else s' = s) ∧
    c' = c.increment verdict.counter

/-- The verdicts on entries of a directory have been carried out and counted. -/
structure Settled (verdict : String → Verdict) (s : Store) (c : Counters) (directory place : Location)
    (names : List String) (s' : Store) (c' : Counters) : Prop where
  wellFormed : s'.WellFormed
  arrived {name} (hname : name ∈ names) (h : verdict name = .moved) :
    s'.entry? (place ++ [name]) = s.entry? (directory ++ [name])
  gone {name} (hname : name ∈ names) (h : verdict name = .moved) :
    s'.entry? (directory ++ [name]) = none
  stays {l} (h : ∀ name ∈ names, verdict name = .moved →
    l ≠ directory ++ [name] ∧ l ≠ place ++ [name]) : s'.entry? l = s.entry? l
  current : s'.current = s.current
  counted (counter : String) : c'.value counter =
    c.value counter + names.countP fun name ↦ (verdict name).counter = counter

/-- Entries of a directory that can be moved to another one: whatever goes is no directory, and neither
is what gives way to it. -/
structure Movables (verdict : String → Verdict) (s : Store) (p q : Path) (directory place : Location)
    (names : List String) : Prop where
  wellFormed : s.WellFormed
  source : s.target .followed p = .ok (.found directory .dir)
  destination : s.target .followed q = .ok (.found place .dir)
  cleanSource : p.hasNul = false
  cleanDestination : q.hasNul = false
  there : s.entry? place = some .dir
  leaf {name} (h : name ∈ names) : s.Leaf (directory ++ [name])
  old {name} (h : name ∈ names) (hmoved : verdict name = .moved)
    (hthere : s.entry? (place ++ [name]) ≠ none) : s.Leaf (place ++ [name])

variable {verdict : String → Verdict} {s s' s'' : Store} {c c' c'' : Counters} {p q t : Path}
  {directory place source target l : Location} {names done : List String} {name : String}
  {policy : OverwritePolicy} {f : Failure} {depth : ℕ} {E : Failure → Run → Prop}

namespace Settled

theorem refl (hs : s.WellFormed) : Settled verdict s c directory place [] s c where
  wellFormed := hs
  arrived hname := by cases hname
  gone hname := by cases hname
  stays _ := rfl
  current := rfl
  counted _ := by simp

/-- A name that has not had its turn has the same entries as before in both directories. -/
theorem entry_of_fresh (h : Settled verdict s c directory place done s' c') (hfresh : name ∉ done) :
    s'.entry? (directory ++ [name]) = s.entry? (directory ++ [name]) ∧
      s'.entry? (place ++ [name]) = s.entry? (place ++ [name]) := by
  have hother {d d' : Location} {other : String} (hmem : other ∈ done) : d ++ [name] ≠ d' ++ [other] := by
    intro heq
    obtain rfl : name = other := by simpa using (List.append_inj' heq rfl).2
    exact hfresh hmem
  exact ⟨h.stays fun other hmem _ ↦ ⟨hother hmem, hother hmem⟩,
    h.stays fun other hmem _ ↦ ⟨hother hmem, hother hmem⟩⟩

theorem linkFree (h : Settled verdict s c directory place names s' c') (hfree : s.LinkFree) :
    s'.LinkFree := by
  intro l text hentry
  by_cases htouched : ∃ name ∈ names, verdict name = .moved ∧
      (l = directory ++ [name] ∨ l = place ++ [name])
  · obtain ⟨name, hmem, hmoved, rfl | rfl⟩ := htouched
    · cases (h.gone hmem hmoved).symm.trans hentry
    · exact hfree _ _ ((h.arrived hmem hmoved).symm.trans hentry)
  · refine hfree _ _ ((h.stays fun name hmem hmoved ↦ ?_).symm.trans hentry)
    exact not_or.mp fun heq ↦ htouched ⟨name, hmem, hmoved, heq⟩

/-- One more verdict is carried out. -/
theorem next (h : Settled verdict s c directory place done s' c') (hfresh : name ∉ done)
    (hstep : Settles (verdict name) s' c' (directory ++ [name]) (place ++ [name]) s'' c'') :
    Settled verdict s c directory place (done ++ [name]) s'' c'' := by
  obtain ⟨hstep, rfl⟩ := hstep
  have hcounted (counter : String) : (c'.increment (verdict name).counter).value counter =
      c.value counter + (done ++ [name]).countP fun name ↦ (verdict name).counter = counter := by
    rw [Counters.value_increment_eq, h.counted, List.countP_append, List.countP_singleton]
    simp only [decide_eq_true_eq, eq_comm (a := counter)]
    split <;> push_cast <;> omega
  have hother {d d' : Location} {other : String} (hmem : other ∈ done) : d ++ [other] ≠ d' ++ [name] := by
    intro heq
    obtain rfl : other = name := by simpa using (List.append_inj' heq rfl).2
    exact hfresh hmem
  by_cases hmoved : verdict name = .moved
  · rw [if_pos hmoved] at hstep
    obtain ⟨hsource, -⟩ := h.entry_of_fresh hfresh
    refine ⟨hstep.wellFormed, fun {other} hmem hverdict ↦ ?_, fun {other} hmem hverdict ↦ ?_,
      fun hl ↦ ?_, hstep.current.trans h.current, hcounted⟩
    · rcases List.mem_append.mp hmem with hmem | hmem
      · rw [hstep.stays (hother hmem) (hother hmem), h.arrived hmem hverdict]
      · obtain rfl : other = name := by simpa using hmem
        rw [hstep.arrived, hsource]
    · rcases List.mem_append.mp hmem with hmem | hmem
      · rw [hstep.stays (hother hmem) (hother hmem), h.gone hmem hverdict]
      · obtain rfl : other = name := by simpa using hmem
        exact hstep.gone
    · obtain ⟨hsource, htarget⟩ := hl name (by simp) hmoved
      rw [hstep.stays hsource htarget]
      exact h.stays fun other hmem ↦ hl other (List.mem_append_left _ hmem)
  · rw [if_neg hmoved] at hstep
    subst hstep
    have hmem {other : String} (hmem : other ∈ done ++ [name]) (hverdict : verdict other = .moved) :
        other ∈ done := by
      refine (List.mem_append.mp hmem).resolve_right fun hlast ↦ hmoved ?_
      obtain rfl : other = name := by simpa using hlast
      exact hverdict
    exact ⟨h.wellFormed, fun hm hv ↦ h.arrived (hmem hm hv) hv, fun hm hv ↦ h.gone (hmem hm hv) hv,
      fun hl ↦ h.stays fun other hm ↦ hl other (List.mem_append_left _ hm), h.current, hcounted⟩

end Settled

namespace Movables

variable (h : Movables verdict s p q directory place names)
  (hd : Settled verdict s c directory place done s' c') (hdone : done ⊆ names)
include h hd hdone

/-- Only leaves are missing after some of the moves. -/
theorem kept (l : Location) (e : Entry) (hentry : s.entry? l = some e) :
    s.Leaf l ∨ s'.entry? l = some e := by
  by_cases htouched : ∃ name ∈ done, verdict name = .moved ∧
      (l = directory ++ [name] ∨ l = place ++ [name])
  · obtain ⟨name, hmem, hmoved, rfl | rfl⟩ := htouched
    · exact .inl (h.leaf (hdone hmem))
    · exact .inl (h.old (hdone hmem) hmoved (by simp [hentry]))
  · refine .inr ((hd.stays fun name hmem hmoved ↦ ?_).trans hentry)
    exact not_or.mp fun heq ↦ htouched ⟨name, hmem, hmoved, heq⟩

theorem source_kept : s'.target .followed p = .ok (.found directory .dir) :=
  target_of_leaves h.source (h.kept hd hdone) hd.current

theorem destination_kept : s'.target .followed q = .ok (.found place .dir) :=
  target_of_leaves h.destination (h.kept hd hdone) hd.current

theorem place_kept : s'.entry? place = some .dir := by
  refine (h.kept hd hdone _ _ h.there).resolve_left fun hleaf ↦ ?_
  obtain ⟨entry, hentry, hne⟩ := hleaf.exists_entry
  cases h.there.symm.trans hentry
  exact hne rfl

theorem isDirectory_kept : s'.isDirectory q = .ok true :=
  StoreAction.isDirectory_eq_true_iff.mpr ⟨h.cleanDestination, place, h.destination_kept hd hdone⟩

/-- What has not had its turn has its place in the directory still. -/
theorem slot_source {entry : Entry} (hfresh : name ∉ done)
    (hentry : s.entry? (directory ++ [name]) = some entry)
    (hshort : (p.child name).text.utf8ByteSize < pathLimit) :
    s'.slot (p.child name) = .ok (.name directory name) := by
  have hthere := (hd.entry_of_fresh hfresh).1.trans hentry
  exact slot_child (h.source_kept hd hdone)
    (hd.wellFormed.lookedUp (hd.wellFormed.parent hthere) (hd.wellFormed.name hthere)) hshort

theorem slot_target (hname : IsName name) (hshort : (q.child name).text.utf8ByteSize < pathLimit) :
    s'.slot (q.child name) = .ok (.name place name) :=
  slot_child (h.destination_kept hd hdone)
    (hd.wellFormed.lookedUp (h.place_kept hd hdone) hname) hshort

end Movables

/-! ## One move after another -/

/-- The moves of entries of a directory carry the verdicts out, if each of them does when its turn
comes. -/
theorem starts_moveEach (hs : s.WellFormed) (hnodup : names.Nodup)
    (hstep : ∀ done name rest s' c', done ++ name :: rest = names → name ∉ done →
      Settled verdict s c directory place done s' c' →
        Ensures (Starts s' c') (moveEntry (p.child name) q policy)
          (fun _ ↦ Run.On (Settles (verdict name) s' c' (directory ++ [name]) (place ++ [name])))
          (fun _ _ ↦ False)) :
    Ensures (Starts s c)
      (forIn (names.map p.child) PUnit.unit fun file _ ↦ do
        info ("Recurse move of " ++ file.text ++ " into " ++ q.text)
        moveEntry file q policy
        pure (ForInStep.yield PUnit.unit))
      (fun _ ↦ Run.On (Settled verdict s c directory place names)) (fun _ _ ↦ False) := by
  refine (ensures_forIn (I := fun rest r ↦ ∃ done left, done ++ left = names ∧
    rest = left.map p.child ∧ Run.On (Settled verdict s c directory place done) r)
    (fun file rest ↦ ?_) (names.map p.child)).weaken
    (fun r hr ↦ ⟨[], names, rfl, rfl, ?_, hr.silent⟩) (fun _ r hr ↦ ?_) fun _ _ hnot ↦ hnot
  · rintro r ⟨done, left, hsplit, hrest, hr⟩
    obtain ⟨name, left, rfl, rfl, rfl⟩ := List.map_eq_cons_iff.mp hrest.symm
    have hfresh : name ∉ done := by
      rw [← hsplit] at hnodup
      exact fun hmem ↦ List.disjoint_of_nodup_append hnodup hmem List.mem_cons_self
    have hmoved := hstep done name left r.store r.counters hsplit hfresh hr.state
    refine ((on_info _).bind fun _ ↦ hmoved.bind fun _ ↦ ensures_pure fun r' hr' ↦ ?_) r
      ⟨⟨rfl, rfl⟩, hr.silent⟩
    exact ⟨rfl, done ++ [name], left, by simpa using hsplit, rfl, hr.state.next hfresh hr'.state,
      hr'.silent⟩
  · rw [hr.state.1, hr.state.2]
    exact .refl hs
  · obtain ⟨done, left, rfl, hnil, hr⟩ := hr
    obtain rfl : left = [] := by simpa using hnil
    rwa [List.append_nil]

/-- A move by a pattern makes its destination, and then moves what matches. -/
theorem ends_of_move_matching (x : Executor) {pattern : String} {wildcard : Wildcard} {r : Run}
    {s₁ : Store} {P : Store → Counters → Prop} (destination : String)
    (hsplit : Wildcard.ofString pattern = .ok wildcard) (hsilent : r.journal.file = none)
    (hmade : (StoreAction.ensureDirectory (Path.resolve destination x.workingDirectory)).run r.store =
      (.ok (), s₁))
    (hnames : s₁.matchingNames (Path.below x.workingDirectory wildcard.parent) wildcard.expression =
      .ok names)
    (hmoves : Ensures (Starts s₁ r.counters)
      (forIn (names.map (Path.below x.workingDirectory wildcard.parent).child) PUnit.unit
        fun file _ ↦ do
          info ("Recurse move of " ++ file.text ++ " into " ++
            (Path.resolve destination x.workingDirectory).text)
          moveEntry file (Path.resolve destination x.workingDirectory) policy
          pure (ForInStep.yield PUnit.unit))
      (fun _ ↦ Run.On P) (fun _ _ ↦ False)) :
    ((x.move pattern destination policy).run r).1 = .ok () ∧
      P ((x.move pattern destination policy).run r).2.store
        ((x.move pattern destination policy).run r).2.counters := by
  have hfiles : s₁.matchingFiles (Path.below x.workingDirectory wildcard.parent) wildcard.expression =
      .ok (names.map (Path.below x.workingDirectory wildcard.parent).child) := by
    rw [Store.matchingFiles, hnames]
    rfl
  have hmatching : Ensures (Starts r.store r.counters)
      (x.moveMatching pattern (Path.resolve destination x.workingDirectory) policy)
      (fun _ ↦ Run.On P) (fun _ _ ↦ False) := by
    unfold moveMatching splitWildcard
    rw [hsplit, pure_bind]
    refine (starts_onStore_of_eq hmade (P := (· = s₁)) rfl).bind fun _ ↦
      Ensures.bind (starts_ask_of_eq hfiles) fun files ↦ ensures_assume fun heq ↦ ?_
    subst heq
    exact hmoves.bind fun _ ↦ ensures_pure fun _ hr ↦ hr
  have hmove : Ensures (Starts r.store r.counters) (x.move pattern destination policy)
      (fun _ ↦ Run.On P) (fun _ ↦ Run.On fun _ _ ↦ False) := by
    rw [move_of_wildcard x destination policy (hasWildcard_of_split hsplit)]
    exact (on_surviving (E := fun _ _ _ ↦ False) (hmatching.weaken (fun _ hr ↦ hr) (fun _ _ hr ↦ hr)
      fun _ _ h ↦ h.elim) fun _ _ _ _ h ↦ h.elim).weaken (fun _ hr ↦ hr) (fun _ _ hr ↦ hr)
        fun _ _ hr ↦ ⟨hr.state.2, hr.silent⟩
  have hrun := hmove r ⟨⟨rfl, rfl⟩, hsilent⟩
  change Outcome _ _ ((x.move pattern destination policy).run r) at hrun
  rcases hresult : (x.move pattern destination policy).run r with ⟨f | ⟨⟩, r'⟩ <;> rw [hresult] at hrun
  · exact hrun.state.elim
  · exact ⟨rfl, hrun.state⟩

/-! ## Moves that fail -/

theorem settles_failed : Settles .failed s c source target s (c.increment "failed") :=
  ⟨rfl, rfl⟩

theorem halted_ask_of_eq {α : Type} {question : Store → Except Failure α}
    (h : question s = .error f) (hf : f.isSystem) :
    Ensures (Starts s c) (ask question) (fun _ _ ↦ False) (Halted s c) := by
  intro r hr
  rw [run_ask, hr.state.1, h]
  exact ⟨⟨hr.state, hf⟩, hr.silent⟩

/-- An operation that stops before it has changed anything is counted as a failure. -/
theorem starts_surviving_of_halted {report : Failure → String} {operation : RunAction Unit}
    (h : Ensures (Starts s c) operation (fun _ _ ↦ False) (Halted s c)) :
    Ensures (Starts s c) (surviving report operation)
      (fun _ ↦ Run.On (Settles .failed s c source target)) (fun _ _ ↦ False) := by
  refine (on_surviving (E := fun f s' c' ↦ (s' = s ∧ c' = c) ∧ f.isSystem)
    (h.weaken (fun _ hr ↦ hr) (fun _ _ hr ↦ hr.elim) fun _ _ hr ↦ hr) ?_).weaken
    (fun _ hr ↦ hr) (fun _ _ hr ↦ hr) fun f r hr ↦ ?_
  · rintro f s' c' - ⟨⟨rfl, rfl⟩, -⟩
    exact settles_failed
  · obtain ⟨hnot, -, hsystem⟩ := hr.state
    simp [hsystem] at hnot

/-- A path that cannot be asked about is not moved. -/
theorem starts_moveEntryFrom_of_unasked (h : s.entryAt .followed p = .error f) (hf : f.isSystem) :
    Ensures (Starts s c) (moveEntryFrom policy (depth + 1) p q)
      (fun _ ↦ Run.On (Settles .failed s c source target)) (fun _ _ ↦ False) := by
  have hasked : s.isDirectory p = .error f := by
    rw [Store.isDirectory, h]
    rfl
  exact starts_surviving_of_halted
    (Ensures.bind (Q := fun _ _ ↦ False) (halted_ask_of_eq hasked hf) fun _ _ h ↦ h.elim)

/-- A move that stops in the part for files is counted as a failure. -/
theorem starts_moveEntryFrom_of_halted (hdirectory : s.isDirectory p = .ok false)
    (h : Ensures (Starts s c) (moveFile p q policy) (fun _ _ ↦ False) (Halted s c)) :
    Ensures (Starts s c) (moveEntryFrom policy (depth + 1) p q)
      (fun _ ↦ Run.On (Settles .failed s c source target)) (fun _ _ ↦ False) := by
  refine starts_surviving_of_halted ?_
  refine (starts_ask_of_eq hdirectory).bind fun directory ↦ ensures_assume fun hfalse ↦ ?_
  subst hfalse
  exact h

/-- A file is not moved to a path in a directory that cannot be asked about. -/
theorem halted_moveFile_of_unasked {found : Location × Entry} (hinto : s.isDirectory q = .ok true)
    (hfound : s.entryAt .followed p = .ok (some found))
    (htarget : s.entryAt .followed (within q p) = .error f) (hf : f.isSystem) :
    Ensures (Starts s c) (moveFile p q policy) (fun _ _ ↦ False) (Halted s c) := by
  have hsame : s.samePlace p (within q p) = .error f := by
    simp only [samePlace, hfound, htarget, bind, Except.bind]
  refine (starts_ask_of_eq hinto).bind fun directory ↦ ensures_assume fun htrue ↦ ?_
  subst htrue
  exact Ensures.bind (Q := fun _ _ ↦ False) (halted_ask_of_eq hsame hf) fun _ _ h ↦ h.elim

/-! ## Files that match -/

/-- What is to become of a file that is moved to a name in a directory. -/
def fileVerdict (policy : OverwritePolicy) (s : Store) (source target : Location) : Verdict :=
  match s.entry? source, s.entry? target with
  | some file, some old =>
    if isSame (source, file) (target, old) ∨ policy = .merge then .skipped
    else if old.isDir then .failed
    else .moved
  | _, _ => .moved

/-- The same where the path of the file or that of its target may be too long. -/
def matchVerdict (policy : OverwritePolicy) (s : Store) (p q : Path) (directory place : Location)
    (name : String) : Verdict :=
  if pathLimit ≤ (p.child name).text.utf8ByteSize ∨ pathLimit ≤ (q.child name).text.utf8ByteSize then
    .failed
  else fileVerdict policy s (directory ++ [name]) (place ++ [name])

/-- A file that has been moved, or not, has become what it was to become. -/
theorem FileMoved.settles {id : ℕ} {content : Bytes} (h : FileMoved policy s c p t s' c')
    (hentry : s.entry? source = some (.file id content))
    (hfound : s.entryAt .followed p = .ok (some (source, .file id content)))
    (hother : s.entryAt .followed t = .ok ((s.entry? target).map fun entry ↦ (target, entry)))
    (hplace : s.place p = source) (hplace' : s.place t = target) (hparent : s.HasParent t) :
    Settles (fileVerdict policy s source target) s c source target s' c' := by
  have hstays := stays_iff policy (samePlace_of_answers hfound hother) (exists_of_answer hother)
  have hbarred : Barred s policy t ↔
      policy = .replace ∧ answers Entry.isDir ((s.entry? target).map fun entry ↦ (target, entry)) := by
    rw [Barred, isDirectory_of_answer hother, Except.ok.injEq]
    exact or_iff_right (not_not.mpr hparent)
  subst hplace hplace'
  unfold fileVerdict
  rw [hentry]
  cases hold : s.entry? (s.place t) with
  | none =>
    rw [hold] at hstays hbarred
    exact h.moved (by simp [hstays]) (by simp [hbarred, answers])
  | some old =>
    rw [hold] at hstays hbarred
    dsimp only
    by_cases hskipped : isSame (s.place p, .file id content) (s.place t, old) ∨ policy = .merge
    · rw [if_pos hskipped]
      exact h.skipped (hstays.mpr (by simpa using hskipped))
    · rw [if_neg hskipped]
      by_cases hdir : old.isDir
      · rw [if_pos hdir]
        refine h.failed (hbarred.mpr ⟨?_, by simpa [answers] using hdir⟩)
        cases policy with
        | replace => rfl
        | merge => simp at hskipped
      · rw [if_neg hdir]
        exact h.moved (by simpa [hstays] using hskipped) (by simpa [hbarred, answers] using fun _ ↦ hdir)

/-- An entry that is no symbolic link is found by the path of its directory and its name. -/
theorem entryAt_child (hs : s.WellFormed) (hfree : s.LinkFree)
    (hp : s.target .followed p = .ok (.found directory .dir)) (hclean : p.hasNul = false)
    (hdir : s.entry? directory = some .dir) (hname : IsName name)
    (hshort : (p.child name).text.utf8ByteSize < pathLimit) :
    s.slot (p.child name) = .ok (.name directory name) ∧
      s.entryAt .followed (p.child name) =
        .ok ((s.entry? (directory ++ [name])).map fun entry ↦ (directory ++ [name], entry)) := by
  have hslot := slot_child hp (hs.lookedUp hdir hname) hshort
  refine ⟨hslot, ?_⟩
  rw [entryAt, Path.hasNul_child hname.isClean, hclean,
    target_mode hfree .followed (target_kept_of_slot hslot)]
  cases s.entry? (directory ++ [name]) <;> rfl

/-- When its turn comes, a file becomes what it was to become at the beginning. -/
theorem starts_moveEntry_of_file
    (h : Movables (matchVerdict policy s p q directory place) s p q directory place names)
    (hfree : s.LinkFree) (hq : q.Proper) (hfile : ∃ id content,
      s.entry? (directory ++ [name]) = some (.file id content)) (hdone : done ⊆ names)
    (hfresh : name ∉ done)
    (hd : Settled (matchVerdict policy s p q directory place) s c directory place done s' c') :
    Ensures (Starts s' c') (moveEntry (p.child name) q policy)
      (fun _ ↦ Run.On (Settles (matchVerdict policy s p q directory place name) s' c'
        (directory ++ [name]) (place ++ [name]))) (fun _ _ ↦ False) := by
  obtain ⟨id, content, hentry⟩ := hfile
  have hname := h.wellFormed.name hentry
  have hclean {p : Path} (hp : p.hasNul = false) : (p.child name).hasNul = false :=
    (Path.hasNul_child hname.isClean).trans hp
  have hs' := hd.wellFormed
  have hfree' : s'.LinkFree := hd.linkFree hfree
  have hinto := h.isDirectory_kept hd hdone
  obtain ⟨hsource, htarget⟩ := hd.entry_of_fresh hfresh
  have hdir : s'.entry? directory = some .dir := hs'.parent (hsource.trans hentry)
  unfold matchVerdict moveEntry
  by_cases hlong : pathLimit ≤ (p.child name).text.utf8ByteSize
  · rw [if_pos (.inl hlong)]
    exact starts_moveEntryFrom_of_unasked (entryAt_of_long (hclean h.cleanSource) hlong) rfl
  obtain ⟨hslotSource, hfound⟩ := entryAt_child hs' hfree' (h.source_kept hd hdone)
    h.cleanSource hdir hname (Nat.lt_of_not_le hlong)
  rw [hsource, hentry] at hfound
  by_cases hlong' : pathLimit ≤ (q.child name).text.utf8ByteSize
  · have hunasked : s'.entryAt .followed (q.child name) = _ :=
      entryAt_of_long (hclean h.cleanDestination) hlong'
    rw [if_pos (.inr hlong')]
    exact starts_moveEntryFrom_of_halted (isDirectory_of_answer hfound)
      (halted_moveFile_of_unasked hinto hfound (within_child .. ▸ hunasked) rfl)
  obtain ⟨hslot, hother⟩ := entryAt_child hs' hfree' (h.destination_kept hd hdone)
    h.cleanDestination (h.place_kept hd hdone) hname (Nat.lt_of_not_le hlong')
  have hland : landing s' (p.child name) q = q.child name := by
    rw [landing_of_directory _ hinto, within_child]
  have hmovable : MovableFile s' (p.child name) q := by
    refine ⟨hs', hfree', ?_, hq, h.cleanDestination, ?_, hland ▸ Nat.lt_of_not_le hlong'⟩
    · rw [Store.isFile, hfound]
      rfl
    · exact (target_eq_ok_iff.mp h.destination).2.legal
  have hverdict : fileVerdict policy s (directory ++ [name]) (place ++ [name]) =
      fileVerdict policy s' (directory ++ [name]) (place ++ [name]) := by
    rw [fileVerdict, fileVerdict, hsource, htarget]
  rw [if_neg (not_or.mpr ⟨hlong, hlong'⟩), hverdict]
  refine (starts_moveEntryFrom_of_file (isDirectory_of_answer hfound)
    (starts_moveFile_of_movable hmovable)).weaken (fun _ hr ↦ hr) (fun _ r hr ↦ ⟨?_, hr.silent⟩)
    fun _ _ hnot ↦ hnot
  rw [hland] at hr
  exact hr.state.settles (hsource.trans hentry) hfound hother (location_of_slot hfree' hslotSource).symm
    (location_of_slot hfree' hslot).symm (hasParent_of_slot hs' hslot)

/-- A move by a pattern whose destination has been made: every file of the source directory that matches
becomes what it is to become. -/
theorem settled_of_made (x : Executor) {pattern destination : String} {wildcard : Wildcard}
    (policy : OverwritePolicy) {r : Run} (hx : x.workingDirectory.Proper)
    (hs : s.WellFormed) (hfree : s.LinkFree) (hsilent : r.journal.file = none)
    (hsplit : Wildcard.ofString pattern = .ok wildcard)
    (hmade : (StoreAction.ensureDirectory (Path.resolve destination x.workingDirectory)).run r.store =
      (.ok (), s))
    (hlisted : s.listed (Path.below x.workingDirectory wildcard.parent) = .ok directory)
    (hclean : (Path.resolve destination x.workingDirectory).hasNul = false)
    (hdestination : s.target .followed (Path.resolve destination x.workingDirectory) =
      .ok (.found place .dir)) (hthere : s.entry? place = some .dir) :
    let p := Path.below x.workingDirectory wildcard.parent
    let q := Path.resolve destination x.workingDirectory
    let result := (x.move pattern destination policy).run r
    result.1 = .ok () ∧ ∃ names : List String, names.Pairwise (· < ·) ∧
      (∀ name, name ∈ names ↔
        (∃ id content, s.entry? (directory ++ [name]) = some (.file id content)) ∧
          NamePattern.matchesName wildcard.expression name) ∧
      Settled (matchVerdict policy s p q directory place) s r.counters directory place names
        result.2.store result.2.counters := by
  intro p q result
  have hreadable : s.Readable p directory := ⟨hlisted, fun hlink _ ↦ absurd hlink (hfree _ _)⟩
  obtain ⟨names, hnames, hsorted, hmem⟩ := matchingNames_of_readable hs hreadable wildcard.expression
  have hfile (name : String) : s.NamesFile p directory name ↔
      ∃ id content, s.entry? (directory ++ [name]) = some (.file id content) := by
    refine ⟨fun h ↦ h.resolve_right ?_, .inl⟩
    rintro ⟨text, -, -, -, hlink, -⟩
    exact hfree _ _ hlink
  obtain ⟨hcleanSource, hsource⟩ := listed_eq_ok_iff.mp hlisted
  have hmovables : Movables (matchVerdict policy s p q directory place) s p q directory place names := by
    refine ⟨hs, hsource, hdestination, hcleanSource, hclean, hthere,
      fun hname ↦ .inl ((hfile _).mp ((hmem _).mp hname).1), fun {name} hname hmoved hold ↦ ?_⟩
    obtain ⟨id, content, hentry⟩ := (hfile name).mp ((hmem _).mp hname).1
    obtain ⟨old, hold⟩ := Option.ne_none_iff_exists'.mp hold
    cases old with
    | file id content => exact .inl ⟨_, _, hold⟩
    | link text => exact absurd hold (hfree _ _)
    | dir =>
      unfold matchVerdict fileVerdict at hmoved
      rw [hentry, hold] at hmoved
      split at hmoved
      · cases hmoved
      · dsimp only [Entry.isDir] at hmoved
        split at hmoved <;> cases hmoved
  have hnodup : names.Nodup := hsorted.imp fun hlt heq ↦ by simp [heq] at hlt
  have hmoves := starts_moveEach (c := r.counters) hs hnodup
    fun done name rest s' c' hsplit hfresh hd ↦
      starts_moveEntry_of_file hmovables hfree (proper_resolve hx destination)
        ((hfile _).mp ((hmem _).mp (by simp [← hsplit])).1) (hsplit ▸ List.subset_append_left ..)
        hfresh hd
  obtain ⟨hok, hsettled⟩ := ends_of_move_matching x destination hsplit hsilent hmade hnames hmoves
  exact ⟨hok, names, hsorted, fun name ↦ by rw [hmem, hfile], hsettled⟩

end Executor

end DeferredOps
