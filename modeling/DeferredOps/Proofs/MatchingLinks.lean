import DeferredOps.Proofs.MatchingMoves
import DeferredOps.Proofs.Store.Broken
import Mathlib.Data.List.Sort

/-!
# Moves of matching files and links to files

The files that match are listed once and moved in ascending order. A symbolic link is moved as a link,
but only if it still leads to a file when its turn comes: it stays if its way leads over a file, or a
link, that has gone before.
-/

namespace DeferredOps

open Action

namespace Executor

open RunAction Store

variable {verdict : String → Verdict} {s s' : Store} {c c' : Counters} {p q : Path}
  {directory place : Location} {names done rest : List String} {name : String}
  {policy : OverwritePolicy}

/-! ## Which matches arrive -/

/-- Whether a file goes to another directory when these have gone before: its path and the new one can
be asked about, and it is a file without them. -/
def arrives (s : Store) (p q : Path) (directory : Location) (gone : List String) (name : String) :
    Bool :=
  (p.child name).text.utf8ByteSize < pathLimit && (q.child name).text.utf8ByteSize < pathLimit &&
    cautious ((s.withoutNames directory gone).isFileName p directory name)

/-- The files that go to another directory, where each is asked about after those before it. -/
def arrivals (s : Store) (p q : Path) (directory : Location) (names : List String) : List String :=
  names.foldl (fun gone name ↦ if arrives s p q directory gone name then gone ++ [name] else gone) []

/-- What becomes of the files of a directory that are moved to another one where their names are free. -/
def arrivalVerdict (s : Store) (p q : Path) (directory : Location) (names : List String)
    (name : String) : Verdict :=
  if name ∈ arrivals s p q directory names then .moved else .failed

theorem arrives_iff {gone : List String} : arrives s p q directory gone name ↔
    (p.child name).text.utf8ByteSize < pathLimit ∧ (q.child name).text.utf8ByteSize < pathLimit ∧
      (s.withoutNames directory gone).NamesFile p directory name := by
  rw [← isFileName_eq_true_iff, ← cautious_eq_true_iff]
  simp [arrives, and_assoc]

theorem arrivals_concat : arrivals s p q directory (names ++ [name]) =
    if arrives s p q directory (arrivals s p q directory names) name then
      arrivals s p q directory names ++ [name]
    else arrivals s p q directory names := by
  rw [arrivals, List.foldl_append]
  rfl

theorem arrivals_subset (names : List String) : arrivals s p q directory names ⊆ names := by
  induction names using List.reverseRecOn with
  | nil => exact List.Subset.refl _
  | append_singleton names name ih =>
    rw [arrivals_concat]
    split
    · exact List.append_subset.mpr ⟨List.subset_append_of_subset_left _ ih, by simp⟩
    · exact List.subset_append_of_subset_left _ ih

/-- Later names do not change whether a name is among those that go. -/
theorem mem_arrivals_append (hmem : name ∈ done) (hnodup : (done ++ rest).Nodup) :
    name ∈ arrivals s p q directory (done ++ rest) ↔ name ∈ arrivals s p q directory done := by
  induction rest using List.reverseRecOn with
  | nil => rw [List.append_nil]
  | append_singleton rest last ih =>
    rw [← List.append_assoc] at hnodup ⊢
    have hne : name ≠ last := by
      rintro rfl
      exact List.disjoint_of_nodup_append hnodup (List.mem_append_left _ hmem) (by simp)
    rw [arrivals_concat, ← ih (hnodup.of_append_left)]
    split <;> simp [hne]

theorem mem_arrivals_iff (hnodup : (done ++ name :: rest).Nodup) :
    name ∈ arrivals s p q directory (done ++ name :: rest) ↔
      arrives s p q directory (arrivals s p q directory done) name := by
  have hfresh : name ∉ done := fun hmem ↦
    List.disjoint_of_nodup_append hnodup hmem List.mem_cons_self
  rw [List.append_cons] at hnodup ⊢
  rw [mem_arrivals_append (by simp) hnodup, arrivals_concat]
  split
  · next h => simp [h]
  · next h => simpa [h] using fun hmem ↦ hfresh (arrivals_subset _ hmem)

/-! ## One move -/

/-- Nothing is found at a free name. -/
theorem entryAt_of_vacant (hclean : p.hasNul = false) (hslot : s.slot p = .ok (.name directory name))
    (hvacant : s.entry? (directory ++ [name]) = none) : s.entryAt .followed p = .ok none := by
  rw [entryAt, hclean, target_of_free hslot hvacant]
  rfl

/-- A file goes to a free name. -/
theorem starts_moveFile_to_free {found : Location × Entry} {d d' : Location} {n n' : String} {e : Entry}
    (hs : s.WellFormed) (hp : p.hasNul = false) (hq : (within q p).hasNul = false)
    (hinto : s.isDirectory q = .ok true) (hfound : s.entryAt .followed p = .ok (some found))
    (hsource : s.slot p = .ok (.name d n)) (htarget : s.slot (within q p) = .ok (.name d' n'))
    (hname : IsName n') (hentry : s.entry? (d ++ [n]) = some e) (hne : e ≠ .dir)
    (hvacant : s.entry? (d' ++ [n']) = none) {E : Failure → Run → Prop} :
    Ensures (Starts s c) (moveFile p q policy)
      (fun _ ↦ Run.On (Settles .moved s c (d ++ [n]) (d' ++ [n']))) E := by
  have hdistinct : d ++ [n] ≠ d' ++ [n'] := by
    intro heq
    rw [heq, hvacant] at hentry
    cases hentry
  obtain ⟨s₁, s', hcleared, hmoved, hend⟩ := StoreAction.exists_run_replace hs hp hq hsource htarget hname
    hdistinct hentry hne fun old hold ↦ by cases hvacant.symm.trans hold
  have hother := entryAt_of_vacant hq htarget hvacant
  refine starts_moveFile_of_answers ⟨true, hinto⟩ (landing_of_directory _ hinto)
    (exists_of_answer hfound) (samePlace_of_answers hfound hother) (exists_of_answer hother)
    (fun h ↦ by simp at h) fun _ _ ↦ ?_
  refine (starts_onStore_of_eq hcleared (P := (· = s₁)) rfl).bind fun _ ↦
    (starts_onStore_of_eq hmoved (P := (s.EntryMoved (d ++ [n]) (d' ++ [n']) ·)) hend).bind fun _ ↦
      on_count fun s' c' hr ↦ ?_
  exact ⟨by simpa using hr.1, by rw [hr.2]; rfl⟩

/-- Nothing is moved from a path that leads nowhere. -/
theorem halted_moveFile_of_missing (hinto : s.isDirectory q = .ok true)
    (hmissing : s.entryAt .followed p = .ok none) (hvacant : s.exists? (within q p) ≠ .ok true) :
    Ensures (Starts s c) (moveFile p q policy) (fun _ _ ↦ False) (Halted s c) := by
  have hsame : s.samePlace p (within q p) = .ok false := by
    simp only [samePlace, hmissing, bind, Except.bind]
    rfl
  refine (starts_ask_of_eq hinto).bind fun directory ↦ ensures_assume fun htrue ↦ ?_
  subst htrue
  refine (starts_ask_of_eq hsame).bind fun same ↦ ensures_assume fun hfalse ↦ ?_
  subst hfalse
  refine (halted_mayReplace policy hvacant).bind fun goesOn ↦ ensures_assume fun hgoesOn ↦ ?_
  subst hgoesOn
  refine (on_info _).bind fun _ ↦ (starts_ask_of_eq (exists_of_answer hmissing)).bind fun isThere ↦
    ensures_assume fun hnot ↦ ?_
  subst hnot
  exact ensures_throw fun r hr ↦ ⟨⟨hr.state, rfl⟩, hr.silent⟩

/-- What has gone so far has been taken from the directory. -/
theorem taken_of_settled (hnodup : (done ++ rest).Nodup)
    (hvacant : ∀ name ∈ done ++ rest, s.entry? (place ++ [name]) = none)
    (h : Settled (arrivalVerdict s p q directory (done ++ rest)) s c directory place done s' c') :
    s.Taken directory (arrivals s p q directory done) s' := by
  have hverdict {name : String} (hmem : name ∈ done) :
      arrivalVerdict s p q directory (done ++ rest) name = .moved ↔
        name ∈ arrivals s p q directory done := by
    rw [arrivalVerdict, ← mem_arrivals_append hmem hnodup]
    split <;> simp_all
  refine ⟨fun hgone ↦ ?_, fun {l e} hentry hl ↦ (h.stays fun name hmem hmoved ↦ ⟨?_, ?_⟩).trans hentry,
    h.current⟩
  · have hmem := arrivals_subset _ hgone
    exact h.gone hmem ((hverdict hmem).mpr hgone)
  · exact hl name ((hverdict hmem).mp hmoved)
  · rintro rfl
    cases (hvacant name (List.mem_append_left _ hmem)).symm.trans hentry

section Turn

variable {v : String → Verdict} (h : Movables v s p q directory place names)
  (hd : Settled v s c directory place done s' c') (hdone : done ⊆ names) (hfresh : name ∉ done)
  {entry : Entry} (hentry : s.entry? (directory ++ [name]) = some entry) (hne : entry ≠ .dir)
  (hvacant : s.entry? (place ++ [name]) = none)
include h hd hdone hfresh hentry hvacant

include hne in
/-- A match that still leads to a file goes to the other directory, if its new path can be asked about. -/
theorem starts_moveEntry_of_still {found : Location × Entry} (hfile : found.2.isDir = false)
    (hshort : (p.child name).text.utf8ByteSize < pathLimit)
    (hfound : s'.entryAt .followed (p.child name) = .ok (some found)) :
    Ensures (Starts s' c') (moveEntry (p.child name) q policy)
      (fun _ ↦ Run.On (Settles
        (if (q.child name).text.utf8ByteSize < pathLimit then .moved else .failed) s' c'
        (directory ++ [name]) (place ++ [name]))) (fun _ _ ↦ False) := by
  have hname := h.wellFormed.name hentry
  have hclean {p : Path} (hp : p.hasNul = false) : (p.child name).hasNul = false :=
    (Path.hasNul_child hname.isClean).trans hp
  have hinto := h.isDirectory_kept hd hdone
  have hnotDir : s'.isDirectory (p.child name) = .ok false := by
    rw [isDirectory_of_answer hfound]
    simp [answers, hfile]
  by_cases hshort' : (q.child name).text.utf8ByteSize < pathLimit
  · rw [if_pos hshort']
    obtain ⟨hsource, htarget⟩ := hd.entry_of_fresh hfresh
    have hslot' := h.slot_target hd hdone hname hshort'
    rw [← within_child q p] at hslot'
    exact starts_moveEntryFrom_of_file hnotDir
      (starts_moveFile_to_free hd.wellFormed (hclean h.cleanSource)
        (within_child q p name ▸ hclean h.cleanDestination) hinto hfound
        (h.slot_source hd hdone hfresh hentry hshort) hslot' hname (hsource.trans hentry) hne
        (htarget.trans hvacant))
  · rw [if_neg hshort']
    have hunasked : s'.entryAt .followed (q.child name) = _ :=
      entryAt_of_long (hclean h.cleanDestination) (Nat.le_of_not_lt hshort')
    exact starts_moveEntryFrom_of_halted hnotDir
      (halted_moveFile_of_unasked hinto hfound (within_child .. ▸ hunasked) rfl)

/-- A match that leads nowhere by now stays. -/
theorem starts_moveEntry_of_broken (hmissing : s'.entryAt .followed (p.child name) = .ok none) :
    Ensures (Starts s' c') (moveEntry (p.child name) q policy)
      (fun _ ↦ Run.On (Settles .failed s' c' (directory ++ [name]) (place ++ [name])))
      (fun _ _ ↦ False) := by
  have hname := h.wellFormed.name hentry
  have hclean : (q.child name).hasNul = false :=
    (Path.hasNul_child hname.isClean).trans h.cleanDestination
  refine starts_moveEntryFrom_of_halted (isDirectory_of_answer hmissing)
    (halted_moveFile_of_missing (h.isDirectory_kept hd hdone) hmissing ?_)
  rw [within_child]
  by_cases hshort : (q.child name).text.utf8ByteSize < pathLimit
  · rw [exists_of_answer (entryAt_of_vacant hclean (h.slot_target hd hdone hname hshort)
      ((hd.entry_of_fresh hfresh).2.trans hvacant))]
    simp
  · rw [exists?, entryAt_of_long hclean (Nat.le_of_not_lt hshort)]
    simp [Except.map]

end Turn

/-- When its turn comes, a file goes to the other directory if it is among those that arrive. -/
theorem starts_moveEntry_of_match (hnodup : (done ++ name :: rest).Nodup)
    (h : Movables (arrivalVerdict s p q directory (done ++ name :: rest)) s p q directory place
      (done ++ name :: rest))
    (hfile : ∀ other ∈ done ++ name :: rest, s.NamesFile p directory other)
    (hvacant : ∀ other ∈ done ++ name :: rest, s.entry? (place ++ [other]) = none)
    (hd : Settled (arrivalVerdict s p q directory (done ++ name :: rest)) s c directory place done
      s' c') :
    Ensures (Starts s' c') (moveEntry (p.child name) q policy)
      (fun _ ↦ Run.On (Settles (arrivalVerdict s p q directory (done ++ name :: rest) name) s' c'
        (directory ++ [name]) (place ++ [name]))) (fun _ _ ↦ False) := by
  have hmem : name ∈ done ++ name :: rest := by simp
  have hdone : done ⊆ done ++ name :: rest := List.subset_append_left ..
  have hfresh : name ∉ done := fun hmem ↦
    List.disjoint_of_nodup_append hnodup hmem List.mem_cons_self
  obtain ⟨entry, hentry, hne⟩ := (h.leaf hmem).exists_entry
  have hverdict : arrivalVerdict s p q directory (done ++ name :: rest) name =
      if arrives s p q directory (arrivals s p q directory done) name then .moved else .failed := by
    simp only [arrivalVerdict, mem_arrivals_iff hnodup]
  rw [hverdict]
  by_cases hshort : (p.child name).text.utf8ByteSize < pathLimit
  · have htaken := taken_of_settled hnodup hvacant hd
    have hcheck := taken_withoutNames s directory (arrivals s p q directory done)
    rcases namesFile_of_taken h.wellFormed h.source h.cleanSource
      (fun other hgone ↦ h.leaf (hdone (arrivals_subset _ hgone))) (hfile name hmem)
      (fun hgone ↦ hfresh (arrivals_subset _ hgone)) hshort with hstill | hbroken
    · obtain ⟨-, l, id, content, hfound⟩ := hstill s' htaken
      simp only [arrives_iff, hshort, (hstill _ hcheck).1, true_and, and_true]
      exact starts_moveEntry_of_still h hd hdone hfresh hentry hne (hvacant name hmem) rfl hshort hfound
    · simp only [arrives_iff, (hbroken _ hcheck).1, and_false, if_false]
      exact starts_moveEntry_of_broken h hd hdone hfresh hentry (hvacant name hmem) (hbroken s' htaken).2
  · simp only [arrives_iff, hshort, false_and, if_false]
    exact starts_moveEntryFrom_of_unasked
      (entryAt_of_long ((Path.hasNul_child (h.wellFormed.name hentry).isClean).trans h.cleanSource)
        (Nat.le_of_not_lt hshort)) rfl

/-- A regular file goes, whatever has gone before, if its path and the new one can be asked about. -/
theorem arrives_of_file {id : ℕ} {content : Bytes} {gone : List String}
    (hfile : s.entry? (directory ++ [name]) = some (.file id content)) (hfresh : name ∉ gone)
    (hshort : (p.child name).text.utf8ByteSize < pathLimit)
    (hshort' : (q.child name).text.utf8ByteSize < pathLimit) :
    arrives s p q directory gone name :=
  arrives_iff.mpr ⟨hshort, hshort',
    .inl ⟨id, content, (taken_withoutNames s directory gone).entry_of_fresh hfresh hfile⟩⟩

/-- Regular files all go. -/
theorem arrivals_of_files (hnodup : names.Nodup)
    (hfile : ∀ name ∈ names, ∃ id content, s.entry? (directory ++ [name]) = some (.file id content))
    (hshort : ∀ name ∈ names, (p.child name).text.utf8ByteSize < pathLimit ∧
      (q.child name).text.utf8ByteSize < pathLimit) :
    arrivals s p q directory names = names := by
  induction names using List.reverseRecOn with
  | nil => rfl
  | append_singleton names name ih =>
    rw [arrivals_concat, ih hnodup.of_append_left (fun other h ↦ hfile other (List.mem_append_left _ h))
      fun other h ↦ hshort other (List.mem_append_left _ h)]
    obtain ⟨id, content, hentry⟩ := hfile name (by simp)
    have hfresh : name ∉ names := fun h ↦ List.disjoint_of_nodup_append hnodup h (by simp)
    rw [if_pos (arrives_of_file hentry hfresh (hshort name (by simp)).1 (hshort name (by simp)).2)]

/-! ## The whole move -/

/-- A move by a pattern into a directory in which the names that match are free. Of the files that
match, with the symbolic links to files among them, those arrive that still lead to a file when their
turn comes, each as it is; the others stay, and each of them is counted as a failure. -/
theorem arrived_of_move (x : Executor) {pattern : String} {wildcard : Wildcard} (destination : String)
    (policy : OverwritePolicy) {r : Run} (hs : r.store.WellFormed) (hsilent : r.journal.file = none)
    (hsplit : Wildcard.ofString pattern = .ok wildcard)
    (hreadable : r.store.Readable (Path.below x.workingDirectory wildcard.parent) directory)
    (hlisted : r.store.listed (Path.resolve destination x.workingDirectory) = .ok place)
    (hthere : r.store.entry? place = some .dir)
    (hvacant : ∀ name,
      r.store.NamesFile (Path.below x.workingDirectory wildcard.parent) directory name →
        NamePattern.matchesName wildcard.expression name → r.store.entry? (place ++ [name]) = none) :
    let p := Path.below x.workingDirectory wildcard.parent
    let q := Path.resolve destination x.workingDirectory
    let result := (x.move pattern destination policy).run r
    result.1 = .ok () ∧ ∃ names : List String, names.Pairwise (· < ·) ∧
      (∀ name, name ∈ names ↔
        r.store.NamesFile p directory name ∧ NamePattern.matchesName wildcard.expression name) ∧
      Settled (arrivalVerdict r.store p q directory names) r.store r.counters directory place names
        result.2.store result.2.counters := by
  intro p q result
  obtain ⟨hcleanSource, hsource⟩ := listed_eq_ok_iff.mp hreadable.listed
  obtain ⟨hclean, hdestination⟩ := listed_eq_ok_iff.mp hlisted
  obtain ⟨names, hnames, hsorted, hmem⟩ := matchingNames_of_readable hs hreadable wildcard.expression
  have hvacant' (name : String) (hname : name ∈ names) : r.store.entry? (place ++ [name]) = none :=
    hvacant name ((hmem name).mp hname).1 ((hmem name).mp hname).2
  have hmovables : Movables (arrivalVerdict r.store p q directory names) r.store p q directory place
      names :=
    ⟨hs, hsource, hdestination, hcleanSource, hclean, hthere,
      fun hname ↦ leaf_of_namesFile hs hsource ((hmem _).mp hname).1,
      fun hname _ hold ↦ absurd (hvacant' _ hname) hold⟩
  have hnodup : names.Nodup := hsorted.imp fun hlt heq ↦ by simp [heq] at hlt
  have hstep (done : List String) (name : String) (rest : List String) (s' : Store) (c' : Counters)
      (hparts : done ++ name :: rest = names) (_ : name ∉ done)
      (hd : Settled (arrivalVerdict r.store p q directory names) r.store r.counters directory place done
        s' c') :
      Ensures (Starts s' c') (moveEntry (p.child name) q policy)
        (fun _ ↦ Run.On (Settles (arrivalVerdict r.store p q directory names name) s' c'
          (directory ++ [name]) (place ++ [name]))) (fun _ _ ↦ False) := by
    subst hparts
    exact starts_moveEntry_of_match hnodup hmovables (fun other hname ↦ ((hmem other).mp hname).1)
      hvacant' hd
  obtain ⟨hok, hsettled⟩ := ends_of_move_matching x destination hsplit hsilent
    (StoreAction.run_makeDirectoryAndParents_of_there hdestination hclean _) hnames
    (starts_moveEach hs hnodup hstep)
  exact ⟨hok, names, hsorted, hmem, hsettled⟩

/-- A file arrives, and then the link beside it leads nowhere and stays. -/
theorem arrived_of_move_before_link :
    let s := (((Store.empty.put ["d"] .dir).put ["e"] .dir).putFile ["d", "a"] [97]).put ["d", "b"]
      (.link "a")
    let result := (move ⟨⟨.top, []⟩, none⟩ "d/*" "e" .replace).run (Run.first s)
    s.NamesFile ⟨.top, ["d"]⟩ ["d"] "b" ∧
      Store.entry? result.2.store ["e", "a"] = s.entry? ["d", "a"] ∧
      Store.entry? result.2.store ["d", "b"] = some (.link "a") ∧
      result.2.counters.value "failed" = 1 := by
  intro s result
  have hentry (name : String) : s.entry? (["d"] ++ [name]) = if name = "b" then some (.link "a")
      else if name = "a" then some (.file 0 [97]) else none := by
    rw [entry?_put (by simp), entry?_putFile (by simp), entry?_put (by simp), entry?_put (by simp)]
    simp [Store.entry?, Store.empty, Store.put]
  have hlink : s.target .followed (Path.spelledChild ⟨.top, ["d"]⟩ "b") =
      .ok (.found ["d", "a"] (.file 0 [97])) := rfl
  have hnames (name : String) : s.NamesFile ⟨.top, ["d"]⟩ ["d"] name ↔ name ∈ ["a", "b"] := by
    unfold NamesFile
    rw [hentry]
    by_cases hb : name = "b"
    · subst hb
      simp [hlink]
    · by_cases ha : name = "a"
      · simp [ha]
      · simp [ha, hb]
  have hreadable : s.Readable ⟨.top, ["d"]⟩ ["d"] := by
    refine ⟨rfl, fun {name text e} htext hfailed ↦ ?_⟩
    rw [hentry] at htext
    split at htext
    · next hb =>
      subst hb
      cases hlink.symm.trans hfailed
    · split at htext <;> cases htext
  have hvacant (name : String) : s.entry? (["e"] ++ [name]) = none := by
    rw [entry?_put (by simp), entry?_putFile (by simp), entry?_put (by simp), entry?_put (by simp)]
    simp [Store.entry?, Store.empty]
  have hlisted : (Run.first s).store.listed (Path.resolve "e" ⟨.top, []⟩) = .ok ["e"] := rfl
  obtain ⟨-, names, hsorted, hmem, hsettled⟩ := arrived_of_move ⟨⟨.top, []⟩, none⟩ "e" .replace
    (r := Run.first s) (by decide) rfl (rfl : Wildcard.ofString "d/*" = .ok ⟨⟨.here, ["d"]⟩, "*"⟩)
    hreadable hlisted rfl fun name _ _ ↦ hvacant name
  obtain rfl : names = ["a", "b"] := hsorted.eq_of_mem_iff (by decide) fun name ↦ by
    rw [hmem, ← hnames]
    exact and_iff_left (matchesName_star _)
  have hsettled : Settled (arrivalVerdict s ⟨.top, ["d"]⟩ ⟨.top, ["e"]⟩ ["d"] ["a", "b"]) s .empty
    ["d"] ["e"] ["a", "b"] result.2.store result.2.counters := hsettled
  have harrivals : arrivals s ⟨.top, ["d"]⟩ ⟨.top, ["e"]⟩ ["d"] ["a", "b"] = ["a"] := by decide +kernel
  have hverdict (name : String) : arrivalVerdict s ⟨.top, ["d"]⟩ ⟨.top, ["e"]⟩ ["d"] ["a", "b"] name =
      if name = "a" then .moved else .failed := by
    simp [arrivalVerdict, harrivals]
  have hstays : Store.entry? result.2.store ["d", "b"] = s.entry? ["d", "b"] :=
    hsettled.stays fun name _ hmoved ↦ by
      obtain rfl : name = "a" := by simpa [hverdict] using hmoved
      simp
  refine ⟨(hnames "b").mpr (by simp), hsettled.arrived (by simp) (hverdict "a"), hstays, ?_⟩
  rw [hsettled.counted]
  simp only [hverdict]
  decide

end Executor

end DeferredOps
