import DeferredOps.Proofs.Store.Walk
import DeferredOps.Store.Operations

/-!
# What the single changes do

Each single change, when it succeeds, is one of the basic changes at the place that the path leads
to. All of them keep stores well-formed.
-/

namespace DeferredOps

namespace Store

variable {s s' : Store} {p source target : Path} {entry : Entry}

/-! ## Results -/

theorem unlink_eq_ok_iff :
    s.unlink p = .ok s' ↔ ∃ d n e, s.slot p = .ok (.name d n) ∧ s.entry? (d ++ [n]) = some e ∧
      e ≠ .dir ∧ s' = s.erase (d ++ [n]) := by
  unfold unlink
  simp only [bind, Except.bind]
  constructor
  · intro h
    split at h
    · cases h
    next slot hslot =>
    split at h
    · next d n =>
      split at h
      · cases h
      · cases h
      · next e hne hentry =>
        cases h
        exact ⟨d, n, e, hslot, hentry, by simpa using hne, rfl⟩
    · cases h
  · rintro ⟨d, n, e, hslot, hentry, hne, rfl⟩
    simp only [hslot, hentry]
    cases e with
    | dir => exact absurd rfl hne
    | file => rfl
    | link => rfl

theorem removeDirectory_ok (h : s.removeDirectory p = .ok s') :
    ∃ d n, s.slot p = .ok (.name d n) ∧ s.entry? (d ++ [n]) = some .dir ∧
      s.isEmptyDir (d ++ [n]) ∧ s' = s.erase (d ++ [n]) := by
  unfold removeDirectory at h
  simp only [bind, Except.bind] at h
  split at h
  · cases h
  next slot hslot =>
  split at h
  · next d n =>
    split at h
    · cases h
    · next hentry =>
      split at h
      · next hempty =>
        cases h
        exact ⟨d, n, hslot, hentry, hempty, rfl⟩
      · cases h
    · cases h
  all_goals cases h

theorem create_eq_ok_iff :
    s.create p entry = .ok s' ↔ ∃ d n, s.slot p = .ok (.name d n) ∧ s.entry? (d ++ [n]) = none ∧
      s' = s.put (d ++ [n]) entry := by
  unfold create
  simp only [bind, Except.bind]
  constructor
  · intro h
    split at h
    · cases h
    next slot hslot =>
    split at h
    · next d n =>
      split at h
      · next hentry =>
        cases h
        exact ⟨d, n, hslot, hentry, rfl⟩
      · cases h
    · cases h
  · rintro ⟨d, n, hslot, hentry, rfl⟩
    simp only [hslot, hentry]
    rfl

/-- Opening a file for writing changes a file that is there or makes one under a free name. -/
theorem write_ok {change : Bytes → Bytes} (h : s.write p change = .ok s') :
    (∃ l id content, s.target .written p = .ok (.found l (.file id content)) ∧
      s' = s.setContent id change) ∨
    ∃ d n, s.target .written p = .ok (.absent d n) ∧ s' = s.putFile (d ++ [n]) (change []) := by
  unfold write at h
  simp only [bind, Except.bind] at h
  split at h
  · cases h
  next t ht =>
  split at h
  · next l id content =>
    cases h
    exact .inl ⟨l, id, content, ht, rfl⟩
  · cases h
  · next d n =>
    cases h
    exact .inr ⟨d, n, ht, rfl⟩

theorem file_ok {id : ℕ} {content : Bytes} (h : s.file p = .ok (id, content)) :
    ∃ l, s.target .followed p = .ok (.found l (.file id content)) := by
  unfold file at h
  simp only [bind, Except.bind] at h
  split at h
  · cases h
  next t ht =>
  split at h
  · next l id content =>
    cases h
    exact ⟨l, ht⟩
  all_goals cases h

theorem checkReplace_ok {old : Entry} {location : Location}
    (h : s.checkReplace entry location old = .ok ()) :
    (old = .dir ↔ entry = .dir) ∧ (old = .dir → s.isEmptyDir location) := by
  unfold checkReplace at h
  split at h
  · next hdir =>
    split at h
    · cases h
    next hold =>
    split at h
    · next hempty => cases entry <;> cases old <;> simp_all [Entry.isDir]
    · cases h
  · next hdir =>
    split at h
    · cases h
    next hold => cases entry <;> cases old <;> simp_all [Entry.isDir]

/-- An entry is carried to where it may go, unless the two are names of one file already. -/
theorem carryChecked_ok {source directory : Location} {name : String} (hs : s.WellFormed)
    (hsource : source ≠ []) (hdirectory : s.entry? directory = some .dir) (hname : IsName name)
    (h : s.carryChecked source (directory ++ [name]) = .ok s') :
    (s' = s ∧ ∃ entry old, s.entry? source = some entry ∧
        s.entry? (directory ++ [name]) = some old ∧
          isSame (source, entry) (directory ++ [name], old)) ∨
      s.CanCarry source directory name ∧ s' = s.carry source (directory ++ [name]) ∧
        ∀ old, s.entry? (directory ++ [name]) = some old →
          (old = .dir ↔ s.entry? source = some .dir) := by
  unfold carryChecked at h
  split at h
  · cases h
  next entry hentry =>
  split at h
  · cases h
  next hbelow =>
  split at h
  · cases h
  next habove =>
  have hcan (hfree : ∀ l, directory ++ [name] <+: l → l ≠ directory ++ [name] → s.entry? l = none)
      (hne : source ≠ directory ++ [name]) : s.CanCarry source directory name := by
    refine ⟨hsource, by simp [hentry], hdirectory, hname, fun hpre ↦ hbelow ?_, hfree⟩
    exact isStrictlyBelow_iff.mpr ⟨hpre, hne.symm⟩
  split at h
  · next hold =>
    cases h
    refine .inr ⟨hcan (fun l hpre hne ↦ hs.none_of_prefix hpre hne (by simp [hold])) ?_, rfl, ?_⟩
    · rintro rfl
      simp [hold] at hentry
    · simp [hold]
  next old hold =>
  split at h
  · next hsame =>
    cases h
    exact .inl ⟨rfl, entry, old, hentry, hold, hsame⟩
  next hsame =>
  cases hcheck : s.checkReplace entry (directory ++ [name]) old with
  | error e =>
    rw [hcheck] at h
    cases h
  | ok =>
    rw [hcheck] at h
    cases h
    obtain ⟨hiff, hempty⟩ := checkReplace_ok hcheck
    refine .inr ⟨hcan (fun l hpre hne ↦ ?_) ?_, rfl, by simp [hold, hentry, hiff]⟩
    · by_cases hdir : old = .dir
      · exact hs.none_of_isEmptyDir (hempty hdir) hpre hne
      · exact hs.none_of_prefix hpre hne (by simpa [hold] using hdir)
    · rintro rfl
      obtain rfl : entry = old := by simpa [hentry] using hold
      exact hsame (by unfold isSame; split <;> simp_all)

theorem rename_ok (h : s.rename source target = .ok s') :
    ∃ d n d' n', s.slot source = .ok (.name d n) ∧ s.slot target = .ok (.name d' n') ∧
      s.carryChecked (d ++ [n]) (d' ++ [n']) = .ok s' := by
  unfold rename at h
  simp only [bind, Except.bind] at h
  split at h
  · cases h
  next slot hslot =>
  split at h
  · cases h
  next slot' hslot' =>
  split at h
  · next d n d' n' => exact ⟨d, n, d', n', hslot, hslot', h⟩
  · cases h

/-! ## Well-formedness -/

namespace WellFormed

variable (hs : s.WellFormed)
include hs

theorem unlink (h : s.unlink p = .ok s') : s'.WellFormed := by
  obtain ⟨d, n, e, -, hentry, hne, rfl⟩ := unlink_eq_ok_iff.mp h
  exact hs.erase fun name ↦ hs.none_of_append (by simp) (by simpa [hentry] using hne)

theorem removeDirectory (h : s.removeDirectory p = .ok s') : s'.WellFormed := by
  obtain ⟨d, n, -, -, hempty, rfl⟩ := removeDirectory_ok h
  exact hs.erase (isEmptyDir_iff.mp hempty)

theorem create (hp : p.Proper) (hnul : p.hasNul = false)
    (hlink : ∀ text, entry = .link text → '\x00' ∉ text.toList) (h : s.create p entry = .ok s') :
    s'.WellFormed := by
  obtain ⟨d, n, hslot, hentry, rfl⟩ := create_eq_ok_iff.mp h
  exact hs.put (dir_of_slot hs hslot) (isName_of_slot hp hnul hslot) hentry hlink

theorem write (hp : p.Proper) (hnul : p.hasNul = false) {change : Bytes → Bytes}
    (h : s.write p change = .ok s') : s'.WellFormed := by
  rcases write_ok h with ⟨l, id, content, -, rfl⟩ | ⟨d, n, htarget, rfl⟩
  · exact hs.setContent id change
  · obtain ⟨hdirectory, -, hfree⟩ := sound_of_target hs htarget
    exact hs.putFile hdirectory (isName_of_target_absent hs hp hnul htarget) hfree

theorem rename (htarget : target.Proper) (hnul : target.hasNul = false)
    (h : s.rename source target = .ok s') : s'.WellFormed := by
  obtain ⟨d, n, d', n', -, hslot, hcarry⟩ := rename_ok h
  have hname := isName_of_slot htarget hnul hslot
  rcases carryChecked_ok hs (by simp) (dir_of_slot hs hslot) hname hcarry with ⟨rfl, -⟩ | ⟨hcan, rfl, -⟩
  · exact hs
  · exact hs.carry hcan

end WellFormed

/-! ## Files that are gone -/

theorem isFile_eq_true_iff : s.isFile p = .ok true ↔
    p.hasNul = false ∧ ∃ l id content, s.target .followed p = .ok (.found l (.file id content)) := by
  unfold isFile entryAt
  split
  · next hnul => simp [hnul, Except.map, answers]
  · next hnul =>
    split
    · next l e htarget => cases e <;> simp [hnul, htarget, Except.map, answers, Entry.isFile]
    · next htarget => simp [hnul, htarget, Except.map, answers]
    · next e htarget => split <;> simp [hnul, htarget, Except.map, answers]

/-- The name of a file can be removed. -/
theorem unlink_of_isFile (h : s.isFile p = .ok true) :
    p.hasNul = false ∧ ∃ s', s.unlink p = .ok s' := by
  obtain ⟨hnul, l, id, content, htarget⟩ := isFile_eq_true_iff.mp h
  obtain ⟨d, n, hslot, hdir, hnone⟩ := slot_of_target htarget (by simp)
  obtain ⟨e, hentry⟩ : ∃ e, s.entry? (d ++ [n]) = some e :=
    Option.ne_none_iff_exists'.mp fun hentry ↦ by simpa using hnone hentry
  refine ⟨hnul, _, unlink_eq_ok_iff.mpr ⟨d, n, e, hslot, hentry, ?_, rfl⟩⟩
  rintro rfl
  exact hdir hentry

theorem WellFormed.current_erase (hs : s.WellFormed) {location : Location} (hentry : s.entry? location = some entry)
    (hne : entry ≠ .dir) : (s.erase location).current = s.current := by
  apply markRemoved_eq_self
  intro q hq _
  rw [List.nil_append, decide_eq_false_iff_not]
  rintro rfl
  rcases hs.current q hq with hremoved | hdir
  · simp [hs.not_isRemoved hentry] at hremoved
  · exact hne (Option.some.inj (hentry.symm.trans hdir))

/-- A name that has been removed is not that of a file any more. -/
theorem not_isFile_of_unlink (hs : s.WellFormed) (h : s.unlink p = .ok s') :
    s'.isFile p ≠ .ok true := by
  obtain ⟨d, n, e, hslot, hentry, hne, rfl⟩ := unlink_eq_ok_iff.mp h
  intro hfile
  obtain ⟨-, l, id, content, htarget⟩ := isFile_eq_true_iff.mp hfile
  obtain ⟨d', n', hslot', -, hnone⟩ := slot_of_target htarget (by simp)
  obtain ⟨-, front, hparts, hfront, -⟩ := slot_eq_name_iff.mp hslot
  obtain ⟨-, front', hparts', hfront', -⟩ := slot_eq_name_iff.mp hslot'
  obtain ⟨rfl, hlast⟩ := List.append_inj' (hparts.symm.trans hparts') rfl
  obtain rfl : n = n' := by simpa using hlast
  -- The way to the name is what it was before.
  have hsub (l : Location) (e : Entry) (h : entry? (s.erase (d ++ [n])) l = some e) :
      s.entry? l = some e := (entry_of_erase (by simp) h).2
  have hstart : (s.erase (d ++ [n])).start p = s.start p := by
    unfold start
    rw [hs.current_erase hentry hne]
  rw [hstart] at hfront'
  have hsame : Target.found d' Entry.dir = .found d .dir :=
    (hfront'.of_subset_found hsub).unique hfront
  obtain ⟨rfl, -⟩ := Target.found.inj hsame
  have := hnone (by rw [entry?_erase (by simp), if_pos rfl])
  cases this

end Store

end DeferredOps
