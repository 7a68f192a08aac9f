import DeferredOps.Proofs.Store.Transfer
import DeferredOps.Proofs.Store.Without

/-!
# Paths that spell a location out

A path of legal names that starts in a directory spells out one location, whether it begins at the
top or in the current directory. In a store without symbolic links every question about it is one
about the entry at that location, and every single change that asks for a last name acts there.
-/

namespace DeferredOps

open Action

namespace Path

variable {p : Path} {name : String} {rest more : List String}

/-- A path without `.` and `..`. -/
def Dotless (p : Path) : Prop :=
  ∀ name ∈ p.parts, name ≠ "." ∧ name ≠ ".."

instance (p : Path) : Decidable p.Dotless :=
  inferInstanceAs (Decidable (∀ name ∈ p.parts, name ≠ "." ∧ name ≠ ".."))

/-- The path of what lies below another at these names. -/
def extend (p : Path) (rest : List String) : Path :=
  { p with parts := p.parts ++ rest }

@[simp]
theorem extend_nil (p : Path) : p.extend [] = p := by
  simp [extend]

@[simp]
theorem child_extend (p : Path) (name : String) (rest : List String) :
    (p.child name).extend rest = p.extend (name :: rest) := by
  simp [extend, child]

theorem extend_child (p : Path) (rest : List String) (name : String) :
    (p.extend rest).child name = p.extend (rest ++ [name]) := by
  simp [extend, child]

theorem child_eq_extend (p : Path) (name : String) : p.child name = p.extend [name] :=
  rfl

@[simp]
theorem parts_child (p : Path) (name : String) : (p.child name).parts = p.parts ++ [name] :=
  rfl

@[simp]
theorem parts_extend (p : Path) (rest : List String) : (p.extend rest).parts = p.parts ++ rest :=
  rfl

/-- Below a path that has names the name `.` is not kept. -/
theorem spelledChild_eq_child (h : p.parts ≠ []) (name : String) : p.spelledChild name = p.child name := by
  rw [spelledChild, if_neg (by simp [h])]

/-- A name below a path that has names makes its text longer. -/
theorem size_text_child_eq (h : p.parts ≠ []) :
    (p.child name).text.utf8ByteSize = p.text.utf8ByteSize + name.utf8ByteSize + 1 := by
  have hp := size_text h
  have hchild := size_text (p := p.child name) (by simp)
  rw [parts_child, namesSize_append, namesSize_cons, namesSize_nil] at hchild
  change _ = (anchorText p.anchor).utf8ByteSize + _ at hchild
  omega

/-- What is in reach below a path is in reach on the way to it. -/
theorem size_text_extend_le (p : Path) (rest more : List String) :
    (p.extend rest).text.utf8ByteSize ≤ max 2 (p.extend (rest ++ more)).text.utf8ByteSize :=
  size_text_mono rfl ⟨more, by simp⟩

end Path

namespace Store

variable {s s' : Store} {last : LastLink} {p q : Path} {directory location other : Location}
  {names rest : List String} {name : String} {entry : Entry}

/-- Legal names that lead nowhere end at a free name or are refused as absent. -/
theorem walk_of_none (last : LastLink) (hway : s.NoLinksTo (directory ++ names))
    (hremoved : isRemoved directory = false)
    (hnames : ∀ name ∈ names, IsName name) (hnone : s.entry? (directory ++ names) = none)
    (hdir : s.entry? directory = some .dir) :
    (∃ d n, s.walk last linkLimit directory names = .ok (.absent d n)) ∨
      ∃ e, e.meansAbsent ∧ s.walk last linkLimit directory names = .error e := by
  induction names generalizing directory with
  | nil => cases (List.append_nil directory ▸ hnone).symm.trans hdir
  | cons name rest ih =>
    have hname := hnames name List.mem_cons_self
    have hlooked : LookedUp directory name :=
      ⟨hname.ne_dot, hname.ne_dotDot, hremoved, hname.short⟩
    rw [List.append_cons] at hnone hway
    rw [hlooked.walk_cons]
    cases hentry : s.entry? (directory ++ [name]) with
    | none =>
      by_cases hrest : rest.isEmpty
      · exact .inl ⟨directory, name, by simp [hrest]⟩
      · exact .inr ⟨.noEntry, rfl, by simp [hrest]⟩
    | some entry =>
      cases entry with
      | dir =>
        refine ih hway ?_ (fun n hn ↦ hnames n (List.mem_cons_of_mem _ hn)) hnone hentry
        simp [isRemoved_concat, hname.ne_empty]
      | file id content =>
        have hrest : rest ≠ [] := by
          rintro rfl
          cases (List.append_nil _ ▸ hnone).symm.trans hentry
        exact .inr ⟨.notDirectory, rfl, by simp [hrest]⟩
      | link text => exact absurd hentry (hway _ _ (List.prefix_append _ _))

/-- The path is in reach, has legal names and leads from a directory to the location, name by name. -/
structure Spells (s : Store) (p : Path) (location : Location) : Prop where
  isName : ∀ name ∈ p.parts, IsName name
  short : p.text.utf8ByteSize < pathLimit
  start : s.entry? (s.start p) = some .dir
  location : location = s.start p ++ p.parts

/-- A path that leads to an entry spells its location out. -/
theorem spells_of_target (hs : s.WellFormed) (hfree : s.LinkFree) (hp : p.Dotless)
    (hne : p.parts ≠ []) (h : s.target last p = .ok (.found location entry)) :
    s.Spells p location := by
  obtain ⟨hshort, hleads⟩ := target_eq_ok_iff.mp h
  have hstart : s.entry? (s.start p) = some .dir := by
    refine Standing.entry? (standing_start hs p) ?_
    obtain ⟨name, rest, hparts⟩ := List.exists_cons_of_ne_nil hne
    obtain ⟨hdot, hdotDot⟩ := hp name (by simp [hparts])
    rw [hparts] at hleads
    cases hleads with
    | dot => exact absurd rfl hdot
    | dotDot => exact absurd rfl hdotDot
    | enter hname | file hname | kept hname | follow hname => exact hname.there
  have hlocation : location = s.start p ++ p.parts := by
    have := location_of_target hfree h
    rwa [place, descend_of_noDots hp] at this
  have hentry := hleads.found_there hs hstart
  refine ⟨fun name hname ↦ hs.isName_of_mem hentry ?_, hshort, hstart, hlocation⟩
  exact hlocation ▸ List.mem_append_right _ hname

namespace Spells

theorem proper (h : s.Spells p location) : p.Proper :=
  fun name hname ↦ (h.isName name hname).isPart

theorem dotless (h : s.Spells p location) : p.Dotless :=
  fun name hname ↦ ⟨(h.isName name hname).ne_dot, (h.isName name hname).ne_dotDot⟩

theorem hasNul (h : s.Spells p location) : p.hasNul = false := by
  rw [Path.hasNul, List.any_eq_false]
  intro name hname
  simpa using (h.isName name hname).noNul

theorem place (h : s.Spells p location) : s.place p = location := by
  rw [Store.place, descend_of_isName h.isName, h.location]

/-- Where the directory that a path starts in stays, the path spells the same location out. -/
theorem pruned {gone : Location} (h : s.Spells p location) (hpruned : s.Pruned gone s')
    (hapart : ¬ gone <+: s.start p) : s'.Spells p location := by
  have hstart : s'.start p = s.start p := by
    unfold Store.start at hapart ⊢
    split
    · rfl
    · next hrelative =>
      rw [if_neg hrelative] at hapart
      exact hpruned.current hapart
  exact ⟨h.isName, h.short, hstart ▸ hpruned.kept hapart h.start, hstart ▸ h.location⟩

/-- What the path of its own last name spells out lies below where it starts. -/
theorem not_prefix_start (h : s.Spells p location) (hne : p.parts ≠ []) : ¬ location <+: s.start p := by
  intro hpre
  have hlength := hpre.length_le
  rw [h.location, List.length_append] at hlength
  exact hne (List.length_eq_zero_iff.mp (by omega))

theorem exists_concat (h : s.Spells p location) (hne : p.parts ≠ []) :
    ∃ directory name, location = directory ++ [name] := by
  obtain ⟨front, name, hparts⟩ := (List.eq_nil_or_concat p.parts).resolve_left hne
  exact ⟨s.start p ++ front, name, by simp [h.location, hparts]⟩

theorem child (h : s.Spells p location) (hname : IsName name)
    (hshort : (p.child name).text.utf8ByteSize < pathLimit) :
    s.Spells (p.child name) (location ++ [name]) where
  isName n hn := by
    rcases List.mem_append.mp hn with hn | hn
    · exact h.isName n hn
    · obtain rfl : n = name := by simpa using hn
      exact hname
  short := hshort
  start := h.start
  location := by
    rw [h.location, List.append_assoc]
    rfl

theorem parent (h : s.Spells p location) (hne : p.parts ≠ []) :
    s.Spells p.parent location.dropLast where
  isName n hn := h.isName n (List.dropLast_subset _ hn)
  short := by
    have hmono : p.parent.text.utf8ByteSize ≤ max 2 p.text.utf8ByteSize :=
      Path.size_text_mono rfl (List.dropLast_prefix _)
    have hshort := h.short
    have hlimit : 2 < pathLimit := by decide
    omega
  start := h.start
  location := by
    rw [h.location, List.dropLast_append_of_ne_nil hne]
    rfl

/-! ### Questions -/

theorem target (h : s.Spells p location) (hs : s.WellFormed) (hway : s.NoLinksTo location)
    (hentry : s.entry? location = some entry) :
    s.target last p = .ok (.found location entry) := by
  have hlink : entry.isLink = false := by
    cases entry with
    | link text => exact absurd hentry (hway.here text)
    | dir | file => rfl
  rw [h.location] at hentry ⊢
  exact target_eq_ok_iff.mpr ⟨h.short, (leads_of_entry hs h.start hentry hlink).mono (Nat.zero_le _)⟩

theorem entryAt (h : s.Spells p location) (hs : s.WellFormed) (hway : s.NoLinksTo location) :
    s.entryAt last p = .ok ((s.entry? location).map (location, ·)) := by
  rw [Store.entryAt, if_neg (by simp [h.hasNul])]
  cases hentry : s.entry? location with
  | some entry => rw [h.target hs hway hentry]; rfl
  | none =>
    have hlong : ¬ pathLimit ≤ p.text.utf8ByteSize := by
      have := h.short
      omega
    have hwalk := walk_of_none last (h.location ▸ hway) (hs.not_isRemoved h.start) h.isName
      (h.location ▸ hentry) h.start
    have htarget : s.target last p = s.walk last linkLimit (s.start p) p.parts := by
      simp [Store.target, startChecked, hlong, bind, Except.bind]
    rcases hwalk with ⟨d, n, hwalk⟩ | ⟨e, habsent, hwalk⟩
    · rw [htarget, hwalk]
      rfl
    · rw [htarget, hwalk]
      simp [habsent]

theorem isDirectory (h : s.Spells p location) (hs : s.WellFormed) (hway : s.NoLinksTo location) :
    s.isDirectory p = .ok ((s.entry? location).any Entry.isDir) := by
  rw [Store.isDirectory, h.entryAt hs hway]
  cases s.entry? location <;> rfl

theorem exists? (h : s.Spells p location) (hs : s.WellFormed) (hway : s.NoLinksTo location) :
    s.exists? p = .ok (s.entry? location).isSome := by
  rw [Store.exists?, h.entryAt hs hway]
  cases s.entry? location <;> rfl

theorem samePlace (h : s.Spells p location) (h' : s.Spells q other) (hs : s.WellFormed)
    (hway : s.NoLinksTo location) (hway' : s.NoLinksTo other) (hentry : s.entry? location = some entry) :
    s.samePlace p q = .ok ((s.entry? other).any fun e ↦ isSame (location, entry) (other, e)) := by
  rw [Store.samePlace, h.entryAt hs hway, hentry, h'.entryAt hs hway']
  cases s.entry? other <;> rfl

/-- A directory is at one location only. -/
theorem samePlace_of_dir (h : s.Spells p location) (h' : s.Spells q other) (hs : s.WellFormed)
    (hway : s.NoLinksTo other) (hdir : s.entry? location = some .dir) (hne : location ≠ other) :
    s.samePlace p q = .ok false := by
  rw [h.samePlace h' hs (.of_entry hs hdir rfl) hway hdir]
  cases s.entry? other <;> simp [isSame, hne]

theorem listed (h : s.Spells p location) (hs : s.WellFormed)
    (hdir : s.entry? location = some .dir) : s.listed p = .ok location := by
  rw [Store.listed, if_neg (by simp [h.hasNul]), h.target hs (.of_entry hs hdir rfl) hdir]
  rfl

theorem list (h : s.Spells p location) (hs : s.WellFormed)
    (hdir : s.entry? location = some .dir) : s.list p = .ok (s.names location) := by
  rw [Store.list, h.listed hs hdir]
  rfl

/-! ### Changes at a last name -/

theorem leads_front (h : s.Spells p (directory ++ [name])) (hs : s.WellFormed)
    (hne : p.parts ≠ []) (hdir : s.entry? directory = some .dir) :
    ∃ front, p.parts = front ++ [name] ∧
      s.Leads .followed linkLimit (s.start p) front (.found directory .dir) := by
  obtain ⟨front, n, hparts⟩ := (List.eq_nil_or_concat p.parts).resolve_left hne
  rw [List.concat_eq_append] at hparts
  have hlocation := h.location
  rw [hparts, ← List.append_assoc] at hlocation
  obtain ⟨rfl, hname⟩ := List.append_inj' hlocation rfl
  obtain rfl : name = n := by simpa using hname
  exact ⟨front, hparts, (leads_of_entry hs h.start hdir rfl).mono (Nat.zero_le _)⟩

theorem isName_last (h : s.Spells p (directory ++ [name])) (hne : p.parts ≠ []) : IsName name := by
  refine h.isName name ?_
  obtain ⟨front, n, hparts⟩ := (List.eq_nil_or_concat p.parts).resolve_left hne
  have hlocation := h.location
  rw [List.concat_eq_append] at hparts
  rw [hparts, ← List.append_assoc] at hlocation
  obtain rfl : name = n := by simpa using (List.append_inj' hlocation rfl).2
  simp [hparts]

theorem slot (h : s.Spells p (directory ++ [name])) (hs : s.WellFormed) (hne : p.parts ≠ [])
    (hdir : s.entry? directory = some .dir) : s.slot p = .ok (.name directory name) := by
  obtain ⟨front, hparts, hleads⟩ := h.leads_front hs hne hdir
  have hname := h.isName_last hne
  exact slot_eq_name_iff.mpr ⟨h.short, front, hparts, hleads, hname.ne_dot, hname.ne_dotDot,
    hs.not_isRemoved hdir, hname.short⟩

/-- A name that is free in a directory. -/
theorem free (h : s.Spells p (directory ++ [name])) (hs : s.WellFormed) (hne : p.parts ≠ [])
    (hdir : s.entry? directory = some .dir) (hnone : s.entry? (directory ++ [name]) = none) :
    s.Free p directory name where
  leads := h.leads_front hs hne hdir
  dir := hdir
  isName := h.isName_last hne
  free := hnone

/-- A path whose last name has no directory to be in names nothing. -/
theorem dir_of_slot {d : Location} {n : String} (h : s.Spells p (directory ++ [name]))
    (hs : s.WellFormed) (hfree : s.LinkFree) (hslot : s.slot p = .ok (.name d n)) :
    s.entry? directory = some .dir := by
  have hlocation := location_of_slot hfree hslot
  rw [h.place] at hlocation
  obtain ⟨rfl, -⟩ := List.append_inj' hlocation rfl
  exact Store.dir_of_slot hs hslot

end Spells

/-- The path of a directory spells its location out. -/
theorem spells_of_isDirectory (hs : s.WellFormed) (hfree : s.LinkFree) (hp : p.Dotless)
    (hne : p.parts ≠ []) (h : s.isDirectory p = .ok true) :
    s.Spells p (s.place p) ∧ s.entry? (s.place p) = some .dir := by
  obtain ⟨-, l, hfound⟩ := StoreAction.isDirectory_eq_true_iff.mp h
  have hspells := spells_of_target hs hfree hp hne hfound
  rw [hspells.place]
  exact ⟨hspells, (target_eq_ok_iff.mp hfound).2.found_there hs hspells.start⟩

end Store

/-! ## Removals -/

namespace Store

/-- Nothing has to be removed where nothing stands. -/
theorem without_of_none {s : Store} {location : Location} (hs : s.WellFormed)
    (hnone : s.entry? location = none) : s.Without (location <+: ·) s := by
  refine (Without.refl hs).congr fun {l e} hl ↦ ⟨False.elim, fun hpre ↦ ?_⟩
  by_cases heq : l = location
  · cases hnone.symm.trans (heq ▸ hl)
  · cases (hs.none_of_prefix hpre heq (by simp [hnone])).symm.trans hl

end Store

namespace StoreAction

open Store

variable {s : Store} {p : Path} {location : Location} {id : ℕ} {content : Bytes}

/-- An empty directory that a path spells out is removed. -/
theorem run_removeDirectory_of_spells (h : s.Spells p location) (hs : s.WellFormed)
    (hne : p.parts ≠ []) (hdir : s.entry? location = some .dir)
    (hempty : ∀ name, s.entry? (location ++ [name]) = none) :
    (removeDirectory p).run s = (.ok (), s.erase location) := by
  obtain ⟨d, n, rfl⟩ := h.exists_concat hne
  have hslot := h.slot hs hne (hs.parent hdir)
  have hremove : s.removeDirectory p = .ok (s.erase (d ++ [n])) := by
    simp [Store.removeDirectory, hslot, hdir, isEmptyDir_iff.mpr hempty, bind, Except.bind, pure,
      Except.pure]
  rw [run_removeDirectory, h.hasNul, hremove]
  rfl

/-- A directory that a path spells out is removed with everything in it. -/
theorem run_removeTree_of_spells (h : s.Spells p location) (hs : s.WellFormed) (hne : p.parts ≠ [])
    (hdir : s.entry? location = some .dir) :
    ∃ s', (removeTree p).run s = (.ok (), s') ∧ s.Without (location <+: ·) s' ∧
      s.Pruned location s' := by
  obtain ⟨d, n, rfl⟩ := h.exists_concat hne
  have hcleared := without_clear hs (d ++ [n])
  have hempty (name : String) : Store.entry? (s.clear (d ++ [n])) (d ++ [n] ++ [name]) = none :=
    entry?_clear_concat s _ name
  have hstays : Store.entry? (s.clear (d ++ [n])) (d ++ [n]) = some .dir := by
    rw [hcleared.stays (by simp), hdir]
  have hspells : (s.clear (d ++ [n])).Spells p (d ++ [n]) :=
    h.pruned (pruned_clear s _) (h.not_prefix_start hne)
  have hremove := run_removeDirectory_of_spells hspells hs.clear hne hstays hempty
  refine ⟨(s.clear (d ++ [n])).erase (d ++ [n]), ?_, ?_, pruned_of_removed (.inr rfl)⟩
  · have htarget : s.target .kept p = .ok (.found _ .dir) := h.target hs (.of_entry hs hdir rfl) hdir
    unfold removeTree
    simp only [run_bind, run_get, h.hasNul, htarget, Bool.false_eq_true, if_false,
      run_modify, hremove]
  · refine (hcleared.trans (without_erase hs.clear (by simp) hempty)).congr fun {l e} _ ↦ ?_
    constructor
    · rintro (⟨hpre, -⟩ | rfl)
      · exact hpre
      · exact List.prefix_refl _
    · intro hpre
      by_cases heq : l = d ++ [n]
      · exact .inr heq
      · exact .inl ⟨hpre, heq⟩

/-- A file that a path spells out is removed. -/
theorem run_unlink_of_spells (h : s.Spells p location) (hs : s.WellFormed) (hne : p.parts ≠ [])
    (hfile : s.entry? location = some (.file id content)) :
    ∃ s', (unlink p).run s = (.ok (), s') ∧ s.Without (location <+: ·) s' ∧ s.Pruned location s' := by
  obtain ⟨d, n, rfl⟩ := h.exists_concat hne
  have hunlink : s.unlink p = .ok (s.erase (d ++ [n])) :=
    unlink_eq_ok_iff.mpr ⟨d, n, _, h.slot hs hne (hs.parent hfile), hfile, by simp, rfl⟩
  refine ⟨s.erase (d ++ [n]), ?_, ?_, pruned_erase s _⟩
  · rw [run_unlink, h.hasNul, hunlink]
    rfl
  · refine (without_erase_file hs hfile).congr fun {l e} hentry ↦ ⟨?_, fun hpre ↦ ?_⟩
    · rintro rfl
      exact List.prefix_refl _
    · by_contra hne
      have hnone := hs.none_of_prefix hpre hne (by simp [hfile])
      cases hnone.symm.trans hentry

/-- A free name in a directory need not be removed. -/
theorem run_unlinkIfThere_of_none (h : s.Spells p location) (hs : s.WellFormed) (hne : p.parts ≠ [])
    (hparent : s.entry? location.dropLast = some .dir) (hnone : s.entry? location = none) :
    (unlinkIfThere p).run s = (.ok (), s) := by
  obtain ⟨d, n, rfl⟩ := h.exists_concat hne
  rw [List.dropLast_concat] at hparent
  have hslot := h.slot hs hne hparent
  have hunlink : s.unlink p = .error .noEntry := by
    simp [Store.unlink, hslot, hnone, bind, Except.bind]
  rw [run_unlinkIfThere, h.hasNul, hunlink]
  rfl

end StoreAction

end DeferredOps
