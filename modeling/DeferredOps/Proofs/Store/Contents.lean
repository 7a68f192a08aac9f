import DeferredOps.Proofs.Store.Transfer
import Mathlib.Data.Multiset.MapFold

/-!
# The contents of all files

The contents of the files in a store are counted with their multiplicity, once for each name. A
transfer whose target lies apart from its source neither loses nor adds one, unless it leaves a part
of a copy.
-/

namespace DeferredOps

/-- The content of a file. -/
def Entry.content? : Entry → Option Bytes
  | .file _ content => some content
  | _ => none

namespace Store

/-- The content of the file at a location. -/
def contentAt? (s : Store) (location : Location) : Option Bytes :=
  (s.entry? location).bind Entry.content?

/-- The locations of the files, with their contents. -/
def files (s : Store) : List (Location × Bytes) :=
  s.entries.filterMap fun e ↦ (s.contentAt? e.1).map (e.1, ·)

/-- The contents of all files, each as often as there are names for it. -/
def contents (s : Store) : Multiset Bytes :=
  s.files.map (·.2)

/-- Every file of the source is at the same place below the target, and the other files are where they
were. -/
def Relocates (s : Store) (origin target : Location) (s' : Store) : Prop :=
  ∀ l, s'.contentAt? l =
    if target <+: l then s.contentAt? (origin ++ l.drop target.length)
    else if origin <+: l then none
    else s.contentAt? l

/-- Every file at or below a location is still there, or at the same place below another one. -/
def Preserved (s : Store) (origin target : Location) (s' : Store) : Prop :=
  ∀ rest content, s.contentAt? (origin ++ rest) = some content →
    s'.contentAt? (origin ++ rest) = some content ∨ s'.contentAt? (target ++ rest) = some content

variable {s s' : Store} {origin target location directory : Location} {name : String}
  {content : Bytes} {source p : Path}

/-! ## Contents and locations -/

theorem contentAt?_eq_some_iff :
    s.contentAt? location = some content ↔ ∃ id, s.entry? location = some (.file id content) := by
  unfold contentAt?
  cases hentry : s.entry? location with
  | none => simp
  | some entry => cases entry <;> simp [Entry.content?]

theorem contentAt?_of_dir (h : s.entry? location = some .dir) : s.contentAt? location = none := by
  simp [contentAt?, h, Entry.content?]

theorem contentAt?_of_none (h : s.entry? location = none) : s.contentAt? location = none := by
  simp [contentAt?, h]

theorem mem_files : (location, content) ∈ s.files ↔ s.contentAt? location = some content := by
  have hmem : (location, content) ∈ s.files ↔
      (∃ entry, (location, entry) ∈ s.entries) ∧ s.contentAt? location = some content := by
    simp [files, List.mem_filterMap, Option.map_eq_some_iff]
  rw [hmem, and_iff_right_of_imp]
  intro h
  obtain ⟨id, hfile⟩ := contentAt?_eq_some_iff.mp h
  refine ⟨_, mem_entries ?_ hfile⟩
  rintro rfl
  cases hfile

theorem nodup_files (hs : s.WellFormed) : (s.files.map (·.1)).Nodup := by
  have hsub (entries : List (Location × Entry)) :
      ((entries.filterMap fun e ↦ (s.contentAt? e.1).map (e.1, ·)).map (·.1)).Sublist
        (entries.map (·.1)) := by
    induction entries with
    | nil => exact .slnil
    | cons e rest ih =>
      cases hcontent : s.contentAt? e.1 with
      | none => simpa [List.filterMap_cons, hcontent] using ih.cons e.1
      | some => simpa [List.filterMap_cons, hcontent] using ih.cons_cons e.1
  exact hs.nodup.sublist (hsub s.entries)

/-- Contents that are found again at locations of their own are all still there. -/
theorem contents_le_of_injective (hs : s.WellFormed) (f : Location → Location)
    (hfound : ∀ l c, s.contentAt? l = some c → s'.contentAt? (f l) = some c)
    (hinjective : ∀ l l', (s.contentAt? l).isSome → (s.contentAt? l').isSome → f l = f l' → l = l') :
    s.contents ≤ s'.contents := by
  let moved := s.files.map fun file ↦ (f file.1, file.2)
  have hnodup : moved.Nodup := by
    refine List.Nodup.map_on (fun file hfile other hother heq ↦ ?_) (.of_map _ (nodup_files hs))
    obtain ⟨hlocation, hcontent⟩ := Prod.mk.inj heq
    have hsame := hinjective file.1 other.1 (by simp [mem_files.mp hfile])
      (by simp [mem_files.mp hother]) hlocation
    exact Prod.ext hsame hcontent
  have hsub : moved ⊆ s'.files := by
    intro file hfile
    obtain ⟨old, hold, rfl⟩ := List.mem_map.mp hfile
    exact mem_files.mpr (hfound _ _ (mem_files.mp hold))
  have hmap : moved.map (·.2) = s.files.map (·.2) := by
    rw [List.map_map]
    rfl
  have hle : (moved : Multiset (Location × Bytes)) ≤ s'.files :=
    Multiset.coe_le.mpr (List.subperm_of_subset hnodup hsub)
  have hcontents : s.contents = (moved : Multiset (Location × Bytes)).map (·.2) := by
    rw [Multiset.map_coe, hmap]
    rfl
  rw [hcontents]
  exact Multiset.map_le_map hle

/-- Files that stay where they are keep their contents. -/
theorem contents_le_of_kept (hs : s.WellFormed)
    (h : ∀ l c, s.contentAt? l = some c → s'.contentAt? l = some c) : s.contents ≤ s'.contents :=
  contents_le_of_injective hs id h fun _ _ _ _ heq ↦ heq

theorem contents_eq_of_same (hs : s.WellFormed) (hs' : s'.WellFormed)
    (h : ∀ l, s'.contentAt? l = s.contentAt? l) : s'.contents = s.contents :=
  le_antisymm (contents_le_of_kept hs' fun l _ hl ↦ h l ▸ hl)
    (contents_le_of_kept hs fun l _ hl ↦ (h l).trans hl)

/-- Nothing is below a free name. -/
theorem contentAt?_of_free (hs : s.WellFormed) (hfree : s.entry? target = none)
    (h : target <+: location) : s.contentAt? location = none := by
  by_cases heq : location = target
  · exact contentAt?_of_none (heq ▸ hfree)
  · exact contentAt?_of_none (hs.none_of_prefix h heq (by simp [hfree]))

theorem relocated_injective {s : Store} (horigin : ∀ l, target <+: l → s.contentAt? l = none)
    (l l' : Location) (hl : (s.contentAt? l).isSome) (hl' : (s.contentAt? l').isSome)
    (heq : relocated origin target l = relocated origin target l') : l = l' := by
  have hnot {l : Location} (hl : (s.contentAt? l).isSome) : ¬ target <+: l := fun hpre ↦ by
    simp [horigin l hpre] at hl
  exact relocated_injective_of_apart (hnot hl) (hnot hl') heq

/-- Files that are relocated to a free name keep their contents. -/
theorem Relocates.contents_eq (h : s.Relocates origin target s') (hs : s.WellFormed)
    (hs' : s'.WellFormed) (hapart : ¬ origin <+: target) (hthere : s.entry? origin ≠ none)
    (hfree : s.entry? target = none) : s'.contents = s.contents := by
  have hnone (l : Location) (hl : target <+: l) := contentAt?_of_free hs hfree hl
  have hgone (l : Location) (hl : origin <+: l) : s'.contentAt? l = none := by
    rw [h l, if_neg, if_pos hl]
    intro hpre
    rcases List.prefix_or_prefix_of_prefix hpre hl with hbelow | habove
    · exact not_prefix_of_free hs hthere hfree hbelow
    · exact hapart habove
  refine le_antisymm ?_ ?_
  · refine contents_le_of_injective hs' (relocated target origin) (fun l c hl ↦ ?_)
      (relocated_injective hgone)
    rw [h l] at hl
    split at hl
    · next hbelow =>
      obtain ⟨rest, rfl⟩ := hbelow
      rw [List.drop_left] at hl
      rwa [relocated_append]
    · next hbelow =>
      rw [relocated_of_apart hbelow]
      split at hl
      · cases hl
      · exact hl
  · refine contents_le_of_injective hs (relocated origin target) (fun l c hl ↦ ?_)
      (relocated_injective hnone)
    by_cases hbelow : origin <+: l
    · obtain ⟨rest, rfl⟩ := hbelow
      rwa [relocated_append, h, if_pos (List.prefix_append _ _), List.drop_left]
    · rw [relocated_of_apart hbelow, h, if_neg, if_neg hbelow, hl]
      intro hpre
      simp [hnone l hpre] at hl

/-! ## Transfers -/

theorem Grows.contentAt? {P : Location → Entry → Prop} (h : Grows P s s')
    (hcontent : s.contentAt? location = some content) : s'.contentAt? location = some content := by
  obtain ⟨id, hfile⟩ := contentAt?_eq_some_iff.mp hcontent
  exact contentAt?_eq_some_iff.mpr ⟨id, h.kept hfile⟩

theorem GrowsDirs.contentAt? (h : s.GrowsDirs s') (location : Location) :
    s'.contentAt? location = s.contentAt? location := by
  cases hentry : s.entry? location with
  | some entry => rw [Store.contentAt?, Store.contentAt?, h.kept hentry, hentry]
  | none =>
    rw [contentAt?_of_none hentry]
    cases hnew : s'.entry? location with
    | none => exact contentAt?_of_none hnew
    | some entry =>
      obtain rfl := (h.added hnew).resolve_left (by simp [hentry])
      exact contentAt?_of_dir hnew

theorem CanCarry.relocates (hcan : s.CanCarry origin directory name) :
    s.Relocates origin (directory ++ [name]) (s.carry origin (directory ++ [name])) := by
  intro l
  unfold contentAt?
  rw [hcan.entry?_carry]
  split
  · rfl
  · split
    · rfl
    · rfl

/-- Files at or below a directory that is taken away are gone. -/
theorem contentAt?_of_removed {t : Store} (hdir : t.entry? origin = some .dir)
    (h : s' = t.clear origin ∨ s' = (t.clear origin).erase origin) (l : Location) :
    s'.contentAt? l = if origin <+: l then none else t.contentAt? l := by
  have hold {entry : Entry} (hentry : s'.entry? l = some entry) : t.entry? l = some entry := by
    rcases h with rfl | rfl
    · exact entry?_of_discard hentry
    · exact entry?_of_discard (entry?_of_discard hentry)
  split
  · next hbelow =>
    cases hentry : s'.entry? l with
    | none => exact contentAt?_of_none hentry
    | some entry =>
      suffices heq : l = origin by
        subst heq
        obtain rfl : entry = .dir := Option.some.inj ((hold hentry).symm.trans hdir)
        exact contentAt?_of_dir hentry
      by_contra hne
      have hcleared : entry? (t.clear origin) l = none := by
        rw [entry?_clear, if_pos (isStrictlyBelow_iff.mpr ⟨hbelow, hne⟩)]
      rcases h with rfl | rfl
      · simp [hcleared] at hentry
      · exact absurd (entry?_of_discard hentry) (by simp [hcleared])
  · next hbelow =>
    refine Option.ext fun content ↦ ?_
    rw [contentAt?_eq_some_iff, contentAt?_eq_some_iff]
    exact exists_congr fun id ↦ ⟨hold, (pruned_of_removed h).kept hbelow⟩

/-- A copy at a target apart from its source has the same files. -/
theorem Copying.contentAt? {made t : Store} (hg : s.GrowsDirs made)
    (hcopying : made.Copying origin target t) (hdelivered : s.Delivered t origin target)
    (hapart : ¬ origin <+: target) (l : Location) :
    t.contentAt? l =
      if target <+: l then s.contentAt? (origin ++ l.drop target.length) else s.contentAt? l := by
  split
  · next hbelow =>
    obtain ⟨rest, rfl⟩ := hbelow
    rw [List.drop_left]
    refine Option.ext fun content ↦ ?_
    rw [contentAt?_eq_some_iff, contentAt?_eq_some_iff]
    constructor
    · rintro ⟨id, hfile⟩
      obtain ⟨id', hold⟩ := hcopying.mirrored hapart rest id content hfile
      exact ⟨id', (hg.added hold).resolve_right (by simp)⟩
    · rintro ⟨id, hfile⟩
      exact hdelivered rest id content hfile
  · next hbelow =>
    rw [← hg.contentAt? l]
    refine Option.ext fun content ↦ ⟨fun hnew ↦ ?_, hcopying.grows.contentAt?⟩
    obtain ⟨id, hfile⟩ := contentAt?_eq_some_iff.mp hnew
    exact contentAt?_eq_some_iff.mpr ⟨id, (hcopying.grows.added hfile).resolve_right hbelow⟩

namespace Transfer

/-- A transfer to a location where something is leaves everything where it is. -/
theorem growsDirs (h : s.Transfer source origin p target s') (hthere : s.entry? target ≠ none) :
    s.GrowsDirs s' := by
  cases h with
  | made hmade => exact hmade.grows
  | broken _ hmade htarget hfree =>
    exact absurd (GrowsDirs.none hmade.grows (htarget ▸ hfree.free)) hthere
  | carried _ _ hfree => exact absurd hfree hthere
  | copied _ hmade hfree => exact absurd (GrowsDirs.none hmade.grows hfree) hthere

/-- A transfer to a target that is not inside its source leaves all files where they are, or relocates
them. -/
theorem kept_or_relocates (hs : s.WellFormed) (hapart : origin <+: target → origin = target)
    (h : s.Transfer source origin p target s') :
    (∀ l, s'.contentAt? l = s.contentAt? l) ∨
      (s.BrokenCopy source p ∧ s.Vacant p target ∧
        ∀ l content, s.contentAt? l = some content → s'.contentAt? l = some content) ∨
      s.Relocates origin target s' ∧ ¬ origin <+: target ∧ s.entry? origin ≠ none ∧
        s.entry? target = none := by
  have hdistinct (hthere : s.entry? origin ≠ none) (hfree : s.entry? target = none) :
      ¬ origin <+: target := fun hpre ↦ hthere (hapart hpre ▸ hfree)
  cases h with
  | made hmade => exact .inl hmade.grows.contentAt?
  | broken hbroken hmade htarget hfree hcopying =>
    refine .inr (.inl ⟨hbroken, ⟨_, _, _, hmade, htarget, hfree⟩, fun l content hl ↦ ?_⟩)
    exact hcopying.grows.contentAt? (hmade.grows.contentAt? l ▸ hl)
  | carried htarget hcan hfree =>
    subst htarget
    have hthere := Option.isSome_iff_ne_none.mp hcan.found
    exact .inr (.inr ⟨hcan.relocates, hdistinct hthere hfree, hthere, hfree⟩)
  | @copied made t _ horigin hmade hfree hcopying hcopied hremoved =>
    have hfree := GrowsDirs.none hmade.grows hfree
    have hdir := hcopying.grows.kept (hmade.grows.kept horigin)
    have hthere : s.entry? origin ≠ none := by simp [horigin]
    have hnot := not_prefix_of_free hs hthere hfree
    have hapart := hdistinct hthere hfree
    refine .inr (.inr ⟨fun l ↦ ?_, hapart, hthere, hfree⟩)
    rw [contentAt?_of_removed hdir hremoved, hcopying.contentAt? hmade.grows hcopied.delivered hapart]
    by_cases hbelow : target <+: l
    · have hgone : ¬ origin <+: l := fun hpre ↦
        (List.prefix_or_prefix_of_prefix hpre hbelow).elim hapart hnot
      rw [if_neg hgone, if_pos hbelow, if_pos hbelow]
    · rw [if_neg hbelow, if_neg hbelow]

variable (hs : s.WellFormed) (hlinks : s.NoLinks origin)
  (hapart : origin <+: target → origin = target)
include hs hlinks hapart

/-- No content is lost, and none is added but by a copy that breaks off. -/
theorem contents (h : s.Transfer source origin p target s') :
    s'.contents = s.contents ∨
      s.BrokenCopy source p ∧ s.Vacant p target ∧ s.contents ≤ s'.contents := by
  have hs' := (h.confined hs hlinks).wellFormed
  rcases h.kept_or_relocates hs hapart with
    hsame | ⟨hbroken, hfree, hkept⟩ | ⟨hmoved, hapart, hthere, hfree⟩
  · exact .inl (contents_eq_of_same hs hs' hsame)
  · exact .inr ⟨hbroken, hfree, contents_le_of_kept hs hkept⟩
  · exact .inl (hmoved.contents_eq hs hs' hapart hthere hfree)

omit hlinks in
theorem preserved (h : s.Transfer source origin p target s') : s.Preserved origin target s' := by
  intro rest content hcontent
  rcases h.kept_or_relocates hs hapart with hsame | ⟨-, -, hkept⟩ | ⟨hmoved, -, -⟩
  · exact .inl (by rw [hsame, hcontent])
  · exact .inl (hkept _ _ hcontent)
  · right
    rw [hmoved, if_pos (List.prefix_append _ _), List.drop_left, hcontent]

end Transfer

end Store

end DeferredOps
