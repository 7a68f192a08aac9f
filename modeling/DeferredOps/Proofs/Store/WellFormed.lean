import DeferredOps.Proofs.Store.Lookup
import Mathlib.Data.List.Induction
import Mathlib.Data.List.Infix
import Mathlib.Data.List.Nodup

/-!
# Well-formed stores

In a well-formed store everything stands in a directory under a name that can be written in a path,
and the current directory is there or known to have been removed. Every basic change that is made
where the operations allow it keeps this.
-/

namespace DeferredOps

/-- A name that an entry can have. -/
structure IsName (name : String) : Prop where
  ne_empty : name ≠ ""
  ne_dot : name ≠ "."
  ne_dotDot : name ≠ ".."
  noSlash : '/' ∉ name.toList
  noNul : '\x00' ∉ name.toList
  short : name.utf8ByteSize ≤ Store.nameLimit

instance (name : String) : Decidable (IsName name) :=
  decidable_of_iff (name ≠ "" ∧ name ≠ "." ∧ name ≠ ".." ∧ '/' ∉ name.toList ∧
      '\x00' ∉ name.toList ∧ name.utf8ByteSize ≤ Store.nameLimit)
    ⟨fun ⟨h₁, h₂, h₃, h₄, h₅, h₆⟩ ↦ ⟨h₁, h₂, h₃, h₄, h₅, h₆⟩,
      fun ⟨h₁, h₂, h₃, h₄, h₅, h₆⟩ ↦ ⟨h₁, h₂, h₃, h₄, h₅, h₆⟩⟩

namespace Store

/-- Every directory on the way to a location is there, or marked as removed. -/
def Standing (s : Store) (directory : Location) : Prop :=
  ∀ q, q <+: directory → isRemoved q ∨ s.entry? q = some .dir

/-- What holds of every store that the operations work on. -/
structure WellFormed (s : Store) : Prop where
  nodup : (s.entries.map (·.1)).Nodup
  parent : ∀ {directory name entry},
    s.entry? (directory ++ [name]) = some entry → s.entry? directory = some .dir
  name : ∀ {directory name entry}, s.entry? (directory ++ [name]) = some entry → IsName name
  link : ∀ {location text}, s.entry? location = some (.link text) → '\x00' ∉ text.toList
  current : s.Standing s.current

variable {s : Store} {location directory source target : Location} {name : String} {entry : Entry}

@[simp]
theorem isRemoved_nil : isRemoved [] = false := rfl

@[simp]
theorem isRemoved_concat : isRemoved (directory ++ [name]) = decide (name = "") := by
  simp [isRemoved]

theorem not_concat_prefix : ¬ directory ++ [name] <+: directory := by
  intro h
  have := h.length_le
  simp only [List.length_append, List.length_singleton] at this
  omega

theorem Standing.mono {d : Location} (h : s.Standing directory) (hd : d <+: directory) :
    s.Standing d :=
  fun q hq ↦ h q (hq.trans hd)

theorem Standing.dropLast (h : s.Standing directory) : s.Standing directory.dropLast :=
  h.mono (List.dropLast_prefix directory)

theorem standing_nil (s : Store) : s.Standing [] := by
  intro q hq
  rw [List.prefix_nil.mp hq]
  exact .inr rfl

theorem Standing.entry? (h : s.Standing directory) (hremoved : isRemoved directory = false) :
    s.entry? directory = some .dir :=
  (h directory (List.prefix_refl _)).resolve_left (by simp [hremoved])

namespace WellFormed

variable (hs : s.WellFormed)
include hs

/-- What stands somewhere stands in directories. -/
theorem dir_of_append {rest : Location} (hrest : rest ≠ [])
    (h : s.entry? (location ++ rest) = some entry) : s.entry? location = some .dir := by
  induction rest using List.reverseRecOn generalizing entry with
  | nil => exact absurd rfl hrest
  | append_singleton front last ih =>
    rw [← List.append_assoc] at h
    have hparent := hs.parent h
    by_cases hfront : front = []
    · simpa [hfront] using hparent
    · exact ih hfront hparent

theorem none_of_append {rest : Location} (hrest : rest ≠ [])
    (h : s.entry? location ≠ some .dir) : s.entry? (location ++ rest) = none := by
  cases hbelow : s.entry? (location ++ rest) with
  | none => rfl
  | some entry => exact absurd (hs.dir_of_append hrest hbelow) h

/-- Where something stands below, something stands. -/
theorem there_of_append {rest : Location} (h : s.entry? (location ++ rest) ≠ none) :
    s.entry? location ≠ none := by
  intro hnone
  by_cases hrest : rest = []
  · rw [hrest, List.append_nil] at h
    exact h hnone
  · exact h (hs.none_of_append hrest (by simp [hnone]))

/-- Nothing stands below a location where no directory stands. -/
theorem none_of_prefix {other : Location} (hpre : location <+: other) (hne : other ≠ location)
    (h : s.entry? location ≠ some .dir) : s.entry? other = none := by
  obtain ⟨rest, rfl⟩ := hpre
  exact hs.none_of_append (by simpa using hne) h

theorem dir_of_prefix {d : Location} (h : s.entry? directory = some .dir) (hd : d <+: directory) :
    s.entry? d = some .dir := by
  obtain ⟨rest, rfl⟩ := hd
  by_cases hrest : rest = []
  · simpa [hrest] using h
  · exact hs.dir_of_append hrest h

theorem isName_of_mem (h : s.entry? location = some entry) (hname : name ∈ location) :
    IsName name := by
  obtain ⟨front, back, rfl⟩ := List.append_of_mem hname
  by_cases hback : back = []
  · subst hback
    exact hs.name h
  · have hfront : s.entry? (front ++ [name]) = some .dir :=
      hs.dir_of_append hback (by simpa using h)
    exact hs.name hfront

theorem none_of_isEmptyDir {other : Location} (hempty : s.isEmptyDir location)
    (hpre : location <+: other) (hne : other ≠ location) : s.entry? other = none := by
  obtain ⟨rest, rfl⟩ := hpre
  rcases rest with _ | ⟨first, more⟩
  · simp at hne
  have hfirst := isEmptyDir_iff.mp hempty first
  rw [List.append_cons]
  by_cases hmore : more = []
  · simpa [hmore] using hfirst
  · exact hs.none_of_append hmore (by simp [hfirst])

theorem not_isRemoved (h : s.entry? location = some entry) : isRemoved location = false := by
  rcases List.eq_nil_or_concat location with rfl | ⟨front, last, rfl⟩
  · rfl
  · rw [List.concat_eq_append] at h ⊢
    simpa using (hs.name h).ne_empty

theorem standing_of_dir (h : s.entry? directory = some .dir) : s.Standing directory :=
  fun _ hq ↦ .inr (hs.dir_of_prefix h hq)

end WellFormed

/-- No symbolic link with the character NUL in its text stands at the location. -/
def LinkIsClean (s : Store) (location : Location) : Prop :=
  match s.entry? location with
  | some (.link text) => '\x00' ∉ text.toList
  | _ => True

instance (s : Store) (location : Location) : Decidable (s.LinkIsClean location) :=
  match h : s.entry? location with
  | some (.link _) => decidable_of_iff _ (by simp only [LinkIsClean, h]; exact Iff.rfl)
  | some .dir | some (.file ..) | none => isTrue (by simp [LinkIsClean, h])

/-- Well-formedness asks only about the locations that are listed. -/
theorem wellFormed_iff : s.WellFormed ↔
    (s.entries.map (·.1)).Nodup ∧
    (∀ l ∈ s.entries.map (·.1), l ≠ [] → s.entry? l.dropLast = some .dir ∧
      (∀ name ∈ l.getLast?, IsName name) ∧ s.LinkIsClean l) ∧
    ∀ q ∈ s.current.inits, isRemoved q ∨ s.entry? q = some .dir := by
  constructor
  · intro hs
    refine ⟨hs.nodup, fun l hl hne ↦ ?_, fun q hq ↦ hs.current q ((List.mem_inits _ _).mp hq)⟩
    obtain ⟨e, he, rfl⟩ := List.mem_map.mp hl
    obtain ⟨entry, hentry⟩ := Option.isSome_iff_exists.mp (entry?_isSome_of_mem he)
    obtain ⟨front, last, heq⟩ := (List.eq_nil_or_concat e.1).resolve_left hne
    rw [heq, List.concat_eq_append] at hentry ⊢
    refine ⟨by simpa using hs.parent hentry, by simpa using hs.name hentry, ?_⟩
    unfold LinkIsClean
    split
    · next hlink => exact hs.link hlink
    · trivial
  · rintro ⟨hnodup, hplaced, hcurrent⟩
    have hlisted {l : Location} {entry : Entry} (hl : l ≠ []) (h : s.entry? l = some entry) :=
      hplaced l (List.mem_map_of_mem (mem_entries hl h)) hl
    refine ⟨hnodup, ?_, ?_, ?_, fun q hq ↦ hcurrent q ((List.mem_inits _ _).mpr hq)⟩
    · intro directory name entry h
      simpa using (hlisted (by simp) h).1
    · intro directory name entry h
      simpa using (hlisted (by simp) h).2.1
    · intro location text h
      have hne : location ≠ [] := by
        rintro rfl
        simp at h
      have hclean := (hlisted hne h).2.2
      simpa [LinkIsClean, h] using hclean

instance (s : Store) : Decidable s.WellFormed :=
  decidable_of_iff _ wellFormed_iff.symm

/-- Only the entries and the current directory matter. -/
theorem WellFormed.congr {s' : Store} (hs : s.WellFormed) (hentries : s'.entries = s.entries)
    (hcurrent : s'.current = s.current) : s'.WellFormed := by
  have hentry (l : Location) : s'.entry? l = s.entry? l := by
    unfold Store.entry?
    rw [hentries]
  refine ⟨?_, ?_, ?_, ?_, ?_⟩
  · rw [hentries]
    exact hs.nodup
  · intro directory name entry h
    rw [hentry] at h ⊢
    exact hs.parent h
  · intro directory name entry h
    rw [hentry] at h
    exact hs.name h
  · intro location text h
    rw [hentry] at h
    exact hs.link h
  · intro q hq
    rw [hcurrent] at hq
    rw [hentry]
    exact hs.current q hq

theorem wellFormed_empty : empty.WellFormed := by
  have hnone {l : Location} (h : l ≠ []) : empty.entry? l = none := by
    rw [entry?_of_ne_nil h]
    rfl
  refine ⟨List.nodup_nil, ?_, ?_, ?_, standing_nil _⟩
  · intro directory name entry h
    simp [hnone] at h
  · intro directory name entry h
    simp [hnone] at h
  · intro location text h
    by_cases hnil : location = []
    · simp [hnil] at h
    · simp [hnone hnil] at h

/-! ## Adding an entry -/

theorem nodup_put (hs : (s.entries.map (·.1)).Nodup) :
    ((s.put location entry).entries.map (·.1)).Nodup := by
  unfold put
  rw [List.map_append, List.nodup_append]
  refine ⟨hs.sublist (List.filter_sublist.map _), by simp, ?_⟩
  intro key hkey other hother heq
  simp only [List.mem_map, List.mem_filter] at hkey
  obtain ⟨e, ⟨-, hne⟩, rfl⟩ := hkey
  simp_all

/-- An entry may be put at a free name in a directory. -/
theorem WellFormed.put (hs : s.WellFormed) (hdirectory : s.entry? directory = some .dir)
    (hname : IsName name) (hfree : s.entry? (directory ++ [name]) = none)
    (hlink : ∀ text, entry = .link text → '\x00' ∉ text.toList) :
    (s.put (directory ++ [name]) entry).WellFormed := by
  have hne : directory ++ [name] ≠ [] := by simp
  have hdir {l : Location} (h : s.entry? l = some .dir) :
      entry? (s.put (directory ++ [name]) entry) l = some .dir := by
    rw [entry?_put hne, if_neg ?_, h]
    rintro rfl
    simp [hfree] at h
  refine ⟨nodup_put hs.nodup, ?_, ?_, ?_, ?_⟩
  · intro d n e h
    rw [entry?_put hne] at h
    split at h
    · next heq =>
      obtain ⟨rfl, -⟩ := List.append_inj' heq rfl
      exact hdir hdirectory
    · exact hdir (hs.parent h)
  · intro d n e h
    rw [entry?_put hne] at h
    split at h
    · next heq =>
      obtain ⟨-, hlast⟩ := List.append_inj' heq rfl
      obtain rfl : n = name := by simpa using hlast
      exact hname
    · exact hs.name h
  · intro l text h
    rw [entry?_put hne] at h
    split at h
    · exact hlink text (Option.some.inj h)
    · exact hs.link h
  · intro q hq
    exact (hs.current q hq).imp_right hdir

/-- An entry may be put at a free name at the top. -/
theorem WellFormed.put_top (hs : s.WellFormed) (hname : IsName name)
    (hfree : s.entry? [name] = none)
    (hlink : ∀ text, entry = .link text → '\x00' ∉ text.toList) :
    (s.put [name] entry).WellFormed :=
  hs.put (entry?_nil s) hname hfree hlink

theorem WellFormed.putFile {content : Bytes} (hs : s.WellFormed)
    (hdirectory : s.entry? directory = some .dir) (hname : IsName name)
    (hfree : s.entry? (directory ++ [name]) = none) :
    (s.putFile (directory ++ [name]) content).WellFormed :=
  have hput : (s.put (directory ++ [name]) (.file s.freshId content)).WellFormed :=
    hs.put hdirectory hname hfree (by simp)
  hput.congr rfl rfl

/-! ## Removing entries -/

theorem markRemoved_concat (gone : Location → Bool) (before front : Location) (last : String) :
    markRemoved gone before (front ++ [last]) =
      markRemoved gone before front ++
        [if gone (before ++ front ++ [last]) then "" else last] := by
  induction front generalizing before with
  | nil => simp [markRemoved]
  | cons name rest ih => simp [markRemoved, ih]

theorem length_markRemoved (gone : Location → Bool) (before l : Location) :
    (markRemoved gone before l).length = l.length := by
  induction l generalizing before with
  | nil => rfl
  | cons name rest ih => simp [markRemoved, ih]

theorem take_markRemoved (gone : Location → Bool) (before l : Location) (n : ℕ) :
    (markRemoved gone before l).take n = markRemoved gone before (l.take n) := by
  induction l generalizing before n with
  | nil => simp [markRemoved]
  | cons name rest ih =>
    cases n with
    | zero => simp [markRemoved]
    | succ n => simp [markRemoved, ih]

/-- What leads to a marked location is the marked form of what leads to the location. -/
theorem prefix_markRemoved {gone : Location → Bool} {q l : Location}
    (h : q <+: markRemoved gone [] l) : ∃ p, p <+: l ∧ q = markRemoved gone [] p := by
  refine ⟨l.take q.length, List.take_prefix _ _, ?_⟩
  rw [← take_markRemoved]
  exact List.prefix_iff_eq_take.mp h

theorem markRemoved_eq_self {gone : Location → Bool} {before l : Location}
    (h : ∀ q, q <+: l → q ≠ [] → gone (before ++ q) = false) : markRemoved gone before l = l := by
  induction l generalizing before with
  | nil => rfl
  | cons name rest ih =>
    have hhead := h [name] ⟨rest, rfl⟩ (by simp)
    simp only [markRemoved, hhead, Bool.false_eq_true, if_false]
    congr 1
    apply ih
    intro q hq hne
    have := h (name :: q) (by simpa using hq) (by simp)
    simpa using this

/-- With an entry goes everything below it. -/
def ClosedBelow (s : Store) (gone : Location → Bool) : Prop :=
  ∀ {directory name entry}, s.entry? (directory ++ [name]) = some entry →
    gone directory → gone (directory ++ [name])

theorem ClosedBelow.append {gone : Location → Bool} (hgone : s.ClosedBelow gone)
    (hs : s.WellFormed) {rest : Location} (h : s.entry? (location ++ rest) = some entry)
    (hl : gone location) : gone (location ++ rest) := by
  induction rest using List.reverseRecOn generalizing entry with
  | nil => simpa using hl
  | append_singleton front last ih =>
    rw [← List.append_assoc] at h ⊢
    exact hgone h (ih (hs.parent h))

theorem WellFormed.standing_discard {gone : Location → Bool} (hs : s.WellFormed)
    (hgone : s.ClosedBelow gone) : (s.discard gone).Standing (s.discard gone).current := by
  intro q hq
  obtain ⟨p, hp, rfl⟩ := prefix_markRemoved hq
  rcases List.eq_nil_or_concat p with rfl | ⟨front, last, rfl⟩
  · exact .inr rfl
  rw [List.concat_eq_append] at hp ⊢
  rw [markRemoved_concat, isRemoved_concat, ← markRemoved_concat, List.nil_append]
  cases hlast : gone (front ++ [last])
  · rcases hs.current _ hp with hremoved | hdir
    · left
      simpa using hremoved
    · right
      have hstays (q : Location) (hq : q <+: front ++ [last]) : gone q = false := by
        obtain ⟨rest, hrest⟩ := hq
        rw [← hrest] at hdir hlast
        by_contra h
        simp [hgone.append hs hdir (by simpa using h)] at hlast
      rw [markRemoved_eq_self fun q hq _ ↦ by simpa using hstays q hq, entry?_discard, hlast]
      simpa using hdir
  · left
    simp

theorem WellFormed.discard {gone : Location → Bool} (hs : s.WellFormed)
    (hgone : s.ClosedBelow gone) : (s.discard gone).WellFormed := by
  have hold {l : Location} {e : Entry} (h : entry? (s.discard gone) l = some e) :
      s.entry? l = some e := by
    rw [entry?_discard] at h
    split at h
    · simp at h
    · exact h
  refine ⟨hs.nodup.sublist (List.filter_sublist.map _), ?_, fun h ↦ hs.name (hold h),
    fun h ↦ hs.link (hold h), hs.standing_discard hgone⟩
  intro directory name entry h
  have hentry := hold h
  rw [entry?_discard, if_neg ?_, hs.parent hentry]
  rintro ⟨-, hl⟩
  rw [entry?_discard, if_pos ⟨by simp, hgone hentry hl⟩] at h
  simp at h

theorem closedBelow_erase (h : ∀ name, s.entry? (location ++ [name]) = none) :
    s.ClosedBelow (· = location) := by
  intro directory name entry hentry hgone
  obtain rfl : directory = location := by simpa using hgone
  simp [h] at hentry

theorem closedBelow_clear : s.ClosedBelow (isStrictlyBelow · location) := by
  intro directory name entry hentry hgone
  rw [isStrictlyBelow_iff] at hgone ⊢
  refine ⟨hgone.1.trans (List.prefix_append _ _), ?_⟩
  intro heq
  have hlength := hgone.1.length_le
  simp only [← heq, List.length_append, List.length_singleton] at hlength
  omega

/-- An entry with nothing below it may be taken away. -/
theorem WellFormed.erase (hs : s.WellFormed) (h : ∀ name, s.entry? (location ++ [name]) = none) :
    (s.erase location).WellFormed :=
  hs.discard (closedBelow_erase h)

theorem WellFormed.clear (hs : s.WellFormed) : (s.clear location).WellFormed :=
  hs.discard closedBelow_clear

/-! ## Changing files -/

theorem WellFormed.setContent (hs : s.WellFormed) (id : ℕ) (change : Bytes → Bytes) :
    (s.setContent id change).WellFormed := by
  have hdir {l : Location} (h : s.entry? l = some .dir) :
      entry? (s.setContent id change) l = some .dir := by
    rw [entry?_setContent, h]
    rfl
  have hsome {l : Location} {e : Entry} (h : entry? (s.setContent id change) l = some e) :
      ∃ old, s.entry? l = some old ∧ old.withContent id change = e := by
    rw [entry?_setContent] at h
    exact Option.map_eq_some_iff.mp h
  refine ⟨?_, ?_, ?_, ?_, fun q hq ↦ (hs.current q hq).imp_right hdir⟩
  · rw [setContent_entries, List.map_map]
    exact hs.nodup
  · intro directory name entry h
    obtain ⟨old, hold, -⟩ := hsome h
    exact hdir (hs.parent hold)
  · intro directory name entry h
    obtain ⟨old, hold, -⟩ := hsome h
    exact hs.name hold
  · intro location text h
    obtain ⟨old, hold, heq⟩ := hsome h
    cases old with
    | link other =>
      obtain rfl : other = text := by simpa [Entry.withContent] using heq
      exact hs.link hold
    | dir => simp [Entry.withContent] at heq
    | file other content => simp [Entry.withContent] at heq

theorem WellFormed.openFile (hs : s.WellFormed) (id : ℕ) (content : Bytes) :
    (s.openFile id content).WellFormed :=
  hs.congr rfl rfl

theorem WellFormed.closeFile (hs : s.WellFormed) (id : ℕ) : (s.closeFile id).WellFormed :=
  hs.congr rfl rfl

/-! ## Carrying an entry -/

/-- What is asked for before an entry is carried to a name in a directory. -/
structure CanCarry (s : Store) (source directory : Location) (name : String) : Prop where
  source_ne : source ≠ []
  found : (s.entry? source).isSome
  parent : s.entry? directory = some .dir
  isName : IsName name
  apart : ¬ source <+: directory ++ [name]
  free : ∀ l, directory ++ [name] <+: l → l ≠ directory ++ [name] → s.entry? l = none

namespace CanCarry

variable (h : s.CanCarry source directory name)
include h

theorem entry?_carry :
    entry? (s.carry source (directory ++ [name])) location =
      if directory ++ [name] <+: location then
        s.entry? (source ++ location.drop (directory ++ [name]).length)
      else if source <+: location then none else s.entry? location :=
  Store.entry?_carry h.source_ne (by simp) h.apart h.free

theorem entry?_carry_append (rest : Location) :
    entry? (s.carry source (directory ++ [name])) (directory ++ [name] ++ rest) =
      s.entry? (source ++ rest) := by
  rw [h.entry?_carry, if_pos (List.prefix_append _ _), List.drop_left]

theorem entry?_carry_apart (htarget : ¬ directory ++ [name] <+: location)
    (hsource : ¬ source <+: location) :
    entry? (s.carry source (directory ++ [name])) location = s.entry? location := by
  rw [h.entry?_carry, if_neg htarget, if_neg hsource]

/-- What is there afterwards has come from the source or has stayed. -/
theorem carry_cases {P : Location → Prop}
    (hmoved : ∀ rest, s.entry? (source ++ rest) = some entry → P (directory ++ [name] ++ rest))
    (hstayed : ¬ directory ++ [name] <+: location → ¬ source <+: location →
      s.entry? location = some entry → P location)
    (hentry : entry? (s.carry source (directory ++ [name])) location = some entry) :
    P location := by
  by_cases htarget : directory ++ [name] <+: location
  · obtain ⟨rest, rfl⟩ := htarget
    rw [h.entry?_carry_append] at hentry
    exact hmoved rest hentry
  · by_cases hsource : source <+: location
    · simp [h.entry?_carry, htarget, hsource] at hentry
    · rw [h.entry?_carry_apart htarget hsource] at hentry
      exact hstayed htarget hsource hentry

theorem nodup_carry (hs : (s.entries.map (·.1)).Nodup) :
    ((s.carry source (directory ++ [name])).entries.map (·.1)).Nodup := by
  change ((s.entries.filter _).map fun e ↦
    (relocated source (directory ++ [name]) e.1, e.2)).map (·.1) |>.Nodup
  rw [List.map_map]
  let kept := s.entries.filter fun e ↦ decide (e.1 ≠ directory ++ [name])
  have hbase : (kept.map (·.1)).Nodup := hs.sublist (List.filter_sublist.map _)
  have hkey {e : Location × Entry} (he : e ∈ kept) : ¬ directory ++ [name] <+: e.1 := by
    intro hpre
    obtain ⟨hmem, hne⟩ := List.mem_filter.mp he
    have hnone := h.free e.1 hpre (by simpa using hne)
    simpa [hnone] using entry?_isSome_of_mem hmem
  refine List.Nodup.map_on (fun e he e' he' heq ↦ ?_) (List.Nodup.of_map _ hbase)
  have hkeys : e.1 = e'.1 := relocated_injective_of_apart (hkey he) (hkey he') heq
  exact List.inj_on_of_nodup_map hbase he he' hkeys

/-- A directory that is not where the new place is, and not at or below the source, stays. -/
theorem dir_carry_of_stays (hl : entry? (s.erase (directory ++ [name])) location = some .dir)
    (hsource : ¬ source <+: location) :
    entry? (s.carry source (directory ++ [name])) location = some .dir := by
  obtain ⟨hne, hdir⟩ := entry_of_erase (by simp) hl
  rw [h.entry?_carry_apart ?_ hsource, hdir]
  intro hpre
  simp [h.free location hpre hne] at hdir

/-- The new place of a directory and those above it are directories. -/
theorem dir_carry_of_prefix (hs : s.WellFormed) (hdir : s.entry? source = some .dir)
    (hl : location <+: directory ++ [name]) :
    entry? (s.carry source (directory ++ [name])) location = some .dir := by
  rcases List.prefix_concat_iff.mp hl with rfl | hparent
  · simpa using (h.entry?_carry_append []).trans (by simpa using hdir)
  · rw [h.entry?_carry_apart ?_ ?_, hs.dir_of_prefix h.parent hparent]
    · exact fun hlong ↦ not_concat_prefix (hlong.trans hparent)
    · exact fun hsource ↦ h.apart (hsource.trans hl)

theorem standing_carry (hs : s.WellFormed) :
    (s.carry source (directory ++ [name])).Standing (s.carry source (directory ++ [name])).current := by
  have herase : (s.erase (directory ++ [name])).Standing (s.erase (directory ++ [name])).current :=
    hs.standing_discard (closedBelow_erase fun n ↦ h.free _ (List.prefix_append _ _) (by simp))
  change Standing _ (relocated source (directory ++ [name]) (s.erase (directory ++ [name])).current)
  unfold relocated
  split
  · next hpre =>
    obtain ⟨rest, hrest⟩ := List.isPrefixOf_iff_prefix.mp hpre
    rw [← hrest, List.drop_left]
    rw [← hrest] at herase
    -- The current directory lies at or below what is carried, so a directory is carried.
    have hdir : s.entry? source = some .dir := by
      obtain ⟨entry, hentry⟩ := Option.isSome_iff_exists.mp h.found
      have hremoved := hs.not_isRemoved hentry
      have hkept := (herase source (List.prefix_append _ _)).resolve_left (by simp [hremoved])
      exact (entry_of_erase (by simp) hkept).2
    intro q hq
    rcases List.prefix_or_prefix_of_prefix hq (List.prefix_append _ _) with hshort | ⟨more, rfl⟩
    · exact .inr (h.dir_carry_of_prefix hs hdir hshort)
    · by_cases hnil : more = []
      · exact .inr (h.dir_carry_of_prefix hs hdir (by simp [hnil]))
      · have hmore := (List.prefix_append_right_inj _).mp hq
        have hold := herase (source ++ more) ((List.prefix_append_right_inj _).mpr hmore)
        obtain ⟨front, last, rfl⟩ := (List.eq_nil_or_concat more).resolve_left hnil
        rw [List.concat_eq_append, ← List.append_assoc, isRemoved_concat] at hold ⊢
        refine hold.imp_right fun hl ↦ ?_
        rw [List.append_assoc, h.entry?_carry_append, ← List.append_assoc]
        exact (entry_of_erase (by simp) hl).2
  · next hpre =>
    intro q hq
    refine (herase q hq).imp_right fun hl ↦ h.dir_carry_of_stays hl fun hsource ↦ hpre ?_
    exact List.isPrefixOf_iff_prefix.mpr (hsource.trans hq)

end CanCarry

theorem WellFormed.carry (hs : s.WellFormed) (h : s.CanCarry source directory name) :
    (s.carry source (directory ++ [name])).WellFormed := by
  have hdirectory : entry? (s.carry source (directory ++ [name])) directory = some .dir := by
    rw [h.entry?_carry_apart not_concat_prefix ?_, h.parent]
    exact fun hsource ↦ h.apart (hsource.trans (List.prefix_append _ _))
  refine ⟨h.nodup_carry hs.nodup, ?_, ?_, ?_, h.standing_carry hs⟩
  · intro d n e he
    by_cases htarget : directory ++ [name] <+: d ++ [n]
    · rcases List.prefix_concat_iff.mp htarget with heq | ⟨rest, rfl⟩
      · obtain ⟨rfl, -⟩ := List.append_inj' heq rfl
        exact hdirectory
      · rw [List.append_assoc, h.entry?_carry_append, ← List.append_assoc] at he
        rw [h.entry?_carry_append]
        exact hs.parent he
    · by_cases hsource : source <+: d ++ [n]
      · simp [h.entry?_carry, htarget, hsource] at he
      · rw [h.entry?_carry_apart htarget hsource] at he
        rw [h.entry?_carry_apart ?_ ?_, hs.parent he]
        · exact fun hlong ↦ htarget (hlong.trans (List.prefix_append _ _))
        · exact fun hlong ↦ hsource (hlong.trans (List.prefix_append _ _))
  · intro d n e he
    by_cases htarget : directory ++ [name] <+: d ++ [n]
    · rcases List.prefix_concat_iff.mp htarget with heq | ⟨rest, rfl⟩
      · obtain ⟨-, hlast⟩ := List.append_inj' heq rfl
        obtain rfl : name = n := by simpa using hlast
        exact h.isName
      · rw [List.append_assoc, h.entry?_carry_append, ← List.append_assoc] at he
        exact hs.name he
    · by_cases hsource : source <+: d ++ [n]
      · simp [h.entry?_carry, htarget, hsource] at he
      · rw [h.entry?_carry_apart htarget hsource] at he
        exact hs.name he
  · intro l text he
    exact h.carry_cases (P := fun _ ↦ '\x00' ∉ text.toList) (fun _ ↦ hs.link) (fun _ _ ↦ hs.link) he

end Store

end DeferredOps
