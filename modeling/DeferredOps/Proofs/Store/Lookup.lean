import DeferredOps.Store.Trees
import Mathlib.Data.List.Basic

/-!
# What stands where after a change

Every basic change of a store is described by what stands at each location afterwards. Later modules
argue about locations only and do not look at the list of entries any more.
-/

namespace DeferredOps

namespace Store

variable {s : Store} {location other source target : Location} {entry : Entry}

/-! ## Entries and names -/

@[simp]
theorem entry?_nil (s : Store) : s.entry? [] = some .dir := rfl

theorem entry?_of_ne_nil (h : location ≠ []) : s.entry? location = s.entries.lookup location :=
  if_neg h

theorem mem_entries (h : location ≠ []) (hentry : s.entry? location = some entry) :
    (location, entry) ∈ s.entries := by
  rw [entry?_of_ne_nil h, List.lookup_eq_some_iff] at hentry
  obtain ⟨before, after, hsplit, -⟩ := hentry
  simp [hsplit]

theorem entry?_isSome_of_mem (h : (location, entry) ∈ s.entries) :
    (s.entry? location).isSome := by
  by_cases hnil : location = []
  · simp [hnil]
  · rw [entry?_of_ne_nil hnil, List.lookup_isSome_iff]
    exact ⟨(location, entry), h, by simp⟩

theorem nameIn?_eq_some {directory : Location} {name : String} :
    nameIn? directory location = some name ↔ location = directory ++ [name] := by
  unfold nameIn?
  rcases List.eq_nil_or_concat location with rfl | ⟨front, last, rfl⟩
  · simp
  · simp only [List.concat_eq_append, List.getLast?_concat]
    constructor
    · intro h
      split at h <;> simp_all
    · intro h
      obtain ⟨rfl, hlast⟩ := List.append_inj' h rfl
      simp_all

/-- The names in a directory are those at which something stands. -/
theorem mem_names {directory : Location} {name : String} :
    name ∈ s.names directory ↔ (s.entry? (directory ++ [name])).isSome := by
  have hne : directory ++ [name] ≠ [] := by simp
  unfold names
  simp only [List.mem_filterMap, nameIn?_eq_some]
  constructor
  · rintro ⟨⟨found, entry⟩, hmem, rfl⟩
    exact entry?_isSome_of_mem hmem
  · intro h
    obtain ⟨entry, hentry⟩ := Option.isSome_iff_exists.mp h
    exact ⟨_, mem_entries hne hentry, rfl⟩

theorem exists_entry_of_mem_names {directory : Location} {name : String} (h : name ∈ s.names directory) :
    ∃ entry, s.entry? (directory ++ [name]) = some entry :=
  Option.isSome_iff_exists.mp (mem_names.mp h)

theorem isEmptyDir_iff {directory : Location} :
    s.isEmptyDir directory ↔ ∀ name, s.entry? (directory ++ [name]) = none := by
  unfold isEmptyDir
  rw [List.isEmpty_iff, List.eq_nil_iff_forall_not_mem]
  simp only [mem_names, Option.not_isSome_iff_eq_none]

theorem isStrictlyBelow_iff :
    isStrictlyBelow location other ↔ other <+: location ∧ location ≠ other := by
  simp [isStrictlyBelow]

/-! ## Adding and removing -/

theorem lookup_filter_key (entries : List (Location × Entry)) (keep : Location → Bool) :
    (entries.filter fun e ↦ keep e.1).lookup location =
      if keep location then entries.lookup location else none := by
  induction entries with
  | nil => simp
  | cons e rest ih =>
    obtain ⟨key, found⟩ := e
    by_cases hkey : location = key
    · subst hkey
      by_cases hkeep : keep location
      · simp [hkeep]
      · simp only [List.filter_cons, hkeep, Bool.false_eq_true, if_false, ih]
    · have hbeq : (location == key) = false := by simpa using hkey
      by_cases hkeep : keep key
      · simp only [List.filter_cons, hkeep, if_true, List.lookup_cons, hbeq]
        exact ih
      · simp only [List.filter_cons, hkeep, Bool.false_eq_true, if_false, List.lookup_cons, hbeq]
        exact ih

theorem entry?_put (h : location ≠ []) :
    entry? (s.put location entry) other = if other = location then some entry else s.entry? other := by
  by_cases hnil : other = []
  · subst hnil
    simp [h.symm]
  · rw [entry?_of_ne_nil hnil, entry?_of_ne_nil hnil]
    change (s.entries.filter (fun e ↦ decide (e.1 ≠ location)) ++ [(location, entry)]).lookup other = _
    rw [List.lookup_append, lookup_filter_key s.entries fun key ↦ decide (key ≠ location)]
    by_cases heq : other = location
    · simp [heq]
    · have hbeq : (other == location) = false := by simpa using heq
      simp [heq, List.lookup_cons, hbeq]

theorem entry?_putFile {content : Bytes} (h : location ≠ []) :
    entry? (s.putFile location content) other =
      if other = location then some (.file s.freshId content) else s.entry? other :=
  entry?_put h

theorem entry?_discard (gone : Location → Bool) :
    entry? (s.discard gone) location =
      if location ≠ [] ∧ gone location then none else s.entry? location := by
  by_cases hnil : location = []
  · simp [hnil]
  · rw [entry?_of_ne_nil hnil, entry?_of_ne_nil hnil]
    change (s.entries.filter fun e ↦ !gone e.1).lookup location = _
    rw [lookup_filter_key s.entries fun key ↦ !gone key]
    cases hgone : gone location <;> simp [hnil]

theorem entry?_erase (h : location ≠ []) :
    entry? (s.erase location) other = if other = location then none else s.entry? other := by
  unfold erase
  rw [entry?_discard]
  by_cases heq : other = location
  · simp [heq, h]
  · simp [heq]

/-- What is there after an entry has been erased is another one, and has been there before. -/
theorem entry_of_erase (h : location ≠ []) (he : entry? (s.erase location) other = some entry) :
    other ≠ location ∧ s.entry? other = some entry := by
  rw [entry?_erase h] at he
  split at he
  · cases he
  · next hne => exact ⟨hne, he⟩

theorem entry?_clear :
    entry? (s.clear location) other =
      if isStrictlyBelow other location then none else s.entry? other := by
  unfold clear
  rw [entry?_discard]
  by_cases hbelow : isStrictlyBelow other location
  · have hne : other ≠ [] := by
      rintro rfl
      simp [isStrictlyBelow_iff] at hbelow
    simp [hbelow, hne]
  · simp [hbelow]

/-! ## Carrying -/

theorem relocated_append (source target rest : Location) :
    relocated source target (source ++ rest) = target ++ rest := by
  unfold relocated
  rw [if_pos (by simp), List.drop_left]

theorem relocated_of_apart (h : ¬ source <+: location) :
    relocated source target location = location := by
  unfold relocated
  rw [if_neg (by simpa using h)]

/-- What is at or below the target then was there before, or has come from the source. -/
theorem relocated_eq_append_iff {rest : Location} (h : ¬ target <+: location) :
    relocated source target location = target ++ rest ↔ location = source ++ rest := by
  by_cases hbelow : source <+: location
  · obtain ⟨more, rfl⟩ := hbelow
    simp [relocated_append]
  · rw [relocated_of_apart hbelow]
    exact iff_of_false (fun heq ↦ h ⟨rest, heq.symm⟩) fun heq ↦ hbelow ⟨rest, heq.symm⟩

/-- Anything else has stayed where it was, and nothing is left at or below the source. -/
theorem relocated_eq_iff_of_apart (h : ¬ target <+: other) :
    relocated source target location = other ↔ location = other ∧ ¬ source <+: other := by
  by_cases hbelow : source <+: location
  · obtain ⟨more, rfl⟩ := hbelow
    rw [relocated_append]
    refine iff_of_false (fun heq ↦ h ⟨more, heq⟩) ?_
    rintro ⟨rfl, hnot⟩
    exact hnot (List.prefix_append _ _)
  · rw [relocated_of_apart hbelow]
    refine ⟨?_, And.left⟩
    rintro rfl
    exact ⟨rfl, hbelow⟩

/-- Two locations that are not at or below the target stay apart. -/
theorem relocated_injective_of_apart (h : ¬ target <+: location) (h' : ¬ target <+: other)
    (heq : relocated source target location = relocated source target other) : location = other := by
  by_cases hbelow : source <+: location
  · obtain ⟨rest, rfl⟩ := hbelow
    rw [relocated_append] at heq
    exact ((relocated_eq_append_iff h').mp heq.symm).symm
  · rw [relocated_of_apart hbelow] at heq
    exact ((relocated_eq_iff_of_apart h).mp heq.symm).1.symm

theorem lookup_map_key {entries : List (Location × Entry)} {place : Location → Location}
    (h : ∀ e ∈ entries, place e.1 = location ↔ e.1 = other) :
    (entries.map fun e ↦ (place e.1, e.2)).lookup location = entries.lookup other := by
  induction entries with
  | nil => rfl
  | cons e rest ih =>
    obtain ⟨key, found⟩ := e
    have hrest := ih fun e he ↦ h e (List.mem_cons_of_mem _ he)
    have hhead : place key = location ↔ key = other := h (key, found) List.mem_cons_self
    by_cases heq : key = other
    · simp [heq, ← hhead.mpr heq]
    · have hplace : place key ≠ location := fun hp ↦ heq (hhead.mp hp)
      have hleft : (location == place key) = false := by simpa using hplace.symm
      have hright : (other == key) = false := by simpa using Ne.symm heq
      simp only [List.map_cons, List.lookup_cons, hleft, hright]
      exact hrest

/-- Carrying an entry leads to the entries at and below the target from those at and below the
source, and takes the latter away. -/
theorem entry?_carry (hsource : source ≠ []) (htarget : target ≠ []) (hapart : ¬ source <+: target)
    (hfree : ∀ l, target <+: l → l ≠ target → s.entry? l = none) :
    entry? (s.carry source target) location =
      if target <+: location then s.entry? (source ++ location.drop target.length)
      else if source <+: location then none else s.entry? location := by
  by_cases hnil : location = []
  · simp [hnil, htarget, hsource]
  let kept := s.entries.filter fun e ↦ decide (e.1 ≠ target)
  have hkept (e : Location × Entry) (he : e ∈ kept) : ¬ target <+: e.1 := by
    intro hpre
    obtain ⟨hmem, hne⟩ := List.mem_filter.mp he
    have hnone := hfree e.1 hpre (by simpa using hne)
    simpa [hnone] using entry?_isSome_of_mem hmem
  have hlookup (l : Location) (hl : l ≠ target) : kept.lookup l = s.entries.lookup l := by
    rw [lookup_filter_key s.entries fun key ↦ decide (key ≠ target)]
    simp [hl]
  rw [entry?_of_ne_nil hnil]
  change (kept.map fun e ↦ (relocated source target e.1, e.2)).lookup location = _
  by_cases hbelow : target <+: location
  · obtain ⟨rest, rfl⟩ := hbelow
    have hne : source ++ rest ≠ target := fun h ↦ hapart ⟨rest, h⟩
    rw [if_pos (List.prefix_append _ _), List.drop_left, entry?_of_ne_nil (by simp [hsource]),
      ← hlookup _ hne]
    exact lookup_map_key fun e he ↦ relocated_eq_append_iff (hkept e he)
  rw [if_neg hbelow]
  by_cases hgone : source <+: location
  · rw [if_pos hgone, List.lookup_eq_none_iff]
    intro e he
    obtain ⟨old, hold, rfl⟩ := List.mem_map.mp he
    rw [bne_iff_ne]
    exact fun heq ↦ ((relocated_eq_iff_of_apart hbelow).mp heq.symm).2 hgone
  · have hne : location ≠ target := by
      rintro rfl
      exact hbelow (List.prefix_refl _)
    rw [if_neg hgone, entry?_of_ne_nil hnil, ← hlookup _ hne]
    exact lookup_map_key fun e _ ↦ by rw [relocated_eq_iff_of_apart hbelow, and_iff_left hgone]

/-! ## Files -/

end Store

/-- An entry with the content of a file changed, if it is that file. -/
def Entry.withContent (id : Nat) (change : Bytes → Bytes) : Entry → Entry
  | .file other content => .file other (if other = id then change content else content)
  | entry => entry

namespace Store

variable {s : Store} {location : Location}

theorem setContent_entries (id : Nat) (change : Bytes → Bytes) :
    (s.setContent id change).entries =
      s.entries.map fun e ↦ (e.1, e.2.withContent id change) := by
  unfold setContent
  apply List.map_congr_left
  rintro ⟨key, _ | ⟨other, content⟩ | _⟩ - <;> simp only [Entry.withContent]
  split <;> rfl

theorem entry?_setContent (id : Nat) (change : Bytes → Bytes) :
    entry? (s.setContent id change) location =
      (s.entry? location).map (Entry.withContent id change) := by
  by_cases hnil : location = []
  · simp [hnil, Entry.withContent]
  · rw [entry?_of_ne_nil hnil, entry?_of_ne_nil hnil, setContent_entries]
    induction s.entries with
    | nil => rfl
    | cons e rest ih =>
      obtain ⟨key, entry⟩ := e
      simp only [List.map_cons, List.lookup_cons]
      cases location == key
      · exact ih
      · rfl

theorem names_setContent (id : Nat) (change : Bytes → Bytes) (directory : Location) :
    (s.setContent id change).names directory = s.names directory := by
  unfold names
  rw [setContent_entries, List.filterMap_map]
  rfl

/-- A new file adds at most one name to a directory. -/
theorem length_names_putFile (directory : Location) (content : Bytes) (test : String → Bool) :
    (((s.putFile location content).names directory).filter test).length ≤
      ((s.names directory).filter test).length + 1 := by
  unfold names putFile put
  simp only [List.filterMap_append, List.filter_append, List.length_append]
  refine Nat.add_le_add ?_ ?_
  · exact (((List.filter_sublist (l := s.entries)).filterMap _).filter _).length_le
  · exact Nat.le_trans (List.length_filter_le _ _) (List.length_filterMap_le _ _)

end Store

end DeferredOps
