import DeferredOps.Proofs.Store.Agreement
import DeferredOps.Proofs.Store.Growth
import DeferredOps.Proofs.Store.Leaves

/-!
# Links to what has been taken away

When leaves of a directory are taken elsewhere, a way to a file either is there still or ends where one
of them was: a leaf is the last entry of every way over it. Which of the two it is depends on nothing
but the names of the leaves, and not on where they are now.
-/

namespace DeferredOps.Store

/-- The entries of a directory with these names are no longer there. -/
structure Taken (s : Store) (directory : Location) (names : List String) (s' : Store) : Prop where
  gone {name} (h : name ∈ names) : s'.entry? (directory ++ [name]) = none
  kept {l e} (h : s.entry? l = some e) (hl : ∀ name ∈ names, l ≠ directory ++ [name]) :
    s'.entry? l = some e
  current : s'.current = s.current

/-- The store without the entries of a directory with these names. -/
def withoutNames (s : Store) (directory : Location) (names : List String) : Store :=
  { s with entries := s.entries.filter fun e ↦ !names.any fun name ↦ e.1 = directory ++ [name] }

variable {s s' : Store} {links : ℕ} {directory place d l : Location} {p : Path} {name : String}
  {names taken : List String} {id : ℕ} {content : Bytes} {last : LastLink} {t : Target}

theorem entry?_withoutNames (hl : l ≠ []) : Store.entry? (s.withoutNames directory names) l =
    if ∃ name ∈ names, l = directory ++ [name] then none else s.entry? l := by
  have hlookup : Store.entry? (s.withoutNames directory names) l =
      if !names.any fun name ↦ l = directory ++ [name] then s.entry? l else none := by
    rw [entry?_of_ne_nil hl, entry?_of_ne_nil hl]
    exact lookup_filter_key s.entries fun key ↦ !names.any fun name ↦ key = directory ++ [name]
  rw [hlookup]
  by_cases hgone : ∃ name ∈ names, l = directory ++ [name]
  · rw [if_pos hgone, if_neg (by simpa using hgone)]
  · rw [if_neg hgone, if_pos (by simpa using hgone)]

theorem entry?_withoutNames_child :
    Store.entry? (s.withoutNames directory names) (directory ++ [name]) =
      if name ∈ names then none else s.entry? (directory ++ [name]) := by
  simp [entry?_withoutNames]

theorem entry?_of_withoutNames {e : Entry}
    (h : entry? (s.withoutNames directory names) l = some e) : s.entry? l = some e := by
  by_cases hnil : l = []
  · subst hnil
    exact h
  · rw [entry?_withoutNames hnil] at h
    split at h
    · cases h
    · exact h

theorem taken_withoutNames (s : Store) (directory : Location) (names : List String) :
    s.Taken directory names (s.withoutNames directory names) := by
  refine ⟨fun {name} hname ↦ ?_, fun {l e} h hl ↦ ?_, rfl⟩
  · rw [entry?_withoutNames_child, if_pos hname]
  · by_cases hnil : l = []
    · subst hnil
      exact h
    · rw [entry?_withoutNames hnil, if_neg (by simpa using hl)]
      exact h

@[simp]
theorem withoutNames_nil (s : Store) (directory : Location) : s.withoutNames directory [] = s := by
  simp [withoutNames]

/-- Only which names are taken away matters, and not their order. -/
theorem withoutNames_congr {other : List String} (h : ∀ name, name ∈ names ↔ name ∈ other) :
    s.withoutNames directory names = s.withoutNames directory other := by
  have hany (l : Location) : (names.any fun name ↦ l = directory ++ [name]) =
      other.any fun name ↦ l = directory ++ [name] := by
    rw [Bool.eq_iff_iff, List.any_eq_true, List.any_eq_true]
    simp only [h]
  simp only [withoutNames, hany]

/-- One more name is taken away from where the current directory is not. -/
theorem erase_withoutNames
    (hcurrent : ((s.withoutNames directory names).erase (directory ++ [name])).current = s.current) :
    (s.withoutNames directory names).erase (directory ++ [name]) =
      s.withoutNames directory (names ++ [name]) := by
  rw [withoutNames, Store.mk.injEq]
  refine ⟨?_, rfl, hcurrent, rfl⟩
  simp only [withoutNames, erase, discard, List.filter_filter]
  congr 1
  funext e
  simp [Bool.and_comm]

/-- A way to a file is there still, or ends where one of the leaves was. -/
theorem Leads.of_taken (hleaf : ∀ name ∈ taken, s.Leaf (directory ++ [name]))
    (h : s.Leads .followed links d names (.found place (.file id content))) :
    (∀ s', s.Taken directory taken s' →
      s'.Leads .followed links d names (.found place (.file id content))) ∨
    ∃ d' n, ∀ s', s.Taken directory taken s' → s'.Leads .followed links d names (.absent d' n) := by
  generalize hmode : LastLink.followed = mode at h
  generalize ht : Target.found place (.file id content) = t at h
  induction h with
  | done => cases ht
  | dot _ ih =>
    exact (ih hmode ht).imp (fun h s' htaken ↦ .dot (h s' htaken))
      fun ⟨d', n, h⟩ ↦ ⟨d', n, fun s' htaken ↦ .dot (h s' htaken)⟩
  | dotDot _ ih =>
    exact (ih hmode ht).imp (fun h s' htaken ↦ .dotDot (h s' htaken))
      fun ⟨d', n, h⟩ ↦ ⟨d', n, fun s' htaken ↦ .dotDot (h s' htaken)⟩
  | absent => cases ht
  | @enter _ _ d name _ _ hname hentry _ ih =>
    have hthere (s' : Store) (htaken : s.Taken directory taken s') :
        s'.entry? (d ++ [name]) = some .dir := by
      refine htaken.kept hentry fun other hmem heq ↦ ?_
      obtain ⟨entry, hleaf, hne⟩ := (hleaf other hmem).exists_entry
      cases (heq ▸ hentry).symm.trans hleaf
      exact hne rfl
    exact (ih hmode ht).imp (fun h s' htaken ↦ .enter hname (hthere s' htaken) (h s' htaken))
      fun ⟨d', n, h⟩ ↦ ⟨d', n, fun s' htaken ↦ .enter hname (hthere s' htaken) (h s' htaken)⟩
  | @file _ _ d name _ _ hname hentry =>
    cases ht
    by_cases hgone : ∃ other ∈ taken, d ++ [name] = directory ++ [other]
    · obtain ⟨other, hmem, heq⟩ := hgone
      exact .inr ⟨d, name, fun s' htaken ↦ .absent hname (heq ▸ htaken.gone hmem)⟩
    · exact .inl fun s' htaken ↦ .file hname (htaken.kept hentry fun other hmem heq ↦
        hgone ⟨other, hmem, heq⟩)
  | kept => cases ht
  | @follow _ _ d name rest text _ hname hentry hlast hwritten h ih =>
    subst hmode ht
    by_cases hgone : ∃ other ∈ taken, d ++ [name] = directory ++ [other]
    · obtain ⟨other, hmem, heq⟩ := hgone
      -- Names after a link lead on from a directory, and then the link is no leaf.
      have hrest : rest = [] := by
        by_contra hne
        obtain ⟨middle, k, -, hfront, -⟩ := h.split hne
        rw [← List.append_nil (linkNames text)] at hfront
        exact hfront.not_leaf hentry (heq ▸ hleaf other hmem)
      subst hrest
      exact .inr ⟨d, name, fun s' htaken ↦ .absent hname (heq ▸ htaken.gone hmem)⟩
    · have hthere (s' : Store) (htaken : s.Taken directory taken s') :
          s'.entry? (d ++ [name]) = some (.link text) :=
        htaken.kept hentry fun other hmem heq ↦ hgone ⟨other, hmem, heq⟩
      exact (ih rfl rfl).imp
        (fun h s' htaken ↦ .follow hname (hthere s' htaken) hlast hwritten (h s' htaken))
        fun ⟨d', n, h⟩ ↦ ⟨d', n, fun s' htaken ↦
          .follow hname (hthere s' htaken) hlast hwritten (h s' htaken)⟩

theorem leads_spelledChild_iff :
    s.Leads last links (s.start (p.spelledChild name)) (p.spelledChild name).parts t ↔
      s.Leads last links (s.start p) (p.child name).parts t := by
  unfold Path.spelledChild
  split
  · next hhere =>
    obtain ⟨-, hnil⟩ : p.anchor = .here ∧ p.parts = [] := by simpa using hhere
    change s.Leads _ _ (s.start p) ["." , name] t ↔ s.Leads _ _ (s.start p) (p.parts ++ [name]) t
    rw [hnil]
    exact leads_dot_iff
  · exact Iff.rfl

/-- Only leaves are missing where leaves have been taken. -/
theorem Taken.kept_or_leaf (h : s.Taken directory taken s')
    (hleaf : ∀ name ∈ taken, s.Leaf (directory ++ [name])) (l : Location) (e : Entry)
    (hentry : s.entry? l = some e) : s.Leaf l ∨ s'.entry? l = some e := by
  by_cases hgone : ∃ name ∈ taken, l = directory ++ [name]
  · obtain ⟨name, hmem, rfl⟩ := hgone
    exact .inl (hleaf name hmem)
  · exact .inr (h.kept hentry fun name hmem heq ↦ hgone ⟨name, hmem, heq⟩)

theorem Taken.entry_of_fresh {e : Entry} (h : s.Taken directory taken s') (hfresh : name ∉ taken)
    (hentry : s.entry? (directory ++ [name]) = some e) :
    s'.entry? (directory ++ [name]) = some e := by
  refine h.kept hentry fun other hmem heq ↦ hfresh ?_
  obtain rfl : name = other := by simpa using heq
  exact hmem

/-- A path has its last name in the directory where it was before leaves were taken. -/
theorem Taken.slot (h : s.Taken directory taken s')
    (hleaf : ∀ name ∈ taken, s.Leaf (directory ++ [name])) (hslot : s.slot p = .ok (.name d name)) :
    s'.slot p = .ok (.name d name) := by
  obtain ⟨hshort, front, hparts, hway, hname⟩ := slot_eq_name_iff.mp hslot
  have hstart : s'.start p = s.start p := start_of_current (.inr h.current)
  exact slot_eq_name_iff.mpr
    ⟨hshort, front, hparts, hstart ▸ hway.of_leaves (h.kept_or_leaf hleaf), hname⟩

/-- A name of a file in a directory from which leaves have been taken is that of a file still, or the
path of the name leads nowhere. -/
theorem namesFile_of_taken (hs : s.WellFormed)
    (hp : s.target .followed p = .ok (.found directory .dir)) (hclean : p.hasNul = false)
    (hleaf : ∀ name ∈ taken, s.Leaf (directory ++ [name])) (h : s.NamesFile p directory name)
    (hfresh : name ∉ taken) (hshort : (p.child name).text.utf8ByteSize < pathLimit) :
    (∀ s', s.Taken directory taken s' → s'.NamesFile p directory name ∧
      ∃ l id content, s'.entryAt .followed (p.child name) = .ok (some (l, .file id content))) ∨
    ∀ s', s.Taken directory taken s' → ¬ s'.NamesFile p directory name ∧
      s'.entryAt .followed (p.child name) = .ok none := by
  obtain ⟨entry, hentry, -⟩ := (leaf_of_namesFile hs hp h).exists_entry
  have hname := hs.name hentry
  have hcleanChild : (p.child name).hasNul = false := by
    rwa [Path.hasNul_child hname.isClean]
  have hstart {s' : Store} (htaken : s.Taken directory taken s') : s'.start p = s.start p :=
    start_of_current (.inr htaken.current)
  rcases h with ⟨id, content, hfile⟩ | ⟨text, place, id, content, hlink, htarget⟩
  · refine .inl fun s' htaken ↦ ?_
    have hthere := htaken.entry_of_fresh hfresh hfile
    have hslot := slot_child (target_of_leaves hp (htaken.kept_or_leaf hleaf) htaken.current)
      (hs.lookedUp (hs.parent hfile) hname) hshort
    exact ⟨.inl ⟨id, content, hthere⟩, _, id, content,
      entryAt_eq_some_iff.mpr ⟨hcleanChild, target_of_slot hslot hthere rfl⟩⟩
  · obtain ⟨hspelled, hleads⟩ := target_eq_ok_iff.mp htarget
    rcases (leads_spelledChild_iff.mp hleads).of_taken hleaf with hfound | ⟨d, n, habsent⟩
    · refine .inl fun s' htaken ↦ ?_
      have hway := hstart htaken ▸ hfound s' htaken
      exact ⟨.inr ⟨text, place, id, content, htaken.entry_of_fresh hfresh hlink,
          target_eq_ok_iff.mpr ⟨hspelled, leads_spelledChild_iff.mpr hway⟩⟩,
        place, id, content, entryAt_eq_some_iff.mpr ⟨hcleanChild, target_eq_ok_iff.mpr ⟨hshort, hway⟩⟩⟩
    · refine .inr fun s' htaken ↦ ⟨?_, ?_⟩
      all_goals have hway := hstart htaken ▸ habsent s' htaken
      · rintro (⟨id', content', hfile⟩ | ⟨text', place', id', content', -, htarget'⟩)
        · cases (htaken.entry_of_fresh hfresh hlink).symm.trans hfile
        · cases hway.unique (leads_spelledChild_iff.mp (target_eq_ok_iff.mp htarget').2)
      · rw [entryAt, hcleanChild, target_eq_ok_iff.mpr ⟨hshort, hway⟩]
        rfl

end DeferredOps.Store
