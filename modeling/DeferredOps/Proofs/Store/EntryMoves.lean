import DeferredOps.Proofs.Store.Leaves
import DeferredOps.Proofs.Store.Transfer

/-!
# Moves of single entries

An entry that is no directory goes to a name in a directory: nothing is there, or a file that is
removed before. The entry is the same at its new place, and the store is the same everywhere else.
-/

namespace DeferredOps

open Action

namespace Store

/-- The entry at `source` is at `target`, and nothing else has changed. -/
structure EntryMoved (s : Store) (source target : Location) (s' : Store) : Prop where
  wellFormed : s'.WellFormed
  arrived : s'.entry? target = s.entry? source
  gone : s'.entry? source = none
  stays {l : Location} (hsource : l ≠ source) (htarget : l ≠ target) : s'.entry? l = s.entry? l
  current : s'.current = s.current

variable {s s' : Store} {p t : Path} {source target d d' : Location} {n n' : String} {e : Entry}

/-- Nothing that is no directory lies on the way to the current one. -/
theorem WellFormed.not_prefix_current (hs : s.WellFormed) (hentry : s.entry? source ≠ some .dir)
    (hthere : isRemoved source = false) : ¬ source <+: s.current := fun hpre ↦
  (hs.current source hpre).elim (fun hremoved ↦ by simp [hthere] at hremoved) hentry

theorem CanCarry.entryMoved (hs : s.WellFormed) (h : s.CanCarry source d n)
    (hentry : s.entry? source = some e) (hne : e ≠ .dir) (hfree : s.entry? (d ++ [n]) = none) :
    s.EntryMoved source (d ++ [n]) (s.carry source (d ++ [n])) := by
  have hnotDir : s.entry? source ≠ some .dir := fun heq ↦ hne (Option.some.inj (hentry.symm.trans heq))
  have hapart : ¬ d ++ [n] <+: source := not_prefix_of_free hs (by simp [hentry]) hfree
  refine ⟨hs.carry h, ?_, ?_, fun {l} hsource htarget ↦ ?_, ?_⟩
  · simpa using h.entry?_carry_append []
  · rw [h.entry?_carry, if_neg hapart, if_pos (List.prefix_refl _)]
  · by_cases hbelow : d ++ [n] <+: l
    · obtain ⟨rest, rfl⟩ := hbelow
      have hrest : rest ≠ [] := by
        rintro rfl
        simp at htarget
      rw [h.entry?_carry_append, hs.none_of_append hrest hnotDir,
        hs.none_of_append hrest (by simp [hfree])]
    · by_cases hbelow' : source <+: l
      · rw [h.entry?_carry, if_neg hbelow, if_pos hbelow',
          hs.none_of_prefix hbelow' hsource hnotDir]
      · exact h.entry?_carry_apart hbelow hbelow'
  · have hmarked : markRemoved (· = d ++ [n]) [] s.current = s.current := by
      refine markRemoved_eq_self fun q hq _ ↦ ?_
      rw [List.nil_append, decide_eq_false_iff_not]
      rintro rfl
      exact hs.not_prefix_current (by simp [hfree])
        (by simp [isRemoved_concat, h.isName.ne_empty]) hq
    change relocated source (d ++ [n]) (markRemoved (· = d ++ [n]) [] s.current) = _
    rw [hmarked, relocated, if_neg]
    rw [List.isPrefixOf_iff_prefix]
    exact hs.not_prefix_current hnotDir (hs.not_isRemoved hentry)

/-- An entry that is no directory is renamed to a free name. -/
theorem rename_of_slots (hs : s.WellFormed) (hsource : s.slot p = .ok (.name d n))
    (htarget : s.slot t = .ok (.name d' n')) (hname : IsName n')
    (hentry : s.entry? (d ++ [n]) = some e) (hne : e ≠ .dir) (hfree : s.entry? (d' ++ [n']) = none) :
    ∃ s', s.rename p t = .ok s' ∧ s.EntryMoved (d ++ [n]) (d' ++ [n']) s' := by
  have hnotDir : s.entry? (d ++ [n]) ≠ some .dir :=
    fun heq ↦ hne (Option.some.inj (hentry.symm.trans heq))
  have hdir := dir_of_slot hs htarget
  have hapart : ¬ d ++ [n] <+: d' ++ [n'] := by
    intro hpre
    rcases List.prefix_concat_iff.mp hpre with heq | hpre
    · rw [heq, hfree] at hentry
      cases hentry
    · exact hnotDir (hs.dir_of_prefix hdir hpre)
  have hcan : s.CanCarry (d ++ [n]) d' n' :=
    ⟨by simp, by simp [hentry], hdir, hname, hapart,
      fun l hl hl' ↦ hs.none_of_prefix hl hl' (by simp [hfree])⟩
  obtain ⟨s', hrename⟩ := exists_rename hs hsource htarget hentry hfree hapart
  refine ⟨s', hrename, ?_⟩
  obtain ⟨_, _, _, _, hslot, hslot', hcarry⟩ := rename_ok hrename
  cases hsource.symm.trans hslot
  cases htarget.symm.trans hslot'
  rcases carryChecked_ok hs (by simp) hdir hname hcarry with ⟨-, _, old, -, hold, -⟩ | ⟨-, rfl, -⟩
  · cases hfree.symm.trans hold
  · exact hcan.entryMoved hs hentry hne hfree

/-- The place of a path is found where it was as long as only leaves are missing. -/
theorem slot_of_leaves (h : s.slot p = .ok (.name d n))
    (hkept : ∀ l e, s.entry? l = some e → s.Leaf l ∨ s'.entry? l = some e)
    (hcurrent : s'.current = s.current) : s'.slot p = .ok (.name d n) := by
  obtain ⟨hshort, front, hparts, hway, hname⟩ := slot_eq_name_iff.mp h
  refine slot_eq_name_iff.mpr ⟨hshort, front, hparts, ?_, hname⟩
  rw [start_of_current (.inr hcurrent)]
  exact hway.of_leaves hkept

end Store

namespace StoreAction

open Store

variable {s : Store} {p t : Path} {d d' : Location} {n n' : String} {e : Entry}

/-- An entry that is no directory takes a place where nothing is, or the place of a file. -/
theorem exists_run_replace (hs : s.WellFormed) (hp : p.hasNul = false) (ht : t.hasNul = false)
    (hsource : s.slot p = .ok (.name d n)) (htarget : s.slot t = .ok (.name d' n'))
    (hname : IsName n') (hdistinct : d ++ [n] ≠ d' ++ [n']) (hentry : s.entry? (d ++ [n]) = some e)
    (hne : e ≠ .dir)
    (hold : ∀ old, s.entry? (d' ++ [n']) = some old → s.Leaf (d' ++ [n'])) :
    ∃ s₁ s', (unlinkIfThere t).run s = (.ok (), s₁) ∧ (moveEntry p t).run s₁ = (.ok (), s') ∧
      s.EntryMoved (d ++ [n]) (d' ++ [n']) s' := by
  cases hthere : s.entry? (d' ++ [n']) with
  | none =>
    obtain ⟨s', hrename, hmoved⟩ := rename_of_slots hs hsource htarget hname hentry hne hthere
    refine ⟨s, s', ?_, run_moveEntry_of_renamed hp ht hrename, hmoved⟩
    rw [run_unlinkIfThere, ht]
    simp [Store.unlink, htarget, hthere, bind, Except.bind]
  | some old =>
    have hleaf := hold old hthere
    obtain ⟨_, heq, hold⟩ := hleaf.exists_entry
    cases hthere.symm.trans heq
    let s₁ := s.erase (d' ++ [n'])
    have hwithout : s.Without (· = d' ++ [n']) s₁ := without_erase hs (by simp) fun below ↦
      hs.none_of_append (by simp) fun heq ↦ hold (Option.some.inj (hthere.symm.trans heq))
    have hcurrent : s₁.current = s.current := hs.current_erase hthere hold
    have hkept (l : Location) (e : Entry) (hl : s.entry? l = some e) :
        s.Leaf l ∨ s₁.entry? l = some e := by
      by_cases hgone : l = d' ++ [n']
      · exact .inl (hgone ▸ hleaf)
      · exact .inr ((hwithout.stays hgone).trans hl)
    obtain ⟨s', hrename, hmoved⟩ := rename_of_slots hwithout.wellFormed
      (slot_of_leaves hsource hkept hcurrent) (slot_of_leaves htarget hkept hcurrent) hname
      ((hwithout.stays hdistinct).trans hentry) hne (hwithout.removed rfl)
    have hunlink : s.unlink t = .ok s₁ :=
      unlink_eq_ok_iff.mpr ⟨d', n', old, htarget, hthere, hold, rfl⟩
    refine ⟨s₁, s', ?_, run_moveEntry_of_renamed hp ht hrename, hmoved.wellFormed, ?_, hmoved.gone,
      fun hl hl' ↦ (hmoved.stays hl hl').trans (hwithout.stays hl'), hmoved.current.trans hcurrent⟩
    · rw [run_unlinkIfThere, ht, hunlink]
      rfl
    · rw [hmoved.arrived, hwithout.stays hdistinct]

end StoreAction

end DeferredOps
