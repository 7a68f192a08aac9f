import DeferredOps.Proofs.Store.Mirroring

/-!
# Entries that go somewhere else

An entry that is moved to a clear place goes there with everything below it. If the place lies in a
directory it is the same entry under another name. Otherwise a directory is copied, with new numbers
for its files, once the missing directories have been made, and then removed.
-/

namespace DeferredOps

open Action

namespace Store

variable {s s' s'' : Store} {p t : Path} {origin target directory location l : Location}
  {name : String}

/-- What stood at and below `origin` stands at and below `target`, the directories on the way there
have been made, and all else is as it was. -/
structure Relocated (s : Store) (origin target : Location) (s' : Store) : Prop where
  wellFormed : s'.WellFormed
  linkFree : s'.LinkFree
  arrived (rest : List String) : s'.form? (target ++ rest) = s.form? (origin ++ rest)
  gone {l : Location} (h : origin <+: l) : s'.entry? l = none
  stays {l : Location} (h : ¬ origin <+: l) (h' : ¬ target <+: l) :
    s'.entry? l = if l <+: target then some .dir else s.entry? l
  same (h : s.entry? target.dropLast = some .dir) (rest : List String) :
    s'.entry? (target ++ rest) = s.entry? (origin ++ rest)

/-- Of two places of which neither lies in the other, what lies in one does not lie in the other. -/
theorem not_prefix_append {l l' : Location} (h : ¬ l <+: l') (h' : ¬ l' <+: l) (rest : List String) :
    ¬ l <+: l' ++ rest :=
  fun hpre ↦ (List.prefix_or_prefix_of_prefix hpre (List.prefix_append l' rest)).elim h h'

/-- An entry is renamed to a free name in a directory. -/
theorem Portable.rename (h : s.Portable p origin t (directory ++ [name]))
    (hdir : s.entry? directory = some .dir) :
    s.rename p t = .ok (s.carry origin (directory ++ [name])) ∧
      s.CanCarry origin directory name := by
  have hs := h.wellFormed
  have hname := h.destination.isName_last h.destinationNamed
  have hsourceNot := (h.not_prefix []).1
  rw [List.append_nil] at hsourceNot
  obtain ⟨d, n, rfl⟩ := h.source.exists_concat h.sourceNamed
  obtain ⟨entry, hentry⟩ := Option.ne_none_iff_exists'.mp h.there
  have hslot := h.source.slot hs h.sourceNamed (hs.parent hentry)
  have hslot' := h.destination.slot hs h.destinationNamed hdir
  have hbelow : isStrictlyBelow (directory ++ [name]) (d ++ [n]) = false := by
    simpa [isStrictlyBelow] using fun hpre ↦ absurd hpre h.apart
  have habove : isStrictlyBelow (d ++ [n]) (directory ++ [name]) = false := by
    simpa [isStrictlyBelow] using fun hpre ↦ absurd hpre hsourceNot
  refine ⟨?_, by simp, by simp [hentry], hdir, hname, h.apart, fun l hpre hne ↦ ?_⟩
  · simp [Store.rename, hslot, hslot', bind, Except.bind, carryChecked, hentry, hbelow, habove,
      h.clear.vacant]
  · exact hs.none_of_prefix hpre hne (by simp [h.clear.vacant])

theorem Portable.relocated_carry (h : s.Portable p origin t (directory ++ [name]))
    (hfree : s.LinkFree) (hdir : s.entry? directory = some .dir) :
    s.Relocated origin (directory ++ [name]) (s.carry origin (directory ++ [name])) := by
  obtain ⟨hrename, hcan⟩ := h.rename hdir
  have hs := h.wellFormed
  have hproper := h.destination.proper
  have harrived := hcan.entry?_carry_append
  refine ⟨hs.rename hproper h.destination.hasNul hrename,
    hfree.rename hs hproper h.destination.hasNul hrename,
    fun rest ↦ form?_eq_of_entry?_eq (harrived rest), fun {l} hl ↦ ?_, fun {l} hl hl' ↦ ?_,
    fun _ ↦ harrived⟩
  · rw [hcan.entry?_carry, if_neg, if_pos hl]
    intro hpre
    obtain ⟨rest, rfl⟩ := hl
    exact (h.not_prefix rest).1 hpre
  · rw [hcan.entry?_carry_apart hl' hl]
    split
    · next hpre =>
      rcases List.prefix_concat_iff.mp hpre with rfl | hpre
      · exact absurd (List.prefix_refl _) hl'
      · exact hs.dir_of_prefix hdir hpre
    · rfl

/-- What has been copied and then removed has gone to the place of the copy. -/
theorem Mirrored.relocated (h : s.Mirrored origin target s') (hportable : s.Portable p origin t target)
    (hfree : s.LinkFree) (hparent : s.entry? target.dropLast ≠ some .dir)
    (hwithout : s'.Without (origin <+: ·) s'') :
    s.Relocated origin target s'' where
  wellFormed := hwithout.wellFormed
  linkFree := hwithout.linkFree (h.linkFree hfree)
  arrived rest := by
    have habove := (hportable.not_prefix []).1
    rw [List.append_nil] at habove
    rw [form?_eq_of_entry?_eq (hwithout.stays (not_prefix_append hportable.apart habove rest)),
      h.copied]
  gone hl := hwithout.removed hl
  stays hl hl' := by rw [hwithout.stays hl, h.stays hl']
  same hdir := absurd hdir hparent

/-- What stood at the place before is replaced. -/
theorem Relocated.of_without (h : s'.Relocated origin target s'') (hapart : ¬ origin <+: target)
    (habove : ¬ target <+: origin) (hwithout : s.Without (target <+: ·) s')
    (htarget : target ≠ []) : s.Relocated origin target s'' where
  wellFormed := h.wellFormed
  linkFree := h.linkFree
  arrived rest := by
    rw [h.arrived, form?_eq_of_entry?_eq (hwithout.stays (not_prefix_append habove hapart rest))]
  gone := h.gone
  stays hl hl' := by rw [h.stays hl hl', hwithout.stays hl']
  same hdir rest := by
    have hparent : ¬ target <+: target.dropLast := fun hpre ↦ by
      have hlength := hpre.length_le
      have hpositive := List.length_pos_iff.mpr htarget
      rw [List.length_dropLast] at hlength
      omega
    rw [h.same (by rw [hwithout.stays hparent, hdir]),
      hwithout.stays (not_prefix_append habove hapart rest)]

end Store

namespace StoreAction

open Store

variable {s : Store} {p t : Path} {origin target : Location}

theorem run_absolute (h : s.Anchored p) : (absolute p).run s = (.ok (s.absolutePath p), s) := by
  unfold absolute absolutePath
  split
  · rfl
  · next hrelative =>
    have hremoved := h.resolve_left hrelative
    unfold currentDirectory
    rw [run_bind, run_bind, run_get]
    simp [hremoved]

/-- A place that does not lie in a directory is seen not to. -/
theorem run_liesWithin_of_apart (hs : s.WellFormed) (hp : s.Anchored p) (ht : s.Anchored t)
    (hapart : ¬ s.place p <+: s.place t) : (liesWithin t p).run s = (.ok false, s) := by
  have hanswer : (s.absolutePath p).parts.isPrefixOf (s.absolutePath t).parts = false := by
    rwa [absolutePath_eq hs hp, absolutePath_eq hs ht, ← Bool.not_eq_true,
      List.isPrefixOf_iff_prefix]
  unfold liesWithin
  simp only [run_bind, run_absolute hp, run_absolute ht, run_pure]
  refine congrArg (fun within ↦ (Except.ok within, s)) ?_
  rw [hanswer, Bool.and_false]

/-- A directory whose place has no parent yet is copied there and removed. -/
theorem run_moveByCopy_of_spells (h : s.Copyable p origin t target) (hfree : s.LinkFree)
    (hdir : s.entry? origin = some .dir) (hparent : s.entry? target.dropLast ≠ some .dir) :
    ∃ s', (moveByCopy p t).run s = (.ok (), s') ∧ s.Relocated origin target s' := by
  have hs := h.wellFormed
  have hanchored {q : Path} {l : Location} (hq : s.Spells q l) : s.Anchored q := by
    have hstart := hs.not_isRemoved hq.start
    unfold Anchored
    unfold Store.start at hstart
    split at hstart
    · next habsolute => exact .inl habsolute
    · exact .inr hstart
  have hwithin := run_liesWithin_of_apart hs (hanchored h.source) (hanchored h.destination)
    (by rw [h.source.place, h.destination.place]; exact h.apart)
  have hkept : s.entryAt .kept p = .ok (some (origin, .dir)) := by
    rw [h.source.entryAt hs (.of_entry hs hdir rfl), hdir]
    rfl
  have hisDirectory : s.isDirectory p = .ok true := by
    rw [h.source.isDirectory hs (.of_entry hs hdir rfl), hdir]
    rfl
  have hcopy := ensures_copyTree_of_spells h hdir s rfl
  rcases hrun : (copyTree p t).run s with ⟨f | ⟨⟩, made⟩ <;> rw [hrun] at hcopy
  · exact hcopy.elim
  have hnot := h.not_prefix []
  rw [List.append_nil] at hnot
  have hspells : made.Spells p origin := by
    refine h.source.of_kept hcopy.current ?_
    rw [hcopy.stays fun hpre ↦ hnot.1 (hpre.trans h.source.prefix_location), h.source.start]
    split <;> rfl
  obtain ⟨s', hremove, hwithout, -⟩ := run_removeTree_of_spells hspells hcopy.wellFormed
    h.sourceNamed (by rw [hcopy.stays hnot.1, if_neg hnot.2, hdir])
  refine ⟨s', ?_, hcopy.relocated h.toPortable hfree hparent hwithout⟩
  unfold moveByCopy
  simp only [run_bind, run_get, hkept, hisDirectory, cautious, if_true, hwithin, hrun, hremove,
    Bool.false_eq_true, if_false]

/-- An entry is moved to a free name in a directory. -/
theorem run_moveEntry_of_parent {directory : Location} {name : String}
    (h : s.Portable p origin t (directory ++ [name])) (hdir : s.entry? directory = some .dir) :
    (moveEntry p t).run s = (.ok (), s.carry origin (directory ++ [name])) := by
  unfold moveEntry
  simp only [h.source.hasNul, h.destination.hasNul, Bool.or_self, Bool.false_eq_true, if_false, run_bind,
    run_get, (h.rename hdir).1]
  rfl

/-- A directory is moved to a clear place. -/
theorem run_moveEntry_of_spells (h : s.Portable p origin t target) (hfree : s.LinkFree)
    (hdir : s.entry? origin = some .dir)
    (hreach : s.entry? target.dropLast ≠ some .dir → s.Copyable p origin t target) :
    ∃ s', (moveEntry p t).run s = (.ok (), s') ∧ s.Relocated origin target s' := by
  obtain ⟨directory, name, rfl⟩ := h.destination.exists_concat h.destinationNamed
  by_cases hparent : s.entry? directory = some .dir
  · exact ⟨_, run_moveEntry_of_parent h hparent, h.relocated_carry hfree hparent⟩
  have hmissing : s.entry? (directory ++ [name]).dropLast ≠ some .dir := by
    rwa [List.dropLast_concat]
  obtain ⟨s', hrun, hrelocated⟩ := run_moveByCopy_of_spells (hreach hmissing) hfree hdir hmissing
  refine ⟨s', ?_, hrelocated⟩
  unfold moveEntry
  simp only [h.source.hasNul, h.destination.hasNul, Bool.or_self, Bool.false_eq_true, if_false, run_bind,
    run_get]
  cases hrename : s.rename p t with
  | error e => exact hrun
  | ok made =>
    -- A rename asks for a directory to put the name in.
    obtain ⟨d, n, d', n', -, hslot, -⟩ := rename_ok hrename
    exact absurd (h.destination.dir_of_slot h.wellFormed hfree hslot) hparent

end StoreAction

end DeferredOps
