import DeferredOps.Proofs.Store.Removable

/-!
# Paths that share an entry

Two paths can share the entry under their last names, however they are spelled. More paths lead to the same
thing in the end: a symbolic link leads to what another name stands for, and a file can have several names.
-/

namespace DeferredOps.Store

variable {s s' : Store} {links : ℕ} {directory location : Location} {names : List String} {t : Target}
  {p q : Path} {last last' : LastLink} {entry entry' : Entry}

/-- The last names of two paths are the same name in the same directory. -/
def SameEntry (s : Store) (p q : Path) : Prop :=
  ∃ found, s.entryAt .kept p = .ok (some found) ∧ s.entryAt .kept q = .ok (some found)

/-- Two paths lead to the same place or to names of the same file. -/
inductive SameThing (s : Store) (p q : Path) : Prop
  | place {l e} (hp : s.entryAt .followed p = .ok (some (l, e)))
      (hq : s.entryAt .followed q = .ok (some (l, e)))
  | file {l l' id content content'} (hp : s.entryAt .followed p = .ok (some (l, .file id content)))
      (hq : s.entryAt .followed q = .ok (some (l', .file id content')))

/-- The last name of a path is that of a symbolic link. -/
def EndsAtLink (s : Store) (p : Path) : Prop :=
  ∃ l text, s.entryAt .kept p = .ok (some (l, .link text))

/-- A path that leads to a file leads to its only name. -/
def EndsAtOnlyName (s : Store) (p : Path) : Prop :=
  ∀ l id content, s.entryAt .followed p = .ok (some (l, .file id content)) →
    ∀ l' content', s.entry? l' = some (.file id content') → l' = l

theorem exists_entryAt_of_exists (h : s.exists? p = .ok true) :
    ∃ l e, s.entryAt .followed p = .ok (some (l, e)) := by
  unfold exists? at h
  rcases hentry : s.entryAt .followed p with f | _ | ⟨l, e⟩
  · simp [hentry, Except.map] at h
  · simp [hentry, Except.map, answers] at h
  · exact ⟨l, e, rfl⟩

theorem samePlace_eq_true_iff (hs : s.WellFormed) : s.samePlace p q = .ok true ↔ s.SameThing p q := by
  constructor
  · intro h
    unfold samePlace at h
    rcases hp : s.entryAt .followed p with f | _ | ⟨l, e⟩
    · simp [hp, bind, Except.bind] at h
    · simp [hp, bind, Except.bind, pure, Except.pure] at h
    rcases hq : s.entryAt .followed q with f | _ | ⟨l', e'⟩
    · simp [hp, hq, bind, Except.bind] at h
    · simp [hp, hq, bind, Except.bind, pure, Except.pure] at h
    have hsame : isSame (l, e) (l', e') = true := by
      simpa [hp, hq, bind, Except.bind, pure, Except.pure] using h
    by_cases hplace : l = l'
    · subst hplace
      obtain rfl := hs.eq_of_entryAt hp hq
      exact .place hp hq
    · cases e <;> cases e' <;> simp [isSame, hplace] at hsame
      subst hsame
      exact .file hp hq
  · rintro (⟨hp, hq⟩ | ⟨hp, hq⟩)
    · next l e =>
      rw [samePlace, hp, hq]
      cases e <;> simp [isSame, bind, Except.bind, pure, Except.pure]
    · simp [samePlace, hp, hq, isSame, bind, Except.bind, pure, Except.pure]

/-- What a path leads to beside a file is not changed by what is written to files. -/
theorem Rewritten.entryAt_iff (h : s.Rewritten s') (hfile : entry.isFile = false) :
    s'.entryAt last p = .ok (some (location, entry)) ↔ s.entryAt last p = .ok (some (location, entry)) := by
  rw [entryAt_eq_some_iff, entryAt_eq_some_iff, h.target_iff hfile]

theorem SameThing.exists_entryAt (h : s.SameThing p q) :
    (∃ found, s.entryAt .followed p = .ok (some found)) ∧
      ∃ found, s.entryAt .followed q = .ok (some found) := by
  rcases h with ⟨hp, hq⟩ | ⟨hp, hq⟩ <;> exact ⟨⟨_, hp⟩, _, hq⟩

/-- What leads to the same as a path to a directory leads to that directory. -/
theorem SameThing.entryAt_directory (h : s.SameThing p q)
    (hp : s.entryAt .followed p = .ok (some (location, .dir))) :
    s.entryAt .followed q = .ok (some (location, .dir)) := by
  rcases h with ⟨hp', hq⟩ | ⟨hp', -⟩
  · cases hp'.symm.trans hp
    exact hq
  · cases hp'.symm.trans hp

theorem Rewritten.sameThing_iff (h : s.Rewritten s')
    (hp : s.entryAt .followed p = .ok (some (location, .dir))) : s'.SameThing p q ↔ s.SameThing p q := by
  have hp' := (h.entryAt_iff rfl).mpr hp
  exact ⟨fun hsame ↦ .place hp ((h.entryAt_iff rfl).mp (hsame.entryAt_directory hp')),
    fun hsame ↦ .place hp' ((h.entryAt_iff rfl).mpr (hsame.entryAt_directory hp))⟩

/-- Names that are followed to their end do not lead to a symbolic link. -/
theorem Leads.not_link (h : s.Leads .followed links directory names (.found location entry)) :
    entry.isLink = false := by
  generalize hlast : LastLink.followed = last at h
  generalize ht : Target.found location entry = t at h
  induction h with
  | done | file =>
    cases ht
    rfl
  | dot _ ih | dotDot _ ih => exact ih hlast ht
  | enter _ _ _ ih => exact ih hlast ht
  | follow _ _ _ _ _ ih => exact ih hlast ht
  | absent => cases ht
  | kept => cases hlast

/-- Names that lead over a symbolic link at their end lead to the link itself when it is kept, and the text
of the link leads on from there. -/
theorem Leads.exists_kept_link (h : s.Leads .followed links directory names t) :
    ∃ t', s.Leads .kept links directory names t' ∧
      (t' = t ∨ ∃ l text more, t' = .found l (.link text) ∧
        s.Leads .followed more (linkStart text l.dropLast) (linkNames text) t) := by
  generalize hlast : LastLink.followed = last at h
  induction h with
  | done => exact ⟨_, .done, .inl rfl⟩
  | dot _ ih =>
    obtain ⟨t', hleads, hend⟩ := ih hlast
    exact ⟨t', .dot hleads, hend⟩
  | dotDot _ ih =>
    obtain ⟨t', hleads, hend⟩ := ih hlast
    exact ⟨t', .dotDot hleads, hend⟩
  | absent hname hentry => exact ⟨_, .absent hname hentry, .inl rfl⟩
  | enter hname hentry _ ih =>
    obtain ⟨t', hleads, hend⟩ := ih hlast
    exact ⟨t', .enter hname hentry hleads, hend⟩
  | file hname hentry => exact ⟨_, .file hname hentry, .inl rfl⟩
  | kept => cases hlast
  | @follow _ links _ _ rest text _ hname hentry _ _ h ih =>
    by_cases hrest : rest = []
    · subst hrest hlast
      refine ⟨_, .kept hname hentry, .inr ⟨_, text, links, rfl, ?_⟩⟩
      simpa using h
    · obtain ⟨t', hleads, hend⟩ := ih hlast
      exact ⟨t', .follow hname hentry (.inl hrest) (.inl hrest) hleads, hend⟩

/-- A path that leads somewhere has a last entry. It is what the path leads to, or a link to it. -/
theorem exists_entryAt_kept_link (h : s.entryAt .followed p = .ok (some (location, entry))) :
    ∃ l e, s.entryAt .kept p = .ok (some (l, e)) ∧
      ((l, e) = (location, entry) ∨ ∃ text more, e = .link text ∧
        s.Leads .followed more (linkStart text l.dropLast) (linkNames text) (.found location entry)) := by
  obtain ⟨hnul, htarget⟩ := entryAt_eq_some_iff.mp h
  obtain ⟨hshort, hleads⟩ := target_eq_ok_iff.mp htarget
  obtain ⟨t', hkept, rfl | ⟨l, text, more, rfl, hlink⟩⟩ := hleads.exists_kept_link
  · exact ⟨location, entry, entryAt_eq_some_iff.mpr ⟨hnul, target_eq_ok_iff.mpr ⟨hshort, hkept⟩⟩,
      .inl rfl⟩
  · exact ⟨l, _, entryAt_eq_some_iff.mpr ⟨hnul, target_eq_ok_iff.mpr ⟨hshort, hkept⟩⟩,
      .inr ⟨text, more, rfl, hlink⟩⟩

/-- Paths that share their last entry lead to the same, if they lead anywhere. -/
theorem SameEntry.sameThing (h : s.SameEntry p q) (hp : s.exists? p = .ok true)
    (hq : s.exists? q = .ok true) : s.SameThing p q := by
  obtain ⟨⟨l, e⟩, hkept, hkept'⟩ := h
  by_cases hlink : e.isLink = false
  · exact .place (entryAt_followed_of_kept hkept hlink) (entryAt_followed_of_kept hkept' hlink)
  -- Both paths go on with the text of the one link.
  have hleads {p : Path} (hkept : s.entryAt .kept p = .ok (some (l, e))) (hp : s.exists? p = .ok true) :
      ∃ l' e' text more, s.entryAt .followed p = .ok (some (l', e')) ∧ e = .link text ∧
        s.Leads .followed more (linkStart text l.dropLast) (linkNames text) (.found l' e') := by
    obtain ⟨l', e', hfound⟩ := exists_entryAt_of_exists hp
    obtain ⟨l₁, e₁, hfirst, hend⟩ := exists_entryAt_kept_link hfound
    obtain ⟨rfl, rfl⟩ : l₁ = l ∧ e₁ = e := by simpa using hfirst.symm.trans hkept
    rcases hend with heq | ⟨text, more, htext, hleads⟩
    · cases heq
      exact absurd (target_eq_ok_iff.mp (entryAt_eq_some_iff.mp hfound).2).2.not_link hlink
    · exact ⟨l', e', text, more, hfound, htext, hleads⟩
  obtain ⟨l₁, e₁, text, more, hfound, rfl, hfirst⟩ := hleads hkept hp
  obtain ⟨l₂, e₂, text', more', hfound', htext, hsecond⟩ := hleads hkept' hq
  cases htext
  cases (hfirst.mono (Nat.le_max_left more more')).unique (hsecond.mono (Nat.le_max_right more more'))
  exact .place hfound hfound'

/-- Paths that lead to the same share their last entry if this is no symbolic link and the file, if it is
one, has no other name. -/
theorem SameThing.sameEntry (h : s.SameThing p q) (hp : ¬ s.EndsAtLink p) (hq : ¬ s.EndsAtLink q)
    (hname : s.EndsAtOnlyName p) (hs : s.WellFormed) : s.SameEntry p q := by
  have hkept {p : Path} {l : Location} {e : Entry} (hp : ¬ s.EndsAtLink p)
      (hfound : s.entryAt .followed p = .ok (some (l, e))) : s.entryAt .kept p = .ok (some (l, e)) := by
    obtain ⟨l', e', hlast, hend⟩ := exists_entryAt_kept_link hfound
    rcases hend with heq | ⟨text, more, rfl, -⟩
    · cases heq
      exact hlast
    · exact absurd ⟨l', text, hlast⟩ hp
  rcases h with ⟨hfound, hfound'⟩ | ⟨hfound, hfound'⟩
  · exact ⟨_, hkept hp hfound, hkept hq hfound'⟩
  · have hthere := (sound_of_target hs (entryAt_eq_some_iff.mp hfound').2).resolve_right (by simp)
    obtain rfl := hname _ _ _ hfound _ _ hthere
    cases hs.eq_of_entryAt hfound hfound'
    exact ⟨_, hkept hp hfound, hkept hq hfound'⟩

end DeferredOps.Store
