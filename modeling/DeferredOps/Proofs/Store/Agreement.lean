import DeferredOps.Proofs.Store.Moves

/-!
# Paths in changing stores

Two stores that agree wherever both have an entry lead a path to one place, if both lead it
anywhere. So a path means the same before and after directories have been made or entries have been
removed, also where the current directory was one of these.
-/

namespace DeferredOps

open Action

namespace Store

variable {s s' : Store} {gone : Location → Bool} {last : LastLink} {links links' : ℕ}
  {directory directory' location location' : Location} {name : String} {names rest : List String}
  {entry entry' : Entry} {p : Path}

/-! ## Marked locations -/

theorem dropLast_markRemoved (gone : Location → Bool) (l : Location) :
    (markRemoved gone [] l).dropLast = markRemoved gone [] l.dropLast := by
  rcases List.eq_nil_or_concat l with rfl | ⟨front, name, rfl⟩
  · rfl
  · rw [List.concat_eq_append, markRemoved_concat, List.dropLast_concat, List.dropLast_concat]

/-- A directory that is not marked as removed is on no way through one that is. -/
theorem markRemoved_eq_of_not_isRemoved (hs : s.WellFormed) (hgone : s.ClosedBelow gone)
    (hd : s.Standing directory) (h : isRemoved (markRemoved gone [] directory) = false) :
    markRemoved gone [] directory = directory := by
  refine markRemoved_eq_self fun q hq hne ↦ ?_
  rw [List.nil_append]
  by_contra hmarked
  have hmarked : gone q := by simpa using hmarked
  obtain ⟨front, n, rfl⟩ : ∃ front n, directory = front ++ [n] := by
    rcases List.eq_nil_or_concat directory with rfl | ⟨front, n, rfl⟩
    · exact absurd (List.prefix_nil.mp hq) hne
    · exact ⟨front, n, by simp⟩
  rw [markRemoved_concat, isRemoved_concat, List.nil_append, decide_eq_false_iff_not] at h
  have hkept : gone (front ++ [n]) = false := by
    by_contra hlast
    simp [hlast] at h
  have hdir : s.entry? (front ++ [n]) = some .dir := by
    refine hd.entry? ?_
    simpa [hkept] using h
  obtain ⟨rest, hrest⟩ := hq
  rw [← hrest] at hdir hkept
  simp [hgone.append hs hdir hmarked] at hkept

/-! ## Agreement -/

/-- Wherever two stores both have an entry, it is the same. -/
def Agrees (s s' : Store) : Prop :=
  ∀ l e e', s.entry? l = some e → s'.entry? l = some e' → e' = e

/-- One location is another one, or its marked form. -/
def MaybeMarked (gone : Location → Bool) (location marked : Location) : Prop :=
  marked = location ∨ marked = markRemoved gone [] location

theorem MaybeMarked.dropLast (h : MaybeMarked gone location location') :
    MaybeMarked gone location.dropLast location'.dropLast := by
  rcases h with rfl | rfl
  · exact .inl rfl
  · exact .inr (dropLast_markRemoved gone location)

theorem MaybeMarked.eq (hs : s.WellFormed) (hgone : s.ClosedBelow gone)
    (hd : s.Standing directory) (h : MaybeMarked gone directory directory')
    (hthere : isRemoved directory' = false) : directory' = directory := by
  rcases h with rfl | rfl
  · rfl
  · exact markRemoved_eq_of_not_isRemoved hs hgone hd hthere

/-! ### First names -/

theorem leads_dot_iff {t : Target} :
    s.Leads last links directory ("." :: rest) t ↔ s.Leads last links directory rest t := by
  rw [← walk_eq_ok_iff, walk_dot, walk_eq_ok_iff]

theorem leads_dotDot_iff {t : Target} :
    s.Leads last links directory (".." :: rest) t ↔
      s.Leads last links directory.dropLast rest t := by
  rw [← walk_eq_ok_iff, walk_dotDot, walk_eq_ok_iff]

/-- A name that leads on is that of a directory, the last one, or that of a symbolic link. -/
theorem Leads.found_cons
    (h : s.Leads last links directory (name :: rest) (.found location entry))
    (hdot : name ≠ ".") (hdotDot : name ≠ "..") :
    LookedUp directory name ∧
      ((s.entry? (directory ++ [name]) = some .dir ∧
          s.Leads last links (directory ++ [name]) rest (.found location entry)) ∨
        (s.entry? (directory ++ [name]) = some entry ∧ entry ≠ .dir ∧
          location = directory ++ [name] ∧ rest = [] ∧ (entry.isLink → last = .kept)) ∨
        ∃ text k, links = k + 1 ∧ s.entry? (directory ++ [name]) = some (.link text) ∧
          (rest ≠ [] ∨ last ≠ .kept) ∧
          s.Leads last k (linkStart text directory) (linkNames text ++ rest)
            (.found location entry)) := by
  generalize hnames : name :: rest = names at h
  cases h with
  | done => cases hnames
  | dot =>
    cases hnames
    exact absurd rfl hdot
  | dotDot =>
    cases hnames
    exact absurd rfl hdotDot
  | enter hname hentry h =>
    cases hnames
    exact ⟨hname, .inl ⟨hentry, h⟩⟩
  | file hname hentry =>
    cases hnames
    exact ⟨hname, .inr (.inl ⟨hentry, by simp, rfl, rfl, by simp [Entry.isLink]⟩)⟩
  | kept hname hentry =>
    cases hnames
    exact ⟨hname, .inr (.inl ⟨hentry, by simp, rfl, rfl, fun _ ↦ rfl⟩)⟩
  | follow hname hentry hkept _ h =>
    cases hnames
    exact ⟨hname, .inr (.inr ⟨_, _, rfl, hentry, hkept, h⟩)⟩

/-- Stores that agree lead names from one place to one place. -/
theorem Leads.agree (hs : s.WellFormed) (hgone : s.ClosedBelow gone) (hagrees : s.Agrees s')
    (h : s.Leads last links directory names (.found location entry))
    (h' : s'.Leads last links' directory' names (.found location' entry'))
    (hd : s.Standing directory) (hmarked : MaybeMarked gone directory directory')
    (hthere : isRemoved location' = false) : location' = location := by
  generalize ht : Target.found location entry = t at h
  induction h generalizing directory' links' with
  | done =>
    cases ht
    cases h'
    exact hmarked.eq hs hgone hd hthere
  | dot _ ih => exact ih (leads_dot_iff.mp h') hd hmarked ht
  | dotDot _ ih => exact ih (leads_dotDot_iff.mp h') hd.dropLast hmarked.dropLast ht
  | absent => cases ht
  | enter hname hentry _ ih =>
    obtain ⟨hname', hcases⟩ := h'.found_cons hname.ne_dot hname.ne_dotDot
    obtain rfl := hmarked.eq hs hgone hd hname'.there
    rcases hcases with ⟨-, hrest⟩ | ⟨hentry', hne, -⟩ | ⟨text, k, -, hentry', -⟩
    · exact ih hrest (hs.standing_of_dir hentry) (.inl rfl) ht
    · exact absurd (hagrees _ _ _ hentry hentry') hne
    · cases hagrees _ _ _ hentry hentry'
  | file hname hentry =>
    obtain ⟨hname', hcases⟩ := h'.found_cons hname.ne_dot hname.ne_dotDot
    obtain rfl := hmarked.eq hs hgone hd hname'.there
    cases ht
    rcases hcases with ⟨hentry', -⟩ | ⟨-, -, hl, -⟩ | ⟨text, k, -, hentry', -⟩
    · cases hagrees _ _ _ hentry hentry'
    · exact hl
    · cases hagrees _ _ _ hentry hentry'
  | kept hname hentry =>
    obtain ⟨hname', hcases⟩ := h'.found_cons hname.ne_dot hname.ne_dotDot
    obtain rfl := hmarked.eq hs hgone hd hname'.there
    cases ht
    rcases hcases with ⟨hentry', -⟩ | ⟨-, -, hl, -⟩ | ⟨text, k, -, -, hkept, -⟩
    · cases hagrees _ _ _ hentry hentry'
    · exact hl
    · simp at hkept
  | follow hname hentry hkept _ _ ih =>
    obtain ⟨hname', hcases⟩ := h'.found_cons hname.ne_dot hname.ne_dotDot
    obtain rfl := hmarked.eq hs hgone hd hname'.there
    rcases hcases with ⟨hentry', -⟩ | ⟨hentry', -, -, hrest, hlast⟩ | ⟨text, k, -, hentry', -, hrest⟩
    · cases hagrees _ _ _ hentry hentry'
    · obtain rfl := hagrees _ _ _ hentry hentry'
      exact absurd (hlast rfl) (hkept.resolve_left (by simp [hrest]))
    · cases hagrees _ _ _ hentry hentry'
      exact ih hrest (standing_linkStart hd _) (.inl rfl) ht

theorem MaybeMarked.start (h : MaybeMarked gone s.current s'.current) (p : Path) :
    MaybeMarked gone (s.start p) (s'.start p) := by
  unfold Store.start
  split
  · exact .inl rfl
  · exact h

/-! ## Named places -/

/-- The path leads to a name in a directory, whatever stands there. -/
structure Lies (s : Store) (p : Path) (directory : Location) (name : String) : Prop where
  leads : ∃ front, p.parts = front ++ [name] ∧
    s.Leads .followed linkLimit (s.start p) front (.found directory .dir)
  lookedUp : LookedUp directory name

theorem lies_of_slot (h : s.slot p = .ok (.name directory name)) : s.Lies p directory name := by
  obtain ⟨-, front, hparts, hfront, hname⟩ := slot_eq_name_iff.mp h
  exact ⟨⟨front, hparts, hfront⟩, hname⟩

theorem Free.lies (h : s.Free p directory name) (hs : s.WellFormed) : s.Lies p directory name :=
  ⟨h.leads, hs.lookedUp h.dir h.isName⟩

theorem Lies.unique {d : Location} {n : String} (h : s.Lies p directory name) (h' : s.Lies p d n) :
    d = directory ∧ n = name := by
  obtain ⟨front, hparts, hfront⟩ := h.leads
  obtain ⟨front', hparts', hfront'⟩ := h'.leads
  obtain ⟨rfl, hlast⟩ := List.append_inj' (hparts.symm.trans hparts') rfl
  have hsame := hfront'.unique hfront
  exact ⟨by simpa using hsame, by simpa using hlast.symm⟩

/-- The path names the location: it lies there once the missing directories on its way are made. -/
def Names (s : Store) (p : Path) (location : Location) : Prop :=
  ∃ made d n, made.WellFormed ∧ s.GrowsDirs made ∧ made.Lies p d n ∧ location = d ++ [n]

theorem names_of_lies (h : s.Lies p directory name) (hs : s.WellFormed) :
    s.Names p (directory ++ [name]) :=
  ⟨s, directory, name, hs, .refl s, h, rfl⟩

theorem closedBelow_false : s.ClosedBelow fun _ ↦ false :=
  fun _ h ↦ by simp at h

theorem agrees_of_growsDirs {made made' : Store} (h : s.GrowsDirs made) (h' : s.GrowsDirs made') :
    made.Agrees made' := by
  intro l e e' he he'
  rcases h.added he with hold | hnew
  · exact Option.some.inj (he'.symm.trans (h'.kept hold))
  rcases h'.added he' with hold | hnew'
  · exact (Option.some.inj (he.symm.trans (h.kept hold))).symm
  · rw [hnew, hnew']

/-- Stores that agree let a path lie at one place. -/
theorem Lies.agree {d : Location} {n : String} (hs : s.WellFormed) (hgone : s.ClosedBelow gone)
    (hagrees : s.Agrees s') (hcurrent : MaybeMarked gone s.current s'.current)
    (h : s.Lies p directory name) (h' : s'.Lies p d n) : d = directory ∧ n = name := by
  obtain ⟨front, hparts, hfront⟩ := h.leads
  obtain ⟨front', hparts', hfront'⟩ := h'.leads
  obtain ⟨rfl, hlast⟩ := List.append_inj' (hparts.symm.trans hparts') rfl
  have hsame := hfront.agree hs hgone hagrees hfront' (standing_start hs p) (hcurrent.start p)
    h'.lookedUp.there
  exact ⟨hsame, by simpa using hlast.symm⟩

/-- A path names one location. -/
theorem Names.unique (h : s.Names p location) (h' : s.Names p location') : location' = location := by
  obtain ⟨made, d, n, hmade, hgrows, hlies, rfl⟩ := h
  obtain ⟨made', d', n', -, hgrows', hlies', rfl⟩ := h'
  have hcurrent : MaybeMarked (fun _ ↦ false) made.current made'.current :=
    .inl (hgrows'.current.trans hgrows.current.symm)
  obtain ⟨rfl, rfl⟩ := hlies.agree hmade closedBelow_false (agrees_of_growsDirs hgrows hgrows')
    hcurrent hlies'
  rfl

/-! ## Removed entries -/

/-- An entry has been taken away with all that was below it. -/
structure TakenOut (s : Store) (location : Location) (s' : Store) : Prop where
  entry? l : s'.entry? l = if location <+: l then none else s.entry? l
  current : MaybeMarked (location.isPrefixOf ·) s.current s'.current

theorem TakenOut.agrees (h : s.TakenOut location s') : s.Agrees s' := by
  intro l e e' he he'
  rw [h.entry?] at he'
  split at he'
  · cases he'
  · exact Option.some.inj (he'.symm.trans he)

theorem closedBelow_prefix : s.ClosedBelow (location.isPrefixOf ·) := by
  intro d n e _ hgone
  rw [List.isPrefixOf_iff_prefix] at hgone ⊢
  exact hgone.trans (List.prefix_append _ _)

/-- What a path leads to after an entry has been taken away it has led to before. -/
theorem TakenOut.eq_of_leads (h : s.TakenOut location s') (hs : s.WellFormed) {l l' : Location}
    (hl : s.Leads last links (s.start p) names (.found l entry))
    (hl' : s'.Leads last links' (s'.start p) names (.found l' entry'))
    (hthere : isRemoved l' = false) : l' = l :=
  hl.agree hs closedBelow_prefix h.agrees hl' (standing_start hs p) (h.current.start p) hthere

/-- Marking what lies below a location, and then the location itself, marks all of it. -/
theorem markRemoved_erase_clear (l current : Location) :
    markRemoved (· = l) [] (markRemoved (isStrictlyBelow · l) [] current) =
      markRemoved (l.isPrefixOf ·) [] current := by
  induction current using List.reverseRecOn with
  | nil => rfl
  | append_singleton front name ih =>
    rw [markRemoved_concat, markRemoved_concat, markRemoved_concat, ih]
    simp only [List.nil_append]
    congr 2
    by_cases hbelow : isStrictlyBelow (front ++ [name]) l
    · have hpre := (isStrictlyBelow_iff.mp hbelow).1
      simp [hbelow, List.isPrefixOf_iff_prefix.mpr hpre]
    · have hfront (hpre : ¬ l <+: front) :
          markRemoved (isStrictlyBelow · l) [] front = front := by
        refine markRemoved_eq_self fun q hq _ ↦ ?_
        by_contra hmarked
        have hq' := isStrictlyBelow_iff.mp (by simpa using hmarked)
        exact hpre (hq'.1.trans hq)
      have hnot : ¬ l <+: front := by
        intro hpre
        refine hbelow (isStrictlyBelow_iff.mpr ⟨hpre.trans (List.prefix_append _ _), fun heq ↦ ?_⟩)
        exact not_concat_prefix (heq ▸ hpre)
      rw [hfront hnot]
      by_cases heq : front ++ [name] = l
      · have hself : isStrictlyBelow l l = false := by simp [isStrictlyBelow]
        simp [heq, hself]
      · have hpre : ¬ l <+: front ++ [name] := fun hpre ↦
          hbelow (isStrictlyBelow_iff.mpr ⟨hpre, heq⟩)
        simp [hbelow, heq, hpre]

theorem takenOut_clear_erase (hne : location ≠ []) :
    s.TakenOut location ((s.clear location).erase location) where
  entry? l := by
    rw [entry?_erase hne, entry?_clear]
    by_cases heq : l = location
    · simp [heq]
    · simp [heq, isStrictlyBelow]
  current := .inr (markRemoved_erase_clear location s.current)

/-- A name that is no directory is taken away alone. -/
theorem takenOut_erase (hs : s.WellFormed) (hentry : s.entry? location = some entry)
    (hdir : entry ≠ .dir) : s.TakenOut location (s.erase location) where
  entry? l := by
    have hne : location ≠ [] := by
      rintro rfl
      exact hdir (by simpa using hentry.symm)
    rw [entry?_erase hne]
    by_cases heq : l = location
    · simp [heq]
    · by_cases hpre : location <+: l
      · rw [if_neg heq, if_pos hpre]
        exact hs.none_of_prefix hpre heq (by simpa [hentry] using hdir)
      · rw [if_neg heq, if_neg hpre]
  current := .inl (hs.current_erase hentry hdir)

/-- A path to a directory does not lead over a name that leads to no directory. -/
theorem Leads.erase {d : Location} {n : String}
    (hnot : ∀ k l, ¬ s.Leads .followed k d [n] (.found l .dir))
    (h : s.Leads .followed links directory names (.found location .dir)) :
    (s.erase (d ++ [n])).Leads .followed links directory names (.found location .dir) := by
  have hstays {l : Location} {e : Entry} (hne : l ≠ d ++ [n]) (he : s.entry? l = some e) :
      Store.entry? (s.erase (d ++ [n])) l = some e := by
    rw [entry?_erase (by simp), if_neg hne, he]
  generalize hlast : LastLink.followed = mode at h
  generalize ht : Target.found location .dir = t at h
  induction h with
  | done =>
    cases ht
    exact .done
  | dot _ ih => exact .dot (ih hlast ht)
  | dotDot _ ih => exact .dotDot (ih hlast ht)
  | absent => cases ht
  | enter hname hentry _ ih =>
    refine .enter hname (hstays (fun heq ↦ ?_) hentry) (ih hlast ht)
    obtain ⟨rfl, hlast'⟩ := List.append_inj' heq rfl
    obtain rfl : _ = n := by simpa using hlast'
    exact hnot 0 _ (.enter hname hentry .done)
  | file => cases ht
  | kept => cases hlast
  | @follow _ k _ name rest text _ hname hentry hkept hwritten h ih =>
    subst hlast ht
    refine .follow hname (hstays (fun heq ↦ ?_) hentry) hkept hwritten (ih rfl rfl)
    obtain ⟨rfl, hlast'⟩ := List.append_inj' heq rfl
    obtain rfl : name = n := by simpa using hlast'
    -- The text of the link leads to a directory, and then so does its name.
    obtain ⟨m, hm⟩ : ∃ m, s.Leads .followed k (linkStart text _) (linkNames text)
        (.found m .dir) := by
      by_cases hrest : rest = []
      · rw [hrest, List.append_nil] at h
        exact ⟨_, h⟩
      · obtain ⟨m, _, -, hm, -⟩ := h.split hrest
        exact ⟨m, hm⟩
    exact hnot (k + 1) m (.follow hname hentry (.inr (by simp)) (.inr (.inl (by simp)))
      (by simpa using hm))

end Store

namespace StoreAction

open Store

/-- A directory that has been removed is taken away with all that was in it. The way to its name did
not lead through what was in it. -/
theorem RemovalEnds.removed_dir {s s' : Store} {p : Path} (hs : s.WellFormed)
    (h : RemovalEnds s p (.ok ()) s') :
    ∃ d n, s.Lies p d n ∧ (s.clear (d ++ [n])).Lies p d n ∧
      s.target .kept p = .ok (.found (d ++ [n]) .dir) ∧ s.entry? (d ++ [n]) = some .dir ∧
      s' = (s.clear (d ++ [n])).erase (d ++ [n]) := by
  cases h with
  | @removed l _ htarget hremove =>
    obtain ⟨d, n, hslot, hentry, -, rfl⟩ := removeDirectory_ok hremove
    have hcleared := (target_eq_ok_iff.mp (target_kept_of_slot hslot)).2
    rw [hentry] at hcleared
    have hagrees : s.Agrees (s.clear l) := by
      intro x e e' he he'
      rw [entry?_clear] at he'
      split at he'
      · cases he'
      · exact Option.some.inj (he'.symm.trans he)
    have hclosed : s.ClosedBelow (isStrictlyBelow · l) := closedBelow_clear
    have hmarked : MaybeMarked (isStrictlyBelow · l) (s.start p) ((s.clear l).start p) :=
      MaybeMarked.start (.inr rfl) p
    have hleads := (target_eq_ok_iff.mp htarget).2
    have hsame : d ++ [n] = l := hleads.agree hs hclosed hagrees hcleared (standing_start hs p)
      hmarked (hs.clear.not_isRemoved hentry)
    subst hsame
    have hlies := lies_of_slot hslot
    obtain ⟨front, hparts, hfront⟩ := hlies.leads
    -- The names before the last one lead to the same directory while it is still full.
    rw [hparts] at hleads
    obtain ⟨middle, k, -, hmiddle, -⟩ := hleads.split (by simp)
    obtain rfl := hmiddle.agree hs hclosed hagrees hfront (standing_start hs p) hmarked
      hlies.lookedUp.there
    refine ⟨d, n, ⟨⟨front, hparts, hmiddle⟩, hlies.lookedUp⟩, hlies, htarget, ?_, rfl⟩
    rw [entry?_clear] at hentry
    split at hentry
    · cases hentry
    · exact hentry

end StoreAction

end DeferredOps
