import DeferredOps.Proofs.Store.Agreement

/-!
# What a moved directory has become

A directory that is moved is afterwards at its target, unless the target lies in the directory
itself: then it has been copied into itself and removed with the copy. A symbolic link that is moved
leaves alone the directory that it leads to.
-/

namespace DeferredOps

open Action

namespace Store

/-- What is at a location has been carried to another one. -/
inductive Carried (s : Store) (origin target : Location) (s' : Store) : Prop
  | directory (hentry : s.entry? origin = some .dir)
      (hdelivered : ¬ origin <+: target → s.Delivered s' origin target)
      (hlost : origin <+: target → ∀ l, origin <+: l → s'.entry? l = none) :
      Carried s origin target s'
  | link {text : String} (hentry : s.entry? origin = some (.link text))
      (htarget : s'.entry? target = some (.link text))
      (hgone : target ≠ origin → s'.entry? origin = none)
      (hkept : ∀ l e, ¬ target <+: l → l ≠ origin → s.entry? l = some e → s'.entry? l = some e) :
      Carried s origin target s'

variable {s s' s₁ : Store} {origin target location directory : Location} {name : String}
  {p source destination : Path}

/-! ## Paths to names -/

/-- A path that leads somewhere lies where it lies in a store that agrees. -/
theorem Lies.of_agrees {gone : Location → Bool} {entry : Entry} (hs : s.WellFormed)
    (hgone : s.ClosedBelow gone) (hagrees : s.Agrees s')
    (hcurrent : MaybeMarked gone s.current s'.current)
    (hp : s.Leads .followed linkLimit (s.start p) p.parts (.found location entry))
    (h : s'.Lies p directory name) : s.Lies p directory name := by
  obtain ⟨front, hparts, hfront⟩ := h.leads
  rw [hparts] at hp
  obtain ⟨middle, k, -, hmiddle, -⟩ := hp.split (by simp)
  obtain rfl := hmiddle.agree hs hgone hagrees hfront (standing_start hs p) (hcurrent.start p)
    h.lookedUp.there
  exact ⟨⟨front, hparts, hmiddle⟩, h.lookedUp⟩

theorem agrees_of_grows {P : Location → Entry → Prop} (h : Grows P s s') : s.Agrees s' :=
  fun _ _ _ he he' ↦ Option.some.inj (he'.symm.trans (h.kept he))

theorem Lies.of_grows {P : Location → Entry → Prop} {entry : Entry} (hs : s.WellFormed)
    (hg : Grows P s s')
    (hp : s.Leads .followed linkLimit (s.start p) p.parts (.found location entry))
    (h : s'.Lies p directory name) : s.Lies p directory name :=
  h.of_agrees hs closedBelow_false (agrees_of_grows hg) (.inl hg.current) hp

/-- What has been taken away to make room was at the target. -/
theorem Carried.of_takenOut (h : s.TakenOut target s₁) (hc : s₁.Carried origin target s') :
    s.Carried origin target s' := by
  have hkept {l : Location} {e : Entry} (hl : s₁.entry? l = some e) :
      ¬ target <+: l ∧ s.entry? l = some e := by
    rw [h.entry?] at hl
    split at hl
    · cases hl
    · next hbelow => exact ⟨hbelow, hl⟩
  cases hc with
  | directory hentry hdelivered hlost =>
    obtain ⟨hbelow, horigin⟩ := hkept hentry
    refine .directory horigin (fun hapart rest id content hfile ↦ ?_) hlost
    refine hdelivered hapart rest id content ?_
    rw [h.entry?, if_neg, hfile]
    intro hpre
    rcases List.prefix_or_prefix_of_prefix hpre (List.prefix_append _ _) with habove | hpre'
    · exact hbelow habove
    · exact hapart hpre'
  | link hentry htarget hgone hkept' =>
    refine .link (hkept hentry).2 htarget hgone fun l e hbelow hne hl ↦ hkept' l e hbelow hne ?_
    rw [h.entry?, if_neg hbelow, hl]

/-- What has been carried has been delivered, unless it had files in it and has gone into itself. -/
theorem Carried.delivered_iff (hs : s.WellFormed) (hc : s.Carried origin target s') :
    s.Delivered s' origin target ↔ (origin <+: target → ∀ rest id content,
      s.entry? (origin ++ rest) ≠ some (.file id content)) := by
  cases hc with
  | directory hentry hdelivered hlost =>
    constructor
    · intro h hbelow rest id content hfile
      obtain ⟨id', hcopy⟩ := h rest id content hfile
      have hnone := hlost hbelow (target ++ rest) (hbelow.trans (List.prefix_append _ _))
      simp [hnone] at hcopy
    · intro h
      by_cases hbelow : origin <+: target
      · exact fun rest id content hfile ↦ absurd hfile (h hbelow rest id content)
      · exact hdelivered hbelow
  | link hentry =>
    refine ⟨fun _ _ rest id content hfile ↦ ?_, fun _ ↦ delivered_of_link hs hentry⟩
    by_cases hrest : rest = []
    · simp [hrest, hentry] at hfile
    · have hdir : s.entry? origin ≠ some .dir := by simp [hentry]
      have hnone := hs.none_of_append hrest hdir
      simp [hnone] at hfile

end Store

/-! ## Ends of a move -/

namespace StoreAction

open Store

variable {s s' : Store} {source destination : Path}

/-- A rename carries what it renames. -/
theorem carried_of_rename (hs : s.WellFormed) (hdestination : destination.Proper)
    (hclean : destination.hasNul = false)
    (hsource : ∀ l id content, s.target .followed source ≠ .ok (.found l (.file id content)))
    (hfree : ∀ d n, s.slot destination = .ok (.name d n) → s.entry? (d ++ [n]) ≠ some .dir)
    (h : s.rename source destination = .ok s') :
    ∃ d n target, s.Lies source d n ∧ s.Names destination target ∧
      s.Carried (d ++ [n]) target s' := by
  obtain ⟨d, n, d', n', hslot, hslot', hcarry⟩ := rename_ok h
  refine ⟨d, n, d' ++ [n'], lies_of_slot hslot, names_of_lies (lies_of_slot hslot') hs, ?_⟩
  have hname := isName_of_slot hdestination hclean hslot'
  rcases carryChecked_ok hs (by simp) (dir_of_slot hs hslot') hname hcarry with
    ⟨rfl, entry, old, hentry, hold, hsame⟩ | ⟨hcan, rfl, -⟩
  · -- The two are one entry, which is then a symbolic link.
    cases entry with
    | file => exact absurd (target_of_slot hslot hentry rfl) (hsource _ _ _)
    | dir =>
      have heq : d ++ [n] = d' ++ [n'] := by simpa [isSame] using hsame
      exact absurd (heq ▸ hentry) (hfree d' n' hslot')
    | link text =>
      have heq : d ++ [n] = d' ++ [n'] := by simpa [isSame] using hsame
      exact .link hentry (heq ▸ hentry) (fun hne ↦ absurd heq.symm hne) fun _ _ _ _ hl ↦ hl
  · have htarget (rest : Location) := hcan.entry?_carry_append rest
    obtain ⟨entry, hentry⟩ := Option.isSome_iff_exists.mp hcan.found
    cases entry with
    | file => exact absurd (target_of_slot hslot hentry rfl) (hsource _ _ _)
    | dir =>
      refine .directory hentry (fun _ rest id content hfile ↦ ⟨id, ?_⟩)
        fun hpre ↦ absurd hpre hcan.apart
      rw [htarget, hfile]
    | link text =>
      refine .link hentry (by simpa [hentry] using htarget []) (fun hne ↦ ?_)
        fun l e hbelow hne hl ↦ ?_
      · have hbelow : ¬ d' ++ [n'] <+: d ++ [n] := by
          intro hpre
          have hnone := hcan.free _ hpre hne.symm
          simp [hnone] at hentry
        rw [hcan.entry?_carry, if_neg hbelow, if_pos (List.prefix_refl _)]
      · have hapart : ¬ d ++ [n] <+: l := by
          intro hpre
          have hnone := hs.none_of_prefix hpre hne (by simp [hentry])
          simp [hnone] at hl
        rw [hcan.entry?_carry_apart hbelow hapart, hl]

/-- A symbolic link that is made anew and then removed has been carried. -/
theorem carried_of_makeLink {l : Location} {text : String} {made : Store} (hs : s.WellFormed)
    (hsource : s.entryAt .kept source = .ok (some (l, .link text)))
    (hmake : s.makeLink text destination = .ok made)
    (hremove : (unlink source).run made = (.ok (), s')) :
    ∃ d n target, s.Lies source d n ∧ s.Names destination target ∧
      s.Carried (d ++ [n]) target s' := by
  obtain ⟨d', n', hslot', hnone, rfl⟩ := create_eq_ok_iff.mp hmake
  have hgrows : s.GrowsAt (d' ++ [n']) (s.put (d' ++ [n']) (.link text)) :=
    Store.grows_put (by simp) hnone (List.prefix_refl _)
  have htarget := (entryAt_eq_some_iff.mp hsource).2
  obtain ⟨d, n, hslot, -, -⟩ := slot_of_target htarget (by simp)
  have hentry : s.entry? (d ++ [n]) = some (.link text) := by
    have hkept := target_kept_of_slot hslot
    rw [htarget] at hkept
    cases hentry : s.entry? (d ++ [n]) <;> simp_all
  -- The link is still where it was once the new one has been made.
  obtain ⟨hshort, front, hparts, hfront, hname⟩ := slot_eq_name_iff.mp hslot
  have hslotMade : slot (s.put (d' ++ [n']) (.link text)) source = .ok (.name d n) :=
    slot_eq_name_iff.mpr ⟨hshort, front, hparts, by rw [hgrows.start]; exact hgrows.leads hfront, hname⟩
  have hne : d' ++ [n'] ≠ d ++ [n] := by
    intro heq
    rw [heq, hentry] at hnone
    cases hnone
  obtain rfl : s' = erase (s.put (d' ++ [n']) (.link text)) (d ++ [n]) := by
    rw [run_unlink] at hremove
    split at hremove
    · cases hremove
    split at hremove
    · next hunlink =>
      cases hremove
      obtain ⟨e, m, _, hslot'', -, -, rfl⟩ := unlink_eq_ok_iff.mp hunlink
      cases hslotMade.symm.trans hslot''
      rfl
    · cases hremove
  have hlookup (l : Location) : entry? (erase (s.put (d' ++ [n']) (.link text)) (d ++ [n])) l =
      if l = d ++ [n] then none
      else if l = d' ++ [n'] then some (.link text) else s.entry? l := by
    rw [entry?_erase (by simp), entry?_put (by simp)]
  refine ⟨d, n, d' ++ [n'], lies_of_slot hslot, names_of_lies (lies_of_slot hslot') hs, ?_⟩
  refine .link hentry ?_ (fun _ ↦ ?_) fun l e hbelow hne' hl ↦ ?_
  · rw [hlookup, if_neg hne, if_pos rfl]
  · rw [hlookup, if_pos rfl]
  · rw [hlookup, if_neg hne', if_neg, hl]
    rintro rfl
    exact hbelow (List.prefix_refl _)

/-- A directory that is copied and then removed has been carried, or lost with a copy in it. -/
theorem carried_of_copied {l d : Location} {n : String} {made copied : Store} (hs : s.WellFormed)
    (hsource : s.target .followed source = .ok (.found l .dir))
    (hstarts : CopyStarts s destination d n made) (hcopying : made.Copying l (d ++ [n]) copied)
    (hdelivered : s.Delivered copied l (d ++ [n]))
    (hremove : RemovalEnds copied source (.ok ()) s') :
    ∃ d n target, s.Lies source d n ∧ s.Names destination target ∧
      s.Carried (d ++ [n]) target s' := by
  have hextends := hstarts.extends hcopying
  obtain ⟨e, m, hlies, -, hkept, hentry, rfl⟩ := hremove.removed_dir hcopying.wellFormed
  obtain ⟨-, hleads⟩ := target_eq_ok_iff.mp hkept
  have hleads' := (target_eq_ok_iff.mp (hextends.target hsource)).2
  obtain ⟨rfl, -⟩ := Target.found.inj ((hleads.last_irrelevant (by simp)).unique hleads')
  have horigin : s.entry? (e ++ [m]) = some .dir := by
    rcases sound_of_target hs hsource with hdir | ⟨-, hremoved, -⟩
    · exact hdir
    · simp [hcopying.wellFormed.not_isRemoved hentry] at hremoved
  have hnames : s.Names destination (d ++ [n]) :=
    ⟨made, d, n, hstarts.parents.wellFormed, hstarts.parents.grows,
      hstarts.free.lies hstarts.parents.wellFormed, rfl⟩
  refine ⟨e, m, d ++ [n], hlies.of_grows hs hextends (target_eq_ok_iff.mp hsource).2, hnames, ?_⟩
  have hgone : copied.TakenOut (e ++ [m]) ((copied.clear (e ++ [m])).erase (e ++ [m])) :=
    takenOut_clear_erase (by simp)
  refine .directory horigin (fun hapart rest id content hfile ↦ ?_) fun _ l' hbelow ↦ ?_
  · obtain ⟨id', hcopy⟩ := hdelivered rest id content hfile
    refine ⟨id', ?_⟩
    rw [hgone.entry?, if_neg, hcopy]
    intro hpre
    rcases List.prefix_or_prefix_of_prefix hpre (List.prefix_append _ _) with hbelow | habove
    · exact hapart hbelow
    · by_cases heq : e ++ [m] = d ++ [n]
      · exact hapart (heq ▸ List.prefix_refl _)
      · -- The target was free, so that nothing was below it.
        have hnone := hstarts.parents.wellFormed.none_of_prefix habove heq (by simp [hstarts.free.free])
        simp [hstarts.parents.grows.kept horigin] at hnone
  · rw [hgone.entry?, if_pos hbelow]

/-- A move that succeeds has carried a directory or a symbolic link from where its source lies to
what its destination names. -/
theorem MoveEnds.carried (hs : s.WellFormed) (hdestination : destination.Proper)
    (hsource : ∀ l id content, s.target .followed source ≠ .ok (.found l (.file id content)))
    (hfree : destination.hasNul = false → ∀ d n, s.slot destination = .ok (.name d n) →
      s.entry? (d ++ [n]) ≠ some .dir)
    (h : MoveEnds s source destination (.ok ()) s') :
    ∃ d n target, s.Lies source d n ∧ s.Names destination target ∧
      s.Carried (d ++ [n]) target s' := by
  cases h with
  | renamed hclean h => exact carried_of_rename hs hdestination hclean hsource (hfree hclean) h
  | linked _ hfound hmake hremove => exact carried_of_makeLink hs hfound hmake hremove
  | copied _ hfound _ _ hstarts hcopying _ hcopied hremove =>
    exact carried_of_copied hs hfound hstarts hcopying hcopied.delivered hremove
  | copiedFile _ hfound => exact absurd hfound (hsource _ _ _)

/-! ## Moves to what is cleared first -/

/-- The way to a path is clear for a directory: there is no other one, or it has been removed. -/
inductive Cleared (s : Store) (p : Path) : Store → Prop
  | free (h : s.isDirectory p = .ok false) : Cleared s p s
  | name {s' : Store} (hdir : s.isDirectory p = .ok false) (hthere : s.exists? p = .ok true)
      (h : s.unlink p = .ok s') : Cleared s p s'
  | directory {s' : Store} (hdir : s.isDirectory p = .ok true) (h : RemovalEnds s p (.ok ()) s') :
    Cleared s p s'

theorem exists_eq_true_iff {p : Path} : s.exists? p = .ok true ↔
    p.hasNul = false ∧ ∃ l e, s.target .followed p = .ok (.found l e) := by
  unfold exists? entryAt
  split
  · next hnul => simp [hnul, Except.map, answers]
  · next hnul =>
    split
    · next htarget => simp [hnul, htarget, Except.map, answers]
    · next htarget => simp [hnul, htarget, Except.map, answers]
    · next htarget => split <;> simp [hnul, htarget, Except.map, answers]

/-- The entry that a path names has been taken away, and the path names the same location still. -/
structure TakenAt (s : Store) (p : Path) (location : Location) (s' : Store) : Prop where
  wellFormed : s'.WellFormed
  names : s.Names p location
  takenOut : s.TakenOut location s'
  same l (h : s'.Names p l) : l = location

theorem takenAt_of_unlink {p : Path} (hs : s.WellFormed) (hdir : s.isDirectory p = .ok false)
    (hthere : s.exists? p = .ok true) (h : s.unlink p = .ok s') :
    ∃ location, TakenAt s p location s' := by
  have hwf := hs.unlink h
  obtain ⟨d, n, e, hslot, hentry, hne, rfl⟩ := unlink_eq_ok_iff.mp h
  have hlies := lies_of_slot hslot
  refine ⟨d ++ [n], hwf, names_of_lies hlies hs, takenOut_erase hs hentry hne, ?_⟩
  obtain ⟨front, hparts, hfront⟩ := hlies.leads
  -- The last name leads to no directory, so the way to it does not lead over it.
  have hnot (k : ℕ) (l : Location) : ¬ s.Leads .followed k d [n] (.found l .dir) := by
    intro hlast
    obtain ⟨hclean, l', e', htarget⟩ := exists_eq_true_iff.mp hthere
    have hleads := (target_eq_ok_iff.mp htarget).2
    rw [hparts] at hleads
    obtain ⟨middle, k', -, hmiddle, hlast'⟩ := hleads.split (by simp)
    obtain ⟨rfl, -⟩ := Target.found.inj (hmiddle.unique hfront)
    have hsame := (hlast.mono (Nat.le_max_left k k')).unique (hlast'.mono (Nat.le_max_right k k'))
    obtain ⟨rfl, rfl⟩ := Target.found.inj hsame
    have htrue := isDirectory_eq_true_iff.mpr ⟨hclean, _, htarget⟩
    simp [htrue] at hdir
  rintro l ⟨made, d', n', -, hgrows, hlies', rfl⟩
  have hstart : made.start p = s.start p := by
    rw [hgrows.start]
    unfold Store.start
    rw [hs.current_erase hentry hne]
  have hmade : made.Lies p d n :=
    ⟨⟨front, hparts, by rw [hstart]; exact hgrows.leads (hfront.erase hnot)⟩, hlies.lookedUp⟩
  obtain ⟨rfl, rfl⟩ := hmade.unique hlies'
  rfl

theorem takenAt_of_removal {p : Path} (hs : s.WellFormed) (h : RemovalEnds s p (.ok ()) s') :
    ∃ location, TakenAt s p location s' := by
  obtain ⟨d, n, hlies, hcleared, -, hentry, rfl⟩ := h.removed_dir hs
  have hempty (name : String) : entry? (s.clear (d ++ [n])) (d ++ [n] ++ [name]) = none := by
    rw [entry?_clear, if_pos]
    exact isStrictlyBelow_iff.mpr ⟨List.prefix_append _ _, by simp⟩
  refine ⟨d ++ [n], hs.clear.erase hempty, names_of_lies hlies hs, takenOut_clear_erase (by simp),
    ?_⟩
  rintro l ⟨made, d', n', -, hgrows, hlies', rfl⟩
  have hagrees : (s.clear (d ++ [n])).Agrees made := by
    intro l e e' he he'
    rcases hgrows.added he' with hold | rfl
    · exact Option.some.inj ((entry_of_erase (by simp) hold).2.symm.trans he)
    · by_cases heq : l = d ++ [n]
      · rw [heq, entry?_clear, if_neg (by simp [isStrictlyBelow]), hentry] at he
        exact Option.some.inj he
      · have hkept : entry? ((s.clear (d ++ [n])).erase (d ++ [n])) l = some e := by
          rw [entry?_erase (by simp), if_neg heq, he]
        exact Option.some.inj (he'.symm.trans (hgrows.kept hkept))
  have hcurrent : MaybeMarked (· = d ++ [n]) (s.clear (d ++ [n])).current made.current :=
    .inr hgrows.current
  obtain ⟨rfl, rfl⟩ := hcleared.agree hs.clear (closedBelow_erase hempty) hagrees hcurrent hlies'
  rfl

theorem Cleared.wellFormed {p : Path} (hs : s.WellFormed) (h : Cleared s p s') : s'.WellFormed := by
  cases h with
  | free => exact hs
  | name _ _ h => exact hs.unlink h
  | directory _ h =>
    obtain ⟨location, htaken⟩ := takenAt_of_removal hs h
    exact htaken.wellFormed

/-- A directory is carried to its target after what stood in its way has been removed. -/
theorem Cleared.carried {s₁ : Store} {l : Location} (hs : s.WellFormed)
    (hdestination : destination.Proper) (hsource : s.target .followed source = .ok (.found l .dir))
    (hcleared : Cleared s destination s₁) (h : MoveEnds s₁ source destination (.ok ()) s') :
    ∃ d n target, s.Lies source d n ∧ s.Names destination target ∧
      s.Carried (d ++ [n]) target s' := by
  have htaken (h₁ : ∃ location, TakenAt s destination location s₁) :
      ∃ d n target, s.Lies source d n ∧ s.Names destination target ∧
        s.Carried (d ++ [n]) target s' := by
    obtain ⟨location, hwf, hnames, htakenOut, hsame⟩ := h₁
    have hleads := (target_eq_ok_iff.mp hsource).2
    -- The source leads nowhere else than before, and that was a directory.
    have hnotFile (l' : Location) (id : ℕ) (content : Bytes) :
        s₁.target .followed source ≠ .ok (.found l' (.file id content)) := by
      intro hfound
      have hfile : s₁.entry? l' = some (.file id content) :=
        (sound_of_target hwf hfound).resolve_right (by simp)
      have hthere := hwf.not_isRemoved hfile
      obtain rfl := htakenOut.eq_of_leads hs hleads (target_eq_ok_iff.mp hfound).2 hthere
      rcases sound_of_target hs hsource with hdir | ⟨-, hremoved, -⟩
      · cases htakenOut.agrees _ _ _ hdir hfile
      · simp [hthere] at hremoved
    have hfree (d : Location) (n : String) (hslot : s₁.slot destination = .ok (.name d n)) :
        s₁.entry? (d ++ [n]) ≠ some .dir := by
      rw [hsame _ (names_of_lies (lies_of_slot hslot) hwf), htakenOut.entry?,
        if_pos (List.prefix_refl _)]
      simp
    obtain ⟨d, n, target, hlies, hnames', hcarried⟩ :=
      MoveEnds.carried hwf hdestination hnotFile (fun _ ↦ hfree) h
    obtain rfl := hsame target hnames'
    refine ⟨d, n, target, ?_, hnames, hcarried.of_takenOut htakenOut⟩
    exact hlies.of_agrees hs closedBelow_prefix htakenOut.agrees htakenOut.current hleads
  cases hcleared with
  | free hnone =>
    refine MoveEnds.carried hs hdestination (fun l' id content hfound ↦ ?_)
      (fun hclean d n hslot hentry ↦ ?_) h
    · simp [hsource] at hfound
    · have htrue := isDirectory_eq_true_iff.mpr ⟨hclean, _, target_of_slot hslot hentry rfl⟩
      simp [htrue] at hnone
  | name hdir hthere hunlink => exact htaken (takenAt_of_unlink hs hdir hthere hunlink)
  | directory _ hremoval => exact htaken (takenAt_of_removal hs hremoval)

end StoreAction

end DeferredOps
