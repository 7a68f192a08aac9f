import DeferredOps.Proofs.Merging

/-!
# What merges conserve

In a store without symbolic links a merge loses no content of a file. It adds none either, but for the
part of a copy that breaks off where a directory is moved below parents that are missing. This needs
that a directory that is moved into itself is seen to be, which a doubled slash can hide.
-/

namespace DeferredOps

open Action

namespace StoreAction

open Store

variable {s s' : Store} {source destination p : Path} {origin target : Location}
  {result : Except Failure Unit}

/-- Without symbolic links nothing is moved into itself where that can be seen. -/
theorem MoveEnds.eq_of_nested (hs : s.WellFormed) (hfree : s.LinkFree)
    (hproper : destination.Proper)
    (hanchors : (∃ l, s.target .followed source = .ok (.found l .dir)) →
      (source.anchor = .doubleTop ↔ destination.anchor = .doubleTop))
    (hnested : s.place source <+: s.place destination)
    (h : MoveEnds s source destination result s') : s' = s := by
  cases h with
  | refused => rfl
  | renamed hclean hrename =>
    obtain ⟨d, n, d', n', hslot, hslot', hcarry⟩ := rename_ok hrename
    have hname := isName_of_slot hproper hclean hslot'
    rcases carryChecked_ok hs (by simp) (dir_of_slot hs hslot') hname hcarry with
      ⟨rfl, -⟩ | ⟨hcan, -⟩
    · rfl
    · rw [← location_of_slot hfree hslot, ← location_of_slot hfree hslot'] at hnested
      exact absurd hnested hcan.apart
  | linked _ hfound => exact absurd (entry?_of_link hs hfound) (hfree _ _)
  | copyFailed _ hfound hwithin hanchored =>
    exact absurd (within_of_place hs (hanchors ⟨_, hfound⟩) hanchored hnested) hwithin
  | copied _ hfound hwithin hanchored =>
    exact absurd (within_of_place hs (hanchors ⟨_, hfound⟩) hanchored hnested) hwithin
  | copiedFile hrename hfound hwrite =>
    obtain ⟨t, ht⟩ := exists_rename_of_file hs hfound hwrite
    exact absurd ht (hrename t)

/-- A path that could be asked about is not too long. -/
theorem short_of_exists {there : Bool} (hclean : p.hasNul = false) (h : s.exists? p = .ok there) :
    p.text.utf8ByteSize < pathLimit := by
  by_contra hlong
  have htarget : s.target .followed p = .error .nameTooLong := by
    simp [Store.target, startChecked, show pathLimit ≤ p.text.utf8ByteSize by omega, bind, Except.bind]
  simp [Store.exists?, entryAt, hclean, htarget, SystemError.meansAbsent, Except.map] at h

/-- A path that leads to an entry has its last name, if that is the name of an entry. -/
theorem slot_of_found {l : Location} {e : Entry} {front : List String} {n : String}
    (hfound : s.target .followed p = .ok (.found l e)) (hparts : p.parts = front ++ [n])
    (hname : IsName n) :
    ∃ d entry, s.slot p = .ok (.name d n) ∧ s.entry? (d ++ [n]) = some entry := by
  obtain ⟨hshort, hleads⟩ := target_eq_ok_iff.mp hfound
  rw [hparts] at hleads
  obtain ⟨d, k, -, hfront, hlast⟩ := hleads.split (by simp)
  obtain ⟨entry, hlooked, hentry⟩ : ∃ entry, LookedUp d n ∧ s.entry? (d ++ [n]) = some entry := by
    cases hlast with
    | dot => exact absurd rfl hname.ne_dot
    | dotDot => exact absurd rfl hname.ne_dotDot
    | enter hlooked hentry => exact ⟨_, hlooked, hentry⟩
    | file hlooked hentry => exact ⟨_, hlooked, hentry⟩
    | follow hlooked hentry => exact ⟨_, hlooked, hentry⟩
  exact ⟨d, entry, slot_eq_name_iff.mpr ⟨hshort, front, hparts, hfront, hlooked⟩, hentry⟩

end StoreAction

namespace Executor

open Store StoreAction

variable {s s' t t' : Store} {source destination : Path} {origin target : Location} {name : String}
  {depth : ℕ}

/-- What is not above a free name in a directory is renamed to it. -/
theorem exists_rename_into {l : Location} {e : Entry} (hs : s.WellFormed)
    (hsource : s.Points source origin) (hapart : ¬ origin <+: target)
    (hfound : s.target .followed source = .ok (.found l e))
    (hdirectory : s.isDirectory destination = .ok true)
    (hclean : (within destination source).hasNul = false)
    (hnone : s.exists? (within destination source) = .ok false)
    (hvacant : s.Vacant (within destination source) target) :
    ∃ t, s.rename source (within destination source) = .ok t := by
  have hfree := hvacant.none
  obtain ⟨made, d, n, hmade, rfl, hvacant⟩ := hvacant
  obtain ⟨front, hparts, hfront⟩ := hvacant.leads
  obtain ⟨-, d', hdestination⟩ := isDirectory_eq_true_iff.mp hdirectory
  have hleads := (target_eq_ok_iff.mp hdestination).2
  have hstart : s.start (within destination source) = s.start destination :=
    start_of_anchor s (within_anchor destination source)
  -- Both paths end in the same name.
  cases hlast : source.parts.getLast? with
  | none =>
    have hsame : within destination source = destination := by simp [within, hlast]
    rw [hsame, exists_of_isDirectory hdirectory] at hnone
    cases hnone
  | some name =>
    have hwithin : (within destination source).parts = destination.parts ++ [name] := by
      simp [within, hlast, Path.child]
    obtain ⟨rfl, hname⟩ := List.append_inj' (hparts.symm.trans hwithin) rfl
    obtain rfl : n = name := by simpa using hname
    have hthere := hmade.grows.leads hleads
    rw [hmade.grows.start, hstart] at hfront
    obtain rfl : d = d' := (Target.found.inj (hfront.unique hthere)).1
    have hslot : s.slot (within destination source) = .ok (.name d n) :=
      slot_eq_name_iff.mpr ⟨short_of_exists hclean hnone, _, hwithin, hstart ▸ hleads,
        hmade.wellFormed.lookedUp hvacant.dir hvacant.isName⟩
    obtain ⟨b, entry, hslot', hentry⟩ := slot_of_found hfound
      (List.dropLast_append_getLast? _ hlast).symm hvacant.isName
    exact Store.exists_rename hs hslot' hslot hentry hfree (by rwa [hsource.slot hslot'])

/-! ## What a merge conserves -/

/-- What a move spares: the target with the directories above it, and every file of its source, there
or at its place in the target, if neither of the two lies inside the other. -/
structure Spared (s : Store) (origin target : Location) (s' : Store) : Prop where
  stays {l e} (hl : l <+: target) (h : s.entry? l = some e) : s'.entry? l = some e
  preserved (hapart : origin <+: target ∨ target <+: origin → origin = target) :
    s.Preserved origin target s'

/-- What a move conserves that replaces nothing: all contents, unless a copy breaks off that is made
where nothing was, and the files themselves where something stands that is no directory. -/
structure Conserved (s : Store) (source destination : Path) (origin target : Location)
    (s' : Store) : Prop extends Spared s origin target s' where
  contents : s'.contents = s.contents ∨ s.isDirectory destination ≠ .ok true ∧
    s.BrokenCopy source destination ∧ s.entry? target = none ∧ s.contents ≤ s'.contents
  taken (hdirectory : s.isDirectory destination ≠ .ok true) (hthere : s.entry? target ≠ none)
    (l : Location) : s'.contentAt? l = s.contentAt? l

theorem Spared.refl (s : Store) (origin target : Location) : Spared s origin target s :=
  ⟨fun _ h ↦ h, fun _ _ _ h ↦ .inl h⟩

theorem Conserved.refl (s : Store) (source destination : Path) (origin target : Location) :
    Conserved s source destination origin target s :=
  ⟨.refl s origin target, .inl rfl, fun _ _ _ ↦ rfl⟩

/-- A name that is merged into a directory takes nothing else along. -/
theorem Spared.next (h : Spared s origin target t) (hpruned : t.Pruned (origin ++ [name]) t')
    (hdir : s.entry? origin = some .dir) (hdistinct : origin ≠ target)
    (hchild : Spared t (origin ++ [name]) (target ++ [name]) t') : Spared s origin target t' where
  stays hl hentry := hchild.stays (hl.trans (List.prefix_append _ _)) (h.stays hl hentry)
  preserved hsame := by
    intro rest content hcontent
    have hapart (hpre : origin <+: target) : False := hdistinct (hsame (.inl hpre))
    have hapart' (hpre : target <+: origin) : False := hdistinct (hsame (.inr hpre))
    have hchildApart {a b : Location} (hpre : a ++ [name] <+: b ++ [name]) : a <+: b :=
      (List.prefix_concat_iff.mp hpre).elim
        (fun heq ↦ (List.append_inj_left' heq rfl) ▸ List.prefix_refl _)
        fun h ↦ (List.prefix_append _ _).trans h
    have hkept {l : Location} (hl : ¬ origin ++ [name] <+: l)
        (hfile : t.contentAt? l = some content) : t'.contentAt? l = some content := by
      obtain ⟨id, hentry⟩ := contentAt?_eq_some_iff.mp hfile
      exact contentAt?_eq_some_iff.mpr ⟨id, hpruned.kept hl hentry⟩
    rcases h.preserved hsame rest content hcontent with hfile | hfile
    · cases rest with
      | nil => simp [contentAt?_of_dir hdir] at hcontent
      | cons first rest =>
        by_cases hfirst : first = name
        · subst hfirst
          rw [List.append_cons] at hfile ⊢
          rw [List.append_cons target]
          refine hchild.preserved (fun hnested ↦ ?_) rest content hfile
          exact (hnested.elim (hapart <| hchildApart ·) (hapart' <| hchildApart ·)).elim
        · refine .inl (hkept (fun hpre ↦ hfirst ?_) hfile)
          have hpre' := (List.prefix_append_right_inj origin).mp hpre
          simpa [eq_comm] using hpre'
    · refine .inr (hkept (fun hpre ↦ ?_) hfile)
      have hpre' : origin <+: target ++ rest := (List.prefix_append _ _).trans hpre
      exact (List.prefix_or_prefix_of_prefix hpre' (List.prefix_append target rest)).elim hapart
        hapart'

/-- A name that is moved onto what is no directory takes no file along. -/
theorem Spared.next_same {p : Location} (h : Spared s origin target t)
    (hchild : Spared t p target t') (hsame : ∀ l, t'.contentAt? l = t.contentAt? l) :
    Spared s origin target t' where
  stays hl hentry := hchild.stays hl (h.stays hl hentry)
  preserved hapart rest content hcontent := by
    rw [hsame, hsame]
    exact h.preserved hapart rest content hcontent

theorem contentAt?_erase (hdir : s.entry? origin = some .dir) (l : Location) :
    contentAt? (s.erase origin) l = s.contentAt? l := by
  have hentry : entry? (s.erase origin) l = if l ≠ [] ∧ l = origin then none else s.entry? l := by
    rw [erase, entry?_discard]
    simp
  unfold contentAt?
  rw [hentry]
  split
  · next h => simp [h.2, hdir, Entry.content?]
  · rfl

/-- A directory that is empty in the end is taken away without loss. -/
theorem Spared.erased (h : Spared s origin target t) (ht : t.WellFormed)
    (hdir : t.entry? origin = some .dir) (hempty : t.isEmptyDir origin)
    (hthere : s.entry? target ≠ none ∨ ¬ origin <+: target) (hdistinct : origin ≠ target) :
    Spared s origin target (t.erase origin) where
  stays {l e} hl hentry := by
    refine (pruned_erase t origin).kept (fun hpre ↦ ?_) (h.stays hl hentry)
    -- The target would stand in the empty directory.
    have hbelow := hpre.trans hl
    obtain ⟨entry, hentry'⟩ :=
      Option.ne_none_iff_exists'.mp (hthere.resolve_right (not_not_intro hbelow))
    have htarget := h.stays (List.prefix_refl _) hentry'
    have hnone := ht.none_of_isEmptyDir hempty hbelow (Ne.symm hdistinct)
    simp [htarget] at hnone
  preserved hapart rest content hcontent := by
    rw [contentAt?_erase hdir, contentAt?_erase hdir]
    exact h.preserved hapart rest content hcontent

/-- A transfer conserves contents. -/
theorem Conserved.of_transfer (h : Mergeable s source destination origin target)
    (hapart : origin <+: target → origin = target)
    (hclean : (landing s source destination).hasNul = false)
    (hnone : s.isDirectory source = .ok true → s.isDirectory destination = .ok true →
      s.exists? (landing s source destination) = .ok false) (hthere : s.exists? source = .ok true)
    (htransfer : s.Transfer source origin (landing s source destination) target s') :
    Conserved s source destination origin target s' where
  stays {l e} hl hentry := by
    by_cases hthere : s.entry? target = none
    · refine (htransfer.confined h.wellFormed h.links).pruned.kept (fun hpre ↦ ?_) hentry
      -- The target would be the source, and nothing stands there.
      obtain rfl := hapart (hpre.trans hl)
      rw [hl.eq_of_length_le hpre.length_le, hthere] at hentry
      cases hentry
    · exact (htransfer.growsDirs hthere).kept hentry
  preserved _ := htransfer.preserved h.wellFormed hapart
  contents := by
    refine (htransfer.contents h.wellFormed h.links hapart).imp_right fun ⟨hbroken, hvacant, hle⟩ ↦ ?_
    by_cases hdirectory : s.isDirectory destination = .ok true
    · -- Into a directory that is there the source would have been renamed.
      obtain ⟨l, hfound⟩ := hbroken.directory
      have hsource := isDirectory_eq_true_iff.mpr ⟨(exists_eq_true_iff.mp hthere).1, l, hfound⟩
      have hfree := hnone hsource hdirectory
      have hrename := hbroken.rename
      have hbelow : ¬ origin <+: target := by
        intro hpre
        obtain rfl := hapart hpre
        obtain rfl : l = origin := h.points.target h.links.here hfound
        have hthere := (sound_of_target h.wellFormed hfound).resolve_right
          (by simp [hvacant.not_isRemoved])
        simp [hvacant.none] at hthere
      rw [landing_of_directory source hdirectory] at hclean hfree hrename hvacant
      obtain ⟨t, ht⟩ := exists_rename_into h.wellFormed h.points hbelow hfound hdirectory hclean hfree
        hvacant
      exact absurd ht (hrename t)
    · rw [landing_of_not_directory hdirectory] at hbroken
      exact ⟨hdirectory, hbroken, hvacant.none, hle⟩
  taken _ hthere := (htransfer.growsDirs hthere).contentAt?

/-! ## Merges conserve contents -/

theorem place_of_start {p : Path} (h : t.start p = s.start p) : t.place p = s.place p := by
  unfold place
  rw [h]

/-- The places of a move, and that the move of a directory into itself is seen to be one. -/
structure Placed (s : Store) (source destination : Path) (origin target : Location) : Prop where
  linkFree : s.LinkFree
  sourcePlace : s.place source = origin
  targetPlace : s.place (landing s source destination) = target
  anchors (hsource : s.isDirectory source = .ok true) (hnested : origin <+: target)
    (hdistinct : origin ≠ target) : source.anchor = .doubleTop ↔ destination.anchor = .doubleTop

namespace Mergeable

/-- A directory is merged into something else that is there. -/
theorem distinct (h : Mergeable s source destination origin target)
    (hsource : s.isDirectory source = .ok true)
    (hsame : s.samePlace source (landing s source destination) = .ok false)
    (hthere : s.exists? (landing s source destination) = .ok true) :
    origin ≠ target ∧
      ∃ e, s.target .followed (landing s source destination) = .ok (.found target e) := by
  obtain ⟨hclean, l, hfound⟩ := isDirectory_eq_true_iff.mp hsource
  obtain ⟨hclean', l', e, hfound'⟩ := exists_eq_true_iff.mp hthere
  obtain rfl : l = origin := h.points.target h.links.here hfound
  obtain rfl : l' = target := h.lands.target h.targetLinks.here hfound'
  exact ⟨ne_of_samePlace h.wellFormed hclean hfound hclean' hfound' hsame, e, hfound'⟩

/-- What is found where a move lands stands there, or the move lands in a directory that has been
removed and does so whatever becomes of the store. -/
theorem found_there (h : Mergeable s source destination origin target) {e : Entry}
    (hfound : s.target .followed (landing s source destination) = .ok (.found target e)) :
    s.entry? target ≠ none ∨ target <+: s.start (landing s source destination) ∧
      ∀ t : Store, t.start (landing s source destination) = s.start (landing s source destination) →
        t.target .followed (landing s source destination) = .ok (.found target .dir) := by
  by_cases hnone : s.entry? target = none
  · obtain ⟨hshort, hleads⟩ := target_eq_ok_iff.mp hfound
    obtain ⟨hpre, hother⟩ := hleads.of_removed h.wellFormed (standing_start h.wellFormed _) hnone
    refine .inr ⟨hpre, fun t hstart ↦ target_eq_ok_iff.mpr ⟨hshort, ?_⟩⟩
    rw [hstart]
    exact hother t _ _
  · exact .inl hnone

/-- A target above the start of its path is not below the source. -/
theorem not_prefix_of_start (h : Mergeable s source destination origin target)
    (hsource : s.isDirectory source = .ok true) (hdistinct : origin ≠ target)
    (hpre : target <+: s.start (landing s source destination)) : ¬ origin <+: target := by
  intro hbelow
  have hstart : s.start (landing s source destination) = s.start destination :=
    start_of_anchor s (landing_anchor s source destination)
  have hpre' : origin <+: s.start destination := hbelow.trans (hstart ▸ hpre)
  unfold Store.start at hpre'
  split at hpre'
  · next htop =>
    rw [hstart, Store.start, if_pos htop] at hpre
    rw [List.prefix_nil] at hpre hpre'
    exact hdistinct (hpre'.trans hpre.symm)
  · next htop => exact (h.apart hsource).2.elim htop fun hapart ↦ hapart hpre'

section Children

variable (h : Mergeable s source destination origin target)
  (hplaced : Placed s source destination origin target)
  (hsource : s.isDirectory source = .ok true) (hdistinct : origin ≠ target)
  (hconfined : s.Confined origin (landing s source destination) target t) (hname : IsName name)
include h hplaced hsource hdistinct hconfined hname

theorem placed_child_of_lands {place : Location}
    (hlands : t.place (landing t (source.child name) (landing s source destination)) = place)
    (hnested : origin ++ [name] <+: place → origin ++ [name] ≠ place → origin <+: target) :
    Placed t (source.child name) (landing s source destination) (origin ++ [name]) place where
  linkFree := hplaced.linkFree.of_sameLinks hconfined.links
  sourcePlace := by
    rw [place_child source hname.ne_dot hname.ne_dotDot,
      place_of_start ((h.apart hsource).1.start hconfined.pruned), hplaced.sourcePlace]
  targetPlace := hlands
  anchors _ hpre hne := by
    rw [landing_anchor]
    exact hplaced.anchors hsource (hnested hpre hne) hdistinct

theorem placed_into (hinto : t.isDirectory (landing s source destination) = .ok true) :
    Placed t (source.child name) (landing s source destination) (origin ++ [name])
      (target ++ [name]) := by
  refine h.placed_child_of_lands hplaced hsource hdistinct hconfined hname ?_ fun hpre hne ↦ ?_
  · rw [(h.child_into hsource hconfined hname hinto).1, place_child _ hname.ne_dot hname.ne_dotDot,
      place_of_start (h.start_landing hsource hconfined), hplaced.targetPlace]
  · rcases List.prefix_concat_iff.mp hpre with heq | hpre
    · exact absurd heq hne
    · exact (List.prefix_append _ _).trans hpre

theorem placed_onto (honto : t.isDirectory (landing s source destination) ≠ .ok true) :
    Placed t (source.child name) (landing s source destination) (origin ++ [name]) target := by
  refine h.placed_child_of_lands hplaced hsource hdistinct hconfined hname ?_
    fun hpre _ ↦ (List.prefix_append _ _).trans hpre
  rw [(h.child_onto hsource hconfined hname honto).1,
    place_of_start (h.start_landing hsource hconfined), hplaced.targetPlace]

/-- A merge goes on conserving contents if the move of the next name does. -/
theorem conserved_next {e : Entry} (hdir : s.entry? origin = some .dir)
    (hfound : s.target .followed (landing s source destination) = .ok (.found target e))
    (hclean : (landing s source destination).hasNul = false)
    (hspared : Spared s origin target t)
    (hconfined' : ∀ place, Mergeable t (source.child name) (landing s source destination)
      (origin ++ [name]) place → t.Confined (origin ++ [name])
        (landing t (source.child name) (landing s source destination)) place t')
    (hmoved : ∀ place, Mergeable t (source.child name) (landing s source destination)
      (origin ++ [name]) place → Placed t (source.child name) (landing s source destination)
      (origin ++ [name]) place → Conserved t (source.child name) (landing s source destination)
      (origin ++ [name]) place t') :
    Spared s origin target t' ∧ t'.contents = t.contents := by
  by_cases hinto : t.isDirectory (landing s source destination) = .ok true
  · have hmergeable := (h.child_into hsource hconfined hname hinto).2
    have hchild := hmoved _ hmergeable
      (h.placed_into hplaced hsource hdistinct hconfined hname hinto)
    exact ⟨hspared.next (hconfined' _ hmergeable).pruned hdir hdistinct hchild.toSpared,
      hchild.contents.resolve_right fun hbroken ↦ hbroken.1 hinto⟩
  · have hmergeable := (h.child_onto hsource hconfined hname hinto).2
    have hchild := hmoved _ hmergeable (h.placed_onto hplaced hsource hdistinct hconfined hname hinto)
    have hthere : s.entry? target ≠ none := by
      refine (h.found_there hfound).resolve_right fun ⟨_, hother⟩ ↦ hinto ?_
      exact isDirectory_eq_true_iff.mpr
        ⟨hclean, target, hother t (h.start_landing hsource hconfined)⟩
    obtain ⟨entry, hentry⟩ := Option.ne_none_iff_exists'.mp hthere
    have hstays := hspared.stays (List.prefix_refl _) hentry
    have hsame := hchild.taken hinto (by simp [hstays])
    exact ⟨hspared.next_same hchild.toSpared hsame,
      contents_eq_of_same hconfined.wellFormed (hconfined' _ hmergeable).wellFormed hsame⟩

end Children

section Moves

variable {directory : Location} {names : List String}
  (h : Mergeable s source destination origin target)
  (hplaced : Placed s source destination origin target)
include h hplaced

/-- The moves of the names, one after another, conserve contents if each of them does. -/
theorem conserved_children {e : Entry} (hsource : s.isDirectory source = .ok true)
    (hdistinct : origin ≠ target)
    (hfound : s.target .followed (landing s source destination) = .ok (.found target e))
    (hclean : (landing s source destination).hasNul = false)
    (hlisted : s.listed source = .ok directory) (hnames : names ⊆ s.names directory)
    (hmoved : ∀ {t t' : Store} {p q : Path} {l place : Location}, Mergeable t p q l place →
      Placed t p q l place → Moves .merge depth t p q t' → Conserved t p q l place t')
    (hchildren : Relation.ReflTransGen
      (fun t t' ↦ ∃ name ∈ names,
        Moves .merge depth t (source.child name) (landing s source destination) t') s t) :
    Spared s origin target t ∧ t.contents = s.contents := by
  induction hchildren with
  | refl => exact ⟨.refl _ _ _, rfl⟩
  | tail hbefore hchild hso =>
    obtain ⟨hspared, hcontents⟩ := hso
    obtain ⟨name, hmem, hchild⟩ := hchild
    have hconfined := h.confined_children hsource hnames (fun h hmoves ↦ hmoves.confined h) hbefore
    obtain ⟨hspared', hcontents'⟩ := h.conserved_next hplaced hsource hdistinct hconfined
      (h.isName_of_names hnames hmem) (h.dir_of_names hlisted hnames hmem) hfound hclean hspared
      (fun _ hmergeable ↦ hchild.confined hmergeable)
      fun _ hmergeable hplaced ↦ hmoved hmergeable hplaced hchild
    exact ⟨hspared', hcontents'.trans hcontents⟩

/-- Nothing is moved to a place below itself. -/
theorem eq_of_nested {result : Except Failure Unit} (hthere : s.exists? source = .ok true)
    (hpre : origin <+: target) (hne : origin ≠ target)
    (hmove : (StoreAction.moveEntry source (landing s source destination)).run s = (result, s')) :
    s' = s := by
  have hproper : (landing s source destination).Proper :=
    proper_landing h.properSource h.properDestination
  have hends : MoveEnds s source (landing s source destination) _ _ := moveEnds h.wellFormed hproper
  rw [hmove] at hends
  refine hends.eq_of_nested h.wellFormed hplaced.linkFree hproper (fun hfound ↦ ?_)
    (by rwa [hplaced.sourcePlace, hplaced.targetPlace])
  have hsource := isDirectory_eq_true_iff.mpr ⟨(exists_eq_true_iff.mp hthere).1, hfound⟩
  rw [landing_anchor]
  exact hplaced.anchors hsource hpre hne

end Moves

end Mergeable

/-- A merge in a store without symbolic links conserves contents. -/
theorem Moves.conserved (h : Mergeable s source destination origin target)
    (hplaced : Placed s source destination origin target)
    (hmoves : Moves .merge depth s source destination s') :
    Conserved s source destination origin target s' := by
  induction depth generalizing s s' source destination origin target with
  | zero =>
    obtain rfl : s' = s := hmoves
    exact .refl _ _ _ _ _
  | succ depth ih =>
    cases mergeStep_of_moves h.wellFormed h.lands h.targetLinks hmoves with
    | still => exact .refl _ _ _ _ _
    | transfer hthere hclear hplaces hclean hmove =>
      by_cases hnested : origin <+: target ∧ origin ≠ target
      · rw [h.eq_of_nested hplaced hthere hnested.1 hnested.2 hmove]
        exact .refl _ _ _ _ _
      · have hapart (hpre : origin <+: target) : origin = target :=
          not_not.mp fun hne ↦ hnested ⟨hpre, hne⟩
        exact .of_transfer h hapart hclean hplaces hthere (h.transfer hthere hclear hmove)
    | @merged s₁ _ directory names hsource hdirectory hsame hthere hlisted hnames hchildren hlast =>
      obtain ⟨hdistinct, e, hfound⟩ := h.distinct hsource hsame hthere
      have hclean := (exists_eq_true_iff.mp hthere).1
      have hconfined :=
        h.confined_children hsource hnames (fun h hmoves ↦ hmoves.confined h) hchildren
      obtain ⟨hspared, hcontents⟩ := h.conserved_children hplaced hsource hdistinct hfound hclean
        hlisted hnames ih hchildren
      have hsame : Spared s origin target s' ∧ s'.contents = s.contents := by
        rcases hlast with rfl | hremove
        · exact ⟨hspared, hcontents⟩
        · obtain ⟨hdir, hempty, rfl⟩ := h.erased hsource hconfined hremove
          have hfree := (h.found_there hfound).imp_right fun ⟨hpre, _⟩ ↦
            h.not_prefix_of_start hsource hdistinct hpre
          refine ⟨hspared.erased hconfined.wellFormed hdir hempty hfree hdistinct, ?_⟩
          rw [← hcontents]
          exact contents_eq_of_same hconfined.wellFormed
            (hconfined.wellFormed.erase (isEmptyDir_iff.mp hempty)) (contentAt?_erase hdir)
      exact ⟨hsame.1, .inl hsame.2, fun hnot ↦ absurd hdirectory hnot⟩

end Executor

end DeferredOps
