import DeferredOps.Proofs.Store.Places

/-!
# Transfers

A move of an entry that replaces nothing can do five things: nothing at all, make parents of its
target, leave a part of a copy there, carry the entry over, or copy a directory and remove the
original. All of them take away nothing but the source and add nothing but the target and
directories on the way to it.
-/

namespace DeferredOps

open Action

namespace Store

/-- Nothing has been taken away but at or below a location. -/
structure Pruned (s : Store) (location : Location) (s' : Store) : Prop where
  kept {l e} (hl : ¬ location <+: l) (h : s.entry? l = some e) : s'.entry? l = some e
  current (h : ¬ location <+: s.current) : s'.current = s.current

/-- In a store with these symbolic links a beginning of the path leads to a directory there. -/
def Passes (s : Store) (p : Path) (location : Location) : Prop :=
  ∃ t, s.SameLinks t ∧ t.start p = s.start p ∧ t.OnWay p location

/-- Nothing has been taken away but at or below the origin, and nothing has been added but at or below
the target and directories on the way to it. -/
structure Confined (s : Store) (origin : Location) (p : Path) (target : Location) (s' : Store) :
    Prop where
  wellFormed : s'.WellFormed
  links : s.SameLinks s'
  pruned : s.Pruned origin s'
  added {l e} (h : s'.entry? l = some e) :
    s.entry? l = some e ∨ target <+: l ∨ e = .dir ∧ s.Passes p l

/-- A directory is not renamed, and the copy that is made instead breaks off. -/
structure BrokenCopy (s : Store) (source destination : Path) : Prop where
  directory : ∃ l, s.target .followed source = .ok (.found l .dir)
  rename : ∀ t, s.rename source destination ≠ .ok t
  copy : ∃ f, ((StoreAction.copyTree source destination).run s).1 = .error f

/-- Once its parents are made the path leads to a free name at the location. -/
def Vacant (s : Store) (p : Path) (location : Location) : Prop :=
  ∃ made directory name, s.MadeParents p p.parts.length made ∧ location = directory ++ [name] ∧
    made.Free p directory name

/-- What a move to a path can do with what is at a location, where it replaces nothing. -/
inductive Transfer (s : Store) (source : Path) (origin : Location) (p : Path) (target : Location) :
    Store → Prop
  | made {s' : Store} (hmade : s.MadeParents p p.parts.length s') :
      Transfer s source origin p target s'
  | broken {made s' : Store} {directory : Location} {name : String}
      (hbroken : s.BrokenCopy source p) (hmade : s.MadeParents p p.parts.length made)
      (htarget : target = directory ++ [name]) (hfree : made.Free p directory name)
      (hcopying : made.Copying origin target s') : Transfer s source origin p target s'
  | carried {directory : Location} {name : String} (htarget : target = directory ++ [name])
      (hcan : s.CanCarry origin directory name) (hfree : s.entry? target = none) :
      Transfer s source origin p target (s.carry origin target)
  | copied {made t s' : Store} (horigin : s.entry? origin = some .dir)
      (hmade : s.MadeParents p p.parts.length made) (hfree : made.entry? target = none)
      (hcopying : made.Copying origin target t) (hcopied : s.Copied t origin target)
      (hremoved : s' = t.clear origin ∨ s' = (t.clear origin).erase origin) :
      Transfer s source origin p target s'

variable {s s' s'' : Store} {source p : Path} {origin target location directory : Location}
  {name : String}

/-- Making directories fills no other names. -/
theorem GrowsDirs.none {made : Store} (hg : s.GrowsDirs made) (h : made.entry? location = none) :
    s.entry? location = none := by
  by_contra hsome
  obtain ⟨entry, hentry⟩ := Option.ne_none_iff_exists'.mp hsome
  simp [hg.kept hentry] at h

theorem Vacant.none (h : s.Vacant p location) : s.entry? location = none := by
  obtain ⟨made, directory, name, hmade, rfl, hfree⟩ := h
  exact GrowsDirs.none hmade.grows hfree.free

theorem Vacant.not_isRemoved (h : s.Vacant p location) : isRemoved location = false := by
  obtain ⟨made, directory, name, -, rfl, hfree⟩ := h
  rw [isRemoved_concat, decide_eq_false_iff_not]
  exact hfree.isName.ne_empty

/-! ## Nothing else taken away -/

namespace Pruned

theorem refl (s : Store) (location : Location) : s.Pruned location s :=
  ⟨fun _ h ↦ h, fun _ ↦ rfl⟩

theorem trans (h : s.Pruned location s') (h' : s'.Pruned location s'') :
    s.Pruned location s'' where
  kept hl he := h'.kept hl (h.kept hl he)
  current hcurrent := by
    have hsame := h.current hcurrent
    exact (h'.current (hsame ▸ hcurrent)).trans hsame

/-- What lies below a name lies below the directory. -/
theorem widen (h : s.Pruned (location ++ [name]) s') : s.Pruned location s' where
  kept hl he := h.kept (fun hpre ↦ hl ((List.prefix_append _ _).trans hpre)) he
  current hcurrent := h.current fun hpre ↦ hcurrent ((List.prefix_append _ _).trans hpre)

end Pruned

theorem Grows.pruned {P : Location → Entry → Prop} (h : Grows P s s') (location : Location) :
    s.Pruned location s' :=
  ⟨fun _ hl ↦ h.kept hl, fun _ ↦ h.current⟩

theorem pruned_discard {gone : Location → Bool} (hgone : ∀ q, gone q → location <+: q) :
    s.Pruned location (s.discard gone) where
  kept {l e} hl he := by
    rw [entry?_discard, if_neg, he]
    rintro ⟨-, hmarked⟩
    exact hl (hgone l hmarked)
  current h := by
    refine markRemoved_eq_self fun q hq _ ↦ ?_
    by_contra hmarked
    exact h ((hgone q (by simpa using hmarked)).trans hq)

theorem pruned_erase (s : Store) (location : Location) : s.Pruned location (s.erase location) :=
  pruned_discard fun q hq ↦ by simp_all

theorem pruned_clear (s : Store) (location : Location) : s.Pruned location (s.clear location) :=
  pruned_discard fun _ hq ↦ (isStrictlyBelow_iff.mp hq).1

theorem pruned_of_removed {t : Store}
    (h : s' = t.clear location ∨ s' = (t.clear location).erase location) :
    t.Pruned location s' := by
  rcases h with rfl | rfl
  · exact pruned_clear t location
  · exact (pruned_clear t location).trans (pruned_erase _ location)

/-- Carrying an entry to a free name takes nothing else away. -/
theorem CanCarry.pruned (hs : s.WellFormed) (hcan : s.CanCarry origin directory name)
    (hfree : s.entry? (directory ++ [name]) = none) :
    s.Pruned origin (s.carry origin (directory ++ [name])) where
  kept {l e} hl he := by
    rw [hcan.entry?_carry_apart _ hl, he]
    intro hpre
    by_cases heq : l = directory ++ [name]
    · simp [heq, hfree] at he
    · simp [hcan.free l hpre heq] at he
  current hcurrent := by
    have hsame : markRemoved (· = directory ++ [name]) [] s.current = s.current := by
      refine markRemoved_eq_self fun q hq _ ↦ ?_
      rw [List.nil_append, decide_eq_false_iff_not]
      rintro rfl
      -- The current directory cannot be at or below a free name.
      rcases hs.current _ hq with hremoved | hdir
      · rw [isRemoved_concat, decide_eq_true_eq] at hremoved
        exact hcan.isName.ne_empty hremoved
      · simp [hfree] at hdir
    change relocated origin _ (markRemoved _ [] s.current) = _
    rw [hsame, relocated, if_neg (by simpa using hcurrent)]

/-! ## Confined changes -/

theorem OnWay.passes {made : Store} (hg : s.GrowsDirs made) (h : made.OnWay p location) :
    s.Passes p location :=
  ⟨made, GrowsDirs.sameLinks hg, hg.start p, h⟩

theorem Passes.congr (h : s'.Passes p location) (hlinks : s.SameLinks s')
    (hstart : s'.start p = s.start p) : s.Passes p location := by
  obtain ⟨t, hlinks', hstart', hway⟩ := h
  exact ⟨t, hlinks.trans hlinks', hstart'.trans hstart, hway⟩

/-- The way to a name leads over the way to its directory. -/
theorem Passes.of_child (h : s.Passes (p.child name) location)
    (hp : s.Points (p.child name) target) (hlink : ∀ text, s.entry? target ≠ some (.link text)) :
    location = target ∨ s.Passes p location := by
  obtain ⟨t, hlinks, hstart, front, hfront, hleads⟩ := h
  rcases List.prefix_concat_iff.mp hfront with rfl | hfront
  · left
    refine (hp.congr hlinks hstart).leads (fun text ↦ ?_) hleads
    rw [ne_eq, hlinks]
    exact hlink text
  · exact .inr ⟨t, hlinks, hstart, front, hfront, hleads⟩

namespace Confined

theorem refl (hs : s.WellFormed) (origin : Location) (p : Path) (target : Location) :
    s.Confined origin p target s :=
  ⟨hs, .refl s, .refl s origin, .inl⟩

theorem trans (h : s.Confined origin p target s') (h' : s'.Confined origin p target s'')
    (hstart : s'.start p = s.start p) : s.Confined origin p target s'' where
  wellFormed := h'.wellFormed
  links := h.links.trans h'.links
  pruned := h.pruned.trans h'.pruned
  added hl := by
    rcases h'.added hl with hold | hbelow | ⟨hdir, hpasses⟩
    · exact h.added hold
    · exact .inr (.inl hbelow)
    · exact .inr (.inr ⟨hdir, hpasses.congr h.links hstart⟩)

/-- What is confined to a name of the source is confined to the source. -/
theorem of_name (h : s.Confined (origin ++ [name]) p target s') : s.Confined origin p target s' :=
  ⟨h.wellFormed, h.links, h.pruned.widen, h.added⟩

/-- What is confined to names of the source and the target is confined to these. -/
theorem of_names (h : s.Confined (origin ++ [name]) (p.child name) (target ++ [name]) s')
    (hp : s.Points (p.child name) (target ++ [name])) (hlinks : s.NoLinks (target ++ [name])) :
    s.Confined origin p target s' where
  wellFormed := h.wellFormed
  links := h.links
  pruned := h.pruned.widen
  added hl := by
    rcases h.added hl with hold | hbelow | ⟨hdir, hpasses⟩
    · exact .inl hold
    · exact .inr (.inl ((List.prefix_append _ _).trans hbelow))
    · rcases hpasses.of_child hp hlinks.here with rfl | hpasses
      · exact .inr (.inl (List.prefix_append _ _))
      · exact .inr (.inr ⟨hdir, hpasses⟩)

end Confined

theorem entry?_of_discard {gone : Location → Bool} {entry : Entry}
    (h : entry? (s.discard gone) location = some entry) : s.entry? location = some entry := by
  rw [entry?_discard] at h
  split at h
  · cases h
  · exact h

/-- Taking away what is at or below a location where there are no links leaves all links. -/
theorem sameLinks_discard {gone : Location → Bool} (hlinks : s.NoLinks location)
    (hgone : ∀ q, gone q → location <+: q) : s.SameLinks (s.discard gone) := by
  intro l text
  rw [entry?_discard]
  split
  · next h => exact ⟨by simp, fun hl ↦ absurd hl (hlinks l text (hgone l h.2))⟩
  · exact Iff.rfl

theorem confined_discard {gone : Location → Bool} (hs : s.WellFormed) (hclosed : s.ClosedBelow gone)
    (hlinks : s.NoLinks origin) (hgone : ∀ q, gone q → origin <+: q) :
    s.Confined origin p target (s.discard gone) where
  wellFormed := hs.discard hclosed
  links := sameLinks_discard hlinks hgone
  pruned := pruned_discard hgone
  added h := .inl (entry?_of_discard h)

theorem confined_clear (hs : s.WellFormed) (hlinks : s.NoLinks origin) :
    s.Confined origin p target (s.clear origin) :=
  confined_discard hs closedBelow_clear hlinks fun _ hq ↦ (isStrictlyBelow_iff.mp hq).1

theorem confined_erase (hs : s.WellFormed) (hlinks : s.NoLinks origin)
    (hempty : ∀ name, s.entry? (origin ++ [name]) = none) :
    s.Confined origin p target (s.erase origin) :=
  confined_discard hs (closedBelow_erase hempty) hlinks fun _ hq ↦ by simp_all

theorem entry?_clear_concat (s : Store) (location : Location) (name : String) :
    entry? (s.clear location) (location ++ [name]) = none := by
  rw [entry?_clear, if_pos]
  exact isStrictlyBelow_iff.mpr ⟨List.prefix_append _ _, by simp⟩

theorem confined_of_removed (hs : s.WellFormed) (hlinks : s.NoLinks origin)
    (h : s' = s.clear origin ∨ s' = (s.clear origin).erase origin) :
    s.Confined origin p target s' := by
  have hclear : s.Confined origin p target (s.clear origin) := confined_clear hs hlinks
  rcases h with rfl | rfl
  · exact hclear
  · have herase : (s.clear origin).Confined origin p target ((s.clear origin).erase origin) :=
      confined_erase hs.clear (hlinks.congr hclear.links) (entry?_clear_concat s origin)
    exact ⟨herase.wellFormed, hclear.links.trans herase.links, hclear.pruned.trans herase.pruned,
      fun h ↦ .inl (entry?_of_discard (entry?_of_discard h))⟩

theorem MadeParents.confined {parents : ℕ} (h : s.MadeParents p parents s')
    (origin target : Location) :
    s.Confined origin p target s' where
  wellFormed := h.wellFormed
  links := GrowsDirs.sameLinks h.grows
  pruned := h.grows.pruned origin
  added {l e} hl := by
    rcases h.grows.added hl with hold | rfl
    · exact .inl hold
    · exact (h.onWay hl).imp_right fun hway ↦ .inr ⟨rfl, hway.passes h.grows⟩

theorem Copying.confined (h : s.Copying origin target s') (hlinks : s.NoLinks origin) :
    s.Confined origin p target s' where
  wellFormed := h.wellFormed
  links l text := by
    refine ⟨fun hl ↦ (h.links hl).resolve_right ?_, h.grows.kept⟩
    rintro ⟨rest, hold⟩
    exact hlinks _ text (List.prefix_append _ _) hold
  pruned := h.grows.pruned origin
  added hl := (h.grows.added hl).imp_right .inl

theorem CanCarry.confined (hs : s.WellFormed) (hcan : s.CanCarry origin directory name)
    (hfree : s.entry? (directory ++ [name]) = none) (hlinks : s.NoLinks origin) :
    s.Confined origin p (directory ++ [name]) (s.carry origin (directory ++ [name])) where
  wellFormed := hs.carry hcan
  links l text := by
    constructor
    · exact hcan.carry_cases (P := fun l ↦ s.entry? l = some (.link text))
        (fun rest hold ↦ absurd hold (hlinks _ text (List.prefix_append _ _))) fun _ _ hold ↦ hold
    · intro hold
      exact (hcan.pruned hs hfree).kept (fun hpre ↦ hlinks l text hpre hold) hold
  pruned := hcan.pruned hs hfree
  added {l e} h := by
    by_cases hbelow : directory ++ [name] <+: l
    · exact .inr (.inl hbelow)
    · rw [hcan.entry?_carry, if_neg hbelow] at h
      split at h
      · cases h
      · exact .inl h

/-- A transfer of what holds no symbolic links is confined. -/
theorem Transfer.confined (hs : s.WellFormed) (hlinks : s.NoLinks origin)
    (h : s.Transfer source origin p target s') : s.Confined origin p target s' := by
  have hcopy {made t : Store} (hmade : s.MadeParents p p.parts.length made)
      (hcopying : made.Copying origin target t) : s.Confined origin p target t :=
    (hmade.confined origin target).trans
      (hcopying.confined (hlinks.congr (GrowsDirs.sameLinks hmade.grows))) (hmade.grows.start p)
  cases h with
  | made hmade => exact hmade.confined origin target
  | broken _ hmade _ _ hcopying => exact hcopy hmade hcopying
  | carried htarget hcan hfree =>
    subst htarget
    exact hcan.confined hs hfree hlinks
  | @copied made t _ _ hmade _ hcopying _ hremoved =>
    have hcopied := hcopy hmade hcopying
    refine hcopied.trans (confined_of_removed hcopying.wellFormed (hlinks.congr hcopied.links)
      hremoved) ?_
    rw [hcopying.grows.start, hmade.grows.start]

/-! ## Renames that succeed -/

/-- What is not at or above a free name can be renamed to it. -/
theorem exists_rename {d d' : Location} {n n' : String} {destination : Path} {entry : Entry}
    (hs : s.WellFormed) (hslot : s.slot source = .ok (.name d n))
    (hslot' : s.slot destination = .ok (.name d' n')) (hentry : s.entry? (d ++ [n]) = some entry)
    (hfree : s.entry? (d' ++ [n']) = none) (hapart : ¬ d ++ [n] <+: d' ++ [n']) :
    ∃ t, s.rename source destination = .ok t := by
  have hbelow : isStrictlyBelow (d' ++ [n']) (d ++ [n]) = false := by
    rw [Bool.eq_false_iff, ne_eq, isStrictlyBelow_iff]
    exact fun h ↦ hapart h.1
  have habove : isStrictlyBelow (d ++ [n]) (d' ++ [n']) = false := by
    rw [Bool.eq_false_iff, ne_eq, isStrictlyBelow_iff]
    exact fun h ↦ not_prefix_of_free hs (by simp [hentry]) hfree h.1
  refine ⟨s.carry (d ++ [n]) (d' ++ [n']), ?_⟩
  simp [rename, hslot, hslot', bind, Except.bind, carryChecked, hentry, hfree, hbelow, habove]

end Store

/-! ## Moves of entries -/

namespace StoreAction

open Store

variable {s s' : Store} {source destination : Path} {origin target : Location}
  {result : Except Failure Unit}

/-- A path to a directory where no symbolic link stands leads there also without following one. -/
theorem kept_of_followed {l : Location} (hsource : s.Points source origin)
    (hlinks : s.NoLinks origin) (hfound : s.target .followed source = .ok (.found l .dir)) :
    l = origin ∧ s.target .kept source = .ok (.found origin .dir) := by
  obtain ⟨hshort, hleads⟩ := target_eq_ok_iff.mp hfound
  obtain rfl : l = origin := hsource.target hlinks.here hfound
  obtain ⟨t, hkept, rfl | ⟨text, hentry⟩⟩ := hleads.exists_kept
  · exact ⟨rfl, target_eq_ok_iff.mpr ⟨hshort, hkept⟩⟩
  · rw [hsource s t (.refl s) rfl hkept] at hentry
    exact absurd hentry (hlinks.here text)

/-- A removal that begins takes away what was in the directory, however it ends. -/
theorem RemovalEnds.removed_cases {p : Path} (hs : s.WellFormed) (hclean : p.hasNul = false)
    (hfound : s.target .kept p = .ok (.found origin .dir)) (h : RemovalEnds s p result s') :
    s' = s.clear origin ∨ s' = (s.clear origin).erase origin := by
  have hsame {l : Location} (htarget : s.target .kept p = .ok (.found l .dir)) : l = origin := by
    rw [hfound] at htarget
    cases htarget
    rfl
  cases h with
  | refused hnot =>
    rcases hnot with hnul | hnone
    · simp [hclean] at hnul
    · exact absurd hfound (hnone origin)
  | emptied htarget => exact .inl (by rw [hsame htarget])
  | removed htarget hremove =>
    obtain ⟨d, n, -, -, htarget', -, rfl⟩ := (RemovalEnds.removed htarget hremove).removed_dir hs
    exact .inr (by rw [hsame htarget'])

/-- A file that could be copied is renamed instead. -/
theorem exists_rename_of_file {l : Location} {id : ℕ} {content : Bytes} {change : Bytes → Bytes}
    {made : Store} (hs : s.WellFormed)
    (hfound : s.target .followed source = .ok (.found l (.file id content)))
    (hwrite : s.write destination change = .ok made) :
    ∃ t, s.rename source destination = .ok t := by
  obtain ⟨d, n, hslot, hfile, hnone⟩ := slot_of_target hfound (by simp)
  obtain ⟨entry, hentry⟩ := Option.ne_none_iff_exists'.mp fun h ↦ by simpa using hnone h
  obtain ⟨d', n', hslot', hfile'⟩ : ∃ d' n', s.slot destination = .ok (.name d' n') ∧
      s.entry? (d' ++ [n']) ≠ some .dir := by
    rcases write_ok hwrite with ⟨_, _, _, hwritten, -⟩ | ⟨_, _, hwritten, -⟩
    · obtain ⟨d', n', hslot', hfile', -⟩ := slot_of_target hwritten (by simp)
      exact ⟨d', n', hslot', hfile'⟩
    · obtain ⟨d', n', hslot', hfile', -⟩ := slot_of_target hwritten (by simp)
      exact ⟨d', n', hslot', hfile'⟩
  -- Neither of the two lies below the other, since neither is a directory.
  have hapart {l directory : Location} (name : String) (hl : s.entry? l ≠ some .dir)
      (hdir : s.entry? directory = some .dir) : isStrictlyBelow (directory ++ [name]) l = false := by
    rw [Bool.eq_false_iff, ne_eq, isStrictlyBelow_iff]
    rintro ⟨hpre, hne⟩
    rcases List.prefix_concat_iff.mp hpre with rfl | hpre
    · exact hne rfl
    · exact hl (hs.dir_of_prefix hdir hpre)
  have hbelow := hapart n' hfile (dir_of_slot hs hslot')
  have habove := hapart n hfile' (dir_of_slot hs hslot)
  simp only [rename, hslot, hslot', bind, Except.bind, carryChecked, hentry, hbelow, habove,
    Bool.false_eq_true, if_false]
  cases hold : s.entry? (d' ++ [n']) with
  | none => exact ⟨_, rfl⟩
  | some old =>
    have hplain : entry.isDir = false ∧ old.isDir = false := by
      rw [hentry] at hfile
      rw [hold] at hfile'
      constructor
      · cases entry <;> simp_all [Entry.isDir]
      · cases old <;> simp_all [Entry.isDir]
    simp only [checkReplace, hplain, Bool.false_eq_true, if_false]
    split <;> exact ⟨_, rfl⟩

section Ends

variable (hs : s.WellFormed) (hsource : s.Points source origin)
  (hdestination : s.Points destination target)
  (horigin : s.NoLinks origin) (htarget : s.NoLinks target) (hproper : destination.Proper)
  (hclear : ∀ l e l' e', s.target .followed source = .ok (.found l e) →
    s.target .followed destination = .ok (.found l' e') → ¬ (e' = .dir ↔ e = .dir))
include hs hsource hdestination horigin htarget hproper hclear

/-- A rename that replaces nothing carries its source to a free name, if it does anything. -/
theorem carried_of_rename_free (hnul : destination.hasNul = false)
    (hrename : s.rename source destination = .ok s') :
    s' = s ∨ ∃ directory name, target = directory ++ [name] ∧ s.CanCarry origin directory name ∧
      s.entry? target = none ∧ s' = s.carry origin target := by
  obtain ⟨d, n, d', n', hslot, hslot', hcarry⟩ := rename_ok hrename
  have hname := isName_of_slot hproper hnul hslot'
  rcases carryChecked_ok hs (by simp) (dir_of_slot hs hslot') hname hcarry with
    ⟨rfl, -⟩ | ⟨hcan, rfl, hkinds⟩
  · exact .inl rfl
  have horigin' := hsource.slot hslot
  have htarget' := hdestination.slot hslot'
  -- What stood at the target would have been replaced, but nothing did.
  have hfree : s.entry? (d' ++ [n']) = none := by
    by_contra hthere
    obtain ⟨old, hold⟩ := Option.ne_none_iff_exists'.mp hthere
    obtain ⟨entry, hentry⟩ := Option.isSome_iff_exists.mp hcan.found
    have hlink {l : Location} {e : Entry} (hl : s.NoLinks l) (he : s.entry? l = some e) :
        e.isLink = false := by
      cases e <;> first | rfl | exact absurd he (hl.here _)
    refine hclear _ _ _ _ (target_of_slot hslot hentry (hlink (horigin' ▸ horigin) hentry))
      (target_of_slot hslot' hold (hlink (htarget' ▸ htarget) hold)) ?_
    simpa [hentry] using hkinds old hold
  rw [← horigin', ← htarget']
  exact .inr ⟨d', n', rfl, hcan, hfree, rfl⟩

/-- What is no directory is carried to a free name, or it is not moved. -/
theorem MoveEnds.carried_of_file (hfile : ∀ l, s.target .followed source ≠ .ok (.found l .dir))
    (h : MoveEnds s source destination result s') :
    s' = s ∨ ∃ directory name, target = directory ++ [name] ∧ s.CanCarry origin directory name ∧
      s.entry? target = none ∧ s' = s.carry origin target := by
  cases h with
  | refused => exact .inl rfl
  | renamed hnul hrename =>
    exact carried_of_rename_free hs hsource hdestination horigin htarget hproper hclear hnul hrename
  | linked _ hfound =>
    have hlocation := hsource.target horigin.here (entryAt_eq_some_iff.mp hfound).2
    obtain rfl : _ = origin := hlocation
    exact absurd (entry?_of_link hs hfound) (horigin.here _)
  | copyFailed _ hfound => exact absurd hfound (hfile _)
  | copied _ hfound => exact absurd hfound (hfile _)
  | copiedFile hrename hfound hwrite =>
    obtain ⟨t, ht⟩ := exists_rename_of_file hs hfound hwrite
    exact absurd ht (hrename t)

/-- A move is a transfer if its destination leads to nothing, or to what the source cannot replace,
and if no symbolic links are at the source and the target. -/
theorem MoveEnds.transfer (hclean : source.hasNul = false)
    (h : MoveEnds s source destination result s') :
    s.Transfer source origin destination target s' := by
  by_cases hfile : ∀ l, s.target .followed source ≠ .ok (.found l .dir)
  · rcases h.carried_of_file hs hsource hdestination horigin htarget hproper hclear hfile with
      rfl | ⟨directory, name, heq, hcan, hfree, rfl⟩
    · exact .made (.refl hs _ _)
    · exact .carried heq hcan hfree
  have hstarts {d : Location} {n : String} {made : Store} (h : CopyStarts s destination d n made) :
      d ++ [n] = target ∧ made.entry? target = none := by
    have hlinks := htarget.congr (GrowsDirs.sameLinks h.parents.grows)
    have hleads : made.Leads .kept linkLimit (made.start destination) destination.parts
        (.absent d n) := h.free.leads_parts h.parents.wellFormed
    obtain rfl : d ++ [n] = target :=
      (hdestination.grows h.parents.grows).leads hlinks.here hleads
    exact ⟨rfl, h.free.free⟩
  obtain ⟨l₀, hdirectory⟩ := not_forall_not.mp hfile
  cases h with
  | refused => exact .made (.refl hs _ _)
  | renamed hnul hrename =>
    rcases carried_of_rename_free hs hsource hdestination horigin htarget hproper hclear hnul
      hrename with rfl | ⟨directory, name, heq, hcan, hfree, rfl⟩
    · exact .made (.refl hs _ _)
    · exact .carried heq hcan hfree
  | linked _ hfound =>
    have hlocation := hsource.target horigin.here (entryAt_eq_some_iff.mp hfound).2
    obtain rfl : _ = origin := hlocation
    exact absurd (entry?_of_link hs hfound) (horigin.here _)
  | copyFailed hrename hfound _ _ hrun hunfinished =>
    obtain ⟨rfl, -⟩ := kept_of_followed hsource horigin hfound
    cases hunfinished with
    | unmade hmade => exact .made hmade
    | broken hbegun hcopying =>
      obtain ⟨rfl, -⟩ := hstarts hbegun
      exact .broken ⟨⟨_, hfound⟩, hrename, _, by rw [hrun]⟩ hbegun.parents rfl hbegun.free hcopying
  | copied _ hfound _ hanchored hbegun hcopying _ hcopied hremove =>
    obtain ⟨rfl, hkept⟩ := kept_of_followed hsource horigin hfound
    obtain ⟨rfl, hfree⟩ := hstarts hbegun
    have hthere := (target_eq_ok_iff.mp hfound).2.found_there hs (hanchored.1.start_dir hs)
    refine .copied hthere hbegun.parents hfree hcopying hcopied ?_
    exact hremove.removed_cases hcopying.wellFormed hclean ((hbegun.extends hcopying).target hkept)
  | copiedFile _ hfound =>
    rw [hdirectory] at hfound
    cases hfound

end Ends

end StoreAction

end DeferredOps
