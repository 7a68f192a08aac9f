import DeferredOps.Proofs.Store.Actions

/-!
# Stores that only grow

Making directories and copying add entries at free places and take nothing away. What led somewhere
before leads there afterwards.
-/

namespace DeferredOps

open Action

namespace Store

/-- Everything is still there, also the current directory, and what has been added is as `P` says. -/
structure Grows (P : Location → Entry → Prop) (s s' : Store) : Prop where
  kept {l e} (h : s.entry? l = some e) : s'.entry? l = some e
  added {l e} (h : s'.entry? l = some e) : s.entry? l = some e ∨ P l e
  current : s'.current = s.current

/-- Only directories have been added. -/
abbrev GrowsDirs : Store → Store → Prop := Grows fun _ e ↦ e = .dir

/-- Everything that has been added lies at or below a location. -/
abbrev GrowsAt (location : Location) : Store → Store → Prop := Grows fun l _ ↦ location <+: l

/-- Nothing has been taken away. -/
abbrev Extends : Store → Store → Prop := Grows fun _ _ ↦ True

variable {P P' : Location → Entry → Prop} {s s' s'' : Store} {location directory : Location}
  {name : String} {entry : Entry} {p : Path} {last : LastLink} {links : ℕ} {names : List String}

namespace Grows

theorem refl (s : Store) : Grows P s s :=
  ⟨fun h ↦ h, fun h ↦ .inl h, rfl⟩

theorem trans (h : Grows P s s') (h' : Grows P s' s'') : Grows P s s'' where
  kept hl := h'.kept (h.kept hl)
  added hl := (h'.added hl).elim h.added .inr
  current := h'.current.trans h.current

theorem mono (h : Grows P s s') (himp : ∀ l e, P l e → P' l e) : Grows P' s s' where
  kept := h.kept
  added hl := (h.added hl).imp_right (himp _ _)
  current := h.current

theorem toExtends (h : Grows P s s') : s.Extends s' :=
  h.mono fun _ _ _ ↦ trivial

theorem start (h : Grows P s s') (p : Path) : s'.start p = s.start p := by
  unfold Store.start
  rw [h.current]

theorem leads (h : Grows P s s') (hl : s.Leads last links directory names (.found location entry)) :
    s'.Leads last links directory names (.found location entry) :=
  hl.of_subset_found fun _ _ ↦ h.kept

theorem target (h : Grows P s s') (ht : s.target last p = .ok (.found location entry)) :
    s'.target last p = .ok (.found location entry) := by
  rw [target_eq_ok_iff, h.start] at *
  exact ht.imp_right h.leads

theorem none (h : Grows P s s') (hl : s.entry? location = none) (hP : ∀ e, ¬ P location e) :
    s'.entry? location = none := by
  by_contra hsome
  obtain ⟨e, he⟩ := Option.ne_none_iff_exists'.mp hsome
  rcases h.added he with hold | hnew
  · simp [hl] at hold
  · exact hP e hnew

end Grows

theorem grows_put (hne : location ≠ []) (hfree : s.entry? location = none) (hP : P location entry) :
    Grows P s (s.put location entry) where
  kept {l e} h := by
    rw [entry?_put hne, if_neg, h]
    rintro rfl
    simp [hfree] at h
  added {l e} h := by
    rw [entry?_put hne] at h
    split at h
    · next heq =>
      obtain rfl := Option.some.inj h
      exact .inr (heq ▸ hP)
    · exact .inl h
  current := rfl

/-! ## Free names -/

/-- The path leads to a name that is free in a directory. -/
structure Free (s : Store) (p : Path) (directory : Location) (name : String) : Prop where
  leads : ∃ front, p.parts = front ++ [name] ∧
    s.Leads .followed linkLimit (s.start p) front (.found directory .dir)
  dir : s.entry? directory = some .dir
  isName : IsName name
  free : s.entry? (directory ++ [name]) = none

theorem WellFormed.lookedUp (hs : s.WellFormed) (hdir : s.entry? directory = some .dir)
    (hname : IsName name) : LookedUp directory name :=
  ⟨hname.ne_dot, hname.ne_dotDot, hs.not_isRemoved hdir, hname.short⟩

namespace Free

theorem leads_parts (h : s.Free p directory name) (hs : s.WellFormed) :
    s.Leads last linkLimit (s.start p) p.parts (.absent directory name) := by
  obtain ⟨front, hparts, hfront⟩ := h.leads
  rw [hparts]
  exact hfront.join (.absent (hs.lookedUp h.dir h.isName) h.free) (by simp)

theorem target_eq {t : Target} (h : s.Free p directory name) (hs : s.WellFormed)
    (ht : s.target last p = .ok t) : t = .absent directory name :=
  (target_eq_ok_iff.mp ht).2.unique (h.leads_parts hs)

theorem slot_eq {slot : Slot} (h : s.Free p directory name) (hs : s.WellFormed)
    (hslot : s.slot p = .ok slot) : slot = .name directory name := by
  obtain ⟨front, hparts, hfront⟩ := h.leads
  by_cases hshort : p.text.utf8ByteSize < pathLimit
  · have hname := slot_eq_name_iff.mpr
      ⟨hshort, front, hparts, hfront, hs.lookedUp h.dir h.isName⟩
    exact Except.ok.inj (hslot.symm.trans hname)
  · have hlong : pathLimit ≤ p.text.utf8ByteSize := by omega
    simp [Store.slot, startChecked, hlong, bind, Except.bind] at hslot

/-- An entry that is created at the end of the path is put at the free name. -/
theorem create_eq (h : s.Free p directory name) (hs : s.WellFormed)
    (hcreate : s.create p entry = .ok s') : s' = s.put (directory ++ [name]) entry := by
  obtain ⟨d, n, hslot, -, rfl⟩ := create_eq_ok_iff.mp hcreate
  obtain ⟨rfl, rfl⟩ := Slot.name.inj (h.slot_eq hs hslot)
  rfl

theorem write_eq (h : s.Free p directory name) (hs : s.WellFormed) {change : Bytes → Bytes}
    (hwrite : s.write p change = .ok s') :
    s' = s.putFile (directory ++ [name]) (change []) := by
  rcases write_ok hwrite with ⟨l, id, content, htarget, -⟩ | ⟨d, n, htarget, rfl⟩
  · cases h.target_eq hs htarget
  · obtain ⟨rfl, rfl⟩ := Target.absent.inj (h.target_eq hs htarget)
    rfl

theorem wellFormed_put (h : s.Free p directory name) (hs : s.WellFormed)
    (hlink : ∀ text, entry = .link text → '\x00' ∉ text.toList) :
    (s.put (directory ++ [name]) entry).WellFormed :=
  hs.put h.dir h.isName h.free hlink

theorem grows_put (h : s.Free p directory name) :
    s.GrowsAt (directory ++ [name]) (s.put (directory ++ [name]) entry) :=
  Store.grows_put (by simp) h.free (List.prefix_refl _)

end Free

theorem free_of_create (hs : s.WellFormed) (hp : p.Proper) (hnul : p.hasNul = false)
    (h : s.create p entry = .ok s') :
    ∃ d n, s.Free p d n ∧ s' = s.put (d ++ [n]) entry := by
  obtain ⟨d, n, hslot, hnone, rfl⟩ := create_eq_ok_iff.mp h
  obtain ⟨-, front, hparts, hfront, -⟩ := slot_eq_name_iff.mp hslot
  have hfree : s.Free p d n :=
    ⟨⟨front, hparts, hfront⟩, dir_of_slot hs hslot, isName_of_slot hp hnul hslot, hnone⟩
  exact ⟨d, n, hfree, rfl⟩

/-! ## Missing parents -/

theorem length_put_le (s : Store) (location : Location) (entry : Entry) :
    (s.put location entry).entries.length ≤ s.entries.length + 1 := by
  have := List.length_filter_le (fun e ↦ decide (e.1 ≠ location)) s.entries
  simpa [put] using this

/-- A beginning of the path leads to the directory. -/
def OnWay (s : Store) (p : Path) (location : Location) : Prop :=
  ∃ front, front <+: p.parts ∧ s.Leads .followed linkLimit (s.start p) front (.found location .dir)

theorem OnWay.of_parent (h : s.OnWay p.parent location) : s.OnWay p location := by
  obtain ⟨front, hfront, hleads⟩ := h
  exact ⟨front, hfront.trans (List.dropLast_prefix _), hleads⟩

theorem OnWay.grows (h : s.OnWay p location) (hg : Grows P s s') : s'.OnWay p location := by
  obtain ⟨front, hfront, hleads⟩ := h
  exact ⟨front, hfront, by rw [hg.start]; exact hg.leads hleads⟩

/-- Missing parents of a path are made as directories on its way, at most one for each name. -/
structure MadeParents (s : Store) (p : Path) (parents : ℕ) (s' : Store) : Prop where
  wellFormed : s'.WellFormed
  grows : s.GrowsDirs s'
  length : s'.entries.length ≤ s.entries.length + parents
  onWay {l} (h : s'.entry? l = some .dir) : s.entry? l = some .dir ∨ s'.OnWay p l
  opened : s'.opened = s.opened

theorem MadeParents.refl (hs : s.WellFormed) (p : Path) (parents : ℕ) : s.MadeParents p parents s :=
  ⟨hs, .refl s, Nat.le_add_right _ _, .inl, rfl⟩

theorem MadeParents.mono {parents more : ℕ} (h : s.MadeParents p parents s')
    (hmore : parents ≤ more) : s.MadeParents p more s' :=
  ⟨h.wellFormed, h.grows, h.length.trans (Nat.add_le_add_left hmore _), h.onWay, h.opened⟩

theorem MadeParents.of_parent {parents : ℕ} (h : s.MadeParents p.parent parents s') :
    s.MadeParents p parents s' :=
  ⟨h.wellFormed, h.grows, h.length, fun hl ↦ (h.onWay hl).imp_right .of_parent, h.opened⟩

theorem MadeParents.make {parents : ℕ} (h : s.MadeParents p parents s')
    (hfree : s'.Free p directory name) :
    s.MadeParents p (parents + 1) (s'.put (directory ++ [name]) .dir) := by
  have hput : s'.GrowsDirs (s'.put (directory ++ [name]) .dir) :=
    grows_put (by simp) hfree.free rfl
  refine ⟨hfree.wellFormed_put h.wellFormed (by simp), h.grows.trans hput, ?_, fun {l} hl ↦ ?_,
    h.opened⟩
  · have := length_put_le s' (directory ++ [name]) .dir
    have := h.length
    omega
  · rw [entry?_put (by simp)] at hl
    split at hl
    · next heq =>
      obtain ⟨front, hparts, hfront⟩ := hfree.leads
      have hname := h.wellFormed.lookedUp hfree.dir hfree.isName
      have hthere : entry? (s'.put (directory ++ [name]) .dir) (directory ++ [name]) = some .dir := by
        rw [entry?_put (by simp), if_pos rfl]
      refine .inr ⟨front ++ [name], by simp [hparts], ?_⟩
      rw [heq, hput.start]
      exact (hput.leads hfront).join (.enter hname hthere .done) (by simp)
    · exact (h.onWay hl).imp_right fun hway ↦ hway.grows hput

/-! ## Names below a path -/

theorem leads_spelledChild {t : Target}
    (hp : s.Leads .followed linkLimit (s.start p) p.parts (.found directory .dir))
    (hname : s.Leads last 0 directory [name] t) :
    s.Leads last linkLimit (s.start (p.spelledChild name)) (p.spelledChild name).parts t := by
  unfold Path.spelledChild
  split
  · next hhere =>
    obtain ⟨-, hnil⟩ : p.anchor = .here ∧ p.parts = [] := by simpa using hhere
    rw [hnil] at hp
    cases hp
    exact .dot (hname.mono (Nat.zero_le _))
  · exact hp.join hname (by simp)

theorem free_spelledChild
    (hp : s.Leads .followed linkLimit (s.start p) p.parts (.found directory .dir))
    (hdir : s.entry? directory = some .dir) (hname : IsName name)
    (hfree : s.entry? (directory ++ [name]) = none) :
    s.Free (p.spelledChild name) directory name := by
  refine ⟨?_, hdir, hname, hfree⟩
  unfold Path.spelledChild
  split
  · next hhere =>
    obtain ⟨-, hnil⟩ : p.anchor = .here ∧ p.parts = [] := by simpa using hhere
    rw [hnil] at hp
    cases hp
    exact ⟨["."], rfl, .dot .done⟩
  · exact ⟨p.parts, rfl, hp⟩

end Store

/-! ## Making directories -/

/-- A failure that is not the one of a whole copy. -/
def Failure.IsPlain (f : Failure) : Prop :=
  f ≠ .endlessCopy ∧ f ≠ .partialCopy []

theorem Failure.isPlain_system (e : SystemError) (path other : Option String) :
    (Failure.system e path other).IsPlain :=
  ⟨by simp, by simp⟩

namespace StoreAction

open Store

variable {s s' : Store} {p : Path} {location directory : Location} {name : String} {keep : Bool}

theorem ensures_change {P : Store → Prop} {Q : Unit → Store → Prop}
    {called : SystemError → Failure} {op : Store → Except SystemError Store}
    (hcalled : ∀ e, (called e).IsPlain)
    (h : ∀ s s', P s → p.hasNul = false → op s = .ok s' → Q () s') :
    Ensures P (change p called op) Q (fun f s ↦ P s ∧ f.IsPlain) := by
  intro s hs
  rw [run_change]
  split
  · exact ⟨hs, by simp, by simp⟩
  next hnul =>
  cases hop : op s with
  | ok s' => exact h s s' hs (by simpa using hnul) hop
  | error e => exact ⟨hs, hcalled e⟩

/-- A directory that is asked for is made, or nothing happens. -/
theorem ensures_makeLast (s : Store) (p : Path) :
    Ensures (· = s) (makeDirectoriesFrom.makeLast keep p)
      (fun _ s' ↦ keep ∧ s' = s ∨ p.hasNul = false ∧ s.makeDirectory p = .ok s')
      (fun f s' ↦ s' = s ∧ f.IsPlain) := by
  have hmake : Ensures (· = s) (makeDirectory p)
      (fun _ s' ↦ p.hasNul = false ∧ s.makeDirectory p = .ok s')
      (fun f s' ↦ s' = s ∧ f.IsPlain) :=
    ensures_change (fun _ ↦ Failure.isPlain_system ..) fun _ _ hs hnul h ↦ ⟨hnul, hs ▸ h⟩
  refine (hmake.weaken (fun _ hs ↦ hs) (fun _ _ hs ↦ .inr hs) fun _ _ hs ↦ hs).tryCatch fun f ↦ ?_
  refine ensures_assume_right fun hf ↦ ?_
  split
  · exact ensures_throw fun _ hs ↦ ⟨hs, hf⟩
  · refine ensures_get_bind fun t ht ↦ ?_
    split
    · exact ensures_throw fun _ hs ↦ ⟨hs.trans ht, hf⟩
    · next hkeep =>
      exact ensures_pure fun _ hs ↦ .inl ⟨by simp_all, hs.trans ht⟩

theorem leads_absent_of_create {last : LastLink} {entry : Entry}
    (h : s.create p entry = .ok s') :
    ∃ d n, s.Leads last linkLimit (s.start p) p.parts (.absent d n) := by
  obtain ⟨d, n, hslot, hnone, -⟩ := create_eq_ok_iff.mp h
  obtain ⟨-, front, hparts, hfront, hname⟩ := slot_eq_name_iff.mp hslot
  rw [hparts]
  exact ⟨d, n, hfront.join (.absent hname hnone) (by simp)⟩

/-- Where there is a directory already, nothing is made. -/
theorem ensures_makeDirectoriesFrom_of_leads (s : Store) (keep : Bool) (parents : ℕ)
    (h : s.Leads .followed linkLimit (s.start p) p.parts (.found location .dir)) :
    Ensures (· = s) (makeDirectoriesFrom keep p parents) (fun _ s' ↦ s' = s)
      (fun f s' ↦ s' = s ∧ f.IsPlain) := by
  have hlast {p : Path} {location : Location}
      (h : s.Leads .followed linkLimit (s.start p) p.parts (.found location .dir)) :
      Ensures (· = s) (makeDirectoriesFrom.makeLast keep p) (fun _ s' ↦ s' = s)
        (fun f s' ↦ s' = s ∧ f.IsPlain) := by
    refine (ensures_makeLast s p).weaken (fun _ hs ↦ hs) (fun _ s' hs ↦ ?_) fun _ _ hs ↦ hs
    rcases hs with ⟨-, heq⟩ | ⟨-, hmake⟩
    · exact heq
    · obtain ⟨d, n, habsent⟩ := leads_absent_of_create hmake
      cases h.unique habsent
  induction parents generalizing p location with
  | zero => exact hlast h
  | succ parents ih =>
    refine ensures_get_bind fun t ht ↦ ?_
    subst ht
    split
    · next hcondition =>
      have hne : p.parts ≠ [] := by
        rintro hnil
        simp [hnil] at hcondition
      have hparts := List.dropLast_append_getLast hne
      rw [← hparts] at h
      obtain ⟨middle, k, -, hfront, -⟩ := h.split (by simp)
      rw [hparts] at h
      have hparent : t.Leads .followed linkLimit (t.start p.parent) p.parent.parts
          (.found middle .dir) := hfront
      refine Ensures.bind ((ih hparent).tryCatch fun f ↦ ?_) fun _ ↦ hlast h
      split
      · exact ensures_pure fun _ hs ↦ hs.1
      · exact ensures_throw fun _ hs ↦ hs
    · exact hlast h

/-- Under a free name in a directory only that directory is made. -/
theorem ensures_makeDirectories_of_free (hs : s.WellFormed) (h : s.Free p directory name) :
    Ensures (· = s) (makeDirectories false p)
      (fun _ s' ↦ s' = s.put (directory ++ [name]) .dir) (fun f s' ↦ s' = s ∧ f.IsPlain) := by
  have hlast : Ensures (· = s) (makeDirectoriesFrom.makeLast false p)
      (fun _ s' ↦ s' = s.put (directory ++ [name]) .dir) (fun f s' ↦ s' = s ∧ f.IsPlain) := by
    refine (ensures_makeLast s p).weaken (fun _ hs ↦ hs) (fun _ s' hmake ↦ ?_) fun _ _ hs ↦ hs
    rcases hmake with ⟨hkeep, -⟩ | ⟨-, hmake⟩
    · cases hkeep
    · exact h.create_eq hs hmake
  obtain ⟨front, hparts, hfront⟩ := h.leads
  have hlength : p.parts.length = front.length + 1 := by simp [hparts]
  unfold makeDirectories
  rw [hlength]
  refine ensures_get_bind fun t ht ↦ ?_
  subst ht
  split
  · have hparent : t.Leads .followed linkLimit (t.start p.parent) p.parent.parts
        (.found directory .dir) := by
      change t.Leads _ _ (t.start p) p.parts.dropLast _
      rwa [hparts, List.dropLast_concat]
    have hthere := ensures_makeDirectoriesFrom_of_leads t false front.length hparent
    refine Ensures.bind (hthere.tryCatch fun f ↦ ?_) fun _ ↦ hlast
    split
    · exact ensures_pure fun _ hs ↦ hs.1
    · exact ensures_throw fun _ hs ↦ hs
  · exact hlast

/-- The last step: the directory itself is made. -/
theorem ensures_makeLast_of_madeParents {made : Store} {parents : ℕ} (hp : p.Proper)
    (h : s.MadeParents p parents made) :
    Ensures (· = made) (makeDirectoriesFrom.makeLast keep p)
      (fun _ s' ↦ s.MadeParents p (parents + 1) s' ∧ (keep = false → ∃ d n,
        made.Free p d n ∧ s' = made.put (d ++ [n]) .dir))
      (fun f s' ↦ s' = made ∧ f.IsPlain) := by
  refine (ensures_makeLast made p).weaken (fun _ hs ↦ hs) (fun _ s' hmake ↦ ?_) fun _ _ hs ↦ hs
  rcases hmake with ⟨hkeep, rfl⟩ | ⟨hnul, hmake⟩
  · exact ⟨h.mono (Nat.le_succ _), by simp [hkeep]⟩
  · obtain ⟨d, n, hfree, rfl⟩ := free_of_create h.wellFormed hp hnul hmake
    exact ⟨h.make hfree, fun _ ↦ ⟨d, n, hfree, rfl⟩⟩

/-- The directory is made after those of its parents that were missing. -/
theorem ensures_makeDirectoriesFrom (hs : s.WellFormed) (hp : p.Proper) (parents : ℕ) :
    Ensures (· = s) (makeDirectoriesFrom keep p parents)
      (fun _ s' ↦ s.MadeParents p (parents + 1) s' ∧ (keep = false → ∃ made d n,
        s.MadeParents p parents made ∧ made.Free p d n ∧ s' = made.put (d ++ [n]) .dir))
      (fun f s' ↦ s.MadeParents p parents s' ∧ f.IsPlain) := by
  have hlast {p : Path} (hp : p.Proper) (parents : ℕ) :
      Ensures (s.MadeParents p parents) (makeDirectoriesFrom.makeLast keep p)
        (fun _ s' ↦ s.MadeParents p (parents + 1) s' ∧ (keep = false → ∃ made d n,
          s.MadeParents p parents made ∧ made.Free p d n ∧ s' = made.put (d ++ [n]) .dir))
        (fun f s' ↦ s.MadeParents p parents s' ∧ f.IsPlain) := by
    intro made hmade
    refine (ensures_makeLast_of_madeParents hp hmade).outcome
      (fun _ s' h ↦ ⟨h.1, fun hkeep ↦ ?_⟩) fun _ s' h ↦ ⟨h.1 ▸ hmade, h.2⟩
    obtain ⟨d, n, hfree, heq⟩ := h.2 hkeep
    exact ⟨made, d, n, hmade, hfree, heq⟩
  have hrefl (p : Path) (parents : ℕ) (t : Store) (ht : t = s) : s.MadeParents p parents t :=
    ht ▸ .refl hs p parents
  induction parents generalizing p with
  | zero => exact (hlast hp 0).weaken (hrefl p 0) (fun _ _ h ↦ h) fun _ _ h ↦ h
  | succ parents ih =>
    have hrest := hlast hp (parents + 1)
    refine ensures_get_bind fun t ht ↦ ?_
    subst ht
    split
    · have hparent : p.parent.Proper := fun n hn ↦ hp n (List.mem_of_mem_dropLast hn)
      have hmade : Ensures (· = t) (makeDirectoriesFrom keep p.parent parents)
          (fun _ ↦ t.MadeParents p (parents + 1))
          (fun f s' ↦ t.MadeParents p parents s' ∧ f.IsPlain) :=
        (ih hparent).weaken (fun _ h ↦ h) (fun _ _ h ↦ h.1.of_parent)
          fun _ _ h ↦ ⟨h.1.of_parent, h.2⟩
      refine Ensures.bind (hmade.tryCatch fun f ↦ ?_) fun _ ↦ hrest
      split
      · exact ensures_pure fun _ h ↦ h.1.mono (Nat.le_succ _)
      · exact ensures_throw fun _ h ↦ ⟨h.1.mono (Nat.le_succ _), h.2⟩
    · exact hrest.weaken (hrefl p _) (fun _ _ h ↦ h) fun _ _ h ↦ h

/-! ## Making a directory unless it is there -/

theorem ensures_keepDirectory {P : Store → Prop} (p : Path) (f : Failure) :
    Ensures P (makeDirectoryAndParents.keepDirectory p f) (fun _ ↦ P) (fun _ ↦ P) := by
  have hask : Ensures P (ask (·.isDirectory p)) (fun _ ↦ P) (fun _ ↦ P) := by
    intro s hs
    rw [run_ask]
    cases s.isDirectory p <;> exact hs
  have hthrow : Ensures P (throw f : StoreAction Unit) (fun _ ↦ P) (fun _ ↦ P) :=
    ensures_throw fun _ hs ↦ hs
  unfold makeDirectoryAndParents.keepDirectory
  split
  · exact hthrow
  · refine hask.bind fun there ↦ ?_
    split
    · exact hthrow
    · exact ensures_pure fun _ hs ↦ hs

theorem ensures_makeDirectory_of_madeParents {made : Store} {parents : ℕ} (hp : p.Proper)
    (h : s.MadeParents p parents made) :
    Ensures (· = made) (makeDirectory p) (fun _ s' ↦ s.MadeParents p (parents + 1) s')
      (fun _ s' ↦ s' = made) := by
  refine (ensures_change (P := (· = made)) (fun _ ↦ Failure.isPlain_system ..)
    fun t t' ht hnul hmake ↦ ?_).weaken (fun _ h ↦ h) (fun _ _ h ↦ h) fun _ _ h ↦ h.1
  subst ht
  obtain ⟨d, n, hfree, rfl⟩ := free_of_create h.wellFormed hp hnul hmake
  exact h.make hfree

theorem ensures_makeUnlessThere {parents : ℕ} (hp : p.Proper) :
    Ensures (s.MadeParents p parents) (makeDirectoryAndParents.makeUnlessThere p)
      (fun _ ↦ s.MadeParents p (parents + 1)) (fun _ ↦ s.MadeParents p (parents + 1)) := by
  intro made hmade
  have hmore : s.MadeParents p (parents + 1) made := hmade.mono (Nat.le_succ _)
  refine ((ensures_makeDirectory_of_madeParents hp hmade).tryCatch fun f ↦ ?_) made rfl
  split
  · exact ensures_throw fun _ h ↦ h ▸ hmore
  · exact (ensures_keepDirectory p f).weaken (fun _ h ↦ h ▸ hmore) (fun _ _ h ↦ h) fun _ _ h ↦ h

/-- However it ends, only directories on the way of the path have been made. -/
theorem ensures_makeDirectoryAndParents (hs : s.WellFormed) (hp : p.Proper) (parents : ℕ) :
    Ensures (· = s) (makeDirectoryAndParents p parents)
      (fun _ ↦ s.MadeParents p (parents + 1)) (fun _ ↦ s.MadeParents p (parents + 1)) := by
  have hrefl (p : Path) (parents : ℕ) (t : Store) (ht : t = s) : s.MadeParents p parents t :=
    ht ▸ .refl hs p parents
  induction parents generalizing p with
  | zero => exact (ensures_makeUnlessThere hp).weaken (hrefl p 0) (fun _ _ h ↦ h) fun _ _ h ↦ h
  | succ parents ih =>
    have hparent : p.parent.Proper := fun n hn ↦ hp n (List.mem_of_mem_dropLast hn)
    have hmade : Ensures (· = s) (makeDirectoryAndParents p.parent parents)
        (fun _ ↦ s.MadeParents p (parents + 1)) (fun _ ↦ s.MadeParents p (parents + 2)) :=
      (ih hparent).weaken (fun _ h ↦ h) (fun _ _ h ↦ h.of_parent)
        fun _ _ h ↦ h.of_parent.mono (Nat.le_succ _)
    refine ((ensures_makeDirectory_of_madeParents hp (.refl hs p (parents + 1))).weaken
      (fun _ h ↦ h) (fun _ _ h ↦ h) fun _ _ h ↦ h).tryCatch fun f ↦ ?_
    split
    · split
      · exact ensures_throw (hrefl p _)
      · exact hmade.bind fun _ ↦ ensures_makeUnlessThere hp
    · exact (ensures_keepDirectory p _).weaken (hrefl p _) (fun _ _ h ↦ h) fun _ _ h ↦ h

/-- A directory that has been made or found to be there is there. -/
theorem ensures_isDirectory_ensureDirectory (p : Path) :
    Ensures (fun _ ↦ True) (ensureDirectory p) (fun _ s' ↦ s'.isDirectory p = .ok true)
      (fun _ _ ↦ True) := by
  let There (_ : PUnit) (s : Store) : Prop := s.isDirectory p = .ok true
  have hmake : Ensures (fun _ ↦ True) (makeDirectory p) There (fun _ _ ↦ True) := by
    refine (ensures_change (fun _ ↦ Failure.isPlain_system ..) fun s s' _ hnul hcreate ↦ ?_).weaken
      (fun _ h ↦ h) (fun _ _ h ↦ h) fun _ _ _ ↦ trivial
    obtain ⟨d, n, hslot, hfree, rfl⟩ := create_eq_ok_iff.mp hcreate
    have hgrows : s.GrowsAt (d ++ [n]) (s.put (d ++ [n]) .dir) :=
      grows_put (by simp) hfree (List.prefix_refl _)
    obtain ⟨hshort, front, hparts, hfront, hname⟩ := slot_eq_name_iff.mp hslot
    have hslot' : Store.slot (s.put (d ++ [n]) .dir) p = .ok (.name d n) :=
      slot_eq_name_iff.mpr ⟨hshort, front, hparts, by rw [hgrows.start]; exact hgrows.leads hfront, hname⟩
    have hentry : Store.entry? (s.put (d ++ [n]) .dir) (d ++ [n]) = some .dir := by
      rw [entry?_put (by simp), if_pos rfl]
    simp [There, Store.isDirectory, entryAt, hnul, target_of_slot hslot' hentry rfl, Except.map,
      answers, Entry.isDir]
  have hkeep (f : Failure) : Ensures (fun _ ↦ True) (makeDirectoryAndParents.keepDirectory p f) There
      (fun _ _ ↦ True) := by
    unfold makeDirectoryAndParents.keepDirectory
    split
    · exact ensures_throw fun _ _ ↦ trivial
    · intro s _
      rw [run_bind, run_ask]
      cases hanswer : s.isDirectory p with
      | error => exact trivial
      | ok there =>
        cases there with
        | false => exact trivial
        | true => exact hanswer
  have hunless : Ensures (fun _ ↦ True) (makeDirectoryAndParents.makeUnlessThere p) There
      (fun _ _ ↦ True) := by
    refine hmake.tryCatch fun f ↦ ?_
    split
    · exact ensures_throw fun _ _ ↦ trivial
    · exact hkeep f
  unfold ensureDirectory
  cases p.parts.length with
  | zero => exact hunless
  | succ parents =>
    refine hmake.tryCatch fun f ↦ ?_
    split
    · split
      · exact ensures_throw fun _ _ ↦ trivial
      · refine Ensures.bind (Q := fun _ _ ↦ True) (fun s _ ↦ ?_) fun _ ↦ hunless
        rcases (makeDirectoryAndParents p.parent parents).run s with ⟨_ | _, _⟩ <;> exact trivial
    · exact hkeep _

theorem madeParents_of_ensureDirectory (hs : s.WellFormed) (hp : p.Proper) :
    s.MadeParents p (p.parts.length + 1) ((ensureDirectory p).run s).2 :=
  (ensures_makeDirectoryAndParents hs hp _).state rfl

end StoreAction

end DeferredOps
