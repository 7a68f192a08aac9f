import DeferredOps.Proofs.LogFolder

/-!
# What a rotation removes

Old log files are looked for with a pattern that starts with the folder's path. A rotation therefore
removes nothing but entries directly in directories whose paths fit the folder's path as a pattern.
Where that path holds no wildcard character, this is the folder itself.
-/

namespace DeferredOps

open Action

namespace Store

/-- A location is directly in the directory that a path leads to. -/
def IsIn (s : Store) (p : Path) (l : Location) : Prop :=
  ∃ directory name, s.listed p = .ok directory ∧ l = directory ++ [name]

/-- All entries are still there, but those at some locations. -/
def LosesOnly (s : Store) (lost : Location → Prop) (s' : Store) : Prop :=
  ∀ l e, s.entry? l = some e → s'.entry? l = some e ∨ lost l

variable {s s' : Store} {lost lost' : Location → Prop} {p : Path}

theorem LosesOnly.mono (h : s.LosesOnly lost s') (himp : ∀ l, lost l → lost' l) :
    s.LosesOnly lost' s' :=
  fun l e hentry ↦ (h l e hentry).imp_right (himp l)

/-- Before an entry was erased there was only this entry more. -/
theorem WellFormed.grows_erase {l : Location} {e : Entry} (hs : s.WellFormed)
    (hentry : s.entry? l = some e) (hdir : e ≠ .dir) :
    Grows (fun l' _ ↦ l' = l) (s.erase l) s := by
  have hne : l ≠ [] := by
    rintro rfl
    rw [entry?_nil] at hentry
    exact hdir (Option.some.inj hentry).symm
  refine ⟨fun {l' _} h ↦ ?_, fun {l' _} h ↦ ?_, (hs.current_erase hentry hdir).symm⟩
  · rw [entry?_erase hne] at h
    split at h
    · cases h
    · exact h
  · rw [entry?_erase hne]
    split
    · next heq => exact .inr heq
    · exact .inl h

/-- Opening a file without changing its content keeps what is there, and adds no more than the file. -/
theorem grows_open (hs : s.WellFormed) (h : s.write p (fun content ↦ content) = .ok s') :
    Grows (fun l _ ↦ ∃ d n, s.target .written p = .ok (.absent d n) ∧ l = d ++ [n]) s s' := by
  rcases write_ok h with ⟨_, id, content, -, rfl⟩ | ⟨d, n, htarget, rfl⟩
  · exact ⟨fun {l e} hentry ↦ by rwa [entry?_setContent_same],
      fun {l e} hentry ↦ .inl (by rwa [entry?_setContent_same] at hentry), rfl⟩
  · refine ⟨fun {l e} hentry ↦ ?_, fun {l e} hentry ↦ ?_, rfl⟩
    · have hfree : s.entry? (d ++ [n]) = none := (sound_of_target hs htarget).2.2
      rw [entry?_putFile (by simp), if_neg, hentry]
      rintro rfl
      cases hfree.symm.trans hentry
    · rw [entry?_putFile (by simp)] at hentry
      split at hentry
      · next heq => exact .inr ⟨d, n, htarget, heq⟩
      · exact .inl hentry

theorem LosesOnly.write {t : Store} (h : s.LosesOnly lost s') (hs' : s'.WellFormed)
    (hwrite : s'.write p (fun content ↦ content) = .ok t) : s.LosesOnly lost t :=
  fun l e hentry ↦ (h l e hentry).imp_left (grows_open hs' hwrite).kept

end Store

namespace LogFolder

open RunAction Store

variable {s s' : Store} {folder p : Path} {name : String} {r : Run}

/-- A location is directly in a directory whose path fits that of a folder. -/
def IsInFitting (s : Store) (folder : Path) (l : Location) : Prop :=
  ∃ p, Fits p folder ∧ s.IsIn p l

theorem eq_of_nameFits {names parts : List String} (h : List.Forall₂ NameFits names parts)
    (hplain : ∀ part ∈ parts, isExpression part = false) : names = parts := by
  induction h with
  | nil => rfl
  | @cons name part _ _ hname _ ih =>
    obtain ⟨hpart, hparts⟩ := List.forall_mem_cons.mp hplain
    have hsame : name = part := (if_neg (by simp [hpart])).mp hname
    rw [hsame, ih hparts]

/-- A path without wildcard characters is fitted only by itself. -/
theorem Fits.eq (h : Fits p folder) (hplain : ∀ part ∈ folder.parts, isExpression part = false) :
    p = folder := by
  obtain ⟨hanchor, hparts⟩ := h
  rcases p with ⟨anchor, parts⟩
  rw [Path.mk.injEq]
  exact ⟨hanchor, eq_of_nameFits hparts hplain⟩

/-! ## Removals -/

/-- What a rotation leaves: nothing new, and all but entries in fitting directories. -/
structure Rotated (s : Store) (folder : Path) (s' : Store) : Prop where
  wellFormed : s'.WellFormed
  grows : Grows (fun l _ ↦ IsInFitting s folder l) s' s

theorem Rotated.refl (hs : s.WellFormed) : Rotated s folder s :=
  ⟨hs, .refl s⟩

theorem Rotated.losesOnly (h : Rotated s folder s') : s.LosesOnly (IsInFitting s folder) s' :=
  fun _ _ hentry ↦ h.grows.added hentry

/-- A file that is removed is in a directory that was there in the first place. -/
theorem Rotated.unlink {t : Store} (h : Rotated s folder s') (hfits : Fits p folder)
    (hnul : (p.child name).hasNul = false) (hunlink : s'.unlink (p.child name) = .ok t) :
    Rotated s folder t := by
  refine ⟨h.wellFormed.unlink hunlink, ?_⟩
  obtain ⟨directory, entry, htarget, hentry, hdir, rfl⟩ := unlink_child_ok hunlink
  have hclean : p.hasNul = false := by
    rw [Path.hasNul, Path.child, List.any_append, Bool.or_eq_false_iff] at hnul
    exact hnul.1
  have hin : IsInFitting s folder (directory ++ [name]) :=
    ⟨p, hfits, directory, name, listed_eq_ok_iff.mpr ⟨hclean, h.grows.target htarget⟩, rfl⟩
  have hgrows : Grows (fun l _ ↦ IsInFitting s folder l) (s'.erase (directory ++ [name])) s' := by
    apply (h.wellFormed.grows_erase hentry hdir).mono
    rintro _ _ rfl
    exact hin
  exact hgrows.trans h.grows

theorem keeps_rotated_unlink (hfits : Fits p folder) :
    Keeps (Rotated s folder) (fun _ ↦ True) (StoreAction.unlink (p.child name)) := by
  apply keeps_of_state
  intro t ht
  rw [StoreAction.run_unlink]
  split
  · exact ht
  · next hnul =>
    cases hunlink : t.unlink (p.child name) with
    | error e => exact ht
    | ok t' => exact ht.unlink hfits (by simpa using hnul) hunlink

theorem keeps_rotated_cleanup (keep : Int) :
    Keeps (Run.Stores (Rotated s folder)) (fun _ ↦ True) (cleanup folder keep) :=
  keeps_cleanup keep fun _ _ hfits _ ↦ keeps_rotated_unlink hfits

/-! ## Opening a log -/

/-- The store once the directories of a folder have been made. -/
def withFolder (s : Store) (folder : Path) : Store :=
  ((StoreAction.makeDirectories true folder).run s).2

theorem grows_withFolder (hs : s.WellFormed) (hfolder : folder.Proper) :
    (withFolder s folder).WellFormed ∧ s.GrowsDirs (withFolder s folder) := by
  have hmade : Ensures (· = s) (StoreAction.makeDirectories true folder)
      (fun _ t ↦ t.WellFormed ∧ s.GrowsDirs t) (fun _ t ↦ t.WellFormed ∧ s.GrowsDirs t) := by
    apply Ensures.weaken (StoreAction.ensures_makeDirectoriesFrom hs hfolder folder.parts.length)
    · exact fun _ h ↦ h
    · exact fun _ _ h ↦ ⟨h.1.wellFormed, h.1.grows⟩
    · exact fun _ _ h ↦ ⟨h.1.wellFormed, h.1.grows⟩
  exact hmade.state rfl

theorem ensures_rotated_absolute (p : Path) :
    Ensures (Rotated s folder) (StoreAction.absolute p) (fun _ ↦ Rotated s folder)
      (fun _ ↦ Rotated s folder) := by
  intro t ht
  apply Ensures.outcome (StoreAction.ensures_absolute t p)
  · rintro _ t' ⟨-, rfl⟩
    exact ht
  · rintro _ t' ⟨rfl, -⟩
    exact ht

theorem ensures_losesOnly_write (p : Path) :
    Ensures (Rotated s folder) (StoreAction.write p fun content ↦ content)
      (fun _ ↦ s.LosesOnly (IsInFitting s folder))
      (fun _ ↦ s.LosesOnly (IsInFitting s folder)) := by
  apply (StoreAction.ensures_change (Q := fun _ ↦ s.LosesOnly (IsInFitting s folder))
    (fun _ ↦ Failure.isPlain_system ..) ?_).weaken (fun _ h ↦ h) (fun _ _ h ↦ h)
  · exact fun _ _ h ↦ h.1.losesOnly
  · exact fun t t' ht _ hwrite ↦ ht.losesOnly.write ht.wellFormed hwrite

theorem ensures_withFolder (s : Store) (folder : Path) :
    Ensures (· = s) (StoreAction.makeDirectories true folder) (fun _ t ↦ t = withFolder s folder)
      (fun _ t ↦ t = withFolder s folder) := by
  intro t ht
  subst ht
  unfold withFolder
  cases hrun : (StoreAction.makeDirectories true folder).run t with
  | mk result made => cases result <;> rfl

/-- Opening a log loses what its rotation removes, however it ends. -/
theorem losesOnly_setup (hs : r.store.WellFormed) (folder : String) (most : Int) :
    r.store.LosesOnly
      (IsInFitting (withFolder r.store (Path.ofString folder)) (Path.ofString folder))
      ((setup folder most).run r).2.store := by
  let made := withFolder r.store (Path.ofString folder)
  obtain ⟨hmade, hgrows⟩ := grows_withFolder hs (Path.proper_ofString folder)
  have hrefl : Rotated made (Path.ofString folder) made := .refl hmade
  let Left : Run → Prop :=
    Run.Stores (made.LosesOnly (IsInFitting made (Path.ofString folder)))
  have hfolder : Ensures (· = r) (onStore (StoreAction.makeDirectories true (Path.ofString folder)))
      (fun _ ↦ Run.Stores (Rotated made (Path.ofString folder))) (fun _ ↦ Left) := by
    apply (stores_onStore (ensures_withFolder r.store (Path.ofString folder))).weaken
    · exact fun _ h ↦ congrArg Run.store h
    · rintro _ t (hstore : t.store = made)
      rwa [Run.Stores, hstore]
    · rintro _ t (hstore : t.store = made)
      exact fun l e hentry ↦ .inl (hstore ▸ hentry)
  have hrotation : Ensures (Run.Stores (Rotated made (Path.ofString folder)))
      (cleanup (Path.ofString folder) (most - 1))
      (fun _ ↦ Run.Stores (Rotated made (Path.ofString folder))) (fun _ ↦ Left) :=
    Ensures.weaken (keeps_rotated_cleanup (most - 1)) (fun _ h ↦ h) (fun _ _ h ↦ h)
      fun _ _ h ↦ h.1.losesOnly
  have hplace (file : Path) : Ensures (Run.Stores (Rotated made (Path.ofString folder)))
      (onStore (StoreAction.absolute file))
      (fun _ ↦ Run.Stores (Rotated made (Path.ofString folder))) (fun _ ↦ Left) :=
    (stores_onStore (ensures_rotated_absolute file)).weaken (fun _ h ↦ h) (fun _ _ h ↦ h)
      fun _ _ h ↦ Rotated.losesOnly h
  have hend : Ensures (· = r) (setup folder most) (fun _ ↦ Left) (fun _ ↦ Left) := by
    apply hfolder.bind
    intro _
    apply Ensures.bind (Q := fun _ ↦ Run.Stores (Rotated made (Path.ofString folder)))
    · exact fun _ h ↦ h
    intro time
    apply hrotation.bind
    intro _
    apply (hplace _).bind
    intro place
    apply (stores_onStore (ensures_losesOnly_write place)).bind
    intro _
    apply Ensures.bind (Q := fun _ ↦ Left)
    · exact ensures_modify fun _ h ↦ h
    · exact fun _ ↦ ensures_pure fun _ h ↦ h
  exact fun l e hentry ↦ hend.state rfl l e (hgrows.kept hentry)

/-! ## Both -/

/-- A rotation, by itself or before a log is opened, takes away nothing but entries directly in
directories whose paths fit the folder's as a pattern. If that holds no wildcard character, these
are entries directly in the folder itself. -/
theorem losesOnly_rotation (hs : r.store.WellFormed) (folder : String) (limit : Int) :
    (r.store.LosesOnly (IsInFitting r.store (Path.ofString folder))
        ((cleanup (Path.ofString folder) limit).run r).2.store ∧
      r.store.LosesOnly
        (IsInFitting (withFolder r.store (Path.ofString folder)) (Path.ofString folder))
        ((setup folder limit).run r).2.store) ∧
    ((∀ part ∈ (Path.ofString folder).parts, isExpression part = false) →
      r.store.LosesOnly (r.store.IsIn (Path.ofString folder))
          ((cleanup (Path.ofString folder) limit).run r).2.store ∧
        r.store.LosesOnly
          ((withFolder r.store (Path.ofString folder)).IsIn (Path.ofString folder))
          ((setup folder limit).run r).2.store) := by
  have hcleanup : Rotated r.store (Path.ofString folder)
      ((cleanup (Path.ofString folder) limit).run r).2.store :=
    (keeps_rotated_cleanup limit).state (Rotated.refl hs)
  have hsetup := losesOnly_setup hs folder limit
  refine ⟨⟨hcleanup.losesOnly, hsetup⟩, fun hplain ↦ ?_⟩
  have himp (s : Store) (l : Location) (h : IsInFitting s (Path.ofString folder) l) :
      s.IsIn (Path.ofString folder) l := by
    obtain ⟨p, hfits, hin⟩ := h
    rwa [hfits.eq hplain] at hin
  exact ⟨hcleanup.losesOnly.mono (himp _), hsetup.mono (himp _)⟩

/-- Of two folders with a log file each, the one that is not rotated keeps its file. -/
theorem losesOnly_rotation_beside_folder :
    let s := ((((Store.empty.put ["l"] .dir).put ["m"] .dir).putFile ["l", "copyops-1.log"]
      [100]).putFile ["m", "copyops-1.log"] [101])
    let rotated := ((cleanup (Path.ofString "l") 0).run (Run.first s)).2.store
    let opened := ((setup "l" 1).run (Run.first s)).2.store
    (rotated.entry? ["l", "copyops-1.log"] = none ∧ opened.entry? ["l", "copyops-1.log"] = none) ∧
      rotated.entry? ["m", "copyops-1.log"] = some (.file 1 [101]) ∧
      opened.entry? ["m", "copyops-1.log"] = some (.file 1 [101]) := by
  intro s rotated opened
  have hs : (Run.first s).store.WellFormed := by decide
  have hplain : ∀ part ∈ (Path.ofString "l").parts, isExpression part = false := by decide +kernel
  have hfile : s.entry? ["m", "copyops-1.log"] = some (.file 1 [101]) := by rfl
  have happart (t : Store) (hlisted : t.listed (Path.ofString "l") = .ok ["l"]) :
      ¬ t.IsIn (Path.ofString "l") ["m", "copyops-1.log"] := by
    rintro ⟨directory, name, hdirectory, hplace⟩
    cases hlisted.symm.trans hdirectory
    simp at hplace
  have hcleanup := ((losesOnly_rotation hs "l" 0).2 hplain).1 _ _ hfile
  have hsetup := ((losesOnly_rotation hs "l" 1).2 hplain).2 _ _ hfile
  refine ⟨by decide +kernel, ?_, ?_⟩
  · exact hcleanup.resolve_right (happart _ rfl)
  · exact hsetup.resolve_right (happart _ rfl)

-- The folder `l*` has no log files of its own, and its rotation removes one of `lx`.
example :
    let s := ((Store.empty.put ["l*"] .dir).put ["lx"] .dir).putFile ["lx", "copyops-1.log"] [100]
    ((cleanup (Path.ofString "l*") 0).run (Run.first s)).2.store.entry? ["lx", "copyops-1.log"] =
      none := by
  decide +kernel

end LogFolder

end DeferredOps
