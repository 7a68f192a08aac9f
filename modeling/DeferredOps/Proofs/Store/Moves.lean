import DeferredOps.Proofs.Store.Copy

/-!
# How the moves of entries end

A move of an entry renames it, or makes it anew elsewhere and then removes it. Every way in which
this can end is one case here, and later modules argue by these cases only.
-/

namespace DeferredOps

open Action

/-- An action on a store runs from it as it runs. -/
theorem Action.ensures_run {σ α : Type} (x : Action σ α) (s : σ) :
    Ensures (· = s) x (fun a s' ↦ x.run s = (.ok a, s')) (fun f s' ↦ x.run s = (.error f, s')) := by
  rintro s rfl
  rcases hrun : x.run s with ⟨f | a, s'⟩ <;> exact rfl

namespace Store

/-- The absolute form of a path, with each `..` taken together with the name before it. -/
def absolutePath (s : Store) (p : Path) : Path :=
  if p.isAbsolute then { p with parts := Path.collapse p.parts }
  else ⟨.top, Path.collapse (s.current ++ p.parts)⟩

/-- The absolute form of a path starts with that of another. -/
def Within (s : Store) (p other : Path) : Prop :=
  (s.absolutePath p).anchor = (s.absolutePath other).anchor ∧
    (s.absolutePath other).parts <+: (s.absolutePath p).parts

/-- The path means something also if it is relative. -/
def Anchored (s : Store) (p : Path) : Prop :=
  p.isAbsolute ∨ isRemoved s.current = false

end Store

namespace StoreAction

open Store

variable {s s' : Store} {p source destination : Path}

/-! ## Steps of a move -/

theorem ensures_absolute (s : Store) (p : Path) :
    Ensures (· = s) (absolute p) (fun q s' ↦ (q = s.absolutePath p ∧ s.Anchored p) ∧ s' = s)
      (fun f s' ↦ s' = s ∧ f.IsPlain) := by
  rintro s rfl
  unfold absolute Anchored absolutePath
  split
  · next htop => exact ⟨⟨rfl, .inl htop⟩, rfl⟩
  · unfold currentDirectory
    rw [run_bind, run_bind, run_get]
    dsimp only
    cases hremoved : isRemoved s.current
    · exact ⟨⟨rfl, .inr rfl⟩, rfl⟩
    · exact ⟨rfl, Failure.isPlain_system ..⟩

theorem ensures_liesWithin (s : Store) (p other : Path) :
    Ensures (· = s) (liesWithin p other)
      (fun within s' ↦ ((within ↔ s.Within p other) ∧ s.Anchored p ∧ s.Anchored other) ∧ s' = s)
      (fun f s' ↦ s' = s ∧ f.IsPlain) := by
  refine (ensures_absolute s other).bind fun q ↦ ensures_assume fun ⟨hq, hother⟩ ↦ ?_
  refine (ensures_absolute s p).bind fun q' ↦ ensures_assume fun ⟨hq', hp⟩ ↦ ?_
  subst hq hq'
  refine ensures_pure fun s' hs' ↦ ⟨⟨?_, hp, hother⟩, hs'⟩
  simp [Within]

theorem run_unlink (s : Store) (p : Path) :
    (unlink p).run s =
      if p.hasNul then (.error .embeddedNul, s)
      else match s.unlink p with
        | .ok s' => (.ok (), s')
        | .error e => (.error (.ofPath e p), s) :=
  run_change s

theorem run_unlinkIfThere (s : Store) (p : Path) :
    (unlinkIfThere p).run s =
      if p.hasNul then (.error .embeddedNul, s)
      else match s.unlink p with
        | .ok s' => (.ok (), s')
        | .error .noEntry => (.ok (), s)
        | .error e => (.error (.ofPath e p), s) := by
  unfold unlinkIfThere
  rw [run_tryCatch, run_unlink]
  split
  · next hrun =>
    split at hrun
    · cases hrun
    · split at hrun <;> cases hrun
      simp_all
  · next hrun =>
    split at hrun
    · next hnul =>
      cases hrun
      rw [if_pos hnul]
      rfl
    · next hnul =>
      split at hrun
      · cases hrun
      · next e hunlink =>
        cases hrun
        rw [if_neg hnul, hunlink]
        cases e <;> rfl

/-- Where a name is removed unless it is not there, it has been removed or was not there. -/
theorem unlinkIfThere_ok (h : (unlinkIfThere p).run s = (.ok (), s')) :
    p.hasNul = false ∧ (s.unlink p = .ok s' ∨ s' = s ∧ s.unlink p = .error .noEntry) := by
  rw [run_unlinkIfThere] at h
  split at h
  · cases h
  next hnul =>
  refine ⟨by simpa using hnul, ?_⟩
  split at h
  · next hunlink =>
    cases h
    exact .inl hunlink
  · next hunlink =>
    cases h
    exact .inr ⟨rfl, hunlink⟩
  · cases h

theorem unlinkIfThere_error {f : Failure} (h : (unlinkIfThere p).run s = (.error f, s')) :
    s' = s := by
  rw [run_unlinkIfThere] at h
  split at h
  · cases h
    rfl
  split at h
  · cases h
  · cases h
  · cases h
    rfl

theorem run_removeDirectory (s : Store) (p : Path) :
    (removeDirectory p).run s =
      if p.hasNul then (.error .embeddedNul, s)
      else match s.removeDirectory p with
        | .ok s' => (.ok (), s')
        | .error e => (.error (.ofPath e p), s) :=
  run_change s

/-- The removal of a directory is done, or it fails and leaves the store as it is. -/
theorem removeDirectory_run_cases {result : Except Failure Unit}
    (h : (removeDirectory p).run s = (result, s')) :
    result = .ok () ∧ s.removeDirectory p = .ok s' ∨ (∃ f, result = .error f) ∧ s' = s := by
  rw [run_removeDirectory] at h
  split at h
  · cases h
    exact .inr ⟨⟨_, rfl⟩, rfl⟩
  · split at h <;> cases h
    · exact .inl ⟨rfl, by assumption⟩
    · exact .inr ⟨⟨_, rfl⟩, rfl⟩

theorem run_moveEntry_of_renamed (hsource : source.hasNul = false)
    (hdestination : destination.hasNul = false) (hrename : s.rename source destination = .ok s') :
    (moveEntry source destination).run s = (.ok (), s') := by
  unfold moveEntry
  simp only [hsource, hdestination, Bool.or_self, Bool.false_eq_true, if_false, run_bind, run_get,
    hrename]
  rfl

/-- A move that is no renaming goes on as a copy. -/
theorem run_moveEntry_of_unrenamed {e : SystemError} (hsource : source.hasNul = false)
    (hdestination : destination.hasNul = false) (hrename : s.rename source destination = .error e) :
    (moveEntry source destination).run s = (moveByCopy source destination).run s := by
  unfold moveEntry
  simp only [hsource, hdestination, Bool.or_self, Bool.false_eq_true, if_false, run_bind, run_get,
    hrename]

/-- How the removal of a directory with everything in it can end. -/
inductive RemovalEnds (s : Store) (p : Path) : Except Failure Unit → Store → Prop
  | refused {f} (hnot : p.hasNul ∨ ∀ l, s.target .kept p ≠ .ok (.found l .dir)) (h : f.IsPlain) :
      RemovalEnds s p (.error f) s
  | emptied {l f} (htarget : s.target .kept p = .ok (.found l .dir)) (h : f.IsPlain) :
      RemovalEnds s p (.error f) (s.clear l)
  | removed {l s'} (htarget : s.target .kept p = .ok (.found l .dir))
      (h : (s.clear l).removeDirectory p = .ok s') : RemovalEnds s p (.ok ()) s'

theorem ensures_removeTree (s : Store) (p : Path) :
    Ensures (· = s) (removeTree p) (fun a s' ↦ RemovalEnds s p (.ok a) s')
      (fun f s' ↦ RemovalEnds s p (.error f) s') := by
  have hrefused {f : Failure} (hnot : p.hasNul ∨ ∀ l, s.target .kept p ≠ .ok (.found l .dir))
      (hf : f.IsPlain) : Ensures (· = s) (throw f : StoreAction Unit)
      (fun a s' ↦ RemovalEnds s p (.ok a) s') (fun f s' ↦ RemovalEnds s p (.error f) s') := by
    refine ensures_throw fun s' hs' ↦ ?_
    subst hs'
    exact .refused hnot hf
  unfold removeTree
  split
  · next hnul => exact hrefused (.inl hnul) ⟨by simp, by simp⟩
  refine ensures_get_bind fun t ht ↦ ?_
  subst ht
  split
  · next htarget => exact hrefused (.inr (by simp [htarget])) (Failure.isPlain_system ..)
  · next htarget => exact hrefused (.inr (by simp [htarget])) (Failure.isPlain_system ..)
  · next htarget => exact hrefused (.inr (by simp [htarget])) ⟨by simp, by simp⟩
  · next htarget => exact hrefused (.inr (by simp [htarget])) (Failure.isPlain_system ..)
  · next l htarget =>
    refine (ensures_modify (Q := fun _ ↦ (· = t.clear l)) fun s' hs' ↦ hs' ▸ rfl).bind fun _ ↦ ?_
    refine (ensures_change (P := (· = t.clear l)) (fun _ ↦ Failure.isPlain_system ..)
      fun s' s'' hs' _ h ↦ ?_).weaken (fun _ h ↦ h) (fun _ _ h ↦ h) fun f s' h ↦ ?_
    · subst hs'
      exact .removed htarget h
    · obtain ⟨rfl, hf⟩ := h
      exact .emptied htarget hf

/-! ## The ends of a move -/

/-- How a move of an entry can end. Where it is not renamed, what was there has been made anew
before it is removed, so that also the end of the removal counts. -/
inductive MoveEnds (s : Store) (source destination : Path) : Except Failure Unit → Store → Prop
  | refused {f : Failure} (h : f ≠ .endlessCopy) : MoveEnds s source destination (.error f) s
  | renamed {s' : Store} (hclean : destination.hasNul = false)
      (h : s.rename source destination = .ok s') : MoveEnds s source destination (.ok ()) s'
  | linked {l : Location} {text : String} {made : Store} {result : Except Failure Unit} {s' : Store}
      (hrename : ∀ t, s.rename source destination ≠ .ok t)
      (hsource : s.entryAt .kept source = .ok (some (l, .link text)))
      (hmake : s.makeLink text destination = .ok made)
      (hremove : (unlink source).run made = (result, s')) : MoveEnds s source destination result s'
  | copyFailed {l : Location} {f : Failure} {s' : Store}
      (hrename : ∀ t, s.rename source destination ≠ .ok t)
      (hsource : s.target .followed source = .ok (.found l .dir))
      (hwithin : ¬ s.Within destination source)
      (hanchored : s.Anchored source ∧ s.Anchored destination)
      (hrun : (copyTree source destination).run s = (.error f, s'))
      (hunfinished : Unfinished s l destination f s') :
      MoveEnds s source destination (.error f) s'
  | copied {l d : Location} {n : String} {made s' : Store} {result : Except Failure Unit}
      {s'' : Store} (hrename : ∀ t, s.rename source destination ≠ .ok t)
      (hsource : s.target .followed source = .ok (.found l .dir))
      (hwithin : ¬ s.Within destination source)
      (hanchored : s.Anchored source ∧ s.Anchored destination)
      (hstarts : CopyStarts s destination d n made) (hcopying : made.Copying l (d ++ [n]) s')
      (hdir : s'.entry? (d ++ [n]) = some .dir) (hcopied : s.Copied s' l (d ++ [n]))
      (hremove : RemovalEnds s' source result s'') : MoveEnds s source destination result s''
  | copiedFile {l : Location} {id : ℕ} {content : Bytes} {made : Store}
      {result : Except Failure Unit} {s' : Store}
      (hrename : ∀ t, s.rename source destination ≠ .ok t)
      (hsource : s.target .followed source = .ok (.found l (.file id content)))
      (hwrite : s.write destination (fun _ ↦ content) = .ok made)
      (hremove : (unlink source).run made = (result, s')) : MoveEnds s source destination result s'

theorem isDirectory_eq_true_iff : s.isDirectory p = .ok true ↔
    p.hasNul = false ∧ ∃ l, s.target .followed p = .ok (.found l .dir) := by
  unfold isDirectory entryAt
  split
  · next hnul => simp [hnul, Except.map, answers]
  · next hnul =>
    split
    · next l e htarget => cases e <;> simp [hnul, htarget, Except.map, answers, Entry.isDir]
    · next htarget => simp [hnul, htarget, Except.map, answers]
    · next e htarget => split <;> simp [hnul, htarget, Except.map, answers]

theorem ensures_moveByCopy (hs : s.WellFormed) (hdestination : destination.Proper)
    (hrename : ∀ t, s.rename source destination ≠ .ok t) :
    Ensures (· = s) (moveByCopy source destination)
      (fun a s' ↦ MoveEnds s source destination (.ok a) s')
      (fun f s' ↦ MoveEnds s source destination (.error f) s') := by
  have hrefused (f : Failure) (s' : Store) (h : s' = s ∧ f.IsPlain) :
      MoveEnds s source destination (.error f) s' :=
    h.1 ▸ .refused h.2.1
  refine ensures_get_bind fun t ht ↦ ?_
  subst ht
  split
  · next l text hfound =>
    have hmake : Ensures (· = t) (makeLink text destination)
        (fun _ s' ↦ t.makeLink text destination = .ok s') (fun f s' ↦ s' = t ∧ f.IsPlain) :=
      ensures_change (fun _ ↦ Failure.isPlain_system ..) fun _ _ hs _ h ↦ hs ▸ h
    refine Ensures.bind (hmake.weaken (fun _ h ↦ h) (fun _ _ h ↦ h) hrefused) fun _ made hmade ↦ ?_
    exact (ensures_run (unlink source) made).outcome
      (fun _ _ h ↦ .linked hrename hfound hmade h) fun _ _ h ↦ .linked hrename hfound hmade h
  refine ensures_get_bind fun s ht ↦ ?_
  subst ht
  split
  · next hthere =>
    obtain ⟨-, l, hsource⟩ : _ ∧ ∃ l, s.target .followed source = .ok (.found l .dir) := by
      apply isDirectory_eq_true_iff.mp
      rcases hanswer : s.isDirectory source with f | _ | _ <;> simp_all [cautious]
    have hleads := (target_eq_ok_iff.mp hsource).2
    refine Ensures.bind ((ensures_liesWithin s destination source).weaken (fun _ h ↦ h)
      (fun _ _ h ↦ h) hrefused) fun within ↦ ?_
    refine ensures_assume fun ⟨hwithin, hdestinationAnchored, hsourceAnchored⟩ ↦ ?_
    have hanchored := And.intro hsourceAnchored hdestinationAnchored
    split
    · exact ensures_throw fun s' hs' ↦ hs' ▸ .refused (by simp)
    next hnot =>
    have hnot' : ¬ s.Within destination source := by
      rw [← hwithin]
      exact hnot
    have hcopy := (ensures_copyTree hs hdestination hleads).and (ensures_run (copyTree _ _) s)
    refine Ensures.bind (hcopy.weaken (fun _ h ↦ h) (fun _ _ h ↦ h.1)
      fun f s' h ↦ .copyFailed hrename hsource hnot' hanchored h.2 h.1) fun _ ↦ ?_
    rintro s' ⟨made, d, n, hstarts, hcopying, hdir, hcopied⟩
    exact (ensures_removeTree s' source).outcome
      (fun _ _ h ↦ .copied hrename hsource hnot' hanchored hstarts hcopying hdir hcopied h)
      fun _ _ h ↦ .copied hrename hsource hnot' hanchored hstarts hcopying hdir hcopied h
  · refine Ensures.bind ((ensures_copyFile s source destination).weaken (fun _ h ↦ h)
      (fun _ _ h ↦ h) hrefused) fun _ ↦ ?_
    rintro made ⟨l, id, content, hsource, hwrite⟩
    exact (ensures_run (unlink source) made).outcome
      (fun _ _ h ↦ .copiedFile hrename hsource hwrite h) fun _ _ h ↦ .copiedFile hrename hsource hwrite h

theorem ensures_moveEntry (hs : s.WellFormed) (hdestination : destination.Proper) :
    Ensures (· = s) (moveEntry source destination)
      (fun a s' ↦ MoveEnds s source destination (.ok a) s')
      (fun f s' ↦ MoveEnds s source destination (.error f) s') := by
  unfold moveEntry
  split
  · exact ensures_throw fun s' hs' ↦ hs' ▸ .refused (by simp)
  next hnul =>
  refine ensures_get_bind fun t ht ↦ ?_
  subst ht
  split
  · next s' hrename => exact ensures_set fun _ _ ↦ .renamed (by simp_all) hrename
  · next hrename => exact ensures_moveByCopy hs hdestination (by simp [hrename])

theorem moveEnds (hs : s.WellFormed) (hdestination : destination.Proper) :
    MoveEnds s source destination ((moveEntry source destination).run s).1
      ((moveEntry source destination).run s).2 := by
  have h : Outcome _ _ ((moveEntry source destination).run s) :=
    ensures_moveEntry hs hdestination s rfl
  rcases hrun : (moveEntry source destination).run s with ⟨f | a, s'⟩ <;> rw [hrun] at h
  · exact h
  · exact h

end StoreAction

end DeferredOps
