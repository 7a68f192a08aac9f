import DeferredOps.Proofs.Path.Length
import DeferredOps.Proofs.Store.Moves
import DeferredOps.Proofs.SystemFailures

/-!
# Directories that are made unless they are there

Making a directory with its missing parents succeeds exactly if the directory is there in the end. A
failure is one of the file system, unless the path holds the character NUL.
-/

namespace DeferredOps

open Action

namespace Store

variable {s : Store} {p : Path} {location directory : Location} {name : String} {entry : Entry}

/-! ## Directories that are there -/

/-- The last step of a path, once the directory before it has been found. -/
theorem slot_of_parts {front : List String} (hshort : p.text.utf8ByteSize < pathLimit)
    (hparts : p.parts = front ++ [name])
    (hfront : s.Leads .followed linkLimit (s.start p) front (.found directory .dir)) :
    s.slot p =
      if name = "." then .ok .here
      else if name = ".." then .ok .above
      else if isRemoved directory then .error .noEntry
      else if nameLimit < name.utf8ByteSize then .error .nameTooLong
      else .ok (.name directory name) := by
  have hlong : ¬ pathLimit ≤ p.text.utf8ByteSize := by omega
  unfold slot startChecked
  simp only [hlong, if_false, bind, Except.bind, hparts, List.dropLast_concat, hfront.walk,
    Target.directory, List.getLast?_concat]
  rfl

/-- Nothing can be made where a path leads to a directory. -/
theorem create_of_target (h : s.target .followed p = .ok (.found location .dir)) :
    s.create p entry = .error .fileExists := by
  obtain ⟨hshort, hleads⟩ := target_eq_ok_iff.mp h
  unfold create
  rcases List.eq_nil_or_concat p.parts with hnil | ⟨front, n, hparts⟩
  · have hslot : s.slot p = .ok (if p.anchor = .here then .here else .top) := by
      have hlong : ¬ pathLimit ≤ p.text.utf8ByteSize := by omega
      unfold slot startChecked
      simp [hlong, hnil, walk_nil, Target.directory]
      rfl
    rw [hslot]
    by_cases hanchor : p.anchor = .here <;> simp [hanchor, bind, Except.bind]
  rw [List.concat_eq_append] at hparts
  rw [hparts] at hleads
  obtain ⟨middle, k, -, hfront, hlast⟩ := hleads.split (by simp)
  rw [slot_of_parts hshort hparts hfront]
  have hname (hname : LookedUp middle n) : ¬ nameLimit < n.utf8ByteSize := by
    have := hname.short
    omega
  cases hlast with
  | dot => rfl
  | dotDot => rfl
  | enter hlooked hentry | follow hlooked hentry =>
    simp [hlooked.ne_dot, hlooked.ne_dotDot, hlooked.there, hname hlooked, hentry, bind, Except.bind]

/-- The parent of a directory is one. -/
theorem isDirectory_parent (h : s.isDirectory p = .ok true) : s.isDirectory p.parent = .ok true := by
  obtain ⟨hnul, location, htarget⟩ := StoreAction.isDirectory_eq_true_iff.mp h
  obtain ⟨hshort, hleads⟩ := target_eq_ok_iff.mp htarget
  rcases List.eq_nil_or_concat p.parts with hnil | ⟨front, n, hparts⟩
  · have hsame : p.parent = p := by
      cases p
      simp_all [Path.parent]
    rwa [hsame]
  rw [List.concat_eq_append] at hparts
  have hparent : p.parent.parts = front := by simp [Path.parent, hparts]
  rw [hparts] at hleads
  obtain ⟨middle, k, -, hfront, -⟩ := hleads.split (by simp)
  refine StoreAction.isDirectory_eq_true_iff.mpr ⟨?_, middle, target_eq_ok_iff.mpr ⟨?_, ?_⟩⟩
  · simp_all [Path.hasNul]
  · have hmono := Path.size_text_mono (p := p.parent) (q := p) rfl (by simp [hparent, hparts])
    have hlimit : pathLimit = 4096 := rfl
    omega
  · rw [hparent]
    exact hfront

end Store

namespace StoreAction

open Store

variable {s : Store} {p : Path}

/-! ## How the making of a directory ends -/

/-- A directory is missing after a failure, which is one of the file system for a usable path. -/
def Missing (p : Path) (f : Failure) (s : Store) : Prop :=
  s.isDirectory p ≠ .ok true ∧ (f.isSystem = true ↔ p.hasNul = false)

theorem Missing.of_parent {f : Failure} (h : Missing p.parent f s) (hnul : p.hasNul = false) :
    Missing p f s := by
  have hparent : p.parent.hasNul = false := by
    have hmem (name : String) (h : name ∈ p.parts.dropLast) := List.mem_of_mem_dropLast h
    simp_all [Path.hasNul, Path.parent]
  exact ⟨fun hdir ↦ h.1 (isDirectory_parent hdir), by simp [hnul, h.2.mpr hparent]⟩

/-- The name of a directory that is there is taken, so no other failure to make it is met. -/
theorem ensures_makeDirectory (p : Path) :
    Ensures (fun _ ↦ True) (makeDirectory p) (fun _ _ ↦ True)
      (fun f s ↦ (f.isSystem = true ↔ p.hasNul = false) ∧
        ∀ path other, f = .system .noEntry path other → Missing p f s) := by
  intro s _
  unfold makeDirectory
  rw [run_change]
  split
  · next hnul => exact ⟨by simp [hnul, Failure.isSystem], by simp⟩
  next hnul =>
  split
  · exact trivial
  next e he =>
  refine ⟨by simp [hnul, Failure.isSystem, Failure.ofPath], fun path other hf ↦ ⟨fun hdir ↦ ?_, ?_⟩⟩
  · obtain ⟨-, location, htarget⟩ := isDirectory_eq_true_iff.mp hdir
    rw [Store.makeDirectory, create_of_target htarget] at he
    cases he
    cases hf
  · simp [hnul, Failure.isSystem, Failure.ofPath]

/-- The failure is given back only where the directory is not found. -/
theorem ensures_keepDirectory_missing {f : Failure} {P : Store → Prop}
    (hf : ∀ s, P s → (f.isSystem = true ↔ p.hasNul = false)) :
    Ensures P (makeDirectoryAndParents.keepDirectory p f) (fun _ _ ↦ True) (Missing p) := by
  intro s hs
  have hf := hf s hs
  unfold makeDirectoryAndParents.keepDirectory
  cases hsystem : f.isSystem with
  | false =>
    refine ⟨fun hdir ↦ ?_, hf⟩
    have hclean := (isDirectory_eq_true_iff.mp hdir).1
    simp_all
  | true =>
    simp only [Bool.not_true, Bool.false_eq_true, if_false]
    rw [run_bind, run_ask]
    rcases hanswer : s.isDirectory p with g | _ | _
    · exact ⟨by simp [hanswer], by simp [isSystem_of_isDirectory hanswer, ← hf, hsystem]⟩
    · exact ⟨by simp [hanswer], by simp [← hf, hsystem]⟩
    · trivial

theorem ensures_makeUnlessThere_missing (p : Path) :
    Ensures (fun _ ↦ True) (makeDirectoryAndParents.makeUnlessThere p) (fun _ _ ↦ True)
      (Missing p) := by
  refine (ensures_makeDirectory p).tryCatch fun f ↦ ?_
  split
  · exact ensures_throw fun _ hf ↦ hf.2 _ _ rfl
  · exact ensures_keepDirectory_missing fun _ hf ↦ hf.1

/-- A directory that has been asked for is missing after a failure, and it is there otherwise. -/
theorem ensures_makeDirectoryAndParents_missing (p : Path) (parents : ℕ) :
    Ensures (fun _ ↦ True) (makeDirectoryAndParents p parents) (fun _ _ ↦ True) (Missing p) := by
  induction parents generalizing p with
  | zero => exact ensures_makeUnlessThere_missing p
  | succ parents ih =>
    refine (ensures_makeDirectory p).tryCatch fun f ↦ ?_
    split
    · next path other =>
      refine ensures_assume fun hf ↦ ?_
      have hnul : p.hasNul = false := hf.mp rfl
      split
      · exact ensures_throw fun _ h ↦ h _ _ rfl
      · exact ((ih p.parent).weaken (fun _ _ ↦ trivial) (fun _ _ h ↦ h)
          fun _ _ h ↦ h.of_parent hnul).bind fun _ ↦ ensures_makeUnlessThere_missing p
    · exact ensures_keepDirectory_missing fun _ hf ↦ hf.1

/-- Asking for a directory fails exactly if the directory is not there in the end; the failure is one of
the file system unless the path holds the character NUL. -/
theorem systemFails_ensureDirectory_iff (p : Path) (s : Store) :
    SystemFails (ensureDirectory p) s ↔
      p.hasNul = false ∧ ((ensureDirectory p).run s).2.isDirectory p ≠ .ok true := by
  have hthere := ensures_isDirectory_ensureDirectory p s trivial
  have hmissing := ensures_makeDirectoryAndParents_missing p p.parts.length s trivial
  change Outcome _ _ ((ensureDirectory p).run s) at hmissing
  rcases hrun : (ensureDirectory p).run s with ⟨f | ⟨⟩, s'⟩ <;> rw [hrun] at hthere hmissing
  · obtain ⟨hdir, hsystem⟩ : Missing p f s' := hmissing
    rw [systemFails_of_error hrun, hsystem]
    simp [hdir]
  · have hdir : s'.isDirectory p = .ok true := hthere
    exact ⟨fun h ↦ (systemFails_of_ok hrun h).elim, fun h ↦ absurd hdir h.2⟩

end StoreAction

end DeferredOps
