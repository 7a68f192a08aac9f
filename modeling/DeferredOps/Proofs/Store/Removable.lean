import DeferredOps.Proofs.Store.Limits
import DeferredOps.Proofs.Store.Rewriting
import DeferredOps.Proofs.Store.Straight

/-!
# What can be removed under its name

A name that is no directory can be removed. A directory can be removed with everything in it if the path
names it itself, and if the path still does so when the directory is empty: its way may not lead over what
is in it.
-/

namespace DeferredOps

open Action

namespace Store

/-- A path names a directory itself, on a way that does not lead over what is in the directory. -/
def Detachable (s : Store) (p : Path) : Prop :=
  ∃ d n, s.target .kept p = .ok (.found (d ++ [n]) .dir) ∧
    (s.clear (d ++ [n])).slot p = .ok (.name d n)

/-- A path can be followed, and a directory that it leads to can be removed under its name. -/
def Removable (s : Store) (p : Path) : Prop :=
  ∃ found, s.entryAt .followed p = .ok found ∧ ∀ place, found = some (place, .dir) → s.Detachable p

/-- The path itself is the name of something. A symbolic link at its end is not followed. -/
def Reachable (s : Store) (p : Path) : Prop :=
  ∃ found, s.entryAt .kept p = .ok (some found)

variable {s s' : Store} {last : LastLink} {links : ℕ} {directory d l : Location} {name n : String}
  {names : List String} {entry : Entry} {p : Path} {e : SystemError}

/-! ## Questions -/

theorem walkNames_followed_of_kept
    {follow : LastLink → Location → List String → Except SystemError Target}
    (hfollow : ∀ d names e, follow .kept d names = .error e → follow .followed d names = .error e)
    (h : s.walkNames .kept follow directory names = .error e) :
    s.walkNames .followed follow directory names = .error e := by
  induction names generalizing directory with
  | nil => cases h
  | cons name rest ih =>
    unfold walkNames at h ⊢
    split at h
    · next hdot =>
      rw [if_pos hdot]
      exact ih h
    next hdot =>
    rw [if_neg hdot]
    split at h
    · next hdotDot =>
      rw [if_pos hdotDot]
      exact ih h
    next hdotDot =>
    rw [if_neg hdotDot]
    split at h
    · next hremoved => rw [if_pos hremoved, h]
    next hremoved =>
    rw [if_neg hremoved]
    split at h
    · next hlong => rw [if_pos hlong, h]
    next hlong =>
    rw [if_neg hlong]
    dsimp only at h ⊢
    split at h
    · exact h
    · exact ih h
    · exact h
    · split at h
      · cases h
      next hrest =>
      have hrest : rest.isEmpty = false := by simpa using hrest
      rw [hrest] at h ⊢
      exact hfollow _ _ _ h

theorem walk_followed_of_kept (h : s.walk .kept links directory names = .error e) :
    s.walk .followed links directory names = .error e := by
  induction links generalizing directory names e with
  | zero => exact walkNames_followed_of_kept (fun _ _ _ h ↦ h) h
  | succ links ih => exact walkNames_followed_of_kept (fun _ _ _ ↦ ih) h

/-- A path that can be followed to its end can be followed to its last name. -/
theorem exists_entryAt_kept {found : Option (Location × Entry)} (h : s.entryAt .followed p = .ok found) :
    ∃ found', s.entryAt .kept p = .ok found' := by
  cases hkept : s.entryAt .kept p with
  | ok found' => exact ⟨found', rfl⟩
  | error f =>
    obtain ⟨hnul, htarget, -⟩ := (entryAt_eq_error_iff (by simp)).mp hkept
    have hfollowed : s.target .followed p = .error .nameTooLong := by
      unfold target startChecked at htarget ⊢
      split at htarget
      · next hlong => rw [if_pos hlong]; rfl
      · next hlong =>
        rw [if_neg hlong]
        exact walk_followed_of_kept htarget
    rw [(entryAt_eq_error_iff (by simp)).mpr ⟨hnul, hfollowed, rfl⟩] at h
    cases h

/-- What stands under the last name of a path is found there, unless it is a symbolic link. -/
theorem entryAt_followed_of_kept (h : s.entryAt .kept p = .ok (some (l, entry)))
    (hlink : entry.isLink = false) : s.entryAt .followed p = .ok (some (l, entry)) := by
  rw [entryAt_eq_some_iff, target_eq_ok_iff] at h ⊢
  refine h.imp_right fun ⟨hshort, hleads⟩ ↦ ⟨hshort, hleads.last_irrelevant fun l' text heq ↦ ?_⟩
  cases heq
  cases hlink

/-- A path that does not lead to a directory is reachable if and only if its last name is there. -/
theorem reachable_iff (hnul : p.hasNul = false) (hdir : ∀ l, s.target .followed p ≠ .ok (.found l .dir)) :
    s.Reachable p ↔ ∃ d n e, s.slot p = .ok (.name d n) ∧ s.entry? (d ++ [n]) = some e ∧ e ≠ .dir := by
  constructor
  · rintro ⟨⟨l, entry⟩, hfound⟩
    obtain ⟨-, htarget⟩ := entryAt_eq_some_iff.mp hfound
    have hne (l' : Location) : Target.found l entry ≠ .found l' .dir := by
      intro heq
      cases heq
      exact hdir l (entryAt_eq_some_iff.mp (entryAt_followed_of_kept hfound rfl)).2
    obtain ⟨d, n, hslot, hnot, hnone⟩ := slot_of_target htarget hne
    cases hentry : s.entry? (d ++ [n]) with
    | none => cases hnone hentry
    | some e => exact ⟨d, n, e, hslot, hentry, fun heq ↦ hnot (by rw [hentry, heq])⟩
  · rintro ⟨d, n, e, hslot, hentry, -⟩
    have htarget := target_kept_of_slot hslot
    rw [hentry] at htarget
    exact ⟨_, entryAt_eq_some_iff.mpr ⟨hnul, htarget⟩⟩

/-! ## Names that are gone -/

/-- A path whose last name is looked up leads to what has this name. -/
theorem lies_of_target {front : List String} (h : s.target .kept p = .ok (.found l entry))
    (hparts : p.parts = front ++ [name]) (hdot : name ≠ ".") (hdotDot : name ≠ "..") :
    ∃ middle, s.Lies p middle name ∧ s.entry? (middle ++ [name]) = some entry := by
  obtain ⟨-, hleads⟩ := target_eq_ok_iff.mp h
  rw [hparts] at hleads
  obtain ⟨middle, k, -, hfront, hlast⟩ := hleads.split (by simp)
  obtain ⟨hname, hcases⟩ := hlast.found_cons hdot hdotDot
  refine ⟨middle, ⟨⟨front, hparts, hfront⟩, hname⟩, ?_⟩
  rcases hcases with ⟨hentry, hrest⟩ | ⟨hentry, -⟩ | ⟨_, _, -, -, hkept, -⟩
  · cases hrest
    exact hentry
  · exact hentry
  · simp at hkept

/-- A path is not reachable any more when what it names has been taken away. -/
theorem TakenOut.not_reachable (h : s.TakenOut (d ++ [n]) s') (hs : s.WellFormed)
    (hlies : s.Lies p d n) : ¬ s'.Reachable p := by
  rintro ⟨⟨l, entry⟩, hfound⟩
  obtain ⟨front, hparts, -⟩ := hlies.leads
  obtain ⟨middle, hlies', hentry⟩ := lies_of_target (entryAt_eq_some_iff.mp hfound).2 hparts
    hlies.lookedUp.ne_dot hlies.lookedUp.ne_dotDot
  obtain ⟨rfl, -⟩ := hlies.agree hs closedBelow_prefix h.agrees h.current hlies'
  rw [h.entry?, if_pos (List.prefix_refl _)] at hentry
  cases hentry

/-! ## Directories -/

theorem slot_of_lies (h : s.Lies p d n) (hshort : p.text.utf8ByteSize < pathLimit) :
    s.slot p = .ok (.name d n) := by
  obtain ⟨front, hparts, hfront⟩ := h.leads
  exact slot_eq_name_iff.mpr ⟨hshort, front, hparts, hfront, h.lookedUp⟩

/-- An empty directory is removed under its name. -/
theorem removeDirectory_of_slot (hslot : s.slot p = .ok (.name d n))
    (hdir : s.entry? (d ++ [n]) = some .dir) (hempty : s.isEmptyDir (d ++ [n])) :
    s.removeDirectory p = .ok (s.erase (d ++ [n])) := by
  unfold removeDirectory
  simp only [bind, Except.bind, hslot, hdir]
  rw [if_pos hempty]
  rfl

/-- A directory can be removed under the straight path to it. -/
theorem detachable_of_straight (hs : s.WellFormed) (hp : p.Straight)
    (hshort : p.text.utf8ByteSize < pathLimit) (hbelow : p.parts ≠ [])
    (hentry : s.entry? p.parts = some .dir) : s.Detachable p := by
  obtain ⟨d, n, hparts⟩ : ∃ d n, p.parts = d ++ [n] :=
    ⟨_, _, (List.dropLast_append_getLast hbelow).symm⟩
  have hstays : Store.entry? (s.clear p.parts) p.parts = some .dir := by
    rw [entry?_clear, if_neg (by simp [isStrictlyBelow]), hentry]
  refine ⟨d, n, target_eq_ok_iff.mpr ⟨hshort, ?_⟩, ?_⟩
  · have hleads : s.Leads .kept 0 [] p.parts (.found p.parts .dir) := leads_of_entry hs rfl hentry rfl
    rw [start, if_pos hp.isAbsolute, ← hparts]
    exact hleads.mono (Nat.zero_le _)
  · rw [← hparts]
    exact slot_of_straight hs.clear hp hshort hparts hstays

/-- Writing to files does not change which directories can be removed. -/
theorem Rewritten.detachable_iff (h : s.Rewritten s') : s'.Detachable p ↔ s.Detachable p := by
  refine exists_congr fun d ↦ exists_congr fun n ↦ and_congr (h.target_iff rfl) ?_
  exact (h.discard closedBelow_clear).slot_iff

end Store

namespace StoreAction

open Store

variable {s s' : Store} {p : Path} {d : Location} {n : String}

/-- The removal of a directory that the path names itself. -/
theorem run_removeTree_of_found {l : Location} (hnul : p.hasNul = false)
    (htarget : s.target .kept p = .ok (.found l .dir)) :
    (removeTree p).run s = (removeDirectory p).run (s.clear l) := by
  unfold removeTree
  rw [hnul, if_neg (by simp)]
  simp only [run_bind, run_get, htarget, run_modify]

theorem run_removeTree_of_detachable (hnul : p.hasNul = false)
    (htarget : s.target .kept p = .ok (.found (d ++ [n]) .dir))
    (hslot : (s.clear (d ++ [n])).slot p = .ok (.name d n)) (hentry : s.entry? (d ++ [n]) = some .dir) :
    (removeTree p).run s = (.ok (), (s.clear (d ++ [n])).erase (d ++ [n])) := by
  have hstays : Store.entry? (s.clear (d ++ [n])) (d ++ [n]) = some .dir := by
    rw [entry?_clear, if_neg (by simp [isStrictlyBelow]), hentry]
  have hempty : Store.isEmptyDir (s.clear (d ++ [n])) (d ++ [n]) := by
    refine isEmptyDir_iff.mpr fun name ↦ ?_
    rw [entry?_clear, if_pos]
    exact isStrictlyBelow_iff.mpr ⟨List.prefix_append _ _, by simp⟩
  rw [run_removeTree_of_found hnul htarget, run_removeDirectory, hnul,
    removeDirectory_of_slot hslot hstays hempty]
  rfl

/-- A directory is removed if and only if it can be. -/
theorem removeTree_ok_iff (hs : s.WellFormed) (hnul : p.hasNul = false) :
    (∃ s', (removeTree p).run s = (.ok (), s')) ↔ s.Detachable p := by
  constructor
  · rintro ⟨s', hrun⟩
    have hends := ensures_removeTree s p s rfl
    rw [hrun] at hends
    obtain ⟨d, n, -, hcleared, htarget, -⟩ := RemovalEnds.removed_dir hs hends
    exact ⟨d, n, htarget, slot_of_lies hcleared (target_eq_ok_iff.mp htarget).1⟩
  · rintro ⟨d, n, htarget, hslot⟩
    refine ⟨_, run_removeTree_of_detachable hnul htarget hslot ?_⟩
    obtain ⟨hshort, front, hparts, -, hname⟩ := slot_eq_name_iff.mp hslot
    obtain ⟨middle, hlies, hentry⟩ := lies_of_target htarget hparts hname.ne_dot hname.ne_dotDot
    have hfound := target_kept_of_slot (slot_of_lies hlies hshort)
    rw [hentry, htarget] at hfound
    obtain ⟨heq, -⟩ := Target.found.inj (Except.ok.inj hfound)
    rwa [heq]

end StoreAction

end DeferredOps
