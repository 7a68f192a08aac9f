import DeferredOps.Proofs.Alongside
import DeferredOps.Proofs.Executor
import DeferredOps.Proofs.Store.Depth
import Mathlib

/-!
# How deep merges go

A merge moves what is in a directory by the operation that it is part of, and nothing in it stops this.
It stops because the directories that it comes to have ever longer paths: a path leads over forty
symbolic links at most, and between them down through directories that are there. So the move may be
cut off at a depth that depends on the store it starts with, and what it does is the same. The limit on
paths bounds the depth even where copies add directories on the way.
-/

namespace DeferredOps

open Action

namespace Action

variable {σ α β γ : Type} {P : σ → Prop} {Q : α → σ → Prop} {E : Failure → σ → Prop}

/-- From every state with a property two actions do the same. -/
def Agree (P : σ → Prop) (x y : Action σ α) : Prop :=
  ∀ s, P s → x.run s = y.run s

theorem Agree.refl (x : Action σ α) : Agree P x x :=
  fun _ _ ↦ rfl

theorem Agree.symm {x y : Action σ α} (h : Agree P x y) : Agree P y x :=
  fun s hs ↦ (h s hs).symm

theorem Agree.trans {x y z : Action σ α} (h : Agree P x y) (h' : Agree P y z) : Agree P x z :=
  fun s hs ↦ (h s hs).trans (h' s hs)

/-- What is known after the second of two actions may be used of what follows. -/
theorem Agree.bind {x y : Action σ α} {next next' : α → Action σ β} (h : Agree P x y)
    (hy : Ensures P y Q E) (hnext : ∀ a, Agree (Q a) (next a) (next' a)) :
    Agree P (x >>= next) (y >>= next') := by
  intro s hs
  have hend := hy s hs
  rw [run_bind, run_bind, h s hs]
  rcases hrun : y.run s with ⟨f | a, s'⟩
  · rfl
  · rw [hrun] at hend
    exact hnext a s' hend

/-- Two actions that begin alike. -/
theorem Ensures.agree {x : Action σ α} {next next' : α → Action σ β} (hx : Ensures P x Q E)
    (hnext : ∀ a, Agree (Q a) (next a) (next' a)) : Agree P (x >>= next) (x >>= next') :=
  (Agree.refl x).bind hx hnext

theorem Agree.tryCatch {x y : Action σ α} (h : Agree P x y) (handler : Failure → Action σ α) :
    Agree P (tryCatch x handler) (tryCatch y handler) := by
  intro s hs
  rw [run_tryCatch, run_tryCatch, h s hs]

theorem Agree.assume {x y : Action σ α} {p : Prop} (h : p → Agree P x y) :
    Agree (fun s ↦ p ∧ P s) x y :=
  fun s hs ↦ h hs.1 s hs.2

theorem agree_forM {elements : List γ} {body body' : γ → Action σ PUnit}
    (h : ∀ c ∈ elements, Agree P (body c) (body' c))
    (hkept : ∀ c ∈ elements, Keeps P (fun _ ↦ True) (body' c)) :
    Agree P (elements.forM body) (elements.forM body') := by
  induction elements with
  | nil => exact .refl _
  | cons c rest ih =>
    change Agree P (body c >>= fun _ ↦ rest.forM body) (body' c >>= fun _ ↦ rest.forM body')
    refine (h c List.mem_cons_self).bind (hkept c List.mem_cons_self) fun _ ↦ ?_
    exact ih (fun d hd ↦ h d (List.mem_cons_of_mem _ hd)) fun d hd ↦ hkept d (List.mem_cons_of_mem _ hd)

end Action

namespace Executor

open RunAction

variable {source destination : Path} {policy : OverwritePolicy} {depth : ℕ}

/-! ## Moves that are cut off -/

/-- Move what a path names, and a directory as `moveDirectory` says. -/
def moveStep (policy : OverwritePolicy) (moveDirectory : Path → Path → RunAction Unit)
    (source destination : Path) : RunAction Unit :=
  surviving (fun f ↦ Report.failedMove source destination f.reason) do
    if ← ask (·.isDirectory source) then moveDirectory source destination
    else moveFile source destination policy

/-- Move what a path names. A directory that is that many levels below it is left to `cut`. -/
def moveEntryDown (policy : OverwritePolicy) (cut : Path → Path → RunAction Unit) :
    (depth : ℕ) → (source destination : Path) → RunAction Unit
  | 0 => moveStep policy cut
  | depth + 1 => moveStep policy fun source destination ↦
      moveDirectory (moveEntryDown policy cut depth) source destination policy

/-- Move a directory with all that is in it. -/
def moveWholeDirectory (policy : OverwritePolicy) (source destination : Path) : RunAction Unit :=
  moveDirectory (fun S D ↦ moveEntry S D policy) source destination policy

theorem moveEntryFrom_succ (policy : OverwritePolicy) (depth : ℕ) :
    moveEntryFrom policy (depth + 1) = moveStep policy fun source destination ↦
      moveDirectory (moveEntryFrom policy depth) source destination policy := rfl

/-- A move with a limit on its depth is cut off there. -/
theorem moveEntryFrom_eq_moveEntryDown (policy : OverwritePolicy) (depth : ℕ) :
    moveEntryFrom policy (depth + 1) = moveEntryDown policy (fun source destination ↦
      moveDirectory (moveEntryFrom policy 0) source destination policy) depth := by
  induction depth with
  | zero => rfl
  | succ depth ih => rw [moveEntryFrom_succ, ih, moveEntryDown]

/-- A move that is cut off deep down may be cut off higher up, if it goes on from there. -/
theorem moveEntryDown_add (policy : OverwritePolicy) (cut : Path → Path → RunAction Unit)
    (depth more : ℕ) :
    moveEntryDown policy cut (depth + (more + 1)) = moveEntryDown policy (fun source destination ↦
      moveDirectory (moveEntryDown policy cut more) source destination policy) depth := by
  induction depth with
  | zero => rw [Nat.zero_add, moveEntryDown, moveEntryDown]
  | succ depth ih => rw [Nat.add_right_comm, moveEntryDown, ih, moveEntryDown]

/-! ## Agreement from one level to the next -/

section Levels

variable {f g : Path → Path → RunAction Unit}

theorem agree_moveStep
    (h : Agree (fun r ↦ r.store.isDirectory source = .ok true ∧ r.WellFormed) (f source destination)
      (g source destination)) :
    Agree Run.WellFormed (moveStep policy f source destination)
      (moveStep policy g source destination) := by
  have hask : Ensures Run.WellFormed (ask (·.isDirectory source))
      (fun there r ↦ r.store.isDirectory source = .ok there ∧ r.WellFormed) fun _ _ ↦ True := by
    intro r hr
    rw [run_ask]
    cases hanswer : r.store.isDirectory source with
    | ok there => exact ⟨hanswer, hr⟩
    | error => trivial
  refine (hask.agree fun there ↦ ?_).tryCatch _
  cases there with
  | true => exact h
  | false => exact .refl _

/-- The names of a directory are those of entries. -/
theorem ensures_names (directory : Path) :
    Ensures Run.WellFormed (sortedNames directory)
      (fun names r ↦ (∀ name ∈ names, IsName name) ∧ r.WellFormed) fun _ _ ↦ True := by
  intro r hr
  unfold sortedNames
  rw [run_ask]
  cases hlist : r.store.list directory with
  | error => trivial
  | ok names =>
    refine ⟨fun name hname ↦ ?_, hr⟩
    exact Store.isName_of_list hr.store hlist (by simpa [Store.sortNames] using hname)

/-- Directories are moved alike if what is in them is. -/
theorem agree_moveDirectory (hsource : source.Proper) (hdestination : destination.Proper)
    (hkept : ∀ S D, S.Proper → D.Proper → Keeps Run.WellFormed (fun _ ↦ True) (g S D))
    (h : ∀ name D, IsName name → D.Proper →
      Agree Run.WellFormed (f (source.child name) D) (g (source.child name) D)) :
    Agree Run.WellFormed (moveDirectory f source destination policy)
      (moveDirectory g source destination policy) := by
  have hinfo (message : String) : Keeps Run.WellFormed (fun _ ↦ True) (info message) :=
    (keeps_info Store.invariant_wellFormed message).weaken fun _ _ ↦ trivial
  have hask {α : Type} (question : Store → Except Failure α) :
      Keeps Run.WellFormed (fun _ ↦ True) (ask question) := keeps_ask fun _ _ _ _ ↦ trivial
  have hreplace (target : Path) :
      Keeps Run.WellFormed (Failure.SystemOr fun _ ↦ True) (mayReplace policy target) :=
    keeps_mayReplace policy target
  have hwithin : (within destination source).Usable True :=
    usable_within ⟨hdestination, fun _ ↦ trivial⟩ ⟨hsource, fun _ ↦ trivial⟩
  refine Ensures.agree (hask _) fun there ↦ ?_
  split
  · exact .refl _
  refine Ensures.agree (hinfo _) fun _ ↦ Ensures.agree (hask _) fun same ↦ ?_
  split
  · exact .refl _
  refine Ensures.agree (hreplace _) fun replaces ↦ ?_
  split
  · exact .refl _
  -- Only a merge comes to what is in the directory.
  refine Ensures.agree (hinfo _) fun _ ↦ (ensures_names source).agree fun names ↦ .assume fun hnames ↦ ?_
  refine Agree.bind (Q := fun _ _ ↦ True) (E := fun _ _ ↦ True) ?_ (ensures_any _) fun _ ↦ .refl _
  rw [forIn_eq_forM, forIn_eq_forM]
  refine agree_forM (fun name hname ↦ h name _ (hnames name hname) hwithin.proper) fun name hname ↦ ?_
  have hlegal := hnames name hname
  exact hkept _ _ (hsource.child hlegal.isPart) hwithin.proper

end Levels

/-! ## Depths that are not reached -/

section Depths

variable {cut cut' : Path → Path → RunAction Unit}

theorem keeps_moveDirectory_wellFormed {moveChild : Path → Path → RunAction Unit}
    (hsource : source.Proper) (hdestination : destination.Proper)
    (h : ∀ S D, S.Proper → D.Proper → Keeps Run.WellFormed (fun _ ↦ True) (moveChild S D)) :
    Keeps Run.WellFormed (fun _ ↦ True) (moveDirectory moveChild source destination policy) := by
  have hmove : Movable Store.WellFormed True (fun _ ↦ True) _ :=
    movable_usable Store.invariant_wellFormed id trivial
  refine (keeps_moveDirectory Store.invariant_wellFormed hmove ⟨⟨hsource, fun _ ↦ trivial⟩,
    ⟨hdestination, fun _ ↦ trivial⟩⟩ (fun S D hSD ↦ ?_) policy).weaken fun _ _ ↦ trivial
  exact (h S D hSD.1.proper hSD.2.proper).weaken fun _ _ ↦ .inr trivial

theorem keeps_moveStep (hsource : source.Proper) (hdestination : destination.Proper)
    (h : Keeps Run.WellFormed (fun _ ↦ True) (cut source destination)) :
    Keeps Run.WellFormed (fun _ ↦ True) (moveStep policy cut source destination) := by
  have hmove : Movable Store.WellFormed True (fun _ ↦ True) _ :=
    movable_usable Store.invariant_wellFormed id trivial
  refine keeps_surviving Store.invariant_wellFormed id ?_
  refine (keeps_ask fun _ _ _ _ ↦ .inr trivial).bind fun there ↦ ?_
  split
  · exact h.weaken fun _ _ ↦ .inr trivial
  · exact keeps_moveFile Store.invariant_wellFormed hmove ⟨⟨hsource, fun _ ↦ trivial⟩,
      ⟨hdestination, fun _ ↦ trivial⟩⟩ policy

theorem keeps_moveEntryDown
    (hcut : ∀ S D, S.Proper → D.Proper → Keeps Run.WellFormed (fun _ ↦ True) (cut S D))
    (hsource : source.Proper) (hdestination : destination.Proper) :
    Keeps Run.WellFormed (fun _ ↦ True) (moveEntryDown policy cut depth source destination) := by
  induction depth generalizing source destination with
  | zero => exact keeps_moveStep hsource hdestination (hcut _ _ hsource hdestination)
  | succ depth ih =>
    exact keeps_moveStep hsource hdestination
      (keeps_moveDirectory_wellFormed hsource hdestination fun S D hS hD ↦ ih hS hD)

/-- Moves that are cut off at the same depth do the same, if what they do there is the same for the
directories that they can come to. -/
theorem agree_moveEntryDown
    (hkept : ∀ S D, S.Proper → D.Proper → Keeps Run.WellFormed (fun _ ↦ True) (cut' S D))
    (hsource : source.Proper) (hdestination : destination.Proper)
    (h : ∀ names D, (∀ name ∈ names, IsName name) → names.length = depth →
      Agree (fun r ↦ r.store.isDirectory (source.extend names) = .ok true ∧ r.WellFormed)
        (cut (source.extend names) D) (cut' (source.extend names) D)) :
    Agree Run.WellFormed (moveEntryDown policy cut depth source destination)
      (moveEntryDown policy cut' depth source destination) := by
  induction depth generalizing source destination with
  | zero =>
    refine agree_moveStep ?_
    simpa using h [] destination (by simp) rfl
  | succ depth ih =>
    refine agree_moveStep fun r hr ↦ ?_
    refine agree_moveDirectory hsource hdestination (fun S D hS hD ↦ keeps_moveEntryDown hkept hS hD)
      (fun name D hname hD ↦ ?_) r hr.2
    refine ih (hsource.child hname.isPart) hD fun names D hnames hlength ↦ ?_
    rw [Path.child_extend]
    exact h (name :: names) D (by simpa using ⟨hname, hnames⟩) (by simp [hlength])

/-- The limit on paths keeps every move from a depth beyond half of it. -/
theorem agree_of_long (hsource : source.Proper) (hdestination : destination.Proper)
    (hdepth : Store.pathLimit / 2 < depth)
    (hkept : ∀ S D, S.Proper → D.Proper → Keeps Run.WellFormed (fun _ ↦ True) (cut' S D)) :
    Agree Run.WellFormed (moveEntryDown policy cut depth source destination)
      (moveEntryDown policy cut' depth source destination) := by
  refine agree_moveEntryDown hkept hsource hdestination fun names D hnames hlength r hr ↦ ?_
  have hshort := Store.length_le_of_short hnames hr.1
  omega

/-- Moves with limits on their depth beyond those of paths do the same. -/
theorem agree_moveEntryFrom {bound : ℕ} (hsource : source.Proper) (hdestination : destination.Proper)
    (hbound : Store.pathLimit / 2 < bound) (hdepth : bound < depth) :
    Agree Run.WellFormed (moveEntryFrom policy depth source destination)
      (moveEntryDown policy (fun _ _ ↦ pure ()) bound source destination) := by
  have hidle : ∀ S D : Path, S.Proper → D.Proper →
      Keeps Run.WellFormed (fun _ ↦ True) (pure () : RunAction Unit) := fun _ _ _ _ ↦ keeps_pure _
  obtain ⟨more, rfl⟩ := Nat.exists_eq_add_of_lt hdepth
  rw [moveEntryFrom_eq_moveEntryDown]
  cases more with
  | zero => exact agree_of_long hsource hdestination hbound hidle
  | succ more =>
    rw [moveEntryDown_add]
    exact agree_of_long hsource hdestination hbound hidle

theorem keeps_moveEntry (hsource : source.Proper) (hdestination : destination.Proper) :
    Keeps Run.WellFormed (fun _ ↦ True) (moveEntry source destination policy) :=
  have hmove : Movable Store.WellFormed True (fun _ ↦ True) _ :=
    movable_usable Store.invariant_wellFormed id trivial
  keeps_moveEntryFrom Store.invariant_wellFormed hmove policy _
    ⟨⟨hsource, fun _ ↦ trivial⟩, ⟨hdestination, fun _ ↦ trivial⟩⟩

/-- What is in a directory is moved by the operation that it is part of. -/
theorem agree_moveEntry (hsource : source.Proper) (hdestination : destination.Proper) :
    Agree Run.WellFormed (moveEntry source destination policy)
      (moveStep policy (moveWholeDirectory policy) source destination) := by
  have hlimit : moveEntry source destination policy = moveStep policy (fun source destination ↦
      moveDirectory (moveEntryFrom policy (Store.pathLimit - 1)) source destination policy)
      source destination := rfl
  rw [hlimit]
  refine agree_moveStep fun r hr ↦ agree_moveDirectory hsource hdestination
    (fun S D hS hD ↦ keeps_moveEntry hS hD) (fun name D hname hD ↦ ?_) r hr.2
  have hchild := hsource.child hname.isPart
  have hbound : Store.pathLimit / 2 < Store.pathLimit / 2 + 1 := Nat.lt_succ_self _
  exact (agree_moveEntryFrom hchild hD hbound (by decide)).trans
    (agree_moveEntryFrom hchild hD hbound (by decide)).symm

/-- A move does what it does when it is written out down to any depth. -/
theorem agree_moveEntryDown_moveEntry (hsource : source.Proper) (hdestination : destination.Proper) :
    Agree Run.WellFormed (moveEntryDown policy (moveWholeDirectory policy) depth source destination)
      (moveEntry source destination policy) := by
  induction depth generalizing source destination with
  | zero => exact (agree_moveEntry hsource hdestination).symm
  | succ depth ih =>
    refine Agree.trans ?_ (agree_moveEntry hsource hdestination).symm
    refine agree_moveStep fun r hr ↦ agree_moveDirectory hsource hdestination
      (fun S D hS hD ↦ keeps_moveEntry hS hD) (fun name D hname hD ↦ ?_) r hr.2
    exact ih (hsource.child hname.isPart) hD

end Depths

/-! ## The end of every move -/

/-- Every move ends, by moving what is in the directories that it merges by the same operation. It goes
no deeper than half the limit on paths, whatever the store holds, and no deeper than a bound that depends
on the store at the start only as long as there are no more entries than at the start: what is to be done
beyond these depths does not matter. -/
theorem moveEntry_ends (r : Run) (source destination : Path) (policy : OverwritePolicy)
    (hr : r.WellFormed) (hsource : source.Proper) (hdestination : destination.Proper) :
    (moveEntry source destination policy).run r =
        (moveStep policy (moveWholeDirectory policy) source destination).run r ∧
      ∀ (cut : Path → Path → RunAction Unit) (depth : ℕ),
        (Store.pathLimit / 2 < depth → (moveEntryDown policy cut depth source destination).run r =
          (moveEntry source destination policy).run r) ∧
        (r.store.depthBound < depth →
          (∀ S D t, r.store.entries.length < t.store.entries.length →
            (cut S D).run t = (moveWholeDirectory policy S D).run t) →
          (moveEntryDown policy cut depth source destination).run r =
            (moveEntry source destination policy).run r) := by
  have hkept (S D : Path) (hS : S.Proper) (hD : D.Proper) :
      Keeps Run.WellFormed (fun _ ↦ True) (moveWholeDirectory policy S D) :=
    keeps_moveDirectory_wellFormed hS hD fun S D hS hD ↦ keeps_moveEntry hS hD
  refine ⟨agree_moveEntry hsource hdestination r hr, fun cut depth ↦ ⟨fun hdepth ↦ ?_, fun hdepth hcut ↦ ?_⟩⟩
  · exact ((agree_of_long hsource hdestination hdepth hkept).trans
      (agree_moveEntryDown_moveEntry hsource hdestination)) r hr
  · refine ((agree_moveEntryDown hkept hsource hdestination fun names D hnames hlength t ht ↦ ?_).trans
      (agree_moveEntryDown_moveEntry hsource hdestination)) r hr
    -- So deep a directory takes more entries than there were at the start.
    have hdeep := Store.length_le_of_isDirectory ht.2.store hnames ht.1
    refine hcut _ _ _ ?_
    by_contra hfew
    have hbound : t.store.depthBound ≤ r.store.depthBound :=
      Nat.add_le_add_left (Nat.mul_le_mul_left _ (Nat.le_of_not_lt hfew)) _
    omega

/-- Links back to their directories on both sides lead far down, but not without end. -/
theorem moveEntry_ends_of_cyclic_links :
    let s := ((((Store.empty.put ["a"] .dir).put ["a", "l"] (.link ".")).put ["b"] .dir).put
      ["b", "a"] .dir).put ["b", "a", "l"] (.link ".")
    let cut : Path → Path → RunAction Unit := fun S D ↦ do
      if (← get).store.entries.length ≤ 5 then throw .endlessCopy else moveWholeDirectory .merge S D
    let r := Run.first s
    r.WellFormed ∧ s.depthBound = 245 ∧
      ((moveEntryDown .merge cut 1 ⟨.top, ["a"]⟩ ⟨.top, ["b"]⟩).run r).1 = .error .endlessCopy ∧
      (moveEntryDown .merge cut 246 ⟨.top, ["a"]⟩ ⟨.top, ["b"]⟩).run r =
        (moveEntry ⟨.top, ["a"]⟩ ⟨.top, ["b"]⟩ .merge).run r := by
  intro s cut r
  have hr : r.WellFormed := Run.wellFormed_first (by decide)
  have hproper (name : String) (hname : IsName name) : (⟨.top, [name]⟩ : Path).Proper := by
    simpa [Path.Proper] using ⟨hname.ne_empty, hname.noSlash⟩
  refine ⟨hr, rfl, ?_, ?_⟩
  · cbv
  · refine ((moveEntry_ends r ⟨.top, ["a"]⟩ ⟨.top, ["b"]⟩ .merge hr (hproper "a" (by decide))
      (hproper "b" (by decide))).2 cut 246).2 (by decide) fun S D t hmore ↦ ?_
    have hmany : ¬ t.store.entries.length ≤ 5 := Nat.not_le_of_lt hmore
    simp only [cut, run_bind, run_get, if_neg hmany]

end Executor

end DeferredOps
