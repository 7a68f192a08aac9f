import DeferredOps.Proofs.Merging
import DeferredOps.Proofs.Store.Clearing

/-!
# Replacements

A move that replaces what is there takes it out first and then transfers its source to the place that
is free. In a store without symbolic links all this happens at or below the source and the target.
A source that goes away with the target is lost.
-/

namespace DeferredOps

open Action

namespace StoreAction

open Store

variable {s s' : Store} {source destination p : Path} {target : Location}
  {result : Except Failure Unit}

/-- Nothing is moved from where nothing is. -/
theorem MoveEnds.eq_of_absent (hs : s.WellFormed) (hproper : destination.Proper)
    (habsent : ∀ l e mode, s.target mode source = .ok (.found l e) → s.entry? l ≠ some e)
    (h : MoveEnds s source destination result s') : s' = s := by
  have hanchored {l : Location} (hfound : s.target .followed source = .ok (.found l .dir)) :
      ¬ s.Anchored source := fun hanchored ↦
    habsent _ _ _ hfound ((target_eq_ok_iff.mp hfound).2.found_there hs (hanchored.start_dir hs))
  cases h with
  | refused => rfl
  | renamed hclean hrename =>
    obtain ⟨d, n, d', n', hslot, hslot', hcarry⟩ := rename_ok hrename
    have hname := isName_of_slot hproper hclean hslot'
    have hthere : s.entry? (d ++ [n]) ≠ none := by
      rcases carryChecked_ok hs (by simp) (dir_of_slot hs hslot') hname hcarry with
        ⟨-, entry, -, hentry, -⟩ | ⟨hcan, -⟩
      · simp [hentry]
      · exact Option.isSome_iff_ne_none.mp hcan.found
    obtain ⟨entry, hentry⟩ := Option.ne_none_iff_exists'.mp hthere
    have hkept := target_kept_of_slot hslot
    rw [hentry] at hkept
    exact absurd hentry (habsent _ _ _ hkept)
  | linked _ hfound =>
    exact absurd (entry?_of_link hs hfound) (habsent _ _ _ (entryAt_eq_some_iff.mp hfound).2)
  | copyFailed _ hfound _ hboth => exact absurd hboth.1 (hanchored hfound)
  | copied _ hfound _ hboth => exact absurd hboth.1 (hanchored hfound)
  | copiedFile _ hfound =>
    exact absurd ((sound_of_target hs hfound).resolve_right (by simp)) (habsent _ _ _ hfound)

/-- What a path leads to has been taken out under its name. -/
structure TakenFrom (s : Store) (p : Path) (directory : Location) (name : String) (s' : Store) :
    Prop where
  wellFormed : s'.WellFormed
  lies : s.Lies p directory name
  there : s.exists? p = .ok true
  entry : s.entry? (directory ++ [name]) ≠ none
  takenOut : s.TakenOut (directory ++ [name]) s'

/-- Where the way to a path has been cleared, what was there has been taken out, or nothing. -/
theorem Cleared.cases (hs : s.WellFormed) (h : Cleared s p s') :
    s' = s ∧ s.isDirectory p = .ok false ∨ ∃ d n, TakenFrom s p d n s' := by
  have hs' := h.wellFormed hs
  cases h with
  | free hdir => exact .inl ⟨rfl, hdir⟩
  | name _ hthere hunlink =>
    obtain ⟨d, n, e, hslot, hentry, hne, rfl⟩ := unlink_eq_ok_iff.mp hunlink
    exact .inr ⟨d, n, hs', lies_of_slot hslot, hthere, by simp [hentry],
      takenOut_erase hs hentry hne⟩
  | directory hdir hremoval =>
    obtain ⟨d, n, hlies, -, -, hentry, rfl⟩ := hremoval.removed_dir hs
    exact .inr ⟨d, n, hs', hlies, Executor.exists_of_isDirectory hdir, by simp [hentry],
      takenOut_clear_erase (by simp)⟩

/-- Where a name is removed if it is there, what was there has been taken out, or no file was. -/
theorem takenFrom_of_unlinkIfThere (hs : s.WellFormed) (hfree : s.LinkFree)
    (h : (unlinkIfThere p).run s = (.ok (), s')) :
    s' = s ∧ (∀ l id content, s.target .followed p ≠ .ok (.found l (.file id content))) ∨
      ∃ d n, TakenFrom s p d n s' := by
  obtain ⟨hclean, hunlink | ⟨rfl, hnone⟩⟩ := unlinkIfThere_ok h
  · have hs' := hs.unlink hunlink
    obtain ⟨d, n, e, hslot, hentry, hne, rfl⟩ := unlink_eq_ok_iff.mp hunlink
    have hlink : e.isLink = false := by
      cases e <;> first | rfl | exact absurd hentry (hfree _ _)
    have hthere := exists_eq_true_iff.mpr ⟨hclean, _, _, target_of_slot hslot hentry hlink⟩
    exact .inr ⟨d, n, hs', lies_of_slot hslot, hthere, by simp [hentry],
      takenOut_erase hs hentry hne⟩
  · refine .inl ⟨rfl, fun l id content hfound ↦ ?_⟩
    obtain ⟨d, n, hslot, hdir, habsent⟩ := slot_of_target hfound (by simp)
    cases hentry : s'.entry? (d ++ [n]) with
    | none => cases habsent hentry
    | some e =>
      rw [hentry, ne_eq, Option.some.injEq] at hdir
      have hok := unlink_eq_ok_iff.mpr ⟨d, n, e, hslot, hentry, hdir, rfl⟩
      simp [hok] at hnone

end StoreAction

namespace Executor

open Store StoreAction

variable {s s₁ s' : Store} {source destination p : Path} {origin target directory : Location}
  {name : String} {depth : ℕ} {result : Except Failure Unit}

/-- What becomes of a store when something is moved and replaces what is at the target. -/
inductive Replaced (s : Store) (source : Path) (origin : Location) (p : Path) (target : Location) :
    Store → Prop
  | still : Replaced s source origin p target s
  | cleared {s' : Store} (hdistinct : origin ≠ target) (hpruned : s.Pruned target s')
      (hold : ∀ l e, s'.entry? l = some e → s.entry? l = some e)
      (hgone : ∀ l, target <+: l → l ≠ target → s'.entry? l = none) :
      Replaced s source origin p target s'
  | transferred {s' : Store} (h : s.Transfer source origin p target s') :
      Replaced s source origin p target s'
  | replaced {s₁ s' : Store} {directory : Location} {name : String}
      (htarget : target = directory ++ [name]) (hapart : ¬ target <+: origin)
      (htaken : s.TakenOut target s₁) (hs₁ : s₁.WellFormed)
      (h : s₁.Transfer source origin p target s') : Replaced s source origin p target s'

theorem TakenOut.old (h : s.TakenOut target s') (l : Location) (e : Entry)
    (hentry : s'.entry? l = some e) : s.entry? l = some e := by
  rw [h.entry?] at hentry
  split at hentry
  · cases hentry
  · exact hentry

section LinkFree

variable (hs : s.WellFormed) (hfree : s.LinkFree)
include hs hfree

/-- Once what was at its target has been taken out, the source is transferred, unless it is gone
too. -/
theorem replaced_of_takenFrom (hproper : p.Proper) (htaken : TakenFrom s p directory name s₁)
    (hthere : s.exists? source = .ok true) (hsame : s.samePlace source p = .ok false)
    (h : MoveEnds s₁ source p result s') :
    Replaced s source (s.place source) p (s.place p) s' := by
  obtain ⟨hclean, l, e, hfound⟩ := exists_eq_true_iff.mp hthere
  obtain ⟨hclean', l', e', hfound'⟩ := exists_eq_true_iff.mp htaken.there
  have hdistinct := ne_of_samePlace hs hclean hfound hclean' hfound' hsame
  obtain rfl : l = s.place source := location_of_target hfree hfound
  obtain rfl : l' = s.place p := location_of_target hfree hfound'
  have hplace := htaken.lies.place_eq hfree
  have hs₁ := htaken.wellFormed
  have hfree₁ := htaken.takenOut.linkFree hfree
  rw [hplace] at hdistinct ⊢
  by_cases hbelow : directory ++ [name] <+: s.place source
  · obtain rfl : s' = s₁ := by
      refine h.eq_of_absent hs₁ hproper fun l e mode hfound₁ hentry₁ ↦ ?_
      have hleads := (target_eq_ok_iff.mp (target_mode hfree₁ .followed hfound₁)).2
      obtain rfl := htaken.takenOut.eq_of_leads hs (target_eq_ok_iff.mp hfound).2 hleads
        (hs₁.not_isRemoved hentry₁)
      rw [htaken.takenOut.entry?, if_pos hbelow] at hentry₁
      cases hentry₁
    exact .cleared hdistinct htaken.takenOut.pruned (TakenOut.old htaken.takenOut)
      fun l hbelow _ ↦ by rw [htaken.takenOut.entry?, if_pos hbelow]
  · have hsource := hfree₁.points source
    have htarget := hfree₁.points p
    rw [htaken.takenOut.place_eq hbelow] at hsource
    rw [htaken.takenOut.place_of_lies hfree htaken.lies] at htarget
    refine .replaced rfl hbelow htaken.takenOut hs₁ (h.transfer hs₁ hsource htarget (hfree₁.noLinks _)
      (hfree₁.noLinks _) hproper (fun l e l' e' _ hfound' _ ↦ ?_) hclean)
    -- Nothing is at the target any more.
    obtain rfl : l' = directory ++ [name] := htarget.target (hfree₁ _) hfound'
    obtain ⟨old, hold⟩ := Option.ne_none_iff_exists'.mp htaken.entry
    rcases sound_of_target hs₁ hfound' with hentry | ⟨-, hremoved, -⟩
    · rw [htaken.takenOut.entry?, if_pos (List.prefix_refl _)] at hentry
      cases hentry
    · simp [hs.not_isRemoved hold] at hremoved

/-- Where nothing had to be cleared the source is transferred. -/
theorem replaced_of_free (hproper : p.Proper) (hthere : s.exists? source = .ok true)
    (hclear : p.hasNul = false → ∀ l e l' e', s.target .followed source = .ok (.found l e) →
      s.target .followed p = .ok (.found l' e') → ¬ (e' = .dir ↔ e = .dir))
    (hmove : (StoreAction.moveEntry source p).run s = (result, s')) :
    Replaced s source (s.place source) p (s.place p) s' := by
  by_cases hnul : p.hasNul
  · rw [run_moveEntry_of_hasNul hnul] at hmove
    cases hmove
    exact .still
  · have hends : MoveEnds s source p _ _ := moveEnds hs hproper
    rw [hmove] at hends
    exact .transferred (hends.transfer hs (hfree.points _) (hfree.points _) (hfree.noLinks _)
      (hfree.noLinks _) hproper (hclear (by simpa using hnul)) (exists_eq_true_iff.mp hthere).1)

/-- A directory does not stand in the place of another one where there is none. -/
theorem replaced_of_directory (hproper : p.Proper) (hsource : s.isDirectory source = .ok true)
    (hfalse : s.isDirectory p = .ok false)
    (hmove : (StoreAction.moveEntry source p).run s = (result, s')) :
    Replaced s source (s.place source) p (s.place p) s' := by
  refine replaced_of_free hs hfree hproper (exists_of_isDirectory hsource)
    (fun hclean l e l' e' hfound hfound' hkinds ↦ ?_) hmove
  obtain ⟨-, l₁, hdir⟩ := isDirectory_eq_true_iff.mp hsource
  rw [hdir] at hfound
  cases hfound
  obtain rfl := hkinds.mpr rfl
  have htrue := isDirectory_eq_true_iff.mpr ⟨hclean, l', hfound'⟩
  simp [hfalse] at htrue

/-- A move that replaces what is there takes it out, and transfers its source if that is still
there. -/
theorem Moves.replaced (hsource : source.Proper) (hdestination : destination.Proper)
    (h : Moves .replace depth s source destination s') :
    Replaced s source (s.place source) (landing s source destination)
      (s.place (landing s source destination)) s' := by
  cases depth with
  | zero =>
    obtain rfl : s' = s := h
    exact .still
  | succ depth =>
  have hproper := proper_landing (s := s) hsource hdestination
  have htaken {d : Location} {n : String} {s₁ : Store} {result : Except Failure Unit}
      (htaken : TakenFrom s (landing s source destination) d n s₁)
      (hthere : s.exists? source = .ok true)
      (hsame : s.samePlace source (landing s source destination) = .ok false)
      (hmove : (StoreAction.moveEntry source (landing s source destination)).run s₁ = (result, s')) :
      Replaced s source (s.place source) (landing s source destination)
        (s.place (landing s source destination)) s' := by
    have hends : MoveEnds s₁ source (landing s source destination) _ _ :=
      moveEnds htaken.wellFormed hproper
    rw [hmove] at hends
    exact replaced_of_takenFrom hs hfree hproper htaken hthere hsame hends
  rcases h with rfl | ⟨hdir, hmove⟩ | ⟨hdir, hmove⟩
  · exact .still
  · have hthere := exists_of_isDirectory hdir
    cases hmove with
    | still => exact .still
    | renamed hdirectory hmove =>
      have hlanding : landing s source destination = destination :=
        landing_of_not_directory (by simp [hdirectory])
      rw [hlanding]
      exact replaced_of_directory hs hfree hdestination hdir hdirectory hmove
    | placed hdirectory hsame _ hcleared hmove =>
      rw [← landing_of_directory source hdirectory] at hsame hcleared hmove
      rcases hcleared.cases hs with ⟨rfl, hfalse⟩ | ⟨d, n, hfrom⟩
      · exact replaced_of_directory hs hfree hproper hdir hfalse hmove
      · exact htaken hfrom hthere hsame hmove
    | uncleared hdirectory hsame _ hthere' hremoval =>
      rw [← landing_of_directory source hdirectory] at hsame hthere' hremoval
      cases hremoval with
      | refused => exact .still
      | @emptied l _ htarget =>
        obtain ⟨hclean, l₁, hfound⟩ := isDirectory_eq_true_iff.mp hdir
        obtain ⟨hclean', l₂, hfound'⟩ := isDirectory_eq_true_iff.mp hthere'
        have hdistinct := ne_of_samePlace hs hclean hfound hclean' hfound' hsame
        obtain rfl : l₁ = s.place source := location_of_target hfree hfound
        obtain rfl : l₂ = _ := location_of_target hfree hfound'
        obtain rfl : l = _ := location_of_target hfree htarget
        exact .cleared hdistinct (pruned_clear _ _) (fun _ _ ↦ entry?_of_discard)
          fun l hbelow hne ↦ by rw [entry?_clear, if_pos (isStrictlyBelow_iff.mpr ⟨hbelow, hne⟩)]
    | merged hpolicy => cases hpolicy
  · cases hmove with
    | still => exact .still
    | moved hsame _ hthere hunlink hmove =>
      rcases takenFrom_of_unlinkIfThere hs hfree hunlink with ⟨rfl, hnone⟩ | ⟨d, n, hfrom⟩
      · refine replaced_of_free hs hfree hproper hthere
          (fun _ l e l' e' hfound hfound' hkinds ↦ ?_) hmove
        cases e' with
        | dir =>
          obtain rfl := hkinds.mp rfl
          have htrue := isDirectory_eq_true_iff.mpr ⟨(exists_eq_true_iff.mp hthere).1, l, hfound⟩
          simp [hdir] at htrue
        | file => exact hnone _ _ _ hfound'
        | link => exact hfree _ _ ((sound_of_target hs hfound').resolve_right (by simp))
      · exact htaken hfrom hthere hsame hmove

end LinkFree

namespace Replaced

variable (h : Replaced s source origin p target s') (hs : s.WellFormed)
include h hs

/-- Outside the source and the target nothing changes. -/
theorem keptOutside (hfree : s.LinkFree) : s.KeptOutside origin target p s' := by
  cases h with
  | still => exact .refl _ _ _ _
  | cleared _ hpruned hold =>
    intro l _ htarget
    left
    cases hentry : s.entry? l with
    | some e => exact hpruned.kept htarget hentry
    | none =>
      exact Option.eq_none_iff_forall_ne_some.mpr fun e hnew ↦ by simp [hold l e hnew] at hentry
  | transferred h => exact (h.confined hs (hfree.noLinks _)).keptOutside hfree
  | replaced htarget _ htaken hs₁ h =>
    subst htarget
    have hfree₁ := htaken.linkFree hfree
    have hconfined := h.confined hs₁ (hfree₁.noLinks _)
    exact (hconfined.keptOutside hfree₁).of_takenOut htaken hconfined.wellFormed

/-- If the source and the target do not lie inside each other, no file of the source is lost. -/
theorem preserved (hnested : origin <+: target → origin = target)
    (habove : target <+: origin → origin = target) : s.Preserved origin target s' := by
  have hapart (hdistinct : origin ≠ target) (rest : Location) : ¬ target <+: origin ++ rest :=
    fun hpre ↦ hdistinct ((List.prefix_or_prefix_of_prefix hpre (List.prefix_append _ _)).elim
      habove hnested)
  cases h with
  | still => exact fun _ _ h ↦ .inl h
  | cleared hdistinct hpruned =>
    intro rest content hcontent
    obtain ⟨id, hfile⟩ := contentAt?_eq_some_iff.mp hcontent
    exact .inl (contentAt?_eq_some_iff.mpr ⟨id, hpruned.kept (hapart hdistinct rest) hfile⟩)
  | transferred h => exact h.preserved hs hnested
  | replaced _ hnot htaken hs₁ h =>
    intro rest content hcontent
    have hdistinct : origin ≠ target := by
      rintro rfl
      exact hnot (List.prefix_refl _)
    refine h.preserved hs₁ hnested rest content ?_
    rw [contentAt?, htaken.entry?, if_neg (hapart hdistinct rest)]
    exact hcontent

/-- A source inside its target is kept, or it is lost with everything in it. -/
theorem kept_or_lost (habove : target <+: origin) (hdistinct : origin ≠ target) :
    (∀ l e, origin <+: l → s.entry? l = some e → s'.entry? l = some e) ∨
      ∀ l, origin <+: l → s'.entry? l = none := by
  cases h with
  | still => exact .inl fun _ _ _ h ↦ h
  | cleared _ _ _ hgone =>
    refine .inr fun l hbelow ↦ hgone l (habove.trans hbelow) ?_
    rintro rfl
    exact hdistinct (hbelow.eq_of_length_le habove.length_le)
  | transferred h =>
    left
    intro l e hbelow hentry
    refine (h.growsDirs fun hnone ↦ ?_).kept hentry
    have hnone' : s.entry? l = none := by
      refine hs.none_of_prefix (habove.trans hbelow) ?_ (by simp [hnone])
      rintro rfl
      exact hdistinct (hbelow.eq_of_length_le habove.length_le)
    simp [hentry] at hnone'
  | replaced _ hnot => exact absurd habove hnot

end Replaced

end Executor

end DeferredOps
