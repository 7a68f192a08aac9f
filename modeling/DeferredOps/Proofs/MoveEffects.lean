import DeferredOps.Proofs.Conservation
import DeferredOps.Proofs.Replacing

/-!
# What a move changes and what it keeps

In a store without symbolic links a move changes nothing outside its source and the place where its
source is to go, and it loses no file of its source, with two exceptions. A source that ends in `..`
is to go above its destination. A source that lies inside the place where it is to go is removed with
what it replaces.
-/

namespace DeferredOps

open Action

namespace Store

variable {s s' : Store} {origin target : Location} {p : Path} {name : String}

/-- The way to a name leads over the way to its directory. -/
theorem KeptOutside.of_child (h : s.KeptOutside origin target (p.child name) s')
    (htarget : s.place (p.child name) = target) : s.KeptOutside origin target p s' := by
  intro l horigin hbelow
  refine (h l horigin hbelow).imp_right fun ⟨hnone, hdir, front, hfront, hplace⟩ ↦
    ⟨hnone, hdir, front, ?_, hplace⟩
  rcases List.prefix_concat_iff.mp hfront with rfl | hfront
  · exact absurd (hplace ▸ htarget ▸ List.prefix_refl _) hbelow
  · exact hfront

end Store

namespace Executor

open RunAction Store

variable {s s' : Store} {source destination : Path}

/-! ## Where a move leads -/

/-- A path that ends in `..` and is moved into a directory goes above it. -/
theorem place_landing_dotDot (hdirectory : s.isDirectory destination = .ok true)
    (hlast : source.parts.getLast? = some "..") :
    s.place (landing s source destination) = (s.place destination).dropLast := by
  have hlanding : landing s source destination = destination.child ".." := by
    simp [landing_of_directory source hdirectory, within, hlast]
  rw [hlanding]
  exact descend_append _ _ _

/-- Another path goes to its destination, or to a name in it. -/
theorem place_landing_cases
    (h : ¬ (s.isDirectory destination = .ok true ∧ source.parts.getLast? = some "..")) :
    s.place (landing s source destination) = s.place destination ∨
      ∃ name, s.place (landing s source destination) = s.place destination ++ [name] := by
  by_cases hdirectory : s.isDirectory destination = .ok true
  · rw [landing_of_directory source hdirectory]
    cases hlast : source.parts.getLast? with
    | none =>
      left
      simp [within, hlast]
    | some name =>
      have hdotDot : name ≠ ".." := fun heq ↦ h ⟨hdirectory, by rw [hlast, heq]⟩
      have hwithin : within destination source = destination.child name := by simp [within, hlast]
      have hplace : s.place (destination.child name) = descend (s.place destination) [name] :=
        descend_append _ _ _
      rw [hwithin, hplace]
      by_cases hdot : name = "."
      · exact .inl (by simp [descend, hdot])
      · exact .inr ⟨name, by simp [descend, hdot, hdotDot]⟩
  · rw [landing_of_not_directory hdirectory]
    exact .inl rfl

/-- The source goes to its destination or below it, unless it ends in `..`. -/
theorem prefix_landing_iff (s : Store) (source destination : Path) :
    s.place destination <+: s.place (landing s source destination) ↔
      ¬ (s.isDirectory destination = .ok true ∧ source.parts.getLast? = some ".." ∧
        s.place destination ≠ []) := by
  by_cases h : s.isDirectory destination = .ok true ∧ source.parts.getLast? = some ".."
  · rw [place_landing_dotDot h.1 h.2]
    have hbelow : s.place destination <+: (s.place destination).dropLast ↔
        s.place destination = [] := by
      rcases List.eq_nil_or_concat (s.place destination) with hnil | ⟨front, name, hplace⟩
      · simp [hnil]
      · simp [hplace, List.concat_eq_append, not_concat_prefix]
    simp [hbelow, h.1, h.2]
  · have hright : ¬ (s.isDirectory destination = .ok true ∧ source.parts.getLast? = some ".." ∧
        s.place destination ≠ []) := fun hboth ↦ h ⟨hboth.1, hboth.2.1⟩
    refine iff_of_true ?_ hright
    rcases place_landing_cases h with hplace | ⟨name, hplace⟩
    · exact hplace ▸ List.prefix_refl _
    · exact hplace ▸ List.prefix_append _ _

/-- What is not at or below the destination lies inside the place to go to only if it is there. -/
theorem eq_of_prefix_landing {origin : Location} (houtside : ¬ origin <+: s.place destination)
    (h : origin <+: s.place (landing s source destination)) :
    origin = s.place (landing s source destination) := by
  by_cases hup : s.isDirectory destination = .ok true ∧ source.parts.getLast? = some ".."
  · rw [place_landing_dotDot hup.1 hup.2] at h
    exact absurd (h.trans (List.dropLast_prefix _)) houtside
  · rcases place_landing_cases hup with hplace | ⟨name, hplace⟩
    · exact absurd (hplace ▸ h) houtside
    · rw [hplace] at h ⊢
      exact (List.prefix_concat_iff.mp h).resolve_right houtside

/-! ## Whole moves -/

/-- If the source is a directory, no path of the move starts in it. They lead where they led while it
is moved name by name. -/
def StartsOutside (s : Store) (source destination : Path) : Prop :=
  s.isDirectory source = .ok true → ∀ l, s.CanLead source l →
    s.StartsApart source l ∧ s.StartsApart destination l

/-- The paths of an executor with an absolute working directory start at the top. -/
theorem startsOutside_of_isAbsolute {directory : Path} (h : directory.isAbsolute) (s : Store)
    (source destination : String) :
    StartsOutside s (Path.resolve source directory) (Path.resolve destination directory) := by
  have habsolute (text : String) : (Path.resolve text directory).isAbsolute := by
    unfold Path.resolve Path.below
    split
    · next htop => exact htop
    · exact h
  exact fun _ _ _ ↦ ⟨.inl (habsolute source), .inl (habsolute destination)⟩

/-- A move between known places without symbolic links is known to be one. -/
theorem mergeable_of_points {origin target : Location} (hs : s.WellFormed) (hsource : source.Proper)
    (hdestination : destination.Proper) (hpoints : s.Points source origin)
    (hlands : s.Points (landing s source destination) target) (hlinks : s.NoLinks origin)
    (htargetLinks : s.NoLinks target) (hstarts : StartsOutside s source destination) :
    Mergeable s source destination origin target := by
  refine ⟨hs, hsource, hdestination, hpoints, hlands, hlinks, htargetLinks, fun hdir ↦ ?_⟩
  obtain ⟨-, l, hfound⟩ := StoreAction.isDirectory_eq_true_iff.mp hdir
  obtain ⟨t, hkept, -⟩ := (target_eq_ok_iff.mp hfound).2.exists_kept
  have hcan : s.CanLead source t.location := ⟨s, t, .refl s, rfl, hkept, rfl⟩
  exact hstarts hdir _ (hpoints.eq_of_canLead hcan ▸ hcan)

/-- In a store without symbolic links the places of a move are known. -/
theorem mergeable_of_linkFree (hs : s.WellFormed) (hfree : s.LinkFree) (hsource : source.Proper)
    (hdestination : destination.Proper) (hstarts : StartsOutside s source destination) :
    Mergeable s source destination (s.place source) (s.place (landing s source destination)) :=
  mergeable_of_points hs hsource hdestination (hfree.points _) (hfree.points _) (hfree.noLinks _)
    (hfree.noLinks _) hstarts

section Plain

variable (x : Executor) (source destination : String) (policy : OverwritePolicy) {r : Run}

theorem moves_of_move (hplain : Path.hasWildcard source = false) (hsilent : r.journal.file = none) :
    Moves policy pathLimit r.store (Path.resolve source x.workingDirectory)
      (Path.resolve destination x.workingDirectory)
      ((x.move source destination policy).run r).2.store := by
  rw [move_of_plain x destination policy hplain]
  exact ((ends_moveEntryFrom policy pathLimit r.store _ _).state ⟨rfl, hsilent⟩).state

/-- No file of the source is lost by a move whose destination is not at or inside its source, unless
the source lies inside the place where it is to go: it is at its old place, or at the same place in
the target. If it does lie inside, a merge still loses no content, and a replacement keeps the source
or loses all that is in it. -/
theorem preserved_of_move (hx : x.workingDirectory.Proper) (hplain : Path.hasWildcard source = false)
    (hr : r.store.WellFormed) (hsilent : r.journal.file = none) (hfree : r.store.LinkFree)
    (houtside : ¬ r.store.place (Path.resolve source x.workingDirectory) <+:
      r.store.place (Path.resolve destination x.workingDirectory))
    (hstarts : policy = .merge → StartsOutside r.store (Path.resolve source x.workingDirectory)
      (Path.resolve destination x.workingDirectory)) :
    let s' := ((x.move source destination policy).run r).2.store
    let origin := r.store.place (Path.resolve source x.workingDirectory)
    let target := r.store.place (landing r.store (Path.resolve source x.workingDirectory)
      (Path.resolve destination x.workingDirectory))
    (¬ (target <+: origin ∧ target ≠ origin) → r.store.Preserved origin target s') ∧
      (policy = .merge → r.store.contents ≤ s'.contents) ∧
      (policy = .replace → target <+: origin → target ≠ origin →
        (∀ l e, origin <+: l → r.store.entry? l = some e → s'.entry? l = some e) ∨
          ∀ l, origin <+: l → s'.entry? l = none) := by
  intro s' origin target
  have hmoves := moves_of_move x source destination policy hplain hsilent
  have hnested : origin <+: target → origin = target := eq_of_prefix_landing houtside
  have habove (h : ¬ (target <+: origin ∧ target ≠ origin)) (hpre : target <+: origin) :
      origin = target := (not_not.mp fun hne ↦ h ⟨hpre, fun heq ↦ hne heq.symm⟩)
  cases policy with
  | replace =>
    have hreplaced :=
      hmoves.replaced hr hfree (proper_resolve hx source) (proper_resolve hx destination)
    exact ⟨fun h ↦ hreplaced.preserved hr hnested (habove h), by simp,
      fun _ hpre hne ↦ hreplaced.kept_or_lost hr hpre hne.symm⟩
  | merge =>
    have hmergeable := mergeable_of_linkFree hr hfree (proper_resolve hx source)
      (proper_resolve hx destination) (hstarts rfl)
    have hplaced : Placed r.store (Path.resolve source x.workingDirectory)
        (Path.resolve destination x.workingDirectory) origin target :=
      ⟨hfree, rfl, rfl, fun _ hpre hne ↦ absurd (hnested hpre) hne⟩
    have hconserved := hmoves.conserved hmergeable hplaced
    refine ⟨fun h ↦ hconserved.preserved fun hboth ↦ hboth.elim hnested (habove h), fun _ ↦ ?_,
      by simp⟩
    rcases hconserved.contents with heq | ⟨-, -, -, hle⟩
    · exact heq.ge
    · exact hle

/-- A directory that is moved over a directory around it is lost with the file in it. -/
theorem preserved_of_move_over_parent :
    let s := (((Store.empty.put ["a"] .dir).put ["a", "x"] .dir).put ["a", "x", "x"] .dir).putFile
      ["a", "x", "x", "f"] [100]
    let result := (move ⟨Path.here, none⟩ "a/x/x" "a" .replace).run (Run.first s)
    s.contentAt? (["a", "x", "x"] ++ ["f"]) = some [100] ∧
      (∀ l, ["a", "x", "x"] <+: l → result.2.store.entry? l = none) ∧
      ¬ s.Preserved ["a", "x", "x"] ["a", "x"] result.2.store := by
  intro s result
  have hs : (Run.first s).store.WellFormed := by decide
  have hfree : (Run.first s).store.LinkFree := LinkFree.of_entries (by decide)
  have hproper : Path.here.Proper := by simp [Path.Proper, Path.here]
  have horigin : (Run.first s).store.place (Path.resolve "a/x/x" Path.here) = ["a", "x", "x"] := by
    decide +kernel
  have hdestination : (Run.first s).store.place (Path.resolve "a" Path.here) = ["a"] := by
    decide +kernel
  have htarget : (Run.first s).store.place (landing (Run.first s).store
      (Path.resolve "a/x/x" Path.here) (Path.resolve "a" Path.here)) = ["a", "x"] := by decide +kernel
  have hcontent : s.contentAt? (["a", "x", "x"] ++ ["f"]) = some [100] := by decide +kernel
  have hthere : s.entry? ["a", "x", "x"] = some .dir := by decide +kernel
  have hgone : result.2.store.entry? ["a", "x", "x"] = none := by decide +kernel
  have hmissing : result.2.store.contentAt? (["a", "x"] ++ ["f"]) = none := by decide +kernel
  obtain ⟨-, -, hlost⟩ := preserved_of_move ⟨Path.here, none⟩ "a/x/x" "a" .replace
    hproper (by decide) hs rfl hfree (by rw [horigin, hdestination]; decide) (by simp)
  rw [horigin, htarget] at hlost
  -- From here on nothing is computed any more.
  have hresult : result = (move ⟨Path.here, none⟩ "a/x/x" "a" .replace).run (Run.first s) := rfl
  rw [← hresult] at hlost
  clear_value result
  have hnone : ∀ l, ["a", "x", "x"] <+: l → result.2.store.entry? l = none := by
    refine (hlost rfl (by decide) (by decide)).resolve_left fun hkept ↦ ?_
    exact absurd (hgone.symm.trans (hkept _ _ (List.prefix_refl _) hthere)) (by simp)
  refine ⟨hcontent, hnone, fun hpreserved ↦ ?_⟩
  rcases hpreserved ["f"] [100] hcontent with hfile | hfile
  · have hno := contentAt?_of_none (hnone (["a", "x", "x"] ++ ["f"]) (List.prefix_append _ _))
    exact absurd (hno.symm.trans hfile) (by simp)
  · exact absurd (hmissing.symm.trans hfile) (by simp)

/-- Outside its source and the place where that is to go a move only makes directories on the way of
its destination. The place is at or below the destination, unless the source ends in `..`. -/
theorem keptOutside_of_move (hx : x.workingDirectory.Proper)
    (hplain : Path.hasWildcard source = false) (hr : r.store.WellFormed)
    (hsilent : r.journal.file = none) (hfree : r.store.LinkFree)
    (hstarts : policy = .merge → StartsOutside r.store (Path.resolve source x.workingDirectory)
      (Path.resolve destination x.workingDirectory)) :
    let source' := Path.resolve source x.workingDirectory
    let destination' := Path.resolve destination x.workingDirectory
    let target := r.store.place (landing r.store source' destination')
    r.store.KeptOutside (r.store.place source') target destination'
        ((x.move source destination policy).run r).2.store ∧
      (r.store.place destination' <+: target ↔
        ¬ (r.store.isDirectory destination' = .ok true ∧ source'.parts.getLast? = some ".." ∧
          r.store.place destination' ≠ [])) := by
  intro source' destination' target
  refine ⟨?_, prefix_landing_iff _ _ _⟩
  have hmoves := moves_of_move x source destination policy hplain hsilent
  have hkept : r.store.KeptOutside (r.store.place source') target
      (landing r.store source' destination') ((x.move source destination policy).run r).2.store := by
    cases policy with
    | replace =>
      exact (hmoves.replaced hr hfree (proper_resolve hx source)
        (proper_resolve hx destination)).keptOutside hr hfree
    | merge =>
      exact (hmoves.confined (mergeable_of_linkFree hr hfree (proper_resolve hx source)
        (proper_resolve hx destination) (hstarts rfl))).keptOutside hfree
  by_cases hdirectory : r.store.isDirectory destination' = .ok true
  · have hlanding := landing_of_directory source' hdirectory
    unfold within at hlanding
    split at hlanding
    · rw [hlanding] at hkept
      exact hkept.of_child (by rw [← hlanding])
    · rwa [hlanding] at hkept
  · rwa [landing_of_not_directory hdirectory] at hkept

end Plain

/-- A directory that is moved under a path that ends in `..` replaces the directory above its
destination. -/
theorem keptOutside_of_move_dotDot :
    let s := (((((Store.empty.put ["a"] .dir).put ["a", "b"] .dir).putFile ["a", "f"] [100]).put
      ["d"] .dir).put ["d", "e"] .dir).putFile ["d", "sibling"] [107]
    let result := (move ⟨Path.here, none⟩ "a/b/.." "d/e" .replace).run (Run.first s)
    s.KeptOutside ["a"] ["d"] (Path.ofString "d/e") result.2.store ∧ ¬ ["d", "e"] <+: ["d"] ∧
      s.contentAt? ["d", "sibling"] = some [107] ∧ result.2.store.contentAt? ["d", "sibling"] = none := by
  intro s result
  have hs : (Run.first s).store.WellFormed := by decide
  have hfree : (Run.first s).store.LinkFree := LinkFree.of_entries (by decide)
  have hproper : Path.here.Proper := by simp [Path.Proper, Path.here]
  have horigin : (Run.first s).store.place (Path.resolve "a/b/.." Path.here) = ["a"] := by
    decide +kernel
  have hdestination : (Run.first s).store.place (Path.resolve "d/e" Path.here) = ["d", "e"] := by
    decide +kernel
  have htarget : (Run.first s).store.place (landing (Run.first s).store
      (Path.resolve "a/b/.." Path.here) (Path.resolve "d/e" Path.here)) = ["d"] := by decide +kernel
  obtain ⟨hkept, hinside⟩ := keptOutside_of_move ⟨Path.here, none⟩ "a/b/.." "d/e" .replace
    hproper (by decide) hs rfl hfree (by simp)
  rw [htarget, horigin] at hkept
  rw [htarget, hdestination] at hinside
  exact ⟨hkept, by decide, rfl, by decide +kernel⟩

end Executor

end DeferredOps
