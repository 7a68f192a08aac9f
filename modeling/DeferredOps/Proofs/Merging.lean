import DeferredOps.Proofs.MoveCases
import DeferredOps.Proofs.Store.Contents

/-!
# Merges

A move that keeps what is there transfers its source where nothing is in the way, and merges a
directory into one that is there by moves of the names in it. Where no symbolic links are at the
source and the target it takes away nothing but what is at or below its source, however deep it goes
and wherever it ends.
-/

namespace DeferredOps

open Action

namespace Store

/-- The path does not start at or below a location, so that it stays what it is when that is moved. -/
def StartsApart (s : Store) (p : Path) (location : Location) : Prop :=
  p.isAbsolute ∨ ¬ location <+: s.current

namespace StartsApart

variable {s s' : Store} {p : Path} {location : Location}

theorem start (h : s.StartsApart p location) (hp : s.Pruned location s') :
    s'.start p = s.start p :=
  start_of_current (h.imp_right hp.current)

theorem congr (h : s.StartsApart p location) (hp : s.Pruned location s') :
    s'.StartsApart p location := by
  rcases h with htop | hapart
  · exact .inl htop
  · exact .inr (by rwa [hp.current hapart])

theorem name (h : s.StartsApart p location) (name : String) :
    s.StartsApart p (location ++ [name]) :=
  h.imp_right fun hapart hpre ↦ hapart ((List.prefix_append _ _).trans hpre)

end StartsApart

end Store

namespace Executor

variable {s s' t t' : Store} {source destination : Path} {origin target : Location} {name : String}
  {depth : ℕ}

/-! ## Landings -/

theorem landing_of_directory (source : Path) (h : s.isDirectory destination = .ok true) :
    landing s source destination = within destination source := by
  simp [landing, h]

theorem landing_of_not_directory (h : s.isDirectory destination ≠ .ok true) :
    landing s source destination = destination := by
  unfold landing
  split
  · next h' => exact absurd h' h
  · rfl

theorem within_child (directory source : Path) (name : String) :
    within directory (source.child name) = directory.child name := by
  simp [within, Path.child]

theorem within_anchor (directory source : Path) :
    (within directory source).anchor = directory.anchor := by
  unfold within
  split
  · rfl
  · rfl

theorem landing_anchor (s : Store) (source destination : Path) :
    (landing s source destination).anchor = destination.anchor := by
  unfold landing
  split
  · exact within_anchor _ _
  · rfl

/-- Paths with the same anchor start at the same location. -/
theorem start_of_anchor {p q : Path} (s : Store) (h : p.anchor = q.anchor) : s.start p = s.start q := by
  unfold Store.start Path.isAbsolute
  rw [h]

theorem proper_landing (hsource : source.Proper) (hdestination : destination.Proper) :
    (landing s source destination).Proper := by
  unfold landing
  split
  · have hdestination' : destination.Usable True := ⟨hdestination, fun _ ↦ trivial⟩
    exact (usable_within hdestination' ⟨hsource, fun _ ↦ trivial⟩).proper
  · exact hdestination

/-- A path leads to nothing that can be replaced. -/
theorem not_found_of_not_exists {p : Path} (hclean : p.hasNul = false)
    (h : s.exists? p = .ok false) (l : Location) (e : Entry) :
    s.target .followed p ≠ .ok (.found l e) := by
  intro hfound
  have hthere := StoreAction.exists_eq_true_iff.mpr ⟨hclean, l, e, hfound⟩
  simp [h] at hthere

/-- Two paths that do not lead to the same entry do not lead to the same location. -/
theorem ne_of_samePlace {p : Path} {l l' : Location} {e e' : Entry} (hs : s.WellFormed)
    (hclean : source.hasNul = false) (hfound : s.target .followed source = .ok (.found l e))
    (hclean' : p.hasNul = false) (hfound' : s.target .followed p = .ok (.found l' e'))
    (hsame : s.samePlace source p = .ok false) : l ≠ l' := by
  rintro rfl
  have hanswer := Store.entryAt_eq_some_iff.mpr ⟨hclean, hfound⟩
  have hanswer' := Store.entryAt_eq_some_iff.mpr ⟨hclean', hfound'⟩
  obtain rfl := hs.eq_of_entryAt hanswer hanswer'
  have htrue : Store.isSame (l, e) (l, e) = true := by cases e <;> simp [Store.isSame]
  simp only [Store.samePlace, hanswer, hanswer', bind, Except.bind, htrue] at hsame
  cases hsame

/-! ## The steps of a merge -/

/-- What becomes of a store when something is moved without replacing anything. -/
inductive MergeStep (depth : ℕ) (s : Store) (source destination : Path) : Store → Prop
  | still : MergeStep depth s source destination s
  | transfer {s' : Store} {result : Except Failure Unit}
      (hsource : s.exists? source = .ok true)
      (hclear : ∀ l e l' e', s.target .followed source = .ok (.found l e) →
        s.target .followed (landing s source destination) = .ok (.found l' e') →
        ¬ (e' = .dir ↔ e = .dir))
      (hplaced : s.isDirectory source = .ok true → s.isDirectory destination = .ok true →
        s.exists? (landing s source destination) = .ok false)
      (hclean : (landing s source destination).hasNul = false)
      (hmove : (StoreAction.moveEntry source (landing s source destination)).run s = (result, s')) :
      MergeStep depth s source destination s'
  | merged {s₁ s' : Store} {directory : Location} {names : List String}
      (hsource : s.isDirectory source = .ok true)
      (hdirectory : s.isDirectory destination = .ok true)
      (hsame : s.samePlace source (landing s source destination) = .ok false)
      (hthere : s.exists? (landing s source destination) = .ok true)
      (hlisted : s.listed source = .ok directory) (hnames : names ⊆ s.names directory)
      (hchildren : Relation.ReflTransGen
        (fun t t' ↦ ∃ name ∈ names,
          Moves .merge depth t (source.child name) (landing s source destination) t') s s₁)
      (hlast : s' = s₁ ∨ s₁.removeDirectory source = .ok s') :
      MergeStep depth s source destination s'

theorem run_moveEntry_of_hasNul (h : destination.hasNul) :
    (StoreAction.moveEntry source destination).run s = (.error .embeddedNul, s) := by
  unfold StoreAction.moveEntry
  rw [if_pos (by simp [h])]
  rfl

/-- Where nothing is found, unlinking a name that is no symbolic link leaves the store as it is. -/
theorem eq_of_unlinkIfThere {p : Path} (hs : s.WellFormed) (hp : s.Points p target)
    (hlinks : s.NoLinks target) (hfree : s.exists? p = .ok false)
    (h : (StoreAction.unlinkIfThere p).run s = (.ok (), s')) : p.hasNul = false ∧ s' = s := by
  obtain ⟨hclean, hunlink | ⟨rfl, -⟩⟩ := StoreAction.unlinkIfThere_ok h
  · obtain ⟨d, n, e, hslot, hentry, -, -⟩ := Store.unlink_eq_ok_iff.mp hunlink
    have hkept := Store.target_kept_of_slot hslot
    rw [hentry] at hkept
    exact absurd (hp.followed hs hlinks.here hkept) (not_found_of_not_exists hclean hfree _ _)
  · exact ⟨hclean, rfl⟩

/-- The moves of a merge are its steps, if no symbolic link is at the target. -/
theorem mergeStep_of_moves (hs : s.WellFormed)
    (htarget : s.Points (landing s source destination) target) (hlinks : s.NoLinks target)
    (h : Moves .merge (depth + 1) s source destination s') :
    MergeStep depth s source destination s' := by
  rcases h with rfl | ⟨hsource, hmove⟩ | ⟨hsource, hmove⟩
  · exact .still
  · have hthere := exists_of_isDirectory hsource
    cases hmove with
    | still => exact .still
    | renamed hdirectory hmove =>
      have hlanding : landing s source destination = destination :=
        landing_of_not_directory (by simp [hdirectory])
      by_cases hnul : destination.hasNul
      · rw [run_moveEntry_of_hasNul hnul] at hmove
        cases hmove
        exact .still
      · have hclean : destination.hasNul = false := by simpa using hnul
        refine .transfer hthere (fun l e l' e' hfound hfound' hkinds ↦ ?_)
          (fun _ htrue ↦ by simp [hdirectory] at htrue) (by rw [hlanding, hclean])
          (by rw [hlanding]; exact hmove)
        -- A directory is not moved onto another one.
        rw [hlanding] at hfound'
        obtain ⟨-, l₁, hdir⟩ := StoreAction.isDirectory_eq_true_iff.mp hsource
        rw [hdir] at hfound
        cases hfound
        obtain rfl := hkinds.mpr rfl
        have htrue := StoreAction.isDirectory_eq_true_iff.mpr ⟨hclean, l', hfound'⟩
        simp [hdirectory] at htrue
    | @placed s₁ _ _ hdirectory hsame hfree hcleared hmove =>
      rw [← landing_of_directory source hdirectory] at hfree hcleared hmove
      have hnone := hfree rfl
      obtain rfl : s₁ = s := by
        cases hcleared with
        | free => rfl
        | name _ hthere => simp [hnone] at hthere
        | directory hdir => exact absurd (exists_of_isDirectory hdir) (by simp [hnone])
      by_cases hnul : (landing s₁ source destination).hasNul
      · rw [run_moveEntry_of_hasNul hnul] at hmove
        cases hmove
        exact .still
      · have hclean : (landing s₁ source destination).hasNul = false := by simpa using hnul
        have hnot := not_found_of_not_exists hclean hnone
        exact .transfer hthere (fun _ _ l' e' _ hfound ↦ absurd hfound (hnot l' e'))
          (fun _ _ ↦ hnone) hclean hmove
    | uncleared hdirectory _ hfree hthere' =>
      rw [exists_of_isDirectory hthere'] at hfree
      exact absurd (hfree rfl) (by simp)
    | merged _ hdirectory hsame hthere hlisted hnames hchildren hlast =>
      rw [← landing_of_directory source hdirectory] at hsame hthere hchildren
      exact .merged hsource hdirectory hsame hthere hlisted hnames hchildren hlast
  · cases hmove with
    | still => exact .still
    | moved hsame hfree hthere hunlink hmove =>
      obtain ⟨hclean, rfl⟩ := eq_of_unlinkIfThere hs htarget hlinks (hfree rfl) hunlink
      have hnot := not_found_of_not_exists hclean (hfree rfl)
      exact .transfer hthere (fun _ _ l' e' _ hfound ↦ absurd hfound (hnot l' e'))
        (fun htrue ↦ by simp [hsource] at htrue) hclean hmove

/-! ## Merges take away nothing else -/

/-- A move whose source and target are known and without symbolic links. Where it can become a merge,
its paths do not start in what it moves. -/
structure Mergeable (s : Store) (source destination : Path) (origin target : Location) : Prop where
  wellFormed : s.WellFormed
  properSource : source.Proper
  properDestination : destination.Proper
  points : s.Points source origin
  lands : s.Points (landing s source destination) target
  links : s.NoLinks origin
  targetLinks : s.NoLinks target
  apart : s.isDirectory source = .ok true →
    s.StartsApart source origin ∧ s.StartsApart destination origin

namespace Mergeable

section Children

variable (h : Mergeable s source destination origin target)
  (hsource : s.isDirectory source = .ok true)
  (hconfined : s.Confined origin (landing s source destination) target t)
include h hsource hconfined

theorem start_landing :
    t.start (landing s source destination) = s.start (landing s source destination) := by
  have hstart := (h.apart hsource).2.start hconfined.pruned
  have hanchor := landing_anchor s source destination
  rw [start_of_anchor t hanchor, start_of_anchor s hanchor, hstart]

/-- What is asked of the move of a name, apart from where it lands. -/
theorem child_of_lands (hname : IsName name) {place : Location}
    (hlands : t.Points (landing t (source.child name) (landing s source destination)) place)
    (hlinks : t.NoLinks place) :
    Mergeable t (source.child name) (landing s source destination) (origin ++ [name]) place where
  wellFormed := hconfined.wellFormed
  properSource := h.properSource.child hname.isPart
  properDestination := proper_landing h.properSource h.properDestination
  points := (h.points.congr hconfined.links ((h.apart hsource).1.start hconfined.pruned)).child
    (h.links.congr hconfined.links).here hname.ne_dot hname.ne_dotDot
  lands := hlands
  links := (h.links.congr hconfined.links).child name
  targetLinks := hlinks
  apart _ := by
    refine ⟨((h.apart hsource).1.congr hconfined.pruned).name name, ?_⟩
    have hapart := ((h.apart hsource).2.congr hconfined.pruned).name name
    unfold Store.StartsApart Path.isAbsolute at hapart ⊢
    rwa [landing_anchor]

/-- A name is moved into the target while that is a directory. -/
theorem child_into (hname : IsName name)
    (hinto : t.isDirectory (landing s source destination) = .ok true) :
    landing t (source.child name) (landing s source destination) =
        (landing s source destination).child name ∧
      Mergeable t (source.child name) (landing s source destination) (origin ++ [name])
        (target ++ [name]) := by
  have hlanding : landing t (source.child name) (landing s source destination) =
      (landing s source destination).child name := by
    rw [landing_of_directory _ hinto, within_child]
  have hlinks := h.targetLinks.congr hconfined.links
  have hstart := h.start_landing hsource hconfined
  refine ⟨hlanding, h.child_of_lands hsource hconfined hname ?_ (hlinks.child name)⟩
  rw [hlanding]
  exact (h.lands.congr hconfined.links hstart).child hlinks.here hname.ne_dot hname.ne_dotDot

/-- Otherwise it is moved onto the target. -/
theorem child_onto (hname : IsName name)
    (honto : t.isDirectory (landing s source destination) ≠ .ok true) :
    landing t (source.child name) (landing s source destination) = landing s source destination ∧
      Mergeable t (source.child name) (landing s source destination) (origin ++ [name]) target := by
  have hlanding : landing t (source.child name) (landing s source destination) =
      landing s source destination := landing_of_not_directory honto
  have hstart := h.start_landing hsource hconfined
  refine ⟨hlanding, h.child_of_lands hsource hconfined hname ?_
    (h.targetLinks.congr hconfined.links)⟩
  rw [hlanding]
  exact h.lands.congr hconfined.links hstart

/-- The move of a name is confined to the merge if it is confined to the name. -/
theorem confined_next (hname : IsName name)
    (hmoved : ∀ place, Mergeable t (source.child name) (landing s source destination)
      (origin ++ [name]) place → t.Confined (origin ++ [name])
        (landing t (source.child name) (landing s source destination)) place t') :
    s.Confined origin (landing s source destination) target t' := by
  refine hconfined.trans ?_ (h.start_landing hsource hconfined)
  by_cases hinto : t.isDirectory (landing s source destination) = .ok true
  · obtain ⟨hlanding, hmergeable⟩ := h.child_into hsource hconfined hname hinto
    have hchild := hmoved _ hmergeable
    have hlands := hmergeable.lands
    rw [hlanding] at hchild hlands
    exact hchild.of_names hlands hmergeable.targetLinks
  · obtain ⟨hlanding, hmergeable⟩ := h.child_onto hsource hconfined hname hinto
    have hchild := hmoved _ hmergeable
    rw [hlanding] at hchild
    exact hchild.of_name

end Children

variable {directory : Location} {names : List String}

theorem transfer (h : Mergeable s source destination origin target)
    {result : Except Failure Unit} (hsource : s.exists? source = .ok true)
    (hclear : ∀ l e l' e', s.target .followed source = .ok (.found l e) →
      s.target .followed (landing s source destination) = .ok (.found l' e') →
      ¬ (e' = .dir ↔ e = .dir))
    (hmove : (StoreAction.moveEntry source (landing s source destination)).run s = (result, s')) :
    s.Transfer source origin (landing s source destination) target s' := by
  have hproper : (landing s source destination).Proper :=
    proper_landing h.properSource h.properDestination
  have hends : StoreAction.MoveEnds s source (landing s source destination) _ _ :=
    StoreAction.moveEnds h.wellFormed hproper
  rw [hmove] at hends
  exact hends.transfer h.wellFormed h.points h.lands h.links h.targetLinks hproper hclear
    (StoreAction.exists_eq_true_iff.mp hsource).1

/-- A directory in which names are found stands at the source. -/
theorem dir_of_names (h : Mergeable s source destination origin target)
    (hlisted : s.listed source = .ok directory) (hnames : names ⊆ s.names directory)
    (hname : name ∈ names) : s.entry? origin = some .dir := by
  obtain ⟨-, hfound⟩ := Store.listed_eq_ok_iff.mp hlisted
  obtain rfl : directory = origin := h.points.target h.links.here hfound
  obtain ⟨entry, hentry⟩ := Store.exists_entry_of_mem_names (hnames hname)
  exact h.wellFormed.parent hentry

/-- The names that are merged are those of entries. -/
theorem isName_of_names (h : Mergeable s source destination origin target)
    (hnames : names ⊆ s.names directory) (hname : name ∈ names) : IsName name := by
  obtain ⟨entry, hentry⟩ := Store.exists_entry_of_mem_names (hnames hname)
  exact h.wellFormed.name hentry

/-- The moves of the names, one after another, are confined to the merge if each is to its name. -/
theorem confined_children (h : Mergeable s source destination origin target)
    (hsource : s.isDirectory source = .ok true) (hnames : names ⊆ s.names directory)
    (hmoved : ∀ {t t' : Store} {p q : Path} {l place : Location}, Mergeable t p q l place →
      Moves .merge depth t p q t' → t.Confined l (landing t p q) place t')
    (hchildren : Relation.ReflTransGen
      (fun t t' ↦ ∃ name ∈ names,
        Moves .merge depth t (source.child name) (landing s source destination) t') s t) :
    s.Confined origin (landing s source destination) target t := by
  induction hchildren with
  | refl => exact .refl h.wellFormed _ _ _
  | tail _ hchild hconfined =>
    obtain ⟨name, hmem, hchild⟩ := hchild
    exact h.confined_next hsource hconfined (h.isName_of_names hnames hmem)
      fun _ hmergeable ↦ hmoved hmergeable hchild

/-- A source that is empty in the end is taken away. -/
theorem erased (h : Mergeable s source destination origin target)
    (hsource : s.isDirectory source = .ok true)
    (hconfined : s.Confined origin (landing s source destination) target t)
    (hremove : t.removeDirectory source = .ok s') :
    t.entry? origin = some .dir ∧ t.isEmptyDir origin ∧ s' = t.erase origin := by
  obtain ⟨d, n, hslot, hentry, hempty, rfl⟩ := Store.removeDirectory_ok hremove
  have hpoints := h.points.congr hconfined.links ((h.apart hsource).1.start hconfined.pruned)
  obtain rfl := hpoints.slot hslot
  exact ⟨hentry, hempty, rfl⟩

end Mergeable

/-- A merge takes away nothing but what is at or below its source, and adds nothing but what is at or
below its target and directories on the way there. -/
theorem Moves.confined (h : Mergeable s source destination origin target)
    (hmoves : Moves .merge depth s source destination s') :
    s.Confined origin (landing s source destination) target s' := by
  induction depth generalizing s s' source destination origin target with
  | zero =>
    obtain rfl : s' = s := hmoves
    exact .refl h.wellFormed _ _ _
  | succ depth ih =>
    cases mergeStep_of_moves h.wellFormed h.lands h.targetLinks hmoves with
    | still => exact .refl h.wellFormed _ _ _
    | transfer hsource hclear _ _ hmove =>
      exact (h.transfer hsource hclear hmove).confined h.wellFormed h.links
    | @merged s₁ _ directory names hsource _ _ _ _ hnames hchildren hlast =>
      have hall := h.confined_children hsource hnames ih hchildren
      rcases hlast with rfl | hremove
      · exact hall
      · obtain ⟨-, hempty, rfl⟩ := h.erased hsource hall hremove
        have herased : s₁.Confined origin (landing s source destination) target (s₁.erase origin) :=
          Store.confined_erase hall.wellFormed (h.links.congr hall.links)
            (Store.isEmptyDir_iff.mp hempty)
        exact hall.trans herased (h.start_landing hsource hall)

end Executor

end DeferredOps
