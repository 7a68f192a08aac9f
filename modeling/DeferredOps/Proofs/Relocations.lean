import DeferredOps.Proofs.Deletions
import DeferredOps.Proofs.SelfMoves
import DeferredOps.Proofs.Store.Limits
import DeferredOps.Proofs.Store.Relocation

/-!
# Directories that are renamed or replace others

A directory goes to the path it is moved to, or takes its name into the directory that this path leads
to. Where nothing has the place, or a replacement may clear it, the directory is afterwards there, with
everything in it, and nowhere else; and this is all that has changed and all that is counted.
-/

namespace DeferredOps

open Action

namespace Executor

open RunAction Store

variable {s s' : Store} {c : Counters} {source destination : Path} {policy : OverwritePolicy}
  {moveChild : Path → Path → RunAction Unit}

/-- A directory and a destination that has a place for it: every path that is met is in reach and has
legal names, neither place lies in the other, nothing but directories is on the way, and the place is
free or may be cleared. -/
structure Relocatable (s : Store) (policy : OverwritePolicy) (source destination : Path) : Prop where
  wellFormed : s.WellFormed
  linkFree : s.LinkFree
  directory : s.isDirectory source = .ok true
  dotless : source.Dotless
  named : source.parts ≠ []
  names : ∀ name ∈ destination.parts, IsName name
  anchored : s.Anchored destination
  short : (landing s source destination).text.utf8ByteSize < pathLimit
  apart : ¬ s.place source <+: s.place (landing s source destination)
  notAbove : ¬ s.place (landing s source destination) <+: s.place source
  way : ∀ l, l <+: s.place (landing s source destination) →
    l ≠ s.place (landing s source destination) → s.entry? l = none ∨ s.entry? l = some .dir
  vacant : s.entry? (s.place (landing s source destination)) = none ∨
    s.isDirectory destination = .ok true ∧ policy = .replace
  /-- A place without a parent yet is one for a copy, so all of the copy has to be in reach. -/
  reach : s.entry? (s.place (landing s source destination)).dropLast ≠ some .dir →
    ∀ rest, s.entry? (s.place source ++ rest) ≠ none →
      (source.extend rest).text.utf8ByteSize < pathLimit ∧
        ((landing s source destination).extend rest).text.utf8ByteSize < pathLimit

namespace Relocatable

variable (h : Relocatable s policy source destination)
include h

theorem spells_source : s.Spells source (s.place source) ∧ s.entry? (s.place source) = some .dir :=
  spells_of_isDirectory h.wellFormed h.linkFree h.dotless h.named h.directory

/-- The place of the directory is free or has the same name in a directory. -/
theorem landing_cases :
    (landing s source destination = destination ∧ s.isDirectory destination = .ok false) ∨
      landing s source destination = within destination source ∧
        s.isDirectory destination = .ok true := by
  cases hdirectory : s.isDirectory destination with
  | ok isDirectory =>
    cases isDirectory with
    | true => exact .inr ⟨landing_of_directory source hdirectory, rfl⟩
    | false => exact .inl ⟨landing_of_not_directory (by simp [hdirectory]), rfl⟩
  | error f =>
    have hlanding : landing s source destination = destination :=
      landing_of_not_directory (by simp [hdirectory])
    have hspells : s.Spells destination (s.place destination) :=
      ⟨h.names, hlanding ▸ h.short, h.anchored.start_dir h.wellFormed, descend_of_isName h.names⟩
    rw [hspells.isDirectory h.wellFormed (h.linkFree.noLinksTo _)] at hdirectory
    cases hdirectory

theorem spells_landing :
    s.Spells (landing s source destination) (s.place (landing s source destination)) := by
  have hstart : (landing s source destination).anchor = destination.anchor :=
    landing_anchor s source destination
  have hnames : ∀ name ∈ (landing s source destination).parts, IsName name := by
    rcases h.landing_cases with ⟨heq, -⟩ | ⟨heq, -⟩ <;> rw [heq]
    · exact h.names
    · obtain ⟨name, hmem, hwithin⟩ := exists_within destination h.named
      rw [hwithin]
      exact fun n hn ↦ (List.mem_append.mp hn).elim (h.names n)
        fun hn ↦ by simpa [show n = name by simpa using hn] using h.spells_source.1.isName name hmem
  refine ⟨hnames, h.short, ?_, descend_of_isName hnames⟩
  rw [start, Path.isAbsolute, hstart]
  exact h.anchored.start_dir h.wellFormed

theorem landing_named : (landing s source destination).parts ≠ [] := by
  rcases h.landing_cases with ⟨heq, hdirectory⟩ | ⟨heq, -⟩ <;> rw [heq]
  · intro hnil
    have hstart := h.anchored.start_dir h.wellFormed
    have hspells := h.spells_landing
    rw [heq] at hspells
    rw [hspells.isDirectory h.wellFormed (h.linkFree.noLinksTo _), hspells.location, hnil,
      List.append_nil, hstart] at hdirectory
    cases hdirectory
  · exact parts_within_ne h.named

/-- Once the place has been cleared the directory can go there. -/
theorem portable (hwithout : s.Without (s.place (landing s source destination) <+: ·) s')
    (hpruned : s.Pruned (s.place (landing s source destination)) s') :
    s'.Portable source (s.place source) (landing s source destination)
      (s.place (landing s source destination)) where
  wellFormed := hwithout.wellFormed
  noLinks := (hwithout.linkFree h.linkFree).noLinks _
  source := h.spells_source.1.pruned hpruned fun hpre ↦
    h.notAbove (hpre.trans h.spells_source.1.prefix_location)
  destination := h.spells_landing.pruned hpruned (h.spells_landing.not_prefix_start h.landing_named)
  sourceNamed := h.named
  destinationNamed := h.landing_named
  there := by simp [hwithout.stays h.notAbove, h.spells_source.2]
  clear := by
    refine ⟨hwithout.removed (List.prefix_refl _), fun {l} hl ↦ ?_⟩
    by_cases hpre : s.place (landing s source destination) <+: l
    · exact .inl (hwithout.removed hpre)
    · rw [hwithout.stays hpre]
      exact h.way l hl fun heq ↦ hpre (heq ▸ List.prefix_refl _)
  apart := h.apart

/-- The directory goes to the cleared place. -/
theorem run_moveEntry (hwithout : s.Without (s.place (landing s source destination) <+: ·) s')
    (hpruned : s.Pruned (s.place (landing s source destination)) s') :
    ∃ s'', (StoreAction.moveEntry source (landing s source destination)).run s' = (.ok (), s'') ∧
      s.Relocated (s.place source) (s.place (landing s source destination)) s'' := by
  have hportable := h.portable hwithout hpruned
  have hne : s.place (landing s source destination) ≠ [] := by
    obtain ⟨d, n, heq⟩ := h.spells_landing.exists_concat h.landing_named
    simp [heq]
  have hparent : ¬ s.place (landing s source destination) <+:
      (s.place (landing s source destination)).dropLast := by
    obtain ⟨d, n, heq⟩ := h.spells_landing.exists_concat h.landing_named
    rw [heq, List.dropLast_concat]
    exact not_concat_prefix
  obtain ⟨s'', hrun, hrelocated⟩ := StoreAction.run_moveEntry_of_spells hportable
    (hwithout.linkFree h.linkFree) (by rw [hwithout.stays h.notAbove, h.spells_source.2])
    fun hmissing ↦ ⟨hportable, fun rest hrest ↦ by
      refine h.reach (by rwa [hwithout.stays hparent] at hmissing) rest ?_
      rwa [hwithout.stays (not_prefix_append h.notAbove h.apart rest)] at hrest⟩
  exact ⟨s'', hrun, hrelocated.of_without h.apart h.notAbove hwithout hne⟩

theorem on_moveEntry :
    Ensures (Run.On fun s' c' ↦ (s.Without (s.place (landing s source destination) <+: ·) s' ∧
        s.Pruned (s.place (landing s source destination)) s') ∧ c' = c)
      (do onStore (StoreAction.moveEntry source (landing s source destination)); count "moved")
      (fun _ ↦ Run.On fun s' c' ↦
        s.Relocated (s.place source) (s.place (landing s source destination)) s' ∧
          c' = c.increment "moved")
      (fun _ _ ↦ False) := by
  refine Ensures.bind (Q := fun _ ↦ Run.On fun s' c' ↦
    s.Relocated (s.place source) (s.place (landing s source destination)) s' ∧ c' = c) ?_
    fun _ ↦ on_count fun s' c' hr ↦ ⟨hr.1, by rw [hr.2]⟩
  rintro r ⟨⟨⟨hwithout, hpruned⟩, hcounters⟩, hsilent⟩
  obtain ⟨s', hrun, hrelocated⟩ := h.run_moveEntry hwithout hpruned
  rw [run_onStore, hrun]
  exact ⟨⟨hrelocated, hcounters⟩, hsilent⟩

theorem starts_moveDirectory :
    Ensures (Starts s c) (moveDirectory moveChild source destination policy)
      (fun _ ↦ Run.On fun s' c' ↦
        s.Relocated (s.place source) (s.place (landing s source destination)) s' ∧
          c' = c.increment "moved")
      (fun _ _ ↦ False) := by
  have hmove := h.on_moveEntry (c := c)
  rcases h.landing_cases with ⟨hlanding, hdirectory⟩ | ⟨hlanding, hdirectory⟩
  · refine (starts_ask_of_eq hdirectory).bind fun isDirectory ↦ ensures_assume fun hfalse ↦ ?_
    subst hfalse
    refine (on_info _).bind fun _ ↦ ?_
    rw [hlanding] at hmove ⊢
    refine hmove.weaken (fun r hr ↦ ?_) (fun _ _ h ↦ h) fun _ _ h ↦ h
    have hvacant := h.vacant.resolve_right (by simp [hdirectory])
    rw [hlanding] at hvacant
    refine ⟨⟨?_, hr.state.2⟩, hr.silent⟩
    rw [hr.state.1]
    exact ⟨without_of_none h.wellFormed hvacant, .refl s _⟩
  · refine (starts_ask_of_eq hdirectory).bind fun isDirectory ↦ ensures_assume fun htrue ↦ ?_
    subst htrue
    have hsame := h.spells_source.1.samePlace_of_dir h.spells_landing h.wellFormed (h.linkFree.noLinksTo _)
      h.spells_source.2 fun heq ↦ h.apart (heq ▸ List.prefix_refl _)
    have hgoesOn : Ensures (Starts s c) (mayReplace policy (landing s source destination))
        (fun goesOn r ↦ goesOn = true ∧ Starts s c r) (fun _ _ ↦ False) := by
      cases policy with
      | replace => exact ensures_pure fun r hr ↦ ⟨rfl, hr⟩
      | merge =>
        have hvacant := h.vacant.resolve_right (by simp)
        refine (starts_ask_of_eq (h.spells_landing.exists? h.wellFormed (h.linkFree.noLinksTo _))).bind
          fun there ↦ ensures_assume fun hthere ↦ ensures_pure fun r hr ↦ ⟨?_, hr⟩
        rw [hthere, hvacant]
        rfl
    have hclear := starts_removeTarget_of_spells (c := c) (F := fun _ _ ↦ False) h.spells_landing
      h.wellFormed h.linkFree h.landing_named
    rw [hlanding] at hmove hsame hgoesOn hclear ⊢
    refine (on_info _).bind fun _ ↦ (starts_ask_of_eq hsame).bind fun same ↦
      ensures_assume fun hfalse ↦ ?_
    subst hfalse
    refine hgoesOn.bind fun goesOn ↦ ensures_assume fun htrue ↦ ?_
    subst htrue
    exact hclear.bind fun _ ↦ hmove

end Relocatable

/-- A directory is not moved to a path that is too long, which counts as a failure. -/
theorem still_of_out_of_reach (x : Executor) (source destination : String)
    (policy : OverwritePolicy) (hplain : Path.hasWildcard source = false) {r : Run}
    (hsilent : r.journal.file = none)
    (hsource : r.store.isDirectory (Path.resolve source x.workingDirectory) = .ok true)
    (hclean : (Path.resolve destination x.workingDirectory).hasNul = false)
    (hlong : pathLimit ≤ (Path.resolve destination x.workingDirectory).text.utf8ByteSize) :
    ((x.move source destination policy).run r).2.store = r.store ∧
      ((x.move source destination policy).run r).2.counters = r.counters.increment "failed" := by
  have hanswer : r.store.isDirectory (Path.resolve destination x.workingDirectory) =
      .error (.ofPath .nameTooLong (Path.resolve destination x.workingDirectory)) := by
    rw [Store.isDirectory, entryAt_of_long hclean hlong]
    rfl
  have hmove : Ensures (Starts r.store r.counters)
      (moveDirectory (moveEntryFrom policy (pathLimit - 1)) (Path.resolve source x.workingDirectory)
        (Path.resolve destination x.workingDirectory) policy) (fun _ _ ↦ False)
      (Halted r.store r.counters) := by
    refine (halted_ask fun f ↦ isSystem_of_isDirectory).bind fun isDirectory ↦
      ensures_assume fun hdirectory ↦ ?_
    cases hanswer.symm.trans hdirectory
  exact (ends_of_move x destination hplain hsilent (counted_of_refused (P := (· = r.store)) hsource _ hmove)).2

end Executor

end DeferredOps
