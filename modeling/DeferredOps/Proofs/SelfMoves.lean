import DeferredOps.Proofs.Conservation
import DeferredOps.Proofs.Escapes
import DeferredOps.Proofs.Placing

/-!
# Moves of a directory into itself

A directory cannot be moved to a path in itself. The move is refused and changes nothing, if nothing has
the name of the directory where it was to go. The target is cleared before the move is tried, so a
replacement loses what stood there.
-/

namespace DeferredOps

open Action

namespace StoreAction

open Store

variable {s : Store} {source destination : Path}

/-- A directory is not moved below itself, nor to a path that could lead to it. -/
theorem run_moveEntry_of_nested (hs : s.WellFormed) (hfree : s.LinkFree)
    (hproper : destination.Proper) (hclean : destination.hasNul = false)
    (hanchors : source.anchor = .doubleTop ↔ destination.anchor = .doubleTop)
    (hsource : s.isDirectory source = .ok true) (hdestination : s.isDirectory destination ≠ .ok true)
    (hnested : s.place source <+: s.place destination) :
    ∃ f, f.isSystem ∧ (moveEntry source destination).run s = (.error f, s) := by
  obtain ⟨hsourceClean, origin, hfound⟩ := isDirectory_eq_true_iff.mp hsource
  have hstate : ((moveEntry source destination).run s).2 = s :=
    (moveEnds hs hproper).eq_of_nested hs hfree hproper (fun _ ↦ hanchors) hnested
  rcases hrun : (moveEntry source destination).run s with ⟨f | ⟨⟩, s'⟩ <;> rw [hrun] at hstate
  · have hkeeps : Keeps _ (Failure.OfChange False) (moveEntry source destination) :=
      keeps_moveEntry_linkFree (by simp [hsourceClean]) ⟨hproper, by simp [hclean]⟩ hanchors
    rcases hkeeps.failure ⟨hs, hfree⟩ (congrArg Prod.fst hrun) with hsystem | ⟨-, hnul⟩
    · exact ⟨f, hsystem, by rw [← hstate]⟩
    · exact hnul.elim
  · exfalso
    have hends : MoveEnds s source destination _ _ := moveEnds hs hproper
    rw [hrun] at hends
    cases hends with
    | renamed _ hrename =>
      obtain ⟨d, n, d', n', hslot, hslot', hcarry⟩ := rename_ok hrename
      have hname := isName_of_slot hproper hclean hslot'
      rcases carryChecked_ok hs (by simp) (dir_of_slot hs hslot') hname hcarry with
        ⟨-, entry, old, hentry, hold, hsame⟩ | ⟨hcan, -⟩
      · have hdir : entry = .dir := by
          have hkept := target_kept_of_slot hslot
          rw [hentry] at hkept
          cases (target_mode hfree .followed hkept).symm.trans hfound
          rfl
        subst hdir
        obtain rfl : old = .dir := by
          have hplace : d ++ [n] = d' ++ [n'] := by simpa [isSame] using hsame
          exact Option.some.inj (hold.symm.trans (hplace ▸ hentry))
        exact hdestination (isDirectory_eq_true_iff.mpr
          ⟨hclean, _, target_of_slot hslot' hold rfl⟩)
      · rw [← location_of_slot hfree hslot, ← location_of_slot hfree hslot'] at hnested
        exact hcan.apart hnested
    | linked _ hlink => exact absurd (entry?_of_link hs hlink) (hfree _ _)
    | copied _ _ hwithin hanchored =>
      exact hwithin (within_of_place hs hanchors hanchored hnested)
    | copiedFile _ hfile => cases hfile.symm.trans hfound

end StoreAction

namespace Executor

open RunAction Store

variable {s : Store} {c : Counters} {source destination target : Path} {policy : OverwritePolicy}
  {moveChild : Path → Path → RunAction Unit}

/-- The failures that a run survives, and with which it stops on a store as it was given. -/
def Halted (s : Store) (c : Counters) (f : Failure) : Run → Prop :=
  Run.On fun s' c' ↦ (s' = s ∧ c' = c) ∧ f.isSystem

theorem halted_ask {α : Type} {question : Store → Except Failure α}
    (h : ∀ f, question s = .error f → f.isSystem) :
    Ensures (Starts s c) (ask question) (fun a r ↦ question s = .ok a ∧ Starts s c r)
      (Halted s c) := by
  refine on_ask.weaken (fun _ hr ↦ hr) (fun a r hr ↦ ?_) fun f r hr ↦ ?_
  · exact ⟨hr.state.1.1 ▸ hr.state.2, hr.state.1, hr.silent⟩
  · exact ⟨⟨hr.state.1, h f (hr.state.1.1 ▸ hr.state.2)⟩, hr.silent⟩

theorem halted_mayReplace (policy : OverwritePolicy) (h : s.exists? target ≠ .ok true) :
    Ensures (Starts s c) (mayReplace policy target) (fun goesOn r ↦ goesOn = true ∧ Starts s c r)
      (Halted s c) := by
  cases policy with
  | replace => exact ensures_pure fun _ hr ↦ ⟨rfl, hr⟩
  | merge =>
    refine (halted_ask fun f ↦ isSystem_of_exists).bind fun there ↦ ensures_pure fun r hr ↦ ?_
    refine ⟨?_, hr.2⟩
    cases there with
    | true => exact absurd hr.1 h
    | false => rfl

/-- Nothing is removed where nothing is. -/
theorem halted_removeTarget (h : s.exists? target ≠ .ok true) :
    Ensures (Starts s c) (removeTarget target) (fun _ ↦ Starts s c) (Halted s c) := by
  refine (halted_ask fun f ↦ isSystem_of_isDirectory).bind fun isDirectory ↦
    ensures_assume fun hdirectory ↦ ?_
  cases isDirectory with
  | true => exact absurd (exists_of_isDirectory hdirectory) h
  | false =>
    refine (halted_ask fun f ↦ isSystem_of_exists).bind fun there ↦ ensures_assume fun hthere ↦ ?_
    cases there with
    | true => exact absurd hthere h
    | false => exact ensures_pure fun _ hr ↦ hr

theorem exists_of_samePlace {p q : Path} (h : s.samePlace p q = .ok true) : s.exists? q = .ok true := by
  unfold samePlace at h
  unfold Store.exists?
  rcases hp : s.entryAt .followed p with f | _ | found
  · simp [hp, bind, Except.bind] at h
  · simp [hp, bind, Except.bind, pure, Except.pure] at h
  rcases hq : s.entryAt .followed q with f | _ | other
  · simp [hp, hq, bind, Except.bind] at h
  · simp [hp, hq, bind, Except.bind, pure, Except.pure] at h
  · simp [Except.map, answers]

/-- What a source and a path in it have in common for the moves that are refused. -/
structure Nested (s : Store) (source destination : Path) : Prop where
  wellFormed : s.WellFormed
  linkFree : s.LinkFree
  proper : destination.Proper
  clean : destination.hasNul = false
  anchors : source.anchor = .doubleTop ↔ destination.anchor = .doubleTop
  directory : s.isDirectory source = .ok true
  nested : s.place source <+: s.place destination

theorem Nested.within (h : Nested s source destination) (hsource : source.Proper)
    (hdots : source.Dotless) (hne : source.parts ≠ []) :
    Nested s source (within destination source) ∧
      s.place (Executor.within destination source) ≠ s.place source := by
  obtain ⟨name, hmem, hwithin⟩ := exists_within destination hne
  have hplace : s.place (Executor.within destination source) = s.place destination ++ [name] := by
    rw [hwithin, place_child _ (hdots name hmem).1 (hdots name hmem).2]
  have hnested : s.place source <+: s.place destination ++ [name] :=
    h.nested.trans (List.prefix_append _ _)
  have hclean : name.toList.contains '\x00' = false := by
    have hsourceClean := (StoreAction.isDirectory_eq_true_iff.mp h.directory).1
    rw [Path.hasNul, List.any_eq_false] at hsourceClean
    simpa using hsourceClean name hmem
  refine ⟨⟨h.wellFormed, h.linkFree, ?_, ?_, ?_, h.directory, hplace ▸ hnested⟩, fun heq ↦ ?_⟩
  · rw [hwithin]
    exact fun n hn ↦ (List.mem_append.mp hn).elim (h.proper n)
      fun hn ↦ by simpa [show n = name by simpa using hn] using hsource name hmem
  · have hdestination := h.clean
    rw [hwithin, Path.hasNul, Path.parts_child, List.any_append, ← Path.hasNul, hdestination]
    simpa using hclean
  · rw [hwithin]
    exact h.anchors
  · have hlength := h.nested.length_le
    rw [hplace] at heq
    have := congrArg List.length heq
    simp at this
    omega

/-- The move is tried and refused. -/
theorem refused_moveEntry (h : Nested s source target) (hthere : s.isDirectory target ≠ .ok true) :
    Ensures (Starts s c) (do onStore (StoreAction.moveEntry source target); count "moved")
      (fun _ _ ↦ False) (Halted s c) := by
  obtain ⟨f, hsystem, hrun⟩ := StoreAction.run_moveEntry_of_nested h.wellFormed h.linkFree h.proper
    h.clean h.anchors h.directory hthere h.nested
  refine Ensures.bind (Q := fun _ _ ↦ False) (fun r hr ↦ ?_) fun _ _ h ↦ h.elim
  rw [run_onStore, hr.state.1, hrun]
  exact ⟨⟨⟨rfl, hr.state.2⟩, hsystem⟩, hr.silent⟩

/-- Nothing is at the target: no step before the refusal changes anything. -/
theorem refused_moveDirectory (h : Nested s source destination) (hsource : source.Proper)
    (hdots : source.Dotless) (hne : source.parts ≠ [])
    (hfree : s.isDirectory destination = .ok true →
      s.exists? (within destination source) ≠ .ok true) :
    Ensures (Starts s c) (moveDirectory moveChild source destination policy) (fun _ _ ↦ False)
      (Halted s c) := by
  refine (halted_ask fun f ↦ isSystem_of_isDirectory).bind fun isDirectory ↦
    ensures_assume fun hdirectory ↦ ?_
  cases isDirectory with
  | false =>
    exact (on_info _).bind fun _ ↦ refused_moveEntry h (by simp [hdirectory])
  | true =>
    have hthere := hfree hdirectory
    refine (on_info _).bind fun _ ↦ (halted_ask fun f ↦ isSystem_of_samePlace).bind fun same ↦
      ensures_assume fun hsame ↦ ?_
    obtain rfl : same = false := by
      by_contra htrue
      exact hthere (exists_of_samePlace (by simpa [show same = true by simpa using htrue] using hsame))
    refine (halted_mayReplace policy hthere).bind fun goesOn ↦ ensures_assume fun hgoesOn ↦ ?_
    subst hgoesOn
    refine (halted_removeTarget hthere).bind fun _ ↦ ?_
    exact refused_moveEntry (h.within hsource hdots hne).1
      fun hdir ↦ hthere (exists_of_isDirectory hdir)

/-- A target that has been removed with all that is below it is still a place below its source. -/
theorem Nested.cleared {s₁ : Store} {location : Location} (h : Nested s source target)
    (hspells : s.Spells target location) (hne : target.parts ≠ []) (hsourceDots : source.Dotless)
    (hsourceNamed : source.parts ≠ []) (hdistinct : s.place target ≠ s.place source)
    (hwithout : s.Without (location <+: ·) s₁) (hpruned : s.Pruned location s₁) :
    Nested s₁ source target ∧ s₁.isDirectory target ≠ .ok true := by
  obtain ⟨-, origin, hfound⟩ := StoreAction.isDirectory_eq_true_iff.mp h.directory
  have hspellsSource : s.Spells source origin :=
    spells_of_target h.wellFormed h.linkFree hsourceDots hsourceNamed hfound
  have hnested := h.nested
  rw [hspellsSource.place, hspells.place] at hnested
  rw [hspellsSource.place, hspells.place] at hdistinct
  have hapart : ¬ location <+: origin := fun hpre ↦
    hdistinct (hpre.eq_of_length (hpre.length_le.antisymm hnested.length_le))
  have hdir : s.entry? origin = some .dir :=
    (target_eq_ok_iff.mp hfound).2.found_there h.wellFormed hspellsSource.start
  have hlinkFree := hwithout.linkFree h.linkFree
  have hsource₁ : s₁.Spells source origin := hspellsSource.pruned hpruned fun hpre ↦
    hapart (hpre.trans (hspellsSource.location ▸ List.prefix_append _ _))
  have htarget₁ : s₁.Spells target location := hspells.pruned hpruned (hspells.not_prefix_start hne)
  refine ⟨⟨hwithout.wellFormed, hlinkFree, h.proper, h.clean, h.anchors, ?_, ?_⟩, ?_⟩
  · rw [hsource₁.isDirectory hwithout.wellFormed (hlinkFree.noLinksTo _), hwithout.stays hapart, hdir]
    rfl
  · rwa [hsource₁.place, htarget₁.place]
  · rw [htarget₁.isDirectory hwithout.wellFormed (hlinkFree.noLinksTo _),
      hwithout.removed (List.prefix_refl _)]
    simp

/-- Something is at the target: a replacement removes it before it is refused. -/
theorem lost_of_moveDirectory (h : Nested s source destination) (hdots : source.Dotless)
    (hdestination : destination.Dotless) (hne : source.parts ≠ []) (hsource : source.Proper)
    (hdirectory : s.isDirectory destination = .ok true)
    (hthere : s.exists? (within destination source) = .ok true) :
    Ensures (Starts s c) (moveDirectory moveChild source destination .replace) (fun _ _ ↦ False)
      (fun f ↦ Run.On fun s' c' ↦
        (s.Without (s.place (within destination source) <+: ·) s' ∧ c' = c) ∧ f.isSystem) := by
  obtain ⟨hnested, hdistinct⟩ := h.within hsource hdots hne
  obtain ⟨-, origin, hfound⟩ := StoreAction.isDirectory_eq_true_iff.mp h.directory
  obtain ⟨-, location, entry, hfound'⟩ := StoreAction.exists_eq_true_iff.mp hthere
  have hspells : s.Spells source origin :=
    spells_of_target h.wellFormed h.linkFree hdots hne hfound
  have hspells' : s.Spells (within destination source) location :=
    spells_of_target h.wellFormed h.linkFree (dotless_within hdots hdestination hne)
      (parts_within_ne hne) hfound'
  have hdir : s.entry? origin = some .dir :=
    (target_eq_ok_iff.mp hfound).2.found_there h.wellFormed hspells.start
  have hsame := hspells.samePlace_of_dir hspells' h.wellFormed (h.linkFree.noLinksTo _) hdir
    (by rw [← hspells.place, ← hspells'.place]; exact hdistinct.symm)
  refine (starts_ask_of_eq hdirectory).bind fun isDirectory ↦ ensures_assume fun htrue ↦ ?_
  subst htrue
  refine (on_info _).bind fun _ ↦ (starts_ask_of_eq hsame).bind fun same ↦
    ensures_assume fun hfalse ↦ ?_
  subst hfalse
  refine Ensures.bind (Q := fun goesOn r ↦ goesOn = true ∧ Starts s c r)
    (ensures_pure fun r hr ↦ ⟨rfl, hr⟩) fun goesOn ↦ ensures_assume fun hgoesOn ↦ ?_
  subst hgoesOn
  refine (starts_removeTarget_of_spells hspells' h.wellFormed h.linkFree (parts_within_ne hne)).bind
    fun _ r hr ↦ ?_
  obtain ⟨hwithout, hpruned⟩ := hr.state.1
  obtain ⟨hnested₁, hgone⟩ := hnested.cleared hspells' (parts_within_ne hne) hdots hne hdistinct
    hwithout hpruned
  refine Ensures.weaken (refused_moveEntry (c := c) hnested₁ hgone) (fun _ h ↦ h) (fun _ _ h ↦ h)
    (fun f r' hr' ↦ ?_) r ⟨⟨rfl, hr.state.2⟩, hr.silent⟩
  obtain ⟨⟨⟨hstore, hcounters⟩, hsystem⟩, hsilent⟩ := hr'
  refine ⟨⟨⟨?_, hcounters⟩, hsystem⟩, hsilent⟩
  rw [hstore, hspells'.place]
  exact hwithout

/-- The refusal is counted and survived. -/
theorem counted_of_refused {P : Store → Prop} (hdirectory : s.isDirectory source = .ok true) (depth : ℕ)
    (hmove : Ensures (Starts s c)
      (moveDirectory (moveEntryFrom policy depth) source destination policy) (fun _ _ ↦ False)
      (fun f ↦ Run.On fun s' c' ↦ (P s' ∧ c' = c) ∧ f.isSystem)) :
    Ensures (Starts s c) (moveEntryFrom policy (depth + 1) source destination)
      (fun _ ↦ Run.On fun s' c' ↦ P s' ∧ c' = c.increment "failed") (fun _ _ ↦ False) := by
  refine (on_surviving (E := fun f s' c' ↦ (P s' ∧ c' = c) ∧ f.isSystem) ?_ ?_).weaken
    (fun _ hr ↦ hr) (fun _ _ hr ↦ hr) fun f r hr ↦ ?_
  · refine (starts_ask_of_eq hdirectory).bind fun isDirectory ↦ ensures_assume fun htrue ↦ ?_
    subst htrue
    exact hmove.weaken (fun _ hr ↦ hr) (fun _ _ hr ↦ hr.elim) fun _ _ hr ↦ hr
  · rintro f s' c' - ⟨⟨hP, rfl⟩, -⟩
    exact ⟨hP, rfl⟩
  · obtain ⟨hnot, -, hsystem⟩ := hr.state
    simp [hsystem] at hnot

/-- A move of a directory to itself or to a path in it changes nothing and is counted as a failure,
unless the path leads to a directory in which something has the name of the source. A replacement has
then removed it when it is refused. -/
theorem refused_of_move_into_itself (x : Executor) (source destination : String)
    (policy : OverwritePolicy) (hx : x.workingDirectory.Proper)
    (hplain : Path.hasWildcard source = false) {r : Run} (hsilent : r.journal.file = none)
    (hnested : Nested r.store (Path.resolve source x.workingDirectory)
      (Path.resolve destination x.workingDirectory))
    (hsource : (Path.resolve source x.workingDirectory).Dotless)
    (hdestination : (Path.resolve destination x.workingDirectory).Dotless)
    (hnamed : (Path.resolve source x.workingDirectory).parts ≠ []) :
    let s := r.store
    let q := Path.resolve destination x.workingDirectory
    let target := within q (Path.resolve source x.workingDirectory)
    let result := (x.move source destination policy).run r
    (¬ (s.isDirectory q = .ok true ∧ s.exists? target = .ok true) →
      result.1 = .ok () ∧ result.2.store = s ∧
        result.2.counters = r.counters.increment "failed") ∧
    (s.isDirectory q = .ok true ∧ s.exists? target = .ok true → policy = .replace →
      result.1 = .ok () ∧ s.Without (s.place target <+: ·) result.2.store ∧
        result.2.counters = r.counters.increment "failed") := by
  intro s q target result
  have hproper := proper_resolve hx source
  have hcounted {P : Store → Prop} (hmove : Ensures (Starts s r.counters)
      (moveDirectory (moveEntryFrom policy (pathLimit - 1))
        (Path.resolve source x.workingDirectory) q policy) (fun _ _ ↦ False)
      (fun f ↦ Run.On fun s' c' ↦ (P s' ∧ c' = r.counters) ∧ f.isSystem)) :
      result.1 = .ok () ∧ P result.2.store ∧
        result.2.counters = r.counters.increment "failed" :=
    ends_of_move x destination hplain hsilent (counted_of_refused hnested.directory _ hmove)
  refine ⟨fun hfree ↦ ?_, ?_⟩
  · exact hcounted (refused_moveDirectory hnested hproper hsource hnamed
      fun hdirectory hthere ↦ hfree ⟨hdirectory, hthere⟩)
  · rintro ⟨hdirectory, hthere⟩ rfl
    exact hcounted (lost_of_moveDirectory hnested hsource hdestination hnamed hproper hdirectory
      hthere)

/-- What a directory holds under its own name is lost when it is moved to itself. -/
theorem refused_of_move_into_itself_same_name :
    let s := ((Store.empty.put ["S"] .dir).put ["S", "S"] .dir).putFile ["S", "S", "f"] [100]
    let result := (move ⟨⟨.top, []⟩, none⟩ "S" "S" .replace).run (Run.first s)
    s.WellFormed ∧ s.LinkFree ∧ result.1 = .ok () ∧
      s.Without (["S", "S"] <+: ·) result.2.store ∧
      result.2.counters = (Run.first s).counters.increment "failed" := by
  intro s result
  have hs : s.WellFormed := by decide
  have hfree : s.LinkFree := .of_entries (by decide)
  have hproper : (⟨.top, []⟩ : Path).Proper := by simp [Path.Proper]
  have hnested : Nested s (Path.resolve "S" ⟨.top, []⟩) (Path.resolve "S" ⟨.top, []⟩) :=
    ⟨hs, hfree, proper_resolve hproper "S", rfl, Iff.rfl, rfl, List.prefix_refl _⟩
  have hdotless : (Path.resolve "S" ⟨.top, []⟩).Dotless := by decide
  have hrefused := refused_of_move_into_itself ⟨⟨.top, []⟩, none⟩ "S" "S" .replace hproper rfl
    (r := Run.first s) rfl hnested hdotless hdotless (by decide)
  exact ⟨hs, hfree, hrefused.2 ⟨rfl, rfl⟩ rfl⟩

end Executor

end DeferredOps
