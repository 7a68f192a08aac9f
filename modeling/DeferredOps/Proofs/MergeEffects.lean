import DeferredOps.Proofs.Matching
import DeferredOps.Proofs.MoveEffects

/-!
# What merges keep

A move that replaces nothing takes away only what is at or below its sources, if no symbolic links are
where these and the places to go to can be. Without any symbolic links a sequence of such moves loses
no content, whatever each of them does, and it adds one only where a copy of a directory breaks off.
-/

namespace DeferredOps

open Action

namespace Executor

open RunAction Store

variable {x : Executor} {s s' : Store} {policy : OverwritePolicy} {source destination : String}

/-! ## Plain moves and moves of matching files -/

/-- What becomes of a store when a move is made. A malformed pattern moves nothing. -/
inductive WholeMove (x : Executor) (policy : OverwritePolicy) (s : Store)
    (source destination : String) : Store → Prop
  | refused : WholeMove x policy s source destination s
  | plain {s' : Store} (hplain : Path.hasWildcard source = false)
      (hmoves : Moves policy pathLimit s (Path.resolve source x.workingDirectory)
        (Path.resolve destination x.workingDirectory) s') :
      WholeMove x policy s source destination s'
  | matching {s' : Store} {wildcard : Wildcard} (hwild : Path.hasWildcard source)
      (hsplit : Wildcard.ofString source = .ok wildcard)
      (hmoves : MatchingMove policy s (Path.below x.workingDirectory wildcard.parent)
        wildcard.expression (Path.resolve destination x.workingDirectory) s') :
      WholeMove x policy s source destination s'

/-- A silent move ends in a store that it can become. -/
theorem ends_move (hx : x.workingDirectory.Proper) (policy : OverwritePolicy) (hs : s.WellFormed)
    (source destination : String) :
    Ensures (Run.Ends (· = s)) (x.move source destination policy)
      (fun _ ↦ Run.Ends (WholeMove x policy s source destination))
      (fun _ ↦ Run.Ends (WholeMove x policy s source destination)) := by
  by_cases hwild : Path.hasWildcard source
  · rw [move_of_wildcard x destination policy hwild]
    refine ends_surviving ?_
    cases hsplit : Wildcard.ofString source with
    | error e =>
      unfold moveMatching splitWildcard
      rw [hsplit]
      exact Ensures.bind (Q := fun _ _ ↦ False)
        (ensures_throw fun _ hr ↦ ends_mono (fun _ hs ↦ hs ▸ .refused) hr) fun _ _ h ↦ h.elim
    | ok wildcard =>
      have hmoves {r : Run} (hr : Run.Ends (MatchingMove policy s
          (Path.below x.workingDirectory wildcard.parent) wildcard.expression
          (Path.resolve destination x.workingDirectory)) r) :
          Run.Ends (WholeMove x policy s source destination) r :=
        ends_mono (fun _ ↦ .matching hwild hsplit) hr
      exact (ends_moveMatching x policy hs (proper_resolve hx destination) source hsplit).weaken
        (fun _ hr ↦ hr) (fun _ _ hr ↦ hmoves hr) fun _ _ hr ↦ hmoves hr
  · rw [move_of_plain x destination policy (by simpa using hwild)]
    exact (ends_moveEntryFrom policy pathLimit s _ _).weaken (fun _ hr ↦ hr)
      (fun _ _ hr ↦ ends_mono (fun _ ↦ .plain (by simpa using hwild)) hr)
      fun _ _ hr ↦ ends_mono (fun _ ↦ .plain (by simpa using hwild)) hr

/-! ## What is left in place -/

/-- A merge takes away only what is at or below its sources, if no symbolic links are where its paths
can lead. -/
theorem WholeMove.kept (h : WholeMove x .merge s source destination s')
    (hx : x.workingDirectory.Proper) (hs : s.WellFormed)
    (hsources : ∀ q, Sources x s source q → s.LinkFreeAt q)
    (htargets : ∀ q, Sources x s source q → s.LinkFreeAt (finalTarget x s source destination q))
    (hstarts : Path.hasWildcard source = false → StartsOutside s
      (Path.resolve source x.workingDirectory) (Path.resolve destination x.workingDirectory))
    {l : Location} {e : Entry} (hl : ∀ q o, Sources x s source q → s.CanLead q o → ¬ o <+: l)
    (hentry : s.entry? l = some e) : s'.entry? l = some e := by
  cases h with
  | refused => exact hentry
  | plain hplain hmoves =>
    have hsource : Sources x s source (Path.resolve source x.workingDirectory) := by
      simp [Sources, hplain]
    have htarget := htargets _ hsource
    rw [finalTarget, if_neg (by simp [hplain])] at htarget
    obtain ⟨origin, hpoints, hlinks, hcan⟩ := exists_points hs (hsources _ hsource)
    obtain ⟨target, hlands, htargetLinks, -⟩ := exists_points hs htarget
    have hmergeable := mergeable_of_points hs (proper_resolve hx source)
      (proper_resolve hx destination) hpoints hlands hlinks htargetLinks (hstarts hplain)
    refine (hmoves.confined hmergeable).pruned.kept (fun hpre ↦ ?_) hentry
    rcases hcan with hcan | hnone
    · exact hl _ _ hsource hcan hpre
    · simp [hnone l hpre] at hentry
  | matching hwild hsplit hmoves =>
    obtain ⟨s₁, directory, hgrows, -, hmoved⟩ := hmoves.filesMoved hx hsplit hwild hsources htargets
    refine hmoved.kept ?_ (hgrows.kept hentry)
    rintro name ⟨q, hsource, hcan⟩ rfl
    exact hl _ _ hsource hcan (List.prefix_refl _)

/-- Whatever stands anywhere but at or below the sources of a merge stays as it is, if no symbolic
links are where the sources and the places they are to go to can be. -/
theorem kept_of_merge (x : Executor) (source destination : String) {r : Run}
    (hx : x.workingDirectory.Proper) (hr : r.store.WellFormed) (hsilent : r.journal.file = none)
    (hsources : ∀ q, Sources x r.store source q → r.store.LinkFreeAt q)
    (htargets : ∀ q, Sources x r.store source q →
      r.store.LinkFreeAt (finalTarget x r.store source destination q))
    (hstarts : Path.hasWildcard source = false → StartsOutside r.store
      (Path.resolve source x.workingDirectory) (Path.resolve destination x.workingDirectory))
    (l : Location) (e : Entry)
    (hl : ∀ q o, Sources x r.store source q → r.store.CanLead q o → ¬ o <+: l)
    (hentry : r.store.entry? l = some e) :
    ((x.move source destination .merge).run r).2.store.entry? l = some e :=
  ((ends_move hx .merge hr source destination).state ⟨rfl, hsilent⟩).state.kept hx hr hsources
    htargets hstarts hl hentry

/-- A file that is merged onto another one leaves that and a broken link beside it as they are. -/
theorem kept_of_merge_beside_link :
    let s := ((Store.empty.putFile ["f"] [100]).putFile ["g"] [103]).put ["L"] (.link "missing")
    let result := (move ⟨Path.here, none⟩ "f" "g" .merge).run (Run.first s)
    s.contentAt? ["g"] = some [103] ∧
      ∀ l e, ¬ ["f"] <+: l → s.entry? l = some e → result.2.store.entry? l = some e := by
  intro s result
  have hs : (Run.first s).store.WellFormed := by decide
  have hproper : Path.here.Proper := by simp [Path.Proper, Path.here]
  have hplain : Path.hasWildcard "f" = false := by decide
  have hsource : (Run.first s).store.target .kept (Path.resolve "f" Path.here) =
      .ok (.found ["f"] (.file 0 [100])) := by rfl
  have htarget : (Run.first s).store.target .kept (landing (Run.first s).store
      (Path.resolve "f" Path.here) (Path.resolve "g" Path.here)) =
      .ok (.found ["g"] (.file 1 [103])) := by rfl
  have hfile : (Run.first s).store.isDirectory (Path.resolve "f" Path.here) = .ok false := by rfl
  refine ⟨by decide +kernel, fun l e hl hentry ↦ ?_⟩
  refine kept_of_merge ⟨Path.here, none⟩ "f" "g" hproper hs rfl ?_ ?_ ?_ l e ?_ hentry
  · intro q hq
    obtain rfl : q = Path.resolve "f" Path.here := by simpa [Sources, hplain] using hq
    exact linkFreeAt_of_target hsource (.of_entries (by decide))
  · intro q hq
    obtain rfl : q = Path.resolve "f" Path.here := by simpa [Sources, hplain] using hq
    rw [finalTarget, if_neg (by simp [hplain])]
    exact linkFreeAt_of_target htarget (.of_entries (by decide))
  · intro _ hdirectory
    exact absurd (hfile.symm.trans hdirectory) (by simp)
  · intro q o hq hcan
    obtain rfl : q = Path.resolve "f" Path.here := by simpa [Sources, hplain] using hq
    rwa [(points_of_target hsource).eq_of_canLead hcan]

/-! ## What is conserved -/

/-- If a directory is to go below itself, its path and that of the destination begin alike, so that it
is seen to do so. -/
def NestingSeen (s : Store) (source destination : Path) : Prop :=
  s.isDirectory source = .ok true →
    s.place source <+: s.place (landing s source destination) →
      s.place source ≠ s.place (landing s source destination) →
        (source.anchor = .doubleTop ↔ destination.anchor = .doubleTop)

/-- A directory that is to be made anew is copied, and the copy breaks off. -/
def BreaksOff (x : Executor) (s : Store) (source destination : String) : Prop :=
  Path.hasWildcard source = false ∧
    s.isDirectory (Path.resolve destination x.workingDirectory) ≠ .ok true ∧
    s.BrokenCopy (Path.resolve source x.workingDirectory)
      (Path.resolve destination x.workingDirectory)

/-- What a merge conserves in a store without symbolic links. -/
structure ConservedBy (x : Executor) (source destination : String) (s s' : Store) : Prop where
  wellFormed : s'.WellFormed
  linkFree : s'.LinkFree
  contents : s'.contents = s.contents ∨
    BreaksOff x s source destination ∧ s.contents ≤ s'.contents
  kept {l e} (hl : ∀ q, Sources x s source q → ¬ s.place q <+: l) (h : s.entry? l = some e) :
    s'.entry? l = some e

/-- In a store without symbolic links a merge conserves contents. -/
theorem WholeMove.conserved (h : WholeMove x .merge s source destination s')
    (hx : x.workingDirectory.Proper) (hs : s.WellFormed) (hfree : s.LinkFree)
    (hevident : Path.hasWildcard source = false →
      NestingSeen s (Path.resolve source x.workingDirectory)
          (Path.resolve destination x.workingDirectory) ∧
        StartsOutside s (Path.resolve source x.workingDirectory)
          (Path.resolve destination x.workingDirectory)) :
    ConservedBy x source destination s s' := by
  have hkept {l : Location} {e : Entry} (hl : ∀ q, Sources x s source q → ¬ s.place q <+: l)
      (hentry : s.entry? l = some e) : s'.entry? l = some e :=
    h.kept hx hs (fun q _ ↦ hfree.linkFreeAt q) (fun q _ ↦ hfree.linkFreeAt _)
      (fun hplain ↦ (hevident hplain).2)
      (fun q o hsource hcan ↦ hcan.eq_place hfree ▸ hl q hsource) hentry
  cases h with
  | refused => exact ⟨hs, hfree, .inl rfl, hkept⟩
  | plain hplain hmoves =>
    obtain ⟨hnesting, hstarts⟩ := hevident hplain
    have hmergeable := mergeable_of_linkFree hs hfree (proper_resolve hx source)
      (proper_resolve hx destination) hstarts
    have hconfined := hmoves.confined hmergeable
    have hconserved := hmoves.conserved hmergeable ⟨hfree, rfl, rfl, hnesting⟩
    refine ⟨hconfined.wellFormed, hfree.of_sameLinks hconfined.links, ?_, hkept⟩
    exact hconserved.contents.imp_right fun ⟨hdirectory, hbroken, _, hle⟩ ↦
      ⟨⟨hplain, hdirectory, hbroken⟩, hle⟩
  | matching hwild hsplit hmoves =>
    obtain ⟨s₁, directory, hgrows, hs₁, hmoved⟩ := hmoves.filesMoved hx hsplit hwild
      (fun q _ ↦ hfree.linkFreeAt q) fun q _ ↦ hfree.linkFreeAt _
    have hlinks := (GrowsDirs.sameLinks hgrows).trans hmoved.ways.links
    refine ⟨hmoved.wellFormed, hfree.of_sameLinks hlinks, .inl ?_, hkept⟩
    rw [hmoved.contents]
    exact contents_eq_of_same hs hs₁ hgrows.contentAt?

/-! ## Sequences of merges -/

/-- The run after a sequence of merges, each of which is made however the one before it has ended. -/
def mergeAll (x : Executor) (moves : List (String × String)) (r : Run) : Run :=
  moves.foldl (fun r m ↦ ((x.move m.1 m.2 .merge).run r).2) r

@[simp]
theorem mergeAll_nil (x : Executor) (r : Run) : x.mergeAll [] r = r :=
  rfl

@[simp]
theorem mergeAll_concat (x : Executor) (front : List (String × String)) (m : String × String)
    (r : Run) :
    x.mergeAll (front ++ [m]) r = ((x.move m.1 m.2 .merge).run (x.mergeAll front r)).2 := by
  simp [mergeAll]

/-- A silent run on a well-formed store without symbolic links, in which a merge conserves contents. -/
structure Steady (r : Run) : Prop where
  wellFormed : r.store.WellFormed
  linkFree : r.store.LinkFree
  silent : r.journal.file = none

/-- The next merge conserves contents, and so can the one after it. -/
theorem Steady.move {r : Run} (h : Steady r) (hx : x.workingDirectory.Proper)
    (hevident : Path.hasWildcard source = false →
      NestingSeen r.store (Path.resolve source x.workingDirectory)
          (Path.resolve destination x.workingDirectory) ∧
        StartsOutside r.store (Path.resolve source x.workingDirectory)
          (Path.resolve destination x.workingDirectory)) :
    Steady ((x.move source destination .merge).run r).2 ∧
      ConservedBy x source destination r.store
        ((x.move source destination .merge).run r).2.store := by
  have hends := (ends_move hx .merge h.wellFormed source destination).state ⟨rfl, h.silent⟩
  have hconserved := hends.state.conserved hx h.wellFormed h.linkFree hevident
  exact ⟨⟨hconserved.wellFormed, hconserved.linkFree, hends.silent⟩, hconserved⟩

/-- Merges one after another, in a store without symbolic links, lose no content of a file, and they
add none unless a copy breaks off. Each of them leaves in place what is not at or below its sources. -/
theorem contents_of_mergeAll (x : Executor) {r : Run} (moves : List (String × String))
    (hx : x.workingDirectory.Proper) (hr : r.store.WellFormed) (hsilent : r.journal.file = none)
    (hfree : r.store.LinkFree)
    (hevident : ∀ front m, front ++ [m] <+: moves → Path.hasWildcard m.1 = false →
      NestingSeen (x.mergeAll front r).store (Path.resolve m.1 x.workingDirectory)
          (Path.resolve m.2 x.workingDirectory) ∧
        StartsOutside (x.mergeAll front r).store (Path.resolve m.1 x.workingDirectory)
          (Path.resolve m.2 x.workingDirectory)) :
    r.store.contents ≤ (x.mergeAll moves r).store.contents ∧
      ((∀ front m, front ++ [m] <+: moves → ¬ BreaksOff x (x.mergeAll front r).store m.1 m.2) →
        (x.mergeAll moves r).store.contents = r.store.contents) ∧
      ∀ front m, front ++ [m] <+: moves → ∀ l e,
        (∀ q, Sources x (x.mergeAll front r).store m.1 q →
          ¬ (x.mergeAll front r).store.place q <+: l) →
        (x.mergeAll front r).store.entry? l = some e →
          (x.mergeAll (front ++ [m]) r).store.entry? l = some e := by
  suffices hall : Steady (x.mergeAll moves r) ∧
      r.store.contents ≤ (x.mergeAll moves r).store.contents ∧
      ((∀ front m, front ++ [m] <+: moves → ¬ BreaksOff x (x.mergeAll front r).store m.1 m.2) →
        (x.mergeAll moves r).store.contents = r.store.contents) ∧
      ∀ front m, front ++ [m] <+: moves →
        ConservedBy x m.1 m.2 (x.mergeAll front r).store (x.mergeAll (front ++ [m]) r).store from
    ⟨hall.2.1, hall.2.2.1, fun front m hfront l e ↦ (hall.2.2.2 front m hfront).kept⟩
  induction moves using List.reverseRecOn with
  | nil => exact ⟨⟨hr, hfree, hsilent⟩, le_rfl, fun _ ↦ rfl, by simp⟩
  | append_singleton before last ih =>
    have hearlier {front : List (String × String)} (hfront : front <+: before) :
        front <+: before ++ [last] := hfront.trans (List.prefix_append _ _)
    obtain ⟨hsteady, hle, heq, hconserved⟩ :=
      ih fun front m hfront ↦ hevident front m (hearlier hfront)
    obtain ⟨hsteady', hlast⟩ := hsteady.move hx (hevident before last (List.prefix_refl _))
    rw [← mergeAll_concat] at hsteady' hlast
    refine ⟨hsteady', hle.trans ?_, fun hunbroken ↦ ?_, fun front m hfront ↦ ?_⟩
    · rcases hlast.contents with hsame | ⟨-, hmore⟩
      · exact hsame.ge
      · exact hmore
    · have hsame := hlast.contents.resolve_right fun hbroken ↦
        hunbroken before last (List.prefix_refl _) hbroken.1
      rw [hsame, heq fun front m hfront ↦ hunbroken front m (hearlier hfront)]
    · rcases List.prefix_concat_iff.mp hfront with hwhole | hfront
      · obtain ⟨rfl, hm⟩ := List.append_inj' hwhole rfl
        obtain rfl : m = last := by simpa using hm
        exact hlast
      · exact hconserved front m hfront

/-- A directory is merged into one of its name, and the files that match a pattern follow it. -/
theorem contents_of_mergeAll_directory_files :
    let s := (((((Store.empty.put ["S"] .dir).putFile ["S", "f"] [100]).put ["D"] .dir).put
      ["D", "S"] .dir).putFile ["D", "S", "g"] [103]).putFile ["h.txt"] [104]
    (mergeAll ⟨Path.here, none⟩ [("S", "D"), ("*.txt", "D")] (Run.first s)).store.contents =
      s.contents := by
  intro s
  have hs : (Run.first s).store.WellFormed := by decide
  have hfree : (Run.first s).store.LinkFree := LinkFree.of_entries (by decide)
  have hproper : Path.here.Proper := by simp [Path.Proper, Path.here]
  have hdirectory : (Run.first s).store.isDirectory (Path.resolve "D" Path.here) = .ok true := by rfl
  have hplace : (Run.first s).store.place (Path.resolve "S" Path.here) = ["S"] := by decide +kernel
  have hmoves {front : List (String × String)} {m : String × String}
      (h : front ++ [m] <+: [("S", "D"), ("*.txt", "D")]) :
      front = [] ∧ m = ("S", "D") ∨ m = ("*.txt", "D") := by
    rcases front with _ | ⟨first, _ | ⟨second, rest⟩⟩
    · exact .inl (by simpa using h)
    · simp only [List.cons_append, List.nil_append, List.cons_prefix_cons] at h
      exact .inr h.2.1
    · simp at h
  refine (contents_of_mergeAll ⟨Path.here, none⟩ [("S", "D"), ("*.txt", "D")] hproper hs rfl hfree
    fun front m hfront hplain ↦ ?_).2.1 fun front m hfront hbroken ↦ ?_
  · rcases hmoves hfront with ⟨rfl, rfl⟩ | rfl
    · refine ⟨fun _ _ _ ↦ by decide, fun _ l hcan ↦ ?_⟩
      obtain rfl : l = ["S"] := (hcan.eq_place hfree).trans hplace
      exact ⟨.inr (by decide), .inr (by decide)⟩
    · exact absurd hplain (by decide)
  · rcases hmoves hfront with ⟨rfl, rfl⟩ | rfl
    · exact hbroken.2.1 hdirectory
    · exact absurd hbroken.1 (by decide)

end Executor

end DeferredOps
