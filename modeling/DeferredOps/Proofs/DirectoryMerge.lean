import DeferredOps.Proofs.Deletions
import DeferredOps.Proofs.MoveEffects
import DeferredOps.Proofs.Placing
import DeferredOps.Proofs.Store.Limits
import DeferredOps.Proofs.Store.Merged

/-!
# Moves that merge

A directory is moved with the merge policy into a directory that has one of its name. The moves of
what is in it are moves of the same kind, one level down, and each of them brings its entries to their
places and counts what it does. So the whole move does what the merge of the two directories is, and
its counters tell how many entries have been met in each way.
-/

namespace DeferredOps

open Action

namespace Executor

open RunAction Store

variable {s : Store} {c : Counters} {p t destination : Path} {origin target : Location}
  {depth : ℕ} {F : Failure → Run → Prop}

/-- The entries in the scope have been merged, and the counters have grown by their numbers. -/
def MergedFrom (s : Store) (c : Counters) (scope : Set (List String)) (origin target : Location)
    (s' : Store) (c' : Counters) : Prop :=
  s.MergedIn scope origin target s' ∧
    ∀ counter, c'.value counter = c.value counter + s.tally scope origin target counter

/-- A place where nothing is needs no clearing. -/
theorem starts_removeTarget_of_none (h : s.Spells t target) (hs : s.WellFormed)
    (hfree : s.LinkFree) (hnone : s.entry? target = none) :
    Ensures (Starts s c) (removeTarget t) (fun _ ↦ Starts s c) F := by
  refine (starts_ask_of_eq (h.isDirectory hs (hfree.noLinksTo _))).bind fun isDirectory ↦
    ensures_assume fun hdirectory ↦ ?_
  rw [hnone] at hdirectory
  subst hdirectory
  refine (starts_ask_of_eq (h.exists? hs (hfree.noLinksTo _))).bind fun there ↦ ensures_assume fun hthere ↦ ?_
  rw [hnone] at hthere
  subst hthere
  exact ensures_pure fun r hr ↦ hr

/-- A merge goes on only where nothing is. -/
theorem starts_mayReplace_merge (h : s.Spells t target) (hs : s.WellFormed) (hfree : s.LinkFree) :
    Ensures (Starts s c) (mayReplace .merge t)
      (fun goesOn r ↦ goesOn = !(s.entry? target).isSome ∧ Starts s c r) F := by
  refine (starts_ask_of_eq (h.exists? hs (hfree.noLinksTo _))).bind fun there ↦ ensures_assume fun hthere ↦ ?_
  exact ensures_pure fun r hr ↦ ⟨by rw [hthere], hr⟩

/-- An entry is renamed to its place, and counted. -/
theorem starts_moved (h : s.Joinable p origin t target) (hnone : s.entry? target = none) :
    Ensures (Starts s c) (do onStore (StoreAction.moveEntry p t); count "moved")
      (fun _ ↦ Run.On (MergedFrom s c Set.univ origin target)) F := by
  have hportable := h.portable hnone
  obtain ⟨d, n, rfl⟩ := h.destination.exists_concat h.destinationNamed
  have hparent := h.parent
  rw [List.dropLast_concat] at hparent
  have hrun := StoreAction.run_moveEntry_of_parent hportable hparent
  refine (starts_onStore_of_eq hrun (P := (s.Merged origin (d ++ [n])))
    (hportable.merged_carry h.linkFree hparent)).bind fun _ ↦ on_count fun s' c' hr ↦ ⟨hr.1, fun counter ↦ ?_⟩
  rw [hr.2, Counters.value_increment_eq, tally_of_iff
    (fun rest _ ↦ tallied_of_missing h.wellFormed h.there hnone) (Set.mem_univ _)]
  split <;> rfl

/-- A file is moved to its place or stays, if that is taken. -/
theorem starts_moveFile_of_joinable {id : ℕ} {content : Bytes} (h : s.Joinable p origin t target)
    (hdestination : s.isDirectory destination = .ok true) (hwithin : within destination p = t)
    (hfile : s.entry? origin = some (.file id content)) :
    Ensures (Starts s c) (moveFile p destination .merge)
      (fun _ ↦ Run.On (MergedFrom s c Set.univ origin target)) F := by
  have hs := h.wellFormed
  have hfree := h.linkFree
  refine (starts_ask_of_eq hdestination).bind fun isDirectory ↦ ensures_assume fun htrue ↦ ?_
  subst htrue
  simp only [if_true, hwithin]
  refine (starts_ask_of_eq (h.source.samePlace h.destination hs (hfree.noLinksTo _)
    (hfree.noLinksTo _) hfile)).bind fun same ↦ ensures_assume fun hsame ↦ ?_
  cases htarget : s.entry? target with
  | none =>
    rw [htarget] at hsame
    subst hsame
    refine (starts_mayReplace_merge h.destination hs hfree).bind fun goesOn ↦
      ensures_assume fun hgoesOn ↦ ?_
    rw [htarget] at hgoesOn
    subst hgoesOn
    have hunlink : (StoreAction.unlinkIfThere t).run s = (.ok (), s) :=
      StoreAction.run_unlinkIfThere_of_none h.destination hs h.destinationNamed h.parent htarget
    refine (on_info _).bind fun _ ↦ (starts_ask_of_eq (h.source.exists? hs (hfree.noLinksTo _))).bind
      fun there ↦ ensures_assume fun hthere ↦ ?_
    rw [hfile] at hthere
    subst hthere
    exact (starts_onStore_of_eq hunlink (P := (· = s)) rfl).bind fun _ ↦ starts_moved h htarget
  | some entry =>
    have hconflicting : s.Conflicting origin target [] :=
      ⟨⟨id, content, by rw [List.append_nil, hfile]⟩, by simp [htarget]⟩
    have hskipped : Ensures (Starts s c) (count "skipped")
        (fun _ ↦ Run.On (MergedFrom s c Set.univ origin target)) F := by
      refine on_count fun s' c' hr ↦ ⟨?_, fun counter ↦ ?_⟩
      · rw [hr.1]
        exact hconflicting.merged hs hfree
      · rw [hr.2, Counters.value_increment_eq, tally_of_iff
          (fun rest _ ↦ tallied_of_file hs hfile (by simp [htarget])) (Set.mem_univ _)]
        split <;> rfl
    cases same with
    | true => exact (on_info _).bind fun _ ↦ hskipped
    | false =>
      refine (starts_mayReplace_merge h.destination hs hfree).bind fun goesOn ↦
        ensures_assume fun hgoesOn ↦ ?_
      rw [htarget] at hgoesOn
      subst hgoesOn
      exact (on_info _).bind fun _ ↦ hskipped

/-- Moves into a directory as deep as the limit allows do what a merge is. -/
def MergesChildren (moveChild : Path → Path → RunAction Unit) (p : Path) : Prop :=
  ∀ {s c name origin t target destination}, s.Joinable (p.child name) origin t target →
    s.isDirectory destination = .ok true → within destination (p.child name) = t →
      Ensures (Starts s c) (moveChild (p.child name) destination)
        (fun _ ↦ Run.On (MergedFrom s c Set.univ origin target)) (fun _ _ ↦ False)

/-- One name more is merged. -/
theorem on_moveChild {moveChild : Path → Path → RunAction Unit} {front : List String}
    {name : String} (hchild : MergesChildren moveChild p) (h : s.Joinable p origin t target)
    (htarget : s.entry? target = some .dir) (hnew : name ∉ front)
    (hthere : s.entry? (origin ++ [name]) ≠ none) :
    Ensures (Run.On (MergedFrom s c (below front) origin target)) (moveChild (p.child name) t)
      (fun _ ↦ Run.On (MergedFrom s c (below (front ++ [name])) origin target))
      (fun _ _ ↦ False) := by
  rintro r ⟨⟨hmerged, hcounters⟩, hsilent⟩
  have hnot (rest : List String) : name :: rest ∉ below front := fun hmem ↦
    hnew (cons_mem_below.mp hmem)
  have hjoinable := h.child hmerged hnew hthere htarget
  have hdir : r.store.entry? target = some .dir := by
    have hparent := hjoinable.parent
    rwa [List.dropLast_concat] at hparent
  have hdestination : r.store.Spells t target := h.destination.pruned hmerged.pruned
    fun hpre ↦ h.apart (hpre.trans h.destination.prefix_location)
  have hisDirectory : r.store.isDirectory t = .ok true := by
    rw [hdestination.isDirectory hmerged.wellFormed (hmerged.linkFree.noLinksTo _), hdir]
    rfl
  have hmoved := hchild (c := r.counters) hjoinable hisDirectory (within_child t p name)
  refine hmoved.weaken (fun _ hr ↦ hr) (fun _ r' hr' ↦ ?_) (fun _ _ hnot ↦ hnot) r
    ⟨⟨rfl, rfl⟩, hsilent⟩
  refine ⟨⟨hmerged.next h.apart h.notAbove hnew hr'.state.1, fun counter ↦ ?_⟩, hr'.silent⟩
  rw [hr'.state.2, hcounters, tally_concat hnew htarget
    (fun rest ↦ hmerged.origin_of_notMem h.apart h.notAbove (hnot rest))
    (fun rest ↦ hmerged.target_of_notMem h.apart h.notAbove (hnot rest))]
  rw [Nat.cast_add, add_assoc]

/-- The names of a directory, in ascending order. -/
theorem starts_sortedNames (h : s.Spells p origin) (hs : s.WellFormed)
    (hdir : s.entry? origin = some .dir) :
    Ensures (Starts s c) (sortedNames p)
      (fun names r ↦ names = sortNames (s.names origin) ∧ Starts s c r) F :=
  starts_ask_of_eq (by rw [h.list hs hdir]; rfl)

/-- A directory whose names have all been merged is removed if nothing is left in it. -/
theorem on_emptied {names : List String} (h : s.Joinable p origin t target)
    (hdir : s.entry? origin = some .dir) (htarget : s.entry? target = some .dir)
    (hnames : ∀ name, s.entry? (origin ++ [name]) ≠ none → name ∈ names) (c' : Counters) :
    Ensures (Run.On fun s' c'' ↦ s.MergedIn (below names) origin target s' ∧ c'' = c')
      (do if (← ask (·.list p)).isEmpty then onStore (StoreAction.removeDirectory p))
      (fun _ ↦ Run.On fun s' c'' ↦ s.Merged origin target s' ∧ c'' = c') F := by
  rintro r ⟨⟨hmerged, hcounters⟩, hsilent⟩
  have hs := hmerged.wellFormed
  have hspells : r.store.Spells p origin :=
    h.source.pruned hmerged.pruned (h.source.not_prefix_start h.sourceNamed)
  have hdir' : r.store.entry? origin = some .dir := by
    have hsame := hmerged.origin_of_notMem h.apart h.notAbove (nil_notMem_below names)
    rwa [List.append_nil, hdir] at hsame
  have hiff := hmerged.entry?_concat_eq_none_iff h.wellFormed hnames h.apart h.notAbove hdir
  rw [run_bind, run_ask, hspells.list hs hdir']
  by_cases hconflict : s.LeadsToConflict origin target []
  · have hnot : (r.store.names origin).isEmpty = false := by
      rw [← Bool.not_eq_true]
      exact fun hempty ↦ hiff.mp (isEmptyDir_iff.mp hempty) hconflict
    simp only [hnot]
    have hwhole := hmerged.whole h.wellFormed hnames h.apart h.notAbove htarget hs
      hmerged.linkFree (.refl _ _) (fun _ _ ↦ rfl) (absurd hconflict)
    exact ⟨⟨hwhole, hcounters⟩, hsilent⟩
  · have hnone := hiff.mpr hconflict
    have hempty : (r.store.names origin).isEmpty = true := isEmptyDir_iff.mpr hnone
    have hne : origin ≠ [] := by
      obtain ⟨d, n, rfl⟩ := h.source.exists_concat h.sourceNamed
      simp
    simp only [hempty, if_true]
    rw [run_onStore, StoreAction.run_removeDirectory_of_spells hspells hs h.sourceNamed hdir' hnone]
    refine ⟨⟨hmerged.whole h.wellFormed hnames h.apart h.notAbove htarget (hs.erase hnone)
      (hmerged.linkFree.discard _) (pruned_erase _ _) (fun l hl ↦ ?_) fun _ ↦ ?_, hcounters⟩,
      hsilent⟩
    · rw [entry?_erase hne, if_neg (hl.resolve_right hconflict)]
    · rw [entry?_erase hne, if_pos rfl]

/-- The names of a directory are merged, one after the other. -/
theorem starts_mergeNames {moveChild : Path → Path → RunAction Unit}
    (hchild : MergesChildren moveChild p) (h : s.Joinable p origin t target)
    (htarget : s.entry? target = some .dir) {names : List String} (hnodup : names.Nodup)
    (hnames : ∀ name ∈ names, s.entry? (origin ++ [name]) ≠ none) :
    Ensures (Starts s c)
      (forIn names PUnit.unit fun name _ ↦ do
        moveChild (p.child name) t
        pure (ForInStep.yield PUnit.unit))
      (fun _ ↦ Run.On (MergedFrom s c (below names) origin target)) (fun _ _ ↦ False) := by
  refine (ensures_forIn (I := fun rest r ↦ ∃ front, names = front ++ rest ∧
    Run.On (MergedFrom s c (below front) origin target) r) (fun name rest ↦ ?_) names).weaken
    (fun r hr ↦ ⟨[], rfl, ⟨?_, fun counter ↦ ?_⟩, hr.silent⟩) (fun _ r hr ↦ ?_) fun _ _ hnot ↦ hnot
  · rintro r ⟨front, hfront, hr⟩
    have hnew : name ∉ front := by
      rw [hfront] at hnodup
      exact fun hmem ↦ (List.nodup_append.mp hnodup).2.2 name hmem name List.mem_cons_self rfl
    have hthere := hnames name (by rw [hfront]; simp)
    refine ((on_moveChild hchild h htarget hnew hthere).bind fun _ ↦ ensures_pure fun r' hr' ↦ ?_)
      r hr
    exact ⟨rfl, front ++ [name], by simp [hfront], hr'⟩
  · rw [hr.state.1]
    exact .start h.wellFormed h.linkFree
  · rw [hr.state.2, tally_nil]
    simp
  · obtain ⟨front, hfront, hmerged⟩ := hr
    rw [List.append_nil] at hfront
    rwa [hfront]

/-- Two directories are merged. -/
theorem starts_mergeDirectory_of_joinable {moveChild : Path → Path → RunAction Unit}
    (hchild : MergesChildren moveChild p) (h : s.Joinable p origin t target)
    (hdir : s.entry? origin = some .dir) (htarget : s.entry? target = some .dir) :
    Ensures (Starts s c) (mergeDirectory moveChild p t)
      (fun _ ↦ Run.On (MergedFrom s c Set.univ origin target)) (fun _ _ ↦ False) := by
  have hs := h.wellFormed
  have hperm : (sortNames (s.names origin)).Perm (s.names origin) := List.mergeSort_perm _ _
  have hnodup : (sortNames (s.names origin)).Nodup := hperm.nodup_iff.mpr (nodup_names hs origin)
  have hnames (name : String) :
      s.entry? (origin ++ [name]) ≠ none ↔ name ∈ sortNames (s.names origin) := by
    rw [hperm.mem_iff, mem_names, Option.isSome_iff_ne_none]
  refine (on_info _).bind fun _ ↦ (starts_sortedNames h.source hs hdir).bind
    fun names ↦ ensures_assume fun heq ↦ ?_
  subst heq
  refine (starts_mergeNames hchild h htarget hnodup fun name ↦ (hnames name).mpr).bind fun _ ↦ ?_
  rintro r ⟨⟨hmerged, hcounters⟩, hsilent⟩
  have hcounted : Ensures (· = r) (count "merged")
      (fun _ ↦ Run.On fun s' c' ↦ s.MergedIn (below (sortNames (s.names origin))) origin target s' ∧
        c' = r.counters.increment "merged") (fun _ _ ↦ False) :=
    ensures_modify fun r' hr' ↦ by
      subst hr'
      exact ⟨⟨hmerged, rfl⟩, hsilent⟩
  have hemptied := on_emptied (F := fun _ _ ↦ False) h hdir htarget (fun name ↦ (hnames name).mp)
    (r.counters.increment "merged")
  refine ((hcounted.bind fun _ ↦ hemptied).weaken (fun _ hr ↦ hr) (fun _ r' hr' ↦ ?_)
    fun _ _ hnot ↦ hnot) r rfl
  refine ⟨⟨hr'.state.1, fun counter ↦ ?_⟩, hr'.silent⟩
  have hself : s.tally {[]} origin target counter = if counter = "merged" then 1 else 0 :=
    tally_of_iff (fun rest hrest ↦ by
      rw [Set.mem_singleton_iff.mp hrest, tallied_nil_of_dir hdir htarget]
      simp) (Set.mem_singleton _)
  rw [hr'.state.2, Counters.value_increment_eq, hcounters,
    tally_whole hs fun name ↦ (hnames name).mp, hself, Nat.cast_add, add_assoc]
  split <;> rfl

/-- A directory is moved to its place, or merged with the one that is there. -/
theorem starts_moveDirectory_of_joinable {moveChild : Path → Path → RunAction Unit}
    (hchild : MergesChildren moveChild p) (h : s.Joinable p origin t target)
    (hdestination : s.isDirectory destination = .ok true) (hwithin : within destination p = t)
    (hdir : s.entry? origin = some .dir) :
    Ensures (Starts s c) (moveDirectory moveChild p destination .merge)
      (fun _ ↦ Run.On (MergedFrom s c Set.univ origin target)) (fun _ _ ↦ False) := by
  have hs := h.wellFormed
  have hfree := h.linkFree
  have hsame := h.source.samePlace_of_dir h.destination hs (hfree.noLinksTo _) hdir fun heq ↦
    h.apart (heq ▸ List.prefix_refl _)
  refine (starts_ask_of_eq hdestination).bind fun isDirectory ↦ ensures_assume fun htrue ↦ ?_
  subst htrue
  simp only [Bool.not_true, Bool.false_eq_true, if_false, hwithin]
  refine (on_info _).bind fun _ ↦ (starts_ask_of_eq hsame).bind fun same ↦
    ensures_assume fun hfalse ↦ ?_
  subst hfalse
  refine (starts_mayReplace_merge h.destination hs hfree).bind fun goesOn ↦
    ensures_assume fun hgoesOn ↦ ?_
  cases htarget : s.entry? target with
  | none =>
    rw [htarget] at hgoesOn
    subst hgoesOn
    exact (starts_removeTarget_of_none h.destination hs hfree htarget).bind fun _ ↦
      starts_moved h htarget
  | some entry =>
    rw [htarget] at hgoesOn
    subst hgoesOn
    have hdir' : s.entry? target = some .dir := by
      cases entry with
      | dir => exact htarget
      | file id content =>
        have hagree := h.agree [] (by rwa [List.append_nil]) id content
        rw [List.append_nil] at hagree
        exact absurd htarget hagree
      | link text => exact absurd htarget (hfree _ _)
    exact starts_mergeDirectory_of_joinable hchild h hdir hdir'

/-- What is moved with the merge policy to a place in a directory is merged there. The induction is on
the depth that is left, which is as much as a path can still grow. -/
theorem starts_moveEntryFrom_of_joinable (hdepth : pathLimit ≤ depth + p.text.utf8ByteSize)
    (h : s.Joinable p origin t target) (hdestination : s.isDirectory destination = .ok true)
    (hwithin : within destination p = t) :
    Ensures (Starts s c) (moveEntryFrom .merge depth p destination)
      (fun _ ↦ Run.On (MergedFrom s c Set.univ origin target)) (fun _ _ ↦ False) := by
  induction depth generalizing s c p origin t target destination with
  | zero =>
    have hshort := h.source.short
    omega
  | succ depth ih =>
    have hchild : MergesChildren (moveEntryFrom .merge depth) p := by
      intro s c name origin' t' target' destination' hjoinable hdestination' hwithin'
      refine ih ?_ hjoinable hdestination' hwithin'
      rw [Path.size_text_child_eq h.sourceNamed]
      omega
    refine Ensures.tryCatch (E := fun _ _ ↦ False) ((starts_ask_of_eq
      (h.source.isDirectory h.wellFormed (h.linkFree.noLinksTo _))).bind fun isDirectory ↦
        ensures_assume fun hdirectory ↦ ?_) fun _ _ hnot ↦ hnot.elim
    obtain ⟨entry, hentry⟩ := Option.ne_none_iff_exists'.mp h.there
    rw [hentry] at hdirectory
    subst hdirectory
    cases entry with
    | dir => exact starts_moveDirectory_of_joinable hchild h hdestination hwithin hentry
    | file id content => exact starts_moveFile_of_joinable h hdestination hwithin hentry
    | link text => exact absurd hentry (h.linkFree _ _)

/-- A directory and a directory of the same name in the destination, neither of which lies in the other.
No directory meets a file of the same path, and every path that a merge asks about is in reach. -/
structure Meets (s : Store) (source destination : Path) : Prop where
  wellFormed : s.WellFormed
  linkFree : s.LinkFree
  directory : s.isDirectory source = .ok true
  dotless : source.Dotless
  named : source.parts ≠ []
  holds : s.isDirectory destination = .ok true
  destinationDotless : destination.Dotless
  taken : s.isDirectory (within destination source) = .ok true
  apart : ¬ s.place source <+: s.place (within destination source)
  notAbove : ¬ s.place (within destination source) <+: s.place source
  agree (rest : List String) (h : s.entry? (s.place source ++ rest) = some .dir) (id : ℕ)
    (content : Bytes) : s.entry? (s.place (within destination source) ++ rest) ≠
      some (.file id content)
  reach (rest : List String) (name : String)
    (h : s.entry? (s.place source ++ (rest ++ [name])) ≠ none)
    (h' : s.entry? (s.place (within destination source) ++ rest) = some .dir) :
    (source.extend (rest ++ [name])).text.utf8ByteSize < pathLimit ∧
      ((within destination source).extend (rest ++ [name])).text.utf8ByteSize < pathLimit

theorem Meets.joinable (h : Meets s p destination) :
    s.Joinable p (s.place p) (within destination p) (s.place (within destination p)) := by
  have hdots := dotless_within h.dotless h.destinationDotless h.named
  have hnamed : (within destination p).parts ≠ [] := parts_within_ne h.named
  obtain ⟨hsource, hdir⟩ :=
    spells_of_isDirectory h.wellFormed h.linkFree h.dotless h.named h.directory
  obtain ⟨htarget, htaken⟩ := spells_of_isDirectory h.wellFormed h.linkFree hdots hnamed h.taken
  refine ⟨h.wellFormed, h.linkFree, hsource, htarget, h.named, hnamed, by simp [hdir], ?_, h.apart,
    h.notAbove, h.agree, h.reach⟩
  obtain ⟨d, n, heq⟩ := htarget.exists_concat hnamed
  rw [heq] at htaken ⊢
  rw [List.dropLast_concat]
  exact h.wellFormed.parent htaken

/-- A merge leaves a directory of files as it is where no file can be asked about at its new place. -/
theorem still_of_places_out_of_reach {s' : Store} (h : s.Spells p origin) (hs : s.WellFormed)
    (hfree : s.LinkFree) (hdir : s.entry? origin = some .dir)
    (hmoves : Moves .merge (depth + 2) s p destination s')
    (hdestination : s.isDirectory destination = .ok true)
    (htaken : s.isDirectory (within destination p) = .ok true) (hnames : s.names origin ≠ [])
    (hfiles : ∀ name ∈ s.names origin, s.isDirectory (p.child name) = .ok false ∧
      s.samePlace (p.child name) ((within destination p).child name) ≠ .ok false) :
    s' = s := by
  have hchild {s₁ : Store} {name : String} (hname : name ∈ s.names origin)
      (hmove : Moves .merge (depth + 1) s (p.child name) (within destination p) s₁) : s₁ = s := by
    obtain ⟨hfile, hplace⟩ := hfiles name hname
    rcases hmove with rfl | ⟨hdirectory, -⟩ | ⟨-, hmove⟩
    · rfl
    · cases hfile.symm.trans hdirectory
    · cases hmove with
      | still => rfl
      | moved hsame =>
        rw [landing_of_directory _ htaken, within_child] at hsame
        exact absurd hsame hplace
  have hthere := exists_of_isDirectory htaken
  have hvacant (hfree : OverwritePolicy.merge = .merge →
      s.exists? (within destination p) = .ok false) : False := by
    cases hthere.symm.trans (hfree rfl)
  rcases hmoves with rfl | ⟨-, hmove⟩ | ⟨hfile, -⟩
  · rfl
  · cases hmove with
    | still => rfl
    | renamed hnot => cases hdestination.symm.trans hnot
    | placed _ _ hfree => exact (hvacant hfree).elim
    | uncleared _ _ hfree => exact (hvacant hfree).elim
    | @merged s₁ _ directory names _ _ _ _ hlisted hsub hchildren hlast =>
      obtain rfl : origin = directory := by
        rw [h.listed hs hdir] at hlisted
        exact Except.ok.inj hlisted
      have hsame : s₁ = s := by
        clear hlast
        induction hchildren with
        | refl => rfl
        | tail _ hstep ih =>
          obtain ⟨name, hname, hmove⟩ := hstep
          rw [ih] at hmove
          exact hchild (hsub hname) hmove
      subst hsame
      rcases hlast with rfl | hremove
      · rfl
      · obtain ⟨d, n, hslot, -, hempty, -⟩ := removeDirectory_ok hremove
        have hlocation := location_of_slot hfree hslot
        rw [h.place] at hlocation
        exact absurd (List.isEmpty_iff.mp (hlocation ▸ hempty)) hnames
  · rw [h.isDirectory hs (hfree.noLinksTo _), hdir] at hfile
    cases hfile

/-- A directory of a file for which there is a place that is too far away to be asked about. -/
def outOfReach : Store :=
  (((nested (letters 250) 16).put ["S"] .dir).putFile ["S", letters 100] []).put
    (deepDirectory.parts ++ ["S"]) .dir

theorem entry?_outOfReach (l : Location) : outOfReach.entry? l =
    if l = deepDirectory.parts ++ ["S"] then some .dir
    else if l = ["S", letters 100] then
      some (.file ((nested (letters 250) 16).put ["S"] .dir).freshId [])
    else if l = ["S"] then some .dir
    else Store.entry? (nested (letters 250) 16) l := by
  rw [outOfReach, entry?_put (by simp), entry?_putFile (by simp), entry?_put (by simp)]

theorem wellFormed_outOfReach : outOfReach.WellFormed ∧ outOfReach.LinkFree := by
  have hname : IsName (letters 100) := isName_letters (by decide) (by decide)
  obtain ⟨hs, hdir, hfree⟩ := wellFormed_nested (@isName_letters 250 (by decide) (by decide)) 16
  have hnone : Store.entry? (nested (letters 250) 16) ["S"] = none := by decide +kernel
  have hlinkFree : (nested (letters 250) 16).LinkFree := .of_entries (by decide +kernel)
  have hs₁ : ((nested (letters 250) 16).put ["S"] .dir).WellFormed :=
    hs.put_top (by decide) hnone (by simp)
  have hs₂ : (((nested (letters 250) 16).put ["S"] .dir).putFile (["S"] ++ [letters 100]) []).WellFormed := by
    refine hs₁.putFile ?_ hname ?_
    · rw [entry?_put (by simp), if_pos rfl]
    · rw [entry?_put (by simp), if_neg (by simp)]
      exact hs.none_of_append (by simp) (by simp [hnone])
  refine ⟨hs₂.put ?_ (by decide) ?_ (by simp),
    ((hlinkFree.put (by simp) rfl).put (by simp) rfl).put (by simp) rfl⟩
  · rw [entry?_putFile (by simp), if_neg ?_, entry?_put (by simp), if_neg ?_, deepDirectory, hdir]
    · simp [deepDirectory]
    · simp [deepDirectory]
  · rw [entry?_putFile (by simp), if_neg ?_, entry?_put (by simp), if_neg ?_]
    · exact hfree _ (by simp [deepDirectory])
    · simp [deepDirectory]
    · simp [deepDirectory]

theorem resolve_dot_deepDirectory : Path.resolve "." deepDirectory = deepDirectory := by
  have htext : Path.ofString "." = Path.here := by decide
  rw [Path.resolve, htext]
  exact congrArg (Path.mk _) (List.append_nil _)

theorem mem_names_outOfReach {name : String} :
    name ∈ outOfReach.names ["S"] ↔ name = letters 100 := by
  refine ⟨fun hmem ↦ ?_, ?_⟩
  · obtain ⟨entry, hentry⟩ := exists_entry_of_mem_names hmem
    obtain ⟨hnested, -⟩ := wellFormed_nested (@isName_letters 250 (by decide) (by decide)) 16
    have hnone : Store.entry? (nested (letters 250) 16) ["S"] = none := by decide +kernel
    rw [entry?_outOfReach, if_neg (by simp [deepDirectory])] at hentry
    by_contra hne
    rw [if_neg (by simpa using hne), if_neg (by simp),
      hnested.none_of_append (by simp) (by simp [hnone])] at hentry
    cases hentry
  · rintro rfl
    rw [mem_names, List.singleton_append, entry?_outOfReach, if_neg (by simp [deepDirectory]), if_pos rfl]
    rfl

theorem spells_outOfReach :
    outOfReach.Spells ⟨.top, ["S"]⟩ ["S"] ∧ outOfReach.Spells deepDirectory deepDirectory.parts ∧
      outOfReach.Spells (deepDirectory.child "S") (deepDirectory.parts ++ ["S"]) ∧
      (deepDirectory.child "S").text.utf8ByteSize = 4018 := by
  have hdeep : outOfReach.Spells deepDirectory deepDirectory.parts :=
    ⟨fun _ ↦ isName_of_deep, by rw [size_deepDirectory]; decide, rfl, rfl⟩
  have hsize : (deepDirectory.child "S").text.utf8ByteSize = 4018 := by
    rw [Path.size_text_child_eq (by simp [deepDirectory]), size_deepDirectory]
    rfl
  exact ⟨⟨by decide, by decide +kernel, rfl, rfl⟩, hdeep,
    hdeep.child (by decide : IsName "S") (by rw [hsize]; decide), hsize⟩

theorem isDirectory_outOfReach :
    outOfReach.isDirectory ⟨.top, ["S"]⟩ = .ok true ∧
      outOfReach.isDirectory deepDirectory = .ok true ∧
      outOfReach.isDirectory (deepDirectory.child "S") = .ok true := by
  obtain ⟨hs, hfree⟩ := wellFormed_outOfReach
  obtain ⟨hsource, hdeep, hplace, -⟩ := spells_outOfReach
  have htarget : outOfReach.entry? (deepDirectory.parts ++ ["S"]) = some .dir := by
    rw [entry?_outOfReach, if_pos rfl]
  rw [hsource.isDirectory hs (hfree.noLinksTo _), hdeep.isDirectory hs (hfree.noLinksTo _),
    hplace.isDirectory hs (hfree.noLinksTo _), hs.parent htarget, htarget]
  exact ⟨by simp [entry?_outOfReach, Entry.isDir], rfl, rfl⟩

/-- The file can be asked about, but not its new place. -/
theorem unasked_outOfReach :
    outOfReach.isDirectory (Path.child ⟨.top, ["S"]⟩ (letters 100)) = .ok false ∧
      outOfReach.samePlace (Path.child ⟨.top, ["S"]⟩ (letters 100))
        ((deepDirectory.child "S").child (letters 100)) = .error
          (.ofPath .nameTooLong ((deepDirectory.child "S").child (letters 100))) := by
  obtain ⟨hs, hfree⟩ := wellFormed_outOfReach
  obtain ⟨hsource, -, hplace, hsize⟩ := spells_outOfReach
  have hname : IsName (letters 100) := isName_letters (by decide) (by decide)
  have hfile : outOfReach.entry? ["S", letters 100] =
      some (.file ((nested (letters 250) 16).put ["S"] .dir).freshId []) := by
    rw [entry?_outOfReach, if_neg (by simp [deepDirectory]), if_pos rfl]
  have hchild : outOfReach.Spells (Path.child ⟨.top, ["S"]⟩ (letters 100)) ["S", letters 100] :=
    hsource.child hname (by rw [Path.size_text_child_eq (by simp), size_letters]; decide +kernel)
  have hclean : ((deepDirectory.child "S").child (letters 100)).hasNul = false := by
    have hnoNul := hname.noNul
    have hnul := hplace.hasNul
    simp_all [Path.hasNul, Path.child]
  have hlong : pathLimit ≤ ((deepDirectory.child "S").child (letters 100)).text.utf8ByteSize := by
    rw [Path.size_text_child_eq (by simp), hsize, size_letters]
    decide
  rw [hchild.isDirectory hs (hfree.noLinksTo _), samePlace, hchild.entryAt hs (hfree.noLinksTo _), hfile,
    entryAt_of_long hclean hlong]
  exact ⟨rfl, rfl⟩

/-- The directory is left as it is by a merge. -/
theorem still_outOfReach :
    ((move ⟨deepDirectory, none⟩ "/S" "." .merge).run (Run.first outOfReach)).2.store =
      outOfReach := by
  obtain ⟨hs, hfree⟩ := wellFormed_outOfReach
  obtain ⟨-, hdestination, htaken⟩ := isDirectory_outOfReach
  have hsource : outOfReach.entry? ["S"] = some .dir := by simp [entry?_outOfReach]
  have hresolve : Path.resolve "/S" deepDirectory = ⟨.top, ["S"]⟩ := by decide +kernel
  have hmoves := moves_of_move ⟨deepDirectory, none⟩ "/S" "." .merge (by decide)
    (r := Run.first outOfReach) rfl
  rw [hresolve, resolve_dot_deepDirectory] at hmoves
  refine still_of_places_out_of_reach spells_outOfReach.1 hs hfree hsource hmoves hdestination htaken
    (List.ne_nil_of_mem (mem_names_outOfReach.mpr rfl)) fun name hmem ↦ ?_
  obtain rfl := mem_names_outOfReach.mp hmem
  obtain ⟨hfile, hsame⟩ := unasked_outOfReach
  refine ⟨hfile, ?_⟩
  change outOfReach.samePlace _ ((deepDirectory.child "S").child (letters 100)) ≠ _
  rw [hsame]
  simp

end Executor

end DeferredOps
