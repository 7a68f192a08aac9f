import DeferredOps.Proofs.Merging
import DeferredOps.Proofs.Store.Contents

/-!
# Moves of matching files

The files that match a pattern are moved one after another into a directory that is made first. Each
is carried to a free name there, or it stays. Directories and symbolic links are left as they are, so
that the paths of the files that follow still lead where they led.
-/

namespace DeferredOps

open Action

namespace Store

/-- Directories and symbolic links are the same, and so is the current directory. -/
structure SameWays (s s' : Store) : Prop where
  dirs l : s'.entry? l = some .dir ↔ s.entry? l = some .dir
  links : s.SameLinks s'
  current : s'.current = s.current

variable {s s' s'' : Store} {last : LastLink} {links : ℕ} {origin location directory : Location}
  {name : String} {names : List String} {p : Path}

theorem SameWays.refl (s : Store) : s.SameWays s :=
  ⟨fun _ ↦ Iff.rfl, .refl s, rfl⟩

theorem SameWays.trans (h : s.SameWays s') (h' : s'.SameWays s'') : s.SameWays s'' :=
  ⟨fun l ↦ (h'.dirs l).trans (h.dirs l), h.links.trans h'.links, h'.current.trans h.current⟩

/-- The way to a directory leads over directories and symbolic links only. -/
theorem Leads.same_ways (h : s.Leads last links directory names (.found location .dir))
    (hways : s.SameWays s') : s'.Leads last links directory names (.found location .dir) := by
  generalize ht : Target.found location .dir = t at h
  induction h with
  | done => exact .done
  | dot _ ih => exact .dot (ih ht)
  | dotDot _ ih => exact .dotDot (ih ht)
  | absent => cases ht
  | enter hname hentry _ ih => exact .enter hname ((hways.dirs _).mpr hentry) (ih ht)
  | file => cases ht
  | kept => cases ht
  | follow hname hentry hkept hwritten _ ih =>
    exact .follow hname ((hways.links _ _).mpr hentry) hkept hwritten (ih ht)

theorem SameWays.target (h : s.SameWays s') (htarget : s.target last p = .ok (.found location .dir)) :
    s'.target last p = .ok (.found location .dir) := by
  obtain ⟨hshort, hleads⟩ := target_eq_ok_iff.mp htarget
  refine target_eq_ok_iff.mpr ⟨hshort, ?_⟩
  rw [start_of_current (.inr h.current)]
  exact hleads.same_ways h

theorem noLinks_of_file (hs : s.WellFormed) {id : ℕ} {content : Bytes}
    (hfile : s.entry? location = some (.file id content)) : s.NoLinks location := by
  intro l text hl hentry
  by_cases heq : l = location
  · simp [heq, hfile] at hentry
  · simp [hs.none_of_prefix hl heq (by simp [hfile])] at hentry

/-- A file that is carried to a free name takes nothing along. -/
theorem CanCarry.sameWays (hs : s.WellFormed) (hcan : s.CanCarry origin directory name)
    (hfree : s.entry? (directory ++ [name]) = none) {id : ℕ} {content : Bytes}
    (hfile : s.entry? origin = some (.file id content)) :
    s.SameWays (s.carry origin (directory ++ [name])) := by
  have hbelow {l : Location} (hl : origin <+: l) :
      s.entry? l = none ∨ s.entry? l = some (.file id content) := by
    by_cases heq : l = origin
    · exact .inr (heq ▸ hfile)
    · exact .inl (hs.none_of_prefix hl heq (by simp [hfile]))
  have hsame {e : Entry} (he : ∀ id content, e ≠ .file id content) (l : Location) :
      entry? (s.carry origin (directory ++ [name])) l = some e ↔ s.entry? l = some e := by
    rw [hcan.entry?_carry]
    split
    · next htarget =>
      have hnone : s.entry? l = none := by
        by_cases heq : l = directory ++ [name]
        · exact heq ▸ hfree
        · exact hs.none_of_prefix htarget heq (by simp [hfree])
      rcases hbelow (List.prefix_append origin (l.drop (directory ++ [name]).length)) with h | h
      · rw [h, hnone]
      · rw [h, hnone]
        simp [(he id content).symm]
    · split
      · next horigin =>
        rcases hbelow horigin with h | h
        · simp [h]
        · simp [h, (he id content).symm]
      · rfl
  refine ⟨hsame (by simp), fun l text ↦ hsame (by simp) l, ?_⟩
  refine (hcan.pruned hs hfree).current fun hpre ↦ ?_
  -- The current directory does not lie in a file.
  rcases hs.current origin hpre with hremoved | hdir
  · simp [hs.not_isRemoved hfile] at hremoved
  · simp [hfile] at hdir

end Store

namespace Executor

open RunAction Store StoreAction

variable {s t t' s' : Store} {source destination p : Path} {origin target directory place : Location}
  {name : String} {depth : ℕ} {names : String → Prop}

/-! ## Runs -/

/-- What becomes of a store when the files that match an expression are moved into a directory. -/
inductive MatchingMove (policy : OverwritePolicy) (s : Store) (p : Path) (expression : String)
    (destination : Path) : Store → Prop
  | made {s' : Store} (hmade : s.MadeParents destination (destination.parts.length + 1) s') :
      MatchingMove policy s p expression destination s'
  | moved {s₁ s' : Store} {files : List Path}
      (hmade : s.MadeParents destination (destination.parts.length + 1) s₁)
      (hdirectory : s₁.isDirectory destination = .ok true)
      (hfiles : s₁.matchingFiles p expression = .ok files)
      (hmoves : Relation.ReflTransGen
        (fun t t' ↦ ∃ file ∈ files, Moves policy pathLimit t file destination t') s₁ s') :
      MatchingMove policy s p expression destination s'

/-- A silent move of matching files ends in a store that it can become. -/
theorem ends_moveMatching (x : Executor) {wildcard : Wildcard} (policy : OverwritePolicy)
    (hs : s.WellFormed) (hdestination : destination.Proper) (pattern : String)
    (hsplit : Wildcard.ofString pattern = .ok wildcard) :
    let Moved := MatchingMove policy s (Path.below x.workingDirectory wildcard.parent)
      wildcard.expression destination
    Ensures (Run.Ends (· = s)) (x.moveMatching pattern destination policy) (fun _ ↦ Run.Ends Moved)
      (fun _ ↦ Run.Ends Moved) := by
  intro Moved
  let Made (s' : Store) : Prop :=
    s.MadeParents destination (destination.parts.length + 1) s' ∧ s'.isDirectory destination = .ok true
  have hensure : Ensures (Run.Ends (· = s)) (onStore (ensureDirectory destination))
      (fun _ ↦ Run.Ends Made) (fun _ ↦ Run.Ends Moved) := by
    rintro r ⟨rfl, hsilent⟩
    have hmade := madeParents_of_ensureDirectory hs hdestination
    have hdirectory := ensures_isDirectory_ensureDirectory destination r.store trivial
    rw [run_onStore]
    rcases hrun : (ensureDirectory destination).run r.store with ⟨f | _, s'⟩ <;>
      rw [hrun] at hmade hdirectory
    · exact ⟨.made hmade, hsilent⟩
    · exact ⟨⟨hmade, hdirectory⟩, hsilent⟩
  unfold moveMatching splitWildcard
  rw [hsplit]
  refine (ensures_pure (P := Run.Ends (· = s)) (Q := fun w r ↦ w = wildcard ∧ Run.Ends (· = s) r)
    fun _ hr ↦ ⟨rfl, hr⟩).bind fun w ↦ ensures_assume fun hw ↦ ?_
  subst hw
  refine hensure.bind fun _ r hr ↦ ?_
  -- From here on the store is known in which the files are looked for.
  obtain ⟨hmade, hdirectory⟩ := hr.state
  refine (Ensures.bind (P := Run.Ends (· = r.store)) ((ends_ask _).weaken (fun _ h ↦ h)
    (fun _ _ h ↦ h) fun _ _ h ↦ ends_mono (fun _ hs ↦ hs ▸ .made hmade) h) fun files ↦
    ensures_assume fun hfiles ↦ ?_) r ⟨rfl, hr.silent⟩
  let Done := Relation.ReflTransGen
    (fun t t' ↦ ∃ file ∈ files, Moves policy pathLimit t file destination t') r.store
  have hdone {r' : Run} (h : Run.Ends Done r') : Run.Ends Moved r' :=
    ends_mono (fun _ ↦ .moved hmade hdirectory hfiles) h
  have hloop : Keeps (Run.Ends Done) (fun _ ↦ True) (forIn files PUnit.unit fun file _ ↦ do
      info ("Recurse move of " ++ file.text ++ " into " ++ destination.text)
      moveEntry file destination policy
      pure (ForInStep.yield PUnit.unit)) := by
    refine keeps_forIn fun file hfile ↦ ?_
    refine Ensures.bind (Q := fun _ ↦ Run.Ends Done) (on_info _) fun _ ↦ Keeps.yield fun t ht ↦ ?_
    have hnext {t' : Store} (h : Moves policy pathLimit t.store file destination t') : Done t' :=
      ht.state.tail ⟨file, hfile, h⟩
    exact ((ends_moveEntryFrom policy pathLimit t.store file destination).weaken (fun _ h ↦ h)
      (fun _ _ h ↦ ends_mono (fun _ ↦ hnext) h)
      fun _ _ h ↦ ⟨ends_mono (fun _ ↦ hnext) h, trivial⟩) t ⟨rfl, ht.silent⟩
  exact Ensures.bind (Ensures.weaken hloop (fun _ h ↦ ends_mono (fun _ hs ↦ hs ▸ .refl) h)
    (fun _ _ h ↦ h) fun _ _ h ↦ hdone h.1) fun _ ↦ ensures_pure fun _ h ↦ hdone h

/-! ## Files that are carried -/

/-- What is no directory is carried to a free name by a move that replaces nothing, or it stays. -/
theorem Moves.carried_of_file (h : Mergeable s source destination origin target)
    (hfile : s.isDirectory source ≠ .ok true) (hmoves : Moves .merge depth s source destination s') :
    s' = s ∨ ∃ directory name, target = directory ++ [name] ∧ s.CanCarry origin directory name ∧
      s.entry? target = none ∧ s' = s.carry origin target := by
  cases depth with
  | zero => exact .inl hmoves
  | succ depth =>
    cases mergeStep_of_moves h.wellFormed h.lands h.targetLinks hmoves with
    | still => exact .inl rfl
    | transfer hthere hclear _ _ hmove =>
      have hproper : (landing s source destination).Proper :=
        proper_landing h.properSource h.properDestination
      have hends : MoveEnds s source (landing s source destination) _ _ :=
        moveEnds h.wellFormed hproper
      rw [hmove] at hends
      refine hends.carried_of_file h.wellFormed h.points h.lands h.links h.targetLinks hproper hclear
        fun l hfound ↦ hfile ?_
      exact isDirectory_eq_true_iff.mpr ⟨(exists_eq_true_iff.mp hthere).1, l, hfound⟩
    | merged hsource => exact absurd hsource hfile

/-- Files with these names in a directory have been moved elsewhere, and nothing else has changed. -/
structure FilesMoved (s : Store) (directory : Location) (names : String → Prop) (s' : Store) : Prop where
  wellFormed : s'.WellFormed
  ways : s.SameWays s'
  kept {l e} (hl : ∀ name, names name → l ≠ directory ++ [name]) (h : s.entry? l = some e) :
    s'.entry? l = some e
  contents : s'.contents = s.contents

theorem FilesMoved.refl (hs : s.WellFormed) (directory : Location) (names : String → Prop) :
    FilesMoved s directory names s :=
  ⟨hs, .refl s, fun _ h ↦ h, rfl⟩

/-- A file that is moved from one directory into another one is carried, or it stays. -/
theorem FilesMoved.next (h : FilesMoved s directory names t) (hproper : p.Proper)
    (hproper' : destination.Proper) (hp : s.target .followed p = .ok (.found directory .dir))
    (hdestination : s.target .followed destination = .ok (.found place .dir))
    (hclean : destination.hasNul = false) (hname : IsName name) (hnames : names name)
    (hfile : ∃ id content, s.entry? (directory ++ [name]) = some (.file id content))
    (hs : s.WellFormed) (hlinks : s.NoLinks (place ++ [name]))
    (hmoves : Moves .merge depth t (p.child name) destination t') :
    FilesMoved s directory names t' := by
  obtain ⟨id, content, hfile⟩ := hfile
  have hnoLinks := (noLinks_of_file hs hfile).congr h.ways.links
  have hpoints : t.Points (p.child name) (directory ++ [name]) :=
    points_child (h.ways.target hp) hname.ne_dot hname.ne_dotDot
  have hinto : t.isDirectory destination = .ok true :=
    isDirectory_eq_true_iff.mpr ⟨hclean, place, h.ways.target hdestination⟩
  have hlanding : landing t (p.child name) destination = destination.child name := by
    rw [landing_of_directory _ hinto, within_child]
  have hnotDir : t.isDirectory (p.child name) ≠ .ok true := by
    intro hdir
    obtain ⟨-, l, hfound⟩ := isDirectory_eq_true_iff.mp hdir
    obtain rfl := hpoints.target hnoLinks.here hfound
    have hthere := (sound_of_target h.wellFormed hfound).resolve_right (by simp [hname.ne_empty])
    simp [(h.ways.dirs _).mp hthere] at hfile
  have hlands : t.Points (landing t (p.child name) destination) (place ++ [name]) := by
    rw [hlanding]
    exact points_child (h.ways.target hdestination) hname.ne_dot hname.ne_dotDot
  have hmergeable : Mergeable t (p.child name) destination (directory ++ [name]) (place ++ [name]) :=
    ⟨h.wellFormed, hproper.child hname.isPart, hproper', hpoints, hlands, hnoLinks,
      hlinks.congr h.ways.links, fun hdir ↦ absurd hdir hnotDir⟩
  rcases hmoves.carried_of_file hmergeable hnotDir with rfl | ⟨d, n, heq, hcan, hfree, rfl⟩
  · exact h
  rw [heq] at hfree ⊢
  -- What is carried is a file still.
  obtain ⟨id', content', hcarried⟩ :
      ∃ id content, t.entry? (directory ++ [name]) = some (.file id content) := by
    obtain ⟨entry, hentry⟩ := Option.isSome_iff_exists.mp hcan.found
    cases entry with
    | file id content => exact ⟨id, content, hentry⟩
    | link text => exact absurd hentry (hnoLinks.here text)
    | dir => simp [(h.ways.dirs _).mp hentry] at hfile
  have hwf := h.wellFormed.carry hcan
  refine ⟨hwf, h.ways.trans (hcan.sameWays h.wellFormed hfree hcarried), fun {l e} hl hentry ↦ ?_, ?_⟩
  · have hold := h.kept hl hentry
    refine (hcan.pruned h.wellFormed hfree).kept (fun hpre ↦ ?_) hold
    have hnone := h.wellFormed.none_of_prefix hpre (hl name hnames) (by simp [hcarried])
    simp [hold] at hnone
  · rw [← h.contents]
    exact hcan.relocates.contents_eq h.wellFormed hwf hcan.apart (by simp [hcarried]) hfree

/-! ## Whole moves -/

/-- The paths that a source stands for: its own, or those of the names that match it and are not those
of directories. -/
def Sources (x : Executor) (s : Store) (source : String) (q : Path) : Prop :=
  if Path.hasWildcard source then
    ∃ wildcard name, Wildcard.ofString source = .ok wildcard ∧
      NamePattern.matchesName wildcard.expression name ∧
      q = (Path.below x.workingDirectory wildcard.parent).child name ∧
      ∀ l, s.CanLead q l → s.entry? l ≠ some .dir
  else q = Path.resolve source x.workingDirectory

/-- The path that an entry is moved to. Matching files are moved into a directory. -/
def finalTarget (x : Executor) (s : Store) (source destination : String) (q : Path) : Path :=
  if Path.hasWildcard source then within (Path.resolve destination x.workingDirectory) q
  else landing s q (Path.resolve destination x.workingDirectory)

section Matching

variable {x : Executor} {pattern text : String} {wildcard : Wildcard}

/-- The moves of files that match an expression carry each of them or leave it, if no symbolic links
are where they can lead. -/
theorem MatchingMove.filesMoved (hx : x.workingDirectory.Proper)
    (hsplit : Wildcard.ofString pattern = .ok wildcard) (hwild : Path.hasWildcard pattern)
    (hsources : ∀ q, Sources x s pattern q → s.LinkFreeAt q)
    (htargets : ∀ q, Sources x s pattern q → s.LinkFreeAt (finalTarget x s pattern text q))
    (h : MatchingMove .merge s (Path.below x.workingDirectory wildcard.parent) wildcard.expression
      (Path.resolve text x.workingDirectory) s') :
    ∃ s₁ directory, s.GrowsDirs s₁ ∧ s₁.WellFormed ∧
      FilesMoved s₁ directory (fun name ↦ ∃ q, Sources x s pattern q ∧
        s.CanLead q (directory ++ [name])) s' := by
  cases h with
  | made hmade => exact ⟨s', [], hmade.grows, hmade.wellFormed, .refl hmade.wellFormed _ _⟩
  | @moved s₁ _ files hmade hdirectory hfiles hmoves =>
    obtain ⟨hclean, place, hdestination⟩ := isDirectory_eq_true_iff.mp hdirectory
    obtain ⟨directory, hlisted, hmem⟩ := listed_of_matchingFiles hfiles
    obtain ⟨-, hparent⟩ := listed_eq_ok_iff.mp hlisted
    have hs₁ := hmade.wellFormed
    have hgrows := hmade.grows
    have hlinks := GrowsDirs.sameLinks hgrows
    refine ⟨s₁, directory, hgrows, hs₁, ?_⟩
    have hproper : (Path.below x.workingDirectory wildcard.parent).Proper := by
      rw [parent_of_wildcard x.workingDirectory hsplit]
      exact fun n hn ↦ proper_resolve hx pattern n (List.mem_of_mem_dropLast hn)
    induction hmoves with
    | refl => exact .refl hs₁ _ _
    | tail _ hmove ih =>
      obtain ⟨file, hfile, hmove⟩ := hmove
      obtain ⟨name, hname, rfl, hisFile, hmatches⟩ := hmem file hfile
      obtain ⟨entry, hentry⟩ := exists_entry_of_mem_names hname
      have hisName := hs₁.name hentry
      have hlookedUp := hs₁.lookedUp (hs₁.parent hentry) hisName
      have hpoints : s₁.Points ((Path.below x.workingDirectory wildcard.parent).child name)
        (directory ++ [name]) := points_child hparent hisName.ne_dot hisName.ne_dotDot
      have hcan := (canLead_child hparent hlookedUp).congr hlinks (hgrows.start _)
      have hnotDir : entry ≠ .dir := by
        rintro rfl
        simp [isFileName, hentry] at hisFile
      have hsource : Sources x s pattern
          ((Path.below x.workingDirectory wildcard.parent).child name) := by
        rw [Sources, if_pos hwild]
        refine ⟨wildcard, name, hsplit, hmatches, rfl, fun l hl hdir ↦ ?_⟩
        obtain rfl := hpoints.eq_of_canLead (hl.congr hlinks.symm (hgrows.start _).symm)
        exact hnotDir (Option.some.inj (hentry.symm.trans (hgrows.kept hdir)))
      have htarget : s₁.NoLinks (place ++ [name]) := by
        have hfree := (htargets _ hsource).congr hlinks (hgrows.start _)
        rw [finalTarget, if_pos hwild, within_child] at hfree
        exact noLinks_child hs₁ hdestination hisName hfree
      obtain ⟨id, content, rfl⟩ : ∃ id content, entry = .file id content := by
        cases entry with
        | dir => exact absurd rfl hnotDir
        | file id content => exact ⟨id, content, rfl⟩
        | link text =>
          exact absurd ((hlinks _ _).mp hentry) ((hsources _ hsource _ hcan).here text)
      exact ih.next hproper (proper_resolve hx text) hparent hdestination hclean hisName
        ⟨_, hsource, hcan⟩ ⟨id, content, hentry⟩ hs₁ htarget hmove

end Matching

end Executor

end DeferredOps
