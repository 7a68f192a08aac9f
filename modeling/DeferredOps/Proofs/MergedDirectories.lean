import DeferredOps.Proofs.MoveEffects
import DeferredOps.Proofs.Store.Spelling
import DeferredOps.Proofs.Store.Straight

/-!
# Where the directories of a source are

A move that replaces nothing leaves every directory of its source in its place or houses it at its place
in the target. An empty directory is given up where a file stands at that place.
-/

namespace DeferredOps

namespace Store

open Executor

variable {s s' t t' : Store} {origin target : Location} {source p : Path} {name : String}

/-- A file stands where a directory that holds nothing is to go. -/
structure Barred (s : Store) (origin target rest : Location) : Prop where
  file : ∃ id content, s.entry? (target ++ rest) = some (.file id content)
  empty (name : String) : s.entry? (origin ++ rest ++ [name]) = none

/-- Every directory at or below the source of a move is there or at its place in the target, unless it is
barred from that, and every file in the target was there or comes from the source. -/
structure Housed (s : Store) (origin target : Location) (s' : Store) : Prop where
  directory {rest} (h : s.entry? (origin ++ rest) = some .dir) :
    s'.entry? (origin ++ rest) = some .dir ∨ s'.entry? (target ++ rest) = some .dir ∨
      s.Barred origin target rest
  file {rest id content} (h : s'.entry? (target ++ rest) = some (.file id content)) :
    (∃ id content, s.entry? (target ++ rest) = some (.file id content)) ∨
      ∃ id content, s.entry? (origin ++ rest) = some (.file id content)

/-! ## Transfers -/

variable {rest : Location}

theorem GrowsDirs.housed (h : s.GrowsDirs s') (origin target : Location) : s.Housed origin target s' where
  directory hdir := .inl (h.kept hdir)
  file hfile := .inl ⟨_, _, (h.added hfile).resolve_right (by simp)⟩

/-- A copy at a target apart from its origin has files only from there. -/
theorem Copying.file_of_target {made : Store} (h : made.Copying origin target t) (hg : s.GrowsDirs made)
    (hapart : ¬ origin <+: target) {id : ℕ} {content : Bytes}
    (hfile : t.entry? (target ++ rest) = some (.file id content)) :
    ∃ id content, s.entry? (origin ++ rest) = some (.file id content) := by
  obtain ⟨id', hold⟩ := h.mirrored hapart rest id content hfile
  exact ⟨id', content, (hg.added hold).resolve_right (by simp)⟩

theorem Transfer.housed (hs : s.WellFormed) (hapart : ¬ origin <+: target)
    (h : s.Transfer source origin p target s') : s.Housed origin target s' := by
  cases h with
  | made hmade => exact GrowsDirs.housed hmade.grows origin target
  | broken _ hmade _ _ hcopying =>
    exact ⟨fun hdir ↦ .inl (hcopying.grows.kept (hmade.grows.kept hdir)),
      fun hfile ↦ .inr (hcopying.file_of_target hmade.grows hapart hfile)⟩
  | carried htarget hcan hfree =>
    subst htarget
    constructor
    · intro rest hdir
      exact .inr (.inl ((hcan.entry?_carry_append rest).trans hdir))
    · intro rest id content hfile
      exact .inr ⟨id, content, (hcan.entry?_carry_append rest).symm.trans hfile⟩
  | @copied made t _ horigin hmade hfree hcopying hcopied hremoved =>
    have hfree' := GrowsDirs.none hmade.grows hfree
    have hthere : s.entry? origin ≠ none := by simp [horigin]
    have hnot := not_prefix_of_free hs hthere hfree'
    constructor
    · intro rest hdir
      refine .inr (.inl ((pruned_of_removed hremoved).kept (fun hpre ↦ ?_) (hcopied.directory hdir)))
      exact (List.prefix_or_prefix_of_prefix hpre (List.prefix_append _ _)).elim hapart hnot
    · intro rest id content hfile
      have hcopy : t.entry? (target ++ rest) = some (.file id content) := by
        rcases hremoved with rfl | rfl
        · exact entry?_of_discard hfile
        · exact entry?_of_discard (entry?_of_discard hfile)
      exact .inr (hcopying.file_of_target hmade.grows hapart hcopy)

/-! ## Steps of a merge -/

namespace Housed

/-- A move that only makes directories houses what is housed. -/
theorem grows (h : s.Housed origin target t) (hg : t.GrowsDirs t') : s.Housed origin target t' where
  directory hdir := (h.directory hdir).imp hg.kept (Or.imp_left hg.kept)
  file hfile := h.file ((hg.added hfile).resolve_right (by simp))

section Steps

variable (h : s.Housed origin target t) (hs : s.WellFormed) (hfree : s.LinkFree) (ht : t.WellFormed)
  (hspared : Spared s origin target t) (hapart : ¬ origin <+: target) (hapart' : ¬ target <+: origin)
include h hs hfree ht hspared hapart hapart'

/-- A directory with nothing left in it had nothing in it, if a file stands at its place in the target. -/
theorem barred (hdir : s.entry? (origin ++ rest) = some .dir)
    (hfile : ∃ id content, t.entry? (target ++ rest) = some (.file id content))
    (hempty : ∀ name, t.entry? (origin ++ rest ++ [name]) = none) : s.Barred origin target rest := by
  obtain ⟨id, content, hfile⟩ := hfile
  have hold : ∃ id content, s.entry? (target ++ rest) = some (.file id content) := by
    refine (h.file hfile).resolve_right ?_
    rintro ⟨_, _, hfile'⟩
    simp [hdir] at hfile'
  refine ⟨hold, fun name ↦ ?_⟩
  -- Nothing is below a file, so what was in the directory would still be there.
  have hnone : t.entry? (target ++ (rest ++ [name])) = none := by
    rw [← List.append_assoc]
    exact ht.none_of_append (by simp) (by simp [hfile])
  have hgone : t.entry? (origin ++ (rest ++ [name])) = none := by
    rw [← List.append_assoc, hempty]
  rw [List.append_assoc]
  cases hentry : s.entry? (origin ++ (rest ++ [name])) with
  | none => rfl
  | some entry =>
    exfalso
    cases entry with
    | dir =>
      rcases h.directory hentry with hkept | hmoved | hbarred
      · simp [hgone] at hkept
      · simp [hnone] at hmoved
      · obtain ⟨_, _, hbelow⟩ := hbarred.file
        obtain ⟨_, _, hold⟩ := hold
        have hnot : s.entry? (target ++ rest) ≠ some .dir := by simp [hold]
        have hfree := hs.none_of_append (List.cons_ne_nil name []) hnot
        simp [hbelow] at hfree
    | file id content =>
      have hcontent := contentAt?_eq_some_iff.mpr ⟨id, hentry⟩
      have hnest : origin <+: target ∨ target <+: origin → origin = target := fun hpre ↦
        (hpre.elim hapart hapart').elim
      rcases hspared.preserved hnest _ _ hcontent with hkept | hmoved
      · simp [contentAt?_of_none hgone] at hkept
      · simp [contentAt?_of_none hnone] at hmoved
    | link text => exact hfree _ _ hentry

/-- A name is moved into the target. -/
theorem next (hconfined : s.Confined origin p target t)
    (hchildConfined : t.Confined (origin ++ [name]) source (target ++ [name]) t')
    (hchild : t.Housed (origin ++ [name]) (target ++ [name]) t') : s.Housed origin target t' where
  directory := by
    intro rest hdir
    have hkept {l : Location} (hl : ¬ origin ++ [name] <+: l) (hthere : t.entry? l = some .dir) :
        t'.entry? l = some .dir := hchildConfined.pruned.kept hl hthere
    rcases h.directory hdir with hold | hmoved | hbarred
    · by_cases hbelow : origin ++ [name] <+: origin ++ rest
      · obtain ⟨more, rfl⟩ := (List.prefix_append_right_inj origin).mp hbelow
        rw [← List.append_assoc] at hold ⊢
        rw [← List.append_assoc target]
        rcases hchild.directory hold with hthere | hthere | hbarred
        · exact .inl hthere
        · exact .inr (.inl hthere)
        · refine .inr (.inr ?_)
          refine h.barred hs hfree ht hspared hapart hapart' hdir ?_ fun n ↦ ?_
          · simpa using hbarred.file
          · simpa using hbarred.empty n
      · exact .inl (hkept hbelow hold)
    · refine .inr (.inl (hkept (fun hpre ↦ ?_) hmoved))
      have hpre' : origin <+: target ++ rest := (List.prefix_append _ _).trans hpre
      exact (List.prefix_or_prefix_of_prefix hpre' (List.prefix_append _ _)).elim hapart hapart'
    · exact .inr (.inr hbarred)
  file := by
    intro rest id content hfile
    rcases hchildConfined.added hfile with hold | hbelow | ⟨hdir, -⟩
    · exact h.file hold
    · obtain ⟨more, rfl⟩ := (List.prefix_append_right_inj target).mp hbelow
      rw [← List.append_assoc] at hfile
      rcases hchild.file hfile with ⟨_, _, hold⟩ | ⟨_, _, hold⟩
      · exact h.file (by simpa using hold)
      · right
        rw [List.append_assoc] at hold
        rcases hconfined.added hold with hsource | hpre | ⟨hdir, -⟩
        · exact ⟨_, _, hsource⟩
        · exact ((List.prefix_or_prefix_of_prefix hpre (List.prefix_append _ _)).elim hapart' hapart).elim
        · cases hdir
    · cases hdir

/-- The source is taken away in the end when nothing is left in it. -/
theorem erased {e : Entry} (hempty : t.isEmptyDir origin)
    (htarget : s.entry? target = some e) : s.Housed origin target (t.erase origin) where
  directory := by
    intro rest hrest
    have hkept {l : Location} (hl : ¬ origin <+: l) (hthere : t.entry? l = some .dir) :
        entry? (t.erase origin) l = some .dir := (pruned_erase t origin).kept hl hthere
    have hout : ¬ origin <+: target ++ rest := fun hpre ↦
      (List.prefix_or_prefix_of_prefix hpre (List.prefix_append _ _)).elim hapart hapart'
    by_cases hnil : rest = []
    · subst hnil
      have hstays := hspared.stays (List.prefix_refl _) htarget
      cases e with
      | dir => exact .inr (.inl (hkept hout (by simpa using hstays)))
      | file id content =>
        refine .inr (.inr ?_)
        refine h.barred hs hfree ht hspared hapart hapart' hrest ⟨id, content, by simpa using hstays⟩ ?_
        simpa using isEmptyDir_iff.mp hempty
      | link text => exact absurd htarget (hfree _ _)
    · rcases h.directory hrest with hold | hmoved | hbarred
      · have hnone := ht.none_of_isEmptyDir hempty (List.prefix_append origin rest) (by simpa using hnil)
        simp [hnone] at hold
      · exact .inr (.inl (hkept hout hmoved))
      · exact .inr (.inr hbarred)
  file hfile := h.file (entry?_of_discard hfile)

end Steps

end Housed

end Store

namespace Executor

open Store StoreAction

variable {s s' : Store} {source destination : Path} {origin target : Location} {depth : ℕ}

/-! ## Merges -/

/-- A move onto what is there only makes directories, if it does not merge with it. -/
theorem Moves.growsDirs (h : Mergeable s source destination origin target)
    (hthere : s.entry? target ≠ none)
    (hunmerged : s.isDirectory destination ≠ .ok true ∨ origin = target)
    (hmoves : Moves .merge depth s source destination s') : s.GrowsDirs s' := by
  cases depth with
  | zero =>
    obtain rfl : s' = s := hmoves
    exact .refl _
  | succ depth =>
    cases mergeStep_of_moves h.wellFormed h.lands h.targetLinks hmoves with
    | still => exact .refl _
    | transfer hsource hclear _ _ hmove => exact (h.transfer hsource hclear hmove).growsDirs hthere
    | merged hsource hdirectory hsame hfound =>
      rcases hunmerged with hnot | heq
      · exact absurd hdirectory hnot
      · exact absurd heq (h.distinct hsource hsame hfound).1

/-- A merge into a place that is apart from its source houses the directories of the source. -/
theorem Moves.housed (h : Mergeable s source destination origin target)
    (hplaced : Placed s source destination origin target) (hapart : ¬ origin <+: target)
    (hapart' : ¬ target <+: origin)
    (hstanding : s.exists? (landing s source destination) = .ok true → isRemoved target = false)
    (hmoves : Moves .merge depth s source destination s') : s.Housed origin target s' := by
  induction depth generalizing s s' source destination origin target with
  | zero =>
    obtain rfl : s' = s := hmoves
    exact GrowsDirs.housed (.refl _) origin target
  | succ depth ih =>
    cases mergeStep_of_moves h.wellFormed h.lands h.targetLinks hmoves with
    | still => exact GrowsDirs.housed (.refl _) origin target
    | transfer hthere hclear _ _ hmove =>
      exact (h.transfer hthere hclear hmove).housed h.wellFormed hapart
    | @merged s₁ _ directory names hsource hdirectory hsame hthere hlisted hnames hchildren hlast =>
      obtain ⟨hdistinct, e, hfound⟩ := h.distinct hsource hsame hthere
      have hclean := (exists_eq_true_iff.mp hthere).1
      have hentry : s.entry? target = some e :=
        (sound_of_target h.wellFormed hfound).resolve_right fun hremoved ↦ by
          simp [hstanding hthere] at hremoved
      have hbefore {t : Store} (hsteps : Relation.ReflTransGen
          (fun t t' ↦ ∃ name ∈ names,
            Moves .merge depth t (source.child name) (landing s source destination) t') s t) :
          s.Confined origin (landing s source destination) target t ∧ Spared s origin target t :=
        ⟨h.confined_children hsource hnames (fun h hmoves ↦ hmoves.confined h) hsteps,
          (h.conserved_children hplaced hsource hdistinct hfound hclean hlisted hnames
            (fun h hplaced hmoves ↦ hmoves.conserved h hplaced) hsteps).1⟩
      obtain ⟨hconfined, hspared⟩ := hbefore hchildren
      -- By induction on the names so far; the files that are spared show what was not empty before.
      have hhoused : s.Housed origin target s₁ := by
        clear hlast hconfined hspared
        induction hchildren with
        | refl => exact GrowsDirs.housed (.refl _) _ _
        | @tail t t' hsteps hchild hhoused =>
          obtain ⟨hconfined, hspared⟩ := hbefore hsteps
          obtain ⟨name, hmem, hchild⟩ := hchild
          have hname := h.isName_of_names hnames hmem
          -- Where the target is a file, nothing can be moved onto it.
          by_cases hinto : t.isDirectory (landing s source destination) = .ok true
          · have hmergeable := (h.child_into hsource hconfined hname hinto).2
            have hchildHoused := ih hmergeable
              (h.placed_into hplaced hsource hdistinct hconfined hname hinto)
              (fun hpre ↦ hapart (prefix_of_concat hpre)) (fun hpre ↦ hapart' (prefix_of_concat hpre))
              (fun _ ↦ by simp [hname.ne_empty]) hchild
            exact hhoused.next h.wellFormed hplaced.linkFree hconfined.wellFormed hspared hapart hapart'
              hconfined (hchild.confined hmergeable) hchildHoused
          · have hmergeable := (h.child_onto hsource hconfined hname hinto).2
            have hstays := hspared.stays (List.prefix_refl _) hentry
            exact hhoused.grows (hchild.growsDirs hmergeable (by simp [hstays]) (.inl hinto))
      rcases hlast with rfl | hremove
      · exact hhoused
      · obtain ⟨-, hempty, rfl⟩ := h.erased hsource hconfined hremove
        exact hhoused.erased h.wellFormed hplaced.linkFree hconfined.wellFormed hspared hapart hapart'
          hempty hentry

/-! ## Removed directories -/

/-- What is found in a removed directory is a directory above the start of the path. -/
theorem isDirectory_of_removed {p : Path} (hs : s.WellFormed) (hfree : s.LinkFree)
    (hthere : s.exists? p = .ok true) (hremoved : isRemoved (s.place p)) :
    s.isDirectory p = .ok true ∧ s.place p <+: s.start p := by
  obtain ⟨hclean, l, e, hfound⟩ := exists_eq_true_iff.mp hthere
  obtain rfl : l = s.place p := (hfree.points p).target (hfree.noLinks _).here hfound
  have hnone : s.entry? (s.place p) = none := by
    by_contra hentry
    obtain ⟨entry, hentry⟩ := Option.ne_none_iff_exists'.mp hentry
    simp [hs.not_isRemoved hentry] at hremoved
  obtain ⟨rfl, -⟩ := (sound_of_target hs hfound).resolve_left (by simp [hnone])
  have hleads := (target_eq_ok_iff.mp hfound).2
  exact ⟨isDirectory_eq_true_iff.mpr ⟨hclean, _, hfound⟩,
    (hleads.of_removed hs (standing_start hs p) hnone).1⟩

/-- Where a path is moved to a place that it leads to itself, the two are one inside the other. -/
theorem place_within_extend (w : Path) {names : List String}
    (hnames : ∀ name ∈ names, name ≠ "." ∧ name ≠ "..") :
    s.place w <+: s.place (within (w.extend names) w) ∨
      s.place (within (w.extend names) w) <+: s.place w := by
  have hplace : s.place (w.extend names) = s.place w ++ names :=
    (descend_append _ _ _).trans (descend_of_noDots hnames)
  unfold within
  split
  · next name _ =>
    have hchild : s.place ((w.extend names).child name) = descend (s.place w ++ names) [name] :=
      (descend_append _ _ _).trans (congrArg (descend · [name]) hplace)
    rw [hchild]
    by_cases hdot : name = "."
    · exact .inl (by simp [descend, hdot])
    · by_cases hdotDot : name = ".."
      · by_cases hnil : names = []
        · exact .inr (by simp [descend, hdotDot, hnil, List.dropLast_prefix])
        · exact .inl (by simp [descend, hdotDot, List.dropLast_append_of_ne_nil hnil])
      · exact .inl (by simp [descend, hdot, hdotDot])
  · exact .inl (hplace ▸ List.prefix_append _ _)

/-- The place of a name in a directory is not that of a removed one. -/
theorem not_isRemoved_within {p q : Path} {name : String} (hlast : p.parts.getLast? = some name)
    (hne : name ≠ "") (hdot : name ≠ ".") (hdotDot : name ≠ "..") :
    isRemoved (s.place (within q p)) = false := by
  have hwithin : within q p = q.child name := by simp [within, hlast]
  rw [hwithin, place_child _ hdot hdotDot, isRemoved_concat]
  simpa using hne

/-- A source goes to a removed directory only if one of the operands goes up, or the source is inside or
around that directory. -/
theorem not_isRemoved_landing (w : Path) {source destination : String}
    (hs : s.WellFormed) (hfree : s.LinkFree)
    (hsource : ".." ∉ (Path.ofString source).parts)
    (hdestination : ".." ∉ (Path.ofString destination).parts)
    (hapart : ¬ s.place (Path.resolve source w) <+:
      s.place (landing s (Path.resolve source w) (Path.resolve destination w)))
    (hapart' : ¬ s.place (landing s (Path.resolve source w) (Path.resolve destination w)) <+:
      s.place (Path.resolve source w))
    (hthere : s.exists? (landing s (Path.resolve source w) (Path.resolve destination w)) = .ok true) :
    isRemoved (s.place (landing s (Path.resolve source w) (Path.resolve destination w))) = false := by
  by_contra hremoved
  rw [Bool.not_eq_false] at hremoved
  obtain ⟨hlanding, hstart⟩ := isDirectory_of_removed hs hfree hthere hremoved
  have hdirectory : s.isDirectory (Path.resolve destination w) = .ok true := by
    by_contra hnot
    rw [landing_of_not_directory hnot] at hlanding
    exact hnot hlanding
  rw [landing_of_directory _ hdirectory] at hremoved hstart hapart hapart'
  have hnames {text name : String} (hup : ".." ∉ (Path.ofString text).parts)
      (hname : name ∈ (Path.ofString text).parts) : name ≠ "." ∧ name ≠ ".." :=
    ⟨Path.ne_dot_of_mem_ofString hname, fun heq ↦ hup (heq ▸ hname)⟩
  have hrelative {text : String} (h : (Path.ofString text).isAbsolute = false) :
      Path.resolve text w = w.extend (Path.ofString text).parts := by
    simp [Path.resolve, Path.below, h, Path.extend]
  have habsolute {text : String} (h : (Path.ofString text).isAbsolute) :
      Path.resolve text w = Path.ofString text := by
    simp [Path.resolve, Path.below, h]
  cases hlast : (Path.ofString source).parts.getLast? with
  | some name =>
    have hmem := List.mem_of_getLast? hlast
    have hlast' : (Path.resolve source w).parts.getLast? = some name := by
      cases htop : (Path.ofString source).isAbsolute with
      | true => rw [habsolute htop, hlast]
      | false => simp [hrelative htop, Path.extend, List.getLast?_append, hlast]
    obtain ⟨hdot, hdotDot⟩ := hnames hsource hmem
    have hne := (Path.proper_ofString source name hmem).ne_empty
    rw [not_isRemoved_within hlast' hne hdot hdotDot] at hremoved
    cases hremoved
  | none =>
    have hnil := List.getLast?_eq_none_iff.mp hlast
    cases htop : (Path.ofString source).isAbsolute with
    | true =>
      have hplace : s.place (Path.resolve source w) = [] := by
        rw [habsolute htop, place, Store.start, if_pos htop, hnil]
        rfl
      exact hapart (hplace ▸ List.nil_prefix)
    | false =>
      have hself : Path.resolve source w = w := by simp [hrelative htop, hnil, Path.extend]
      cases htop' : (Path.ofString destination).isAbsolute with
      | true =>
        rw [start_of_anchor s (within_anchor _ _), habsolute htop', Store.start, if_pos htop',
          List.prefix_nil] at hstart
        refine hapart' ?_
        rw [habsolute htop', hstart]
        exact List.nil_prefix
      | false =>
        rw [hself, hrelative htop'] at hapart hapart'
        exact (place_within_extend w fun _ ↦ hnames hdestination).elim hapart hapart'

section Plain

variable (x : Executor) (source destination : String) {r : Run}

/-- A merge into a place that is neither inside nor around its source drops no directory of the source but
an empty one at whose place in the target a file stands. -/
theorem housed_of_merge (hx : x.workingDirectory.Proper) (hplain : Path.hasWildcard source = false)
    (hr : r.store.WellFormed) (hsilent : r.journal.file = none) (hfree : r.store.LinkFree)
    (hsource : ".." ∉ (Path.ofString source).parts)
    (hdestination : ".." ∉ (Path.ofString destination).parts)
    (hstarts : StartsOutside r.store (Path.resolve source x.workingDirectory)
      (Path.resolve destination x.workingDirectory)) :
    let s := r.store
    let s' := ((x.move source destination .merge).run r).2.store
    let origin := s.place (Path.resolve source x.workingDirectory)
    let target := s.place (landing s (Path.resolve source x.workingDirectory)
      (Path.resolve destination x.workingDirectory))
    (origin <+: target ∨ target <+: origin → origin = target) →
      ∀ rest, s.entry? (origin ++ rest) = some .dir →
        s'.entry? (origin ++ rest) = some .dir ∨ s'.entry? (target ++ rest) = some .dir ∨
          (∃ id content, s.entry? (target ++ rest) = some (.file id content)) ∧
            ∀ name, s.entry? (origin ++ rest ++ [name]) = none := by
  intro s s' origin target hapart rest hdir
  have hmoves := moves_of_move x source destination .merge hplain hsilent
  have hmergeable := mergeable_of_linkFree hr hfree (proper_resolve hx source)
    (proper_resolve hx destination) hstarts
  by_cases hsame : origin = target
  · have hthere : s.entry? target ≠ none := by
      rw [← hsame, hr.dir_of_prefix hdir (List.prefix_append _ _)]
      simp
    exact .inl ((hmoves.growsDirs hmergeable hthere (.inr hsame)).kept hdir)
  · have hnot (hpre : origin <+: target) : False := hsame (hapart (.inl hpre))
    have hnot' (hpre : target <+: origin) : False := hsame (hapart (.inr hpre))
    have hplaced : Placed s (Path.resolve source x.workingDirectory)
        (Path.resolve destination x.workingDirectory) origin target :=
      ⟨hfree, rfl, rfl, fun _ hpre _ ↦ (hnot hpre).elim⟩
    have hhoused := hmoves.housed hmergeable hplaced hnot hnot'
      (not_isRemoved_landing x.workingDirectory hr hfree hsource hdestination hnot hnot')
    exact (hhoused.directory hdir).imp_right (Or.imp_right fun hbarred ↦ ⟨hbarred.file, hbarred.empty⟩)

end Plain

/-- A directory and two in it are kept or go to the target, also beside one whose name a file has there.
An empty directory is dropped if a file has its name. -/
theorem housed_of_merge_beside_file :
    let s := ((((((((Store.empty.put ["S"] .dir).put ["S", "a"] .dir).put ["S", "b"] .dir).put
      ["S", "c"] .dir).putFile ["S", "b", "f"] [100]).put ["D"] .dir).put ["D", "S"] .dir).put
      ["D", "S", "b"] .dir).putFile ["D", "S", "c"] [103]
    let empty := ((Store.empty.put ["S"] .dir).put ["D"] .dir).putFile ["D", "S"] [103]
    let after := fun s ↦ ((move ⟨⟨.top, []⟩, none⟩ "S" "D" .merge).run (Run.first s)).2.store
    (∀ rest ∈ [[], ["a"], ["b"]], Store.entry? (after s) (["S"] ++ rest) = some .dir ∨
      Store.entry? (after s) (["D", "S"] ++ rest) = some .dir) ∧
    empty.entry? ["S"] = some .dir ∧ Store.entry? (after empty) ["S"] = none ∧
      Store.entry? (after empty) ["D", "S"] = some (.file 0 [103]) := by
  intro s empty after
  have hs : s.WellFormed := by decide +kernel
  have hfree : s.LinkFree := .of_entries (by decide)
  have hproper : (⟨.top, []⟩ : Path).Proper := by simp [Path.Proper]
  have horigin : s.place (Path.resolve "S" ⟨.top, []⟩) = ["S"] := by decide +kernel
  have htarget : s.place (landing s (Path.resolve "S" ⟨.top, []⟩) (Path.resolve "D" ⟨.top, []⟩)) =
      ["D", "S"] := by decide +kernel
  have hhoused := housed_of_merge ⟨⟨.top, []⟩, none⟩ "S" "D" (r := Run.first s) hproper (by decide) hs rfl
    hfree (by decide) (by decide) (startsOutside_of_isAbsolute rfl _ _ _)
  have hstore : (Run.first s).store = s := rfl
  simp only [hstore, horigin, htarget] at hhoused
  have hdirectories : ∀ rest ∈ [[], ["a"], ["b"]], s.entry? (["S"] ++ rest) = some .dir := by
    decide +kernel
  have hunbarred : ∀ rest ∈ [[], ["a"], ["b"]],
      (s.entry? (["D", "S"] ++ rest)).any Entry.isFile = false := by decide +kernel
  refine ⟨fun rest hrest ↦ ?_, by decide +kernel, by decide +kernel, by decide +kernel⟩
  rcases hhoused (by decide) rest (hdirectories rest hrest) with hold | hmoved | ⟨⟨_, _, hfile⟩, -⟩
  · exact .inl hold
  · exact .inr hmoved
  · have hnot := hunbarred rest hrest
    rw [hfile] at hnot
    cases hnot

end Executor

end DeferredOps
