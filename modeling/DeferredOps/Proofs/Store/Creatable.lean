import DeferredOps.Proofs.Store.Directories
import DeferredOps.Proofs.Store.Mirroring
import DeferredOps.Proofs.Store.Parents

/-!
# Directories that can be made

A path can be made a directory if its names lead to one and go on from there with legal names, and if
nothing but directories stands on the way. Then it is one in the end, with the directories on the way,
and the store is the same everywhere else. A path that leads to a directory is the case in which no
name is left.
-/

namespace DeferredOps

open Action

namespace Store

/-- The names of a path lead to a directory, and what is missing after it can be made. -/
structure Creatable (s : Store) (p : Path) (front names : List String) (directory : Location) :
    Prop where
  clean : p.hasNul = false
  short : p.text.utf8ByteSize < pathLimit
  parts : p.parts = front ++ names
  leads : s.Leads .followed linkLimit (s.start p) front (.found directory .dir)
  there : s.entry? directory = some .dir
  isName : ∀ name ∈ names, IsName name
  way {l : Location} (h : l <+: directory ++ names) : s.entry? l = none ∨ s.entry? l = some .dir

variable {s : Store} {last : LastLink} {p : Path} {links : ℕ} {directory middle : Location}
  {front back names : List String} {name : String}

/-- Names that lead to a directory can be skipped. -/
theorem Leads.walk_append (h : s.Leads .followed links directory front (.found middle .dir))
    (hback : back ≠ []) :
    ∃ k, s.walk last links directory (front ++ back) = s.walk last k middle back := by
  generalize hmode : LastLink.followed = mode at h
  generalize ht : Target.found middle .dir = t at h
  induction h with
  | done =>
    cases ht
    exact ⟨_, rfl⟩
  | dot _ ih =>
    obtain ⟨k, hk⟩ := ih hmode ht
    exact ⟨k, by rw [List.cons_append, walk_dot, hk]⟩
  | dotDot _ ih =>
    obtain ⟨k, hk⟩ := ih hmode ht
    exact ⟨k, by rw [List.cons_append, walk_dotDot, hk]⟩
  | absent => cases ht
  | enter hname hentry _ ih =>
    obtain ⟨k, hk⟩ := ih hmode ht
    exact ⟨k, by rw [List.cons_append, hname.walk_cons, hentry]; exact hk⟩
  | file => cases ht
  | kept => cases ht
  | @follow _ _ _ _ rest text _ hname hentry _ _ _ ih =>
    obtain ⟨k, hk⟩ := ih hmode ht
    refine ⟨k, ?_⟩
    have hrest : (rest ++ back).isEmpty = false := by simp [hback]
    rw [List.cons_append, hname.walk_cons, hentry]
    simp only [hrest, Bool.false_and, Bool.false_eq_true, if_false]
    rw [← List.append_assoc]
    exact hk

/-- Legal names that go on over directories to nothing end with a missing entry. -/
theorem walk_of_missing (hs : s.WellFormed) (hdirectory : s.entry? directory = some .dir)
    (hnames : ∀ name ∈ names, IsName name)
    (hway : ∀ l, l <+: directory ++ names → s.entry? l = none ∨ s.entry? l = some .dir)
    (hnone : s.entry? (directory ++ names) = none) :
    (s.walk last links directory names).bind Target.directory = .error .noEntry := by
  induction names generalizing directory with
  | nil =>
    rw [List.append_nil] at hnone
    cases hdirectory.symm.trans hnone
  | cons name rest ih =>
    have hname := hs.lookedUp hdirectory (hnames name List.mem_cons_self)
    rw [List.append_cons] at hnone hway
    rw [hname.walk_cons]
    rcases hway _ (List.prefix_append _ rest) with hentry | hentry <;> rw [hentry]
    · dsimp only
      split <;> rfl
    · exact ih hentry (fun n hn ↦ hnames n (List.mem_cons_of_mem _ hn)) hway hnone

/-- A way that is paved over nothing but directories only adds some. -/
theorem Paves.grows {location : Location} {s' : Store} (h : s.Paves location s')
    (hway : ∀ l, l <+: location → s.entry? l = none ∨ s.entry? l = some .dir) : s.GrowsDirs s' where
  kept {l e} hl := by
    rw [h.entry]
    split
    · next hpre => exact ((hway l hpre).resolve_left (by simp [hl])).symm.trans hl
    · exact hl
  added {l e} hl := by
    rw [h.entry] at hl
    split at hl
    · exact .inr (Option.some.inj hl).symm
    · exact .inl hl
  current := h.current

namespace Creatable

theorem target (h : s.Creatable p front names directory) (hs : s.WellFormed)
    (hdir : s.entry? (directory ++ names) = some .dir) :
    s.target .followed p = .ok (.found (directory ++ names) .dir) := by
  refine target_eq_ok_iff.mpr ⟨h.short, ?_⟩
  rw [h.parts]
  by_cases hnames : names = []
  · simpa [hnames] using h.leads
  · exact h.leads.join (leads_of_entry hs h.there hdir rfl) hnames

theorem parent (h : s.Creatable p front (names ++ [name]) directory) :
    s.Creatable p.parent front names directory where
  clean := by
    have hclean := h.clean
    rw [Path.hasNul, List.any_eq_false] at hclean ⊢
    exact fun n hn ↦ hclean n (List.mem_of_mem_dropLast hn)
  short := short_parent h.short
  parts := by rw [Path.parent, h.parts, ← List.append_assoc, List.dropLast_concat]
  leads := h.leads
  there := h.there
  isName n hn := h.isName n (List.mem_append_left _ hn)
  way hl := h.way (hl.trans ⟨[name], by simp⟩)

theorem slot (h : s.Creatable p front (names ++ [name]) directory) (hs : s.WellFormed)
    (hdir : s.entry? (directory ++ names) = some .dir) :
    s.slot p = .ok (.name (directory ++ names) name) := by
  obtain ⟨-, hparent⟩ := target_eq_ok_iff.mp (h.parent.target hs hdir)
  have hparts : p.parts = (front ++ names) ++ [name] := by rw [h.parts, List.append_assoc]
  refine slot_eq_name_iff.mpr ⟨h.short, front ++ names, hparts, ?_,
    hs.lookedUp hdir (h.isName name (by simp))⟩
  rwa [h.parent.parts] at hparent

/-- What can be made can be made still when directories on the way have been. -/
theorem of_grows {s' : Store} (h : s.Creatable p front names directory) (hgrows : s.GrowsDirs s') :
    s'.Creatable p front names directory := by
  refine { h with leads := ?_, there := hgrows.kept h.there, way := fun {l} hl ↦ ?_ }
  · rw [hgrows.start]
    exact hgrows.leads h.leads
  · cases hentry : s'.entry? l with
    | none => exact .inl rfl
    | some entry =>
      rcases hgrows.added hentry with hold | rfl
      · exact .inr (((h.way hl).resolve_left (by simp [hold])).symm.trans hold).symm
      · exact .inr rfl

/-- A directory is not made in one that is missing. -/
theorem makeDirectory_of_missing (h : s.Creatable p front (names ++ [name]) directory)
    (hs : s.WellFormed) (hnone : s.entry? (directory ++ names) = none) :
    s.makeDirectory p = .error .noEntry := by
  have hparts : p.parts.dropLast = front ++ names := h.parent.parts
  have hnames : names ≠ [] := by
    rintro rfl
    rw [List.append_nil] at hnone
    cases h.there.symm.trans hnone
  obtain ⟨k, hskip⟩ : ∃ k, s.walk .followed linkLimit (s.start p) (front ++ names) =
      s.walk .followed k directory names := h.leads.walk_append hnames
  have hmissing : (s.walk .followed k directory names).bind Target.directory = .error .noEntry :=
    walk_of_missing hs h.there h.parent.isName (fun _ ↦ h.parent.way) hnone
  have hslot : s.slot p = .error .noEntry := by
    unfold Store.slot startChecked
    rw [if_neg (Nat.not_le_of_lt h.short), hparts]
    simp only [bind, Except.bind, hskip] at hmissing ⊢
    cases hwalk : s.walk .followed k directory names with
    | error e => simpa [hwalk] using hmissing
    | ok t =>
      rw [hwalk] at hmissing
      simp only at hmissing ⊢
      rw [hmissing]
  rw [Store.makeDirectory, create, hslot]
  rfl

end Creatable

end Store

namespace StoreAction

open Store

variable {s s' : Store} {p : Path} {location directory : Location} {front names : List String}

/-- A directory that is there is kept. -/
theorem run_makeDirectoryAndParents_of_there
    (h : s.target .followed p = .ok (.found location .dir)) (hclean : p.hasNul = false) (parents : ℕ) :
    (makeDirectoryAndParents p parents).run s = (.ok (), s) := by
  have hmake : (makeDirectory p).run s = (.error (.ofPath .fileExists p), s) := by
    rw [run_makeDirectory, hclean, Store.makeDirectory, create_of_target h]
    rfl
  have hkeep : (makeDirectoryAndParents.keepDirectory p (.ofPath .fileExists p)).run s = (.ok (), s) := by
    have hthere : s.isDirectory p = .ok true := isDirectory_eq_true_iff.mpr ⟨hclean, location, h⟩
    unfold makeDirectoryAndParents.keepDirectory
    rw [if_neg (by simp [Failure.ofPath, Failure.isSystem]), run_bind, run_ask, hthere]
    rfl
  cases parents with
  | zero =>
    unfold makeDirectoryAndParents makeDirectoryAndParents.makeUnlessThere
    rw [run_tryCatch, hmake]
    exact hkeep
  | succ parents =>
    unfold makeDirectoryAndParents
    rw [run_tryCatch, hmake]
    exact hkeep

/-- A directory that is allowed to be there is kept. -/
theorem run_makeDirectories_of_there (h : s.target .followed p = .ok (.found location .dir))
    (hclean : p.hasNul = false) : (makeDirectories true p).run s = (.ok (), s) := by
  have hthere : s.isDirectory p = .ok true := isDirectory_eq_true_iff.mpr ⟨hclean, location, h⟩
  have hlast : (makeDirectoriesFrom.makeLast true p).run s = (.ok (), s) := by
    have hmake : (makeDirectory p).run s = (.error (.ofPath .fileExists p), s) := by
      rw [run_makeDirectory, hclean, Store.makeDirectory, create_of_target h]
      rfl
    unfold makeDirectoriesFrom.makeLast
    rw [run_tryCatch, hmake]
    simp [Failure.ofPath, Failure.isSystem, run_bind, hthere, cautious]
  have hparent : s.exists? p.parent = .ok true := by
    obtain ⟨hparentClean, middle, hfound⟩ :=
      isDirectory_eq_true_iff.mp (isDirectory_parent hthere)
    simp [Store.exists?, entryAt_eq_some_iff.mpr ⟨hparentClean, hfound⟩, Except.map, answers]
  unfold makeDirectories
  cases p.parts.length with
  | zero => exact hlast
  | succ parents =>
    unfold makeDirectoriesFrom
    rw [run_bind, run_get]
    simp [hparent, cautious, hlast]

/-- A directory whose parent is there is made. -/
theorem run_makeDirectoryAndParents_of_made (h : s.makeDirectory p = .ok s')
    (hclean : p.hasNul = false) (parents : ℕ) :
    (makeDirectoryAndParents p parents).run s = (.ok (), s') := by
  have hmake : (makeDirectory p).run s = (.ok (), s') := by
    rw [run_makeDirectory, hclean, h]
    rfl
  cases parents with
  | zero =>
    unfold makeDirectoryAndParents makeDirectoryAndParents.makeUnlessThere
    rw [run_tryCatch, hmake]
  | succ parents =>
    unfold makeDirectoryAndParents
    rw [run_tryCatch, hmake]

/-- A directory whose parent is missing is made after its parent. -/
theorem run_makeDirectoryAndParents_of_missing {parents : ℕ}
    (h : s.makeDirectory p = .error .noEntry) (hclean : p.hasNul = false) (hne : p.parts ≠ [])
    (hparent : (makeDirectoryAndParents p.parent parents).run s = (.ok (), s')) :
    (makeDirectoryAndParents p (parents + 1)).run s =
      (makeDirectoryAndParents.makeUnlessThere p).run s' := by
  have hmake : (makeDirectory p).run s = (.error (.ofPath .noEntry p), s) := by
    rw [run_makeDirectory, hclean, h]
    rfl
  rw [makeDirectoryAndParents, run_tryCatch, hmake]
  dsimp only [Failure.ofPath]
  rw [if_neg (by simpa using hne), run_bind, hparent]

/-- A last name is made in a directory that is there. -/
theorem exists_run_makeDirectory_last {name : String} (hs : s.WellFormed)
    (h : s.Creatable p front (names ++ [name]) directory)
    (hdir : s.entry? (directory ++ names) = some .dir)
    (hnone : s.entry? (directory ++ names ++ [name]) = none) (parents : ℕ) :
    ∃ s', (makeDirectoryAndParents p parents).run s = (.ok (), s') ∧
      s.Paves (directory ++ names ++ [name]) s' := by
  have hmake : s.makeDirectory p = .ok (s.put (directory ++ names ++ [name]) .dir) :=
    create_eq_ok_iff.mpr ⟨_, _, h.slot hs hdir, hnone, rfl⟩
  exact ⟨_, run_makeDirectoryAndParents_of_made hmake h.clean parents,
    paves_put hs hdir (h.isName name (by simp)) hnone⟩

/-- What is missing is made, name by name. -/
theorem exists_run_makeDirectoryAndParents {parents : ℕ}
    (h : s.Creatable p front names directory) (hs : s.WellFormed) (hparents : names.length ≤ parents) :
    ∃ s', (makeDirectoryAndParents p parents).run s = (.ok (), s') ∧
      s.Paves (directory ++ names) s' := by
  induction names using List.reverseRecOn generalizing p parents with
  | nil =>
    have hdir : s.entry? (directory ++ []) = some .dir := by simpa using h.there
    exact ⟨s, run_makeDirectoryAndParents_of_there (h.target hs hdir) h.clean parents,
      paves_of_dir hs hdir⟩
  | append_singleton names name ih =>
    have hlocation : directory ++ (names ++ [name]) = directory ++ names ++ [name] := by simp
    rw [hlocation]
    rcases h.parent.way (List.prefix_refl _) with hnone | hdir
    · obtain ⟨parents, rfl⟩ : ∃ n, parents = n + 1 := by
        cases parents with
        | zero => simp at hparents
        | succ n => exact ⟨n, rfl⟩
      obtain ⟨s₁, hrun, hpaves⟩ := @ih p.parent parents h.parent (by simpa using hparents)
      have hvacant : s.entry? (directory ++ names ++ [name]) = none :=
        hs.none_of_append (by simp) (by simp [hnone])
      have hcreatable : s₁.Creatable p front (names ++ [name]) directory :=
        h.of_grows (hpaves.grows fun _ ↦ h.parent.way)
      have hdir₁ : s₁.entry? (directory ++ names) = some .dir := by
        rw [hpaves.entry, if_pos (List.prefix_refl _)]
      have hnone₁ : s₁.entry? (directory ++ names ++ [name]) = none := by
        rw [hpaves.entry, if_neg not_concat_prefix, hvacant]
      obtain ⟨s', hlast, hpaves'⟩ :=
        exists_run_makeDirectory_last hpaves.wellFormed hcreatable hdir₁ hnone₁ 0
      refine ⟨s', ?_, hpaves.trans hpaves'⟩
      rw [run_makeDirectoryAndParents_of_missing (h.makeDirectory_of_missing hs hnone) h.clean
        (by simp [h.parts]) hrun]
      exact hlast
    · rcases h.way (List.prefix_refl _) with hvacant | hthere
      · exact exists_run_makeDirectory_last hs h hdir (by simpa using hvacant) parents
      · have hthere' : s.entry? (directory ++ names ++ [name]) = some .dir := by simpa using hthere
        exact ⟨s, run_makeDirectoryAndParents_of_there (h.target hs hthere) h.clean parents,
          paves_of_dir hs hthere'⟩

/-- A directory that can be made is there in the end, with those on the way to it. -/
theorem exists_run_ensureDirectory (h : s.Creatable p front names directory) (hs : s.WellFormed)
    (hfree : s.LinkFree) :
    ∃ s', (ensureDirectory p).run s = (.ok (), s') ∧ s.Paved (directory ++ names) s' :=
  (exists_run_makeDirectoryAndParents h hs (by simp [h.parts])).imp fun _ hmade ↦
    hmade.imp_right fun hpaves ↦ hpaves.paved hfree

end StoreAction

end DeferredOps
