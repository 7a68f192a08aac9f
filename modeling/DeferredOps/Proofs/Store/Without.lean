import DeferredOps.Proofs.Store.Copy
import DeferredOps.Proofs.Store.Straight

/-!
# Stores without some of their entries

Removals one after another leave what none of them takes. What a removal takes may be named by more
locations than there are entries, so two removals of the same entries leave the same.
-/

namespace DeferredOps

open Action

namespace Store

/-- A well-formed store that has the entries of another but those at some locations. -/
structure Without (s : Store) (gone : Location → Prop) (s' : Store) : Prop where
  wellFormed : s'.WellFormed
  removed {l : Location} : gone l → s'.entry? l = none
  stays {l : Location} : ¬ gone l → s'.entry? l = s.entry? l

variable {s s' s'' : Store} {gone gone' : Location → Prop} {location directory : Location}
  {l : Location} {name expression : String} {entry : Entry} {last : LastLink} {p : Path}

namespace Without

theorem refl (hs : s.WellFormed) : s.Without (fun _ ↦ False) s :=
  ⟨hs, False.elim, fun _ ↦ rfl⟩

/-- What is left was there. -/
theorem of_entry (h : s.Without gone s') (hentry : s'.entry? location = some entry) :
    ¬ gone location ∧ s.entry? location = some entry := by
  have hstays : ¬ gone location := by
    intro hgone
    cases (h.removed hgone).symm.trans hentry
  exact ⟨hstays, h.stays hstays ▸ hentry⟩

theorem linkFree (h : s.Without gone s') (hfree : s.LinkFree) : s'.LinkFree :=
  fun l text hentry ↦ hfree l text (h.of_entry hentry).2

/-- Only the locations of entries matter. -/
theorem congr (h : s.Without gone s')
    (hgone : ∀ {l e}, s.entry? l = some e → (gone l ↔ gone' l)) : s.Without gone' s' := by
  have hnone {l : Location} (hl : s.entry? l = none) : s'.entry? l = none := by
    by_cases hg : gone l
    · exact h.removed hg
    · rw [h.stays hg, hl]
  refine ⟨h.wellFormed, fun {l} hl ↦ ?_, fun {l} hl ↦ ?_⟩
  all_goals cases hentry : s.entry? l
  · exact hnone hentry
  · exact h.removed ((hgone hentry).mpr hl)
  · exact hnone hentry
  · rw [h.stays (mt (hgone hentry).mp hl), hentry]

theorem trans (h : s.Without gone s') (h' : s'.Without gone' s'') :
    s.Without (fun l ↦ gone l ∨ gone' l) s'' := by
  refine ⟨h'.wellFormed, fun {l} hl ↦ ?_, fun hl ↦ ?_⟩
  · by_cases hgone' : gone' l
    · exact h'.removed hgone'
    · rw [h'.stays hgone', h.removed (hl.resolve_right hgone')]
  · rw [h'.stays (mt .inr hl), h.stays (mt .inl hl)]

end Without

/-! ## Single removals -/

/-- A name is removed. -/
theorem without_erase (hs : s.WellFormed) (hne : location ≠ [])
    (hempty : ∀ name, s.entry? (location ++ [name]) = none) :
    s.Without (· = location) (s.erase location) := by
  refine ⟨hs.erase hempty, fun hl ↦ ?_, fun hl ↦ ?_⟩
  · rw [entry?_erase hne, if_pos hl]
  · rw [entry?_erase hne, if_neg hl]

/-- A file is removed. -/
theorem without_erase_file (hs : s.WellFormed) {id : ℕ} {content : Bytes}
    (hfile : s.entry? location = some (.file id content)) :
    s.Without (· = location) (s.erase location) := by
  refine without_erase hs ?_ fun name ↦ ?_
  · rintro rfl
    cases hfile
  · cases hbelow : s.entry? (location ++ [name]) with
    | none => rfl
    | some entry => cases hfile.symm.trans (hs.parent hbelow)

theorem without_clear (hs : s.WellFormed) (location : Location) :
    s.Without (fun l ↦ location <+: l ∧ l ≠ location) (s.clear location) := by
  refine ⟨hs.clear, fun hl ↦ ?_, fun hl ↦ ?_⟩
  · rw [entry?_clear, if_pos (isStrictlyBelow_iff.mpr hl)]
  · rw [entry?_clear, if_neg (mt isStrictlyBelow_iff.mp hl)]

/-- An emptied directory is removed. -/
theorem removeDirectory_of_straight (hs : s.WellFormed) (hp : p.Straight)
    (hshort : p.text.utf8ByteSize < pathLimit) (hne : p.parts ≠ [])
    (hdir : s.entry? p.parts = some .dir)
    (hempty : ∀ name, s.entry? (p.parts ++ [name]) = none) :
    s.removeDirectory p = .ok (s.erase p.parts) := by
  obtain ⟨directory, name, hparts⟩ := (List.eq_nil_or_concat p.parts).resolve_left hne
  rw [List.concat_eq_append] at hparts
  have hslot := slot_of_straight hs hp hshort hparts hdir
  rw [hparts] at hdir hempty ⊢
  unfold removeDirectory
  simp [bind, Except.bind, pure, Except.pure, hslot, hdir, isEmptyDir_iff.mpr hempty]

/-- The path of the top directory has no last name. -/
theorem removeDirectory_of_top (hp : p.isAbsolute) (hshort : p.text.utf8ByteSize < pathLimit)
    (hparts : p.parts = []) : s.removeDirectory p = .error .busy := by
  have hanchor : p.anchor ≠ .here := by
    simpa [Path.isAbsolute] using hp
  unfold removeDirectory slot startChecked
  simp [bind, Except.bind, Nat.not_le.mpr hshort, hparts, walk_nil, Target.directory, hanchor,
    pure, Except.pure]

/-! ## Matching files -/

/-- A test that gives an answer for each element filters them by it. -/
theorem filterM_of_ok {α : Type} {test : α → Except Failure Bool} {keep : α → Bool}
    {elements : List α} (h : ∀ a ∈ elements, test a = .ok (keep a)) :
    elements.filterM test = .ok (elements.filter keep) := by
  have haux (done : List α) :
      elements.filterAuxM test done = .ok ((elements.filter keep).reverse ++ done) := by
    induction elements generalizing done with
    | nil => rfl
    | cons a rest ih =>
      unfold List.filterAuxM
      rw [h a List.mem_cons_self]
      change rest.filterAuxM test _ = _
      rw [ih fun b hb ↦ h b (List.mem_cons_of_mem _ hb)]
      cases hkeep : keep a <;> simp [hkeep]
  unfold List.filterM
  rw [haux]
  simp [bind, Except.bind, pure, Except.pure]

/-- Whether a name in a directory is that of a file. -/
def holdsFile (s : Store) (directory : Location) (name : String) : Bool :=
  (s.entry? (directory ++ [name])).any Entry.isFile

theorem holdsFile_iff : s.holdsFile directory name ↔
    ∃ id content, s.entry? (directory ++ [name]) = some (.file id content) := by
  unfold holdsFile
  cases s.entry? (directory ++ [name]) with
  | none => simp
  | some entry => cases entry <;> simp [Entry.isFile]

/-- In a directory without symbolic links the names that match are those of the files, sorted. -/
theorem matchingNames_eq {p : Path}
    (hfree : ∀ directory, s.listed p = .ok directory → s.NoLinks directory) (expression : String) :
    s.matchingNames p expression = (s.listed p).map fun directory ↦ sortNames
      (((s.names directory).filter (s.holdsFile directory)).filter
        (NamePattern.matchesName expression)) := by
  have htest (directory : Location) (hlinks : s.NoLinks directory) (name : String) :
      s.isFileName p directory name = .ok (s.holdsFile directory name) := by
    unfold isFileName holdsFile
    cases hentry : s.entry? (directory ++ [name]) with
    | none => simp
    | some entry =>
      cases entry with
      | link text => exact absurd hentry ((hlinks.child name).here text)
      | dir => simp [Entry.isFile]
      | file id content => simp [Entry.isFile]
  unfold matchingNames
  cases hlisted : s.listed p with
  | error => rfl
  | ok directory =>
    simp only [bind, Except.bind,
      filterM_of_ok fun name _ ↦ htest directory (hfree directory hlisted) name]
    rfl

/-- In a store without symbolic links the files that match are the files with such a name, each of
them once. -/
theorem matchingFiles_of_listed (hs : s.WellFormed) (hfree : s.LinkFree)
    (hlisted : s.listed p = .ok directory) (expression : String) :
    ∃ files, s.matchingFiles p expression = .ok files ∧ files.Nodup ∧ ∀ file, file ∈ files ↔
      ∃ name id content, file = p.child name ∧
        s.entry? (directory ++ [name]) = some (.file id content) ∧
          NamePattern.matchesName expression name := by
  let kept := ((s.names directory).filter (s.holdsFile directory)).filter
    (NamePattern.matchesName expression)
  have hnodup : kept.Nodup := ((nodup_names hs directory).filter _).filter _
  refine ⟨(sortNames kept).map p.child, ?_, ?_, fun file ↦ ?_⟩
  · rw [matchingFiles, matchingNames_eq fun _ _ ↦ hfree.noLinks _, hlisted]
    rfl
  · refine ((List.mergeSort_perm kept _).nodup_iff.mpr hnodup).map fun a b hab ↦ ?_
    simpa [Path.child] using hab
  · simp only [List.mem_map, sortNames, List.mem_mergeSort, kept, List.mem_filter, mem_names,
      holdsFile_iff]
    constructor
    · rintro ⟨name, ⟨⟨-, id, content, hfile⟩, hmatches⟩, rfl⟩
      exact ⟨name, id, content, rfl, hfile, hmatches⟩
    · rintro ⟨name, id, content, rfl, hfile, hmatches⟩
      exact ⟨name, ⟨⟨by simp [hfile], id, content, hfile⟩, hmatches⟩, rfl⟩

/-! ## What a path covers and what an expression matches -/

/-- A location is at or below the one that a path leads to. The top directory is never meant. -/
def Covers (s : Store) (p : Path) (l : Location) : Prop :=
  ∃ location entry, s.entryAt .kept p = .ok (some (location, entry)) ∧ location <+: l ∧ l ≠ []

theorem covers_iff_of_found {p : Path} {location l : Location} {entry : Entry}
    (h : s.entryAt .kept p = .ok (some (location, entry))) : s.Covers p l ↔ location <+: l ∧ l ≠ [] := by
  constructor
  · rintro ⟨_, _, hother, hbelow⟩
    cases h.symm.trans hother
    exact hbelow
  · exact fun hbelow ↦ ⟨location, entry, h, hbelow⟩

/-- Nothing is below a file. -/
theorem eq_iff_below_file {id : ℕ} {content : Bytes} {location l : Location} {e : Entry}
    (hs : s.WellFormed) (hfile : s.entry? location = some (.file id content))
    (hl : s.entry? l = some e) : l = location ↔ location <+: l ∧ l ≠ [] := by
  constructor
  · rintro rfl
    refine ⟨List.prefix_refl _, ?_⟩
    rintro rfl
    cases hfile
  · rintro ⟨⟨rest, rfl⟩, -⟩
    by_contra hrest
    have hrest : rest ≠ [] := by simpa using hrest
    cases hfile.symm.trans (hs.dir_of_append hrest hl)

/-- A location is that of a file directly in a directory, with a name that matches an expression. -/
def Matches (s : Store) (p : Path) (expression : String) (l : Location) : Prop :=
  ∃ directory name id content, s.listed p = .ok directory ∧ l = directory ++ [name] ∧
    s.entry? l = some (.file id content) ∧ NamePattern.matchesName expression name

theorem entryAt_straight_iff (hs : s.WellFormed) (hfree : s.LinkFree) (hp : p.Straight) :
    s.entryAt last p = .ok (some (location, entry)) ↔ p.hasNul = false ∧
      p.text.utf8ByteSize < pathLimit ∧ location = p.parts ∧ s.entry? location = some entry := by
  rw [entryAt_eq_some_iff, target_straight_iff hs (hfree.noLinksTo _) hp]

theorem listed_straight_iff (hs : s.WellFormed) (hfree : s.LinkFree) (hp : p.Straight) :
    s.listed p = .ok directory ↔ p.hasNul = false ∧ p.text.utf8ByteSize < pathLimit ∧
      directory = p.parts ∧ s.entry? directory = some .dir := by
  rw [listed_eq_ok_iff, target_straight_iff hs (hfree.noLinksTo _) hp]

/-- The way to an entry that is left is left. -/
theorem covers_of_without (hs : s.WellFormed) (hfree : s.LinkFree) (hp : p.Straight)
    (h : s.Without gone s') (hentry : s'.entry? l = some entry) :
    s'.Covers p l ↔ s.Covers p l := by
  have hs' := h.wellFormed
  have hfree' := h.linkFree hfree
  constructor
  · rintro ⟨location, found, hfound, hbelow⟩
    obtain ⟨hnul, hshort, hlocation, hthere⟩ := (entryAt_straight_iff hs' hfree' hp).mp hfound
    exact ⟨location, found, (entryAt_straight_iff hs hfree hp).mpr
      ⟨hnul, hshort, hlocation, (h.of_entry hthere).2⟩, hbelow⟩
  · rintro ⟨location, found, hfound, ⟨rest, rfl⟩, hne⟩
    obtain ⟨hnul, hshort, hlocation, -⟩ := (entryAt_straight_iff hs hfree hp).mp hfound
    obtain ⟨left, hleft⟩ : ∃ left, s'.entry? location = some left := by
      by_cases hrest : rest = []
      · exact ⟨entry, by simpa [hrest] using hentry⟩
      · exact ⟨.dir, hs'.dir_of_append hrest hentry⟩
    exact ⟨location, left, (entryAt_straight_iff hs' hfree' hp).mpr
      ⟨hnul, hshort, hlocation, hleft⟩, List.prefix_append _ _, hne⟩

theorem matches_of_without (hs : s.WellFormed) (hfree : s.LinkFree) (hp : p.Straight)
    (h : s.Without gone s') (hentry : s'.entry? l = some entry) :
    s'.Matches p expression l ↔ s.Matches p expression l := by
  have hs' := h.wellFormed
  have hfree' := h.linkFree hfree
  have hold := (h.of_entry hentry).2
  constructor
  · rintro ⟨directory, name, id, content, hlisted, rfl, hfile, hmatches⟩
    obtain ⟨hnul, hshort, hdirectory, hdir⟩ := (listed_straight_iff hs' hfree' hp).mp hlisted
    exact ⟨directory, name, id, content, (listed_straight_iff hs hfree hp).mpr
      ⟨hnul, hshort, hdirectory, (h.of_entry hdir).2⟩, rfl, (h.of_entry hfile).2, hmatches⟩
  · rintro ⟨directory, name, id, content, hlisted, rfl, hfile, hmatches⟩
    obtain ⟨hnul, hshort, hdirectory, -⟩ := (listed_straight_iff hs hfree hp).mp hlisted
    rw [hfile] at hold
    cases hold
    exact ⟨directory, name, id, content, (listed_straight_iff hs' hfree' hp).mpr
      ⟨hnul, hshort, hdirectory, hs'.parent hentry⟩, rfl, hentry, hmatches⟩

end Store

/-! ## Directories with all that is in them -/

namespace StoreAction

variable {s : Store} {p : Path}

/-- The recursive removal of a directory takes all that is in it, and the directory unless it is the
top. -/
theorem ensures_removeTree_straight (hs : s.WellFormed) (hfree : s.LinkFree) (hp : p.Straight)
    (hnul : p.hasNul = false) (hshort : p.text.utf8ByteSize < Store.pathLimit)
    (hdir : s.entry? p.parts = some .dir) :
    Ensures (· = s) (removeTree p) (fun _ ↦ s.Without fun l ↦ p.parts <+: l ∧ l ≠ [])
      (fun f s' ↦ f.isSystem ∧ s.Without (fun l ↦ p.parts <+: l ∧ l ≠ []) s') := by
  have htarget : s.target .kept p = .ok (.found p.parts .dir) :=
    (Store.target_straight_iff hs (hfree.noLinksTo _) hp).mpr ⟨hshort, rfl, hdir⟩
  have hcleared := Store.without_clear hs p.parts
  have hremains : Store.entry? (s.clear p.parts) p.parts = some .dir :=
    (hcleared.stays fun h ↦ h.2 rfl).trans hdir
  have hempty (name : String) : Store.entry? (s.clear p.parts) (p.parts ++ [name]) = none :=
    hcleared.removed ⟨List.prefix_append _ _, by simp⟩
  rintro _ rfl
  unfold removeTree
  simp only [hnul, Bool.false_eq_true, if_false, run_bind, run_get, htarget, run_modify,
    removeDirectory, run_change]
  by_cases hparts : p.parts = []
  · rw [Store.removeDirectory_of_top hp.isAbsolute hshort hparts]
    refine ⟨rfl, hcleared.congr fun _ ↦ ?_⟩
    rw [hparts]
  · rw [Store.removeDirectory_of_straight hcleared.wellFormed hp hshort hparts hremains hempty]
    refine (hcleared.trans (Store.without_erase hcleared.wellFormed hparts hempty)).congr
      fun {l _} _ ↦ ?_
    constructor
    · rintro (⟨hbelow, hne⟩ | rfl)
      · refine ⟨hbelow, ?_⟩
        rintro rfl
        exact hne (List.prefix_nil.mp hbelow).symm
      · exact ⟨List.prefix_refl _, hparts⟩
    · rintro ⟨hbelow, -⟩
      exact (em (l = p.parts)).symm.imp (fun hne ↦ ⟨hbelow, hne⟩) fun h ↦ h

end StoreAction

end DeferredOps
