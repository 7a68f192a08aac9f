import DeferredOps.LogFolder
import DeferredOps.Proofs.NamePattern
import DeferredOps.Proofs.Path.Length
import DeferredOps.Proofs.Run
import DeferredOps.Proofs.Store.Clearing

/-!
# Opening a log

Before a log is opened its folder is made, and old log files are removed. In a store without symbolic
links nothing but log files goes or comes, and no directories are made but those on the way of the
folder's path.
-/

namespace DeferredOps

open Action

namespace Store

/-- The location of a log file, by its name. -/
def IsLogPlace (l : Location) : Prop :=
  ∃ directory name, l = directory ++ [name] ∧
    NamePattern.matchesName LogFolder.expression name

/-- Nothing has changed but that log files have come or gone, and that directories have been made at
some of the given locations. -/
structure Prepared (made : Location → Prop) (s s' : Store) : Prop where
  wellFormed : s'.WellFormed
  linkFree : s'.LinkFree
  current : s'.current = s.current
  entries l : s'.entry? l = s.entry? l ∨ IsLogPlace l ∧ s.entry? l ≠ some .dir ∨
    s.entry? l = none ∧ s'.entry? l = some .dir ∧ made l

variable {made : Location → Prop} {s s' s'' : Store} {p : Path} {directory : Location} {name : String}

namespace Prepared

theorem refl (hs : s.WellFormed) (hfree : s.LinkFree) : Prepared made s s :=
  ⟨hs, hfree, rfl, fun _ ↦ .inl rfl⟩

theorem mono {made' : Location → Prop} (h : Prepared made s s') (hmade : ∀ l, made l → made' l) :
    Prepared made' s s' :=
  ⟨h.wellFormed, h.linkFree, h.current, fun l ↦
    (h.entries l).imp_right (.imp_right fun ⟨hnone, hdir, hl⟩ ↦ ⟨hnone, hdir, hmade l hl⟩)⟩

theorem trans (h : Prepared made s s') (h' : Prepared made s' s'') : Prepared made s s'' where
  wellFormed := h'.wellFormed
  linkFree := h'.linkFree
  current := h'.current.trans h.current
  entries l := by
    rcases h.entries l with heq | hlog | ⟨hnone, hdir, hl⟩
    · rw [← heq]
      exact h'.entries l
    · exact .inr (.inl hlog)
    · rcases h'.entries l with heq | ⟨-, hother⟩ | ⟨hfree, -, -⟩
      · exact .inr (.inr ⟨hnone, heq.trans hdir, hl⟩)
      · exact absurd hdir hother
      · rw [hdir] at hfree
        cases hfree

end Prepared

theorem place_of_current (h : s'.current = s.current) : s'.place p = s.place p := by
  rw [place, place, start, start, h]

/-- Directories that are made for a path lie on its way. -/
theorem MadeParents.prepared {parents : ℕ} (h : s.MadeParents p parents s') (hfree : s.LinkFree)
    (hmade : ∀ front, front <+: p.parts → made (s.place ⟨p.anchor, front⟩)) :
    Prepared made s s' where
  wellFormed := h.wellFormed
  linkFree := hfree.growsDirs h.grows
  current := h.grows.current
  entries l := by
    cases hl : s.entry? l with
    | some e => exact .inl (h.grows.kept hl)
    | none =>
      cases hl' : s'.entry? l with
      | none => exact .inl rfl
      | some e =>
        obtain hold | rfl := h.grows.added hl'
        · rw [hl] at hold
          cases hold
        obtain hold | hway := h.onWay hl'
        · rw [hl] at hold
          cases hold
        obtain ⟨front, hfront, rfl⟩ := (hway.passes h.grows).place hfree
        exact .inr (.inr ⟨rfl, rfl, hmade front hfront⟩)

/-- What is removed under a name below a path stands in the directory that the path leads to. -/
theorem unlink_child_ok (h : s.unlink (p.child name) = .ok s') :
    ∃ directory entry, s.target .followed p = .ok (.found directory .dir) ∧
      s.entry? (directory ++ [name]) = some entry ∧ entry ≠ .dir ∧
        s' = s.erase (directory ++ [name]) := by
  obtain ⟨d, n, entry, hslot, hentry, hdir, rfl⟩ := unlink_eq_ok_iff.mp h
  obtain ⟨hshort, front, hparts, hleads, -⟩ := slot_eq_name_iff.mp hslot
  obtain ⟨rfl, rfl⟩ : p.parts = front ∧ name = n := by
    simpa [Path.child, List.append_eq_append_iff] using List.append_inj' hparts rfl
  have hmono := Path.size_text_mono (p := p) (q := p.child name) rfl (List.prefix_append ..)
  have hlimit : 2 < pathLimit := by decide
  have htarget : s.target .followed p = .ok (.found d .dir) :=
    target_eq_ok_iff.mpr ⟨by omega, hleads⟩
  exact ⟨d, entry, htarget, hentry, hdir, rfl⟩

/-- A log file is no directory, so only its own location changes when it is removed. -/
theorem prepared_unlink (hs : s.WellFormed) (hfree : s.LinkFree)
    (hname : NamePattern.matchesName LogFolder.expression name)
    (h : s.unlink (p.child name) = .ok s') : Prepared made s s' := by
  have hs' := hs.unlink h
  obtain ⟨d, entry, -, hentry, hdir, rfl⟩ := unlink_child_ok h
  refine ⟨hs', hfree.discard _, hs.current_erase hentry hdir, fun l ↦ ?_⟩
  rw [entry?_erase (by simp)]
  split
  · next heq =>
    subst heq
    refine .inr (.inl ⟨⟨d, name, rfl, hname⟩, ?_⟩)
    rw [hentry]
    simpa using hdir
  · exact .inl rfl

/-- A file whose content is not changed stays as it is. -/
theorem entry?_setContent_same (id : ℕ) (l : Location) :
    entry? (s.setContent id fun content ↦ content) l = s.entry? l := by
  have hsame (entry : Entry) : entry.withContent id (fun content ↦ content) = entry := by
    cases entry <;> simp [Entry.withContent]
  rw [entry?_setContent]
  cases s.entry? l <;> simp [hsame]

/-- A log file that is opened is kept as it is, or made under a free name. -/
theorem prepared_write (hs : s.WellFormed) (hfree : s.LinkFree) (hp : p.Proper)
    (hnul : p.hasNul = false) (hlog : IsLogPlace (s.place p))
    (h : s.write p (fun content ↦ content) = .ok s') : Prepared made s s' := by
  have hs' := hs.write hp hnul h
  have hfree' := hfree.write h
  rcases write_ok h with ⟨l, id, content, -, rfl⟩ | ⟨d, n, htarget, rfl⟩
  · exact ⟨hs', hfree', rfl, fun l ↦ .inl (entry?_setContent_same id l)⟩
  · refine ⟨hs', hfree', rfl, fun l ↦ ?_⟩
    rw [entry?_putFile (by simp)]
    split
    · next heq =>
      subst heq
      have hnone : s.entry? (d ++ [n]) = none := (sound_of_target hs htarget).2.2
      refine .inr (.inl ⟨?_, by simp [hnone]⟩)
      rwa [← location_of_target hfree htarget] at hlog
    · exact .inl rfl

end Store

/-! ## The files of a log folder -/

namespace LogFolder

open RunAction Store

variable {made : Location → Prop} {s : Store} {folder : Path}

theorem mem_namesFound {pattern : String} {onlyDirectories : Bool} {directory : Path}
    {names : List String} {name : String}
    (h : namesFound s pattern onlyDirectories directory = .ok names) (hname : name ∈ names) :
    finds pattern name := by
  unfold namesFound at h
  split at h
  · cases h
  · cases h
    cases hname
  · cases h
    exact (List.mem_filter.mp hname).2

theorem mem_mapM {α β : Type} {body : α → Except Failure β} {elements : List α} {values : List β}
    (h : elements.mapM body = .ok values) {b : β} (hb : b ∈ values) :
    ∃ a ∈ elements, body a = .ok b := by
  induction elements generalizing values with
  | nil =>
    cases h
    cases hb
  | cons a rest ih =>
    rw [List.mapM_cons] at h
    cases ha : body a with
    | error f =>
      rw [ha] at h
      cases h
    | ok value =>
      cases hrest : rest.mapM body with
      | error f =>
        rw [ha, hrest] at h
        cases h
      | ok others =>
        rw [ha, hrest] at h
        cases h
        rcases List.mem_cons.mp hb with rfl | hb
        · exact ⟨a, by simp, ha⟩
        · obtain ⟨a', ha', heq⟩ := ih hrest hb
          exact ⟨a', by simp [ha'], heq⟩

/-- A name fits one of a pattern that finds it as an expression, or that is the same name. -/
def NameFits (name part : String) : Prop :=
  if isExpression part then finds part name = true else name = part

/-- A path fits that of a folder read as a pattern. -/
structure Fits (p folder : Path) : Prop where
  anchor : p.anchor = folder.anchor
  parts : List.Forall₂ NameFits p.parts folder.parts

/-- What a name of a pattern adds to a path fits it. -/
theorem mem_extend {part : String} {isLast afterExpression : Bool} {found files : List Path}
    {file : Path} (h : extend s part isLast afterExpression found = .ok files)
    (hfile : file ∈ files) :
    ∃ directory ∈ found, ∃ name, file = directory.child name ∧ NameFits name part := by
  unfold extend at h
  by_cases hpart : isExpression part
  · rw [if_pos hpart] at h
    obtain ⟨lists, hlists, rfl⟩ : ∃ lists, found.mapM (fun directory ↦ do
        return (← namesFound s part (!isLast) directory).map directory.child) = .ok lists ∧
          lists.flatten = files := by
      revert h
      cases found.mapM fun directory ↦ do
        return (← namesFound s part (!isLast) directory).map directory.child with
      | error f => exact fun h ↦ by cases h
      | ok lists => exact fun h ↦ ⟨lists, rfl, Except.ok.inj h⟩
    obtain ⟨list, hlist, hfile⟩ := List.mem_flatten.mp hfile
    obtain ⟨directory, hdirectory, hbody⟩ := mem_mapM hlists hlist
    cases hnames : namesFound s part (!isLast) directory with
    | error f =>
      rw [hnames] at hbody
      cases hbody
    | ok names =>
      rw [hnames] at hbody
      cases hbody
      obtain ⟨name, hname, rfl⟩ := List.mem_map.mp hfile
      exact ⟨directory, hdirectory, name, rfl, (if_pos hpart).mpr (mem_namesFound hnames hname)⟩
  · rw [if_neg hpart] at h
    have hchild : file ∈ found.map (·.child part) := by
      split at h <;> cases h
      · exact (List.mem_filter.mp hfile).1
      · exact hfile
    obtain ⟨directory, hdirectory, rfl⟩ := List.mem_map.mp hchild
    exact ⟨directory, hdirectory, part, rfl, (if_neg hpart).mpr rfl⟩

theorem mem_searchFrom {afterExpression : Bool} {found files : List Path} {names : List String}
    {file : Path} (h : searchFrom s afterExpression found names = .ok files)
    (hfile : file ∈ files) :
    ∃ first ∈ found, file.anchor = first.anchor ∧
      ∃ tail, file.parts = first.parts ++ tail ∧ List.Forall₂ NameFits tail names := by
  induction names generalizing afterExpression found with
  | nil =>
    cases h
    exact ⟨file, hfile, rfl, [], by simp, .nil⟩
  | cons part names ih =>
    rw [searchFrom] at h
    cases hextend : extend s part names.isEmpty afterExpression found with
    | error f =>
      rw [hextend] at h
      cases h
    | ok next =>
      rw [hextend] at h
      obtain ⟨_, hnext, hanchor, tail, hparts, htail⟩ := ih h
      obtain ⟨first, hfirst, name, rfl, hname⟩ := mem_extend hextend hnext
      refine ⟨first, hfirst, hanchor, name :: tail, ?_, .cons hname htail⟩
      rw [hparts]
      exact List.append_assoc ..

/-- What is found has the name of a log file, in a directory whose path fits the folder's. -/
theorem mem_logFiles {files : List Path} {file : Path} (h : logFiles folder s = .ok files)
    (hfile : file ∈ files) : ∃ (directory : Path) (name : String), Fits directory folder ∧
      file = directory.child name ∧ NamePattern.matchesName expression name := by
  unfold logFiles at h
  cases hsearch : searchFrom s false [⟨folder.anchor, []⟩] (folder.parts ++ [expression]) with
  | error f =>
    rw [hsearch] at h
    cases h
  | ok found =>
    rw [hsearch] at h
    cases h
    obtain ⟨first, hfirst, hanchor, tail, hparts, htail⟩ :=
      mem_searchFrom hsearch (List.mem_mergeSort.mp hfile)
    obtain rfl := List.mem_singleton.mp hfirst
    have hfront := List.forall₂_take_append _ _ _ htail
    have hback := List.forall₂_drop_append _ _ _ htail
    obtain ⟨name, rest, hname, hrest, hlast⟩ := List.forall₂_cons_right_iff.mp hback
    obtain rfl := List.forall₂_nil_right_iff.mp hrest
    have hfits : finds expression name = true := hname
    refine ⟨⟨folder.anchor, tail.take folder.parts.length⟩, name, ⟨rfl, hfront⟩, ?_,
      (Bool.and_eq_true _ _ ▸ hfits).2⟩
    have hsplit : file.parts = tail.take folder.parts.length ++ [name] := by
      rw [hparts, ← hlast, List.take_append_drop, List.nil_append]
    rcases file with ⟨anchor, parts⟩
    cases hanchor
    cases hsplit
    rfl

/-- The log file of a time is among those that the expression matches. -/
theorem matchesName_fileName (time : Timestamp) :
    NamePattern.matchesName expression (fileName time) := by
  have hitems : NamePattern.items expression =
      "copyops-".toList.map .char ++ .star :: ".log".toList.map .char := by decide
  have hname : (fileName time).toList =
      "copyops-".toList ++ (time.fileStamp.toList ++ ".log".toList) := by
    simp [fileName, String.toList_append]
  have hend : NamePattern.matchesItems (".log".toList.map .char ++ []) (".log".toList ++ []) = _ :=
    NamePattern.matchesItems_chars ".log".toList
  rw [List.append_nil, List.append_nil] at hend
  rw [NamePattern.matchesName, hitems, hname, NamePattern.matchesItems_chars]
  exact NamePattern.matchesItems_star_append _ (hend.trans NamePattern.matchesItems_nil)

/-! ## Rotation -/

/-- An operation that prepares a store leaves any prepared store prepared. -/
theorem keeps_prepared {α : Type} {action : StoreAction α}
    (h : ∀ t : Store, t.WellFormed → t.LinkFree → t.current = s.current →
      Prepared made t (action.run t).2) :
    Keeps (Prepared made s) (fun _ ↦ True) action :=
  keeps_of_state fun t ht ↦ ht.trans (h t ht.wellFormed ht.linkFree ht.current)

theorem keeps_makeDirectories {keep : Bool} (hproper : folder.Proper)
    (hmade : ∀ front, front <+: folder.parts → made (s.place ⟨folder.anchor, front⟩)) :
    Keeps (Prepared made s) (fun _ ↦ True) (StoreAction.makeDirectories keep folder) := by
  refine keeps_prepared fun t ht hfree hcurrent ↦ ?_
  have hmade' (front : List String) (hfront : front <+: folder.parts) :
      made (t.place ⟨folder.anchor, front⟩) := by
    rw [place_of_current hcurrent]
    exact hmade front hfront
  refine Ensures.state (P := (· = t)) (Ensures.weaken (StoreAction.ensures_makeDirectoriesFrom
    ht hproper folder.parts.length) (fun _ h ↦ h) ?_ ?_) rfl
  · exact fun _ s' h ↦ h.1.prepared hfree hmade'
  · exact fun _ s' h ↦ h.1.prepared hfree hmade'

theorem keeps_unlink (directory : Path) {name : String}
    (hname : NamePattern.matchesName expression name) :
    Keeps (Prepared made s) (fun _ ↦ True) (StoreAction.unlink (directory.child name)) := by
  refine keeps_prepared fun t ht hfree _ ↦ ?_
  rw [StoreAction.run_unlink]
  split
  · exact .refl ht hfree
  · cases hunlink : t.unlink (directory.child name) with
    | error e => exact .refl ht hfree
    | ok t' => exact prepared_unlink ht hfree hname hunlink

section Cleanup

variable {inv : Store → Prop}

theorem keeps_removeFile {file : Path} (h : Keeps inv (fun _ ↦ True) (StoreAction.unlink file)) :
    Keeps (Run.Stores inv) (fun _ ↦ True) (removeFile file) := by
  refine (keeps_onStore_stores h).tryCatch fun f _ ↦ ?_
  split
  · exact keeps_modify fun _ h ↦ h
  · exact keeps_throw trivial

/-- What each removal of a log file keeps is kept by a rotation. -/
theorem keeps_cleanup (keep : Int)
    (h : ∀ (directory : Path) (name : String), Fits directory folder →
      NamePattern.matchesName expression name →
        Keeps inv (fun _ ↦ True) (StoreAction.unlink (directory.child name))) :
    Keeps (Run.Stores inv) (fun _ ↦ True) (cleanup folder keep) := by
  intro t ht
  unfold cleanup
  rw [run_bind, run_ask]
  cases hfiles : logFiles folder t.store with
  | error f => exact ⟨ht, trivial⟩
  | ok files =>
    refine keeps_forM (fun file hfile ↦ ?_) t ht
    obtain ⟨directory, name, hfits, rfl, hname⟩ := mem_logFiles hfiles (List.mem_of_mem_take hfile)
    exact keeps_removeFile (h directory name hfits hname)

end Cleanup

/-! ## The log file of a run -/

/-- The name of a log file has no characters but those of its fixed parts and digits. -/
theorem not_mem_fileName (time : Timestamp) {c : Char} (hdigit : c.isDigit = false)
    (hfixed : c ∉ "copyops-.log".toList) : c ∉ (fileName time).toList := by
  have hdigits (n : ℕ) : c ∉ Nat.toDigits 10 n := by
    intro h
    have hc := Nat.isDigit_of_mem_toDigits (by decide) (by decide) h
    rw [hdigit] at hc
    cases hc
  have hzero : c ≠ '0' := by
    rintro rfl
    cases hdigit
  have hpadded (width n : ℕ) : c ∉ (Timestamp.padded width n).toList := by
    simp [Timestamp.padded, String.toList_append, hdigits, hzero]
  have hparts : c ∉ "copyops-".toList ∧ c ∉ "-".toList ∧ c ∉ ".log".toList := by
    simp_all
  simp only [fileName, Timestamp.fileStamp, String.toList_append, List.mem_append, hpadded, hparts,
    or_false, false_or]
  simp [hdigits]

theorem isClean_fileName (time : Timestamp) : IsClean (fileName time) where
  ne_empty h := by simpa [fileName] using congrArg String.toList h
  noSlash := not_mem_fileName time rfl (by decide)
  noNul := not_mem_fileName time rfl (by decide)

theorem fileName_ne (time : Timestamp) {name : String} (hshort : name.length ≤ 2) :
    fileName time ≠ name := by
  rintro rfl
  have hstem : "copyops-".length = 8 := rfl
  rw [fileName, String.length_append, String.length_append, hstem] at hshort
  omega

theorem mem_descend {directory : Location} {names : List String} {name : String}
    (h : name ∈ descend directory names) : name ∈ directory ∨ name ∈ names := by
  induction names generalizing directory with
  | nil => exact .inl h
  | cons part rest ih =>
    rw [descend] at h
    split at h
    · exact (ih h).imp_right (List.mem_cons_of_mem _)
    · split at h
      · exact (ih h).imp List.mem_of_mem_dropLast (List.mem_cons_of_mem _)
      · simpa [or_assoc] using ih h

/-- The names of an absolute path are those of the path and of directories that are there. -/
theorem mem_absolutePath {p : Path} {name : String} (hs : s.WellFormed) (hanchored : s.Anchored p)
    (hname : name ∈ (s.absolutePath p).parts) : IsName name ∨ name ∈ p.parts := by
  unfold absolutePath at hname
  split at hname
  · rw [collapse_eq_descend] at hname
    exact .inr ((mem_descend hname).resolve_left (by simp))
  · next hrelative =>
    rw [collapse_eq_descend] at hname
    rcases List.mem_append.mp ((mem_descend hname).resolve_left (by simp)) with hname | hname
    · have hdir := hanchored.start_dir hs
      rw [start, if_neg hrelative] at hdir
      exact .inl (hs.isName_of_mem hdir hname)
    · exact .inr hname

theorem proper_absolutePath {p : Path} (hs : s.WellFormed) (hp : p.Proper) (hanchored : s.Anchored p) :
    (s.absolutePath p).Proper := by
  intro name hname
  rcases mem_absolutePath hs hanchored hname with hisName | hname
  · exact hisName.isPart
  · exact hp name hname

theorem hasNul_absolutePath {p : Path} (hs : s.WellFormed) (hclean : p.hasNul = false)
    (hanchored : s.Anchored p) : (s.absolutePath p).hasNul = false := by
  rw [Path.hasNul, List.any_eq_false] at hclean ⊢
  intro name hname
  rcases mem_absolutePath hs hanchored hname with hisName | hname
  · simpa using hisName.noNul
  · exact hclean name hname

/-- The absolute form of a path that ends in a name leads to a place of this name. -/
theorem place_absolutePath_child (hs : s.WellFormed) {name : String}
    (hanchored : s.Anchored (folder.child name)) (hdot : name ≠ ".") (hdotDot : name ≠ "..") :
    ∃ directory, s.place (s.absolutePath (folder.child name)) = directory ++ [name] := by
  rw [absolutePath_eq hs hanchored, place_child folder hdot hdotDot, place, descend_append]
  simp [descend, hdot, hdotDot]

theorem ensures_absolute_fileName (hfolder : folder.Proper) (time : Timestamp) :
    Ensures (Prepared made s) (StoreAction.absolute (folder.child (fileName time)))
      (fun place t ↦ Prepared made s t ∧ place.Proper ∧ IsLogPlace (t.place place))
      (fun _ ↦ Prepared made s) := by
  intro t ht
  refine Ensures.outcome (StoreAction.ensures_absolute t _) ?_ ?_
  · rintro place t ⟨⟨rfl, hanchored⟩, rfl⟩
    obtain ⟨directory, hlast⟩ := place_absolutePath_child ht.wellFormed hanchored
      (fileName_ne time (by decide)) (fileName_ne time (by decide))
    have hproper := proper_absolutePath ht.wellFormed (hfolder.child (isClean_fileName time).toIsPart) hanchored
    exact ⟨ht, hproper, directory, _, hlast, matchesName_fileName time⟩
  · rintro f t ⟨rfl, -⟩
    exact ht

theorem ensures_writeLog (place : Path) :
    Ensures (fun t ↦ Prepared made s t ∧ place.Proper ∧ IsLogPlace (t.place place))
      (StoreAction.write place fun content ↦ content) (fun _ ↦ Prepared made s)
      (fun _ ↦ Prepared made s) := by
  refine (StoreAction.ensures_change (Q := fun _ ↦ Prepared made s)
    (fun _ ↦ Failure.isPlain_system ..) ?_).weaken (fun _ h ↦ h) (fun _ _ h ↦ h) fun _ _ h ↦ h.1.1
  rintro t t' ⟨ht, hproper, hlog⟩ hnul hwrite
  exact ht.trans (prepared_write ht.wellFormed ht.linkFree hproper hnul hlog hwrite)

/-- Opening a log prepares the store, however it ends. -/
theorem keeps_setup (folder : String) (most : Int)
    (hmade : ∀ front, front <+: (Path.ofString folder).parts →
      made (s.place ⟨(Path.ofString folder).anchor, front⟩)) :
    Keeps (Run.Stores (Prepared made s)) (fun _ ↦ True) (setup folder most) := by
  have hproper := Path.proper_ofString folder
  refine (keeps_onStore_stores (keeps_makeDirectories hproper hmade)).bind fun _ ↦ ?_
  refine Keeps.bind (fun _ h ↦ h) fun time ↦
    (keeps_cleanup _ fun directory _ _ ↦ keeps_unlink directory).bind fun _ ↦ ?_
  refine ((stores_onStore (ensures_absolute_fileName hproper time)).weaken (fun _ h ↦ h)
    (fun _ _ h ↦ h) fun _ _ h ↦ ⟨h, trivial⟩).bind fun place ↦ ?_
  refine ((stores_onStore (ensures_writeLog place)).weaken (fun _ h ↦ h)
    (fun _ _ h ↦ h) fun _ _ h ↦ ⟨h, trivial⟩).bind fun _ ↦ ?_
  exact Keeps.bind (keeps_modify fun _ h ↦ h) fun _ ↦ keeps_pure _

end LogFolder

end DeferredOps
