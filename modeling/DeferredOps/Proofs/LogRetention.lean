import DeferredOps.Proofs.LogRotation
import DeferredOps.Proofs.Store.Broken
import DeferredOps.Proofs.Store.Writable
import DeferredOps.Proofs.Store.Creatable
import DeferredOps.Proofs.Store.Relocation
import DeferredOps.Proofs.Deletions

/-!
# What a rotation keeps

The log files of a folder are those of its names that fit one expression. A rotation puts their paths
in ascending order and removes them one after another until few enough are left. As these paths differ
in the last name alone, the files that stay are those with the greatest names, and their number does not
depend on what else is there.

Before a log is opened, one place less is kept. The file that is opened then takes that place, whether it
is new, was there and stays, or was there and has just been removed.

Files are removed one by one while the same path leads to them. Symbolic links among them lead to files,
so no path to a directory goes over one, and every removal finds its way as the first one did.
-/

namespace DeferredOps

open Action

namespace Path

/-- Paths that differ in the last name have the same text before it. -/
theorem exists_text_child (p : Path) : ∃ stem, ∀ name, (p.child name).text = stem ++ name := by
  by_cases hparts : p.parts = []
  · exact ⟨anchorText p.anchor, fun name ↦ by simp [text, child, hparts]⟩
  · refine ⟨p.text ++ "/", fun name ↦ ?_⟩
    have hjoin := String.intercalate_append_of_ne_nil (s := "/") hparts (List.cons_ne_nil name [])
    simp [text, child, hparts, hjoin, String.append_assoc]

/-- Paths that differ in the last name are in the order of these names. -/
theorem text_child_lt_iff (p : Path) (a b : String) :
    (p.child a).text < (p.child b).text ↔ a < b := by
  obtain ⟨stem, hstem⟩ := p.exists_text_child
  rw [hstem, hstem]
  change (stem ++ a).toList < (stem ++ b).toList ↔ a.toList < b.toList
  rw [String.toList_append, String.toList_append]
  induction stem.toList with
  | nil => rfl
  | cons c rest ih => simpa [List.cons_lt_cons_iff] using ih

end Path

namespace LogFolder

open RunAction Store

/-- The names of the log files in a directory. -/
def logNames (s : Store) (directory : Location) : List String :=
  (s.names directory).filter (NamePattern.matchesName expression)

/-- The names of the log files in a directory that are not among the greatest `keep` of them. -/
def outdated (s : Store) (directory : Location) (keep : ℤ) : List String :=
  (logNames s directory).filter fun name ↦
    decide (keep ≤ (logNames s directory).countP fun other ↦ decide (name < other))

/-- A folder whose path holds no wildcard character leads to a directory in which every log file is
a file, or a symbolic link to one. -/
structure IsLogFolder (s : Store) (folder : Path) (directory : Location) : Prop where
  plain : ∀ part ∈ folder.parts, isExpression part = false
  listed : s.listed folder = .ok directory
  leaf {name : String} (h : name ∈ logNames s directory) : s.Leaf (directory ++ [name])

/-- The paths of outdated log files are not too long. -/
def InReach (s : Store) (folder : Path) (directory : Location) (keep : ℤ) : Prop :=
  ∀ name ∈ outdated s directory keep, (folder.child name).text.utf8ByteSize < pathLimit

/-- The absolute form of a log file's path has its place in a directory, under a name that is not that
of a symbolic link, or of one to a file. -/
structure CanOpen (s : Store) (file : Path) (directory : Location) (name : String) : Prop where
  anchored : s.Anchored file
  slot : s.slot (s.absolutePath file) = .ok (.name directory name)
  link {text : String} (h : s.entry? (directory ++ [name]) = some (.link text)) :
    s.isFile (s.absolutePath file) = .ok true

/-- What is there once a log has been opened in a directory. -/
structure Opened (s : Store) (file : Path) (directory : Location) (name : String) (limit : ℤ)
    (s' : Store) : Prop where
  few : ((logNames s' directory).length : ℤ) ≤ max limit 1
  current : name ∈ logNames s' directory
  isFile : s'.isFile (s.absolutePath file) = .ok true
  kept {l e} (h : s.entry? l = some e)
    (hl : ∀ other ∈ outdated s directory (limit - 1), l ≠ directory ++ [other]) : s'.entry? l = some e
  added {l e} (h : s'.entry? l = some e) : s.entry? l ≠ none ∨ l = directory ++ [name]

variable {s : Store} {folder file : Path} {directory : Location} {name text : String}
  {names : List String} {keep limit : ℤ} {depth : ℕ} {r : Run}

theorem mem_logNames : name ∈ logNames s directory ↔
    s.entry? (directory ++ [name]) ≠ none ∧ NamePattern.matchesName expression name := by
  simp [logNames, List.mem_filter, mem_names, Option.isSome_iff_ne_none]

theorem mem_outdated : name ∈ outdated s directory keep ↔ name ∈ logNames s directory ∧
    keep ≤ (logNames s directory).countP fun other ↦ decide (name < other) := by
  simp [outdated, List.mem_filter]

theorem nodup_logNames (hs : s.WellFormed) (directory : Location) : (logNames s directory).Nodup :=
  (nodup_names hs directory).filter _

theorem perm_sortNames_logNames (s : Store) (directory : Location) :
    (sortNames (logNames s directory)).Perm (logNames s directory) :=
  List.mergeSort_perm ..

/-! ## Search -/

/-- The names before the first expression of a pattern are taken as they are. -/
theorem searchFrom_literal {anchor : Anchor} {front parts rest : List String}
    (hplain : ∀ part ∈ parts, isExpression part = false) :
    searchFrom s false [⟨anchor, front⟩] (parts ++ rest) =
      searchFrom s false [⟨anchor, front ++ parts⟩] rest := by
  induction parts generalizing front with
  | nil => simp
  | cons part parts ih =>
    obtain ⟨hpart, hparts⟩ := List.forall_mem_cons.mp hplain
    rw [List.cons_append, searchFrom, extend, if_neg (by simp [hpart]), if_neg (by simp), hpart]
    have hchild : [(⟨anchor, front⟩ : Path)].map (·.child part) = [⟨anchor, front ++ [part]⟩] := rfl
    rw [hchild]
    change searchFrom s false [⟨anchor, front ++ [part]⟩] (parts ++ rest) = _
    rw [ih hparts, List.append_assoc, List.singleton_append]

/-- The name of a log file does not start with a point. -/
theorem finds_expression : finds expression name = NamePattern.matchesName expression name := by
  have hitems : NamePattern.items expression = .char 'c' ::
      ("opyops-".toList.map .char ++ .star :: ".log".toList.map .char) := by decide
  have hhidden : isHidden expression = false := by decide
  rw [finds, hhidden, Bool.false_or]
  cases hmatches : NamePattern.matchesName expression name with
  | false => simp
  | true =>
    rw [NamePattern.matchesName, hitems] at hmatches
    rw [Bool.and_true, Bool.not_eq_true', isHidden, decide_eq_false_iff_not]
    cases hname : name.toList with
    | nil => simp
    | cons c rest =>
      rw [hname] at hmatches
      simp [NamePattern.eq_of_matchesItems_char hmatches]

/-- The log files of a folder are those of its directory, by their names. -/
theorem logFiles_eq (hfolder : IsLogFolder s folder directory) :
    logFiles folder s = .ok ((sortNames (logNames s directory)).map folder.child) := by
  have hfound : searchFrom s false [⟨folder.anchor, []⟩] (folder.parts ++ [expression]) =
      .ok ((logNames s directory).map folder.child) := by
    have hfolderPath : (⟨folder.anchor, [] ++ folder.parts⟩ : Path) = folder := rfl
    rw [searchFrom_literal hfolder.plain, hfolderPath]
    have hfinds : finds expression = NamePattern.matchesName expression :=
      funext fun _ ↦ finds_expression
    have hnames : namesFound s expression false folder = .ok (logNames s directory) := by
      simp [namesFound, hfolder.listed, hfinds, logNames]
    have hexpression : isExpression expression = true := by decide
    simp [searchFrom, extend, hexpression, hnames, bind, Except.bind, pure, Except.pure]
  rw [logFiles, hfound]
  change Except.ok _ = _
  rw [sortNames, List.map_mergeSort]
  intro a _ b _
  rw [decide_eq_decide, ← String.not_lt, ← String.not_lt, Path.text_child_lt_iff]

/-! ## What is outdated -/

/-- Of names in ascending order, those before the last few have that many greater ones. -/
theorem mem_take_iff (h : names.Pairwise (· < ·)) (keep : ℕ) :
    name ∈ names.take (names.length - keep) ↔
      name ∈ names ∧ keep ≤ names.countP fun other ↦ decide (name < other) := by
  let dropped := names.drop (names.length - keep)
  have hsplit : names.take (names.length - keep) ++ dropped = names := List.take_append_drop ..
  have hdropped : dropped.length = min keep names.length := by
    simp only [dropped, List.length_drop]
    omega
  have hacross : ∀ a ∈ names.take (names.length - keep), ∀ b ∈ dropped, a < b := by
    rw [← hsplit] at h
    exact (List.pairwise_append.mp h).2.2
  constructor
  · intro hmem
    have hpos := List.length_pos_of_mem hmem
    rw [List.length_take] at hpos
    refine ⟨List.mem_of_mem_take hmem, ?_⟩
    calc
      keep = dropped.length := by omega
      _ = dropped.countP (name < ·) :=
        (List.countP_eq_length.mpr fun b hb ↦ by simpa using hacross _ hmem b hb).symm
      _ ≤ names.countP (name < ·) := (List.drop_sublist ..).countP_le
  · rintro ⟨hmem, hcount⟩
    by_contra hnot
    rw [← hsplit, List.mem_append] at hmem
    have hlate := hmem.resolve_left hnot
    have hearly : (names.take (names.length - keep)).countP (name < ·) = 0 :=
      List.countP_eq_zero.mpr fun a ha ↦ by simpa using String.lt_asymm (hacross a ha _ hlate)
    have hfew : dropped.countP (name < ·) < dropped.length :=
      List.countP_lt_length_iff.mpr ⟨name, hlate, by simp⟩
    rw [← hsplit, List.countP_append, hearly] at hcount
    omega

theorem mem_outdated_iff (hs : s.WellFormed) : name ∈ outdated s directory keep ↔
    name ∈ (sortNames (logNames s directory)).take ((logNames s directory).length - keep.toNat) := by
  have hperm := perm_sortNames_logNames s directory
  have hsorted := pairwise_sortNames (nodup_logNames hs directory)
  rw [← hperm.length_eq, mem_take_iff hsorted, mem_outdated, hperm.mem_iff, hperm.countP_eq,
    Int.toNat_le]

theorem length_outdated (hs : s.WellFormed) :
    (outdated s directory keep).length = (logNames s directory).length - keep.toNat := by
  have hnodup := nodup_logNames hs directory
  have hperm := perm_sortNames_logNames s directory
  have hsorted : (outdated s directory keep).Perm ((sortNames (logNames s directory)).take
      ((logNames s directory).length - keep.toNat)) :=
    (List.perm_ext_iff_of_nodup (hnodup.filter _) ((hperm.nodup_iff.mpr hnodup).sublist
      (List.take_sublist ..))).mpr fun _ ↦ mem_outdated_iff hs
  rw [hsorted.length_eq, List.length_take, hperm.length_eq]
  omega

/-! ## Removal -/

theorem run_removeFile {s' : Store} (hclean : file.hasNul = false) (h : r.store.unlink file = .ok s') :
    (removeFile file).run r = (.ok (), { r with store := s' }) := by
  unfold removeFile
  rw [run_tryCatch, run_onStore, StoreAction.run_unlink, hclean, h]
  rfl

/-- Log files whose paths are not too long are removed one after another. -/
theorem run_removeFiles (hs : r.store.WellFormed) (hfolder : IsLogFolder r.store folder directory)
    (hnodup : names.Nodup) (hlogs : names ⊆ logNames r.store directory)
    (hshort : ∀ name ∈ names, (folder.child name).text.utf8ByteSize < pathLimit) :
    (r.store.withoutNames directory names).WellFormed ∧
      ((names.map folder.child).forM removeFile).run r =
        (.ok (), { r with store := r.store.withoutNames directory names }) := by
  obtain ⟨hclean, hfound⟩ := listed_eq_ok_iff.mp hfolder.listed
  -- The induction is on the files that are still to be removed; those before them are gone.
  have hall (done rest : List String) (hsplit : done ++ rest = names)
      (hdone : (r.store.withoutNames directory done).WellFormed) :
      (r.store.withoutNames directory names).WellFormed ∧
        ((rest.map folder.child).forM removeFile).run
            { r with store := r.store.withoutNames directory done } =
          (.ok (), { r with store := r.store.withoutNames directory names }) := by
    induction rest generalizing done with
    | nil =>
      obtain rfl : done = names := by simpa using hsplit
      exact ⟨hdone, rfl⟩
    | cons name rest ih =>
      have hmem : name ∈ names := hsplit ▸ by simp
      have hfresh : name ∉ done := fun hearly ↦
        List.disjoint_of_nodup_append (hsplit ▸ hnodup) hearly List.mem_cons_self
      have hleaf (other : String) (hother : other ∈ done) : r.store.Leaf (directory ++ [other]) :=
        hfolder.leaf (hlogs (hsplit ▸ List.mem_append_left _ hother))
      obtain ⟨entry, hentry, hne⟩ := (hfolder.leaf (hlogs hmem)).exists_entry
      have htaken := taken_withoutNames r.store directory done
      have hthere := htaken.entry_of_fresh hfresh hentry
      have hname := hs.name hentry
      have hunlink := unlink_of_leaves hs hfound (htaken.kept_or_leaf hleaf) htaken.current hentry hne
        hthere (hshort name hmem)
      have hchild : (folder.child name).hasNul = false := by
        rwa [Path.hasNul_child hname.isClean]
      have hnext := erase_withoutNames ((hdone.current_erase hthere hne).trans htaken.current)
      have hwell := hdone.unlink hunlink
      rw [hnext] at hunlink hwell
      obtain ⟨hend, hrest⟩ := ih (done ++ [name]) (by simpa using hsplit) hwell
      refine ⟨hend, ?_⟩
      change (removeFile (folder.child name) >>= fun _ ↦ (rest.map folder.child).forM removeFile).run _ = _
      rw [run_bind, run_removeFile hchild hunlink]
      exact hrest
  have hstart := hall [] names rfl (by simpa using hs)
  rwa [withoutNames_nil] at hstart

/-- A rotation takes away what is outdated and leaves everything else. -/
theorem run_cleanup (hs : r.store.WellFormed) (hfolder : IsLogFolder r.store folder directory)
    (hreach : InReach r.store folder directory keep) :
    (r.store.withoutNames directory (outdated r.store directory keep)).WellFormed ∧
      (cleanup folder keep).run r =
        (.ok (), { r with store := r.store.withoutNames directory (outdated r.store directory keep) }) := by
  let old := (sortNames (logNames r.store directory)).take
    ((logNames r.store directory).length - keep.toNat)
  have hperm := perm_sortNames_logNames r.store directory
  have hold : ((sortNames (logNames r.store directory)).map folder.child).take
      (((sortNames (logNames r.store directory)).map folder.child).length - keep.toNat) =
        old.map folder.child := by
    rw [List.length_map, hperm.length_eq, List.map_take]
  have hnodup : old.Nodup :=
    (hperm.nodup_iff.mpr (nodup_logNames hs directory)).sublist (List.take_sublist ..)
  have hrun := run_removeFiles hs hfolder hnodup
    (fun name hname ↦ hperm.mem_iff.mp (List.mem_of_mem_take hname))
    fun name hname ↦ hreach name ((mem_outdated_iff hs).mpr hname)
  rw [withoutNames_congr fun name ↦ (mem_outdated_iff hs).symm] at hrun
  refine ⟨hrun.1, ?_⟩
  unfold cleanup
  rw [run_bind, run_ask, logFiles_eq hfolder]
  dsimp only
  rw [hold]
  exact hrun.2

/-- As many log files are left as are to be kept, or all if there are no more. -/
theorem length_logNames_withoutNames (hs : s.WellFormed)
    (hkept : (s.withoutNames directory (outdated s directory keep)).WellFormed) :
    (logNames (s.withoutNames directory (outdated s directory keep)) directory).length =
      min keep.toNat (logNames s directory).length := by
  have hnodup := nodup_logNames hs directory
  have hleft : (logNames (s.withoutNames directory (outdated s directory keep)) directory).Perm
      ((logNames s directory).filter (· ∉ outdated s directory keep)) := by
    refine (List.perm_ext_iff_of_nodup (nodup_logNames hkept directory)
      (hnodup.filter _)).mpr fun name ↦ ?_
    rw [List.mem_filter, mem_logNames, mem_logNames, entry?_withoutNames_child]
    by_cases hgone : name ∈ outdated s directory keep <;> simp [hgone]
  have hold : (outdated s directory keep).length =
      ((logNames s directory).filter (· ∈ outdated s directory keep)).length := by
    refine congrArg List.length (List.filter_congr fun name hname ↦ ?_)
    simp [mem_outdated, hname]
  have hsplit := (logNames s directory).length_eq_length_filter_add
    fun name ↦ decide (name ∈ outdated s directory keep)
  rw [length_outdated hs] at hold
  rw [hleft.length_eq]
  simp only [decide_not] at hsplit ⊢
  omega

/-! ## Opening a log -/

namespace CanOpen

/-- A name in a folder whose path has no `..` can be opened, if no symbolic link is there and the
absolute path is not too long. -/
theorem of_noDots (hs : s.WellFormed) (hfound : s.target .followed folder = .ok (.found directory .dir))
    (hdots : ∀ part ∈ folder.parts, part ≠ "." ∧ part ≠ "..")
    (hanchored : s.Anchored (folder.child name)) (hname : LookedUp directory name)
    (hshort : (s.absolutePath (folder.child name)).text.utf8ByteSize < pathLimit)
    (hlink : ∀ text, s.entry? (directory ++ [name]) ≠ some (.link text)) :
    CanOpen s (folder.child name) directory name := by
  refine ⟨hanchored, slot_eq_name_iff.mpr ⟨hshort, s.start folder ++ folder.parts, ?_, ?_, hname⟩,
    fun h ↦ absurd h (hlink _)⟩
  · rw [absolutePath_eq hs hanchored, place_child folder hname.ne_dot hname.ne_dotDot]
    change s.place folder ++ [name] = _
    rw [place, descend_of_noDots hdots]
  · have habsolute : (s.absolutePath (folder.child name)).isAbsolute := by
      rw [absolutePath_eq hs hanchored]
      by_cases h : (folder.child name).isAbsolute
      · rw [if_pos h]
        exact h
      · rw [if_neg h]
        rfl
    rw [start, if_pos habsolute]
    have hstart : s.entry? (s.start folder) = some .dir := hanchored.start_dir hs
    exact ((target_eq_ok_iff.mp hfound).2).of_there hs rfl hstart

/-- The name of a log file is free, or its path leads to a file. -/
theorem free_or_file (h : CanOpen s file directory name)
    (hne : s.entry? (directory ++ [name]) ≠ some .dir) :
    s.entry? (directory ++ [name]) = none ∨
      ∃ l id content, s.target .written (s.absolutePath file) = .ok (.found l (.file id content)) := by
  cases hentry : s.entry? (directory ++ [name]) with
  | none => exact .inl rfl
  | some entry =>
    refine .inr ?_
    cases entry with
    | dir => exact absurd hentry hne
    | file id content => exact ⟨_, id, content, target_of_slot h.slot hentry rfl⟩
    | link text =>
      obtain ⟨-, l, id, content, hfollowed⟩ := isFile_eq_true_iff.mp (h.link hentry)
      exact ⟨l, id, content, target_eq_ok_iff.mpr ((target_eq_ok_iff.mp hfollowed).imp_right
        (Leads.written_of_followed · (by simp)))⟩

/-- A log file can be written although log files have been removed, itself or one that its name
leads to among them. -/
theorem writable (h : CanOpen s file directory name)
    (hne : s.entry? (directory ++ [name]) ≠ some .dir)
    (hleaf : ∀ other ∈ names, s.Leaf (directory ++ [other])) :
    ∃ content, (s.withoutNames directory names).Writable (s.absolutePath file) content := by
  have htaken := taken_withoutNames s directory names
  have hstart := start_of_current (p := s.absolutePath file) (.inr htaken.current)
  rcases h.free_or_file hne with hfree | ⟨l, id, content, hfound⟩
  · have hstill : Store.entry? (s.withoutNames directory names) (directory ++ [name]) = none := by
      simp [entry?_withoutNames_child, hfree]
    exact ⟨[], .inl ⟨rfl, directory, name, target_of_free (htaken.slot hleaf h.slot) hstill⟩⟩
  · obtain ⟨hshort, hway⟩ := target_eq_ok_iff.mp hfound
    rcases hway.followed_of_written.of_taken hleaf with hthere | ⟨d, n, hgone⟩
    · refine ⟨content, .inr ⟨l, id, target_eq_ok_iff.mpr ⟨hshort, ?_⟩⟩⟩
      exact hstart ▸ (hthere _ htaken).written_of_followed (by simp)
    · refine ⟨[], .inl ⟨rfl, d, n, target_eq_ok_iff.mpr ⟨hshort, ?_⟩⟩⟩
      exact hstart ▸ (hgone _ htaken).written_of_followed (by simp)

/-- A free name that a log file's path leads to is the one in the directory, or was that of a log file
that has been removed. -/
theorem old_or_name (h : CanOpen s file directory name)
    (hne : s.entry? (directory ++ [name]) ≠ some .dir) {d : Location} {n : String}
    (habsent : Store.target (s.withoutNames directory names) .written (s.absolutePath file) =
      .ok (.absent d n)) :
    s.entry? (d ++ [n]) ≠ none ∨ d ++ [n] = directory ++ [name] := by
  by_contra hnew
  obtain ⟨hnone, hother⟩ := not_or.mp hnew
  -- Where nothing was before, the path led to the same free name before.
  have hbefore : s.target .written (s.absolutePath file) = .ok (.absent d n) := by
    obtain ⟨hshort, hway⟩ := target_eq_ok_iff.mp habsent
    rw [start_of_current (.inr (taken_withoutNames s directory names).current)] at hway
    refine target_eq_ok_iff.mpr ⟨hshort, hway.of_subset (fun _ _ ↦ entry?_of_withoutNames) ?_⟩
    rintro _ _ ⟨⟩
    exact not_not.mp hnone
  rcases h.free_or_file hne with hvacant | ⟨_, _, _, hfound⟩
  · cases hbefore.symm.trans (target_of_free h.slot hvacant)
    exact hother rfl
  · cases hbefore.symm.trans hfound

end CanOpen

/-- A file that is written adds at most one log file to a directory. -/
theorem length_logNames_write {s' : Store} {change : Bytes → Bytes} (h : s.write file change = .ok s') :
    (logNames s' directory).length ≤ (logNames s directory).length + 1 := by
  rcases write_ok h with ⟨_, id, content, -, rfl⟩ | ⟨d, n, -, rfl⟩
  · rw [logNames, names_setContent, logNames]
    exact Nat.le_succ _
  · exact length_names_putFile ..

/-- After a rotation that left one place, a log file can be opened and takes that place. -/
theorem exists_opened (hs : s.WellFormed) (hfolder : IsLogFolder s folder directory)
    (hopen : CanOpen s file directory name) (hname : NamePattern.matchesName expression name)
    (hproper : file.Proper) (hclean : file.hasNul = false)
    (hkept : (s.withoutNames directory (outdated s directory (limit - 1))).WellFormed) :
    ∃ s', (s.withoutNames directory (outdated s directory (limit - 1))).write (s.absolutePath file)
        (fun content ↦ content) = .ok s' ∧ Opened s file directory name limit s' := by
  have htaken := taken_withoutNames s directory (outdated s directory (limit - 1))
  have hleaf (other : String) (h : other ∈ outdated s directory (limit - 1)) :
      s.Leaf (directory ++ [other]) := hfolder.leaf (mem_outdated.mp h).1
  have hne : s.entry? (directory ++ [name]) ≠ some .dir := by
    intro hdir
    obtain ⟨entry, hentry, hfile⟩ :=
      (hfolder.leaf (mem_logNames.mpr ⟨by simp [hdir], hname⟩)).exists_entry
    exact hfile (Option.some.inj (hentry.symm.trans hdir))
  have hcleanPlace := hasNul_absolutePath hs hclean hopen.anchored
  have hproperPlace := proper_absolutePath hs hproper hopen.anchored
  obtain ⟨content, hwritable⟩ := hopen.writable hne hleaf
  obtain ⟨s', hwrite, -, hcontent⟩ :=
    hwritable.write hkept hproperPlace hcleanPlace fun content ↦ content
  have hgrows := grows_open hkept hwrite
  refine ⟨s', hwrite, ?_, ?_, hcontent.isFile hcleanPlace, fun {l e} h hl ↦ ?_, fun {l e} h ↦ ?_⟩
  · have hleft := length_logNames_withoutNames hs hkept
    have hmore : (logNames s' directory).length ≤ _ := length_logNames_write hwrite
    omega
  · exact mem_logNames.mpr ⟨entry?_ne_none_of_write (htaken.slot hleaf hopen.slot) hwrite, hname⟩
  · exact hgrows.kept (htaken.kept h hl)
  · rcases hgrows.added h with hold | ⟨d, n, habsent, rfl⟩
    · exact .inl (by simp [entry?_of_withoutNames hold])
    · exact hopen.old_or_name hne habsent

/-- In a folder that is there a log is opened in what the rotation leaves. -/
theorem run_setup_eq (hs : r.store.WellFormed)
    (hfolder : IsLogFolder r.store (Path.ofString text) directory)
    (hreach : InReach r.store (Path.ofString text) directory (limit - 1)) :
    let file := (Path.ofString text).child (fileName r.clock.read.1)
    (setup text limit).run r =
      (do
        let place ← onStore (StoreAction.absolute file)
        onStore (StoreAction.write place fun content ↦ content)
        modify fun run ↦ { run with logFile := some place }
        return file : RunAction Path).run
          { r with
            store := r.store.withoutNames directory (outdated r.store directory (limit - 1))
            clock := r.clock.read.2 } := by
  intro file
  obtain ⟨hclean, hfound⟩ := listed_eq_ok_iff.mp hfolder.listed
  have hmade : (onStore (StoreAction.makeDirectories true (Path.ofString text))).run r = (.ok (), r) := by
    rw [run_onStore, StoreAction.run_makeDirectories_of_there hfound hclean]
  have hnow : (now).run r = (.ok r.clock.read.1, { r with clock := r.clock.read.2 }) := rfl
  obtain ⟨-, hcleanup⟩ := run_cleanup (r := { r with clock := r.clock.read.2 }) hs hfolder hreach
  unfold setup
  rw [run_bind, hmade]
  dsimp only
  rw [run_bind, hnow]
  dsimp only
  rw [run_bind, hcleanup]

/-- Where a log can be opened, it is: what is outdated with one place less goes, and the log file of
the time is made unless it is there still. -/
theorem run_setup (hs : r.store.WellFormed)
    (hfolder : IsLogFolder r.store (Path.ofString text) directory)
    (hreach : InReach r.store (Path.ofString text) directory (limit - 1))
    (hopen : CanOpen r.store ((Path.ofString text).child (fileName r.clock.read.1)) directory
      (fileName r.clock.read.1)) :
    ∃ s', (setup text limit).run r = (.ok ((Path.ofString text).child (fileName r.clock.read.1)),
        { r with
          store := s'
          clock := r.clock.read.2
          logFile := some (r.store.absolutePath ((Path.ofString text).child (fileName r.clock.read.1))) }) ∧
      Opened r.store ((Path.ofString text).child (fileName r.clock.read.1)) directory
        (fileName r.clock.read.1) limit s' := by
  let file := (Path.ofString text).child (fileName r.clock.read.1)
  let kept := r.store.withoutNames directory (outdated r.store directory (limit - 1))
  have hname := isClean_fileName r.clock.read.1
  have hproper : file.Proper := (Path.proper_ofString text).child hname.toIsPart
  have hclean : file.hasNul = false := by
    rw [Path.hasNul_child hname]
    exact (listed_eq_ok_iff.mp hfolder.listed).1
  have hkept : kept.WellFormed := (run_cleanup hs hfolder hreach).1
  obtain ⟨s', hwrite, hopened⟩ := exists_opened hs hfolder hopen (matchesName_fileName _) hproper
    hclean hkept
  have habsolute : (StoreAction.absolute file).run kept = (.ok (r.store.absolutePath file), kept) :=
    StoreAction.run_absolute hopen.anchored
  have hwritten : (StoreAction.write (r.store.absolutePath file) fun content ↦ content).run kept =
      (.ok (), s') := by
    rw [StoreAction.write, StoreAction.run_change, hasNul_absolutePath hs hclean hopen.anchored,
      hwrite]
    rfl
  refine ⟨s', ?_, hopened⟩
  rw [run_setup_eq hs hfolder hreach, run_bind, run_onStore, habsolute]
  dsimp only
  rw [run_bind, run_onStore, hwritten]
  rfl

/-! ## Paths that are too long -/

/-- Log files whose paths are too long stay. -/
theorem store_cleanup_of_long (hfolder : IsLogFolder r.store folder directory)
    (hlong : ∀ name ∈ logNames r.store directory, pathLimit ≤ (folder.child name).text.utf8ByteSize)
    (keep : ℤ) : ((cleanup folder keep).run r).2.store = r.store := by
  have hkept (file : Path) (hfile : file ∈ (sortNames (logNames r.store directory)).map folder.child) :
      Keeps (Run.Stores (· = r.store)) (fun _ ↦ True) (removeFile file) := by
    obtain ⟨name, hname, rfl⟩ := List.mem_map.mp hfile
    refine keeps_removeFile (keeps_of_state ?_)
    rintro t rfl
    rw [StoreAction.run_unlink,
      unlink_of_long (hlong name ((perm_sortNames_logNames _ _).mem_iff.mp hname))]
    split <;> rfl
  unfold cleanup
  rw [run_bind, run_ask, logFiles_eq hfolder]
  exact (keeps_forM fun file hfile ↦ hkept file (List.mem_of_mem_take hfile)).state rfl

/-- No log is opened where its absolute path is too long, or is sought in a current directory that has
been removed. -/
theorem setup_fails (hs : r.store.WellFormed)
    (hfolder : IsLogFolder r.store (Path.ofString text) directory)
    (hreach : InReach r.store (Path.ofString text) directory (limit - 1))
    (h : r.store.Anchored ((Path.ofString text).child (fileName r.clock.read.1)) →
      pathLimit ≤
        (r.store.absolutePath ((Path.ofString text).child (fileName r.clock.read.1))).text.utf8ByteSize) :
    ∃ f, ((setup text limit).run r).1 = .error f := by
  let file := (Path.ofString text).child (fileName r.clock.read.1)
  let kept := r.store.withoutNames directory (outdated r.store directory (limit - 1))
  rw [run_setup_eq hs hfolder hreach, run_bind, run_onStore]
  by_cases hanchored : r.store.Anchored file
  · have habsolute : (StoreAction.absolute file).run kept = (.ok (r.store.absolutePath file), kept) :=
      StoreAction.run_absolute hanchored
    have hwrite : kept.write (r.store.absolutePath file) (fun content ↦ content) = .error .nameTooLong := by
      rw [Store.write, target_of_long (h hanchored)]
      rfl
    have hfails : ∃ f, (StoreAction.write (r.store.absolutePath file) fun content ↦ content).run kept =
        (.error f, kept) := by
      rw [StoreAction.write, StoreAction.run_change, hwrite]
      split <;> exact ⟨_, rfl⟩
    obtain ⟨f, hfails⟩ := hfails
    rw [habsolute]
    dsimp only
    rw [run_bind, run_onStore, hfails]
    exact ⟨f, rfl⟩
  · obtain ⟨hrelative, hremoved⟩ := not_or.mp hanchored
    have hcurrent : isRemoved kept.current = true := Bool.eq_true_of_not_eq_false hremoved
    have habsolute : (StoreAction.absolute file).run kept = (.error (.system .noEntry none none), kept) := by
      unfold StoreAction.absolute StoreAction.currentDirectory
      rw [if_neg hrelative, run_bind, run_bind, run_get]
      dsimp only
      rw [if_pos hcurrent]
      rfl
    rw [habsolute]
    exact ⟨_, rfl⟩

/-- Down into a directory, and back and down again a number of times. -/
def detour : ℕ → List String
  | 0 => ["l"]
  | turns + 1 => "l" :: ".." :: detour turns

theorem namesSize_detour (turns : ℕ) : Path.namesSize (detour turns) = 5 * turns + 2 := by
  induction turns with
  | zero => rfl
  | succ turns ih =>
    have hdown : "l".utf8ByteSize = 1 := rfl
    have hup : "..".utf8ByteSize = 2 := rfl
    rw [detour, Path.namesSize_cons, Path.namesSize_cons, ih, hdown, hup]
    omega

theorem leads_detour (h : s.entry? ["l"] = some .dir) (turns : ℕ) :
    s.Leads .followed linkLimit [] (detour turns) (.found ["l"] .dir) := by
  have hname : LookedUp [] "l" := ⟨by decide, by decide, rfl, by decide⟩
  induction turns with
  | zero => exact .enter hname h .done
  | succ turns ih => exact .enter hname h (.dotDot ih)

theorem mem_detour {part : String} {turns : ℕ} (h : part ∈ detour turns) :
    part = "l" ∨ part = ".." := by
  induction turns with
  | zero => exact .inl (by simpa [detour] using h)
  | succ turns ih =>
    simp only [detour, List.mem_cons] at h
    rcases h with h | h | h
    · exact .inl h
    · exact .inr h
    · exact ih h

theorem size_detour (turns : ℕ) (names : List String) :
    (⟨.here, detour turns ++ names⟩ : Path).text.utf8ByteSize = 5 * turns + 1 + Path.namesSize names := by
  have hne : detour turns ≠ [] := by cases turns <;> simp [detour]
  have hsize := Path.size_text (p := ⟨.here, detour turns ++ names⟩) (by simp [hne])
  have hanchor : (Path.anchorText .here).utf8ByteSize = 0 := rfl
  rw [hanchor, Path.namesSize_append, namesSize_detour] at hsize
  omega

/-- A folder without log files. -/
theorem isLogFolder_of_none (hplain : ∀ part ∈ folder.parts, isExpression part = false)
    (hlisted : s.listed folder = .ok directory) (hnone : logNames s directory = []) :
    IsLogFolder s folder directory :=
  ⟨hplain, hlisted, fun h ↦ by simp [hnone] at h⟩

theorem inReach_of_none (hnone : logNames s directory = []) (keep : ℤ) :
    InReach s folder directory keep :=
  fun _ hname ↦ by simp [mem_outdated, hnone] at hname

/-- A file in a folder. -/
def oneLog : Store :=
  (Store.empty.put ["l"] .dir).putFile ["l", "copyops-1.log"] []

theorem logNames_oneLog : logNames oneLog ["l"] = ["copyops-1.log"] := by
  decide +kernel

theorem isLogFolder_detour : IsLogFolder oneLog ⟨.here, detour 818⟩ ["l"] := by
  refine ⟨fun part hpart ↦ ?_,
    listed_eq_ok_iff.mpr ⟨?_, target_eq_ok_iff.mpr ⟨?_, leads_detour rfl 818⟩⟩, fun {name} h ↦ ?_⟩
  · rcases mem_detour hpart with rfl | rfl <;> decide
  · rw [Path.hasNul, List.any_eq_false]
    intro part hpart
    rcases mem_detour hpart with rfl | rfl <;> decide
  · have hsize := size_detour 818 []
    rw [List.append_nil] at hsize
    rw [hsize]
    decide
  · obtain rfl : name = "copyops-1.log" := by simpa [logNames_oneLog] using h
    exact .inl ⟨0, [], rfl⟩

/-- A log file on a detour that is long enough stays. -/
theorem store_cleanup_detour :
    ((cleanup ⟨.here, detour 818⟩ 0).run (Run.first oneLog)).2.store = oneLog := by
  refine store_cleanup_of_long isLogFolder_detour (fun name hname ↦ ?_) 0
  have hlogs : name ∈ logNames oneLog ["l"] := hname
  obtain rfl : name = "copyops-1.log" := by simpa [logNames_oneLog] using hlogs
  have hsize := size_detour 818 ["copyops-1.log"]
  exact hsize ▸ by decide

/-- The deepest of directories in one another is the current one. -/
def deep (depth : ℕ) : Store :=
  { Executor.nested (Executor.letters 250) depth with
    current := List.replicate depth (Executor.letters 250) }

theorem wellFormed_deep (depth : ℕ) :
    (deep depth).WellFormed ∧ Store.entry? (deep depth) (deep depth).current = some .dir ∧
      ∀ name, Store.entry? (deep depth) ((deep depth).current ++ [name]) = none := by
  have hname : IsName (Executor.letters 250) := Executor.isName_letters (by decide) (by decide)
  obtain ⟨hs, hdir, hfree⟩ := Executor.wellFormed_nested hname depth
  exact ⟨⟨hs.nodup, hs.parent, hs.name, hs.link, hs.standing_of_dir hdir⟩, hdir,
    fun name ↦ hfree _ (by simp [deep])⟩

theorem logNames_deep (depth : ℕ) : logNames (deep depth) (deep depth).current = [] := by
  refine List.eq_nil_iff_forall_not_mem.mpr fun name hname ↦ ?_
  exact (mem_logNames.mp hname).1 ((wellFormed_deep depth).2.2 name)

theorem isLogFolder_here (hnone : logNames s s.current = []) :
    IsLogFolder s (Path.ofString ".") s.current := by
  have hhere : Path.ofString "." = ⟨.here, []⟩ := by decide +kernel
  rw [hhere]
  exact isLogFolder_of_none (by simp) rfl hnone

/-- The absolute path of a file in the current directory. -/
theorem absolutePath_here (hs : s.WellFormed) (hthere : isRemoved s.current = false)
    (hdot : name ≠ ".") (hdotDot : name ≠ "..") :
    s.absolutePath ((Path.ofString ".").child name) = ⟨.top, s.current ++ [name]⟩ := by
  have hhere : Path.ofString "." = ⟨.here, []⟩ := by decide +kernel
  rw [hhere, absolutePath_eq hs (.inr hthere), place_child _ hdot hdotDot]
  rfl

theorem setup_deep (h : 16 < depth) :
    ∃ f, ((setup "." 1).run (Run.first (deep depth))).1 = .error f := by
  obtain ⟨hs, hdir, -⟩ := wellFormed_deep depth
  have hnone := logNames_deep depth
  refine setup_fails hs (isLogFolder_here hnone) (inReach_of_none hnone _) fun _ ↦ ?_
  let name := fileName (Run.first (deep depth)).clock.read.1
  let place : Path := ⟨.top, (deep depth).current ++ [name]⟩
  have hplace : (deep depth).absolutePath ((Path.ofString ".").child name) = place :=
    absolutePath_here hs (hs.not_isRemoved hdir) (fileName_ne _ (by decide)) (fileName_ne _ (by decide))
  have hsize : place.text.utf8ByteSize + 1 = 1 + Path.namesSize ((deep depth).current ++ [name]) :=
    Path.size_text (by simp [place])
  have hdeep : Path.namesSize (deep depth).current = depth * 251 := by
    rw [deep, Path.namesSize_replicate, Executor.size_letters]
  rw [Path.namesSize_append, Path.namesSize_cons, hdeep] at hsize
  calc
    pathLimit ≤ place.text.utf8ByteSize := by
      rw [pathLimit]
      omega
    _ = _ := by rw [← hplace]; rfl

/-! ## Both -/

/-- A rotation keeps the log files with the greatest names, as many as asked for or all if there are
no more, and changes nothing else. A log that is opened is then one of no more than the limit, or the
only one if that is less than one, whether its file was there before or not. -/
theorem keepsNewest_of_rotation (hs : r.store.WellFormed)
    (hfolder : IsLogFolder r.store folder directory) :
    (∀ keep, InReach r.store folder directory keep →
      let kept := r.store.withoutNames directory (outdated r.store directory keep)
      (cleanup folder keep).run r = (.ok (), { r with store := kept }) ∧
        (logNames kept directory).length = min keep.toNat (logNames r.store directory).length) ∧
    ∀ text limit, Path.ofString text = folder → InReach r.store folder directory (limit - 1) →
      let name := fileName r.clock.read.1
      CanOpen r.store (folder.child name) directory name →
        ∃ s', (setup text limit).run r = (.ok (folder.child name),
            { r with
              store := s'
              clock := r.clock.read.2
              logFile := some (r.store.absolutePath (folder.child name)) }) ∧
          Opened r.store (folder.child name) directory name limit s' := by
  refine ⟨fun keep hreach ↦ ?_, ?_⟩
  · obtain ⟨hkept, hrun⟩ := run_cleanup hs hfolder hreach
    exact ⟨hrun, length_logNames_withoutNames hs hkept⟩
  · rintro text limit rfl hreach name hopen
    exact run_setup hs hfolder hreach hopen

/-- In a folder with three log files and a link to one, the link and the file of the time go with the
others that are outdated, and the file of the time is made again. -/
theorem keepsNewest_of_rotation_existing_file :
    let s := ((((Store.empty.put ["l"] .dir).putFile ["l", "copyops-1.log"] [100]).put
      ["l", "copyops-2.log"] (.link "copyops-1.log")).putFile
      ["l", "copyops-99991231-000000.log"] [101]).putFile ["l", "copyops-z.log"] [102]
    let rotated := ((cleanup (Path.ofString "l") 1).run (Run.first s)).2.store
    let opened := ((setup "l" 2).run (Run.first s)).2.store
    (logNames rotated ["l"]).length = 1 ∧ rotated.entry? ["l", "copyops-z.log"] = some (.file 2 [102]) ∧
      (logNames opened ["l"]).length ≤ 2 ∧ "copyops-99991231-000000.log" ∈ logNames opened ["l"] ∧
      opened.entry? ["l", "copyops-z.log"] = some (.file 2 [102]) := by
  intro s rotated opened
  have hs : (Run.first s).store.WellFormed := by decide
  have hlogs : logNames s ["l"] =
      ["copyops-1.log", "copyops-2.log", "copyops-99991231-000000.log", "copyops-z.log"] := by
    decide +kernel
  have hfolder : IsLogFolder (Run.first s).store (Path.ofString "l") ["l"] := by
    refine ⟨by decide +kernel, by rfl, fun {name} h ↦ ?_⟩
    have hmem : name ∈ logNames s ["l"] := h
    rw [hlogs] at hmem
    simp only [List.mem_cons, List.not_mem_nil, or_false] at hmem
    rcases hmem with rfl | rfl | rfl | rfl
    · exact .inl ⟨0, [100], rfl⟩
    · exact .inr ⟨"copyops-1.log", 0, ["l", "copyops-1.log"], 0, [100], rfl, .of_walk rfl⟩
    · exact .inl ⟨1, [101], rfl⟩
    · exact .inl ⟨2, [102], rfl⟩
  have hold : outdated s ["l"] 1 = ["copyops-1.log", "copyops-2.log", "copyops-99991231-000000.log"] := by
    decide +kernel
  have hreach : InReach (Run.first s).store (Path.ofString "l") ["l"] 1 := by
    change ∀ name ∈ outdated s ["l"] 1, _
    rw [hold]
    decide +kernel
  have hname : fileName (Run.first s).clock.read.1 = "copyops-99991231-000000.log" := by decide +kernel
  have hopen : CanOpen (Run.first s).store
      ((Path.ofString "l").child (fileName (Run.first s).clock.read.1)) ["l"]
      (fileName (Run.first s).clock.read.1) := by
    rw [hname]
    exact .of_noDots hs rfl (by decide +kernel) (.inr rfl) ⟨by decide, by decide, rfl, by decide⟩
      (by decide +kernel) fun _ h ↦ by cases h
  obtain ⟨hrotations, hopenings⟩ := keepsNewest_of_rotation hs hfolder
  obtain ⟨hrotated, hcount⟩ := hrotations 1 hreach
  obtain ⟨s', hrun, hopened⟩ := hopenings "l" 2 rfl hreach hopen
  have hcleaned : rotated = s.withoutNames ["l"] (outdated s ["l"] 1) :=
    congrArg (fun outcome ↦ outcome.2.store) hrotated
  have hset : opened = s' := congrArg (fun outcome ↦ outcome.2.store) hrun
  have hstays : ∀ other ∈ outdated s ["l"] 1,
      (["l", "copyops-z.log"] : Location) ≠ ["l"] ++ [other] := by
    rw [hold]
    decide
  rw [hcleaned, hset, ← hname]
  refine ⟨?_, ?_, ?_, hopened.current, hopened.kept rfl hstays⟩
  · exact hcount.trans (congrArg (min 1 ·.length) hlogs)
  · exact (taken_withoutNames s ["l"] _).kept rfl hstays
  · have hfew := hopened.few
    omega

/-- A rotation keeps what it should remove if the path is too long, and a log is not opened in its folder
if its absolute path leads elsewhere, means nothing or is too long. -/
theorem not_keepsNewest_of_rotation :
    (let folder : Path := ⟨.here, detour 818⟩
     oneLog.WellFormed ∧ IsLogFolder oneLog folder ["l"] ∧ outdated oneLog ["l"] 0 = ["copyops-1.log"] ∧
       ((cleanup folder 0).run (Run.first oneLog)).2.store = oneLog) ∧
    (let s := ((Store.empty.put ["d"] .dir).put ["d", "e"] .dir).put ["L"] (.link "d/e")
     s.WellFormed ∧ IsLogFolder s (Path.ofString "L/..") ["d"] ∧
       logNames ((setup "L/.." 1).run (Run.first s)).2.store ["d"] = []) ∧
    (let s := { Store.empty with current := [""] }
     s.WellFormed ∧ IsLogFolder s (Path.ofString ".") s.current ∧
       ∃ f, ((setup "." 1).run (Run.first s)).1 = .error f) ∧
    (deep 17).WellFormed ∧ IsLogFolder (deep 17) (Path.ofString ".") (deep 17).current ∧
      ∃ f, ((setup "." 1).run (Run.first (deep 17))).1 = .error f := by
  refine ⟨⟨by decide, isLogFolder_detour, by decide +kernel, store_cleanup_detour⟩, ?_, ?_, ?_⟩
  · intro s
    have hlisted : s.listed (Path.ofString "L/..") = .ok ["d"] := by rfl
    have hfolder := isLogFolder_of_none (by decide +kernel) hlisted (by decide +kernel)
    exact ⟨by decide, hfolder, by decide +kernel⟩
  · intro s
    have hs : s.WellFormed := by decide
    have hnone : logNames s s.current = [] := by decide +kernel
    have hfolder := isLogFolder_here hnone
    refine ⟨hs, hfolder, setup_fails hs hfolder (inReach_of_none hnone _) ?_⟩
    rintro (habsolute | hthere)
    · cases habsolute
    · cases hthere
  · exact ⟨(wellFormed_deep 17).1, isLogFolder_here (logNames_deep 17), setup_deep (by decide)⟩

end LogFolder

end DeferredOps
