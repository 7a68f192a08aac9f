import DeferredOps.Proofs.Store.Likeness
import DeferredOps.Proofs.Store.Relocation

/-!
# The same changes below two directories

In two stores that are alike below two directories, a change to a path below one of them and the same
change to the path with the same names below the other are both refused, for the same reason, or leave
the two stores alike again.
-/

namespace DeferredOps

open Action

namespace Store

variable {s t s' t' : Store} {w w' : Path} {base base' : Location} {names other : List String}

/-- Two stores hold the same below two directories if the same entries stand there. -/
theorem SameBelow.of_entry?_eq (h : ∀ rest, t.entry? (base' ++ rest) = s.entry? (base ++ rest)) :
    SameBelow base base' s t where
  forms rest := form?_eq_of_entry?_eq (h rest)
  files rest rest' := by rw [SameFile, SameFile, h, h]

/-- It is enough to look for each entry below one of them below the other. -/
theorem SameBelow.of_entries (hbase : t.entry? base' = s.entry? base)
    (h : ∀ e ∈ s.entries, base <+: e.1 → t.entry? (base' ++ e.1.drop base.length) = s.entry? e.1)
    (h' : ∀ e ∈ t.entries, base' <+: e.1 → s.entry? (base ++ e.1.drop base'.length) = t.entry? e.1) :
    SameBelow base base' s t := by
  refine .of_entry?_eq fun rest ↦ ?_
  by_cases hrest : rest = []
  · rw [hrest, List.append_nil, List.append_nil, hbase]
  cases hentry : s.entry? (base ++ rest) with
  | some entry =>
    have hmem := h _ (mem_entries (by simp [hrest]) hentry) (List.prefix_append _ _)
    rwa [List.drop_left, hentry] at hmem
  | none =>
    cases hentry' : t.entry? (base' ++ rest) with
    | none => rfl
    | some entry =>
      have hmem := h' _ (mem_entries (by simp [hrest]) hentry') (List.prefix_append _ _)
      rw [List.drop_left, hentry, hentry'] at hmem
      cases hmem

/-- Entries are taken from elsewhere, in the same way below both directories. -/
theorem SameBelow.reshape {pick : List String → Option (List String)} (h : SameBelow base base' s t)
    (hleft : ∀ rest, s'.entry? (base ++ rest) = (pick rest).bind fun old ↦ s.entry? (base ++ old))
    (hright : ∀ rest, t'.entry? (base' ++ rest) = (pick rest).bind fun old ↦ t.entry? (base' ++ old)) :
    SameBelow base base' s' t' where
  forms rest := by
    rw [form?, form?, hleft, hright]
    cases pick rest with
    | none => rfl
    | some old => exact h.forms old
  files rest rest' := by
    rw [SameFile, SameFile, hleft, hright, hleft, hright]
    cases pick rest with
    | none => simp
    | some old =>
      cases pick rest' with
      | none => simp
      | some old' => exact h.files old old'

/-- A directory is new at one place, in the same way below both directories. -/
theorem SameBelow.add_dir (h : SameBelow base base' s t)
    (hleft : ∀ rest, s'.entry? (base ++ rest) = if rest = names then some .dir else s.entry? (base ++ rest))
    (hright : ∀ rest, t'.entry? (base' ++ rest) =
      if rest = names then some .dir else t.entry? (base' ++ rest)) :
    SameBelow base base' s' t' where
  forms rest := by
    rw [form?, form?, hleft, hright]
    split
    · rfl
    · exact h.forms rest
  files rest rest' := by
    rw [SameFile, SameFile, hleft, hright, hleft, hright]
    by_cases hrest : rest = names
    · simp [hrest]
    · by_cases hrest' : rest' = names
      · simp [hrest']
      · simp only [if_neg hrest, if_neg hrest']
        exact h.files rest rest'

/-- No symbolic link is new in a directory. -/
theorem NoLinks.of_old (h : s.NoLinks base)
    (hold : ∀ rest text, s'.entry? (base ++ rest) = some (.link text) →
      ∃ old, s.entry? (base ++ old) = some (.link text)) : s'.NoLinks base := by
  rintro l text ⟨rest, rfl⟩ hl
  obtain ⟨old, hthere⟩ := hold rest text hl
  exact h _ text (List.prefix_append _ _) hthere

theorem NoLinks.reshape {pick : List String → Option (List String)} (h : s.NoLinks base)
    (hentry : ∀ rest, s'.entry? (base ++ rest) = (pick rest).bind fun old ↦ s.entry? (base ++ old)) :
    s'.NoLinks base := by
  refine h.of_old fun rest text hl ↦ ?_
  rw [hentry] at hl
  obtain ⟨old, -, hthere⟩ := Option.bind_eq_some_iff.mp hl
  exact ⟨old, hthere⟩

/-- What holds the same as a directory without symbolic links has none. -/
theorem SameBelow.noLinks (h : SameBelow base base' s t) (hlinks : s.NoLinks base) : t.NoLinks base' := by
  rintro l text ⟨rest, rfl⟩ hl
  rcases forms_cases (fun text ↦ hlinks _ text (List.prefix_append _ _)) (h.forms rest) with
    ⟨-, hnone⟩ | ⟨-, hdir⟩ | ⟨_, _, _, -, hfile⟩ <;> simp_all

theorem not_prefix_dropLast (hne : base ≠ []) (rest : List String) : ¬ base ++ rest <+: base.dropLast := by
  intro hpre
  have hlength := hpre.length_le
  have hpositive := List.length_pos_iff.mpr hne
  simp only [List.length_append, List.length_dropLast] at hlength
  omega

theorem isStrictlyBelow_append (base rest names : List String) :
    isStrictlyBelow (base ++ rest) (base ++ names) = isStrictlyBelow rest names := by
  rw [Bool.eq_iff_iff, isStrictlyBelow_iff, isStrictlyBelow_iff, List.prefix_append_right_inj, Ne,
    List.append_cancel_left_eq]

/-- Whether an entry may be carried does not depend on the directory that both its place and the new one
lie below. -/
theorem carryChecked_append {source target : List String} {entry : Entry}
    (hentry : s.entry? (base ++ source) = some entry) :
    s.carryChecked (base ++ source) (base ++ target) =
      if isStrictlyBelow target source then .error .invalidArgument
      else if isStrictlyBelow source target then .error .notEmpty
      else match s.entry? (base ++ target) with
        | none => .ok (s.carry (base ++ source) (base ++ target))
        | some old =>
          if isSame (base ++ source, entry) (base ++ target, old) then .ok s
          else (s.checkReplace entry (base ++ target) old).map fun _ ↦
            s.carry (base ++ source) (base ++ target) := by
  rw [carryChecked, hentry, isStrictlyBelow_append, isStrictlyBelow_append] <;> rfl

/-- What is carried to a name in a directory, and is not there already, may be carried there. -/
theorem canCarry_of_carryChecked {source target directory : Location} {name : String}
    (hs : s.WellFormed) (hsource : source ≠ []) (hplace : directory ++ [name] = target)
    (hdir : s.entry? directory = some .dir) (hname : IsName name)
    (hrun : s.carryChecked source target = .ok s')
    (hother : ∀ entry old, s.entry? source = some entry → s.entry? target = some old →
      Store.isSame (source, entry) (target, old) = false) :
    s.CanCarry source directory name := by
  subst hplace
  rcases carryChecked_ok hs hsource hdir hname hrun with
    ⟨-, entry, old, hentry, hold, hsame⟩ | ⟨hcan, -⟩
  · rw [hother entry old hentry hold] at hsame
    cases hsame
  · exact hcan

theorem Orderly.usable (h : s.Orderly base) : s.WellFormed ∧ s.Numbered :=
  ⟨h.wellFormed, h.numbered⟩

/-- A store is still orderly after a change below the directory. -/
theorem Orderly.of_kept (h : s.Orderly base) (hne : base ≠ [])
    (hkept : s'.WellFormed ∧ s'.Numbered) (hlinks : s'.NoLinks base)
    (hstays : ∀ l, (∀ rest, ¬ base ++ rest <+: l) → s'.entry? l = s.entry? l) : s'.Orderly base where
  wellFormed := hkept.1
  noLinks := hlinks
  numbered := hkept.2
  above := (hstays _ (not_prefix_dropLast hne)).trans h.above

/-- The outcome of a change: two stores that are alike, or the same error. -/
inductive ChangesAlike (w w' : Path) : Except SystemError Store → Except SystemError Store → Prop
  | ok {made made' : Store} (h : Alike w w' made made') : ChangesAlike w w' (.ok made) (.ok made')
  | error (e : SystemError) : ChangesAlike w w' (.error e) (.error e)

namespace Alike

variable (h : Alike w w' s t)
include h

/-- A change below both directories that keeps what every change keeps. -/
theorem of_kept (hbelow : SameBelow w.parts w'.parts s' t') (hlinks : s'.NoLinks w.parts)
    (hleft : s'.WellFormed ∧ s'.Numbered) (hright : t'.WellFormed ∧ t'.Numbered)
    (hstays : ∀ l, (∀ rest, ¬ w.parts ++ rest <+: l) → s'.entry? l = s.entry? l)
    (hstays' : ∀ l, (∀ rest, ¬ w'.parts ++ rest <+: l) → t'.entry? l = t.entry? l) :
    Alike w w' s' t' where
  toSameBelow := hbelow
  home := h.home
  home' := h.home'
  left := h.left.of_kept h.home.named hleft hlinks hstays
  right := h.right.of_kept h.home'.named hright (hbelow.noLinks hlinks) hstays'

theorem erase (hleft : ∀ name, s.entry? (w.parts ++ names ++ [name]) = none)
    (hright : ∀ name, t.entry? (w'.parts ++ names ++ [name]) = none) :
    Alike w w' (s.erase (w.parts ++ names)) (t.erase (w'.parts ++ names)) := by
  have hentry {r : Store} {v : Path} (hv : v.Home) (rest : List String) :
      entry? (r.erase (v.parts ++ names)) (v.parts ++ rest) =
        (if rest = names then none else some rest).bind fun old ↦ r.entry? (v.parts ++ old) := by
    rw [entry?_erase (by simp [hv.named])]
    simp only [List.append_cancel_left_eq]
    split <;> rfl
  have hstays {r : Store} {v : Path} (hv : v.Home) (l : Location) (hl : ∀ rest, ¬ v.parts ++ rest <+: l) :
      entry? (r.erase (v.parts ++ names)) l = r.entry? l := by
    rw [entry?_erase (by simp [hv.named]), if_neg]
    rintro rfl
    exact hl names (List.prefix_refl _)
  exact h.of_kept (h.toSameBelow.reshape (hentry h.home) (hentry h.home'))
    (h.left.noLinks.reshape (hentry h.home)) ⟨h.left.wellFormed.erase hleft, h.left.numbered.discard _⟩
    ⟨h.right.wellFormed.erase hright, h.right.numbered.discard _⟩ (hstays h.home) (hstays h.home')

theorem clear (names : List String) :
    Alike w w' (s.clear (w.parts ++ names)) (t.clear (w'.parts ++ names)) := by
  have hentry (r : Store) (v : Path) (rest : List String) :
      entry? (r.clear (v.parts ++ names)) (v.parts ++ rest) =
        (if isStrictlyBelow rest names then none else some rest).bind fun old ↦
          r.entry? (v.parts ++ old) := by
    rw [entry?_clear, isStrictlyBelow_append]
    split <;> rfl
  have hstays (r : Store) (v : Path) (l : Location) (hl : ∀ rest, ¬ v.parts ++ rest <+: l) :
      entry? (r.clear (v.parts ++ names)) l = r.entry? l := by
    rw [entry?_clear, if_neg]
    rw [isStrictlyBelow_iff]
    exact fun hpre ↦ hl names hpre.1
  exact h.of_kept (h.toSameBelow.reshape (hentry s w) (hentry t w'))
    (h.left.noLinks.reshape (hentry s w)) ⟨h.left.wellFormed.clear, h.left.numbered.discard _⟩
    ⟨h.right.wellFormed.clear, h.right.numbered.discard _⟩ (hstays s w) (hstays t w')

/-- A free place in a directory that is there becomes a directory. -/
theorem putDir {directory directory' : Location} {name name' : String}
    (hplace : directory ++ [name] = w.parts ++ names) (hplace' : directory' ++ [name'] = w'.parts ++ names)
    (hdir : s.entry? directory = some .dir) (hdir' : t.entry? directory' = some .dir)
    (hname : IsName name) (hname' : IsName name') (hfree : s.entry? (directory ++ [name]) = none)
    (hfree' : t.entry? (directory' ++ [name']) = none) :
    Alike w w' (s.put (directory ++ [name]) .dir) (t.put (directory' ++ [name']) .dir) := by
  have hwell : (s.put (directory ++ [name]) .dir).WellFormed :=
    h.left.wellFormed.put hdir hname hfree (by simp)
  have hwell' : (t.put (directory' ++ [name']) .dir).WellFormed :=
    h.right.wellFormed.put hdir' hname' hfree' (by simp)
  rw [hplace] at hwell ⊢
  rw [hplace'] at hwell' ⊢
  have hentry {r : Store} {v : Path} (hv : v.Home) (rest : List String) :
      entry? (r.put (v.parts ++ names) .dir) (v.parts ++ rest) =
        if rest = names then some .dir else r.entry? (v.parts ++ rest) := by
    rw [entry?_put (by simp [hv.named])]
    simp only [List.append_cancel_left_eq]
  have hstays {r : Store} {v : Path} (hv : v.Home) (l : Location) (hl : ∀ rest, ¬ v.parts ++ rest <+: l) :
      entry? (r.put (v.parts ++ names) .dir) l = r.entry? l := by
    rw [entry?_put (by simp [hv.named]), if_neg]
    rintro rfl
    exact hl names (List.prefix_refl _)
  have hlinks : (s.put (w.parts ++ names) .dir).NoLinks w.parts :=
    h.left.noLinks.of_old fun rest text hl ↦ by
      rw [hentry h.home] at hl
      split at hl
      · cases hl
      · exact ⟨rest, hl⟩
  exact h.of_kept (h.toSameBelow.add_dir (hentry h.home) (hentry h.home')) hlinks
    ⟨hwell, h.left.numbered.put (by simp [h.home.named]) rfl⟩
    ⟨hwell', h.right.numbered.put (by simp [h.home'.named]) rfl⟩ (hstays h.home) (hstays h.home')

/-- An entry is carried from one place below the directory to another. -/
theorem carry {source target : List String} {directory directory' : Location} {name name' : String}
    (hplace : directory ++ [name] = w.parts ++ target)
    (hplace' : directory' ++ [name'] = w'.parts ++ target)
    (hcan : s.CanCarry (w.parts ++ source) directory name)
    (hcan' : t.CanCarry (w'.parts ++ source) directory' name') :
    Alike w w' (s.carry (w.parts ++ source) (w.parts ++ target))
      (t.carry (w'.parts ++ source) (w'.parts ++ target)) := by
  have hentry {r : Store} {v : Path} {d : Location} {n : String} (hd : d ++ [n] = v.parts ++ target)
      (hcan : r.CanCarry (v.parts ++ source) d n) (rest : List String) :
      entry? (r.carry (v.parts ++ source) (v.parts ++ target)) (v.parts ++ rest) =
        (if target <+: rest then some (source ++ rest.drop target.length)
          else if source <+: rest then none else some rest).bind fun old ↦
            r.entry? (v.parts ++ old) := by
    rw [← hd, hcan.entry?_carry, hd]
    simp only [List.prefix_append_right_inj]
    split
    · next htarget =>
      obtain ⟨more, rfl⟩ := htarget
      simp [← List.append_assoc]
    · split <;> rfl
  have hstays {r : Store} {v : Path} {d : Location} {n : String} (hd : d ++ [n] = v.parts ++ target)
      (hcan : r.CanCarry (v.parts ++ source) d n) (l : Location) (hl : ∀ rest, ¬ v.parts ++ rest <+: l) :
      entry? (r.carry (v.parts ++ source) (v.parts ++ target)) l = r.entry? l := by
    rw [← hd, hcan.entry?_carry_apart (hd ▸ hl target) (hl source)]
  have hkept {r : Store} {v : Path} {d : Location} {n : String} (hr : r.Orderly v.parts)
      (hd : d ++ [n] = v.parts ++ target) (hcan : r.CanCarry (v.parts ++ source) d n) :
      (r.carry (v.parts ++ source) (v.parts ++ target)).WellFormed ∧
        (r.carry (v.parts ++ source) (v.parts ++ target)).Numbered := by
    rw [← hd]
    exact ⟨hr.wellFormed.carry hcan, hr.numbered.carry hcan⟩
  exact h.of_kept (h.toSameBelow.reshape (hentry hplace hcan) (hentry hplace' hcan'))
    (h.left.noLinks.reshape (hentry hplace hcan)) (hkept h.left hplace hcan)
    (hkept h.right hplace' hcan') (hstays hplace hcan)
    (hstays hplace' hcan')

/-! ### Single changes -/

theorem isEmptyDir (names : List String) :
    s.isEmptyDir (w.parts ++ names) = t.isEmptyDir (w'.parts ++ names) := by
  rw [Bool.eq_iff_iff, Store.isEmptyDir, Store.isEmptyDir, List.isEmpty_iff, List.isEmpty_iff]
  constructor
  · exact fun hempty ↦ List.nil_perm.mp (hempty ▸ h.names_perm names)
  · exact fun hempty ↦ List.perm_nil.mp (hempty ▸ h.names_perm names)

theorem unlink (hnames : PlainNames names)
    (hshort : (w.extend names).text.utf8ByteSize < pathLimit)
    (hshort' : (w'.extend names).text.utf8ByteSize < pathLimit) :
    ChangesAlike w w' (s.unlink (w.extend names)) (t.unlink (w'.extend names)) := by
  have hslot := h.slot hnames hshort hshort'
  unfold Store.unlink
  generalize s.slot (w.extend names) = answer at hslot ⊢
  generalize t.slot (w'.extend names) = answer' at hslot ⊢
  cases hslot with
  | error e => exact .error e
  | @name directory directory' name name' hl hl' =>
    simp only [bind, Except.bind, hl, hl']
    rcases h.forms_cases names with ⟨hnone, hnone'⟩ | ⟨hdir, hdir'⟩ | ⟨id, id', content, hfile, hfile'⟩
    · rw [hnone, hnone']
      exact .error _
    · rw [hdir, hdir']
      exact .error _
    · rw [hfile, hfile']
      refine .ok (h.erase (fun name ↦ ?_) fun name ↦ ?_)
      · exact h.left.wellFormed.none_of_append (by simp) (by simp [hfile])
      · exact h.right.wellFormed.none_of_append (by simp) (by simp [hfile'])

theorem removeDirectory (hnames : PlainNames names)
    (hshort : (w.extend names).text.utf8ByteSize < pathLimit)
    (hshort' : (w'.extend names).text.utf8ByteSize < pathLimit) :
    ChangesAlike w w' (s.removeDirectory (w.extend names)) (t.removeDirectory (w'.extend names)) := by
  have hslot := h.slot hnames hshort hshort'
  unfold Store.removeDirectory
  generalize s.slot (w.extend names) = answer at hslot ⊢
  generalize t.slot (w'.extend names) = answer' at hslot ⊢
  cases hslot with
  | error e => exact .error e
  | @name directory directory' name name' hl hl' =>
    simp only [bind, Except.bind, hl, hl']
    rcases h.forms_cases names with ⟨hnone, hnone'⟩ | ⟨hdir, hdir'⟩ | ⟨id, id', content, hfile, hfile'⟩
    · rw [hnone, hnone']
      exact .error _
    · rw [hdir, hdir', ← h.isEmptyDir]
      by_cases hempty : s.isEmptyDir (w.parts ++ names)
      · have hempty' := (h.isEmptyDir names) ▸ hempty
        simp only [hempty, if_true]
        exact .ok (h.erase (isEmptyDir_iff.mp hempty) (isEmptyDir_iff.mp hempty'))
      · simp only [hempty]
        exact .error _
    · rw [hfile, hfile']
      exact .error _

theorem makeDirectory (hnames : PlainNames names) (hclean : (w.extend names).hasNul = false)
    (hshort : (w.extend names).text.utf8ByteSize < pathLimit)
    (hshort' : (w'.extend names).text.utf8ByteSize < pathLimit) :
    ChangesAlike w w' (s.makeDirectory (w.extend names)) (t.makeDirectory (w'.extend names)) := by
  have hslot := h.slot hnames hshort hshort'
  unfold Store.makeDirectory create
  cases hanswer : s.slot (w.extend names) with
  | error e =>
    rw [hanswer] at hslot
    cases hanswer' : t.slot (w'.extend names) <;> rw [hanswer'] at hslot <;> cases hslot
    exact .error e
  | ok slot =>
    rw [hanswer] at hslot
    cases hanswer' : t.slot (w'.extend names) <;> rw [hanswer'] at hslot <;> cases hslot
    next directory directory' name name' hl hl' =>
    simp only [bind, Except.bind]
    have hcases := h.forms_cases names
    rw [← hl, ← hl'] at hcases
    rcases hcases with ⟨hnone, hnone'⟩ | ⟨hdir, hdir'⟩ | ⟨id, id', content, hfile, hfile'⟩
    · rw [hnone, hnone']
      exact .ok (h.putDir hl hl' (dir_of_slot h.left.wellFormed hanswer)
        (dir_of_slot h.right.wellFormed hanswer') (isName_of_slot (h.home.proper hnames) hclean hanswer)
        (isName_of_slot (h.home'.proper hnames) ((h.hasNul names).trans hclean) hanswer') hnone hnone')
    · rw [hdir, hdir']
      exact .error _
    · rw [hfile, hfile']
      exact .error _

theorem checkReplace {entry entry' old old' : Entry} (hform : entry'.form = entry.form)
    (hform' : old'.form = old.form) (names : List String) :
    s.checkReplace entry (w.parts ++ names) old = t.checkReplace entry' (w'.parts ++ names) old' := by
  have hdir : entry.isDir = entry'.isDir := by rw [← entry.isDir_form, ← hform, Entry.isDir_form]
  have hdir' : old.isDir = old'.isDir := by rw [← old.isDir_form, ← hform', Entry.isDir_form]
  rw [Store.checkReplace, Store.checkReplace, hdir, hdir', h.isEmptyDir]

/-- Two entries go the same way to another place, or are refused there for the same reason. -/
theorem carryChecked {source target : List String} {directory directory' : Location}
    {name name' : String} (hplace : directory ++ [name] = w.parts ++ target)
    (hplace' : directory' ++ [name'] = w'.parts ++ target) (hdir : s.entry? directory = some .dir)
    (hdir' : t.entry? directory' = some .dir) (hname : IsName name) (hname' : IsName name') :
    ChangesAlike w w' (s.carryChecked (w.parts ++ source) (directory ++ [name]))
      (t.carryChecked (w'.parts ++ source) (directory' ++ [name'])) := by
  have hsource : w.parts ++ source ≠ [] := by simp [h.home.named]
  have hsource' : w'.parts ++ source ≠ [] := by simp [h.home'.named]
  rw [hplace, hplace']
  rcases entries_of_forms (h.forms source) with ⟨hnone, hnone'⟩ | ⟨entry, entry', hentry, hentry', hform⟩
  · rw [Store.carryChecked, Store.carryChecked, hnone, hnone']
    exact .error _
  have hrun := @carryChecked_append s w.parts source target entry hentry
  have hrun' := @carryChecked_append t w'.parts source target entry' hentry'
  by_cases hinside : isStrictlyBelow target source
  · rw [hrun, hrun', if_pos hinside, if_pos hinside]
    exact .error _
  by_cases habove : isStrictlyBelow source target
  · rw [hrun, hrun', if_neg hinside, if_neg hinside, if_pos habove, if_pos habove]
    exact .error _
  rw [if_neg hinside, if_neg habove] at hrun hrun'
  rcases entries_of_forms (h.forms target) with ⟨hnone, hnone'⟩ | ⟨old, old', hold, hold', hform'⟩
  · rw [hnone] at hrun
    rw [hnone'] at hrun'
    rw [hrun, hrun']
    exact .ok (h.carry hplace hplace'
      (canCarry_of_carryChecked h.left.wellFormed hsource hplace hdir hname hrun (by simp [hnone]))
      (canCarry_of_carryChecked h.right.wellFormed hsource' hplace' hdir' hname' hrun'
        (by simp [hnone'])))
  have hsame := h.isSame hentry hentry' hold hold'
  rw [hold] at hrun
  rw [hold'] at hrun'
  dsimp only at hrun hrun'
  rw [← hsame, ← h.checkReplace hform hform' target] at hrun'
  by_cases hone : Store.isSame (w.parts ++ source, entry) (w.parts ++ target, old)
  · rw [hrun, hrun']
    simp only [hone, if_true]
    exact .ok h
  rw [Bool.not_eq_true] at hone
  cases hcheck : s.checkReplace entry (w.parts ++ target) old with
  | error e =>
    rw [hrun, hrun']
    simp only [hone, hcheck]
    exact .error e
  | ok _ =>
    simp only [hone, hcheck] at hrun hrun'
    rw [hrun, hrun']
    refine .ok (h.carry hplace hplace'
      (canCarry_of_carryChecked h.left.wellFormed hsource hplace hdir hname hrun ?_)
      (canCarry_of_carryChecked h.right.wellFormed hsource' hplace' hdir' hname' hrun' ?_))
    · intro _ _ heq heq'
      cases hentry.symm.trans heq
      cases hold.symm.trans heq'
      exact hone
    · intro _ _ heq heq'
      cases hentry'.symm.trans heq
      cases hold'.symm.trans heq'
      exact hsame ▸ hone

theorem rename (hnames : PlainNames names) (hother : PlainNames other)
    (hclean : (w.extend other).hasNul = false)
    (hshort : (w.extend names).text.utf8ByteSize < pathLimit)
    (hshort' : (w'.extend names).text.utf8ByteSize < pathLimit)
    (hother_short : (w.extend other).text.utf8ByteSize < pathLimit)
    (hother_short' : (w'.extend other).text.utf8ByteSize < pathLimit) :
    ChangesAlike w w' (s.rename (w.extend names) (w.extend other))
      (t.rename (w'.extend names) (w'.extend other)) := by
  have hsource := h.slot hnames hshort hshort'
  have htarget := h.slot hother hother_short hother_short'
  unfold Store.rename
  cases hanswer : s.slot (w.extend names) with
  | error e =>
    rw [hanswer] at hsource
    cases hanswer' : t.slot (w'.extend names) <;> rw [hanswer'] at hsource <;> cases hsource
    exact .error e
  | ok slot =>
    rw [hanswer] at hsource
    cases hanswer' : t.slot (w'.extend names) <;> rw [hanswer'] at hsource <;> cases hsource
    next directory directory' name name' hl hl' =>
    cases hplace : s.slot (w.extend other) with
    | error e =>
      rw [hplace] at htarget
      cases hplace' : t.slot (w'.extend other) <;> rw [hplace'] at htarget <;> cases htarget
      exact .error e
    | ok slot =>
      rw [hplace] at htarget
      cases hplace' : t.slot (w'.extend other) <;> rw [hplace'] at htarget <;> cases htarget
      next d d' n n' hm hm' =>
      simp only [bind, Except.bind, hl, hl']
      exact h.carryChecked hm hm' (dir_of_slot h.left.wellFormed hplace)
        (dir_of_slot h.right.wellFormed hplace') (isName_of_slot (h.home.proper hother) hclean hplace)
        (isName_of_slot (h.home'.proper hother) ((h.hasNul other).trans hclean) hplace')

end Alike

end Store

end DeferredOps
