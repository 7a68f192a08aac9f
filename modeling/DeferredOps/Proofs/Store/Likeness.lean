import DeferredOps.Proofs.Alongside
import DeferredOps.Proofs.Store.Directories
import DeferredOps.Proofs.Store.Limits
import DeferredOps.Proofs.Store.Mirroring
import DeferredOps.Proofs.Store.Numbered

/-!
# Stores that are alike below two directories

Two stores hold the same below two directories if the same relative locations are directories there, or
files with the same content, and the same names stand for one file; symbolic links are only elsewhere. A path
below one of the directories then leads to where the path with the same names below the other leads,
and every question about the two has the same answer, as far as neither path is too long.
-/

namespace DeferredOps

open Action

/-- Names that a path read from a text can have, but for `..`. -/
def PlainNames (names : List String) : Prop :=
  ∀ name ∈ names, IsPart name ∧ name ≠ "." ∧ name ≠ ".."

/-- An absolute path of legal names, other than the top. -/
structure Path.Home (w : Path) : Prop where
  isAbsolute : w.isAbsolute
  named : w.parts ≠ []
  isName : ∀ name ∈ w.parts, IsName name

/-- A path that may be asked about: it holds the character NUL, so that it leads nowhere, or it is not
too long. -/
def Path.Reached (p : Path) : Prop :=
  p.hasNul ∨ p.text.utf8ByteSize < Store.pathLimit

namespace Store

/-- Whether one file stands at both locations. -/
def SameFile (s : Store) (location other : Location) : Prop :=
  ∃ id content content', s.entry? location = some (.file id content) ∧
    s.entry? other = some (.file id content')

/-- Two stores hold the same below two directories. -/
structure SameBelow (base base' : Location) (s t : Store) : Prop where
  forms rest : t.form? (base' ++ rest) = s.form? (base ++ rest)
  files rest rest' :
    t.SameFile (base' ++ rest) (base' ++ rest') ↔ s.SameFile (base ++ rest) (base ++ rest')

/-- A store in which the parent of a directory is there, and no symbolic link in the directory. -/
structure Orderly (s : Store) (base : Location) : Prop where
  wellFormed : s.WellFormed
  noLinks : s.NoLinks base
  numbered : s.Numbered
  above : s.entry? base.dropLast = some .dir

/-- Two stores are alike below two working directories. -/
structure Alike (w w' : Path) (s t : Store) : Prop extends SameBelow w.parts w'.parts s t where
  home : w.Home
  home' : w'.Home
  left : s.Orderly w.parts
  right : t.Orderly w'.parts

/-- What two paths lead to: entries of the same form at the two locations, two free names, or nothing
for the same reason. -/
inductive TargetsAlike (s t : Store) (l l' : Location) :
    Except SystemError Target → Except SystemError Target → Prop
  | found {entry entry'} (hentry : s.entry? l = some entry) (hentry' : t.entry? l' = some entry')
      (hform : entry'.form = entry.form) :
      TargetsAlike s t l l' (.ok (.found l entry)) (.ok (.found l' entry'))
  | absent (directory directory' : Location) (name name' : String) :
      TargetsAlike s t l l' (.ok (.absent directory name)) (.ok (.absent directory' name'))
  | error (e : SystemError) : TargetsAlike s t l l' (.error e) (.error e)

/-- The slots of two paths: the same two locations, or none for the same reason. -/
inductive SlotsAlike (l l' : Location) : Except SystemError Slot → Except SystemError Slot → Prop
  | name {directory directory' name name'} (h : directory ++ [name] = l)
      (h' : directory' ++ [name'] = l') :
      SlotsAlike l l' (.ok (.name directory name)) (.ok (.name directory' name'))
  | error (e : SystemError) : SlotsAlike l l' (.error e) (.error e)

/-- What two questions find: entries of the same form at the two locations, or nothing. -/
inductive FoundAlike (s t : Store) (l l' : Location) :
    Option (Location × Entry) → Option (Location × Entry) → Prop
  | none : FoundAlike s t l l' none none
  | some {entry entry'} (hentry : s.entry? l = some entry) (hentry' : t.entry? l' = some entry')
      (hform : entry'.form = entry.form) :
      FoundAlike s t l l' (some (l, entry)) (some (l', entry'))

variable {s t : Store} {w w' : Path} {last : LastLink} {links : ℕ} {l l' directory directory' : Location}
  {names rest : List String} {name : String}

/-- No symbolic link is on the way to anything in the directory. -/
theorem Orderly.noLinksTo {base : Location} (h : s.Orderly base) (rest : List String) :
    s.NoLinksTo (base ++ rest) := by
  intro l text hl
  rcases List.prefix_or_prefix_of_prefix hl (List.prefix_append base rest) with ⟨more, rfl⟩ | hbelow
  · by_cases hmore : more = []
    · exact h.noLinks l text (by simp [hmore])
    · have habove : l <+: (l ++ more).dropLast := by
        rw [List.dropLast_append_of_ne_nil hmore]
        exact List.prefix_append _ _
      simp [h.wellFormed.dir_of_prefix h.above habove]
  · exact h.noLinks l text hbelow

/-! ## Following paths -/

/-- A name that is too long is refused in every directory that is there. -/
theorem walk_cons_of_long (hdot : name ≠ ".") (hdotDot : name ≠ "..")
    (hthere : isRemoved directory = false) (hlong : nameLimit < name.utf8ByteSize) :
    s.walk last links directory (name :: rest) = .error .nameTooLong := by
  cases links <;> simp [walk, walkNames, hdot, hdotDot, hthere, hlong]

/-- Names that lead to a directory are followed to it. -/
theorem walk_append_of_dir (hs : s.WellFormed) (hdirectory : s.entry? directory = some .dir)
    (hdir : s.entry? (directory ++ names) = some .dir) :
    s.walk last links directory (names ++ rest) = s.walk last links (directory ++ names) rest := by
  induction names generalizing directory with
  | nil => rw [List.nil_append, List.append_nil]
  | cons name names ih =>
    have hlegal : IsName name := hs.isName_of_mem hdir (by simp)
    have hname : LookedUp directory name :=
      ⟨hlegal.ne_dot, hlegal.ne_dotDot, hs.not_isRemoved hdirectory, hlegal.short⟩
    rw [List.append_cons] at hdir ⊢
    have hmiddle := hs.dir_of_prefix hdir (List.prefix_append _ _)
    rw [List.cons_append, hname.walk_cons, hmiddle]
    exact ih hmiddle hdir

theorem form?_eq_dir_iff : s.form? l = some .dir ↔ s.entry? l = some .dir := by
  unfold form?
  cases s.entry? l with
  | none => simp
  | some entry => cases entry <;> simp [Entry.form]

/-- Where two stores have the same form they both have nothing, or entries of this form. -/
theorem entries_of_forms (h : t.form? l' = s.form? l) :
    (s.entry? l = none ∧ t.entry? l' = none) ∨
      ∃ entry entry', s.entry? l = some entry ∧ t.entry? l' = some entry' ∧ entry'.form = entry.form := by
  unfold form? at h
  cases hentry : s.entry? l <;> cases hentry' : t.entry? l' <;> simp_all

/-- They both have nothing, a directory or a file. -/
theorem forms_cases (hlink : ∀ text, s.entry? l ≠ some (.link text)) (h : t.form? l' = s.form? l) :
    (s.entry? l = none ∧ t.entry? l' = none) ∨
      (s.entry? l = some .dir ∧ t.entry? l' = some .dir) ∨
        ∃ id id' content, s.entry? l = some (.file id content) ∧
          t.entry? l' = some (.file id' content) := by
  rcases entries_of_forms h with hnone | ⟨entry, entry', hentry, hentry', hform⟩
  · exact .inl hnone
  rw [hentry, hentry']
  cases entry with
  | dir => cases entry' <;> simp_all [Entry.form]
  | file id content => cases entry' <;> simp_all [Entry.form]
  | link text => exact absurd hentry (hlink text)

/-- One step of two walks: a legal name leads on, to the end or to a refusal in both. -/
theorem targetsAlike_cons (hlinks : s.NoLinks (directory ++ [name])) {name' : String}
    (hname : LookedUp directory name) (hname' : LookedUp directory' name')
    (hform : t.form? (directory' ++ [name']) = s.form? (directory ++ [name]))
    (hrest : s.entry? (directory ++ [name]) = some .dir → t.entry? (directory' ++ [name']) = some .dir →
      TargetsAlike s t (directory ++ name :: names) (directory' ++ name' :: names)
        (s.walk last links (directory ++ [name]) names) (t.walk last links (directory' ++ [name']) names)) :
    TargetsAlike s t (directory ++ name :: names) (directory' ++ name' :: names)
      (s.walk last links directory (name :: names)) (t.walk last links directory' (name' :: names)) := by
  rw [hname.walk_cons, hname'.walk_cons]
  obtain ⟨hnone, hnone'⟩ | ⟨hdir, hdir'⟩ | ⟨id, id', content, hfile, hfile'⟩ :=
    forms_cases hlinks.here hform
  · rw [hnone, hnone']
    cases names with
    | nil => exact .absent ..
    | cons => exact .error _
  · simpa only [hdir, hdir'] using hrest hdir hdir'
  · rw [hfile, hfile']
    cases names with
    | nil => exact .found hfile hfile' rfl
    | cons => exact .error _

/-- Names that are followed from two directories below which two stores are alike. -/
theorem targetsAlike_walk (hs : s.WellFormed) (hlinks : s.NoLinks directory) (ht : t.WellFormed)
    (hnames : PlainNames names)
    (hforms : ∀ rest, t.form? (directory' ++ rest) = s.form? (directory ++ rest))
    (hdir : s.entry? directory = some .dir) (hdir' : t.entry? directory' = some .dir) :
    TargetsAlike s t (directory ++ names) (directory' ++ names) (s.walk last links directory names)
      (t.walk last links directory' names) := by
  induction names generalizing directory directory' with
  | nil =>
    rw [walk_nil, walk_nil, List.append_nil, List.append_nil]
    exact .found hdir hdir' rfl
  | cons name names ih =>
    obtain ⟨-, hdot, hdotDot⟩ := hnames name List.mem_cons_self
    have hthere := hs.not_isRemoved hdir
    have hthere' := ht.not_isRemoved hdir'
    by_cases hlong : nameLimit < name.utf8ByteSize
    · rw [walk_cons_of_long hdot hdotDot hthere hlong, walk_cons_of_long hdot hdotDot hthere' hlong]
      exact .error _
    · refine targetsAlike_cons (hlinks.child name) ⟨hdot, hdotDot, hthere, Nat.le_of_not_lt hlong⟩
        ⟨hdot, hdotDot, hthere', Nat.le_of_not_lt hlong⟩ (hforms [name]) fun hchild hchild' ↦ ?_
      rw [List.append_cons, List.append_cons directory']
      refine ih (hlinks.child name) (fun n hn ↦ hnames n (List.mem_cons_of_mem _ hn)) (fun rest ↦ ?_)
        hchild hchild'
      simpa using hforms (name :: rest)

/-- An absolute path that is not too long is followed from the top. -/
theorem target_eq_walk {p : Path} (hp : p.isAbsolute) (hshort : p.text.utf8ByteSize < pathLimit) :
    s.target last p = s.walk last linkLimit [] p.parts := by
  rw [Store.target, startChecked, if_neg (by omega), start, if_pos hp]
  rfl

/-- The slot of an absolute path with a last name, by what the names before it lead to. -/
theorem slot_eq_of_concat {p : Path} {front : List String} (hp : p.isAbsolute)
    (hshort : p.text.utf8ByteSize < pathLimit) (hparts : p.parts = front ++ [name]) (hdot : name ≠ ".")
    (hdotDot : name ≠ "..") :
    s.slot p = (s.walk .followed linkLimit [] front).bind fun target ↦
      target.directory.bind fun directory ↦
        if isRemoved directory then .error .noEntry
        else if nameLimit < name.utf8ByteSize then .error .nameTooLong
        else .ok (.name directory name) := by
  have hlong : ¬ pathLimit ≤ p.text.utf8ByteSize := by omega
  have hstart : s.start p = [] := by rw [start, if_pos hp]
  unfold Store.slot startChecked
  simp only [hlong, if_false, bind, Except.bind, hparts, List.dropLast_concat, hstart,
    List.getLast?_concat, hdot, hdotDot]
  rfl

/-- The slot of an absolute path whose last name is legal, in a directory that is there. -/
theorem slot_of_dir {p : Path} (hs : s.WellFormed) (hp : p.isAbsolute)
    (hshort : p.text.utf8ByteSize < pathLimit) (hparts : p.parts = directory ++ [name])
    (hname : IsName name) (hdir : s.entry? directory = some .dir) :
    s.slot p = .ok (.name directory name) := by
  have hfront : s.Leads .followed linkLimit (s.start p) directory (.found directory .dir) := by
    rw [start, if_pos hp]
    exact (leads_of_entry hs rfl (by simpa using hdir) rfl).mono (Nat.zero_le _)
  rw [slot_of_parts hshort hparts hfront, if_neg hname.ne_dot, if_neg hname.ne_dotDot,
    hs.not_isRemoved hdir, if_neg (by simp), if_neg (Nat.not_lt_of_le hname.short)]

namespace Alike

variable (h : Alike w w' s t)
include h

theorem forms_cases (names : List String) :
    (s.entry? (w.parts ++ names) = none ∧ t.entry? (w'.parts ++ names) = none) ∨
      (s.entry? (w.parts ++ names) = some .dir ∧ t.entry? (w'.parts ++ names) = some .dir) ∨
        ∃ id id' content, s.entry? (w.parts ++ names) = some (.file id content) ∧
          t.entry? (w'.parts ++ names) = some (.file id' content) :=
  Store.forms_cases (fun text ↦ h.left.noLinks _ text (List.prefix_append _ _)) (h.forms names)

theorem exists_base : ∃ front name front' name', w.parts = front ++ [name] ∧
    w'.parts = front' ++ [name'] ∧ IsName name ∧ IsName name' ∧ s.entry? front = some .dir ∧
      t.entry? front' = some .dir := by
  obtain ⟨front, name, hparts⟩ := List.eq_nil_or_concat w.parts |>.resolve_left h.home.named
  obtain ⟨front', name', hparts'⟩ := List.eq_nil_or_concat w'.parts |>.resolve_left h.home'.named
  rw [List.concat_eq_append] at hparts hparts'
  have habove := h.left.above
  have habove' := h.right.above
  rw [hparts, List.dropLast_concat] at habove
  rw [hparts', List.dropLast_concat] at habove'
  exact ⟨front, name, front', name', hparts, hparts', h.home.isName name (by simp [hparts]),
    h.home'.isName name' (by simp [hparts']), habove, habove'⟩

/-- The names of the two working directories lead on alike, with the same names behind them. -/
theorem targetsAlike_from_top (hnames : PlainNames names) :
    TargetsAlike s t (w.parts ++ names) (w'.parts ++ names) (s.walk last links [] (w.parts ++ names))
      (t.walk last links [] (w'.parts ++ names)) := by
  obtain ⟨front, name, front', name', hparts, hparts', hname, hname', hdir, hdir'⟩ := h.exists_base
  have hforms := h.forms
  have hlinks := h.left.noLinks
  rw [hparts] at hlinks
  rw [hparts, hparts'] at hforms ⊢
  rw [← List.append_cons, ← List.append_cons]
  rw [walk_append_of_dir h.left.wellFormed (entry?_nil s) (by simpa using hdir),
    walk_append_of_dir h.right.wellFormed (entry?_nil t) (by simpa using hdir'),
    List.nil_append, List.nil_append]
  refine targetsAlike_cons hlinks
    ⟨hname.ne_dot, hname.ne_dotDot, h.left.wellFormed.not_isRemoved hdir, hname.short⟩
    ⟨hname'.ne_dot, hname'.ne_dotDot, h.right.wellFormed.not_isRemoved hdir', hname'.short⟩
    (by simpa using hforms []) fun hbase hbase' ↦ ?_
  rw [List.append_cons, List.append_cons front']
  exact targetsAlike_walk h.left.wellFormed hlinks h.right.wellFormed hnames hforms hbase hbase'

/-- Two paths with the same names below the two working directories lead to the same, unless one of
them is too long. -/
theorem target (hnames : PlainNames names)
    (hshort : (w.extend names).text.utf8ByteSize < pathLimit)
    (hshort' : (w'.extend names).text.utf8ByteSize < pathLimit) :
    TargetsAlike s t (w.parts ++ names) (w'.parts ++ names) (s.target last (w.extend names))
      (t.target last (w'.extend names)) := by
  rw [target_eq_walk (p := w.extend names) h.home.isAbsolute hshort,
    target_eq_walk (p := w'.extend names) h.home'.isAbsolute hshort']
  exact h.targetsAlike_from_top hnames

/-- The same for the slots of two such paths. -/
theorem slot (hnames : PlainNames names)
    (hshort : (w.extend names).text.utf8ByteSize < pathLimit)
    (hshort' : (w'.extend names).text.utf8ByteSize < pathLimit) :
    SlotsAlike (w.parts ++ names) (w'.parts ++ names) (s.slot (w.extend names))
      (t.slot (w'.extend names)) := by
  rcases List.eq_nil_or_concat names with rfl | ⟨front, name, hfront⟩
  · obtain ⟨front, name, front', name', hparts, hparts', hname, hname', hdir, hdir'⟩ := h.exists_base
    have hslot : s.slot (w.extend []) = .ok (.name front name) :=
      slot_of_dir h.left.wellFormed h.home.isAbsolute hshort (by simpa using hparts) hname hdir
    have hslot' : t.slot (w'.extend []) = .ok (.name front' name') :=
      slot_of_dir h.right.wellFormed h.home'.isAbsolute hshort' (by simpa using hparts') hname' hdir'
    rw [hslot, hslot', List.append_nil, List.append_nil, hparts, hparts']
    exact .name rfl rfl
  rw [List.concat_eq_append] at hfront
  subst hfront
  obtain ⟨-, hdot, hdotDot⟩ := hnames name (by simp)
  have hwalk : TargetsAlike s t (w.parts ++ front) (w'.parts ++ front)
      (s.walk .followed linkLimit [] (w.parts ++ front))
      (t.walk .followed linkLimit [] (w'.parts ++ front)) :=
    h.targetsAlike_from_top fun n hn ↦ hnames n (List.mem_append_left _ hn)
  have hparts (p : Path) : (p.extend (front ++ [name])).parts = p.parts ++ front ++ [name] := by simp
  rw [slot_eq_of_concat (p := w.extend _) h.home.isAbsolute hshort (hparts w) hdot hdotDot,
    slot_eq_of_concat (p := w'.extend _) h.home'.isAbsolute hshort' (hparts w') hdot hdotDot]
  generalize s.walk .followed linkLimit [] (w.parts ++ front) = answer at hwalk ⊢
  generalize t.walk .followed linkLimit [] (w'.parts ++ front) = answer' at hwalk ⊢
  cases hwalk with
  | error e => exact .error e
  | absent => exact .error _
  | @found entry entry' hentry hentry' hform =>
    cases entry with
    | link text => exact absurd hentry (h.left.noLinks _ text (List.prefix_append _ _))
    | file =>
      cases entry' with
      | file => exact .error _
      | dir | link => cases hform
    | dir =>
      cases entry' with
      | file | link => cases hform
      | dir =>
        dsimp only [Except.bind, Target.directory]
        rw [h.left.wellFormed.not_isRemoved hentry, h.right.wellFormed.not_isRemoved hentry']
        by_cases hlong : nameLimit < name.utf8ByteSize
        · simp only [hlong, if_true]
          exact .error _
        · simp only [hlong, if_false]
          exact .name (List.append_assoc ..) (List.append_assoc ..)

end Alike

end Store

/-! ## Questions -/

theorem Path.Home.isPart {w : Path} (h : w.Home) {name : String} (hname : name ∈ w.parts) :
    IsPart name :=
  (h.isName name hname).isPart

theorem Path.Home.proper {w : Path} (h : w.Home) {names : List String} (hnames : PlainNames names) :
    (w.extend names).Proper := by
  intro name hname
  rcases List.mem_append.mp hname with hname | hname
  · exact h.isPart hname
  · exact (hnames name hname).1

theorem Path.Home.straight {w : Path} (h : w.Home) {names : List String} (hnames : PlainNames names) :
    (w.extend names).Straight where
  isAbsolute := h.isAbsolute
  noDots name hname := by
    rcases List.mem_append.mp hname with hname | hname
    · exact ⟨(h.isName name hname).ne_dot, (h.isName name hname).ne_dotDot⟩
    · exact (hnames name hname).2

/-- What is below a path of legal names holds the character NUL if the names there do. -/
theorem Path.Home.hasNul_extend {w : Path} (h : w.Home) (names : List String) :
    (w.extend names).hasNul = names.any fun name ↦ name.toList.contains '\x00' := by
  have hclean : (w.parts.any fun name ↦ name.toList.contains '\x00') = false := by
    rw [List.any_eq_false]
    exact fun name hname ↦ by simpa using (h.isName name hname).noNul
  rw [hasNul, parts_extend, List.any_append, hclean, Bool.false_or]

/-- Two paths hold the character NUL, or one of them is too long, or neither is the case. -/
inductive Path.Limits (p p' : Path) : Prop
  | nul (h : p.hasNul) (h' : p'.hasNul)
  | left (hclean : p.hasNul = false) (hlong : Store.pathLimit ≤ p.text.utf8ByteSize)
  | right (hclean : p'.hasNul = false) (hlong : Store.pathLimit ≤ p'.text.utf8ByteSize)
  | short (hclean : p.hasNul = false) (hclean' : p'.hasNul = false)
      (hshort : p.text.utf8ByteSize < Store.pathLimit) (hshort' : p'.text.utf8ByteSize < Store.pathLimit)

/-- A failure because this path is too long. -/
def Path.TooLong (p : Path) (f : Failure) : Prop :=
  p.hasNul = false ∧ Store.pathLimit ≤ p.text.utf8ByteSize ∧ f = .ofPath .nameTooLong p

/-- A failure because one of two paths is too long is an excuse. -/
structure Action.Excuse.Allows {σ : Type} (e : Excuse σ) (p p' : Path) : Prop where
  left f (h : p.TooLong f) : e.left f
  right f (h : p'.TooLong f) : e.right f

@[simp]
theorem Entry.isDir_form (entry : Entry) : entry.form.isDir = entry.isDir := by
  cases entry <;> rfl

@[simp]
theorem Entry.isFile_form (entry : Entry) : entry.form.isFile = entry.isFile := by
  cases entry <;> rfl

@[simp]
theorem Entry.isLink_form (entry : Entry) : entry.form.isLink = entry.isLink := by
  cases entry <;> rfl

namespace Store

variable {s t : Store} {w w' : Path} {last : LastLink} {l l' directory directory' : Location}
  {names other rest : List String} {name : String} {σ : Type} {e : Excuse σ}

/-- A path below a working directory lists no other directory than the one that it names. -/
theorem Orderly.noLinks_of_listed (h : s.Orderly w.parts) (hw : w.Home) (hnames : PlainNames names)
    (hlisted : s.listed (w.extend names) = .ok directory) : s.NoLinks directory := by
  obtain ⟨-, rfl, -⟩ := (target_straight_iff h.wellFormed (h.noLinksTo names) (hw.straight hnames)).mp
    (listed_eq_ok_iff.mp hlisted).2
  exact h.noLinks.mono (List.prefix_append _ _)

theorem FoundAlike.answers {found found' : Option (Location × Entry)} {test : Entry → Bool}
    (h : FoundAlike s t l l' found found') (htest : ∀ entry : Entry, test entry.form = test entry) :
    answers test found = answers test found' := by
  cases h with
  | none => rfl
  | some _ _ hform =>
    change test _ = test _
    rw [← htest, ← hform, htest]

theorem isSame_iff {entry entry' : Entry} (hentry : s.entry? l = some entry)
    (hentry' : s.entry? l' = some entry') :
    isSame (l, entry) (l', entry') ↔ l = l' ∨ s.SameFile l l' := by
  have hsame : l = l' → entry = entry' := by
    rintro rfl
    simpa using hentry.symm.trans hentry'
  unfold SameFile
  rw [hentry, hentry']
  cases entry <;> cases entry' <;> simp_all [isSame]
  exact ⟨fun h ↦ .inr h.symm, fun h ↦ h.elim (fun hl ↦ (hsame hl).1) Eq.symm⟩

/-- Sorting forgets the order. -/
theorem sortNames_eq_of_perm (h : names.Perm other) : sortNames names = sortNames other := by
  have htrans (a b c : String) : decide (a ≤ b) → decide (b ≤ c) → decide (a ≤ c) := by
    simpa using fun hab hbc ↦ String.le_trans hab hbc
  have htotal (a b : String) : (decide (a ≤ b) || decide (b ≤ a)) := by
    simpa using String.le_total a b
  refine List.Perm.eq_of_pairwise (fun a b _ _ hab hba ↦ ?_)
    (List.pairwise_mergeSort htrans htotal names) (List.pairwise_mergeSort htrans htotal other)
    ((List.mergeSort_perm names _).trans (h.trans (List.mergeSort_perm other _).symm))
  exact String.le_antisymm (by simpa using hab) (by simpa using hba)

namespace Alike

variable (h : Alike w w' s t)
include h

theorem hasNul (names : List String) : (w'.extend names).hasNul = (w.extend names).hasNul := by
  rw [h.home.hasNul_extend, h.home'.hasNul_extend]

theorem limits (names : List String) : (w.extend names).Limits (w'.extend names) := by
  have hsame := h.hasNul names
  by_cases hnul : (w.extend names).hasNul
  · exact .nul hnul (hsame.trans hnul)
  rw [Bool.not_eq_true] at hnul
  by_cases hlong : pathLimit ≤ (w.extend names).text.utf8ByteSize
  · exact .left hnul hlong
  by_cases hlong' : pathLimit ≤ (w'.extend names).text.utf8ByteSize
  · exact .right (hsame.trans hnul) hlong'
  · exact .short hnul (hsame.trans hnul) (Nat.lt_of_not_le hlong) (Nat.lt_of_not_le hlong')

theorem entryAt (hnames : PlainNames names) (he : e.Allows (w.extend names) (w'.extend names)) :
    AnswersAlike e (fun found found' ↦ FoundAlike s t (w.parts ++ names) (w'.parts ++ names) found found' ∧
        (w.extend names).Reached ∧ (w'.extend names).Reached)
      (s.entryAt last (w.extend names)) (t.entryAt last (w'.extend names)) := by
  cases h.limits names with
  | nul hnul hnul' =>
    rw [Store.entryAt, Store.entryAt, if_pos hnul, if_pos hnul']
    exact .ok ⟨.none, .inl hnul, .inl hnul'⟩
  | left hclean hlong =>
    rw [entryAt_of_long hclean hlong]
    exact .left (he.left _ ⟨hclean, hlong, rfl⟩)
  | right hclean hlong =>
    rw [entryAt_of_long hclean hlong]
    exact .right (he.right _ ⟨hclean, hlong, rfl⟩)
  | short hclean hclean' hshort hshort' =>
    have hreached : (w.extend names).Reached ∧ (w'.extend names).Reached := ⟨.inr hshort, .inr hshort'⟩
    have htarget : TargetsAlike s t _ _ (s.target last (w.extend names)) (t.target last (w'.extend names)) :=
      h.target hnames hshort hshort'
    rw [Store.entryAt, Store.entryAt, hclean, hclean']
    generalize s.target last (w.extend names) = answer at htarget ⊢
    generalize t.target last (w'.extend names) = answer' at htarget ⊢
    cases htarget with
    | found hentry hentry' hform => exact .ok ⟨.some hentry hentry' hform, hreached⟩
    | absent => exact .ok ⟨.none, hreached⟩
    | error cause =>
      dsimp only
      by_cases habsent : cause.meansAbsent
      · simp only [habsent, if_true]
        exact .ok ⟨.none, hreached⟩
      · simp only [habsent]
        exact .error (.inr ⟨rfl, rfl⟩)

/-- A question about the kind of an entry. -/
theorem kind {test : Entry → Bool} (htest : ∀ entry : Entry, test entry.form = test entry)
    (hnames : PlainNames names) (he : e.Allows (w.extend names) (w'.extend names)) :
    AnswersAlike e (fun answer answer' ↦ answer = answer' ∧ (w.extend names).Reached ∧
        (w'.extend names).Reached)
      ((s.entryAt last (w.extend names)).map (answers test))
      ((t.entryAt last (w'.extend names)).map (answers test)) :=
  (h.entryAt hnames he).map fun _ _ ⟨hfound, hreached⟩ ↦ ⟨hfound.answers htest, hreached⟩

/-- Two paths lead to the same entry below one working directory if they do below the other. -/
theorem isSame {entry entry' second second' : Entry}
    (hentry : s.entry? (w.parts ++ names) = some entry)
    (hentry' : t.entry? (w'.parts ++ names) = some entry')
    (hsecond : s.entry? (w.parts ++ other) = some second)
    (hsecond' : t.entry? (w'.parts ++ other) = some second') :
    isSame (w.parts ++ names, entry) (w.parts ++ other, second) =
      isSame (w'.parts ++ names, entry') (w'.parts ++ other, second') := by
  rw [Bool.eq_iff_iff, isSame_iff hentry hsecond, isSame_iff hentry' hsecond', h.files,
    List.append_cancel_left_eq, List.append_cancel_left_eq]

theorem samePlace (hnames : PlainNames names) (hother : PlainNames other)
    (he : e.Allows (w.extend names) (w'.extend names))
    (he' : e.Allows (w.extend other) (w'.extend other)) :
    AnswersAlike e (fun answer answer' ↦ answer = answer')
      (s.samePlace (w.extend names) (w.extend other))
      (t.samePlace (w'.extend names) (w'.extend other)) := by
  refine (h.entryAt hnames he).bind fun found found' hfound ↦ ?_
  rcases hfound with ⟨_ | ⟨hentry, hentry', -⟩, -⟩
  · exact .ok rfl
  refine (h.entryAt hother he').bind fun second second' hsecond ↦ ?_
  rcases hsecond with ⟨_ | ⟨hsecond, hsecond', -⟩, -⟩
  · exact .ok rfl
  · exact .ok (h.isSame hentry hentry' hsecond hsecond')

/-! ### Names in a directory -/

theorem listed (hnames : PlainNames names) (he : e.Allows (w.extend names) (w'.extend names)) :
    AnswersAlike e (fun directory directory' ↦ directory = w.parts ++ names ∧
        directory' = w'.parts ++ names)
      (s.listed (w.extend names)) (t.listed (w'.extend names)) := by
  cases h.limits names with
  | nul hnul hnul' =>
    rw [Store.listed, Store.listed, if_pos hnul, if_pos hnul']
    exact .error (.inl rfl)
  | left hclean hlong =>
    rw [listed_of_long hclean hlong]
    exact .left (he.left _ ⟨hclean, hlong, rfl⟩)
  | right hclean hlong =>
    rw [listed_of_long hclean hlong]
    exact .right (he.right _ ⟨hclean, hlong, rfl⟩)
  | short hclean hclean' hshort hshort' =>
    have htarget : TargetsAlike s t _ _ (s.target .followed (w.extend names))
        (t.target .followed (w'.extend names)) :=
      h.target hnames hshort hshort'
    rw [Store.listed, Store.listed, hclean, hclean']
    generalize s.target .followed (w.extend names) = answer at htarget ⊢
    generalize t.target .followed (w'.extend names) = answer' at htarget ⊢
    cases htarget with
    | absent => exact .error (.inr ⟨rfl, rfl⟩)
    | error => exact .error (.inr ⟨rfl, rfl⟩)
    | @found entry entry' hentry hentry' hform =>
      cases entry with
      | link text => exact absurd hentry (h.left.noLinks _ text (List.prefix_append _ _))
      | file =>
        cases entry' with
        | file => exact .error (.inr ⟨rfl, rfl⟩)
        | dir | link => cases hform
      | dir =>
        cases entry' with
        | dir => exact .ok ⟨rfl, rfl⟩
        | file | link => cases hform

/-- The two directories have the same names, in some order. -/
theorem names_perm (names : List String) :
    (s.names (w.parts ++ names)).Perm (t.names (w'.parts ++ names)) := by
  refine (List.perm_ext_iff_of_nodup (nodup_names h.left.wellFormed _)
    (nodup_names h.right.wellFormed _)).mpr fun name ↦ ?_
  rw [mem_names, mem_names, List.append_assoc, List.append_assoc, ← Option.isSome_map (f := Entry.form),
    ← Option.isSome_map (f := Entry.form) (x := t.entry? _)]
  exact (congrArg (·.isSome) (h.forms (names ++ [name]))).symm ▸ Iff.rfl

theorem list (hnames : PlainNames names) (he : e.Allows (w.extend names) (w'.extend names)) :
    AnswersAlike e List.Perm (s.list (w.extend names)) (t.list (w'.extend names)) := by
  refine (h.listed hnames he).map fun directory directory' ⟨hleft, hright⟩ ↦ ?_
  subst hleft hright
  exact h.names_perm names

theorem matchingNames (hnames : PlainNames names)
    (he : e.Allows (w.extend names) (w'.extend names)) (expression : String) :
    AnswersAlike e (· = ·) (s.matchingNames (w.extend names) expression)
      (t.matchingNames (w'.extend names) expression) := by
  have hfile (name : String) :
      s.holdsFile (w.parts ++ names) name = t.holdsFile (w'.parts ++ names) name := by
    rw [Bool.eq_iff_iff, holdsFile_iff, holdsFile_iff, List.append_assoc, List.append_assoc]
    rcases h.forms_cases (names ++ [name]) with
      ⟨hl, hr⟩ | ⟨hl, hr⟩ | ⟨id, id', content, hl, hr⟩ <;> simp [hl, hr]
  rw [matchingNames_eq fun _ ↦ h.left.noLinks_of_listed h.home hnames,
    matchingNames_eq fun _ ↦ h.right.noLinks_of_listed h.home' hnames]
  refine (h.listed hnames he).map fun directory directory' ⟨hleft, hright⟩ ↦ ?_
  subst hleft hright
  rw [funext hfile]
  exact sortNames_eq_of_perm (((h.names_perm names).filter _).filter _)

end Alike

end Store

end DeferredOps
