import DeferredOps.Proofs.Store.Places
import DeferredOps.Proofs.Store.Without

/-!
# Files and symbolic links to files

No way to a directory leads over a file, or over a symbolic link that leads to one. So whatever becomes
of such entries, every directory is found where it was, and the entries of a directory can be dealt with
one after another.
-/

namespace DeferredOps

open Action

namespace Store

/-- A file stands at a location, or a symbolic link whose names lead to a file. -/
def Leaf (s : Store) (l : Location) : Prop :=
  (∃ id content, s.entry? l = some (.file id content)) ∨
    ∃ text links place id content, s.entry? l = some (.link text) ∧
      s.Leads .followed links (linkStart text l.dropLast) (linkNames text)
        (.found place (.file id content))

variable {s s' s'' : Store} {links : ℕ} {directory location l : Location} {p : Path}
  {names : List String} {name expression : String}

theorem Leaf.exists_entry (h : s.Leaf l) : ∃ entry, s.entry? l = some entry ∧ entry ≠ .dir := by
  rcases h with ⟨id, content, hfile⟩ | ⟨text, -, -, -, -, hlink, -⟩
  · exact ⟨_, hfile, by simp⟩
  · exact ⟨_, hlink, by simp⟩

theorem Leaf.ne_nil (h : s.Leaf l) : l ≠ [] := by
  obtain ⟨entry, hentry, hne⟩ := h.exists_entry
  rintro rfl
  cases hentry
  exact hne rfl

/-- Two ways with the same names lead to the same, however many links each may follow. -/
theorem Leads.unique_of_links {more : ℕ} {t t' : Target}
    (h : s.Leads .followed links directory names t) (h' : s.Leads .followed more directory names t') :
    t = t' :=
  (h.mono (Nat.le_add_right links more)).unique (h'.mono (Nat.le_add_left more links))

/-- The way to a directory does not lead over a symbolic link to a file. -/
theorem Leads.not_leaf {rest : List String} {text : String} {place : Location}
    (hentry : s.entry? (directory ++ [name]) = some (.link text))
    (h : s.Leads .followed links (linkStart text directory) (linkNames text ++ rest)
      (.found place .dir)) : ¬ s.Leaf (directory ++ [name]) := by
  rintro (⟨id, content, hfile⟩ | ⟨other, more, place', id, content, hlink, hleads⟩)
  · cases hentry.symm.trans hfile
  · cases hentry.symm.trans hlink
    rw [List.dropLast_concat] at hleads
    by_cases hrest : rest = []
    · subst hrest
      rw [List.append_nil] at h
      cases h.unique_of_links hleads
    · obtain ⟨middle, k, -, hfront, -⟩ := h.split hrest
      cases hfront.unique_of_links hleads

/-- The way to a directory is there as long as only leaves are missing. -/
theorem Leads.of_leaves (h : s.Leads .followed links directory names (.found location .dir))
    (hkept : ∀ l e, s.entry? l = some e → s.Leaf l ∨ s'.entry? l = some e) :
    s'.Leads .followed links directory names (.found location .dir) := by
  generalize hlast : LastLink.followed = last at h
  generalize ht : Target.found location .dir = t at h
  induction h with
  | done => exact .done
  | dot _ ih => exact .dot (ih hlast ht)
  | dotDot _ ih => exact .dotDot (ih hlast ht)
  | absent => cases ht
  | @enter _ _ directory name _ _ hname hentry _ ih =>
    refine .enter hname ((hkept _ _ hentry).resolve_left fun hleaf ↦ ?_) (ih hlast ht)
    obtain ⟨entry, hthere, hne⟩ := hleaf.exists_entry
    cases hentry.symm.trans hthere
    exact hne rfl
  | file => cases ht
  | kept => cases ht
  | follow hname hentry hmode hwritten h ih =>
    subst hlast ht
    exact .follow hname ((hkept _ _ hentry).resolve_left (Leads.not_leaf hentry h)) hmode hwritten
      (ih rfl rfl)

/-- A path leads to the directory that it led to before leaves went away. -/
theorem target_of_leaves (hp : s.target .followed p = .ok (.found directory .dir))
    (hkept : ∀ l e, s.entry? l = some e → s.Leaf l ∨ s'.entry? l = some e)
    (hcurrent : s'.current = s.current) : s'.target .followed p = .ok (.found directory .dir) := by
  obtain ⟨hshort, hway⟩ := target_eq_ok_iff.mp hp
  refine target_eq_ok_iff.mpr ⟨hshort, ?_⟩
  rw [start_of_current (.inr hcurrent)]
  exact hway.of_leaves hkept

/-- A path into a directory has the directory's location and its own last name as its place. -/
theorem slot_child (hp : s.target .followed p = .ok (.found directory .dir))
    (hname : LookedUp directory name) (hshort : (p.child name).text.utf8ByteSize < pathLimit) :
    s.slot (p.child name) = .ok (.name directory name) :=
  slot_eq_name_iff.mpr ⟨hshort, p.parts, rfl, (target_eq_ok_iff.mp hp).2, hname⟩

/-- A leaf can be removed by its path in a directory, whatever other leaves are gone by then. -/
theorem unlink_of_leaves {entry : Entry} (hs : s.WellFormed)
    (hp : s.target .followed p = .ok (.found directory .dir))
    (hkept : ∀ l e, s.entry? l = some e → s.Leaf l ∨ s'.entry? l = some e)
    (hcurrent : s'.current = s.current) (hentry : s.entry? (directory ++ [name]) = some entry)
    (hne : entry ≠ .dir) (hthere : s'.entry? (directory ++ [name]) = some entry)
    (hshort : (p.child name).text.utf8ByteSize < pathLimit) :
    s'.unlink (p.child name) = .ok (s'.erase (directory ++ [name])) := by
  have hway := target_of_leaves hp hkept hcurrent
  have hlooked : LookedUp directory name := hs.lookedUp (hs.parent hentry) (hs.name hentry)
  exact unlink_eq_ok_iff.mpr
    ⟨directory, name, entry, slot_child hway hlooked hshort, hthere, hne, rfl⟩

/-! ## Names of files -/

/-- A name in a directory is that of a file, or of a symbolic link that leads to one. -/
def NamesFile (s : Store) (p : Path) (directory : Location) (name : String) : Prop :=
  (∃ id content, s.entry? (directory ++ [name]) = some (.file id content)) ∨
    ∃ text place id content, s.entry? (directory ++ [name]) = some (.link text) ∧
      s.target .followed (p.spelledChild name) = .ok (.found place (.file id content))

/-- A path leads to a directory in which every symbolic link can be followed or leads nowhere. -/
structure Readable (s : Store) (p : Path) (directory : Location) : Prop where
  listed : s.listed p = .ok directory
  link {name text e} (hlink : s.entry? (directory ++ [name]) = some (.link text))
    (hfailed : s.target .followed (p.spelledChild name) = .error e) : e = .noEntry

theorem cautious_eq_true_iff {answer : Except Failure Bool} : cautious answer ↔ answer = .ok true := by
  rcases answer with f | _ | _ <;> simp [cautious]

theorem isFileName_eq_true_iff :
    s.isFileName p directory name = .ok true ↔ s.NamesFile p directory name := by
  unfold isFileName NamesFile
  cases s.entry? (directory ++ [name]) with
  | none => simp
  | some entry =>
    cases entry with
    | dir => simp
    | file id content => simp
    | link text =>
      dsimp only
      cases s.target .followed (p.spelledChild name) with
      | error e => cases e <;> simp
      | ok t =>
        cases t with
        | absent => simp
        | found place entry => cases entry <;> simp [Entry.isFile]

theorem isFileName_eq_error_iff {f : Failure} :
    s.isFileName p directory name = .error f ↔ ∃ text e,
      s.entry? (directory ++ [name]) = some (.link text) ∧
        s.target .followed (p.spelledChild name) = .error e ∧ e ≠ .noEntry ∧
          f = .ofPath e (p.spelledChild name) := by
  unfold isFileName
  cases s.entry? (directory ++ [name]) with
  | none => simp
  | some entry =>
    cases entry with
    | dir => simp
    | file id content => simp
    | link text =>
      dsimp only
      cases s.target .followed (p.spelledChild name) with
      | error e => cases e <;> simp [eq_comm]
      | ok t => cases t <;> simp

/-- A filter whose test fails for one element fails. -/
theorem filterM_of_error {α : Type} {test : α → Except Failure Bool} {elements : List α} {a : α}
    {f : Failure} (ha : a ∈ elements) (hf : test a = .error f) :
    ∃ g, elements.filterM test = .error g := by
  have haux (done : List α) : ∃ g, elements.filterAuxM test done = .error g := by
    induction elements generalizing done with
    | nil => cases ha
    | cons b rest ih =>
      unfold List.filterAuxM
      cases hb : test b with
      | error g => exact ⟨g, rfl⟩
      | ok keep =>
        rcases List.mem_cons.mp ha with rfl | ha
        · cases hf.symm.trans hb
        · exact ih ha _
  obtain ⟨g, hg⟩ := haux []
  refine ⟨g, ?_⟩
  unfold List.filterM
  rw [hg]
  rfl

theorem pairwise_sortNames (h : names.Nodup) : (sortNames names).Pairwise (· < ·) := by
  have hsorted : (sortNames names).Pairwise (· ≤ ·) := by
    refine (List.pairwise_mergeSort ?_ ?_ names).imp fun h ↦ by simpa using h
    · simpa using fun a b c hab hbc ↦ String.le_trans hab hbc
    · simpa using fun a b ↦ String.le_total a b
  refine (hsorted.and ((List.mergeSort_perm names _).nodup_iff.mpr h)).imp fun ⟨hle, hne⟩ ↦ ?_
  by_contra hge
  exact hne (String.le_antisymm hle hge)

/-- What matches in a readable directory, in ascending order. -/
theorem matchingNames_of_readable (hs : s.WellFormed) (h : s.Readable p directory)
    (expression : String) : ∃ names, s.matchingNames p expression = .ok names ∧
      names.Pairwise (· < ·) ∧ ∀ name, name ∈ names ↔
        s.NamesFile p directory name ∧ NamePattern.matchesName expression name := by
  classical
  have htest (name : String) : s.isFileName p directory name = .ok (decide (s.NamesFile p directory name)) := by
    cases hanswer : s.isFileName p directory name with
    | error f =>
      obtain ⟨text, e, hlink, hfailed, hne, -⟩ := isFileName_eq_error_iff.mp hanswer
      exact absurd (h.link hlink hfailed) hne
    | ok answer => cases answer <;> simp [← isFileName_eq_true_iff, hanswer]
  let kept := ((s.names directory).filter fun name ↦ decide (s.NamesFile p directory name)).filter
    (NamePattern.matchesName expression)
  have hperm : (sortNames kept).Perm kept := List.mergeSort_perm kept _
  have hnodup : kept.Nodup := ((nodup_names hs directory).filter _).filter _
  refine ⟨sortNames kept, ?_, pairwise_sortNames hnodup, fun name ↦ ?_⟩
  · simp only [matchingNames, h.listed, bind, Except.bind, filterM_of_ok fun name _ ↦ htest name]
    rfl
  · have hthere (hnames : s.NamesFile p directory name) : (s.entry? (directory ++ [name])).isSome := by
      rcases hnames with ⟨id, content, hfile⟩ | ⟨text, -, -, -, hlink, -⟩
      · simp [hfile]
      · simp [hlink]
    rw [hperm.mem_iff]
    simp only [kept, List.mem_filter, mem_names, decide_eq_true_eq]
    exact ⟨fun ⟨⟨_, hnames⟩, hmatches⟩ ↦ ⟨hnames, hmatches⟩,
      fun ⟨hnames, hmatches⟩ ↦ ⟨⟨hthere hnames, hnames⟩, hmatches⟩⟩

/-- What matches in a directory is not told if one of its links cannot be followed. -/
theorem matchingNames_of_unreadable (h : ∀ directory, ¬ s.Readable p directory)
    (expression : String) : ∃ f, s.matchingNames p expression = .error f := by
  cases hlisted : s.listed p with
  | error f => exact ⟨f, by simp [matchingNames, hlisted, bind, Except.bind]⟩
  | ok directory =>
    obtain ⟨name, text, e, hlink, hfailed, hne⟩ : ∃ name text e,
        s.entry? (directory ++ [name]) = some (.link text) ∧
          s.target .followed (p.spelledChild name) = .error e ∧ e ≠ .noEntry := by
      by_contra hnone
      push Not at hnone
      exact h directory ⟨hlisted, hnone _ _ _⟩
    have hmem : name ∈ s.names directory := mem_names.mpr (by simp [hlink])
    obtain ⟨g, hg⟩ := filterM_of_error hmem
      (isFileName_eq_error_iff.mpr ⟨text, e, hlink, hfailed, hne, rfl⟩)
    exact ⟨g, by simp [matchingNames, hlisted, bind, Except.bind, hg]⟩

/-- The file names of a directory are those of leaves. -/
theorem leaf_of_namesFile (hs : s.WellFormed) (hp : s.target .followed p = .ok (.found directory .dir))
    (h : s.NamesFile p directory name) : s.Leaf (directory ++ [name]) := by
  rcases h with hfile | ⟨text, place, id, content, hlink, htarget⟩
  · exact .inl hfile
  obtain ⟨-, hway⟩ := target_eq_ok_iff.mp hp
  obtain ⟨-, hleads⟩ := target_eq_ok_iff.mp htarget
  have hlast : ∃ k, s.Leads .followed k directory [name] (.found place (.file id content)) := by
    unfold Path.spelledChild at hleads
    split at hleads
    · next hempty =>
      have hparts : p.parts = [] := by simpa using (Bool.and_eq_true_iff.mp hempty).2
      rw [hparts] at hway
      cases hway
      exact ⟨_, .of_walk (walk_dot.symm.trans hleads.walk)⟩
    · obtain ⟨middle, k, -, hfront, hback⟩ := hleads.split (by simp)
      cases hfront.unique_of_links hway
      exact ⟨k, hback⟩
  obtain ⟨k, hlast⟩ := hlast
  cases hlast with
  | dot => exact absurd rfl (hs.name hlink).ne_dot
  | dotDot => exact absurd rfl (hs.name hlink).ne_dotDot
  | enter _ hentry | file _ hentry => cases hlink.symm.trans hentry
  | follow _ hentry _ _ hrest =>
    cases hlink.symm.trans hentry
    rw [List.append_nil] at hrest
    exact .inr ⟨text, _, place, id, content, hlink, by rwa [List.dropLast_concat]⟩

end Store

end DeferredOps
