import DeferredOps.Proofs.Path.Length
import DeferredOps.Proofs.Store.Limits
import DeferredOps.Proofs.Store.LinkFree

/-!
# Paths to names in a directory

In a store without symbolic links a path with legal names that leads to no directory either has its
last name in a directory, or leads nowhere, and then every question about it is answered with no.
-/

namespace DeferredOps.Store

/-- The parent of a path is a directory. -/
def HasParent (s : Store) (p : Path) : Prop :=
  ∃ directory, s.target .followed p.parent = .ok (.found directory .dir) ∧
    s.entry? directory = some .dir

variable {s : Store} {last : LastLink} {links : ℕ} {directory location : Location} {names : List String}
  {name : String} {p : Path} {entry : Entry}

/-- Legal names are not refused for their length. -/
theorem walk_ne_nameTooLong (hfree : s.LinkFree)
    (hnames : ∀ name ∈ names, name.utf8ByteSize ≤ nameLimit) :
    s.walk last links directory names ≠ .error .nameTooLong := by
  induction names generalizing directory with
  | nil => simp [walk_nil]
  | cons name rest ih =>
    have hrest {d : Location} : s.walk last links d rest ≠ .error .nameTooLong :=
      ih fun n hn ↦ hnames n (List.mem_cons_of_mem _ hn)
    by_cases hdot : name = "."
    · rw [hdot, walk_dot]
      exact hrest
    by_cases hdotDot : name = ".."
    · rw [hdotDot, walk_dotDot]
      exact hrest
    cases hthere : isRemoved directory with
    | true => cases links <;> simp [walk, walkNames, hdot, hdotDot, hthere]
    | false =>
      have hlooked : LookedUp directory name :=
        ⟨hdot, hdotDot, hthere, hnames name List.mem_cons_self⟩
      rw [hlooked.walk_cons]
      cases hentry : s.entry? (directory ++ [name]) with
      | none => by_cases hempty : rest.isEmpty <;> simp [hempty]
      | some entry =>
        cases entry with
        | dir => exact hrest
        | file => by_cases hempty : rest.isEmpty <;> simp [hempty]
        | link text => exact absurd hentry (hfree _ _)

/-- Names that lead somewhere are legal. -/
theorem Leads.legal {t : Target} (h : s.Leads last links directory names t) :
    ∀ name ∈ names, name.utf8ByteSize ≤ nameLimit := by
  induction h with
  | done => simp
  | dot _ ih | dotDot _ ih => exact List.forall_mem_cons.mpr ⟨by decide, ih⟩
  | absent hname | file hname | kept hname => exact List.forall_mem_singleton.mpr hname.short
  | enter hname _ _ ih => exact List.forall_mem_cons.mpr ⟨hname.short, ih⟩
  | follow hname _ _ _ _ ih =>
    exact List.forall_mem_cons.mpr ⟨hname.short, fun n hn ↦ ih n (List.mem_append_right _ hn)⟩

/-- A path in reach with legal names leads somewhere or nowhere. -/
theorem target_cases (last : LastLink) (hfree : s.LinkFree) (hshort : p.text.utf8ByteSize < pathLimit)
    (hnames : ∀ name ∈ p.parts, name.utf8ByteSize ≤ nameLimit) (hlast : last ≠ .written) :
    (∃ t, s.target last p = .ok t) ∨ ∃ e, e.meansAbsent ∧ s.target last p = .error e := by
  cases htarget : s.target last p with
  | ok t => exact .inl ⟨t, rfl⟩
  | error e =>
    refine .inr ⟨e, (unfollowed_of_target hlast htarget).resolve_right ?_, rfl⟩
    rintro rfl
    have hwalk : s.target last p = s.walk last linkLimit (s.start p) p.parts := by
      simp [target, startChecked, Nat.not_le.mpr hshort, bind, Except.bind]
    exact walk_ne_nameTooLong hfree hnames (hwalk.symm.trans htarget)

theorem short_parent (hshort : p.text.utf8ByteSize < pathLimit) :
    p.parent.text.utf8ByteSize < pathLimit := by
  have hmono : p.parent.text.utf8ByteSize ≤ max 2 p.text.utf8ByteSize :=
    Path.size_text_mono rfl (List.dropLast_prefix _)
  have hlimit : 2 < pathLimit := by decide
  omega

theorem hasParent_of_slot (hs : s.WellFormed) (h : s.slot p = .ok (.name directory name)) :
    s.HasParent p := by
  obtain ⟨hshort, front, hparts, hway, -⟩ := slot_eq_name_iff.mp h
  have hparent : p.parent.parts = front := by simp [Path.parent, hparts]
  exact ⟨directory, target_eq_ok_iff.mpr ⟨short_parent hshort, hparent ▸ hway⟩, dir_of_slot hs h⟩

/-- A path with a last name of its own that leads somewhere has this name in a directory. -/
theorem slot_of_target_name {front : List String} {t : Target} (h : s.target last p = .ok t)
    (hparts : p.parts = front ++ [name]) (hdot : name ≠ ".") (hdotDot : name ≠ "..") :
    ∃ d, s.slot p = .ok (.name d name) := by
  obtain ⟨hshort, hleads⟩ := target_eq_ok_iff.mp h
  rw [hparts] at hleads
  obtain ⟨d, k, -, hway, hlast⟩ := hleads.split (by simp)
  have hlooked : LookedUp d name := by
    cases hlast with
    | dot => exact absurd rfl hdot
    | dotDot => exact absurd rfl hdotDot
    | absent hname | enter hname | file hname | kept hname | follow hname => exact hname
  exact ⟨d, slot_eq_name_iff.mpr ⟨hshort, front, hparts, hway, hlooked⟩⟩

/-- A path in reach whose parent is a directory leads to a directory or has a name in its parent. -/
theorem HasParent.slot_or_dir (h : s.HasParent p) (hs : s.WellFormed)
    (hshort : p.text.utf8ByteSize < pathLimit)
    (hnames : ∀ name ∈ p.parts, name.utf8ByteSize ≤ nameLimit) :
    (∃ d n, s.slot p = .ok (.name d n)) ∨ ∃ l, s.target .followed p = .ok (.found l .dir) := by
  obtain ⟨d, htarget, hdir⟩ := h
  obtain ⟨-, hway⟩ := target_eq_ok_iff.mp htarget
  rcases List.eq_nil_or_concat p.parts with hnil | ⟨front, name, hparts⟩
  · refine .inr ⟨s.start p, target_eq_ok_iff.mpr ⟨hshort, ?_⟩⟩
    rw [hnil]
    exact .done
  rw [List.concat_eq_append] at hparts
  have hparent : p.parent.parts = front := by simp [Path.parent, hparts]
  rw [hparent] at hway
  by_cases hdot : name = "."
  · refine .inr ⟨d, target_eq_ok_iff.mpr ⟨hshort, ?_⟩⟩
    rw [hparts, hdot]
    exact hway.join (.dot .done) (by simp)
  by_cases hdotDot : name = ".."
  · refine .inr ⟨d.dropLast, target_eq_ok_iff.mpr ⟨hshort, ?_⟩⟩
    rw [hparts, hdotDot]
    exact hway.join (.dotDot .done) (by simp)
  · exact .inl ⟨d, name, slot_eq_name_iff.mpr ⟨hshort, front, hparts, hway, hdot, hdotDot,
      hs.not_isRemoved hdir, hnames name (by simp [hparts])⟩⟩

/-- A path in reach with legal names, of which the last is one of its own if it leads to a directory,
has this name in a directory or leads nowhere. -/
theorem slot_or_absent (hs : s.WellFormed) (hfree : s.LinkFree)
    (hshort : p.text.utf8ByteSize < pathLimit)
    (hnames : ∀ name ∈ p.parts, name.utf8ByteSize ≤ nameLimit)
    (hlast : (∀ l, s.target .followed p ≠ .ok (.found l .dir)) ∨
      ∃ front name, p.parts = front ++ [name] ∧ IsName name) :
    (∃ d n, s.slot p = .ok (.name d n)) ∨
      ¬ s.HasParent p ∧ ∃ e, e.meansAbsent ∧ s.target .followed p = .error e := by
  rcases target_cases .followed hfree hshort hnames (by simp) with ⟨t, ht⟩ | ⟨e, he, herror⟩
  · refine .inl ?_
    rcases hlast with hnot | ⟨front, name, hparts, hname⟩
    · obtain ⟨d, n, hslot, -⟩ := slot_of_target ht fun l heq ↦ hnot l (heq ▸ ht)
      exact ⟨d, n, hslot⟩
    · obtain ⟨d, hslot⟩ := slot_of_target_name ht hparts hname.ne_dot hname.ne_dotDot
      exact ⟨d, name, hslot⟩
  · by_cases hparent : s.HasParent p
    · refine .inl ((hparent.slot_or_dir hs hshort hnames).resolve_right ?_)
      rintro ⟨l, hfound⟩
      cases herror.symm.trans hfound
    · exact .inr ⟨hparent, e, he, herror⟩

end DeferredOps.Store
