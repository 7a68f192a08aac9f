import DeferredOps.Proofs.Store.Places

/-!
# Writing to a file

A write to a file makes the file or changes its content. No way to a directory or to a symbolic link
leads over a file, so all these are found where they were, and so are the other files.
-/

namespace DeferredOps

namespace Entry

theorem withContent_of_not_file {e : Entry} (id : ℕ) (change : Bytes → Bytes) (hfile : e.isFile = false) :
    e.withContent id change = e := by
  cases e with
  | file => cases hfile
  | dir | link => rfl

theorem isFile_withContent (e : Entry) (id : ℕ) (change : Bytes → Bytes) :
    (e.withContent id change).isFile = e.isFile := by
  cases e <;> rfl

/-- Only the file of the number has another content. -/
theorem withContent_cases (e : Entry) (id : ℕ) (change : Bytes → Bytes) :
    e.withContent id change = e ∨
      ∃ content, e = .file id content ∧ e.withContent id change = .file id (change content) := by
  cases e with
  | file other content =>
    by_cases heq : other = id
    · subst heq
      exact .inr ⟨content, rfl, by simp [withContent]⟩
    · exact .inl (by simp [withContent, heq])
  | dir | link => exact .inl rfl

end Entry

namespace Store

/-- A file has been written to. Every entry has stayed, apart from the contents of files, and only files are
new. -/
structure Rewritten (s s' : Store) : Prop where
  wellFormed : s'.WellFormed
  kept {l e} (h : s.entry? l = some e) (hfile : e.isFile = false) : s'.entry? l = some e
  file {l id content} (h : s.entry? l = some (.file id content)) :
    ∃ content', s'.entry? l = some (.file id content')
  old {l e} (h : s'.entry? l = some e) (hfile : e.isFile = false) : s.entry? l = some e
  current : s'.current = s.current

variable {s s' : Store} {last : LastLink} {links : ℕ} {directory location : Location} {name : String}
  {names : List String} {entry : Entry} {p : Path}

/-! ## Ways that do not end at a file -/

/-- A way leads over directories and symbolic links, so it is there if they are, and what is at its
end. -/
theorem Leads.of_ways (h : s.Leads last links directory names (.found location entry))
    (hways : ∀ l e, s.entry? l = some e → e.isFile = false → s'.entry? l = some e) {entry' : Entry}
    (hend : if entry.isFile then entry'.isFile ∧ s'.entry? location = some entry' else entry' = entry) :
    s'.Leads last links directory names (.found location entry') := by
  generalize ht : Target.found location entry = t at h
  induction h with
  | done =>
    cases ht
    obtain rfl : entry' = .dir := by simpa [Entry.isFile] using hend
    exact .done
  | dot _ ih => exact .dot (ih ht)
  | dotDot _ ih => exact .dotDot (ih ht)
  | absent => cases ht
  | enter hname hentry _ ih => exact .enter hname (hways _ _ hentry rfl) (ih ht)
  | file hname hentry =>
    cases ht
    obtain ⟨hfile, hthere⟩ := (if_pos (c := Entry.isFile (.file _ _) = true) rfl).mp hend
    cases entry' with
    | file => exact .file hname hthere
    | dir | link => cases hfile
  | kept hname hentry =>
    cases ht
    obtain rfl : entry' = _ := by simpa [Entry.isFile] using hend
    exact .kept hname (hways _ _ hentry rfl)
  | follow hname hentry hkept hwritten _ ih =>
    exact .follow hname (hways _ _ hentry rfl) hkept hwritten (ih ht)

/-- What a path opened for writing leads to, it leads to when it is followed. -/
theorem Leads.followed_of_written {t : Target} (h : s.Leads .written links directory names t) :
    s.Leads .followed links directory names t := by
  generalize hlast : LastLink.written = last at h
  induction h with
  | done => exact .done
  | dot _ ih => exact .dot (ih hlast)
  | dotDot _ ih => exact .dotDot (ih hlast)
  | absent hname hentry => exact .absent hname hentry
  | enter hname hentry _ ih => exact .enter hname hentry (ih hlast)
  | file hname hentry => exact .file hname hentry
  | kept => cases hlast
  | follow hname hentry _ _ _ ih =>
    exact .follow hname hentry (.inr (by simp)) (.inr (.inl (by simp))) (ih hlast)

/-- What a path leads to when it is followed, it leads to when it is opened for writing, unless it is a
directory. -/
theorem Leads.written_of_followed {t : Target} (h : s.Leads .followed links directory names t)
    (ht : ∀ l, t ≠ .found l .dir) : s.Leads .written links directory names t := by
  generalize hlast : LastLink.followed = last at h
  induction h with
  | done => exact absurd rfl (ht _)
  | dot _ ih => exact .dot (ih ht hlast)
  | dotDot _ ih => exact .dotDot (ih ht hlast)
  | absent hname hentry => exact .absent hname hentry
  | enter hname hentry _ ih => exact .enter hname hentry (ih ht hlast)
  | file hname hentry => exact .file hname hentry
  | kept => cases hlast
  | @follow _ _ _ _ rest text _ hname hentry _ _ h ih =>
    subst hlast
    refine .follow hname hentry (.inr (by simp)) ?_ (ih ht rfl)
    by_cases hrest : rest = []
    · refine .inr (.inr ?_)
      -- A text that ends in a slash leads to nothing but a directory.
      by_contra hslash
      rw [Bool.not_eq_false] at hslash
      rw [hrest, List.append_nil, linkNames, if_pos hslash] at h
      obtain ⟨middle, k, -, -, hdot⟩ := h.split (by simp)
      have hend := hdot.walk
      rw [walk_dot, walk_nil] at hend
      exact ht middle (Except.ok.inj hend).symm
    · exact .inl hrest

namespace Rewritten

theorem refl (hs : s.WellFormed) : s.Rewritten s where
  wellFormed := hs
  kept h _ := h
  file h := ⟨_, h⟩
  old h _ := h
  current := rfl

theorem trans {s'' : Store} (h : s.Rewritten s') (h' : s'.Rewritten s'') : s.Rewritten s'' where
  wellFormed := h'.wellFormed
  kept hentry hfile := h'.kept (h.kept hentry hfile) hfile
  file hentry := by
    obtain ⟨_, hwritten⟩ := h.file hentry
    exact h'.file hwritten
  old hentry hfile := h.old (h'.old hentry hfile) hfile
  current := h'.current.trans h.current

theorem start (h : s.Rewritten s') (p : Path) : s'.start p = s.start p :=
  start_of_current (.inr h.current)

/-- Beside a file, a path leads to what it led to. -/
theorem target_iff (h : s.Rewritten s') (hfile : entry.isFile = false) :
    s'.target last p = .ok (.found location entry) ↔ s.target last p = .ok (.found location entry) := by
  rw [target_eq_ok_iff, target_eq_ok_iff, h.start]
  refine and_congr_right fun _ ↦ ⟨fun hleads ↦ ?_, fun hleads ↦ ?_⟩
  · exact hleads.of_ways (fun _ _ ↦ h.old) (by simp [hfile])
  · exact hleads.of_ways (fun _ _ ↦ h.kept) (by simp [hfile])

/-- The last name of a path is in the directory that it was in. -/
theorem slot_iff (h : s.Rewritten s') :
    s'.slot p = .ok (.name directory name) ↔ s.slot p = .ok (.name directory name) := by
  rw [slot_eq_name_iff, slot_eq_name_iff, h.start]
  refine and_congr_right fun _ ↦ exists_congr fun front ↦ and_congr_right fun _ ↦
    and_congr_left fun _ ↦ ⟨fun hleads ↦ ?_, fun hleads ↦ ?_⟩
  · exact hleads.of_ways (fun _ _ ↦ h.old) rfl
  · exact hleads.of_ways (fun _ _ ↦ h.kept) rfl

/-- What is no directory stays none. -/
theorem exists_entry (h : s.Rewritten s') (hentry : s.entry? location = some entry)
    (hne : entry ≠ .dir) : ∃ entry', s'.entry? location = some entry' ∧ entry' ≠ .dir := by
  cases entry with
  | file id content =>
    obtain ⟨content', hfile⟩ := h.file hentry
    exact ⟨_, hfile, by simp⟩
  | link text => exact ⟨_, h.kept hentry rfl, by simp⟩
  | dir => exact absurd rfl hne

/-- Files may be written to before or after entries go away. -/
theorem discard {gone : Location → Bool} (h : s.Rewritten s') (hgone : s'.ClosedBelow gone) :
    (s.discard gone).Rewritten (s'.discard gone) where
  wellFormed := h.wellFormed.discard hgone
  kept {l e} hl hfile := by
    rw [entry?_discard] at hl ⊢
    split at hl
    · cases hl
    · next hstays =>
      rw [if_neg hstays]
      exact h.kept hl hfile
  file {l id content} hl := by
    rw [entry?_discard] at hl ⊢
    split at hl
    · cases hl
    · next hstays =>
      rw [if_neg hstays]
      exact h.file hl
  old {l e} hl hfile := by
    rw [entry?_discard] at hl ⊢
    split at hl
    · cases hl
    · next hstays =>
      rw [if_neg hstays]
      exact h.old hl hfile
  current := congrArg (markRemoved gone []) h.current

end Rewritten

/-! ## Writes -/

theorem rewritten_setContent (hs : s.WellFormed) (id : ℕ) (change : Bytes → Bytes) :
    s.Rewritten (s.setContent id change) where
  wellFormed := hs.setContent id change
  kept h hfile := by rw [entry?_setContent, h, Option.map_some, Entry.withContent_of_not_file _ _ hfile]
  file h := by
    rw [entry?_setContent, h]
    exact ⟨_, rfl⟩
  old h hfile := by
    rw [entry?_setContent] at h
    obtain ⟨e, hentry, rfl⟩ := Option.map_eq_some_iff.mp h
    rw [Entry.isFile_withContent] at hfile
    rw [hentry, Entry.withContent_of_not_file _ _ hfile]
  current := rfl

theorem rewritten_putFile (hs : s.WellFormed) {content : Bytes} (hdirectory : s.entry? directory = some .dir)
    (hname : IsName name) (hfree : s.entry? (directory ++ [name]) = none) :
    s.Rewritten (s.putFile (directory ++ [name]) content) := by
  have hstays {l : Location} {e : Entry} (h : s.entry? l = some e) :
      Store.entry? (s.putFile (directory ++ [name]) content) l = some e := by
    rw [entry?_putFile (by simp), if_neg, h]
    rintro rfl
    cases hfree.symm.trans h
  refine ⟨hs.putFile hdirectory hname hfree, fun h _ ↦ hstays h, fun h ↦ ⟨_, hstays h⟩, ?_, rfl⟩
  intro l e h hfile
  rw [entry?_putFile (by simp)] at h
  split at h
  · cases h
    cases hfile
  · exact h

theorem rewritten_write (hs : s.WellFormed) (hp : p.Proper) (hnul : p.hasNul = false)
    {change : Bytes → Bytes} (h : s.write p change = .ok s') : s.Rewritten s' := by
  rcases write_ok h with ⟨l, id, content, -, rfl⟩ | ⟨d, n, htarget, rfl⟩
  · exact rewritten_setContent hs id change
  · obtain ⟨hdirectory, -, hfree⟩ := sound_of_target hs htarget
    exact rewritten_putFile hs hdirectory (isName_of_target_absent hs hp hnul htarget) hfree

end Store

end DeferredOps
