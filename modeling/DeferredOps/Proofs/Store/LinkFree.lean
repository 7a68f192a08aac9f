import DeferredOps.Proofs.Store.Moves

/-!
# Stores without symbolic links

Without symbolic links the place that a path leads to can be read off its names. No operation makes
a symbolic link where there is none, and a directory is then never copied into itself.
-/

namespace DeferredOps

open Action

namespace Store

/-- No symbolic link stands anywhere. -/
def LinkFree (s : Store) : Prop :=
  ∀ l text, s.entry? l ≠ some (.link text)

/-- Where names lead from a directory if there are no symbolic links. -/
def descend (directory : Location) : List String → Location
  | [] => directory
  | name :: rest =>
    if name = "." then descend directory rest
    else if name = ".." then descend directory.dropLast rest
    else descend (directory ++ [name]) rest

/-- The location that a path leads to if there are no symbolic links. -/
def place (s : Store) (p : Path) : Location :=
  descend (s.start p) p.parts

/-- The location of a target. -/
def Target.location : Target → Location
  | .found location _ => location
  | .absent directory name => directory ++ [name]

variable {s s' : Store} {last : LastLink} {links : ℕ} {directory location : Location}
  {name : String} {names : List String} {t : Target} {entry : Entry} {p : Path}

/-! ## Places -/

theorem descend_append (directory : Location) (front back : List String) :
    descend directory (front ++ back) = descend (descend directory front) back := by
  induction front generalizing directory with
  | nil => rfl
  | cons name rest ih =>
    simp only [List.cons_append, descend]
    split
    · exact ih _
    · split
      · exact ih _
      · exact ih _

/-- Names of entries lead down. -/
theorem descend_of_isName (h : ∀ name ∈ names, IsName name) :
    descend directory names = directory ++ names := by
  induction names generalizing directory with
  | nil => simp [descend]
  | cons name rest ih =>
    have hname := h name List.mem_cons_self
    rw [descend, if_neg hname.ne_dot, if_neg hname.ne_dotDot,
      ih fun n hn ↦ h n (List.mem_cons_of_mem _ hn)]
    simp

theorem collapse_eq_descend (names : List String) : Path.collapse names = descend [] names := by
  have hgeneral (done names : List String) :
      (names.foldl (fun done part ↦
        if part = "." then done else if part = ".." then done.drop 1 else part :: done) done).reverse
        = descend done.reverse names := by
    induction names generalizing done with
    | nil => rfl
    | cons name rest ih =>
      rw [List.foldl_cons, ih, descend]
      split
      · rfl
      · split
        · cases done <;> simp
        · rw [List.reverse_cons]
  exact hgeneral [] names

theorem Leads.location_eq (h : s.Leads last links directory names t) (hfree : s.LinkFree) :
    t.location = descend directory names := by
  induction h with
  | done => rfl
  | dot _ ih => rw [ih, descend, if_pos rfl]
  | dotDot _ ih => rw [ih, descend, if_neg (by decide), if_pos rfl]
  | absent hname _ => rw [descend, if_neg hname.ne_dot, if_neg hname.ne_dotDot, descend]; rfl
  | enter hname _ _ ih => rw [ih, descend, if_neg hname.ne_dot, if_neg hname.ne_dotDot]
  | file hname _ => rw [descend, if_neg hname.ne_dot, if_neg hname.ne_dotDot, descend]; rfl
  | kept _ hentry => exact absurd hentry (hfree _ _)
  | follow _ hentry => exact absurd hentry (hfree _ _)

theorem location_of_target (hfree : s.LinkFree) (h : s.target last p = .ok t) :
    t.location = s.place p :=
  (target_eq_ok_iff.mp h).2.location_eq hfree

theorem location_of_slot (hfree : s.LinkFree) (h : s.slot p = .ok (.name directory name)) :
    directory ++ [name] = s.place p := by
  have htarget := location_of_target hfree (target_kept_of_slot h)
  cases hentry : s.entry? (directory ++ [name]) <;> rwa [hentry] at htarget

/-- What symbolic links at the end stand for does not matter. -/
theorem Leads.mode_irrelevant {mode : LastLink} (h : s.Leads last links directory names t)
    (hfree : s.LinkFree) : s.Leads mode links directory names t := by
  induction h with
  | done => exact .done
  | dot _ ih => exact .dot ih
  | dotDot _ ih => exact .dotDot ih
  | absent hname hentry => exact .absent hname hentry
  | enter hname hentry _ ih => exact .enter hname hentry ih
  | file hname hentry => exact .file hname hentry
  | kept _ hentry => exact absurd hentry (hfree _ _)
  | follow _ hentry => exact absurd hentry (hfree _ _)

theorem target_mode (hfree : s.LinkFree) (mode : LastLink) (h : s.target last p = .ok t) :
    s.target mode p = .ok t :=
  target_eq_ok_iff.mpr ((target_eq_ok_iff.mp h).imp_right fun hl ↦ hl.mode_irrelevant hfree)

theorem absolutePath_eq (hs : s.WellFormed) (hp : s.Anchored p) :
    s.absolutePath p = ⟨if p.isAbsolute then p.anchor else .top, s.place p⟩ := by
  unfold absolutePath place start
  split
  · rw [collapse_eq_descend]
  · next htop =>
    have hthere := hs.current.entry? (hp.resolve_left htop)
    rw [collapse_eq_descend, descend_append,
      descend_of_isName fun n hn ↦ hs.isName_of_mem hthere hn, List.nil_append]

theorem place_child (p : Path) (hdot : name ≠ ".") (hdotDot : name ≠ "..") :
    s.place (p.child name) = s.place p ++ [name] := by
  change descend (s.start p) (p.parts ++ [name]) = _
  rw [descend_append, descend, if_neg hdot, if_neg hdotDot]
  rfl

theorem Anchored.start_dir (hs : s.WellFormed) (h : s.Anchored p) :
    s.entry? (s.start p) = some .dir := by
  unfold start
  split
  · rfl
  · next htop => exact hs.current.entry? (h.resolve_left htop)

/-! ## Link-free stores -/

theorem LinkFree.of_entries (h : ∀ e ∈ s.entries, e.2.isLink = false) : s.LinkFree := by
  intro l text hentry
  have hne : l ≠ [] := by
    rintro rfl
    simp at hentry
  simpa [Entry.isLink] using h _ (mem_entries hne hentry)

/-- No link is new. -/
theorem LinkFree.of_old (hfree : s.LinkFree)
    (h : ∀ l text, s'.entry? l = some (.link text) → ∃ l', s.entry? l' = some (.link text)) :
    s'.LinkFree := by
  intro l text hentry
  obtain ⟨l', hold⟩ := h l text hentry
  exact hfree l' text hold

theorem LinkFree.discard (hfree : s.LinkFree) (gone : Location → Bool) :
    (s.discard gone).LinkFree := by
  refine hfree.of_old fun l text h ↦ ⟨l, ?_⟩
  rw [entry?_discard] at h
  split at h
  · cases h
  · exact h

theorem LinkFree.put (hfree : s.LinkFree) (hne : location ≠ []) (hentry : entry.isLink = false) :
    (s.put location entry).LinkFree := by
  intro l text h
  rw [entry?_put hne] at h
  split at h
  · cases h
    cases hentry
  · exact hfree l text h

theorem LinkFree.setContent (hfree : s.LinkFree) (id : ℕ) (change : Bytes → Bytes) :
    (s.setContent id change).LinkFree := by
  refine hfree.of_old fun l text h ↦ ⟨l, ?_⟩
  rw [entry?_setContent] at h
  obtain ⟨old, hold, heq⟩ := Option.map_eq_some_iff.mp h
  cases old with
  | link other => simpa [Entry.withContent] using heq ▸ hold
  | dir => simp [Entry.withContent] at heq
  | file other content => simp [Entry.withContent] at heq

theorem LinkFree.write {change : Bytes → Bytes} (hfree : s.LinkFree)
    (h : s.write p change = .ok s') : s'.LinkFree := by
  rcases write_ok h with ⟨l, id, content, -, rfl⟩ | ⟨d, n, -, rfl⟩
  · exact hfree.setContent id change
  · exact hfree.put (by simp) rfl

theorem LinkFree.carry {source : Location} (hfree : s.LinkFree) (hcan : s.CanCarry source directory name) :
    (s.carry source (directory ++ [name])).LinkFree :=
  hfree.of_old fun _ text hl ↦ hcan.carry_cases (P := fun _ ↦ ∃ l', s.entry? l' = some (.link text))
    (fun _ hold ↦ ⟨_, hold⟩) (fun _ _ hold ↦ ⟨_, hold⟩) hl

theorem LinkFree.rename {source destination : Path} (hs : s.WellFormed) (hfree : s.LinkFree)
    (hproper : destination.Proper) (hnul : destination.hasNul = false)
    (h : s.rename source destination = .ok s') : s'.LinkFree := by
  obtain ⟨d, n, d', n', -, hslot, hcarry⟩ := rename_ok h
  have hname := isName_of_slot hproper hnul hslot
  rcases carryChecked_ok hs (by simp) (dir_of_slot hs hslot) hname hcarry with ⟨rfl, -⟩ | ⟨hcan, rfl, -⟩
  · exact hfree
  · exact hfree.carry hcan

theorem invariant_linkFree : Invariant fun s ↦ s.WellFormed ∧ s.LinkFree where
  wellFormed hs := hs.1
  unlink hs h := by
    refine ⟨hs.1.unlink h, ?_⟩
    obtain ⟨d, n, e, -, -, -, rfl⟩ := unlink_eq_ok_iff.mp h
    exact hs.2.discard _
  removeDirectory hs h := by
    refine ⟨hs.1.removeDirectory h, ?_⟩
    obtain ⟨d, n, -, -, -, rfl⟩ := removeDirectory_ok h
    exact hs.2.discard _
  clear hs := ⟨hs.1.clear, hs.2.discard _⟩
  makeDirectory hs hp hnul h := by
    refine ⟨hs.1.create hp hnul (by simp) h, ?_⟩
    obtain ⟨d, n, -, -, rfl⟩ := create_eq_ok_iff.mp h
    exact hs.2.put (by simp) rfl
  makeLink _ _ _ hold htext _ := absurd htext (hold.2 _ _)
  write hs hp hnul h := ⟨hs.1.write hp hnul h, hs.2.write h⟩
  rename hs htarget hnul h := ⟨hs.1.rename htarget hnul h, hs.2.rename hs.1 htarget hnul h⟩
  openFile hs := ⟨hs.1.openFile _ _, hs.2⟩
  closeFile hs := ⟨hs.1.closeFile _, hs.2⟩

theorem LinkFree.growsDirs (hfree : s.LinkFree) (hg : s.GrowsDirs s') : s'.LinkFree := by
  intro l text h
  rcases hg.added h with hold | hnew
  · exact hfree l text hold
  · cases hnew

end Store

/-! ## Copies end -/

namespace StoreAction

open Store

variable {nul : Prop} {source destination : Path}

/-- A copy in a link-free store stands where its path says. -/
theorem CopyStarts.location {s made : Store} {d : Location} {n : String} (hfree : s.LinkFree)
    (h : CopyStarts s destination d n made) : d ++ [n] = s.place destination := by
  have hmade := hfree.growsDirs h.parents.grows
  have hleads : made.Leads .followed linkLimit (made.start destination) destination.parts
      (.absent d n) := h.free.leads_parts h.parents.wellFormed
  rw [place, ← h.parents.grows.start]
  exact hleads.location_eq hmade

/-- In a link-free store a path that lies within another one is seen to do so. -/
theorem within_of_place {s : Store} (hs : s.WellFormed)
    (hanchors : source.anchor = .doubleTop ↔ destination.anchor = .doubleTop)
    (hanchored : s.Anchored source ∧ s.Anchored destination)
    (hbelow : s.place source <+: s.place destination) : s.Within destination source := by
  have hsame : ∀ a b : Anchor, (a = .doubleTop ↔ b = .doubleTop) →
      (if b ≠ .here then b else .top) = if a ≠ .here then a else .top := by
    intro a b
    cases a <;> cases b <;> decide
  unfold Within
  rw [absolutePath_eq hs hanchored.1, absolutePath_eq hs hanchored.2]
  exact ⟨by simpa [Path.isAbsolute] using hsame _ _ hanchors, hbelow⟩

/-- In a link-free store a directory whose copy lies below it is seen to do so. -/
theorem within_of_copyStarts {s made : Store} {l d : Location} {n : String} (hs : s.WellFormed)
    (hfree : s.LinkFree) (hanchors : source.anchor = .doubleTop ↔ destination.anchor = .doubleTop)
    (hanchored : s.Anchored source ∧ s.Anchored destination)
    (hsource : s.target .followed source = .ok (.found l .dir))
    (hstarts : CopyStarts s destination d n made) (hbelow : l <+: d ++ [n]) :
    s.Within destination source := by
  have hdestination : d ++ [n] = s.place destination := hstarts.location hfree
  have horigin : l = s.place source := location_of_target hfree hsource
  exact within_of_place hs hanchors hanchored (by rwa [← horigin, ← hdestination])

theorem ne_endlessCopy_of_unlink {p : Path} {s s' : Store} {f : Failure}
    (h : (unlink p).run s = (.error f, s')) : f ≠ .endlessCopy := by
  rw [run_unlink] at h
  split at h
  · cases h
    simp
  · split at h <;> cases h
    simp [Failure.ofPath]

/-- Where a directory whose copy lies below it is seen to do so, nothing is copied without end. -/
theorem ne_endlessCopy_of_moveEntry {s s' : Store} {f : Failure} (hs : s.WellFormed)
    (hproper : destination.Proper)
    (hseen : ∀ l d n made, s.Anchored source ∧ s.Anchored destination →
      s.target .followed source = .ok (.found l .dir) → CopyStarts s destination d n made →
        l <+: d ++ [n] → s.Within destination source)
    (hrun : (moveEntry source destination).run s = (.error f, s')) : f ≠ .endlessCopy := by
  have hends : MoveEnds s source destination _ _ := moveEnds hs hproper
  rw [hrun] at hends
  rintro rfl
  cases hends with
  | refused h => exact h rfl
  | linked _ _ _ hremove => exact ne_endlessCopy_of_unlink hremove rfl
  | copyFailed _ hfound hwithin hanchored _ hunfinished =>
    cases hunfinished with
    | unmade _ hf => exact hf rfl
    | broken hstarts _ hendless =>
      exact hwithin (hseen _ _ _ _ hanchored hfound hstarts (hendless rfl))
  | copied _ _ _ _ _ _ _ _ hremove =>
    cases hremove with
    | refused _ h => exact h.1 rfl
    | emptied _ h => exact h.1 rfl
  | copiedFile _ _ _ hremove => exact ne_endlessCopy_of_unlink hremove rfl

/-- Between paths that start alike nothing is copied without end. -/
theorem keeps_moveEntry_linkFree (hsource : source.hasNul → nul)
    (hdestination : destination.Usable nul)
    (hanchors : source.anchor = .doubleTop ↔ destination.anchor = .doubleTop) :
    Keeps (fun s ↦ s.WellFormed ∧ s.LinkFree) (Failure.OfChange nul)
      (moveEntry source destination) := by
  intro s hs
  have hkeeps := keeps_moveEntry invariant_linkFree hsource hdestination s hs
  rcases hrun : (moveEntry source destination).run s with ⟨f | ⟨⟩, s'⟩ <;> rw [hrun] at hkeeps
  · exact ⟨hkeeps.1, hkeeps.2.resolve_right <| ne_endlessCopy_of_moveEntry hs.1 hdestination.proper
      (fun _ _ _ _ ↦ within_of_copyStarts hs.1 hs.2 hanchors) hrun⟩
  · exact hkeeps

end StoreAction

end DeferredOps
