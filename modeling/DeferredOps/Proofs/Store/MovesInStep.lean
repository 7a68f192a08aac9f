import DeferredOps.Proofs.Store.InStep

/-!
# Moves that go in step

A move of an entry below one directory and the same move below another go in step. Where the entry
cannot be renamed, it is copied: both copies are as the original is, with new files, unless the copy of
a part is stopped by a path that is too long.
-/

namespace DeferredOps

open Action

/-- What can stop the copy of one directory and not that of the other. -/
abbrev Failure.StopsCopy (f : Failure) : Prop :=
  f.OfStrayPart ∨ f.isSystem = false

namespace Store

variable {s t s' t' : Store} {w w' : Path} {base base' origin : Location} {names other : List String}

/-! ## Copies -/

/-- Which names stand for one file once a copy has been made: below its place none do but one and the
same, and elsewhere those that did before. -/
theorem sameFile_of_mirrored (h : s.Mirrored origin (base ++ other) s') (hs : s.Numbered)
    (rest rest' : List String) : s'.SameFile (base ++ rest) (base ++ rest') ↔
      if other <+: rest then rest = rest' ∧ ∃ id content,
        s'.entry? (base ++ rest) = some (.file id content)
      else ¬ other <+: rest' ∧ ¬ rest <+: other ∧ ¬ rest' <+: other ∧
        s.SameFile (base ++ rest) (base ++ rest') := by
  have hnew {rest : List String} {id : ℕ} {content : Bytes} (hrest : other <+: rest)
      (hfile : s'.entry? (base ++ rest) = some (.file id content)) : s.freshId ≤ id := by
    obtain ⟨more, rfl⟩ := hrest
    rw [← List.append_assoc] at hfile
    exact (h.files.fresh hfile).1
  have hstays {rest : List String} (hrest : ¬ other <+: rest) : s'.entry? (base ++ rest) =
      if rest <+: other then some .dir else s.entry? (base ++ rest) := by
    rw [h.stays (by simpa using hrest)]
    simp only [List.prefix_append_right_inj]
  have hold {rest : List String} {id : ℕ} {content : Bytes} (hrest : ¬ other <+: rest)
      (hfile : s'.entry? (base ++ rest) = some (.file id content)) :
      ¬ rest <+: other ∧ s.entry? (base ++ rest) = some (.file id content) := by
    rw [hstays hrest] at hfile
    split at hfile
    · cases hfile
    · next hnot => exact ⟨hnot, hfile⟩
  by_cases hrest : other <+: rest
  · rw [if_pos hrest]
    constructor
    · rintro ⟨id, content, content', hfile, hfile'⟩
      by_cases hrest' : other <+: rest'
      · obtain ⟨more, rfl⟩ := hrest
        obtain ⟨more', rfl⟩ := hrest'
        rw [← List.append_assoc] at hfile hfile'
        obtain rfl := h.files.distinct hfile hfile'
        exact ⟨rfl, id, content, by rwa [← List.append_assoc]⟩
      · have hlow := hs _ _ _ (hold hrest' hfile').2
        have hhigh := hnew hrest hfile
        omega
    · rintro ⟨rfl, id, content, hfile⟩
      exact ⟨id, content, content, hfile, hfile⟩
  · rw [if_neg hrest]
    constructor
    · rintro ⟨id, content, content', hfile, hfile'⟩
      obtain ⟨hnot, hfile⟩ := hold hrest hfile
      have hlow := hs _ _ _ hfile
      by_cases hrest' : other <+: rest'
      · have hhigh := hnew hrest' hfile'
        omega
      · obtain ⟨hnot', hfile'⟩ := hold hrest' hfile'
        exact ⟨hrest', hnot, hnot', id, content, content', hfile, hfile'⟩
    · rintro ⟨hrest', hnot, hnot', id, content, content', hfile, hfile'⟩
      refine ⟨id, content, content', ?_, ?_⟩
      · rw [hstays hrest, if_neg hnot, hfile]
      · rw [hstays hrest', if_neg hnot', hfile']

/-- A copy has no symbolic link if the original has none. -/
theorem noLinks_of_mirrored (h : s.Mirrored (base ++ names) (base ++ other) s') (hlinks : s.NoLinks base) :
    s'.NoLinks base := by
  refine hlinks.of_old fun rest text hl ↦ ?_
  by_cases hrest : other <+: rest
  · obtain ⟨more, rfl⟩ := hrest
    rw [← List.append_assoc] at hl
    have hcopied := h.copied more
    rw [form?, hl, form?] at hcopied
    obtain ⟨entry, hentry, hform⟩ := Option.map_eq_some_iff.mp hcopied.symm
    cases entry with
    | link old =>
      rw [List.append_assoc] at hentry
      exact absurd hentry (hlinks _ old (List.prefix_append _ _))
    | dir | file => cases hform
  · rw [h.stays (by simpa using hrest)] at hl
    split at hl
    · cases hl
    · exact ⟨rest, hl⟩

/-- Copies below two directories are alike if the originals are. -/
theorem SameBelow.mirrored (h : SameBelow base base' s t)
    (hleft : s.Mirrored (base ++ names) (base ++ other) s')
    (hright : t.Mirrored (base' ++ names) (base' ++ other) t') (hlinks : s'.NoLinks base)
    (hs : s.Numbered) (ht : t.Numbered) : SameBelow base base' s' t' := by
  have hforms (rest : List String) : t'.form? (base' ++ rest) = s'.form? (base ++ rest) := by
    by_cases hrest : other <+: rest
    · obtain ⟨more, rfl⟩ := hrest
      rw [← List.append_assoc, ← List.append_assoc, hleft.copied, hright.copied, List.append_assoc,
        List.append_assoc, h.forms]
    · rw [form?, form?, hleft.stays (by simpa using hrest), hright.stays (by simpa using hrest)]
      simp only [List.prefix_append_right_inj]
      split
      · rfl
      · exact h.forms rest
  have hfile (rest : List String) : (∃ id content, t'.entry? (base' ++ rest) = some (.file id content)) ↔
      ∃ id content, s'.entry? (base ++ rest) = some (.file id content) := by
    have hlink (text : String) : s'.entry? (base ++ rest) ≠ some (.link text) :=
      hlinks _ text (List.prefix_append _ _)
    rcases forms_cases hlink (hforms rest) with
      ⟨hl, hr⟩ | ⟨hl, hr⟩ | ⟨id, id', content, hl, hr⟩ <;> simp [hl, hr]
  refine ⟨hforms, fun rest rest' ↦ ?_⟩
  rw [sameFile_of_mirrored hleft hs, sameFile_of_mirrored hright ht, hfile, h.files]

theorem Alike.mirrored (h : Alike w w' s t) (hleft : s.Mirrored (w.parts ++ names) (w.parts ++ other) s')
    (hright : t.Mirrored (w'.parts ++ names) (w'.parts ++ other) t') (hs : s'.Numbered)
    (ht : t'.Numbered) : Alike w w' s' t' := by
  have habove {r r' : Store} {v : Path} (hv : v.Home) (hr : r.Orderly v.parts)
      (hcopy : r.Mirrored (v.parts ++ names) (v.parts ++ other) r') :
      r'.entry? v.parts.dropLast = some .dir := by
    rw [hcopy.stays (not_prefix_dropLast hv.named other), hr.above, ite_self]
  have hlinks := noLinks_of_mirrored hleft h.left.noLinks
  have hlinks' := noLinks_of_mirrored hright h.right.noLinks
  exact ⟨h.toSameBelow.mirrored hleft hright hlinks h.left.numbered h.right.numbered, h.home, h.home',
    ⟨hleft.wellFormed, hlinks, hs, habove h.home h.left hleft⟩,
    ⟨hright.wellFormed, hlinks', ht, habove h.home' h.right hright⟩⟩

/-! ## Places that are clear -/

/-- A place is clear if a directory could be made there. -/
theorem clear_of_madeParents {p : Path} {made : Store} {directory : Location} {name : String} {parents : ℕ}
    (hparents : s.MadeParents p parents made) (hfree : made.Free p directory name) :
    s.Clear (directory ++ [name]) where
  vacant := by
    cases hentry : s.entry? (directory ++ [name]) with
    | none => rfl
    | some entry => exact absurd (hparents.grows.kept hentry) (by simp [hfree.free])
  way {l} hl := by
    cases hentry : s.entry? l with
    | none => exact .inl rfl
    | some entry =>
      have hkept := hparents.grows.kept hentry
      rcases List.prefix_concat_iff.mp hl with rfl | hl
      · exact absurd hkept (by simp [hfree.free])
      · rw [hparents.wellFormed.dir_of_prefix hfree.dir hl] at hkept
        exact .inr hkept.symm

/-- A straight path spells out its names if these are legal. -/
theorem spells_of_straight {p : Path} (hp : p.Straight) (hname : ∀ name ∈ p.parts, IsName name)
    (hshort : p.text.utf8ByteSize < pathLimit) : s.Spells p p.parts := by
  have hstart : s.start p = [] := by rw [start, if_pos hp.isAbsolute]
  exact ⟨hname, hshort, by rw [hstart, entry?_nil], by rw [hstart, List.nil_append]⟩

end Store

namespace StoreAction

open Store

variable {s t s' : Store} {w w' p q : Path} {names other : List String}

/-- A copy stands where a straight path says, if no symbolic link is on the way. -/
theorem location_of_copyStarts {made : Store} {d : Location} {n : String} (hq : q.Straight)
    (hway : s.NoLinksTo q.parts) (h : CopyStarts s q d n made) : d ++ [n] = q.parts := by
  have hleads : made.Leads .followed linkLimit (made.start q) q.parts (.absent d n) :=
    h.free.leads_parts h.parents.wellFormed
  have hstart : made.start q = [] := by rw [start, if_pos hq.isAbsolute]
  rw [hstart] at hleads
  refine hleads.location_eq_append hq.noDots fun l text hl hthere ↦ ?_
  exact hway l text hl ((h.parents.grows.added hthere).resolve_right (by simp))

/-- A directory can be copied to where a directory could be made, apart from itself. -/
theorem portable_of_makeDirectories (hs : s.WellFormed) (hlinks : s.NoLinks p.parts)
    (hway : s.NoLinksTo q.parts) (hp : p.Straight) (hq : q.Straight) (hproper : q.Proper)
    (hp_short : p.text.utf8ByteSize < pathLimit)
    (hq_short : q.text.utf8ByteSize < pathLimit) (hnamed : p.parts ≠ []) (hdir : s.entry? p.parts = some .dir)
    (hapart : ¬ p.parts <+: q.parts) (hmade : (makeDirectories false q).run s = (.ok (), s')) :
    s.Portable p p.parts q q.parts := by
  have hmake : Outcome _ _ ((makeDirectories false q).run s) :=
    ensures_makeDirectoriesFrom hs hproper q.parts.length s rfl
  rw [hmade] at hmake
  obtain ⟨made, d, n, hparents, hmadeFree, rfl⟩ := hmake.2 rfl
  have hlocation : d ++ [n] = q.parts := location_of_copyStarts hq hway ⟨hparents, hmadeFree⟩
  have hclear := clear_of_madeParents hparents hmadeFree
  rw [hlocation] at hclear
  refine ⟨hs, hlinks, spells_of_straight hp (fun name hname ↦ hs.isName_of_mem hdir hname) hp_short,
    spells_of_straight hq (fun name hname ↦ ?_) hq_short, hnamed, by simp [← hlocation],
    by simp [hdir], hclear, hapart⟩
  rw [← hlocation] at hname
  rcases List.mem_append.mp hname with hname | hname
  · exact hparents.wellFormed.isName_of_mem hmadeFree.dir hname
  · exact List.mem_singleton.mp hname ▸ hmadeFree.isName

theorem run_copyTreeFrom_of_unmade {origin : Location} {f : Failure} (hlisted : s.listed p = .ok origin)
    (hmake : (makeDirectories false q).run s = (.error f, s')) (depth : ℕ) :
    (copyTreeFrom (depth + 1) p q).run s = (.error f, s') := by
  unfold copyTreeFrom
  simp only [run_bind, run_ask, hlisted, run_get, hmake]

theorem exists_run_copyTree (s : Store) (p q : Path) :
    ∃ depth, (copyTree p q).run s = (copyTreeFrom (depth + 1) p q).run s := by
  have hdepth : s.entries.length + q.parts.length + endlessDepth ≠ 0 := by
    unfold endlessDepth
    omega
  obtain ⟨depth, heq⟩ := Nat.exists_eq_succ_of_ne_zero hdepth
  refine ⟨depth, ?_⟩
  unfold copyTree
  rw [run_bind, run_get]
  dsimp only
  rw [heq]

/-- Where the directory of the copy cannot be made, nothing is copied. -/
theorem run_copyTree_of_unmade {origin : Location} {f : Failure} (hlisted : s.listed p = .ok origin)
    (hmake : (makeDirectories false q).run s = (.error f, s')) :
    (copyTree p q).run s = (.error f, s') := by
  obtain ⟨depth, heq⟩ := exists_run_copyTree s p q
  rw [heq, run_copyTreeFrom_of_unmade hlisted hmake]

theorem numbered_of_copyTree (hs : s.WellFormed ∧ s.Numbered) (hq : q.Proper) :
    ((copyTree p q).run s).2.Numbered := by
  obtain ⟨depth, heq⟩ := exists_run_copyTree s p q
  have hkept : Keeps _ (Failure.OfStore True) (copyTreeFrom (depth + 1) p q) :=
    keeps_copyTreeFrom invariant_numbered (fun _ ↦ trivial) ⟨hq, fun _ ↦ trivial⟩ (depth + 1)
  rw [heq]
  exact (hkept.state hs).2

/-- A directory is copied to where a directory could be made, unless a path is too long for a part. -/
theorem copyTree_of_made (hw : w.Home) (hs : s.Orderly w.parts) (hnames : PlainNames names)
    (hother : PlainNames other) (hdir : s.entry? (w.parts ++ names) = some .dir)
    (hshort : (w.extend names).text.utf8ByteSize < pathLimit)
    (hother_short : (w.extend other).text.utf8ByteSize < pathLimit) (hapart : ¬ names <+: other)
    (hmade : (makeDirectories false (w.extend other)).run s = (.ok (), s')) :
    Outcome (fun _ s'' ↦ s.Mirrored (w.parts ++ names) (w.parts ++ other) s'' ∧ s''.Numbered)
      (fun f _ ↦ f.StopsCopy) ((copyTree (w.extend names) (w.extend other)).run s) := by
  have hlinks : s.NoLinks (w.parts ++ names) := hs.noLinks.mono (List.prefix_append _ _)
  have hportable := portable_of_makeDirectories hs.wellFormed hlinks (hs.noLinksTo other)
    (hw.straight hnames) (hw.straight hother) (hw.proper hother) hshort hother_short (by simp [hw.named]) hdir
    (by simpa using hapart) hmade
  have hcopy := ensures_copyTree_of_portable hportable hdir s rfl
  have hnumbered := numbered_of_copyTree (p := w.extend names) hs.usable (hw.proper hother)
  rcases hrun : (copyTree (w.extend names) (w.extend other)).run s with ⟨f | _, s''⟩ <;>
    rw [hrun] at hcopy hnumbered
  · exact hcopy.2
  · exact ⟨hcopy, hnumbered⟩

theorem copyTree_of_unmade {f : Failure} (hw : w.Home) (hs : s.Orderly w.parts) (hnames : PlainNames names)
    (hdir : s.entry? (w.parts ++ names) = some .dir)
    (hshort : (w.extend names).text.utf8ByteSize < pathLimit)
    (hmake : (makeDirectories false (w.extend other)).run s = (.error f, s')) :
    (copyTree (w.extend names) (w.extend other)).run s = (.error f, s') := by
  have hspells : s.Spells (w.extend names) (w.parts ++ names) :=
    spells_of_straight (hw.straight hnames) (fun _ hname ↦ hs.wellFormed.isName_of_mem hdir hname) hshort
  exact run_copyTree_of_unmade (hspells.listed hs.wellFormed hdir) hmake

/-- The copies of a directory stop together, or both are as it is, unless a part of one of them fails
because a path is too long. -/
theorem alongside_copyTree (hnames : PlainNames names) (hother : PlainNames other)
    (hshort : (w.extend names).text.utf8ByteSize < pathLimit)
    (hshort' : (w'.extend names).text.utf8ByteSize < pathLimit)
    (hother_short : (w.extend other).text.utf8ByteSize < pathLimit)
    (hother_short' : (w'.extend other).text.utf8ByteSize < pathLimit) (hapart : ¬ names <+: other) :
    Alongside (.failures Failure.StopsCopy Failure.StopsCopy)
      (fun s t ↦ s.entry? (w.parts ++ names) = some .dir ∧ Alike w w' s t)
      (copyTree (w.extend names) (w.extend other)) (copyTree (w'.extend names) (w'.extend other))
      (fun _ _ ↦ Alike w w') (fun _ _ ↦ Alike w w') := by
  refine alongside_of_runs fun s t ⟨hdir, hst⟩ ↦ ?_
  have hdir' : t.entry? (w'.parts ++ names) = some .dir :=
    form?_eq_dir_iff.mp ((hst.forms names).trans (form?_eq_dir_iff.mpr hdir))
  rcases (inStep_makeDirectories hother hother_short hother_short').alike s t hst with
    (h | ⟨_, _, h⟩) | (h | ⟨_, _, h⟩) | hmake
  · exact h.elim
  · exact h.elim
  · exact h.elim
  · exact h.elim
  rcases hrun : (makeDirectories false (w.extend other)).run s with ⟨f | _, s'⟩ <;>
    rcases hrun' : (makeDirectories false (w'.extend other)).run t with ⟨g | _, t'⟩ <;>
    rw [hrun, hrun'] at hmake
  · rw [copyTree_of_unmade hst.home hst.left hnames hdir hshort hrun,
      copyTree_of_unmade hst.home' hst.right hnames hdir' hshort' hrun']
    exact .inr (.inr hmake.2)
  · cases hmake
  · cases hmake
  have hleft := copyTree_of_made hst.home hst.left hnames hother hdir hshort hother_short hapart hrun
  have hright := copyTree_of_made hst.home' hst.right hnames hother hdir' hshort' hother_short' hapart
    hrun'
  generalize (copyTree (w.extend names) (w.extend other)).run s = outcome at hleft ⊢
  generalize (copyTree (w'.extend names) (w'.extend other)).run t = outcome' at hright ⊢
  rcases outcome with ⟨f | _, s'⟩
  · exact .inl ⟨f, rfl, hleft⟩
  rcases outcome' with ⟨g | _, t'⟩
  · exact .inr (.inl ⟨g, rfl, hright⟩)
  · exact .inr (.inr (hst.mirrored hleft.1 hright.1 hleft.2 hright.2))

/-! ## Moves -/

/-- Only a directory is copied in place of being renamed; the move of anything else then fails and
changes nothing. -/
theorem run_moveEntry_of_refused (hs : s.WellFormed) (hway : s.NoLinksTo p.parts) (hp : p.Straight)
    (hq : q.Proper) {e : SystemError} (hrename : s.rename p q = .error e) (hnot : s.entry? p.parts ≠ some .dir) :
    ∃ f, (moveEntry p q).run s = (.error f, s) := by
  have hunrenamed (s' : Store) : s.rename p q ≠ .ok s' := by simp [hrename]
  have hundirected (l : Location) : s.target .followed p ≠ .ok (.found l .dir) := by
    rw [Ne, target_straight_iff hs hway hp]
    rintro ⟨-, rfl, hdir⟩
    exact hnot hdir
  have hends : MoveEnds s p q ((moveEntry p q).run s).1 ((moveEntry p q).run s).2 := moveEnds hs hq
  rcases hrun : (moveEntry p q).run s with ⟨result, s'⟩
  rw [hrun] at hends
  cases hends with
  | refused => exact ⟨_, rfl⟩
  | renamed _ h => exact absurd h (hunrenamed _)
  | linked _ hsource =>
    obtain ⟨-, rfl, hlink⟩ :=
      (target_straight_iff hs hway hp).mp (entryAt_eq_some_iff.mp hsource).2
    exact absurd hlink (hway.here _)
  | copyFailed _ hsource => exact absurd hsource (hundirected _)
  | copied _ hsource => exact absurd hsource (hundirected _)
  | copiedFile _ hsource hwrite =>
    obtain ⟨s', h⟩ := exists_rename_of_file hs hsource hwrite
    exact absurd h (hunrenamed s')

/-- Of two straight paths it is seen in their names whether one lies in the other. -/
theorem run_liesWithin_of_straight (hs : s.WellFormed) (hp : p.Straight) (hq : q.Straight)
    (hanchor : p.anchor = q.anchor) :
    (liesWithin q p).run s = (.ok (p.parts.isPrefixOf q.parts), s) := by
  have habsolute {v : Path} (hv : v.Straight) : s.absolutePath v = ⟨v.anchor, v.parts⟩ := by
    rw [absolutePath_eq hs (.inl hv.isAbsolute), if_pos hv.isAbsolute, place_of_straight s hv]
  unfold liesWithin
  simp only [run_bind, run_absolute (s := s) (.inl hp.isAbsolute), run_absolute (s := s) (.inl hq.isAbsolute),
    habsolute hp, habsolute hq, run_pure, hanchor, decide_true, Bool.true_and]

theorem run_moveByCopy_of_dir (hs : s.WellFormed) (hp : p.Straight) (hq : q.Straight)
    (hanchor : p.anchor = q.anchor) (hclean : p.hasNul = false)
    (hshort : p.text.utf8ByteSize < pathLimit) (hdir : s.entry? p.parts = some .dir) :
    (moveByCopy p q).run s =
      if p.parts.isPrefixOf q.parts then (.error (.intoItself p.text q.text), s)
      else (copyTree p q >>= fun _ ↦ removeTree p).run s := by
  have hentry {last : LastLink} : s.entryAt last p = .ok (some (p.parts, .dir)) :=
    entryAt_eq_some_iff.mpr
      ⟨hclean, (target_straight_iff hs (.of_entry hs hdir rfl) hp).mpr ⟨hshort, rfl, hdir⟩⟩
  have hisDirectory : s.isDirectory p = .ok true := by
    rw [Store.isDirectory, hentry]
    rfl
  unfold moveByCopy
  rw [run_bind, run_get]
  dsimp only
  rw [hentry]
  dsimp only
  rw [run_bind, run_get]
  dsimp only
  rw [hisDirectory]
  simp only [cautious, if_true]
  rw [run_bind, run_liesWithin_of_straight hs hp hq hanchor]
  dsimp only
  split <;> rfl

/-- Two moves of which no path is too long go in step, unless parts of a copy do not go along. -/
theorem alongside_moveEntry (hnames : PlainNames names) (hother : PlainNames other)
    (hclean : (w.extend names).hasNul = false) (hother_clean : (w.extend other).hasNul = false)
    (hshort : (w.extend names).text.utf8ByteSize < pathLimit)
    (hshort' : (w'.extend names).text.utf8ByteSize < pathLimit)
    (hother_short : (w.extend other).text.utf8ByteSize < pathLimit)
    (hother_short' : (w'.extend other).text.utf8ByteSize < pathLimit) :
    Alongside (.failures Failure.StopsCopy Failure.StopsCopy) (Alike w w')
      (moveEntry (w.extend names) (w.extend other)) (moveEntry (w'.extend names) (w'.extend other))
      (fun _ _ ↦ Alike w w') (fun _ _ ↦ Alike w w') := by
  refine ⟨fun _ h ↦ h.elim, fun _ h ↦ h.elim, fun s t hst ↦ ?_⟩
  have hclean' := (hst.hasNul names).trans hclean
  have hother_clean' := (hst.hasNul other).trans hother_clean
  have hrename := hst.rename hnames hother hother_clean hshort hshort' hother_short hother_short'
  rcases hrun : s.rename (w.extend names) (w.extend other) with e | made <;>
    rcases hrun' : t.rename (w'.extend names) (w'.extend other) with e' | made' <;>
    rw [hrun, hrun'] at hrename
  case ok.ok =>
    rw [run_moveEntry_of_renamed hclean hother_clean hrun,
      run_moveEntry_of_renamed hclean' hother_clean' hrun']
    cases hrename with
    | ok h => exact .inr (.inr h)
  case error.ok => cases hrename
  case ok.error => cases hrename
  -- Neither can be renamed, so what counts is whether the source is a directory.
  by_cases hdir : s.entry? (w.parts ++ names) = some .dir
  · have hdir' : t.entry? (w'.parts ++ names) = some .dir :=
      form?_eq_dir_iff.mp ((hst.forms names).trans (form?_eq_dir_iff.mpr hdir))
    rw [run_moveEntry_of_unrenamed hclean hother_clean hrun,
      run_moveEntry_of_unrenamed hclean' hother_clean' hrun',
      run_moveByCopy_of_dir hst.left.wellFormed (hst.home.straight hnames)
        (hst.home.straight hother) rfl hclean hshort hdir,
      run_moveByCopy_of_dir hst.right.wellFormed (hst.home'.straight hnames)
        (hst.home'.straight hother) rfl hclean' hshort' hdir']
    by_cases hpre : names <+: other
    · rw [if_pos (by simpa using hpre), if_pos (by simpa using hpre)]
      exact .inr (.inr hst)
    · rw [if_neg (by simpa using hpre), if_neg (by simpa using hpre)]
      have hcopy := alongside_copyTree hnames hother hshort hshort' hother_short hother_short' hpre
      have hremove : InStep w w' Failure.StopsCopy Failure.StopsCopy Failure.SameCause
          (removeTree (w.extend names)) (removeTree (w'.extend names)) :=
        inStep_removeTree (Excuse.allows_of_short hshort hshort') hnames
      have hboth := Alongside.bind (Q := fun _ ↦ Alike w w')
        (hcopy.weaken (fun _ _ h ↦ h) (fun _ _ _ _ h ↦ ⟨rfl, h⟩) fun _ _ _ _ h ↦ h) fun _ ↦
          hremove.weaken (fun _ _ h ↦ h) (fun _ _ _ _ h ↦ h.2) fun _ _ _ _ h ↦ h.2
      exact hboth.alike s t ⟨hdir, hst⟩
  · have hdir' : t.entry? (w'.parts ++ names) ≠ some .dir := fun h ↦
      hdir (form?_eq_dir_iff.mp ((hst.forms names).symm.trans (form?_eq_dir_iff.mpr h)))
    obtain ⟨f, hmove⟩ := run_moveEntry_of_refused hst.left.wellFormed (hst.left.noLinksTo names)
      (hst.home.straight hnames) (hst.home.proper hother) hrun hdir
    obtain ⟨g, hmove'⟩ := run_moveEntry_of_refused hst.right.wellFormed (hst.right.noLinksTo names)
      (hst.home'.straight hnames) (hst.home'.proper hother) hrun' hdir'
    rw [hmove, hmove']
    exact .inr (.inr hst)

/-- Every failure of such a move is one of the file system. -/
theorem isSystem_of_moveEntry (hw : w.Home) (hs : s.Orderly w.parts) (hnames : PlainNames names)
    (hother : PlainNames other)
    (hclean : (w.extend names).hasNul = false) (hother_clean : (w.extend other).hasNul = false) :
    Outcome (fun _ _ ↦ True) (fun f _ ↦ f.isSystem)
      ((moveEntry (w.extend names) (w.extend other)).run s) := by
  have hstraight : (w.extend names).Straight := hw.straight hnames
  have hstraight' : (w.extend other).Straight := hw.straight hother
  have hkept : Keeps Store.WellFormed (Failure.OfStore False) (moveEntry (w.extend names) (w.extend other)) :=
    keeps_moveEntry invariant_wellFormed (by simp [hclean]) ⟨hw.proper hother, by simp [hother_clean]⟩
  rcases hrun : (moveEntry (w.extend names) (w.extend other)).run s with ⟨f | _, s'⟩
  · have hended : f ≠ .endlessCopy := by
      refine ne_endlessCopy_of_moveEntry hs.wellFormed (hw.proper hother) ?_ hrun
      intro l d n made hanchored hfound hstarts hbelow
      obtain ⟨-, rfl, -⟩ := (target_straight_iff hs.wellFormed (hs.noLinksTo names) hstraight).mp hfound
      rw [location_of_copyStarts hstraight' (hs.noLinksTo other) hstarts] at hbelow
      refine within_of_place hs.wellFormed Iff.rfl hanchored ?_
      rwa [place_of_straight s hstraight, place_of_straight s hstraight']
    rcases hkept.failure hs.wellFormed (congrArg Prod.fst hrun) with (hsystem | ⟨-, hnul⟩) | hendless
    · exact hsystem
    · exact hnul.elim
    · exact absurd hendless hended
  · trivial

/-- Two moves go in step, unless a part of a copy does not go along because a path is too long. -/
theorem inStep_moveEntry (hnames : PlainNames names) (hother : PlainNames other) :
    Alongside (.failures Failure.OfStrayPart Failure.OfStrayPart)
      (fun s t ↦ (Path.BothReached w w' names ∧ Path.BothReached w w' other) ∧ Alike w w' s t)
      (moveEntry (w.extend names) (w.extend other)) (moveEntry (w'.extend names) (w'.extend other))
      (fun _ _ ↦ Alike w w') (fun f g s t ↦ f.Akin g ∧ Alike w w' s t) := by
  refine ⟨fun _ h ↦ h.elim, fun _ h ↦ h.elim, fun s t ⟨⟨hreached, hreached_other⟩, hst⟩ ↦ ?_⟩
  have hnul {v : Path} (r : Store) (h : ((v.extend names).hasNul || (v.extend other).hasNul) = true) :
      (moveEntry (v.extend names) (v.extend other)).run r = (.error .embeddedNul, r) := by
    unfold moveEntry
    rw [if_pos h]
    rfl
  by_cases hclean : ((w.extend names).hasNul || (w.extend other).hasNul) = true
  · rw [hnul s hclean, hnul t (by rwa [hst.hasNul, hst.hasNul])]
    exact .inr (.inr ⟨.inl rfl, hst⟩)
  obtain ⟨hclean, hother_clean⟩ : (w.extend names).hasNul = false ∧ (w.extend other).hasNul = false := by
    simpa using hclean
  have hclean' := (hst.hasNul names).trans hclean
  have hother_clean' := (hst.hasNul other).trans hother_clean
  have hmove := alongside_moveEntry hnames hother hclean hother_clean
    (hreached.1.resolve_left (by simp [hclean])) (hreached.2.resolve_left (by simp [hclean']))
    (hreached_other.1.resolve_left (by simp [hother_clean]))
    (hreached_other.2.resolve_left (by simp [hother_clean']))
  have hsystem := hmove.and
    (fun _ _ h ↦ isSystem_of_moveEntry h.home h.left hnames hother hclean hother_clean)
    (fun _ _ h ↦ isSystem_of_moveEntry h.home' h.right hnames hother hclean' hother_clean')
  have hpart (f : Failure) (h : f.StopsCopy ∧ f.isSystem) : f.OfStrayPart :=
    h.1.resolve_right (by simp [h.2])
  exact ((hsystem.excuse hpart hpart).weaken (fun _ _ h ↦ h) (fun _ _ _ _ h ↦ h.1)
    fun _ _ _ _ h ↦ ⟨.inr h.2, h.1⟩).alike s t hst

end StoreAction

end DeferredOps
