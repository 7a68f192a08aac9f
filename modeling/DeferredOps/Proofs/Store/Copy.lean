import DeferredOps.Proofs.Store.Growth
import Mathlib.Data.List.Perm.Subperm

/-!
# What a copy delivers

Copying only adds, and all that a copy of a directory adds lies at or below its own location. A copy
that succeeds has brought every file to the same place below that location. Only a copy that lies
below its own source can be endless.
-/

namespace DeferredOps

open Action

namespace Store

/-- Every file at or below a location has a copy at the same place below another one. -/
def Delivered (s s' : Store) (source target : Location) : Prop :=
  ∀ rest id content, s.entry? (source ++ rest) = some (.file id content) →
    ∃ id', s'.entry? (target ++ rest) = some (.file id' content)

/-- Every file and every directory at or below a location has a copy at the same place below another one. -/
structure Copied (s s' : Store) (source target : Location) : Prop where
  delivered : s.Delivered s' source target
  directory {rest} (h : s.entry? (source ++ rest) = some .dir) : s'.entry? (target ++ rest) = some .dir

variable {P : Location → Entry → Prop} {s s' s'' : Store} {source target directory : Location}
  {name : String} {entry : Entry} {p : Path}

theorem Delivered.grows (h : s.Delivered s' source target) (hg : Grows P s' s'') :
    s.Delivered s'' source target := by
  intro rest id content hfile
  obtain ⟨id', hcopy⟩ := h rest id content hfile
  exact ⟨id', hg.kept hcopy⟩

theorem Delivered.of_grows (h : s'.Delivered s'' source target) (hg : Grows P s s') :
    s.Delivered s'' source target :=
  fun rest id content hfile ↦ h rest id content (hg.kept hfile)

theorem Copied.grows (h : s.Copied s' source target) (hg : Grows P s' s'') : s.Copied s'' source target :=
  ⟨h.delivered.grows hg, fun hdir ↦ hg.kept (h.directory hdir)⟩

theorem Copied.of_grows (h : s'.Copied s'' source target) (hg : Grows P s s') :
    s.Copied s'' source target :=
  ⟨h.delivered.of_grows hg, fun hdir ↦ h.directory (hg.kept hdir)⟩

/-- What is no directory has no directories below it. -/
theorem Delivered.copied (h : s.Delivered s' source target) (hs : s.WellFormed)
    (hsource : s.entry? source ≠ some .dir) : s.Copied s' source target := by
  refine ⟨h, fun {rest} hdir ↦ absurd ?_ hsource⟩
  exact hs.dir_of_prefix hdir (List.prefix_append source rest)

/-- A file has nothing below it. -/
theorem delivered_of_file (hs : s.WellFormed) {id : ℕ} {content : Bytes}
    (hfile : s.entry? source = some (.file id content))
    (hcopy : ∃ id', s'.entry? target = some (.file id' content)) :
    s.Delivered s' source target := by
  intro rest other content' h
  by_cases hrest : rest = []
  · subst hrest
    rw [List.append_nil, hfile] at h
    cases h
    simpa using hcopy
  · have hdir : s.entry? source ≠ some .dir := by simp [hfile]
    have hnone := hs.none_of_append hrest hdir
    simp [hnone] at h

theorem delivered_of_link (hs : s.WellFormed) {text : String}
    (hlink : s.entry? source = some (.link text)) : s.Delivered s' source target := by
  intro rest id content h
  by_cases hrest : rest = []
  · subst hrest
    rw [List.append_nil, hlink] at h
    cases h
  · have hdir : s.entry? source ≠ some .dir := by simp [hlink]
    have hnone := hs.none_of_append hrest hdir
    simp [hnone] at h

/-- A directory is delivered by delivering what has a name in it. -/
theorem delivered_of_names (hs : s.WellFormed) (hsource : s.Sound (.found source .dir))
    (h : ∀ name ∈ s.names source, s.Delivered s' (source ++ [name]) (target ++ [name])) :
    s.Delivered s' source target := by
  intro rest id content hfile
  cases rest with
  | nil =>
    rw [List.append_nil] at hfile
    rcases hsource with hdir | ⟨-, hremoved, -⟩
    · cases hdir.symm.trans hfile
    · simp [hs.not_isRemoved hfile] at hremoved
  | cons name rest =>
    rw [List.append_cons] at hfile ⊢
    refine h name (mem_names.mpr ?_) rest id content hfile
    by_cases hrest : rest = []
    · simp only [hrest, List.append_nil] at hfile
      simp [hfile]
    · simp [hs.dir_of_append hrest hfile]

/-- A directory is copied by making one and copying what has a name in it. -/
theorem copied_of_names (hs : s.WellFormed) (hsource : s.Sound (.found source .dir))
    (hdir : s'.entry? target = some .dir)
    (h : ∀ name ∈ s.names source, s.Copied s' (source ++ [name]) (target ++ [name])) :
    s.Copied s' source target where
  delivered := delivered_of_names hs hsource fun name hname ↦ (h name hname).delivered
  directory {rest} hrest := by
    cases rest with
    | nil => rwa [List.append_nil]
    | cons name rest =>
      rw [List.append_cons] at hrest ⊢
      have hname := hs.dir_of_prefix hrest (List.prefix_append _ rest)
      exact (h name (mem_names.mpr (by simp [hname]))).directory hrest

theorem nodup_names (hs : s.WellFormed) (directory : Location) : (s.names directory).Nodup := by
  have hnames : s.names directory = (s.entries.map (·.1)).filterMap (nameIn? directory) := by
    rw [List.filterMap_map]
    rfl
  rw [hnames]
  refine hs.nodup.filterMap fun l l' name hl hl' ↦ ?_
  rw [Option.mem_def, nameIn?_eq_some] at hl hl'
  rw [hl, hl']

/-- Nothing lies deeper than there are entries, since everything on the way to it is one. -/
theorem length_le_of_entry? (hs : s.WellFormed) (h : s.entry? source = some entry) :
    source.length ≤ s.entries.length := by
  let parents := (List.range source.length).map fun n ↦ source.take (n + 1)
  have hnodup : parents.Nodup := by
    refine List.Nodup.map_on (fun n hn m hm heq ↦ ?_) List.nodup_range
    have hlength := congrArg List.length heq
    simp only [List.mem_range, List.length_take] at hn hm hlength
    omega
  have hsub : parents ⊆ s.entries.map (·.1) := by
    intro l hl
    obtain ⟨n, hn, rfl⟩ := List.mem_map.mp hl
    have hne : source.take (n + 1) ≠ [] := by
      intro hnil
      have hlength := congrArg List.length hnil
      simp only [List.mem_range, List.length_take, List.length_nil] at hn hlength
      omega
    obtain ⟨e, he⟩ : ∃ e, s.entry? (source.take (n + 1)) = some e := by
      by_cases heq : source.take (n + 1) = source
      · exact ⟨entry, by rw [heq, h]⟩
      · refine ⟨.dir, ?_⟩
        by_contra hdir
        have hnone := hs.none_of_prefix (List.take_prefix (n + 1) source) (Ne.symm heq) hdir
        simp [hnone] at h
    exact List.mem_map_of_mem (mem_entries hne he)
  simpa [parents] using (hnodup.subperm hsub).length_le

/-! ## Unfinished copies -/

/-- So far entries have only been added, all of them at or below the target. They are copies: their
links are those of the origin, and a target apart from the origin has no other files. -/
structure Copying (s : Store) (origin target : Location) (s' : Store) : Prop where
  wellFormed : s'.WellFormed
  grows : s.GrowsAt target s'
  opened : s'.opened = s.opened
  links {l text} (h : s'.entry? l = some (.link text)) :
    s.entry? l = some (.link text) ∨ ∃ rest, s.entry? (origin ++ rest) = some (.link text)
  mirrored (hapart : ¬ origin <+: target) : s'.Delivered s target origin

theorem Copying.refl (hs : s.WellFormed) (hfree : s.entry? target = none) :
    s.Copying source target s := by
  refine ⟨hs, .refl s, rfl, .inl, fun _ rest id content hfile ↦ ?_⟩
  have hnone : s.entry? (target ++ rest) = none := by
    by_cases hrest : rest = []
    · rw [hrest, List.append_nil, hfree]
    · exact hs.none_of_append hrest (by simp [hfree])
  simp [hnone] at hfile

theorem not_prefix_of_free (hs : s.WellFormed) (hsource : s.entry? source ≠ none)
    (hfree : s.entry? target = none) : ¬ target <+: source := by
  intro hpre
  by_cases heq : source = target
  · exact hsource (heq ▸ hfree)
  · exact hsource (hs.none_of_prefix hpre heq (by simp [hfree]))

theorem prefix_of_concat (h : source ++ [name] <+: target ++ [name]) : source <+: target := by
  rcases List.prefix_concat_iff.mp h with heq | hpre
  · exact List.append_inj_left' heq rfl ▸ List.prefix_refl _
  · exact (List.prefix_append _ _).trans hpre

/-- What lies in the origin was there before anything was added at a target apart from it. -/
theorem Copying.old_of_origin (h : s.Copying source target s') (hs : s.WellFormed)
    (hsource : s.entry? source ≠ none) (hfree : s.entry? target = none)
    (hapart : ¬ source <+: target) {rest : Location}
    (hentry : s'.entry? (source ++ rest) = some entry) : s.entry? (source ++ rest) = some entry := by
  refine (h.grows.added hentry).resolve_right fun hpre ↦ ?_
  rcases List.prefix_or_prefix_of_prefix hpre (List.prefix_append _ _) with hbelow | habove
  · exact not_prefix_of_free hs hsource hfree hbelow
  · exact hapart habove

/-- An entry that is made at the target is a copy if it is a directory or like the origin. -/
theorem Free.copying_put (h : s.Free p directory name) (hs : s.WellFormed)
    (hlink : ∀ text, entry = .link text →
      '\x00' ∉ text.toList ∧ s.entry? source = some (.link text))
    (hfile : ∀ id content, entry = .file id content →
      ∃ id', s.entry? source = some (.file id' content)) :
    s.Copying source (directory ++ [name]) (s.put (directory ++ [name]) entry) where
  wellFormed := h.wellFormed_put hs fun text heq ↦ (hlink text heq).1
  grows := h.grows_put
  opened := rfl
  links {l text} hl := by
    rw [entry?_put (by simp)] at hl
    split at hl
    · exact .inr ⟨[], by rw [List.append_nil, (hlink text (Option.some.inj hl)).2]⟩
    · exact .inl hl
  mirrored hapart rest id content hcopy := by
    rw [entry?_put (by simp)] at hcopy
    split at hcopy
    · next heq =>
      obtain rfl : rest = [] := by simpa using heq
      rw [List.append_nil]
      exact hfile id content (Option.some.inj hcopy)
    · exact (Copying.refl hs h.free).mirrored hapart rest id content hcopy

theorem Free.copying_putFile (h : s.Free p directory name) (hs : s.WellFormed) {id : ℕ}
    {content : Bytes} (hfile : s.entry? source = some (.file id content)) :
    s.Copying source (directory ++ [name]) (s.putFile (directory ++ [name]) content) :=
  have hput : s.Copying source (directory ++ [name])
      (s.put (directory ++ [name]) (.file s.freshId content)) :=
    h.copying_put hs (by simp) fun _ _ heq ↦ ⟨id, by rw [hfile, (Entry.file.inj heq).2]⟩
  ⟨hs.putFile h.dir h.isName h.free, ⟨hput.grows.kept, hput.grows.added, rfl⟩, rfl, hput.links,
    hput.mirrored⟩

/-- A copy goes on with one of the names. -/
theorem Copying.trans (h : s.Copying source target s')
    (h' : s'.Copying (source ++ [name]) (target ++ [name]) s'') (hs : s.WellFormed)
    (hsource : s.entry? source ≠ none) (hfree : s.entry? target = none) :
    s.Copying source target s'' where
  wellFormed := h'.wellFormed
  grows := h.grows.trans (h'.grows.mono fun _ _ hl ↦ (List.prefix_append _ _).trans hl)
  opened := h'.opened.trans h.opened
  links hl := by
    rcases h'.links hl with hold | ⟨rest, hold⟩
    · exact h.links hold
    · rcases h.links hold with hold | hnew
      · exact .inr ⟨name :: rest, by rwa [List.append_cons]⟩
      · exact .inr hnew
  mirrored hapart rest id content hfile := by
    rcases h'.grows.added hfile with hold | hnew
    · exact h.mirrored hapart rest id content hold
    · obtain ⟨more, rfl⟩ := (List.prefix_append_right_inj target).mp hnew
      have hapart' : ¬ source ++ [name] <+: target ++ [name] := fun hpre ↦
        hapart (prefix_of_concat hpre)
      rw [← List.append_assoc] at hfile ⊢
      obtain ⟨id', hcopied⟩ := h'.mirrored hapart' more id content hfile
      rw [List.append_assoc] at hcopied ⊢
      exact ⟨id', h.old_of_origin hs hsource hfree hapart hcopied⟩

/-- A failure of a copy. It is endless only where the copy lies below what is copied, or what is
copied is too deep. -/
structure CopyFails (s : Store) (source target : Location) (depth : ℕ) (f : Failure) : Prop where
  reported : f ≠ .partialCopy []
  endless : f = .endlessCopy →
    source <+: target ∨ ∃ rest, s.entry? (source ++ rest) = some .dir ∧ depth ≤ rest.length

theorem CopyFails.of_isPlain {depth : ℕ} {f : Failure} (h : f.IsPlain) :
    s.CopyFails source target depth f :=
  ⟨h.2, fun hf ↦ absurd hf h.1⟩

/-- A failure of the copy of one name. -/
theorem CopyFails.of_name {depth : ℕ} {f : Failure} (hs : s.WellFormed)
    (hsource : s.entry? source = some .dir) (hfree : s.entry? target = none)
    (hg : s.GrowsAt target s') (h : s'.CopyFails (source ++ [name]) (target ++ [name]) depth f) :
    s.CopyFails source target (depth + 1) f := by
  refine ⟨h.reported, fun hf ↦ ?_⟩
  rcases h.endless hf with hbelow | ⟨rest, hdir, hdepth⟩
  · left
    rcases List.prefix_concat_iff.mp hbelow with heq | hpre
    · obtain ⟨rfl, -⟩ := List.append_inj' heq rfl
      exact List.prefix_refl _
    · exact (List.prefix_append _ _).trans hpre
  · rw [← List.append_cons] at hdir
    rcases hg.added hdir with hold | hnew
    · right
      exact ⟨name :: rest, hold, by simpa using hdepth⟩
    · left
      rcases List.prefix_or_prefix_of_prefix hnew (List.prefix_append source _) with hpre | hpre
      · have hthere := hs.dir_of_prefix hsource hpre
        simp [hfree] at hthere
      · exact hpre

end Store

/-! ## Copying -/

namespace StoreAction

open Store

variable {s : Store} {source destination : Path} {origin directory : Location} {name : String}

/-- The content of a file is written to the destination, or nothing happens. -/
theorem ensures_copyFile (s : Store) (source destination : Path) :
    Ensures (· = s) (copyFile source destination)
      (fun _ s' ↦ ∃ l id content, s.target .followed source = .ok (.found l (.file id content)) ∧
        s.write destination (fun _ ↦ content) = .ok s')
      (fun f s' ↦ s' = s ∧ f.IsPlain) := by
  have hread : Ensures (· = s) (read source)
      (fun content s' ↦ (∃ l id, s.target .followed source = .ok (.found l (.file id content))) ∧
        s' = s)
      (fun f s' ↦ s' = s ∧ f.IsPlain) := by
    unfold read
    split
    · exact ensures_throw fun _ hs ↦ ⟨hs, by simp, by simp⟩
    refine ensures_get_bind fun t ht ↦ ?_
    subst ht
    cases hfile : t.file source with
    | error e =>
      simp only [Store.read, hfile, Except.map]
      exact ensures_throw fun _ hs ↦ ⟨hs, Failure.isPlain_system ..⟩
    | ok found =>
      simp only [Store.read, hfile, Except.map]
      obtain ⟨l, htarget⟩ := file_ok hfile
      exact ensures_pure fun _ hs ↦ ⟨⟨l, _, htarget⟩, hs⟩
  refine ensures_get_bind fun t ht ↦ ?_
  subst ht
  split
  · exact ensures_throw fun _ hs ↦ ⟨hs, by simp, by simp⟩
  · refine hread.bind fun content ↦ ensures_assume fun ⟨l, id, htarget⟩ ↦ ?_
    exact ensures_change (fun _ ↦ Failure.isPlain_system ..)
      fun _ _ hs _ hwrite ↦ ⟨l, id, content, htarget, hs ▸ hwrite⟩

/-- What a copy under a free name does, by the depth it is allowed. -/
def CopiesTree (depth : ℕ) : Prop :=
  ∀ {s source destination origin directory name}, s.WellFormed →
    s.Leads .followed linkLimit (s.start source) source.parts (.found origin .dir) →
    s.Free destination directory name → (depth = 0 → s.entry? origin = some .dir) →
    Ensures (· = s) (copyTreeFrom depth source destination)
      (fun _ s' ↦ s.Copying origin (directory ++ [name]) s' ∧
        s'.entry? (directory ++ [name]) = some .dir ∧
          s.Copied s' origin (directory ++ [name]))
      (fun f s' ↦ s.Copying origin (directory ++ [name]) s' ∧
        s.CopyFails origin (directory ++ [name]) depth f)

theorem ensures_copyName {depth : ℕ} {entry : Entry} (htree : CopiesTree depth) (hs : s.WellFormed)
    (hentry : s.entry? origin = some entry)
    (hsource : entry.isLink = false →
      s.Leads .followed linkLimit (s.start source) source.parts (.found origin entry))
    (hfree : s.Free destination directory name) :
    Ensures (· = s) (copyName (copyTreeFrom depth) source destination (some entry))
      (fun _ s' ↦ s.Copying origin (directory ++ [name]) s' ∧ s.Copied s' origin (directory ++ [name]))
      (fun f s' ↦ s.Copying origin (directory ++ [name]) s' ∧
        s.CopyFails origin (directory ++ [name]) depth f) := by
  have hunchanged (f : Failure) (s' : Store) (h : s' = s ∧ f.IsPlain) :
      s.Copying origin (directory ++ [name]) s' ∧ s.CopyFails origin (directory ++ [name]) depth f := by
    rw [h.1]
    exact ⟨.refl hs hfree.free, .of_isPlain h.2⟩
  unfold copyName
  cases entry with
  | dir =>
    exact (htree hs (hsource rfl) hfree fun _ ↦ hentry).weaken (fun _ h ↦ h) (fun _ _ h ↦ ⟨h.1, h.2.2⟩)
      fun _ _ h ↦ h
  | link text =>
    have hmake : Ensures (· = s) (makeLink text destination)
        (fun _ s' ↦ s' = s.put (directory ++ [name]) (.link text))
        (fun f s' ↦ s' = s ∧ f.IsPlain) :=
      ensures_change (fun _ ↦ Failure.isPlain_system ..)
        fun _ _ heq _ h ↦ hfree.create_eq hs (heq ▸ h)
    refine hmake.weaken (fun _ h ↦ h) (fun _ s' h ↦ ?_) hunchanged
    subst h
    have hclean : ∀ other, Entry.link text = .link other → '\x00' ∉ other.toList := by
      rintro other ⟨⟩
      exact hs.link hentry
    refine ⟨hfree.copying_put hs (fun other heq ↦ ⟨hclean other heq, ?_⟩) (by simp),
      (delivered_of_link hs hentry).copied hs (by simp [hentry])⟩
    rw [hentry, heq]
  | file id content =>
    refine (ensures_copyFile s source destination).weaken (fun _ h ↦ h) (fun _ s' h ↦ ?_) hunchanged
    obtain ⟨l, id', content', htarget, hwrite⟩ := h
    have hsame := (target_eq_ok_iff.mp htarget).2.unique (hsource rfl)
    obtain ⟨-, rfl, rfl⟩ : l = origin ∧ id' = id ∧ content' = content := by simpa using hsame
    obtain rfl := hfree.write_eq hs hwrite
    refine ⟨hfree.copying_putFile hs hentry, (delivered_of_file hs hentry ?_).copied hs (by simp [hentry])⟩
    exact ⟨s.freshId, by rw [entry?_putFile (by simp), if_pos rfl]⟩

/-- Where a copy stands before the names that are still to come. -/
structure Progress (s : Store) (origin target : Location) (names rest : List String)
    (done : List (List CopyFailure)) (s' : Store) : Prop where
  copying : s.Copying origin target s'
  dir : s'.entry? target = some .dir
  coming : rest <:+ names
  free : ∀ name ∈ rest, s'.entry? (target ++ [name]) = none
  copied : done.flatten = [] → ∀ name ∈ names, name ∉ rest →
    s.Copied s' (origin ++ [name]) (target ++ [name])

/-- One name has been dealt with. -/
theorem Progress.next {s s' s'' : Store} {origin target : Location} {names rest : List String}
    {done : List (List CopyFailure)} {failures : List CopyFailure} (hnodup : names.Nodup)
    (h : Progress s origin target names (name :: rest) done s')
    (hcopying : s'.Copying (origin ++ [name]) (target ++ [name]) s'') (hs : s.WellFormed)
    (horigin : s.entry? origin ≠ none) (hfree : s.entry? target = none)
    (hcopied : failures = [] → s'.Copied s'' (origin ++ [name]) (target ++ [name])) :
    Progress s origin target names rest (done ++ [failures]) s'' where
  copying := h.copying.trans hcopying hs horigin hfree
  dir := hcopying.grows.kept h.dir
  coming := (List.suffix_cons _ _).trans h.coming
  free other hother := by
    refine hcopying.grows.none (h.free other (List.mem_cons_of_mem _ hother)) fun _ hpre ↦ ?_
    obtain ⟨-, hlast⟩ := List.append_inj' (hpre.eq_of_length (by simp)) rfl
    obtain rfl : name = other := by simpa using hlast
    exact (List.nodup_cons.mp (hnodup.sublist h.coming.sublist)).1 hother
  copied hdone other hmem hother := by
    have hparts : done.flatten = [] ∧ failures = [] := by simpa using hdone
    by_cases heq : other = name
    · subst heq
      exact (hcopied hparts.2).of_grows h.copying.grows
    · have hrest : other ∉ name :: rest := by simp [heq, hother]
      exact (h.copied hparts.1 other hmem hrest).grows hcopying.grows

/-- The copy of one name, with its failures collected. The names are those that were found before the
directory of the copy was made. -/
def copyChild (depth : ℕ) (source destination : Path) (entry : Option Entry) (name : String) :
    StoreAction (List CopyFailure) :=
  tryCatch
    (do
      copyName (copyTreeFrom depth) (source.spelledChild name) (destination.spelledChild name) entry
      return [])
    (collected (source.spelledChild name) (destination.spelledChild name))

section Names

variable {depth : ℕ} {names : List String} {entries : String → Option Entry}
  (htree : CopiesTree depth) (hs : s.WellFormed) (hnodup : names.Nodup)
  (hentries : ∀ n ∈ names, ∃ e, entries n = some e ∧ s.entry? (origin ++ [n]) = some e)
  (hsource : s.Leads .followed linkLimit (s.start source) source.parts (.found origin .dir))
  (hfree : s.Free destination directory name)
include htree hs hnodup hentries hsource hfree

theorem ensures_copyChild {c : String} {rest : List String} {done : List (List CopyFailure)} :
    Ensures (Progress s origin (directory ++ [name]) names (c :: rest) done)
      (copyChild depth source destination (entries c) c)
      (fun failures ↦ Progress s origin (directory ++ [name]) names rest (done ++ [failures]))
      (fun f s' ↦ s.Copying origin (directory ++ [name]) s' ∧
        s.CopyFails origin (directory ++ [name]) (depth + 1) f) := by
  intro s' hprogress
  have hcopying := hprogress.copying
  have hgrows := hcopying.grows
  obtain ⟨entry, hlisted, hentry⟩ := hentries c (hprogress.coming.mem List.mem_cons_self)
  have horigin := hs.parent hentry
  have hname := hs.name hentry
  have hdestination : s'.Leads .followed linkLimit (s'.start destination) destination.parts
      (.found (directory ++ [name]) .dir) := by
    obtain ⟨front, hparts, hfront⟩ := hfree.leads
    rw [hgrows.start, hparts]
    refine (hgrows.leads hfront).join (.enter ?_ hprogress.dir .done) (by simp)
    exact hcopying.wellFormed.lookedUp (hgrows.kept hfree.dir) hfree.isName
  have hchild : s'.Free (destination.spelledChild c) (directory ++ [name]) c :=
    free_spelledChild hdestination hprogress.dir hname (hprogress.free c List.mem_cons_self)
  -- The name is found where it was, since nothing has been taken away.
  have hfound (hlink : entry.isLink = false) :
      s'.Leads .followed linkLimit (s'.start (source.spelledChild c))
        (source.spelledChild c).parts (.found (origin ++ [c]) entry) := by
    refine leads_spelledChild (by rw [hgrows.start]; exact hgrows.leads hsource) ?_
    have hlooked := hcopying.wellFormed.lookedUp (hgrows.kept horigin) hname
    cases entry with
    | dir => exact .enter hlooked (hgrows.kept hentry) .done
    | file => exact .file hlooked (hgrows.kept hentry)
    | link => cases hlink
  have hcopy := ensures_copyName htree hcopying.wellFormed (hgrows.kept hentry) hfound hchild
  have hbody := hcopy.bind fun _ ↦ ensures_pure (a := ([] : List CopyFailure))
    (Q := fun failures ↦ Progress s origin (directory ++ [name]) names rest (done ++ [failures]))
    fun s'' h ↦ hprogress.next hnodup h.1 hs (by simp [horigin]) hfree.free fun _ ↦ h.2
  unfold copyChild
  rw [hlisted]
  refine (hbody.tryCatch fun f ↦ ensures_assume_right fun hfails ↦ ?_) s' rfl
  have hreport {failures : List CopyFailure} (hne : failures ≠ []) :
      Ensures (s'.Copying (origin ++ [c]) (directory ++ [name] ++ [c])) (pure failures)
        (fun failures ↦
          Progress s origin (directory ++ [name]) names rest (done ++ [failures]))
        (fun f s' ↦ s.Copying origin (directory ++ [name]) s' ∧
          s.CopyFails origin (directory ++ [name]) (depth + 1) f) :=
    ensures_pure fun s'' h ↦ hprogress.next hnodup h hs (by simp [horigin]) hfree.free
      fun hnil ↦ absurd hnil hne
  unfold collected
  split
  · next failures =>
    refine hreport fun hnil ↦ hfails.reported ?_
    rw [hnil]
  · split
    · exact hreport (by simp)
    · refine ensures_throw fun s'' h ↦ ⟨hcopying.trans h hs (by simp [horigin]) hfree.free, ?_⟩
      exact .of_name hs horigin hfree.free hgrows hfails

/-- All names are copied into the directory that has been made for them. -/
theorem ensures_copyChildren :
    Ensures (· = s.put (directory ++ [name]) .dir)
      (names.mapM fun n ↦ copyChild depth source destination (entries n) n)
      (fun failures ↦ Progress s origin (directory ++ [name]) names [] failures)
      (fun f s' ↦ s.Copying origin (directory ++ [name]) s' ∧
        s.CopyFails origin (directory ++ [name]) (depth + 1) f) := by
  have hloop := ensures_mapM (I := Progress s origin (directory ++ [name]) names)
    (fun _ _ _ ↦ ensures_copyChild htree hs hnodup hentries hsource hfree) names []
  refine hloop.weaken (fun s' hs' ↦ ?_) (fun failures s' h ↦ ?_) fun _ _ h ↦ h
  · subst hs'
    have hempty (n : String) : s.entry? (directory ++ [name] ++ [n]) = none :=
      hs.none_of_append (by simp) (by simp [hfree.free])
    refine ⟨hfree.copying_put hs (by simp) (by simp), ?_, List.suffix_refl _,
      fun n _ ↦ ?_, fun _ n hn hnot ↦ absurd hn hnot⟩
    · rw [entry?_put (by simp), if_pos rfl]
    · rw [entry?_put (by simp), if_neg (by simp), hempty]
  · simpa using h

end Names

/-- The location of a directory that is to be copied. -/
theorem ensures_listed
    (hsource : s.Leads .followed linkLimit (s.start source) source.parts (.found origin .dir)) :
    Ensures (· = s) (ask (·.listed source)) (fun directory s' ↦ directory = origin ∧ s' = s)
      (fun f s' ↦ s' = s ∧ f.IsPlain) := by
  rintro s rfl
  rw [run_ask]
  unfold listed
  split
  · exact ⟨rfl, by simp, by simp⟩
  cases htarget : s.target .followed source with
  | error e => exact ⟨rfl, Failure.isPlain_system ..⟩
  | ok t =>
    obtain rfl := (target_eq_ok_iff.mp htarget).2.unique hsource
    exact ⟨rfl, rfl⟩

/-- A directory is copied once the directory of the copy has been made, in a store with which
nothing has happened since the names were found but that directories were made. -/
theorem ensures_copyTreeFrom {depth : ℕ} {M : Store → Location → String → Prop}
    {F : Failure → Store → Prop} (htree : CopiesTree depth) (hs : s.WellFormed)
    (hsource : s.Leads .followed linkLimit (s.start source) source.parts (.found origin .dir))
    (hmake : Ensures (· = s) (makeDirectories false destination)
      (fun _ s' ↦ ∃ made d n, M made d n ∧ made.WellFormed ∧ s.GrowsDirs made ∧
        made.Free destination d n ∧ s' = made.put (d ++ [n]) .dir) F)
    (hlisted : ∀ f, f.IsPlain → F f s) :
    Ensures (· = s) (copyTreeFrom (depth + 1) source destination)
      (fun _ s' ↦ ∃ made d n, M made d n ∧ made.Copying origin (d ++ [n]) s' ∧
        s'.entry? (d ++ [n]) = some .dir ∧ s.Copied s' origin (d ++ [n]))
      (fun f s' ↦ F f s' ∨ ∃ made d n, M made d n ∧ made.Copying origin (d ++ [n]) s' ∧
        made.CopyFails origin (d ++ [n]) (depth + 1) f) := by
  unfold copyTreeFrom
  refine Ensures.bind ((ensures_listed hsource).weaken (fun _ h ↦ h) (fun _ _ h ↦ h) ?_)
    fun found ↦ ensures_assume fun hfound ↦ ?_
  · rintro f s' ⟨rfl, hplain⟩
    exact .inl (hlisted f hplain)
  subst hfound
  refine ensures_get_bind fun t ht ↦ ?_
  subst ht
  refine Ensures.bind (hmake.weaken (fun _ h ↦ h) (fun _ _ h ↦ h) fun _ _ h ↦ .inl h) fun _ ↦ ?_
  rintro s' ⟨made, d, n, hM, hmade, hgrows, hfree, heq⟩
  have hentries (c : String) (hc : c ∈ t.names found) :
      ∃ e, t.entry? (found ++ [c]) = some e ∧ made.entry? (found ++ [c]) = some e := by
    obtain ⟨e, he⟩ := exists_entry_of_mem_names hc
    exact ⟨e, he, hgrows.kept he⟩
  have hsource' : made.Leads .followed linkLimit (made.start source) source.parts
      (.found found .dir) := by
    rw [hgrows.start]
    exact hgrows.leads hsource
  have hchildren := ensures_copyChildren htree hmade (nodup_names hs found) hentries hsource' hfree
  rw [List.mapM_map]
  refine Ensures.bind (P := (· = made.put (d ++ [n]) .dir)) (hchildren.weaken (fun _ h ↦ h)
    (fun _ _ h ↦ h) fun _ _ h ↦ .inr ⟨made, d, n, hM, h⟩) (fun failures ↦ ?_) s' heq
  split
  · next hfailures =>
    refine ensures_throw fun s'' h ↦ .inr ⟨made, d, n, hM, h.copying, ?_, by simp⟩
    simpa using hfailures
  · next hfailures =>
    have hnone : failures.flatten = [] := by simpa using hfailures
    refine ensures_pure fun s'' h ↦ ⟨made, d, n, hM, h.copying, h.dir, ?_⟩
    refine copied_of_names hs (hsource.sound hs (standing_start hs source)) h.dir fun c hc ↦ ?_
    exact (h.copied hnone c hc (by simp)).of_grows hgrows

theorem copiesTree (depth : ℕ) : CopiesTree depth := by
  induction depth with
  | zero =>
    intro s source destination origin directory name hs _ hfree hdir
    unfold copyTreeFrom
    refine ensures_throw fun s' heq ↦ ?_
    subst heq
    exact ⟨.refl hs hfree.free, by simp, fun _ ↦ .inr ⟨[], by simpa using hdir rfl, Nat.zero_le _⟩⟩
  | succ depth ih =>
    intro s source destination origin directory name hs hsource hfree _
    have hmake := ensures_makeDirectories_of_free hs hfree
    have hcopy := ensures_copyTreeFrom ih hs hsource
      (M := fun made d n ↦ made = s ∧ d = directory ∧ n = name)
      (hmake.weaken (fun _ h ↦ h)
        (fun _ _ h ↦ ⟨s, directory, name, ⟨rfl, rfl, rfl⟩, hs, .refl s, hfree, h⟩) fun _ _ h ↦ h)
      fun f hf ↦ ⟨rfl, hf⟩
    refine hcopy.weaken (fun _ h ↦ h) ?_ ?_
    · rintro - s' ⟨made, d, n, ⟨rfl, rfl, rfl⟩, h⟩
      exact h
    · rintro f s' (⟨rfl, hf⟩ | ⟨made, d, n, ⟨rfl, rfl, rfl⟩, h⟩)
      · exact ⟨.refl hs hfree.free, .of_isPlain hf⟩
      · exact h

/-- A copy has been begun: the parents of its directory are there, and the directory itself is what
is still missing. -/
structure CopyStarts (s : Store) (destination : Path) (directory : Location) (name : String)
    (made : Store) : Prop where
  parents : s.MadeParents destination destination.parts.length made
  free : made.Free destination directory name

theorem CopyStarts.extends {made s' : Store} (h : CopyStarts s destination directory name made)
    (hcopying : made.Copying origin (directory ++ [name]) s') : s.Extends s' :=
  h.parents.grows.toExtends.trans hcopying.grows.toExtends

/-- What a copy leaves that fails: nothing but parents of its directory, or a part of the copy. It is
endless only below its own source. -/
inductive Unfinished (s : Store) (origin : Location) (destination : Path) : Failure → Store → Prop
  | unmade {f : Failure} {s' : Store}
      (hmade : s.MadeParents destination destination.parts.length s') (hf : f ≠ .endlessCopy) :
      Unfinished s origin destination f s'
  | broken {f : Failure} {made s' : Store} {directory : Location} {name : String}
      (hstarts : CopyStarts s destination directory name made)
      (hcopying : made.Copying origin (directory ++ [name]) s')
      (hendless : f = .endlessCopy → origin <+: directory ++ [name]) :
      Unfinished s origin destination f s'

/-- A copy delivers everything, or leaves everything as it was and adds to it. -/
theorem ensures_copyTree (hs : s.WellFormed) (hdestination : destination.Proper)
    (hsource : s.Leads .followed linkLimit (s.start source) source.parts (.found origin .dir)) :
    Ensures (· = s) (copyTree source destination)
      (fun _ s' ↦ ∃ made d n, CopyStarts s destination d n made ∧ made.Copying origin (d ++ [n]) s' ∧
        s'.entry? (d ++ [n]) = some .dir ∧ s.Copied s' origin (d ++ [n]))
      (Unfinished s origin destination) := by
  have hmake : Ensures (· = s) (makeDirectories false destination)
      (fun _ s' ↦ ∃ made d n, CopyStarts s destination d n made ∧ made.WellFormed ∧
        s.GrowsDirs made ∧ made.Free destination d n ∧ s' = made.put (d ++ [n]) .dir)
      (fun f s' ↦ s.MadeParents destination destination.parts.length s' ∧ f ≠ .endlessCopy) := by
    refine (ensures_makeDirectoriesFrom hs hdestination _).weaken (fun _ h ↦ h) (fun _ s' h ↦ ?_)
      fun f s' h ↦ ⟨h.1, h.2.1⟩
    obtain ⟨made, d, n, hmade, hfree, heq⟩ := h.2 rfl
    exact ⟨made, d, n, ⟨hmade, hfree⟩, hmade.wellFormed, hmade.grows, hfree, heq⟩
  refine ensures_get_bind fun t ht ↦ ?_
  subst ht
  refine (ensures_copyTreeFrom (copiesTree _) hs hsource hmake
    fun f hf ↦ ⟨.refl hs _ _, hf.1⟩).weaken (fun _ h ↦ h) (fun _ _ h ↦ h) ?_
  rintro f s' (⟨hmade, hf⟩ | ⟨made, d, n, hstarts, hcopying, hfails⟩)
  · exact .unmade hmade hf
  refine .broken hstarts hcopying fun hf ↦ (hfails.endless hf).resolve_right ?_
  rintro ⟨rest, hdir, hdepth⟩
  have hlength := length_le_of_entry? hstarts.parents.wellFormed hdir
  have hmade := hstarts.parents.length
  simp only [List.length_append] at hdepth hlength
  omega

end StoreAction

end DeferredOps
