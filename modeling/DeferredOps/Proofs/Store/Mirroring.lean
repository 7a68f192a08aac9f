import DeferredOps.Proofs.Store.Limits
import DeferredOps.Proofs.Store.Spelling

/-!
# Copies of directories that succeed

Where every path that is met is in reach and nothing is in the way, a directory is copied as a whole:
its copy has the same directories and the same files with the same contents under the same names, the
missing directories on the way to it are made, and all else is as before. Only the numbers of files
differ: each copy is a new file. Where a path is out of reach the copy fails, and says so.
-/

namespace DeferredOps

open Action

/-- An entry, but for the number of its file. -/
def Entry.form : Entry → Entry
  | .file _ content => .file 0 content
  | entry => entry

/-- A part of a copy failed because a path is too long. -/
def StrayPart (parts : List CopyFailure) : Prop :=
  ∃ part ∈ parts, ∃ p : Path, Store.pathLimit ≤ p.text.utf8ByteSize ∧
    part.message = (Failure.ofPath .nameTooLong p).message

/-- The failure of a copy of which a part failed because a path is too long. -/
def Failure.OfStrayPart (f : Failure) : Prop :=
  ∃ parts, f = .partialCopy parts ∧ StrayPart parts

/-- A failure because a path is too long, be it that of a part of a copy. -/
def Failure.OfLongPath (f : Failure) : Prop :=
  (∃ p : Path, Store.pathLimit ≤ p.text.utf8ByteSize ∧ f = .ofPath .nameTooLong p) ∨ f.OfStrayPart

namespace Store

/-- What stands at a location, but for the numbers of files. -/
def form? (s : Store) (location : Location) : Option Entry :=
  (s.entry? location).map Entry.form

variable {s s' s'' : Store} {p t : Path} {origin target directory location l : Location}
  {name : String} {front rest : List String} {entry : Entry} {parents depth : ℕ}

theorem form?_eq_of_entry?_eq {l' : Location} (h : s'.entry? l' = s.entry? l) :
    s'.form? l' = s.form? l := by
  rw [form?, h, form?]

/-! ## Missing directories -/

/-- The location can be made as a directory: nothing stands there or is in the way. -/
structure Clear (s : Store) (location : Location) : Prop where
  vacant : s.entry? location = none
  way {l : Location} (h : l <+: location) : s.entry? l = none ∨ s.entry? l = some .dir

theorem Clear.noLinksTo (h : s.Clear location) : s.NoLinksTo location := by
  intro l text hl hlink
  rcases h.way hl with hnone | hdir
  · cases hnone.symm.trans hlink
  · cases hdir.symm.trans hlink

/-- The directories on the way to a location are there, itself included, and nothing else was added. -/
structure Paves (s : Store) (location : Location) (s' : Store) : Prop where
  wellFormed : s'.WellFormed
  current : s'.current = s.current
  freshId : s'.freshId = s.freshId
  entry (l : Location) : s'.entry? l = if l <+: location then some .dir else s.entry? l

/-- The directories on the way to a location are there, itself included, and nothing else was added to a
store without symbolic links. -/
structure Paved (s : Store) (location : Location) (s' : Store) : Prop where
  wellFormed : s'.WellFormed
  linkFree : s'.LinkFree
  current : s'.current = s.current
  freshId : s'.freshId = s.freshId
  entry (l : Location) : s'.entry? l = if l <+: location then some .dir else s.entry? l

theorem Paves.paved (h : s.Paves location s') (hfree : s.LinkFree) : s.Paved location s' where
  wellFormed := h.wellFormed
  linkFree l text hl := by
    rw [h.entry] at hl
    split at hl
    · cases hl
    · exact hfree l text hl
  current := h.current
  freshId := h.freshId
  entry := h.entry

theorem Paved.paves (h : s.Paved location s') : s.Paves location s' :=
  ⟨h.wellFormed, h.current, h.freshId, h.entry⟩

/-- A directory is made in one that is there. -/
theorem paves_of_dir (hs : s.WellFormed) (hdir : s.entry? location = some .dir) :
    s.Paves location s := by
  refine ⟨hs, rfl, rfl, fun l ↦ ?_⟩
  split
  · next hl => exact hs.dir_of_prefix hdir hl
  · rfl

theorem paves_put (hs : s.WellFormed) (hdir : s.entry? directory = some .dir)
    (hname : IsName name) (hnone : s.entry? (directory ++ [name]) = none) :
    s.Paves (directory ++ [name]) (s.put (directory ++ [name]) .dir) where
  wellFormed := hs.put hdir hname hnone (by simp)
  current := rfl
  freshId := rfl
  entry (l : Location) := by
    rw [entry?_put (by simp)]
    by_cases hl : l = directory ++ [name]
    · rw [if_pos hl, if_pos (hl ▸ List.prefix_refl _)]
    · rw [if_neg hl]
      split
      · next hpre =>
        exact hs.dir_of_prefix hdir ((List.prefix_concat_iff.mp hpre).resolve_left hl)
      · rfl

theorem Paves.trans (h : s.Paves directory s') (h' : s'.Paves (directory ++ [name]) s'') :
    s.Paves (directory ++ [name]) s'' where
  wellFormed := h'.wellFormed
  current := h'.current.trans h.current
  freshId := h'.freshId.trans h.freshId
  entry (l : Location) := by
    rw [h'.entry, h.entry]
    split
    · rfl
    · next hnot => rw [if_neg fun hpre ↦ hnot (hpre.trans (List.prefix_append _ _))]

/-- What a path spells out stays so while directories are made. -/
theorem Spells.of_kept (h : s.Spells p location) (hcurrent : s'.current = s.current)
    (hkept : s'.entry? (s.start p) = some .dir) : s'.Spells p location := by
  have hstart : s'.start p = s.start p := by
    unfold Store.start
    rw [hcurrent]
  exact ⟨h.isName, h.short, hstart ▸ hkept, hstart ▸ h.location⟩

theorem Spells.prefix_location (h : s.Spells p location) : s.start p <+: location :=
  h.location ▸ List.prefix_append _ _

theorem Paves.spells (h : s.Paves location s') {other : Location} (hp : s.Spells p other) :
    s'.Spells p other := by
  refine hp.of_kept h.current ?_
  rw [h.entry, hp.start]
  split <;> rfl

/-! ## Copies -/

/-- The files at and below a location are new ones, each under one name. -/
structure NewFiles (s : Store) (location : Location) (s' : Store) : Prop where
  grown : s.freshId ≤ s'.freshId
  fresh {rest id content} (h : s'.entry? (location ++ rest) = some (.file id content)) :
    s.freshId ≤ id ∧ id < s'.freshId
  distinct {rest rest' id content content'} (h : s'.entry? (location ++ rest) = some (.file id content))
    (h' : s'.entry? (location ++ rest') = some (.file id content')) : rest = rest'

/-- Below `target` stands what stands below `origin`, the directories on the way there have been made,
and all else is as it was. -/
structure Mirrored (s : Store) (origin target : Location) (s' : Store) : Prop where
  wellFormed : s'.WellFormed
  current : s'.current = s.current
  stays {l : Location} (h : ¬ target <+: l) : s'.entry? l = if l <+: target then some .dir else s.entry? l
  copied (rest : List String) : s'.form? (target ++ rest) = s.form? (origin ++ rest)
  files : s.NewFiles target s'

/-- Of the names in a directory, those in front have been copied. -/
structure MirroredNames (s : Store) (origin target : Location) (front : List String) (s' : Store) :
    Prop where
  wellFormed : s'.WellFormed
  current : s'.current = s.current
  stays {l : Location} (h : ¬ target <+: l) : s'.entry? l = if l <+: target then some .dir else s.entry? l
  dir : s'.entry? target = some .dir
  copied {name : String} (h : name ∈ front) (rest : List String) :
    s'.form? (target ++ name :: rest) = s.form? (origin ++ name :: rest)
  coming {name : String} (h : name ∉ front) : s'.entry? (target ++ [name]) = none
  files : s.NewFiles target s'

/-- The paths of an entry without symbolic links in it and of a free place for it that is not in its own
directory; nothing is in the way to that place. -/
structure Portable (s : Store) (p : Path) (origin : Location) (t : Path) (target : Location) : Prop where
  wellFormed : s.WellFormed
  noLinks : s.NoLinks origin
  source : s.Spells p origin
  destination : s.Spells t target
  sourceNamed : p.parts ≠ []
  destinationNamed : t.parts ≠ []
  there : s.entry? origin ≠ none
  clear : s.Clear target
  apart : ¬ origin <+: target

/-- The path of something that is to be copied, or of its copy, is too long. -/
def Strays (s : Store) (p : Path) (origin : Location) (t : Path) : Prop :=
  ∃ rest, s.entry? (origin ++ rest) ≠ none ∧
    (pathLimit ≤ (p.extend rest).text.utf8ByteSize ∨ pathLimit ≤ (t.extend rest).text.utf8ByteSize)

/-- The paths of all that is to be copied and of all copies are in reach. -/
structure Copyable (s : Store) (p : Path) (origin : Location) (t : Path) (target : Location) : Prop
    extends s.Portable p origin t target where
  reach (rest : List String) (h : s.entry? (origin ++ rest) ≠ none) :
    (p.extend rest).text.utf8ByteSize < pathLimit ∧ (t.extend rest).text.utf8ByteSize < pathLimit

theorem Copyable.not_strays (h : s.Copyable p origin t target) : ¬ s.Strays p origin t := by
  rintro ⟨rest, hthere, hlong⟩
  obtain ⟨hshort, hshort'⟩ := h.reach rest hthere
  omega

/-- The place is not on the way to what goes there. -/
theorem Portable.not_prefix (h : s.Portable p origin t target) (rest : Location) :
    ¬ target <+: origin ++ rest ∧ ¬ origin ++ rest <+: target := by
  refine ⟨fun hpre ↦ ?_, fun hpre ↦ h.apart ((List.prefix_append _ _).trans hpre)⟩
  rcases List.prefix_or_prefix_of_prefix hpre (List.prefix_append origin rest) with hbelow | habove
  · by_cases heq : origin = target
    · exact h.apart (heq ▸ List.prefix_refl _)
    · exact h.there (h.wellFormed.none_of_prefix hbelow heq (by simp [h.clear.vacant]))
  · exact h.apart habove

namespace Portable

variable (h : s.Portable p origin t target)
include h

theorem origin_of_names (hnames : s.MirroredNames origin target front s') (rest : Location) :
    s'.entry? (origin ++ rest) = s.entry? (origin ++ rest) := by
  rw [hnames.stays (h.not_prefix rest).1, if_neg (h.not_prefix rest).2]

theorem start_of_names (hnames : s.MirroredNames origin target front s') :
    s'.Spells p origin ∧ s'.Spells t target := by
  refine ⟨h.source.of_kept hnames.current ?_, h.destination.of_kept hnames.current ?_⟩
  · have hnot := (h.not_prefix []).1
    rw [List.append_nil] at hnot
    rw [hnames.stays fun hpre ↦ hnot (hpre.trans h.source.prefix_location), h.source.start]
    split <;> rfl
  · rw [hnames.stays (h.destination.not_prefix_start h.destinationNamed),
      if_pos h.destination.prefix_location]

/-- The next name can be copied, if its two paths are in reach. -/
theorem child (hnames : s.MirroredNames origin target front s') (hnew : name ∉ front)
    (hthere : s.entry? (origin ++ [name]) ≠ none)
    (hshort : (p.child name).text.utf8ByteSize < pathLimit)
    (hshort' : (t.child name).text.utf8ByteSize < pathLimit) :
    s'.Portable (p.child name) (origin ++ [name]) (t.child name) (target ++ [name]) := by
  obtain ⟨hsource, hdestination⟩ := h.start_of_names hnames
  obtain ⟨entry, hentry⟩ := Option.ne_none_iff_exists'.mp hthere
  have hname := h.wellFormed.name hentry
  refine ⟨hnames.wellFormed, fun l text hl ↦ ?_, hsource.child hname hshort,
    hdestination.child hname hshort', by simp, by simp, ?_, ⟨hnames.coming hnew, fun {l} hl ↦ ?_⟩,
    fun hpre ↦ h.apart (prefix_of_concat hpre)⟩
  · obtain ⟨rest, rfl⟩ := hl
    rw [List.append_assoc, h.origin_of_names hnames]
    exact h.noLinks _ text (List.prefix_append _ _)
  · rwa [h.origin_of_names hnames]
  · rcases List.prefix_concat_iff.mp hl with rfl | hl
    · exact .inl (hnames.coming hnew)
    · exact .inr (hnames.wellFormed.dir_of_prefix hnames.dir hl)

/-- What is too long below one of the names is too long below the directory. -/
theorem strays_of_child (hnames : s.MirroredNames origin target front s')
    (hstrays : s'.Strays (p.child name) (origin ++ [name]) (t.child name)) : s.Strays p origin t := by
  obtain ⟨rest, hthere, hlong⟩ := hstrays
  rw [← List.append_cons, h.origin_of_names hnames] at hthere
  exact ⟨name :: rest, hthere, by simpa using hlong⟩

/-- The directory of the copy has been made. -/
theorem names_of_paves (hpaves : s.Paves target s') :
    s.MirroredNames origin target [] s' where
  wellFormed := hpaves.wellFormed
  current := hpaves.current
  stays _ := hpaves.entry _
  dir := by rw [hpaves.entry, if_pos (List.prefix_refl _)]
  copied hmem := absurd hmem (by simp)
  coming {name} _ := by
    rw [hpaves.entry, if_neg (by simpa using not_concat_prefix)]
    exact h.wellFormed.none_of_append (by simp) (by simp [h.clear.vacant])
  files := by
    have hno (rest : List String) (id : ℕ) (content : Bytes) :
        s'.entry? (target ++ rest) ≠ some (.file id content) := by
      intro hfile
      rw [hpaves.entry] at hfile
      split at hfile
      · cases hfile
      · next hnot =>
        have hrest : rest ≠ [] := by
          rintro rfl
          exact hnot (by simp)
        rw [h.wellFormed.none_of_append hrest (by simp [h.clear.vacant])] at hfile
        cases hfile
    exact ⟨hpaves.freshId.ge, fun hfile ↦ absurd hfile (hno _ _ _),
      fun hfile ↦ absurd hfile (hno _ _ _)⟩

end Portable

/-- New files below a name are added to those below its directory. -/
theorem NewFiles.next (h : s.NewFiles location s') (hnext : s'.NewFiles (location ++ [name]) s'')
    (hstays : ∀ rest, ¬ [name] <+: rest → s''.entry? (location ++ rest) = s'.entry? (location ++ rest)) :
    s.NewFiles location s'' := by
  -- Files that were there have lower numbers than those below the name.
  have hcases {rest : List String} {id : ℕ} {content : Bytes}
      (hfile : s''.entry? (location ++ rest) = some (.file id content)) :
      s'.entry? (location ++ rest) = some (.file id content) ∧ id < s'.freshId ∨
        ∃ more, rest = name :: more ∧
          s''.entry? (location ++ [name] ++ more) = some (.file id content) ∧ s'.freshId ≤ id := by
    by_cases hrest : [name] <+: rest
    · obtain ⟨more, rfl⟩ := hrest
      rw [← List.append_assoc] at hfile
      exact .inr ⟨more, rfl, hfile, (hnext.fresh hfile).1⟩
    · rw [hstays rest hrest] at hfile
      exact .inl ⟨hfile, (h.fresh hfile).2⟩
  refine ⟨h.grown.trans hnext.grown, fun hfile ↦ ?_, fun hfile hfile' ↦ ?_⟩
  · obtain ⟨hold, hlt⟩ | ⟨more, rfl, hnew, hle⟩ := hcases hfile
    · exact ⟨(h.fresh hold).1, hlt.trans_le hnext.grown⟩
    · exact ⟨h.grown.trans hle, (hnext.fresh hnew).2⟩
  · obtain ⟨hold, hlt⟩ | ⟨more, rfl, hnew, hle⟩ := hcases hfile <;>
      obtain ⟨hold', hlt'⟩ | ⟨more', rfl, hnew', hle'⟩ := hcases hfile'
    · exact h.distinct hold hold'
    · omega
    · omega
    · rw [hnext.distinct hnew hnew']

/-- One more name has been copied. -/
theorem MirroredNames.next (h : s.MirroredNames origin target front s')
    (hportable : s.Portable p origin t target) (hnew : name ∉ front)
    (hnext : s'.Mirrored (origin ++ [name]) (target ++ [name]) s'') :
    s.MirroredNames origin target (front ++ [name]) s'' := by
  have hstays {l : Location} (hl : ¬ target ++ [name] <+: l) : s''.entry? l = s'.entry? l := by
    rw [hnext.stays hl]
    split
    · next hpre =>
      rcases List.prefix_concat_iff.mp hpre with rfl | hpre
      · exact absurd (List.prefix_refl _) hl
      · exact (h.wellFormed.dir_of_prefix h.dir hpre).symm
    · rfl
  have hother {n : String} (hn : n ≠ name) (rest : List String) :
      s''.entry? (target ++ n :: rest) = s'.entry? (target ++ n :: rest) := by
    refine hstays fun hpre ↦ hn ?_
    rw [List.prefix_append_right_inj] at hpre
    simpa [eq_comm] using hpre
  refine ⟨hnext.wellFormed, hnext.current.trans h.current, fun {l} hl ↦ ?_, ?_,
    fun {n} hn rest ↦ ?_, fun {n} hn ↦ ?_, h.files.next hnext.files fun rest hrest ↦ hstays ?_⟩
  · rw [hstays fun hpre ↦ hl ((List.prefix_append _ _).trans hpre), h.stays hl]
  · rw [hstays not_concat_prefix, h.dir]
  · by_cases heq : n = name
    · subst heq
      have hcopied := hnext.copied rest
      rw [← List.append_cons, ← List.append_cons] at hcopied
      rw [hcopied]
      exact form?_eq_of_entry?_eq (hportable.origin_of_names h _)
    · rw [form?_eq_of_entry?_eq (hother heq rest)]
      exact h.copied (by simpa [heq] using hn) rest
  · obtain ⟨hn, hne⟩ : n ∉ front ∧ n ≠ name := by simpa using hn
    rw [hother hne, h.coming hn]
  · exact fun hpre ↦ hrest ((List.prefix_append_right_inj _).mp hpre)

/-- All names have been copied. -/
theorem MirroredNames.mirrored (h : s.MirroredNames origin target front s') (hs : s.WellFormed)
    (hdir : s.entry? origin = some .dir) (hfront : ∀ name, name ∈ front ↔ name ∈ s.names origin) :
    s.Mirrored origin target s' where
  wellFormed := h.wellFormed
  current := h.current
  stays := h.stays
  files := h.files
  copied (rest : List String) := by
    rcases rest with _ | ⟨name, rest⟩
    · simp only [List.append_nil]
      exact form?_eq_of_entry?_eq (h.dir.trans hdir.symm)
    by_cases hname : name ∈ front
    · exact h.copied hname rest
    have hnone : s.entry? (origin ++ [name]) = none := by
      simpa [hfront, mem_names] using hname
    have hnone' := h.coming hname
    refine form?_eq_of_entry?_eq ?_
    rw [List.append_cons target, List.append_cons origin]
    by_cases hrest : rest = []
    · subst hrest
      rw [List.append_nil, List.append_nil, hnone, hnone']
    · rw [hs.none_of_append hrest (by simp [hnone]),
        h.wellFormed.none_of_append hrest (by simp [hnone'])]

theorem Mirrored.linkFree (h : s.Mirrored origin target s') (hfree : s.LinkFree) : s'.LinkFree := by
  intro l text hl
  by_cases hpre : target <+: l
  · obtain ⟨rest, rfl⟩ := hpre
    have hcopied := h.copied rest
    rw [form?, form?, hl] at hcopied
    cases hold : s.entry? (origin ++ rest) with
    | none => simp [hold] at hcopied
    | some entry =>
      cases entry with
      | link other => exact hfree _ _ hold
      | dir | file => simp [hold, Entry.form] at hcopied
  · rw [h.stays hpre] at hl
    split at hl
    · cases hl
    · exact hfree l text hl

/-- A file with the same content is made. -/
theorem mirrored_putFile {id : ℕ} {content : Bytes} (hs : s.WellFormed)
    (hdir : s.entry? directory = some .dir) (hname : IsName name)
    (hnone : s.entry? (directory ++ [name]) = none) (hfile : s.entry? origin = some (.file id content)) :
    s.Mirrored origin (directory ++ [name]) (s.putFile (directory ++ [name]) content) where
  wellFormed := hs.putFile hdir hname hnone
  current := rfl
  stays {l} hl := by
    have hne : l ≠ directory ++ [name] := by
      rintro rfl
      exact hl (List.prefix_refl _)
    rw [entry?_putFile (by simp), if_neg hne]
    split
    · next hpre =>
      rcases List.prefix_concat_iff.mp hpre with rfl | hpre
      · exact absurd (List.prefix_refl _) hl
      · exact hs.dir_of_prefix hdir hpre
    · rfl
  copied rest := by
    rw [form?, form?, entry?_putFile (by simp)]
    by_cases hrest : rest = []
    · subst hrest
      simp [hfile, Entry.form]
    · rw [if_neg (by simpa using hrest), hs.none_of_append hrest (by simp [hnone]),
        hs.none_of_append hrest (by simp [hfile])]
  files := by
    have hmade {rest : List String} {id' : ℕ} {content' : Bytes}
        (hentry : entry? (s.putFile (directory ++ [name]) content) (directory ++ [name] ++ rest) =
          some (.file id' content')) : rest = [] ∧ id' = s.freshId := by
      rw [entry?_putFile (by simp)] at hentry
      split at hentry
      · next heq =>
        cases hentry
        exact ⟨by simpa using heq, rfl⟩
      · next hne =>
        rw [hs.none_of_append (by simpa using hne) (by simp [hnone])] at hentry
        cases hentry
    refine ⟨Nat.le_succ _, fun hentry ↦ ?_, fun hentry hentry' ↦ ?_⟩
    · obtain ⟨-, rfl⟩ := hmade hentry
      exact ⟨Nat.le_refl _, Nat.lt_succ_self _⟩
    · rw [(hmade hentry).1, (hmade hentry').1]

end Store

namespace StoreAction

open Store

variable {s s' : Store} {p t : Path} {origin target directory : Location} {name : String}
  {front : List String} {keep : Bool} {depth : ℕ} {E : Failure → Store → Prop}

/-! ## Making directories -/

theorem run_makeDirectory (s : Store) (p : Path) :
    (makeDirectory p).run s =
      if p.hasNul then (.error .embeddedNul, s)
      else match s.makeDirectory p with
        | .ok s' => (.ok (), s')
        | .error e => (.error (.ofPath e p), s) :=
  run_change ..

/-- A free name in a directory is made one. -/
theorem run_makeLast_of_spells (h : s.Spells p (directory ++ [name])) (hs : s.WellFormed)
    (hne : p.parts ≠ []) (hdir : s.entry? directory = some .dir)
    (hnone : s.entry? (directory ++ [name]) = none) :
    (makeDirectoriesFrom.makeLast keep p).run s = (.ok (), s.put (directory ++ [name]) .dir) := by
  have hmake : s.makeDirectory p = .ok (s.put (directory ++ [name]) .dir) :=
    create_eq_ok_iff.mpr ⟨directory, name, h.slot hs hne hdir, hnone, rfl⟩
  unfold makeDirectoriesFrom.makeLast
  rw [run_tryCatch, run_makeDirectory, h.hasNul, hmake]
  rfl

/-- A directory is made with its missing parents, if nothing is in the way. -/
theorem ensures_makeDirectoriesFrom_of_spells {parents : ℕ} (keep : Bool) (h : s.Spells p target)
    (hs : s.WellFormed) (hne : p.parts ≠ []) (hclear : s.Clear target)
    (hparents : p.parts.length ≤ parents) :
    Ensures (· = s) (makeDirectoriesFrom keep p parents) (fun _ s' ↦ s.Paves target s')
      (fun _ _ ↦ False) := by
  induction parents generalizing p target with
  | zero => exact absurd (List.length_eq_zero_iff.mp (Nat.le_zero.mp hparents)) hne
  | succ parents ih =>
    obtain ⟨directory, name, rfl⟩ := h.exists_concat hne
    have hname := h.isName_last hne
    have hparent : s.Spells p.parent directory := by simpa using h.parent hne
    have hlast {made : Store} (hmade : made.WellFormed)
        (hspells : made.Spells p (directory ++ [name])) (hdir : made.entry? directory = some .dir)
        (hnone : made.entry? (directory ++ [name]) = none) :
        Ensures (· = made) (makeDirectoriesFrom.makeLast keep p)
          (fun _ s' ↦ made.Paves (directory ++ [name]) s') (fun _ _ ↦ False) := by
      rintro _ rfl
      rw [run_makeLast_of_spells hspells hmade hne hdir hnone]
      exact paves_put hmade hdir hname hnone
    have hway : s.NoLinksTo directory := hclear.noLinksTo.mono (List.prefix_append _ _)
    unfold makeDirectoriesFrom
    refine ensures_get_bind fun now hnow ↦ ?_
    rw [hnow]
    rcases hclear.way (List.prefix_append directory [name]) with hnone | hdir
    · -- The parent is missing, so it is no start of a path: it is made first.
      have hnamed : p.parent.parts ≠ [] := by
        intro hnil
        have hstart := hparent.location
        rw [hnil, List.append_nil] at hstart
        rw [hstart] at hnone
        cases hnone.symm.trans hparent.start
      have hlong : 2 ≤ p.parts.length := by
        have hlength := List.length_pos_iff.mpr hnamed
        rw [Path.parent, List.length_dropLast] at hlength
        omega
      have hmissing : s.exists? p.parent = .ok false := by
        rw [hparent.exists? hs hway, hnone]
        rfl
      have hmake := ih hparent hnamed
        ⟨hnone, fun hl ↦ hclear.way (hl.trans (List.prefix_append _ _))⟩
        (by rw [Path.parent, List.length_dropLast]; omega)
      rw [if_pos (by simp [hlong, hmissing, cautious])]
      refine Ensures.bind (hmake.tryCatch fun _ _ h ↦ h.elim) fun _ made hmade ↦ ?_
      have hvacant : made.entry? (directory ++ [name]) = none := by
        rw [hmade.entry, if_neg not_concat_prefix, hclear.vacant]
      refine (hlast hmade.wellFormed (hmade.spells h) ?_ hvacant).weaken
        (fun _ h ↦ h) (fun _ _ hlast ↦ hmade.trans hlast) (fun _ _ h ↦ h) made rfl
      rw [hmade.entry, if_pos (List.prefix_refl _)]
    · have hthere : s.exists? p.parent = .ok true := by
        rw [hparent.exists? hs hway, hdir]
        rfl
      rw [if_neg (by simp [hthere, cautious])]
      exact hlast hs h hdir hclear.vacant

/-! ## Copying -/

/-- A file is copied to a free name. -/
theorem ensures_copyFile_of_spells (h : s.Portable p origin t (directory ++ [name])) {id : ℕ}
    {content : Bytes} (hdir : s.entry? directory = some .dir)
    (hfile : s.entry? origin = some (.file id content)) :
    Ensures (· = s) (copyFile p t) (fun _ s' ↦ s.Mirrored origin (directory ++ [name]) s')
      (fun _ _ ↦ False) := by
  have hs := h.wellFormed
  have hway : s.NoLinksTo origin := .of_entry hs hfile rfl
  have hnone := h.clear.vacant
  have hsame : s.samePlace p t = .ok false := by
    rw [h.source.samePlace h.destination hs hway h.clear.noLinksTo hfile, hnone]
    rfl
  have hread : s.read p = .ok content := by
    simp [Store.read, Store.file, h.source.target hs hway hfile, bind, Except.bind, Except.map,
      pure, Except.pure]
  have hwrite : s.write t (fun _ ↦ content) = .ok (s.putFile (directory ++ [name]) content) := by
    have hspot := h.destination.free hs h.destinationNamed hdir hnone
    have htarget : s.target .written t = .ok (.absent directory name) :=
      target_eq_ok_iff.mpr ⟨h.destination.short, hspot.leads_parts hs⟩
    simp [Store.write, htarget, bind, Except.bind, pure, Except.pure]
  have hrun : (copyFile p t).run s = (.ok (), s.putFile (directory ++ [name]) content) := by
    unfold copyFile
    simp only [run_bind, run_get, hsame, cautious, Bool.false_eq_true, if_false, read,
      h.source.hasNul, hread, run_pure]
    rw [StoreAction.write, run_change, h.destination.hasNul, hwrite]
    rfl
  rintro _ rfl
  rw [hrun]
  exact mirrored_putFile hs hdir (h.destination.isName_last h.destinationNamed) hnone hfile

/-! ### Paths that are too long -/

theorem run_copyFile_of_long_source (hp : p.hasNul = false)
    (hlong : pathLimit ≤ p.text.utf8ByteSize) :
    (copyFile p t).run s = (.error (.ofPath .nameTooLong p), s) := by
  have hsame : s.samePlace p t = .error (.ofPath .nameTooLong p) := by
    rw [samePlace, entryAt_of_long hp hlong]
    rfl
  have hread : s.read p = .error .nameTooLong := by
    simp [Store.read, Store.file, target_of_long hlong, bind, Except.bind, Except.map]
  unfold copyFile
  simp only [run_bind, run_get, hsame, cautious, Bool.false_eq_true, if_false, read, hp, hread,
    run_throw]

theorem run_copyFile_of_long_destination (h : s.Spells p origin) (hs : s.WellFormed)
    {id : ℕ} {content : Bytes} (hfile : s.entry? origin = some (.file id content))
    (ht : t.hasNul = false) (hlong : pathLimit ≤ t.text.utf8ByteSize) :
    (copyFile p t).run s = (.error (.ofPath .nameTooLong t), s) := by
  have hway : s.NoLinksTo origin := .of_entry hs hfile rfl
  have hsame : s.samePlace p t = .error (.ofPath .nameTooLong t) := by
    rw [samePlace, h.entryAt hs hway, hfile, entryAt_of_long ht hlong]
    rfl
  have hread : s.read p = .ok content := by
    simp [Store.read, Store.file, h.target hs hway hfile, bind, Except.bind, Except.map, pure,
      Except.pure]
  have hwrite : s.write t (fun _ ↦ content) = .error .nameTooLong := by
    simp [Store.write, target_of_long hlong, bind, Except.bind]
  unfold copyFile
  simp only [run_bind, run_get, hsame, cautious, Bool.false_eq_true, if_false, read, h.hasNul, hread,
    run_pure]
  rw [StoreAction.write, run_change, ht, hwrite]
  rfl

theorem run_copyTreeFrom_of_long_source (hp : p.hasNul = false)
    (hlong : pathLimit ≤ p.text.utf8ByteSize) :
    (copyTreeFrom (depth + 1) p t).run s = (.error (.ofPath .nameTooLong p), s) := by
  unfold copyTreeFrom
  rw [run_bind, run_ask, listed_of_long hp hlong]

theorem run_copyTreeFrom_of_long_destination (h : s.Spells p origin) (hs : s.WellFormed)
    (hdir : s.entry? origin = some .dir) (ht : t.hasNul = false)
    (hlong : pathLimit ≤ t.text.utf8ByteSize) (hparent : s.exists? t.parent = .ok true) :
    (copyTreeFrom (depth + 1) p t).run s = (.error (.ofPath .nameTooLong t), s) := by
  have hmake : s.makeDirectory t = .error .nameTooLong := by
    rw [Store.makeDirectory, create, slot_of_long hlong]
    rfl
  have hlast : (makeDirectoriesFrom.makeLast false t).run s = (.error (.ofPath .nameTooLong t), s) := by
    unfold makeDirectoriesFrom.makeLast
    rw [run_tryCatch, run_makeDirectory, ht, hmake]
    simp [Failure.ofPath, Failure.isSystem, run_bind, run_get, run_throw]
  have hmakes : (makeDirectories false t).run s = (.error (.ofPath .nameTooLong t), s) := by
    unfold makeDirectories
    cases t.parts.length with
    | zero => exact hlast
    | succ parents =>
      unfold makeDirectoriesFrom
      rw [run_bind, run_get]
      simpa [hparent, cautious] using hlast
  unfold copyTreeFrom
  simp only [run_bind, run_ask, h.listed hs hdir, run_get, hmakes]

/-! ### Directories -/

/-- Directories in which no other is deeper than the copy goes are copied, unless some path is too
long. -/
def MirrorsTree (depth : ℕ) : Prop :=
  ∀ {s p origin t target}, s.Portable p origin t target → s.entry? origin = some .dir →
    (∀ rest, s.entry? (origin ++ rest) = some .dir → rest.length < depth) →
      Ensures (· = s) (copyTreeFrom depth p t) (fun _ s' ↦ s.Mirrored origin target s')
        (fun f _ ↦ s.Strays p origin t ∧ (f.OfStrayPart ∨ f.isSystem = false))

/-- A name whose path, or the path of its copy, is too long is not copied. -/
theorem ensures_copyName_of_long (h : s.Portable p origin t target) {entry : Entry}
    (hdeep : ∀ rest, s.entry? (origin ++ rest) = some .dir → rest.length < depth + 1)
    (hnames : s.MirroredNames origin target front s')
    (hentry : s.entry? (origin ++ [name]) = some entry)
    (hlong : pathLimit ≤ (p.child name).text.utf8ByteSize ∨
      pathLimit ≤ (t.child name).text.utf8ByteSize) :
    Ensures (· = s') (copyName (copyTreeFrom depth) (p.child name) (t.child name) (some entry))
      (fun _ _ ↦ False) (fun f _ ↦ f.OfLongPath) := by
  have hs := hnames.wellFormed
  have hname := h.wellFormed.name hentry
  have hp : (p.child name).hasNul = false := (Path.hasNul_child hname.isClean).trans h.source.hasNul
  have ht : (t.child name).hasNul = false := (Path.hasNul_child hname.isClean).trans h.destination.hasNul
  obtain ⟨hsource, hdestination⟩ := h.start_of_names hnames
  have hentry' := (h.origin_of_names hnames [name]).trans hentry
  rintro s' rfl
  cases entry with
  | link text => exact absurd hentry ((h.noLinks.child name).here text)
  | file id content =>
    by_cases hshort : (p.child name).text.utf8ByteSize < pathLimit
    · have hlong := hlong.resolve_left (by omega)
      change Outcome _ _ ((copyFile _ _).run _)
      rw [run_copyFile_of_long_destination (hsource.child hname hshort) hs hentry' ht hlong]
      exact .inl ⟨_, hlong, rfl⟩
    · change Outcome _ _ ((copyFile _ _).run _)
      rw [run_copyFile_of_long_source hp (Nat.le_of_not_lt hshort)]
      exact .inl ⟨_, Nat.le_of_not_lt hshort, rfl⟩
  | dir =>
    obtain ⟨more, rfl⟩ : ∃ more, depth = more + 1 := by
      have hpositive := hdeep [name] hentry
      exact ⟨depth - 1, by simp at hpositive; omega⟩
    by_cases hshort : (p.child name).text.utf8ByteSize < pathLimit
    · have hlong := hlong.resolve_left (by omega)
      have hparent : Store.exists? s' (t.child name).parent = .ok true := by
        have heq : (t.child name).parent = t := by simp [Path.parent, Path.child]
        rw [heq, hdestination.exists? hs (.of_entry hs hnames.dir rfl), hnames.dir]
        rfl
      change Outcome _ _ ((copyTreeFrom _ _ _).run _)
      rw [run_copyTreeFrom_of_long_destination (hsource.child hname hshort) hs hentry' ht hlong hparent]
      exact .inl ⟨_, hlong, rfl⟩
    · change Outcome _ _ ((copyTreeFrom _ _ _).run _)
      rw [run_copyTreeFrom_of_long_source hp (Nat.le_of_not_lt hshort)]
      exact .inl ⟨_, Nat.le_of_not_lt hshort, rfl⟩

/-- What is collected of a failure because a path is too long says so. -/
theorem ensures_collected (source destination : Path) (f : Failure) :
    Ensures (fun _ ↦ f.OfLongPath ∨ f.isSystem = false) (collected source destination f)
      (fun parts _ ↦ StrayPart parts) (fun g _ ↦ g.isSystem = false) := by
  rintro s ((⟨path, hlong, rfl⟩ | ⟨parts, rfl, hparts⟩) | hsystem)
  · exact ⟨_, List.mem_singleton.mpr rfl, path, hlong, rfl⟩
  · exact hparts
  · unfold collected
    split
    · cases hsystem
    · rw [if_neg (by simp [hsystem])]
      exact hsystem

/-- One name of a directory is copied, and no failure is collected, unless some path is too long. -/
theorem ensures_copyChild_of_spells (htree : MirrorsTree depth) (h : s.Portable p origin t target)
    (hdeep : ∀ rest, s.entry? (origin ++ rest) = some .dir → rest.length < depth + 1)
    (hnames : s.MirroredNames origin target front s') (hnew : name ∉ front)
    (hname : name ∈ s.names origin) :
    Ensures (· = s') (copyChild depth p t (s.entry? (origin ++ [name])) name)
      (fun failures s'' ↦ failures = [] ∧ s.MirroredNames origin target (front ++ [name]) s'' ∨
        s.Strays p origin t ∧ StrayPart failures)
      (fun f _ ↦ s.Strays p origin t ∧ f.isSystem = false) := by
  obtain ⟨entry, hentry⟩ := exists_entry_of_mem_names hname
  have hthere : s.entry? (origin ++ [name]) ≠ none := by simp [hentry]
  have hentry' := (h.origin_of_names hnames [name]).trans hentry
  have hcopy : Ensures (· = s') (copyName (copyTreeFrom depth) (p.child name) (t.child name)
      (some entry)) (fun _ s'' ↦ s'.Mirrored (origin ++ [name]) (target ++ [name]) s'')
      (fun f _ ↦ s.Strays p origin t ∧ (f.OfLongPath ∨ f.isSystem = false)) := by
    by_cases hlong : pathLimit ≤ (p.child name).text.utf8ByteSize ∨
        pathLimit ≤ (t.child name).text.utf8ByteSize
    · exact (ensures_copyName_of_long h hdeep hnames hentry hlong).weaken (fun _ h ↦ h)
        (fun _ _ h ↦ h.elim) fun _ _ hf ↦ ⟨⟨[name], hthere, hlong⟩, .inl hf⟩
    have hportable := h.child hnames hnew hthere (by omega) (by omega)
    cases entry with
    | dir =>
      refine (htree hportable hentry' fun rest hrest ↦ ?_).weaken (fun _ h ↦ h) (fun _ _ h ↦ h)
        fun _ _ hf ↦ ⟨h.strays_of_child hnames hf.1, hf.2.imp_left .inr⟩
      rw [← List.append_cons, h.origin_of_names hnames] at hrest
      simpa using hdeep (name :: rest) hrest
    | file id content =>
      exact (ensures_copyFile_of_spells hportable hnames.dir hentry').weaken (fun _ h ↦ h)
        (fun _ _ h ↦ h) fun _ _ h ↦ h.elim
    | link text => exact absurd hentry ((h.noLinks.child name).here text)
  unfold copyChild
  rw [hentry, Path.spelledChild_eq_child h.sourceNamed, Path.spelledChild_eq_child h.destinationNamed]
  refine (hcopy.bind fun _ ↦ ensures_pure fun s'' hnext ↦ ?_).tryCatch fun f ↦ ?_
  · exact .inl ⟨rfl, hnames.next h hnew hnext⟩
  · exact ensures_assume fun hstrays ↦ (ensures_collected _ _ f).weaken (fun _ h ↦ h)
      (fun _ _ hpart ↦ .inr ⟨hstrays, hpart⟩) fun _ _ hsystem ↦ ⟨hstrays, hsystem⟩

/-- From any store on, the copy of a name is collected or fails in a way that is none of the file
system's. -/
theorem ensures_copyChild_any (depth : ℕ) (p t : Path) (entry : Option Entry) (name : String) :
    Ensures (fun _ ↦ True) (copyChild depth p t entry name) (fun _ _ ↦ True)
      (fun f _ ↦ f.isSystem = false) := by
  refine (ensures_any _).tryCatch fun f ↦ ?_
  unfold collected
  split
  · exact ensures_pure fun _ _ ↦ trivial
  · split
    · exact ensures_pure fun _ _ ↦ trivial
    · next hsystem => exact ensures_throw fun _ _ ↦ by simpa using hsystem

/-- The copies of all the names in a directory. Once one of them has failed because a path is too long,
it does not matter how the others end. -/
theorem ensures_copyChildren_of_spells (htree : MirrorsTree depth) (h : s.Portable p origin t target)
    (hdeep : ∀ rest, s.entry? (origin ++ rest) = some .dir → rest.length < depth + 1) :
    Ensures (s.MirroredNames origin target [])
      ((s.names origin).mapM fun name ↦ copyChild depth p t (s.entry? (origin ++ [name])) name)
      (fun failures s' ↦ failures.flatten = [] ∧ s.MirroredNames origin target (s.names origin) s' ∨
        s.Strays p origin t ∧ StrayPart failures.flatten)
      (fun f _ ↦ s.Strays p origin t ∧ f.isSystem = false) := by
  refine (ensures_mapM (I := fun rest done s' ↦ (∃ front, s.names origin = front ++ rest ∧
      done.flatten = [] ∧ s.MirroredNames origin target front s') ∨
      s.Strays p origin t ∧ StrayPart done.flatten) (fun name rest done ↦ ?_) (s.names origin) []).weaken
    (fun _ hnames ↦ .inl ⟨[], rfl, rfl, hnames⟩) (fun failures s' hend ↦ ?_) fun _ _ hf ↦ hf
  · rintro s' (⟨front, hfront, hdone, hnames⟩ | ⟨hstrays, part, hmem, hpart⟩)
    · have hnodup := nodup_names h.wellFormed origin
      rw [hfront] at hnodup
      have hnew : name ∉ front := fun hmem ↦
        (List.nodup_append.mp hnodup).2.2 name hmem name List.mem_cons_self rfl
      refine (ensures_copyChild_of_spells htree h hdeep hnames hnew (by simp [hfront])).weaken
        (fun _ h ↦ h) (fun failures s'' hnext ↦ ?_) (fun _ _ h ↦ h) s' rfl
      rcases hnext with ⟨hnone, hnext⟩ | ⟨hstrays, hpart⟩
      · exact .inl ⟨front ++ [name], by simp [hfront], by simp [hdone, hnone], hnext⟩
      · exact .inr ⟨hstrays, by simpa [hdone] using hpart⟩
    · refine (ensures_copyChild_any depth p t _ name).weaken (fun _ _ ↦ trivial)
        (fun failures _ _ ↦ .inr ⟨hstrays, part, ?_, hpart⟩) (fun _ _ hf ↦ ⟨hstrays, hf⟩) s' rfl
      simp [hmem]
  · refine hend.imp_left fun ⟨front, hfront, hnone, hnames⟩ ↦ ⟨hnone, ?_⟩
    rw [List.append_nil] at hfront
    rwa [hfront]

theorem mirrorsTree (depth : ℕ) : MirrorsTree depth := by
  induction depth with
  | zero =>
    intro s p origin t target _ hdir hdeep
    exact absurd (hdeep [] (by simpa using hdir)) (Nat.not_lt_zero _)
  | succ depth ih =>
    intro s p origin t target h hdir hdeep
    have hs := h.wellFormed
    have hlisted := h.source.listed hs hdir
    have hmake := ensures_makeDirectoriesFrom_of_spells false h.destination hs h.destinationNamed
      h.clear (Nat.le_refl _)
    unfold copyTreeFrom
    refine Ensures.bind (Q := fun directory s' ↦ directory = origin ∧ s' = s) ?_ fun directory ↦
      ensures_assume fun hdirectory ↦ ?_
    · rintro _ rfl
      rw [run_ask, hlisted]
      exact ⟨rfl, rfl⟩
    subst hdirectory
    refine ensures_get_bind fun now hnow ↦ ?_
    rw [hnow]
    refine Ensures.bind (hmake.weaken (fun _ h ↦ h) (fun _ _ h ↦ h) fun _ _ h ↦ h.elim) fun _ ↦ ?_
    rw [List.mapM_map]
    refine Ensures.bind ((ensures_copyChildren_of_spells ih h hdeep).weaken
      (fun made hmade ↦ h.names_of_paves hmade) (fun _ _ h ↦ h) fun _ _ h ↦ ⟨h.1, .inr h.2⟩)
      fun failures ↦ ?_
    rintro s' (⟨hnone, hnames⟩ | ⟨hstrays, hpart⟩)
    · rw [if_neg (by simpa using hnone)]
      exact hnames.mirrored hs hdir fun _ ↦ Iff.rfl
    · have hne : failures.flatten ≠ [] := by
        obtain ⟨part, hmem, -⟩ := hpart
        exact List.ne_nil_of_mem hmem
      rw [if_pos (by simpa using hne)]
      exact ⟨hstrays, .inl ⟨_, rfl, hpart⟩⟩

/-- A directory is copied as a whole to a place that is clear, unless some path is too long. -/
theorem ensures_copyTree_of_portable (h : s.Portable p origin t target)
    (hdir : s.entry? origin = some .dir) :
    Ensures (· = s) (copyTree p t) (fun _ s' ↦ s.Mirrored origin target s')
      (fun f _ ↦ s.Strays p origin t ∧ (f.OfStrayPart ∨ f.isSystem = false)) := by
  refine ensures_get_bind fun now hnow ↦ ?_
  rw [hnow]
  refine mirrorsTree _ h hdir fun rest hrest ↦ ?_
  have hlength := length_le_of_entry? h.wellFormed hrest
  rw [List.length_append] at hlength
  have hpositive : 0 < endlessDepth := by decide
  omega

/-- A directory is copied as a whole to a place that is clear. -/
theorem ensures_copyTree_of_spells (h : s.Copyable p origin t target)
    (hdir : s.entry? origin = some .dir) :
    Ensures (· = s) (copyTree p t) (fun _ s' ↦ s.Mirrored origin target s') (fun _ _ ↦ False) :=
  (ensures_copyTree_of_portable h.toPortable hdir).weaken (fun _ h ↦ h) (fun _ _ h ↦ h)
    fun _ _ hf ↦ h.not_strays hf.1

end StoreAction

end DeferredOps
