import DeferredOps.Proofs.Store.Relocation
import Mathlib.Data.Set.Card

/-!
# Directories that are merged

Two directories are merged name by name. An entry that the target lacks goes there as a whole, a file
whose name is taken there stays where it is, and two directories of the same name are merged in turn.
What a merge has done is therefore a matter of the paths below the two directories, of all of them or
of those that begin with the names that have been met; so is the number of its steps of each kind.
-/

namespace DeferredOps

open Action

namespace Store

variable {s s' s'' : Store} {p t : Path} {origin target location directory : Location}
  {name counter : String} {front rest names : List String} {scope : Set (List String)}

/-! ## What becomes of an entry -/

/-- The entry is missing at the target, in a directory that is not, and goes there with all that is
below it. -/
def Topmost (s : Store) (origin target : Location) (rest : List String) : Prop :=
  s.entry? (origin ++ rest) ≠ none ∧ s.entry? (target ++ rest) = none ∧
    (rest ≠ [] → s.entry? (target ++ rest.dropLast) ≠ none)

/-- The entry is a directory in both places. -/
def Paired (s : Store) (origin target : Location) (rest : List String) : Prop :=
  s.entry? (origin ++ rest) = some .dir ∧ s.entry? (target ++ rest) = some .dir

/-- The entry is a file whose name is taken at the target. -/
def Conflicting (s : Store) (origin target : Location) (rest : List String) : Prop :=
  (∃ id content, s.entry? (origin ++ rest) = some (.file id content)) ∧
    s.entry? (target ++ rest) ≠ none

/-- The entry is a conflicting file or leads to one. -/
def LeadsToConflict (s : Store) (origin target : Location) (rest : List String) : Prop :=
  ∃ more, s.Conflicting origin target (rest ++ more)

/-- A merge adds one to the counter for the entry. -/
def Tallied (s : Store) (origin target : Location) (counter : String) (rest : List String) : Prop :=
  counter = "moved" ∧ s.Topmost origin target rest ∨
    counter = "merged" ∧ s.Paired origin target rest ∨
      counter = "skipped" ∧ s.Conflicting origin target rest

/-- The paths that begin with one of the names. -/
def below (front : List String) : Set (List String) :=
  {rest | ∃ name ∈ front, ∃ more, rest = name :: more}

/-- Of the entries below `origin`, those in the scope have been merged into `target`: the missing ones
have gone there, the conflicting files and the directories that lead to them are still there, the other
directories are removed, and all else is as it was. -/
structure MergedIn (s : Store) (scope : Set (List String)) (origin target : Location) (s' : Store) :
    Prop where
  wellFormed : s'.WellFormed
  linkFree : s'.LinkFree
  pruned : s.Pruned origin s'
  arrived {rest : List String} (h : rest ∈ scope) :
    s'.entry? (target ++ rest) = (s.entry? (target ++ rest)).or (s.entry? (origin ++ rest))
  kept {rest : List String} (h : s.LeadsToConflict origin target rest) :
    s'.entry? (origin ++ rest) = s.entry? (origin ++ rest)
  gone {rest : List String} (h : rest ∈ scope) (h' : ¬ s.LeadsToConflict origin target rest) :
    s'.entry? (origin ++ rest) = none
  stays {l : Location} (h : ∀ rest ∈ scope, l ≠ origin ++ rest ∧ l ≠ target ++ rest) :
    s'.entry? l = s.entry? l

/-- All entries at and below `origin` have been merged into `target`. -/
abbrev Merged (s : Store) (origin target : Location) (s' : Store) : Prop :=
  s.MergedIn Set.univ origin target s'

theorem nil_notMem_below (front : List String) : [] ∉ below front := by
  rintro ⟨name, -, more, h⟩
  cases h

theorem cons_mem_below : name :: rest ∈ below front ↔ name ∈ front := by
  constructor
  · rintro ⟨n, hn, more, h⟩
    cases h
    exact hn
  · exact fun h ↦ ⟨name, h, rest, rfl⟩

/-! ## One name more -/

/-- The merge of two directories of the same name is a part of the merge of the directories they
are in. -/
theorem conflicting_child (horigin : ∀ rest, s'.entry? (origin ++ name :: rest) =
      s.entry? (origin ++ name :: rest))
    (htarget : ∀ rest, s'.entry? (target ++ name :: rest) = s.entry? (target ++ name :: rest)) :
    s'.Conflicting (origin ++ [name]) (target ++ [name]) rest ↔
      s.Conflicting origin target (name :: rest) := by
  unfold Conflicting
  rw [← List.append_cons, ← List.append_cons, horigin, htarget]

theorem leadsToConflict_child (horigin : ∀ rest, s'.entry? (origin ++ name :: rest) =
      s.entry? (origin ++ name :: rest))
    (htarget : ∀ rest, s'.entry? (target ++ name :: rest) = s.entry? (target ++ name :: rest)) :
    s'.LeadsToConflict (origin ++ [name]) (target ++ [name]) rest ↔
      s.LeadsToConflict origin target (name :: rest) :=
  exists_congr fun _ ↦ conflicting_child horigin htarget

theorem tallied_child (hdir : s.entry? target = some .dir)
    (horigin : ∀ rest, s'.entry? (origin ++ name :: rest) = s.entry? (origin ++ name :: rest))
    (htarget : ∀ rest, s'.entry? (target ++ name :: rest) = s.entry? (target ++ name :: rest)) :
    s'.Tallied (origin ++ [name]) (target ++ [name]) counter rest ↔
      s.Tallied origin target counter (name :: rest) := by
  have hparent : (rest ≠ [] → s'.entry? (target ++ [name] ++ rest.dropLast) ≠ none) ↔
      s.entry? (target ++ (name :: rest).dropLast) ≠ none := by
    rw [← List.append_cons, htarget]
    cases rest with
    | nil => simp [hdir]
    | cons n more => simp
  unfold Tallied Topmost Paired
  rw [conflicting_child horigin htarget, hparent, ← List.append_cons, ← List.append_cons, horigin,
    htarget]
  simp

namespace MergedIn

/-- Before the first name. -/
theorem start (hs : s.WellFormed) (hfree : s.LinkFree) : s.MergedIn (below []) origin target s where
  wellFormed := hs
  linkFree := hfree
  pruned := .refl s origin
  arrived h := by simp [below] at h
  kept _ := rfl
  gone h := by simp [below] at h
  stays _ := rfl

section Apart

variable (h : s.MergedIn scope origin target s') (hapart : ¬ origin <+: target)
  (habove : ¬ target <+: origin)
include h hapart habove

/-- Of two apart places nothing is below both. -/
theorem origin_of_notMem (hrest : rest ∉ scope) :
    s'.entry? (origin ++ rest) = s.entry? (origin ++ rest) := by
  refine h.stays fun other hother ↦ ⟨fun heq ↦ ?_, fun heq ↦ ?_⟩
  · rw [List.append_cancel_left heq] at hrest
    exact hrest hother
  · exact not_prefix_append habove hapart rest (heq ▸ List.prefix_append _ _)

theorem target_of_notMem (hrest : rest ∉ scope) :
    s'.entry? (target ++ rest) = s.entry? (target ++ rest) := by
  refine h.stays fun other hother ↦ ⟨fun heq ↦ ?_, fun heq ↦ ?_⟩
  · exact not_prefix_append hapart habove rest (heq ▸ List.prefix_append _ _)
  · rw [List.append_cancel_left heq] at hrest
    exact hrest hother

end Apart

/-- With what is at a name the part that is done grows by all that is below that name. -/
theorem next (h : s.MergedIn (below front) origin target s') (hapart : ¬ origin <+: target)
    (habove : ¬ target <+: origin) (hnew : name ∉ front)
    (hname : s'.Merged (origin ++ [name]) (target ++ [name]) s'') :
    s.MergedIn (below (front ++ [name])) origin target s'' := by
  have hnot (rest : List String) : name :: rest ∉ below front := fun hmem ↦
    hnew (cons_mem_below.mp hmem)
  have horigin (rest : List String) := h.origin_of_notMem hapart habove (hnot rest)
  have htarget (rest : List String) := h.target_of_notMem hapart habove (hnot rest)
  have helse {l : Location} (hl : ∀ rest, l ≠ origin ++ name :: rest ∧ l ≠ target ++ name :: rest) :
      s''.entry? l = s'.entry? l := by
    refine hname.stays fun rest _ ↦ ?_
    rw [← List.append_cons, ← List.append_cons]
    exact hl rest
  have hother {n : String} {more : List String} (hn : n ≠ name) :
      s''.entry? (origin ++ n :: more) = s'.entry? (origin ++ n :: more) ∧
        s''.entry? (target ++ n :: more) = s'.entry? (target ++ n :: more) := by
    refine ⟨helse fun rest ↦ ⟨fun heq ↦ hn ?_, fun heq ↦ ?_⟩,
      helse fun rest ↦ ⟨fun heq ↦ ?_, fun heq ↦ hn ?_⟩⟩
    · exact (List.cons.inj (List.append_cancel_left heq)).1
    · exact not_prefix_append hapart habove _ (heq ▸ List.prefix_append _ _)
    · exact not_prefix_append habove hapart _ (heq ▸ List.prefix_append _ _)
    · exact (List.cons.inj (List.append_cancel_left heq)).1
  refine ⟨hname.wellFormed, hname.linkFree, h.pruned.trans hname.pruned.widen, fun {rest} hrest ↦ ?_,
    fun {rest} hconflict ↦ ?_, fun {rest} hrest hconflict ↦ ?_, fun {l} hl ↦ ?_⟩
  · obtain ⟨n, hn, more, rfl⟩ := hrest
    by_cases heq : n = name
    · subst heq
      have harrived := hname.arrived (Set.mem_univ more)
      rwa [← List.append_cons, ← List.append_cons, horigin, htarget] at harrived
    · rw [(hother heq).2]
      exact h.arrived (cons_mem_below.mpr (by simpa [heq] using hn))
  · rcases rest with _ | ⟨n, more⟩
    · rw [helse fun rest ↦ ⟨by simp, fun heq ↦ ?_⟩]
      · exact h.kept hconflict
      · exact habove ⟨name :: rest, by simpa using heq.symm⟩
    · by_cases heq : n = name
      · subst heq
        have hkept := hname.kept ((leadsToConflict_child horigin htarget).mpr hconflict)
        rwa [← List.append_cons, horigin] at hkept
      · rw [(hother heq).1]
        exact h.kept hconflict
  · obtain ⟨n, hn, more, rfl⟩ := hrest
    by_cases heq : n = name
    · subst heq
      have hgone := hname.gone (Set.mem_univ _)
        fun hleads ↦ hconflict ((leadsToConflict_child horigin htarget).mp hleads)
      rwa [← List.append_cons] at hgone
    · rw [(hother heq).1]
      exact h.gone (cons_mem_below.mpr (by simpa [heq] using hn)) hconflict
  · rw [helse fun rest ↦ hl _ (cons_mem_below.mpr (by simp))]
    refine h.stays fun rest hrest ↦ hl rest ?_
    obtain ⟨n, hn, more, rfl⟩ := hrest
    exact cons_mem_below.mpr (List.mem_append_left _ hn)

end MergedIn

/-! ## The directory itself -/

theorem leadsToConflict_of_append {more : List String}
    (h : s.LeadsToConflict origin target (rest ++ more)) : s.LeadsToConflict origin target rest := by
  obtain ⟨last, hlast⟩ := h
  exact ⟨more ++ last, by rwa [← List.append_assoc]⟩

/-- A directory leads to a conflict by one of its names. -/
theorem LeadsToConflict.exists_name (h : s.LeadsToConflict origin target [])
    (hdir : s.entry? origin = some .dir) : ∃ name, s.LeadsToConflict origin target [name] := by
  obtain ⟨_ | ⟨name, more⟩, hconflict⟩ := h
  · obtain ⟨⟨id, content, hfile⟩, -⟩ := hconflict
    rw [List.append_nil, List.append_nil, hdir] at hfile
    cases hfile
  · exact ⟨name, more, hconflict⟩

theorem LeadsToConflict.there (h : s.LeadsToConflict origin target rest) (hs : s.WellFormed) :
    s.entry? (origin ++ rest) ≠ none := by
  obtain ⟨more, ⟨id, content, hfile⟩, -⟩ := h
  have hthere : s.entry? (origin ++ rest ++ more) ≠ none := by
    rw [List.append_assoc, hfile]
    simp
  exact hs.there_of_append hthere

section Whole

variable (h : s.MergedIn (below names) origin target s') (hs : s.WellFormed)
  (hnames : ∀ name, s.entry? (origin ++ [name]) ≠ none → name ∈ names)
  (hapart : ¬ origin <+: target) (habove : ¬ target <+: origin)
include h hs hnames hapart habove

/-- When all names are done the directory is empty unless it leads to a conflict. -/
theorem MergedIn.entry?_concat_eq_none_iff (hdir : s.entry? origin = some .dir) :
    (∀ name, s'.entry? (origin ++ [name]) = none) ↔ ¬ s.LeadsToConflict origin target [] := by
  constructor
  · intro hempty hconflict
    obtain ⟨name, hname⟩ := hconflict.exists_name hdir
    exact hname.there hs ((h.kept hname).symm.trans (hempty name))
  · intro hconflict name
    by_cases hmem : name ∈ names
    · exact h.gone (cons_mem_below.mpr hmem) fun hname ↦
        hconflict (leadsToConflict_of_append (List.nil_append [name] ▸ hname))
    · rw [h.origin_of_notMem hapart habove fun hbelow ↦ hmem (cons_mem_below.mp hbelow)]
      by_contra hthere
      exact hmem (hnames name hthere)

/-- The merge of all names is that of the directory, once this has been removed if it is empty. -/
theorem MergedIn.whole (htarget : s.entry? target = some .dir) (hwellFormed : s''.WellFormed)
    (hfree : s''.LinkFree) (hpruned : s'.Pruned origin s'')
    (hkept : ∀ l, l ≠ origin ∨ s.LeadsToConflict origin target [] → s''.entry? l = s'.entry? l)
    (hgone : ¬ s.LeadsToConflict origin target [] → s''.entry? origin = none) :
    s.Merged origin target s'' := by
  have hnone {name : String} (hmem : name ∉ names) (more : List String) :
      s.entry? (origin ++ name :: more) = none := by
    by_contra hthere
    rw [List.append_cons] at hthere
    exact hmem (hnames name (hs.there_of_append hthere))
  have hnotBelow {name : String} (hmem : name ∉ names) (more : List String) :
      name :: more ∉ below names := fun hbelow ↦ hmem (cons_mem_below.mp hbelow)
  have horigin (rest : List String) (hne : rest ≠ []) :
      s''.entry? (origin ++ rest) = s'.entry? (origin ++ rest) :=
    hkept _ (.inl fun heq ↦ hne (List.append_cancel_left (heq.trans (List.append_nil _).symm)))
  have htarget' (rest : List String) : s''.entry? (target ++ rest) = s'.entry? (target ++ rest) :=
    hkept _ (.inl fun heq ↦ habove (heq ▸ List.prefix_append _ _))
  refine ⟨hwellFormed, hfree, h.pruned.trans hpruned, fun {rest} _ ↦ ?_, fun {rest} hconflict ↦ ?_,
    fun {rest} _ hconflict ↦ ?_, fun {l} hl ↦ ?_⟩
  · rw [htarget']
    rcases rest with _ | ⟨name, more⟩
    · rw [h.target_of_notMem hapart habove (nil_notMem_below names), List.append_nil, htarget]
      rfl
    · by_cases hmem : name ∈ names
      · exact h.arrived (cons_mem_below.mpr hmem)
      · rw [h.target_of_notMem hapart habove (hnotBelow hmem more), hnone hmem more, Option.or_none]
  · rw [hkept _ (.inr (leadsToConflict_of_append hconflict)), h.kept hconflict]
  · rcases rest with _ | ⟨name, more⟩
    · rw [List.append_nil, hgone hconflict]
    · rw [horigin _ (by simp)]
      by_cases hmem : name ∈ names
      · exact h.gone (cons_mem_below.mpr hmem) hconflict
      · rw [h.origin_of_notMem hapart habove (hnotBelow hmem more), hnone hmem more]
  · rw [hkept l (.inl fun heq ↦ ?_), h.stays fun rest _ ↦ hl rest (Set.mem_univ _)]
    exact (hl [] (Set.mem_univ _)).1 (heq.trans (List.append_nil _).symm)

end Whole

/-! ## What is moved as a whole or stays -/

/-- The place of an entry is missing in a directory, and the entry has been renamed to it. -/
theorem Portable.merged_carry (h : s.Portable p origin t (directory ++ [name]))
    (hfree : s.LinkFree) (hdir : s.entry? directory = some .dir) :
    s.Merged origin (directory ++ [name]) (s.carry origin (directory ++ [name])) := by
  have hrelocated := h.relocated_carry hfree hdir
  have hvacant (rest : List String) : s.entry? (directory ++ [name] ++ rest) = none := by
    by_cases hrest : rest = []
    · rw [hrest, List.append_nil, h.clear.vacant]
    · exact h.wellFormed.none_of_append hrest (by simp [h.clear.vacant])
  have hconflict (rest : List String) : ¬ s.LeadsToConflict origin (directory ++ [name]) rest := by
    rintro ⟨more, -, hthere⟩
    exact hthere (hvacant _)
  refine ⟨hrelocated.wellFormed, hrelocated.linkFree,
    (h.rename hdir).2.pruned h.wellFormed h.clear.vacant, fun {rest} _ ↦ ?_,
    fun {rest} hleads ↦ absurd hleads (hconflict rest),
    fun {rest} _ _ ↦ hrelocated.gone (List.prefix_append _ _), fun {l} hl ↦ ?_⟩
  · rw [hrelocated.same (by rwa [List.dropLast_concat]), hvacant, Option.none_or]
  · have horigin : ¬ origin <+: l := by
      rintro ⟨rest, rfl⟩
      exact (hl rest (Set.mem_univ _)).1 rfl
    have htarget : ¬ directory ++ [name] <+: l := by
      rintro ⟨rest, rfl⟩
      exact (hl rest (Set.mem_univ _)).2 rfl
    rw [hrelocated.stays horigin htarget]
    split
    · next hpre =>
      rcases List.prefix_concat_iff.mp hpre with rfl | hpre
      · exact absurd (List.prefix_refl _) htarget
      · exact (h.wellFormed.dir_of_prefix hdir hpre).symm
    · rfl

/-- Nothing happens to a file whose name is taken. -/
theorem Conflicting.merged (h : s.Conflicting origin target []) (hs : s.WellFormed)
    (hfree : s.LinkFree) : s.Merged origin target s := by
  obtain ⟨⟨id, content, hfile⟩, htaken⟩ := h
  rw [List.append_nil] at hfile htaken
  have hnone {rest : List String} (hrest : rest ≠ []) : s.entry? (origin ++ rest) = none :=
    hs.none_of_append hrest (by simp [hfile])
  refine ⟨hs, hfree, .refl s origin, fun {rest} _ ↦ ?_, fun _ ↦ rfl, fun {rest} _ hconflict ↦ ?_,
    fun _ ↦ rfl⟩
  · by_cases hrest : rest = []
    · obtain ⟨entry, hentry⟩ := Option.ne_none_iff_exists'.mp htaken
      rw [hrest, List.append_nil, hentry, Option.some_or]
    · rw [hnone hrest, Option.or_none]
  · refine hnone fun hrest ↦ hconflict ⟨[], ⟨id, content, ?_⟩, ?_⟩
    · rw [hrest, List.append_nil, List.append_nil, hfile]
    · rwa [hrest, List.append_nil, List.append_nil]

/-- Where there are only directories, none of them leads to a conflict. -/
theorem MergedIn.none_of_dirs (h : s.Merged origin target s')
    (hdirs : ∀ e ∈ s.entries, e.2.isDir) : s'.entry? origin = none := by
  have hgone := h.gone (Set.mem_univ []) ?_
  · rwa [List.append_nil] at hgone
  · rintro ⟨more, ⟨id, content, hfile⟩, -⟩
    have hne : origin ++ ([] ++ more) ≠ [] := by
      intro hnil
      rw [hnil] at hfile
      cases hfile
    cases hdirs _ (mem_entries hne hfile)

/-! ## What can be merged -/

/-- An entry and a place for it in a directory that is there, neither of which lies in the other. No
directory meets a file of the same path, and every path that a merge asks about is in reach. -/
structure Joinable (s : Store) (p : Path) (origin : Location) (t : Path) (target : Location) :
    Prop where
  wellFormed : s.WellFormed
  linkFree : s.LinkFree
  source : s.Spells p origin
  destination : s.Spells t target
  sourceNamed : p.parts ≠ []
  destinationNamed : t.parts ≠ []
  there : s.entry? origin ≠ none
  parent : s.entry? target.dropLast = some .dir
  apart : ¬ origin <+: target
  notAbove : ¬ target <+: origin
  agree (rest : List String) (h : s.entry? (origin ++ rest) = some .dir) (id : ℕ)
    (content : Bytes) : s.entry? (target ++ rest) ≠ some (.file id content)
  reach (rest : List String) (name : String) (h : s.entry? (origin ++ (rest ++ [name])) ≠ none)
    (h' : s.entry? (target ++ rest) = some .dir) :
    (p.extend (rest ++ [name])).text.utf8ByteSize < pathLimit ∧
      (t.extend (rest ++ [name])).text.utf8ByteSize < pathLimit

namespace Joinable

variable (h : s.Joinable p origin t target)
include h

theorem portable (hnone : s.entry? target = none) : s.Portable p origin t target where
  wellFormed := h.wellFormed
  noLinks := h.linkFree.noLinks origin
  source := h.source
  destination := h.destination
  sourceNamed := h.sourceNamed
  destinationNamed := h.destinationNamed
  there := h.there
  clear := by
    refine ⟨hnone, fun {l} hl ↦ ?_⟩
    obtain ⟨d, n, heq⟩ := h.destination.exists_concat h.destinationNamed
    have hparent := h.parent
    rw [heq, List.dropLast_concat] at hparent
    rcases List.prefix_concat_iff.mp (heq ▸ hl) with rfl | hpre
    · exact .inl (heq ▸ hnone)
    · exact .inr (h.wellFormed.dir_of_prefix hparent hpre)
  apart := h.apart

/-- Where two directories meet, so do the entries of each name. -/
theorem child (hmerged : s.MergedIn (below front) origin target s') (hnew : name ∉ front)
    (hthere : s.entry? (origin ++ [name]) ≠ none) (htarget : s.entry? target = some .dir) :
    s'.Joinable (p.child name) (origin ++ [name]) (t.child name) (target ++ [name]) := by
  have hnot (rest : List String) : name :: rest ∉ below front := fun hmem ↦
    hnew (cons_mem_below.mp hmem)
  have hsource (rest : List String) : s'.entry? (origin ++ [name] ++ rest) =
      s.entry? (origin ++ name :: rest) := by
    rw [← List.append_cons, hmerged.origin_of_notMem h.apart h.notAbove (hnot rest)]
  have hdestination (rest : List String) : s'.entry? (target ++ [name] ++ rest) =
      s.entry? (target ++ name :: rest) := by
    rw [← List.append_cons, hmerged.target_of_notMem h.apart h.notAbove (hnot rest)]
  have hdir : s'.entry? target = some .dir := by
    have hsame := hmerged.target_of_notMem h.apart h.notAbove (nil_notMem_below front)
    rwa [List.append_nil, htarget] at hsame
  obtain ⟨entry, hentry⟩ := Option.ne_none_iff_exists'.mp hthere
  have hname : IsName name := h.wellFormed.name hentry
  obtain ⟨hshort, hshort'⟩ := h.reach [] name hthere (by rwa [List.append_nil])
  rw [List.nil_append, ← Path.child_eq_extend] at hshort hshort'
  exact
    { wellFormed := hmerged.wellFormed
      linkFree := hmerged.linkFree
      source := (h.source.child hname hshort).pruned hmerged.pruned
        (h.source.not_prefix_start h.sourceNamed)
      destination := (h.destination.child hname hshort').pruned hmerged.pruned
        fun hpre ↦ h.apart (hpre.trans h.destination.prefix_location)
      sourceNamed := by simp
      destinationNamed := by simp
      there := by
        have hsame := hsource []
        rw [List.append_nil] at hsame
        rwa [hsame]
      parent := by rwa [List.dropLast_concat]
      apart := fun hpre ↦ not_prefix_append h.apart h.notAbove [name]
        ((List.prefix_append _ _).trans hpre)
      notAbove := fun hpre ↦ not_prefix_append h.notAbove h.apart [name]
        ((List.prefix_append _ _).trans hpre)
      agree := fun rest hrest id content ↦ by
        rw [hdestination]
        rw [hsource] at hrest
        exact h.agree (name :: rest) hrest id content
      reach := fun rest n hrest hparent ↦ by
        rw [hsource] at hrest
        rw [hdestination] at hparent
        rw [Path.child_extend, Path.child_extend]
        exact h.reach (name :: rest) n hrest hparent }

end Joinable

/-! ## Counting -/

/-- How often a merge of the entries in the scope adds one to the counter. -/
noncomputable def tally (s : Store) (scope : Set (List String)) (origin target : Location)
    (counter : String) : ℕ :=
  ({rest | s.Tallied origin target counter rest} ∩ scope).ncard

theorem Tallied.there (h : s.Tallied origin target counter rest) :
    s.entry? (origin ++ rest) ≠ none := by
  rcases h with ⟨-, h, -⟩ | ⟨-, h, -⟩ | ⟨-, ⟨id, content, h⟩, -⟩
  · exact h
  · simp [h]
  · simp [h]

theorem finite_tallied (s : Store) (origin target : Location) (counter : String) :
    {rest | s.Tallied origin target counter rest}.Finite := by
  have hkeys : {l | l ∈ [] :: s.entries.map (·.1)}.Finite := List.finite_toSet _
  refine (hkeys.preimage (f := (origin ++ ·)) fun _ _ _ _ h ↦ List.append_cancel_left h).subset ?_
  intro rest hrest
  obtain ⟨entry, hentry⟩ := Option.ne_none_iff_exists'.mp hrest.there
  by_cases hnil : origin ++ rest = []
  · exact List.mem_cons.mpr (.inl hnil)
  · exact List.mem_cons_of_mem _ (List.mem_map_of_mem (mem_entries hnil hentry))

theorem tally_nil : s.tally (below []) origin target counter = 0 := by
  have hbelow : below [] = ∅ := by simp [below]
  rw [tally, hbelow, Set.inter_empty, Set.ncard_empty]

/-- A name more adds what is counted below it. -/
theorem tally_concat (hnew : name ∉ front) (hdir : s.entry? target = some .dir)
    (horigin : ∀ rest, s'.entry? (origin ++ name :: rest) = s.entry? (origin ++ name :: rest))
    (htarget : ∀ rest, s'.entry? (target ++ name :: rest) = s.entry? (target ++ name :: rest)) :
    s.tally (below (front ++ [name])) origin target counter =
      s.tally (below front) origin target counter +
        s'.tally Set.univ (origin ++ [name]) (target ++ [name]) counter := by
  have hfinite := s.finite_tallied origin target counter
  have hsplit : {rest | s.Tallied origin target counter rest} ∩ below (front ++ [name]) =
      {rest | s.Tallied origin target counter rest} ∩ below front ∪
        (name :: ·) '' {rest | s'.Tallied (origin ++ [name]) (target ++ [name]) counter rest} := by
    ext rest
    constructor
    · rintro ⟨htallied, n, hn, more, rfl⟩
      rcases List.mem_append.mp hn with hn | hn
      · exact .inl ⟨htallied, n, hn, more, rfl⟩
      · obtain rfl : n = name := by simpa using hn
        exact .inr ⟨more, (tallied_child hdir horigin htarget).mpr htallied, rfl⟩
    · rintro (⟨htallied, n, hn, more, rfl⟩ | ⟨more, htallied, rfl⟩)
      · exact ⟨htallied, n, List.mem_append_left _ hn, more, rfl⟩
      · exact ⟨(tallied_child hdir horigin htarget).mp htallied, name, by simp, more, rfl⟩
  have hdisjoint : Disjoint ({rest | s.Tallied origin target counter rest} ∩ below front)
      ((name :: ·) '' {rest | s'.Tallied (origin ++ [name]) (target ++ [name]) counter rest}) := by
    rw [Set.disjoint_left]
    rintro _ ⟨-, hbelow⟩ ⟨more, -, rfl⟩
    exact hnew (cons_mem_below.mp hbelow)
  unfold tally
  calc
    _ = ({rest | s.Tallied origin target counter rest} ∩ below front).ncard +
        ((name :: ·) '' {rest |
          s'.Tallied (origin ++ [name]) (target ++ [name]) counter rest}).ncard := by
      rw [hsplit]
      exact Set.ncard_union_eq hdisjoint (hfinite.inter_of_left _)
        ((s'.finite_tallied _ _ counter).image _)
    _ = _ := by
      rw [Set.ncard_image_of_injective _ (List.cons_injective), Set.inter_univ]

/-- The directory itself is counted beside the names in it. -/
theorem tally_whole (hs : s.WellFormed)
    (hnames : ∀ name, s.entry? (origin ++ [name]) ≠ none → name ∈ names) :
    s.tally Set.univ origin target counter = s.tally (below names) origin target counter +
      s.tally {[]} origin target counter := by
  have hfinite := s.finite_tallied origin target counter
  have hsplit : {rest | s.Tallied origin target counter rest} ∩ Set.univ =
      {rest | s.Tallied origin target counter rest} ∩ below names ∪
        {rest | s.Tallied origin target counter rest} ∩ {[]} := by
    rw [← Set.inter_union_distrib_left]
    ext rest
    refine and_congr_right fun htallied ↦ ⟨fun _ ↦ ?_, fun _ ↦ Set.mem_univ _⟩
    rcases rest with _ | ⟨name, more⟩
    · exact .inr rfl
    · have hthere := htallied.there
      rw [List.append_cons] at hthere
      exact .inl (cons_mem_below.mpr (hnames name (hs.there_of_append hthere)))
  have hdisjoint : Disjoint ({rest | s.Tallied origin target counter rest} ∩ below names)
      ({rest | s.Tallied origin target counter rest} ∩ {[]}) := by
    rw [Set.disjoint_left]
    rintro rest ⟨-, hbelow⟩ ⟨-, rfl⟩
    exact nil_notMem_below names hbelow
  unfold tally
  rw [hsplit, Set.ncard_union_eq hdisjoint (hfinite.inter_of_left _) (hfinite.inter_of_left _)]

/-- Where only the entry itself counts, it counts once. -/
theorem tally_of_iff {key : String}
    (h : ∀ rest ∈ scope, s.Tallied origin target counter rest ↔ counter = key ∧ rest = [])
    (hnil : [] ∈ scope) :
    s.tally scope origin target counter = if counter = key then 1 else 0 := by
  unfold tally
  split
  · next hkey =>
    have hset : {rest | s.Tallied origin target counter rest} ∩ scope = {[]} := by
      ext rest
      constructor
      · rintro ⟨htallied, hrest⟩
        exact ((h rest hrest).mp htallied).2
      · rintro rfl
        exact ⟨(h [] hnil).mpr ⟨hkey, rfl⟩, hnil⟩
    rw [hset, Set.ncard_singleton]
  · next hkey =>
    have hset : {rest | s.Tallied origin target counter rest} ∩ scope = ∅ := by
      ext rest
      refine ⟨?_, False.elim⟩
      rintro ⟨htallied, hrest⟩
      exact hkey ((h rest hrest).mp htallied).1
    rw [hset, Set.ncard_empty]

theorem tallied_of_missing (hs : s.WellFormed) (hthere : s.entry? origin ≠ none)
    (hnone : s.entry? target = none) :
    s.Tallied origin target counter rest ↔ counter = "moved" ∧ rest = [] := by
  have hbelow (more : List String) : s.entry? (target ++ more) = none := by
    by_cases hmore : more = []
    · rw [hmore, List.append_nil, hnone]
    · exact hs.none_of_append hmore (by simp [hnone])
  unfold Tallied Topmost Paired Conflicting
  simp only [hbelow, ne_eq, not_true_eq_false, and_false, or_false, reduceCtorEq, true_and]
  refine and_congr_right fun _ ↦ ⟨fun h ↦ by_contra fun hrest ↦ h.2 hrest, ?_⟩
  rintro rfl
  simpa using hthere

theorem tallied_of_file {id : ℕ} {content : Bytes} (hs : s.WellFormed)
    (hfile : s.entry? origin = some (.file id content)) (htaken : s.entry? target ≠ none) :
    s.Tallied origin target counter rest ↔ counter = "skipped" ∧ rest = [] := by
  unfold Tallied Topmost Paired Conflicting
  by_cases hrest : rest = []
  · subst hrest
    simp [hfile, htaken]
  · simp [hs.none_of_append hrest (show s.entry? origin ≠ some .dir by simp [hfile]), hrest]

theorem tallied_nil_of_dir (hdir : s.entry? origin = some .dir)
    (htarget : s.entry? target = some .dir) :
    s.Tallied origin target counter [] ↔ counter = "merged" := by
  simp [Tallied, Topmost, Paired, Conflicting, hdir, htarget]

theorem tally_moved : s.tally Set.univ origin target "moved" =
    {rest | s.Topmost origin target rest}.ncard := by
  simp [tally, Tallied]

theorem tally_merged : s.tally Set.univ origin target "merged" =
    {rest | s.Paired origin target rest}.ncard := by
  simp [tally, Tallied]

theorem tally_skipped : s.tally Set.univ origin target "skipped" =
    {rest | s.Conflicting origin target rest}.ncard := by
  simp [tally, Tallied]

theorem tally_of_notMem (h : counter ∉ ["moved", "merged", "skipped"]) :
    s.tally Set.univ origin target counter = 0 := by
  simp only [List.mem_cons, List.not_mem_nil, or_false, not_or] at h
  simp [tally, Tallied, h]

end Store

end DeferredOps
