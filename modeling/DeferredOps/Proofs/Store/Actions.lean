import DeferredOps.Proofs.Action
import DeferredOps.Proofs.Store.Operations
import DeferredOps.Store.Trees
import Mathlib.Data.List.Infix

/-!
# What every action on a store keeps

An invariant of the single changes is one of all actions, since these change a store in no other
way. An action fails with a failure that an instruction survives, or because a path holds the
character NUL, or because a copy finds its own results.
-/

namespace DeferredOps

open Action

namespace Store

/-- A property of well-formed stores that every single change keeps. A symbolic link is only made
with the text of another one. -/
structure Invariant (inv : Store → Prop) : Prop where
  wellFormed {s} (hs : inv s) : s.WellFormed
  unlink {s s' p} (hs : inv s) (h : s.unlink p = .ok s') : inv s'
  removeDirectory {s s' p} (hs : inv s) (h : s.removeDirectory p = .ok s') : inv s'
  clear {s location} (hs : inv s) : inv (s.clear location)
  makeDirectory {s s'} {p : Path} (hs : inv s) (hp : p.Proper) (hnul : p.hasNul = false)
    (h : s.makeDirectory p = .ok s') : inv s'
  makeLink {s s' old location text} {p : Path} (hs : inv s) (hp : p.Proper)
    (hnul : p.hasNul = false) (hold : inv old) (htext : old.entry? location = some (.link text))
    (h : s.makeLink text p = .ok s') : inv s'
  write {s s'} {p : Path} {change} (hs : inv s) (hp : p.Proper) (hnul : p.hasNul = false)
    (h : s.write p change = .ok s') : inv s'
  rename {s s'} {source target : Path} (hs : inv s) (htarget : target.Proper)
    (hnul : target.hasNul = false) (h : s.rename source target = .ok s') : inv s'
  openFile {s id content} (hs : inv s) : inv (s.openFile id content)
  closeFile {s id} (hs : inv s) : inv (s.closeFile id)

theorem invariant_wellFormed : Invariant WellFormed where
  wellFormed hs := hs
  unlink hs h := hs.unlink h
  removeDirectory hs h := hs.removeDirectory h
  clear hs := hs.clear
  makeDirectory hs hp hnul h := hs.create hp hnul (by simp) h
  makeLink hs hp hnul hold htext h := hs.create hp hnul (by simpa using hold.link htext) h
  write hs hp hnul h := hs.write hp hnul h
  rename hs htarget hnul h := hs.rename htarget hnul h
  openFile hs := hs.openFile _ _
  closeFile hs := hs.closeFile _

end Store

/-- A failure that a change of a store can end with; `nul` says whether one of its paths holds the
character NUL. -/
def Failure.OfChange (nul : Prop) (f : Failure) : Prop :=
  f.isSystem ∨ f = .embeddedNul ∧ nul

/-- A failure that an action on a store can end with: only a copy can be endless. -/
def Failure.OfStore (nul : Prop) (f : Failure) : Prop :=
  f.OfChange nul ∨ f = .endlessCopy

theorem Failure.OfChange.of_system {nul : Prop} {f : Failure} (h : f.isSystem) : f.OfChange nul :=
  .inl h

theorem Failure.ofChange_embeddedNul {nul : Prop} (h : nul) : Failure.embeddedNul.OfChange nul :=
  .inr ⟨rfl, h⟩

theorem Failure.OfChange.mono {nul nul' : Prop} {f : Failure} (h : f.OfChange nul)
    (himp : nul → nul') : f.OfChange nul' :=
  h.imp_right fun hnul ↦ ⟨hnul.1, himp hnul.2⟩

theorem Action.Keeps.ofStore {σ α : Type} {inv : σ → Prop} {nul : Prop} {x : Action σ α}
    (h : Keeps inv (Failure.OfChange nul) x) : Keeps inv (Failure.OfStore nul) x :=
  h.weaken fun _ ↦ .inl

namespace StoreAction

variable {inv : Store → Prop} {allowed : Failure → Prop} {nul : Prop} {α : Type} {p : Path}

/-! ## Runs of the simplest actions -/

theorem run_change {name : SystemError → Failure} {op : Store → Except SystemError Store}
    (s : Store) :
    (change p name op).run s =
      if p.hasNul then (.error .embeddedNul, s)
      else match op s with
        | .ok s' => (.ok (), s')
        | .error e => (.error (name e), s) := by
  unfold change
  split
  · rfl
  · simp only [run_bind, run_get]
    cases op s <;> rfl

theorem run_ask {question : Store → Except Failure α} (s : Store) :
    (ask question).run s = (question s, s) := by
  unfold ask
  rw [run_bind, run_get]
  dsimp only
  cases question s <;> rfl

theorem keeps_ask {question : Store → Except Failure α}
    (h : ∀ s f, question s = .error f → allowed f) : Keeps inv allowed (ask question) := by
  intro s hs
  rw [run_ask]
  cases hanswer : question s with
  | ok => exact hs
  | error f => exact ⟨hs, h s f hanswer⟩

theorem keeps_change {name : SystemError → Failure} {op : Store → Except SystemError Store}
    (hp : p.hasNul → nul) (hname : ∀ e, (name e).isSystem)
    (h : ∀ s s', inv s → p.hasNul = false → op s = .ok s' → inv s') :
    Keeps inv (Failure.OfChange nul) (change p name op) := by
  intro s hs
  rw [run_change]
  split
  · next hnul => exact ⟨hs, Failure.ofChange_embeddedNul (hp hnul)⟩
  · next hnul =>
    cases hop : op s with
    | ok s' => exact h s s' hs (by simpa using hnul) hop
    | error e => exact ⟨hs, .of_system (hname e)⟩

end StoreAction

/-! ## Questions -/

namespace Store

variable {s : Store} {p : Path} {f : Failure} {α β : Type}

theorem isSystem_of_entryAt {last : LastLink} (h : s.entryAt last p = .error f) : f.isSystem := by
  unfold entryAt at h
  split at h
  · cases h
  split at h
  · cases h
  · cases h
  · split at h
    · cases h
    · cases h
      rfl

theorem entryAt_eq_some_iff {last : LastLink} {location : Location} {entry : Entry} :
    s.entryAt last p = .ok (some (location, entry)) ↔
      p.hasNul = false ∧ s.target last p = .ok (.found location entry) := by
  unfold entryAt
  split
  · next hnul => simp [hnul]
  · next hnul =>
    split
    · next htarget => simp [hnul, htarget]
    · next htarget => simp [hnul, htarget]
    · next htarget => split <;> simp [hnul, htarget]

/-- What is found at one place is one entry. -/
theorem WellFormed.eq_of_entryAt (hs : s.WellFormed) {last last' : LastLink} {q : Path}
    {location : Location} {entry entry' : Entry} (h : s.entryAt last p = .ok (some (location, entry)))
    (h' : s.entryAt last' q = .ok (some (location, entry'))) : entry = entry' := by
  rcases sound_of_target hs (entryAt_eq_some_iff.mp h).2,
      sound_of_target hs (entryAt_eq_some_iff.mp h').2 with
    ⟨hentry | ⟨rfl, hremoved, -⟩, hentry' | ⟨rfl, hremoved', -⟩⟩
  · exact Option.some.inj (hentry.symm.trans hentry')
  · simp [hs.not_isRemoved hentry] at hremoved'
  · simp [hs.not_isRemoved hentry'] at hremoved
  · rfl

/-- A symbolic link that is found where a path ends stands there. -/
theorem entry?_of_link (hs : s.WellFormed) {last : LastLink} {location : Location} {text : String}
    (h : s.entryAt last p = .ok (some (location, .link text))) :
    s.entry? location = some (.link text) :=
  (sound_of_target hs (entryAt_eq_some_iff.mp h).2).resolve_right (by simp)

theorem map_eq_error {answer : Except Failure α} {g : α → β} (h : answer.map g = .error f) :
    answer = .error f := by
  cases answer with
  | ok => cases h
  | error =>
    cases h
    rfl

theorem isSystem_of_isDirectory (h : s.isDirectory p = .error f) : f.isSystem :=
  isSystem_of_entryAt (map_eq_error h)

theorem isSystem_of_isFile (h : s.isFile p = .error f) : f.isSystem :=
  isSystem_of_entryAt (map_eq_error h)

theorem isSystem_of_isLink (h : s.isLink p = .error f) : f.isSystem :=
  isSystem_of_entryAt (map_eq_error h)

theorem isSystem_of_exists (h : s.exists? p = .error f) : f.isSystem :=
  isSystem_of_entryAt (map_eq_error h)

theorem isSystem_of_samePlace {q : Path} (h : s.samePlace p q = .error f) : f.isSystem := by
  unfold samePlace at h
  simp only [bind, Except.bind] at h
  split at h
  · next hp =>
    cases h
    exact isSystem_of_entryAt hp
  · split at h
    · cases h
    · split at h
      · next hq =>
        cases h
        exact isSystem_of_entryAt hq
      · split at h <;> cases h

theorem listed_eq_ok_iff {location : Location} : s.listed p = .ok location ↔
    p.hasNul = false ∧ s.target .followed p = .ok (.found location .dir) := by
  unfold listed
  split
  · next hnul => simp [hnul]
  · next hnul =>
    split
    · next t htarget =>
      rw [htarget, Except.ok.injEq, ← directory_eq_ok_iff]
      cases hdirectory : t.directory <;> simp [hnul]
    · next htarget => simp [htarget]

theorem ofChange_of_listed (h : s.listed p = .error f) : f.OfChange p.hasNul := by
  unfold listed at h
  split at h
  · next hnul =>
    cases h
    exact Failure.ofChange_embeddedNul hnul
  split at h
  · split at h
    · cases h
    · cases h
      exact .of_system rfl
  · cases h
    exact .of_system rfl

theorem ofChange_of_list (h : s.list p = .error f) : f.OfChange p.hasNul :=
  ofChange_of_listed (map_eq_error h)

theorem isSystem_of_isFileName {directory : Location} {name : String}
    (h : s.isFileName p directory name = .error f) : f.isSystem := by
  unfold isFileName at h
  split at h
  · cases h
  · split at h
    · cases h
    · cases h
    · cases h
    · cases h
      rfl
  · cases h

theorem outcome_filterAuxM {test : α → Except Failure Bool} (elements done : List α) :
    (∃ a f, test a = .error f ∧ elements.filterAuxM test done = .error f) ∨
      ∃ kept, elements.filterAuxM test done = .ok kept ∧
        ∀ a ∈ kept, a ∈ elements ∧ test a = .ok true ∨ a ∈ done := by
  induction elements generalizing done with
  | nil => exact .inr ⟨done, rfl, fun a ha ↦ .inr ha⟩
  | cons a rest ih =>
    unfold List.filterAuxM
    simp only [bind, Except.bind]
    cases htest : test a with
    | error f => exact .inl ⟨a, f, htest, rfl⟩
    | ok keep =>
      refine (ih (cond keep (a :: done) done)).imp_right ?_
      rintro ⟨kept, hkept, hmem⟩
      refine ⟨kept, hkept, fun b hb ↦ (hmem b hb).elim (fun h ↦ .inl ⟨.tail _ h.1, h.2⟩) fun h ↦ ?_⟩
      cases keep with
      | false => exact .inr h
      | true =>
        rcases List.mem_cons.mp h with rfl | h
        · exact .inl ⟨List.mem_cons_self, htest⟩
        · exact .inr h

/-- Filtering a list ends with the first failure of a test, or with elements that pass it. -/
theorem outcome_filterM (test : α → Except Failure Bool) (elements : List α) :
    (∃ a f, test a = .error f ∧ elements.filterM test = .error f) ∨
      ∃ kept, elements.filterM test = .ok kept ∧ ∀ a ∈ kept, a ∈ elements ∧ test a = .ok true := by
  unfold List.filterM
  simp only [bind, Except.bind]
  rcases outcome_filterAuxM elements [] with ⟨a, f, htest, h⟩ | ⟨kept, h, hmem⟩
  · rw [h]
    exact .inl ⟨a, f, htest, rfl⟩
  · rw [h]
    exact .inr ⟨_, rfl, fun a ha ↦ by simpa using hmem a (by simpa using ha)⟩

theorem ofChange_of_matchingFiles {expression : String}
    (h : s.matchingFiles p expression = .error f) : f.OfChange p.hasNul := by
  have hnames := map_eq_error h
  unfold matchingNames at hnames
  simp only [bind, Except.bind] at hnames
  cases hlisted : s.listed p with
  | error =>
    simp only [hlisted] at hnames
    cases hnames
    exact ofChange_of_listed hlisted
  | ok directory =>
    simp only [hlisted] at hnames
    rcases outcome_filterM (s.isFileName p directory) (s.names directory) with
      ⟨name, f', hname, hf⟩ | ⟨kept, hkept, -⟩
    · simp only [hf] at hnames
      cases hnames
      exact .of_system (isSystem_of_isFileName hname)
    · simp only [hkept] at hnames
      cases hnames

/-- The files that match an expression are named in the directory. -/
theorem listed_of_matchingFiles {expression : String} {files : List Path}
    (h : s.matchingFiles p expression = .ok files) :
    ∃ directory, s.listed p = .ok directory ∧ ∀ file ∈ files, ∃ name ∈ s.names directory,
      file = p.child name ∧ s.isFileName p directory name = .ok true ∧
        NamePattern.matchesName expression name := by
  unfold matchingFiles matchingNames at h
  simp only [bind, Except.bind] at h
  cases hlisted : s.listed p with
  | error => simp [hlisted, Except.map] at h
  | ok directory =>
    simp only [hlisted] at h
    rcases outcome_filterM (s.isFileName p directory) (s.names directory) with
      ⟨name, f, -, hf⟩ | ⟨kept, hkept, hsub⟩
    · simp [hf, Except.map] at h
    · simp only [hkept] at h
      cases h
      refine ⟨directory, rfl, fun file hfile ↦ ?_⟩
      obtain ⟨name, hname, rfl⟩ := List.mem_map.mp hfile
      obtain ⟨hmem, hmatches⟩ := List.mem_filter.mp
        (show name ∈ kept.filter (NamePattern.matchesName expression) by simpa [sortNames] using hname)
      exact ⟨name, (hsub name hmem).1, rfl, (hsub name hmem).2, hmatches⟩

theorem isClean_of_mem_names (hs : s.WellFormed) {directory : Location} {name : String}
    (h : name ∈ s.names directory) : IsClean name := by
  obtain ⟨entry, hentry⟩ := exists_entry_of_mem_names h
  exact (hs.name hentry).isClean

theorem list_eq_ok_iff {names : List String} : s.list p = .ok names ↔
    ∃ directory, s.listed p = .ok directory ∧ s.names directory = names := by
  unfold list
  cases s.listed p <;> simp [Except.map]

theorem isName_of_list (hs : s.WellFormed) {names : List String} (h : s.list p = .ok names)
    {name : String} (hname : name ∈ names) : IsName name := by
  obtain ⟨directory, -, rfl⟩ := list_eq_ok_iff.mp h
  obtain ⟨entry, hentry⟩ := exists_entry_of_mem_names hname
  exact hs.name hentry

theorem isClean_of_mem_list (hs : s.WellFormed) {names : List String} (h : s.list p = .ok names)
    {name : String} (hname : name ∈ names) : IsClean name :=
  (isName_of_list hs h hname).isClean

end Store

/-- A path that could have been read from a text; `nul` allows the character NUL in it. -/
structure Path.Usable (nul : Prop) (p : Path) : Prop where
  proper : p.Proper
  clean : p.hasNul → nul

namespace Path

variable {p : Path} {name : String} {nul : Prop}

theorem Usable.parent (hp : p.Usable nul) : p.parent.Usable nul where
  proper name h := hp.proper name (List.mem_of_mem_dropLast h)
  clean h := by
    obtain ⟨name, hname, hnul⟩ := List.any_eq_true.mp h
    exact hp.clean (List.any_eq_true.mpr ⟨name, List.mem_of_mem_dropLast hname, hnul⟩)

theorem Proper.child (hp : p.Proper) (hname : IsPart name) : (p.child name).Proper := by
  intro n hn
  rcases List.mem_append.mp hn with hn | hn
  · exact hp n hn
  · obtain rfl : n = name := by simpa using hn
    exact hname

theorem hasNul_child (hname : Store.IsClean name) : (p.child name).hasNul = p.hasNul := by
  have := hname.noNul
  simp [hasNul, Path.child, this]

theorem Usable.child (hp : p.Usable nul) (hname : Store.IsClean name) :
    (p.child name).Usable nul where
  proper := hp.proper.child hname.toIsPart
  clean h := hp.clean (by rwa [hasNul_child hname] at h)

theorem hasNul_spelledChild (hname : Store.IsClean name) :
    (p.spelledChild name).hasNul = p.hasNul := by
  unfold Path.spelledChild
  split
  · next h =>
    have := hname.noNul
    have hnil : p.parts = [] := by simp_all
    simp [hasNul, hnil, this]
  · exact hasNul_child hname

theorem Usable.spelledChild (hp : p.Usable nul) (hname : Store.IsClean name) :
    (p.spelledChild name).Usable nul where
  proper := by
    unfold Path.spelledChild
    split
    · intro n hn
      rcases List.mem_pair.mp hn with rfl | rfl
      · exact ⟨by decide, by decide⟩
      · exact hname.toIsPart
    · exact hp.proper.child hname.toIsPart
  clean h := hp.clean (by rwa [hasNul_spelledChild hname] at h)

end Path

/-! ## Actions -/

namespace StoreAction

section Kept

variable {inv : Store → Prop} {nul : Prop} (hinv : Store.Invariant inv)
  {p source destination : Path}
include hinv

theorem keeps_unlink (hp : p.hasNul → nul) : Keeps inv (Failure.OfChange nul) (unlink p) :=
  keeps_change hp (fun _ ↦ rfl) fun _ _ hs _ h ↦ hinv.unlink hs h

theorem keeps_removeDirectory (hp : p.hasNul → nul) :
    Keeps inv (Failure.OfChange nul) (removeDirectory p) :=
  keeps_change hp (fun _ ↦ rfl) fun _ _ hs _ h ↦ hinv.removeDirectory hs h

theorem keeps_makeDirectory (hp : p.Usable nul) :
    Keeps inv (Failure.OfChange nul) (makeDirectory p) :=
  keeps_change hp.clean (fun _ ↦ rfl) fun _ _ hs hnul h ↦ hinv.makeDirectory hs hp.proper hnul h

theorem keeps_makeLink (hp : p.Usable nul) {old : Store} {location : Location} {text : String}
    (hold : inv old) (htext : old.entry? location = some (.link text)) :
    Keeps inv (Failure.OfChange nul) (makeLink text p) :=
  keeps_change hp.clean (fun _ ↦ rfl)
    fun _ _ hs hnul h ↦ hinv.makeLink hs hp.proper hnul hold htext h

theorem keeps_write (hp : p.Usable nul) (update : Bytes → Bytes) :
    Keeps inv (Failure.OfChange nul) (write p update) :=
  keeps_change hp.clean (fun _ ↦ rfl) fun _ _ hs hnul h ↦ hinv.write hs hp.proper hnul h

theorem keeps_unlinkIfThere (hp : p.hasNul → nul) :
    Keeps inv (Failure.OfChange nul) (unlinkIfThere p) := by
  refine (keeps_unlink hinv hp).tryCatch fun f hf ↦ ?_
  split
  · exact keeps_pure _
  · exact keeps_throw hf

omit hinv in
theorem keeps_read (hp : p.hasNul → nul) : Keeps inv (Failure.OfChange nul) (read p) := by
  unfold read
  split
  · next hnul => exact keeps_throw (Failure.ofChange_embeddedNul (hp hnul))
  refine keeps_get_bind fun s _ ↦ ?_
  split
  · exact keeps_pure _
  · exact keeps_throw (.of_system rfl)

theorem keeps_openFile (hp : p.hasNul → nul) :
    Keeps inv (Failure.OfChange nul) (openFile p) := by
  unfold openFile
  split
  · next hnul => exact keeps_throw (Failure.ofChange_embeddedNul (hp hnul))
  refine keeps_get_bind fun s _ ↦ ?_
  split
  · exact (keeps_modify fun _ hs ↦ hinv.openFile hs).bind fun _ ↦ keeps_pure _
  · exact keeps_throw (.of_system rfl)

/-! ### Missing parents -/

omit hinv in
theorem keeps_keepDirectory {f : Failure} (hf : f.OfChange nul) :
    Keeps inv (Failure.OfChange nul) (makeDirectoryAndParents.keepDirectory p f) := by
  unfold makeDirectoryAndParents.keepDirectory
  split
  · exact keeps_throw hf
  · refine (keeps_ask fun _ _ h ↦ .of_system (Store.isSystem_of_isDirectory h)).bind fun there ↦ ?_
    split
    · exact keeps_throw hf
    · exact keeps_pure _

theorem keeps_makeUnlessThere (hp : p.Usable nul) :
    Keeps inv (Failure.OfChange nul) (makeDirectoryAndParents.makeUnlessThere p) := by
  refine (keeps_makeDirectory hinv hp).tryCatch fun f hf ↦ ?_
  split
  · exact keeps_throw hf
  · exact keeps_keepDirectory hf

theorem keeps_makeDirectoryAndParents (hp : p.Usable nul) (parents : ℕ) :
    Keeps inv (Failure.OfChange nul) (makeDirectoryAndParents p parents) := by
  induction parents generalizing p with
  | zero => exact keeps_makeUnlessThere hinv hp
  | succ parents ih =>
    refine (keeps_makeDirectory hinv hp).tryCatch fun f hf ↦ ?_
    split
    · split
      · exact keeps_throw hf
      · exact (ih hp.parent).bind fun _ ↦ keeps_makeUnlessThere hinv hp
    · exact keeps_keepDirectory hf

theorem keeps_makeDirectoriesFrom (keep : Bool) (hp : p.Usable nul)
    (parents : ℕ) : Keeps inv (Failure.OfChange nul) (makeDirectoriesFrom keep p parents) := by
  have hlast {p : Path} (hp : p.Usable nul) :
      Keeps inv (Failure.OfChange nul) (makeDirectoriesFrom.makeLast keep p) := by
    refine (keeps_makeDirectory hinv hp).tryCatch fun f hf ↦ ?_
    split
    · exact keeps_throw hf
    · refine keeps_get_bind fun s _ ↦ ?_
      split
      · exact keeps_throw hf
      · exact keeps_pure _
  induction parents generalizing p with
  | zero => exact hlast hp
  | succ parents ih =>
    refine keeps_get_bind fun s _ ↦ ?_
    split
    · refine Keeps.bind ?_ fun _ ↦ hlast hp
      refine (ih hp.parent).tryCatch fun f hf ↦ ?_
      split
      · exact keeps_pure _
      · exact keeps_throw hf
    · exact hlast hp

/-! ### Whole directories -/

theorem keeps_removeTree (hp : p.hasNul → nul) :
    Keeps inv (Failure.OfChange nul) (removeTree p) := by
  unfold removeTree
  split
  · next hnul => exact keeps_throw (Failure.ofChange_embeddedNul (hp hnul))
  refine keeps_get_bind fun s _ ↦ ?_
  split
  · exact keeps_throw (.of_system rfl)
  · exact keeps_throw (.of_system rfl)
  · exact keeps_throw (.of_system rfl)
  · exact keeps_throw (.of_system rfl)
  · exact (keeps_modify fun _ hs ↦ hinv.clear hs).bind fun _ ↦ keeps_removeDirectory hinv hp

theorem keeps_copyFile (hsource : source.hasNul → nul) (hdestination : destination.Usable nul) :
    Keeps inv (Failure.OfChange nul) (copyFile source destination) := by
  refine keeps_get_bind fun s _ ↦ ?_
  split
  · exact keeps_throw (.of_system rfl)
  · exact (keeps_read hsource).bind fun _ ↦ keeps_write hinv hdestination _

/-- The copied symbolic links stood in an earlier store. -/
theorem keeps_copyTreeFrom (hsource : source.hasNul → nul) (hdestination : destination.Usable nul) (depth : ℕ) :
    Keeps inv (Failure.OfStore nul) (copyTreeFrom depth source destination) := by
  induction depth generalizing source destination with
  | zero =>
    unfold copyTreeFrom
    exact keeps_throw (.inr rfl)
  | succ depth ih =>
    unfold copyTreeFrom
    refine (keeps_ask fun _ _ h ↦ .inl ((Store.ofChange_of_listed h).mono hsource)).bind
      fun directory ↦ ?_
    refine keeps_get_bind fun s hs ↦ ?_
    refine (keeps_makeDirectoriesFrom hinv false hdestination _).ofStore.bind fun _ ↦ ?_
    refine Keeps.bind (keeps_mapM ?_) fun failures ↦ ?_
    · rintro ⟨name, entry⟩ hmem
      obtain ⟨other, hname, heq⟩ := List.mem_map.mp hmem
      obtain ⟨rfl, rfl⟩ := Prod.mk.inj heq
      have hclean := Store.isClean_of_mem_names (hinv.wellFormed hs) hname
      have hcopy := hdestination.spelledChild hclean
      have horigin : (source.spelledChild other).hasNul → nul := by
        rwa [Path.hasNul_spelledChild hclean]
      refine Keeps.tryCatch (A := Failure.OfStore nul) ?_ fun f hf ↦ ?_
      · refine Keeps.bind ?_ fun _ ↦ keeps_pure _
        unfold copyName
        split
        · exact ih horigin hcopy
        · next hentry => exact (keeps_makeLink hinv hcopy hs hentry).ofStore
        · exact (keeps_copyFile hinv horigin hcopy).ofStore
      · unfold collected
        split
        · exact keeps_pure _
        · split
          · exact keeps_pure _
          · exact keeps_throw hf
    · split
      · exact keeps_throw (.inl (.of_system rfl))
      · exact keeps_pure _

/-! ### Moves -/

omit hinv in
theorem keeps_absolute : Keeps inv (Failure.OfChange nul) (absolute p) := by
  unfold absolute
  split
  · exact keeps_pure _
  · refine Keeps.bind ?_ fun _ ↦ keeps_pure _
    refine keeps_get_bind fun s _ ↦ ?_
    dsimp only
    split
    · exact keeps_throw (.of_system rfl)
    · exact keeps_pure _

omit hinv in
theorem keeps_liesWithin {other : Path} :
    Keeps inv (Failure.OfChange nul) (liesWithin p other) :=
  keeps_absolute.bind fun _ ↦ keeps_absolute.bind fun _ ↦ keeps_pure _

theorem keeps_moveByCopy (hsource : source.hasNul → nul) (hdestination : destination.Usable nul) :
    Keeps inv (Failure.OfStore nul) (moveByCopy source destination) := by
  refine keeps_get_bind fun s hs ↦ ?_
  split
  · next hentry =>
    have htext := Store.entry?_of_link (hinv.wellFormed hs) hentry
    refine Keeps.ofStore ?_
    refine (keeps_makeLink hinv hdestination hs htext).bind fun _ ↦ ?_
    exact keeps_unlink hinv hsource
  · refine keeps_get_bind fun s _ ↦ ?_
    split
    · refine keeps_liesWithin.ofStore.bind fun within ↦ ?_
      split
      · exact keeps_throw (.inl (.of_system rfl))
      · refine Keeps.bind ?_ fun _ ↦ (keeps_removeTree hinv hsource).ofStore
        exact keeps_get_bind fun s _ ↦ keeps_copyTreeFrom hinv hsource hdestination _
    · refine Keeps.ofStore ?_
      refine (keeps_copyFile hinv hsource hdestination).bind fun _ ↦ ?_
      exact keeps_unlink hinv hsource

theorem keeps_moveEntry (hsource : source.hasNul → nul) (hdestination : destination.Usable nul) :
    Keeps inv (Failure.OfStore nul) (moveEntry source destination) := by
  unfold moveEntry
  split
  · next hnul =>
    refine keeps_throw (.inl (Failure.ofChange_embeddedNul ?_))
    exact (Bool.or_eq_true _ _ ▸ hnul).elim hsource hdestination.clean
  · next hnul =>
    refine ensures_get_bind fun s hs ↦ ?_
    split
    · next s' hrename =>
      exact ensures_set fun _ _ ↦ hinv.rename hs hdestination.proper (by simp_all) hrename
    · exact Ensures.weaken (keeps_moveByCopy hinv hsource hdestination)
        (fun _ h ↦ h ▸ hs) (fun _ _ h ↦ h) fun _ _ h ↦ h

end Kept

end StoreAction

end DeferredOps
