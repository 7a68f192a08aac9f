import DeferredOps.Proofs.Store.Transfer

/-!
# Files that are open meanwhile

Which files are open matters only to their readers. Every other action on a store does the same
whatever is open, and what is open stays as it is: the copies that a move makes are new files, so that
no content that someone reads is written over.
-/

namespace DeferredOps

open Action

namespace Store

/-- The same store with other files open. -/
def withOpened (s : Store) (opened : List (ℕ × Bytes)) : Store :=
  { s with opened }

variable (s : Store) (opened : List (ℕ × Bytes)) {p : Path}

/-! ## Questions -/

@[simp]
theorem entry?_withOpened (location : Location) :
    Store.entry? (s.withOpened opened) location = s.entry? location := rfl

@[simp]
theorem names_withOpened (directory : Location) :
    (s.withOpened opened).names directory = s.names directory := rfl

theorem walkNames_withOpened (last : LastLink)
    (follow : LastLink → Location → List String → Except SystemError Target)
    (directory : Location) (names : List String) :
    (s.withOpened opened).walkNames last follow directory names =
      s.walkNames last follow directory names := by
  induction names generalizing directory with
  | nil => rfl
  | cons name rest ih => simp only [walkNames, ih, entry?_withOpened]

theorem walk_withOpened (last : LastLink) (links : ℕ) :
    (s.withOpened opened).walk last links = s.walk last links := by
  induction links generalizing last with
  | zero =>
    funext directory names
    exact walkNames_withOpened s opened last _ directory names
  | succ links ih =>
    funext directory names
    simp only [walk, ih, walkNames_withOpened]

@[simp]
theorem target_withOpened (last : LastLink) (p : Path) :
    (s.withOpened opened).target last p = s.target last p := by
  simp only [target, walk_withOpened]
  rfl

@[simp]
theorem slot_withOpened (p : Path) : (s.withOpened opened).slot p = s.slot p := by
  simp only [slot, walk_withOpened]
  rfl

@[simp]
theorem entryAt_withOpened (last : LastLink) (p : Path) :
    (s.withOpened opened).entryAt last p = s.entryAt last p := by
  simp [entryAt]

@[simp]
theorem isDirectory_withOpened (p : Path) :
    (s.withOpened opened).isDirectory p = s.isDirectory p := by
  simp [isDirectory]

@[simp]
theorem isFile_withOpened (p : Path) : (s.withOpened opened).isFile p = s.isFile p := by
  simp [isFile]

@[simp]
theorem isLink_withOpened (p : Path) : (s.withOpened opened).isLink p = s.isLink p := by
  simp [isLink]

@[simp]
theorem exists?_withOpened (p : Path) : (s.withOpened opened).exists? p = s.exists? p := by
  simp [exists?]

@[simp]
theorem samePlace_withOpened (p q : Path) :
    (s.withOpened opened).samePlace p q = s.samePlace p q := by
  simp [samePlace]

@[simp]
theorem listed_withOpened (p : Path) : (s.withOpened opened).listed p = s.listed p := by
  simp [listed]

@[simp]
theorem list_withOpened (p : Path) : (s.withOpened opened).list p = s.list p := by
  unfold list
  rw [listed_withOpened]
  rfl

@[simp]
theorem matchingFiles_withOpened (p : Path) (expression : String) :
    (s.withOpened opened).matchingFiles p expression = s.matchingFiles p expression := by
  have hfile : (s.withOpened opened).isFileName p = s.isFileName p := by
    funext directory name
    simp [isFileName]
  simp [matchingFiles, matchingNames, hfile]

@[simp]
theorem read_withOpened (p : Path) : (s.withOpened opened).read p = s.read p := by
  simp [read, file]

/-! ## Single changes -/

theorem unlink_withOpened (p : Path) :
    (s.withOpened opened).unlink p = (s.unlink p).map (·.withOpened opened) := by
  unfold unlink
  simp only [bind, Except.bind, slot_withOpened]
  rcases s.slot p with _ | ⟨⟨directory, name⟩ | _⟩
  · rfl
  · simp only [entry?_withOpened]
    rcases s.entry? (directory ++ [name]) with _ | _ | _ <;> rfl
  all_goals rfl

theorem removeDirectory_withOpened (p : Path) :
    (s.withOpened opened).removeDirectory p = (s.removeDirectory p).map (·.withOpened opened) := by
  have hempty (l : Location) : (s.withOpened opened).isEmptyDir l = s.isEmptyDir l := rfl
  unfold removeDirectory
  simp only [bind, Except.bind, slot_withOpened]
  rcases s.slot p with _ | ⟨⟨directory, name⟩ | _⟩
  · rfl
  · simp only [entry?_withOpened, hempty]
    rcases s.entry? (directory ++ [name]) with _ | _ | _
    · rfl
    · dsimp only
      split <;> rfl
    all_goals rfl
  all_goals rfl

theorem create_withOpened (p : Path) (entry : Entry) :
    (s.withOpened opened).create p entry = (s.create p entry).map (·.withOpened opened) := by
  unfold create
  simp only [bind, Except.bind, slot_withOpened]
  rcases s.slot p with _ | ⟨⟨directory, name⟩ | _⟩
  · rfl
  · simp only [entry?_withOpened]
    rcases s.entry? (directory ++ [name]) with _ | _ <;> rfl
  all_goals rfl

theorem rename_withOpened (source target : Path) :
    (s.withOpened opened).rename source target =
      (s.rename source target).map (·.withOpened opened) := by
  have hreplace (entry : Entry) (l : Location) (old : Entry) :
      (s.withOpened opened).checkReplace entry l old = s.checkReplace entry l old := rfl
  have hcarry (l l' : Location) : (s.withOpened opened).carryChecked l l' =
      (s.carryChecked l l').map (·.withOpened opened) := by
    simp only [carryChecked, entry?_withOpened, hreplace]
    rcases s.entry? l with _ | entry
    · rfl
    dsimp only
    split
    · rfl
    split
    · rfl
    rcases s.entry? l' with _ | old
    · rfl
    dsimp only
    split
    · rfl
    · rcases s.checkReplace entry l' old with _ | _ <;> rfl
  unfold rename
  simp only [bind, Except.bind, slot_withOpened, hcarry]
  rcases s.slot source with _ | slot
  · rfl
  rcases s.slot target with _ | slot'
  · rfl
  dsimp only
  split <;> rfl

/-- Where a file that is open is written to, its reader sees it. -/
theorem write_withOpened (p : Path) (change : Bytes → Bytes) :
    ∃ opened', (s.withOpened opened).write p change =
      (s.write p change).map (·.withOpened opened') := by
  unfold write
  simp only [bind, Except.bind, target_withOpened]
  rcases s.target .written p with _ | ⟨⟨l, _ | ⟨id, content⟩ | _⟩ | _⟩
  · exact ⟨opened, rfl⟩
  · exact ⟨opened, rfl⟩
  · exact ⟨_, rfl⟩
  · exact ⟨opened, rfl⟩
  · exact ⟨opened, rfl⟩

end Store

namespace StoreAction

open Store

variable {α β : Type} {p source destination : Path}

/-! ## Actions that are unaware of open files -/

/-- The action ends in the same way whatever is open. -/
def Unaware (x : StoreAction α) : Prop :=
  ∀ s opened, ∃ opened', x.run (s.withOpened opened) =
    ((x.run s).1, (x.run s).2.withOpened opened')

theorem unaware_pure (a : α) : Unaware (pure a) :=
  fun _ opened ↦ ⟨opened, rfl⟩

theorem unaware_throw (f : Failure) : Unaware (throw f : StoreAction α) :=
  fun _ opened ↦ ⟨opened, rfl⟩

theorem Unaware.bind {x : StoreAction α} {next : α → StoreAction β} (hx : Unaware x)
    (hnext : ∀ a, Unaware (next a)) : Unaware (x >>= next) := by
  intro s opened
  obtain ⟨opened', hrun⟩ := hx s opened
  rw [run_bind, run_bind, hrun]
  rcases x.run s with ⟨f | a, t⟩
  · exact ⟨opened', rfl⟩
  · exact hnext a t opened'

theorem Unaware.tryCatch {x : StoreAction α} {handler : Failure → StoreAction α} (hx : Unaware x)
    (hhandler : ∀ f, Unaware (handler f)) : Unaware (tryCatch x handler) := by
  intro s opened
  obtain ⟨opened', hrun⟩ := hx s opened
  rw [run_tryCatch, run_tryCatch, hrun]
  rcases x.run s with ⟨f | a, t⟩
  · exact hhandler f t opened'
  · exact ⟨opened', rfl⟩

/-- The store is read for something that does not depend on what is open. -/
theorem unaware_get_bind {next : Store → StoreAction α}
    (hsame : ∀ s opened, next (s.withOpened opened) = next s) (hnext : ∀ s, Unaware (next s)) :
    Unaware (get >>= next) := by
  intro s opened
  rw [run_bind, run_bind, run_get, run_get]
  dsimp only
  rw [hsame]
  exact hnext s s opened

theorem unaware_ask {question : Store → Except Failure α}
    (hsame : ∀ s opened, question (s.withOpened opened) = question s) : Unaware (ask question) := by
  refine unaware_get_bind (fun s opened ↦ by rw [hsame]) fun s ↦ ?_
  split
  · exact unaware_pure _
  · exact unaware_throw _

theorem unaware_change {name : SystemError → Failure} {op : Store → Except SystemError Store}
    (h : ∀ s opened, ∃ opened', op (s.withOpened opened) = (op s).map (·.withOpened opened')) :
    Unaware (change p name op) := by
  intro s opened
  obtain ⟨opened', hop⟩ := h s opened
  rw [run_change, run_change, hop]
  split
  · exact ⟨opened, rfl⟩
  · cases op s
    · exact ⟨opened, rfl⟩
    · exact ⟨opened', rfl⟩

theorem unaware_mapM {γ : Type} {body : γ → StoreAction α} (h : ∀ c, Unaware (body c))
    (elements : List γ) : Unaware (elements.mapM body) := by
  induction elements with
  | nil =>
    rw [List.mapM_nil]
    exact unaware_pure _
  | cons c rest ih =>
    rw [List.mapM_cons]
    exact (h c).bind fun a ↦ ih.bind fun values ↦ unaware_pure _

theorem unaware_unlink (p : Path) : Unaware (unlink p) :=
  unaware_change fun s opened ↦ ⟨opened, s.unlink_withOpened opened p⟩

theorem unaware_unlinkIfThere (p : Path) : Unaware (unlinkIfThere p) := by
  refine (unaware_unlink p).tryCatch fun f ↦ ?_
  split
  · exact unaware_pure _
  · exact unaware_throw _

theorem unaware_removeDirectory (p : Path) : Unaware (removeDirectory p) :=
  unaware_change fun s opened ↦ ⟨opened, s.removeDirectory_withOpened opened p⟩

theorem unaware_makeDirectory (p : Path) : Unaware (makeDirectory p) :=
  unaware_change fun s opened ↦ ⟨opened, s.create_withOpened opened p _⟩

theorem unaware_makeLink (text : String) (p : Path) : Unaware (makeLink text p) :=
  unaware_change fun s opened ↦ ⟨opened, s.create_withOpened opened p _⟩

theorem unaware_write (p : Path) (update : Bytes → Bytes) : Unaware (write p update) :=
  unaware_change fun s opened ↦ s.write_withOpened opened p update

theorem unaware_read (p : Path) : Unaware (read p) := by
  unfold read
  split
  · exact unaware_throw _
  refine unaware_get_bind (fun s opened ↦ by simp) fun s ↦ ?_
  split
  · exact unaware_pure _
  · exact unaware_throw _

theorem unaware_keepDirectory (p : Path) (f : Failure) :
    Unaware (makeDirectoryAndParents.keepDirectory p f) := by
  have hrest : Unaware (do if !(← ask (·.isDirectory p)) then throw f) := by
    refine (unaware_ask fun s opened ↦ s.isDirectory_withOpened opened p).bind fun there ↦ ?_
    split
    · exact unaware_throw _
    · exact unaware_pure _
  unfold makeDirectoryAndParents.keepDirectory
  split
  · exact (unaware_throw _).bind fun _ ↦ hrest
  · exact hrest

theorem unaware_makeUnlessThere (p : Path) : Unaware (makeDirectoryAndParents.makeUnlessThere p) := by
  refine (unaware_makeDirectory p).tryCatch fun f ↦ ?_
  split
  · exact unaware_throw _
  · exact unaware_keepDirectory p _

theorem unaware_makeDirectoryAndParents (p : Path) (parents : ℕ) :
    Unaware (makeDirectoryAndParents p parents) := by
  induction parents generalizing p with
  | zero => exact unaware_makeUnlessThere p
  | succ parents ih =>
    refine (unaware_makeDirectory p).tryCatch fun f ↦ ?_
    split
    · split
      · exact unaware_throw _
      · exact (ih p.parent).bind fun _ ↦ unaware_makeUnlessThere p
    · exact unaware_keepDirectory p _

theorem unaware_makeLast (keep : Bool) (p : Path) : Unaware (makeDirectoriesFrom.makeLast keep p) := by
  refine (unaware_makeDirectory p).tryCatch fun f ↦ ?_
  have hrest : Unaware (do if !keep || !Store.cautious ((← get).isDirectory p) then throw f) := by
    refine unaware_get_bind (fun s opened ↦ by simp) fun s ↦ ?_
    split
    · exact unaware_throw _
    · exact unaware_pure _
  split
  · exact (unaware_throw _).bind fun _ ↦ hrest
  · exact hrest

theorem unaware_makeDirectoriesFrom (keep : Bool) (p : Path) (parents : ℕ) :
    Unaware (makeDirectoriesFrom keep p parents) := by
  induction parents generalizing p with
  | zero => exact unaware_makeLast keep p
  | succ parents ih =>
    refine unaware_get_bind (fun s opened ↦ by simp) fun s ↦ ?_
    split
    · refine Unaware.bind ((ih p.parent).tryCatch fun f ↦ ?_) fun _ ↦ unaware_makeLast keep p
      split
      · exact unaware_pure _
      · exact unaware_throw _
    · exact unaware_makeLast keep p

theorem unaware_removeTree (p : Path) : Unaware (removeTree p) := by
  have hclear (l : Location) : Unaware (modify (·.clear l)) := fun s opened ↦ ⟨opened, rfl⟩
  unfold removeTree
  split
  · exact unaware_throw _
  refine unaware_get_bind (fun s opened ↦ by simp) fun s ↦ ?_
  split
  · exact unaware_throw _
  · exact unaware_throw _
  · exact unaware_throw _
  · exact unaware_throw _
  · exact (hclear _).bind fun _ ↦ unaware_removeDirectory p

theorem unaware_copyFile (source destination : Path) : Unaware (copyFile source destination) := by
  refine unaware_get_bind (fun s opened ↦ by simp) fun s ↦ ?_
  split
  · exact unaware_throw _
  · exact (unaware_read source).bind fun content ↦ unaware_write destination _

theorem unaware_copyTreeFrom (depth : ℕ) (source destination : Path) :
    Unaware (copyTreeFrom depth source destination) := by
  induction depth generalizing source destination with
  | zero => exact unaware_throw _
  | succ depth ih =>
    refine (unaware_ask fun s opened ↦ s.listed_withOpened opened source).bind fun directory ↦ ?_
    refine unaware_get_bind (fun s opened ↦ rfl) fun s ↦ ?_
    refine (unaware_makeDirectoriesFrom false destination _).bind fun _ ↦ ?_
    refine (unaware_mapM (fun found ↦ ?_) _).bind fun failures ↦ ?_
    · refine Unaware.tryCatch (Unaware.bind ?_ fun _ ↦ unaware_pure _) fun f ↦ ?_
      · unfold copyName
        split
        · exact ih _ _
        · exact unaware_makeLink _ _
        · exact unaware_copyFile _ _
      · unfold collected
        split
        · exact unaware_pure _
        · split
          · exact unaware_pure _
          · exact unaware_throw _
    · split
      · exact unaware_throw _
      · exact unaware_pure _

theorem unaware_absolute (p : Path) : Unaware (absolute p) := by
  unfold absolute
  split
  · exact unaware_pure _
  refine Unaware.bind (unaware_get_bind (fun s opened ↦ rfl) fun s ↦ ?_) fun _ ↦ unaware_pure _
  dsimp only
  split
  · exact unaware_throw _
  · exact unaware_pure _

theorem unaware_moveByCopy (source destination : Path) : Unaware (moveByCopy source destination) := by
  refine unaware_get_bind (fun s opened ↦ by simp) fun s ↦ ?_
  split
  · exact (unaware_makeLink _ _).bind fun _ ↦ unaware_unlink _
  refine unaware_get_bind (fun s opened ↦ by simp) fun s ↦ ?_
  split
  · refine Unaware.bind ((unaware_absolute _).bind fun _ ↦ (unaware_absolute _).bind fun _ ↦
      unaware_pure _) fun within ↦ ?_
    have hcopy : Unaware (do copyTree source destination; removeTree source) :=
      Unaware.bind (unaware_get_bind (fun s opened ↦ rfl) fun s ↦ unaware_copyTreeFrom _ _ _)
        fun _ ↦ unaware_removeTree _
    split
    · exact (unaware_throw _).bind fun _ ↦ hcopy
    · exact hcopy
  · exact (unaware_copyFile _ _).bind fun _ ↦ unaware_unlink _

theorem unaware_moveEntry (source destination : Path) : Unaware (moveEntry source destination) := by
  unfold moveEntry
  split
  · exact unaware_throw _
  intro s opened
  rw [run_bind, run_bind, run_get, run_get]
  dsimp only
  rw [rename_withOpened]
  cases s.rename source destination with
  | ok t => exact ⟨opened, rfl⟩
  | error e => exact unaware_moveByCopy source destination s opened

/-! ## Actions that leave open files alone -/

/-- The action ends in the same way whatever is open, and what is open stays as it is. -/
structure Calm (x : StoreAction Unit) : Prop where
  unaware : Unaware x
  wellFormed {s} (hs : s.WellFormed) : (x.run s).2.WellFormed
  opened {s} (hs : s.WellFormed) : (x.run s).2.opened = s.opened

theorem opened_of_unlink {s s' : Store} (h : s.unlink p = .ok s') : s'.opened = s.opened := by
  obtain ⟨d, n, e, -, -, -, rfl⟩ := unlink_eq_ok_iff.mp h
  rfl

theorem opened_run_unlink (s : Store) (p : Path) : ((unlink p).run s).2.opened = s.opened := by
  rw [run_unlink]
  split
  · rfl
  · split
    · next hunlink => exact opened_of_unlink hunlink
    · rfl

theorem opened_run_removeDirectory (s : Store) (p : Path) :
    ((removeDirectory p).run s).2.opened = s.opened := by
  rw [run_removeDirectory]
  split
  · rfl
  · split
    · next hremove =>
      obtain ⟨d, n, -, -, -, rfl⟩ := removeDirectory_ok hremove
      rfl
    · rfl

theorem RemovalEnds.opened {s s' : Store} {result : Except Failure Unit}
    (h : RemovalEnds s p result s') : s'.opened = s.opened := by
  cases h with
  | refused => rfl
  | emptied => rfl
  | @removed l _ _ hremove =>
    obtain ⟨d, n, -, -, -, rfl⟩ := removeDirectory_ok hremove
    rfl

/-- A move of an entry leaves open files alone: what could be written over would be renamed. -/
theorem MoveEnds.opened {s s' : Store} {result : Except Failure Unit} (hs : s.WellFormed)
    (hdestination : destination.Proper) (h : MoveEnds s source destination result s') :
    s'.opened = s.opened := by
  cases h with
  | refused => rfl
  | renamed hclean hrename =>
    obtain ⟨d, n, d', n', -, hslot, hcarry⟩ := rename_ok hrename
    have hname := isName_of_slot hdestination hclean hslot
    rcases carryChecked_ok hs (by simp) (dir_of_slot hs hslot) hname hcarry with
      ⟨rfl, -⟩ | ⟨-, rfl, -⟩ <;> rfl
  | @linked _ _ made _ _ _ _ hmake hremove =>
    have hopened := opened_run_unlink made source
    rw [hremove] at hopened
    obtain ⟨d, n, -, -, rfl⟩ := create_eq_ok_iff.mp hmake
    exact hopened
  | copyFailed _ _ _ _ _ hunfinished =>
    cases hunfinished with
    | unmade hmade => exact hmade.opened
    | broken hstarts hcopying => exact hcopying.opened.trans hstarts.parents.opened
  | copied _ _ _ _ hstarts hcopying _ _ hremove =>
    exact hremove.opened.trans (hcopying.opened.trans hstarts.parents.opened)
  | copiedFile hrename hfound hwrite =>
    obtain ⟨t, ht⟩ := exists_rename_of_file hs hfound hwrite
    exact absurd ht (hrename t)

theorem calm_unlink (p : Path) : Calm (unlink p) where
  unaware := unaware_unlink p
  wellFormed hs := (keeps_unlink invariant_wellFormed fun _ ↦ trivial).state hs
  opened _ := opened_run_unlink _ p

theorem calm_unlinkIfThere (p : Path) : Calm (unlinkIfThere p) where
  unaware := unaware_unlinkIfThere p
  wellFormed hs := (keeps_unlinkIfThere invariant_wellFormed fun _ ↦ trivial).state hs
  opened {s} _ := by
    rcases hrun : (unlinkIfThere p).run s with ⟨f | ⟨⟩, t⟩
    · rw [unlinkIfThere_error hrun]
    · rcases (unlinkIfThere_ok hrun).2 with hunlink | ⟨rfl, -⟩
      · exact opened_of_unlink hunlink
      · rfl

theorem calm_removeDirectory (p : Path) : Calm (removeDirectory p) where
  unaware := unaware_removeDirectory p
  wellFormed hs := (keeps_removeDirectory invariant_wellFormed fun _ ↦ trivial).state hs
  opened _ := opened_run_removeDirectory _ p

theorem calm_removeTree (p : Path) : Calm (removeTree p) where
  unaware := unaware_removeTree p
  wellFormed hs := (keeps_removeTree invariant_wellFormed fun _ ↦ trivial).state hs
  opened {s} _ := by
    have hends : Outcome _ _ ((removeTree p).run s) := ensures_removeTree s p s rfl
    rcases hrun : (removeTree p).run s with ⟨f | ⟨⟩, t⟩ <;> rw [hrun] at hends
    · exact RemovalEnds.opened hends
    · exact RemovalEnds.opened hends

theorem calm_ensureDirectory (hp : p.Proper) : Calm (ensureDirectory p) where
  unaware := unaware_makeDirectoryAndParents p _
  wellFormed hs := (madeParents_of_ensureDirectory hs hp).wellFormed
  opened hs := (madeParents_of_ensureDirectory hs hp).opened

theorem calm_moveEntry (source : Path) (hdestination : destination.Proper) :
    Calm (moveEntry source destination) where
  unaware := unaware_moveEntry source destination
  wellFormed hs := (keeps_moveEntry invariant_wellFormed (fun _ ↦ trivial)
    ⟨hdestination, fun _ ↦ trivial⟩).state hs
  opened hs := (moveEnds hs hdestination).opened hs hdestination

end StoreAction

end DeferredOps
