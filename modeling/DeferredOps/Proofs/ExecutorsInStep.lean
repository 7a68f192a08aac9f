import DeferredOps.Proofs.Merging
import DeferredOps.Proofs.RunsAlike

/-!
# Executors in step

Two executors do the same instruction in two working directories. Every question, every removal and
every move is about paths with the same names below the one and the other, so their runs stay alike.
-/

namespace DeferredOps

open Action

/-! ## Names that are asked for -/

theorem Action.AnswersAlike.and {σ α : Type} {e : Excuse σ} {V : α → α → Prop} {C : α → Prop}
    {answer answer' : Except Failure α} (h : AnswersAlike e V answer answer')
    (hC : ∀ a, answer = .ok a → C a) : AnswersAlike e (fun a b ↦ V a b ∧ C a) answer answer' := by
  cases h with
  | left h => exact .left h
  | right h => exact .right h
  | ok h => exact .ok ⟨h, hC _ rfl⟩
  | error h => exact .error h

namespace Store

variable {s : Store} {p : Path} {names : List String} {name expression : String}

theorem isName_of_matchingNames (hs : s.WellFormed)
    (hlinks : ∀ directory, s.listed p = .ok directory → s.NoLinks directory)
    (h : s.matchingNames p expression = .ok names) (hname : name ∈ names) : IsName name := by
  rw [matchingNames_eq hlinks] at h
  cases hlisted : s.listed p with
  | error f => simp [hlisted, Except.map] at h
  | ok directory =>
    rw [hlisted] at h
    cases h
    have hmem := (List.mergeSort_perm _ _).mem_iff.mp hname
    exact isName_of_list hs (by rw [list, hlisted]; rfl)
      (List.mem_of_mem_filter (List.mem_of_mem_filter hmem))

end Store

namespace Executor

variable {w w' : Path} {names other : List String} {last name : String}

/-- A text names something below the directory that it is resolved in: it is relative and has no
`..` in it. -/
structure IsInner (operand : String) : Prop where
  relative : (Path.ofString operand).anchor = .here
  upless : ".." ∉ (Path.ofString operand).parts

theorem resolve_of_isInner {operand : String} (h : IsInner operand) (w : Path) :
    Path.resolve operand w = w.extend (Path.ofString operand).parts := by
  simp [Path.resolve, Path.below, Path.isAbsolute, h.relative, Path.extend]

theorem plainNames_of_isInner {operand : String} (h : IsInner operand) :
    PlainNames (Path.ofString operand).parts := fun name hname ↦
  ⟨Path.proper_ofString operand name hname, Path.ne_dot_of_mem_ofString hname,
    fun heq ↦ h.upless (heq ▸ hname)⟩

theorem parent_extend (w : Path) (names : List String) (last : String) :
    (w.extend (names ++ [last])).parent = w.extend names := by
  simp [Path.parent, Path.extend]

theorem within_extend : within (w.extend other) (w.extend (names ++ [last])) =
    w.extend (other ++ [last]) := by
  rw [← Path.extend_child, within_child, Path.extend_child]

/-! ## Questions and single actions -/

section Steps

open RunAction

variable {known : List (List String)} {left right : Failure → Prop}

/-- The two runs may be excused where the path of these names is too long. -/
abbrev ExcusedAt (w w' : Path) (left right : Failure → Prop) (names : List String) : Prop :=
  (⟨Run.Hindered, left, right⟩ : Excuse Run).Allows (w.extend names) (w'.extend names)

theorem ExcusedAt.stores (he : ExcusedAt w w' left right names) :
    (Excuse.failures left right : Excuse Store).Allows (w.extend names) (w'.extend names) :=
  ⟨he.left, he.right⟩

theorem alongside_kind {mode : Store.LastLink} {test : Entry → Bool}
    (htest : ∀ entry : Entry, test entry.form = test entry) (hnames : PlainNames names)
    (he : ExcusedAt w w' left right names) :
    GoAlike w w' known left right
      (ask fun s ↦ (s.entryAt mode (w.extend names)).map (Store.answers test))
      (ask fun s ↦ (s.entryAt mode (w'.extend names)).map (Store.answers test))
      (fun a b r r' ↦ a = b ∧ Run.Alike w w' (names :: known) r r') :=
  (alongside_ask fun _ _ hst ↦ hst.kind htest hnames he).weaken (fun _ _ hr ↦ hr)
    (fun _ _ _ _ ⟨⟨hsame, hreached⟩, hr⟩ ↦ ⟨hsame, hr.know hreached⟩) fun _ _ _ _ hr ↦ hr

theorem alongside_isDirectory (hnames : PlainNames names) (he : ExcusedAt w w' left right names) :
    GoAlike w w' known left right
      (ask (·.isDirectory (w.extend names))) (ask (·.isDirectory (w'.extend names)))
      (fun a b r r' ↦ a = b ∧ Run.Alike w w' (names :: known) r r') :=
  alongside_kind Entry.isDir_form hnames he

theorem alongside_exists (hnames : PlainNames names) (he : ExcusedAt w w' left right names) :
    GoAlike w w' known left right
      (ask (·.exists? (w.extend names))) (ask (·.exists? (w'.extend names)))
      (fun a b r r' ↦ a = b ∧ Run.Alike w w' (names :: known) r r') :=
  alongside_kind (fun _ ↦ rfl) hnames he

/-- Actions that go in step and return nothing. -/
theorem inStep_onStore {same : Failure → Failure → Prop} {action action' : StoreAction Unit}
    (h : StoreAction.InStep w w' left right same action action')
    (hsame : ∀ f g, same f g → f.Akin g) :
    InStep w w' known left right (onStore action) (onStore action') :=
  (alongside_onStore (V := (· = ·)) (h.weaken (fun _ _ hst ↦ hst) (fun _ _ _ _ hst ↦ hst)
    fun f g _ _ hst ↦ ⟨hsame f g hst.1, hst.2⟩) fun _ _ hr ↦ hr.store).weaken (fun _ _ hr ↦ hr)
      (fun _ _ _ _ hr ↦ hr.2) fun _ _ _ _ hr ↦ hr

/-! ## Deleting -/

theorem inStep_deleteFile (hnames : PlainNames names) (he : ExcusedAt w w' left right names) :
    InStep w w' known left right (deleteFile (w.extend names)) (deleteFile (w'.extend names)) :=
  (alongside_info _ _).seq <|
    (inStep_onStore (StoreAction.inStep_unlink he.stores hnames) fun _ _ ↦ Failure.SameCause.akin).seq
      (alongside_count _)

theorem inStep_deletePlain (hnames : PlainNames names) (he : ExcusedAt w w' left right names) :
    InStep w w' [] left right (deletePlain (w.extend names)) (deletePlain (w'.extend names)) := by
  refine (alongside_isDirectory hnames he).bind fun directory ↦ ?_
  split
  · exact InStep.forget ((alongside_info _ _).seq <| (inStep_onStore
      (StoreAction.inStep_removeTree he.stores hnames) fun _ _ ↦ Failure.SameCause.akin).seq
        (alongside_count _)) (List.nil_subset _)
  refine (alongside_kind Entry.isFile_form hnames he).bind fun file ↦ ?_
  split
  · exact (inStep_deleteFile hnames he).forget (List.nil_subset _)
  refine (alongside_kind Entry.isLink_form hnames he).bind fun link ↦ ?_
  split
  · exact (inStep_deleteFile hnames he).forget (List.nil_subset _)
  · exact inStep_pure.forget (List.nil_subset _)

/-- The files that match, below the two directories, and each with a legal name. -/
theorem alongside_matchingFiles (runner runner' : Option CommandRunner) {wildcard : Wildcard}
    (hparent : ∀ v, Path.below v wildcard.parent = v.extend names) (hnames : PlainNames names)
    (he : ExcusedAt w w' left right names) :
    GoAlike w w' known left right
      (matchingFiles ⟨w, runner⟩ wildcard) (matchingFiles ⟨w', runner'⟩ wildcard)
      (fun files files' r r' ↦ ∃ found : {found : List String // ∀ name ∈ found, IsName name},
        files = found.1.map (w.extend names).child ∧ files' = found.1.map (w'.extend names).child ∧
          Run.Alike w w' known r r') := by
  unfold matchingFiles
  rw [hparent, hparent]
  refine (alongside_ask (V := fun files files' ↦
    ∃ found : {found : List String // ∀ name ∈ found, IsName name},
      files = found.1.map (w.extend names).child ∧ files' = found.1.map (w'.extend names).child)
    fun s t hst ↦ ?_).weaken (fun _ _ hr ↦ hr)
      (fun _ _ _ _ ⟨⟨found, hleft, hright⟩, hr⟩ ↦ ⟨found, hleft, hright, hr⟩) fun _ _ _ _ hr ↦ hr
  have hlegal (found : List String)
      (hfound : s.matchingNames (w.extend names) wildcard.expression = .ok found) (name : String)
      (hname : name ∈ found) : IsName name :=
    Store.isName_of_matchingNames hst.left.wellFormed
      (fun _ ↦ hst.left.noLinks_of_listed hst.home hnames) hfound hname
  refine ((hst.matchingNames hnames he wildcard.expression).and hlegal).map ?_
  rintro found _ ⟨rfl, hlegal⟩
  exact ⟨⟨found, hlegal⟩, rfl, rfl⟩

/-- A pattern that is accepted has its expression as its last name. -/
theorem exists_front_of_split {pattern : String} {wildcard : Wildcard} (hinner : IsInner pattern)
    (h : Wildcard.ofString pattern = .ok wildcard) :
    ∃ front, (Path.ofString pattern).parts = front ++ [wildcard.expression] ∧
      ∀ v : Path, Path.below v wildcard.parent = v.extend front := by
  unfold Wildcard.ofString at h
  dsimp only at h
  split at h
  · cases h
  next hwild =>
  split at h
  · cases h
  cases h
  rcases List.eq_nil_or_concat (Path.ofString pattern).parts with hnil | ⟨front, expression, hparts⟩
  · simp [Path.name, hnil, Path.hasWildcard] at hwild
  · rw [List.concat_eq_append] at hparts
    refine ⟨front, by simp [Path.name, hparts], fun v ↦ ?_⟩
    simp [Path.below, Path.isAbsolute, Path.parent, hinner.relative, hparts, Path.extend]

/-- What may be too long about a deletion: the path that it is about, or the directory of a pattern and
the paths of the files in it. -/
def NearDeletion (names near : List String) : Prop :=
  near = names ∨ ∃ front last, names = front ++ [last] ∧
    (near = front ∨ ∃ name, IsName name ∧ near = front ++ [name])

theorem excusedAt_of_near {near : List String → Prop} (h : near names) :
    ExcusedAt w w' (Failure.OfLong w near) (Failure.OfLong w' near) names :=
  ⟨fun _ hf ↦ ⟨names, h, hf⟩, fun _ hf ↦ ⟨names, h, hf⟩⟩

theorem reported_of_nearDeletion {f : Failure} (hf : f.OfLong w (NearDeletion names)) :
    f.isSystem ∧ Report.OfLongPath (Report.failedDelete (w.extend names) f.reason) := by
  obtain ⟨near, hnear, hlong⟩ := hf
  refine ⟨hlong.2.2 ▸ rfl, .delete hlong ?_⟩
  rcases hnear with rfl | ⟨front, last, rfl, rfl | ⟨name, hname, rfl⟩⟩
  · exact .inl rfl
  · exact .inr (.inl (parent_extend _ _ _).symm)
  · exact .inr (.inr ⟨name, hname, by rw [parent_extend, Path.extend_child]⟩)

theorem plainNames_concat (hnames : PlainNames names) (hname : IsName name) :
    PlainNames (names ++ [name]) := by
  intro other hother
  rcases List.mem_append.mp hother with hother | hother
  · exact hnames other hother
  · obtain rfl : other = name := by simpa using hother
    exact ⟨hname.isPart, hname.ne_dot, hname.ne_dotDot⟩

theorem tied_delete (runner runner' : Option CommandRunner) {pattern : String}
    (hinner : IsInner pattern) :
    Tied w w' (delete ⟨w, runner⟩ pattern)
      (delete ⟨w', runner'⟩ pattern) := by
  have hnames := plainNames_of_isInner hinner
  unfold delete
  dsimp only
  rw [resolve_of_isInner hinner, resolve_of_isInner hinner]
  refine tied_surviving ?_ (fun f hf ↦ reported_of_nearDeletion hf)
    fun f hf ↦ reported_of_nearDeletion hf
  split
  · unfold splitWildcard
    cases hsplit : Wildcard.ofString pattern with
    | error e =>
      dsimp only
      rw [throw_bind, throw_bind]
      exact inStep_throw (.inl rfl)
    | ok wildcard =>
      dsimp only
      rw [pure_bind, pure_bind]
      obtain ⟨front, hparts, hparent⟩ := exists_front_of_split hinner hsplit
      rw [hparts] at hnames ⊢
      have hfront : PlainNames front := fun name hname ↦ hnames name (List.mem_append_left _ hname)
      refine Alongside.bind_of (alongside_matchingFiles runner runner' hparent hfront
        (excusedAt_of_near (.inr ⟨front, _, rfl, .inl rfl⟩))) (fun _ ↦ ?_) (fun _ ↦ ?_) fun found ↦ ?_
      · exact keeps_forM fun file _ ↦ bookkeeping_hindered.deleteFile file
      · exact keeps_forM fun file _ ↦ bookkeeping_hindered.deleteFile file
      refine alongside_forM ?_
      rw [List.forall₂_map_left_iff, List.forall₂_map_right_iff, List.forall₂_same]
      intro name hname
      rw [Path.extend_child, Path.extend_child]
      exact inStep_deleteFile (plainNames_concat hfront (found.2 name hname))
        (excusedAt_of_near (.inr ⟨front, _, rfl, .inr ⟨name, found.2 name hname, rfl⟩⟩))
  · exact inStep_deletePlain hnames (excusedAt_of_near (.inl rfl))

/-! ## Moving -/

/-- The names of a move below the two directories: of its source, whose last name is given, and of its
destination. The runs may be excused where the path of the source, of the destination or of the name
in the destination is too long, or where a part of a copy does not go along. -/
structure Errand (w w' : Path) (left right : Failure → Prop) (names : List String) (last : String)
    (other : List String) : Prop where
  plain : PlainNames (names ++ [last])
  plain' : PlainNames other
  source : ExcusedAt w w' left right (names ++ [last])
  destination : ExcusedAt w w' left right other
  target : ExcusedAt w w' left right (other ++ [last])
  copy {f} (h : f.OfStrayPart) : left f ∧ right f

theorem Errand.plain_target (h : Errand w w' left right names last other) :
    PlainNames (other ++ [last]) := by
  intro name hname
  rcases List.mem_append.mp hname with hname | hname
  · exact h.plain' name hname
  · exact h.plain name (List.mem_append_right _ hname)

theorem alongside_samePlace (hnames : PlainNames names) (hother : PlainNames other)
    (he : ExcusedAt w w' left right names) (he' : ExcusedAt w w' left right other) :
    GoAlike w w' known left right
      (ask (·.samePlace (w.extend names) (w.extend other)))
      (ask (·.samePlace (w'.extend names) (w'.extend other)))
      (fun a b r r' ↦ a = b ∧ Run.Alike w w' known r r') :=
  alongside_ask fun _ _ hst ↦ hst.samePlace hnames hother he he'

theorem alongside_mayReplace (policy : OverwritePolicy) (hnames : PlainNames names)
    (he : ExcusedAt w w' left right names) :
    GoAlike w w' known left right (mayReplace policy (w.extend names))
      (mayReplace policy (w'.extend names)) (fun a b r r' ↦ a = b ∧ Run.Alike w w' known r r') := by
  cases policy with
  | replace => exact alongside_pure fun _ _ hr ↦ ⟨rfl, hr⟩
  | merge =>
    refine (alongside_exists hnames he).bind fun there ↦ ?_
    exact alongside_pure fun _ _ hr ↦ ⟨rfl, hr.forget (List.subset_cons_self _ _)⟩

/-- Once nothing is at a path, the path is known not to be too long. -/
theorem alongside_unlinkIfThere (hnames : PlainNames names) (he : ExcusedAt w w' left right names) :
    GoAlike w w' known left right
      (onStore (StoreAction.unlinkIfThere (w.extend names)))
      (onStore (StoreAction.unlinkIfThere (w'.extend names)))
      (fun _ _ ↦ Run.Alike w w' (names :: known)) := by
  have hreached (p : Path) : Ensures (fun _ ↦ True) (StoreAction.unlinkIfThere p)
      (fun _ _ ↦ p.Reached) (fun _ _ ↦ True) := by
    refine ((StoreAction.ensures_short_change fun _ ↦ Store.unlink_of_long).weaken (fun _ h ↦ h)
      (fun _ _ h ↦ .inr h) fun _ _ h ↦ h).tryCatch fun f ↦ ?_
    split
    · exact ensures_pure fun _ h ↦ .inr (h ⟨_, _, rfl⟩)
    · exact ensures_throw fun _ _ ↦ trivial
  have hunlink := ((StoreAction.inStep_unlinkIfThere he.stores hnames).and
    (fun s _ _ ↦ hreached (w.extend names) s trivial)
    fun _ t _ ↦ hreached (w'.extend names) t trivial).excuse (fun _ hf ↦ hf.1) fun _ hf ↦ hf.1
  refine (alongside_onStore (V := fun _ _ ↦ Path.BothReached w w' names) (hunlink.weaken
    (fun _ _ hst ↦ hst) (fun _ _ _ _ hst ↦ ⟨hst.2, hst.1.2⟩)
    fun _ _ _ _ hst ↦ ⟨hst.1.1.akin, hst.1.2⟩) fun _ _ hr ↦ hr.store).weaken (fun _ _ hr ↦ hr)
      (fun _ _ _ _ hr ↦ hr.2.know hr.1) fun _ _ _ _ hr ↦ hr

theorem alongside_removeTarget (hnames : PlainNames names) (he : ExcusedAt w w' left right names) :
    GoAlike w w' known left right (removeTarget (w.extend names))
      (removeTarget (w'.extend names)) (fun _ _ ↦ Run.Alike w w' (names :: known)) := by
  refine (alongside_isDirectory hnames he).bind fun directory ↦ ?_
  split
  · exact inStep_onStore (StoreAction.inStep_removeTree he.stores hnames) fun _ _ ↦ Failure.SameCause.akin
  refine (alongside_exists hnames he).bind fun there ↦ ?_
  split
  · exact (inStep_onStore (StoreAction.inStep_unlink he.stores hnames)
      fun _ _ ↦ Failure.SameCause.akin).forget (List.subset_cons_self _ _)
  · exact inStep_pure.forget (List.subset_cons_self _ _)

/-- Two moves about paths that are known not to be too long. -/
theorem alongside_moved (hnames : PlainNames names) (hother : PlainNames other) (hmem : names ∈ known)
    (hmem' : other ∈ known) (hcopy : ∀ {f : Failure}, f.OfStrayPart → left f ∧ right f) :
    GoAlike w w' known left right
      (do onStore (StoreAction.moveEntry (w.extend names) (w.extend other)); count "moved")
      (do onStore (StoreAction.moveEntry (w'.extend names) (w'.extend other)); count "moved")
      (fun _ _ ↦ Run.Alike w w' []) := by
  have hmove : Alongside (.failures left right)
      (fun s t ↦ (Path.BothReached w w' names ∧ Path.BothReached w w' other) ∧ Store.Alike w w' s t)
      (StoreAction.moveEntry (w.extend names) (w.extend other))
      (StoreAction.moveEntry (w'.extend names) (w'.extend other))
      (fun _ _ s t ↦ True ∧ Store.Alike w w' s t) (fun f g s t ↦ f.Akin g ∧ Store.Alike w w' s t) :=
    ((StoreAction.inStep_moveEntry hnames hother).excuse (fun _ hf ↦ (hcopy hf).1)
      fun _ hf ↦ (hcopy hf).2).weaken (fun _ _ hst ↦ hst) (fun _ _ _ _ hst ↦ ⟨trivial, hst⟩)
        fun _ _ _ _ hst ↦ hst
  exact ((alongside_onStore (V := fun _ _ ↦ True) hmove fun _ _ hr ↦
    ⟨⟨hr.reached hmem, hr.reached hmem'⟩, hr.store⟩).weaken (fun _ _ hr ↦ hr)
      (fun _ _ _ _ hr ↦ hr.2.forget (List.nil_subset _)) fun _ _ _ _ hr ↦ hr).seq (alongside_count _)

theorem inStep_skip (message message' : String) :
    InStep w w' known left right (do info message; count "skipped") (do info message'; count "skipped") :=
  (alongside_info _ _).seq (alongside_count _)

theorem inStep_moveFile (policy : OverwritePolicy) (h : Errand w w' left right names last other) :
    InStep w w' [] left right (moveFile (w.extend (names ++ [last])) (w.extend other) policy)
      (moveFile (w'.extend (names ++ [last])) (w'.extend other) policy) := by
  refine (alongside_isDirectory h.plain' h.destination).bind fun directory ↦ ?_
  -- The names of the target are the same below both directories.
  obtain ⟨target, hplain, he, htarget⟩ : ∃ target, PlainNames target ∧
      ExcusedAt w w' left right target ∧ ∀ v : Path,
        (if directory then within (v.extend other) (v.extend (names ++ [last])) else v.extend other) =
          v.extend target := by
    cases directory with
    | true => exact ⟨_, h.plain_target, h.target, fun v ↦ within_extend⟩
    | false => exact ⟨_, h.plain', h.destination, fun v ↦ rfl⟩
  dsimp only
  rw [htarget, htarget]
  refine (alongside_samePlace h.plain hplain h.source he).bind fun same ↦ ?_
  split
  · exact (inStep_skip _ _).forget (List.nil_subset _)
  refine (alongside_mayReplace policy hplain he).bind fun replaces ↦ ?_
  split
  · refine (alongside_info _ _).seq ((alongside_exists h.plain h.source).bind fun there ↦ ?_)
    have hmoved : GoAlike w w' ((names ++ [last]) :: [other]) left right
        (do
          onStore (StoreAction.unlinkIfThere (w.extend target))
          onStore (StoreAction.moveEntry (w.extend (names ++ [last])) (w.extend target))
          count "moved")
        (do
          onStore (StoreAction.unlinkIfThere (w'.extend target))
          onStore (StoreAction.moveEntry (w'.extend (names ++ [last])) (w'.extend target))
          count "moved")
        (fun _ _ ↦ Run.Alike w w' []) :=
      (alongside_unlinkIfThere hplain he).seq
        (alongside_moved h.plain hplain (by simp) (by simp) h.copy)
    split
    · exact Alongside.seq (inStep_throw (.inr ⟨rfl, rfl⟩)) hmoved
    · exact hmoved
  · exact (inStep_skip _ _).forget (List.nil_subset _)

/-- The names in a directory are the same on both sides, and each of them is legal. -/
theorem alongside_sortedNames (hnames : PlainNames names) (he : ExcusedAt w w' left right names) :
    GoAlike w w' [] left right (sortedNames (w.extend names)) (sortedNames (w'.extend names))
      (fun found found' r r' ↦ ∃ legal : {found : List String // ∀ name ∈ found, IsName name},
        found = legal.1 ∧ found' = legal.1 ∧ Run.Alike w w' [] r r') := by
  refine (alongside_ask (V := fun found found' ↦
    ∃ legal : {found : List String // ∀ name ∈ found, IsName name}, found = legal.1 ∧ found' = legal.1)
    fun s t hst ↦ ?_).weaken (fun _ _ hr ↦ hr)
      (fun _ _ _ _ ⟨⟨found, hleft, hright⟩, hr⟩ ↦ ⟨found, hleft, hright, hr⟩) fun _ _ _ _ hr ↦ hr
  have hlegal (found : List String) (hfound : s.list (w.extend names) = .ok found) (name : String)
      (hname : name ∈ found) : IsName name :=
    Store.isName_of_list hst.left.wellFormed hfound hname
  refine ((hst.list hnames he).and hlegal).map ?_
  rintro found found' ⟨hperm, hlegal⟩
  exact ⟨⟨Store.sortNames found, fun name hname ↦ hlegal name ((List.mergeSort_perm _ _).mem_iff.mp hname)⟩,
    rfl, (Store.sortNames_eq_of_perm hperm).symm⟩

/-- A directory in which nothing is left is removed on both sides. -/
theorem inStep_emptied (hnames : PlainNames names) (he : ExcusedAt w w' left right names) :
    InStep w w' [] left right
      (do if (← ask (·.list (w.extend names))).isEmpty then
            onStore (StoreAction.removeDirectory (w.extend names)))
      (do if (← ask (·.list (w'.extend names))).isEmpty then
            onStore (StoreAction.removeDirectory (w'.extend names))) := by
  have hasked : GoAlike w w' [] left right (ask (·.list (w.extend names)))
      (ask (·.list (w'.extend names)))
      (fun found found' r r' ↦ ∃ lists : {lists : List String × List String // lists.1.Perm lists.2},
        found = lists.1.1 ∧ found' = lists.1.2 ∧ Run.Alike w w' [] r r') :=
    (alongside_ask fun s t hst ↦ hst.list hnames he).weaken (fun _ _ hr ↦ hr)
      (fun _ _ _ _ hr ↦ ⟨⟨(_, _), hr.1⟩, rfl, rfl, hr.2⟩) fun _ _ _ _ hr ↦ hr
  have hkept (p : Path) (found : List String) : Keeps Run.Hindered (fun _ ↦ True)
      (if found.isEmpty then onStore (StoreAction.removeDirectory p) else pure ()) := by
    split
    · exact bookkeeping_hindered.onStore _
    · exact keeps_pure _
  refine Alongside.bind_of hasked (fun found ↦ hkept _ found) (fun found ↦ hkept _ found) fun lists ↦ ?_
  rw [lists.2.isEmpty_eq]
  split
  · exact inStep_onStore (StoreAction.inStep_removeDirectory he.stores hnames)
      fun _ _ ↦ Failure.SameCause.akin
  · exact inStep_pure

section Children

variable {moveChild : Path → Path → RunAction Unit}
  (hkept : ∀ source target, Keeps Run.Hindered (fun _ ↦ True) (moveChild source target))
  (hchild : ∀ names last other, PlainNames (names ++ [last]) → PlainNames other →
    Tied w w' (moveChild (w.extend (names ++ [last])) (w.extend other))
      (moveChild (w'.extend (names ++ [last])) (w'.extend other)))
include hkept hchild

theorem inStep_mergeDirectory (hnames : PlainNames names) (hother : PlainNames other)
    (he : ExcusedAt w w' left right names) :
    InStep w w' [] left right (mergeDirectory moveChild (w.extend names) (w.extend other))
      (mergeDirectory moveChild (w'.extend names) (w'.extend other)) := by
  refine (alongside_info _ _).seq (Alongside.bind_of (alongside_sortedNames hnames he)
    (fun found ↦ ?_) (fun found ↦ ?_) fun found ↦ ?_)
  · exact bookkeeping_hindered.mergeNames hkept found _ _
  · exact bookkeeping_hindered.mergeNames hkept found _ _
  have hturns : InStep w w' [] left right
      (found.1.forM fun name ↦ moveChild ((w.extend names).child name) (w.extend other))
      (found.1.forM fun name ↦ moveChild ((w'.extend names).child name) (w'.extend other)) := by
    refine alongside_forM (List.forall₂_same.mpr fun name hname ↦ ?_)
    rw [Path.extend_child, Path.extend_child]
    exact (hchild names name other (plainNames_concat hnames (found.2 name hname)) hother).inStep
  rw [forIn_eq_forM, forIn_eq_forM]
  exact hturns.seq ((alongside_count _).seq (inStep_emptied hnames he))

theorem inStep_moveDirectory (policy : OverwritePolicy) (h : Errand w w' left right names last other) :
    Alongside ⟨Run.Hindered, left, right⟩ (Run.Alike w w' [names ++ [last]])
      (moveDirectory moveChild (w.extend (names ++ [last])) (w.extend other) policy)
      (moveDirectory moveChild (w'.extend (names ++ [last])) (w'.extend other) policy)
      (fun _ _ ↦ Run.Alike w w' []) (fun f g r r' ↦ f.Akin g ∧ Run.Alike w w' [] r r') := by
  refine (alongside_isDirectory h.plain' h.destination).bind fun directory ↦ ?_
  split
  · exact (alongside_info _ _).seq
      (alongside_moved h.plain h.plain' (by simp) (by simp) h.copy)
  refine (alongside_info _ _).seq ?_
  dsimp only
  rw [within_extend, within_extend]
  refine (alongside_samePlace h.plain h.plain_target h.source h.target).bind fun same ↦ ?_
  split
  · exact (inStep_skip _ _).forget (List.nil_subset _)
  refine (alongside_mayReplace policy h.plain_target h.target).bind fun replaces ↦ ?_
  split
  · exact (alongside_removeTarget h.plain_target h.target).seq
      (alongside_moved h.plain h.plain_target
        (by simp) (by simp) h.copy)
  · exact (inStep_mergeDirectory hkept hchild h.plain h.plain_target h.source).forget (List.nil_subset _)

end Children

/-- A failure of a move because one of its paths is too long, or that of a part of a copy. -/
def OfLongMove (w : Path) (names : List String) (last : String) (other : List String) (f : Failure) :
    Prop :=
  f.OfLong w (· ∈ [names, names ++ [last], other, other ++ [last]]) ∨ f.OfStrayPart

theorem reported_of_longMove {f : Failure} (hf : OfLongMove w names last other f) :
    f.isSystem ∧ Report.OfLongPath
      (Report.failedMove (w.extend (names ++ [last])) (w.extend other) f.reason) := by
  rcases hf with ⟨near, hnear, hlong⟩ | hcopy
  · refine ⟨hlong.2.2 ▸ rfl, .move hlong ?_⟩
    rw [parent_extend, within_extend]
    simp only [List.mem_cons, List.not_mem_nil, or_false] at hnear
    rcases hnear with rfl | rfl | rfl | rfl <;> simp
  · obtain ⟨parts, rfl, hparts⟩ := id hcopy
    exact ⟨rfl, .copy hcopy⟩

theorem excusedAt_of_longMove {near : List String}
    (h : near ∈ [names, names ++ [last], other, other ++ [last]]) :
    ExcusedAt w w' (OfLongMove w names last other) (OfLongMove w' names last other) near :=
  ⟨fun _ hf ↦ .inl ⟨near, h, hf⟩, fun _ hf ↦ .inl ⟨near, h, hf⟩⟩

/-- Moves of entries go in step, by induction on the depth: a merge moves what is in a directory by
moves that are survived each. -/
theorem tied_moveEntryFrom (policy : OverwritePolicy) (depth : ℕ) (names : List String) (last : String)
    (other : List String) (hnames : PlainNames (names ++ [last])) (hother : PlainNames other) :
    Tied w w' (moveEntryFrom policy depth (w.extend (names ++ [last])) (w.extend other))
      (moveEntryFrom policy depth (w'.extend (names ++ [last])) (w'.extend other)) := by
  induction depth generalizing names last other with
  | zero =>
    exact tied_surviving (inStep_throw (.inr ⟨rfl, rfl⟩)) (fun _ (hf : False) ↦ hf.elim)
      fun _ (hf : False) ↦ hf.elim
  | succ depth ih =>
    refine tied_surviving ?_ (fun f hf ↦ reported_of_longMove hf) fun f hf ↦ reported_of_longMove hf
    have herrand : Errand w w' (OfLongMove w names last other) (OfLongMove w' names last other) names
        last other :=
      ⟨hnames, hother, excusedAt_of_longMove (by simp), excusedAt_of_longMove (by simp),
        excusedAt_of_longMove (by simp), fun hf ↦ ⟨.inr hf, .inr hf⟩⟩
    refine (alongside_isDirectory hnames herrand.source).bind fun directory ↦ ?_
    split
    · exact inStep_moveDirectory (bookkeeping_hindered.moveEntryFrom policy depth) ih policy herrand
    · exact (inStep_moveFile policy herrand).forget (List.nil_subset _)

theorem inStep_moveMatching (runner runner' : Option CommandRunner) (policy : OverwritePolicy)
    {pattern : String} (hinner : IsInner pattern) (hparts : (Path.ofString pattern).parts = names ++ [last])
    (hother : PlainNames other) :
    InStep w w' [] (OfLongMove w names last other) (OfLongMove w' names last other)
      (moveMatching ⟨w, runner⟩ pattern (w.extend other) policy)
      (moveMatching ⟨w', runner'⟩ pattern (w'.extend other) policy) := by
  have hnames := plainNames_of_isInner hinner
  unfold moveMatching splitWildcard
  cases hsplit : Wildcard.ofString pattern with
  | error e =>
    dsimp only
    rw [throw_bind, throw_bind]
    exact inStep_throw (.inl rfl)
  | ok wildcard =>
    dsimp only
    rw [pure_bind, pure_bind]
    obtain ⟨front, hfront, hparent⟩ := exists_front_of_split hinner hsplit
    obtain ⟨rfl, -⟩ := List.append_inj' (hparts.symm.trans hfront) rfl
    rw [hparts] at hnames
    have hplain : PlainNames names := fun name hname ↦ hnames name (List.mem_append_left _ hname)
    let move (v file : Path) : RunAction Unit := do
      info ("Recurse move of " ++ file.text ++ " into " ++ (v.extend other).text)
      moveEntry file (v.extend other) policy
    have hloop (v : Path) (files : List Path) :
        (forIn files PUnit.unit fun file _ ↦ do
          info ("Recurse move of " ++ file.text ++ " into " ++ (v.extend other).text)
          moveEntry file (v.extend other) policy
          pure (ForInStep.yield PUnit.unit)) = files.forM (move v) := by
      rw [← forIn_eq_forM]
      simp only [move, bind_assoc]
    have hkept (v : Path) (files : List Path) : Keeps Run.Hindered (fun _ ↦ True) (files.forM (move v)) :=
      keeps_forM fun file _ ↦ (bookkeeping_hindered.info _).bind fun _ ↦
        bookkeeping_hindered.moveEntryFrom policy _ _ _
    simp only [hloop]
    refine (inStep_onStore (StoreAction.inStep_ensureDirectory
      (excusedAt_of_longMove (by simp)).stores hother) fun _ _ h ↦ h).seq ?_
    refine Alongside.bind_of (alongside_matchingFiles runner runner' hparent hplain
      (excusedAt_of_longMove (by simp))) (fun _ ↦ ?_) (fun _ ↦ ?_) fun found ↦ ?_
    · exact (hkept w _).bind fun _ ↦ keeps_pure _
    · exact (hkept w' _).bind fun _ ↦ keeps_pure _
    refine Alongside.seq (alongside_forM ?_) inStep_pure
    rw [List.forall₂_map_left_iff, List.forall₂_map_right_iff, List.forall₂_same]
    intro name hname
    rw [Path.extend_child, Path.extend_child]
    exact (alongside_info _ _).seq (tied_moveEntryFrom policy Store.pathLimit names name other
      (plainNames_concat hplain (found.2 name hname)) hother).inStep

theorem tied_move (runner runner' : Option CommandRunner) {source destination : String}
    (policy : OverwritePolicy) (hinner : IsInner source) (hinner' : IsInner destination)
    (hnamed : (Path.ofString source).parts ≠ []) :
    Tied w w' (move ⟨w, runner⟩ source destination policy)
      (move ⟨w', runner'⟩ source destination policy) := by
  have hnames := plainNames_of_isInner hinner
  have hother := plainNames_of_isInner hinner'
  obtain ⟨names, last, hparts⟩ := (List.eq_nil_or_concat _).resolve_left hnamed
  rw [List.concat_eq_append] at hparts
  unfold move
  dsimp only
  rw [resolve_of_isInner hinner, resolve_of_isInner hinner, resolve_of_isInner hinner',
    resolve_of_isInner hinner', hparts]
  rw [hparts] at hnames
  split
  · exact tied_moveEntryFrom policy Store.pathLimit names last _ hnames hother
  · exact tied_surviving (inStep_moveMatching runner runner' policy hinner hparts hother)
      (fun f hf ↦ reported_of_longMove hf) fun f hf ↦ reported_of_longMove hf

end Steps

end Executor

end DeferredOps
