import DeferredOps.Proofs.Deletions
import DeferredOps.Proofs.SelfMoves
import DeferredOps.Proofs.Store.EntryMoves
import DeferredOps.Proofs.Store.Parents

/-!
# Moves of single files

A file that is moved goes to one place: to a name in the directory that its destination is, or to the
destination. There it takes a free name or that of another file. Where it may not, it stays, and so does
everything else; each of these ends is counted as what it is.
-/

namespace DeferredOps

open Action

namespace Executor

open RunAction Store

variable {s s' : Store} {c c' : Counters} {p q t : Path} {d : Location} {n name : String}
  {policy : OverwritePolicy} {E F : Failure → Run → Prop}

/-! ## Ends of a move -/

/-- A file stays: what is at the target is the file itself, or is kept by the policy. -/
def Stays (s : Store) (policy : OverwritePolicy) (p t : Path) : Prop :=
  s.samePlace p t = .ok true ∨ policy = .merge ∧ s.exists? t = .ok true

/-- A file cannot go to the target: that is in no directory, or a directory is to be replaced. -/
def Barred (s : Store) (policy : OverwritePolicy) (t : Path) : Prop :=
  ¬ s.HasParent t ∨ policy = .replace ∧ s.isDirectory t = .ok true

/-- A file has been moved to a target, or its move has been skipped or has failed, and this is what has
been counted. -/
structure FileMoved (policy : OverwritePolicy) (s : Store) (c : Counters) (p t : Path) (s' : Store)
    (c' : Counters) : Prop where
  skipped (h : Stays s policy p t) : s' = s ∧ c' = c.increment "skipped"
  failed (h : Barred s policy t) : s' = s ∧ c' = c.increment "failed"
  moved (h : ¬ Stays s policy p t) (h' : ¬ Barred s policy t) :
    s.EntryMoved (s.place p) (s.place t) s' ∧ c' = c.increment "moved"

namespace FileMoved

theorem of_stays (h : Stays s policy p t) (hnot : ¬ Barred s policy t) :
    FileMoved policy s c p t s (c.increment "skipped") :=
  ⟨fun _ ↦ ⟨rfl, rfl⟩, fun hbarred ↦ absurd hbarred hnot, fun hnot ↦ absurd h hnot⟩

theorem of_barred (h : Barred s policy t) (hnot : ¬ Stays s policy p t) :
    FileMoved policy s c p t s (c.increment "failed") :=
  ⟨fun hstays ↦ absurd hstays hnot, fun _ ↦ ⟨rfl, rfl⟩, fun _ hnot ↦ absurd h hnot⟩

theorem of_moved (h : s.EntryMoved (s.place p) (s.place t) s') (hstays : ¬ Stays s policy p t)
    (hbarred : ¬ Barred s policy t) : FileMoved policy s c p t s' (c.increment "moved") :=
  ⟨fun h ↦ absurd h hstays, fun h ↦ absurd h hbarred, fun _ _ ↦ ⟨h, rfl⟩⟩

end FileMoved

theorem isDirectory_of_answer {answer : Option (Location × Entry)}
    (h : s.entryAt .followed t = .ok answer) : s.isDirectory t = .ok (answers Entry.isDir answer) := by
  rw [Store.isDirectory, h]
  rfl

theorem exists_of_answer {answer : Option (Location × Entry)}
    (h : s.entryAt .followed t = .ok answer) : s.exists? t = .ok answer.isSome := by
  rw [Store.exists?, h]
  cases answer <;> rfl

theorem samePlace_of_answers {found : Location × Entry} {answer : Option (Location × Entry)}
    (hfound : s.entryAt .followed p = .ok (some found)) (h : s.entryAt .followed t = .ok answer) :
    s.samePlace p t = .ok (answer.any (isSame found)) := by
  simp only [samePlace, hfound, h, bind, Except.bind]
  cases answer <;> rfl

/-- Whether a move goes on, when it is known whether something is at its target. -/
theorem starts_mayReplace_of_eq {there : Bool} (policy : OverwritePolicy)
    (h : s.exists? t = .ok there) :
    Ensures (Starts s c) (mayReplace policy t)
      (fun goesOn r ↦ (goesOn = false ↔ policy = .merge ∧ there = true) ∧ Starts s c r) F := by
  cases policy with
  | replace => exact ensures_pure fun r hr ↦ ⟨by simp, hr⟩
  | merge =>
    refine (starts_ask_of_eq h).bind fun answer ↦ ensures_assume fun hanswer ↦ ?_
    exact ensures_pure fun r hr ↦ ⟨by simp [hanswer], hr⟩

/-- The move of a file whose questions are answered: it is skipped, or the target is cleared and the
file goes there. -/
theorem starts_moveFile_of_answers {Q : Store → Counters → Prop} {same there : Bool}
    (hdirectory : ∃ answer, s.isDirectory q = .ok answer) (hland : landing s p q = t)
    (hsource : s.exists? p = .ok true) (hsame : s.samePlace p t = .ok same)
    (hthere : s.exists? t = .ok there)
    (hskipped : same = true ∨ policy = .merge ∧ there = true → Q s (c.increment "skipped"))
    (hmoved : same = false → ¬ (policy = .merge ∧ there = true) →
      Ensures (Starts s c)
        (do onStore (StoreAction.unlinkIfThere t); onStore (StoreAction.moveEntry p t); count "moved")
        (fun _ ↦ Run.On Q) E) :
    Ensures (Starts s c) (moveFile p q policy) (fun _ ↦ Run.On Q) E := by
  have hskip (h : same = true ∨ policy = .merge ∧ there = true) (message : String) :
      Ensures (Starts s c) (do info message; count "skipped") (fun _ ↦ Run.On Q) E := by
    refine (on_info _).bind fun _ ↦ on_count fun s' c' hr ↦ ?_
    rw [hr.1, hr.2]
    exact hskipped h
  obtain ⟨answer, hanswer⟩ := hdirectory
  refine (starts_ask_of_eq hanswer).bind fun directory ↦ ensures_assume fun heq ↦ ?_
  have htarget : (if directory then within q p else q) = t := by
    rw [← hland, landing_of_answer p hanswer, heq]
  rw [htarget]
  refine (starts_ask_of_eq hsame).bind fun isSame ↦ ensures_assume fun heq ↦ ?_
  subst heq
  split
  · next htrue => exact hskip (.inl htrue) _
  next hfalse =>
  refine (starts_mayReplace_of_eq policy hthere).bind fun goesOn ↦ ensures_assume fun hgoesOn ↦ ?_
  split
  · next hgoes =>
    refine (on_info _).bind fun _ ↦ (starts_ask_of_eq hsource).bind fun isThere ↦
      ensures_assume fun heq ↦ ?_
    subst heq
    exact hmoved (by simpa using hfalse) fun h ↦ by simp [hgoesOn.mpr h] at hgoes
  · next hstays => exact hskip (.inr (hgoesOn.mp (by simpa using hstays))) _

/-- A move of what is no directory is that of a file, and a failure is survived and counted. -/
theorem starts_moveEntryFrom_of_file {P : Store → Counters → Prop} {depth : ℕ}
    (hdirectory : s.isDirectory p = .ok false)
    (hmove : Ensures (Starts s c) (moveFile p q policy) (fun _ ↦ Run.On P)
      (fun f ↦ Run.On fun s' c' ↦ f.isSystem ∧ P s' (c'.increment "failed"))) :
    Ensures (Starts s c) (moveEntryFrom policy (depth + 1) p q) (fun _ ↦ Run.On P)
      (fun _ _ ↦ False) := by
  refine (on_surviving (E := fun f s' c' ↦ f.isSystem ∧ P s' (c'.increment "failed")) ?_
    fun f s' c' _ h ↦ h.2).weaken (fun _ hr ↦ hr) (fun _ _ hr ↦ hr) fun f r hr ↦ ?_
  · refine (starts_ask_of_eq hdirectory).bind fun directory ↦ ensures_assume fun hfalse ↦ ?_
    subst hfalse
    exact hmove
  · obtain ⟨hnot, hsystem, -⟩ := hr.state
    simp [hsystem] at hnot

/-! ## The file and its target -/

/-- A file is moved to a destination with legal names, and the path that it goes to is in reach. -/
structure MovableFile (s : Store) (p q : Path) : Prop where
  wellFormed : s.WellFormed
  linkFree : s.LinkFree
  file : s.isFile p = .ok true
  proper : q.Proper
  clean : q.hasNul = false
  legal : ∀ name ∈ q.parts, name.utf8ByteSize ≤ nameLimit
  short : (landing s p q).text.utf8ByteSize < pathLimit

namespace MovableFile

variable (h : MovableFile s p q)
include h

theorem exists_source : ∃ d n id content, p.hasNul = false ∧ s.slot p = .ok (.name d n) ∧
    s.entry? (d ++ [n]) = some (.file id content) ∧
      s.entryAt .followed p = .ok (some (d ++ [n], .file id content)) := by
  obtain ⟨hclean, l, id, content, hfound⟩ := isFile_eq_true_iff.mp h.file
  obtain ⟨d, n, hslot, -, -⟩ := slot_of_target hfound (by simp)
  have hlocation : d ++ [n] = l :=
    (location_of_slot h.linkFree hslot).trans (location_of_target h.linkFree hfound).symm
  have hentry : s.entry? (d ++ [n]) = some (.file id content) := by
    have hsound : s.Sound (.found l (.file id content)) := sound_of_target h.wellFormed hfound
    exact hlocation ▸ hsound.resolve_right (by simp)
  exact ⟨d, n, id, content, hclean, hslot, hentry,
    entryAt_eq_some_iff.mpr ⟨hclean, hlocation ▸ hfound⟩⟩

/-- It is known whether the destination is a directory, and the file then goes to its own name there. -/
theorem landing_cases : s.isDirectory q = .ok false ∧ landing s p q = q ∨
    ∃ name, IsName name ∧ s.isDirectory q = .ok true ∧ landing s p q = q.child name := by
  cases hanswer : s.isDirectory q with
  | error f =>
    have hland : landing s p q = q := by rw [landing, hanswer]
    obtain ⟨-, htarget, -⟩ := (entryAt_eq_error_iff (by simp)).mp (map_eq_error hanswer)
    rcases Store.target_cases .followed h.linkFree (hland ▸ h.short) h.legal (by simp) with
      ⟨t, ht⟩ | ⟨e, he, herror⟩
    · cases htarget.symm.trans ht
    · cases htarget.symm.trans herror
      cases he
  | ok answer =>
    cases answer with
    | false => exact .inl ⟨rfl, by rw [landing, hanswer]⟩
    | true =>
      obtain ⟨d, n, _, _, -, hslot, hentry, -⟩ := h.exists_source
      obtain ⟨-, front, hparts, -⟩ := slot_eq_name_iff.mp hslot
      exact .inr ⟨n, h.wellFormed.name hentry, rfl, by rw [landing, hanswer, within_of_parts hparts]⟩

theorem usable_landing : (landing s p q).Proper ∧ (landing s p q).hasNul = false ∧
    ∀ name ∈ (landing s p q).parts, name.utf8ByteSize ≤ nameLimit := by
  rcases h.landing_cases with ⟨-, hland⟩ | ⟨name, hname, -, hland⟩
  · rw [hland]
    exact ⟨h.proper, h.clean, h.legal⟩
  · rw [hland, Path.hasNul_child hname.isClean]
    refine ⟨fun n hn ↦ ?_, h.clean, fun n hn ↦ ?_⟩ <;>
      rcases List.mem_append.mp hn with hn | hn
    · exact h.proper n hn
    · exact List.mem_singleton.mp hn ▸ hname.isPart
    · exact h.legal n hn
    · exact List.mem_singleton.mp hn ▸ hname.short

/-- The target is a name in a directory, or it lies in none and leads nowhere. -/
theorem target_cases :
    (∃ d n, s.slot (landing s p q) = .ok (.name d n) ∧ IsName n ∧ s.HasParent (landing s p q) ∧
      s.entryAt .followed (landing s p q) =
        .ok ((s.entry? (d ++ [n])).map fun entry ↦ (d ++ [n], entry))) ∨
    (∀ d n, s.slot (landing s p q) ≠ .ok (.name d n)) ∧ ¬ s.HasParent (landing s p q) ∧
      s.entryAt .followed (landing s p q) = .ok none := by
  obtain ⟨hproper, hclean, hlegal⟩ := h.usable_landing
  have hlast : (∀ l, s.target .followed (landing s p q) ≠ .ok (.found l .dir)) ∨
      ∃ front name, (landing s p q).parts = front ++ [name] ∧ IsName name := by
    rcases h.landing_cases with ⟨hanswer, hland⟩ | ⟨name, hname, -, hland⟩
    · refine .inl fun l hfound ↦ ?_
      rw [hland] at hfound
      have htrue := StoreAction.isDirectory_eq_true_iff.mpr ⟨h.clean, l, hfound⟩
      cases hanswer.symm.trans htrue
    · exact .inr ⟨q.parts, name, by rw [hland]; rfl, hname⟩
  rcases slot_or_absent h.wellFormed h.linkFree h.short hlegal hlast with
    ⟨d, n, hslot⟩ | ⟨hparent, e, he, herror⟩
  · refine .inl ⟨d, n, hslot, isName_of_slot hproper hclean hslot,
      hasParent_of_slot h.wellFormed hslot, ?_⟩
    have htarget := target_mode h.linkFree .followed (target_kept_of_slot hslot)
    rw [entryAt, hclean, htarget]
    cases s.entry? (d ++ [n]) <;> rfl
  · refine .inr ⟨fun d n hslot ↦ hparent (hasParent_of_slot h.wellFormed hslot), hparent, ?_⟩
    rw [entryAt, hclean, herror]
    simp [he]

/-- Without a directory to go to, the file is not moved. -/
theorem run_of_no_parent (hslot : ∀ d n, s.slot (landing s p q) ≠ .ok (.name d n)) :
    ((StoreAction.unlinkIfThere (landing s p q)).run s = (.ok (), s) ∨
      ∃ f : Failure, f.isSystem ∧
        (StoreAction.unlinkIfThere (landing s p q)).run s = (.error f, s)) ∧
    ∃ f : Failure, f.isSystem ∧ (StoreAction.moveEntry p (landing s p q)).run s = (.error f, s) := by
  obtain ⟨hproper, hclean, -⟩ := h.usable_landing
  obtain ⟨d, n, id, content, hsourceClean, hsource, hentry, hfound⟩ := h.exists_source
  have hfile := (entryAt_eq_some_iff.mp hfound).2
  constructor
  · rw [StoreAction.run_unlinkIfThere, hclean]
    cases hunlink : s.unlink (landing s p q) with
    | ok s' =>
      obtain ⟨d, n, -, hname, -⟩ := unlink_eq_ok_iff.mp hunlink
      exact absurd hname (hslot d n)
    | error e =>
      cases e with
      | noEntry => exact .inl rfl
      | _ => exact .inr ⟨_, rfl, rfl⟩
  · have hrename (s' : Store) : s.rename p (landing s p q) ≠ .ok s' := fun heq ↦ by
      obtain ⟨_, _, d, n, -, hname, -⟩ := rename_ok heq
      exact hslot d n hname
    have hundirected (l : Location) : s.target .followed p ≠ .ok (.found l .dir) := fun heq ↦ by
      cases hfile.symm.trans heq
    have hkeeps : Keeps Store.WellFormed (Failure.OfStore False)
        (StoreAction.moveEntry p (landing s p q)) :=
      StoreAction.keeps_moveEntry invariant_wellFormed (by simp [hsourceClean])
        ⟨hproper, by simp [hclean]⟩
    have hends : StoreAction.MoveEnds s p (landing s p q) _ _ :=
      StoreAction.moveEnds h.wellFormed hproper
    rcases hrun : (StoreAction.moveEntry p (landing s p q)).run s with ⟨result, s'⟩
    rw [hrun] at hends
    cases hends with
    | @refused f hf =>
      rcases hkeeps.failure h.wellFormed (congrArg Prod.fst hrun) with (hsystem | ⟨-, hnul⟩) | hendless
      · exact ⟨f, hsystem, rfl⟩
      · exact hnul.elim
      · exact absurd hendless hf
    | renamed _ heq => exact absurd heq (hrename _)
    | linked _ hlink => exact absurd (entry?_of_link h.wellFormed hlink) (h.linkFree _ _)
    | copyFailed _ heq => exact absurd heq (hundirected _)
    | copied _ heq => exact absurd heq (hundirected _)
    | copiedFile _ heq hwrite =>
      obtain ⟨s', heq⟩ := StoreAction.exists_rename_of_file h.wellFormed heq hwrite
      exact absurd heq (hrename s')

end MovableFile

/-- An action that fails and changes nothing. -/
theorem halted_onStore_of_eq {action : StoreAction Unit} {Q : Unit → Run → Prop} {f : Failure}
    (h : action.run s = (.error f, s)) (hf : f.isSystem) :
    Ensures (Starts s c) (onStore action) Q (Halted s c) := by
  intro r hr
  rw [run_onStore, hr.state.1, h]
  exact ⟨⟨⟨rfl, hr.state.2⟩, hf⟩, hr.silent⟩

theorem stays_iff {same there : Bool} (policy : OverwritePolicy) (hsame : s.samePlace p t = .ok same)
    (hthere : s.exists? t = .ok there) : Stays s policy p t ↔ same = true ∨ policy = .merge ∧ there = true := by
  rw [Stays, hsame, hthere, Except.ok.injEq, Except.ok.injEq]

/-- The move of a file that is barred and does not stay fails and changes nothing. -/
theorem fileMoved_of_halted {operation : RunAction Unit} (hbarred : Barred s policy t)
    (hstays : ¬ Stays s policy p t)
    (h : Ensures (Starts s c) operation (fun _ _ ↦ False) (Halted s c)) :
    Ensures (Starts s c) operation (fun _ ↦ Run.On (FileMoved policy s c p t))
      (fun f ↦ Run.On fun s' c' ↦
        f.isSystem ∧ FileMoved policy s c p t s' (c'.increment "failed")) := by
  refine h.weaken (fun _ hr ↦ hr) (fun _ _ hr ↦ hr.elim) fun f r hr ↦ ⟨⟨hr.state.2, ?_⟩, hr.silent⟩
  rw [hr.state.1.1, hr.state.1.2]
  exact .of_barred hbarred hstays

namespace MovableFile

variable (h : MovableFile s p q)
include h

theorem exists_isDirectory : ∃ answer, s.isDirectory q = .ok answer := by
  rcases h.landing_cases with ⟨hanswer, -⟩ | ⟨-, -, hanswer, -⟩
  · exact ⟨_, hanswer⟩
  · exact ⟨_, hanswer⟩

/-- A file whose target lies in no directory is not moved. -/
theorem starts_moveFile_of_no_parent (hslot : ∀ d n, s.slot (landing s p q) ≠ .ok (.name d n))
    (hparent : ¬ s.HasParent (landing s p q))
    (hnone : s.entryAt .followed (landing s p q) = .ok none) :
    Ensures (Starts s c) (moveFile p q policy)
      (fun _ ↦ Run.On (FileMoved policy s c p (landing s p q)))
      (fun f ↦ Run.On fun s' c' ↦
        f.isSystem ∧ FileMoved policy s c p (landing s p q) s' (c'.increment "failed")) := by
  obtain ⟨d, n, id, content, -, -, -, hfound⟩ := h.exists_source
  have hsame := samePlace_of_answers hfound hnone
  have hexists := exists_of_answer hnone
  refine starts_moveFile_of_answers h.exists_isDirectory rfl (exists_of_answer hfound) hsame hexists
    (by simp) fun _ _ ↦ fileMoved_of_halted (.inl hparent) (by simp [Stays, hsame, hexists]) ?_
  obtain ⟨hunlink, f, hf, hmove⟩ := h.run_of_no_parent hslot
  rcases hunlink with hunlink | ⟨g, hg, hunlink⟩
  · refine Ensures.bind (Q := fun _ ↦ Starts s c) (starts_onStore_of_eq hunlink rfl) fun _ ↦ ?_
    exact Ensures.bind (Q := fun _ _ ↦ False) (halted_onStore_of_eq hmove hf) fun _ _ h ↦ h.elim
  · exact Ensures.bind (Q := fun _ _ ↦ False) (halted_onStore_of_eq hunlink hg) fun _ _ h ↦ h.elim

/-- A file that goes on and is not barred arrives. -/
theorem starts_arrival (hslot : s.slot (landing s p q) = .ok (.name d n)) (hname : IsName n)
    (hdistinct : s.place p ≠ d ++ [n])
    (hold : ∀ old, s.entry? (d ++ [n]) = some old → s.Leaf (d ++ [n]))
    (hstays : ¬ Stays s policy p (landing s p q)) (hbarred : ¬ Barred s policy (landing s p q)) :
    Ensures (Starts s c)
      (do onStore (StoreAction.unlinkIfThere (landing s p q))
          onStore (StoreAction.moveEntry p (landing s p q)); count "moved")
      (fun _ ↦ Run.On (FileMoved policy s c p (landing s p q))) E := by
  obtain ⟨d₀, n₀, id, content, hclean, hsource, hentry, -⟩ := h.exists_source
  have hplace : s.place p = d₀ ++ [n₀] := (location_of_slot h.linkFree hsource).symm
  have hplace' : s.place (landing s p q) = d ++ [n] := (location_of_slot h.linkFree hslot).symm
  rw [hplace] at hdistinct
  obtain ⟨s₁, s', hunlink, hmove, hmoved⟩ := StoreAction.exists_run_replace h.wellFormed hclean
    h.usable_landing.2.1 hsource hslot hname hdistinct hentry (by simp) hold
  refine Ensures.bind (Q := fun _ ↦ Starts s₁ c) (starts_onStore_of_eq hunlink rfl) fun _ ↦ ?_
  refine (starts_onStore_of_eq hmove (P := (· = s')) rfl).bind fun _ ↦ on_count fun _ _ hr ↦ ?_
  rw [hr.2, hr.1]
  exact .of_moved (by rwa [hplace, hplace']) hstays hbarred

/-- A directory does not give way to a file. -/
theorem halted_arrival (hslot : s.slot (landing s p q) = .ok (.name d n))
    (hdir : s.entry? (d ++ [n]) = some .dir) :
    Ensures (Starts s c)
      (do onStore (StoreAction.unlinkIfThere (landing s p q))
          onStore (StoreAction.moveEntry p (landing s p q)); count "moved")
      (fun _ _ ↦ False) (Halted s c) := by
  have hunlink : (StoreAction.unlinkIfThere (landing s p q)).run s =
      (.error (.ofPath .isDirectory (landing s p q)), s) := by
    rw [StoreAction.run_unlinkIfThere, h.usable_landing.2.1]
    simp [Store.unlink, hslot, hdir, bind, Except.bind]
  exact Ensures.bind (Q := fun _ _ ↦ False) (halted_onStore_of_eq hunlink rfl) fun _ _ h ↦ h.elim

/-- A file goes to a name in a directory, or stays if what has the name does not give way. -/
theorem starts_moveFile_of_slot (hslot : s.slot (landing s p q) = .ok (.name d n)) (hname : IsName n)
    (hparent : s.HasParent (landing s p q))
    (hother : s.entryAt .followed (landing s p q) =
      .ok ((s.entry? (d ++ [n])).map fun entry ↦ (d ++ [n], entry))) :
    Ensures (Starts s c) (moveFile p q policy)
      (fun _ ↦ Run.On (FileMoved policy s c p (landing s p q)))
      (fun f ↦ Run.On fun s' c' ↦
        f.isSystem ∧ FileMoved policy s c p (landing s p q) s' (c'.increment "failed")) := by
  obtain ⟨d₀, n₀, id, content, -, hsource, hentry, hfound⟩ := h.exists_source
  have hplace : s.place p = d₀ ++ [n₀] := (location_of_slot h.linkFree hsource).symm
  have hsame := samePlace_of_answers hfound hother
  have hexists := exists_of_answer hother
  have hdirectory := isDirectory_of_answer hother
  have hstaysIff := stays_iff policy hsame hexists
  refine starts_moveFile_of_answers h.exists_isDirectory rfl (exists_of_answer hfound) hsame hexists
    (fun hstays ↦ ?_) fun hdifferent hgoes ↦ ?_
  · refine .of_stays (hstaysIff.mpr hstays) ?_
    rintro (hno | ⟨rfl, hdir⟩)
    · exact hno hparent
    · have hentry' : s.entry? (d ++ [n]) = some .dir := by
        rw [hdirectory] at hdir
        cases hthere : s.entry? (d ++ [n]) with
        | none => simp [hthere, answers] at hdir
        | some entry => cases entry <;> simp_all [answers, Entry.isDir]
      have hlocations : d₀ ++ [n₀] = d ++ [n] := by simpa [hentry', isSame] using hstays
      cases hentry.symm.trans (hlocations ▸ hentry')
  have hstays : ¬ Stays s policy p (landing s p q) := fun hstays ↦
    (hstaysIff.mp hstays).elim (fun htrue ↦ by simp [hdifferent] at htrue) hgoes
  cases hthere : s.entry? (d ++ [n]) with
  | none =>
    refine h.starts_arrival hslot hname (hplace ▸ fun heq ↦ ?_) (by simp [hthere]) hstays ?_
    · cases (heq ▸ hentry).symm.trans hthere
    · simp [Barred, hparent, hdirectory, hthere, answers]
  | some entry =>
    cases entry with
    | link text => exact absurd hthere (h.linkFree _ _)
    | file id' content' =>
      refine h.starts_arrival hslot hname (hplace ▸ fun heq ↦ ?_) (fun _ _ ↦ .inl ⟨_, _, hthere⟩)
        hstays ?_
      · cases (heq ▸ hentry).symm.trans hthere
        simp [hthere, isSame] at hdifferent
      · simp [Barred, hparent, hdirectory, hthere, answers, Entry.isDir]
    | dir =>
      have hpolicy : policy = .replace := by
        cases policy with
        | replace => rfl
        | merge => exact absurd ⟨rfl, by simp [hthere]⟩ hgoes
      have hbarred : Barred s policy (landing s p q) :=
        .inr ⟨hpolicy, by rw [hdirectory, hthere]; rfl⟩
      exact fileMoved_of_halted hbarred hstays (h.halted_arrival hslot hthere)

end MovableFile

/-- The move of a file ends as it is to, whether it fails or not. -/
theorem starts_moveFile_of_movable (h : MovableFile s p q) :
    Ensures (Starts s c) (moveFile p q policy)
      (fun _ ↦ Run.On (FileMoved policy s c p (landing s p q)))
      (fun f ↦ Run.On fun s' c' ↦
        f.isSystem ∧ FileMoved policy s c p (landing s p q) s' (c'.increment "failed")) := by
  rcases h.target_cases with ⟨d, n, hslot, hname, hparent, hother⟩ | ⟨hslot, hparent, hnone⟩
  · exact h.starts_moveFile_of_slot hslot hname hparent hother
  · exact h.starts_moveFile_of_no_parent hslot hparent hnone

/-- A plain move of a file skips it, fails or brings it to its target, as the target and the policy
say, and counts what it does. -/
theorem fileMoved_of_move (x : Executor) (source destination : String) (policy : OverwritePolicy)
    {r : Run} (hx : x.workingDirectory.Proper) (hs : r.store.WellFormed) (hfree : r.store.LinkFree)
    (hsilent : r.journal.file = none) (hplain : Path.hasWildcard source = false)
    (hfile : r.store.isFile (Path.resolve source x.workingDirectory) = .ok true)
    (hclean : (Path.resolve destination x.workingDirectory).hasNul = false)
    (hlegal : ∀ name ∈ (Path.resolve destination x.workingDirectory).parts,
      name.utf8ByteSize ≤ nameLimit)
    (hshort : (landing r.store (Path.resolve source x.workingDirectory)
      (Path.resolve destination x.workingDirectory)).text.utf8ByteSize < pathLimit) :
    let p := Path.resolve source x.workingDirectory
    let q := Path.resolve destination x.workingDirectory
    let result := (x.move source destination policy).run r
    result.1 = .ok () ∧
      FileMoved policy r.store r.counters p (landing r.store p q) result.2.store result.2.counters := by
  intro p q result
  have h : MovableFile r.store p q :=
    ⟨hs, hfree, hfile, proper_resolve hx destination, hclean, hlegal, hshort⟩
  obtain ⟨_, _, _, _, -, -, -, hfound⟩ := h.exists_source
  exact ends_of_move x destination hplain hsilent
    (starts_moveEntryFrom_of_file (isDirectory_of_answer hfound) (starts_moveFile_of_movable h))

/-- A file that replaces another one, and one that is to go below a file. -/
theorem fileMoved_of_move_replaced :
    let s := ((Store.empty.put ["d"] .dir).putFile ["d", "f"] [100]).putFile ["f"] [102]
    let replaced := (move ⟨⟨.top, []⟩, none⟩ "f" "d" .replace).run (Run.first s)
    let barred := (move ⟨⟨.top, []⟩, none⟩ "f" "d/f/g" .replace).run (Run.first s)
    s.EntryMoved ["f"] ["d", "f"] replaced.2.store ∧
      replaced.2.counters = (Run.first s).counters.increment "moved" ∧
      barred.2.store = s ∧ barred.2.counters = (Run.first s).counters.increment "failed" := by
  intro s replaced barred
  have hs : (Run.first s).store.WellFormed := by decide
  have hfree : (Run.first s).store.LinkFree := .of_entries (by decide)
  have hlands : landing s ⟨.top, ["f"]⟩ ⟨.top, ["d"]⟩ = ⟨.top, ["d", "f"]⟩ := rfl
  have hlands' : landing s ⟨.top, ["f"]⟩ ⟨.top, ["d", "f", "g"]⟩ = ⟨.top, ["d", "f", "g"]⟩ := rfl
  have hparent : s.HasParent ⟨.top, ["d", "f"]⟩ := ⟨["d"], rfl, rfl⟩
  have hnoParent : ¬ s.HasParent ⟨.top, ["d", "f", "g"]⟩ := by
    rintro ⟨directory, hfound, -⟩
    cases hfound
  have htop : Path.Proper ⟨.top, []⟩ := fun _ h ↦ absurd h (by simp)
  have hbarred := (fileMoved_of_move ⟨⟨.top, []⟩, none⟩ "f" "d/f/g" .replace htop hs hfree rfl
    (by decide) rfl (by decide) (by decide +kernel) (by decide +kernel)).2.failed (.inl hnoParent)
  have hreplaced := (fileMoved_of_move ⟨⟨.top, []⟩, none⟩ "f" "d" .replace htop hs hfree rfl
    (by decide) rfl (by decide) (by decide +kernel) (by decide +kernel)).2.moved (fun h ↦ ?_)
    fun h ↦ ?_
  · exact ⟨hreplaced.1, hreplaced.2, hbarred⟩
  · rcases h with hsame | ⟨hmerge, -⟩
    · cases hsame
    · cases hmerge
  · rcases h with hno | ⟨-, hdir⟩
    · exact hno hparent
    · cases hdir

/-- A file is not moved to a path that is too long, which counts as a failure. -/
theorem still_of_file_out_of_reach (x : Executor) (source destination : String)
    (policy : OverwritePolicy) (hplain : Path.hasWildcard source = false) {r : Run}
    (hsilent : r.journal.file = none)
    (hsource : r.store.isDirectory (Path.resolve source x.workingDirectory) = .ok false)
    (hclean : (Path.resolve destination x.workingDirectory).hasNul = false)
    (hlong : pathLimit ≤ (Path.resolve destination x.workingDirectory).text.utf8ByteSize) :
    ((x.move source destination policy).run r).2.store = r.store := by
  have hanswer : r.store.isDirectory (Path.resolve destination x.workingDirectory) =
      .error (.ofPath .nameTooLong (Path.resolve destination x.workingDirectory)) := by
    rw [Store.isDirectory, entryAt_of_long hclean hlong]
    rfl
  have hmove : Ensures (Starts r.store r.counters)
      (moveFile (Path.resolve source x.workingDirectory) (Path.resolve destination x.workingDirectory)
        policy) (fun _ ↦ Run.On fun s' _ ↦ s' = r.store)
      (fun f ↦ Run.On fun s' _ ↦ f.isSystem ∧ s' = r.store) := by
    refine ((halted_ask fun f ↦ isSystem_of_isDirectory).weaken (fun _ hr ↦ hr) (fun _ _ hr ↦ hr)
      fun f r hr ↦ ⟨⟨hr.state.2, hr.state.1.1⟩, hr.silent⟩).bind fun isDirectory ↦
      ensures_assume fun hdirectory ↦ ?_
    cases hanswer.symm.trans hdirectory
  exact (ends_of_move x destination hplain hsilent (starts_moveEntryFrom_of_file hsource hmove)).2

/-- Two moves that do not end as they are to: the path of the target is too long, and the report of the
move goes to a file in the tree. -/
theorem not_fileMoved_of_move :
    (let s := (nested (letters 250) 16).putFile ["f"] [102]
     let x : Executor := ⟨deepDirectory, none⟩
     let target := deepDirectory.parts ++ [letters 100]
     s.WellFormed ∧ s.LinkFree ∧ s.isFile (Path.resolve "/f" x.workingDirectory) = .ok true ∧
        IsName (letters 100) ∧ s.entry? deepDirectory.parts = some .dir ∧ s.entry? target = none ∧
        ¬ s.EntryMoved ["f"] target
          ((x.move "/f" (letters 100) .replace).run (Run.first s)).2.store) ∧
    (reporting.store.WellFormed ∧ reporting.store.LinkFree ∧
      reporting.store.isFile (Path.resolve "f" ⟨.top, []⟩) = .ok true ∧
      reporting.store.entry? ["d"] = none ∧
      ¬ reporting.store.EntryMoved ["f"] ["d"]
        ((move ⟨⟨.top, []⟩, none⟩ "f" "d" .replace).run reporting).2.store) := by
  refine ⟨?_, by decide, .of_entries (by decide), rfl, rfl, fun h ↦ ?_⟩
  · have hname : IsName (letters 100) := isName_letters (by decide) (by decide)
    obtain ⟨hs', hlinkFree, hdir, hvacant⟩ :=
      @beside_deepDirectory "f" [102] _ (by decide) (by decide +kernel) rfl
    have hresolve : Path.resolve (letters 100) deepDirectory = deepDirectory.child (letters 100) := by
      have htext : Path.ofString (letters 100) = ⟨.here, [letters 100]⟩ := by decide +kernel
      rw [Path.resolve, htext]
      rfl
    have hput (l : Location) : Store.entry? ((nested (letters 250) 16).putFile ["f"] [102]) l =
        if l = ["f"] then some (.file (nested (letters 250) 16).freshId [102])
        else Store.entry? (nested (letters 250) 16) l := entry?_putFile (by simp)
    have hfound : ((nested (letters 250) 16).putFile ["f"] [102]).entryAt .followed
        (Path.resolve "/f" deepDirectory) =
          .ok (some (["f"], .file (nested (letters 250) 16).freshId [102])) := by
      have hresolve : Path.resolve "/f" deepDirectory = ⟨.top, ["f"]⟩ := by decide +kernel
      have hlooked : LookedUp [] "f" := ⟨by decide, by decide, rfl, by decide⟩
      rw [hresolve]
      exact entryAt_eq_some_iff.mpr ⟨rfl, target_eq_ok_iff.mpr
        ⟨by decide +kernel, .file hlooked ((hput ["f"]).trans (if_pos rfl))⟩⟩
    refine ⟨hs', hlinkFree, ?_, hname, hdir, hvacant _, fun h ↦ ?_⟩
    · rw [Store.isFile, hfound]
      rfl
    · have hclean : (Path.resolve (letters 100) deepDirectory).hasNul = false := by
        rw [hresolve, Path.hasNul_child hname.isClean,
          hasNul_deepDirectory]
      have hlong : pathLimit ≤ (Path.resolve (letters 100) deepDirectory).text.utf8ByteSize := by
        rw [hresolve, Path.size_text_child_eq (by simp [deepDirectory]), size_deepDirectory,
          size_letters]
        decide
      have hstill := still_of_file_out_of_reach ⟨deepDirectory, none⟩ "/f" (letters 100) .replace
        (by decide) (r := Run.first ((nested (letters 250) 16).putFile ["f"] [102])) rfl
        (isDirectory_of_answer hfound) hclean hlong
      have hgone := h.gone
      rw [hstill] at hgone
      cases (hput ["f"]).symm.trans hgone
  · have hreport : Store.entry? ((move ⟨⟨.top, []⟩, none⟩ "f" "d" .replace).run reporting).2.store
        ["e"] ≠ none := by
      decide +kernel
    exact hreport (h.stays (by decide) (by decide))

end Executor

end DeferredOps
