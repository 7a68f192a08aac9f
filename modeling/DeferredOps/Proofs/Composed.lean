import DeferredOps.Proofs.Counting
import DeferredOps.Proofs.Executor
import DeferredOps.Proofs.Reports
import DeferredOps.Proofs.Store.Opened

/-!
# What operations are made of

The operations of an executor are put together from a few parts: questions about the store, actions
on it that leave open files alone, counts, reports, and command lines that are handed over. What holds
of the parts and is passed on by the ways to put them together holds of every instruction: a file that
is open for reading is not written to, except by events.
-/

namespace DeferredOps

open Action

namespace RunAction

/-- An operation that is put together from parts like these, with counts under these names. -/
inductive Composed (names : List String) : {α : Type} → RunAction α → Prop
  | pure {α : Type} (a : α) : Composed names (pure a)
  | throw {α : Type} (f : Failure) : Composed names (throw f : RunAction α)
  | bind {α β : Type} {x : RunAction α} {next : α → RunAction β} (hx : Composed names x)
      (hnext : ∀ a, Composed names (next a)) : Composed names (x >>= next)
  | tryCatch {α : Type} {x : RunAction α} {handler : Failure → RunAction α}
      (hx : Composed names x) (hhandler : ∀ f, Composed names (handler f)) :
      Composed names (tryCatch x handler)
  /-- What follows a question may use that some store has given the answer. -/
  | ask {α β : Type} {question : Store → Except Failure α} {next : α → RunAction β}
      (hsame : ∀ s opened, question (s.withOpened opened) = question s)
      (hnext : ∀ s a, s.WellFormed → question s = .ok a → Composed names (next a)) :
      Composed names (ask question >>= next)
  | act {action : StoreAction Unit} (h : StoreAction.Calm action) : Composed names (onStore action)
  | count {name : String} (h : name ∈ names) : Composed names (count name)
  | report (severity : Severity) (message : String) :
      Composed names (discard (emit severity message (.obj [])))
  | command (line : String) :
      Composed names (modify fun run ↦ { run with commands := run.commands ++ [line] })

variable {names : List String} {α β : Type}

theorem Composed.mono {more : List String} {x : RunAction α} (h : Composed names x)
    (hnames : names ⊆ more) : Composed more x := by
  induction h with
  | pure a => exact .pure a
  | throw f => exact .throw f
  | bind _ _ hx hnext => exact .bind hx hnext
  | tryCatch _ _ hx hhandler => exact .tryCatch hx hhandler
  | ask hsame _ hnext => exact .ask hsame hnext
  | act h => exact .act h
  | count h => exact .count (hnames h)
  | report severity message => exact .report severity message
  | command line => exact .command line

theorem composed_forM {γ : Type} {body : γ → RunAction PUnit} (elements : List γ)
    (h : ∀ c ∈ elements, Composed names (body c)) : Composed names (elements.forM body) := by
  induction elements with
  | nil => exact .pure _
  | cons c rest ih =>
    exact .bind (h c List.mem_cons_self) fun _ ↦ ih fun d hd ↦ h d (List.mem_cons_of_mem _ hd)

theorem composed_forIn {γ : Type} {turn : γ → PUnit → RunAction (ForInStep PUnit)}
    (elements : List γ) (h : ∀ c ∈ elements, Composed names (turn c ⟨⟩)) :
    Composed names (forIn elements PUnit.unit turn) := by
  induction elements with
  | nil =>
    rw [List.forIn_nil]
    exact .pure _
  | cons c rest ih =>
    rw [List.forIn_cons]
    refine .bind (h c List.mem_cons_self) fun step ↦ ?_
    cases step with
    | done => exact .pure _
    | yield => exact ih fun d hd ↦ h d (List.mem_cons_of_mem _ hd)

theorem Composed.surviving {report : Failure → String} {operation : RunAction Unit}
    (h : Composed names operation) (hfailed : "failed" ∈ names) :
    Composed names (surviving report operation) := by
  refine .tryCatch h fun f ↦ ?_
  split
  · exact .bind (.count hfailed) fun _ ↦ .report _ _
  · exact .throw f

end RunAction

namespace Executor

open RunAction

variable {source destination : Path}

/-- An operation of an executor, by its parts. -/
abbrev Composed {α : Type} (x : RunAction α) : Prop := RunAction.Composed counterNames x

/-! ## Deleting -/

theorem composed_deleteFile (file : Path) : Composed (deleteFile file) :=
  .bind (.report _ _) fun _ ↦ .bind (.act (StoreAction.calm_unlink file)) fun _ ↦ .count (by decide)

theorem composed_deletePlain (target : Path) : Composed (deletePlain target) := by
  refine .ask (fun s opened ↦ s.isDirectory_withOpened opened target) fun _ _ _ _ ↦ ?_
  split
  · exact .bind (.report _ _) fun _ ↦ .bind (.act (StoreAction.calm_removeTree target)) fun _ ↦
      .count (by decide)
  refine .ask (fun s opened ↦ s.isFile_withOpened opened target) fun _ _ _ _ ↦ ?_
  split
  · exact composed_deleteFile target
  refine .ask (fun s opened ↦ s.isLink_withOpened opened target) fun _ _ _ _ ↦ ?_
  split
  · exact composed_deleteFile target
  · exact .pure _

theorem composed_delete (x : Executor) (pattern : String) : Composed (x.delete pattern) := by
  refine Composed.surviving ?_ (by decide)
  split
  · unfold splitWildcard
    split
    · refine .bind (.pure _) fun wildcard ↦ ?_
      exact .ask (fun s opened ↦ s.matchingFiles_withOpened opened _ _) fun _ files _ _ ↦
        composed_forM files fun file _ ↦ composed_deleteFile file
    · exact .bind (.throw _) fun wildcard ↦
        .ask (fun s opened ↦ s.matchingFiles_withOpened opened _ _) fun _ files _ _ ↦
          composed_forM files fun file _ ↦ composed_deleteFile file
  · exact composed_deletePlain _

/-! ## Moving -/

theorem proper_within (hdestination : destination.Proper) (hsource : source.Proper) :
    (within destination source).Proper := by
  have husable {p : Path} (hp : p.Proper) : p.Usable True := ⟨hp, fun _ ↦ trivial⟩
  exact (usable_within (husable hdestination) (husable hsource)).proper

theorem composed_mayReplace (policy : OverwritePolicy) (target : Path) :
    Composed (mayReplace policy target) := by
  unfold mayReplace
  split
  · exact .pure _
  · exact .ask (fun s opened ↦ s.exists?_withOpened opened target) fun _ _ _ _ ↦ .pure _

theorem composed_removeTarget (target : Path) : Composed (removeTarget target) := by
  refine .ask (fun s opened ↦ s.isDirectory_withOpened opened target) fun _ _ _ _ ↦ ?_
  split
  · exact .act (StoreAction.calm_removeTree target)
  refine .ask (fun s opened ↦ s.exists?_withOpened opened target) fun _ _ _ _ ↦ ?_
  split
  · exact .act (StoreAction.calm_unlink target)
  · exact .pure _

theorem composed_skip (message : String) : Composed (do info message; count "skipped") :=
  .bind (.report _ _) fun _ ↦ .count (by decide)

section Children

variable {moveChild : Path → Path → RunAction Unit}
  (hchild : ∀ {S D : Path}, S.Proper → D.Proper → Composed (moveChild S D))
include hchild

theorem composed_mergeDirectory (hsource : source.Proper) (hdestination : destination.Proper) :
    Composed (mergeDirectory moveChild source destination) := by
  refine .bind (.report _ _) fun _ ↦ ?_
  refine .ask (fun s opened ↦ by simp) fun s names hs hnames ↦ ?_
  refine .bind (composed_forIn names fun name hname ↦ ?_) fun _ ↦ .bind (.count (by decide)) fun _ ↦ ?_
  · have hclean : Store.IsClean name := by
      cases hlist : s.list source with
      | error f => simp [hlist, Except.map] at hnames
      | ok found =>
        simp only [hlist, Except.map, Except.ok.injEq] at hnames
        subst hnames
        exact Store.isClean_of_mem_list hs hlist (by simpa [Store.sortNames] using hname)
    exact .bind (hchild (hsource.child hclean.toIsPart) hdestination) fun _ ↦ .pure _
  · refine .ask (fun s opened ↦ s.list_withOpened opened source) fun _ _ _ _ ↦ ?_
    split
    · exact .act (StoreAction.calm_removeDirectory source)
    · exact .pure _

theorem composed_moveDirectory (hsource : source.Proper) (hdestination : destination.Proper)
    (policy : OverwritePolicy) : Composed (moveDirectory moveChild source destination policy) := by
  have hwithin := proper_within hdestination hsource
  refine .ask (fun s opened ↦ s.isDirectory_withOpened opened destination) fun _ _ _ _ ↦ ?_
  split
  · exact .bind (.report _ _) fun _ ↦
      .bind (.act (StoreAction.calm_moveEntry source hdestination)) fun _ ↦ .count (by decide)
  refine .bind (.report _ _) fun _ ↦ ?_
  refine .ask (fun s opened ↦ s.samePlace_withOpened opened source _) fun _ _ _ _ ↦ ?_
  split
  · exact composed_skip _
  refine .bind (composed_mayReplace policy _) fun replace ↦ ?_
  split
  · exact .bind (composed_removeTarget _) fun _ ↦
      .bind (.act (StoreAction.calm_moveEntry source hwithin)) fun _ ↦ .count (by decide)
  · exact composed_mergeDirectory hchild hsource hwithin

end Children

theorem composed_moveFile (hsource : source.Proper) (hdestination : destination.Proper)
    (policy : OverwritePolicy) : Composed (moveFile source destination policy) := by
  refine .ask (fun s opened ↦ s.isDirectory_withOpened opened destination) fun _ there _ _ ↦ ?_
  have htarget : (if there then within destination source else destination).Proper := by
    split
    · exact proper_within hdestination hsource
    · exact hdestination
  revert htarget
  generalize (if there then within destination source else destination) = target
  intro htarget
  refine .ask (fun s opened ↦ s.samePlace_withOpened opened source target) fun _ _ _ _ ↦ ?_
  split
  · exact composed_skip _
  refine .bind (composed_mayReplace policy target) fun replace ↦ ?_
  split
  · refine .bind (.report _ _) fun _ ↦ ?_
    refine .ask (fun s opened ↦ s.exists?_withOpened opened source) fun _ _ _ _ ↦ ?_
    have hmove : Composed (do
        onStore (StoreAction.unlinkIfThere target)
        onStore (StoreAction.moveEntry source target)
        count "moved") :=
      .bind (.act (StoreAction.calm_unlinkIfThere target)) fun _ ↦
        .bind (.act (StoreAction.calm_moveEntry source htarget)) fun _ ↦ .count (by decide)
    split
    · exact .bind (.throw _) fun _ ↦ hmove
    · exact hmove
  · exact composed_skip _

theorem composed_moveEntryFrom (policy : OverwritePolicy) (depth : ℕ) (hsource : source.Proper)
    (hdestination : destination.Proper) :
    Composed (moveEntryFrom policy depth source destination) := by
  induction depth generalizing source destination with
  | zero => exact Composed.surviving (.throw _) (by decide)
  | succ depth ih =>
    refine Composed.surviving ?_ (by decide)
    refine .ask (fun s opened ↦ s.isDirectory_withOpened opened source) fun _ _ _ _ ↦ ?_
    split
    · exact composed_moveDirectory ih hsource hdestination policy
    · exact composed_moveFile hsource hdestination policy

theorem composed_move (x : Executor) (hx : x.workingDirectory.Proper) (source destination : String)
    (policy : OverwritePolicy) : Composed (x.move source destination policy) := by
  have hdestination := proper_resolve hx destination
  by_cases hwild : Path.hasWildcard source
  · rw [move_of_wildcard x destination policy hwild]
    refine Composed.surviving ?_ (by decide)
    unfold moveMatching splitWildcard
    cases hsplit : Wildcard.ofString source with
    | error e =>
      dsimp only
      exact .throw _
    | ok wildcard =>
      simp only [pure_bind]
      refine .bind (.act (StoreAction.calm_ensureDirectory hdestination)) fun _ ↦ ?_
      refine .ask (fun s opened ↦ s.matchingFiles_withOpened opened _ _) fun s files hs hfiles ↦ ?_
      refine .bind (composed_forIn files fun file hfile ↦ ?_) fun _ ↦ .pure _
      obtain ⟨directory, -, hmem⟩ := Store.listed_of_matchingFiles hfiles
      obtain ⟨name, hname, rfl, -⟩ := hmem file hfile
      have hclean := Store.isClean_of_mem_names hs hname
      have hparent : (Path.below x.workingDirectory wildcard.parent).Proper := by
        rw [parent_of_wildcard x.workingDirectory hsplit]
        exact fun n hn ↦ proper_resolve hx source n (List.mem_of_mem_dropLast hn)
      exact .bind (.report _ _) fun _ ↦ .bind (composed_moveEntryFrom policy _
        (hparent.child hclean.toIsPart) hdestination) fun _ ↦ .pure _
  · rw [move_of_plain x destination policy (by simpa using hwild)]
    exact composed_moveEntryFrom policy _ (proper_resolve hx source) hdestination

/-! ## Instructions -/

theorem composed_runCommand (x : Executor) (commandLine : String) :
    Composed (x.runCommand commandLine) := by
  unfold runCommand
  dsimp only
  split
  · exact .report _ _
  · refine .bind (.report _ _) fun _ ↦ Composed.surviving (.bind (.command _) fun _ ↦ ?_) (by decide)
    split
    · exact .count (by decide)
    · exact .throw _

theorem composed_execute (x : Executor) (hx : x.workingDirectory.Proper) (instruction : Instruction) :
    Composed (x.execute instruction) := by
  unfold execute perform
  split
  · exact .report _ _
  · exact composed_delete x _
  · exact composed_runCommand x _
  · exact composed_move x hx _ _ _

end Executor

/-! ## What every operation keeps -/

namespace RunAction

variable {names : List String}

/-- What the parts keep is kept by the operations that are put together from them. -/
theorem Composed.keeps {inv : Run → Prop} (hstore : ∀ r, inv r → r.store.WellFormed)
    (hact : ∀ action, StoreAction.Calm action → Keeps inv (fun _ ↦ True) (onStore action))
    (hcount : ∀ name, Keeps inv (fun _ ↦ True) (RunAction.count name))
    (hreport : ∀ severity message,
      Keeps inv (fun _ ↦ True) (discard (emit severity message (.obj []))))
    (hcommand : ∀ line, Keeps inv (fun _ ↦ True)
      (modify fun run ↦ { run with commands := run.commands ++ [line] }))
    {α : Type} {x : RunAction α} (h : Composed names x) : Keeps inv (fun _ ↦ True) x := by
  induction h with
  | pure a => exact keeps_pure a
  | throw f => exact keeps_throw trivial
  | bind _ _ hx hnext => exact hx.bind hnext
  | tryCatch _ _ hx hhandler => exact hx.tryCatch fun f _ ↦ hhandler f
  | @ask _ _ question _ _ _ hnext =>
    intro r hr
    rw [run_bind, run_ask]
    cases hanswer : question r.store with
    | error f => exact ⟨hr, trivial⟩
    | ok a => exact hnext r.store a (hstore r hr) hanswer r hr
  | act h => exact hact _ h
  | count _ => exact hcount _
  | report severity message => exact hreport severity message
  | command line => exact hcommand line

/-- A condition on runs is kept by an action on the store if it is kept where the store changes as
the action changes it. -/
theorem keeps_act {inv : Run → Prop} {action : StoreAction Unit}
    (h : ∀ r, inv r → inv { r with store := (action.run r.store).2 }) :
    Keeps inv (fun _ ↦ True) (onStore action) := by
  refine keeps_of_state fun r hr ↦ ?_
  rw [run_onStore]
  exact h r hr

end RunAction

/-! ## Files that are read meanwhile -/

/-- A sound run in which a file is open for reading that begins with this content. -/
structure Run.Reads (file : ℕ) (content : Bytes) (r : Run) : Prop where
  sound : r.Sound Store.WellFormed False
  begins : content <+: r.store.openContent file

/-- A run without an event file in which these files are open. -/
structure Run.Still (opened : List (ℕ × Bytes)) (r : Run) : Prop where
  wellFormed : r.store.WellFormed
  silent : r.journal.file = none
  opened : r.store.opened = opened

/-- Adding to a file adds to what its readers find. -/
theorem Store.openContent_setContent {change : Bytes → Bytes} (hchange : ∀ b, b <+: change b)
    (s : Store) (id file : ℕ) :
    s.openContent file <+: (s.setContent id change).openContent file := by
  unfold Store.openContent Store.setContent
  dsimp only
  induction s.opened with
  | nil => exact List.prefix_refl _
  | cons first rest ih =>
    obtain ⟨other, content⟩ := first
    simp only [List.map_cons, List.lookup_cons]
    split
    · split
      · exact hchange content
      · exact List.prefix_refl _
    · exact ih

theorem StoreAction.openContent_write {change : Bytes → Bytes} (hchange : ∀ b, b <+: change b)
    (path : Path) (s : Store) (file : ℕ) :
    s.openContent file <+: ((StoreAction.write path change).run s).2.openContent file := by
  unfold StoreAction.write
  rw [StoreAction.run_change]
  split
  · exact List.prefix_refl _
  · cases hop : s.write path change with
    | error e => exact List.prefix_refl _
    | ok s' =>
      rcases Store.write_ok hop with ⟨-, id, -, -, rfl⟩ | ⟨d, n, -, rfl⟩
      · exact Store.openContent_setContent hchange s id file
      · exact List.prefix_refl _

namespace RunAction

variable {names : List String} {α : Type} {file : ℕ} {content : Bytes} {opened : List (ℕ × Bytes)}

/-- An event is added to the end of the event file. -/
theorem begins_report (severity : Severity) (message : String) (r : Run)
    (hr : content <+: r.store.openContent file) :
    content <+: ((discard (emit severity message (.obj []))).run r).2.store.openContent file := by
  rw [run_report]
  cases r.journal.file with
  | none => exact hr
  | some path =>
    have hwrite : Keeps (fun t : Run ↦ content <+: t.store.openContent file) (fun _ ↦ True)
        (writeEvent path (r.nextEvent severity message)) := by
      refine Keeps.tryCatch (keeps_act fun t ht ↦ ?_) fun f _ ↦ ?_
      · exact ht.trans
          (StoreAction.openContent_write (fun b ↦ List.prefix_append b _) path t.store file)
      · split
        · exact keeps_modify fun _ ht ↦ ht
        · exact keeps_throw trivial
    exact hwrite.state hr

/-- What is read stays, and only events can be added to it. -/
theorem Composed.keeps_reads {x : RunAction α} (h : Composed names x) :
    Keeps (Run.Reads file content) (fun _ ↦ True) x := by
  refine h.keeps (fun r hr ↦ hr.sound.store) (fun action hcalm ↦ keeps_act fun r hr ↦ ?_)
    (fun name ↦ keeps_modify fun r hr ↦ ⟨⟨hr.sound.store, hr.sound.journal⟩, hr.begins⟩)
    (fun severity message r hr ↦ ?_)
    fun line ↦ keeps_modify fun r hr ↦ ⟨⟨hr.sound.store, hr.sound.journal⟩, hr.begins⟩
  · refine ⟨⟨hcalm.wellFormed hr.sound.store, hr.sound.journal⟩, ?_⟩
    unfold Store.openContent
    rw [hcalm.opened hr.sound.store]
    exact hr.begins
  · have hbegins := begins_report severity message r hr.begins
    obtain ⟨r', hrun, -, hsound⟩ := run_report_ok severity message hr.sound
    rw [hrun] at hbegins ⊢
    exact ⟨hsound, hbegins⟩

theorem Composed.sound {x : RunAction α} (h : Composed names x) {r : Run}
    (hr : r.Sound Store.WellFormed False) : (x.run r).2.Sound Store.WellFormed False :=
  (h.keeps_reads.state (⟨hr, List.nil_prefix⟩ : Run.Reads 0 [] r)).sound

/-- Without an event file, what is open stays as it is. -/
theorem Composed.keeps_still {x : RunAction α} (h : Composed names x) :
    Keeps (Run.Still opened) (fun _ ↦ True) x := by
  refine h.keeps (fun r hr ↦ hr.wellFormed) (fun action hcalm ↦ keeps_act fun r hr ↦ ?_)
    (fun name ↦ keeps_modify fun r hr ↦ ⟨hr.wellFormed, hr.silent, hr.opened⟩)
    (fun severity message r hr ↦ ?_)
    fun line ↦ keeps_modify fun r hr ↦ ⟨hr.wellFormed, hr.silent, hr.opened⟩
  · exact ⟨hcalm.wellFormed hr.wellFormed, hr.silent, (hcalm.opened hr.wellFormed).trans hr.opened⟩
  · rw [run_report, hr.silent]
    exact ⟨hr.wellFormed, hr.silent, hr.opened⟩

end RunAction

end DeferredOps
