import DeferredOps.Proofs.Merging
import DeferredOps.Proofs.PlainDeletions
import DeferredOps.Proofs.Store.Spelling

/-!
# What a move reports

Every report of a move is about its source or, in a merge, about something below its source.
-/

namespace DeferredOps

open Action

/-- Only reports of a kind have been made since another state, and the store is well-formed. -/
structure Run.Talks (P : Notice → Prop) (r r' : Run) : Prop where
  wellFormed : r'.WellFormed
  news : ∃ news, (∀ n ∈ news, P n) ∧ r'.notices = r.notices ++ news

variable {P : Notice → Prop} {r r' r'' : Run}

theorem Run.Talks.refl (hr : r.WellFormed) : r.Talks P r :=
  ⟨hr, [], by simp, by simp⟩

theorem Run.Talks.trans (h : r.Talks P r') (h' : r'.Talks P r'') : r.Talks P r'' := by
  obtain ⟨news, hnews, hnotices⟩ := h.news
  obtain ⟨more, hmore, hnotices'⟩ := h'.news
  refine ⟨h'.wellFormed, news ++ more, fun n hn ↦ ?_, by rw [hnotices', hnotices, List.append_assoc]⟩
  exact (List.mem_append.mp hn).elim (hnews n) (hmore n)

namespace RunAction

/-! ## Steps -/

theorem talks_report {severity : Severity} {message : String} (h : P (severity, message)) :
    Keeps (r.Talks P) (fun _ ↦ True) (discard (emit severity message (.obj []))) := by
  refine keeps_of_state fun t ht ↦ ht.trans ⟨?_, [(severity, message)], by simpa using h, ?_⟩
  · have hemit : Keeps Run.WellFormed (fun f ↦ f = .embeddedNul ∧ True)
        (discard (emit severity message (.obj []))) :=
      (keeps_emit Store.invariant_wellFormed severity message (.obj [])).bind fun _ ↦ keeps_pure _
    exact hemit.state ht.wellFormed
  · exact (reported_report severity message t).notices

theorem talks_count (name : String) : Keeps (r.Talks P) (fun _ ↦ True) (count name) :=
  keeps_modify fun _ ht ↦ ⟨⟨ht.wellFormed.store, ht.wellFormed.journal⟩, ht.news⟩

theorem talks_onStore {α : Type} {allowed : Failure → Prop} {action : StoreAction α}
    (h : Keeps Store.WellFormed allowed action) :
    Keeps (r.Talks P) (fun _ ↦ True) (onStore action) := by
  intro t ht
  have haction := h t.store ht.wellFormed.store
  rw [run_onStore]
  rcases hrun : action.run t.store with ⟨f | a, s⟩ <;> rw [hrun] at haction
  · exact ⟨⟨⟨haction.1, ht.wellFormed.journal⟩, ht.news⟩, trivial⟩
  · exact ⟨⟨haction, ht.wellFormed.journal⟩, ht.news⟩

theorem talks_surviving {report : Failure → String} {operation : RunAction Unit}
    (h : Keeps (r.Talks P) (fun _ ↦ True) operation) (hreport : ∀ f, P (.warning, report f)) :
    Keeps (r.Talks P) (fun _ ↦ True) (surviving report operation) := by
  refine h.tryCatch fun f _ ↦ ?_
  split
  · exact (talks_count _).bind fun _ ↦ talks_report (hreport f)
  · exact keeps_throw trivial

/-- A question at the start. -/
theorem talks_ask_first {α : Type} (hr : r.WellFormed) (question : Store → Except Failure α) :
    Ensures (· = r) (ask question) (fun a t ↦ question r.store = .ok a ∧ t = r)
      (fun _ t ↦ r.Talks P t ∧ True) := by
  rintro t rfl
  rw [run_ask]
  cases hanswer : question t.store with
  | ok a => exact ⟨rfl, rfl⟩
  | error f => exact ⟨.refl hr, trivial⟩

theorem talks_first {α : Type} {x : RunAction α} (hr : r.WellFormed)
    (h : Keeps (r.Talks P) (fun _ ↦ True) x) :
    Ensures (· = r) x (fun _ ↦ r.Talks P) (fun _ t ↦ r.Talks P t ∧ True) :=
  Ensures.weaken h (fun _ ht ↦ ht.symm ▸ Run.Talks.refl hr) (fun _ _ ht ↦ ht) fun _ _ ht ↦ ht

end RunAction

namespace Executor

open RunAction Store

variable {source destination target : Path} {policy : OverwritePolicy} {depth : ℕ}
  {moveChild : Path → Path → RunAction Unit}

/-- A report that a move makes about its source, other than that this is its own target. -/
inductive Account (source : Path) : Notice → Prop
  | renamed (target : Path) : Account source
      (.info, "Move/rename directory " ++ source.text ++ " to directory " ++ target.text)
  | entered (target : Path) : Account source
      (.info, "Move directory " ++ source.text ++ " into existing directory " ++ target.text)
  | merged (target : Path) : Account source
      (.info, "Merge directory " ++ source.text ++ " into " ++ target.text)
  | moved (target : Path) : Account source
      (.info, "Move file " ++ source.text ++ " to " ++ target.text)
  | kept : Account source (.info, "Move file " ++ source.text ++ " overwrite skipped")
  | failed (message : String) : Account source (.warning, message)

/-- The report that the source of a move is its own target. -/
inductive OntoItself (source : Path) : Notice → Prop
  | directory : OntoItself source (.info, "Move directory " ++ source.text ++ " onto itself skipped")
  | file : OntoItself source (.info, "Move file " ++ source.text ++ " onto itself skipped")

/-- A path goes on from another with names of entries. -/
def Under (p q : Path) : Prop :=
  ∃ names, names ≠ [] ∧ (∀ name ∈ names, IsName name) ∧ q = p.extend names

theorem under_child {name : String} (hname : IsName name) : Under source (source.child name) :=
  ⟨[name], by simp, by simpa using hname, rfl⟩

theorem Under.trans {p q q' : Path} (h : Under p q) (h' : Under q q') : Under p q' := by
  obtain ⟨names, hne, hnames, rfl⟩ := h
  obtain ⟨more, -, hmore, rfl⟩ := h'
  refine ⟨names ++ more, by simp [hne], fun name hmem ↦ ?_, by simp [Path.extend]⟩
  exact (List.mem_append.mp hmem).elim (hnames name) (hmore name)

/-! ## Moves -/

theorem talks_mayReplace (policy : OverwritePolicy) (target : Path) :
    Keeps (r.Talks P) (fun _ ↦ True) (mayReplace policy target) := by
  cases policy with
  | replace => exact keeps_pure _
  | merge => exact (keeps_ask_frame _).bind fun _ ↦ keeps_pure _

theorem talks_removeTarget (target : Path) :
    Keeps (r.Talks P) (fun _ ↦ True) (removeTarget target) := by
  refine (keeps_ask_frame _).bind fun directory ↦ ?_
  split
  · exact talks_onStore (StoreAction.keeps_removeTree invariant_wellFormed fun _ ↦ trivial)
  refine (keeps_ask_frame _).bind fun there ↦ ?_
  split
  · exact talks_onStore (StoreAction.keeps_unlink invariant_wellFormed fun _ ↦ trivial)
  · exact keeps_pure _

theorem talks_moved (source : Path) (htarget : target.Proper) :
    Keeps (r.Talks P) (fun _ ↦ True) (do onStore (StoreAction.moveEntry source target); count "moved") :=
  (talks_onStore (StoreAction.keeps_moveEntry invariant_wellFormed (fun _ ↦ trivial)
    ⟨htarget, fun _ ↦ trivial⟩)).bind fun _ ↦ talks_count _

theorem talks_skip {message : String} (h : P (.info, message)) :
    Keeps (r.Talks P) (fun _ ↦ True) (do info message; count "skipped") :=
  (talks_report h).bind fun _ ↦ talks_count _

/-- A file's move reports that the source is its own target only if this is found. -/
theorem talks_moveFile (hr : r.WellFormed) (hsource : source.Proper) (hdestination : destination.Proper)
    (hown : ∀ n, Account source n → P n)
    (honto : r.store.samePlace source (landing r.store source destination) = .ok true →
      ∀ n, OntoItself source n → P n) :
    Ensures (· = r) (moveFile source destination policy) (fun _ ↦ r.Talks P)
      (fun _ t ↦ r.Talks P t ∧ True) := by
  refine (talks_ask_first hr _).bind fun directory ↦ ensures_assume fun hdirectory ↦ ?_
  have hproper : (landing r.store source destination).Proper := proper_landing hsource hdestination
  rw [← landing_of_answer source hdirectory]
  refine (talks_ask_first hr _).bind fun same ↦ ensures_assume fun hsame ↦ ?_
  split
  · next htrue =>
    subst htrue
    exact talks_first hr (talks_skip (honto hsame _ .file))
  refine Ensures.bind (talks_first hr (talks_mayReplace policy _)) fun goesOn ↦ ?_
  split
  · refine (talks_report (hown _ (.moved _))).bind fun _ ↦ (keeps_ask_frame _).bind fun there ↦ ?_
    have hrest : Keeps (r.Talks P) (fun _ ↦ True) (do
        onStore (StoreAction.unlinkIfThere (landing r.store source destination))
        onStore (StoreAction.moveEntry source (landing r.store source destination))
        count "moved") :=
      (talks_onStore (StoreAction.keeps_unlinkIfThere invariant_wellFormed fun _ ↦ trivial)).bind
        fun _ ↦ talks_moved source hproper
    split
    · exact (keeps_throw trivial).bind fun _ ↦ hrest
    · exact hrest
  · exact talks_skip (hown _ .kept)

theorem talks_mergeDirectory (hown : ∀ n, Account source n → P n)
    (hchild : ∀ name, IsName name →
      Keeps (r.Talks P) (fun _ ↦ True) (moveChild (source.child name) target)) :
    Keeps (r.Talks P) (fun _ ↦ True) (mergeDirectory moveChild source target) := by
  refine (talks_report (hown _ (.merged _))).bind fun _ ↦ ?_
  have hnames : Ensures (r.Talks P) (sortedNames source)
      (fun names t ↦ (∀ name ∈ names, IsName name) ∧ r.Talks P t) (fun _ t ↦ r.Talks P t ∧ True) := by
    intro t ht
    unfold sortedNames
    rw [run_ask]
    cases hlist : t.store.list source with
    | error f => exact ⟨ht, trivial⟩
    | ok names =>
      refine ⟨fun name hname ↦ isName_of_list ht.wellFormed.store hlist ?_, ht⟩
      simpa [sortNames] using hname
  refine hnames.bind fun names ↦ ensures_assume fun hlegal ↦ ?_
  refine Keeps.bind (keeps_forIn fun name hname ↦ (hchild name (hlegal name hname)).yield) fun _ ↦ ?_
  refine (talks_count _).bind fun _ ↦ (keeps_ask_frame _).bind fun left ↦ ?_
  split
  · exact talks_onStore (StoreAction.keeps_removeDirectory invariant_wellFormed fun _ ↦ trivial)
  · exact keeps_pure _

/-- A directory's move reports that the source is its own target only if this is found after the report
that it goes into the destination. -/
theorem talks_moveDirectory (hr : r.WellFormed) (hsource : source.Proper)
    (hdestination : destination.Proper) (hown : ∀ n, Account source n → P n)
    (honto : ∀ s, r.store.Rewritten s → r.store.isDirectory destination = .ok true →
      s.samePlace source (within destination source) = .ok true → ∀ n, OntoItself source n → P n)
    (hchild : ∀ name target, IsName name → target.Proper →
      Keeps (r.Talks P) (fun _ ↦ True) (moveChild (source.child name) target)) :
    Ensures (· = r) (moveDirectory moveChild source destination policy) (fun _ ↦ r.Talks P)
      (fun _ t ↦ r.Talks P t ∧ True) := by
  have hdestination' : destination.Usable True := ⟨hdestination, fun _ ↦ trivial⟩
  have hwithin : (within destination source).Proper :=
    (usable_within hdestination' ⟨hsource, fun _ ↦ trivial⟩).proper
  refine (talks_ask_first hr _).bind fun directory ↦ ensures_assume fun hdirectory ↦ ?_
  split
  · refine Ensures.bind (talks_first hr (talks_report (hown _ (.renamed _)))) fun _ ↦ ?_
    exact talks_moved source hdestination
  next hthere =>
  obtain rfl : directory = true := by simpa using hthere
  have hentered : Ensures (· = r)
      (info ("Move directory " ++ source.text ++ " into existing directory " ++ destination.text))
      (fun _ t ↦ r.store.Rewritten t.store ∧ r.Talks P t) (fun _ t ↦ r.Talks P t ∧ True) := by
    rintro t rfl
    have htalks := talks_report (hown _ (.entered destination)) t (.refl hr)
    have hrewritten := rewritten_report .info
      ("Move directory " ++ source.text ++ " into existing directory " ++ destination.text) hr
    unfold info
    rcases hrun : (discard (emit .info _ (.obj []))).run t with ⟨f | a, t'⟩ <;>
      rw [hrun] at htalks hrewritten
    · exact htalks
    · exact ⟨hrewritten, htalks⟩
  have hsame : Ensures (fun t ↦ r.store.Rewritten t.store ∧ r.Talks P t)
      (ask (·.samePlace source (within destination source)))
      (fun same t ↦ (same = true → ∀ n, OntoItself source n → P n) ∧ r.Talks P t)
      (fun _ t ↦ r.Talks P t ∧ True) := by
    rintro t ⟨hrewritten, ht⟩
    rw [run_ask]
    cases hanswer : t.store.samePlace source (within destination source) with
    | error f => exact ⟨ht, trivial⟩
    | ok same => exact ⟨fun htrue ↦ honto t.store hrewritten hdirectory (htrue ▸ hanswer), ht⟩
  refine hentered.bind fun _ ↦ hsame.bind fun same ↦ ensures_assume fun hfound ↦ ?_
  split
  · next htrue => exact talks_skip (hfound htrue _ .directory)
  refine (talks_mayReplace policy _).bind fun goesOn ↦ ?_
  split
  · exact (talks_removeTarget _).bind fun _ ↦ talks_moved source hwithin
  · exact talks_mergeDirectory hown fun name hname ↦ hchild name _ hname hwithin

/-- One level of a move, with the two ways to find that the source is its own target. -/
theorem talks_moveEntryFrom_succ (hr : r.WellFormed) (hsource : source.Proper)
    (hdestination : destination.Proper) (hown : ∀ n, Account source n → P n)
    (hfile : r.store.samePlace source (landing r.store source destination) = .ok true →
      ∀ n, OntoItself source n → P n)
    (hdirectory : ∀ s, r.store.Rewritten s → r.store.isDirectory source = .ok true →
      r.store.isDirectory destination = .ok true →
      s.samePlace source (within destination source) = .ok true → ∀ n, OntoItself source n → P n)
    (hchild : ∀ name target, IsName name → target.Proper →
      Keeps (r.Talks P) (fun _ ↦ True) (moveEntryFrom policy depth (source.child name) target)) :
    r.Talks P ((moveEntryFrom policy (depth + 1) source destination).run r).2 := by
  have hmove : Ensures (· = r) (moveEntryFrom policy (depth + 1) source destination)
      (fun _ ↦ r.Talks P) (fun _ t ↦ r.Talks P t ∧ True) := by
    refine Ensures.tryCatch (E := fun _ t ↦ r.Talks P t ∧ True) ?_ fun f ↦ ?_
    · refine (talks_ask_first hr _).bind fun directory ↦ ensures_assume fun hthere ↦ ?_
      split
      · next htrue =>
        subst htrue
        exact talks_moveDirectory hr hsource hdestination hown
          (fun s hs ↦ hdirectory s hs hthere) hchild
      · exact talks_moveFile hr hsource hdestination hown hfile
    · refine ensures_assume_right fun _ ↦ ?_
      split
      · exact (talks_count _).bind fun _ ↦ talks_report (hown _ (.failed _))
      · exact keeps_throw trivial
  exact (hmove.weaken (fun _ h ↦ h) (fun _ _ h ↦ h) fun _ _ h ↦ h.1).state rfl

/-- Every report of a move is about its source or about something below it. -/
theorem talks_moveEntryFrom (policy : OverwritePolicy) (depth : ℕ) (hsource : source.Proper)
    (hdestination : destination.Proper)
    (hP : ∀ p, p = source ∨ Under source p → ∀ n, Account p n ∨ OntoItself p n → P n) :
    Keeps (r.Talks P) (fun _ ↦ True) (moveEntryFrom policy depth source destination) := by
  have hown (n : Notice) (hn : Account source n) : P n := hP source (.inl rfl) n (.inl hn)
  have honto (n : Notice) (hn : OntoItself source n) : P n := hP source (.inl rfl) n (.inr hn)
  induction depth generalizing r source destination with
  | zero => exact talks_surviving (keeps_throw trivial) fun f ↦ hown _ (.failed _)
  | succ depth ih =>
    refine keeps_of_state fun t ht ↦ ht.trans ?_
    refine talks_moveEntryFrom_succ ht.wellFormed hsource hdestination hown (fun _ ↦ honto)
      (fun _ _ _ _ _ ↦ honto) fun name target hname htarget ↦ ?_
    have hunder : ∀ p, p = source.child name ∨ Under (source.child name) p → ∀ n,
        Account p n ∨ OntoItself p n → P n := by
      rintro p (rfl | hp)
      · exact hP _ (.inr (under_child hname))
      · exact hP _ (.inr ((under_child hname).trans hp))
    exact ih (hsource.child hname.isPart) htarget hunder
      (fun n hn ↦ hunder _ (.inl rfl) n (.inl hn)) fun n hn ↦ hunder _ (.inl rfl) n (.inr hn)

end Executor

end DeferredOps
