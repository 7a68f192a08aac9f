import DeferredOps.Proofs.FileMoves
import DeferredOps.Proofs.MoveReports
import DeferredOps.Proofs.Store.SharedEntries

/-!
# Moves of something onto itself

A move finds out whether its source is its own target by what the two paths lead to. So a link to a file
and another name of a file are the file itself to it, wherever they are.
-/

namespace DeferredOps

open Action

/-! ## Texts of longer paths -/

namespace Path

open Store

variable {p : Path} {names : List String} {u v : List Char}

theorem text_extend (hparts : p.parts ≠ []) (hne : names ≠ []) :
    (p.extend names).text = p.text ++ ("/" ++ "/".intercalate names) := by
  have hjoin := String.intercalate_append_of_ne_nil (s := "/") hparts hne
  simp [text, extend, hparts, hjoin, String.append_assoc]

theorem exists_intercalate (name : String) (names : List String) :
    ∃ more, ("/".intercalate (name :: names)).toList = name.toList ++ more := by
  cases names with
  | nil => exact ⟨[], by simp [String.intercalate_singleton]⟩
  | cons second names =>
    exact ⟨_, by rw [String.intercalate_cons_cons, String.append_assoc, String.toList_append]⟩

/-- Where the text of a path that goes on with names is followed as the text of the path itself is, the
names are part of what follows. -/
theorem exists_text_extend (hne : names ≠ []) (hnames : ∀ name ∈ names, IsName name)
    (h : (p.extend names).text.toList ++ u = p.text.toList ++ v) : ∃ w, w ≠ [] ∧ w ++ u = v := by
  by_cases hparts : p.parts = []
  · obtain ⟨name, more, rfl⟩ := List.exists_cons_of_ne_nil hne
    have hname := hnames name (by simp)
    obtain ⟨first, rest, hfirst⟩ := List.exists_cons_of_ne_nil (l := name.toList)
      fun hnil ↦ hname.ne_empty (String.toList_eq_nil_iff.mp hnil)
    obtain ⟨tail, hjoin⟩ := exists_intercalate name more
    have htext : (p.extend (name :: more)).text.toList =
        (anchorText p.anchor).toList ++ (first :: rest ++ tail) := by
      simp [text, extend, hparts, hjoin, hfirst]
    rw [htext] at h
    rcases hanchor : p.anchor <;> simp [text, hparts, hanchor, anchorText] at h
    · obtain ⟨rfl, h⟩ := h
      refine ⟨rest ++ tail, fun hnil ↦ hname.ne_dot ?_, by simpa using h⟩
      exact String.toList_injective (by simp [hfirst, (List.append_eq_nil_iff.mp hnil).1])
    all_goals exact ⟨first :: rest ++ tail, by simp, by simpa using h⟩
  · rw [text_extend hparts hne, String.toList_append, List.append_assoc] at h
    exact ⟨_, by simp, List.append_cancel_left h⟩

end Path

namespace Executor

open RunAction Store

variable {s : Store} {r r' r'' : Run} {p p' q : Path} {n : Notice}

/-! ## Reports of the same words -/

theorem ontoItself_iff : OntoItself p n ↔
    n = (.info, "Move directory " ++ p.text ++ " onto itself skipped") ∨
      n = (.info, "Move file " ++ p.text ++ " onto itself skipped") := by
  constructor
  · rintro (_ | _) <;> simp
  · rintro (rfl | rfl)
    · exact .directory
    · exact .file

/-- What follows the text of a path below another is within what follows that of the other. -/
theorem infix_of_follows (start : List Char) {rest v : List Char} (hbelow : p' = p ∨ Under p p')
    (h : p'.text.toList ++ (start ++ rest) = p.text.toList ++ v) : start <:+: v := by
  rcases hbelow with rfl | ⟨names, hne, hnames, rfl⟩
  · exact ⟨[], rest, List.append_cancel_left h⟩
  · obtain ⟨w, -, hw⟩ := Path.exists_text_extend hne hnames h
    exact ⟨w, rest, by rw [List.append_assoc, hw]⟩

/-- No other report of a move says that a path is its own target, neither one about the path nor one about
what is below it. -/
theorem Account.not_ontoItself (h : Account p' n) (hbelow : p' = p ∨ Under p p') : ¬ OntoItself p n := by
  rw [ontoItself_iff]
  -- Reports that start alike are told apart by what follows the path.
  rintro (heq | heq) <;> cases h <;> obtain ⟨hkind, htext⟩ := Prod.mk.inj heq <;>
    replace htext := congrArg String.toList htext <;> simp at hkind htext
  case inl.entered => exact absurd (infix_of_follows [' ', 'i', 'n'] hbelow htext) (by decide)
  case inr.moved => exact absurd (infix_of_follows [' ', 't', 'o', ' '] hbelow htext) (by decide)
  case inr.kept => exact absurd (infix_of_follows [' ', 'o', 'v'] hbelow htext) (by decide)

theorem OntoItself.not_ontoItself (h : OntoItself p' n) (hunder : Under p p') : ¬ OntoItself p n := by
  obtain ⟨names, hne, hnames, rfl⟩ := hunder
  have hlonger : (p.extend names).text ≠ p.text := fun heq ↦ by
    obtain ⟨w, hw, hnil⟩ := Path.exists_text_extend (u := []) (v := []) hne hnames (by rw [heq])
    exact hw (List.append_eq_nil_iff.mp hnil).1
  rw [ontoItself_iff] at h ⊢
  rintro heq
  rcases h with rfl | rfl <;> rcases heq with heq | heq <;> replace heq := (Prod.mk.inj heq).2
  case inl.inl | inr.inr => exact hlonger (by simpa using heq)
  case inl.inr | inr.inl => simpa using congrArg String.toList heq

/-! ## Moves of different things -/

theorem not_ontoItself_of_moveEntryFrom (policy : OverwritePolicy) (hr : r.WellFormed) (hp : p.Proper)
    (hq : q.Proper) (hdistinct : ¬ r.store.SameThing p (landing r.store p q)) (depth : ℕ) :
    r.Talks (fun n ↦ ¬ OntoItself p n) ((moveEntryFrom policy (depth + 1) p q).run r).2 := by
  refine talks_moveEntryFrom_succ hr hp hq (fun n hn ↦ hn.not_ontoItself (.inl rfl))
    (fun hsame ↦ absurd ((samePlace_eq_true_iff hr.store).mp hsame) hdistinct)
    (fun s hs hsource hdestination hsame ↦ ?_) fun name target hname htarget ↦ ?_
  · obtain ⟨hclean, l, hfound⟩ := StoreAction.isDirectory_eq_true_iff.mp hsource
    have hsame' := (hs.sameThing_iff (entryAt_eq_some_iff.mpr ⟨hclean, hfound⟩)).mp
      ((samePlace_eq_true_iff hs.wellFormed).mp hsame)
    rw [landing_of_directory p hdestination] at hdistinct
    exact absurd hsame' hdistinct
  · refine talks_moveEntryFrom policy depth (hp.child hname.isPart) htarget ?_
    have hchild : Under p (p.child name) := under_child hname
    rintro p' hbelow n hn
    have hunder : Under p p' := hbelow.elim (fun heq ↦ heq ▸ hchild) hchild.trans
    exact hn.elim (·.not_ontoItself (.inr hunder)) (·.not_ontoItself hunder)

/-! ## Moves of a thing onto itself -/

/-- Reports have been made, and nothing else has been done. -/
structure Told (news : List Notice) (r r' : Run) : Prop extends Run.Reported news r r' where
  rewritten : r.store.Rewritten r'.store
  still : r.journal.file = none → r'.store = r.store
  sound : r'.Sound Store.WellFormed False

theorem Told.trans {news more : List Notice} (h : Told news r r') (h' : Told more r' r'') :
    Told (news ++ more) r r'' where
  toReported := h.toReported.trans h'.toReported
  rewritten := h.rewritten.trans h'.rewritten
  still hsilent := (h'.still (h.file.trans hsilent)).trans (h.still hsilent)
  sound := h'.sound

theorem told_info (message : String) (hr : r.Sound Store.WellFormed False) :
    ∃ r', (info message).run r = (.ok (), r') ∧ Told [(.info, message)] r r' := by
  obtain ⟨r', hrun, hreported, hsound⟩ := run_report_ok .info message hr
  have hrewritten := rewritten_report .info message hr
  rw [hrun] at hrewritten
  refine ⟨r', hrun, hreported, hrewritten, fun hsilent ↦ ?_, hsound⟩
  rw [run_report_of_silent .info message hsilent] at hrun
  cases hrun
  rfl

/-- A move has been reported as one of something onto itself and counted as skipped. -/
def Skipped (p : Path) (r r' : Run) : Prop :=
  ∃ news t, Told news r t ∧ (∃ n ∈ news, OntoItself p n) ∧
    r' = { t with counters := t.counters.increment "skipped" }

theorem run_moveFile_of_sameThing (hr : r.Sound Store.WellFormed False) (policy : OverwritePolicy)
    (hsame : r.store.SameThing p (landing r.store p q)) :
    ∃ r', (moveFile p q policy).run r = (.ok (), r') ∧ Skipped p r r' := by
  have hplace := (samePlace_eq_true_iff hr.store).mpr hsame
  obtain ⟨directory, hdirectory⟩ : ∃ directory, r.store.isDirectory q = .ok directory := by
    by_cases hthere : r.store.isDirectory q = .ok true
    · exact ⟨true, hthere⟩
    · rw [landing_of_not_directory hthere] at hsame
      obtain ⟨found, hfound⟩ := hsame.exists_entryAt.2
      exact ⟨_, isDirectory_of_answer hfound⟩
  obtain ⟨t, hinfo, htold⟩ := told_info ("Move file " ++ p.text ++ " onto itself skipped") hr
  refine ⟨_, ?_, _, t, htold, ⟨_, by simp, .file⟩, rfl⟩
  unfold moveFile
  rw [run_bind, run_ask, hdirectory]
  dsimp only
  rw [← landing_of_answer p hdirectory, run_bind, run_ask, hplace]
  dsimp only
  rw [if_pos rfl, run_bind, hinfo]
  rfl

theorem run_moveDirectory_of_sameThing (hr : r.Sound Store.WellFormed False) (policy : OverwritePolicy)
    (moveChild : Path → Path → RunAction Unit) (hdirectory : r.store.isDirectory p = .ok true)
    (hsame : r.store.SameThing p (landing r.store p q)) :
    ∃ r', (moveDirectory moveChild p q policy).run r = (.ok (), r') ∧ Skipped p r r' := by
  obtain ⟨hclean, l, htarget⟩ := StoreAction.isDirectory_eq_true_iff.mp hdirectory
  have hfound := entryAt_eq_some_iff.mpr ⟨hclean, htarget⟩
  have hthere : r.store.isDirectory q = .ok true := by
    by_contra hnot
    rw [landing_of_not_directory hnot] at hsame
    exact hnot (isDirectory_of_answer (hsame.entryAt_directory hfound))
  rw [landing_of_directory p hthere] at hsame
  obtain ⟨t, hentered, htold⟩ :=
    told_info ("Move directory " ++ p.text ++ " into existing directory " ++ q.text) hr
  have hplace := (samePlace_eq_true_iff htold.rewritten.wellFormed).mpr
    ((htold.rewritten.sameThing_iff hfound).mpr hsame)
  obtain ⟨t', hinfo, htold'⟩ := told_info ("Move directory " ++ p.text ++ " onto itself skipped") htold.sound
  refine ⟨_, ?_, _, t', htold.trans htold', ⟨_, by simp, .directory⟩, rfl⟩
  unfold moveDirectory
  rw [run_bind, run_ask, hthere]
  dsimp only
  rw [if_neg (by simp), run_bind, hentered]
  dsimp only
  rw [run_bind, run_ask, hplace]
  dsimp only
  rw [if_pos rfl, run_bind, hinfo]
  rfl

theorem run_moveEntryFrom_of_sameThing (hr : r.Sound Store.WellFormed False) (policy : OverwritePolicy)
    (hsame : r.store.SameThing p (landing r.store p q)) (depth : ℕ) :
    ∃ r', (moveEntryFrom policy (depth + 1) p q).run r = (.ok (), r') ∧ Skipped p r r' := by
  obtain ⟨found, hfound⟩ := hsame.exists_entryAt.1
  have hdirectory := isDirectory_of_answer hfound
  unfold moveEntryFrom surviving
  cases hkind : answers Entry.isDir (some found) with
  | true =>
    rw [hkind] at hdirectory
    obtain ⟨r', hrun, hskipped⟩ := run_moveDirectory_of_sameThing hr policy (moveEntryFrom policy depth)
      hdirectory hsame
    refine ⟨r', ?_, hskipped⟩
    rw [run_tryCatch, run_bind, run_ask, hdirectory]
    dsimp only
    rw [if_pos rfl, hrun]
  | false =>
    rw [hkind] at hdirectory
    obtain ⟨r', hrun, hskipped⟩ := run_moveFile_of_sameThing hr policy hsame
    refine ⟨r', ?_, hskipped⟩
    rw [run_tryCatch, run_bind, run_ask, hdirectory]
    dsimp only
    rw [if_neg (by simp), hrun]

/-- A move reports that its source is its own target if and only if the two lead to the same place or to
names of the same file. Then it is counted as skipped and changes nothing but the event file. They do so
if they share their last entry. They share it if neither ends at a link and the file has no other name. -/
theorem ontoItself_iff_sameThing (x : Executor) (source destination : String) (policy : OverwritePolicy)
    (hx : x.workingDirectory.Proper) (hplain : Path.hasWildcard source = false) {r : Run}
    (hr : r.Sound Store.WellFormed False) :
    let s := r.store
    let p := Path.resolve source x.workingDirectory
    let target := landing s p (Path.resolve destination x.workingDirectory)
    let result := (x.move source destination policy).run r
    (∃ news, result.2.notices = r.notices ++ news ∧
      ((∃ n ∈ news, OntoItself p n) ↔ s.SameThing p target)) ∧
    (s.SameThing p target → result.1 = .ok () ∧
      result.2.counters = r.counters.increment "skipped" ∧ s.Rewritten result.2.store ∧
      (r.journal.file = none → result.2.store = s)) ∧
    (s.exists? p = .ok true → s.exists? target = .ok true → s.SameEntry p target →
      s.SameThing p target) ∧
    (¬ s.EndsAtLink p → ¬ s.EndsAtLink target → s.EndsAtOnlyName p → s.SameThing p target →
      s.SameEntry p target) := by
  intro s p target result
  have hresult : result = (moveEntryFrom policy (pathLimit - 1 + 1) p _).run r :=
    congrArg (·.run r) (move_of_plain x destination policy hplain)
  have hentries := fun hp hq (h : s.SameEntry p target) ↦ h.sameThing hp hq
  have hthings := fun hp hq hname (h : s.SameThing p target) ↦ h.sameEntry hp hq hname hr.store
  by_cases hsame : s.SameThing p target
  · obtain ⟨r', hrun, news, t, htold, hnews, rfl⟩ :=
      run_moveEntryFrom_of_sameThing hr policy hsame (pathLimit - 1)
    rw [← hresult] at hrun
    rw [hrun]
    exact ⟨⟨news, htold.notices, iff_of_true hnews hsame⟩,
      fun _ ↦ ⟨rfl, congrArg (·.increment "skipped") htold.counters, htold.rewritten, htold.still⟩,
      hentries, hthings⟩
  · have hwellFormed : r.WellFormed :=
      ⟨hr.store, fun file hfile ↦ ⟨(hr.journal file hfile).proper, fun _ ↦ trivial⟩⟩
    have htalks := not_ontoItself_of_moveEntryFrom policy hwellFormed (proper_resolve hx source)
      (proper_resolve hx destination) hsame (pathLimit - 1)
    rw [← hresult] at htalks
    obtain ⟨news, hnews, hnotices⟩ := htalks.news
    refine ⟨⟨news, hnotices, iff_of_false ?_ hsame⟩, fun h ↦ absurd h hsame, hentries, hthings⟩
    rintro ⟨n, hn, honto⟩
    exact hnews n hn honto

/-- A file is itself under a longer spelling, and not under its name in another directory. -/
theorem ontoItself_iff_sameThing_detour :
    let s := (Store.empty.put ["a"] .dir).putFile ["f"] [100]
    let p := Path.resolve "a/../f" ⟨.top, []⟩
    let after := fun destination ↦
      ((move ⟨⟨.top, []⟩, none⟩ "a/../f" destination .replace).run (Run.first s)).2
    (s.SameEntry p ⟨.top, ["f"]⟩ ∧ (∃ n ∈ (after ".").notices, OntoItself p n) ∧
      (after ".").counters = Counters.empty.increment "skipped" ∧ (after ".").store = s) ∧
    ¬ ∃ n ∈ (after "a").notices, OntoItself p n := by
  intro s p after
  have hs : s.WellFormed := by decide
  have hr : (Run.first s).Sound Store.WellFormed False := ⟨hs, by simp [Run.first, Journal.silent]⟩
  have hproper : (⟨.top, []⟩ : Path).Proper := by simp [Path.Proper]
  have hplain : Path.hasWildcard "a/../f" = false := by decide
  have hentry : s.SameEntry p ⟨.top, ["f"]⟩ := ⟨(["f"], .file 0 [100]), rfl, rfl⟩
  have hdistinct : ¬ s.SameThing p ⟨.top, ["a", "f"]⟩ := fun h ↦ by
    obtain ⟨found, hfound⟩ := h.exists_entryAt.2
    cases (rfl : s.entryAt .followed ⟨.top, ["a", "f"]⟩ = .ok none).symm.trans hfound
  obtain ⟨⟨news, hnotices, hnews⟩, hskipped, hthing, -⟩ := ontoItself_iff_sameThing
    ⟨⟨.top, []⟩, none⟩ "a/../f" "." .replace hproper hplain hr
  obtain ⟨⟨news', hnotices', hnews'⟩, -⟩ := ontoItself_iff_sameThing
    ⟨⟨.top, []⟩, none⟩ "a/../f" "a" .replace hproper hplain hr
  have hsame := hthing rfl rfl hentry
  obtain ⟨-, hcounters, -, hstill⟩ := hskipped hsame
  refine ⟨⟨hentry, ?_, hcounters, hstill rfl⟩, ?_⟩
  · rw [show (after ".").notices = news from hnotices]
    exact hnews.mpr hsame
  · rw [show (after "a").notices = news' from hnotices']
    exact fun h ↦ hdistinct (hnews'.mp h)

/-- Another name of a file and a link to it are not the same entry. Nothing is moved onto them. -/
theorem not_sameEntry_of_ontoItself :
    let named := fun e ↦ (Store.empty.putFile ["f"] [100]).put ["g"] e
    let p : Path := ⟨.top, ["f"]⟩
    let other : Path := ⟨.top, ["g"]⟩
    let missed := fun s ↦
      let after := ((move ⟨⟨.top, []⟩, none⟩ "f" "g" .merge).run (Run.first s)).2
      s.WellFormed ∧ s.exists? p = .ok true ∧ s.exists? other = .ok true ∧
        landing s p other = other ∧ ¬ s.SameEntry p other ∧ (∃ n ∈ after.notices, OntoItself p n) ∧
        after.counters = Counters.empty.increment "skipped"
    missed (named (.file 0 [100])) ∧ missed (named (.link "f")) := by
  intro named p other missed
  have hdistinct {s : Store} {e e' : Entry} (hp : s.entryAt .kept p = .ok (some (["f"], e)))
      (hother : s.entryAt .kept other = .ok (some (["g"], e'))) : ¬ s.SameEntry p other := by
    rintro ⟨found, hfound, hfound'⟩
    obtain rfl : found = (["f"], e) := by simpa using hfound.symm.trans hp
    simpa using hother.symm.trans hfound'
  constructor
  all_goals
    refine ⟨by decide, rfl, rfl, rfl, hdistinct rfl rfl, ⟨_, ?_, .file⟩, rfl⟩
    exact List.mem_singleton.mpr rfl

end Executor

end DeferredOps
