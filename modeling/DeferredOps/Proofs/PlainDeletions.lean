import DeferredOps.Proofs.Counting
import DeferredOps.Proofs.Executor
import DeferredOps.Proofs.Reports
import DeferredOps.Proofs.Store.Removable
import DeferredOps.Proofs.Store.Trimmed

/-!
# Deletions without a pattern

The tests that choose how to remove follow symbolic links, and the removal does not. So a deletion takes away
nothing beyond a link, and the one thing that it fails to remove beside what is out of reach is a link to
a directory, which it takes for a directory.
-/

namespace DeferredOps

open Action

namespace RunAction

variable {r : Run}

theorem rewritten_report {nul : Prop} (severity : Severity) (message : String)
    (hr : r.Sound Store.WellFormed nul) :
    r.store.Rewritten ((discard (emit severity message (.obj []))).run r).2.store := by
  rcases store_report severity message r with hsame | ⟨file, change, hfile, hnul, hwrite⟩
  · rw [hsame]
    exact .refl hr.store
  · exact Store.rewritten_write hr.store (hr.journal file hfile).proper hnul hwrite

end RunAction

namespace Executor

open RunAction Store

variable {x : Executor} {r r' : Run} {p : Path} {target : String}

/-! ## What a deletion reaches -/

/-- Only what a path means has been taken away, and only the event file has been written to. -/
structure Reached (r : Run) (p : Path) (r' : Run) : Prop where
  file : r'.journal.file = r.journal.file
  trimmed : r.store.Trimmed r.journal.file (r.store.Meant p) r'.store

/-- The same before anything has been taken away. -/
structure Unreached (r : Run) (p : Path) (r' : Run) : Prop extends Reached r p r' where
  rewritten : r.store.Rewritten r'.store

theorem Reached.report (h : Reached r p r') (hr : r.WellFormed) (severity : Severity) (message : String) :
    Reached r p ((discard (emit severity message (.obj []))).run r').2 := by
  refine ⟨(reported_report severity message r').file.trans h.file, ?_⟩
  rcases store_report severity message r' with hsame | ⟨file, change, hfile, hnul, hwrite⟩
  · rw [hsame]
    exact h.trimmed
  · have hfile' := h.file.symm.trans hfile
    have htrimmed := h.trimmed
    rw [hfile'] at htrimmed ⊢
    exact htrimmed.write (hr.journal file hfile').proper hnul hwrite

theorem ensures_reached_warn (hr : r.WellFormed) (message : String) :
    Ensures (Reached r p) (warn message) (fun _ ↦ Reached r p) (fun _ ↦ Reached r p) := by
  intro t ht
  have hreached : Reached r p ((warn message).run t).2 := ht.report hr _ _
  rcases hrun : (warn message).run t with ⟨f | a, t'⟩ <;> rw [hrun] at hreached <;> exact hreached

theorem ensures_unreached_info (hr : r.WellFormed) (message : String) :
    Ensures (· = r) (info message) (fun _ ↦ Unreached r p) (fun _ ↦ Reached r p) := by
  rintro t rfl
  have hreached : Reached t p ((info message).run t).2 :=
    Reached.report ⟨rfl, .refl hr.store⟩ hr _ _
  have hrewritten : t.store.Rewritten ((info message).run t).2.store := rewritten_report _ _ hr
  rcases hrun : (info message).run t with ⟨f | a, t'⟩ <;> rw [hrun] at hreached hrewritten
  · exact hreached
  · exact ⟨hreached, hrewritten⟩

theorem ensures_reached_count (name : String) :
    Ensures (Reached r p) (count name) (fun _ ↦ Reached r p) (fun _ ↦ Reached r p) :=
  ensures_modify fun _ h ↦ ⟨h.file, h.trimmed⟩

theorem ensures_reached_unlink :
    Ensures (Unreached r p) (onStore (StoreAction.unlink p)) (fun _ ↦ Reached r p)
      (fun _ ↦ Reached r p) := by
  intro t ht
  rw [run_onStore, StoreAction.run_unlink]
  split
  · exact ⟨ht.file, ht.trimmed⟩
  cases hunlink : t.store.unlink p with
  | ok s' => exact ⟨ht.file, ht.trimmed.unlink ht.rewritten hunlink⟩
  | error e => exact ⟨ht.file, ht.trimmed⟩

theorem ensures_reached_removeTree :
    Ensures (Unreached r p) (onStore (StoreAction.removeTree p)) (fun _ ↦ Reached r p)
      (fun _ ↦ Reached r p) := by
  intro t ht
  have hends := StoreAction.ensures_removeTree t.store p t.store rfl
  rw [run_onStore]
  rcases hrun : (StoreAction.removeTree p).run t.store with ⟨f | a, s'⟩ <;> rw [hrun] at hends
  · exact ⟨ht.file, ht.trimmed.removal ht.rewritten hends⟩
  · exact ⟨ht.file, ht.trimmed.removal ht.rewritten hends⟩

theorem ensures_reached_deleteFile (hr : r.WellFormed) :
    Ensures (· = r) (deleteFile p) (fun _ ↦ Reached r p) (fun _ ↦ Reached r p) := by
  unfold deleteFile
  refine (ensures_unreached_info hr _).bind fun _ ↦ ensures_reached_unlink.bind fun _ ↦ ?_
  exact ensures_reached_count _

/-- However a deletion ends, it has only reached what its path means. -/
theorem ensures_reached_deletePlain (hr : r.WellFormed) :
    Ensures (· = r) (deletePlain p) (fun _ ↦ Reached r p) (fun _ ↦ Reached r p) := by
  have hask {α : Type} (question : Store → Except Failure α) :
      Ensures (· = r) (ask question) (fun _ ↦ (· = r)) (fun _ ↦ Reached r p) := by
    rintro t rfl
    rw [run_ask]
    cases question t.store with
    | ok => exact rfl
    | error => exact ⟨rfl, .refl hr.store⟩
  unfold deletePlain
  refine (hask _).bind fun there ↦ ?_
  split
  · refine (ensures_unreached_info hr _).bind fun _ ↦ ensures_reached_removeTree.bind fun _ ↦ ?_
    exact ensures_reached_count _
  refine (hask _).bind fun there ↦ ?_
  split
  · exact ensures_reached_deleteFile hr
  refine (hask _).bind fun there ↦ ?_
  split
  · exact ensures_reached_deleteFile hr
  · refine ensures_pure fun t ht ↦ ?_
    subst ht
    exact ⟨rfl, .refl hr.store⟩

theorem reached_of_delete (x : Executor) (hr : r.WellFormed) (hplain : Path.hasWildcard target = false) :
    Reached r (Path.resolve target x.workingDirectory) ((x.delete target).run r).2 := by
  rw [delete_of_plain x hplain]
  refine Ensures.state (P := (· = r)) (Ensures.tryCatch (ensures_reached_deletePlain hr) fun f ↦ ?_) rfl
  split
  · exact (ensures_reached_count _).bind fun _ ↦ ensures_reached_warn hr _
  · exact ensures_throw fun _ h ↦ h

/-- A deletion never reaches through a symbolic link. Every entry but those that its path means is still
there; nothing is made or changed but the event file; and what a link leads to is still there, unless
it was meant itself. -/
theorem meant_of_delete (x : Executor) {target : String} {r : Run} (hr : r.WellFormed)
    (hplain : Path.hasWildcard target = false) :
    let p := Path.resolve target x.workingDirectory
    let s := r.store
    let s' := ((x.perform (.delete target)).run r).2.store
    (∀ l e, s.entry? l = some e →
      s.Meant p l ∨ ∃ e', s'.entry? l = some e' ∧ s.Renewed r.journal.file e e') ∧
      (∀ l e, s'.entry? l = some e → s.entry? l = some e ∨ s.IsReported r.journal.file e) ∧
      ∀ l text links place e, s.entry? l = some (.link text) →
        s.Leads .followed links (linkStart text l.dropLast) (linkNames text) (.found place e) →
        s.Meant p place ∨ ∃ e', s'.entry? place = some e' ∧ s.Renewed r.journal.file e e' := by
  intro p s s'
  have htrimmed : s.Trimmed r.journal.file (s.Meant p) s' := (reached_of_delete x hr hplain).trimmed
  have hstays {l : Location} {e : Entry} (hentry : s.entry? l = some e) :
      s.Meant p l ∨ ∃ e', s'.entry? l = some e' ∧ s.Renewed r.journal.file e e' :=
    Classical.or_iff_not_imp_left.mpr fun hnot ↦ htrimmed.stays hnot hentry
  refine ⟨fun l e ↦ hstays, fun l e ↦ htrimmed.old, fun l text links place e hlink hleads ↦ hstays ?_⟩
  -- The link stands in a directory, so what it leads to is there.
  obtain ⟨front, last, rfl⟩ : ∃ front last, l = front ++ [last] := by
    rcases List.eq_nil_or_concat l with rfl | ⟨front, last, rfl⟩
    · cases hlink
    · exact ⟨front, last, by simp⟩
  refine hleads.found_there hr.store ?_
  unfold linkStart
  split
  · rfl
  · rw [List.dropLast_concat]
    exact hr.store.parent hlink

/-- Links in a directory that is deleted, to its parent, to a directory beside it and to nothing, and a link
to it. -/
theorem meant_of_delete_among_links :
    let s := ((((((Store.empty.put ["d"] .dir).put ["d", "up"] (.link "..")).put ["d", "out"]
      (.link "../k")).put ["d", "o"] (.link "o")).put ["k"] .dir).putFile ["k", "f"] [97]).put ["l"]
        (.link "d")
    let s' := ((perform ⟨⟨.top, []⟩, none⟩ (.delete "d")).run (Run.first s)).2.store
    s'.entries = [(["k"], .dir), (["k", "f"], .file 0 [97]), (["l"], .link "d")] ∧
      ¬ s.Meant ⟨.top, ["d"]⟩ ["k"] ∧ ∃ e', s'.entry? ["k"] = some e' ∧ s.Renewed none .dir e' := by
  intro s s'
  have hs : (Run.first s).store.WellFormed := by decide
  have hout : s.Leads .followed linkLimit (linkStart "../k" ["d"]) (linkNames "../k")
      (.found ["k"] .dir) := .of_walk rfl
  have hnot : ¬ s.Meant ⟨.top, ["d"]⟩ ["k"] := by
    rintro (⟨d, n, hslot, heq⟩ | ⟨place, htarget, hbelow, -⟩)
    · have hplace : s.slot ⟨.top, ["d"]⟩ = .ok (.name [] "d") := rfl
      obtain ⟨rfl, rfl⟩ := Slot.name.inj (Except.ok.inj (hplace.symm.trans hslot))
      simp at heq
    · have hplace : s.target .kept ⟨.top, ["d"]⟩ = .ok (.found ["d"] .dir) := rfl
      obtain ⟨rfl, -⟩ := Target.found.inj (Except.ok.inj (hplace.symm.trans htarget))
      simp at hbelow
  refine ⟨by decide, hnot, ?_⟩
  have hplain : Path.hasWildcard "d" = false := rfl
  exact ((meant_of_delete ⟨⟨.top, []⟩, none⟩ (Run.wellFormed_first hs) hplain).2.2
    ["d", "out"] "../k" linkLimit ["k"] .dir rfl hout).resolve_left hnot

/-! ## What a deletion removes -/

/-- One thing is removed and counted. -/
structure Removes (r : Run) (p : Path) (r' : Run) : Prop where
  gone : ¬ r'.store.Reachable p
  counters : r'.counters = r.counters.increment "deleted"

theorem run_info (message : String) (hr : r.Sound Store.WellFormed False) :
    ∃ r', (info message).run r = (.ok (), r') ∧ r'.counters = r.counters ∧
      r.store.Rewritten r'.store ∧ r'.Sound Store.WellFormed False := by
  obtain ⟨r', hrun, hreported, hsound⟩ := run_report_ok .info message hr
  have hrewritten := rewritten_report .info message hr
  rw [hrun] at hrewritten
  exact ⟨r', hrun, hreported.counters, hrewritten, hsound⟩

/-- A name that is no directory is removed, whether it is that of a file or that of a link. -/
theorem run_deleteFile_of_slot (hr : r.Sound Store.WellFormed False) (hnul : p.hasNul = false)
    {d : Location} {n : String} {e : Entry} (hslot : r.store.slot p = .ok (.name d n))
    (hentry : r.store.entry? (d ++ [n]) = some e) (hne : e ≠ .dir) :
    ∃ r', (deleteFile p).run r = (.ok (), r') ∧ Removes r p r' := by
  obtain ⟨r₁, hinfo, hcounters, hrewritten, -⟩ := run_info ("Delete file: " ++ p.text) hr
  obtain ⟨e₁, hentry₁, hne₁⟩ := hrewritten.exists_entry hentry hne
  have hslot₁ := hrewritten.slot_iff.mpr hslot
  have hunlink := unlink_eq_ok_iff.mpr ⟨d, n, e₁, hslot₁, hentry₁, hne₁, rfl⟩
  refine ⟨{ r₁ with
    store := r₁.store.erase (d ++ [n]), counters := r₁.counters.increment "deleted" }, ?_, ?_, ?_⟩
  · unfold deleteFile
    rw [run_bind, hinfo]
    dsimp only
    rw [run_bind, run_onStore, StoreAction.run_unlink, hnul, hunlink]
    rfl
  · exact (takenOut_erase hrewritten.wellFormed hentry₁ hne₁).not_reachable hrewritten.wellFormed
      (lies_of_slot hslot₁)
  · rw [← hcounters]

/-- So is a directory that can be. -/
theorem run_removeTree_of_detachable (hs : r.store.WellFormed) (hnul : p.hasNul = false)
    (h : r.store.Detachable p) : ∃ r', (do onStore (StoreAction.removeTree p); count "deleted").run r =
      (.ok (), r') ∧ Removes r p r' := by
  obtain ⟨s', hrun⟩ := (StoreAction.removeTree_ok_iff hs hnul).mpr h
  have hends := StoreAction.ensures_removeTree r.store p r.store rfl
  rw [hrun] at hends
  obtain ⟨d, n, hlies, -, -, -, rfl⟩ := StoreAction.RemovalEnds.removed_dir hs hends
  refine ⟨{ r with
    store := (r.store.clear (d ++ [n])).erase (d ++ [n])
    counters := r.counters.increment "deleted" }, ?_, ?_, rfl⟩
  · rw [run_bind, run_onStore, hrun]
    rfl
  · exact (takenOut_clear_erase (by simp)).not_reachable hs hlies

/-- Any other directory is not. -/
theorem run_removeTree_of_not_detachable (hs : r.store.WellFormed) (hnul : p.hasNul = false)
    (h : ¬ r.store.Detachable p) :
    ∃ f s', (do onStore (StoreAction.removeTree p); count "deleted").run r =
      (.error f, { r with store := s' }) ∧ f.isSystem ∧ s'.WellFormed := by
  have hkeeps := StoreAction.keeps_removeTree invariant_wellFormed
    (fun htrue ↦ (by cases hnul.symm.trans htrue : False)) r.store hs
  rcases hrun : (StoreAction.removeTree p).run r.store with ⟨f | ⟨⟩, s'⟩ <;> rw [hrun] at hkeeps
  · refine ⟨f, s', ?_, hkeeps.2.resolve_right (by simp), hkeeps.1⟩
    rw [run_bind, run_onStore, hrun]
  · exact absurd ((StoreAction.removeTree_ok_iff hs hnul).mp ⟨s', hrun⟩) h

/-- What a deletion does where its path leads to a directory. -/
theorem run_deletePlain_of_directory {place : Location}
    (hfound : r.store.entryAt .followed p = .ok (some (place, .dir))) :
    (deletePlain p).run r =
      (do
        info ("Delete directory recursively: " ++ p.text)
        onStore (StoreAction.removeTree p)
        count "deleted").run r := by
  have hdirectory : r.store.isDirectory p = .ok true := by
    rw [isDirectory, hfound]
    rfl
  unfold deletePlain
  rw [run_bind, run_ask, hdirectory]
  rfl

/-- What it does elsewhere. -/
theorem run_deletePlain_of_other {found : Option (Location × Entry)}
    (hfound : r.store.entryAt .followed p = .ok found) (hnot : ∀ place, found ≠ some (place, .dir)) :
    (deletePlain p).run r =
      if answers Entry.isFile found then (deleteFile p).run r
      else match r.store.isLink p with
        | .ok link => if link then (deleteFile p).run r else (.ok (), r)
        | .error f => (.error f, r) := by
  have hdirectory : r.store.isDirectory p = .ok false := by
    rw [isDirectory, hfound]
    rcases found with _ | ⟨place, _ | _ | _⟩
    · rfl
    · exact absurd rfl (hnot place)
    · rfl
    · rfl
  have hfile : r.store.isFile p = .ok (answers Entry.isFile found) := by
    rw [isFile, hfound]
    rfl
  unfold deletePlain
  rw [run_bind, run_ask, hdirectory]
  dsimp only
  rw [if_neg (by simp), run_bind, run_ask, hfile]
  dsimp only
  split
  · rfl
  rw [run_bind, run_ask]
  cases r.store.isLink p with
  | ok link => cases link <;> rfl
  | error f => rfl

/-- A deletion of something that can be removed removes it. -/
theorem run_deletePlain_of_reachable (hr : r.Sound Store.WellFormed False)
    (hremovable : r.store.Removable p) (hreachable : r.store.Reachable p) :
    ∃ r', (deletePlain p).run r = (.ok (), r') ∧ Removes r p r' := by
  obtain ⟨found, hfound, hdetachable⟩ := hremovable
  obtain ⟨⟨l, e⟩, hkept⟩ := hreachable
  have hnul := (entryAt_eq_some_iff.mp hkept).1
  by_cases hdir : ∃ place, found = some (place, .dir)
  · obtain ⟨place, rfl⟩ := hdir
    obtain ⟨r₁, hinfo, hcounters, hrewritten, -⟩ :=
      run_info ("Delete directory recursively: " ++ p.text) hr
    obtain ⟨r', hrun, hremoves⟩ := run_removeTree_of_detachable hrewritten.wellFormed hnul
      (hrewritten.detachable_iff.mpr (hdetachable place rfl))
    refine ⟨r', ?_, hremoves.gone, by rw [hremoves.counters, hcounters]⟩
    rw [run_deletePlain_of_directory hfound, run_bind, hinfo]
    exact hrun
  -- What is no directory is unlinked, whichever of the two other tests finds it.
  have hnot (place : Location) : r.store.target .followed p ≠ .ok (.found place .dir) := by
    intro htarget
    have hsome := entryAt_eq_some_iff.mpr ⟨hnul, htarget⟩
    exact hdir ⟨place, Except.ok.inj (hfound.symm.trans hsome)⟩
  obtain ⟨d, n, e', hslot, hentry, hne⟩ := (reachable_iff hnul hnot).mp ⟨_, hkept⟩
  have hend := run_deleteFile_of_slot hr hnul hslot hentry hne
  rw [run_deletePlain_of_other hfound fun place hplace ↦ hdir ⟨place, hplace⟩]
  split
  · exact hend
  next hfile =>
  have hlink : r.store.isLink p = .ok true := by
    rw [isLink, hkept]
    cases e with
    | link => rfl
    | dir =>
      obtain rfl := Except.ok.inj (hfound.symm.trans (entryAt_followed_of_kept hkept rfl))
      exact absurd ⟨l, rfl⟩ hdir
    | file =>
      obtain rfl := Except.ok.inj (hfound.symm.trans (entryAt_followed_of_kept hkept rfl))
      exact absurd rfl hfile
  rw [hlink]
  exact hend

/-- A deletion of what is not there does nothing. -/
theorem run_deletePlain_of_unreachable (hremovable : r.store.Removable p)
    (hreachable : ¬ r.store.Reachable p) : (deletePlain p).run r = (.ok (), r) := by
  obtain ⟨found, hfound, hdetachable⟩ := hremovable
  obtain ⟨_ | found', hkept⟩ := exists_entryAt_kept hfound
  case some => exact absurd ⟨_, hkept⟩ hreachable
  have hlink : r.store.isLink p = .ok false := by
    rw [isLink, hkept]
    rfl
  have hdir (place : Location) : found ≠ some (place, .dir) := by
    intro hplace
    obtain ⟨d, n, htarget, -⟩ := hdetachable place hplace
    have hnul := (entryAt_eq_some_iff.mp (hfound.trans (congrArg _ hplace))).1
    exact hreachable ⟨_, entryAt_eq_some_iff.mpr ⟨hnul, htarget⟩⟩
  have hfile : answers Entry.isFile found = false := by
    rcases found with _ | ⟨place, _ | ⟨id, content⟩ | _⟩
    · rfl
    · rfl
    · obtain ⟨hnul, htarget⟩ := entryAt_eq_some_iff.mp hfound
      obtain ⟨d, n, hslot, hdir, hnone⟩ := slot_of_target htarget (by simp)
      have hkept' := target_kept_of_slot hslot
      cases hentry : r.store.entry? (d ++ [n]) with
      | none => cases hnone hentry
      | some e =>
        rw [hentry] at hkept'
        exact absurd ⟨_, entryAt_eq_some_iff.mpr ⟨hnul, hkept'⟩⟩ hreachable
    · rfl
  rw [run_deletePlain_of_other hfound hdir, hfile, hlink]
  rfl

/-- A deletion of what cannot be removed fails before it has counted anything. -/
theorem run_deletePlain_of_not_removable (hr : r.Sound Store.WellFormed False)
    (hremovable : ¬ r.store.Removable p) :
    ∃ f r', (deletePlain p).run r = (.error f, r') ∧ f.isSystem ∧ r'.counters = r.counters ∧
      r'.Sound Store.WellFormed False := by
  cases hfound : r.store.entryAt .followed p with
  | error f =>
    refine ⟨f, r, ?_, isSystem_of_entryAt hfound, rfl, hr⟩
    have hdirectory : r.store.isDirectory p = .error f := by
      rw [isDirectory, hfound]
      rfl
    unfold deletePlain
    rw [run_bind, run_ask, hdirectory]
  | ok found =>
    obtain ⟨place, rfl, hnot⟩ : ∃ place, found = some (place, .dir) ∧ ¬ r.store.Detachable p := by
      by_contra hnone
      refine hremovable ⟨found, hfound, fun place hplace ↦ ?_⟩
      by_contra hnot
      exact hnone ⟨place, hplace, hnot⟩
    have hnul := (entryAt_eq_some_iff.mp hfound).1
    obtain ⟨r₁, hinfo, hcounters, hrewritten, hsound⟩ :=
      run_info ("Delete directory recursively: " ++ p.text) hr
    obtain ⟨f, s', hrun, hf, hs'⟩ := run_removeTree_of_not_detachable hrewritten.wellFormed hnul
      (mt hrewritten.detachable_iff.mp hnot)
    refine ⟨f, { r₁ with store := s' }, ?_, hf, hcounters, hs', hsound.journal⟩
    rw [run_deletePlain_of_directory hfound, run_bind, hinfo]
    exact hrun

theorem run_delete_of_done (hplain : Path.hasWildcard target = false)
    (h : (deletePlain (Path.resolve target x.workingDirectory)).run r = (.ok (), r')) :
    (x.delete target).run r = (.ok (), r') := by
  rw [delete_of_plain x hplain, surviving, run_tryCatch, h]

/-- A failure is counted and reported. -/
theorem run_delete_of_failed (hplain : Path.hasWildcard target = false) {f : Failure}
    (h : (deletePlain (Path.resolve target x.workingDirectory)).run r = (.error f, r'))
    (hf : f.isSystem) (hr' : r'.Sound Store.WellFormed False) :
    ∃ r'', (x.delete target).run r = (.ok (), r'') ∧
      r''.counters = r'.counters.increment "failed" := by
  have hcounted : Run.Sound Store.WellFormed False
      { r' with counters := r'.counters.increment "failed" } := ⟨hr'.store, hr'.journal⟩
  obtain ⟨r'', hrun, hreported, -⟩ := run_report_ok .warning
    (Report.failedDelete (Path.resolve target x.workingDirectory) f.reason) hcounted
  refine ⟨r'', ?_, hreported.counters⟩
  rw [delete_of_plain x hplain, run_surviving_of_failed h hf]
  exact hrun

end Executor

end DeferredOps
