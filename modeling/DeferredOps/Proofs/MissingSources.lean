import DeferredOps.Proofs.Escapes
import DeferredOps.Proofs.Merging
import DeferredOps.Proofs.Reports

/-!
# Moves of what is not there

A move whose source leads to nothing changes nothing. It is counted as failed and warned of, but a merge
decides about the place to go to before it looks at the source: where something is at that place, the
missing source is taken for a file that was skipped.
-/

namespace DeferredOps

open Action

/-- A silent run that has only counted and reported something since another one. -/
structure Run.Tells (r : Run) (c : Counters) (news : List Notice) (r' : Run) : Prop where
  store : r'.store = r.store
  counters : r'.counters = c
  notices : r'.notices = r.notices ++ news
  silent : r'.journal.file = none

namespace RunAction

variable {r : Run} {c : Counters} {news : List Notice}

theorem tells_ask {α : Type} (question : Store → Except Failure α) :
    Ensures (r.Tells c news) (ask question) (fun a r' ↦ question r.store = .ok a ∧ r.Tells c news r')
      (fun f r' ↦ question r.store = .error f ∧ r.Tells c news r') := by
  intro t ht
  rw [run_ask, ht.store]
  cases hanswer : question r.store with
  | ok a => exact ⟨rfl, ht⟩
  | error f => exact ⟨rfl, ht⟩

theorem tells_report (severity : Severity) (message : String) {F : Failure → Run → Prop} :
    Ensures (r.Tells c news) (discard (emit severity message (.obj [])))
      (fun _ ↦ r.Tells c (news ++ [(severity, message)])) F := by
  intro t ht
  rw [run_report_of_silent severity message ht.silent]
  have hnoted := Run.reported_noted severity message t
  exact ⟨ht.store, hnoted.counters.trans ht.counters,
    by rw [hnoted.notices, ht.notices, List.append_assoc], ht.silent⟩

theorem tells_count (name : String) {F : Failure → Run → Prop} :
    Ensures (r.Tells c news) (count name) (fun _ ↦ r.Tells (c.increment name) news) F :=
  ensures_modify fun _ ht ↦ ⟨ht.store, by rw [ht.counters], ht.notices, ht.silent⟩

end RunAction

namespace Executor

open RunAction Store

variable {r : Run} {c : Counters} {s : Store} {source destination target : Path} {policy : OverwritePolicy}

/-- A merge finds something at the place where a source is to go, and no directory at the source. -/
structure KeepsTarget (policy : OverwritePolicy) (s : Store) (source destination : Path) : Prop where
  merge : policy = .merge
  plain : s.isDirectory source = .ok false
  there : s.exists? (landing s source destination) = .ok true

/-- What is reported before a source is missed: nothing, or that it is to be moved. -/
def Announced (s : Store) (source destination : Path) (news : List Notice) : Prop :=
  news = [] ∨
    news = [(.info, "Move file " ++ source.text ++ " to " ++ (landing s source destination).text)]

/-- The runs that have failed to find a source. -/
def Missed (r : Run) (c : Counters) (policy : OverwritePolicy) (source destination : Path) (f : Failure)
    (r' : Run) : Prop :=
  f.isSystem ∧ ¬ KeepsTarget policy r.store source destination ∧
    ∃ news, Announced r.store source destination news ∧ r.Tells c news r'

/-- A question that fails before anything is reported. -/
theorem missed_ask {α : Type} {question : Store → Except Failure α}
    (hsystem : ∀ f, question r.store = .error f → f.isSystem)
    (hkeeps : ∀ f, question r.store = .error f → ¬ KeepsTarget policy r.store source destination) :
    Ensures (r.Tells c []) (ask question) (fun a r' ↦ question r.store = .ok a ∧ r.Tells c [] r')
      (Missed r c policy source destination) :=
  (tells_ask question).weaken (fun _ ht ↦ ht) (fun _ _ ht ↦ ht) fun f _ ht ↦
    ⟨hsystem f ht.1, hkeeps f ht.1, [], .inl rfl, ht.2⟩

theorem entryAt_of_missing (hsource : s.isDirectory source = .ok false)
    (hmissing : s.exists? source ≠ .ok true) : s.entryAt .followed source = .ok none := by
  unfold Store.isDirectory at hsource
  unfold Store.exists? at hmissing
  rcases hentry : s.entryAt .followed source with f | _ | found
  · simp [hentry, Except.map] at hsource
  · rfl
  · simp [hentry, Except.map, answers] at hmissing

theorem not_keepsTarget_of_error {f : Failure} (h : s.isDirectory destination = .error f) :
    ¬ KeepsTarget policy s source destination := by
  intro hkeeps
  have hthere := hkeeps.there
  have hlanding : landing s source destination = destination :=
    landing_of_not_directory (by rw [h]; simp)
  rw [hlanding] at hthere
  unfold Store.isDirectory at h
  unfold Store.exists? at hthere
  cases hentry : s.entryAt .followed destination <;> simp [hentry, Except.map] at h hthere

/-- Whether the move of a missing file goes on is decided by what is at the place to go to. -/
theorem missed_mayReplace (hsource : r.store.isDirectory source = .ok false) :
    Ensures (r.Tells c []) (mayReplace policy (landing r.store source destination))
      (fun goesOn r' ↦ (goesOn = false ↔ KeepsTarget policy r.store source destination) ∧ r.Tells c [] r')
      (Missed r c policy source destination) := by
  cases policy with
  | replace => exact ensures_pure fun _ ht ↦ ⟨⟨by simp, fun hkeeps ↦ nomatch hkeeps.merge⟩, ht⟩
  | merge =>
    refine (missed_ask (fun f ↦ isSystem_of_exists) fun f hf hkeeps ↦ ?_).bind fun there ↦
      ensures_assume fun hthere ↦ ensures_pure fun _ ht ↦ ⟨⟨fun hno ↦ ?_, fun hkeeps ↦ ?_⟩, ht⟩
    · have hboth := hf.symm.trans hkeeps.there
      simp at hboth
    · exact ⟨rfl, hsource, by rw [hthere]; simpa using hno⟩
    · simpa using hthere.symm.trans hkeeps.there

theorem missed_moveFile (hsource : r.store.isDirectory source = .ok false)
    (hmissing : r.store.exists? source ≠ .ok true) :
    Ensures (r.Tells c []) (moveFile source destination policy)
      (fun _ r' ↦ KeepsTarget policy r.store source destination ∧
        r.Tells (c.increment "skipped")
          [(.info, "Move file " ++ source.text ++ " overwrite skipped")] r')
      (Missed r c policy source destination) := by
  have hnone := entryAt_of_missing hsource hmissing
  unfold moveFile
  refine (missed_ask (fun f ↦ isSystem_of_isDirectory) fun f ↦ not_keepsTarget_of_error).bind
    fun directory ↦ ensures_assume fun hdirectory ↦ ?_
  have hdistinct : r.store.samePlace source (landing r.store source destination) = .ok false := by
    unfold samePlace
    rw [hnone]
    rfl
  rw [← landing_of_answer source hdirectory]
  refine (missed_ask (fun f ↦ isSystem_of_samePlace) fun f hf ↦ ?_).bind
    fun same ↦ ensures_assume fun hsame ↦ ?_
  · simp [hdistinct] at hf
  obtain rfl : same = false := Except.ok.inj (hsame.symm.trans hdistinct)
  refine (missed_mayReplace hsource).bind fun goesOn ↦ ensures_assume fun hgoesOn ↦ ?_
  cases goesOn with
  | false =>
    exact (tells_report _ _).bind fun _ ↦ (tells_count _).weaken (fun _ ht ↦ ht)
      (fun _ _ ht ↦ ⟨hgoesOn.mp rfl, ht⟩) fun _ _ hf ↦ hf
  | true =>
    have hgoes : ¬ KeepsTarget policy r.store source destination := fun hkeeps ↦
      nomatch hgoesOn.mpr hkeeps
    refine (tells_report _ _).bind fun _ ↦ Ensures.bind ((tells_ask _).weaken (fun _ ht ↦ ht)
      (fun _ _ ht ↦ ht) fun f _ ht ↦ ⟨isSystem_of_exists ht.1, hgoes, _, .inr rfl, ht.2⟩) fun there ↦
        ensures_assume fun hthere ↦ ?_
    obtain rfl : there = false := by
      cases there with
      | false => rfl
      | true => exact absurd hthere hmissing
    refine Ensures.bind (Q := fun _ _ ↦ False) (ensures_throw fun t ht ↦ ?_) fun _ _ h ↦ h.elim
    exact ⟨rfl, hgoes, _, .inr rfl, ht⟩

theorem missed_moveEntryFrom (policy : OverwritePolicy) (destination : Path)
    (hmissing : r.store.exists? source ≠ .ok true) (depth : ℕ) :
    Ensures (r.Tells c []) (moveEntryFrom policy (depth + 1) source destination)
      (fun _ r' ↦
        KeepsTarget policy r.store source destination ∧
          r.Tells (c.increment "skipped")
            [(.info, "Move file " ++ source.text ++ " overwrite skipped")] r' ∨
        ¬ KeepsTarget policy r.store source destination ∧
          ∃ news reason, Announced r.store source destination news ∧
            r.Tells (c.increment "failed")
              (news ++ [(.warning, Report.failedMove source destination reason)]) r')
      (fun _ _ ↦ False) := by
  refine Ensures.tryCatch (E := Missed r c policy source destination) ?_ fun f ↦ ?_
  · refine (missed_ask (fun f ↦ isSystem_of_isDirectory) fun f hf hkeeps ↦ ?_).bind fun directory ↦
      ensures_assume fun hsource ↦ ?_
    · cases hf.symm.trans hkeeps.plain
    cases directory with
    | true => exact absurd (exists_of_isDirectory hsource) hmissing
    | false =>
      exact (missed_moveFile hsource hmissing).weaken (fun _ ht ↦ ht) (fun _ _ ht ↦ .inl ht)
        fun _ _ ht ↦ ht
  · refine ensures_assume fun hsystem ↦ ensures_assume fun hgoes ↦ ?_
    rw [if_pos hsystem]
    rintro t ⟨news, hnews, ht⟩
    refine ((tells_count "failed").bind fun _ ↦ tells_report .warning _).weaken (fun _ h ↦ h)
      (fun _ _ h ↦ .inr ⟨hgoes, news, f.reason, hnews, h⟩) (fun _ _ h ↦ h) t ht

/-- A move of what is not there changes nothing. It is counted as failed and warned of once, with both
paths, unless it is a merge and something is at the place to go to. Then it is counted as skipped. -/
theorem missed_of_move (x : Executor) (source destination : String) (policy : OverwritePolicy) {r : Run}
    (hplain : Path.hasWildcard source = false) (hsilent : r.journal.file = none)
    (hmissing : r.store.exists? (Path.resolve source x.workingDirectory) ≠ .ok true) :
    let p := Path.resolve source x.workingDirectory
    let q := Path.resolve destination x.workingDirectory
    let result := (x.move source destination policy).run r
    result.1 = .ok () ∧ result.2.store = r.store ∧
      (¬ KeepsTarget policy r.store p q → result.2.counters = r.counters.increment "failed" ∧
        ∃ news reason, Announced r.store p q news ∧
          result.2.notices = r.notices ++ news ++ [(.warning, Report.failedMove p q reason)]) ∧
      (KeepsTarget policy r.store p q → result.2.counters = r.counters.increment "skipped" ∧
        result.2.notices = r.notices ++ [(.info, "Move file " ++ p.text ++ " overwrite skipped")]) := by
  intro p q result
  have hends := missed_moveEntryFrom (c := r.counters) policy q hmissing (pathLimit - 1) r ⟨rfl, rfl, by simp, hsilent⟩
  have hresult : result = (moveEntryFrom policy (pathLimit - 1 + 1) p q).run r :=
    congrArg (·.run r) (move_of_plain x destination policy hplain)
  rw [← hresult] at hends
  rcases result with ⟨f | ⟨⟩, r'⟩
  · exact hends.elim
  rcases hends with ⟨hkeeps, htells⟩ | ⟨hgoes, news, reason, hnews, htells⟩
  · exact ⟨rfl, htells.store, fun h ↦ absurd hkeeps h, fun _ ↦ ⟨htells.counters, htells.notices⟩⟩
  · refine ⟨rfl, htells.store, fun _ ↦ ⟨htells.counters, news, reason, hnews, ?_⟩, fun h ↦ absurd h hgoes⟩
    rw [htells.notices, List.append_assoc]

/-- A missing source is skipped where the other name is that of a file, and fails where it is free. -/
theorem missed_of_move_onto_file :
    let s := Store.empty.putFile ["g"] [100]
    let x : Executor := ⟨⟨.top, []⟩, none⟩
    let after := fun destination ↦ ((x.move "f" destination .merge).run (Run.first s)).2
    ((after "g").counters = Counters.empty.increment "skipped" ∧
      (after "g").notices = [(.info, "Move file /f overwrite skipped")]) ∧
    (after "h").store = s ∧ (after "h").counters = Counters.empty.increment "failed" := by
  intro s x after
  have hmissing : s.exists? (Path.resolve "f" x.workingDirectory) ≠ .ok true := by
    have hnone : s.exists? (Path.resolve "f" x.workingDirectory) = .ok false := rfl
    simp [hnone]
  have hkeeps : KeepsTarget .merge s (Path.resolve "f" x.workingDirectory)
      (Path.resolve "g" x.workingDirectory) := ⟨rfl, rfl, rfl⟩
  have hgoes : ¬ KeepsTarget .merge s (Path.resolve "f" x.workingDirectory)
      (Path.resolve "h" x.workingDirectory) := fun h ↦ nomatch h.there
  have hplain : Path.hasWildcard "f" = false := rfl
  have hskipped := missed_of_move x "f" "g" .merge (r := Run.first s) hplain rfl hmissing
  have hfailed := missed_of_move x "f" "h" .merge (r := Run.first s) hplain rfl hmissing
  exact ⟨hskipped.2.2.2 hkeeps, hfailed.2.1, (hfailed.2.2.1 hgoes).1⟩

end Executor

end DeferredOps
