import DeferredOps.Proofs.DirectoryMove
import DeferredOps.Proofs.Store.Spelling

/-!
# Clearing a place that is spelled out

The steps that come before a directory is carried to a place, where the paths of both spell their
locations out: what has the name there is known, and it is removed as a whole.
-/

namespace DeferredOps

open Action

namespace Executor

open RunAction Store

variable {s : Store} {c : Counters} {source destination target : Path} {origin location : Location}
  {name : String} {policy : OverwritePolicy} {F : Failure → Run → Prop}

/-- A question whose answer on the store is known. -/
theorem starts_ask_of_eq {α : Type} {question : Store → Except Failure α} {answer : α}
    (h : question s = .ok answer) :
    Ensures (Starts s c) (ask question) (fun a r ↦ a = answer ∧ Starts s c r) F :=
  on_ask_of_eq fun _ _ hr ↦ hr.1 ▸ h

/-- An action on the store whose run is known. -/
theorem starts_onStore_of_eq {action : StoreAction Unit} {P : Store → Prop} {s' : Store}
    (h : action.run s = (.ok (), s')) (hP : P s') :
    Ensures (Starts s c) (onStore action) (fun _ ↦ Run.On fun s' c' ↦ P s' ∧ c' = c) F := by
  intro r hr
  rw [run_onStore, hr.state.1, h]
  exact ⟨⟨hP, hr.state.2⟩, hr.silent⟩

/-- The place of a source in a directory that its path spells out. -/
theorem within_of_parts {front : List String} (hparts : source.parts = front ++ [name]) :
    within destination source = destination.child name := by
  rw [within, hparts, List.getLast?_concat]

theorem exists_within (destination : Path) (hne : source.parts ≠ []) :
    ∃ name ∈ source.parts, within destination source = destination.child name := by
  obtain ⟨front, name, hparts⟩ := (List.eq_nil_or_concat source.parts).resolve_left hne
  rw [List.concat_eq_append] at hparts
  exact ⟨name, by simp [hparts], within_of_parts hparts⟩

theorem parts_within_ne (hne : source.parts ≠ []) : (within destination source).parts ≠ [] := by
  obtain ⟨name, -, heq⟩ := exists_within destination hne
  simp [heq]

theorem dotless_within (hsource : source.Dotless) (hdestination : destination.Dotless)
    (hne : source.parts ≠ []) : (within destination source).Dotless := by
  obtain ⟨name, hmem, hwithin⟩ := exists_within destination hne
  rw [hwithin]
  exact fun n hn ↦ (List.mem_append.mp hn).elim (hdestination n)
    fun hn ↦ by simpa [show n = name by simpa using hn] using hsource name hmem

/-- What stands at a spelled-out target is removed, all of it and nothing else. -/
theorem starts_removeTarget_of_spells (h : s.Spells target location) (hs : s.WellFormed)
    (hfree : s.LinkFree) (hne : target.parts ≠ []) :
    Ensures (Starts s c) (removeTarget target)
      (fun _ ↦ Run.On fun s' c' ↦
        (s.Without (location <+: ·) s' ∧ s.Pruned location s') ∧ c' = c) F := by
  refine (starts_ask_of_eq (h.isDirectory hs (hfree.noLinksTo _))).bind fun isDirectory ↦
    ensures_assume fun hdirectory ↦ ?_
  cases hentry : s.entry? location with
  | none =>
    rw [hentry] at hdirectory
    subst hdirectory
    refine (starts_ask_of_eq (h.exists? hs (hfree.noLinksTo _))).bind fun there ↦
      ensures_assume fun hthere ↦ ?_
    rw [hentry] at hthere
    subst hthere
    refine ensures_pure fun r hr ↦ ⟨⟨?_, hr.state.2⟩, hr.silent⟩
    rw [hr.state.1]
    exact ⟨without_of_none hs hentry, .refl s _⟩
  | some entry =>
    rw [hentry] at hdirectory
    cases entry with
    | dir =>
      obtain ⟨s', hrun, hwithout, hpruned⟩ :=
        StoreAction.run_removeTree_of_spells h hs hne hentry
      subst hdirectory
      exact starts_onStore_of_eq hrun ⟨hwithout, hpruned⟩
    | file id content =>
      obtain ⟨s', hrun, hwithout, hpruned⟩ := StoreAction.run_unlink_of_spells h hs hne hentry
      subst hdirectory
      refine (starts_ask_of_eq (h.exists? hs (hfree.noLinksTo _))).bind fun there ↦
        ensures_assume fun hthere ↦ ?_
      rw [hentry] at hthere
      subst hthere
      exact starts_onStore_of_eq hrun ⟨hwithout, hpruned⟩
    | link text => exact absurd hentry (hfree _ _)

/-- A directory is moved as one, whatever is known of that. -/
theorem starts_moveEntryFrom_of_directory {P : Store → Counters → Prop} {depth : ℕ}
    (hdirectory : s.isDirectory source = .ok true)
    (hmove : Ensures (Starts s c)
      (moveDirectory (moveEntryFrom policy depth) source destination policy) (fun _ ↦ Run.On P)
      (fun _ _ ↦ False)) :
    Ensures (Starts s c) (moveEntryFrom policy (depth + 1) source destination) (fun _ ↦ Run.On P)
      (fun _ _ ↦ False) := by
  refine Ensures.tryCatch (E := fun _ _ ↦ False) ((starts_ask_of_eq hdirectory).bind
    fun isDirectory ↦ ensures_assume fun htrue ↦ ?_) fun _ _ hnot ↦ hnot.elim
  subst htrue
  exact hmove

/-- What is known of the move of an entry is known of a plain move. -/
theorem ends_of_move (x : Executor) {source : String} (destination : String)
    (hplain : Path.hasWildcard source = false) {r : Run} (hsilent : r.journal.file = none)
    {P : Store → Counters → Prop}
    (h : Ensures (Starts r.store r.counters)
      (moveEntryFrom policy pathLimit (Path.resolve source x.workingDirectory)
        (Path.resolve destination x.workingDirectory)) (fun _ ↦ Run.On P) (fun _ _ ↦ False)) :
    ((x.move source destination policy).run r).1 = .ok () ∧
      P ((x.move source destination policy).run r).2.store
        ((x.move source destination policy).run r).2.counters := by
  have hrun := h r ⟨⟨rfl, rfl⟩, hsilent⟩
  change Outcome _ _ ((moveEntry _ _ policy).run r) at hrun
  rw [← move_of_plain x destination policy hplain] at hrun
  rcases hresult : (x.move source destination policy).run r with ⟨f | ⟨⟩, r'⟩ <;> rw [hresult] at hrun
  · exact hrun.elim
  · exact ⟨rfl, hrun.state⟩

end Executor

end DeferredOps
