import DeferredOps.Proofs.MatchingDeletions
import DeferredOps.Proofs.PlainDeletions
import DeferredOps.Proofs.Store.Creatable
import DeferredOps.Proofs.Store.Directories

/-!
# Moves by a pattern that cannot begin

A move by a pattern asks for its destination before it lists its source. If the destination cannot be made
a directory, or the files cannot be listed then, nothing is moved, but the directories that have been
made on the way of the destination stay.
-/

namespace DeferredOps

open Action

namespace Executor

open RunAction Store

variable {x : Executor} {r : Run} {q : Path} {pattern : String} {wildcard : Wildcard}

/-- A destination cannot be made a directory, or what a pattern stands for cannot be listed after that. -/
def Stalled (s : Store) (p q : Path) : Prop :=
  let made := ((StoreAction.ensureDirectory q).run s).2
  made.isDirectory q ≠ .ok true ∨ ∀ directory, ¬ made.Readable p directory

/-- A stalled move ends with a failure that it survives, after the destination has been asked for. -/
theorem run_moveMatching_of_stalled (policy : OverwritePolicy) (hsplit : Wildcard.ofString pattern = .ok wildcard)
    (hp : (Path.below x.workingDirectory wildcard.parent).hasNul = false) (hq : q.hasNul = false)
    (h : Stalled r.store (Path.below x.workingDirectory wildcard.parent) q) :
    ∃ f, f.isSystem ∧ (x.moveMatching pattern q policy).run r =
      (.error f, { r with store := ((StoreAction.ensureDirectory q).run r.store).2 }) := by
  unfold moveMatching
  rw [splitWildcard, hsplit, pure_bind, run_bind, run_onStore]
  have hfails := StoreAction.systemFails_ensureDirectory_iff q r.store
  rcases hrun : (StoreAction.ensureDirectory q).run r.store with ⟨f | ⟨⟩, made⟩
  · refine ⟨f, ?_, rfl⟩
    have hmissing := StoreAction.ensures_makeDirectoryAndParents_missing q q.parts.length r.store trivial
    change Outcome _ _ ((StoreAction.ensureDirectory q).run r.store) at hmissing
    rw [hrun] at hmissing
    exact hmissing.2.mpr hq
  · have hthere : made.isDirectory q = .ok true := by
      by_contra hnot
      exact systemFails_of_ok hrun (hfails.mpr ⟨hq, by rwa [hrun]⟩)
    have hunreadable := h.resolve_left (by rw [hrun]; exact not_not.mpr hthere)
    rw [hrun] at hunreadable
    obtain ⟨f, hnames⟩ := matchingNames_of_unreadable hunreadable wildcard.expression
    have hfiles : made.matchingFiles (Path.below x.workingDirectory wildcard.parent)
        wildcard.expression = .error f := by
      rw [Store.matchingFiles, hnames]
      rfl
    refine ⟨f, (ofChange_of_matchingFiles hfiles).resolve_right fun h ↦ by simp [hp] at h, ?_⟩
    dsimp only
    rw [run_bind, matchingFiles, run_ask, hfiles]

end Executor

end DeferredOps
