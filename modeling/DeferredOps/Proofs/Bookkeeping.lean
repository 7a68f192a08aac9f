import DeferredOps.Executor
import DeferredOps.Proofs.Run

/-!
# What counts and reports keep

Some conditions on runs are about what has been counted and reported, whatever the store is. An
operation of an executor keeps such a condition if its counts and its reports do. A failure is counted
and then warned of, so the two together have to keep the condition, and not each of them alone.
-/

namespace DeferredOps

open Action RunAction

/-- A condition on runs that does not depend on the store and that the counts and the reports of an
executor keep. -/
structure Bookkeeping (inv : Run → Prop) : Prop where
  store (r : Run) (store : Store) : inv r → inv { r with store }
  command (r : Run) (line : String) : inv r → inv { r with commands := r.commands ++ [line] }
  count (r : Run) (name : String) : name ∈ Executor.counterNames → name ≠ "failed" → inv r →
    inv { r with counters := r.counters.increment name }
  info (message : String) : Keeps inv (fun _ ↦ True) (RunAction.info message)
  failed (message : String) :
    Keeps inv (fun _ ↦ True) (do RunAction.count "failed"; RunAction.warn message)

variable {inv : Run → Prop}

theorem keeps_splitWildcard_frame (pattern : String) :
    Keeps inv (fun _ ↦ True) (Executor.splitWildcard pattern) := by
  unfold Executor.splitWildcard
  split
  · exact keeps_pure _
  · exact keeps_throw trivial

theorem keeps_mayReplace_frame (policy : OverwritePolicy) (target : Path) :
    Keeps inv (fun _ ↦ True) (Executor.mayReplace policy target) := by
  cases policy with
  | replace => exact keeps_pure _
  | merge => exact (keeps_ask_frame _).bind fun _ ↦ keeps_pure _

namespace Bookkeeping

variable (h : Bookkeeping inv)
include h

/-! ## Parts -/

theorem onStore {α : Type} (action : StoreAction α) :
    Keeps inv (fun _ ↦ True) (RunAction.onStore action) :=
  keeps_onStore_frame h.store

theorem counted {name : String} (hname : name ∈ Executor.counterNames) (hother : name ≠ "failed") :
    Keeps inv (fun _ ↦ True) (RunAction.count name) :=
  keeps_modify fun r hr ↦ h.count r name hname hother hr

theorem surviving {report : Failure → String} {operation : RunAction Unit}
    (hoperation : Keeps inv (fun _ ↦ True) operation) :
    Keeps inv (fun _ ↦ True) (RunAction.surviving report operation) := by
  refine hoperation.tryCatch fun f _ ↦ ?_
  split
  · exact h.failed _
  · exact keeps_throw trivial

theorem skip (message : String) :
    Keeps inv (fun _ ↦ True) (do RunAction.info message; RunAction.count "skipped") :=
  (h.info message).bind fun _ ↦ h.counted (by decide) (by decide)

/-! ## Deleting -/

theorem deleteFile (file : Path) : Keeps inv (fun _ ↦ True) (Executor.deleteFile file) :=
  (h.info _).bind fun _ ↦ (h.onStore _).bind fun _ ↦ h.counted (by decide) (by decide)

theorem deletePlain (target : Path) : Keeps inv (fun _ ↦ True) (Executor.deletePlain target) := by
  refine (keeps_ask_frame _).bind fun isDirectory ↦ ?_
  split
  · exact (h.info _).bind fun _ ↦ (h.onStore _).bind fun _ ↦ h.counted (by decide) (by decide)
  refine (keeps_ask_frame _).bind fun isFile ↦ ?_
  split
  · exact h.deleteFile target
  refine (keeps_ask_frame _).bind fun isLink ↦ ?_
  split
  · exact h.deleteFile target
  · exact keeps_pure _

theorem delete (x : Executor) (pattern : String) : Keeps inv (fun _ ↦ True) (x.delete pattern) := by
  refine h.surviving ?_
  split
  · exact (keeps_splitWildcard_frame pattern).bind fun wildcard ↦ (keeps_ask_frame _).bind fun files ↦
      keeps_forM fun file _ ↦ h.deleteFile file
  · exact h.deletePlain _

/-! ## Moving -/

theorem removeTarget (target : Path) : Keeps inv (fun _ ↦ True) (Executor.removeTarget target) := by
  refine (keeps_ask_frame _).bind fun isDirectory ↦ ?_
  split
  · exact h.onStore _
  refine (keeps_ask_frame _).bind fun isThere ↦ ?_
  split
  · exact h.onStore _
  · exact keeps_pure _

section Children

variable {moveChild : Path → Path → RunAction Unit}
  (hchild : ∀ source target, Keeps inv (fun _ ↦ True) (moveChild source target))
include hchild

theorem mergeNames (names : List String) (source target : Path) :
    Keeps inv (fun _ ↦ True) (do
      for name in names do
        moveChild (source.child name) target
      RunAction.count "merged"
      if (← RunAction.ask (·.list source)).isEmpty then
        RunAction.onStore (StoreAction.removeDirectory source)) := by
  refine Keeps.bind (keeps_forIn fun name _ ↦ (hchild _ _).yield) fun _ ↦ ?_
  refine (h.counted (by decide) (by decide)).bind fun _ ↦ (keeps_ask_frame _).bind fun rest ↦ ?_
  split
  · exact h.onStore _
  · exact keeps_pure _

theorem mergeDirectory (source target : Path) :
    Keeps inv (fun _ ↦ True) (Executor.mergeDirectory moveChild source target) :=
  (h.info _).bind fun _ ↦ (keeps_ask_frame _).bind fun names ↦ h.mergeNames hchild names source target

theorem moveDirectory (source destination : Path) (policy : OverwritePolicy) :
    Keeps inv (fun _ ↦ True) (Executor.moveDirectory moveChild source destination policy) := by
  refine (keeps_ask_frame _).bind fun isDirectory ↦ ?_
  split
  · exact (h.info _).bind fun _ ↦ (h.onStore _).bind fun _ ↦ h.counted (by decide) (by decide)
  refine (h.info _).bind fun _ ↦ (keeps_ask_frame _).bind fun same ↦ ?_
  split
  · exact h.skip _
  refine (keeps_mayReplace_frame _ _).bind fun replaces ↦ ?_
  split
  · exact (h.removeTarget _).bind fun _ ↦ (h.onStore _).bind fun _ ↦
      h.counted (by decide) (by decide)
  · exact h.mergeDirectory hchild _ _

end Children

theorem moveFile (source destination : Path) (policy : OverwritePolicy) :
    Keeps inv (fun _ ↦ True) (Executor.moveFile source destination policy) := by
  refine (keeps_ask_frame _).bind fun isDirectory ↦ ?_
  -- Where the file goes makes no difference to what is counted.
  generalize (if isDirectory then Executor.within destination source else destination) = target
  refine (keeps_ask_frame _).bind fun same ↦ ?_
  split
  · exact h.skip _
  refine (keeps_mayReplace_frame _ _).bind fun replaces ↦ ?_
  split
  · refine (h.info _).bind fun _ ↦ (keeps_ask_frame _).bind fun isThere ↦ ?_
    have hmove : Keeps inv (fun _ ↦ True) (do
        RunAction.onStore (StoreAction.unlinkIfThere target)
        RunAction.onStore (StoreAction.moveEntry source target)
        RunAction.count "moved") :=
      (h.onStore _).bind fun _ ↦ (h.onStore _).bind fun _ ↦ h.counted (by decide) (by decide)
    split
    · exact (keeps_throw trivial).bind fun _ ↦ hmove
    · exact hmove
  · exact h.skip _

/-- The depth of a merge is bounded, and each level survives the failures of the ones below it. -/
theorem moveEntryFrom (policy : OverwritePolicy) (depth : ℕ) (source destination : Path) :
    Keeps inv (fun _ ↦ True) (Executor.moveEntryFrom policy depth source destination) := by
  induction depth generalizing source destination with
  | zero => exact h.surviving (keeps_throw trivial)
  | succ depth ih =>
    refine h.surviving ((keeps_ask_frame _).bind fun isDirectory ↦ ?_)
    split
    · exact h.moveDirectory ih source destination policy
    · exact h.moveFile source destination policy

theorem move (x : Executor) (source destination : String) (policy : OverwritePolicy) :
    Keeps inv (fun _ ↦ True) (x.move source destination policy) := by
  unfold Executor.move
  dsimp only
  split
  · exact h.moveEntryFrom policy _ _ _
  · refine h.surviving ((keeps_splitWildcard_frame source).bind fun wildcard ↦ (h.onStore _).bind fun _ ↦ ?_)
    refine (keeps_ask_frame _).bind fun files ↦ Keeps.bind (keeps_forIn fun file _ ↦ ?_) keeps_pure
    exact Ensures.bind (h.info _) fun _ ↦ (h.moveEntryFrom policy _ _ _).yield

/-! ## Instructions -/

theorem runCommand (x : Executor) (commandLine : String) :
    Keeps inv (fun _ ↦ True) (x.runCommand commandLine) := by
  unfold Executor.runCommand
  dsimp only
  split
  · exact h.info _
  · refine (h.info _).bind fun _ ↦ h.surviving ((keeps_modify fun r ↦ h.command r _).bind fun _ ↦ ?_)
    split
    · exact h.counted (by decide) (by decide)
    · exact keeps_throw trivial

theorem execute (x : Executor) (instruction : Instruction) :
    Keeps inv (fun _ ↦ True) (x.execute instruction) := by
  unfold Executor.execute Executor.perform
  split
  · exact h.info _
  · exact h.delete x _
  · exact h.runCommand x _
  · exact h.move x _ _ _

end Bookkeeping

end DeferredOps
