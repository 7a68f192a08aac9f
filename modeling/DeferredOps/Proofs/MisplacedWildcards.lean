import DeferredOps.Proofs.Executor
import DeferredOps.Proofs.Path.Wildcard

/-!
# Misplaced wildcard characters

A pattern with a misplaced wildcard character stops a deletion or a move before it has done anything, and
nothing else is refused for this reason. Every other pattern is split in one way only.
-/

namespace DeferredOps

open Action

namespace Executor

open RunAction

variable {x : Executor} {r : Run} {pattern destination : String} {policy : OverwritePolicy}
  {e : WildcardError}

/-- Every failure but that of a pattern. -/
def NoPattern (f : Failure) : Prop :=
  ∀ e, f ≠ .wildcard e

/-- What cannot be split stops a deletion at its beginning. -/
theorem run_delete_of_unsplit (hwild : Path.hasWildcard pattern)
    (hsplit : Wildcard.ofString pattern = .error e) :
    (x.delete pattern).run r = (.error (.wildcard e), r) := by
  unfold delete surviving
  rw [run_tryCatch, if_pos hwild, splitWildcard, hsplit]
  dsimp only
  rw [throw_bind, run_throw]
  rfl

/-- It stops a move before the destination directory is made. -/
theorem run_move_of_unsplit (hwild : Path.hasWildcard pattern)
    (hsplit : Wildcard.ofString pattern = .error e) :
    (x.move pattern destination policy).run r = (.error (.wildcard e), r) := by
  rw [move_of_wildcard x destination policy hwild]
  unfold surviving moveMatching
  rw [run_tryCatch, splitWildcard, hsplit]
  dsimp only
  rw [throw_bind, run_throw]
  rfl

/-- A deletion fails because of its pattern only if that cannot be split. -/
theorem keeps_delete_of_split
    (hsplit : Path.hasWildcard pattern → ∃ wildcard, Wildcard.ofString pattern = .ok wildcard) :
    Keeps Run.WellFormed NoPattern (x.delete pattern) := by
  refine keeps_delete Store.invariant_wellFormed x (fun _ e h ↦ by cases h) (fun e hwild he ↦ ?_)
    fun _ _ _ _ ↦ trivial
  obtain ⟨wildcard, hok⟩ := hsplit hwild
  cases he.symm.trans hok

/-- So does a move. -/
theorem keeps_move_of_split (hx : x.workingDirectory.Proper)
    (hsplit : Path.hasWildcard pattern → ∃ wildcard, Wildcard.ofString pattern = .ok wildcard) :
    Keeps Run.WellFormed NoPattern (x.move pattern destination policy) := by
  have hinv := Store.invariant_wellFormed
  have husable (text : String) : (Path.resolve text x.workingDirectory).Usable True :=
    ⟨proper_resolve hx text, fun _ ↦ trivial⟩
  have hmove : Movable Store.WellFormed True NoPattern _ :=
    movable_usable hinv (fun _ e h ↦ by cases h) fun e h ↦ by cases h
  refine keeps_move hinv hmove x _ (fun e hwild he ↦ ?_) (fun _ ↦ ⟨husable _, husable _⟩)
    fun _ wildcard hok ↦ ⟨husable _, fun _ ↦ trivial, fun name hname ↦ ?_⟩
  · obtain ⟨wildcard, hok⟩ := hsplit hwild
    cases he.symm.trans hok
  · rw [parent_of_wildcard x.workingDirectory hok]
    exact ⟨(husable _).parent.child hname, husable _⟩

/-- Deletions and moves are refused because of their pattern exactly if it has a misplaced wildcard
character, and then nothing has been changed, counted or reported. Every other pattern splits into a
directory without wildcard characters and an expression that is one name, and the name in that directory
is what the whole pattern names. -/
theorem refused_iff_misplaced (x : Executor) (pattern destination : String) (policy : OverwritePolicy)
    {r : Run} (hx : x.workingDirectory.Proper) (hr : r.WellFormed) :
    ((∃ e, ((x.delete pattern).run r).1 = .error (.wildcard e)) ↔ Path.Misplaced pattern) ∧
    ((∃ e, ((x.move pattern destination policy).run r).1 = .error (.wildcard e)) ↔
      Path.Misplaced pattern) ∧
    (Path.Misplaced pattern → ∃ e, e.pattern = pattern ∧
      (x.delete pattern).run r = (.error (.wildcard e), r) ∧
      (x.move pattern destination policy).run r = (.error (.wildcard e), r)) ∧
    (Path.hasWildcard pattern → ¬ Path.Misplaced pattern →
      ∃ wildcard, Wildcard.ofString pattern = .ok wildcard ∧
        Path.hasWildcard wildcard.parent.text = false ∧ '/' ∉ wildcard.expression.toList ∧
        Path.resolve wildcard.expression (Path.below x.workingDirectory wildcard.parent) =
          Path.resolve pattern x.workingDirectory) := by
  have hsplit (h : ¬ Path.Misplaced pattern) (hwild : Path.hasWildcard pattern) :
      ∃ wildcard, Wildcard.ofString pattern = .ok wildcard :=
    ⟨_, Wildcard.ofString_of_not_misplaced hwild h⟩
  have hrefused (h : Path.Misplaced pattern) : ∃ e, e.pattern = pattern ∧
      (x.delete pattern).run r = (.error (.wildcard e), r) ∧
      (x.move pattern destination policy).run r = (.error (.wildcard e), r) := by
    have herror := Wildcard.ofString_of_misplaced h
    exact ⟨_, rfl, run_delete_of_unsplit h.1 herror, run_move_of_unsplit h.1 herror⟩
  refine ⟨⟨?_, fun h ↦ ?_⟩, ⟨?_, fun h ↦ ?_⟩, hrefused, fun hwild h ↦ ?_⟩
  · rintro ⟨e, he⟩
    by_contra h
    exact (keeps_delete_of_split (hsplit h)).failure hr he e rfl
  · obtain ⟨e, -, hdelete, -⟩ := hrefused h
    exact ⟨e, by rw [hdelete]⟩
  · rintro ⟨e, he⟩
    by_contra h
    exact (keeps_move_of_split hx (hsplit h)).failure hr he e rfl
  · obtain ⟨e, -, -, hmove⟩ := hrefused h
    exact ⟨e, by rw [hmove]⟩
  · obtain ⟨wildcard, hok⟩ := hsplit h hwild
    exact ⟨wildcard, hok, Wildcard.split_of_ofString hok x.workingDirectory⟩

/-- A pattern with a wildcard character in the name of a directory, and one over a file that is there,
written with needless slashes and points. -/
theorem refused_iff_misplaced_directory :
    let x : Executor := ⟨⟨.top, ["w"]⟩, none⟩
    let r := Run.first (((Store.empty.put ["w"] .dir).put ["w", "a"] .dir).putFile ["w", "a", "f"] [102])
    ((x.delete "*/f").run r).2.store.entries = r.store.entries ∧
      (∃ e, ((x.delete "*/f").run r).1 = .error (.wildcard e)) ∧
      ¬ (∃ e, ((x.move ".//a/./?" "b" .merge).run r).1 = .error (.wildcard e)) ∧
      ∃ wildcard, Wildcard.ofString ".//a/./?" = .ok wildcard ∧
        Path.resolve wildcard.expression (Path.below x.workingDirectory wildcard.parent) =
          ⟨.top, ["w", "a", "?"]⟩ := by
  intro x r
  have hx : x.workingDirectory.Proper := by
    intro name hname
    obtain rfl : name = "w" := by simpa [x] using hname
    exact ⟨by decide, by decide⟩
  have hr : r.WellFormed := Run.wellFormed_first (by decide)
  have hmisplaced : Path.Misplaced "*/f" := ⟨by decide, .inl (by decide)⟩
  have hplaced : ¬ Path.Misplaced ".//a/./?" := by
    rintro ⟨-, hname | ⟨name, hmem, hwild⟩⟩
    · exact absurd hname (by decide)
    · obtain rfl : name = "a" := by
        have hparts : (Path.ofString ".//a/./?").parts.dropLast = ["a"] := by decide
        simpa [hparts] using hmem
      exact absurd hwild (by decide)
  obtain ⟨hdelete, -, hstill, -⟩ := refused_iff_misplaced x "*/f" "b" .merge hx hr
  obtain ⟨-, hmove, -, hsplits⟩ := refused_iff_misplaced x ".//a/./?" "b" .merge hx hr
  obtain ⟨e, -, hrun, -⟩ := hstill hmisplaced
  obtain ⟨wildcard, hok, -, -, hresolve⟩ := hsplits (by decide) hplaced
  refine ⟨by rw [hrun], hdelete.mpr hmisplaced, mt hmove.mp hplaced, wildcard, hok, ?_⟩
  rw [hresolve]
  decide

end Executor

end DeferredOps
