import DeferredOps.Proofs.Bookkeeping
import DeferredOps.Proofs.SilentRun

/-!
# Counters that grow

A counter is only ever added to, so what an operation has counted is still counted when a later one
has ended.
-/

namespace DeferredOps

open Action

namespace Counters

variable {c c' c'' : Counters} {name other : String} {value : Int}

theorem lookup_map_put (values : List (String × Int)) :
    (values.map fun entry ↦ if entry.1 = name then (name, value) else entry).lookup other =
      if other = name then (values.lookup name).map fun _ ↦ value else values.lookup other := by
  induction values with
  | nil => simp
  | cons entry rest ih =>
    obtain ⟨key, old⟩ := entry
    by_cases hkey : key = name
    · subst hkey
      by_cases hother : other = key
      · simp [hother]
      · have hne : (other == key) = false := by simpa using hother
        simp [List.lookup_cons, hne, hother, ih]
    · by_cases hother : other = name
      · subst hother
        have hne : (other == key) = false := by simpa using Ne.symm hkey
        simp [List.lookup_cons, hkey, hne, ih]
      · by_cases hsame : other = key
        · subst hsame
          simp [hkey]
        · have hne : (other == key) = false := by simpa using hsame
          simp [List.lookup_cons, hkey, hne, hother, ih]

theorem get?_put : (c.put name value).get? other = if other = name then some value else c.get? other := by
  have hthere : c.values.any (·.1 = name) = (c.values.lookup name).isSome := by
    rw [Bool.eq_iff_iff, List.any_eq_true, List.lookup_isSome_iff]
    simp only [decide_eq_true_eq, beq_iff_eq, @eq_comm _ name]
  unfold put get?
  split
  · next hany =>
    obtain ⟨old, hold⟩ := Option.isSome_iff_exists.mp (hthere.symm.trans hany)
    rw [lookup_map_put, hold]
    rfl
  · next hany =>
    rw [hthere, Bool.not_eq_true, Option.isSome_eq_false_iff, Option.isNone_iff_eq_none] at hany
    rw [List.lookup_append]
    by_cases hother : other = name
    · simp [hother, hany]
    · have hne : (other == name) = false := by simpa using hother
      simp [List.lookup_cons, hne, hother]

/-- Adding one to a counter leaves the others alone. -/
theorem value_increment :
    (c.increment name).value other = if other = name then c.value name + 1 else c.value other := by
  unfold increment value
  rw [get?_put]
  split <;> rfl

/-- An increment adds one to the counter that it names. -/
theorem value_increment_eq :
    (c.increment name).value other = c.value other + if other = name then 1 else 0 := by
  rw [value_increment]
  split
  · next heq => rw [heq]
  · simp

/-- No counter is lower than before. -/
def Le (c c' : Counters) : Prop :=
  ∀ name, c.value name ≤ c'.value name

theorem Le.refl (c : Counters) : c.Le c :=
  fun _ ↦ Int.le_refl _

theorem Le.increment (h : c.Le c') (name : String) : c.Le (c'.increment name) := by
  intro other
  have hother := h other
  rw [value_increment]
  split
  · next heq =>
    subst heq
    omega
  · exact hother

theorem Le.lt_increment (h : c.Le c') (name : String) :
    c.value name < (c'.increment name).value name := by
  have hname := h name
  rw [value_increment, if_pos rfl]
  omega

end Counters

/-! ## Operations that count -/

/-- A silent run whose counters are no lower than some others. -/
abbrev Run.Counted (c : Counters) : Run → Prop := Run.On fun _ c' ↦ c.Le c'

/-- An operation takes nothing back that has been counted. -/
abbrev RunAction.Counts {α : Type} (c : Counters) (operation : RunAction α) : Prop :=
  Keeps (Run.Counted c) (fun _ ↦ True) operation

variable {c : Counters}

theorem bookkeeping_counted (c : Counters) : Bookkeeping (Run.Counted c) where
  store _ _ hr := ⟨hr.state, hr.silent⟩
  command _ _ hr := ⟨hr.state, hr.silent⟩
  count _ name _ _ hr := ⟨hr.state.increment name, hr.silent⟩
  info message := RunAction.on_info message
  failed _ :=
    Ensures.bind (RunAction.on_count fun _ _ h ↦ h.increment "failed") fun _ ↦ RunAction.on_warn _

theorem RunAction.counts_ask {α : Type} (question : Store → Except Failure α) :
    Counts c (ask question) :=
  keeps_ask_frame question

theorem RunAction.counts_info (message : String) : Counts c (info message) :=
  (bookkeeping_counted c).info message

/-- A move never lowers a counter. -/
theorem Executor.counts_moveEntryFrom (policy : OverwritePolicy) (depth : ℕ)
    (source destination : Path) : RunAction.Counts c (moveEntryFrom policy depth source destination) :=
  (bookkeeping_counted c).moveEntryFrom policy depth source destination

end DeferredOps
