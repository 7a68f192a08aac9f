import DeferredOps.Proofs.Instruction.Operators
import DeferredOps.Proofs.Text.Trimming

/-!
# The grammar of instructions

What a line says, apart from how it is read: the marker in front of it tells its kind, a line without a
marker is split at its operator, and operands are trimmed, unwrapped and expanded. Lines are read as
they say, and exactly the lines that say nothing are refused.
-/

namespace DeferredOps

variable {env : Environment} {line side token inner operand : List Char} {directive : Directive}

/-! ## Operands -/

/-- A token without the pair of double quotes around it, if there is one. -/
inductive Unwrapped : List Char → List Char → Prop
  | quoted (inner : List Char) : Unwrapped ('"' :: (inner ++ ['"'])) inner
  | bare {token : List Char} (h : ∀ inner, token ≠ '"' :: (inner ++ ['"'])) : Unwrapped token token

/-- The operand that is written on one side of an operator, or after a marker: what is left of it
between blanks, without a pair of double quotes around it, and with its references expanded. -/
def IsOperand (env : Environment) (side operand : List Char) : Prop :=
  ∃ token inner, Text.Stripped Text.isBlank Text.isBlank side token ∧ Unwrapped token inner ∧
    operand = env.expandChars inner

theorem Environment.unquote_quoted (inner : List Char) :
    unquote ('"' :: (inner ++ ['"'])) = inner := by
  have hlast : ('"' :: (inner ++ ['"'])).getLast? = some '"' := by
    rw [← List.cons_append, List.getLast?_concat]
  unfold unquote
  rw [hlast]
  simp

theorem Environment.unwrapped_unquote (token : List Char) : Unwrapped token (unquote token) := by
  by_cases h : ∃ inner, token = '"' :: (inner ++ ['"'])
  · obtain ⟨inner, rfl⟩ := h
    rw [unquote_quoted]
    exact .quoted inner
  · have hbare : unquote token = token := by
      unfold unquote
      rw [if_neg]
      simp only [Bool.and_eq_true, decide_eq_true_eq, not_and]
      rintro ⟨hlength, hhead⟩ hlast
      obtain ⟨rest, rfl⟩ := List.head?_eq_some_iff.mp hhead
      obtain ⟨front, hfront⟩ := List.getLast?_eq_some_iff.mp hlast
      cases front with
      | nil =>
        rw [hfront] at hlength
        simp at hlength
      | cons c inner =>
        rw [List.cons_append, List.cons.injEq] at hfront
        exact h ⟨inner, by rw [hfront.2]⟩
    rw [hbare]
    exact .bare fun inner heq ↦ h ⟨inner, heq⟩

theorem Unwrapped.eq_unquote (h : Unwrapped token inner) : inner = Environment.unquote token := by
  cases h with
  | quoted => exact (Environment.unquote_quoted _).symm
  | bare h =>
    have hother := Environment.unwrapped_unquote token
    generalize Environment.unquote token = result at hother
    cases hother with
    | quoted => exact absurd rfl (h _)
    | bare => rfl

theorem isOperand_iff : IsOperand env side operand ↔ operand = env.normalizeChars side := by
  constructor
  · rintro ⟨token, inner, htrim, hinner, rfl⟩
    rw [hinner.eq_unquote, htrim.eq_trim]
    rfl
  · rintro rfl
    exact ⟨_, _, Text.stripped_trim side, Environment.unwrapped_unquote _, rfl⟩

/-! ## Lines -/

namespace Instruction

/-- What a line says that has neither an end nor blanks at its front. -/
inductive Denotes (env : Environment) : List Char → Directive → Prop
  | comment (rest : List Char) : Denotes env ('#' :: rest) (.comment (String.ofList ('#' :: rest)))
  | execute (rest : List Char) : Denotes env ('@' :: rest) (.execute (String.ofList rest))
  | delete {rest target : List Char} (h : IsOperand env rest target) (hne : target ≠ []) :
      Denotes env ('<' :: rest) (.delete (String.ofList target))
  | move {line source destination : List Char} {i : ℕ} {policy : OverwritePolicy}
      (hmarker : ∀ marker ∈ line.head?, marker ∉ ['#', '<', '@'])
      (hoperator : OperatorAt line i policy)
      (hsource : IsOperand env (line.take i) source) (hsource_ne : source ≠ [])
      (hdestination : IsOperand env (line.drop (i + 1)) destination)
      (hdestination_ne : destination ≠ []) :
      Denotes env line (.move (String.ofList source) (String.ofList destination) policy)

theorem parseMove?_eq_some_iff : parseMove? env line = some directive ↔
    ∃ i policy source destination, OperatorAt line i policy ∧
      IsOperand env (line.take i) source ∧ source ≠ [] ∧
      IsOperand env (line.drop (i + 1)) destination ∧ destination ≠ [] ∧
      directive = .move (String.ofList source) (String.ofList destination) policy := by
  unfold parseMove?
  simp only [isOperand_iff, Option.bind_eq_bind, Option.bind_eq_some_iff, Prod.exists,
    operator?_eq_some_iff]
  constructor
  · rintro ⟨i, policy, hoperator, h⟩
    split at h
    · cases h
    · next hne =>
      simp only [Bool.or_eq_true, List.isEmpty_iff, not_or] at hne
      exact ⟨i, policy, _, _, hoperator, rfl, hne.1, rfl, hne.2, (Option.some_inj.mp h).symm⟩
  · rintro ⟨i, policy, _, _, hoperator, rfl, hsource, rfl, hdestination, rfl⟩
    refine ⟨i, policy, hoperator, ?_⟩
    rw [if_neg (by simp [hsource, hdestination])]

theorem parseTrimmed?_delete (rest : List Char) : parseTrimmed? env ('<' :: rest) =
    if (env.normalizeChars rest).isEmpty then none
    else some (.delete (String.ofList (env.normalizeChars rest))) := rfl

/-- A line without a marker is read as a move. -/
theorem parseTrimmed?_of_unmarked (h : ∀ marker ∈ line.head?, marker ∉ ['#', '<', '@']) :
    parseTrimmed? env line = parseMove? env line := by
  cases line with
  | nil => rfl
  | cons marker rest =>
    have hmarker := h marker rfl
    simp only [List.mem_cons, List.not_mem_nil, or_false, not_or] at hmarker
    obtain ⟨hcomment, hdelete, hexecute⟩ := hmarker
    simp only [parseTrimmed?, if_neg hcomment, if_neg hdelete, if_neg hexecute]

theorem parseTrimmed?_of_denotes (h : Denotes env line directive) :
    parseTrimmed? env line = some directive := by
  cases h with
  | comment rest => rfl
  | execute rest => rfl
  | delete h hne =>
    obtain rfl := isOperand_iff.mp h
    rw [parseTrimmed?_delete, if_neg (by simpa using hne)]
  | move hmarker hoperator hsource hsource_ne hdestination hdestination_ne =>
    rw [parseTrimmed?_of_unmarked hmarker, parseMove?_eq_some_iff]
    exact ⟨_, _, _, _, hoperator, hsource, hsource_ne, hdestination, hdestination_ne, rfl⟩

theorem denotes_of_parseTrimmed? (h : parseTrimmed? env line = some directive) :
    Denotes env line directive := by
  by_cases hunmarked : ∀ marker ∈ line.head?, marker ∉ ['#', '<', '@']
  · rw [parseTrimmed?_of_unmarked hunmarked, parseMove?_eq_some_iff] at h
    obtain ⟨i, policy, source, destination, hoperator, hsource, hsource_ne, hdestination,
      hdestination_ne, rfl⟩ := h
    exact .move hunmarked hoperator hsource hsource_ne hdestination hdestination_ne
  · push Not at hunmarked
    obtain ⟨marker, hhead, hmarker⟩ := hunmarked
    obtain ⟨rest, rfl⟩ := List.head?_eq_some_iff.mp hhead
    simp only [List.mem_cons, List.not_mem_nil, or_false] at hmarker
    rcases hmarker with rfl | rfl | rfl
    · cases h
      exact .comment rest
    · rw [parseTrimmed?_delete] at h
      split at h
      · cases h
      · next hne =>
        cases h
        exact .delete (isOperand_iff.mpr rfl) (by simpa using hne)
    · cases h
      exact .execute rest

/-- What is read from a line is what it says. -/
theorem parseTrimmed?_eq_some_iff : parseTrimmed? env line = some directive ↔
    Denotes env line directive :=
  ⟨denotes_of_parseTrimmed?, parseTrimmed?_of_denotes⟩

theorem numbered_eq_ok_iff {read : Option Directive} {lineNumber : ℤ} {instruction : Instruction} :
    numbered line lineNumber read = .ok instruction ↔
      instruction.lineNumber = lineNumber ∧ read = some instruction.directive := by
  obtain ⟨directive, n⟩ := instruction
  cases read <;> simp [numbered, and_comm, eq_comm]

theorem numbered_eq_error_iff {read : Option Directive} {lineNumber : ℤ} {e : InstructionError} :
    numbered line lineNumber read = .error e ↔
      e = ⟨String.ofList line, lineNumber⟩ ∧ read = none := by
  cases read <;> simp [numbered, eq_comm]

/-- A line is read as what it says without its end and the blanks at its front, and it is refused, with
this text and its number, if it says nothing. -/
theorem parse_iff_denotes (env : Environment) (lineNumber : ℤ) (line : String) :
    Text.Stripped Text.isBlank Text.isLineEnd line.toList (trimLine line.toList) ∧
    (∀ instruction, parse env lineNumber line = .ok instruction ↔
      instruction.lineNumber = lineNumber ∧
        Denotes env (trimLine line.toList) instruction.directive) ∧
    ∀ e, parse env lineNumber line = .error e ↔
      e = ⟨String.ofList (trimLine line.toList), lineNumber⟩ ∧
        ∀ directive, ¬ Denotes env (trimLine line.toList) directive := by
  refine ⟨Text.stripped_dropWhile _ _ _, fun instruction ↦ ?_, fun e ↦ ?_⟩
  · rw [← parseTrimmed?_eq_some_iff]
    exact numbered_eq_ok_iff
  · simp only [← parseTrimmed?_eq_some_iff, ← Option.eq_none_iff_forall_ne_some]
    exact numbered_eq_error_iff

end Instruction

end DeferredOps
