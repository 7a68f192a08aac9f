import DeferredOps.Proofs.Instruction.Grammar

/-!
# Lines under different environments

A line is cut into its operands before any reference in them is expanded. What it is cut into, its
outline, says all about the instruction except for the values that the variables put into the operands:
whatever these values are, they add no operator, no quote and no marker, and can only leave an operand
empty.
-/

namespace DeferredOps

/-- An instruction before its references are expanded: its operands are as they are written. -/
inductive Outline
  | comment (text : List Char)
  | execute (commandLine : List Char)
  | delete (target : List Char)
  | move (source destination : List Char) (policy : OverwritePolicy)

namespace Outline

/-- The operands of an outline. -/
def operands : Outline → List (List Char)
  | comment _ | execute _ => []
  | delete target => [target]
  | move source destination _ => [source, destination]

/-- An outline with its operands cleaned. -/
def directive (env : Environment) : Outline → Directive
  | comment text => .comment (String.ofList text)
  | execute commandLine => .execute (String.ofList commandLine)
  | delete target => .delete (String.ofList (env.normalizeChars target))
  | move source destination policy =>
    .move (String.ofList (env.normalizeChars source))
      (String.ofList (env.normalizeChars destination)) policy

end Outline

/-- Two directives differ at most in their operands. -/
def Directive.SameShape : Directive → Directive → Prop
  | .comment text, .comment text' => text = text'
  | .execute commandLine, .execute commandLine' => commandLine = commandLine'
  | .delete _, .delete _ => True
  | .move _ _ policy, .move _ _ policy' => policy = policy'
  | _, _ => False

theorem Outline.sameShape (env env' : Environment) (outline : Outline) :
    (outline.directive env).SameShape (outline.directive env') := by
  cases outline <;> trivial

namespace Instruction

variable {env : Environment} {line : List Char} {outline outline' : Outline} {directive : Directive}

/-- What a trimmed line is cut into. -/
inductive Outlines : List Char → Outline → Prop
  | comment (rest : List Char) : Outlines ('#' :: rest) (.comment ('#' :: rest))
  | execute (rest : List Char) : Outlines ('@' :: rest) (.execute rest)
  | delete (rest : List Char) : Outlines ('<' :: rest) (.delete rest)
  | move {line : List Char} {i : ℕ} {policy : OverwritePolicy}
      (hmarker : ∀ marker ∈ line.head?, marker ∉ ['#', '<', '@'])
      (hoperator : OperatorAt line i policy) :
      Outlines line (.move (line.take i) (line.drop (i + 1)) policy)

theorem Outlines.unique (h : Outlines line outline) (h' : Outlines line outline') :
    outline = outline' := by
  cases h with
  | comment | execute | delete =>
    cases h' <;> first | rfl | exact absurd (‹∀ marker ∈ _, _› _ rfl) (by simp)
  | move hmarker hoperator =>
    cases h' with
    | comment | execute | delete => exact absurd (hmarker _ rfl) (by simp)
    | move hmarker' hoperator' =>
      have hsame := (operator?_eq_some_iff.mpr hoperator).symm.trans
        (operator?_eq_some_iff.mpr hoperator')
      simp only [Option.some_inj, Prod.mk.injEq] at hsame
      obtain ⟨rfl, rfl⟩ := hsame
      rfl

/-- A line says what it is cut into, with its operands cleaned, unless one of them is left empty. -/
theorem denotes_iff_outlines : Denotes env line directive ↔
    ∃ outline, Outlines line outline ∧
      (∀ operand ∈ outline.operands, env.normalizeChars operand ≠ []) ∧
      directive = outline.directive env := by
  constructor
  · rintro (rest | rest | ⟨htarget, hne⟩ | ⟨hmarker, hoperator, hsource, hsource_ne, hdestination,
      hdestination_ne⟩)
    · exact ⟨_, .comment rest, by simp [Outline.operands], rfl⟩
    · exact ⟨_, .execute rest, by simp [Outline.operands], rfl⟩
    · obtain rfl := isOperand_iff.mp htarget
      exact ⟨_, .delete _, by simpa [Outline.operands] using hne, rfl⟩
    · obtain rfl := isOperand_iff.mp hsource
      obtain rfl := isOperand_iff.mp hdestination
      exact ⟨_, .move hmarker hoperator,
        by simpa [Outline.operands] using ⟨hsource_ne, hdestination_ne⟩, rfl⟩
  · rintro ⟨outline, houtline, hne, rfl⟩
    cases houtline with
    | comment rest => exact .comment rest
    | execute rest => exact .execute rest
    | delete rest => exact .delete (isOperand_iff.mpr rfl) (hne _ (by simp [Outline.operands]))
    | move hmarker hoperator =>
      exact .move hmarker hoperator (isOperand_iff.mpr rfl) (hne _ (by simp [Outline.operands]))
        (isOperand_iff.mpr rfl) (hne _ (by simp [Outline.operands]))

/-- Only a line without a marker and without an operator is cut into nothing. -/
theorem not_outlines_iff : (∀ outline, ¬ Outlines line outline) ↔
    (∀ marker ∈ line.head?, marker ∉ ['#', '<', '@']) ∧ ∀ i policy, ¬ OperatorAt line i policy := by
  constructor
  · intro h
    have hmarker : ∀ marker ∈ line.head?, marker ∉ ['#', '<', '@'] := by
      intro marker hhead hmem
      obtain ⟨rest, rfl⟩ := List.head?_eq_some_iff.mp hhead
      simp only [List.mem_cons, List.not_mem_nil, or_false] at hmem
      rcases hmem with rfl | rfl | rfl
      · exact h _ (.comment rest)
      · exact h _ (.delete rest)
      · exact h _ (.execute rest)
    exact ⟨hmarker, fun i policy hoperator ↦ h _ (.move hmarker hoperator)⟩
  · rintro ⟨hmarker, hoperator⟩ outline houtline
    cases houtline with
    | comment | execute | delete => exact hmarker _ rfl (by simp)
    | move _ h => exact hoperator _ _ h

section Parse

variable (env : Environment) (lineNumber : ℤ) (line : String)

/-- A line is refused, with its text and its number, if one of its operands is left empty. -/
theorem parse_eq_error_iff {outline : Outline} (h : Outlines (trimLine line.toList) outline)
    (e : InstructionError) : parse env lineNumber line = .error e ↔
      e = ⟨String.ofList (trimLine line.toList), lineNumber⟩ ∧
        ∃ operand ∈ outline.operands, env.normalizeChars operand = [] := by
  rw [(parse_iff_denotes env lineNumber line).2.2]
  refine and_congr_right fun _ ↦ ?_
  simp only [denotes_iff_outlines]
  constructor
  · intro hnone
    by_contra! hne
    exact hnone _ ⟨outline, h, hne, rfl⟩
  · rintro ⟨operand, hmem, heq⟩ directive ⟨outline', houtline', hne, -⟩
    obtain rfl := h.unique houtline'
    exact hne operand hmem heq

/-- A line is read as what it is cut into if none of its operands is left empty. -/
theorem parse_eq_ok_iff {outline : Outline} (h : Outlines (trimLine line.toList) outline)
    (i : Instruction) : parse env lineNumber line = .ok i ↔
      i = ⟨outline.directive env, lineNumber⟩ ∧
        ∀ operand ∈ outline.operands, env.normalizeChars operand ≠ [] := by
  rw [(parse_iff_denotes env lineNumber line).2.1, denotes_iff_outlines]
  obtain ⟨directive, number⟩ := i
  constructor
  · rintro ⟨rfl, outline', houtline', hne, rfl⟩
    obtain rfl := h.unique houtline'
    exact ⟨rfl, hne⟩
  · rintro ⟨heq, hne⟩
    cases heq
    exact ⟨rfl, outline, h, hne, rfl⟩

/-- A line that is cut into nothing is refused with its text and its number. -/
theorem parse_of_not_outlines (h : ∀ outline, ¬ Outlines (trimLine line.toList) outline) :
    parse env lineNumber line =
      .error ⟨String.ofList (trimLine line.toList), lineNumber⟩ := by
  refine ((parse_iff_denotes env lineNumber line).2.2 _).mpr ⟨rfl, fun directive hdenotes ↦ ?_⟩
  obtain ⟨outline, houtline, -⟩ := denotes_iff_outlines.mp hdenotes
  exact h outline houtline

end Parse

/-- The values of variables do not bear on what an instruction is: under any two environments a line is
read as instructions of the same shape. It is refused where one of its operands is left empty, and a line
without a marker and without an operator is refused everywhere, in the same words. -/
theorem parse_same_shape (env₁ env₂ : Environment) (lineNumber : ℤ) (line : String) :
    (∀ i₁ i₂, parse env₁ lineNumber line = .ok i₁ → parse env₂ lineNumber line = .ok i₂ →
      i₁.lineNumber = lineNumber ∧ i₂.lineNumber = lineNumber ∧
        i₁.directive.SameShape i₂.directive) ∧
    (∀ i₁, parse env₁ lineNumber line = .ok i₁ →
      ∃ outline, Outlines (trimLine line.toList) outline ∧
        i₁.directive = outline.directive env₁ ∧
        ∀ e, parse env₂ lineNumber line = .error e ↔
          e = ⟨String.ofList (trimLine line.toList), lineNumber⟩ ∧
            ∃ operand ∈ outline.operands, env₂.normalizeChars operand = []) ∧
    (∀ e, parse env₁ lineNumber line = .error e →
      e = ⟨String.ofList (trimLine line.toList), lineNumber⟩ ∧
        ((∃ outline, Outlines (trimLine line.toList) outline ∧
            ∃ operand ∈ outline.operands, env₁.normalizeChars operand = []) ∨
          ((∀ marker ∈ (trimLine line.toList).head?, marker ∉ ['#', '<', '@']) ∧
            (∀ i policy, ¬ OperatorAt (trimLine line.toList) i policy) ∧
            parse env₂ lineNumber line = .error e))) := by
  by_cases hcut : ∃ outline, Outlines (trimLine line.toList) outline
  · obtain ⟨outline, houtline⟩ := hcut
    refine ⟨fun i₁ i₂ h₁ h₂ ↦ ?_, fun i₁ h₁ ↦ ?_, fun e he ↦ ?_⟩
    · obtain ⟨rfl, -⟩ := (parse_eq_ok_iff env₁ lineNumber line houtline i₁).mp h₁
      obtain ⟨rfl, -⟩ := (parse_eq_ok_iff env₂ lineNumber line houtline i₂).mp h₂
      exact ⟨rfl, rfl, outline.sameShape env₁ env₂⟩
    · obtain ⟨rfl, -⟩ := (parse_eq_ok_iff env₁ lineNumber line houtline i₁).mp h₁
      exact ⟨outline, houtline, rfl, parse_eq_error_iff env₂ lineNumber line houtline⟩
    · obtain ⟨rfl, hempty⟩ := (parse_eq_error_iff env₁ lineNumber line houtline e).mp he
      exact ⟨rfl, .inl ⟨outline, houtline, hempty⟩⟩
  · push Not at hcut
    have hnone (env : Environment) := parse_of_not_outlines env lineNumber line hcut
    obtain ⟨hmarker, hoperator⟩ := not_outlines_iff.mp hcut
    rw [hnone env₁, hnone env₂]
    refine ⟨nofun, nofun, fun e he ↦ ?_⟩
    cases he
    exact ⟨rfl, .inr ⟨hmarker, hoperator, rfl⟩⟩

end Instruction

end DeferredOps
