import DeferredOps.Proofs.Instruction.Grammar
import DeferredOps.Proofs.References
import DeferredOps.Proofs.Text.Lines

/-!
# Writing directives

A directive is written with its marker and its operands between double quotes. No character of a quoted
operand is taken for an operator, so a line that is written says what was written, as long as its
operands refer to no variable that is set.
-/

namespace DeferredOps

open Text OperatorScan

variable {env : Environment} {c : Char} {position : ℕ} {line blanks operand rest : List Char}
  {directive : Directive}

/-! ## Lines of directives -/

/-- The character between the operands of a move. -/
def OverwritePolicy.operator : OverwritePolicy → Char
  | .replace => '>'
  | .merge => ')'

/-- A text between double quotes. -/
def quoted (text : List Char) : List Char :=
  '"' :: (text ++ ['"'])

/-- A text of blanks that ends no line. -/
def IsSpacing (text : List Char) : Prop :=
  ∀ c ∈ text, isBlank c ∧ isLineEnd c = false

instance (text : List Char) : Decidable (IsSpacing text) :=
  List.decidableBAll (fun c ↦ isBlank c ∧ isLineEnd c = false) text

/-- A directive as it is written in a line, with any blanks around the operator of a move. -/
inductive Directive.Written : Directive → List Char → Prop
  | comment (text : String) : Written (.comment text) text.toList
  | delete (target : String) : Written (.delete target) ('<' :: quoted target.toList)
  | execute (commandLine : String) : Written (.execute commandLine) ('@' :: commandLine.toList)
  | move (source destination : String) (policy : OverwritePolicy) {before after : List Char}
      (hbefore : IsSpacing before) (hafter : IsSpacing after) :
      Written (.move source destination policy)
        (quoted source.toList ++ before ++ policy.operator :: (after ++ quoted destination.toList))

/-- A directive that can be written: its strings end no line, a comment has its marker, and operands
are not empty, those of a move without double quotes. -/
def Directive.Writable : Directive → Prop
  | .comment text => IsLine text.toList ∧ text.toList.head? = some '#'
  | .delete target => IsLine target.toList ∧ target.toList ≠ []
  | .execute commandLine => IsLine commandLine.toList
  | .move source destination _ => ∀ operand ∈ [source, destination],
      IsLine operand.toList ∧ operand.toList ≠ [] ∧ '"' ∉ operand.toList

instance (directive : Directive) : Decidable directive.Writable :=
  match directive with
  | .comment text => inferInstanceAs (Decidable (IsLine text.toList ∧ text.toList.head? = some '#'))
  | .delete target => inferInstanceAs (Decidable (IsLine target.toList ∧ target.toList ≠ []))
  | .execute commandLine => inferInstanceAs (Decidable (IsLine commandLine.toList))
  | .move source destination _ => inferInstanceAs (Decidable (∀ operand ∈ [source, destination],
      IsLine operand.toList ∧ operand.toList ≠ [] ∧ '"' ∉ operand.toList))

/-- The operands of a directive refer to no variable that is set. -/
def Directive.Plain (env : Environment) (directive : Directive) : Prop :=
  ∀ operand ∈ directive.operands, ∀ name ∈ Environment.references operand.toList,
    env.value? name = none

instance (env : Environment) (directive : Directive) : Decidable (directive.Plain env) :=
  inferInstanceAs (Decidable (∀ operand ∈ directive.operands,
    ∀ name ∈ Environment.references operand.toList, env.value? name = none))

/-! ## Written lines are lines -/

theorem isLine_append {first second : List Char} (hfirst : IsLine first) (hsecond : IsLine second) :
    IsLine (first ++ second) :=
  List.forall_mem_append.mpr ⟨hfirst, hsecond⟩

theorem isLine_cons (hc : isLineEnd c = false) (hrest : IsLine rest) : IsLine (c :: rest) :=
  List.forall_mem_cons.mpr ⟨hc, hrest⟩

theorem isLine_quoted (h : IsLine operand) : IsLine (quoted operand) :=
  isLine_cons rfl (isLine_append h (isLine_cons rfl nofun))

theorem IsSpacing.isLine (h : IsSpacing blanks) : IsLine blanks :=
  fun c hc ↦ (h c hc).2

theorem Directive.Written.isLine (h : directive.Written line) (hwritable : directive.Writable) :
    IsLine line := by
  cases h with
  | comment text => exact hwritable.1
  | delete target => exact isLine_cons rfl (isLine_quoted hwritable.1)
  | execute commandLine => exact isLine_cons rfl hwritable
  | move source destination policy hbefore hafter =>
    have hsource := (hwritable source (by simp)).1
    have hdestination := (hwritable destination (by simp)).1
    have hoperator : isLineEnd policy.operator = false := by cases policy <;> rfl
    exact isLine_append (isLine_append (isLine_quoted hsource) hbefore.isLine)
      (isLine_cons hoperator (isLine_append hafter.isLine (isLine_quoted hdestination)))

/-- A written line starts with a marker or a quote, and so with nothing that reading takes away. -/
theorem Directive.Written.head (h : directive.Written line) (hwritable : directive.Writable) :
    ∃ c rest, line = c :: rest ∧ isBlank c = false ∧ c ≠ '\uFEFF' := by
  cases h with
  | comment text =>
    obtain ⟨rest, hrest⟩ := List.head?_eq_some_iff.mp hwritable.2
    exact ⟨'#', rest, hrest, rfl, by decide⟩
  | delete target => exact ⟨'<', _, rfl, rfl, by decide⟩
  | execute commandLine => exact ⟨'@', _, rfl, rfl, by decide⟩
  | move source destination policy hbefore hafter => exact ⟨'"', _, rfl, rfl, by decide⟩

theorem Directive.Written.trimStart_eq (h : directive.Written line)
    (hwritable : directive.Writable) : trimStart line = line := by
  obtain ⟨c, rest, rfl, hblank, -⟩ := h.head hwritable
  unfold trimStart
  rw [List.dropWhile_cons, hblank]
  rfl

theorem Directive.Written.trimLine_eq (h : directive.Written line)
    (hwritable : directive.Writable) : Instruction.trimLine line = line := by
  have hstripped : Stripped isBlank isLineEnd line line := by
    refine ⟨⟨[], [], by simp, nofun, nofun⟩, fun _ ↦ ?_, fun hne ↦ ?_⟩
    · obtain ⟨c, rest, rfl, hblank, -⟩ := h.head hwritable
      exact hblank
    · exact h.isLine hwritable _ (List.getLast_mem hne)
  exact (hstripped.eq_dropWhile fun _ ↦ isBlank_of_isLineEnd).symm

/-! ## Operators of written lines -/

/-- Within quotes nothing is found up to the closing one. -/
theorem places_within (h : '"' ∉ operand) (rest : List Char) :
    places c position true (operand ++ '"' :: rest) =
      places c (position + operand.length + 1) false rest := by
  induction operand generalizing position with
  | nil => rfl
  | cons d operand ih =>
    have hd : d ≠ '"' := fun heq ↦ h (heq ▸ List.mem_cons_self)
    rw [List.cons_append, places, if_neg hd, if_neg (by simp),
      ih fun hmem ↦ h (List.mem_cons_of_mem _ hmem), List.length_cons]
    congr 1
    omega

theorem places_quoted (h : '"' ∉ operand) (rest : List Char) :
    places c position false (quoted operand ++ rest) =
      places c (position + (quoted operand).length) false rest := by
  have hlength : position + (quoted operand).length = position + 1 + operand.length + 1 := by
    unfold quoted
    rw [List.length_cons, List.length_append, List.length_singleton]
    omega
  rw [hlength, ← places_within h]
  unfold quoted
  rw [List.cons_append, List.append_assoc, places, if_pos rfl]
  rfl

theorem places_spacing (hc : isBlank c = false) (h : IsSpacing blanks) (rest : List Char) :
    places c position false (blanks ++ rest) =
      places c (position + blanks.length) false rest := by
  induction blanks generalizing position with
  | nil => rfl
  | cons d blanks ih =>
    have hd := (h d List.mem_cons_self).1
    have hquote : d ≠ '"' := by
      rintro rfl
      exact absurd hd (by decide)
    have hother : d ≠ c := by
      rintro rfl
      exact absurd hd (by simp [hc])
    rw [List.cons_append, places, if_neg hquote, if_neg (by simp [hother]),
      ih fun d hd ↦ h d (List.mem_cons_of_mem _ hd), List.length_cons]
    congr 1
    omega

/-- In a written move nothing but the operator stands outside quotes. -/
theorem places_move {source destination before after : List Char} {operator : Char}
    (hsource : '"' ∉ source) (hbefore : IsSpacing before) (hafter : IsSpacing after)
    (hdestination : '"' ∉ destination) (hoperator : operator ≠ '"') (hc : isBlank c = false) :
    places c 0 false (quoted source ++ before ++ operator :: (after ++ quoted destination)) =
      if operator = c then [(quoted source ++ before).length] else [] := by
  -- Each operand opens and closes its own quotes, so the scan is outside quotes after it.
  have hend (position : ℕ) : places c position false (after ++ quoted destination) = [] := by
    rw [places_spacing hc hafter, ← List.append_nil (quoted destination),
      places_quoted hdestination, places]
  calc
    _ = places c (0 + (quoted source).length + before.length) false
        (operator :: (after ++ quoted destination)) := by
      rw [List.append_assoc, places_quoted hsource, places_spacing hc hbefore]
    _ = places c (quoted source ++ before).length false
        (operator :: (after ++ quoted destination)) := by
      rw [Nat.zero_add, List.length_append]
    _ = _ := by
      rw [places, if_neg hoperator, hend]
      simp

theorem operatorAt_move {source destination before after : List Char} (policy : OverwritePolicy)
    (hsource : '"' ∉ source) (hbefore : IsSpacing before) (hafter : IsSpacing after)
    (hdestination : '"' ∉ destination) :
    OperatorAt (quoted source ++ before ++ policy.operator :: (after ++ quoted destination))
      (quoted source ++ before).length policy := by
  have hquote : policy.operator ≠ '"' := by cases policy <;> decide
  have hplaces {c : Char} (hc : isBlank c = false) :=
    places_move (c := c) hsource hbefore hafter hdestination hquote hc
  cases policy with
  | replace =>
    apply OperatorAt.replace
    rw [← places_eq_singleton_iff (by decide), hplaces rfl]
    rfl
  | merge =>
    apply OperatorAt.merge
    · intro j
      rw [← places_eq_singleton_iff (by decide), hplaces rfl]
      exact (List.cons_ne_nil _ _).symm
    · rw [← places_eq_singleton_iff (by decide), hplaces rfl]
      rfl

/-! ## Operands of written lines -/

/-- A quoted operand between blanks that refers to no variable that is set is read as it is. -/
theorem isOperand_quoted (before after : List Char)
    (hunset : ∀ name ∈ Environment.references operand, env.value? name = none)
    (hbefore : ∀ c ∈ before, isBlank c) (hafter : ∀ c ∈ after, isBlank c) :
    IsOperand env (before ++ quoted operand ++ after) operand := by
  refine ⟨quoted operand, operand, ⟨⟨before, after, rfl, hbefore, hafter⟩, fun _ ↦ rfl, fun h ↦ ?_⟩,
    .quoted operand, (Environment.expandChars_of_unset hunset).symm⟩
  have hlast : (quoted operand).getLast h = '"' := by
    unfold quoted
    rw [List.getLast_cons (by simp), List.getLast_concat]
  rw [hlast]
  rfl

/-- A written line says what was written. -/
theorem Directive.Written.denotes (h : directive.Written line) (hwritable : directive.Writable)
    (hplain : directive.Plain env) : Instruction.Denotes env line directive := by
  cases h with
  | comment text =>
    obtain ⟨rest, hrest⟩ := List.head?_eq_some_iff.mp hwritable.2
    have hcomment : Instruction.Denotes env ('#' :: rest)
        (.comment (String.ofList ('#' :: rest))) := .comment rest
    rwa [← hrest, String.ofList_toList] at hcomment
  | delete target =>
    have htarget := isOperand_quoted [] [] (hplain target (by simp [operands])) nofun nofun
    rw [List.nil_append, List.append_nil] at htarget
    have hdelete := Instruction.Denotes.delete htarget hwritable.2
    rwa [String.ofList_toList] at hdelete
  | execute commandLine =>
    have hexecute : Instruction.Denotes env ('@' :: commandLine.toList)
        (.execute (String.ofList commandLine.toList)) := .execute commandLine.toList
    rwa [String.ofList_toList] at hexecute
  | @move source destination policy before after hbefore hafter =>
    obtain ⟨-, hsource_ne, hsource⟩ := hwritable source (by simp)
    obtain ⟨-, hdestination_ne, hdestination⟩ := hwritable destination (by simp)
    have hoperator := operatorAt_move policy hsource hbefore hafter hdestination
    have hleft : IsOperand env (quoted source.toList ++ before) source.toList :=
      isOperand_quoted [] before (hplain source (by simp [operands])) nofun
        fun c hc ↦ (hbefore c hc).1
    have hright : IsOperand env (after ++ quoted destination.toList) destination.toList := by
      rw [← List.append_nil (after ++ _)]
      exact isOperand_quoted after [] (hplain destination (by simp [operands]))
        (fun c hc ↦ (hafter c hc).1) nofun
    have hmove : Instruction.Denotes env
        (quoted source.toList ++ before ++ policy.operator :: (after ++ quoted destination.toList))
        (.move (String.ofList source.toList) (String.ofList destination.toList) policy) := by
      refine .move (fun marker hmarker ↦ ?_) hoperator ?_ hsource_ne ?_ hdestination_ne
      · cases hmarker
        decide
      · rw [List.take_left]
        exact hleft
      · rw [List.drop_append, List.drop_eq_nil_of_le (Nat.le_succ _), Nat.add_sub_cancel_left]
        exact hright
    rwa [String.ofList_toList, String.ofList_toList] at hmove

theorem Directive.Written.parse (h : directive.Written line) (hwritable : directive.Writable)
    (hplain : directive.Plain env) (lineNumber : ℤ) :
    Instruction.parse env lineNumber (String.ofList line) = .ok ⟨directive, lineNumber⟩ := by
  unfold Instruction.parse
  rw [String.toList_ofList, h.trimLine_eq hwritable]
  exact Instruction.numbered_eq_ok_iff.mpr
    ⟨rfl, Instruction.parseTrimmed?_eq_some_iff.mpr (h.denotes hwritable hplain)⟩

end DeferredOps
