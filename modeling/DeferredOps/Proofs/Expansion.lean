import DeferredOps.Proofs.References

/-!
# What a text expands to

A text that is put together from plain words and from references whose ends are marked expands part
by part: neither what stands side by side nor the values that are put in run together, as long as no
value holds a dollar sign.

The values of the references between percent signs are put in first and read again with the text
around them. The variables that matter are therefore those that the text names between percent
signs, and those that it names after a dollar sign once these values are put in.
-/

namespace DeferredOps.Environment

variable {env env' : Environment} {piece : Piece} {mark : Char}
  {reference? : List Char → Option Piece} {text name words : List Char}

/-! ## Texts side by side -/

theorem substitute_piecesAfter_nil : env.substitute (piecesAfter mark reference? []) = [] := by
  rw [piecesAfter]
  rfl

/-- Words without a mark are passed over. -/
theorem substitute_words_append (hwords : mark ∉ words) (rest : List Char) :
    env.substitute (piecesAfter mark reference? (words ++ rest)) =
      words ++ env.substitute (piecesAfter mark reference? rest) := by
  induction words with
  | nil => rfl
  | cons c words ih =>
    have hc : c ≠ mark := fun h ↦ hwords (h ▸ List.mem_cons_self)
    rw [List.cons_append, piecesAfter, if_neg hc]
    dsimp only
    rw [substitute, List.flatMap_cons, ← substitute, ih (List.not_mem_of_not_mem_cons hwords)]
    rfl

/-- A reference that is read whatever follows it is expanded by itself. -/
theorem substitute_reference_append {tail rest : List Char}
    (hread : reference? (tail ++ rest) = some piece) (hwritten : piece.written = mark :: tail) :
    env.substitute (piecesAfter mark reference? (piece.written ++ rest)) =
      piece.expanded env ++ env.substitute (piecesAfter mark reference? rest) := by
  rw [hwritten, List.cons_append, piecesAfter, if_pos rfl, hread]
  dsimp only
  rw [hwritten, List.length_cons, Nat.add_sub_cancel, List.drop_left, substitute, List.flatMap_cons]
  rfl

/-- A name is read up to the character that closes it. -/
theorem takeWhile_name {test : Char → Bool} {closing : Char} (hname : ∀ c ∈ name, test c)
    (hclosing : test closing = false) (rest : List Char) :
    (name ++ closing :: rest).takeWhile test = name := by
  rw [List.takeWhile_append_of_pos hname, List.takeWhile_cons_of_neg (by simp [hclosing]),
    List.append_nil]

theorem percentReference?_name (hne : name ≠ []) (hname : ∀ c ∈ name, isPercentNameChar c)
    (rest : List Char) :
    percentReference? (name ++ '%' :: rest) = some (.reference ['%'] name ['%']) := by
  have htake : (name ++ '%' :: rest).takeWhile isPercentNameChar = name :=
    takeWhile_name hname (by decide) rest
  unfold percentReference?
  dsimp only
  rw [htake, List.drop_left]
  simp [hne]

theorem dollarReference?_braces (hne : name ≠ []) (hname : '\x7d' ∉ name) (rest : List Char) :
    dollarReference? ('\x7b' :: (name ++ '\x7d' :: rest)) =
      some (.reference ['$', '\x7b'] name ['\x7d']) := by
  have hopen (c : Char) (hc : c ∈ name) : decide (c ≠ '\x7d') = true :=
    decide_eq_true (ne_of_mem_of_not_mem hc hname)
  have htake : (name ++ '\x7d' :: rest).takeWhile (fun c ↦ c ≠ '\x7d') = name :=
    takeWhile_name hopen (by decide) rest
  unfold dollarReference?
  dsimp only
  rw [if_pos rfl, htake, List.drop_left]
  simp [hne]

/-! ## Texts that are put together -/

/-- A part of a text: words that hold no mark, or a reference whose end is marked. -/
inductive Part
  | words (text : List Char) (hpercent : '%' ∉ text) (hdollar : '$' ∉ text)
  | percent (name : List Char) (hne : name ≠ []) (hpercent : '%' ∉ name) (hdollar : '$' ∉ name)
    (hblank : ∀ c ∈ name, Text.isBlank c = false)
  | braces (name : List Char) (hne : name ≠ []) (hclosing : '\x7d' ∉ name) (hpercent : '%' ∉ name)
    (hdollar : '$' ∉ name)

namespace Part

/-- A part as it is written. -/
def written : Part → List Char
  | .words text .. => text
  | .percent name .. => '%' :: (name ++ ['%'])
  | .braces name .. => '$' :: '\x7b' :: (name ++ ['\x7d'])

/-- A part with the value of the variable that it refers to, if that is set. -/
def expanded (env : Environment) : Part → List Char
  | .words text .. => text
  | .percent name .. => ((env.value? (.ofList name)).map String.toList).getD ('%' :: (name ++ ['%']))
  | .braces name .. =>
    ((env.value? (.ofList name)).map String.toList).getD ('$' :: '\x7b' :: (name ++ ['\x7d']))

/-- A part once the references between percent signs are expanded. -/
def halfway (env : Environment) : Part → List Char
  | .braces name hne hclosing hpercent hdollar =>
    (braces name hne hclosing hpercent hdollar).written
  | part => part.expanded env

end Part

theorem Piece.expanded_reference (opening closing : List Char) :
    (Piece.reference opening name closing).expanded env =
      ((env.value? (.ofList name)).map String.toList).getD (opening ++ name ++ closing) := by
  rw [Piece.expanded]
  cases env.value? (.ofList name) <;> rfl

/-- The first way of referring to variables is expanded part by part. -/
theorem substitute_percentPieces_parts (parts : List Part) :
    env.substitute (percentPieces (parts.flatMap Part.written)) =
      parts.flatMap (Part.halfway env) := by
  induction parts with
  | nil => exact substitute_piecesAfter_nil
  | cons part parts ih =>
    rw [List.flatMap_cons, List.flatMap_cons, ← ih]
    cases part with
    | words text hpercent hdollar => exact substitute_words_append hpercent _
    | percent name hne hpercent hdollar hblank =>
      have hname (c : Char) (hc : c ∈ name) : isPercentNameChar c = true := by
        rw [isPercentNameChar, hblank c hc, decide_eq_true (ne_of_mem_of_not_mem hc hpercent)]
        rfl
      have hread (rest : List Char) : percentReference? (name ++ ['%'] ++ rest) =
          some (.reference ['%'] name ['%']) := by
        rw [List.append_assoc]
        exact percentReference?_name hne hname rest
      refine (substitute_reference_append (hread _) rfl).trans ?_
      rw [Piece.expanded_reference]
      rfl
    | braces name hne hclosing hpercent hdollar =>
      apply substitute_words_append
      simpa [Part.written] using hpercent

theorem not_mem_expanded (hvalues : ∀ entry ∈ env.values, '$' ∉ entry.2.toList)
    {written : List Char} (hwritten : '$' ∉ written) :
    '$' ∉ ((env.value? (.ofList name)).map String.toList).getD written := by
  cases hvalue : env.value? (.ofList name) with
  | none => exact hwritten
  | some value =>
    obtain ⟨before, after, hentries, -⟩ := List.lookup_eq_some_iff.mp hvalue
    apply hvalues (.ofList name, value)
    rw [hentries]
    exact List.mem_append_right _ List.mem_cons_self

/-- The second way is expanded part by part too, as the values put in hold no mark of it. -/
theorem substitute_dollarPieces_parts (hvalues : ∀ entry ∈ env.values, '$' ∉ entry.2.toList)
    (parts : List Part) :
    env.substitute (dollarPieces (parts.flatMap (Part.halfway env))) =
      parts.flatMap (Part.expanded env) := by
  induction parts with
  | nil => exact substitute_piecesAfter_nil
  | cons part parts ih =>
    rw [List.flatMap_cons, List.flatMap_cons, ← ih]
    cases part with
    | words text hpercent hdollar => exact substitute_words_append hdollar _
    | percent name hne hpercent hdollar hblank =>
      apply substitute_words_append
      exact not_mem_expanded hvalues (by simpa using hdollar)
    | braces name hne hclosing hpercent hdollar =>
      have hread (rest : List Char) : dollarReference? ('\x7b' :: (name ++ ['\x7d']) ++ rest) =
          some (.reference ['$', '\x7b'] name ['\x7d']) := by
        rw [List.cons_append, List.append_assoc]
        exact dollarReference?_braces hne hclosing rest
      refine (substitute_reference_append (hread _) rfl).trans ?_
      rw [Piece.expanded_reference]
      rfl

/-- Where no value holds a dollar sign, a text that is put together expands part by part. -/
theorem expand_parts (env : Environment)
    (hvalues : ∀ entry ∈ env.values, '$' ∉ entry.2.toList) (parts : List Part) :
    env.expand (.ofList (parts.flatMap Part.written)) =
      .ofList (parts.flatMap (Part.expanded env)) := by
  rw [expand, expandChars, String.toList_ofList, substitute_percentPieces_parts,
    substitute_dollarPieces_parts hvalues]

/-- Values with percent signs and braces next to each other, and references to unknown variables. -/
theorem expand_parts_side_by_side :
    (∀ entry ∈ [("A", "5%"), ("B", "{A}%"), ("C d", "%A")], '$' ∉ entry.2.toList) ∧
      Environment.expand ⟨[("A", "5%"), ("B", "{A}%"), ("C d", "%A")]⟩
        "%A%%B%{A}${C d}%C%${A B}" = "5%{A}%{A}%A%C%${A B}" :=
  ⟨by decide, expand_parts ⟨[("A", "5%"), ("B", "{A}%"), ("C d", "%A")]⟩ (by decide)
    [.percent ['A'] (by decide) (by decide) (by decide) (List.forall_mem_singleton.mpr rfl),
      .percent ['B'] (by decide) (by decide) (by decide) (List.forall_mem_singleton.mpr rfl),
      .words "{A}".toList (by decide) (by decide),
      .braces "C d".toList (by decide) (by decide) (by decide) (by decide),
      .percent ['C'] (by decide) (by decide) (by decide) (List.forall_mem_singleton.mpr rfl),
      .braces "A B".toList (by decide) (by decide) (by decide) (by decide)]⟩

/-! ## The variables that matter -/

/-- A name stands in a text in the form of a reference that starts with a mark. -/
def Mentions (mark : Char) (text : List Char) (name : String) : Prop :=
  ∃ piece, IsReference piece ∧ piece.name? = some name ∧ piece.written.head? = some mark ∧
    piece.written <:+: text

theorem Reads.mentions (h : Reads mark reference?) {name : String}
    (hname : name ∈ (piecesAfter mark reference? text).filterMap Piece.name?) :
    Mentions mark text name := by
  obtain ⟨piece, hpiece, hname⟩ := List.mem_filterMap.mp hname
  exact ⟨piece, h.isReference text hpiece hname, hname, h.head?_written text hpiece hname,
    h.written_infix text hpiece⟩

/-- The characters of a name that a text mentions stand in the text. -/
theorem Mentions.subset {name : String} (h : Mentions mark text name) : name.toList ⊆ text := by
  obtain ⟨piece, -, hname, -, hinfix⟩ := h
  intro c hc
  apply hinfix.subset
  cases piece with
  | char c => cases hname
  | reference opening name closing =>
    cases hname
    rw [String.toList_ofList] at hc
    exact List.mem_append_left _ (List.mem_append_right _ hc)

/-- A variable that a text does not mention may have any value. -/
theorem Mentions.value?_cons {name other : String} {c : Char} (h : Mentions mark text name)
    (hc : c ∉ text) (hother : c ∈ other.toList) (value value' : String)
    (values : List (String × String)) :
    value? ⟨(other, value) :: values⟩ name = value? ⟨(other, value') :: values⟩ name := by
  have hne : name ≠ other := by
    rintro rfl
    exact hc (h.subset hother)
  rw [value?, value?, List.lookup_cons, List.lookup_cons, beq_false_of_ne hne]

/-- The expansion depends on the variables whose names are found between percent signs, and on those
found after a dollar sign once the values of the first are put in. -/
theorem expandChars_congr
    (hpercent : ∀ name ∈ (percentPieces text).filterMap Piece.name?,
      env.value? name = env'.value? name)
    (hdollar : ∀ name ∈ (dollarPieces (env.substitute (percentPieces text))).filterMap Piece.name?,
      env.value? name = env'.value? name) :
    env.expandChars text = env'.expandChars text := by
  calc
    env.expandChars text
      = env'.substitute (dollarPieces (env.substitute (percentPieces text))) :=
        substitute_congr hdollar
    _ = env'.substitute (dollarPieces (env'.substitute (percentPieces text))) := by
        rw [substitute_congr hpercent]

/-- A text expands in the same way in two environments that agree on the names that it mentions
between percent signs, and on those that it mentions after a dollar sign once the values of the first
are put in. -/
theorem expand_eq_of_agree {text : String}
    (hpercent : ∀ name, Mentions '%' text.toList name → env.value? name = env'.value? name)
    (hdollar : ∀ name, Mentions '$' (env.substitute (percentPieces text.toList)) name →
      env.value? name = env'.value? name) :
    env.expand text = env'.expand text := by
  have hchars : env.expandChars text.toList = env'.expandChars text.toList := by
    apply expandChars_congr
    · intro name hname
      exact hpercent name (reads_percent.mentions hname)
    · intro name hname
      exact hdollar name (reads_dollar.mentions hname)
  rw [expand, expand, hchars]

/-- The value of a variable refers to another one, and a third one does not matter. -/
theorem expand_eq_of_agree_nested :
    ((∀ name, Mentions '%' "%A%".toList name →
        value? ⟨[("C", "x"), ("A", "$B"), ("B", "y")]⟩ name =
          value? ⟨[("C", "z"), ("A", "$B"), ("B", "y")]⟩ name) ∧
      ∀ name, Mentions '$' (substitute ⟨[("C", "x"), ("A", "$B"), ("B", "y")]⟩
          (percentPieces "%A%".toList)) name →
        value? ⟨[("C", "x"), ("A", "$B"), ("B", "y")]⟩ name =
          value? ⟨[("C", "z"), ("A", "$B"), ("B", "y")]⟩ name) ∧
      Environment.expand ⟨[("C", "x"), ("A", "$B"), ("B", "y")]⟩ "%A%" =
        Environment.expand ⟨[("C", "z"), ("A", "$B"), ("B", "y")]⟩ "%A%" := by
  have hpercent (name : String) (h : Mentions '%' "%A%".toList name) :=
    h.value?_cons (by decide) (show 'C' ∈ "C".toList by decide) "x" "z" [("A", "$B"), ("B", "y")]
  have hdollar (name : String) (h : Mentions '$' (substitute
      ⟨[("C", "x"), ("A", "$B"), ("B", "y")]⟩ (percentPieces "%A%".toList)) name) :=
    h.value?_cons (by decide +kernel) (show 'C' ∈ "C".toList by decide) "x" "z"
      [("A", "$B"), ("B", "y")]
  exact ⟨⟨hpercent, hdollar⟩, expand_eq_of_agree hpercent hdollar⟩

/-- What the text itself mentions is not enough: a value that is put in for a name between percent
signs is read again. -/
theorem not_expand_eq_of_agree : ¬ ∀ (text : String) (env env' : Environment),
    (∀ name, Mentions '%' text.toList name ∨ Mentions '$' text.toList name →
      env.value? name = env'.value? name) →
    env.expand text = env'.expand text := by
  intro hagree
  have hsame := hagree "%A%" ⟨[("B", "x"), ("A", "$B")]⟩ ⟨[("B", "y"), ("A", "$B")]⟩ (by
    rintro name (h | h) <;>
      exact h.value?_cons (c := 'B') (by decide) (by decide) "x" "y" [("A", "$B")])
  revert hsame
  decide +kernel

end DeferredOps.Environment
