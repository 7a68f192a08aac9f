import DeferredOps.NamePattern

/-!
# What patterns match

Whether items match a name is read off at the front of the name: a character has to be there and
leaves the rest of the name to the items after it, and a star leaves any end of it to them.
-/

namespace DeferredOps.NamePattern

variable {answers : List Bool} {name rest : List Char} {items : List Item} {c : Char}

theorem anyFrom_cons (answer : Bool) (h : answers ≠ []) :
    anyFrom (answer :: answers) =
      (answer || (anyFrom answers).headD false) :: anyFrom answers := by
  cases hanswers : anyFrom answers with
  | nil =>
    cases answers with
    | nil => exact absurd rfl h
    | cons first others =>
      rw [anyFrom] at hanswers
      split at hanswers <;> cases hanswers
  | cons later more => simp [anyFrom, hanswers]

/-- There is an answer for the end of the name at least. -/
theorem matchTable_ne_nil (name : List Char) (items : List Item) : matchTable name items ≠ [] := by
  induction items with
  | nil => simp [matchTable]
  | cons item items ih =>
    cases item with
    | star =>
      obtain ⟨answer, answers, htable⟩ := List.exists_cons_of_ne_nil ih
      rw [matchTable, htable, anyFrom]
      split <;> simp
    | any | char | set => simp [matchTable]

/-- The answers for the places of a name after its first one are those for its rest. -/
theorem tail_matchTable (c : Char) (rest : List Char) (items : List Item) :
    (matchTable (c :: rest) items).tail = matchTable rest items := by
  have hcut (answers : List Bool) (hne : answers ≠ []) (f : Char → Bool → Bool) :
      (List.zipWith f (c :: rest) answers ++ [false]).tail =
        List.zipWith f rest answers.tail ++ [false] := by
    obtain ⟨answer, answers, rfl⟩ := List.exists_cons_of_ne_nil hne
    rfl
  induction items with
  | nil => rfl
  | cons item items ih =>
    cases item with
    | star =>
      have hrest := matchTable_ne_nil rest items
      have hcons := List.cons_head_tail (matchTable_ne_nil (c :: rest) items)
      rw [matchTable, matchTable, ← hcons, ih, anyFrom_cons _ hrest]
      rfl
    | any | char | set =>
      simp only [matchTable, ih]
      exact hcut _ (matchTable_ne_nil rest items) _

theorem matchesItems_char : matchesItems (.char c :: items) (c :: rest) = matchesItems items rest := by
  obtain ⟨answer, answers, htable⟩ := List.exists_cons_of_ne_nil (matchTable_ne_nil rest items)
  simp [matchesItems, matchTable, tail_matchTable, htable, Item.matchesChar]

/-- A character at the front of the items is that at the front of the name. -/
theorem eq_of_matchesItems_char {d : Char} (h : matchesItems (.char d :: items) (c :: rest)) :
    c = d := by
  obtain ⟨answer, answers, htable⟩ := List.exists_cons_of_ne_nil (matchTable_ne_nil rest items)
  simp only [matchesItems, matchTable, tail_matchTable, htable, Item.matchesChar] at h
  by_cases heq : c = d
  · exact heq
  · simp [heq] at h

theorem matchesItems_nil : matchesItems [] [] = true := rfl

/-- Characters match their own text, and leave what follows it to the items after them. -/
theorem matchesItems_chars (text : List Char) :
    matchesItems (text.map .char ++ items) (text ++ rest) = matchesItems items rest := by
  induction text with
  | nil => rfl
  | cons c text ih => exact matchesItems_char.trans ih

theorem matchesItems_star (h : matchesItems items name) : matchesItems (.star :: items) name := by
  obtain ⟨answer, answers, htable⟩ := List.exists_cons_of_ne_nil (matchTable_ne_nil name items)
  rw [matchesItems, htable] at h
  rw [matchesItems, matchTable, htable]
  cases answers with
  | nil => exact h
  | cons next others =>
    rw [anyFrom_cons _ (by simp)]
    simp_all

theorem matchesItems_star_cons (h : matchesItems (.star :: items) rest) :
    matchesItems (.star :: items) (c :: rest) := by
  have hcons := List.cons_head_tail (matchTable_ne_nil (c :: rest) items)
  rw [matchesItems, matchTable] at h
  rw [matchesItems, matchTable, ← hcons, tail_matchTable, anyFrom_cons _ (matchTable_ne_nil rest items)]
  simp_all

/-- A star matches any text. -/
theorem matchesItems_star_append (text : List Char) (h : matchesItems items rest) :
    matchesItems (.star :: items) (text ++ rest) := by
  induction text with
  | nil => exact matchesItems_star h
  | cons c text ih => exact matchesItems_star_cons ih

end DeferredOps.NamePattern
