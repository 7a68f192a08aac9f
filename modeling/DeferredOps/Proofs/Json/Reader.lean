import DeferredOps.Json.Parser
import Mathlib.Data.List.Nodup

/-!
# What is read from JSON

A string that is read is a text unless there is half of a surrogate pair in it. The fields of an object
that is read have different names: a field that is given again has the last value. Nothing that is read is nested deeper than may be.
-/

namespace DeferredOps.Json

variable {fields : List (String × Json)} {name : String} {value : Json}

/-! ## Strings -/

/-- A value that is a string but no text only because of half of a surrogate pair. -/
def Justified (value : Json) : Prop :=
  ∀ parts, value = .broken parts → ∃ unit, .half unit ∈ parts

theorem justified_ofParts (parts : List StringPart) : (ofParts parts).Justified := by
  intro broken h
  unfold ofParts at h
  split at h
  · cases h
  next hnone =>
  cases h
  by_contra hwhole
  -- Parts that are all characters have a text.
  have hchars : ∀ parts : List StringPart, (∀ unit, .half unit ∉ parts) →
      (parts.mapM StringPart.char?).isSome := by
    intro parts
    induction parts with
    | nil => simp
    | cons part rest ih =>
      intro h
      obtain ⟨chars, hrest⟩ := Option.isSome_iff_exists.mp
        (ih fun unit hunit ↦ h unit (List.mem_cons_of_mem _ hunit))
      cases part with
      | char c => simp [StringPart.char?, hrest]
      | half unit => exact absurd List.mem_cons_self (h unit)
  have hsome := hchars parts fun unit hunit ↦ hwhole ⟨unit, hunit⟩
  rw [hnone] at hsome
  cases hsome

/-! ## Fields -/

theorem field_cons (first : String) (old : Json) (rest : List (String × Json)) (name : String) :
    field? ((first, old) :: rest) name = if name = first then some old else field? rest name := by
  by_cases h : name = first
  · simp [field?, h]
  · rw [if_neg h, field?, List.lookup_cons, beq_eq_false_iff_ne.mpr h, field?]

theorem field_eq_none (h : name ∉ fields.map (·.1)) : field? fields name = none := by
  rw [field?, List.lookup_eq_none_iff]
  intro field hfield
  exact bne_iff_ne.mpr fun heq ↦ h (heq ▸ List.mem_map_of_mem hfield)

theorem mem_of_field (h : field? fields name = some value) : (name, value) ∈ fields := by
  induction fields with
  | nil => cases h
  | cons field rest ih =>
    rw [field_cons] at h
    split at h
    · next heq =>
      cases h
      exact heq ▸ List.mem_cons_self
    · exact List.mem_cons_of_mem _ (ih h)

theorem field_setField (fields : List (String × Json)) (name : String) (value : Json) (other : String) :
    field? (setField fields name value) other = if other = name then some value else field? fields other := by
  induction fields with
  | nil => exact field_cons name value [] other
  | cons field rest ih =>
    obtain ⟨first, old⟩ := field
    unfold setField
    by_cases hfirst : first = name
    · rw [if_pos hfirst, field_cons, field_cons, hfirst]
      split <;> rfl
    · rw [if_neg hfirst, field_cons, ih, field_cons]
      by_cases hother : other = first
      · simp [hother, hfirst]
      · simp [hother]

/-- A new field comes last. -/
theorem setField_of_notMem (h : name ∉ fields.map (·.1)) (value : Json) :
    setField fields name value = fields ++ [(name, value)] := by
  induction fields with
  | nil => rfl
  | cons field rest ih =>
    obtain ⟨hfirst, hrest⟩ := not_or.mp (mt List.mem_cons.mpr h)
    rw [setField, if_neg (Ne.symm hfirst), ih hrest, List.cons_append]

theorem names_setField_of_mem (h : name ∈ fields.map (·.1)) (value : Json) :
    (setField fields name value).map (·.1) = fields.map (·.1) := by
  induction fields with
  | nil => cases h
  | cons field rest ih =>
    unfold setField
    split
    · next hfirst => simp [hfirst]
    · next hfirst =>
      rw [List.map_cons, List.map_cons, ih]
      exact (List.mem_cons.mp h).resolve_left (Ne.symm hfirst)

/-- Fields as they are read: under different names, and with texts as texts. -/
structure Orderly (fields : List (String × Json)) : Prop where
  nodup : (fields.map (·.1)).Nodup
  justified : ∀ field ∈ fields, field.2.Justified

theorem mem_setField {field : String × Json} (h : field ∈ setField fields name value) :
    field = (name, value) ∨ field ∈ fields := by
  induction fields with
  | nil => exact .inl (List.mem_singleton.mp h)
  | cons first rest ih =>
    unfold setField at h
    split at h
    · exact (List.mem_cons.mp h).imp_right (List.mem_cons_of_mem _)
    · rcases List.mem_cons.mp h with rfl | h
      · exact .inr List.mem_cons_self
      · exact (ih h).imp_right (List.mem_cons_of_mem _)

theorem Orderly.setField (h : Orderly fields) (hvalue : value.Justified) (name : String) :
    Orderly (setField fields name value) where
  nodup := by
    by_cases hmem : name ∈ fields.map (·.1)
    · rw [names_setField_of_mem hmem]
      exact h.nodup
    · rw [setField_of_notMem hmem, List.map_append]
      exact h.nodup.append (List.nodup_singleton _) (by simpa using hmem)
  justified field hfield := by
    rcases mem_setField hfield with rfl | hfield
    · exact hvalue
    · exact h.justified field hfield

/-! ## Values -/

/-- A value that is read is a string, an array, an object, a word or a number. -/
theorem readValue_cases {budget nests : ℕ} {text rest : List Char}
    (h : readValue budget nests text = .ok (value, rest)) :
    (∃ parts, value = ofParts parts) ∨
      (∃ steps more items, budget = steps + 1 ∧ nests = more + 1 ∧ value = .arr items ∧
        (items = [] ∨ ∃ inside, readItems steps more inside = .ok (items, rest))) ∨
      (∃ steps more fields, budget = steps + 1 ∧ nests = more + 1 ∧ value = .obj fields ∧
        (fields = [] ∨ ∃ inside, readFields steps more [] inside = .ok (fields, rest))) ∨
      readWord? text = some (value, rest) ∨ readNumber text = .ok (value, rest) := by
  cases budget with
  | zero => cases h
  | succ budget =>
  unfold readValue at h
  split at h
  · cases h
  split at h
  · rcases hquoted : readQuoted _ _ with f | ⟨parts, after⟩ <;> rw [hquoted] at h <;> cases h
    exact .inl ⟨parts, rfl⟩
  split at h
  · split at h
    · cases h
    · cases h
      exact .inr (.inr (.inl ⟨_, _, [], rfl, rfl, rfl, .inl rfl⟩))
    · rcases hfields : readFields _ _ _ _ with f | ⟨fields, after⟩ <;> rw [hfields] at h <;> cases h
      exact .inr (.inr (.inl ⟨_, _, fields, rfl, rfl, rfl, .inr ⟨_, hfields⟩⟩))
  split at h
  · split at h
    · cases h
    · cases h
      exact .inr (.inl ⟨_, _, [], rfl, rfl, rfl, .inl rfl⟩)
    · rcases hitems : readItems _ _ _ with f | ⟨items, after⟩ <;> rw [hitems] at h <;> cases h
      exact .inr (.inl ⟨_, _, items, rfl, rfl, rfl, .inr ⟨_, hitems⟩⟩)
  split at h
  · next hword =>
    cases h
    exact .inr (.inr (.inr (.inl hword)))
  · exact .inr (.inr (.inr (.inr h)))

/-- Items that are read are a value, and those after it. -/
theorem readItems_cases {budget nests : ℕ} {text rest : List Char} {items : List Json}
    (h : readItems budget nests text = .ok (items, rest)) :
    ∃ steps item after, budget = steps + 1 ∧ readValue steps nests text = .ok (item, after) ∧
      (items = [item] ∨
        ∃ inside more, readItems steps nests inside = .ok (more, rest) ∧ items = item :: more) := by
  cases budget with
  | zero => cases h
  | succ budget =>
  unfold readItems at h
  rcases hitem : readValue budget nests text with f | ⟨item, after⟩ <;> rw [hitem] at h
  · cases h
  refine ⟨budget, item, after, rfl, hitem, ?_⟩
  dsimp only [bind, Except.bind] at h
  split at h
  · cases h
    exact .inl rfl
  · rcases hitems : readItems budget nests _ with f | ⟨more, after⟩ <;> rw [hitems] at h <;> cases h
    exact .inr ⟨_, more, hitems, rfl⟩
  · cases h

/-- Fields that are read are those before, with a value under a name, and those after it. -/
theorem readFields_cases {budget nests : ℕ} {done : List (String × Json)} {text rest : List Char}
    (h : readFields budget nests done text = .ok (fields, rest)) :
    ∃ steps name value inside after, budget = steps + 1 ∧
      readValue steps nests inside = .ok (value, after) ∧
      (fields = setField done name value ∨
        ∃ inside, readFields steps nests (setField done name value) inside = .ok (fields, rest)) := by
  cases budget with
  | zero => cases h
  | succ budget =>
  unfold readFields at h
  split at h
  · rcases hquoted : readQuoted _ _ with f | ⟨name, after⟩ <;> rw [hquoted] at h
    · cases h
    dsimp only [bind, Except.bind] at h
    split at h
    · rcases hvalue : readValue _ _ _ with f | ⟨value, after⟩ <;> rw [hvalue] at h
      · cases h
      refine ⟨budget, StringPart.textOf name, value, _, after, rfl, hvalue, ?_⟩
      dsimp only at h
      split at h
      · cases h
        exact .inl rfl
      · exact .inr ⟨_, h⟩
      · cases h
    · cases h
  · cases h

/-- No string, no array and no object. -/
def IsSimple : Json → Prop
  | .str _ | .broken _ | .arr _ | .obj _ => False
  | _ => True

/-- The word or the number that is read is simple. -/
theorem simple_readNumber {text rest : List Char} (h : readNumber text = .ok (value, rest)) : value.IsSimple := by
  unfold readNumber at h
  dsimp only at h
  split at h
  · cases h
  split at h
  · split at h <;> cases h
    trivial
  · cases h
    trivial

theorem simple_readWord {text rest : List Char} (h : readWord? text = some (value, rest)) : value.IsSimple := by
  obtain ⟨⟨word, found⟩, hword, hfound⟩ := List.exists_of_findSome?_eq_some h
  have hplain : ∀ entry ∈ words, entry.2.IsSimple := by
    simp [words, IsSimple]
  dsimp only at hfound
  split at hfound
  · cases hfound
    exact hplain _ hword
  · cases hfound

theorem IsSimple.justified (h : value.IsSimple) : value.Justified := by
  rintro parts rfl
  exact h.elim

theorem justified_readValue {budget nests : ℕ} {text rest : List Char}
    (h : readValue budget nests text = .ok (value, rest)) : value.Justified := by
  obtain ⟨parts, rfl⟩ | ⟨_, _, items, -, -, rfl, -⟩ | ⟨_, _, fields, -, -, rfl, -⟩ | hword | hnumber :=
    readValue_cases h
  · exact justified_ofParts parts
  · exact nofun
  · exact nofun
  · exact (simple_readWord hword).justified
  · exact (simple_readNumber hnumber).justified

theorem orderly_readFields {budget nests : ℕ} {done : List (String × Json)} {text rest : List Char}
    (hdone : Orderly done) (h : readFields budget nests done text = .ok (fields, rest)) :
    Orderly fields := by
  induction budget generalizing done text with
  | zero => cases h
  | succ budget ih =>
    obtain ⟨_, name, value, _, _, hbudget, hvalue, hfields⟩ := readFields_cases h
    cases hbudget
    have hmore := hdone.setField (justified_readValue hvalue) name
    rcases hfields with rfl | ⟨_, hfields⟩
    · exact hmore
    · exact ih hmore hfields

theorem orderly_readValue {budget nests : ℕ} {text rest : List Char}
    (h : readValue budget nests text = .ok (.obj fields, rest)) : Orderly fields := by
  have hnil : Orderly [] := ⟨List.nodup_nil, by simp⟩
  obtain ⟨parts, hparts⟩ | ⟨_, _, items, -, -, hitems, -⟩ | ⟨_, _, read, -, -, hread, hfields⟩ | hword | hnumber :=
    readValue_cases h
  · unfold ofParts at hparts
    split at hparts <;> cases hparts
  · cases hitems
  · cases hread
    obtain rfl | ⟨_, hmore⟩ := hfields
    · exact hnil
    · exact orderly_readFields hnil hmore
  · exact (simple_readWord hword).elim
  · exact (simple_readNumber hnumber).elim

/-- A document is read as a value. -/
theorem exists_readValue {nests : ℕ} {text : List Char} (h : parseWithin nests text = .ok value) :
    ∃ budget inside rest, readValue budget nests inside = .ok (value, rest) := by
  unfold parseWithin at h
  split at h
  · next value hread =>
    cases h
    unfold readDocument at hread
    split at hread
    · cases hread
    rcases hvalue : readValue _ _ _ with f | ⟨value, after⟩ <;> rw [hvalue] at hread
    · cases hread
    dsimp only [bind, Except.bind] at hread
    split at hread <;> cases hread
    exact ⟨_, _, _, hvalue⟩
  all_goals cases h

/-- An object that a document holds has orderly fields. -/
theorem orderly_parse {text : List Char} (h : parse text = .ok (.obj fields)) : Orderly fields := by
  obtain ⟨_, _, _, hread⟩ := exists_readValue h
  exact orderly_readValue hread

/-! ## Depth -/

mutual

/-- How many arrays and objects lie within each other. -/
def depth : Json → ℕ
  | .arr items => depthItems items + 1
  | .obj fields => depthFields fields + 1
  | _ => 0

/-- The depth of the deepest item. -/
def depthItems : List Json → ℕ
  | [] => 0
  | item :: rest => max (depth item) (depthItems rest)

/-- The depth of the deepest field. -/
def depthFields : List (String × Json) → ℕ
  | [] => 0
  | (_, value) :: rest => max (depth value) (depthFields rest)

end

theorem depthItems_le_iff {items : List Json} {n : ℕ} :
    depthItems items ≤ n ↔ ∀ item ∈ items, depth item ≤ n := by
  induction items with
  | nil => simp [depthItems]
  | cons item items ih => rw [depthItems, Nat.max_le, ih, List.forall_mem_cons]

theorem depthFields_le_iff {fields : List (String × Json)} {n : ℕ} :
    depthFields fields ≤ n ↔ ∀ field ∈ fields, depth field.2 ≤ n := by
  induction fields with
  | nil => simp [depthFields]
  | cons field fields ih => rw [depthFields, Nat.max_le, ih, List.forall_mem_cons]

theorem depth_ofParts (parts : List StringPart) : (ofParts parts).depth = 0 := by
  unfold ofParts
  split <;> rfl

theorem IsSimple.depth (h : value.IsSimple) : value.depth = 0 := by
  cases value with
  | arr | obj => exact h.elim
  | null | bool | int | float | str | broken => rfl

theorem depth_setField {nests : ℕ} (hfields : depthFields fields ≤ nests)
    (hvalue : value.depth ≤ nests) : depthFields (setField fields name value) ≤ nests := by
  rw [depthFields_le_iff] at hfields ⊢
  intro field hfield
  rcases mem_setField hfield with rfl | hfield
  · exact hvalue
  · exact hfields field hfield

/-- What is read is nested no deeper than may be. -/
theorem depth_le_of_read (budget : ℕ) :
    (∀ {nests text value rest}, readValue budget nests text = .ok (value, rest) → value.depth ≤ nests) ∧
      (∀ {nests text items rest}, readItems budget nests text = .ok (items, rest) → depthItems items ≤ nests) ∧
      ∀ {nests done text fields rest}, depthFields done ≤ nests →
        readFields budget nests done text = .ok (fields, rest) → depthFields fields ≤ nests := by
  induction budget with
  | zero => exact ⟨nofun, nofun, fun _ h ↦ nomatch h⟩
  | succ budget ih =>
  obtain ⟨ihValue, ihItems, ihFields⟩ := ih
  refine ⟨?value, ?items, ?fields⟩
  case value =>
    intro nests text value rest h
    obtain ⟨parts, rfl⟩ | ⟨_, _, items, hbudget, rfl, rfl, hitems⟩ | ⟨_, _, fields, hbudget, rfl, rfl, hfields⟩ |
      hword | hnumber := readValue_cases h
    · exact depth_ofParts parts ▸ Nat.zero_le _
    · cases hbudget
      obtain rfl | ⟨_, hread⟩ := hitems
      · exact Nat.succ_le_succ (Nat.zero_le _)
      · exact Nat.succ_le_succ (ihItems hread)
    · cases hbudget
      obtain rfl | ⟨_, hread⟩ := hfields
      · exact Nat.succ_le_succ (Nat.zero_le _)
      · exact Nat.succ_le_succ (ihFields (Nat.zero_le _) hread)
    · exact (simple_readWord hword).depth ▸ Nat.zero_le _
    · exact (simple_readNumber hnumber).depth ▸ Nat.zero_le _
  case items =>
    intro nests text items rest h
    obtain ⟨_, item, _, hbudget, hitem, rfl | ⟨_, more, hitems, rfl⟩⟩ := readItems_cases h <;> cases hbudget
    · exact Nat.max_le.mpr ⟨ihValue hitem, Nat.zero_le _⟩
    · exact Nat.max_le.mpr ⟨ihValue hitem, ihItems hitems⟩
  case fields =>
    intro nests done text fields rest hdone h
    obtain ⟨_, name, value, _, _, hbudget, hvalue, hfields⟩ := readFields_cases h
    cases hbudget
    have hmore : depthFields (setField done name value) ≤ nests := depth_setField hdone (ihValue hvalue)
    rcases hfields with rfl | ⟨_, hfields⟩
    · exact hmore
    · exact ihFields hmore hfields

/-- What a document holds is nested no deeper than may be. -/
theorem depth_le_of_parseWithin {nests : ℕ} {text : List Char} (h : parseWithin nests text = .ok value) :
    value.depth ≤ nests := by
  obtain ⟨budget, _, _, hread⟩ := exists_readValue h
  exact (depth_le_of_read budget).1 hread

end DeferredOps.Json
