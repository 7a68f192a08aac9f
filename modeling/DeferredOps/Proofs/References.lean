import DeferredOps.Environment
import Mathlib.Data.List.Basic
import Mathlib.Data.List.TakeWhile

/-!
# The names that a text refers to

A reader cuts a text into pieces that put together again are the text. The names that the pieces refer
to stand in the text between the marks of a reference, and where none of them is set the expansion
leaves the text alone.
-/

namespace DeferredOps.Environment

/-- The name that a piece refers to, if it is a reference. -/
def Piece.name? : Piece → Option String
  | .char _ => none
  | .reference _ name _ => some (String.ofList name)

/-- A piece that is a reference in one of the three forms. -/
inductive IsReference : Piece → Prop
  | percent {name : List Char} (hne : name ≠ []) (h : ∀ c ∈ name, isPercentNameChar c) :
      IsReference (.reference ['%'] name ['%'])
  | dollar {first : Char} {more : List Char} (hfirst : isNameStart first)
      (h : ∀ c ∈ more, isNameChar c) : IsReference (.reference ['$'] (first :: more) [])
  | braces {name : List Char} (hne : name ≠ []) (h : '\x7d' ∉ name) :
      IsReference (.reference ['$', '\x7b'] name ['\x7d'])

/-- A reader finds references that start with a mark and go on with the text after it. -/
def Reads (mark : Char) (reference? : List Char → Option Piece) : Prop :=
  ∀ text piece, reference? text = some piece →
    IsReference piece ∧ ∃ tail rest, piece.written = mark :: tail ∧ text = tail ++ rest

variable {env env' : Environment} {piece : Piece} {mark : Char} {reference? : List Char → Option Piece}
  {text : List Char} {name : String}

/-! ## Readers -/

/-- What is read while a test holds, up to a character that closes it. -/
theorem takeWhile_closed {test : Char → Bool} {closing : Char}
    (h : (text.drop (text.takeWhile test).length).head? = some closing) :
    ∃ rest, text = text.takeWhile test ++ closing :: rest := by
  obtain ⟨rest, hrest⟩ := List.head?_eq_some_iff.mp h
  have hsplit := List.prefix_iff_eq_append.mp (List.takeWhile_prefix test (l := text))
  exact ⟨rest, by rw [← hrest, hsplit]⟩

theorem reads_percent : Reads '%' percentReference? := by
  intro text piece h
  unfold percentReference? at h
  obtain ⟨hfound, hpiece⟩ := Option.ite_none_right_eq_some.mp h
  cases hpiece
  simp only [Bool.and_eq_true, Bool.not_eq_true', List.isEmpty_eq_false_iff, decide_eq_true_eq]
    at hfound
  obtain ⟨rest, hrest⟩ := takeWhile_closed hfound.2
  refine ⟨.percent hfound.1 fun c ↦ List.mem_takeWhile_imp,
    text.takeWhile isPercentNameChar ++ ['%'], rest, rfl, ?_⟩
  rw [List.append_assoc]
  exact hrest

theorem reads_dollar : Reads '$' dollarReference? := by
  intro text piece h
  cases text with
  | nil => cases h
  | cons c text =>
    unfold dollarReference? at h
    dsimp only at h
    by_cases hbrace : c = '\x7b'
    · rw [if_pos hbrace] at h
      obtain ⟨hfound, hpiece⟩ := Option.ite_none_right_eq_some.mp h
      cases hpiece
      simp only [Bool.and_eq_true, Bool.not_eq_true', List.isEmpty_eq_false_iff, decide_eq_true_eq]
        at hfound
      obtain ⟨rest, hrest⟩ := takeWhile_closed hfound.2
      refine ⟨.braces hfound.1 fun hmem ↦ ?_,
        '\x7b' :: (text.takeWhile (· ≠ '\x7d') ++ ['\x7d']), rest, rfl, ?_⟩
      · simpa using List.mem_takeWhile_imp hmem
      · rw [hbrace, List.cons_append, List.append_assoc]
        exact congrArg _ hrest
    · rw [if_neg hbrace] at h
      obtain ⟨hfirst, hpiece⟩ := Option.ite_none_right_eq_some.mp h
      cases hpiece
      refine ⟨.dollar hfirst fun c ↦ List.mem_takeWhile_imp, c :: text.takeWhile isNameChar,
        text.dropWhile isNameChar, List.append_nil _, ?_⟩
      rw [List.cons_append, List.takeWhile_append_dropWhile]

/-! ## Pieces -/

/-- The pieces of a text, put together as they are written, are the text. -/
theorem Reads.flatMap_written (h : Reads mark reference?) (text : List Char) :
    (piecesAfter mark reference? text).flatMap Piece.written = text := by
  induction text using piecesAfter.induct mark reference? with
  | case1 =>
    rw [piecesAfter]
    rfl
  | case2 c text piece hpiece ih =>
    rw [dite_eq_ite] at hpiece
    rw [piecesAfter, hpiece]
    dsimp only
    rw [List.flatMap_cons, ih]
    obtain ⟨hmark, hreference⟩ := Option.ite_none_right_eq_some.mp hpiece
    -- The mark has been read already, and the tail is what the reader goes past.
    obtain ⟨-, tail, rest, hwritten, rfl⟩ := h text piece hreference
    rw [hwritten, List.length_cons, Nat.add_sub_cancel, List.drop_left, hmark]
    rfl
  | case3 c text hnone ih =>
    rw [dite_eq_ite] at hnone
    rw [piecesAfter, hnone]
    dsimp only
    rw [List.flatMap_cons, ih]
    rfl

/-- What holds of every reference that is found holds of every piece with a name. -/
theorem forall_named {P : Piece → Prop}
    (h : ∀ text piece, reference? text = some piece → P piece) (text : List Char)
    (hpiece : piece ∈ piecesAfter mark reference? text) (hname : piece.name? = some name) :
    P piece := by
  induction text using piecesAfter.induct mark reference? with
  | case1 =>
    rw [piecesAfter] at hpiece
    cases hpiece
  | case2 c text found hfound ih =>
    rw [dite_eq_ite] at hfound
    rw [piecesAfter, hfound] at hpiece
    rcases List.mem_cons.mp hpiece with rfl | hpiece
    · exact h text piece (Option.ite_none_right_eq_some.mp hfound).2
    · exact ih hpiece
  | case3 c text hnone ih =>
    rw [dite_eq_ite] at hnone
    rw [piecesAfter, hnone] at hpiece
    rcases List.mem_cons.mp hpiece with rfl | hpiece
    · cases hname
    · exact ih hpiece

/-- A piece with a name is a reference that stands in the text. -/
theorem Reads.isReference (h : Reads mark reference?) (text : List Char)
    (hpiece : piece ∈ piecesAfter mark reference? text) (hname : piece.name? = some name) :
    IsReference piece :=
  forall_named (fun text piece hfound ↦ (h text piece hfound).1) text hpiece hname

/-- A piece with a name starts with the mark. -/
theorem Reads.head?_written (h : Reads mark reference?) (text : List Char)
    (hpiece : piece ∈ piecesAfter mark reference? text) (hname : piece.name? = some name) :
    piece.written.head? = some mark := by
  refine forall_named (P := fun piece ↦ piece.written.head? = some mark) ?_ text hpiece hname
  intro text piece hfound
  obtain ⟨-, tail, rest, hwritten, -⟩ := h text piece hfound
  rw [hwritten, List.head?_cons]

theorem Reads.written_infix (h : Reads mark reference?) (text : List Char)
    (hpiece : piece ∈ piecesAfter mark reference? text) : piece.written <:+: text := by
  have hinfix := List.infix_of_mem_flatten (List.mem_map_of_mem (f := Piece.written) hpiece)
  rwa [← List.flatMap_def, h.flatMap_written] at hinfix

/-! ## Expansion -/

/-- A piece is expanded with the value of the variable that it refers to, and with no other. -/
theorem Piece.expanded_congr (h : ∀ name ∈ piece.name?, env.value? name = env'.value? name) :
    piece.expanded env = piece.expanded env' := by
  cases piece with
  | char c => rfl
  | reference opening name closing =>
    have hname : env.value? (String.ofList name) = env'.value? (String.ofList name) := h _ rfl
    unfold expanded
    dsimp only
    rw [hname]

theorem substitute_congr {pieces : List Piece}
    (h : ∀ name ∈ pieces.filterMap Piece.name?, env.value? name = env'.value? name) :
    env.substitute pieces = env'.substitute pieces := by
  unfold substitute
  rw [List.flatMap_def, List.flatMap_def]
  congr 1
  apply List.map_congr_left
  intro piece hpiece
  apply Piece.expanded_congr
  intro name hname
  exact h name (List.mem_filterMap.mpr ⟨piece, hpiece, hname⟩)

/-- Where no variable is set, pieces stay as they are written. -/
theorem substitute_empty (pieces : List Piece) :
    empty.substitute pieces = pieces.flatMap Piece.written := by
  have hpiece : Piece.expanded empty = Piece.written := by
    funext piece
    cases piece <;> rfl
  rw [substitute, hpiece]

theorem substitute_of_unset {pieces : List Piece}
    (h : ∀ name ∈ pieces.filterMap Piece.name?, env.value? name = none) :
    env.substitute pieces = pieces.flatMap Piece.written := by
  calc
    env.substitute pieces
      = empty.substitute pieces := substitute_congr h
    _ = pieces.flatMap Piece.written := substitute_empty pieces

theorem Reads.substitute_of_unset (h : Reads mark reference?)
    (hunset : ∀ name ∈ (piecesAfter mark reference? text).filterMap Piece.name?,
      env.value? name = none) :
    env.substitute (piecesAfter mark reference? text) = text :=
  (Environment.substitute_of_unset hunset).trans (h.flatMap_written text)

/-- The names that a text refers to, as the two readers find them. -/
def references (text : List Char) : List String :=
  (percentPieces text ++ dollarPieces text).filterMap Piece.name?

/-- A name that a text refers to stands there in a reference. -/
theorem exists_of_mem_references (h : name ∈ references text) :
    ∃ piece, IsReference piece ∧ piece.name? = some name ∧ piece.written <:+: text := by
  obtain ⟨piece, hpiece, hname⟩ := List.mem_filterMap.mp h
  rcases List.mem_append.mp hpiece with hpiece | hpiece
  · exact ⟨piece, reads_percent.isReference text hpiece hname, hname,
      reads_percent.written_infix text hpiece⟩
  · exact ⟨piece, reads_dollar.isReference text hpiece hname, hname,
      reads_dollar.written_infix text hpiece⟩

/-- Without a variable that is set and referred to there is nothing to expand. -/
theorem expandChars_of_unset (h : ∀ name ∈ references text, env.value? name = none) :
    env.expandChars text = text := by
  unfold references at h
  rw [List.filterMap_append] at h
  have hpercent : env.substitute (percentPieces text) = text :=
    reads_percent.substitute_of_unset fun name hname ↦ h name (List.mem_append_left _ hname)
  have hdollar : env.substitute (dollarPieces text) = text :=
    reads_dollar.substitute_of_unset fun name hname ↦ h name (List.mem_append_right _ hname)
  unfold expandChars
  rw [hpercent, hdollar]

end DeferredOps.Environment
