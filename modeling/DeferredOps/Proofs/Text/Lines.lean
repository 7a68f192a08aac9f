import DeferredOps.Proofs.Text.Utf8
import DeferredOps.Text.Lines

/-!
# Lines are read back from their stored forms

Lines can be stored with any of three line ends, with or without one after the last line, and with or
without a byte-order mark. Whatever the form, the lines that are read are the lines that were stored,
but for an empty one at the end, which cannot be told from none.
-/

namespace DeferredOps.Text

/-! ## Forms -/

/-- What stands between the lines of a file. -/
inductive LineEnd
  | lineFeed
  | carriageReturn
  /-- CR and LF together. -/
  | both
  deriving DecidableEq, Repr

/-- The characters of a line end. -/
def LineEnd.chars : LineEnd → List Char
  | .lineFeed => ['\n']
  | .carriageReturn => ['\r']
  | .both => ['\r', '\n']

/-- A form of storing lines: what ends a line, whether the last line has an end too, and whether a
byte-order mark stands in front. -/
structure LineForm where
  ending : LineEnd
  closed : Bool
  marked : Bool
  deriving DecidableEq, Repr

/-- The text of lines in a form. -/
def LineForm.joined (form : LineForm) (texts : List (List Char)) : List Char :=
  form.ending.chars.intercalate texts ++ if form.closed then form.ending.chars else []

/-- The bytes of lines in a form. -/
def LineForm.store (form : LineForm) (texts : List (List Char)) : Bytes :=
  (if form.marked then Utf8.byteOrderMark else []) ++ Utf8.encode (form.joined texts)

/-- A text without the characters that end a line. -/
def IsLine (text : List Char) : Prop :=
  ∀ c ∈ text, isLineEnd c = false

instance (text : List Char) : Decidable (IsLine text) :=
  List.decidableBAll (isLineEnd · = false) text

variable {line rest : Bytes} {text : List Char} {texts : List (List Char)}

/-! ## Reading -/

@[simp]
theorem lines_nil : lines [] = [] := by
  rw [lines]

theorem lines_cons {b : UInt8} {rest : Bytes} :
    lines (b :: rest) = (firstLine (b :: rest)).1 ::
      lines ((b :: rest).drop (firstLine (b :: rest)).2) := by
  rw [lines]

/-- Bytes that end no line belong to the first line. -/
theorem firstLine_append (h : ∀ b ∈ line, b ≠ lineFeed ∧ b ≠ carriageReturn) (rest : Bytes) :
    firstLine (line ++ rest) = (line ++ (firstLine rest).1, line.length + (firstLine rest).2) := by
  induction line with
  | nil => simp
  | cons b line ih =>
    obtain ⟨hfeed, hreturn⟩ := h b List.mem_cons_self
    rw [List.cons_append, firstLine, if_neg hfeed, if_neg hreturn,
      ih fun d hd ↦ h d (List.mem_cons_of_mem _ hd)]
    simp only [List.cons_append, List.length_cons, Prod.mk.injEq, true_and]
    omega

theorem firstLine_ending (ending : LineEnd)
    (h : ending = .carriageReturn → rest.head? ≠ some lineFeed) :
    firstLine (Utf8.encode ending.chars ++ rest) = ([], (Utf8.encode ending.chars).length) := by
  cases ending with
  | lineFeed => rfl
  | carriageReturn =>
    change ([], if rest.head? = some lineFeed then 2 else 1) = _
    rw [if_neg (h rfl)]
    rfl
  | both => rfl

theorem ne_of_mem_encode (h : IsLine text) {b : UInt8} (hb : b ∈ Utf8.encode text) :
    b ≠ lineFeed ∧ b ≠ carriageReturn := by
  constructor
  · rintro rfl
    exact absurd (h _ (Utf8.mem_of_mem_encode hb (by decide))) (by decide)
  · rintro rfl
    exact absurd (h _ (Utf8.mem_of_mem_encode hb (by decide))) (by decide)

/-- A stored line with its end is the first line of the file. -/
theorem lines_encode_append (ending : LineEnd) (htext : IsLine text)
    (h : ending = .carriageReturn → rest.head? ≠ some lineFeed) :
    lines (Utf8.encode text ++ Utf8.encode ending.chars ++ rest) =
      Utf8.encode text :: lines rest := by
  have hfirst : firstLine (Utf8.encode text ++ Utf8.encode ending.chars ++ rest) =
      (Utf8.encode text, (Utf8.encode text ++ Utf8.encode ending.chars).length) := by
    rw [List.append_assoc, firstLine_append (fun b hb ↦ ne_of_mem_encode htext hb),
      firstLine_ending ending h, List.append_nil, List.length_append]
  have hne : Utf8.encode text ++ Utf8.encode ending.chars ++ rest ≠ [] := by
    cases ending <;> simp [LineEnd.chars, Utf8.encode, String.utf8EncodeChar]
  obtain ⟨b, bytes, hcons⟩ := List.exists_cons_of_ne_nil hne
  rw [hcons, lines_cons, ← hcons, hfirst]
  dsimp only
  rw [List.drop_left]

/-- A last line without an end is one line, or none if it is empty. -/
theorem lines_encode (htext : IsLine text) :
    lines (Utf8.encode text) = if Utf8.encode text = [] then [] else [Utf8.encode text] := by
  split
  · next hnil => rw [hnil, lines_nil]
  · next hne =>
    have hfirst : firstLine (Utf8.encode text) = (Utf8.encode text, (Utf8.encode text).length) := by
      have h := firstLine_append (fun b hb ↦ ne_of_mem_encode htext hb) ([] : Bytes)
      rwa [List.append_nil, firstLine, List.append_nil] at h
    obtain ⟨b, bytes, hcons⟩ := List.exists_cons_of_ne_nil hne
    rw [hcons, lines_cons, ← hcons, hfirst]
    dsimp only
    rw [List.drop_length, lines_nil]

/-! ## Stored lines -/

/-- Lists of lines that are the same but for an empty line at the end of one of them. -/
def SameLines (found expected : List Bytes) : Prop :=
  found = expected ∨ found ++ [[]] = expected ∨ found = expected ++ [[]]

theorem SameLines.cons {found expected : List Bytes} (h : SameLines found expected) (line : Bytes) :
    SameLines (line :: found) (line :: expected) := by
  rcases h with rfl | rfl | rfl
  · exact .inl rfl
  · exact .inr (.inl rfl)
  · exact .inr (.inr rfl)

theorem LineForm.joined_singleton (form : LineForm) (text : List Char) :
    form.joined [text] = text ++ if form.closed then form.ending.chars else [] := by
  unfold LineForm.joined
  rw [List.intercalate_singleton]

theorem LineForm.joined_cons_cons (form : LineForm) (first second : List Char)
    (texts : List (List Char)) :
    form.joined (first :: second :: texts) =
      first ++ form.ending.chars ++ form.joined (second :: texts) := by
  unfold LineForm.joined
  rw [List.intercalate_cons_cons, List.append_assoc]

theorem LineForm.mem_joined {form : LineForm} {c : Char} (h : c ∈ form.joined texts) :
    (∃ text ∈ texts, c ∈ text) ∨ c ∈ form.ending.chars := by
  induction texts with
  | nil =>
    right
    unfold LineForm.joined at h
    split at h
    · simpa using h
    · simp at h
  | cons first texts ih =>
    cases texts with
    | nil =>
      rw [joined_singleton, List.mem_append] at h
      rcases h with h | h
      · exact .inl ⟨first, List.mem_cons_self, h⟩
      · split at h
        · exact .inr h
        · cases h
    | cons second texts =>
      rw [joined_cons_cons, List.mem_append, List.mem_append] at h
      rcases h with (h | h) | h
      · exact .inl ⟨first, List.mem_cons_self, h⟩
      · exact .inr h
      · rcases ih h with ⟨text, htext, hc⟩ | h
        · exact .inl ⟨text, List.mem_cons_of_mem _ htext, hc⟩
        · exact .inr h

/-- With CR as the line end there is no LF that could be taken for a part of it. -/
theorem LineForm.head?_ne_lineFeed (form : LineForm) (htexts : ∀ text ∈ texts, IsLine text)
    (h : form.ending = .carriageReturn) : (Utf8.encode (form.joined texts)).head? ≠ some lineFeed := by
  intro hhead
  have hmem : '\n' ∈ form.joined texts := Utf8.mem_of_mem_encode (List.mem_of_head? hhead) (by decide)
  rcases mem_joined hmem with ⟨text, htext, hc⟩ | hc
  · exact absurd (htexts text htext _ hc) (by decide)
  · rw [h] at hc
    exact absurd hc (by decide)

theorem LineEnd.head?_chars_append (ending : LineEnd) (text : List Char) :
    (ending.chars ++ text).head? ≠ some '\uFEFF' := by
  cases ending <;> simp [chars]

/-- A joined text does not begin with the character of a byte-order mark unless its first line does. -/
theorem LineForm.head?_joined_ne (form : LineForm)
    (hfirst : ∀ text, texts.head? = some text → text.head? ≠ some '\uFEFF') :
    (form.joined texts).head? ≠ some '\uFEFF' := by
  have hend : (if form.closed then form.ending.chars else []).head? ≠ some '\uFEFF' := by
    split
    · simpa using form.ending.head?_chars_append []
    · simp
  cases texts with
  | nil => simpa [joined] using hend
  | cons first texts =>
    have hhead : first.head? ≠ some '\uFEFF' := hfirst first rfl
    have hstart {more : List Char} (hmore : more.head? ≠ some '\uFEFF') :
        (first ++ more).head? ≠ some '\uFEFF' := by
      cases first with
      | nil => exact hmore
      | cons c first => exact hhead
    cases texts with
    | nil =>
      rw [joined_singleton]
      exact hstart hend
    | cons second texts =>
      rw [joined_cons_cons, List.append_assoc]
      exact hstart (form.ending.head?_chars_append _)

/-- The lines of a joined text are those that were joined. -/
theorem sameLines_joined (form : LineForm) (htexts : ∀ text ∈ texts, IsLine text) :
    SameLines (lines (Utf8.encode (form.joined texts))) (texts.map Utf8.encode) := by
  have hlast (text : List Char) (htext : IsLine text) :
      lines (Utf8.encode (text ++ form.ending.chars)) = [Utf8.encode text] := by
    have h : lines (Utf8.encode text ++ Utf8.encode form.ending.chars ++ []) =
        Utf8.encode text :: lines [] := lines_encode_append form.ending htext (by simp)
    rwa [List.append_nil, lines_nil, ← Utf8.encode_append] at h
  induction texts with
  | nil =>
    unfold LineForm.joined
    split
    · exact .inr (.inr (hlast [] nofun))
    · exact .inl lines_nil
  | cons first texts ih =>
    have hfirst := htexts first List.mem_cons_self
    cases texts with
    | nil =>
      rw [form.joined_singleton]
      split
      · exact .inl (hlast first hfirst)
      · rw [List.append_nil, lines_encode hfirst, List.map_singleton]
        split
        · next hnil =>
          rw [hnil]
          exact .inr (.inl rfl)
        · exact .inl rfl
    | cons second texts =>
      have hrest : ∀ text ∈ second :: texts, IsLine text :=
        fun text htext ↦ htexts text (List.mem_cons_of_mem _ htext)
      rw [form.joined_cons_cons, Utf8.encode_append, Utf8.encode_append,
        lines_encode_append form.ending hfirst (form.head?_ne_lineFeed hrest)]
      exact (ih hrest).cons _

/-- The same holds of the bytes that are stored, if the mark is not taken from the first line. -/
theorem sameLines_store (form : LineForm) (htexts : ∀ text ∈ texts, IsLine text)
    (hfirst : ∀ text, texts.head? = some text → text.head? ≠ some '\uFEFF') :
    SameLines (lines (Utf8.dropByteOrderMark (form.store texts))) (texts.map Utf8.encode) := by
  unfold LineForm.store
  split
  · rw [Utf8.dropByteOrderMark_marked]
    exact sameLines_joined form htexts
  · rw [List.nil_append, Utf8.dropByteOrderMark_encode (form.head?_joined_ne hfirst)]
    exact sameLines_joined form htexts

end DeferredOps.Text
