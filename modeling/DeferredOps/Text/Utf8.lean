import DeferredOps.Text.Literal

/-!
# Texts stored as bytes

The UTF-8 form of a text, a reader that refuses ill-formed bytes and says where and why, and a
reader that puts U+FFFD in place of each of them. Both readers take one step at a time: a step
either yields a character or measures the ill-formed run, which is the longest beginning of a
character, or one byte if there is none.
-/

namespace DeferredOps

/-- The content of a file. -/
abbrev Bytes := List UInt8

end DeferredOps

namespace DeferredOps.Utf8

/-- Why a byte sequence is no character. -/
inductive Fault
  /-- No character starts with this byte. -/
  | start
  /-- The character that was begun does not go on with the next byte. -/
  | continuation
  /-- The bytes end within a character. -/
  | ending
  deriving DecidableEq, Repr

/-- The wording of a fault. -/
def Fault.text : Fault → String
  | .start => "invalid start byte"
  | .continuation => "invalid continuation byte"
  | .ending => "unexpected end of data"

/-- The bytes of a text. -/
def encode (text : List Char) : Bytes :=
  text.flatMap String.utf8EncodeChar

/-- The bytes of a string. -/
def encodeString (text : String) : Bytes :=
  encode text.toList

/-- Whether a byte can continue a character. -/
def isContinuation (b : UInt8) : Bool :=
  0x80 ≤ b && b ≤ 0xBF

/-- What a first byte announces: the bits of the character that it holds, the range of the second
byte, and the number of bytes after that one. -/
structure Lead where
  bits : Nat
  low : UInt8
  high : UInt8
  more : Nat

/-- The announcement of a byte that starts a character of more than one byte. The ranges of the
second byte leave out overlong forms, surrogates and numbers above U+10FFFF. -/
def lead? (b : UInt8) : Option Lead :=
  if 0xC2 ≤ b && b ≤ 0xDF then some ⟨b.toNat - 0xC0, 0x80, 0xBF, 0⟩
  else if b == 0xE0 then some ⟨0, 0xA0, 0xBF, 1⟩
  else if b == 0xED then some ⟨13, 0x80, 0x9F, 1⟩
  else if 0xE1 ≤ b && b ≤ 0xEF then some ⟨b.toNat - 0xE0, 0x80, 0xBF, 1⟩
  else if b == 0xF0 then some ⟨0, 0x90, 0xBF, 2⟩
  else if 0xF1 ≤ b && b ≤ 0xF3 then some ⟨b.toNat - 0xF0, 0x80, 0xBF, 2⟩
  else if b == 0xF4 then some ⟨4, 0x80, 0x8F, 2⟩
  else none

/-- The outcome of reading one character. -/
inductive Step
  /-- A character and the bytes after it. -/
  | char (c : Char) (rest : Bytes)
  /-- The length of an ill-formed run, at least one, and what is wrong with it. -/
  | fault (length : Nat) (why : Fault)

/-- Read the remaining continuation bytes of a character, of which `done` bytes are read. -/
def readMore : (more : Nat) → (done bits : Nat) → Bytes → Step
  | 0, _, bits, rest => .char (Char.ofNat bits) rest
  | _ + 1, done, _, [] => .fault done .ending
  | more + 1, done, bits, b :: rest =>
    if isContinuation b then readMore more (done + 1) (bits * 64 + (b.toNat - 0x80)) rest
    else .fault done .continuation

/-- Read one character from bytes that start with `b`. -/
def step (b : UInt8) (rest : Bytes) : Step :=
  if b < 0x80 then .char (Char.ofNat b.toNat) rest
  else match lead? b with
    | none => .fault 1 .start
    | some lead =>
      match rest with
      | [] => .fault 1 .ending
      | second :: rest =>
        if lead.low ≤ second && second ≤ lead.high then
          readMore lead.more 2 (lead.bits * 64 + (second.toNat - 0x80)) rest
        else .fault 1 .continuation

theorem readMore_rest_length {more done bits : Nat} {bytes rest : Bytes} {c : Char}
    (h : readMore more done bits bytes = .char c rest) : rest.length ≤ bytes.length := by
  induction more generalizing done bits bytes with
  | zero =>
    simp only [readMore, Step.char.injEq] at h
    simp [h.2]
  | succ more ih =>
    cases bytes with
    | nil => simp [readMore] at h
    | cons b bytes =>
      simp only [readMore] at h
      split at h
      · have := ih h
        simp only [List.length_cons]
        omega
      · simp at h

/-- A step that yields a character leaves no more than the bytes after the first. -/
theorem step_rest_length {b : UInt8} {bytes rest : Bytes} {c : Char}
    (h : step b bytes = .char c rest) : rest.length ≤ bytes.length := by
  unfold step at h
  split at h
  · simp only [Step.char.injEq] at h
    simp [h.2]
  · split at h
    · simp at h
    · split at h
      · simp at h
      · split at h
        · have := readMore_rest_length h
          simp only [List.length_cons]
          omega
        · simp at h

/-- A character, or a run of bytes that is none. -/
inductive Piece
  | char (c : Char)
  | illFormed (run : Bytes) (why : Fault)
  deriving DecidableEq, Repr

/-- The characters and ill-formed runs of a byte sequence, in order. -/
def pieces : (bytes : Bytes) → List Piece
  | [] => []
  | b :: bytes =>
    match _h : step b bytes with
    | .char c rest => .char c :: pieces rest
    | .fault length why =>
      .illFormed ((b :: bytes).take length) why :: pieces (bytes.drop (length - 1))
  termination_by bytes => bytes.length
  decreasing_by
    · have := step_rest_length _h
      simp only [List.length_cons]
      omega
    · simp only [List.length_drop, List.length_cons]
      omega

/-- Where and why bytes are no text: the offset of the first ill-formed run, its bytes, and the
fault. -/
structure Malformed where
  offset : Nat
  run : Bytes
  why : Fault
  deriving DecidableEq, Repr

/-- A byte as two hexadecimal digits. -/
def byteText (b : UInt8) : String :=
  String.ofList (Text.hexDigits 2 b.toNat)

/-- The wording of a refusal. One byte is shown, of several their offsets. -/
def Malformed.message (m : Malformed) : String :=
  "'utf-8' codec can't decode " ++
    (match m.run with
      | [b] => "byte 0x" ++ byteText b ++ " in position " ++ m.offset.repr
      | run => "bytes in position " ++ m.offset.repr ++ "-" ++ (m.offset + run.length - 1).repr) ++
    ": " ++ m.why.text

/-- The text of pieces that are all characters; `offset` bytes come before them. -/
def textOfPieces (offset : Nat) : List Piece → Except Malformed (List Char)
  | [] => .ok []
  | .char c :: rest => (textOfPieces (offset + c.utf8Size) rest).map (c :: ·)
  | .illFormed run why :: _ => .error ⟨offset, run, why⟩

/-- Read a text, refusing at the first ill-formed run. -/
def decode (bytes : Bytes) : Except Malformed (List Char) :=
  textOfPieces 0 (pieces bytes)

/-- The character that stands for what cannot be read. -/
def replacement : Char := '\uFFFD'

/-- The character that a piece is read as when nothing is refused. -/
def Piece.replaced : Piece → Char
  | .char c => c
  | .illFormed _ _ => replacement

/-- Read a text with one replacement character for each ill-formed run. -/
def decodeReplacing (bytes : Bytes) : List Char :=
  (pieces bytes).map Piece.replaced

/-- The bytes of U+FEFF, which may stand in front of a text to mark its encoding. -/
def byteOrderMark : Bytes := [0xEF, 0xBB, 0xBF]

/-- The bytes after a byte-order mark, if they start with one; bytes that end within their mark
hold no text. -/
def dropByteOrderMark (bytes : Bytes) : Bytes :=
  if bytes.isPrefixOf byteOrderMark then []
  else if byteOrderMark.isPrefixOf bytes then bytes.drop 3
  else bytes

end DeferredOps.Utf8
