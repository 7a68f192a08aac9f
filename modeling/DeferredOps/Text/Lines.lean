import DeferredOps.Text.Blank
import DeferredOps.Text.Utf8

/-!
# Lines

A line ends with LF, with CR, or with CR and LF together, and with nothing else. The last line
needs no end; an empty one without an end is none. No character but these two has one of their bytes
in its stored form, so the lines of a file are found before its text is read.
-/

namespace DeferredOps.Text

/-- The byte of LF. -/
def lineFeed : UInt8 := 10

/-- The byte of CR. -/
def carriageReturn : UInt8 := 13

/-- The first line of a file without its end, and the number of its bytes with it. -/
def firstLine : Bytes → Bytes × Nat
  | [] => ([], 0)
  | b :: rest =>
    if b = lineFeed then ([], 1)
    else if b = carriageReturn then ([], if rest.head? = some lineFeed then 2 else 1)
    else
      let (line, size) := firstLine rest
      (b :: line, size + 1)

theorem firstLine_size_pos (b : UInt8) (rest : Bytes) : 0 < (firstLine (b :: rest)).2 := by
  simp only [firstLine]
  split
  · simp
  · split
    · split <;> simp
    · simp

/-- The lines of a file, without their ends. -/
def lines : Bytes → List Bytes
  | [] => []
  | b :: rest =>
    let first := firstLine (b :: rest)
    first.1 :: lines ((b :: rest).drop first.2)
  termination_by content => content.length
  decreasing_by
    have := firstLine_size_pos b rest
    simp only [List.length_drop, List.length_cons]
    omega

/-- The text in which every line ends with LF. -/
def unifyLineEnds : List Char → List Char
  | [] => []
  | '\r' :: '\n' :: rest => '\n' :: unifyLineEnds rest
  | c :: rest => (if isLineEnd c then '\n' else c) :: unifyLineEnds rest

end DeferredOps.Text
