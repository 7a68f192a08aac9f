import DeferredOps.Path.Basic
import Mathlib.Data.Nat.Notation

/-!
# How long the text of a path is

A name adds its own bytes and one for the slash before it. So a path is no shorter than the paths on its
way, except where these are as short as an anchor alone.
-/

namespace DeferredOps.Path

variable {p q : Path} {names : List String}

/-- The bytes of names, each with a slash. -/
def namesSize : List String → ℕ
  | [] => 0
  | name :: names => name.utf8ByteSize + 1 + namesSize names

@[simp]
theorem namesSize_nil : namesSize [] = 0 := rfl

@[simp]
theorem namesSize_cons (name : String) (names : List String) :
    namesSize (name :: names) = name.utf8ByteSize + 1 + namesSize names := rfl

@[simp]
theorem namesSize_append (front back : List String) :
    namesSize (front ++ back) = namesSize front + namesSize back := by
  induction front with
  | nil => simp
  | cons name front ih => simp [ih, Nat.add_assoc]

theorem namesSize_replicate (name : String) (count : ℕ) :
    namesSize (List.replicate count name) = count * (name.utf8ByteSize + 1) := by
  induction count with
  | zero => simp
  | succ count ih => rw [List.replicate_succ, namesSize_cons, ih, Nat.succ_mul, Nat.add_comm]

theorem size_intercalate (name : String) (names : List String) :
    ("/".intercalate (name :: names)).utf8ByteSize + 1 = namesSize (name :: names) := by
  induction names generalizing name with
  | nil => simp
  | cons second names ih =>
    have hslash : "/".utf8ByteSize = 1 := rfl
    have hrest := ih second
    rw [namesSize_cons, ← hrest]
    simp only [String.intercalate_cons_cons, String.utf8ByteSize_append, hslash]
    omega

/-- The text of a path with names. -/
theorem size_text (h : p.parts ≠ []) :
    p.text.utf8ByteSize + 1 = (anchorText p.anchor).utf8ByteSize + namesSize p.parts := by
  obtain ⟨name, names, hparts⟩ := List.exists_cons_of_ne_nil h
  have hnames := size_intercalate name names
  unfold text
  simp only [hparts, List.isEmpty_cons, Bool.and_false, Bool.false_eq_true, if_false,
    String.utf8ByteSize_append]
  omega

/-- The text of an anchor alone. -/
theorem size_text_le (h : p.parts = []) : p.text.utf8ByteSize ≤ 2 := by
  unfold text
  rcases p with ⟨_ | _ | _, parts⟩ <;> simp_all [anchorText] <;> decide

/-- A path is no longer than one that goes on from it. -/
theorem size_text_mono (hanchor : p.anchor = q.anchor) (hparts : p.parts <+: q.parts) :
    p.text.utf8ByteSize ≤ max 2 q.text.utf8ByteSize := by
  by_cases hnil : p.parts = []
  · have hshort := size_text_le hnil
    omega
  · obtain ⟨rest, hrest⟩ := hparts
    have hq : q.parts ≠ [] := by
      rintro h
      simp_all
    have hp := size_text hnil
    have hlonger := size_text hq
    rw [← hanchor, ← hrest, namesSize_append] at hlonger
    omega

/-- A name adds at most its own bytes and a slash. -/
theorem size_text_child (p : Path) (name : String) :
    (p.child name).text.utf8ByteSize ≤ p.text.utf8ByteSize + name.utf8ByteSize + 1 := by
  have hchild := size_text (p := p.child name) (by simp [child])
  simp only [child, namesSize_append, namesSize_cons, namesSize_nil] at hchild
  by_cases hnil : p.parts = []
  · have hanchor : (anchorText p.anchor).utf8ByteSize ≤ p.text.utf8ByteSize := by
      unfold text
      rcases p with ⟨_ | _ | _, parts⟩ <;> simp_all [anchorText]
    rw [hnil, namesSize_nil] at hchild
    simp only [child, hnil] at hchild ⊢
    omega
  · have hp := size_text hnil
    simp only [child] at hchild ⊢
    omega

end DeferredOps.Path
