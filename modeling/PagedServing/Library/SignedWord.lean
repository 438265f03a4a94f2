import Mathlib

/-! # Signed thirty-two bit sums

A sum that leaves the range either stops the program or wraps, as the build decides.
-/

/-- What a build does with a sum out of range. -/
inductive OverflowMode where
  | checked
  | wrapping
  deriving DecidableEq

namespace SignedWord

/-- `a + b` on `i32`; `none` is the panic of a checked build. -/
def add (mode : OverflowMode) (a b : Int32) : Option Int32 :=
  if mode = .checked ∧ (a + b).toInt ≠ a.toInt + b.toInt then none else some (a + b)

variable {mode : OverflowMode} {a b : Int32}

theorem toInt_max (a b : Int32) : (max a b).toInt = max a.toInt b.toInt := by
  change (if a ≤ b then b else a).toInt = _
  simp only [Int32.le_iff_toInt_le]
  split <;> omega

theorem toInt_min (a b : Int32) : (min a b).toInt = min a.toInt b.toInt := by
  change (if a ≤ b then a else b).toInt = _
  simp only [Int32.le_iff_toInt_le]
  split <;> omega

theorem toInt_add_of_lt (h : 0 ≤ a.toInt + b.toInt) (hlt : a.toInt + b.toInt < 2 ^ 31) :
    (a + b).toInt = a.toInt + b.toInt := by
  rw [Int32.toInt_add, Int.bmod_def]
  split <;> omega

/-- Above the range a sum wraps to a negative number. -/
theorem toInt_add_of_le (hle : 2 ^ 31 ≤ a.toInt + b.toInt) :
    (a + b).toInt = a.toInt + b.toInt - 2 ^ 32 := by
  have ha := a.toInt_lt
  have hb := b.toInt_lt
  rw [Int32.toInt_add, Int.bmod_def]
  split <;> omega

theorem add_of_lt (h : 0 ≤ a.toInt + b.toInt) (hlt : a.toInt + b.toInt < 2 ^ 31) :
    add mode a b = some (a + b) := by
  rw [add, if_neg fun hbad => hbad.2 (toInt_add_of_lt h hlt)]

theorem add_checked_of_le (hle : 2 ^ 31 ≤ a.toInt + b.toInt) : add .checked a b = none := by
  rw [add, if_pos ⟨rfl, by rw [toInt_add_of_le hle]; omega⟩]

@[simp] theorem add_wrapping (a b : Int32) : add .wrapping a b = some (a + b) := by
  simp [add]

end SignedWord
