import Mathlib

/-! # Thirty-two bit counters over the naturals

Unsigned quantities are kept as natural numbers; the three places where the
width is observable (a narrowing cast, a saturating sum, a rounded-up quotient)
are the operations below. The quotient itself is Mathlib's `⌈/⌉`.
-/

namespace FixedWidth

def u32Max : Nat := 2 ^ 32 - 1

/-- `n as u32`: a narrowing cast keeps the low thirty-two bits. -/
def asU32 (n : Nat) : Nat := n % 2 ^ 32

/-- `u32::try_from(n).unwrap_or(u32::MAX)`. -/
def clampU32 (n : Nat) : Nat := min n u32Max

/-- `a.saturating_add(b)` on `u32`. -/
def saturatingAdd (a b : Nat) : Nat := min (a + b) u32Max

@[simp] theorem asU32_zero : asU32 0 = 0 := rfl

theorem asU32_of_lt {n : Nat} (h : n < 2 ^ 32) : asU32 n = n := Nat.mod_eq_of_lt h

theorem asU32_le (n : Nat) : asU32 n ≤ n := Nat.mod_le n _

theorem clampU32_of_lt {n : Nat} (h : n < 2 ^ 32) : clampU32 n = n := by
  unfold clampU32 u32Max
  omega

theorem saturatingAdd_of_lt {a b : Nat} (h : a + b < 2 ^ 32) : saturatingAdd a b = a + b := by
  unfold saturatingAdd u32Max
  omega

theorem saturatingAdd_le (a b : Nat) : saturatingAdd a b ≤ u32Max := Nat.min_le_right _ _

theorem le_saturatingAdd_left {a b : Nat} (h : a ≤ u32Max) : a ≤ saturatingAdd a b := by
  unfold saturatingAdd
  omega

/-! ## Rounded-up quotients -/

theorem ceilDiv_le_iff {n d k : Nat} (hd : 0 < d) : n ⌈/⌉ d ≤ k ↔ n ≤ d * k :=
  ceilDiv_le_iff_le_mul hd

theorem lt_ceilDiv_iff {n d k : Nat} (hd : 0 < d) : k < n ⌈/⌉ d ↔ d * k < n := by
  rw [← not_le, ceilDiv_le_iff hd, not_le]

theorem ceilDiv_mono {m n d : Nat} (hd : 0 < d) (h : m ≤ n) : m ⌈/⌉ d ≤ n ⌈/⌉ d :=
  (ceilDiv_le_iff hd).2 (h.trans ((ceilDiv_le_iff hd).1 le_rfl))

/-- One more unit needs at most one more container. -/
theorem ceilDiv_succ_le {n d : Nat} (hd : 0 < d) : (n + 1) ⌈/⌉ d ≤ n ⌈/⌉ d + 1 := by
  have hn := (ceilDiv_le_iff hd).1 (le_refl (n ⌈/⌉ d))
  rw [ceilDiv_le_iff hd, Nat.mul_add]
  omega

theorem ceilDiv_pos {n d : Nat} (hd : 0 < d) (hn : 0 < n) : 0 < n ⌈/⌉ d := by
  rw [lt_ceilDiv_iff hd]
  omega

theorem ceilDiv_le_self {n d : Nat} (hd : 0 < d) : n ⌈/⌉ d ≤ n := by
  rw [ceilDiv_le_iff hd]
  exact Nat.le_mul_of_pos_left n hd

/-- A position below the count falls into one of the counted containers. -/
theorem div_lt_ceilDiv {i n d : Nat} (hd : 0 < d) (h : i < n) : i / d < n ⌈/⌉ d := by
  rw [lt_ceilDiv_iff hd]
  exact (Nat.mul_div_le i d).trans_lt h

end FixedWidth
