import Mathlib

/-! # Single-precision arithmetic over exact rationals

A finite datum is the rational it denotes, but for the negative zero. Every operation
computes exactly and rounds once to a 24-bit significand, to nearest with ties to even. The
exponent range of results is not bounded: no quantity below leaves the normal range of the
format unless a comparison or a truncation gives the same answer on both sides of it. What is
read back from decimal text may be subnormal.
-/

namespace Binary32

/-- Nearest integer, ties to even. -/
def roundHalfEven (q : ℚ) : ℤ :=
  let f := ⌊q⌋
  let d := q - f
  if d < 1 / 2 then f
  else if 1 / 2 < d then f + 1
  else if f % 2 = 0 then f else f + 1

@[simp] theorem roundHalfEven_intCast (z : ℤ) : roundHalfEven z = z := by
  simp [roundHalfEven]

theorem roundHalfEven_bounds (q : ℚ) : ⌊q⌋ ≤ roundHalfEven q ∧ roundHalfEven q ≤ ⌊q⌋ + 1 := by
  unfold roundHalfEven
  dsimp only
  split_ifs <;> omega

theorem roundHalfEven_mono {p q : ℚ} (h : p ≤ q) : roundHalfEven p ≤ roundHalfEven q := by
  obtain hlt | heq := (Int.floor_le_floor h).lt_or_eq
  · have hp := (roundHalfEven_bounds p).2
    have hq := (roundHalfEven_bounds q).1
    omega
  · -- equal floors: the fractional parts decide, and they are ordered as `p ≤ q`
    unfold roundHalfEven
    dsimp only
    rw [heq]
    have hd : p - (⌊q⌋ : ℚ) ≤ q - ⌊q⌋ := by linarith
    split_ifs <;> first | omega | (exfalso; linarith)

/-- Position of the leading binary digit of a non-zero rational. -/
def binaryExponent (q : ℚ) : ℤ :=
  let k : ℤ := (Nat.log2 q.num.natAbs : ℤ) - (Nat.log2 q.den : ℤ)
  if (2 : ℚ) ^ k ≤ |q| then k else k - 1

private theorem abs_eq_natAbs_div (q : ℚ) : |q| = (q.num.natAbs : ℚ) / q.den := by
  rw [Nat.cast_natAbs, Int.cast_abs, ← Nat.abs_cast q.den, ← abs_div, Rat.num_div_den]

private theorem log2_span {n : ℕ} (hn : n ≠ 0) :
    (2 : ℚ) ^ (Nat.log2 n : ℤ) ≤ n ∧ (n : ℚ) < 2 ^ ((Nat.log2 n : ℤ) + 1) := by
  constructor
  · exact_mod_cast Nat.log2_self_le hn
  · exact_mod_cast Nat.lt_log2_self (n := n)

/-- The leading digit position brackets the magnitude between two powers. -/
theorem binaryExponent_spec {q : ℚ} (hq : q ≠ 0) :
    (2 : ℚ) ^ binaryExponent q ≤ |q| ∧ |q| < 2 ^ (binaryExponent q + 1) := by
  have hnum : q.num.natAbs ≠ 0 := by simpa using hq
  obtain ⟨hn, hn'⟩ := log2_span hnum
  obtain ⟨hd, hd'⟩ := log2_span q.den_nz
  have hden : (0 : ℚ) < q.den := by exact_mod_cast q.den_pos
  have upper : |q| < 2 ^ ((Nat.log2 q.num.natAbs : ℤ) - Nat.log2 q.den + 1) := by
    rw [abs_eq_natAbs_div, div_lt_iff₀ hden]
    calc (q.num.natAbs : ℚ) < 2 ^ ((Nat.log2 q.num.natAbs : ℤ) + 1) := hn'
      _ = 2 ^ ((Nat.log2 q.num.natAbs : ℤ) - Nat.log2 q.den + 1) * 2 ^ (Nat.log2 q.den : ℤ) := by
          rw [← zpow_add₀ (by norm_num : (2 : ℚ) ≠ 0)]
          congr 1
          ring
      _ ≤ _ := by gcongr
  have lower : (2 : ℚ) ^ ((Nat.log2 q.num.natAbs : ℤ) - Nat.log2 q.den - 1) ≤ |q| := by
    rw [abs_eq_natAbs_div, le_div_iff₀ hden]
    calc (2 : ℚ) ^ ((Nat.log2 q.num.natAbs : ℤ) - Nat.log2 q.den - 1) * q.den
        ≤ 2 ^ ((Nat.log2 q.num.natAbs : ℤ) - Nat.log2 q.den - 1) *
            2 ^ ((Nat.log2 q.den : ℤ) + 1) := by gcongr
      _ = 2 ^ (Nat.log2 q.num.natAbs : ℤ) := by
          rw [← zpow_add₀ (by norm_num : (2 : ℚ) ≠ 0)]
          congr 1
          ring
      _ ≤ _ := hn
  unfold binaryExponent
  dsimp only
  split_ifs with h
  · exact ⟨h, upper⟩
  · exact ⟨lower, by simpa using h⟩

/-- Round to a 24-bit significand. -/
def nearest (q : ℚ) : ℚ :=
  if q = 0 then 0
  else
    let ulp : ℚ := 2 ^ (binaryExponent q - 23)
    roundHalfEven (q / ulp) * ulp

/-- The values with a 24-bit significand, of any exponent. -/
def Representable (q : ℚ) : Prop :=
  ∃ (m : ℤ) (e : ℤ), |m| ≤ 2 ^ 24 ∧ q = m * 2 ^ e

private theorem ulp_pos (e : ℤ) : (0 : ℚ) < 2 ^ e := zpow_pos (by norm_num) e

private theorem scaled_bounds {q : ℚ} (hq : 0 < q) :
    (2 : ℚ) ^ 23 ≤ q / 2 ^ (binaryExponent q - 23) ∧
      q / 2 ^ (binaryExponent q - 23) < 2 ^ 24 := by
  obtain ⟨hl, hu⟩ := binaryExponent_spec hq.ne'
  rw [abs_of_pos hq] at hl hu
  constructor
  · rw [le_div_iff₀ (ulp_pos _)]
    calc (2 : ℚ) ^ 23 * 2 ^ (binaryExponent q - 23) = 2 ^ binaryExponent q := by
          rw [← zpow_natCast, ← zpow_add₀ (by norm_num : (2 : ℚ) ≠ 0)]
          congr 1
          push_cast
          ring
      _ ≤ q := hl
  · rw [div_lt_iff₀ (ulp_pos _)]
    calc q < 2 ^ (binaryExponent q + 1) := hu
      _ = 2 ^ 24 * 2 ^ (binaryExponent q - 23) := by
          rw [← zpow_natCast, ← zpow_add₀ (by norm_num : (2 : ℚ) ≠ 0)]
          congr 1
          push_cast
          ring

private theorem roundHalfEven_span {x : ℚ} (hl : (2 : ℚ) ^ 23 ≤ x) (hu : x < 2 ^ 24) :
    2 ^ 23 ≤ roundHalfEven x ∧ roundHalfEven x ≤ 2 ^ 24 := by
  have h1 := roundHalfEven_mono hl
  have h2 := roundHalfEven_mono hu.le
  rw [show ((2 : ℚ) ^ 23) = ((2 ^ 23 : ℤ) : ℚ) by norm_num, roundHalfEven_intCast] at h1
  rw [show ((2 : ℚ) ^ 24) = ((2 ^ 24 : ℤ) : ℚ) by norm_num, roundHalfEven_intCast] at h2
  exact ⟨h1, h2⟩

/-- A positive value rounds into the closed binade it lies in. -/
private theorem nearest_span {q : ℚ} (hq : 0 < q) :
    (2 : ℚ) ^ binaryExponent q ≤ nearest q ∧ nearest q ≤ 2 ^ (binaryExponent q + 1) := by
  obtain ⟨hl, hu⟩ := scaled_bounds hq
  obtain ⟨rl, ru⟩ := roundHalfEven_span hl hu
  have hulp := ulp_pos (binaryExponent q - 23)
  have e1 : (2 : ℚ) ^ binaryExponent q = 2 ^ 23 * 2 ^ (binaryExponent q - 23) := by
    rw [← zpow_natCast, ← zpow_add₀ (by norm_num : (2 : ℚ) ≠ 0)]
    congr 1
    push_cast
    ring
  have e2 : (2 : ℚ) ^ (binaryExponent q + 1) = 2 ^ 24 * 2 ^ (binaryExponent q - 23) := by
    rw [← zpow_natCast, ← zpow_add₀ (by norm_num : (2 : ℚ) ≠ 0)]
    congr 1
    push_cast
    ring
  simp only [nearest, if_neg hq.ne']
  rw [e1, e2]
  constructor
  · exact mul_le_mul_of_nonneg_right (by exact_mod_cast rl) hulp.le
  · exact mul_le_mul_of_nonneg_right (by exact_mod_cast ru) hulp.le

@[simp] theorem nearest_zero : nearest 0 = 0 := by simp [nearest]

theorem nearest_nonneg {q : ℚ} (hq : 0 ≤ q) : 0 ≤ nearest q := by
  rcases hq.eq_or_lt with rfl | hq
  · simp
  · exact (ulp_pos _).le.trans (nearest_span hq).1

private theorem binaryExponent_mono {p q : ℚ} (hp : 0 < p) (h : p ≤ q) :
    binaryExponent p ≤ binaryExponent q := by
  have hq := hp.trans_le h
  have hl := (binaryExponent_spec hp.ne').1
  have hu := (binaryExponent_spec hq.ne').2
  rw [abs_of_pos hp] at hl
  rw [abs_of_pos hq] at hu
  have : (2 : ℚ) ^ binaryExponent p < 2 ^ (binaryExponent q + 1) := hl.trans_lt (h.trans_lt hu)
  have := (zpow_lt_zpow_iff_right₀ (by norm_num : (1 : ℚ) < 2)).1 this
  omega

theorem nearest_mono {p q : ℚ} (hp : 0 ≤ p) (h : p ≤ q) : nearest p ≤ nearest q := by
  rcases hp.eq_or_lt with rfl | hp
  · simpa using nearest_nonneg h
  have hq := hp.trans_le h
  rcases (binaryExponent_mono hp h).lt_or_eq with hlt | heq
  · calc nearest p ≤ 2 ^ (binaryExponent p + 1) := (nearest_span hp).2
      _ ≤ 2 ^ binaryExponent q := zpow_le_zpow_right₀ (by norm_num) (by omega)
      _ ≤ nearest q := (nearest_span hq).1
  · simp only [nearest, if_neg hp.ne', if_neg hq.ne', heq]
    have hulp := ulp_pos (binaryExponent q - 23)
    apply mul_le_mul_of_nonneg_right _ hulp.le
    exact_mod_cast roundHalfEven_mono (div_le_div_of_nonneg_right h hulp.le)

/-- Values of the format are fixed by rounding. -/
theorem nearest_of_representable {q : ℚ} (h : Representable q) : nearest q = q := by
  obtain ⟨m, e, hm, rfl⟩ := h
  by_cases hq : (m : ℚ) * 2 ^ e = 0
  · simp [hq]
  obtain ⟨hl, -⟩ := binaryExponent_spec hq
  set s := binaryExponent ((m : ℚ) * 2 ^ e) - 23 with hs
  have habs : |(m : ℚ) * 2 ^ e| = ((|m| : ℤ) : ℚ) * 2 ^ e := by
    rw [abs_mul, abs_of_pos (ulp_pos e), Int.cast_abs]
  -- the significand scaled to the unit in the last place is an integer
  have hint : ∃ z : ℤ, (m : ℚ) * 2 ^ e / 2 ^ s = z := by
    have htwo : (2 : ℚ) ≠ 0 := by norm_num
    rw [mul_div_assoc, ← zpow_sub₀ htwo]
    rcases le_or_gt s e with hse | hse
    · refine ⟨m * 2 ^ (e - s).toNat, ?_⟩
      push_cast
      rw [← zpow_natCast, Int.toNat_of_nonneg (by omega)]
    · have hlow : (2 : ℚ) ^ (e + 24) ≤ ((|m| : ℤ) : ℚ) * 2 ^ e := by
        rw [← habs]
        exact (zpow_le_zpow_right₀ (by norm_num) (by omega)).trans hl
      have hup : ((|m| : ℤ) : ℚ) * 2 ^ e ≤ 2 ^ (24 : ℤ) * 2 ^ e := by
        apply mul_le_mul_of_nonneg_right _ (ulp_pos e).le
        exact_mod_cast hm
      have hmax : |m| = 2 ^ 24 := by
        apply le_antisymm hm
        have : (2 : ℚ) ^ (24 : ℤ) * 2 ^ e ≤ ((|m| : ℤ) : ℚ) * 2 ^ e := by
          rwa [← zpow_add₀ htwo, add_comm]
        exact_mod_cast le_of_mul_le_mul_right this (ulp_pos e)
      have hs1 : s = e + 1 := by
        have : (2 : ℚ) ^ binaryExponent ((m : ℚ) * 2 ^ e) ≤ 2 ^ (24 + e) := by
          rw [zpow_add₀ htwo]
          exact hl.trans (habs ▸ hup)
        have := (zpow_le_zpow_iff_right₀ (by norm_num : (1 : ℚ) < 2)).1 this
        omega
      rw [hs1, show e - (e + 1) = -1 by ring]
      rcases abs_choice m with hc | hc
      · exact ⟨2 ^ 23, by rw [← hc, hmax]; norm_num⟩
      · exact ⟨-2 ^ 23, by rw [← neg_neg m, ← hc, hmax]; norm_num⟩
  obtain ⟨z, hz⟩ := hint
  simp only [nearest, if_neg hq, ← hs, hz, roundHalfEven_intCast]
  rw [← hz]
  exact div_mul_cancel₀ _ (ulp_pos s).ne'

theorem representable_nearest {q : ℚ} (hq : 0 ≤ q) : Representable (nearest q) := by
  rcases hq.eq_or_lt with rfl | hq
  · exact ⟨0, 0, by norm_num, by simp⟩
  obtain ⟨hl, hu⟩ := scaled_bounds hq
  obtain ⟨rl, ru⟩ := roundHalfEven_span hl hu
  refine ⟨roundHalfEven (q / 2 ^ (binaryExponent q - 23)), binaryExponent q - 23, ?_, ?_⟩
  · rw [abs_of_nonneg (le_trans (by norm_num) rl)]
    exact ru
  · simp [nearest, hq.ne']

theorem representable_floor {q : ℚ} (h : Representable q) (hq : 0 ≤ q) :
    Representable (⌊q⌋ : ℤ) := by
  obtain ⟨m, e, hm, rfl⟩ := h
  rcases le_or_gt 0 e with he | he
  · have hz : (m : ℚ) * 2 ^ e = ((m * 2 ^ e.toNat : ℤ) : ℚ) := by
      push_cast
      rw [← zpow_natCast, Int.toNat_of_nonneg he]
    rw [hz, Int.floor_intCast, ← hz]
    exact ⟨m, e, hm, rfl⟩
  · refine ⟨⌊(m : ℚ) * 2 ^ e⌋, 0, ?_, by simp⟩
    rw [abs_of_nonneg (Int.floor_nonneg.2 hq)]
    have hle : (m : ℚ) * 2 ^ e ≤ ((2 ^ 24 : ℤ) : ℚ) := by
      have h1 : (2 : ℚ) ^ e ≤ 1 := zpow_le_one_of_nonpos₀ (by norm_num) he.le
      have h2 : (m : ℚ) ≤ ((2 ^ 24 : ℤ) : ℚ) := by exact_mod_cast (le_abs_self m).trans hm
      calc (m : ℚ) * 2 ^ e ≤ ((2 ^ 24 : ℤ) : ℚ) * 2 ^ e :=
            mul_le_mul_of_nonneg_right h2 (ulp_pos e).le
        _ ≤ ((2 ^ 24 : ℤ) : ℚ) * 1 := by gcongr
        _ = _ := mul_one _
    exact_mod_cast (Int.floor_le _).trans hle

theorem nearest_natCast_pos {n : ℕ} (h : 0 < n) : 0 < nearest (n : ℚ) := by
  have hone : nearest 1 = 1 := by decide +kernel
  have hle : (1 : ℚ) ≤ n := by exact_mod_cast h
  exact zero_lt_one.trans_le (hone ▸ nearest_mono zero_le_one hle)

end Binary32

/-- An `f32`: not a number, a signed infinity, the negative zero, or a finite value, of which
`0` is the positive zero. -/
inductive F32 where
  | nan
  | infinity (negative : Bool)
  | negZero
  | finite (value : ℚ)
  deriving DecidableEq

namespace F32

open Binary32

instance : Inhabited F32 := ⟨.finite 0⟩

/-- `n as f32`. -/
def ofNat (n : Nat) : F32 := .finite (nearest n)

def isFinite : F32 → Bool
  | .finite _ | .negZero => true
  | _ => false

/-- The sign bit. -/
def isNegative : F32 → Bool
  | .nan => false
  | .infinity negative => negative
  | .negZero => true
  | .finite q => decide (q < 0)

def zero (negative : Bool) : F32 := if negative then .negZero else .finite 0

def mul (x y : F32) : F32 :=
  let negative := x.isNegative != y.isNegative
  match x, y with
  | .finite a, .finite b => if a * b = 0 then zero negative else .finite (nearest (a * b))
  | .negZero, .finite _ | .finite _, .negZero | .negZero, .negZero => zero negative
  | .infinity _, .infinity _ => .infinity negative
  | .infinity _, .finite b | .finite b, .infinity _ => if b = 0 then .nan else .infinity negative
  | _, _ => .nan

def div (x y : F32) : F32 :=
  let negative := x.isNegative != y.isNegative
  match x, y with
  | .finite a, .finite b =>
      if b = 0 then (if a = 0 then .nan else .infinity negative)
      else if a = 0 then zero negative
      else .finite (nearest (a / b))
  | .finite a, .negZero => if a = 0 then .nan else .infinity negative
  | .negZero, .finite b => if b = 0 then .nan else zero negative
  | .infinity _, .finite _ | .infinity _, .negZero => .infinity negative
  | .finite _, .infinity _ | .negZero, .infinity _ => zero negative
  | _, _ => .nan

def floor : F32 → F32
  | .finite q => .finite ⌊q⌋
  | x => x

/-- `a <= b`; every comparison with a NaN is false, and the zeros are equal. -/
def le : F32 → F32 → Bool
  | .finite a, .finite b => decide (a ≤ b)
  | .finite a, .negZero => decide (a ≤ 0)
  | .negZero, .finite b => decide (0 ≤ b)
  | .negZero, .negZero => true
  | .infinity true, .infinity _ => true
  | .infinity false, .infinity t => !t
  | .infinity s, .finite _ | .infinity s, .negZero => s
  | .finite _, .infinity t | .negZero, .infinity t => !t
  | _, _ => false

/-- `a == b`. -/
def eq (x y : F32) : Bool := le x y && le y x

/-- `x as u32`: truncating and saturating, NaN to zero. -/
def toU32 : F32 → Nat
  | .nan | .negZero => 0
  | .infinity true => 0
  | .infinity false => 2 ^ 32 - 1
  | .finite q => min ⌊q⌋.toNat (2 ^ 32 - 1)

/-- Counts and fractions of them have no sign. -/
theorem mul_finite {a b : ℚ} (ha : 0 ≤ a) (hb : 0 ≤ b) :
    mul (.finite a) (.finite b) = .finite (nearest (a * b)) := by
  rw [mul]
  split
  next h => simp [h, zero, isNegative, ha.not_gt, hb.not_gt]
  next => rfl

@[simp] theorem isFinite_iff {x : F32} :
    x.isFinite = true ↔ x = .negZero ∨ ∃ q, x = .finite q := by
  cases x <;> simp [isFinite]

/-- A count below the truncated value of a product is below the product itself,
also after the count has been rounded into the format. -/
theorem ofNat_le_floor_of_le_toU32 {n : Nat} {q : ℚ} (hq : 0 ≤ q)
    (h : n ≤ (F32.floor (.finite (nearest q))).toU32) :
    F32.le (ofNat n) (F32.floor (.finite (nearest q))) = true := by
  have hr := nearest_nonneg hq
  have hf : (0 : ℤ) ≤ ⌊nearest q⌋ := Int.floor_nonneg.2 hr
  have hn : (n : ℚ) ≤ ((⌊nearest q⌋ : ℤ) : ℚ) := by
    simp only [floor, toU32, Int.floor_intCast] at h
    have : (n : ℤ) ≤ ⌊nearest q⌋ := by omega
    exact_mod_cast this
  simp only [ofNat, floor, le, decide_eq_true_eq]
  rw [← nearest_of_representable (representable_floor (representable_nearest hq) hr)]
  exact nearest_mono (Nat.cast_nonneg n) hn

/-- A count below one that passes a bound passes it too. -/
theorem ofNat_le_of_le {m n : Nat} {x : F32} (hmn : m ≤ n) (h : F32.le (ofNat n) x = true) :
    F32.le (ofNat m) x = true := by
  cases x with
  | nan => cases h
  | infinity negative => exact h
  | negZero =>
      simp only [ofNat, le, decide_eq_true_eq] at h ⊢
      exact (nearest_mono (Nat.cast_nonneg m) (by exact_mod_cast hmn)).trans h
  | finite q =>
      simp only [ofNat, le, decide_eq_true_eq] at h ⊢
      exact (nearest_mono (Nat.cast_nonneg m) (by exact_mod_cast hmn)).trans h

theorem nearest_natCast {n : Nat} (h : n ≤ 2 ^ 24) : nearest (n : ℚ) = n :=
  nearest_of_representable ⟨n, 0, by rw [Nat.abs_cast]; exact_mod_cast h, by simp⟩

/-- What passes a fraction of an exact count is no more than the count. -/
theorem le_of_ofNat_le_fraction {m n : Nat} {q : ℚ} (hm : m < 2 ^ 24) (hq0 : 0 ≤ q) (hq1 : q ≤ 1)
    (h : F32.le (ofNat n) ((ofNat m).mul (.finite q)).floor = true) : n ≤ m := by
  by_contra hlt
  have hnext := ofNat_le_of_le (Nat.lt_of_not_le hlt) h
  have hm0 : (0 : ℚ) ≤ m := Nat.cast_nonneg m
  have hfloor : (⌊nearest ((m : ℚ) * q)⌋ : ℚ) ≤ m := by
    refine (Int.floor_le _).trans ?_
    calc nearest ((m : ℚ) * q) ≤ nearest (m : ℚ) :=
          nearest_mono (mul_nonneg hm0 hq0) (mul_le_of_le_one_right hm0 hq1)
      _ = m := nearest_natCast hm.le
  have hmul : (ofNat m).mul (.finite q) = .finite (nearest (nearest m * q)) :=
    mul_finite (nearest_nonneg hm0) hq0
  rw [hmul] at hnext
  simp only [ofNat, floor, le, decide_eq_true_eq, nearest_natCast hm.le,
    nearest_natCast (Nat.succ_le_of_lt hm)] at hnext
  have habsurd := hnext.trans hfloor
  push_cast at habsurd
  linarith

/-! ## Decimal text -/

/-- The datum that a decimal is read as: below the normal range the last place is fixed. -/
def readBack (q : ℚ) : ℚ :=
  if q = 0 then 0
  else
    let ulp : ℚ := 2 ^ max (binaryExponent q - 23) (-149)
    roundHalfEven (q / ulp) * ulp

private def decimalExponent (q : ℚ) : ℤ :=
  (((List.range 90).map fun i => (40 : ℤ) - i).find? fun e => (10 : ℚ) ^ e ≤ q).getD (-50)

/-- Drop trailing decimal zeros behind the point. -/
private def stripZeros : Nat → Nat → ℤ → Nat × ℤ
  | 0, c, x => (c, x)
  | fuel + 1, c, x =>
      if c % 10 = 0 ∧ x < 0 then stripZeros fuel (c / 10) (x + 1) else (c, x)

/-- Fewest decimal digits that are read back as `q`, the nearest such value first. -/
private def shortestDigits (q : ℚ) : Nat × ℤ :=
  let e := decimalExponent q
  let attempt (k : Nat) : Option (Nat × ℤ) :=
    let x := e - k
    let scale : ℚ := 10 ^ x
    let lo := ⌊q / scale⌋.toNat
    let candidates : List Nat := if q / scale - lo ≤ 1 / 2 then [lo, lo + 1] else [lo + 1, lo]
    (candidates.find? fun (c : Nat) => readBack ((c : ℚ) * scale) = q).map
      fun c => stripZeros 12 c x
  ((List.range 9).findSome? attempt).getD (⌊q / 10 ^ (e - 8)⌋.toNat, e - 8)

private def positional (c : Nat) (x : ℤ) : String :=
  let digits := (toString c).toList
  if 0 ≤ x then String.ofList (digits ++ List.replicate x.toNat '0')
  else
    let places := (-x).toNat
    let padded := List.replicate (places + 1 - digits.length) '0' ++ digits
    let whole := padded.length - places
    String.ofList (padded.take whole ++ '.' :: padded.drop whole)

/-- Display text: positional, the shortest decimal that reads back as the value. -/
def display : F32 → String
  | .nan => "NaN"
  | .infinity true => "-inf"
  | .infinity false => "inf"
  | .negZero => "-0"
  | .finite q =>
      if q = 0 then "0"
      else
        let (c, x) := shortestDigits |q|
        (if q < 0 then "-" else "") ++ positional c x

/-- The least subnormal. -/
example : display (.finite (2 ^ (-149 : ℤ))) =
    "0.000000000000000000000000000000000000000000001" := by
  decide +kernel

end F32
