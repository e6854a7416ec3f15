import Mathlib.Algebra.Order.Field.Power
import Mathlib.Data.Int.Log
import Mathlib.Data.Rat.Floor
import Mathlib.Tactic.FieldSimp
import Mathlib.Tactic.Linarith
import Mathlib.Tactic.Ring

/-!
# Rounding to a number of binary digits

`nearest p x` is the number of `p` binary digits that is nearest to `x`, and of two such
numbers the one with the even last digit.  This is the rounding of a binary floating-point
format as long as the exponent stays in its range.  Only numbers from 0 on are treated.

The rounding is monotone and leaves the naturals below `2 ^ p` as they are, so that a bound
by such a natural is a bound after rounding; and it makes a number larger by one part in
`2 ^ p` at most.
-/

namespace Rounding

/-- The nearest integer, and the even one of two. -/
def nearestInt (x : ℚ) : ℤ :=
  if x - ⌊x⌋ < 1 / 2 ∨ x - ⌊x⌋ = 1 / 2 ∧ Even ⌊x⌋ then ⌊x⌋ else ⌊x⌋ + 1

/-- The distance between the numbers of `p` binary digits that have the magnitude of `x`. -/
def spacing (p : Nat) (x : ℚ) : ℚ := 2 ^ (Int.log 2 x + 1 - p)

def nearest (p : Nat) (x : ℚ) : ℚ := nearestInt (x / spacing p x) * spacing p x

variable {p n : Nat} {x y : ℚ} {k : ℤ}

/-! ### Integers -/

theorem floor_le_nearestInt (x : ℚ) : ⌊x⌋ ≤ nearestInt x := by
  unfold nearestInt
  split <;> omega

theorem nearestInt_le_floor (x : ℚ) : nearestInt x ≤ ⌊x⌋ + 1 := by
  unfold nearestInt
  split <;> omega

theorem nearestInt_intCast (k : ℤ) : nearestInt k = k := by
  simp [nearestInt]

theorem nearestInt_mono (hxy : x ≤ y) : nearestInt x ≤ nearestInt y := by
  rcases Int.lt_or_eq_of_le (Int.floor_mono hxy) with hlt | heq
  · have hx := nearestInt_le_floor x
    have hy := floor_le_nearestInt y
    omega
  · unfold nearestInt
    rw [heq]
    -- in one interval between integers, `y` is rounded up if `x` is
    by_cases hy : y - ⌊y⌋ < 1 / 2 ∨ y - ⌊y⌋ = 1 / 2 ∧ Even ⌊y⌋
    · have hx : x - ⌊y⌋ < 1 / 2 ∨ x - ⌊y⌋ = 1 / 2 ∧ Even ⌊y⌋ := by
        rcases lt_or_eq_of_le hxy with hless | rfl
        · left
          rcases hy with hy | ⟨hy, _⟩ <;> linarith
        · exact hy
      rw [if_pos hx, if_pos hy]
    · rw [if_neg hy]
      split <;> omega

theorem nearestInt_le_add_half (x : ℚ) : (nearestInt x : ℚ) ≤ x + 1 / 2 := by
  have hlower := Int.floor_le x
  unfold nearestInt
  split
  · linarith
  · next hup =>
    rw [not_or, not_lt] at hup
    push_cast
    linarith [hup.1]

/-! ### Numbers of `p` digits -/

theorem spacing_pos (p : Nat) (x : ℚ) : 0 < spacing p x := zpow_pos (by norm_num) _

theorem nearest_zero (p : Nat) : nearest p 0 = 0 := by
  have hzero : nearestInt 0 = 0 := nearestInt_intCast 0
  simp [nearest, hzero]

/-- A multiple of the spacing is not rounded. -/
theorem nearest_of_mul (hx : x = k * spacing p x) : nearest p x = x := by
  have hquot : x / spacing p x = k := by
    rw [div_eq_iff (spacing_pos p x).ne']
    exact hx
  rw [nearest, hquot, nearestInt_intCast, ← hx]

/-- The powers of two around a number are numbers of `p` digits on both sides of it. -/
theorem zpow_log_le_nearest (hp : 0 < p) (hx : 0 < x) : 2 ^ Int.log 2 x ≤ nearest p x := by
  have hsplit : (2 : ℚ) ^ Int.log 2 x = ((2 ^ (p - 1) : ℕ) : ℤ) * spacing p x := by
    rw [spacing]
    push_cast
    rw [← zpow_natCast, ← zpow_add₀ (by norm_num)]
    congr 1
    omega
  have hle : ((2 ^ (p - 1) : ℕ) : ℤ) ≤ nearestInt (x / spacing p x) := by
    rw [← nearestInt_intCast ((2 ^ (p - 1) : ℕ) : ℤ)]
    refine nearestInt_mono ((le_div_iff₀ (spacing_pos p x)).mpr ?_)
    rw [← hsplit]
    exact Int.zpow_log_le_self (by norm_num) hx
  rw [hsplit, nearest]
  exact mul_le_mul_of_nonneg_right (by exact_mod_cast hle) (spacing_pos p x).le

theorem nearest_le_zpow_succ_log (p : Nat) (x : ℚ) : nearest p x ≤ 2 ^ (Int.log 2 x + 1) := by
  have hsplit : (2 : ℚ) ^ (Int.log 2 x + 1) = ((2 ^ p : ℕ) : ℤ) * spacing p x := by
    rw [spacing]
    push_cast
    rw [← zpow_natCast, ← zpow_add₀ (by norm_num)]
    congr 1
    omega
  have hle : nearestInt (x / spacing p x) ≤ ((2 ^ p : ℕ) : ℤ) := by
    rw [← nearestInt_intCast ((2 ^ p : ℕ) : ℤ)]
    refine nearestInt_mono ((div_le_iff₀ (spacing_pos p x)).mpr ?_)
    rw [← hsplit]
    exact (Int.lt_zpow_succ_log_self (by norm_num) x).le
  rw [hsplit, nearest]
  exact mul_le_mul_of_nonneg_right (by exact_mod_cast hle) (spacing_pos p x).le

theorem nearest_nonneg (p : Nat) (hx : 0 ≤ x) : 0 ≤ nearest p x := by
  have hle := floor_le_nearestInt (x / spacing p x)
  have hfloor : 0 ≤ ⌊x / spacing p x⌋ := Int.floor_nonneg.mpr (div_nonneg hx (spacing_pos p x).le)
  exact mul_nonneg (by exact_mod_cast hfloor.trans hle) (spacing_pos p x).le

theorem nearest_mono (hp : 0 < p) (hx : 0 ≤ x) (hxy : x ≤ y) : nearest p x ≤ nearest p y := by
  rcases hx.eq_or_lt with rfl | hpos
  · rw [nearest_zero]
    exact nearest_nonneg p hxy
  · rcases Int.lt_or_eq_of_le (Int.log_mono_right (b := 2) hpos hxy) with hlt | heq
    · -- a power of two lies between them
      have hpow : (2 : ℚ) ^ (Int.log 2 x + 1) ≤ 2 ^ Int.log 2 y :=
        zpow_le_zpow_right₀ (by norm_num) hlt
      exact (nearest_le_zpow_succ_log p x).trans
        (hpow.trans (zpow_log_le_nearest hp (hpos.trans_le hxy)))
    · have hsame : spacing p x = spacing p y := by rw [spacing, spacing, heq]
      have hle := nearestInt_mono (div_le_div_of_nonneg_right hxy (spacing_pos p y).le)
      rw [nearest, nearest, hsame]
      exact mul_le_mul_of_nonneg_right (by exact_mod_cast hle) (spacing_pos p y).le

/-- The naturals of at most `p` digits. -/
theorem nearest_natCast (hn : n < 2 ^ p) : nearest p (n : ℚ) = n := by
  rcases Nat.eq_zero_or_pos n with rfl | hpos
  · simpa using nearest_zero p
  · have hlog : Nat.log 2 n < p := Nat.log_lt_of_lt_pow hpos.ne' hn
    refine nearest_of_mul (k := ((n * 2 ^ (p - 1 - Nat.log 2 n) : ℕ) : ℤ)) ?_
    rw [spacing, Int.log_natCast]
    push_cast
    rw [mul_assoc, ← zpow_natCast, ← zpow_add₀ (by norm_num)]
    have hexponent : ((p - 1 - Nat.log 2 n : ℕ) : ℤ) + (Nat.log 2 n + 1 - p) = 0 := by omega
    rw [hexponent, zpow_zero, mul_one]

/-- The rounding makes a number larger by one part in `2 ^ p` at most. -/
theorem nearest_le_mul (p : Nat) (hx : 0 ≤ x) : nearest p x ≤ x * (1 + 1 / 2 ^ p) := by
  rcases hx.eq_or_lt with rfl | hpos
  · simp [nearest_zero]
  · have hlog : (2 : ℚ) ^ Int.log 2 x ≤ x := Int.zpow_log_le_self (by norm_num) hpos
    have hspacing : spacing p x = 2 * 2 ^ Int.log 2 x / 2 ^ p := by
      rw [spacing, zpow_sub₀ (by norm_num), zpow_add₀ (by norm_num), zpow_natCast, zpow_one]
      ring
    have hround := nearestInt_le_add_half (x / spacing p x)
    calc nearest p x ≤ (x / spacing p x + 1 / 2) * spacing p x :=
          mul_le_mul_of_nonneg_right hround (spacing_pos p x).le
      _ = x + spacing p x / 2 := by
          rw [add_mul, div_mul_cancel₀ x (spacing_pos p x).ne']
          ring
      _ = x + 2 ^ Int.log 2 x * (1 / 2 ^ p) := by
          rw [hspacing]
          ring
      _ ≤ x + x * (1 / 2 ^ p) := by
          have hpart : (0 : ℚ) ≤ 1 / 2 ^ p := by positivity
          exact add_le_add_right (mul_le_mul_of_nonneg_right hlog hpart) x
      _ = x * (1 + 1 / 2 ^ p) := by ring

end Rounding
