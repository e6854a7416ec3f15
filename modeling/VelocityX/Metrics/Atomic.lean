import Mathlib.Algebra.Order.Field.Basic
import Mathlib.Algebra.Order.Field.Rat
import Mathlib.Tactic.Linarith
import VelocityX.Lib.Rounding
import VelocityX.Lib.Word

/-!
# Performance metrics

`AtomicMetrics` and `PerformanceMetrics` of `src/metrics/mod.rs` in a sequential run.  The
counters are words of 64 bits, and a `fetch_add` wraps around.  A duration is its number of
nanoseconds, which `as_nanos() as u64` truncates.  The rates are `f64`: every operation rounds
its result to 53 binary digits, and the quotients of counters stay within the exponents.
-/

namespace VelocityX.Metrics

structure PerformanceMetrics where
  totalOperations : Nat
  successfulOperations : Nat
  failedOperations : Nat
  contendedOperations : Nat
  avgOperationTimeNs : Nat
  maxOperationTimeNs : Nat
  memoryUsageBytes : Nat
  peakMemoryUsageBytes : Nat
deriving DecidableEq, Repr

namespace PerformanceMetrics

/-- The `f64` nearest to a number. -/
def f64 (x : ℚ) : ℚ := Rounding.nearest 53 x

/-- The percentage that the three rates report of their counter. -/
def percentage (count total : Nat) : ℚ :=
  if total = 0 then 0 else f64 (f64 (f64 count / f64 total) * 100)

def successRate (m : PerformanceMetrics) : ℚ := percentage m.successfulOperations m.totalOperations

def contentionRate (m : PerformanceMetrics) : ℚ :=
  percentage m.contendedOperations m.totalOperations

def failureRate (m : PerformanceMetrics) : ℚ := percentage m.failedOperations m.totalOperations

/-- Every operation that succeeded or failed is among all operations. -/
def Consistent (m : PerformanceMetrics) : Prop :=
  m.successfulOperations + m.failedOperations ≤ m.totalOperations

instance (m : PerformanceMetrics) : Decidable m.Consistent := inferInstanceAs (Decidable (_ ≤ _))

theorem f64_nonneg {x : ℚ} (hx : 0 ≤ x) : 0 ≤ f64 x := Rounding.nearest_nonneg 53 hx

theorem f64_mono {x y : ℚ} (hx : 0 ≤ x) (hxy : x ≤ y) : f64 x ≤ f64 y :=
  Rounding.nearest_mono (by decide) hx hxy

theorem f64_natCast {n : Nat} (hn : n < 2 ^ 53) : f64 n = n := Rounding.nearest_natCast hn

theorem percentage_nonneg (count total : Nat) : 0 ≤ percentage count total := by
  have hcount := f64_nonneg (Nat.cast_nonneg (α := ℚ) count)
  have htotal := f64_nonneg (Nat.cast_nonneg (α := ℚ) total)
  unfold percentage
  split
  · exact le_refl 0
  · exact f64_nonneg (mul_nonneg (f64_nonneg (div_nonneg hcount htotal)) (by norm_num))

theorem percentage_le {count total : Nat} (h : count ≤ total) : percentage count total ≤ 100 := by
  have hone : f64 1 = 1 := by exact_mod_cast f64_natCast (n := 1) (by decide)
  have hundred : f64 100 = 100 := by exact_mod_cast f64_natCast (n := 100) (by decide)
  have hcount := f64_nonneg (Nat.cast_nonneg (α := ℚ) count)
  have hle : f64 count ≤ f64 total := f64_mono (Nat.cast_nonneg _) (by exact_mod_cast h)
  have hquot : f64 count / f64 total ≤ 1 := div_le_one_of_le₀ hle (hcount.trans hle)
  have hpos : 0 ≤ f64 count / f64 total := div_nonneg hcount (hcount.trans hle)
  have hrate : f64 (f64 count / f64 total) ≤ 1 := by
    rw [← hone]
    exact f64_mono hpos hquot
  unfold percentage
  split
  · norm_num
  · refine (f64_mono (mul_nonneg (f64_nonneg hpos) (by norm_num)) ?_).trans hundred.le
    linarith

/-! ### Two rates

Two counters of one total have percentages that add up to 100 at most before they are
rounded.  The rounding may add more than the operations in neither counter have left. -/

/-- The percentage before rounding. -/
def share (count total : Nat) : ℚ := count / total * 100

def roundingError (count total : Nat) : ℚ := percentage count total - share count total

/-- What the rounding adds to the percentages of two counters is covered by the operations that
    are in neither of them. -/
def RoundsWithin (total a b : Nat) : Prop :=
  roundingError a total + roundingError b total ≤ share (total - (a + b)) total

instance (total a b : Nat) : Decidable (RoundsWithin total a b) :=
  inferInstanceAs (Decidable (_ ≤ _))

theorem share_add {total a b : Nat} (h : a + b ≤ total) (htotal : total ≠ 0) :
    share a total + share b total + share (total - (a + b)) total = 100 := by
  have hne : (total : ℚ) ≠ 0 := Nat.cast_ne_zero.mpr htotal
  rw [share, share, share, Nat.cast_sub h, Nat.cast_add, ← add_mul, ← add_mul, ← add_div, ← add_div,
    add_sub_cancel, div_self hne, one_mul]

theorem percentage_add_le_iff {total a b : Nat} (h : a + b ≤ total) :
    percentage a total + percentage b total ≤ 100 ↔ RoundsWithin total a b := by
  rw [RoundsWithin, roundingError, roundingError]
  by_cases htotal : total = 0
  · subst htotal
    simp [percentage, share]
  · have hsum := share_add h htotal
    constructor
    · intro hle
      linarith
    · intro hle
      linarith

/-- The rounding of one counter alone never exceeds 100. -/
theorem roundsWithin_zero {total a : Nat} (h : a ≤ total) : RoundsWithin total a 0 := by
  have hzero : percentage 0 total = 0 := by
    simp [percentage, f64, Rounding.nearest_zero]
  rw [← percentage_add_le_iff (by simpa using h), hzero, add_zero]
  exact percentage_le h

theorem percentage_le_share {count total : Nat} (h : count ≤ total) (htotal : total < 2 ^ 53) :
    percentage count total ≤ share count total * (1 + 1 / 2 ^ 53) ^ 2 := by
  unfold percentage
  split
  · next hzero => simp [share, hzero]
  · have hquot : (0 : ℚ) ≤ count / total := div_nonneg (Nat.cast_nonneg _) (Nat.cast_nonneg _)
    have hrate := Rounding.nearest_le_mul 53 hquot
    rw [f64_natCast (Nat.lt_of_le_of_lt h htotal), f64_natCast htotal]
    refine (Rounding.nearest_le_mul 53 (mul_nonneg (f64_nonneg hquot) (by norm_num))).trans ?_
    calc f64 (count / total) * 100 * (1 + 1 / 2 ^ 53)
        ≤ count / total * (1 + 1 / 2 ^ 53) * 100 * (1 + 1 / 2 ^ 53) := by
          refine mul_le_mul_of_nonneg_right ?_ (by norm_num)
          exact mul_le_mul_of_nonneg_right hrate (by norm_num)
      _ = share count total * (1 + 1 / 2 ^ 53) ^ 2 := by
          rw [share]
          ring

/-- One operation in neither counter covers the rounding of both. -/
theorem roundsWithin_of_lt {total a b : Nat} (h : a + b < total) (htotal : total ≤ 2 ^ 51) :
    RoundsWithin total a b := by
  rw [← percentage_add_le_iff h.le]
  have hlt : total < 2 ^ 53 := Nat.lt_of_le_of_lt htotal (by decide)
  have ha := percentage_le_share (by omega : a ≤ total) hlt
  have hb := percentage_le_share (by omega : b ≤ total) hlt
  have hpos : (0 : ℚ) < total := by exact_mod_cast Nat.zero_lt_of_lt h
  have hsum : share a total + share b total ≤ 100 - 100 / total := by
    have hshares := share_add h.le (Nat.pos_iff_ne_zero.mp (Nat.zero_lt_of_lt h))
    have hrest : (1 : ℚ) ≤ (total - (a + b) : ℕ) := by exact_mod_cast (by omega)
    have hle : 100 / (total : ℚ) ≤ share (total - (a + b)) total := by
      rw [share, div_mul_eq_mul_div]
      exact div_le_div_of_nonneg_right (by linarith) hpos.le
    linarith
  have hinv : (1 : ℚ) / 2 ^ 51 ≤ 1 / total :=
    one_div_le_one_div_of_le hpos (by exact_mod_cast htotal)
  have hscale : (100 : ℚ) / total = 100 * (1 / total) := by ring
  have hgrow : (0 : ℚ) ≤ (1 + 1 / 2 ^ 53) ^ 2 := by positivity
  calc percentage a total + percentage b total
      ≤ (share a total + share b total) * (1 + 1 / 2 ^ 53) ^ 2 := by linarith
    _ ≤ (100 - 100 / total) * (1 + 1 / 2 ^ 53) ^ 2 := mul_le_mul_of_nonneg_right hsum hgrow
    _ ≤ (100 - 100 * (1 / 2 ^ 51)) * (1 + 1 / 2 ^ 53) ^ 2 := by
        refine mul_le_mul_of_nonneg_right ?_ hgrow
        rw [hscale]
        linarith
    _ ≤ 100 := by norm_num

/-- Two successes and nine failures. -/
example : ¬ RoundsWithin 11 2 9 := by decide +kernel

/-- The rates of consistent metrics are percentages, which add up to 100 at most if the rounding
    of the two does not exceed that. -/
theorem Consistent.rates {m : PerformanceMetrics} (h : m.Consistent)
    (hround : RoundsWithin m.totalOperations m.successfulOperations m.failedOperations) :
    (0 ≤ m.successRate ∧ m.successRate ≤ 100) ∧ (0 ≤ m.failureRate ∧ m.failureRate ≤ 100) ∧
      m.successRate + m.failureRate ≤ 100 := by
  have hle : m.successfulOperations + m.failedOperations ≤ m.totalOperations := h
  refine ⟨⟨percentage_nonneg _ _, percentage_le ?_⟩, ⟨percentage_nonneg _ _, percentage_le ?_⟩,
    (percentage_add_le_iff h).mpr hround⟩
  · omega
  · omega

end PerformanceMetrics

structure AtomicMetrics where
  totalOperations : Nat
  successfulOperations : Nat
  failedOperations : Nat
  contendedOperations : Nat
  totalTimeNs : Nat
  maxTimeNs : Nat
  memoryUsage : Nat
  peakMemoryUsage : Nat
deriving DecidableEq, Repr

/-- `AtomicMetrics::default()`. -/
def AtomicMetrics.default : AtomicMetrics := ⟨0, 0, 0, 0, 0, 0, 0, 0⟩

/-- What `snapshot` returns for the values that it has loaded. -/
def report (total successful failed contended totalTime maxTime memory peak : Nat) :
    PerformanceMetrics :=
  ⟨total, successful, failed, contended, if 0 < total then totalTime / total else 0, maxTime,
    memory, peak⟩

namespace AtomicMetrics

/-- `duration.as_nanos() as u64`. -/
def nanos (duration : Nat) : Nat := duration % 2 ^ 64

def recordSuccess (m : AtomicMetrics) (duration : Nat) : AtomicMetrics :=
  { m with totalOperations := Word.add 64 m.totalOperations 1,
           successfulOperations := Word.add 64 m.successfulOperations 1,
           totalTimeNs := Word.add 64 m.totalTimeNs (nanos duration),
           -- the loop ends with the greater of the two
           maxTimeNs := max m.maxTimeNs (nanos duration) }

def recordFailure (m : AtomicMetrics) : AtomicMetrics :=
  { m with totalOperations := Word.add 64 m.totalOperations 1,
           failedOperations := Word.add 64 m.failedOperations 1 }

def recordContention (m : AtomicMetrics) : AtomicMetrics :=
  { m with contendedOperations := Word.add 64 m.contendedOperations 1 }

def snapshot (m : AtomicMetrics) : PerformanceMetrics :=
  report m.totalOperations m.successfulOperations m.failedOperations m.contendedOperations
    m.totalTimeNs m.maxTimeNs m.memoryUsage m.peakMemoryUsage

/-- The memory usage reflects the current state and stays. -/
def reset (m : AtomicMetrics) : AtomicMetrics :=
  { m with totalOperations := 0, successfulOperations := 0, failedOperations := 0,
           contendedOperations := 0, totalTimeNs := 0, maxTimeNs := 0 }

end AtomicMetrics

end VelocityX.Metrics
