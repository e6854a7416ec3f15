import Mathlib.Algebra.Group.Nat.Defs
import Mathlib.Control.Monad.Basic
import Mathlib.Tactic.Common

/-!
# Errors and capacities

The error type of the crate (`Error` in `src/lib.rs`), one of which every fallible
operation returns, and the capacity arguments of the constructors.
-/

namespace VelocityX

inductive Error where
  | wouldBlock
  | closed
  | invalidState
  | capacityExceeded
  | poisoned
  | invalidArgument
  | outOfMemory
  | timeout
deriving DecidableEq, Repr

/-- A capacity argument: a `usize` of `w` bits that passed the assertion
    `capacity > 0` of the constructors. -/
structure Capacity (w : Nat) where
  val : Nat
  pos : 0 < val
  lt : val < 2 ^ w
deriving DecidableEq, Repr

/-- `Vec::with_capacity(capacity)` for elements of `size` bytes; `none` is the panic when they would
    take more than `isize::MAX` bytes. -/
def vecWithCapacity {T : Type*} (w size capacity : Nat) : Option (List T) :=
  if capacity * size < 2 ^ (w - 1) then some [] else none

theorem vecWithCapacity_of_lt {T : Type*} {w size capacity : Nat}
    (h : capacity * size < 2 ^ (w - 1)) :
    (vecWithCapacity w size capacity : Option (List T)) = some [] := if_pos h

theorem vecWithCapacity_of_ge {T : Type*} {w size capacity : Nat}
    (h : ¬ capacity * size < 2 ^ (w - 1)) :
    (vecWithCapacity w size capacity : Option (List T)) = none := if_neg h

/-- The next power of two, unless the capacity is one already. -/
def roundUp (capacity : Nat) : Nat :=
  if capacity.isPowerOfTwo then capacity else capacity.nextPowerOfTwo

theorem roundUp_power (capacity : Nat) : ∃ k, roundUp capacity = 2 ^ k := by
  unfold roundUp
  split
  · assumption
  · exact Nat.isPowerOfTwo_nextPowerOfTwo capacity

section NextPowerOfTwo

open private Nat.nextPowerOfTwo.go from Init.Data.Nat.Power2.Basic

theorem le_nextPowerOfTwo (n : Nat) : n ≤ n.nextPowerOfTwo := by
  have hgo : ∀ (power : Nat) (hpos : power > 0), n ≤ Nat.nextPowerOfTwo.go n power hpos := by
    intro power hpos
    fun_induction Nat.nextPowerOfTwo.go n power hpos with
    | case1 power hpos hlt ih => exact ih
    | case2 power hpos hge => omega
  exact hgo 1 (by decide)

theorem nextPowerOfTwo_le {n k : Nat} (hn : n ≤ 2 ^ k) : n.nextPowerOfTwo ≤ 2 ^ k := by
  -- the candidate is a power of two below `n`, so its double is at most `2 ^ k`
  have hgo : ∀ (power : Nat) (hpos : power > 0), (∃ j, power = 2 ^ j) → power ≤ 2 ^ k →
      Nat.nextPowerOfTwo.go n power hpos ≤ 2 ^ k := by
    intro power hpos
    fun_induction Nat.nextPowerOfTwo.go n power hpos with
    | case1 power hpos hlt ih =>
      rintro ⟨j, rfl⟩ _
      have hjk : j < k := (Nat.pow_lt_pow_iff_right (by decide)).mp (Nat.lt_of_lt_of_le hlt hn)
      have hdouble : 2 ^ j * 2 = 2 ^ (j + 1) := (Nat.pow_succ ..).symm
      refine ih ⟨j + 1, hdouble⟩ ?_
      rw [hdouble]
      exact Nat.pow_le_pow_right (by decide) hjk
    | case2 power hpos hge => exact fun _ hle => hle
  exact hgo 1 (by decide) ⟨0, rfl⟩ Nat.one_le_two_pow

end NextPowerOfTwo

/-- `roundUp capacity` is the least power of two from `capacity` on. -/
theorem le_roundUp (capacity : Nat) : capacity ≤ roundUp capacity := by
  unfold roundUp
  split
  · exact Nat.le_refl _
  · exact le_nextPowerOfTwo capacity

theorem roundUp_le {capacity k : Nat} (h : capacity ≤ 2 ^ k) : roundUp capacity ≤ 2 ^ k := by
  unfold roundUp
  split
  · exact h
  · exact nextPowerOfTwo_le h

theorem roundUp_pos (capacity : Nat) : 0 < roundUp capacity := by
  obtain ⟨k, hk⟩ := roundUp_power capacity
  rw [hk]
  exact Nat.two_pow_pos k

/-- The rounding in words of `w` bits: `next_power_of_two` wraps to 0 in a release build. -/
def roundUpWord (w capacity : Nat) : Nat := roundUp capacity % 2 ^ w

section RoundUpWord

variable {w capacity : Nat}

/-- The largest power of two of a word is `2 ^ (w - 1)`. -/
theorem roundUp_lt_iff (hw : 0 < w) : roundUp capacity < 2 ^ w ↔ capacity ≤ 2 ^ (w - 1) := by
  constructor
  · intro hlt
    obtain ⟨k, hk⟩ := roundUp_power capacity
    rw [hk] at hlt
    have hkw : k ≤ w - 1 := Nat.le_sub_one_of_lt ((Nat.pow_lt_pow_iff_right (by decide)).mp hlt)
    calc capacity ≤ 2 ^ k := hk ▸ le_roundUp capacity
      _ ≤ 2 ^ (w - 1) := Nat.pow_le_pow_right (by decide) hkw
  · intro hle
    exact Nat.lt_of_le_of_lt (roundUp_le hle)
      (Nat.pow_lt_pow_right (by decide) (Nat.sub_lt hw Nat.one_pos))

theorem roundUpWord_of_lt (h : roundUp capacity < 2 ^ w) :
    roundUpWord w capacity = roundUp capacity := Nat.mod_eq_of_lt h

theorem roundUpWord_of_ge (h : 2 ^ w ≤ roundUp capacity) : roundUpWord w capacity = 0 := by
  obtain ⟨k, hk⟩ := roundUp_power capacity
  rw [hk] at h
  rw [roundUpWord, hk]
  exact Nat.mod_eq_zero_of_dvd (Nat.pow_dvd_pow 2 ((Nat.pow_le_pow_iff_right (by decide)).mp h))

end RoundUpWord

end VelocityX
