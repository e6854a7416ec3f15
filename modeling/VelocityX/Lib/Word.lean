import Mathlib.Algebra.Group.Nat.Defs

/-!
# Machine words

The arithmetic of an unsigned word of `w` bits, on natural numbers below `2 ^ w`:
every operation is the natural one followed by a reduction, so that a result
that overflows or underflows wraps around.  The lemmas say when it does not.

A signed word is an integer from `-2 ^ (w - 1)` on below `2 ^ (w - 1)`; `signed` and
`unsigned` are the conversions between the two kinds.
-/

namespace Word

/-- Wrapping addition of `w`-bit words. -/
def add (w a b : Nat) : Nat := (a + b) % 2 ^ w

/-- Wrapping subtraction of `w`-bit words. -/
def sub (w a b : Nat) : Nat := (a + (2 ^ w - b % 2 ^ w)) % 2 ^ w

/-- Wrapping product of `w`-bit words. -/
def mul (w a b : Nat) : Nat := a * b % 2 ^ w

variable {w a b : Nat}

theorem add_lt (w a b : Nat) : add w a b < 2 ^ w := Nat.mod_lt _ (Nat.two_pow_pos w)

/-- An addition that stays below `2 ^ w` is exact. -/
theorem add_of_lt (h : a + b < 2 ^ w) : add w a b = a + b := Nat.mod_eq_of_lt h

/-- A product that stays below `2 ^ w` is exact. -/
theorem mul_of_lt (h : a * b < 2 ^ w) : mul w a b = a * b := Nat.mod_eq_of_lt h

/-- A subtraction that does not underflow is exact. -/
theorem sub_of_le (hb : b ≤ a) (ha : a < 2 ^ w) : sub w a b = a - b := by
  have hb' : b % 2 ^ w = b := Nat.mod_eq_of_lt (by omega)
  have hsum : a + (2 ^ w - b) = (a - b) + 2 ^ w := by omega
  rw [sub, hb', hsum, Nat.add_mod_right, Nat.mod_eq_of_lt (by omega)]

theorem sub_le (hb : b ≤ a) : sub w a b ≤ a - b := by
  have hsplit : a + (2 ^ w - b % 2 ^ w) = a - b + 2 ^ w * (b / 2 ^ w + 1) := by
    have hdiv := Nat.div_add_mod b (2 ^ w)
    have hlt : b % 2 ^ w < 2 ^ w := Nat.mod_lt b (Nat.two_pow_pos w)
    rw [Nat.mul_succ]
    omega
  rw [sub, hsplit, Nat.add_mul_mod_self_left]
  exact Nat.mod_le _ _

/-- A word is never its own successor. -/
theorem add_one_ne (hw : 0 < w) (a : Nat) : add w a 1 ≠ a := by
  intro heq
  have hlt : a < 2 ^ w := by
    rw [← heq]
    exact add_lt w a 1
  have htwo : 1 < 2 ^ w := Nat.one_lt_two_pow (Nat.pos_iff_ne_zero.mp hw)
  by_cases hwrap : a + 1 < 2 ^ w
  · rw [add_of_lt hwrap] at heq
    exact absurd heq (Nat.succ_ne_self a)
  · have hall : a + 1 = 2 ^ w := by omega
    rw [add, hall, Nat.mod_self] at heq
    omega

theorem sub_self (w a : Nat) : sub w a a = 0 := by
  have h : a % 2 ^ w < 2 ^ w := Nat.mod_lt _ (Nat.two_pow_pos w)
  have hsum : a % 2 ^ w + (2 ^ w - a % 2 ^ w) = 2 ^ w := by omega
  rw [sub, ← Nat.mod_add_mod, hsum, Nat.mod_self]

theorem add_zero_of_lt (h : a < 2 ^ w) : add w a 0 = a := add_of_lt h

/-- Offsets from a base add up, also where the sum wraps. -/
theorem add_add (w a b c : Nat) : add w (add w a b) c = add w a (b + c) := by
  rw [add, add, Nat.mod_add_mod, Nat.add_assoc, add]

theorem sub_mod (w a b : Nat) : sub w a (b % 2 ^ w) = sub w a b := by
  rw [sub, sub, Nat.mod_mod]

/-- The offset of a word from its base. -/
theorem sub_add_left (hb : b < 2 ^ w) : sub w (add w a b) a = b := by
  have h : a % 2 ^ w < 2 ^ w := Nat.mod_lt _ (Nat.two_pow_pos w)
  have hsum : a % 2 ^ w + b + (2 ^ w - a % 2 ^ w) = b + 2 ^ w := by omega
  rw [sub, add, Nat.mod_add_mod, Nat.add_assoc, ← Nat.mod_add_mod, ← Nat.add_assoc, hsum,
    Nat.add_mod_right, Nat.mod_eq_of_lt hb]

/-- A word changes when less than `2 ^ w`, and not nothing, is added. -/
theorem add_ne (hb : 0 < b) (hlt : b < 2 ^ w) (a : Nat) : add w a b ≠ a := by
  intro heq
  have ha : a < 2 ^ w := by
    rw [← heq]
    exact add_lt w a b
  by_cases hwrap : a + b < 2 ^ w
  · rw [add_of_lt hwrap] at heq
    omega
  · rw [add, Nat.mod_eq_sub_mod (by omega), Nat.mod_eq_of_lt (by omega)] at heq
    omega

/-! ### Signed words -/

/-- The signed word that agrees with `x` modulo `2 ^ w`. -/
def signed (w : Nat) (x : Int) : Int := x.bmod (2 ^ w)

/-- The unsigned word that agrees with `x` modulo `2 ^ w`. -/
def unsigned (w : Nat) (x : Int) : Nat := (x % (2 ^ w : Nat)).toNat

theorem signed_of_lt (hlt : a < 2 ^ (w - 1)) : signed w a = a := by
  cases w with
  | zero =>
    have ha : a = 0 := Nat.lt_one_iff.mp hlt
    rw [ha]
    rfl
  | succ w =>
    have htwo : 2 ^ (w + 1) = 2 ^ w * 2 := Nat.pow_succ ..
    rw [Nat.add_sub_cancel] at hlt
    exact Int.bmod_eq_of_le (by omega) (by omega)

theorem unsigned_of_lt (hlt : a < 2 ^ w) : unsigned w a = a := by
  have hmod : (a : Int) % (2 ^ w : Nat) = ((a % 2 ^ w : Nat) : Int) := rfl
  rw [unsigned, hmod, Int.toNat_natCast, Nat.mod_eq_of_lt hlt]

/-- A nonnegative signed word is an unsigned one. -/
theorem lt_of_lt_half (h : a < 2 ^ (w - 1)) : a < 2 ^ w :=
  Nat.lt_of_lt_of_le h (Nat.pow_le_pow_right (by decide) (Nat.sub_le w 1))

theorem unsigned_of_range {x : Int} (hle : 0 ≤ x) (hlt : x < (2 ^ (w - 1) : Nat)) :
    unsigned w x = x.toNat := by
  have hhalf : x.toNat < 2 ^ (w - 1) := by omega
  rw [← Int.toNat_of_nonneg hle, unsigned_of_lt (lt_of_lt_half hhalf), Int.toNat_natCast]

theorem signed_of_range {x : Int} (hw : 0 < w) (hle : -(2 ^ (w - 1) : Nat) ≤ x)
    (hlt : x < (2 ^ (w - 1) : Nat)) : signed w x = x := by
  have htwo : 2 ^ w = 2 ^ (w - 1) * 2 := (Nat.two_pow_pred_mul_two hw).symm
  exact Int.bmod_eq_of_le (by omega) (by omega)

theorem signed_lower (hw : 0 < w) (x : Int) : -(2 ^ (w - 1) : Nat) ≤ signed w x := by
  have htwo : 2 ^ w = 2 ^ (w - 1) * 2 := (Nat.two_pow_pred_mul_two hw).symm
  have hle : -((2 ^ w : Nat) / 2 : Int) ≤ signed w x := Int.le_bmod (Nat.two_pow_pos w)
  omega

theorem signed_upper (hw : 0 < w) (x : Int) : signed w x < (2 ^ (w - 1) : Nat) := by
  have htwo : 2 ^ w = 2 ^ (w - 1) * 2 := (Nat.two_pow_pred_mul_two hw).symm
  have hlt : signed w x < ((2 ^ w : Nat) + 1 : Int) / 2 := Int.bmod_lt (Nat.two_pow_pos w)
  omega

/-- From `2 ^ (w - 1)` on the sign changes. -/
theorem signed_of_wrap {x : Int} (hw : 0 < w) (hle : (2 ^ (w - 1) : Nat) ≤ x)
    (hlt : x < (2 ^ w : Nat)) : signed w x = x - (2 ^ w : Nat) := by
  have htwo : 2 ^ w = 2 ^ (w - 1) * 2 := (Nat.two_pow_pred_mul_two hw).symm
  rw [signed, ← Int.sub_bmod_right]
  exact signed_of_range hw (by omega) (by omega)

theorem signed_signed (w : Nat) (x : Int) : signed w (signed w x) = signed w x := Int.bmod_bmod

theorem signed_add (w : Nat) (x y : Int) : signed w (signed w x + y) = signed w (x + y) :=
  Int.bmod_add_bmod

/-- A signed word changes when less than `2 ^ w`, and not nothing, is added. -/
theorem signed_add_ne {k : Nat} (hk : 0 < k) (hlt : k < 2 ^ w) (x : Int) :
    signed w (x + k) ≠ signed w x := by
  intro heq
  have hdiff : x + k - x = k := by omega
  have hzero := Int.bmod_eq_bmod_iff_bmod_sub_eq_zero.mp heq
  rw [hdiff] at hzero
  have hdvd : 2 ^ w ∣ k := Int.natCast_dvd_natCast.mp (Int.dvd_of_bmod_eq_zero hzero)
  exact absurd (Nat.le_of_dvd hk hdvd) (Nat.not_le_of_lt hlt)

theorem unsigned_signed (w : Nat) (x : Int) : unsigned w (signed w x) = unsigned w x := by
  rw [unsigned, signed, Int.bmod_emod, unsigned]

/-- Offsets from a base add up modulo every divisor of `2 ^ w`. -/
theorem unsigned_add_mod {c : Nat} (hc : c ∣ 2 ^ w) (x : Int) (k : Nat) :
    unsigned w (x + k) % c = (unsigned w x + k) % c := by
  have hword : ((2 ^ w : Nat) : Int) ≠ 0 := Int.natCast_ne_zero.mpr
    (Nat.pos_iff_ne_zero.mp (Nat.two_pow_pos w))
  have hbase : ((unsigned w x : Nat) : Int) = x % (2 ^ w : Nat) :=
    Int.toNat_of_nonneg (Int.emod_nonneg _ hword)
  have hsum : unsigned w (x + k) = (unsigned w x + k) % 2 ^ w := by
    apply Int.natCast_inj.mp
    rw [unsigned, Int.toNat_of_nonneg (Int.emod_nonneg _ hword), Int.natCast_emod,
      Int.natCast_add, hbase, Int.emod_add_emod]
  rw [hsum, Nat.mod_mod_of_dvd _ hc]

end Word
