import Mathlib.Data.ENat.Lattice

/-!
# Iterators in use

An iterator is the sequence of the results of its successive `next` calls, together with the
number of the calls made so far.  It yields the values before the first `none`; what it does
after a `none` is not restricted.
-/

structure Iter (α : Type*) where
  results : Nat → Option α
  calls : Nat

namespace Iter

variable {α : Type*} {it : Iter α} {n m : Nat} {x : α}

/-- The result of the `k`-th call from now on. -/
def upcoming (it : Iter α) (k : Nat) : Option α := it.results (it.calls + k)

def advance (n : Nat) (it : Iter α) : Iter α := { it with calls := it.calls + n }

def next (it : Iter α) : Option α × Iter α := (it.upcoming 0, it.advance 1)

/-- The values that the next `n` calls yield. -/
def collect : Nat → Iter α → List α
  | 0, _ => []
  | n + 1, it => it.next.1.toList ++ collect n it.next.2

/-- The number of values before the first `none`. -/
noncomputable def length (it : Iter α) : ℕ∞ := ⨅ n, ⨅ (_ : it.upcoming n = none), (n : ℕ∞)

@[simp] theorem advance_zero (it : Iter α) : it.advance 0 = it := rfl

@[simp] theorem advance_advance (n m : Nat) (it : Iter α) :
    (it.advance n).advance m = it.advance (n + m) := by
  simp [advance, Nat.add_assoc]

@[simp] theorem upcoming_advance (n k : Nat) (it : Iter α) :
    (it.advance n).upcoming k = it.upcoming (n + k) := by
  simp [upcoming, advance, Nat.add_assoc]

/-- The values of some calls are those of the first of them and then those of the others. -/
theorem collect_add (n m : Nat) (it : Iter α) :
    it.collect (n + m) = it.collect n ++ (it.advance n).collect m := by
  induction n generalizing it with
  | zero => simp [collect]
  | succ n ih =>
    rw [Nat.add_right_comm]
    simp [collect, ih, next, Nat.add_comm 1 n]

theorem collect_succ_of_some (hx : it.upcoming n = some x) :
    it.collect (n + 1) = it.collect n ++ [x] := by
  rw [collect_add]
  simp [collect, next, hx]

theorem collect_succ_of_none (hx : it.upcoming n = none) : it.collect (n + 1) = it.collect n := by
  rw [collect_add]
  simp [collect, next, hx]

/-- Calls that all yield a value yield as many values as there are calls. -/
theorem length_collect (hall : ∀ k < n, it.upcoming k ≠ none) : (it.collect n).length = n := by
  induction n with
  | zero => rfl
  | succ n ih =>
    obtain ⟨x, hx⟩ := Option.ne_none_iff_exists'.mp (hall n (Nat.lt_succ_self n))
    rw [collect_succ_of_some hx, List.length_append, List.length_singleton,
      ih fun k hk => hall k (Nat.lt_succ_of_lt hk)]

/-- The values before a position number at least that position exactly when no call before it
    returns `none`. -/
theorem le_length_iff : (n : ℕ∞) ≤ it.length ↔ ∀ k < n, it.upcoming k ≠ none := by
  rw [length]
  simp only [le_iInf_iff, Nat.cast_le]
  constructor
  · intro hle k hk hnone
    exact absurd hk (Nat.not_lt.mpr (hle k hnone))
  · intro hall k hnone
    by_contra hlt
    exact hall k (Nat.lt_of_not_le hlt) hnone

theorem length_le_of_none (hnone : it.upcoming n = none) : it.length ≤ n :=
  iInf₂_le n hnone

/-! ### A loop over an iterator with a limit

The adapter `take` makes no call once it has yielded `limit` values.  `it.Takes limit n calls` says
that a loop over it runs `n` times and that its calls of `it.next` number `calls`. -/

structure Takes (it : Iter α) (limit n calls : Nat) : Prop where
  le : n ≤ limit
  yields : ∀ k < n, it.upcoming k ≠ none
  stops : calls = n ∧ n = limit ∨ calls = n + 1 ∧ n < limit ∧ it.upcoming n = none

section Takes

variable {limit calls : Nat}

theorem takes_zero (it : Iter α) : it.Takes 0 0 0 :=
  ⟨Nat.le_refl 0, nofun, Or.inl ⟨rfl, rfl⟩⟩

theorem takes_none (hnone : it.upcoming 0 = none) : it.Takes (limit + 1) 0 1 :=
  ⟨Nat.zero_le _, nofun, Or.inr ⟨rfl, Nat.succ_pos _, hnone⟩⟩

theorem takes_some (hx : it.upcoming 0 = some x) (hrest : (it.advance 1).Takes limit n calls) :
    it.Takes (limit + 1) (n + 1) (calls + 1) := by
  constructor
  · exact Nat.succ_le_succ hrest.le
  · intro k hk
    cases k with
    | zero => simp [hx]
    | succ k =>
      have hyields := hrest.yields k (Nat.lt_of_succ_lt_succ hk)
      rwa [upcoming_advance, Nat.add_comm] at hyields
  · rcases hrest.stops with ⟨hcalls, hlimit⟩ | ⟨hcalls, hlt, hnone⟩
    · exact Or.inl ⟨congrArg (· + 1) hcalls, congrArg (· + 1) hlimit⟩
    · rw [upcoming_advance, Nat.add_comm] at hnone
      exact Or.inr ⟨congrArg (· + 1) hcalls, Nat.succ_lt_succ hlt, hnone⟩

/-- The loop runs once for each value, up to the limit. -/
theorem Takes.eq_min (ht : it.Takes limit n calls) : (n : ℕ∞) = min it.length limit := by
  apply le_antisymm
  · exact le_min (le_length_iff.mpr ht.yields) (Nat.cast_le.mpr ht.le)
  · rcases ht.stops with ⟨_, hlimit⟩ | ⟨_, _, hnone⟩
    · rw [hlimit]
      exact min_le_right _ _
    · exact (min_le_left _ _).trans (length_le_of_none hnone)

/-- No value is taken from the iterator beyond those the loop saw. -/
theorem Takes.collect_eq (ht : it.Takes limit n calls) : it.collect calls = it.collect n := by
  rcases ht.stops with ⟨rfl, _⟩ | ⟨rfl, _, hnone⟩
  · rfl
  · exact collect_succ_of_none hnone

theorem Takes.length_collect (ht : it.Takes limit n calls) : (it.collect n).length = n :=
  Iter.length_collect ht.yields

end Takes

end Iter
