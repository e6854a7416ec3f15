import VelocityX.Lib.Ring
import VelocityX.Lib.Word

/-!
# Rings indexed by words

A ring of `c` slots whose positions are counted by words of `w` bits: the position `k` after
the word `h` is in slot `(h + k mod 2 ^ w) % c`.  While the counter does not wrap this is the
ring of `Lib/Ring.lean`.  At the wrap the slots jump, unless `c` divides `2 ^ w`, and a
position may then share its slot with an older one; `slot_taken_iff` says when.

`Keeps` says that the positions of a list hold it, each in a slot of its own; `Holds` that
moreover no other slot holds a value.
-/

namespace WordRing

variable {α : Type*} {w c h : Nat}

/-- The slot of the position `k` after the word `h`. -/
def slot (w c h k : Nat) : Nat := Word.add w h k % c

theorem slot_succ (w c h k : Nat) : slot w c (Word.add w h 1) k = slot w c h (k + 1) := by
  rw [slot, slot, Word.add_add, Nat.add_comm 1 k]

theorem slot_zero (hh : h < 2 ^ w) : slot w c h 0 = h % c := by
  rw [slot, Word.add_zero_of_lt hh]

/-- **Shared slots.**  The position after a window of `n < c` positions has the slot of one of
    them exactly when its word has just passed the wrap, by less than the remainder of the
    word's range, and the window is at least that remainder long. -/
theorem slot_taken_iff {n : Nat} (hh : h < 2 ^ w) (hn : n < c) (hc : c < 2 ^ w) :
    (∃ k, k < n ∧ slot w c h k = slot w c h n) ↔
      Word.add w h n < 2 ^ w % c ∧ 2 ^ w % c ≤ n := by
  have hdiv : c * (2 ^ w / c) + 2 ^ w % c = 2 ^ w := Nat.div_add_mod _ _
  rcases Nat.lt_or_ge (h + n) (2 ^ w) with hlt | hge
  · -- no counter of the window has wrapped
    rw [Word.add_of_lt hlt]
    constructor
    · rintro ⟨k, hk, hslot⟩
      rw [slot, slot, Word.add_of_lt hlt, Word.add_of_lt (by omega)] at hslot
      exact absurd hslot (Ring.slot_ne (by omega) hn (by omega))
    · rintro ⟨htail, hle⟩
      omega
  · -- the tail has wrapped, and is its own slot
    have htail : Word.add w h n = h + n - 2 ^ w := by
      rw [Word.add, Nat.mod_eq_sub_mod hge, Nat.mod_eq_of_lt (by omega)]
    have hslot : slot w c h n = h + n - 2 ^ w := by
      rw [slot, htail, Nat.mod_eq_of_lt (by omega)]
    rw [htail, hslot]
    constructor
    · rintro ⟨k, hk, heq⟩
      rcases Nat.lt_or_ge (h + k) (2 ^ w) with hold | hnew
      · -- `n - k` is congruent to the word's range and below the capacity
        rw [slot, Word.add_of_lt hold] at heq
        have hmod : (h + k + (n - k)) % c = (2 ^ w + (h + k) % c) % c := by
          rw [heq]
          congr 1
          omega
        rw [Nat.add_mod_mod, Nat.add_comm (2 ^ w)] at hmod
        have hdist : (n - k) % c = 2 ^ w % c := Nat.ModEq.add_left_cancel' (h + k) hmod
        rw [Nat.mod_eq_of_lt (by omega)] at hdist
        omega
      · have hword : Word.add w h k = h + k - 2 ^ w := by
          rw [Word.add, Nat.mod_eq_sub_mod hnew, Nat.mod_eq_of_lt (by omega)]
        rw [slot, hword, Nat.mod_eq_of_lt (by omega)] at heq
        omega
    · rintro ⟨hlt, hle⟩
      refine ⟨n - 2 ^ w % c, by omega, ?_⟩
      have hsum : h + (n - 2 ^ w % c) = c * (2 ^ w / c) + (h + n - 2 ^ w) := by omega
      rw [slot, Word.add_of_lt (by omega), hsum, Nat.mul_add_mod, Nat.mod_eq_of_lt (by omega)]

/-! ### What a window holds -/

/-- The positions from `h` on hold `xs`, each in a slot of its own. -/
structure Keeps (w : Nat) (cells : List (Option α)) (c h : Nat) (xs : List α) : Prop where
  length_eq : cells.length = c
  full : ∀ k x, xs[k]? = some x → cells[slot w c h k]? = some (some x)
  apart : ∀ j k, j < k → k < xs.length → slot w c h j ≠ slot w c h k

/-- The positions from `h` on hold `xs`, and the other slots are empty. -/
structure Holds (w : Nat) (cells : List (Option α)) (c h : Nat) (xs : List α) : Prop
    extends Keeps w cells c h xs where
  covers : ∀ i x, cells[i]? = some (some x) → ∃ k, k < xs.length ∧ slot w c h k = i

section Keeps

variable {cells : List (Option α)} {xs ys : List α} {x : α}

theorem Keeps.of_append (hr : Keeps w cells c h (xs ++ ys)) : Keeps w cells c h xs := by
  constructor
  · exact hr.length_eq
  · intro k x hk
    exact hr.full k x (List.getElem?_append_left (List.getElem?_eq_some_iff.mp hk).1 ▸ hk)
  · intro j k hjk hk
    exact hr.apart j k hjk (by simp; omega)

theorem Keeps.head_full (hr : Keeps w cells c h (x :: xs)) (hh : h < 2 ^ w) :
    cells[h % c]? = some (some x) := by
  rw [← slot_zero hh]
  exact hr.full 0 x rfl

/-- Emptying the first slot removes the oldest value. -/
theorem Keeps.pop (hr : Keeps w cells c h (x :: xs)) (hh : h < 2 ^ w) :
    Keeps w (cells.set (h % c) none) c (Word.add w h 1) xs := by
  constructor
  · simpa using hr.length_eq
  · intro k y hk
    have hlt := (List.getElem?_eq_some_iff.mp hk).1
    have hne := hr.apart 0 (k + 1) (Nat.succ_pos k) (Nat.succ_lt_succ hlt)
    rw [slot_zero hh] at hne
    rw [slot_succ, List.getElem?_set_ne hne]
    exact hr.full (k + 1) y hk
  · intro j k hjk hk
    rw [slot_succ, slot_succ]
    exact hr.apart (j + 1) (k + 1) (Nat.succ_lt_succ hjk) (Nat.succ_lt_succ hk)

end Keeps

section Holds

variable {cells : List (Option α)} {xs : List α} {x : α}

theorem holds_replicate (w c h : Nat) :
    Holds w (List.replicate c (none : Option α)) c h [] := by
  constructor
  · exact ⟨List.length_replicate, nofun, nofun⟩
  · intro i x hi
    have hmem := List.mem_of_getElem? hi
    rw [List.mem_replicate] at hmem
    cases hmem.2

/-- The slot after the window is empty exactly when no position of the window shares it. -/
theorem Holds.free_iff (hr : Holds w cells c h xs) (hc : 0 < c) :
    cells[slot w c h xs.length]? = some none ↔
      ¬ ∃ k, k < xs.length ∧ slot w c h k = slot w c h xs.length := by
  constructor
  · rintro hfree ⟨k, hk, hslot⟩
    have hfull := hr.full k xs[k] (List.getElem?_eq_getElem hk)
    rw [hslot, hfree] at hfull
    cases hfull
  · intro hapart
    have hlt : slot w c h xs.length < cells.length := by
      rw [hr.length_eq]
      exact Nat.mod_lt _ hc
    cases hcell : cells[slot w c h xs.length] with
    | none => rw [List.getElem?_eq_getElem hlt, hcell]
    | some y =>
      refine absurd (hr.covers _ y ?_) hapart
      rw [List.getElem?_eq_getElem hlt, hcell]

/-- Filling an empty slot after the window appends the value. -/
theorem Holds.push (hr : Holds w cells c h xs) (hfree : cells[slot w c h xs.length]? = some none)
    (x : α) : Holds w (cells.set (slot w c h xs.length) (some x)) c h (xs ++ [x]) := by
  have hlt : slot w c h xs.length < cells.length := (List.getElem?_eq_some_iff.mp hfree).1
  have hne : ∀ k, k < xs.length → slot w c h k ≠ slot w c h xs.length := by
    intro k hk hslot
    have hfull := hr.full k xs[k] (List.getElem?_eq_getElem hk)
    rw [hslot, hfree] at hfull
    cases hfull
  constructor
  · constructor
    · simpa using hr.length_eq
    · intro k y hk
      rcases Nat.lt_trichotomy k xs.length with hold | heq | hnew
      · rw [List.getElem?_append_left hold] at hk
        rw [List.getElem?_set_ne (hne k hold).symm]
        exact hr.full k y hk
      · subst heq
        rw [List.getElem?_concat_length] at hk
        cases hk
        exact List.getElem?_set_self hlt
      · rw [List.getElem?_eq_none (by simp; omega)] at hk
        cases hk
    · intro j k hjk hk
      rw [List.length_append, List.length_singleton] at hk
      rcases Nat.lt_or_ge k xs.length with hold | hnew
      · exact hr.apart j k hjk hold
      · obtain rfl : k = xs.length := by omega
        exact hne j hjk
  · intro i y hi
    rw [List.length_append, List.length_singleton]
    by_cases heq : slot w c h xs.length = i
    · exact ⟨xs.length, Nat.lt_succ_self _, heq⟩
    · rw [List.getElem?_set_ne heq] at hi
      obtain ⟨k, hk, hslot⟩ := hr.covers i y hi
      exact ⟨k, Nat.lt_succ_of_lt hk, hslot⟩

theorem Holds.pop (hr : Holds w cells c h (x :: xs)) (hh : h < 2 ^ w) :
    Holds w (cells.set (h % c) none) c (Word.add w h 1) xs := by
  constructor
  · exact hr.toKeeps.pop hh
  · intro i y hi
    by_cases heq : h % c = i
    · subst heq
      have hlt : h % c < cells.length := (List.getElem?_eq_some_iff.mp (hr.head_full hh)).1
      rw [List.getElem?_set_self hlt] at hi
      cases hi
    · rw [List.getElem?_set_ne heq] at hi
      obtain ⟨k, hk, hslot⟩ := hr.covers i y hi
      cases k with
      | zero =>
        rw [slot_zero hh] at hslot
        exact absurd hslot heq
      | succ k =>
        refine ⟨k, Nat.lt_of_succ_lt_succ hk, ?_⟩
        rw [slot_succ]
        exact hslot

end Holds

end WordRing
