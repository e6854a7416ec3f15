import VelocityX.Lib.Ring

/-!
# Bounded first-in first-out queues

The abstract queue is the list of its elements, oldest first, with a bound on its
length.  A ring refines it: the window that starts at the ring's head holds the
list.
-/

namespace Fifo

variable {α : Type*}

/-- Append `x` unless the queue already holds `c` elements. -/
def push (c : Nat) (xs : List α) (x : α) : Bool × List α :=
  if xs.length < c then (true, xs ++ [x]) else (false, xs)

/-- Remove the oldest element. -/
def pop (xs : List α) : Option α × List α := (xs.head?, xs.tail)

theorem push_of_lt {c : Nat} {xs : List α} (h : xs.length < c) (x : α) :
    push c xs x = (true, xs ++ [x]) := if_pos h

theorem push_of_ge {c : Nat} {xs : List α} (h : c ≤ xs.length) (x : α) :
    push c xs x = (false, xs) := if_neg (by omega)

@[simp] theorem pop_nil : pop ([] : List α) = (none, []) := rfl

@[simp] theorem pop_cons (x : α) (xs : List α) : pop (x :: xs) = (some x, xs) := rfl

/-! ### The ring refines the abstract queue -/

/-- A ring with free running indices that holds the queue `xs`. -/
structure Refines (cells : List (Option α)) (c head tail : Nat) (xs : List α) : Prop where
  holds : Ring.Holds cells c head xs
  tail_eq : tail = head + xs.length

variable {cells : List (Option α)} {c head tail : Nat} {xs : List α}

theorem Refines.length_le (h : Refines cells c head tail xs) : xs.length ≤ c := h.holds.2.1

theorem refines_replicate (c head : Nat) :
    Refines (List.replicate c (none : Option α)) c head head [] :=
  ⟨Ring.holds_replicate c head, rfl⟩

theorem Refines.tail_free (h : Refines cells c head tail xs) (hlt : xs.length < c) :
    cells[tail % c]? = some none := by
  rw [h.tail_eq]
  exact h.holds.slot_free (Nat.le_refl _) hlt

theorem Refines.push (h : Refines cells c head tail xs) (hlt : xs.length < c) (x : α) :
    Refines (cells.set (tail % c) (some x)) c head (tail + 1) (xs ++ [x]) := by
  obtain ⟨hholds, rfl⟩ := h
  exact ⟨hholds.push hlt, by simp [Nat.add_assoc]⟩

theorem Refines.head_full {x : α} (h : Refines cells c head tail (x :: xs)) :
    cells[head % c]? = some (some x) :=
  h.holds.slot_full (k := 0) (Nat.succ_pos _)

theorem Refines.pop {x : α} (h : Refines cells c head tail (x :: xs)) :
    Refines (cells.set (head % c) none) c (head + 1) tail xs := by
  obtain ⟨hholds, rfl⟩ := h
  exact ⟨hholds.pop, by rw [List.length_cons]; omega⟩

end Fifo
