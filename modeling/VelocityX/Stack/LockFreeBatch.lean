import VelocityX.Queue.MpmcBatch
import VelocityX.Stack.LockFree

/-!
# Draining with `pop_batch`

`pop_batch` of `LockFreeStack` and of the lock-free bounded queue.  Both reserve the result vector
from the raw argument, before they look at what there is to pop; the default queue clamps the
argument first.
-/

namespace VelocityX

open Mpmc (MpmcQueue)

variable {T : Type*}

namespace LockFreeStack

/-- The results of so many successive pops, and the stack after them. -/
def pops (attempts : Nat → Attempt) : Nat → LockFreeStack T → List (Option T) × LockFreeStack T
  | 0, s => ([], s)
  | n + 1, s =>
      ((s.pop (attempts n)).1 :: (pops attempts n (s.pop (attempts n)).2).1,
        (pops attempts n (s.pop (attempts n)).2).2)

variable {s : LockFreeStack T}

theorem pops_items (attempts : Nat → Attempt) (n : Nat) :
    ∀ s : LockFreeStack T, n ≤ s.items.length →
      (s.pops attempts n).1 = (s.items.take n).map some ∧
      (s.pops attempts n).2.items = s.items.drop n := by
  induction n with
  | zero =>
    intro s _
    exact ⟨rfl, rfl⟩
  | succ n ih =>
    intro s hle
    rw [pops, pop]
    cases hitems : s.items with
    | nil =>
      rw [hitems] at hle
      exact absurd hle (Nat.not_succ_le_zero n)
    | cons value items =>
      rw [hitems, List.length_cons] at hle
      obtain ⟨hvalues, hrest⟩ := ih { s with items := items,
                                             metrics := (attempts n).record s.metrics }
        (Nat.le_of_succ_le_succ hle)
      exact ⟨congrArg (some value :: ·) hvalues, hrest⟩

/-- A batch of pops returns what as many successive pops return, unless the vector is too large. -/
theorem popBatch_iff (w size : Nat) (s : LockFreeStack T)
    (attempts attempts' : Nat → Attempt) (maxCount : Nat) :
    (∃ values, (s.popBatch w size attempts maxCount).1 = some values ∧
        (s.pops attempts' (min maxCount s.items.length)).1 = values.map some ∧
        (s.popBatch w size attempts maxCount).2.items =
          (s.pops attempts' (min maxCount s.items.length)).2.items) ↔
      maxCount * size < 2 ^ (w - 1) := by
  obtain ⟨hpops, hrest⟩ := s.pops_items attempts' (min maxCount s.items.length)
    (Nat.min_le_right _ _)
  obtain ⟨hvalues, hrest'⟩ := s.popBatchLoop_items attempts maxCount
  rw [← List.take_eq_take_min] at hpops
  rw [← List.drop_eq_drop_min] at hrest
  by_cases hfits : maxCount * size < 2 ^ (w - 1)
  · refine iff_of_true ⟨s.items.take maxCount, ?_, hpops, ?_⟩ hfits
    · rw [popBatch_of_lt hfits, hvalues]
    · rw [popBatch_of_lt hfits, hrest', hrest]
  · refine iff_of_false ?_ hfits
    rintro ⟨values, hvalues, _⟩
    rw [popBatch_of_ge hfits] at hvalues
    cases hvalues

end LockFreeStack

/-- The same for the lock-free bounded queue. -/
theorem Mpmc.popBatch_iff (w size : Nat) {q : MpmcQueue T} {xs : List T} (hq : q.HoldsValues w xs)
    (maxValues : Nat) :
    (∃ values, q.popBatch w size maxValues =
        (some values, (q.pops w (min maxValues xs.length)).2) ∧
        (q.pops w (min maxValues xs.length)).1 = values.map some) ↔
      maxValues * size < 2 ^ (w - 1) := by
  obtain ⟨hloop, hpops⟩ := Mpmc.MpmcQueue.HoldsValues.popBatchLoop maxValues [] hq
  by_cases hfits : maxValues * size < 2 ^ (w - 1)
  · refine iff_of_true ⟨xs.take maxValues, ?_, hpops⟩ hfits
    simp only [MpmcQueue.popBatch, vecWithCapacity_of_lt hfits, hloop, List.nil_append]
  · refine iff_of_false ?_ hfits
    rintro ⟨values, hvalues, _⟩
    simp only [MpmcQueue.popBatch, vecWithCapacity_of_ge hfits] at hvalues
    cases hvalues

/-- **Which maxima drain.**  For the stack and for the lock-free bounded queue, in every state, a
    batch of pops returns the values of as many successive pops, and leaves the same structure, if
    and only if a vector of the requested number of values fits the address space. -/
theorem popBatch_drains_iff (w size maxCount : Nat) :
    (∀ (s : LockFreeStack T) (attempts attempts' : Nat → LockFreeStack.Attempt),
      (∃ values, (s.popBatch w size attempts maxCount).1 = some values ∧
          (s.pops attempts' (min maxCount s.items.length)).1 = values.map some ∧
          (s.popBatch w size attempts maxCount).2.items =
            (s.pops attempts' (min maxCount s.items.length)).2.items) ↔
        maxCount * size < 2 ^ (w - 1)) ∧
    ∀ (q : MpmcQueue T) (xs : List T), q.HoldsValues w xs →
      ((∃ values, q.popBatch w size maxCount =
          (some values, (q.pops w (min maxCount xs.length)).2) ∧
          (q.pops w (min maxCount xs.length)).1 = values.map some) ↔
        maxCount * size < 2 ^ (w - 1)) :=
  ⟨fun s attempts attempts' => s.popBatch_iff w size attempts attempts' maxCount,
    fun _ _ hq => Mpmc.popBatch_iff w size hq maxCount⟩

/-- Two values of 8 bytes are popped from a stack of three, whose pops fail once each, and from a
    queue of three that begin in the last slot but one. -/
theorem popBatch_drains_iff_threeValues :
    (∃ values,
      ((⟨[9, 8, 7], .default, 1⟩ : LockFreeStack Nat).popBatch 64 8 (fun _ => ⟨1, 4⟩) 2).1 =
          some values ∧
        ((⟨[9, 8, 7], .default, 1⟩ : LockFreeStack Nat).pops (fun _ => ⟨0, 2⟩) (min 2 3)).1 =
          values.map some ∧
        ((⟨[9, 8, 7], .default, 1⟩ : LockFreeStack Nat).popBatch 64 8 (fun _ => ⟨1, 4⟩) 2).2.items =
          ((⟨[9, 8, 7], .default, 1⟩ : LockFreeStack Nat).pops
            (fun _ => ⟨0, 2⟩) (min 2 3)).2.items) ∧
    ∃ values, (⟨[some 9, none, some 7, some 8], 4, 3, 2, 1, 5⟩ : MpmcQueue Nat).popBatch 64 8 2 =
        (some values, ((⟨[some 9, none, some 7, some 8], 4, 3, 2, 1, 5⟩ : MpmcQueue Nat).pops 64
          (min 2 3)).2) ∧
      ((⟨[some 9, none, some 7, some 8], 4, 3, 2, 1, 5⟩ : MpmcQueue Nat).pops 64 (min 2 3)).1 =
        values.map some :=
  ⟨((popBatch_drains_iff 64 8 2).1 ⟨[9, 8, 7], .default, 1⟩ (fun _ => ⟨1, 4⟩)
      fun _ => ⟨0, 2⟩).mpr (by decide),
    ((popBatch_drains_iff 64 8 2).2 ⟨[some 9, none, some 7, some 8], 4, 3, 2, 1, 5⟩ [7, 8, 9]
      ⟨rfl, rfl⟩).mpr (by decide)⟩

/-- Draining with `usize::MAX` panics, for values of 8 bytes. -/
theorem popBatch_max_panics :
    (¬ ∀ (s : LockFreeStack Nat) (attempts : Nat → LockFreeStack.Attempt),
      ∃ values, (s.popBatch 64 8 attempts (2 ^ 64 - 1)).1 = some values) ∧
    ¬ ∀ (q : MpmcQueue Nat) (xs : List Nat), q.HoldsValues 64 xs →
      ∃ values, (q.popBatch 64 8 (2 ^ 64 - 1)).1 = some values := by
  have hlarge : ¬ (2 ^ 64 - 1) * 8 < 2 ^ (64 - 1) := by decide
  constructor
  · intro hall
    obtain ⟨values, hvalues⟩ := hall ⟨[7], .default, 1⟩ fun _ => ⟨0, 0⟩
    rw [LockFreeStack.popBatch_of_ge hlarge] at hvalues
    cases hvalues
  · intro hall
    obtain ⟨values, hvalues⟩ := hall ⟨[some 7, none], 2, 1, 0, 1, 1⟩ [7] ⟨rfl, rfl⟩
    simp only [MpmcQueue.popBatch, vecWithCapacity_of_ge hlarge] at hvalues
    cases hvalues

end VelocityX
