import VelocityX.Lib.Iter
import VelocityX.Lib.Transition
import VelocityX.Queue.MpmcSpan

/-!
# Batches on the lock-free bounded queue

`push_batch` and `pop_batch` of the bounded `MpmcQueue` in `src/queue/mpmc.rs`.

`push_batch` is modelled on an iterator that the caller passes by reference and uses again.  Its
loop asks the iterator for a value before it knows whether `push` has room for it; a refused value
is dropped with the error.  The loop has no limit of its own, so it is run with `fuel`: `none` says
that it is still running.

`pop_batch` reserves a vector for the requested number of values before it looks at the queue.
-/

namespace VelocityX.Mpmc

open Transition

variable {T : Type*} {w : Nat}

namespace MpmcQueue

/-- The loop of `push_batch`; the result is `pushed`, or `none` for the panic of `push`, together
    with the queue and the iterator. -/
def pushBatchLoop (w : Nat) :
    Nat → Nat → MpmcQueue T → Iter T → Option (Option Nat × MpmcQueue T × Iter T)
  | 0, _, _, _ => none
  | fuel + 1, pushed, q, values =>
      match values.next with
      | (none, values) => some (some pushed, q, values)
      | (some value, values) =>
          match q.push w value with
          | (.ok (), q) => pushBatchLoop w fuel (Word.add w pushed 1) q values
          | (.error (.returned _), q) => some (some pushed, q, values)
          | (.error .indexOutOfBounds, q) => some (none, q, values)

def pushBatch (w fuel : Nat) (q : MpmcQueue T) (values : Iter T) :
    Option (Option Nat × MpmcQueue T × Iter T) :=
  pushBatchLoop w fuel 0 q values

/-- The number of slots that hold a value. -/
def filled (q : MpmcQueue T) : Nat := q.buffer.countP Option.isSome

/-- A round of a caller that feeds a queue from one iterator: `room` are the operations in between,
    which make room, and then `push_batch` is called. -/
structure Round (T : Type*) where
  room : List (Op T)
  fuel : Nat

/-- The operations between two batches overwrite nothing. -/
def OverwritesNothing (w : Nat) : MpmcQueue T → List (Op T) → Prop
  | _, [] => True
  | q, op :: ops =>
      (∀ value, op = .push value → (q.push w value).1 = .ok () →
        q.buffer[q.index q.tail]? = some none) ∧ OverwritesNothing w (q.step w op) ops

end MpmcQueue

open MpmcQueue

section PushBatch

variable {q q' : MpmcQueue T} {values values' : Iter T} {n fuel pushed : Nat}

theorem pushBatchLoop_none (hnone : values.upcoming 0 = none) :
    pushBatchLoop w (fuel + 1) pushed q values = some (some pushed, q, values.advance 1) := by
  rw [pushBatchLoop, Iter.next, hnone]

theorem pushBatchLoop_refused {value : T} (hvalue : values.upcoming 0 = some value) {error : Error}
    (hpush : q.push w value = (.error (.returned error), q')) :
    pushBatchLoop w (fuel + 1) pushed q values = some (some pushed, q', values.advance 1) := by
  simp only [pushBatchLoop, Iter.next, hvalue, hpush]

theorem pushBatchLoop_panicked {value : T} (hvalue : values.upcoming 0 = some value)
    (hpush : q.push w value = (.error .indexOutOfBounds, q')) :
    pushBatchLoop w (fuel + 1) pushed q values = some (none, q', values.advance 1) := by
  simp only [pushBatchLoop, Iter.next, hvalue, hpush]

theorem pushBatchLoop_accepted {value : T} (hvalue : values.upcoming 0 = some value)
    (hpush : q.push w value = (.ok (), q')) :
    pushBatchLoop w (fuel + 1) pushed q values =
      pushBatchLoop w fuel (Word.add w pushed 1) q' (values.advance 1) := by
  simp only [pushBatchLoop, Iter.next, hvalue, hpush]

/-- On an iterator that ends, `push_batch` returns. -/
theorem pushBatchLoop_returns_of_none (n : Nat) :
    ∀ {q : MpmcQueue T} {values : Iter T} {pushed : Nat}, q.Sized w → values.upcoming n = none →
      ∃ m s', pushBatchLoop w (n + 1) pushed q values = some (some m, s') := by
  induction n with
  | zero =>
    intro q values pushed _ hnone
    exact ⟨_, _, pushBatchLoop_none hnone⟩
  | succ n ih =>
    intro q values pushed hq hnone
    cases hvalue : values.upcoming 0 with
    | none => exact ⟨_, _, pushBatchLoop_none hvalue⟩
    | some value =>
      have hnext := hq.step (.push value)
      have hreturns := hq.push_ne_panic value
      rw [MpmcQueue.step] at hnext
      cases hpush : q.push w value with
      | mk result q₁ =>
      rw [hpush] at hnext hreturns
      rcases result with (error | _) | _
      · exact ⟨_, _, pushBatchLoop_refused hvalue hpush⟩
      · exact absurd rfl hreturns
      · rw [pushBatchLoop_accepted hvalue hpush]
        exact ih hnext (by rw [Iter.upcoming_advance, Nat.add_comm]; exact hnone)

end PushBatch

/-! ### What a batch writes -/

section Written

variable {q q' : MpmcQueue T} {xs ys : List T} {value : T}

end Written

section KeepsRest

variable {q q' : MpmcQueue T} {values values' : Iter T} {n fuel : Nat}

end KeepsRest

/-! ### Rounds -/

section Rounds

variable {q q' : MpmcQueue T} {values values' : Iter T} {xs : List T} {fuel n : Nat}

/-- The queue after a batch that returned, with slots of its own for what it took or without. -/
theorem MpmcQueue.Sized.pushBatchLoop (fuel : Nat) :
    ∀ {q : MpmcQueue T} {values : Iter T} {pushed : Nat} {r : Option Nat} {q' : MpmcQueue T}
      {values' : Iter T}, q.Sized w →
      MpmcQueue.pushBatchLoop w fuel pushed q values = some (r, q', values') → q'.Sized w := by
  induction fuel with
  | zero =>
    intro q values pushed r q' values' _ h
    cases h
  | succ fuel ih =>
    intro q values pushed r q' values' hq h
    cases hvalue : values.upcoming 0 with
    | none =>
      rw [pushBatchLoop_none hvalue] at h
      cases h
      exact hq
    | some value =>
      have hnext := hq.step (.push value)
      rw [MpmcQueue.step] at hnext
      cases hpush : q.push w value with
      | mk result q₁ =>
      rw [hpush] at hnext
      rcases result with (error | _) | _
      · rw [pushBatchLoop_refused hvalue hpush] at h
        cases h
        exact hnext
      · rw [pushBatchLoop_panicked hvalue hpush] at h
        cases h
        exact hnext
      · rw [pushBatchLoop_accepted hvalue hpush] at h
        exact ih hnext h

/-- Operations that overwrite nothing, on what the queue holds. -/
theorem MpmcQueue.Spans.after (hq : q.Spans w xs) (ops : List (Op T))
    (hops : q.OverwritesNothing w ops) : ∃ ys, (q.after w ops).Spans w ys := by
  induction ops generalizing q xs with
  | nil => exact ⟨xs, hq⟩
  | cons op ops ih =>
    obtain ⟨hop, hrest⟩ := hops
    suffices hnext : ∃ ys, (q.step w op).Spans w ys by
      obtain ⟨ys, hys⟩ := hnext
      exact ih hys hrest
    cases op with
    | push value =>
      by_cases hfull : (q.tail + 1) % q.capacity = q.head
      · rw [MpmcQueue.step, hq.sized.push_full hfull]
        exact ⟨xs, hq⟩
      · have hfree := hop value rfl ((hq.sized.push_ok_iff _).mpr hfull)
        rw [MpmcQueue.step, hq.sized.push_eq hfull]
        exact ⟨_, hq.push hfull hfree value⟩
    | pop => exact ⟨_, hq.pop.2⟩

/-- The iterator over `0..n`. -/
def below (n : Nat) : Iter Nat := ⟨fun k => if k < n then some k else none, 0⟩

end Rounds

/-! ### A batch of pops -/

namespace MpmcQueue

/-- The loop of `pop_batch` with so many iterations left. -/
def popBatchLoop (w : Nat) : Nat → List T → MpmcQueue T → List T × MpmcQueue T
  | 0, values, q => (values, q)
  | iterations + 1, values, q =>
      match q.pop w with
      | (some value, q) => popBatchLoop w iterations (values ++ [value]) q
      | (none, q) => (values, q)

/-- `none` is the panic of `Vec::with_capacity`, before the first pop. -/
def popBatch (w size : Nat) (q : MpmcQueue T) (maxValues : Nat) :
    Option (List T) × MpmcQueue T :=
  match vecWithCapacity w size maxValues with
  | none => (none, q)
  | some values =>
      (some (popBatchLoop w maxValues values q).1, (popBatchLoop w maxValues values q).2)

/-- The results of so many successive pops, and the queue after them. -/
def pops (w : Nat) : Nat → MpmcQueue T → List (Option T) × MpmcQueue T
  | 0, q => ([], q)
  | n + 1, q => ((q.pop w).1 :: (pops w n (q.pop w).2).1, (pops w n (q.pop w).2).2)

/-- Successive pops return `xs` and then nothing. -/
def HoldsValues (w : Nat) (q : MpmcQueue T) (xs : List T) : Prop :=
  (q.pops w xs.length).1 = xs.map some ∧ ((q.pops w xs.length).2.pop w).1 = none

end MpmcQueue

section PopBatch

variable {q : MpmcQueue T} {xs : List T} {x : T}

theorem pop_unchanged (hnone : (q.pop w).1 = none) : (q.pop w).2 = q := by
  rw [MpmcQueue.pop] at hnone ⊢
  split
  · rfl
  · next hne =>
    rw [if_neg hne] at hnone
    split
    · rfl
    · next value hslot =>
      rw [hslot] at hnone
      cases hnone

theorem MpmcQueue.HoldsValues.pop_cons (hq : q.HoldsValues w (x :: xs)) :
    (q.pop w).1 = some x ∧ (q.pop w).2.HoldsValues w xs := by
  obtain ⟨hpops, hlast⟩ := hq
  rw [List.length_cons, MpmcQueue.pops, List.map_cons, List.cons.injEq] at hpops
  rw [List.length_cons, MpmcQueue.pops] at hlast
  exact ⟨hpops.1, hpops.2, hlast⟩

/-- The loop and as many successive pops as there are values. -/
theorem MpmcQueue.HoldsValues.popBatchLoop (maxValues : Nat) :
    ∀ {q : MpmcQueue T} {xs : List T} (values : List T), q.HoldsValues w xs →
      q.popBatchLoop w maxValues values =
          (values ++ xs.take maxValues, (q.pops w (min maxValues xs.length)).2) ∧
        (q.pops w (min maxValues xs.length)).1 = (xs.take maxValues).map some := by
  induction maxValues with
  | zero =>
    intro q xs values _
    simp [MpmcQueue.popBatchLoop, MpmcQueue.pops]
  | succ maxValues ih =>
    intro q xs values hq
    cases xs with
    | nil =>
      have hnone : (q.pop w).1 = none := hq.2
      have hpop : q.pop w = (none, q) := Prod.ext hnone (pop_unchanged hnone)
      simp [MpmcQueue.popBatchLoop, MpmcQueue.pops, hpop]
    | cons x xs =>
      obtain ⟨hvalue, hnext⟩ := hq.pop_cons
      obtain ⟨hloop, hpops⟩ := ih (values ++ [x]) hnext
      have hpop : q.pop w = (some x, (q.pop w).2) := Prod.ext hvalue rfl
      rw [List.length_cons, Nat.succ_min_succ, MpmcQueue.pops]
      constructor
      · rw [MpmcQueue.popBatchLoop, hpop]
        simpa using hloop
      · rw [hpops, hvalue]
        rfl

end PopBatch

end VelocityX.Mpmc
