import Mathlib.Data.Nat.Bitwise
import VelocityX.Error
import VelocityX.Lib.Fifo
import VelocityX.Lib.Word

/-!
# The lock-free bounded queue

The single-threaded meaning of the bounded `MpmcQueue` in `src/queue/mpmc.rs`.  A slot
of the buffer is `none` for a null pointer and otherwise the value in its box; a box
whose pointer is overwritten is lost.  The prefetch hints have no meaning here.

The full test of `push` masks `tail + 1` but not `head`, so that it stops firing once
`head` has passed the mask.  The last section says exactly which runs are not affected.
-/

namespace VelocityX.Mpmc

variable {T : Type*}

structure MpmcQueue (T : Type*) where
  buffer : List (Option T)
  capacity : Nat
  mask : Nat
  head : Nat
  tail : Nat
  generation : Nat
deriving DecidableEq, Repr

/-- How a push ends that does not return `Ok(())`: with an error, or with the panic of a slot that
    the buffer does not have. -/
inductive PushFailure where
  | returned (error : Error)
  | indexOutOfBounds
deriving DecidableEq, Repr

namespace MpmcQueue

/-- `none` is the panic of the assertion `capacity > 0`.  The buffer is granted whatever its size.
    A request beyond the largest power of two of the word gets a queue without slots. -/
def withCapacity (w capacity : Nat) : Option (MpmcQueue T) :=
  if 0 < capacity then
    let capacity := roundUpWord w capacity
    some ⟨List.replicate capacity none, capacity, Word.sub w capacity 1, 0, 0, 0⟩
  else
    none

def new (w capacity : Nat) : Option (MpmcQueue T) := withCapacity w capacity

/-- The slot of an index: `index & self.mask`. -/
def index (q : MpmcQueue T) (i : Nat) : Nat := i &&& q.mask

def push (w : Nat) (q : MpmcQueue T) (value : T) : Except PushFailure Unit × MpmcQueue T :=
  if Word.add w q.tail 1 &&& q.mask = q.head then
    (.error (.returned .capacityExceeded), q)
  else if q.index q.tail < q.buffer.length then
    (.ok (), { q with buffer := q.buffer.set (q.index q.tail) (some value),
                      tail := Word.add w q.tail 1,
                      generation := Word.add 64 q.generation 1 })
  else
    (.error .indexOutOfBounds, q)

/-- A queue without slots stays empty, so that no pop looks for one of them. -/
def pop (w : Nat) (q : MpmcQueue T) : Option T × MpmcQueue T :=
  if q.head = q.tail then
    (none, q)
  else
    match q.buffer[q.index q.head]?.join with
    | none => (none, q)
    | some value =>
        (some value, { q with buffer := q.buffer.set (q.index q.head) none,
                              head := Word.add w q.head 1,
                              generation := Word.add 64 q.generation 1 })

def len (w : Nat) (q : MpmcQueue T) : Nat :=
  if q.head ≤ q.tail then q.tail - q.head else Word.sub w q.capacity (q.head - q.tail)

def isEmpty (w : Nat) (q : MpmcQueue T) : Bool := q.len w == 0

/-! ### Runs -/

inductive Op (T : Type*) where
  | push (value : T)
  | pop
deriving DecidableEq, Repr

def step (w : Nat) (q : MpmcQueue T) : Op T → MpmcQueue T
  | .push value => (q.push w value).2
  | .pop => (q.pop w).2

/-- The values accepted and not yet popped, after an operation with `xs` before it. -/
def pending (w : Nat) (q : MpmcQueue T) (xs : List T) : Op T → List T
  | .push value => if (q.push w value).1 = .ok () then xs ++ [value] else xs
  | .pop => xs.tail

/-- An accepted push writes an empty slot, and a pop returns the oldest pending value. -/
def Answers (w : Nat) (q : MpmcQueue T) (xs : List T) : Op T → Prop
  | .push value => (q.push w value).1 = .ok () → q.buffer[q.index q.tail]? = some none
  | .pop => (q.pop w).1 = xs.head?

/-- No value is lost or reordered along the run. -/
def Faithful (w : Nat) : MpmcQueue T → List T → List (Op T) → Prop
  | q, _, [] => q.len w ≤ q.capacity
  | q, xs, op :: ops =>
      q.len w ≤ q.capacity ∧ q.Answers w xs op ∧ Faithful w (q.step w op) (q.pending w xs op) ops

/-- No push is called on a queue that has slots and holds `capacity` values. -/
def PushesBelowCapacity (w : Nat) : MpmcQueue T → List (Op T) → Prop
  | _, [] => True
  | q, op :: ops =>
      (∀ value, op = .push value → 0 < q.capacity → q.len w ≠ q.capacity) ∧
        PushesBelowCapacity w (q.step w op) ops

/-! ### Refinement of the bounded queue

While the head has not passed the mask the full test works and one slot stays free. -/

structure Models (q : MpmcQueue T) (xs : List T) : Prop where
  refines : Fifo.Refines q.buffer q.capacity q.head q.tail xs
  power : ∃ k, q.capacity = 2 ^ k
  mask_eq : q.mask = q.capacity - 1
  spare : q.head < q.capacity → xs.length < q.capacity

section Models

variable {w capacity : Nat} {q : MpmcQueue T} {xs : List T}

theorem withCapacity_lt (h : withCapacity w capacity = some q) : q.capacity < 2 ^ w := by
  unfold withCapacity at h
  split at h
  · cases h
    exact Nat.mod_lt _ (Nat.two_pow_pos w)
  · cases h

theorem withCapacity_indices (h : withCapacity w capacity = some q) : q.head = 0 ∧ q.tail = 0 := by
  unfold withCapacity at h
  split at h
  · cases h
    exact ⟨rfl, rfl⟩
  · cases h

theorem new_capacity_ne (h : new w capacity = some q) (hlt : roundUp capacity < 2 ^ w) :
    q.capacity ≠ 0 := by
  unfold new withCapacity at h
  split at h
  · cases h
    show roundUpWord w capacity ≠ 0
    rw [roundUpWord_of_lt hlt]
    exact Nat.ne_of_gt (roundUp_pos capacity)
  · cases h

theorem withCapacity_eq_some (h : withCapacity w capacity = some q) (hpos : 0 < q.capacity) :
    q = ⟨List.replicate (roundUp capacity) none, roundUp capacity, roundUp capacity - 1,
      0, 0, 0⟩ := by
  unfold withCapacity at h
  split at h
  · cases h
    have hlt : roundUp capacity < 2 ^ w := by
      by_contra hge
      exact Nat.ne_of_gt hpos (roundUpWord_of_ge (Nat.le_of_not_lt hge))
    simp only [roundUpWord_of_lt hlt, Word.sub_of_le (roundUp_pos capacity) hlt]
  · cases h

theorem models_withCapacity (h : withCapacity w capacity = some q) (hpos : 0 < q.capacity) :
    q.Models [] := by
  rw [withCapacity_eq_some h hpos]
  exact ⟨Fifo.refines_replicate _ 0, roundUp_power capacity, rfl, fun hlt => hlt⟩

/-- The queue of a request that is rounded up to 0. -/
def slotless (w : Nat) : MpmcQueue T := ⟨[], 0, Word.sub w 0 1, 0, 0, 0⟩

theorem withCapacity_eq_slotless (h : withCapacity w capacity = some q) (hzero : q.capacity = 0) :
    q = slotless w := by
  unfold withCapacity at h
  split at h
  · cases h
    have hrounded : roundUpWord w capacity = 0 := hzero
    simp only [hrounded, List.replicate_zero, slotless]
  · cases h

/-- A queue without slots accepts nothing. -/
theorem slotless_push (w : Nat) (value : T) :
    ∃ failure, (slotless w).push w value = (.error failure, slotless w) := by
  unfold push
  split
  · exact ⟨_, rfl⟩
  · split
    · next hlt => exact absurd hlt (Nat.not_lt_zero _)
    · exact ⟨_, rfl⟩

theorem slotless_step (w : Nat) (op : Op T) : (slotless w).step w op = slotless w := by
  cases op with
  | push value =>
    obtain ⟨failure, hpush⟩ := slotless_push w value
    rw [step, hpush]
  | pop => rfl

theorem Models.and_mask (h : q.Models xs) (i : Nat) : i &&& q.mask = i % q.capacity := by
  rcases h.power with ⟨k, hk⟩
  rw [h.mask_eq, hk]
  exact Nat.and_two_pow_sub_one_eq_mod i k

theorem Models.capacity_pos (h : q.Models xs) : 0 < q.capacity := by
  rcases h.power with ⟨k, hk⟩
  rw [hk]
  exact Nat.two_pow_pos k

theorem Models.index_lt (h : q.Models xs) (i : Nat) : q.index i < q.buffer.length := by
  rw [index, h.and_mask, h.refines.holds.1]
  exact Nat.mod_lt i h.capacity_pos

theorem Models.length_le (h : q.Models xs) : xs.length ≤ q.capacity := h.refines.length_le

theorem Models.len_eq (h : q.Models xs) : q.len w = xs.length := by
  have htail := h.refines.tail_eq
  rw [len, if_pos (by omega)]
  omega

/-- The full test: it fires exactly when one slot is free and the head is below the
    capacity. -/
theorem Models.full_iff (h : q.Models xs) (hw : q.tail + 1 < 2 ^ w) :
    Word.add w q.tail 1 &&& q.mask = q.head ↔
      q.head < q.capacity ∧ xs.length + 1 = q.capacity := by
  have htail := h.refines.tail_eq
  rw [h.and_mask, Word.add_of_lt hw]
  constructor
  · intro heq
    have hlt : q.head < q.capacity := by
      rw [← heq]
      exact Nat.mod_lt _ h.capacity_pos
    have hspare := h.spare hlt
    refine ⟨hlt, ?_⟩
    by_contra hne
    apply Ring.slot_ne (h := q.head) (i := xs.length + 1) (j := 0) (by omega) h.capacity_pos
      (Nat.succ_ne_zero _)
    have hwrap : (q.head + (xs.length + 1)) % q.capacity = q.head := by
      rw [← Nat.add_assoc, ← htail]
      exact heq
    rw [hwrap, Nat.add_zero, Nat.mod_eq_of_lt hlt]
  · rintro ⟨hlt, hlen⟩
    have hsum : q.tail + 1 = q.head + q.capacity := by omega
    rw [hsum, Nat.add_mod_right, Nat.mod_eq_of_lt hlt]

/-- A push below the capacity is refused, or fills an empty slot and appends. -/
theorem Models.push_below (h : q.Models xs) (hw : q.tail + 1 < 2 ^ w)
    (hroom : xs.length < q.capacity) (value : T) :
    q.push w value = (.error (.returned .capacityExceeded), q) ∨
    ∃ q', q.push w value = (.ok (), q') ∧ q'.Models (xs ++ [value]) ∧ q'.tail = q.tail + 1 ∧
      q.buffer[q.index q.tail]? = some none := by
  by_cases hfull : Word.add w q.tail 1 &&& q.mask = q.head
  · left
    rw [push, if_pos hfull]
  · right
    have htail : Word.add w q.tail 1 = q.tail + 1 := Word.add_of_lt hw
    have hindex : q.index q.tail = q.tail % q.capacity := h.and_mask q.tail
    refine ⟨{ q with buffer := q.buffer.set (q.index q.tail) (some value), tail := q.tail + 1,
                     generation := Word.add 64 q.generation 1 }, ?_, ?_, rfl, ?_⟩
    · rw [push, if_neg hfull, if_pos (h.index_lt q.tail), htail]
    · refine ⟨?_, h.power, h.mask_eq, ?_⟩
      · rw [hindex]
        exact h.refines.push hroom value
      · intro hlt
        have hne : ¬ xs.length + 1 = q.capacity :=
          fun hlen => hfull ((h.full_iff hw).mpr ⟨hlt, hlen⟩)
        show (xs ++ [value]).length < q.capacity
        rw [List.length_append, List.length_singleton]
        omega
    · rw [hindex]
      exact h.refines.tail_free hroom

/-- A push at the capacity is accepted and overwrites the oldest pending value. -/
theorem Models.push_overwrites (h : q.Models xs) (hw : q.tail + 1 < 2 ^ w)
    (hlen : xs.length = q.capacity) (value : T) :
    (q.push w value).1 = .ok () ∧ ¬ q.buffer[q.index q.tail]? = some none := by
  have hnot : ¬ (Word.add w q.tail 1 &&& q.mask = q.head) := by
    rw [h.full_iff hw]
    omega
  have hindex : q.index q.tail = q.tail % q.capacity := h.and_mask q.tail
  refine ⟨by rw [push, if_neg hnot, if_pos (h.index_lt q.tail)], ?_⟩
  cases xs with
  | nil => exact absurd hlen (Nat.ne_of_lt h.capacity_pos)
  | cons x xs =>
    have htail : q.tail = q.head + (x :: xs).length := h.refines.tail_eq
    rw [hindex, htail, hlen, Nat.add_mod_right, h.refines.head_full]
    intro hslot
    cases hslot

theorem Models.pop_nil (h : q.Models []) : q.pop w = (none, q) := by
  have htail : q.tail = q.head := h.refines.tail_eq
  rw [pop, if_pos htail.symm]

theorem Models.pop_cons {x : T} (h : q.Models (x :: xs)) (hw : q.tail < 2 ^ w) :
    ∃ q', q.pop w = (some x, q') ∧ q'.Models xs ∧ q'.tail = q.tail := by
  have htail : q.tail = q.head + (xs.length + 1) := h.refines.tail_eq
  have hne : ¬ q.head = q.tail := by omega
  have hhead : Word.add w q.head 1 = q.head + 1 := Word.add_of_lt (by omega)
  have hindex : q.index q.head = q.head % q.capacity := h.and_mask q.head
  have hslot : q.buffer[q.index q.head]?.join = some x := by
    rw [hindex, h.refines.head_full]
    rfl
  refine ⟨{ q with buffer := q.buffer.set (q.index q.head) none, head := q.head + 1,
                   generation := Word.add 64 q.generation 1 }, ?_, ?_, rfl⟩
  · rw [pop, if_neg hne, hslot, hhead]
  · refine ⟨?_, h.power, h.mask_eq, ?_⟩
    · rw [hindex]
      exact h.refines.pop
    · intro _
      exact h.length_le

/-! ### One operation -/

/-- An operation that meets the condition keeps the queue in step with the pending
    values. -/
theorem Models.step {op : Op T} (h : q.Models xs) (hw : q.tail + 1 < 2 ^ w)
    (hop : ∀ value, op = .push value → 0 < q.capacity → q.len w ≠ q.capacity) :
    q.Answers w xs op ∧ (q.step w op).Models (q.pending w xs op) ∧
      (q.step w op).tail ≤ q.tail + 1 := by
  cases op with
  | push value =>
    have hlen := hop value rfl h.capacity_pos
    rw [h.len_eq] at hlen
    have hroom : xs.length < q.capacity := Nat.lt_of_le_of_ne h.length_le hlen
    rcases h.push_below hw hroom value with hpush | ⟨q', hpush, hq', htail, hslot⟩
    · simp only [Answers, MpmcQueue.step, pending, hpush, reduceCtorEq, false_implies, if_false,
        true_and]
      exact ⟨h, Nat.le_succ _⟩
    · simp only [Answers, MpmcQueue.step, pending, hpush, if_true, true_implies]
      exact ⟨hslot, hq', Nat.le_of_eq htail⟩
  | pop =>
    cases xs with
    | nil =>
      have hpop := h.pop_nil (w := w)
      simp only [Answers, MpmcQueue.step, pending, hpop]
      exact ⟨rfl, h, Nat.le_succ _⟩
    | cons x xs =>
      rcases h.pop_cons (Nat.lt_of_succ_lt hw) with ⟨q', hpop, hq', htail⟩
      simp only [Answers, MpmcQueue.step, pending, hpop]
      exact ⟨rfl, hq', by omega⟩

/-- An operation answered without loss met the condition. -/
theorem Models.below_of_answers {op : Op T} (h : q.Models xs) (hw : q.tail + 1 < 2 ^ w)
    (hanswers : q.Answers w xs op) :
    ∀ value, op = .push value → 0 < q.capacity → q.len w ≠ q.capacity := by
  intro value hop _ hlen
  subst hop
  rw [h.len_eq] at hlen
  rcases h.push_overwrites hw hlen value with ⟨hok, hslot⟩
  exact hslot (hanswers hok)

end Models

theorem faithful_iff_of_models {w : Nat} (ops : List (Op T)) :
    ∀ {q : MpmcQueue T} {xs : List T}, q.Models xs → q.tail + ops.length < 2 ^ w →
      (Faithful w q xs ops ↔ PushesBelowCapacity w q ops) := by
  induction ops with
  | nil =>
    intro q xs h _
    refine ⟨fun _ => trivial, fun _ => ?_⟩
    show q.len w ≤ q.capacity
    rw [h.len_eq]
    exact h.length_le
  | cons op ops ih =>
    intro q xs h hw
    rw [List.length_cons] at hw
    have hw' : q.tail + 1 < 2 ^ w := by omega
    have hlen : q.len w ≤ q.capacity := by
      rw [h.len_eq]
      exact h.length_le
    constructor
    · rintro ⟨_, hanswers, hrest⟩
      have hop := h.below_of_answers hw' hanswers
      rcases h.step hw' hop with ⟨_, hnext, htail⟩
      exact ⟨hop, (ih hnext (by omega)).mp hrest⟩
    · rintro ⟨hop, hrest⟩
      rcases h.step hw' hop with ⟨hanswers, hnext, htail⟩
      exact ⟨hlen, hanswers, (ih hnext (by omega)).mpr hrest⟩

/-- A queue without slots loses nothing either, since it accepts nothing. -/
theorem slotless_faithful (w : Nat) (ops : List (Op T)) :
    Faithful w (slotless w) [] ops ∧ PushesBelowCapacity w (slotless w) ops := by
  induction ops with
  | nil => exact ⟨Nat.le_refl 0, trivial⟩
  | cons op ops ih =>
    have hop : (slotless w).Answers w [] op ∧ (slotless w).pending w [] op = [] := by
      cases op with
      | push value =>
        obtain ⟨failure, hpush⟩ := slotless_push w value
        simp [Answers, pending, hpush]
      | pop => exact ⟨rfl, rfl⟩
    have hstep := slotless_step w op
    simp only [Faithful, PushesBelowCapacity, hstep, hop.2]
    exact ⟨⟨Nat.le_refl 0, hop.1, ih.1⟩, by rintro _ _ ⟨⟩, ih.2⟩

/-- **Which runs lose nothing.**  The pops of a run from a new queue return exactly the
    accepted values in order, and no pending value is overwritten, if and only if no push is
    called while the queue holds `capacity` values. -/
theorem faithful_iff {w capacity : Nat} {q : MpmcQueue T} (hq : new w capacity = some q)
    (ops : List (Op T)) (hops : ops.length < 2 ^ w) :
    Faithful w q [] ops ↔ PushesBelowCapacity w q ops := by
  rcases Nat.eq_zero_or_pos q.capacity with hzero | hpos
  · rw [withCapacity_eq_slotless hq hzero]
    exact iff_of_true (slotless_faithful w ops).1 (slotless_faithful w ops).2
  · refine faithful_iff_of_models ops (models_withCapacity hq hpos) ?_
    rw [withCapacity_eq_some hq hpos, Nat.zero_add]
    exact hops

theorem faithful_iff_fillAndDrain :
    ∃ q : MpmcQueue Nat, new 64 2 = some q ∧
      (Faithful 64 q [] [.push 0, .push 1, .pop, .pop] ↔
        PushesBelowCapacity 64 q [.push 0, .push 1, .pop, .pop]) := by
  have hq : new 64 2 = some (⟨[none, none], 2, 1, 0, 0, 0⟩ : MpmcQueue Nat) := by decide
  exact ⟨_, hq, faithful_iff hq _ (by decide)⟩

/-- Once two values have passed through a queue of capacity 2, a third pending value
    overwrites the oldest. -/
theorem push_overwrites_pending :
    ¬ (∀ q : MpmcQueue Nat, new 64 2 = some q →
      Faithful 64 q [] [.push 0, .pop, .push 1, .pop, .push 2, .push 3, .push 4]) := by
  intro h
  have hq : new 64 2 = some (⟨[none, none], 2, 1, 0, 0, 0⟩ : MpmcQueue Nat) := by decide
  rcases h _ hq with ⟨_, _, _, _, _, _, _, _, _, _, _, _, _, hpush, _⟩
  exact absurd (hpush (by decide)) (by decide)

end MpmcQueue

end VelocityX.Mpmc
