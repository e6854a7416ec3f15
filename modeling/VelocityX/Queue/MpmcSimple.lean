import VelocityX.Error
import VelocityX.Lib.Fifo
import VelocityX.Lib.Word

/-!
# The default bounded queue

The single-threaded meaning of `MpmcQueue` in `src/queue/mpmc_simple.rs`.  The
buffer is the vector behind `Arc<Mutex<Vec<Option<T>>>>`, `head` and `tail` are
words of `w` bits, and index arithmetic wraps as it does without overflow checks.
The locks are always free in a sequential run and the metrics are not read by the
operations, so neither appears here.

An iterator argument is the sequence of the results of its successive `next`
calls.
-/

namespace VelocityX.MpmcSimple

variable {T : Type*}

structure MpmcQueue (T : Type*) where
  buffer : List (Option T)
  capacity : Nat
  head : Nat
  tail : Nat
deriving DecidableEq, Repr

namespace MpmcQueue

def new {w : Nat} (capacity : Capacity w) : MpmcQueue T :=
  ⟨List.replicate capacity.val none, capacity.val, 0, 0⟩

/-- The slot of a position: `position % self.capacity`. -/
def index (q : MpmcQueue T) (position : Nat) : Nat := position % q.capacity

def len (w : Nat) (q : MpmcQueue T) : Nat := Word.sub w q.tail q.head

def isEmpty (q : MpmcQueue T) : Bool := q.head == q.tail

def push (w : Nat) (q : MpmcQueue T) (value : T) : Except Error Unit × MpmcQueue T :=
  if q.capacity ≤ Word.sub w q.tail q.head then
    (.error .wouldBlock, q)
  else
    (.ok (), { q with buffer := q.buffer.set (q.index q.tail) (some value),
                      tail := Word.add w q.tail 1 })

def pop (w : Nat) (q : MpmcQueue T) : Option T × MpmcQueue T :=
  if q.head = q.tail then
    (none, q)
  else
    (q.buffer[q.index q.head]?.join,
      { q with buffer := q.buffer.set (q.index q.head) none, head := Word.add w q.head 1 })

/-- The loop of `push_batch` over `values.into_iter().take(available_space)`; the
    result is `pushed` together with the buffer. -/
def pushBatchLoop (w capacity tail : Nat) (values : Nat → Option T) :
    Nat → Nat → List (Option T) → Nat × List (Option T)
  | 0, pushed, buffer => (pushed, buffer)
  | available + 1, pushed, buffer =>
      match values pushed with
      | none => (pushed, buffer)
      | some value =>
          pushBatchLoop w capacity tail values available (pushed + 1)
            (buffer.set (Word.add w tail pushed % capacity) (some value))

def pushBatch (w : Nat) (q : MpmcQueue T) (values : Nat → Option T) : Nat × MpmcQueue T :=
  let available := Word.sub w q.capacity (Word.sub w q.tail q.head)
  let r := pushBatchLoop w q.capacity q.tail values available 0 q.buffer
  (r.1, { q with buffer := r.2, tail := Word.add w q.tail r.1 })

/-- The loop of `pop_batch` over `0..items_to_pop`, from iteration `i` on with
    `items` iterations left. -/
def popBatchLoop (w capacity head : Nat) :
    Nat → Nat → List (Option T) → List T × List (Option T)
  | 0, _, buffer => ([], buffer)
  | items + 1, i, buffer =>
      let slot := Word.add w head i % capacity
      let r := popBatchLoop w capacity head items (i + 1) (buffer.set slot none)
      (buffer[slot]?.join.toList ++ r.1, r.2)

def popBatch (w : Nat) (q : MpmcQueue T) (maxValues : Nat) : List T × MpmcQueue T :=
  let items := min maxValues (Word.sub w q.tail q.head)
  let r := popBatchLoop w q.capacity q.head items 0 q.buffer
  (r.1, { q with buffer := r.2, head := Word.add w q.head items })

/-! ### Refinement of the bounded queue

`q.Models w xs` says that `q` represents the abstract queue `xs`: its indices are
free running indices of a ring that holds `xs`, reduced to words.  It holds of a
new queue, and `push` and `pop` are then the operations of `Fifo`.  A wrapped index
finds the right slot only when the capacity divides `2 ^ w`; until the tail has
passed the end of the word no capacity is excluded. -/

structure ModelsAt (w : Nat) (q : MpmcQueue T) (head tail : Nat) (xs : List T) : Prop where
  head_eq : q.head = head % 2 ^ w
  tail_eq : q.tail = tail % 2 ^ w
  refines : Fifo.Refines q.buffer q.capacity head tail xs
  capacity_lt : q.capacity < 2 ^ w
  wraps : tail < 2 ^ w ∨ q.capacity ∣ 2 ^ w

def Models (w : Nat) (q : MpmcQueue T) (xs : List T) : Prop :=
  ∃ head tail, q.ModelsAt w head tail xs

section Models

variable {w head tail position : Nat} {q : MpmcQueue T} {xs : List T}

theorem models_new (capacity : Capacity w) : (new capacity : MpmcQueue T).Models w [] := by
  refine ⟨0, 0, ?_, ?_, Fifo.refines_replicate capacity.val 0, capacity.lt, ?_⟩
  · exact (Nat.zero_mod _).symm
  · exact (Nat.zero_mod _).symm
  · exact Or.inl (Nat.two_pow_pos w)

/-- The slot of a reduced index is the slot of the index. -/
theorem ModelsAt.index_eq (h : q.ModelsAt w head tail xs) (hle : position ≤ tail) :
    q.index (position % 2 ^ w) = position % q.capacity := by
  rcases h.wraps with hlt | hdvd
  · rw [Nat.mod_eq_of_lt (by omega)]
    rfl
  · exact Nat.mod_mod_of_dvd position hdvd

theorem ModelsAt.head_le (h : q.ModelsAt w head tail xs) : head ≤ tail := by
  have := h.refines.tail_eq
  omega

theorem ModelsAt.index_head (h : q.ModelsAt w head tail xs) :
    q.index q.head = head % q.capacity := by
  rw [h.head_eq, h.index_eq h.head_le]

theorem ModelsAt.index_tail (h : q.ModelsAt w head tail xs) :
    q.index q.tail = tail % q.capacity := by
  rw [h.tail_eq, h.index_eq (Nat.le_refl _)]

theorem ModelsAt.sub_eq (h : q.ModelsAt w head tail xs) :
    Word.sub w q.tail q.head = xs.length := by
  have hlt : xs.length < 2 ^ w := Nat.lt_of_le_of_lt h.refines.length_le h.capacity_lt
  rw [h.head_eq, h.tail_eq, h.refines.tail_eq, Word.sub_mod]
  exact Word.sub_add_left hlt

theorem Models.len_eq (h : q.Models w xs) : q.len w = xs.length := by
  rcases h with ⟨head, tail, h⟩
  exact h.sub_eq

theorem Models.isEmpty_iff (h : q.Models w xs) : q.isEmpty = true ↔ xs = [] := by
  rcases h with ⟨head, tail, h⟩
  rw [isEmpty, beq_iff_eq]
  constructor
  · intro heq
    have hlen := h.sub_eq
    rw [heq, Word.sub_self] at hlen
    exact List.eq_nil_of_length_eq_zero hlen.symm
  · intro hxs
    subst hxs
    rw [h.head_eq, h.tail_eq, h.refines.tail_eq]
    rfl

/-- A push on a full queue is refused and changes nothing. -/
theorem Models.push_full (h : q.Models w xs) (hfull : q.capacity ≤ xs.length) (value : T) :
    q.push w value = (.error .wouldBlock, q) := by
  rcases h with ⟨head, tail, h⟩
  rw [push, h.sub_eq, if_pos hfull]

/-- A push with room left is accepted, writes an empty slot and appends. -/
theorem Models.push_room (h : q.Models w xs) (hroom : xs.length < q.capacity)
    (hwrap : q.tail + 1 < 2 ^ w ∨ q.capacity ∣ 2 ^ w) (value : T) :
    ∃ q', q.push w value = (.ok (), q') ∧ q'.Models w (xs ++ [value]) ∧
      q'.capacity = q.capacity ∧ q.buffer[q.index q.tail]? = some none := by
  rcases h with ⟨head, tail, h⟩
  have hnot : ¬ q.capacity ≤ Word.sub w q.tail q.head := by
    rw [h.sub_eq]
    omega
  refine ⟨{ q with buffer := q.buffer.set (q.index q.tail) (some value),
                   tail := Word.add w q.tail 1 }, ?_, ⟨head, tail + 1, ?_⟩, rfl, ?_⟩
  · rw [push, if_neg hnot]
  · refine ⟨h.head_eq, ?_, ?_, h.capacity_lt, ?_⟩
    · show Word.add w q.tail 1 = (tail + 1) % 2 ^ w
      rw [h.tail_eq, Word.add, Nat.mod_add_mod]
    · rw [h.index_tail]
      exact h.refines.push hroom value
    · rcases hwrap with hlt | hdvd
      · rcases h.wraps with htail | hdvd
        · rw [h.tail_eq, Nat.mod_eq_of_lt htail] at hlt
          exact Or.inl hlt
        · exact Or.inr hdvd
      · exact Or.inr hdvd
  · rw [h.index_tail]
    exact h.refines.tail_free hroom

theorem Models.pop_nil (h : q.Models w []) : q.pop w = (none, q) := by
  have heq : q.head = q.tail := beq_iff_eq.mp (h.isEmpty_iff.mpr rfl)
  rw [pop, if_pos heq]

theorem Models.pop_cons {x : T} (h : q.Models w (x :: xs)) :
    ∃ q', q.pop w = (some x, q') ∧ q'.Models w xs ∧ q'.capacity = q.capacity := by
  have hne : ¬ q.head = q.tail := by
    intro heq
    have hnil := h.isEmpty_iff.mp (beq_iff_eq.mpr heq)
    cases hnil
  rcases h with ⟨head, tail, h⟩
  have hslot : q.buffer[q.index q.head]?.join = some x := by
    rw [h.index_head, h.refines.head_full]
    rfl
  refine ⟨{ q with buffer := q.buffer.set (q.index q.head) none, head := Word.add w q.head 1 },
    ?_, ⟨head + 1, tail, ?_⟩, rfl⟩
  · rw [pop, if_neg hne, hslot]
  · refine ⟨?_, h.tail_eq, ?_, h.capacity_lt, h.wraps⟩
    · show Word.add w q.head 1 = (head + 1) % 2 ^ w
      rw [h.head_eq, Word.add, Nat.mod_add_mod]
    · rw [h.index_head]
      exact h.refines.pop

end Models

end MpmcQueue

end VelocityX.MpmcSimple
