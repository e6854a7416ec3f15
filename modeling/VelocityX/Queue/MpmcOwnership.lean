import Mathlib.Data.List.Range
import VelocityX.Queue.MpmcBatch

/-!
# Ownership in the lock-free bounded queue

A sequential run of `push`, `pop`, `push_batch` and `pop_batch` of the bounded `MpmcQueue` in
`src/queue/mpmc.rs`, after which the queue is dropped.  A slot of its buffer is an `AtomicPtr`:
`push` puts the value into a box and stores the pointer, `pop` takes the pointer, clears the slot
and reclaims the box with `Box::from_raw`.  The boxes are numbered in the order of their
allocation, and no number is used twice.

The queue has no `Drop` of its own, and an `AtomicPtr` does not own what it points to: dropping the
queue reclaims no box.
-/

namespace VelocityX.Mpmc

open Transition

variable {T : Type*} {w size : Nat}

/-- The queue of pointers, the values that have been put into boxes, and the boxes that have been
    reclaimed. -/
structure BoxQueue (T : Type*) where
  queue : MpmcQueue Nat
  boxes : List T
  reclaimed : List Nat
deriving DecidableEq

namespace BoxQueue

def new (w capacity : Nat) : Option (BoxQueue T) :=
  (MpmcQueue.new w capacity).map fun queue => ⟨queue, [], []⟩

/-- A refused value has not been put into a box.  A push that panics has allocated a box, which no
    accepted push owns. -/
def push (w : Nat) (q : BoxQueue T) (value : T) : Except PushFailure Unit × BoxQueue T :=
  match q.queue.push w q.boxes.length with
  | (.ok (), queue) => (.ok (), { q with queue := queue, boxes := q.boxes ++ [value] })
  | (.error failure, queue) => (.error failure, { q with queue := queue })

def pop (w : Nat) (q : BoxQueue T) : Option T × BoxQueue T :=
  match q.queue.pop w with
  | (some ptr, queue) =>
      (q.boxes[ptr]?, { q with queue := queue, reclaimed := q.reclaimed ++ [ptr] })
  | (none, queue) => (none, { q with queue := queue })

/-- The loop of `push_batch`; `none` says that it is still running, and the result is `pushed`, or
    `none` for the panic of `push`. -/
def pushBatchLoop (w : Nat) : Nat → Nat → BoxQueue T → Iter T → Option (Option Nat × BoxQueue T)
  | 0, _, _, _ => none
  | fuel + 1, pushed, q, values =>
      match values.next with
      | (none, _) => some (some pushed, q)
      | (some value, values) =>
          match q.push w value with
          | (.ok (), q) => pushBatchLoop w fuel (Word.add w pushed 1) q values
          | (.error (.returned _), q) => some (some pushed, q)
          | (.error .indexOutOfBounds, q) => some (none, q)

def pushBatch (w fuel : Nat) (q : BoxQueue T) (values : Iter T) :
    Option (Option Nat × BoxQueue T) :=
  pushBatchLoop w fuel 0 q values

/-- The loop of `pop_batch` with so many iterations left. -/
def popBatchLoop (w : Nat) : Nat → List T → BoxQueue T → List T × BoxQueue T
  | 0, values, q => (values, q)
  | iterations + 1, values, q =>
      match q.pop w with
      | (some value, q) => popBatchLoop w iterations (values ++ [value]) q
      | (none, q) => (values, q)

/-- `none` is the panic of `Vec::with_capacity`, before the first pop. -/
def popBatch (w size : Nat) (q : BoxQueue T) (maxValues : Nat) : Option (List T) × BoxQueue T :=
  match vecWithCapacity w size maxValues with
  | none => (none, q)
  | some values =>
      (some (popBatchLoop w maxValues values q).1, (popBatchLoop w maxValues values q).2)

/-- The boxes that have been reclaimed once the queue is dropped. -/
def drop (q : BoxQueue T) : List Nat := q.reclaimed

/-! ### Runs -/

inductive Call (T : Type*) where
  | push (value : T)
  | pop
  | pushBatch (fuel : Nat) (values : Iter T)
  | popBatch (maxValues : Nat)

def step (w size : Nat) (q : BoxQueue T) : Call T → Option (BoxQueue T)
  | .push value => some (q.push w value).2
  | .pop => some (q.pop w).2
  | .pushBatch fuel values => (q.pushBatch w fuel values).map Prod.snd
  | .popBatch maxValues => some (q.popBatch w size maxValues).2

/-- The call has more than `i` values to push. -/
def Call.Offers (i : Nat) : Call T → Prop
  | .push _ => i = 0
  | .pushBatch _ values => ∀ k ≤ i, values.upcoming k ≠ none
  | _ => False

/-- The number of positions in the window `[head, tail)`. -/
def window (w : Nat) (q : BoxQueue T) : Nat := Word.sub w q.queue.tail q.queue.head

/-- The full test keeps one position free, or the window has room for all values of the call, or
    there are no slots and nothing is accepted. -/
def HasRoom (w : Nat) (q : BoxQueue T) (c : Call T) : Prop :=
  q.queue.head < q.queue.capacity ∧ q.window w < q.queue.capacity ∨
    (∀ i, c.Offers i → q.window w + i < q.queue.capacity) ∨ q.queue.capacity = 0

/-- No box has been overwritten: each is in a slot until it is reclaimed. -/
def NoneOverwritten (q : BoxQueue T) : Prop :=
  ∀ a < q.boxes.length, a ∈ q.reclaimed ∨ some a ∈ q.queue.buffer

/-- Once the queue is dropped, each box has been reclaimed once, and nothing else has. -/
def OwnedOnce (q : BoxQueue T) : Prop := q.drop.Perm (List.range q.boxes.length)

instance (q : BoxQueue T) : Decidable q.OwnedOnce :=
  inferInstanceAs (Decidable (q.drop.Perm (List.range q.boxes.length)))

/-! ### One push and one pop -/

section Steps

variable {q : BoxQueue T} {value : T}

/-- The full test of `push`. -/
def IsFull (w : Nat) (q : BoxQueue T) : Prop :=
  Word.add w q.queue.tail 1 &&& q.queue.mask = q.queue.head

/-- The queue after a push that passed the full test. -/
def accept (w : Nat) (q : BoxQueue T) (value : T) : BoxQueue T :=
  { q with
    queue := { q.queue with
      buffer := q.queue.buffer.set (q.queue.index q.queue.tail) (some q.boxes.length)
      tail := Word.add w q.queue.tail 1
      generation := Word.add 64 q.queue.generation 1 }
    boxes := q.boxes ++ [value] }

/-- The queue after a pop that found the pointer `ptr`. -/
def take (w : Nat) (q : BoxQueue T) (ptr : Nat) : BoxQueue T :=
  { q with
    queue := { q.queue with
      buffer := q.queue.buffer.set (q.queue.index q.queue.head) none
      head := Word.add w q.queue.head 1
      generation := Word.add 64 q.queue.generation 1 }
    reclaimed := q.reclaimed ++ [ptr] }

theorem push_full (hfull : q.IsFull w) (value : T) :
    q.push w value = (.error (.returned .capacityExceeded), q) := by
  have hpush : q.queue.push w q.boxes.length =
      (.error (.returned .capacityExceeded), q.queue) := if_pos hfull
  rw [push, hpush]

theorem push_outside (hfull : ¬ q.IsFull w)
    (hslot : ¬ q.queue.index q.queue.tail < q.queue.buffer.length) (value : T) :
    q.push w value = (.error .indexOutOfBounds, q) := by
  rw [IsFull] at hfull
  simp [push, MpmcQueue.push, hfull, hslot]

theorem push_room (hfull : ¬ q.IsFull w)
    (hslot : q.queue.index q.queue.tail < q.queue.buffer.length) (value : T) :
    q.push w value = (.ok (), q.accept w value) := by
  rw [IsFull] at hfull
  simp [push, MpmcQueue.push, hfull, hslot, accept]

/-- A push leaves the queue as it is, or stores a new box. -/
theorem push_cases (w : Nat) (q : BoxQueue T) (value : T) :
    (∃ failure, q.push w value = (.error failure, q)) ∨
      q.push w value = (.ok (), q.accept w value) := by
  by_cases hfull : q.IsFull w
  · exact Or.inl ⟨_, push_full hfull value⟩
  · by_cases hslot : q.queue.index q.queue.tail < q.queue.buffer.length
    · exact Or.inr (push_room hfull hslot value)
    · exact Or.inl ⟨_, push_outside hfull hslot value⟩

theorem pop_empty (hempty : q.queue.head = q.queue.tail) : q.pop w = (none, q) := by
  simp [pop, MpmcQueue.pop, hempty]

theorem pop_null (hslot : q.queue.buffer[q.queue.index q.queue.head]?.join = none) :
    q.pop w = (none, q) := by
  simp [pop, MpmcQueue.pop, hslot]

theorem pop_ptr {ptr : Nat} (hne : q.queue.head ≠ q.queue.tail)
    (hslot : q.queue.buffer[q.queue.index q.queue.head]? = some (some ptr)) :
    q.pop w = (q.boxes[ptr]?, q.take w ptr) := by
  simp [pop, MpmcQueue.pop, hne, hslot, take]

/-- A pop leaves the queue as it is, or takes a pointer out of its slot. -/
theorem pop_cases (w : Nat) (q : BoxQueue T) :
    q.pop w = (none, q) ∨
      ∃ ptr, some ptr ∈ q.queue.buffer ∧ q.pop w = (q.boxes[ptr]?, q.take w ptr) := by
  by_cases hempty : q.queue.head = q.queue.tail
  · exact Or.inl (pop_empty hempty)
  · cases hslot : q.queue.buffer[q.queue.index q.queue.head]?.join with
    | none => exact Or.inl (pop_null hslot)
    | some ptr =>
      have hptr := Option.join_eq_some_iff.mp hslot
      exact Or.inr ⟨ptr, List.mem_of_getElem? hptr, pop_ptr hempty hptr⟩

theorem pushBatchLoop_none {values : Iter T} {fuel pushed : Nat}
    (hnone : values.upcoming 0 = none) :
    pushBatchLoop w (fuel + 1) pushed q values = some (some pushed, q) := by
  rw [pushBatchLoop, Iter.next, hnone]

theorem pushBatchLoop_error {values : Iter T} (fuel pushed : Nat) {failure : PushFailure}
    (hvalue : values.upcoming 0 = some value)
    (hpush : q.push w value = (.error failure, q)) :
    ∃ n, pushBatchLoop w (fuel + 1) pushed q values = some (n, q) := by
  cases failure with
  | returned error =>
    exact ⟨some pushed, by simp only [pushBatchLoop, Iter.next, hvalue, hpush]⟩
  | indexOutOfBounds =>
    exact ⟨none, by simp only [pushBatchLoop, Iter.next, hvalue, hpush]⟩

theorem pushBatchLoop_accept {values : Iter T} {fuel pushed : Nat}
    (hvalue : values.upcoming 0 = some value)
    (hpush : q.push w value = (.ok (), q.accept w value)) :
    pushBatchLoop w (fuel + 1) pushed q values =
      pushBatchLoop w fuel (Word.add w pushed 1) (q.accept w value) (values.advance 1) := by
  simp only [pushBatchLoop, Iter.next, hvalue, hpush]

end Steps

/-! ### What every call preserves

A property of the queue that accepted pushes and pops of a stored pointer preserve is preserved by
every call. -/

section Preserved

variable {I : BoxQueue T → Prop} {q q' : BoxQueue T}

theorem push_preserves (haccept : ∀ q value, I q → I (accept w q value)) (hq : I q) (value : T) :
    I (q.push w value).2 := by
  rcases push_cases w q value with ⟨failure, hpush⟩ | hpush
  · rw [hpush]
    exact hq
  · rw [hpush]
    exact haccept q value hq

theorem pop_preserves (htake : ∀ q ptr, some ptr ∈ q.queue.buffer → I q → I (take w q ptr))
    (hq : I q) : I (q.pop w).2 := by
  rcases pop_cases w q with hpop | ⟨ptr, hmem, hpop⟩
  · rw [hpop]
    exact hq
  · rw [hpop]
    exact htake q ptr hmem hq

theorem pushBatchLoop_preserves (haccept : ∀ q value, I q → I (accept w q value)) (fuel : Nat) :
    ∀ {q : BoxQueue T} {values : Iter T} {pushed : Nat} {n : Option Nat}, I q →
      pushBatchLoop w fuel pushed q values = some (n, q') → I q' := by
  induction fuel with
  | zero =>
    intro q values pushed n _ h
    cases h
  | succ fuel ih =>
    intro q values pushed n hq h
    cases hvalue : values.upcoming 0 with
    | none =>
      rw [pushBatchLoop_none hvalue] at h
      cases h
      exact hq
    | some value =>
      rcases push_cases w q value with ⟨failure, hpush⟩ | hpush
      · obtain ⟨m, hloop⟩ := pushBatchLoop_error fuel pushed hvalue hpush
        rw [hloop] at h
        cases h
        exact hq
      · rw [pushBatchLoop_accept hvalue hpush] at h
        exact ih (haccept q value hq) h

theorem popBatchLoop_preserves (hpop : ∀ q, I q → I (pop w q).2) (iterations : Nat) :
    ∀ {q : BoxQueue T} (values : List T), I q → I (q.popBatchLoop w iterations values).2 := by
  induction iterations with
  | zero => exact fun _ hq => hq
  | succ iterations ih =>
    intro q values hq
    have hnext := hpop q hq
    rw [popBatchLoop]
    cases hresult : q.pop w with
    | mk result q₁ =>
    rw [hresult] at hnext
    cases result with
    | none => exact hnext
    | some value => exact ih (values ++ [value]) hnext

theorem step_preserves (haccept : ∀ q value, I q → I (accept w q value))
    (htake : ∀ q ptr, some ptr ∈ q.queue.buffer → I q → I (take w q ptr)) {c : Call T}
    (hq : I q) (hstep : q.step w size c = some q') : I q' := by
  cases c with
  | push value =>
    cases hstep
    exact push_preserves haccept hq value
  | pop =>
    cases hstep
    exact pop_preserves htake hq
  | pushBatch fuel values =>
    obtain ⟨⟨n, _⟩, hbatch, rfl⟩ := Option.map_eq_some_iff.mp hstep
    exact pushBatchLoop_preserves haccept fuel hq hbatch
  | popBatch maxValues =>
    cases hstep
    rw [popBatch]
    split
    · exact hq
    · exact popBatchLoop_preserves (fun _ => pop_preserves htake) maxValues _ hq

end Preserved

/-! ### The boxes and the queue of values -/

/-- The queue with the values in place of the pointers to their boxes. -/
def values (q : BoxQueue T) : MpmcQueue T :=
  ⟨q.queue.buffer.map (·.bind fun ptr => q.boxes[ptr]?), q.queue.capacity, q.queue.mask,
    q.queue.head, q.queue.tail, q.queue.generation⟩

/-- The pointers in the slots point to boxes. -/
def InBounds (q : BoxQueue T) : Prop := ∀ a, some a ∈ q.queue.buffer → a < q.boxes.length

section Values

variable {q : BoxQueue T}

theorem inBounds_new {requested : Nat} (hq : new w requested = some q) : q.InBounds := by
  obtain ⟨queue, hqueue, rfl⟩ := Option.map_eq_some_iff.mp hq
  intro a ha
  rcases Nat.eq_zero_or_pos queue.capacity with hzero | hpos
  · rw [MpmcQueue.withCapacity_eq_slotless hqueue hzero] at ha
    cases ha
  · rw [MpmcQueue.withCapacity_eq_some hqueue hpos] at ha
    cases (List.mem_replicate.mp ha).2

theorem InBounds.accept (hq : q.InBounds) (value : T) : (q.accept w value).InBounds := by
  intro a ha
  show a < (q.boxes ++ [value]).length
  rw [List.length_append, List.length_singleton]
  rcases List.mem_or_eq_of_mem_set ha with hmem | heq
  · exact Nat.lt_succ_of_lt (hq a hmem)
  · cases heq
    exact Nat.lt_succ_self _

theorem InBounds.take (hq : q.InBounds) (ptr : Nat) : (q.take w ptr).InBounds := by
  intro a ha
  rcases List.mem_or_eq_of_mem_set ha with hmem | heq
  · exact hq a hmem
  · cases heq

/-- A push answers and stores as `push` on the values does. -/
theorem values_push (hq : q.InBounds) (value : T) :
    q.values.push w value = ((q.push w value).1, (q.push w value).2.values) := by
  have hindex : q.values.index q.values.tail = q.queue.index q.queue.tail := rfl
  have hlength : q.values.buffer.length = q.queue.buffer.length := List.length_map _
  by_cases hfull : q.IsFull w
  · rw [push_full hfull]
    exact if_pos hfull
  by_cases hslot : q.queue.index q.queue.tail < q.queue.buffer.length
  · have hold : q.queue.buffer.map (·.bind fun ptr => (q.boxes ++ [value])[ptr]?) =
        q.queue.buffer.map (·.bind fun ptr => q.boxes[ptr]?) := by
      apply List.map_congr_left
      intro slot hslot
      cases slot with
      | none => rfl
      | some a => exact List.getElem?_append_left (hq a hslot)
    have hpush : q.values.push w value = (.ok (), _) :=
      (if_neg hfull).trans (if_pos (by rw [hindex, hlength]; exact hslot))
    rw [hpush, push_room hfull hslot]
    simp only [values, accept, List.map_set, hold, Option.bind_some, List.getElem?_concat_length]
    rfl
  · rw [push_outside hfull hslot]
    exact (if_neg hfull).trans (if_neg (by rw [hindex, hlength]; exact hslot))

/-- A pop returns and leaves what `pop` on the values does. -/
theorem values_pop (hq : q.InBounds) :
    q.values.pop w = ((q.pop w).1, (q.pop w).2.values) := by
  have hread : q.values.buffer[q.queue.index q.queue.head]?.join =
      q.queue.buffer[q.queue.index q.queue.head]?.join.bind fun ptr => q.boxes[ptr]? := by
    rw [values, List.getElem?_map]
    cases q.queue.buffer[q.queue.index q.queue.head]? with
    | none => rfl
    | some slot => rfl
  have hindex : q.values.index q.values.head = q.queue.index q.queue.head := rfl
  by_cases hempty : q.queue.head = q.queue.tail
  · have hvalues : q.values.head = q.values.tail := hempty
    rw [pop_empty hempty, MpmcQueue.pop, if_pos hvalues]
  · have hvalues : q.values.head ≠ q.values.tail := hempty
    cases hslot : q.queue.buffer[q.queue.index q.queue.head]?.join with
    | none =>
      rw [hslot] at hread
      rw [pop_null hslot, MpmcQueue.pop, if_neg hvalues, hindex, hread]
      rfl
    | some ptr =>
      have hptr := Option.join_eq_some_iff.mp hslot
      have hmem : some ptr ∈ q.queue.buffer := List.mem_of_getElem? hptr
      obtain ⟨value, hbox⟩ : ∃ value, q.boxes[ptr]? = some value :=
        ⟨_, List.getElem?_eq_getElem (hq ptr hmem)⟩
      rw [hslot, Option.bind_some, hbox] at hread
      rw [pop_ptr hempty hptr, MpmcQueue.pop, if_neg hvalues, hindex, hread, hbox]
      simp [values, take, List.map_set]

/-- A batch of pushes counts and stores as it does on the values. -/
theorem values_pushBatchLoop (fuel : Nat) :
    ∀ {q : BoxQueue T} {values : Iter T} {pushed : Nat}, q.InBounds →
      (q.values.pushBatchLoop w fuel pushed values).map (fun r => (r.1, r.2.1)) =
        (pushBatchLoop w fuel pushed q values).map fun r => (r.1, r.2.values) := by
  induction fuel with
  | zero => exact fun _ => rfl
  | succ fuel ih =>
    intro q values pushed hq
    cases hvalue : values.upcoming 0 with
    | none =>
      rw [Mpmc.pushBatchLoop_none hvalue, pushBatchLoop_none hvalue]
      rfl
    | some value =>
      have hvalues := values_push (w := w) hq value
      rcases push_cases w q value with ⟨failure, hpush⟩ | hpush
      · rw [hpush] at hvalues
        cases failure with
        | returned error =>
          rw [Mpmc.pushBatchLoop_refused hvalue hvalues]
          simp [pushBatchLoop, Iter.next, hvalue, hpush]
        | indexOutOfBounds =>
          rw [Mpmc.pushBatchLoop_panicked hvalue hvalues]
          simp [pushBatchLoop, Iter.next, hvalue, hpush]
      · rw [hpush] at hvalues
        rw [Mpmc.pushBatchLoop_accepted hvalue hvalues, pushBatchLoop_accept hvalue hpush]
        exact ih (hq.accept value)

/-- A batch of pops returns and leaves what it does on the values. -/
theorem values_popBatchLoop (iterations : Nat) :
    ∀ {q : BoxQueue T} (values : List T), q.InBounds →
      q.values.popBatchLoop w iterations values =
        ((q.popBatchLoop w iterations values).1,
          (q.popBatchLoop w iterations values).2.values) := by
  induction iterations with
  | zero => exact fun _ _ => rfl
  | succ iterations ih =>
    intro q values hq
    have hnext : (q.pop w).2.InBounds :=
      pop_preserves (I := InBounds) (fun _ ptr _ hq => hq.take ptr) hq
    rw [MpmcQueue.popBatchLoop, popBatchLoop, values_pop hq]
    cases hpop : q.pop w with
    | mk result q₁ =>
    rw [hpop] at hnext
    cases result with
    | none => rfl
    | some value => exact ih (values ++ [value]) hnext

/-- The same call on the queue of values. -/
def valuesStep (w size : Nat) (q : MpmcQueue T) : Call T → Option (MpmcQueue T)
  | .push value => some (q.push w value).2
  | .pop => some (q.pop w).2
  | .pushBatch fuel values => (q.pushBatch w fuel values).map fun r => r.2.1
  | .popBatch maxValues => some (q.popBatch w size maxValues).2

theorem values_new {requested : Nat} (hq : new w requested = some q) :
    MpmcQueue.new w requested = some q.values := by
  obtain ⟨queue, hqueue, rfl⟩ := Option.map_eq_some_iff.mp hq
  rw [MpmcQueue.new, MpmcQueue.withCapacity] at hqueue ⊢
  split at hqueue
  · next hroom =>
    cases hqueue
    rw [if_pos hroom]
    simp [values]
  · cases hqueue

theorem values_step {q' : BoxQueue T} {c : Call T} (hq : q.InBounds)
    (hstep : step w size q c = some q') :
    q'.InBounds ∧ valuesStep w size q.values c = some q'.values := by
  constructor
  · exact step_preserves (I := InBounds) (fun _ value hq => hq.accept value)
      (fun _ ptr _ hq => hq.take ptr) hq hstep
  · cases c with
    | push value =>
      cases hstep
      rw [valuesStep, values_push hq]
    | pop =>
      cases hstep
      rw [valuesStep, values_pop hq]
    | pushBatch fuel values =>
      obtain ⟨⟨n, _⟩, hbatch, rfl⟩ := Option.map_eq_some_iff.mp hstep
      have hvalues : (q.values.pushBatchLoop w fuel 0 values).map (fun r => (r.1, r.2.1)) =
          (pushBatchLoop w fuel 0 q values).map fun r => (r.1, r.2.values) :=
        values_pushBatchLoop fuel hq
      rw [pushBatch] at hbatch
      rw [hbatch] at hvalues
      obtain ⟨⟨_, queue, _⟩, hqueue, heq⟩ := Option.map_eq_some_iff.mp hvalues
      cases heq
      rw [valuesStep, MpmcQueue.pushBatch, hqueue]
      rfl
    | popBatch maxValues =>
      cases hstep
      rw [valuesStep, MpmcQueue.popBatch, popBatch]
      cases vecWithCapacity w size maxValues with
      | none => rfl
      | some values => simp only [values_popBatchLoop maxValues values hq]

/-- **The queue of boxes refines the queue of values.**  A run from a new queue is one of the queue
    of values from a new one, and the slots always point to boxes. -/
theorem values_run {requested : Nat} {q' : BoxQueue T} (hq : new w requested = some q)
    (calls : List (Call T)) (hrun : run (step w size) q calls = some q') :
    q'.InBounds ∧ MpmcQueue.new w requested = some q.values ∧
      run (valuesStep w size) q.values calls = some q'.values := by
  have hsimulation : q'.InBounds ∧ run (valuesStep w size) q.values calls = some q'.values :=
    run_simulation (fun _ _ _ hq hstep => values_step hq hstep) (inBounds_new hq) hrun
  exact ⟨hsimulation.1, values_new hq, hsimulation.2⟩

end Values

/-! ### The ledger

While no box has been overwritten, the boxes that have not been reclaimed are those of the window,
each in the slot of its position. -/

/-- `xs` are the boxes of the window. -/
structure Ledger (w : Nat) (q : BoxQueue T) (xs : List Nat) : Prop where
  spans : q.queue.Spans w xs
  owned : (q.reclaimed ++ xs).Perm (List.range q.boxes.length)

/-- The box `a` has been overwritten: it has not been reclaimed, and no slot points to it. -/
structure Lost (q : BoxQueue T) (a : Nat) : Prop where
  allocated : a < q.boxes.length
  kept : a ∉ q.reclaimed
  unreachable : some a ∉ q.queue.buffer

section Ledger

variable {q q' : BoxQueue T} {xs : List Nat} {value : T} {a ptr : Nat}

theorem Ledger.window_eq (hq : q.Ledger w xs) : q.window w = xs.length := hq.spans.window_eq

theorem Ledger.isFull_iff (hq : q.Ledger w xs) :
    q.IsFull w ↔ q.queue.head < q.queue.capacity ∧ xs.length + 1 = q.queue.capacity :=
  hq.spans.sized.full_iff.trans hq.spans.full_iff

theorem Ledger.push_room (hq : q.Ledger w xs) (hfull : ¬ q.IsFull w) (value : T) :
    q.push w value = (.ok (), q.accept w value) :=
  BoxQueue.push_room hfull (hq.spans.sized.index_lt _) value

theorem ledger_new {requested : Nat} (hq : new w requested = some q)
    (hpos : 0 < q.queue.capacity) : q.Ledger w [] := by
  obtain ⟨queue, hqueue, rfl⟩ := Option.map_eq_some_iff.mp hq
  exact ⟨MpmcQueue.spans_new hqueue hpos, List.Perm.refl _⟩

/-- A push with room in the window. -/
theorem Ledger.accept (hq : q.Ledger w xs) (hfull : ¬ q.IsFull w)
    (hroom : xs.length < q.queue.capacity) (value : T) :
    (q.accept w value).Ledger w (xs ++ [q.boxes.length]) := by
  rw [IsFull, hq.spans.sized.full_iff] at hfull
  constructor
  · exact hq.spans.push hfull (hq.spans.tail_free hroom) q.boxes.length
  · show (q.reclaimed ++ (xs ++ [q.boxes.length])).Perm (List.range (q.boxes ++ [value]).length)
    rw [← List.append_assoc, List.length_append, List.length_singleton, List.range_succ]
    exact hq.owned.append_right _

/-- A push on a window that is as long as the buffer. -/
theorem Ledger.accept_overwrites (hq : q.Ledger w xs) (hlength : xs.length = q.queue.capacity)
    (value : T) : ∃ a, (q.accept w value).Lost a := by
  cases xs with
  | nil => exact absurd hlength (Nat.ne_of_lt hq.spans.sized.pos)
  | cons a xs =>
    have hlt : a < q.boxes.length := by
      rw [← List.mem_range, ← hq.owned.mem_iff]
      simp
    have hnodup : (q.reclaimed ++ a :: xs).Nodup := hq.owned.nodup_iff.mpr List.nodup_range
    refine ⟨a, ?_, ?_, ?_⟩
    · show a < (q.boxes ++ [value]).length
      rw [List.length_append, List.length_singleton]
      exact Nat.lt_succ_of_lt hlt
    · intro hmem
      exact List.disjoint_of_nodup_append hnodup hmem List.mem_cons_self
    · -- the slot after the window is the first of it, and no other slot points to the box
      have hindex := hq.spans.index_tail_full hlength
      intro hmem
      obtain ⟨i, hi⟩ := List.mem_iff_getElem?.mp hmem
      have hi : (q.queue.buffer.set (q.queue.index q.queue.tail) (some q.boxes.length))[i]? =
        some (some a) := hi
      by_cases htail : q.queue.index q.queue.tail = i
      · rw [List.getElem?_set, if_pos htail] at hi
        split at hi
        · cases hi
          exact Nat.lt_irrefl _ hlt
        · cases hi
      · rw [List.getElem?_set_ne htail] at hi
        obtain ⟨k, hk, hslot⟩ := hq.spans.holds.covers i a hi
        have hfull := hq.spans.holds.full k _ (List.getElem?_eq_getElem hk)
        rw [hslot, hi, Option.some.injEq, Option.some.injEq] at hfull
        have hzero : k = 0 := by
          have hsame : (a :: xs)[0]? = (a :: xs)[k]? := by
            rw [List.getElem?_eq_getElem hk, ← hfull]
            rfl
          exact ((List.getElem?_inj (Nat.succ_pos _)
            (hnodup.sublist (List.sublist_append_right _ _))).mp hsame).symm
        rw [hzero] at hslot
        exact htail (hindex.trans hslot)

theorem Ledger.pop_nil (hq : q.Ledger w []) : q.pop w = (none, q) := by
  apply pop_empty
  rw [hq.spans.tail_eq]
  exact (Word.add_zero_of_lt hq.spans.head_lt).symm

/-- A pop on a window that is not empty returns its first box. -/
theorem Ledger.pop_cons (hq : q.Ledger w (a :: xs)) :
    q.pop w = (q.boxes[a]?, q.take w a) ∧ (q.take w a).Ledger w xs := by
  constructor
  · exact pop_ptr hq.spans.head_ne_tail hq.spans.head_full
  · constructor
    · exact hq.spans.pop_cons
    · show (q.reclaimed ++ [a] ++ xs).Perm (List.range q.boxes.length)
      rw [List.append_assoc]
      exact hq.owned

end Ledger

/-! ### A lost box stays lost -/

section Lost

variable {q q' : BoxQueue T} {a : Nat}

theorem Lost.accept (hq : q.Lost a) (w : Nat) (value : T) : (q.accept w value).Lost a := by
  refine ⟨?_, hq.kept, fun hmem => ?_⟩
  · show a < (q.boxes ++ [value]).length
    rw [List.length_append, List.length_singleton]
    exact Nat.lt_succ_of_lt hq.allocated
  · rcases List.mem_or_eq_of_mem_set hmem with hold | hnew
    · exact hq.unreachable hold
    · cases hnew
      exact Nat.lt_irrefl _ hq.allocated

/-- A pop reclaims a box that a slot points to. -/
theorem Lost.take {ptr : Nat} (hq : q.Lost a) (w : Nat) (hptr : some ptr ∈ q.queue.buffer) :
    (q.take w ptr).Lost a := by
  refine ⟨hq.allocated, fun hmem => ?_, fun hmem => ?_⟩
  · rcases List.mem_append.mp hmem with hold | hnew
    · exact hq.kept hold
    · rw [List.mem_singleton] at hnew
      exact hq.unreachable (hnew ▸ hptr)
  · rcases List.mem_or_eq_of_mem_set hmem with hold | hnew
    · exact hq.unreachable hold
    · cases hnew

theorem Lost.step {c : Call T} (hq : q.Lost a) (hstep : q.step w size c = some q') : q'.Lost a :=
  step_preserves (I := fun q => q.Lost a) (fun _ value hq => hq.accept w value)
    (fun _ _ hptr hq => hq.take w hptr) hq hstep

end Lost

/-! ### One call -/

section Calls

variable {q q' : BoxQueue T} {xs : List Nat} {values : Iter T} {value : T} {fuel fuel' : Nat}

theorem offers_succ (hvalue : values.upcoming 0 = some value) (i : Nat) :
    (Call.pushBatch fuel values).Offers (i + 1) ↔
      (Call.pushBatch fuel' (values.advance 1)).Offers i := by
  constructor
  · intro hoffers k hk
    rw [Iter.upcoming_advance, Nat.add_comm]
    exact hoffers (k + 1) (Nat.succ_le_succ hk)
  · intro hoffers k hk
    cases k with
    | zero => simp [hvalue]
    | succ k =>
      have hk' := hoffers k (Nat.le_of_succ_le_succ hk)
      rwa [Iter.upcoming_advance, Nat.add_comm] at hk'

theorem hasRoom_of_none (hnone : values.upcoming 0 = none) :
    q.HasRoom w (.pushBatch fuel values) :=
  Or.inr (Or.inl fun i hoffers => absurd hnone (hoffers 0 (Nat.zero_le i)))

theorem Ledger.hasRoom_of_full (hq : q.Ledger w xs) (hfull : q.IsFull w) (c : Call T) :
    q.HasRoom w c := by
  obtain ⟨hlt, hlast⟩ := hq.isFull_iff.mp hfull
  left
  rw [hq.window_eq]
  omega

/-- There is room for the values of a batch exactly when there is room for the first and, after it,
    for the others. -/
theorem Ledger.hasRoom_accept (hq : q.Ledger w xs) (hfull : ¬ q.IsFull w)
    (hroom : xs.length < q.queue.capacity) (hvalue : values.upcoming 0 = some value) :
    (q.accept w value).HasRoom w (.pushBatch fuel (values.advance 1)) ↔
      q.HasRoom w (.pushBatch fuel' values) := by
  have hwindow := (hq.accept hfull hroom value).window_eq
  rw [List.length_append, List.length_singleton] at hwindow
  have hhead : (q.accept w value).queue.head = q.queue.head := rfl
  have hcapacity : (q.accept w value).queue.capacity = q.queue.capacity := rfl
  rw [HasRoom, HasRoom, hwindow, hq.window_eq, hhead, hcapacity]
  rw [hq.isFull_iff] at hfull
  refine or_congr ?_ (or_congr_left ?_)
  · omega
  · constructor
    · intro hall i hoffers
      cases i with
      | zero => exact hroom
      | succ i =>
        have hi := hall i ((offers_succ hvalue i).mp hoffers)
        omega
    · intro hall i hoffers
      have hi := hall (i + 1) ((offers_succ hvalue i).mpr hoffers)
      omega

/-- There is no room for the first value of a batch. -/
theorem Ledger.not_hasRoom (hq : q.Ledger w xs) (hlength : ¬ xs.length < q.queue.capacity)
    {c : Call T} (hoffers : c.Offers 0) : ¬ q.HasRoom w c := by
  rw [HasRoom, hq.window_eq]
  rintro (hroom | hroom | hzero)
  · exact hlength hroom.2
  · exact hlength (hroom 0 hoffers)
  · exact Nat.ne_of_gt hq.spans.sized.pos hzero

/-- **What `push_batch` does to the ledger.**  It keeps it if there was room for its values, and
    otherwise overwrites a box. -/
theorem Ledger.pushBatchLoop (fuel : Nat) :
    ∀ {q : BoxQueue T} {xs : List Nat} {values : Iter T} {pushed : Nat} {n : Option Nat},
      q.Ledger w xs →
      pushBatchLoop w fuel pushed q values = some (n, q') →
      (q.HasRoom w (.pushBatch fuel values) → ∃ ys, q'.Ledger w ys) ∧
        (¬ q.HasRoom w (.pushBatch fuel values) → ∃ a, q'.Lost a) := by
  induction fuel with
  | zero =>
    intro q xs values pushed n _ h
    cases h
  | succ fuel ih =>
    intro q xs values pushed n hq h
    cases hvalue : values.upcoming 0 with
    | none =>
      rw [pushBatchLoop_none hvalue] at h
      cases h
      exact ⟨fun _ => ⟨xs, hq⟩, fun hnot => absurd (hasRoom_of_none hvalue) hnot⟩
    | some value =>
      by_cases hfull : q.IsFull w
      · obtain ⟨m, hloop⟩ :=
          pushBatchLoop_error fuel pushed hvalue (push_full hfull value)
        rw [hloop] at h
        cases h
        exact ⟨fun _ => ⟨xs, hq⟩, fun hnot => absurd (hq.hasRoom_of_full hfull _) hnot⟩
      · rw [pushBatchLoop_accept hvalue (hq.push_room hfull value)] at h
        by_cases hroom : xs.length < q.queue.capacity
        · have hrest := ih (hq.accept hfull hroom value) h
          rwa [hq.hasRoom_accept hfull hroom hvalue] at hrest
        · have hlength := Nat.le_antisymm hq.spans.length_le (Nat.le_of_not_lt hroom)
          obtain ⟨a, hlost⟩ := hq.accept_overwrites hlength value
          refine ⟨fun hhas => absurd hhas (hq.not_hasRoom hroom ?_), fun _ => ⟨a, ?_⟩⟩
          · intro k hk
            rw [Nat.le_zero.mp hk, hvalue]
            exact Option.some_ne_none value
          · exact pushBatchLoop_preserves (I := fun q => q.Lost a)
              (fun _ value hq => hq.accept w value) fuel hlost h

theorem Ledger.pop (hq : q.Ledger w xs) : ∃ ys, (q.pop w).2.Ledger w ys := by
  cases xs with
  | nil =>
    rw [hq.pop_nil]
    exact ⟨[], hq⟩
  | cons a xs =>
    rw [hq.pop_cons.1]
    exact ⟨xs, hq.pop_cons.2⟩

/-- **What a call does to the ledger.** -/
theorem Ledger.step {c : Call T} (hq : q.Ledger w xs) (hstep : q.step w size c = some q') :
    (q.HasRoom w c → ∃ ys, q'.Ledger w ys) ∧ (¬ q.HasRoom w c → ∃ a, q'.Lost a) := by
  cases c with
  | push value =>
    cases hstep
    by_cases hfull : q.IsFull w
    · rw [push_full hfull]
      exact ⟨fun _ => ⟨xs, hq⟩, fun hnot => absurd (hq.hasRoom_of_full hfull _) hnot⟩
    · rw [hq.push_room hfull]
      by_cases hroom : xs.length < q.queue.capacity
      · refine ⟨fun _ => ⟨_, hq.accept hfull hroom value⟩,
          fun hnot => absurd (Or.inr (Or.inl ?_)) hnot⟩
        rintro i rfl
        rwa [hq.window_eq]
      · have hlength := Nat.le_antisymm hq.spans.length_le (Nat.le_of_not_lt hroom)
        exact ⟨fun hhas => absurd hhas (hq.not_hasRoom hroom rfl),
          fun _ => hq.accept_overwrites hlength value⟩
  | pop =>
    cases hstep
    exact ⟨fun _ => hq.pop,
      fun hnot => absurd (Or.inr (Or.inl fun _ hoffers => hoffers.elim)) hnot⟩
  | pushBatch fuel values =>
    obtain ⟨⟨n, _⟩, hbatch, rfl⟩ := Option.map_eq_some_iff.mp hstep
    exact Ledger.pushBatchLoop fuel hq hbatch
  | popBatch maxValues =>
    cases hstep
    refine ⟨fun _ => ?_,
      fun hnot => absurd (Or.inr (Or.inl fun _ hoffers => hoffers.elim)) hnot⟩
    rw [popBatch]
    split
    · exact ⟨xs, hq⟩
    · exact popBatchLoop_preserves (I := fun q => ∃ ys, Ledger w q ys)
        (fun _ ⟨_, hq⟩ => hq.pop) maxValues _ ⟨xs, hq⟩

end Calls

/-! ### Runs -/

section Runs

variable {q q' : BoxQueue T} {xs : List Nat}

theorem Ledger.noneOverwritten (hq : q.Ledger w xs) : q.NoneOverwritten := by
  intro a ha
  rw [← List.mem_range, ← hq.owned.mem_iff, List.mem_append] at ha
  rcases ha with hreclaimed | hwindow
  · exact Or.inl hreclaimed
  · obtain ⟨k, hk⟩ := List.mem_iff_getElem?.mp hwindow
    exact Or.inr (List.mem_of_getElem? (hq.spans.holds.full k a hk))

theorem Lost.not_noneOverwritten {a : Nat} (hq : q.Lost a) : ¬ q.NoneOverwritten :=
  fun hall => (hall a hq.allocated).elim hq.kept hq.unreachable

theorem Lost.not_ownedOnce {a : Nat} (hq : q.Lost a) : ¬ q.OwnedOnce :=
  fun howned => hq.kept (howned.mem_iff.mpr (List.mem_range.mpr hq.allocated))

/-- With the ledger in order, what is left in the window is what the drop does not reclaim. -/
theorem Ledger.drop_owns_iff (hq : q.Ledger w xs) :
    q.OwnedOnce ↔ q.queue.head = q.queue.tail := by
  constructor
  · intro howned
    have hlength := howned.length_eq.trans hq.owned.length_eq.symm
    rw [drop, List.length_append] at hlength
    have hempty : xs.length = 0 := by omega
    rw [hq.spans.tail_eq, hempty, Word.add_zero_of_lt hq.spans.head_lt]
  · intro hhead
    cases xs with
    | nil =>
      have howned := hq.owned
      rwa [List.append_nil] at howned
    | cons x xs => exact absurd hhead hq.spans.head_ne_tail

/-- The queue without slots and without boxes. -/
def slotless (w : Nat) : BoxQueue T := ⟨MpmcQueue.slotless w, [], []⟩

theorem slotless_push (w : Nat) (value : T) :
    ∃ failure, (slotless w).push w value = (.error failure, slotless w) := by
  obtain ⟨failure, hpush⟩ := MpmcQueue.slotless_push w 0
  exact ⟨failure, by simp only [slotless, push, List.length_nil, hpush]⟩

/-- Without slots nothing is accepted, and nothing changes. -/
theorem slotless_step {c : Call T} (hstep : step w size (slotless w) c = some q') :
    q' = slotless w := by
  cases c with
  | push value =>
    obtain ⟨failure, hpush⟩ := slotless_push w value
    rw [step, hpush] at hstep
    cases hstep
    rfl
  | pop =>
    cases hstep
    rfl
  | pushBatch fuel values =>
    obtain ⟨⟨n, _⟩, hbatch, rfl⟩ := Option.map_eq_some_iff.mp hstep
    rw [pushBatch] at hbatch
    cases fuel with
    | zero => cases hbatch
    | succ fuel =>
      cases hvalue : values.upcoming 0 with
      | none =>
        rw [pushBatchLoop_none hvalue] at hbatch
        cases hbatch
        rfl
      | some value =>
        obtain ⟨failure, hpush⟩ := slotless_push w value
        obtain ⟨m, hloop⟩ := pushBatchLoop_error fuel 0 hvalue hpush
        rw [hloop] at hbatch
        cases hbatch
        rfl
  | popBatch maxValues =>
    cases hstep
    rw [popBatch]
    split
    · rfl
    · cases maxValues with
      | zero => rfl
      | succ maxValues => rfl

theorem slotless_run (calls : List (Call T))
    (hrun : run (step w size) (slotless w) calls = some q') :
    q' = slotless w ∧ Along (step w size) (HasRoom w) (slotless w) calls := by
  have hstep : ∀ (q : BoxQueue T) (c : Call T) (m : BoxQueue T), q = slotless w →
      step w size q c = some m → m = slotless w := by
    rintro q c m rfl hm
    exact slotless_step hm
  refine ⟨run_invariant (I := fun q => q = slotless w) hstep rfl hrun, ?_⟩
  refine (along_congr (I := fun q => q = slotless w) (D := fun _ _ => True) hstep ?_ rfl).mpr
    (along_of_forall (fun _ _ => trivial) _ _)
  rintro q c rfl
  exact iff_of_true (Or.inr (Or.inr rfl)) trivial

/-- **Which runs own every box once.**  In a run from a new queue no box is overwritten if and only
    if every call with values to push had room for them or found the full test in order; and after
    the queue has been dropped every box has been reclaimed once if and only if, moreover, the
    queue was empty then. -/
theorem reclaimedOnce_iff {requested : Nat} {q q' : BoxQueue T} (hq : new w requested = some q)
    (calls : List (Call T)) (hrun : run (step w size) q calls = some q') :
    (q'.NoneOverwritten ↔ Along (step w size) (HasRoom w) q calls) ∧
    (q'.OwnedOnce ↔
      Along (step w size) (HasRoom w) q calls ∧ q'.queue.head = q'.queue.tail) := by
  rcases Nat.eq_zero_or_pos q.queue.capacity with hzero | hpos
  · obtain ⟨queue, hqueue, rfl⟩ := Option.map_eq_some_iff.mp hq
    have hslotless : (⟨queue, [], []⟩ : BoxQueue T) = slotless w := by
      rw [MpmcQueue.withCapacity_eq_slotless hqueue hzero]
      rfl
    rw [hslotless] at hrun ⊢
    obtain ⟨rfl, hroom⟩ := slotless_run calls hrun
    exact ⟨iff_of_true (fun a ha => absurd ha (Nat.not_lt_zero a)) hroom,
      iff_of_true (List.Perm.refl _) ⟨hroom, rfl⟩⟩
  have hledger : ∃ xs, q.Ledger w xs := ⟨[], ledger_new hq hpos⟩
  by_cases hroom : Along (step w size) (HasRoom w) q calls
  · obtain ⟨xs, hxs⟩ := run_invariant_along (I := fun q => ∃ xs, Ledger w q xs)
      (fun q c m ⟨xs, hxs⟩ hc hm => (hxs.step hm).1 hc) hledger hroom hrun
    exact ⟨iff_of_true hxs.noneOverwritten hroom,
      hxs.drop_owns_iff.trans ⟨fun hhead => ⟨hroom, hhead⟩, And.right⟩⟩
  · obtain ⟨a, hlost⟩ := run_of_not_along (I := fun q => ∃ xs, Ledger w q xs)
      (J := fun q => ∃ a, Lost q a) (fun q c m ⟨xs, hxs⟩ hc hm => (hxs.step hm).1 hc)
      (fun q c m ⟨xs, hxs⟩ hc hm => (hxs.step hm).2 hc)
      (fun q c m ⟨a, ha⟩ hm => ⟨a, ha.step hm⟩) hledger hrun hroom
    exact ⟨iff_of_false hlost.not_noneOverwritten hroom,
      iff_of_false hlost.not_ownedOnce fun h => hroom h.1⟩

/-- A value that is pushed and popped. -/
theorem reclaimedOnce_iff_pushAndPop :
    (⟨⟨[none, none], 2, 1, 1, 1, 2⟩, [7], [0]⟩ : BoxQueue Nat).OwnedOnce := by
  have hq : new 64 2 = some (⟨⟨[none, none], 2, 1, 0, 0, 0⟩, [], []⟩ : BoxQueue Nat) := by decide
  have hrun : run (step 64 8) (⟨⟨[none, none], 2, 1, 0, 0, 0⟩, [], []⟩ : BoxQueue Nat)
      [.push 7, .pop] = some ⟨⟨[none, none], 2, 1, 1, 1, 2⟩, [7], [0]⟩ := rfl
  refine (reclaimedOnce_iff hq [.push 7, .pop] hrun).2.mpr ⟨?_, rfl⟩
  refine ⟨Or.inl (by decide),
    fun m hm => ⟨Or.inr (Or.inl fun _ hoffers => hoffers.elim), ?_⟩⟩
  exact fun _ _ => trivial

/-- A value that is in the queue when the queue is dropped. -/
theorem pushed_value_leaked :
    ¬ ∀ (requested : Nat) (q q' : BoxQueue Nat) (calls : List (Call Nat)),
      new 64 requested = some q → run (step 64 8) q calls = some q' → q'.OwnedOnce := by
  intro hall
  have howned := hall 2 ⟨⟨[none, none], 2, 1, 0, 0, 0⟩, [], []⟩
    ⟨⟨[some 0, none], 2, 1, 0, 1, 1⟩, [7], []⟩ [.push 7] (by decide) rfl
  exact absurd howned (by decide)

end Runs

end BoxQueue

end VelocityX.Mpmc
