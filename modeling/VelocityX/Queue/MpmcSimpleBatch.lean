import VelocityX.Lib.Iter
import VelocityX.Queue.MpmcSimpleContents

/-!
# Batches of the default bounded queue

`push_batch` on an iterator that the caller keeps, and the equality of the batch operations with
repeated `push` and `pop`.  A batch recomputes free space, slots and the index store once; the
single operations do it for each value.
-/

namespace VelocityX.MpmcSimple

variable {T : Type*} {w : Nat}

namespace MpmcQueue

/-- The queue after a run. -/
def after (w : Nat) (q : MpmcQueue T) (ops : List (QueueOp T)) : MpmcQueue T :=
  ops.foldl (fun q op => (q.apply w op).2) q

/-- The loop of `push_batch`, together with the iterator it leaves behind. -/
def pushBatchFromLoop (w capacity tail : Nat) :
    Nat → Nat → List (Option T) → Iter T → Nat × List (Option T) × Iter T
  | 0, pushed, buffer, values => (pushed, buffer, values)
  | available + 1, pushed, buffer, values =>
      match values.next with
      | (none, values) => (pushed, buffer, values)
      | (some value, values) =>
          pushBatchFromLoop w capacity tail available (pushed + 1)
            (buffer.set (Word.add w tail pushed % capacity) (some value)) values

/-- `push_batch` with an iterator passed by reference. -/
def pushBatchFrom (w : Nat) (q : MpmcQueue T) (values : Iter T) : Nat × MpmcQueue T × Iter T :=
  let available := Word.sub w q.capacity (Word.sub w q.tail q.head)
  let r := pushBatchFromLoop w q.capacity q.tail available 0 q.buffer values
  (r.1, { q with buffer := r.2.1, tail := Word.add w q.tail r.1 }, r.2.2)

/-- The values that an operation puts into the queue. -/
def pushedBy (w : Nat) (q : MpmcQueue T) : QueueOp T → List T
  | .push value => if (q.push w value).1 = .ok () then [value] else []
  | .pushBatch values => (Iter.mk values 0).collect (q.pushBatch w values).1
  | _ => []

/-- All values that a run puts into the queue. -/
def accepted (w : Nat) : MpmcQueue T → List (QueueOp T) → List T
  | _, [] => []
  | q, op :: ops => q.pushedBy w op ++ (q.apply w op).2.accepted w ops

end MpmcQueue

open MpmcQueue

/-! ### A batch of pushes -/

section PushBatch

variable {q : MpmcQueue T} {n available pushed tail : Nat}

theorem after_cons (q : MpmcQueue T) (op : QueueOp T) (ops : List (QueueOp T)) :
    q.after w (op :: ops) = (q.apply w op).2.after w ops := rfl

theorem after_append (q : MpmcQueue T) (ops ops' : List (QueueOp T)) :
    q.after w (ops ++ ops') = (q.after w ops).after w ops' := List.foldl_append

/-- What the loop does to the queue does not depend on who owns the iterator. -/
theorem pushBatchFromLoop_eq (w c tail : Nat) (values : Iter T) (available : Nat) :
    ∀ (pushed : Nat) (buffer : List (Option T)),
      ((pushBatchFromLoop w c tail available pushed buffer (values.advance pushed)).1,
        (pushBatchFromLoop w c tail available pushed buffer (values.advance pushed)).2.1) =
      pushBatchLoop w c tail values.upcoming available pushed buffer := by
  induction available with
  | zero =>
    intro pushed buffer
    rfl
  | succ available ih =>
    intro pushed buffer
    rw [pushBatchFromLoop, pushBatchLoop, Iter.next, Iter.upcoming_advance, Nat.add_zero,
      Iter.advance_advance]
    cases values.upcoming pushed with
    | none => rfl
    | some value => exact ih (pushed + 1) _

theorem pushBatchFrom_eq (q : MpmcQueue T) (values : Iter T) :
    ((q.pushBatchFrom w values).1, (q.pushBatchFrom w values).2.1) =
      q.pushBatch w values.upcoming := by
  have hloop := pushBatchFromLoop_eq w q.capacity q.tail values
    (Word.sub w q.capacity (Word.sub w q.tail q.head)) 0 q.buffer
  rw [Iter.advance_zero] at hloop
  simp only [pushBatchFrom, MpmcQueue.pushBatch, ← hloop]

/-- The state of the queue between two rounds of the loop. -/
theorem MpmcQueue.Windowed.push_eq (hq : q.Windowed w n) (hroom : n < q.capacity) (value : T) :
    q.push w value = (.ok (), { q with buffer := q.buffer.set (q.index q.tail) (some value),
                                       tail := Word.add w q.tail 1 }) := by
  rw [MpmcQueue.push, hq.len_eq, if_neg (Nat.not_le.mpr hroom)]

/-- **The loop of `push_batch`.**  From the state after `pushed` rounds on, it takes values up to
    its limit and does what pushing them one after the other does. -/
theorem pushBatchFromLoop_spec (available : Nat) :
    ∀ {q : MpmcQueue T} {n pushed : Nat} (values : Iter T), q.Windowed w n →
      n + available ≤ q.capacity → q.tail = Word.add w tail pushed →
      ∃ m calls buffer, pushBatchFromLoop w q.capacity tail available pushed q.buffer values =
          (pushed + m, buffer, values.advance calls) ∧
        values.Takes available m calls ∧
        q.after w ((values.collect m).map .push) =
          { q with buffer := buffer, tail := Word.add w tail (pushed + m) } ∧
        q.replies w ((values.collect m).map .push) =
          (values.collect m).map fun _ => .push (.ok ()) := by
  induction available with
  | zero =>
    intro q n pushed values _ _ htail
    refine ⟨0, 0, q.buffer, rfl, values.takes_zero, ?_, rfl⟩
    rw [Nat.add_zero, ← htail]
    rfl
  | succ available ih =>
    intro q n pushed values hq hroom htail
    cases hvalue : values.upcoming 0 with
    | none =>
      refine ⟨0, 1, q.buffer, ?_, Iter.takes_none hvalue, ?_, rfl⟩
      · rw [pushBatchFromLoop, Iter.next, hvalue]
        rfl
      · rw [Nat.add_zero, ← htail]
        rfl
    | some value =>
      have hpush := hq.push_eq (by omega) value
      obtain ⟨q', hpush', hq'⟩ := hq.push_room (by omega) value
      rw [hpush] at hpush'
      cases hpush'
      have htail' : Word.add w q.tail 1 = Word.add w tail (pushed + 1) := by
        rw [htail, Word.add_add]
      obtain ⟨m, calls, buffer, hloop, htakes, hafter, hreplies⟩ :=
        ih (values.advance 1) hq' (by show n + 1 + available ≤ q.capacity; omega) htail'
      have hcollect : values.collect (m + 1) = value :: (values.advance 1).collect m := by
        rw [Nat.add_comm m 1, Iter.collect_add]
        simp [Iter.collect, Iter.next, hvalue]
      refine ⟨m + 1, calls + 1, buffer, ?_, Iter.takes_some hvalue htakes, ?_, ?_⟩
      · rw [pushBatchFromLoop, Iter.next, hvalue, ← htail]
        show pushBatchFromLoop w q.capacity tail available (pushed + 1)
          (q.buffer.set (q.tail % q.capacity) (some value)) (values.advance 1) = _
        rw [MpmcQueue.index] at hloop
        rw [hloop, Iter.advance_advance, Nat.add_assoc, Nat.add_comm 1 m, Nat.add_comm 1 calls]
      · rw [hcollect, List.map_cons, after_cons, MpmcQueue.apply, hpush, hafter, Nat.add_assoc,
          Nat.add_comm 1 m]
      · rw [hcollect, List.map_cons, MpmcQueue.replies, MpmcQueue.apply, hpush, hreplies]
        rfl

/-- A batch on an iterator passed by reference. -/
theorem MpmcQueue.Windowed.pushBatchFrom (hq : q.Windowed w n) (values : Iter T) :
    ∃ m calls, values.Takes (q.capacity - n) m calls ∧
      q.pushBatchFrom w values =
        (m, q.after w ((values.collect m).map .push), values.advance calls) ∧
      q.replies w ((values.collect m).map .push) =
        (values.collect m).map fun _ => .push (.ok ()) := by
  have hle := hq.le_capacity
  have htail : q.tail = Word.add w q.tail 0 := by
    rw [Word.add_zero_of_lt (hq.tail_eq ▸ Word.add_lt w _ _)]
  obtain ⟨m, calls, buffer, hloop, htakes, hafter, hreplies⟩ :=
    pushBatchFromLoop_spec (q.capacity - n) values hq (by omega) htail
  refine ⟨m, calls, htakes, ?_, hreplies⟩
  rw [hafter, MpmcQueue.pushBatchFrom, hq.available_eq]
  simp only [hloop, Nat.zero_add]

end PushBatch

/-! ### A batch of pops -/

section PopBatch

variable {q : MpmcQueue T} {xs : List T}

/-- **The loop of `pop_batch`.**  From the state after `i` rounds on, it does what popping one after
    the other does. -/
theorem popBatchLoop_spec (head items : Nat) :
    ∀ {q : MpmcQueue T} {xs : List T} (i : Nat), q.Serves w xs → items ≤ xs.length →
      q.head = Word.add w head i →
      ∃ buffer, popBatchLoop w q.capacity head items i q.buffer = (xs.take items, buffer) ∧
        q.after w (List.replicate items .pop) =
          { q with buffer := buffer, head := Word.add w head (i + items) } ∧
        q.replies w (List.replicate items .pop) =
          (xs.take items).map fun x => .pop (some x) := by
  induction items with
  | zero =>
    intro q xs i _ _ hhead
    refine ⟨q.buffer, rfl, ?_, rfl⟩
    rw [Nat.add_zero, ← hhead]
    rfl
  | succ items ih =>
    intro q xs i hq hle hhead
    cases xs with
    | nil => exact absurd hle (Nat.not_succ_le_zero _)
    | cons x xs =>
      have hpop := hq.pop_eq
      have hslot : q.buffer[q.head % q.capacity]? = some (some x) :=
        hq.keeps.head_full hq.head_lt
      have hq' := hq.pop_cons.2
      rw [hpop] at hq'
      have hhead' : Word.add w q.head 1 = Word.add w head (i + 1) := by
        rw [hhead, Word.add_add]
      obtain ⟨buffer, hloop, hafter, hreplies⟩ :=
        ih (i + 1) hq' (Nat.le_of_succ_le_succ hle) hhead'
      refine ⟨buffer, ?_, ?_, ?_⟩
      · rw [popBatchLoop, ← hhead, hslot]
        rw [MpmcQueue.index] at hloop
        simp [hloop]
      · rw [List.replicate_succ, after_cons, MpmcQueue.apply, hpop, hafter, Nat.add_assoc,
          Nat.add_comm 1 items]
      · rw [List.replicate_succ, MpmcQueue.replies, MpmcQueue.apply, hpop, hreplies]
        rfl

theorem MpmcQueue.Serves.popBatch (hq : q.Serves w xs) (maxValues : Nat) :
    q.popBatch w maxValues =
        (xs.take maxValues, q.after w (List.replicate (min maxValues xs.length) .pop)) ∧
      q.replies w (List.replicate (min maxValues xs.length) .pop) =
        (xs.take maxValues).map fun x => .pop (some x) := by
  have hlen := hq.len_eq
  rw [MpmcQueue.len] at hlen
  have hhead : q.head = Word.add w q.head 0 := (Word.add_zero_of_lt hq.head_lt).symm
  obtain ⟨buffer, hloop, hafter, hreplies⟩ :=
    popBatchLoop_spec q.head (min maxValues xs.length) 0 hq (Nat.min_le_right _ _) hhead
  rw [← List.take_eq_take_min] at hloop hreplies
  refine ⟨?_, hreplies⟩
  rw [hafter, MpmcQueue.popBatch, hlen, Nat.zero_add]
  simp only [hloop]

/-- What a pop does to a queue that holds a value, so many pops do. -/
theorem after_pops {P : MpmcQueue T → List T → Prop}
    (hpop : ∀ q x xs, P q (x :: xs) → P (q.pop w).2 xs) (items : Nat) :
    ∀ {q : MpmcQueue T} {xs : List T}, P q xs → items ≤ xs.length →
      P (q.after w (List.replicate items .pop)) (xs.drop items) := by
  induction items with
  | zero =>
    intro q xs hq _
    exact hq
  | succ items ih =>
    intro q xs hq hle
    cases xs with
    | nil => exact absurd hle (Nat.not_succ_le_zero _)
    | cons x xs => exact ih (hpop q x xs hq) (Nat.le_of_succ_le_succ hle)

theorem MpmcQueue.Stores.popBatch_stores (hq : q.Stores w xs) (maxValues : Nat) :
    (q.popBatch w maxValues).2.Stores w (xs.drop maxValues) := by
  rw [(hq.toServes.popBatch maxValues).1, List.drop_eq_drop_min]
  exact after_pops (P := fun q xs => q.Stores w xs) (fun _ _ _ hq => hq.pop_cons) _ hq
    (Nat.min_le_right _ _)

end PopBatch

/-! ### Values pushed into empty slots -/

section Pushes

variable {q : MpmcQueue T} {xs : List T}

theorem MpmcQueue.ClearAt.of_push (hq : q.Serves w xs) (hroom : xs.length < q.capacity) {x : T}
    {j : Nat} (hnext : (q.push w x).2.Serves w (xs ++ [x])) :
    (q.push w x).2.ClearAt w j ↔ q.ClearAt w (j + 1) := by
  have hlen := hnext.len_eq
  have hcapacity : (q.push w x).2.capacity = q.capacity := by rw [hq.push_eq hroom]
  have htail : (q.push w x).2.tail = Word.add w q.tail 1 := by rw [hq.push_eq hroom]
  rw [MpmcQueue.ClearAt, MpmcQueue.ClearAt, hcapacity, htail, hlen, hq.len_eq, Word.add_add,
    List.length_append, List.length_singleton, Nat.add_assoc, Nat.add_comm 1 j]

/-- Values that all find their slot empty are appended. -/
theorem MpmcQueue.Stores.after_pushes (ys : List T) :
    ∀ {q : MpmcQueue T} {xs : List T}, q.Stores w xs → xs.length + ys.length ≤ q.capacity →
      (∀ j < ys.length, q.ClearAt w j) → (q.after w (ys.map .push)).Stores w (xs ++ ys) := by
  induction ys with
  | nil =>
    intro q xs hq _ _
    rw [List.append_nil]
    exact hq
  | cons y ys ih =>
    intro q xs hq hroom hclear
    rw [List.length_cons] at hroom hclear
    have hfree := (hq.free_iff (by omega)).mpr (hclear 0 (Nat.succ_pos _))
    have hnext := hq.push_free (by omega) hfree y
    have hcapacity : (q.push w y).2.capacity = q.capacity := by
      rw [hq.toServes.push_eq (by omega)]
    have hrest := ih hnext (by simp [hcapacity]; omega) fun j hj =>
      (MpmcQueue.ClearAt.of_push hq.toServes (by omega) hnext.toServes).mpr
        (hclear (j + 1) (Nat.succ_lt_succ hj))
    rw [List.append_assoc] at hrest
    exact hrest

end Pushes

/-! ### Runs -/

namespace MpmcQueue

/-- The values pushed and not yet popped, after an operation with `xs` before it. -/
def pending (w : Nat) (q : MpmcQueue T) (xs : List T) : QueueOp T → List T
  | .push value => xs ++ q.pushedBy w (.push value)
  | .pop => xs.tail
  | .pushBatch values => xs ++ q.pushedBy w (.pushBatch values)
  | .popBatch maxValues => xs.drop maxValues
  | .len => xs

/-- Every value that the operation pushes finds its slot empty. -/
def ClearFor (w : Nat) (q : MpmcQueue T) : QueueOp T → Prop
  | .push _ => q.len w < q.capacity → q.ClearAt w 0
  | .pushBatch values =>
      ∀ j < q.capacity - q.len w, (∀ i ≤ j, values i ≠ none) → q.ClearAt w j
  | _ => True

end MpmcQueue

section Runs

variable {q : MpmcQueue T} {xs : List T} {n : Nat}

/-- `push_batch` takes its values from a new iterator. -/
theorem MpmcQueue.Windowed.pushBatch_eq (hq : q.Windowed w n) (values : Nat → Option T) :
    ∃ m calls, (Iter.mk values 0).Takes (q.capacity - n) m calls ∧
      q.pushBatch w values = (m, q.after w (((Iter.mk values 0).collect m).map .push)) := by
  obtain ⟨m, calls, htakes, hbatch, _⟩ := hq.pushBatchFrom (Iter.mk values 0)
  have hupcoming : (Iter.mk values 0).upcoming = values := by
    funext k
    simp [Iter.upcoming]
  have heq := pushBatchFrom_eq (w := w) q (Iter.mk values 0)
  rw [hbatch, hupcoming] at heq
  exact ⟨m, calls, htakes, heq.symm⟩

theorem MpmcQueue.Windowed.pushedBy_batch (hq : q.Windowed w n) (values : Nat → Option T) :
    (q.pushedBy w (.pushBatch values)).length = (q.pushBatch w values).1 := by
  obtain ⟨m, calls, htakes, hbatch⟩ := hq.pushBatch_eq values
  rw [MpmcQueue.pushedBy, hbatch, htakes.length_collect]

/-- The positions that a batch writes, read off the state before it. -/
theorem MpmcQueue.Windowed.lt_pushBatch_iff (hq : q.Windowed w n) (values : Nat → Option T)
    (j : Nat) : j < (q.pushBatch w values).1 ↔
      j < q.capacity - n ∧ ∀ i ≤ j, values i ≠ none := by
  obtain ⟨m, calls, htakes, hbatch⟩ := hq.pushBatch_eq values
  have hupcoming : ∀ k, (Iter.mk values 0).upcoming k = values k := by
    simp [Iter.upcoming]
  rw [hbatch]
  constructor
  · intro hj
    refine ⟨Nat.lt_of_lt_of_le hj htakes.le, fun i hi => ?_⟩
    rw [← hupcoming]
    exact htakes.yields i (Nat.lt_of_le_of_lt hi hj)
  · rintro ⟨hj, hall⟩
    by_contra hge
    rcases htakes.stops with ⟨_, hlimit⟩ | ⟨_, _, hnone⟩
    · omega
    · rw [hupcoming] at hnone
      exact hall m (Nat.le_of_not_lt hge) hnone

/-- What an operation does to the tail. -/
theorem MpmcQueue.Windowed.apply_tail (hq : q.Windowed w n) (op : QueueOp T) :
    (q.apply w op).2.tail = Word.add w q.tail (q.pushedBy w op).length := by
  have hsame : q.tail = Word.add w q.tail 0 := by
    rw [Word.add_zero_of_lt (hq.tail_eq ▸ Word.add_lt w _ _)]
  cases op with
  | push value =>
    rcases Nat.lt_or_ge n q.capacity with hroom | hfull
    · rw [MpmcQueue.apply, MpmcQueue.pushedBy, hq.push_eq hroom]
      rfl
    · rw [MpmcQueue.apply, MpmcQueue.pushedBy, hq.push_full hfull]
      exact hsame
  | pop =>
    refine Eq.trans ?_ hsame
    rw [MpmcQueue.apply, MpmcQueue.pop]
    split
    · rfl
    · rfl
  | pushBatch values => rw [hq.pushedBy_batch]; rfl
  | popBatch maxValues => exact hsame
  | len => exact hsame

/-- **One operation** whose pushes find their slots empty keeps the queue in step with the pending
    values. -/
theorem MpmcQueue.Stores.apply (hq : q.Stores w xs) (op : QueueOp T) (hclear : q.ClearFor w op) :
    (q.apply w op).2.Stores w (q.pending w xs op) := by
  cases op with
  | push value =>
    rw [MpmcQueue.pending, MpmcQueue.pushedBy]
    rcases Nat.lt_or_ge xs.length q.capacity with hroom | hfull
    · have hfree := (hq.free_iff hroom).mpr (hclear (by rw [hq.len_eq]; exact hroom))
      have hnext := hq.push_free hroom hfree value
      rw [if_pos (congrArg Prod.fst (hq.toServes.push_eq hroom value))]
      exact hnext
    · have hpush := hq.windowed.push_full hfull value
      rw [MpmcQueue.apply, hpush, if_neg (by simp), List.append_nil]
      exact hq
  | pop =>
    cases xs with
    | nil =>
      rw [MpmcQueue.apply, hq.toServes.pop_nil]
      exact hq
    | cons x xs => exact hq.pop_cons
  | pushBatch values =>
    have hlt := hq.windowed.lt_pushBatch_iff values
    obtain ⟨m, calls, htakes, hbatch⟩ := hq.windowed.pushBatch_eq values
    have hle := htakes.le
    have hcapacity := hq.length_le
    rw [MpmcQueue.pending, MpmcQueue.apply, MpmcQueue.pushedBy, hbatch]
    apply hq.after_pushes
    · rw [htakes.length_collect]
      omega
    · intro j hj
      rw [htakes.length_collect] at hj
      rw [hbatch] at hlt
      obtain ⟨hroom, hvalues⟩ := (hlt j).mp hj
      exact hclear j (by rw [hq.len_eq]; exact hroom) hvalues
  | popBatch maxValues => exact hq.popBatch_stores maxValues
  | len => exact hq

/-- While the counters have not wrapped, every push finds its slot empty. -/
theorem MpmcQueue.Stores.clearFor_of_lt (hq : q.Stores w xs) (hle : xs.length ≤ q.tail)
    {op : QueueOp T} (hfew : q.tail + (q.pushedBy w op).length < 2 ^ w) : q.ClearFor w op := by
  have hclear : ∀ j, q.tail + j < 2 ^ w → q.ClearAt w j := by
    intro j hj hlt
    rw [Word.add_of_lt hj] at hlt
    rw [hq.len_eq]
    omega
  cases op with
  | push value => exact fun _ => hclear 0 (by omega)
  | pushBatch values =>
    intro j hj hvalues
    rw [hq.len_eq] at hj
    have hlt := (hq.windowed.lt_pushBatch_iff values j).mpr ⟨hj, hvalues⟩
    rw [hq.windowed.pushedBy_batch] at hfew
    exact hclear j (by omega)
  | pop => trivial
  | popBatch maxValues => trivial
  | len => trivial

theorem MpmcQueue.length_pending (q : MpmcQueue T) (xs : List T) (op : QueueOp T) :
    (q.pending w xs op).length ≤ xs.length + (q.pushedBy w op).length := by
  cases op with
  | push value => simp [MpmcQueue.pending]
  | pop => simp [MpmcQueue.pending]; omega
  | pushBatch values => simp [MpmcQueue.pending]
  | popBatch maxValues => simp [MpmcQueue.pending]; omega
  | len => simp [MpmcQueue.pending]

/-- A run that pushes fewer than `2 ^ w` values in total. -/
theorem MpmcQueue.Stores.after (ops : List (QueueOp T)) :
    ∀ {q : MpmcQueue T} {xs : List T}, q.Stores w xs → xs.length ≤ q.tail →
      q.tail + (q.accepted w ops).length < 2 ^ w → ∃ xs', (q.after w ops).Stores w xs' := by
  induction ops with
  | nil =>
    intro q xs hq _ _
    exact ⟨xs, hq⟩
  | cons op ops ih =>
    intro q xs hq hle hfew
    rw [MpmcQueue.accepted, List.length_append] at hfew
    have hnext := hq.apply op (hq.clearFor_of_lt hle (by omega))
    have htail := hq.windowed.apply_tail op
    rw [Word.add_of_lt (by omega)] at htail
    have hlength := q.length_pending (w := w) xs op
    exact ih (q := (q.apply w op).2) hnext (by omega) (by omega)

theorem after_capacity (q : MpmcQueue T) (ops : List (QueueOp T)) :
    (q.after w ops).capacity = q.capacity := by
  induction ops generalizing q with
  | nil => rfl
  | cons op ops ih => exact (ih (q.apply w op).2).trans (apply_capacity q op)

/-- **Batches are repeated single operations**, in every state that a run with fewer than `2 ^ w`
    accepted values reaches. -/
theorem batch_eq_singles (capacity : Capacity w) (ops : List (QueueOp T)) {q : MpmcQueue T}
    (hfew : ((MpmcQueue.new capacity : MpmcQueue T).accepted w ops).length < 2 ^ w)
    (hrun : (MpmcQueue.new capacity : MpmcQueue T).after w ops = q) :
    (∀ values : Iter T, ∃ n calls : Nat,
      (n : ℕ∞) = min values.length ((capacity.val - q.len w : Nat) : ℕ∞) ∧
      q.pushBatchFrom w values =
        (n, q.after w ((values.collect n).map .push), values.advance calls) ∧
      q.replies w ((values.collect n).map .push) =
        (values.collect n).map (fun _ => .push (.ok ())) ∧
      (values.collect n).length = n ∧
      ∀ m, values.collect (calls + m) = values.collect n ++ (values.advance calls).collect m) ∧
    ∀ maxValues, ∃ popped,
      q.popBatch w maxValues =
        (popped, q.after w (List.replicate (min maxValues (q.len w)) .pop)) ∧
      q.replies w (List.replicate (min maxValues (q.len w)) .pop) =
        popped.map fun x => .pop (some x) := by
  have hcapacity : q.capacity = capacity.val := by
    rw [← hrun, after_capacity]
    rfl
  obtain ⟨xs, hq⟩ := (stores_new (T := T) capacity).after ops (Nat.zero_le _)
    (by rw [show (MpmcQueue.new capacity : MpmcQueue T).tail = 0 from rfl]; omega)
  rw [hrun] at hq
  rw [hq.len_eq, ← hcapacity]
  constructor
  · intro values
    obtain ⟨n, calls, htakes, hbatch, hreplies⟩ := hq.windowed.pushBatchFrom values
    refine ⟨n, calls, htakes.eq_min, hbatch, hreplies, htakes.length_collect, fun m => ?_⟩
    rw [Iter.collect_add, htakes.collect_eq]
  · intro maxValues
    exact ⟨xs.take maxValues, hq.toServes.popBatch maxValues⟩

/-- Draining a queue of two values with the largest argument there is. -/
theorem batch_eq_singles_drain :
    ∃ popped, (⟨[some 1, some 2, none], 3, 0, 2⟩ : MpmcQueue Nat).popBatch 64 (2 ^ 64 - 1) =
      (popped, (⟨[some 1, some 2, none], 3, 0, 2⟩ : MpmcQueue Nat).after 64
        (List.replicate 2 .pop)) := by
  have hrun : (MpmcQueue.new (w := 64) ⟨3, by decide, by decide⟩ : MpmcQueue Nat).after 64
      [.push 1, .push 2] = ⟨[some 1, some 2, none], 3, 0, 2⟩ := by decide
  obtain ⟨popped, hpopped, _⟩ := (batch_eq_singles _ _ (by decide) hrun).2 (2 ^ 64 - 1)
  exact ⟨popped, hpopped⟩

end Runs

end VelocityX.MpmcSimple
