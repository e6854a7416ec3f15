import VelocityX.Lib.Ring
import VelocityX.Queue.MpmcSimple

/-!
# Sequential runs of the default bounded queue

The operations of `MpmcQueue` as data, with their results, and what every sequential run of them
keeps although indices may wrap: the queue is a window of some length, and all its values lie in
the slots of that window.
-/

namespace VelocityX.MpmcSimple

variable {T : Type*} {w : Nat}

inductive QueueOp (T : Type*) where
  | push (value : T)
  | pop
  | pushBatch (values : Nat → Option T)
  | popBatch (maxValues : Nat)
  | len

inductive Reply (T : Type*) where
  | push (result : Except Error Unit)
  | pop (result : Option T)
  | pushBatch (pushed : Nat)
  | popBatch (values : List T)
  | len (n : Nat)
deriving DecidableEq

namespace MpmcQueue

def apply (w : Nat) (q : MpmcQueue T) : QueueOp T → Reply T × MpmcQueue T
  | .push value => (.push (q.push w value).1, (q.push w value).2)
  | .pop => (.pop (q.pop w).1, (q.pop w).2)
  | .pushBatch values => (.pushBatch (q.pushBatch w values).1, (q.pushBatch w values).2)
  | .popBatch maxValues => (.popBatch (q.popBatch w maxValues).1, (q.popBatch w maxValues).2)
  | .len => (.len (q.len w), q)

def replies (w : Nat) : MpmcQueue T → List (QueueOp T) → List (Reply T)
  | _, [] => []
  | q, op :: ops => (q.apply w op).1 :: (q.apply w op).2.replies w ops

/-- No slot of the buffer holds a value. -/
def Vacant (q : MpmcQueue T) : Prop := ∀ slot ∈ q.buffer, slot = none

end MpmcQueue

/-! ### The window of a queue

`q.Windowed w n`: the queue is `n` positions long, and the slots that hold a value are
among the slots of these positions.  The converse fails once a `drop` has emptied
slots of the window. -/

/-- Every slot that holds a value belongs to one of the `n` positions from `h` on. -/
def Covers (w : Nat) (cells : List (Option T)) (c h n : Nat) : Prop :=
  ∀ i x, cells[i]? = some (some x) → ∃ k, k < n ∧ Word.add w h k % c = i

structure MpmcQueue.Windowed (w : Nat) (q : MpmcQueue T) (n : Nat) : Prop where
  head_lt : q.head < 2 ^ w
  tail_eq : q.tail = Word.add w q.head n
  le_capacity : n ≤ q.capacity
  capacity_lt : q.capacity < 2 ^ w
  covers : Covers w q.buffer q.capacity q.head n

open MpmcQueue

section Covers

variable {cells : List (Option T)} {c h n m : Nat}

theorem covers_replicate (w c h n : Nat) :
    Covers w (List.replicate c (none : Option T)) c h n := by
  intro i x hi
  have hmem := List.mem_of_getElem? hi
  rw [List.mem_replicate] at hmem
  cases hmem.2

theorem Covers.mono (hc : Covers w cells c h n) (hle : n ≤ m) : Covers w cells c h m := by
  intro i x hi
  rcases hc i x hi with ⟨k, hk, hslot⟩
  exact ⟨k, Nat.lt_of_lt_of_le hk hle, hslot⟩

theorem Covers.write (hc : Covers w cells c h n) (x : T) :
    Covers w (cells.set (Word.add w h n % c) (some x)) c h (n + 1) := by
  intro i y hi
  by_cases heq : Word.add w h n % c = i
  · exact ⟨n, Nat.lt_succ_self n, heq⟩
  · rw [List.getElem?_set_ne heq] at hi
    exact hc.mono (Nat.le_succ n) i y hi

theorem Covers.clear (hc : Covers w cells c h (n + 1)) (hlt : h < 2 ^ w) :
    Covers w (cells.set (h % c) none) c (Word.add w h 1) n := by
  intro i y hi
  by_cases heq : h % c = i
  · subst heq
    rw [List.getElem?_set_self'] at hi
    cases hcell : cells[h % c]? with
    | none => rw [hcell] at hi; cases hi
    | some slot => rw [hcell] at hi; cases hi
  · rw [List.getElem?_set_ne heq] at hi
    rcases hc i y hi with ⟨k, hk, hslot⟩
    cases k with
    | zero =>
      rw [Word.add_zero_of_lt hlt] at hslot
      exact absurd hslot heq
    | succ k =>
      refine ⟨k, Nat.lt_of_succ_lt_succ hk, ?_⟩
      rw [Word.add_add, Nat.add_comm 1 k]
      exact hslot

theorem Covers.vacant (hc : Covers w cells c h 0) : ∀ slot ∈ cells, slot = none := by
  intro slot hslot
  cases slot with
  | none => rfl
  | some x =>
    rcases List.getElem?_of_mem hslot with ⟨i, hi⟩
    rcases hc i x hi with ⟨k, hk, _⟩
    exact absurd hk (Nat.not_lt_zero k)

/-- The loop of `push_batch` fills the positions after the window. -/
theorem Covers.pushBatchLoop (values : Nat → Option T) (available : Nat) :
    ∀ (pushed : Nat) {cells : List (Option T)}, Covers w cells c h (n + pushed) →
      pushed ≤ (pushBatchLoop w c (Word.add w h n) values available pushed cells).1 ∧
      (pushBatchLoop w c (Word.add w h n) values available pushed cells).1 ≤
        pushed + available ∧
      Covers w (pushBatchLoop w c (Word.add w h n) values available pushed cells).2 c h
        (n + (pushBatchLoop w c (Word.add w h n) values available pushed cells).1) := by
  induction available with
  | zero =>
    intro pushed cells hc
    exact ⟨Nat.le_refl _, Nat.le_refl _, hc⟩
  | succ available ih =>
    intro pushed cells hc
    rw [MpmcQueue.pushBatchLoop]
    cases values pushed with
    | none => exact ⟨Nat.le_refl _, Nat.le_add_right _ _, hc⟩
    | some value =>
      have hnext : Covers w (cells.set (Word.add w (Word.add w h n) pushed % c) (some value)) c h
          (n + (pushed + 1)) := by
        rw [Word.add_add]
        exact hc.write value
      rcases ih _ hnext with ⟨hge, hle, hcovers⟩
      refine ⟨Nat.le_of_succ_le hge, Nat.le_trans hle ?_, hcovers⟩
      rw [Nat.add_right_comm, Nat.add_assoc]

/-- The loop of `pop_batch` empties the first positions of the window. -/
theorem Covers.popBatchLoop (items : Nat) :
    ∀ {i : Nat} {cells : List (Option T)}, Covers w cells c (Word.add w h i) (n + items) →
      Covers w (popBatchLoop w c h items i cells).2 c (Word.add w h (i + items)) n := by
  induction items with
  | zero =>
    intro i cells hc
    exact hc
  | succ items ih =>
    intro i cells hc
    have hnext := hc.clear (Word.add_lt w h i)
    rw [Word.add_add] at hnext
    have hrest := ih hnext
    rw [Nat.add_right_comm, Nat.add_assoc] at hrest
    exact hrest

/-- A slot that `pop_batch` emptied without returning a value held none. -/
theorem popBatchLoop_nil (items : Nat) :
    ∀ {i : Nat} {cells : List (Option T)}, (popBatchLoop w c h items i cells).1 = [] →
      (popBatchLoop w c h items i cells).2 = cells := by
  induction items with
  | zero =>
    intro i cells _
    rfl
  | succ items ih =>
    intro i cells hnil
    rcases List.append_eq_nil_iff.mp hnil with ⟨hslot, hrest⟩
    show (popBatchLoop w c h items (i + 1) (cells.set (Word.add w h i % c) none)).2 = cells
    rw [ih hrest]
    exact Ring.set_none_of_join (Option.toList_eq_nil_iff.mp hslot)

theorem popBatchLoop_vacant (items : Nat) :
    ∀ {i : Nat} {cells : List (Option T)}, (∀ slot ∈ cells, slot = none) →
      (popBatchLoop w c h items i cells).1 = [] := by
  induction items with
  | zero =>
    intro i cells _
    rfl
  | succ items ih =>
    intro i cells hvacant
    refine List.append_eq_nil_iff.mpr ⟨?_, ih ?_⟩
    · cases hslot : cells[Word.add w h i % c]? with
      | none => rfl
      | some slot => rw [hvacant slot (List.mem_of_getElem? hslot)]; rfl
    · intro slot hmem
      rcases List.mem_or_eq_of_mem_set hmem with hold | hnew
      · exact hvacant slot hold
      · exact hnew

end Covers

section Windowed

variable {q : MpmcQueue T} {n : Nat}

theorem windowed_new (capacity : Capacity w) :
    (MpmcQueue.new capacity : MpmcQueue T).Windowed w 0 := by
  refine ⟨Nat.two_pow_pos w, ?_, Nat.zero_le _, capacity.lt, covers_replicate w _ _ _⟩
  exact (Word.add_zero_of_lt (Nat.two_pow_pos w)).symm

theorem MpmcQueue.Windowed.len_eq (hq : q.Windowed w n) : Word.sub w q.tail q.head = n := by
  rw [hq.tail_eq]
  exact Word.sub_add_left (Nat.lt_of_le_of_lt hq.le_capacity hq.capacity_lt)

theorem MpmcQueue.Windowed.push_full (hq : q.Windowed w n) (hfull : q.capacity ≤ n) (value : T) :
    q.push w value = (.error .wouldBlock, q) := by
  rw [MpmcQueue.push, hq.len_eq, if_pos hfull]

theorem MpmcQueue.Windowed.push_room (hq : q.Windowed w n) (hroom : n < q.capacity) (value : T) :
    ∃ q', q.push w value = (.ok (), q') ∧ q'.Windowed w (n + 1) := by
  refine ⟨{ q with buffer := q.buffer.set (q.index q.tail) (some value),
                   tail := Word.add w q.tail 1 }, ?_, ?_⟩
  · rw [MpmcQueue.push, hq.len_eq, if_neg (Nat.not_le.mpr hroom)]
  · rw [MpmcQueue.index, hq.tail_eq]
    exact ⟨hq.head_lt, Word.add_add w q.head n 1, hroom, hq.capacity_lt, hq.covers.write value⟩

/-- The indices differ exactly when the window is not empty. -/
theorem MpmcQueue.Windowed.head_eq_iff (hq : q.Windowed w n) : q.head = q.tail ↔ n = 0 := by
  constructor
  · intro heq
    rw [← hq.len_eq, heq, Word.sub_self]
  · rintro rfl
    rw [hq.tail_eq, Word.add_zero_of_lt hq.head_lt]

theorem MpmcQueue.Windowed.pop_zero (hq : q.Windowed w 0) : q.pop w = (none, q) := by
  rw [MpmcQueue.pop, if_pos (hq.head_eq_iff.mpr rfl)]

theorem MpmcQueue.Windowed.pop_succ (hq : q.Windowed w (n + 1)) : (q.pop w).2.Windowed w n := by
  have hne : ¬ q.head = q.tail := fun heq => Nat.succ_ne_zero n (hq.head_eq_iff.mp heq)
  rw [MpmcQueue.pop, if_neg hne]
  refine ⟨Word.add_lt w q.head 1, ?_, Nat.le_of_succ_le hq.le_capacity, hq.capacity_lt,
    hq.covers.clear hq.head_lt⟩
  show q.tail = Word.add w (Word.add w q.head 1) n
  rw [Word.add_add, hq.tail_eq, Nat.add_comm 1 n]

theorem MpmcQueue.Windowed.available_eq (hq : q.Windowed w n) :
    Word.sub w q.capacity (Word.sub w q.tail q.head) = q.capacity - n := by
  rw [hq.len_eq]
  exact Word.sub_of_le hq.le_capacity hq.capacity_lt

theorem MpmcQueue.Windowed.pushBatch (hq : q.Windowed w n) (values : Nat → Option T) :
    (q.pushBatch w values).2.Windowed w (n + (q.pushBatch w values).1) := by
  rcases Covers.pushBatchLoop (n := n) values (q.capacity - n) 0 hq.covers
    with ⟨_, hle, hcovers⟩
  unfold MpmcQueue.pushBatch
  simp only [hq.available_eq]
  rw [hq.tail_eq]
  refine ⟨hq.head_lt, ?_, ?_, hq.capacity_lt, hcovers⟩
  · exact Word.add_add w q.head n _
  · have := hq.le_capacity
    show n + _ ≤ q.capacity
    omega

/-- A batch is pushed in part when there is room and the iterator yields a value. -/
theorem MpmcQueue.Windowed.pushBatch_eq_zero_iff (hq : q.Windowed w n)
    (values : Nat → Option T) :
    (q.pushBatch w values).1 = 0 ↔ q.capacity ≤ n ∨ values 0 = none := by
  have hle := hq.le_capacity
  unfold MpmcQueue.pushBatch
  simp only [hq.available_eq]
  cases havailable : q.capacity - n with
  | zero => exact ⟨fun _ => Or.inl (Nat.le_of_sub_eq_zero havailable), fun _ => rfl⟩
  | succ available =>
    have hroom : ¬ q.capacity ≤ n := by omega
    rw [MpmcQueue.pushBatchLoop]
    cases hvalue : values 0 with
    | none => exact ⟨fun _ => Or.inr rfl, fun _ => rfl⟩
    | some value =>
      have hcovers : Covers w (q.buffer.set (Word.add w q.tail 0 % q.capacity) (some value))
          q.capacity q.head (n + (0 + 1)) := by
        rw [hq.tail_eq, Word.add_add]
        exact hq.covers.write value
      have hge := (Covers.pushBatchLoop values available 1 hcovers).1
      rw [← hq.tail_eq] at hge
      constructor
      · intro hzero
        exact absurd (Nat.le_trans hge (Nat.le_of_eq hzero)) (Nat.not_succ_le_zero 0)
      · rintro (hfull | hnone)
        · exact absurd hfull hroom
        · cases hnone

theorem MpmcQueue.Windowed.popBatch (hq : q.Windowed w n) (maxValues : Nat) :
    (q.popBatch w maxValues).2.Windowed w (n - min maxValues n) := by
  have hcovers : Covers w q.buffer q.capacity (Word.add w q.head 0)
      (n - min maxValues n + min maxValues n) := by
    rw [Word.add_zero_of_lt hq.head_lt, Nat.sub_add_cancel (Nat.min_le_right _ _)]
    exact hq.covers
  have hrest := Covers.popBatchLoop (min maxValues n) hcovers
  rw [Nat.zero_add] at hrest
  unfold MpmcQueue.popBatch
  simp only [hq.len_eq]
  refine ⟨Word.add_lt w _ _, ?_, ?_, hq.capacity_lt, hrest⟩
  · show q.tail = Word.add w (Word.add w q.head (min maxValues n)) (n - min maxValues n)
    rw [Word.add_add, hq.tail_eq, Nat.add_sub_cancel' (Nat.min_le_right _ _)]
  · exact Nat.le_trans (Nat.sub_le _ _) hq.le_capacity

theorem MpmcQueue.Windowed.apply (hq : q.Windowed w n) (op : QueueOp T) :
    ∃ m, (q.apply w op).2.Windowed w m := by
  cases op with
  | push value =>
    rcases Nat.lt_or_ge n q.capacity with hroom | hfull
    · obtain ⟨q', hpush, hq'⟩ := hq.push_room hroom value
      exact ⟨n + 1, by rw [MpmcQueue.apply, hpush]; exact hq'⟩
    · exact ⟨n, by rw [MpmcQueue.apply, hq.push_full hfull]; exact hq⟩
  | pop =>
    cases n with
    | zero => exact ⟨0, by rw [MpmcQueue.apply, hq.pop_zero]; exact hq⟩
    | succ n => exact ⟨n, hq.pop_succ⟩
  | pushBatch values => exact ⟨_, hq.pushBatch values⟩
  | popBatch maxValues => exact ⟨_, hq.popBatch maxValues⟩
  | len => exact ⟨n, hq⟩

theorem apply_capacity (q : MpmcQueue T) (op : QueueOp T) :
    (q.apply w op).2.capacity = q.capacity := by
  cases op with
  | push value => unfold MpmcQueue.apply MpmcQueue.push; dsimp only; split <;> rfl
  | pop => unfold MpmcQueue.apply MpmcQueue.pop; dsimp only; split <;> rfl
  | pushBatch values => rfl
  | popBatch maxValues => rfl
  | len => rfl

/-- Taking everything out of a queue returns no value exactly when no slot holds one. -/
theorem MpmcQueue.Windowed.popBatch_all (hq : q.Windowed w n) :
    (q.popBatch w (2 ^ w - 1)).1 = [] ↔ q.Vacant := by
  have hall : min (2 ^ w - 1) n = n := by
    have := Nat.lt_of_le_of_lt hq.le_capacity hq.capacity_lt
    omega
  unfold MpmcQueue.popBatch
  simp only [hq.len_eq, hall]
  constructor
  · intro hnil
    have hcovers : Covers w q.buffer q.capacity (Word.add w q.head 0) (0 + n) := by
      rw [Word.add_zero_of_lt hq.head_lt, Nat.zero_add]
      exact hq.covers
    have hrest := Covers.popBatchLoop n hcovers
    rw [popBatchLoop_nil n hnil] at hrest
    exact hrest.vacant
  · intro hvacant
    exact popBatchLoop_vacant n hvacant

end Windowed

end VelocityX.MpmcSimple
