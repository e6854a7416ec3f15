import VelocityX.Lib.WordRing
import VelocityX.Queue.MpmcSimpleWindow

/-!
# What the default bounded queue holds

`q.Stores w xs`: the window of `q` holds exactly `xs` although its indices may have wrapped.  A pop
takes the oldest value of `xs`; a push appends to `xs` when the slot it writes is empty, which
`Stores.free_iff` decides from the indices alone.  `q.Serves w xs` is the part of it that pops need.
-/

namespace VelocityX.MpmcSimple

variable {T : Type*} {w : Nat}

/-- Pops of `q` return `xs`; slots outside the window are not restricted. -/
structure MpmcQueue.Serves (w : Nat) (q : MpmcQueue T) (xs : List T) : Prop where
  head_lt : q.head < 2 ^ w
  tail_eq : q.tail = Word.add w q.head xs.length
  length_le : xs.length ≤ q.capacity
  capacity_lt : q.capacity < 2 ^ w
  keeps : WordRing.Keeps w q.buffer q.capacity q.head xs

structure MpmcQueue.Stores (w : Nat) (q : MpmcQueue T) (xs : List T) : Prop
    extends MpmcQueue.Serves w q xs where
  covers : Covers w q.buffer q.capacity q.head xs.length

/-- The value pushed `j` positions after the tail does not share its slot with one of the values
    before it. -/
def MpmcQueue.ClearAt (w : Nat) (q : MpmcQueue T) (j : Nat) : Prop :=
  Word.add w q.tail j < 2 ^ w % q.capacity → q.len w + j < 2 ^ w % q.capacity

instance (q : MpmcQueue T) (j : Nat) : Decidable (q.ClearAt w j) :=
  inferInstanceAs (Decidable (_ → _))

open MpmcQueue

section Serves

variable {q : MpmcQueue T} {xs : List T} {x : T}

theorem MpmcQueue.Serves.len_eq (hq : q.Serves w xs) : q.len w = xs.length := by
  rw [MpmcQueue.len, hq.tail_eq]
  exact Word.sub_add_left (Nat.lt_of_le_of_lt hq.length_le hq.capacity_lt)

theorem MpmcQueue.Serves.pop_nil (hq : q.Serves w []) : q.pop w = (none, q) := by
  have htail : q.tail = q.head := hq.tail_eq.trans (Word.add_zero_of_lt hq.head_lt)
  rw [MpmcQueue.pop, if_pos htail.symm]

/-- A pop that returns a value moves the head and empties the slot. -/
theorem MpmcQueue.Serves.pop_eq (hq : q.Serves w (x :: xs)) :
    q.pop w = (some x, { q with buffer := q.buffer.set (q.index q.head) none,
                                head := Word.add w q.head 1 }) := by
  have hne : ¬ q.head = q.tail := by
    intro heq
    have hlen := hq.len_eq
    rw [MpmcQueue.len, heq, Word.sub_self] at hlen
    cases hlen
  have hslot : q.buffer[q.index q.head]? = some (some x) := hq.keeps.head_full hq.head_lt
  rw [MpmcQueue.pop, if_neg hne, hslot]
  rfl

theorem MpmcQueue.Serves.pop_cons (hq : q.Serves w (x :: xs)) :
    (q.pop w).1 = some x ∧ (q.pop w).2.Serves w xs := by
  have hle := hq.length_le
  rw [List.length_cons] at hle
  rw [hq.pop_eq]
  refine ⟨rfl, Word.add_lt w q.head 1, ?_, Nat.le_of_succ_le hle, hq.capacity_lt,
    hq.keeps.pop hq.head_lt⟩
  show q.tail = Word.add w (Word.add w q.head 1) xs.length
  rw [Word.add_add, hq.tail_eq, List.length_cons, Nat.add_comm 1]

end Serves

section Stores

variable {q : MpmcQueue T} {xs : List T} {x : T}

theorem stores_new (capacity : Capacity w) :
    (MpmcQueue.new capacity : MpmcQueue T).Stores w [] := by
  constructor
  · refine ⟨Nat.two_pow_pos w, ?_, Nat.zero_le _, capacity.lt, ?_⟩
    · exact (Word.add_zero_of_lt (Nat.two_pow_pos w)).symm
    · exact (WordRing.holds_replicate w capacity.val 0).toKeeps
  · exact covers_replicate w capacity.val 0 0

theorem MpmcQueue.Stores.holds (hq : q.Stores w xs) :
    WordRing.Holds w q.buffer q.capacity q.head xs :=
  ⟨hq.keeps, hq.covers⟩

theorem MpmcQueue.Stores.windowed (hq : q.Stores w xs) : q.Windowed w xs.length :=
  ⟨hq.head_lt, hq.tail_eq, hq.length_le, hq.capacity_lt, hq.covers⟩

theorem MpmcQueue.Stores.pop_cons (hq : q.Stores w (x :: xs)) : (q.pop w).2.Stores w xs := by
  constructor
  · exact hq.toServes.pop_cons.2
  · rw [hq.pop_eq]
    exact (hq.holds.pop hq.head_lt).covers

/-- The slot that the next push writes. -/
theorem MpmcQueue.Stores.index_tail (hq : q.Stores w xs) :
    q.index q.tail = WordRing.slot w q.capacity q.head xs.length := by
  rw [MpmcQueue.index, hq.tail_eq]
  rfl

/-- **Where a push finds an empty slot.** -/
theorem MpmcQueue.Stores.free_iff (hq : q.Stores w xs) (hroom : xs.length < q.capacity) :
    q.buffer[q.index q.tail]? = some none ↔ q.ClearAt w 0 := by
  have htail : Word.add w q.tail 0 = Word.add w q.head xs.length := by
    rw [Word.add_zero_of_lt (hq.tail_eq ▸ Word.add_lt w _ _), hq.tail_eq]
  rw [hq.index_tail, hq.holds.free_iff (by omega),
    WordRing.slot_taken_iff hq.head_lt hroom hq.capacity_lt, MpmcQueue.ClearAt, htail, hq.len_eq]
  omega

/-- A push with room left is accepted. -/
theorem MpmcQueue.Serves.push_eq (hq : q.Serves w xs) (hroom : xs.length < q.capacity) (x : T) :
    q.push w x = (.ok (), { q with buffer := q.buffer.set (q.index q.tail) (some x),
                                   tail := Word.add w q.tail 1 }) := by
  have hlen := hq.len_eq
  rw [MpmcQueue.len] at hlen
  rw [MpmcQueue.push, hlen, if_neg (Nat.not_le.mpr hroom)]

/-- A push into an empty slot appends. -/
theorem MpmcQueue.Stores.push_free (hq : q.Stores w xs) (hroom : xs.length < q.capacity)
    (hfree : q.buffer[q.index q.tail]? = some none) (x : T) :
    (q.push w x).2.Stores w (xs ++ [x]) := by
  have hholds := hq.holds
  rw [hq.index_tail] at hfree
  have hnext := hholds.push hfree x
  rw [← hq.index_tail] at hnext
  rw [hq.toServes.push_eq hroom]
  constructor
  · refine ⟨hq.head_lt, ?_, ?_, hq.capacity_lt, hnext.toKeeps⟩
    · show Word.add w q.tail 1 = Word.add w q.head (xs ++ [x]).length
      rw [hq.tail_eq, Word.add_add, List.length_append, List.length_singleton]
    · rw [List.length_append]
      exact hroom
  · exact hnext.covers

end Stores

end VelocityX.MpmcSimple
