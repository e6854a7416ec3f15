import VelocityX.Lib.WordRing
import VelocityX.Queue.MpmcCapacity

/-!
# What the lock-free bounded queue holds

The values in the window `[head, tail)` of the bounded `MpmcQueue` in `src/queue/mpmc.rs`, oldest
first, wherever the indices stand and also after they have wrapped.  As long as no push has
overwritten a value, the window is all that the buffer holds.
-/

namespace VelocityX.Mpmc

variable {T : Type*} {w : Nat}

namespace MpmcQueue

/-- The queue holds the values `xs`, oldest first, and nothing else. -/
structure Spans (w : Nat) (q : MpmcQueue T) (xs : List T) : Prop where
  sized : q.Sized w
  head_lt : q.head < 2 ^ w
  tail_eq : q.tail = Word.add w q.head xs.length
  holds : WordRing.Holds w q.buffer q.capacity q.head xs
  length_le : xs.length ≤ q.capacity
  single : q.capacity = 1 → q.head = 0 ∧ xs = []

variable {q q' : MpmcQueue T} {xs : List T} {value x : T}

theorem spans_new {requested : Nat} (hq : new w requested = some q) (hpos : 0 < q.capacity) :
    q.Spans w [] := by
  have hsized := (indexed_new hq hpos).sized
  have heq := withCapacity_eq_some hq hpos
  subst heq
  exact ⟨hsized, Nat.two_pow_pos w, (Word.add_zero_of_lt (Nat.two_pow_pos w)).symm,
    WordRing.holds_replicate w _ 0, Nat.zero_le _, fun _ => ⟨rfl, rfl⟩⟩

theorem Spans.length_lt (hq : q.Spans w xs) : xs.length < 2 ^ w :=
  Nat.lt_of_le_of_lt hq.length_le hq.sized.lt

theorem Spans.window_eq (hq : q.Spans w xs) : Word.sub w q.tail q.head = xs.length := by
  rw [hq.tail_eq, Word.sub_add_left hq.length_lt]

/-- The slots of the window follow the head around the ring. -/
theorem Spans.slot_eq (hq : q.Spans w xs) (k : Nat) :
    WordRing.slot w q.capacity q.head k = (q.head + k) % q.capacity :=
  hq.sized.add_mod _ _

theorem Sized.index_eq (hq : q.Sized w) (i : Nat) : q.index i = i % q.capacity := by
  obtain ⟨k, hk⟩ := hq.power
  rw [index, hq.mask_eq, hk, Nat.and_two_pow_sub_one_eq_mod]

theorem Spans.index_tail (hq : q.Spans w xs) :
    q.index q.tail = WordRing.slot w q.capacity q.head xs.length := by
  rw [hq.sized.index_eq, hq.tail_eq]
  rfl

/-- The full test, in terms of the window. -/
theorem Spans.full_iff (hq : q.Spans w xs) :
    (q.tail + 1) % q.capacity = q.head ↔ q.head < q.capacity ∧ xs.length + 1 = q.capacity := by
  have hpos := hq.sized.pos
  have hslot : (q.tail + 1) % q.capacity = (q.head + (xs.length + 1)) % q.capacity := by
    rw [hq.tail_eq, ← Nat.mod_add_mod, hq.sized.add_mod, Nat.mod_add_mod, Nat.add_assoc]
  rw [hslot]
  constructor
  · intro heq
    have hlt : q.head < q.capacity := heq ▸ Nat.mod_lt _ hpos
    have hself : (q.head + (xs.length + 1)) % q.capacity = (q.head + 0) % q.capacity := by
      rw [heq, Nat.add_zero, Nat.mod_eq_of_lt hlt]
    refine ⟨hlt, ?_⟩
    rcases Nat.lt_trichotomy (xs.length + 1) q.capacity with hbelow | hlast | habove
    · exact absurd hself (Ring.slot_ne hbelow hpos (Nat.succ_ne_zero _))
    · exact hlast
    · -- the window is full, so the position after the next one is the second of the ring
      have hle := hq.length_le
      have hfull : xs.length = q.capacity := by omega
      have hone : q.capacity ≠ 1 := by
        intro hone
        rw [(hq.single hone).2] at hfull
        cases hfull.trans hone
      rw [hfull, ← Nat.add_assoc, Nat.add_right_comm, Nat.add_mod_right] at hself
      exact absurd hself (Ring.slot_ne (by omega) hpos Nat.one_ne_zero)
  · rintro ⟨hlt, hlast⟩
    rw [hlast, Nat.add_mod_right, Nat.mod_eq_of_lt hlt]

/-- The slot after a window that is shorter than the ring is empty. -/
theorem Spans.tail_free (hq : q.Spans w xs) (hroom : xs.length < q.capacity) :
    q.buffer[q.index q.tail]? = some none := by
  rw [hq.index_tail, hq.holds.free_iff hq.sized.pos]
  rintro ⟨k, hk, hslot⟩
  rw [hq.slot_eq, hq.slot_eq] at hslot
  exact Ring.slot_ne (by omega) hroom (Nat.ne_of_lt hk) hslot

/-- The slot after a window that fills the ring is the first of the window. -/
theorem Spans.index_tail_full (hq : q.Spans w xs) (hlength : xs.length = q.capacity) :
    q.index q.tail = WordRing.slot w q.capacity q.head 0 := by
  rw [hq.index_tail, hlength, hq.slot_eq, hq.slot_eq, Nat.add_mod_right, Nat.add_zero]

/-- A window that is as long as the ring leaves no slot empty. -/
theorem Spans.not_tail_free (hq : q.Spans w xs) (hroom : ¬ xs.length < q.capacity) :
    q.buffer[q.index q.tail]? ≠ some none := by
  have hlength := Nat.le_antisymm hq.length_le (Nat.le_of_not_lt hroom)
  rw [hq.index_tail_full hlength]
  cases xs with
  | nil => exact absurd hlength (Nat.ne_of_lt hq.sized.pos)
  | cons x xs =>
    rw [hq.holds.full 0 x rfl]
    rintro ⟨⟩

/-- A push that passes the full test and finds its slot empty appends its value. -/
theorem Spans.push (hq : q.Spans w xs) (hfull : (q.tail + 1) % q.capacity ≠ q.head)
    (hfree : q.buffer[q.index q.tail]? = some none) (value : T) :
    ({ q with buffer := q.buffer.set (q.index q.tail) (some value),
              tail := Word.add w q.tail 1,
              generation := Word.add 64 q.generation 1 } : MpmcQueue T).Spans w
      (xs ++ [value]) := by
  have hroom : xs.length < q.capacity := by
    by_contra hge
    exact hq.not_tail_free hge hfree
  constructor
  · exact ⟨hq.sized.power, hq.sized.lt, hq.sized.mask_eq,
      List.length_set.trans hq.sized.length_eq⟩
  · exact hq.head_lt
  · show Word.add w q.tail 1 = _
    rw [hq.tail_eq, Word.add_add, List.length_append, List.length_singleton]
  · show WordRing.Holds w (q.buffer.set (q.index q.tail) _) _ _ _
    rw [hq.index_tail] at hfree ⊢
    exact hq.holds.push hfree _
  · rw [List.length_append, List.length_singleton]
    exact hroom
  · intro hone
    have hone : q.capacity = 1 := hone
    obtain ⟨hhead, hempty⟩ := hq.single hone
    refine absurd (hq.full_iff.mpr ?_) hfull
    rw [hone, hhead, hempty]
    exact ⟨Nat.one_pos, rfl⟩

theorem Spans.pop_nil (hq : q.Spans w []) : q.pop w = (none, q) := by
  have htail := hq.tail_eq
  rw [List.length_nil, Word.add_zero_of_lt hq.head_lt] at htail
  rw [MpmcQueue.pop, if_pos htail.symm]

theorem Spans.head_ne_tail (hq : q.Spans w (x :: xs)) : q.head ≠ q.tail := by
  rw [hq.tail_eq]
  exact (Word.add_ne (Nat.succ_pos _) hq.length_lt _).symm

theorem Spans.head_full (hq : q.Spans w (x :: xs)) :
    q.buffer[q.index q.head]? = some (some x) := by
  rw [hq.sized.index_eq]
  exact hq.holds.toKeeps.head_full hq.head_lt

/-- A pop takes the oldest value out of its slot. -/
theorem Spans.pop_cons (hq : q.Spans w (x :: xs)) :
    ({ q with buffer := q.buffer.set (q.index q.head) none,
              head := Word.add w q.head 1,
              generation := Word.add 64 q.generation 1 } : MpmcQueue T).Spans w xs := by
  constructor
  · exact ⟨hq.sized.power, hq.sized.lt, hq.sized.mask_eq,
      List.length_set.trans hq.sized.length_eq⟩
  · exact Word.add_lt w _ _
  · show q.tail = Word.add w (Word.add w q.head 1) xs.length
    rw [hq.tail_eq, Word.add_add, List.length_cons, Nat.add_comm]
  · show WordRing.Holds w (q.buffer.set (q.index q.head) none) _ _ _
    rw [hq.sized.index_eq]
    exact hq.holds.pop hq.head_lt
  · exact Nat.le_of_succ_le hq.length_le
  · intro hone
    cases (hq.single hone).2

theorem Spans.pop (hq : q.Spans w xs) :
    (q.pop w).1 = xs.head? ∧ (q.pop w).2.Spans w xs.tail := by
  cases xs with
  | nil =>
    rw [hq.pop_nil]
    exact ⟨rfl, hq⟩
  | cons x xs =>
    have hslot : q.buffer[q.index q.head]?.join = some x := by
      rw [hq.head_full]
      rfl
    simp only [MpmcQueue.pop, if_neg hq.head_ne_tail, hslot]
    exact ⟨rfl, hq.pop_cons⟩

end MpmcQueue

end VelocityX.Mpmc
