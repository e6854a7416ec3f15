import VelocityX.Queue.Mpmc

/-!
# The capacity of the lock-free bounded queue

Which pushes the bounded `MpmcQueue` of `src/queue/mpmc.rs` accepts.  The full test compares a
masked index with `head`.  While `head` is below the capacity it keeps one slot free, and from
then on it never fires.
-/

namespace VelocityX.Mpmc

variable {T : Type*}

namespace MpmcQueue

/-- The queue after a run. -/
def after (w : Nat) (q : MpmcQueue T) (ops : List (Op T)) : MpmcQueue T := ops.foldl (step w) q

/-- Pushed one after the other, the values are all accepted. -/
def AcceptsAll (w : Nat) : MpmcQueue T → List T → Prop
  | _, [] => True
  | q, value :: values => (q.push w value).1 = .ok () ∧ AcceptsAll w (q.push w value).2 values

/-- The full test tells whether there is room: the head has passed the mask and there is room, or it
    has not passed it and the queue is not one value short of its capacity.  A queue without slots
    never has room, and never takes a value. -/
def FullTestExact (w : Nat) (q : MpmcQueue T) : Prop :=
  if q.head < q.capacity then q.len w + 1 ≠ q.capacity
  else q.len w < q.capacity ∨ q.capacity = 0

instance (w : Nat) (q : MpmcQueue T) : Decidable (q.FullTestExact w) :=
  inferInstanceAs (Decidable
    (if q.head < q.capacity then q.len w + 1 ≠ q.capacity
      else q.len w < q.capacity ∨ q.capacity = 0))

/-! ### Indices -/

structure Sized (w : Nat) (q : MpmcQueue T) : Prop where
  power : ∃ k, q.capacity = 2 ^ k
  lt : q.capacity < 2 ^ w
  mask_eq : q.mask = q.capacity - 1
  length_eq : q.buffer.length = q.capacity

/-- A queue after at most `n` operations. -/
structure Indexed (w n : Nat) (q : MpmcQueue T) : Prop where
  sized : q.Sized w
  head_le : q.head ≤ q.tail
  tail_le : q.tail ≤ n
  spare : q.head < q.capacity → q.tail < q.head + q.capacity

section Indexed

variable {w n requested : Nat} {q : MpmcQueue T}

theorem Sized.pos (h : q.Sized w) : 0 < q.capacity := by
  obtain ⟨k, hk⟩ := h.power
  rw [hk]
  exact Nat.two_pow_pos k

/-- The slot of an index does not depend on whether the index has wrapped around. -/
theorem Sized.add_mod (h : q.Sized w) (i j : Nat) :
    Word.add w i j % q.capacity = (i + j) % q.capacity := by
  obtain ⟨k, hk⟩ := h.power
  have hlt := h.lt
  rw [hk] at hlt ⊢
  have hkw : k ≤ w := Nat.le_of_lt ((Nat.pow_lt_pow_iff_right (by decide)).mp hlt)
  exact Nat.mod_mod_of_dvd _ (Nat.pow_dvd_pow 2 hkw)

/-- The full test. -/
theorem Sized.full_iff (h : q.Sized w) :
    Word.add w q.tail 1 &&& q.mask = q.head ↔ (q.tail + 1) % q.capacity = q.head := by
  rw [← h.add_mod]
  obtain ⟨k, hk⟩ := h.power
  rw [h.mask_eq, hk, Nat.and_two_pow_sub_one_eq_mod]

theorem Sized.index_lt (h : q.Sized w) (i : Nat) : q.index i < q.buffer.length := by
  obtain ⟨k, hk⟩ := h.power
  rw [index, h.mask_eq, h.length_eq, hk, Nat.and_two_pow_sub_one_eq_mod]
  exact Nat.mod_lt i (Nat.two_pow_pos k)

theorem Sized.push_full (h : q.Sized w) (hfull : (q.tail + 1) % q.capacity = q.head) (value : T) :
    q.push w value = (.error (.returned .capacityExceeded), q) := by
  rw [push, if_pos (h.full_iff.mpr hfull)]

/-- A push that passes the full test. -/
theorem Sized.push_eq (h : q.Sized w) (hroom : (q.tail + 1) % q.capacity ≠ q.head) (value : T) :
    q.push w value = (.ok (), { q with buffer := q.buffer.set (q.index q.tail) (some value),
                                       tail := Word.add w q.tail 1,
                                       generation := Word.add 64 q.generation 1 }) := by
  rw [push, if_neg (mt h.full_iff.mp hroom), if_pos (h.index_lt q.tail)]

theorem Sized.push_room (h : q.Sized w) (hroom : (q.tail + 1) % q.capacity ≠ q.head) (value : T) :
    ∃ q', q.push w value = (.ok (), q') ∧ q'.Sized w ∧ q'.capacity = q.capacity ∧
      q'.head = q.head ∧ q'.tail = Word.add w q.tail 1 :=
  ⟨_, h.push_eq hroom value,
    ⟨h.power, h.lt, h.mask_eq, List.length_set.trans h.length_eq⟩, rfl, rfl, rfl⟩

theorem Sized.push_ok_iff (h : q.Sized w) (value : T) :
    (q.push w value).1 = .ok () ↔ (q.tail + 1) % q.capacity ≠ q.head := by
  by_cases hfull : (q.tail + 1) % q.capacity = q.head
  · rw [h.push_full hfull]
    exact iff_of_false (by rintro ⟨⟩) fun hroom => hroom hfull
  · rw [h.push_eq hfull]
    exact iff_of_true rfl hfull

theorem Sized.acceptsAll_iff (h : q.Sized w) (values : List T) :
    q.AcceptsAll w values ↔ ∀ i < values.length, (q.tail + 1 + i) % q.capacity ≠ q.head := by
  induction values generalizing q with
  | nil => exact iff_of_true trivial nofun
  | cons value values ih =>
    rw [AcceptsAll]
    by_cases hfull : (q.tail + 1) % q.capacity = q.head
    · refine iff_of_false (fun hall => ?_) fun hall => hall 0 (Nat.succ_pos _) hfull
      rw [h.push_full hfull] at hall
      cases hall.1
    · obtain ⟨q', hpush, hq', hcapacity, hhead, htail⟩ := h.push_room hfull value
      have hslot : ∀ i, (q'.tail + 1 + i) % q'.capacity = (q.tail + 1 + (i + 1)) % q.capacity := by
        intro i
        rw [htail, hcapacity, Nat.add_assoc, ← Nat.mod_add_mod, h.add_mod, Nat.mod_add_mod,
          Nat.add_comm 1 i]
      rw [hpush, ih hq', hhead]
      constructor
      · rintro ⟨_, hrest⟩ i hi
        cases i with
        | zero => exact hfull
        | succ i =>
          rw [← hslot]
          exact hrest i (Nat.lt_of_succ_lt_succ hi)
      · intro hall
        refine ⟨rfl, fun i hi => ?_⟩
        rw [hslot]
        exact hall (i + 1) (Nat.succ_lt_succ hi)

/-- As many pushes as the capacity come to every slot, and the full test refuses one of them unless
    the head has passed the mask. -/
theorem Sized.acceptsAll_capacity_iff (h : q.Sized w) {values : List T}
    (hlength : values.length = q.capacity) : q.AcceptsAll w values ↔ q.capacity ≤ q.head := by
  rw [h.acceptsAll_iff, hlength]
  constructor
  · intro hall
    by_contra hlt
    obtain ⟨i, hi, hslot⟩ := Ring.exists_slot (q.tail + 1) (Nat.lt_of_not_le hlt)
    exact hall i hi hslot
  · intro hle i _ hslot
    have hlt := Nat.mod_lt (q.tail + 1 + i) h.pos
    omega

/-- A push on a queue with slots does not panic. -/
theorem Sized.push_ne_panic (h : q.Sized w) (value : T) :
    (q.push w value).1 ≠ .error .indexOutOfBounds := by
  by_cases hfull : (q.tail + 1) % q.capacity = q.head
  · rw [h.push_full hfull]
    rintro ⟨⟩
  · obtain ⟨q', hpush, _⟩ := h.push_room hfull value
    rw [hpush]
    rintro ⟨⟩

theorem Sized.step (h : q.Sized w) (op : Op T) : (q.step w op).Sized w := by
  cases op with
  | push value =>
    by_cases hfull : (q.tail + 1) % q.capacity = q.head
    · rw [MpmcQueue.step, h.push_full hfull]
      exact h
    · obtain ⟨q', hpush, h', _⟩ := h.push_room hfull value
      rw [MpmcQueue.step, hpush]
      exact h'
  | pop =>
    rw [MpmcQueue.step, MpmcQueue.pop]
    split
    · exact h
    · split
      · exact h
      · exact ⟨h.power, h.lt, h.mask_eq, List.length_set.trans h.length_eq⟩

theorem Sized.after (h : q.Sized w) (ops : List (Op T)) : (q.after w ops).Sized w := by
  induction ops generalizing q with
  | nil => exact h
  | cons op ops ih => exact ih (h.step op)

/-! ### Reachable queues -/

theorem step_capacity (w : Nat) (q : MpmcQueue T) (op : Op T) :
    (q.step w op).capacity = q.capacity := by
  cases op with
  | push value =>
    rw [step, push]
    split
    · rfl
    · split <;> rfl
  | pop =>
    rw [step, pop]
    split
    · rfl
    · split
      · rfl
      · rfl

theorem after_capacity (w : Nat) (q : MpmcQueue T) (ops : List (Op T)) :
    (q.after w ops).capacity = q.capacity := by
  induction ops generalizing q with
  | nil => rfl
  | cons op ops ih => exact (ih (q.step w op)).trans (step_capacity w q op)

theorem indexed_new (hq : new w requested = some q) (hpos : 0 < q.capacity) : q.Indexed w 0 := by
  have hlt := withCapacity_lt hq
  have heq := withCapacity_eq_some hq hpos
  subst heq
  exact ⟨⟨roundUp_power requested, hlt, rfl, List.length_replicate⟩, Nat.le_refl _, Nat.le_refl _,
    fun _ => by rwa [Nat.zero_add]⟩

theorem Indexed.len_eq (h : q.Indexed w n) : q.len w = q.tail - q.head := if_pos h.head_le

/-- While the head has not passed the mask the full test fires exactly when one slot is free, and
    then it does not fire any more. -/
theorem Indexed.full_iff (h : q.Indexed w n) :
    (q.tail + 1) % q.capacity = q.head ↔
      q.head < q.capacity ∧ q.tail + 1 = q.head + q.capacity := by
  have hpos := h.sized.pos
  constructor
  · intro hslot
    have hlt : q.head < q.capacity := hslot ▸ Nat.mod_lt (q.tail + 1) hpos
    refine ⟨hlt, ?_⟩
    have hle := h.head_le
    have hspare := h.spare hlt
    by_contra hne
    have hbase : (q.head + 0) % q.capacity = q.head := Nat.mod_eq_of_lt hlt
    refine Ring.slot_ne (h := q.head) (i := q.tail + 1 - q.head) (j := 0) (by omega) hpos
      (by omega) ?_
    rw [hbase, Nat.add_sub_cancel' (by omega)]
    exact hslot
  · rintro ⟨hlt, hsum⟩
    rw [hsum, Nat.add_mod_right, Nat.mod_eq_of_lt hlt]

theorem Indexed.step (h : q.Indexed w n) (hn : n + 1 < 2 ^ w) (op : Op T) :
    (q.step w op).Indexed w (n + 1) := by
  have hle := h.head_le
  have htail := h.tail_le
  have hsame : q.Indexed w (n + 1) := ⟨h.sized, hle, Nat.le_succ_of_le htail, h.spare⟩
  cases op with
  | push value =>
    by_cases hfull : (q.tail + 1) % q.capacity = q.head
    · rw [MpmcQueue.step, h.sized.push_full hfull]
      exact hsame
    · obtain ⟨q', hpush, hq', hcapacity, hhead, htail'⟩ := h.sized.push_room hfull value
      rw [Word.add_of_lt (by omega)] at htail'
      rw [MpmcQueue.step, hpush]
      show q'.Indexed w (n + 1)
      refine ⟨hq', by omega, by omega, fun hlt => ?_⟩
      have hspare := h.spare (by omega)
      have hne : q.tail + 1 ≠ q.head + q.capacity :=
        fun hsum => hfull (h.full_iff.mpr ⟨by omega, hsum⟩)
      omega
  | pop =>
    rw [MpmcQueue.step, pop]
    split
    · exact hsame
    · next hne =>
      have hhead : Word.add w q.head 1 = q.head + 1 := Word.add_of_lt (by omega)
      split
      · exact hsame
      · refine ⟨⟨h.sized.power, h.sized.lt, h.sized.mask_eq,
          List.length_set.trans h.sized.length_eq⟩,
          ?_, Nat.le_succ_of_le htail, ?_⟩
        · show Word.add w q.head 1 ≤ q.tail
          omega
        · show Word.add w q.head 1 < q.capacity → q.tail < Word.add w q.head 1 + q.capacity
          intro hlt
          have hspare := h.spare (by omega)
          omega

theorem Indexed.after (h : q.Indexed w n) (ops : List (Op T)) (hn : n + ops.length < 2 ^ w) :
    (q.after w ops).Indexed w (n + ops.length) := by
  induction ops generalizing q n with
  | nil => exact h
  | cons op ops ih =>
    rw [List.length_cons] at hn ⊢
    have hrest := ih (h.step (by omega) op) (by omega)
    rwa [Nat.add_assoc, Nat.add_comm 1] at hrest

theorem Indexed.fullTestExact_iff (h : q.Indexed w n) (value : T) :
    ((q.push w value).1 = .ok () ↔ q.len w < q.capacity) ↔ q.FullTestExact w := by
  have hle := h.head_le
  have hlen := h.len_eq
  rw [h.sized.push_ok_iff, Ne, h.full_iff, FullTestExact]
  by_cases hlt : q.head < q.capacity
  · have hspare := h.spare hlt
    rw [if_pos hlt]
    omega
  · have hpos := h.sized.pos
    rw [if_neg hlt]
    omega

end Indexed

theorem slotless_after (w : Nat) (ops : List (Op T)) : (slotless w).after w ops = slotless w := by
  induction ops with
  | nil => rfl
  | cons op ops ih => rwa [after, List.foldl_cons, slotless_step w op]

/-- **What a push accepts** after every run of fewer than `2 ^ w` operations: the capacity is the
    least power of two from the requested one on exactly when that is a word, the full test agrees
    with the length and the capacity exactly where `FullTestExact` says so, a refused push changes
    nothing, and the capacity can be filled up from an empty queue exactly when the head has passed
    the mask. -/
theorem push_capacity_iff {w requested : Nat} {q₀ q : MpmcQueue T} (hw : 0 < w)
    (hq : new w requested = some q₀) (ops : List (Op T)) (hops : ops.length < 2 ^ w)
    (hrun : q₀.after w ops = q) :
    (IsLeast {n | requested ≤ n ∧ ∃ k, n = 2 ^ k} q.capacity ↔ requested ≤ 2 ^ (w - 1)) ∧
      (∀ value, ((q.push w value).1 = .ok () ↔ q.len w < q.capacity) ↔ q.FullTestExact w) ∧
      (∀ value, (q.push w value).1 ≠ .ok () → (q.push w value).2 = q) ∧
      (q.len w = 0 → ∀ values, values.length = q.capacity →
        (q.AcceptsAll w values ↔ q.capacity ≤ q.head)) := by
  rcases Nat.eq_zero_or_pos q₀.capacity with hzero | hpos
  · have hlarge : ¬ requested ≤ 2 ^ (w - 1) := by
      rw [← roundUp_lt_iff hw]
      exact fun hlt => new_capacity_ne hq hlt hzero
    have hslotless : q = slotless w := by
      rw [← hrun, withCapacity_eq_slotless hq hzero, slotless_after]
    subst hslotless
    refine ⟨iff_of_false ?_ hlarge, fun value => ?_, fun value _ => ?_, fun _ values hlength => ?_⟩
    · rintro ⟨⟨_, k, hk⟩, _⟩
      exact Nat.ne_of_lt (Nat.two_pow_pos k) hk
    · obtain ⟨failure, hpush⟩ := slotless_push w value
      rw [hpush]
      exact iff_of_true (iff_of_false nofun (Nat.not_lt_zero _)) (Or.inr rfl)
    · obtain ⟨failure, hpush⟩ := slotless_push w value
      rw [hpush]
    · rw [List.length_eq_zero_iff.mp hlength]
      exact iff_of_true trivial (Nat.zero_le _)
  · have h := (indexed_new hq hpos).after ops (by rwa [Nat.zero_add])
    have hcapacity : q.capacity = roundUp requested := by
      rw [← hrun, after_capacity, withCapacity_eq_some hq hpos]
    rw [hrun] at h
    refine ⟨iff_of_true ?_ ?_, h.fullTestExact_iff, fun value hrefused => ?_,
      fun _ values hlength => h.sized.acceptsAll_capacity_iff hlength⟩
    · rw [hcapacity]
      refine ⟨⟨le_roundUp requested, roundUp_power requested⟩, ?_⟩
      rintro n ⟨hle, k, rfl⟩
      exact roundUp_le hle
    · rw [← roundUp_lt_iff hw, ← hcapacity]
      exact h.sized.lt
    · by_cases hfull : (q.tail + 1) % q.capacity = q.head
      · rw [h.sized.push_full hfull]
      · obtain ⟨q', hpush, _⟩ := h.sized.push_room hfull value
        rw [hpush] at hrefused
        exact absurd rfl hrefused

/-- A queue of capacity 4 that holds one value takes another one. -/
theorem push_capacity_iff_secondValue :
    ∃ q₀ q : MpmcQueue Nat, new 64 4 = some q₀ ∧ q₀.after 64 [.push 0] = q ∧
      ((q.push 64 1).1 = .ok () ↔ q.len 64 < q.capacity) := by
  have hq : new 64 4 = some (⟨List.replicate 4 none, 4, 3, 0, 0, 0⟩ : MpmcQueue Nat) := by decide
  exact ⟨_, _, hq, rfl,
    ((push_capacity_iff (by decide) hq [.push 0] (by decide) rfl).2.1 1).mpr (by decide)⟩

/-- A new queue of capacity 2 takes one value only. -/
theorem push_refused_below_capacity :
    ¬ ∀ (requested : Nat) (q₀ : MpmcQueue Nat), new 64 requested = some q₀ →
      ∀ ops : List (Op Nat), ops.length < 2 ^ 64 → ∀ value,
        (((q₀.after 64 ops).push 64 value).1 = .ok () ↔
          (q₀.after 64 ops).len 64 < (q₀.after 64 ops).capacity) := by
  intro h
  have hq : new 64 2 = some (⟨[none, none], 2, 1, 0, 0, 0⟩ : MpmcQueue Nat) := by decide
  have hok := (h 2 _ hq [.push 1] (by decide) 2).mpr (by decide)
  revert hok
  decide

end MpmcQueue

end VelocityX.Mpmc
