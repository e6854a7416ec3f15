import VelocityX.Queue.MpmcCapacity

/-!
# The length of the lock-free bounded queue

`len` of the bounded `MpmcQueue` in `src/queue/mpmc.rs` for every position of its indices.  These
are words that wrap at `2 ^ w`; the branch of `len` for `tail < head` corrects by the capacity, as
if they wrapped there.
-/

namespace VelocityX.Mpmc

variable {T : Type*} {w : Nat}

namespace MpmcQueue

/-- A subtraction in `len` goes below zero. -/
def LenUnderflows (q : MpmcQueue T) : Prop := ¬ q.head ≤ q.tail ∧ q.capacity < q.head - q.tail

/-- The number of pushes of a run that are accepted. -/
def accepted (w : Nat) : MpmcQueue T → List (Op T) → Nat
  | _, [] => 0
  | q, .push value :: ops =>
      (if (q.push w value).1 = .ok () then 1 else 0) + accepted w (q.push w value).2 ops
  | q, .pop :: ops => accepted w (q.pop w).2 ops

/-- The number of pops of a run that return a value. -/
def popped (w : Nat) : MpmcQueue T → List (Op T) → Nat
  | _, [] => 0
  | q, .push value :: ops => popped w (q.push w value).2 ops
  | q, .pop :: ops => (if (q.pop w).1.isSome then 1 else 0) + popped w (q.pop w).2 ops

/-- `len` counts `n` values and does not underflow, and `is_empty` agrees. -/
def Counts (w : Nat) (q : MpmcQueue T) (n : Nat) : Prop :=
  ¬ q.LenUnderflows ∧ q.len w = n ∧ (q.isEmpty w = true ↔ n = 0)

end MpmcQueue

open MpmcQueue

section Len

variable {q : MpmcQueue T} {n a p : Nat}

/-- The branch without correction is right. -/
theorem counts_of_lt (htail : q.tail = Word.add w q.head n) (hlt : q.head + n < 2 ^ w) :
    q.Counts w n := by
  rw [Word.add_of_lt hlt] at htail
  have hlen : q.len w = n := by
    rw [MpmcQueue.len, if_pos (by omega)]
    omega
  refine ⟨?_, hlen, ?_⟩
  · rintro ⟨hgt, _⟩
    omega
  · rw [MpmcQueue.isEmpty, hlen, beq_iff_eq]

/-- The corrected branch is off by the capacity. -/
theorem len_of_ge (hhead : q.head < 2 ^ w) (hle : n ≤ q.capacity) (hcapacity : q.capacity < 2 ^ w)
    (htail : q.tail = Word.add w q.head n) (hge : 2 ^ w ≤ q.head + n) :
    q.len w = Word.add w q.capacity n := by
  have hwrapped : q.tail = q.head + n - 2 ^ w := by
    rw [htail, Word.add, Nat.mod_eq_sub_mod hge, Nat.mod_eq_of_lt (by omega)]
  have hdistance : q.head - q.tail = 2 ^ w - n := by omega
  rw [MpmcQueue.len, if_neg (by omega), hdistance, Word.sub, Word.add,
    Nat.mod_eq_of_lt (show 2 ^ w - n < 2 ^ w by omega)]
  congr 1
  omega

theorem counts_iff_lt (hhead : q.head < 2 ^ w) (hle : n ≤ q.capacity)
    (hcapacity : q.capacity < 2 ^ w) (htail : q.tail = Word.add w q.head n) :
    q.Counts w n ↔ q.head + n < 2 ^ w := by
  constructor
  · rintro ⟨_, hlen, _⟩
    by_contra hge
    have hpos : 0 < q.capacity := by omega
    rw [len_of_ge hhead hle hcapacity htail (Nat.le_of_not_lt hge), Word.add,
      Nat.add_comm] at hlen
    exact Word.add_ne hpos hcapacity n hlen
  · exact counts_of_lt htail

/-! ### Indices along a run -/

/-- After `a` accepted pushes and `p` successful pops. -/
structure MpmcQueue.Counted (w : Nat) (q : MpmcQueue T) (a p : Nat) : Prop where
  head_eq : q.head = p % 2 ^ w
  tail_eq : q.tail = a % 2 ^ w
  le : p ≤ a

theorem MpmcQueue.Counted.push (hq : q.Counted w a p) (value : T) :
    (q.push w value).2.Counted w (a + if (q.push w value).1 = .ok () then 1 else 0) p := by
  rw [MpmcQueue.push]
  split
  · simpa using hq
  · split
    · refine ⟨hq.head_eq, ?_, Nat.le_succ_of_le hq.le⟩
      show Word.add w q.tail 1 = (a + 1) % 2 ^ w
      rw [hq.tail_eq, Word.add, Nat.mod_add_mod]
    · simpa using hq

theorem MpmcQueue.Counted.pop (hq : q.Counted w a p) :
    (q.pop w).2.Counted w a (p + if (q.pop w).1.isSome then 1 else 0) := by
  rw [MpmcQueue.pop]
  split
  · simpa using hq
  · next hne =>
    split
    · simpa using hq
    · refine ⟨?_, hq.tail_eq, ?_⟩
      · show Word.add w q.head 1 = (p + 1) % 2 ^ w
        rw [hq.head_eq, Word.add, Nat.mod_add_mod]
      · -- the indices differ, so that a value has been accepted and not yet popped
        have hlt : p ≠ a := by
          rintro rfl
          exact hne (hq.head_eq.trans hq.tail_eq.symm)
        have := hq.le
        show p + 1 ≤ a
        omega

theorem MpmcQueue.Counted.after (ops : List (Op T)) :
    ∀ {q : MpmcQueue T} {a p : Nat}, q.Counted w a p →
      (q.after w ops).Counted w (a + q.accepted w ops) (p + q.popped w ops) := by
  induction ops with
  | nil =>
    intro q a p hq
    exact hq
  | cons op ops ih =>
    intro q a p hq
    cases op with
    | push value =>
      have hrest := ih (hq.push value)
      rw [Nat.add_assoc] at hrest
      exact hrest
    | pop =>
      have hrest := ih hq.pop
      rw [Nat.add_assoc p] at hrest
      exact hrest

theorem counted_new {requested : Nat} (hq : new w requested = some q) : q.Counted w 0 0 := by
  obtain ⟨hhead, htail⟩ := withCapacity_indices hq
  exact ⟨hhead.trans (Nat.zero_mod _).symm, htail.trans (Nat.zero_mod _).symm, Nat.le_refl 0⟩

/-- **What `len` counts.**  For every position of the indices with `n` values between them, and so
    after every run that leaves at most `capacity` values, `len` and `is_empty` are right if and
    only if the window does not reach over the wrap of the word. -/
theorem counts_iff {requested : Nat} {q₀ : MpmcQueue T} (hq : new w requested = some q₀) :
    (∀ (q : MpmcQueue T) (n : Nat), q.capacity = q₀.capacity → q.head < 2 ^ w → n ≤ q.capacity →
      q.tail = Word.add w q.head n → (q.Counts w n ↔ q.head + n < 2 ^ w)) ∧
    ∀ ops : List (Op T), q₀.accepted w ops - q₀.popped w ops ≤ q₀.capacity →
      ((q₀.after w ops).Counts w (q₀.accepted w ops - q₀.popped w ops) ↔
        (q₀.after w ops).head + (q₀.accepted w ops - q₀.popped w ops) < 2 ^ w) := by
  have hpositions : ∀ (q : MpmcQueue T) (n : Nat), q.capacity = q₀.capacity → q.head < 2 ^ w →
      n ≤ q.capacity → q.tail = Word.add w q.head n → (q.Counts w n ↔ q.head + n < 2 ^ w) := by
    intro q n hcapacity hhead hle htail
    refine counts_iff_lt hhead hle ?_ htail
    rw [hcapacity]
    exact withCapacity_lt hq
  refine ⟨hpositions, fun ops hle => ?_⟩
  have hcounted := (counted_new hq).after ops
  rw [Nat.zero_add, Nat.zero_add] at hcounted
  have hcapacity := after_capacity w q₀ ops
  refine hpositions _ _ hcapacity ?_ (by rw [hcapacity]; exact hle) ?_
  · rw [hcounted.head_eq]
    exact Nat.mod_lt _ (Nat.two_pow_pos w)
  · rw [hcounted.head_eq, hcounted.tail_eq, Word.add, Nat.mod_add_mod,
      Nat.add_sub_cancel' hcounted.le]

/-- A value that has passed the mask of a queue of capacity 4. -/
theorem counts_iff_fifthValue :
    (⟨[some 8, none, none, none], 4, 3, 4, 5, 9⟩ : MpmcQueue Nat).Counts 64 1 := by
  have hq : new 64 4 = some (⟨List.replicate 4 none, 4, 3, 0, 0, 0⟩ : MpmcQueue Nat) := by decide
  exact ((counts_iff hq).1 ⟨[some 8, none, none, none], 4, 3, 4, 5, 9⟩ 1 rfl (by decide) (by decide)
    rfl).mpr (by decide)

end Len

/-! ### A full turn of the indices -/

section Turn

variable {c g h : Nat} {value : T}

/-- An empty queue of more than one slot takes a value. -/
theorem push_empty (hq : (⟨List.replicate c none, c, c - 1, h, h, g⟩ : MpmcQueue T).Sized w)
    (hc : 1 < c) :
    (⟨List.replicate c none, c, c - 1, h, h, g⟩ : MpmcQueue T).push w value =
      (.ok (), ⟨(List.replicate c none).set (h &&& (c - 1)) (some value), c, c - 1, h,
        Word.add w h 1, Word.add 64 g 1⟩) := by
  have hroom : ¬ (h + 1) % c = h := by
    intro heq
    have hlt : h < c := heq ▸ Nat.mod_lt (h + 1) (by omega)
    rcases Nat.lt_or_ge (h + 1) c with hbelow | hlast
    · rw [Nat.mod_eq_of_lt hbelow] at heq
      omega
    · rw [Nat.mod_eq_sub_mod hlast, Nat.mod_eq_of_lt (by omega)] at heq
      omega
  exact hq.push_eq hroom value

/-- One push and one pop on an empty queue move both indices by one. -/
theorem after_pair (hq : (⟨List.replicate c none, c, c - 1, h, h, g⟩ : MpmcQueue T).Sized w)
    (hc : 1 < c) :
    (⟨List.replicate c none, c, c - 1, h, h, g⟩ : MpmcQueue T).after w [.push value, .pop] =
      ⟨List.replicate c none, c, c - 1, Word.add w h 1, Word.add w h 1, Word.add 64 g 2⟩ := by
  have hpow : c < 2 ^ w := hq.lt
  obtain ⟨k, hk⟩ := hq.power
  have hk : c = 2 ^ k := hk
  have hslot : h &&& (c - 1) < c := by
    rw [hk, Nat.and_two_pow_sub_one_eq_mod]
    exact Nat.mod_lt _ (Nat.two_pow_pos k)
  have hpop : (⟨(List.replicate c none).set (h &&& (c - 1)) (some value), c, c - 1, h,
      Word.add w h 1, Word.add 64 g 1⟩ : MpmcQueue T).pop w =
      (some value, ⟨List.replicate c none, c, c - 1, Word.add w h 1, Word.add w h 1,
        Word.add 64 g 2⟩) := by
    rw [MpmcQueue.pop, if_neg (Ne.symm (Word.add_ne Nat.one_pos (by omega) h)), MpmcQueue.index]
    simp [hslot, Word.add_add]
  show (((⟨List.replicate c none, c, c - 1, h, h, g⟩ : MpmcQueue T).push w value).2.pop w).2 = _
  rw [push_empty hq hc, hpop]

variable (value) in
theorem after_pairs (hc : 1 < c) (k : Nat) :
    ∀ h g, h < 2 ^ w → g < 2 ^ 64 →
      (⟨List.replicate c none, c, c - 1, h, h, g⟩ : MpmcQueue T).Sized w →
      (⟨List.replicate c none, c, c - 1, h, h, g⟩ : MpmcQueue T).after w
          (List.replicate k [.push value, .pop]).flatten =
        ⟨List.replicate c none, c, c - 1, Word.add w h k, Word.add w h k,
          Word.add 64 g (2 * k)⟩ := by
  induction k with
  | zero =>
    intro h g hh hg _
    rw [Nat.mul_zero, Word.add_zero_of_lt hh, Word.add_zero_of_lt hg]
    rfl
  | succ k ih =>
    intro h g _ _ hq
    have hnext := ih _ _ (Word.add_lt w h 1) (Word.add_lt 64 g 2) 
      ⟨hq.power, hq.lt, hq.mask_eq, List.length_replicate⟩
    rw [List.replicate_succ, List.flatten_cons, MpmcQueue.after, List.foldl_append]
    show ((⟨List.replicate c none, c, c - 1, h, h, g⟩ : MpmcQueue T).after w
      [.push value, .pop]).after w _ = _
    rw [after_pair hq hc, hnext, Word.add_add, Word.add_add, Nat.add_comm 1 k, Nat.mul_succ,
      Nat.add_comm 2]

/-- One value after `2 ^ 64 - 1` others have passed through a queue of capacity 4: `len` subtracts
    `2 ^ 64 - 1` from 4. -/
theorem len_underflows :
    ¬ ∀ (requested : Nat) (q₀ : MpmcQueue Nat), new 64 requested = some q₀ →
      ∀ (ops : List (Op Nat)) (n : Nat), n ≤ q₀.capacity →
        (q₀.after 64 ops).tail = Word.add 64 (q₀.after 64 ops).head n →
        (q₀.after 64 ops).Counts 64 n := by
  intro hall
  have hq : new 64 4 = some (⟨List.replicate 4 none, 4, 3, 0, 0, 0⟩ : MpmcQueue Nat) := by decide
  have hpairs := after_pairs 0 (by decide) (2 ^ 64 - 1) 0 0 (by decide) (by decide)
    (indexed_new hq (by decide)).sized
  have hlast : (⟨List.replicate 4 none, 4, 3, 0, 0, 0⟩ : MpmcQueue Nat).after 64
      ((List.replicate (2 ^ 64 - 1) [.push 0, .pop]).flatten ++ [.push 1]) =
      ⟨[none, none, none, some 1], 4, 3, 2 ^ 64 - 1, 0, 2 ^ 64 - 1⟩ := by
    rw [MpmcQueue.after, List.foldl_append]
    show ((⟨List.replicate 4 none, 4, 3, 0, 0, 0⟩ : MpmcQueue Nat).after 64 _).after 64
      [.push 1] = _
    rw [hpairs]
    decide
  have hcounts := hall 4 _ hq
    ((List.replicate (2 ^ 64 - 1) [.push 0, .pop]).flatten ++ [.push 1]) 1 (by decide)
  rw [hlast] at hcounts
  exact (hcounts (by decide)).1 ⟨by decide, by decide⟩

end Turn

end VelocityX.Mpmc
