import Mathlib.Data.Nat.Bitwise
import VelocityX.Error
import VelocityX.Lib.Ring
import VelocityX.Lib.Transition
import VelocityX.Lib.Word

/-!
# The work-stealing deque

The single-threaded meaning of `WorkStealingDeque` in `src/deque/work_stealing.rs`.  The
indices `bottom` and `top` are signed words of `w` bits, the capacity and the mask
unsigned ones.  The field `epoch` is never read.

In a sequential run the deque is a bounded double-ended sequence: the owner pushes and
pops at its bottom end and thieves steal from its top end.  `Spans` says what the deque holds
wherever its indices are, `Represents` the same for indices that have not wrapped.

A request of more than `2 ^ (w - 1)` is rounded up to 0 where the arithmetic wraps, and the deque
then has no slots.
-/

namespace VelocityX.Deque

variable {T : Type*}

structure WorkStealingDeque (T : Type*) where
  buffer : List (Option T)
  capacity : Nat
  mask : Nat
  bottom : Int
  top : Int
deriving DecidableEq, Repr

namespace WorkStealingDeque

/-- `none` is a panic: the assertion `capacity > 0`, or a buffer of more than `isize::MAX`
    bytes, where `slot` is the size of an `Option<T>`.  `next_power_of_two` and the mask wrap. -/
def withCapacity (w slot capacity : Nat) : Option (WorkStealingDeque T) :=
  if 0 < capacity ∧ roundUpWord w capacity * slot < 2 ^ (w - 1) then
    some ⟨List.replicate (roundUpWord w capacity) none, roundUpWord w capacity,
      Word.sub w (roundUpWord w capacity) 1, 0, 0⟩
  else
    none

def new (w slot capacity : Nat) : Option (WorkStealingDeque T) := withCapacity w slot capacity

/-- The slot of an index: `(i as usize) & self.mask`. -/
def index (w : Nat) (d : WorkStealingDeque T) (i : Int) : Nat := Word.unsigned w i &&& d.mask

/-- `self.top.compare_exchange(top, top + 1)`; `none` is a failure. -/
def exchangeTop (w : Nat) (d : WorkStealingDeque T) (top : Int) : Option (WorkStealingDeque T) :=
  if d.top = top then some { d with top := Word.signed w (top + 1) } else none

def push (w : Nat) (d : WorkStealingDeque T) (value : T) :
    Except Error Unit × WorkStealingDeque T :=
  if Word.signed w d.capacity ≤ Word.signed w (d.bottom - d.top) then
    (.error .wouldBlock, d)
  else
    (.ok (), { d with buffer := d.buffer.set (d.index w d.bottom) (some value),
                      bottom := Word.signed w (d.bottom + 1) })

def pop (w : Nat) (d : WorkStealingDeque T) : Option T × WorkStealingDeque T :=
  let bottom := d.bottom
  if bottom = 0 then
    (none, d)
  else
    let d := { d with bottom := Word.signed w (bottom - 1) }
    let top := d.top
    if top < bottom then
      let index := d.index w (Word.signed w (bottom - 1))
      let value := d.buffer[index]?.join
      let d := { d with buffer := d.buffer.set index none }
      if top = Word.signed w (bottom - 1) then
        match d.exchangeTop w top with
        | some d => (value, { d with bottom := bottom })
        | none => (none, { d with bottom := bottom })
      else
        (value, d)
    else
      (none, { d with bottom := bottom })

def steal (w : Nat) (d : WorkStealingDeque T) : Option T × WorkStealingDeque T :=
  let top := d.top
  let bottom := d.bottom
  if bottom ≤ top then
    (none, d)
  else
    let index := d.index w top
    match d.buffer[index]?.join with
    | some value =>
        let d := { d with buffer := d.buffer.set index none }
        match d.exchangeTop w top with
        | some d => (some value, d)
        | none => (none, { d with buffer := d.buffer.set index (some value) })
    | none => (none, d)

def len (w : Nat) (d : WorkStealingDeque T) : Nat :=
  Word.unsigned w (max (Word.signed w (d.bottom - d.top)) 0)

def isEmpty (d : WorkStealingDeque T) : Bool := d.bottom == d.top

/-! ### Runs -/

inductive Op (T : Type*) where
  | push (value : T)
  | pop
  | steal
deriving DecidableEq, Repr

inductive Ret (T : Type*) where
  | pushed (result : Except Error Unit)
  | taken (value : Option T)
deriving DecidableEq, Repr

def exec (w : Nat) (d : WorkStealingDeque T) : Op T → WorkStealingDeque T × Ret T
  | .push value => ((d.push w value).2, .pushed (d.push w value).1)
  | .pop => ((d.pop w).2, .taken (d.pop w).1)
  | .steal => ((d.steal w).2, .taken (d.steal w).1)

def step (w : Nat) (d : WorkStealingDeque T) (op : Op T) : Option (WorkStealingDeque T) :=
  some (d.exec w op).1

/-- The bounded double-ended sequence: the oldest value first. -/
def sequence (cap : Nat) (xs : List T) : Op T → List T × Ret T
  | .push value =>
      if xs.length < cap then (xs ++ [value], .pushed (.ok ()))
      else (xs, .pushed (.error .wouldBlock))
  | .pop => (xs.dropLast, .taken xs.getLast?)
  | .steal => (xs.tail, .taken xs.head?)

/-- An operation that was refused or found nothing. -/
def Ret.Failed : Ret T → Prop
  | .pushed result => result = .error .wouldBlock
  | .taken value => value = none

/-- The deque holds the values `xs` at the indices from `top` on below `bottom`, and nothing
    in its other slots. -/
structure Represents (d : WorkStealingDeque T) (xs : List T) : Prop where
  power : ∃ k, d.capacity = 2 ^ k
  mask_eq : d.mask = d.capacity - 1
  top_nonneg : 0 ≤ d.top
  bottom_eq : d.bottom = d.top + xs.length
  holds : Ring.Holds d.buffer d.capacity d.top.toNat xs

/-- The deque holds the values `xs` from index `top` on, counted modulo `2 ^ w`. -/
structure Spans (w : Nat) (d : WorkStealingDeque T) (xs : List T) : Prop where
  power : ∃ k, d.capacity = 2 ^ k
  mask_eq : d.mask = d.capacity - 1
  top_word : Word.signed w d.top = d.top
  bottom_eq : d.bottom = Word.signed w (d.top + xs.length)
  holds : Ring.Holds d.buffer d.capacity (Word.unsigned w d.top) xs

/-- The deque represents the sequence, and `len` and `is_empty` say so. -/
structure Agrees (w : Nat) (d : WorkStealingDeque T) (xs : List T) : Prop where
  represents : d.Represents xs
  len_eq : d.len w = xs.length
  isEmpty_iff : d.isEmpty = true ↔ xs = []

/-- Every operation of the run answers as the bounded sequence, and one that fails changes
    nothing. -/
def Refines (w : Nat) : WorkStealingDeque T → List T → List (Op T) → Prop
  | d, xs, [] => d.Agrees w xs
  | d, xs, op :: ops =>
      d.Agrees w xs ∧ (d.exec w op).2 = (sequence d.capacity xs op).2 ∧
        ((d.exec w op).2.Failed → (d.exec w op).1 = d) ∧
        Refines w (d.exec w op).1 (sequence d.capacity xs op).1 ops

def isizeMax (w : Nat) : Nat := 2 ^ (w - 1) - 1

/-- `bottom` stays below `isize::MAX` along the run. -/
def BottomBelowMax (w : Nat) : WorkStealingDeque T → List (Op T) → Prop
  | d, [] => d.bottom < isizeMax w
  | d, op :: ops => d.bottom < isizeMax w ∧ BottomBelowMax w (d.exec w op).1 ops

/-! ### The operations on what the deque holds -/

section Spans

variable {w : Nat} {d : WorkStealingDeque T} {xs : List T} {x : T}

/-- A pop that finds a value moves `top` for the last one and otherwise `bottom`. -/
theorem pop_found (hne : d.bottom ≠ 0) (hlt : d.top < d.bottom) {slot : Nat}
    (hslot : d.index w (Word.signed w (d.bottom - 1)) = slot) :
    d.pop w = (d.buffer[slot]?.join,
      if d.top = Word.signed w (d.bottom - 1) then
        { d with buffer := d.buffer.set slot none, top := Word.signed w (d.top + 1) }
      else
        { d with buffer := d.buffer.set slot none, bottom := Word.signed w (d.bottom - 1) }) := by
  subst hslot
  by_cases hlast : d.top = Word.signed w (d.bottom - 1)
  · simp only [pop, if_neg hne, if_pos hlt, if_pos hlast, exchangeTop, reduceIte]
    rfl
  · simp only [pop, if_neg hne, if_pos hlt, if_neg hlast]
    rfl

theorem steal_found (hlt : d.top < d.bottom) {slot : Nat} (hslot : d.index w d.top = slot)
    (hfull : d.buffer[slot]?.join = some x) :
    d.steal w = (some x,
      { d with buffer := d.buffer.set slot none, top := Word.signed w (d.top + 1) }) := by
  subst hslot
  simp only [steal, if_neg (Int.not_le.mpr hlt), hfull, exchangeTop, reduceIte]

theorem Spans.dvd (h : d.Spans w xs) (hfits : d.capacity < 2 ^ w) : d.capacity ∣ 2 ^ w := by
  obtain ⟨k, hk⟩ := h.power
  rw [hk] at hfits ⊢
  exact Nat.pow_dvd_pow 2 (Nat.le_of_lt ((Nat.pow_lt_pow_iff_right (by decide)).mp hfits))

/-- The slot of the `k`-th index after `top`. -/
theorem Spans.index_eq (h : d.Spans w xs) (hfits : d.capacity < 2 ^ w) (k : Nat) :
    d.index w (Word.signed w (d.top + k)) = (Word.unsigned w d.top + k) % d.capacity := by
  have hdvd := h.dvd hfits
  rw [index, Word.unsigned_signed, ← Word.unsigned_add_mod hdvd]
  obtain ⟨m, hm⟩ := h.power
  rw [h.mask_eq, hm]
  exact Nat.and_two_pow_sub_one_eq_mod _ m

theorem Spans.index_top (h : d.Spans w xs) (hfits : d.capacity < 2 ^ w) :
    d.index w d.top = Word.unsigned w d.top % d.capacity := by
  have hindex := h.index_eq hfits 0
  rw [Int.natCast_zero, Int.add_zero, h.top_word] at hindex
  exact hindex

/-- There is no value in a deque whose capacity is not an `isize`. -/
theorem Spans.length_lt (h : d.Spans w xs) (hcap : Nonempty T → d.capacity < 2 ^ (w - 1)) :
    xs.length < 2 ^ (w - 1) := by
  cases xs with
  | nil => exact Nat.two_pow_pos (w - 1)
  | cons x xs => exact Nat.lt_of_le_of_lt h.holds.2.1 (hcap ⟨x⟩)

/-- `bottom - top` wraps with the indices. -/
theorem Spans.diff_eq (h : d.Spans w xs) (hlen : xs.length < 2 ^ (w - 1)) :
    Word.signed w (d.bottom - d.top) = xs.length := by
  have hdiff : d.top + xs.length + -d.top = (xs.length : Nat) := by omega
  rw [h.bottom_eq, Int.sub_eq_add_neg, Word.signed_add, hdiff, Word.signed_of_lt hlen]

theorem Spans.full_iff (h : d.Spans w xs) (hcap : d.capacity < 2 ^ (w - 1)) :
    Word.signed w d.capacity ≤ Word.signed w (d.bottom - d.top) ↔ ¬ xs.length < d.capacity := by
  rw [h.diff_eq (h.length_lt fun _ => hcap), Word.signed_of_lt hcap]
  omega

theorem Spans.push_full (h : d.Spans w xs) (hcap : d.capacity < 2 ^ (w - 1))
    (hfull : ¬ xs.length < d.capacity) (value : T) : d.push w value = (.error .wouldBlock, d) := by
  rw [push, if_pos ((h.full_iff hcap).mpr hfull)]

theorem Spans.push_room (h : d.Spans w xs) (hcap : d.capacity < 2 ^ (w - 1))
    (hroom : xs.length < d.capacity) (value : T) :
    ∃ d', d.push w value = (.ok (), d') ∧ d'.Spans w (xs ++ [value]) ∧ d'.top = d.top ∧
      d'.capacity = d.capacity := by
  have hnot : ¬ Word.signed w d.capacity ≤ Word.signed w (d.bottom - d.top) :=
    fun hfull => (h.full_iff hcap).mp hfull hroom
  rw [push, if_neg hnot, h.bottom_eq, h.index_eq (Word.lt_of_lt_half hcap), Word.signed_add]
  refine ⟨_, rfl, ⟨h.power, h.mask_eq, h.top_word, ?_, h.holds.push hroom⟩, rfl, rfl⟩
  show _ = Word.signed w (d.top + (xs ++ [value]).length)
  rw [List.length_append, List.length_singleton, Int.natCast_add, ← Int.add_assoc]
  rfl

theorem Spans.len_eq (h : d.Spans w xs) (hlen : xs.length < 2 ^ (w - 1)) :
    d.len w = xs.length := by
  rw [len, h.diff_eq hlen, Int.max_eq_left (Int.natCast_nonneg _),
    Word.unsigned_of_lt (Word.lt_of_lt_half hlen)]

theorem Spans.bottom_of_lt (h : d.Spans w xs) (hw : 0 < w)
    (hlt : d.top + xs.length < (2 ^ (w - 1) : Nat)) : d.bottom = d.top + xs.length := by
  have hlow := Word.signed_lower hw d.top
  rw [h.top_word] at hlow
  rw [h.bottom_eq]
  exact Word.signed_of_range hw (by omega) hlt

theorem Spans.bottom_nil (h : d.Spans w []) : d.bottom = d.top := by
  rw [h.bottom_eq, List.length_nil, Int.natCast_zero, Int.add_zero, h.top_word]

theorem pop_of_eq (hbottom : d.bottom = d.top) : d.pop w = (none, d) := by
  rw [pop]
  by_cases hzero : d.bottom = 0
  · rw [if_pos hzero]
  · have hnot : ¬ d.top < d.bottom := by omega
    rw [if_neg hzero]
    exact if_neg hnot

theorem steal_of_le (hle : d.bottom ≤ d.top) : d.steal w = (none, d) := by
  rw [steal]
  exact if_pos hle

/-- `top` moves past the first value. -/
theorem Spans.raise {cells : List (Option T)} (h : d.Spans w (x :: xs))
    (hfits : d.capacity < 2 ^ w)
    (hcells : Ring.Holds cells d.capacity (Word.unsigned w d.top + 1) xs) :
    ({ d with buffer := cells, top := Word.signed w (d.top + 1) } : WorkStealingDeque T).Spans w
      xs := by
  refine ⟨h.power, h.mask_eq, Word.signed_signed w _, ?_, ?_⟩
  · show d.bottom = Word.signed w (Word.signed w (d.top + 1) + xs.length)
    have hlength : d.top + (x :: xs).length = d.top + 1 + (xs.length : Nat) := by
      rw [List.length_cons]
      omega
    rw [h.bottom_eq, Word.signed_add, hlength]
  · show Ring.Holds cells d.capacity (Word.unsigned w (Word.signed w (d.top + 1))) xs
    rw [Word.unsigned_signed]
    exact hcells.congr (Word.unsigned_add_mod (h.dvd hfits) d.top 1).symm

theorem Spans.first_slot (h : d.Spans w (x :: xs)) (hfits : d.capacity < 2 ^ w) :
    d.buffer[d.index w d.top]?.join = some x := by
  rw [h.index_top hfits, ← Nat.add_zero (Word.unsigned w d.top),
    h.holds.slot_full (k := 0) (Nat.succ_pos _)]
  rfl

theorem Spans.steal_cons (h : d.Spans w (x :: xs)) (hfits : d.capacity < 2 ^ w)
    (hlt : d.top < d.bottom) :
    ∃ d', d.steal w = (some x, d') ∧ d'.Spans w xs ∧ d'.top = Word.signed w (d.top + 1) ∧
      d'.capacity = d.capacity := by
  rw [steal_found hlt rfl (h.first_slot hfits), h.index_top hfits]
  exact ⟨_, rfl, h.raise hfits h.holds.pop, rfl, rfl⟩

theorem Spans.pred_bottom (h : d.Spans w (xs ++ [x])) :
    Word.signed w (d.bottom - 1) = Word.signed w (d.top + xs.length) := by
  have hsum : d.top + (xs ++ [x]).length + -1 = d.top + (xs.length : Nat) := by
    rw [List.length_append, List.length_singleton]
    omega
  rw [h.bottom_eq, Int.sub_eq_add_neg, Word.signed_add, hsum]

theorem Spans.pop_concat (h : d.Spans w (xs ++ [x])) (hfits : d.capacity < 2 ^ w)
    (hne : d.bottom ≠ 0) (hlt : d.top < d.bottom) :
    ∃ d', d.pop w = (some x, d') ∧ d'.Spans w xs ∧
      (d'.top = d.top ∨ xs = [] ∧ d'.top = Word.signed w (d.top + 1)) ∧
      d'.capacity = d.capacity := by
  have hpred := h.pred_bottom
  have hindex : d.index w (Word.signed w (d.bottom - 1)) =
      (Word.unsigned w d.top + xs.length) % d.capacity := by
    rw [hpred]
    exact h.index_eq hfits xs.length
  have hslot : d.buffer[(Word.unsigned w d.top + xs.length) % d.capacity]?.join = some x := by
    rw [h.holds.slot_full (k := xs.length) (by simp)]
    simp
  rw [pop_found hne hlt hindex, hslot, hpred]
  cases xs with
  | nil =>
    -- the last value is taken by moving `top`
    have htop : d.top = Word.signed w (d.top + ([] : List T).length) := by
      rw [List.length_nil, Int.natCast_zero, Int.add_zero, h.top_word]
    rw [if_pos htop]
    exact ⟨_, rfl, h.raise hfits h.holds.pop, Or.inr ⟨rfl, rfl⟩, rfl⟩
  | cons y ys =>
    have hlen := h.holds.2.1
    rw [List.length_append, List.length_singleton] at hlen
    have hpos : 0 < (y :: ys).length := Nat.succ_pos _
    have hmoved := Word.signed_add_ne hpos
      (Nat.lt_of_lt_of_le (Nat.lt_of_succ_le hlen) (Nat.le_of_lt hfits)) d.top
    rw [h.top_word] at hmoved
    rw [if_neg (Ne.symm hmoved)]
    exact ⟨_, rfl, ⟨h.power, h.mask_eq, h.top_word, rfl, h.holds.popBack⟩, Or.inl rfl, rfl⟩

end Spans

/-! ### The operations on what the deque represents -/

section Represents

variable {w slot capacity n : Nat} {d : WorkStealingDeque T} {xs : List T} {x : T}

/-- A capacity that is not 0 has been rounded up without a wrap. -/
theorem withCapacity_eq_some (h : withCapacity w slot capacity = some d) (hpos : 0 < d.capacity) :
    d = ⟨List.replicate (roundUp capacity) none, roundUp capacity, roundUp capacity - 1, 0, 0⟩ ∧
      roundUp capacity < 2 ^ w ∧ roundUp capacity * slot < 2 ^ (w - 1) := by
  unfold withCapacity at h
  split at h
  · next hfits =>
    cases h
    have hlt : roundUp capacity < 2 ^ w := by
      by_contra hge
      exact Nat.ne_of_gt hpos (roundUpWord_of_ge (Nat.le_of_not_lt hge))
    simp only [roundUpWord_of_lt hlt] at hfits ⊢
    rw [Word.sub_of_le (roundUp_pos capacity) hlt]
    exact ⟨rfl, hlt, hfits.2⟩
  · cases h

theorem withCapacity_capacity (h : withCapacity w slot capacity = some d) :
    d.capacity = roundUpWord w capacity := by
  unfold withCapacity at h
  split at h
  · cases h
    rfl
  · cases h

/-- The deque of a request that is rounded up to 0. -/
def slotless (w : Nat) : WorkStealingDeque T := ⟨[], 0, Word.sub w 0 1, 0, 0⟩

theorem withCapacity_eq_slotless (h : withCapacity w slot capacity = some d)
    (hzero : d.capacity = 0) : d = slotless w := by
  unfold withCapacity at h
  split at h
  · cases h
    have hrounded : roundUpWord w capacity = 0 := hzero
    simp only [hrounded, List.replicate_zero, slotless]
  · cases h

theorem represents_withCapacity (h : withCapacity w slot capacity = some d)
    (hpos : 0 < d.capacity) : d.Represents [] := by
  rw [(withCapacity_eq_some h hpos).1]
  exact ⟨roundUp_power capacity, rfl, Int.le_refl 0, rfl, Ring.holds_replicate _ 0⟩

theorem Represents.word_pos (h : d.Represents xs) (hmax : d.bottom < isizeMax w) : 0 < w := by
  rcases Nat.eq_zero_or_pos w with rfl | hw
  · have hnonneg := h.top_nonneg
    rw [h.bottom_eq, show isizeMax 0 = 0 from rfl] at hmax
    omega
  · exact hw

/-- While `bottom` is below `isize::MAX`, the indices have not wrapped. -/
theorem Represents.spans (h : d.Represents xs) (hmax : d.bottom < isizeMax w) :
    d.Spans w xs := by
  have hw := h.word_pos hmax
  have hnonneg := h.top_nonneg
  have hbottom := h.bottom_eq
  rw [isizeMax] at hmax
  refine ⟨h.power, h.mask_eq, ?_, ?_, ?_⟩
  · exact Word.signed_of_range hw (by omega) (by omega)
  · rw [hbottom]
    exact (Word.signed_of_range hw (by omega) (by omega)).symm
  · rw [Word.unsigned_of_range hnonneg (by omega)]
    exact h.holds

theorem Spans.represents (h : d.Spans w xs) (hw : 0 < w) (hnonneg : 0 ≤ d.top)
    (hlt : d.top + xs.length < (2 ^ (w - 1) : Nat)) : d.Represents xs := by
  have htop : Word.unsigned w d.top = d.top.toNat := Word.unsigned_of_range hnonneg (by omega)
  refine ⟨h.power, h.mask_eq, hnonneg, h.bottom_of_lt hw hlt, ?_⟩
  rw [← htop]
  exact h.holds

theorem Represents.index_eq (h : d.Represents xs) (hn : n < 2 ^ (w - 1)) :
    d.index w n = n % d.capacity := by
  obtain ⟨k, hk⟩ := h.power
  rw [index, Word.unsigned_of_lt (Word.lt_of_lt_half hn), h.mask_eq, hk]
  exact Nat.and_two_pow_sub_one_eq_mod n k

theorem Represents.agrees (h : d.Represents xs) (hmax : d.bottom < isizeMax w) :
    d.Agrees w xs := by
  have hnonneg := h.top_nonneg
  have hbottom := h.bottom_eq
  refine ⟨h, (h.spans hmax).len_eq ?_, ?_⟩
  · rw [isizeMax] at hmax
    omega
  · rw [isEmpty, beq_iff_eq, ← List.length_eq_zero_iff]
    omega

/-! ### Runs -/

/-- One operation.  A value to push exists only where `T` is inhabited, and there the
    capacity is below `isize::MAX`. -/
theorem Represents.exec (h : d.Represents xs) (hmax : d.bottom < isizeMax w)
    (hcap : Nonempty T → d.capacity < 2 ^ (w - 1)) (op : Op T) :
    (d.exec w op).2 = (sequence d.capacity xs op).2 ∧
      ((d.exec w op).2.Failed → (d.exec w op).1 = d) ∧
      (d.exec w op).1.Represents (sequence d.capacity xs op).1 ∧
      (d.exec w op).1.capacity = d.capacity := by
  have hs := h.spans hmax
  have hw := h.word_pos hmax
  have hnonneg := h.top_nonneg
  have hbottom := h.bottom_eq
  rw [isizeMax] at hmax
  cases op with
  | push value =>
    have hc := hcap ⟨value⟩
    by_cases hroom : xs.length < d.capacity
    · obtain ⟨d', hpush, hd', htop, hsame⟩ := hs.push_room hc hroom value
      rw [WorkStealingDeque.exec, hpush, sequence, if_pos hroom]
      refine ⟨rfl, nofun, hd'.represents hw (htop ▸ hnonneg) ?_, hsame⟩
      rw [htop, List.length_append, List.length_singleton]
      omega
    · rw [WorkStealingDeque.exec, hs.push_full hc hroom, sequence, if_neg hroom]
      exact ⟨rfl, fun _ => rfl, h, rfl⟩
  | pop =>
    rcases List.eq_nil_or_concat xs with rfl | ⟨xs, x, rfl⟩
    · rw [WorkStealingDeque.exec, pop_of_eq hs.bottom_nil]
      exact ⟨rfl, fun _ => rfl, h, rfl⟩
    · rw [List.concat_eq_append] at h hs hbottom ⊢
      rw [List.length_append, List.length_singleton] at hbottom
      obtain ⟨d', hpop, hd', htop, hsame⟩ :=
        hs.pop_concat (Word.lt_of_lt_half (hcap ⟨x⟩)) (by omega) (by omega)
      rw [WorkStealingDeque.exec, hpop, sequence, List.getLast?_concat, List.dropLast_concat]
      refine ⟨rfl, nofun, ?_, hsame⟩
      rcases htop with htop | ⟨rfl, htop⟩
      · exact hd'.represents hw (htop ▸ hnonneg) (by rw [htop]; omega)
      · rw [Word.signed_of_range hw (by omega) (by omega)] at htop
        exact hd'.represents hw (by omega) (by rw [htop, List.length_nil]; omega)
  | steal =>
    cases xs with
    | nil =>
      rw [WorkStealingDeque.exec, steal_of_le (Int.le_of_eq hs.bottom_nil)]
      exact ⟨rfl, fun _ => rfl, h, rfl⟩
    | cons x xs =>
      rw [List.length_cons] at hbottom
      obtain ⟨d', hsteal, hd', htop, hsame⟩ :=
        hs.steal_cons (Word.lt_of_lt_half (hcap ⟨x⟩)) (by omega)
      rw [Word.signed_of_range hw (by omega) (by omega)] at htop
      rw [WorkStealingDeque.exec, hsteal]
      exact ⟨rfl, nofun, hd'.represents hw (by omega) (by rw [htop]; omega), hsame⟩

theorem Represents.refines (ops : List (Op T)) :
    ∀ {d : WorkStealingDeque T} {xs : List T}, d.Represents xs → BottomBelowMax w d ops →
      (Nonempty T → d.capacity < 2 ^ (w - 1)) → Refines w d xs ops := by
  induction ops with
  | nil =>
    intro d xs h hmax _
    exact h.agrees hmax
  | cons op ops ih =>
    intro d xs h hmax hcap
    obtain ⟨hret, hfailed, hnext, hsame⟩ := h.exec hmax.1 hcap op
    refine ⟨h.agrees hmax.1, hret, hfailed, ih hnext hmax.2 ?_⟩
    rw [hsame]
    exact hcap

/-- The capacity is the least power of two from `requested` on. -/
def LeastPower (d : WorkStealingDeque T) (requested : Nat) : Prop :=
  (∃ k, d.capacity = 2 ^ k) ∧ requested ≤ d.capacity ∧
    ∀ k, requested ≤ 2 ^ k → d.capacity ≤ 2 ^ k

/-- **The deque is a bounded double-ended sequence** of the least power of two from the requested
    capacity on, in every sequential run in which `bottom` stays below `isize::MAX`, exactly when
    that power of two fits the word.  An `Option<T>` takes no space only when there is no value of
    type `T`. -/
theorem refines_sequence_iff (hw : 0 < w) (hslot : Nonempty T → 0 < slot)
    (hd : new w slot capacity = some d) (ops : List (Op T)) (hmax : BottomBelowMax w d ops) :
    d.LeastPower capacity ∧ Refines w d [] ops ↔ capacity ≤ 2 ^ (w - 1) := by
  rw [← roundUp_lt_iff hw]
  constructor
  · rintro ⟨⟨⟨k, hk⟩, _⟩, _⟩
    by_contra hge
    have hzero := (withCapacity_capacity hd).trans (roundUpWord_of_ge (Nat.le_of_not_lt hge))
    exact absurd (hk.symm.trans hzero) (Nat.ne_of_gt (Nat.two_pow_pos k))
  · intro hlt
    have hcapacity : d.capacity = roundUp capacity := by
      rw [withCapacity_capacity hd, roundUpWord_of_lt hlt]
    have hpos : 0 < d.capacity := hcapacity ▸ roundUp_pos capacity
    have hrep := represents_withCapacity hd hpos
    obtain ⟨_, _, hbytes⟩ := withCapacity_eq_some hd hpos
    refine ⟨⟨hrep.power, ?_, fun k hk => ?_⟩, hrep.refines ops hmax fun hT => ?_⟩
    · rw [hcapacity]
      exact le_roundUp capacity
    · rw [hcapacity]
      exact roundUp_le hk
    · rw [hcapacity]
      exact Nat.lt_of_le_of_lt (Nat.le_mul_of_pos_right _ (hslot hT)) hbytes

theorem refines_sequence_iff_bothEnds :
    ∃ d : WorkStealingDeque Nat, new 64 16 2 = some d ∧ d.LeastPower 2 ∧
      Refines 64 d [] [.push 1, .push 2, .push 3, .steal, .push 4, .pop, .pop, .steal] := by
  have hd : new 64 16 2 = some (⟨[none, none], 2, 1, 0, 0⟩ : WorkStealingDeque Nat) := by decide
  have hmax : BottomBelowMax 64 (⟨[none, none], 2, 1, 0, 0⟩ : WorkStealingDeque Nat)
      [.push 1, .push 2, .push 3, .steal, .push 4, .pop, .pop, .steal] := by
    simp only [BottomBelowMax]
    decide
  exact ⟨_, hd, (refines_sequence_iff (by decide) (fun _ => by decide) hd _ hmax).mpr (by decide)⟩

/-- A request of one more than the largest power of two: the deque has no slots and refuses its
    first value. -/
theorem largest_request_slotless :
    ¬ ∀ (requested : Nat) (d : WorkStealingDeque Nat), requested < 2 ^ 64 →
      new 64 16 requested = some d → ∀ ops : List (Op Nat), BottomBelowMax 64 d ops →
        d.LeastPower requested ∧ Refines 64 d [] ops := by
  intro hall
  have hge : 2 ^ 64 ≤ roundUp (2 ^ 63 + 1) := by
    by_contra hlt
    have hle := (roundUp_lt_iff (w := 64) (by decide)).mp (Nat.lt_of_not_le hlt)
    exact absurd hle (by decide)
  have hd : new 64 16 (2 ^ 63 + 1) = some (slotless 64 : WorkStealingDeque Nat) := by
    simp only [new, withCapacity, roundUpWord_of_ge hge]
    rfl
  have hmax : BottomBelowMax 64 (slotless 64 : WorkStealingDeque Nat) [.push 7] :=
    ⟨by decide, by rw [BottomBelowMax]; decide⟩
  obtain ⟨⟨_, hle, _⟩, _⟩ := hall (2 ^ 63 + 1) (slotless 64) (by decide) hd [.push 7] hmax
  exact absurd hle (by decide)

end Represents

end WorkStealingDeque

end VelocityX.Deque
