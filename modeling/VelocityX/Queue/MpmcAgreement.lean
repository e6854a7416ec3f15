import VelocityX.Queue.MpmcCapacity
import VelocityX.Queue.MpmcSimple

/-!
# The two bounded queues against each other

The feature `lockfree` replaces the queue of `src/queue/mpmc_simple.rs` by the one of
`src/queue/mpmc.rs`.  Both are built with the same capacity here, a power of two, and run
through the same operations.  The answers are compared up to the error that a refused push
returns, which is `WouldBlock` for the one and `CapacityExceeded` for the other.

As long as the answers agree both queues hold the same values, so a push is answered alike
exactly when the full test of the lock-free queue is right about the room that is left.
-/

namespace VelocityX.Mpmc

variable {T : Type*}

namespace MpmcQueue

/-- What the default queue does in an operation. -/
def simpleStep (w : Nat) (p : MpmcSimple.MpmcQueue T) : Op T → MpmcSimple.MpmcQueue T
  | .push value => (p.push w value).2
  | .pop => (p.pop w).2

/-- Both queues answer an operation alike. -/
def SameAnswer (w : Nat) (q : MpmcQueue T) (p : MpmcSimple.MpmcQueue T) : Op T → Prop
  | .push value => (q.push w value).1 = .ok () ↔ (p.push w value).1 = .ok ()
  | .pop => (q.pop w).1 = (p.pop w).1

/-- Both queues answer all the operations of a run alike, and have the same length throughout. -/
def Agree (w : Nat) : MpmcQueue T → MpmcSimple.MpmcQueue T → List (Op T) → Prop
  | q, p, [] => q.len w = p.len w
  | q, p, op :: ops =>
      q.len w = p.len w ∧ SameAnswer w q p op ∧ Agree w (q.step w op) (simpleStep w p op) ops

/-- Every push of a run finds the full test right about the room. -/
def ExactAlong (w : Nat) : MpmcQueue T → List (Op T) → Prop
  | _, [] => True
  | q, op :: ops =>
      (∀ value, op = .push value → q.FullTestExact w) ∧ ExactAlong w (q.step w op) ops

/-- Both queues hold the values `xs`. -/
structure Paired (w : Nat) (q : MpmcQueue T) (p : MpmcSimple.MpmcQueue T) (xs : List T) :
    Prop where
  lockFree : q.Models xs
  simple : p.Models w xs
  capacity_eq : p.capacity = q.capacity
  capacity_lt : q.capacity < 2 ^ w

variable {w : Nat} {q : MpmcQueue T} {p : MpmcSimple.MpmcQueue T} {xs : List T} {op : Op T}

theorem Paired.len_eq (h : Paired w q p xs) : q.len w = p.len w :=
  h.lockFree.len_eq.trans h.simple.len_eq.symm

/-- The capacity is a power of two below `2 ^ w`. -/
theorem Paired.dvd (h : Paired w q p xs) : p.capacity ∣ 2 ^ w := by
  obtain ⟨k, hk⟩ := h.lockFree.power
  have hlt := h.capacity_lt
  rw [h.capacity_eq, hk]
  rw [hk] at hlt
  exact Nat.pow_dvd_pow 2 (Nat.le_of_lt ((Nat.pow_lt_pow_iff_right (by decide)).mp hlt))

/-- A push is answered alike exactly when the full test is right about the room. -/
theorem Paired.sameAnswer_push_iff (h : Paired w q p xs) (hw : q.tail + 1 < 2 ^ w) (value : T) :
    SameAnswer w q p (.push value) ↔ q.FullTestExact w := by
  have hle := h.lockFree.length_le
  have hspare := h.lockFree.spare
  have hfull := h.lockFree.full_iff hw
  have hlockFree : (q.push w value).1 = .ok () ↔
      ¬ (q.head < q.capacity ∧ xs.length + 1 = q.capacity) := by
    rw [← hfull, MpmcQueue.push]
    have hlt := h.lockFree.index_lt q.tail
    split <;> simp_all
  have hsimple : (p.push w value).1 = .ok () ↔ xs.length < q.capacity := by
    rw [← h.capacity_eq]
    by_cases hroom : xs.length < p.capacity
    · obtain ⟨p', hpush, _⟩ := h.simple.push_room hroom (.inr h.dvd) value
      simp [hpush, hroom]
    · simp [h.simple.push_full (Nat.le_of_not_lt hroom) value, hroom]
  have hpos := h.lockFree.capacity_pos
  rw [SameAnswer, hlockFree, hsimple, FullTestExact, h.lockFree.len_eq]
  split <;> omega

theorem Paired.push (h : Paired w q p xs) (hw : q.tail + 1 < 2 ^ w) (value : T)
    (hexact : q.FullTestExact w) :
    (q.step w (.push value)).tail ≤ q.tail + 1 ∧
      ∃ xs', Paired w (q.step w (.push value)) (simpleStep w p (.push value)) xs' := by
  have hcapacity := step_capacity w q (.push value)
  by_cases hroom : xs.length < q.capacity
  · have hsame := (h.sameAnswer_push_iff hw value).mpr hexact
    obtain ⟨p', hp, hp', hcapacity', _⟩ :=
      h.simple.push_room (h.capacity_eq ▸ hroom) (.inr h.dvd) value
    rcases h.lockFree.push_below hw hroom value with hrefused | ⟨q', hq, hq', htail, _⟩
    · simp [SameAnswer, hrefused, hp] at hsame
    · rw [MpmcQueue.step, hq] at hcapacity ⊢
      rw [simpleStep, hp]
      refine ⟨Nat.le_of_eq htail, xs ++ [value], hq', hp', ?_, ?_⟩
      · rw [hcapacity', h.capacity_eq, hcapacity]
      · rw [hcapacity]
        exact h.capacity_lt
  · -- both queues are full
    have hsame := (h.sameAnswer_push_iff hw value).mpr hexact
    have hp := h.simple.push_full (by rw [h.capacity_eq]; exact Nat.le_of_not_lt hroom) value
    have hq : q.push w value = (.error (.returned .capacityExceeded), q) := by
      have hlt := h.lockFree.index_lt q.tail
      simp only [SameAnswer, hp, reduceCtorEq, iff_false] at hsame
      unfold MpmcQueue.push at hsame ⊢
      split <;> simp_all
    rw [MpmcQueue.step, hq, simpleStep, hp]
    exact ⟨Nat.le_succ _, xs, h⟩

theorem Paired.pop (h : Paired w q p xs) (hw : q.tail < 2 ^ w) :
    SameAnswer w q p .pop ∧ (q.step w .pop).tail = q.tail ∧
      ∃ xs', Paired w (q.step w .pop) (simpleStep w p .pop) xs' := by
  have hcapacity := step_capacity w q .pop
  cases xs with
  | nil =>
    have hq := h.lockFree.pop_nil (w := w)
    have hp := h.simple.pop_nil
    simp only [SameAnswer, MpmcQueue.step, simpleStep, hq, hp]
    exact ⟨trivial, trivial, [], h⟩
  | cons x xs =>
    obtain ⟨q', hq, hq', htail⟩ := h.lockFree.pop_cons hw
    obtain ⟨p', hp, hp', hcapacity'⟩ := h.simple.pop_cons
    rw [MpmcQueue.step, hq] at hcapacity
    simp only [SameAnswer, MpmcQueue.step, simpleStep, hq, hp]
    refine ⟨trivial, htail, xs, hq', hp', ?_, ?_⟩
    · rw [hcapacity', h.capacity_eq, hcapacity]
    · rw [hcapacity]
      exact h.capacity_lt

/-- While the queues hold the same values, a run is answered alike exactly when the full test is
    right at each of its pushes. -/
theorem Paired.agree_iff (h : Paired w q p xs) (ops : List (Op T))
    (hw : q.tail + ops.length < 2 ^ w) : Agree w q p ops ↔ ExactAlong w q ops := by
  induction ops generalizing q p xs with
  | nil => simp [Agree, ExactAlong, h.len_eq]
  | cons op ops ih =>
    simp only [List.length_cons] at hw
    simp only [Agree, ExactAlong, h.len_eq, true_and]
    cases op with
    | push value =>
      rw [h.sameAnswer_push_iff (by omega) value]
      constructor
      · rintro ⟨hexact, hrest⟩
        obtain ⟨htail, xs', hnext⟩ := h.push (by omega) value hexact
        exact ⟨fun _ _ => hexact, (ih hnext (by omega)).mp hrest⟩
      · rintro ⟨hexact, hrest⟩
        obtain ⟨htail, xs', hnext⟩ := h.push (by omega) value (hexact value rfl)
        exact ⟨hexact value rfl, (ih hnext (by omega)).mpr hrest⟩
    | pop =>
      obtain ⟨hsame, htail, xs', hnext⟩ := h.pop (by omega)
      rw [ih hnext (by omega)]
      simp [hsame]

/-- **The lock-free queue stands in for the default one** of the same capacity along a run of
    pushes and pops exactly when its full test is right at each push of the run. -/
theorem lockFree_agrees_iff {requested : Nat} (hq : new w requested = some q)
    (capacity : Capacity w) (hcapacity : capacity.val = q.capacity) (ops : List (Op T))
    (hops : ops.length < 2 ^ w) :
    Agree w q (MpmcSimple.MpmcQueue.new capacity) ops ↔ ExactAlong w q ops := by
  have hpos : 0 < q.capacity := hcapacity ▸ capacity.pos
  have h : Paired w q (MpmcSimple.MpmcQueue.new capacity) [] :=
    ⟨models_withCapacity hq hpos, MpmcSimple.MpmcQueue.models_new capacity, hcapacity,
      withCapacity_lt hq⟩
  refine h.agree_iff ops ?_
  rw [withCapacity_eq_some hq hpos, Nat.zero_add]
  exact hops

/-- Two queues of capacity 4 agree while they hold two values at most, and not on the fourth push,
    which only the default one accepts. -/
theorem lockFree_agrees_iff_partlyFilled :
    ∃ q : MpmcQueue Nat, new 64 4 = some q ∧
      Agree 64 q (MpmcSimple.MpmcQueue.new (⟨4, by decide, by decide⟩ : Capacity 64))
        [.push 5, .push 6, .pop, .push 7, .pop] ∧
      ¬ Agree 64 q (MpmcSimple.MpmcQueue.new (⟨4, by decide, by decide⟩ : Capacity 64))
        [.push 5, .push 6, .push 7, .push 8] := by
  have hq : new 64 4 = some (⟨List.replicate 4 none, 4, 3, 0, 0, 0⟩ : MpmcQueue Nat) := by decide
  refine ⟨_, hq, (lockFree_agrees_iff hq _ rfl _ (by decide)).mpr ?_, fun hagree => ?_⟩
  · refine ⟨fun _ _ => by decide, fun _ _ => by decide, fun _ hpop => ?_, fun _ _ => by decide,
      fun _ hpop => ?_, trivial⟩
    · cases hpop
    · cases hpop
  · obtain ⟨_, _, _, hfull, _⟩ := (lockFree_agrees_iff hq _ rfl _ (by decide)).mp hagree
    exact absurd (hfull 8 rfl) (by decide)

end MpmcQueue

end VelocityX.Mpmc
