import VelocityX.Error
import VelocityX.Metrics.Atomic

/-!
# The lock-free stack and its metrics

`LockFreeStack` of `src/stack/lock_free.rs` in a sequential run: `items` are the values of the
nodes from `head` on.  Without other threads a `compare_exchange_weak` still fails spuriously
any number of times, and each time a contention is recorded.  No operation reads
`metrics_enabled`.
-/

namespace VelocityX

open Metrics (AtomicMetrics PerformanceMetrics)

variable {T : Type*}

structure LockFreeStack (T : Type*) where
  items : List T
  metrics : AtomicMetrics
  metricsEnabled : Nat
deriving DecidableEq, Repr

namespace LockFreeStack

/-- How often the compare-exchange of a call fails, and the time until its success. -/
structure Attempt where
  fails : Nat
  elapsed : Nat

/-- The recordings of a call whose compare-exchange succeeds in the end. -/
def Attempt.record (a : Attempt) (m : AtomicMetrics) : AtomicMetrics :=
  (AtomicMetrics.recordContention^[a.fails] m).recordSuccess a.elapsed

/-- Metrics are enabled by default. -/
def new : LockFreeStack T := ⟨[], .default, 1⟩

def push (s : LockFreeStack T) (value : T) (a : Attempt) : LockFreeStack T :=
  { s with items := value :: s.items, metrics := a.record s.metrics }

/-- On an empty stack the first load of `head` decides. -/
def pop (s : LockFreeStack T) (a : Attempt) : Option T × LockFreeStack T :=
  match s.items with
  | [] => (none, { s with metrics := s.metrics.recordFailure })
  | value :: items => (some value, { s with items := items, metrics := a.record s.metrics })

def pushBatch (s : LockFreeStack T) : List (T × Attempt) → LockFreeStack T
  | [] => s
  | (value, a) :: values => (s.push value a).pushBatch values

/-- The loop of `pop_batch` with `count` iterations left; `attempts` are those of its pops. -/
def popBatchLoop (s : LockFreeStack T) (attempts : Nat → Attempt) :
    Nat → List T × LockFreeStack T
  | 0 => ([], s)
  | count + 1 =>
      match s.pop (attempts count) with
      | (none, s') => ([], s')
      | (some value, s') =>
          let r := s'.popBatchLoop attempts count
          (value :: r.1, r.2)

/-- The vector is reserved for `max_count` values of `size` bytes before the first pop; `none` is
    the panic of `Vec::with_capacity`. -/
def popBatch (w size : Nat) (s : LockFreeStack T) (attempts : Nat → Attempt) (maxCount : Nat) :
    Option (List T) × LockFreeStack T :=
  match (vecWithCapacity w size maxCount : Option (List T)) with
  | none => (none, s)
  | some result =>
      (some (result ++ (s.popBatchLoop attempts maxCount).1), (s.popBatchLoop attempts maxCount).2)

/-- `metrics()`. -/
def snapshot (s : LockFreeStack T) : PerformanceMetrics := s.metrics.snapshot

def setMetricsEnabled (s : LockFreeStack T) (enabled : Bool) : LockFreeStack T :=
  { s with metricsEnabled := enabled.toNat }

/-- The operations on elements.  A batch is pushed into as many nodes, which all have addresses,
    and `max_count` is a word. -/
inductive Op (T : Type*) where
  | push (value : T) (a : Attempt)
  | pop (a : Attempt)
  | pushBatch (values : List (T × Attempt)) (hlength : values.length < 2 ^ 64)
  | popBatch (maxCount : Fin (2 ^ 64)) (attempts : Nat → Attempt)

/-- A batch that pushes or pops nothing: a `pop_batch` of no values, or one that panics before its
    first pop, on values of `size` bytes. -/
def Op.isIdle (size : Nat) : Op T → Bool
  | .pushBatch values _ => values.isEmpty
  | .popBatch maxCount _ => maxCount = 0 ∨ ¬ maxCount.val * size < 2 ^ (64 - 1)
  | _ => false

inductive Reply (T : Type*) where
  | done
  | pop (result : Option T)
  | popBatch (values : Option (List T))
deriving DecidableEq

def apply (size : Nat) (s : LockFreeStack T) : Op T → Reply T × LockFreeStack T
  | .push value a => (.done, s.push value a)
  | .pop a => (.pop (s.pop a).1, (s.pop a).2)
  | .pushBatch values _ => (.done, s.pushBatch values)
  | .popBatch maxCount attempts =>
      (.popBatch (s.popBatch 64 size attempts maxCount).1,
        (s.popBatch 64 size attempts maxCount).2)

/-! ### What is popped -/

theorem popBatchLoop_items (attempts : Nat → Attempt) (maxCount : Nat) :
    ∀ s : LockFreeStack T, (s.popBatchLoop attempts maxCount).1 = s.items.take maxCount ∧
      (s.popBatchLoop attempts maxCount).2.items = s.items.drop maxCount := by
  induction maxCount with
  | zero =>
    intro s
    exact ⟨rfl, rfl⟩
  | succ maxCount ih =>
    intro s
    rw [popBatchLoop, pop]
    cases hitems : s.items with
    | nil => simp
    | cons value items =>
      obtain ⟨hvalues, hrest⟩ := ih { s with items := items,
                                             metrics := (attempts maxCount).record s.metrics }
      exact ⟨congrArg (value :: ·) hvalues, hrest⟩

variable {w size maxCount : Nat}

theorem popBatch_of_lt (hfits : maxCount * size < 2 ^ (w - 1)) (s : LockFreeStack T)
    (attempts : Nat → Attempt) :
    s.popBatch w size attempts maxCount =
      (some (s.popBatchLoop attempts maxCount).1, (s.popBatchLoop attempts maxCount).2) := by
  simp only [popBatch, vecWithCapacity_of_lt hfits, List.nil_append]

theorem popBatch_of_ge (hfits : ¬ maxCount * size < 2 ^ (w - 1)) (s : LockFreeStack T)
    (attempts : Nat → Attempt) : s.popBatch w size attempts maxCount = (none, s) := by
  simp only [popBatch, vecWithCapacity_of_ge hfits]

/-! ### What is recorded -/

section Recorded

variable {s : LockFreeStack T}

theorem recordContention_total (fails : Nat) (m : AtomicMetrics) :
    (AtomicMetrics.recordContention^[fails] m).totalOperations = m.totalOperations := by
  induction fails generalizing m with
  | zero => rfl
  | succ fails ih =>
    rw [Function.iterate_succ_apply, ih]
    rfl

theorem record_total (a : Attempt) (m : AtomicMetrics) :
    (a.record m).totalOperations = Word.add 64 m.totalOperations 1 := by
  show Word.add 64 (AtomicMetrics.recordContention^[a.fails] m).totalOperations 1 = _
  rw [recordContention_total]

/-- The operation is counted `count` times. -/
def Counts (s s' : LockFreeStack T) (count : Nat) : Prop :=
  s'.metrics.totalOperations = Word.add 64 s.metrics.totalOperations count

theorem Counts.trans {s₁ s₂ s₃ : LockFreeStack T} {m n : Nat} (h₁ : Counts s₁ s₂ m)
    (h₂ : Counts s₂ s₃ n) : Counts s₁ s₃ (m + n) := by
  rw [Counts, h₂, h₁, Word.add_add]

theorem counts_push (s : LockFreeStack T) (value : T) (a : Attempt) :
    Counts s (s.push value a) 1 := record_total a s.metrics

theorem counts_pop (s : LockFreeStack T) (a : Attempt) : Counts s (s.pop a).2 1 := by
  unfold pop
  split
  · rfl
  · exact record_total a s.metrics

theorem counts_pushBatch (values : List (T × Attempt)) (value : T × Attempt) :
    Counts s (s.pushBatch (value :: values)) (values.length + 1) := by
  induction values generalizing s value with
  | nil => exact counts_push s value.1 value.2
  | cons next values ih =>
    have hrest : Counts (s.push value.1 value.2) _ (values.length + 1) := ih next
    rw [List.length_cons, Nat.add_comm]
    exact (counts_push s value.1 value.2).trans hrest

/-- The pops of a batch are those that return a value and at most one more. -/
theorem counts_popBatchLoop (attempts : Nat → Attempt) (n : Nat) :
    ∃ count, 0 < count ∧ count ≤ n + 1 ∧
      Counts s (s.popBatchLoop attempts (n + 1)).2 count := by
  induction n generalizing s with
  | zero =>
    have hfirst := counts_pop s (attempts 0)
    refine ⟨1, Nat.one_pos, Nat.le_refl _, ?_⟩
    rw [popBatchLoop]
    split
    · next s' hpop => rwa [hpop] at hfirst
    · next value s' hpop => rwa [hpop] at hfirst
  | succ n ih =>
    have hfirst := counts_pop s (attempts (n + 1))
    rw [popBatchLoop]
    split
    · next s' hpop =>
      rw [hpop] at hfirst
      exact ⟨1, Nat.one_pos, Nat.succ_le_succ (Nat.zero_le _), hfirst⟩
    · next value s' hpop =>
      rw [hpop] at hfirst
      obtain ⟨count, hpos, hle, hrest⟩ := ih (s := s')
      exact ⟨1 + count, by omega, by omega, hfirst.trans hrest⟩

/-- An operation that does something is counted, and not so often that the total wraps around
    to where it was. -/
theorem snapshot_ne {size : Nat} {op : Op T} (hop : op.isIdle size = false) :
    (s.apply size op).2.snapshot ≠ s.snapshot := by
  have hcounts : ∃ count, 0 < count ∧ count < 2 ^ 64 ∧ Counts s (s.apply size op).2 count := by
    cases op with
    | push value a => exact ⟨1, Nat.one_pos, by decide, counts_push s value a⟩
    | pop a => exact ⟨1, Nat.one_pos, by decide, counts_pop s a⟩
    | pushBatch values hlength =>
      cases values with
      | nil => cases hop
      | cons value values =>
        exact ⟨values.length + 1, Nat.succ_pos _, hlength, counts_pushBatch values value⟩
    | popBatch maxCount attempts =>
      obtain ⟨hne, hfits⟩ := not_or.mp (of_decide_eq_false hop)
      obtain ⟨n, hn⟩ := Nat.exists_eq_succ_of_ne_zero (Fin.val_ne_zero_iff.mpr hne)
      obtain ⟨count, hpos, hle, hcounts⟩ := counts_popBatchLoop (s := s) attempts n
      have hlt : n + 1 < 2 ^ 64 := Nat.lt_of_le_of_lt (Nat.le_of_eq hn.symm) maxCount.isLt
      refine ⟨count, hpos, Nat.lt_of_le_of_lt hle hlt, ?_⟩
      rw [apply, popBatch_of_lt (not_not.mp hfits), hn]
      exact hcounts
  obtain ⟨count, hpos, hlt, hcounts⟩ := hcounts
  intro heq
  have htotal := congrArg PerformanceMetrics.totalOperations heq
  exact Word.add_ne hpos hlt s.metrics.totalOperations (hcounts.symm.trans htotal)

theorem apply_idle {size : Nat} {op : Op T} (hop : op.isIdle size = true) :
    (s.apply size op).2 = s := by
  cases op with
  | push value a => cases hop
  | pop a => cases hop
  | pushBatch values hlength =>
    cases values with
    | nil => rfl
    | cons value values => cases hop
  | popBatch maxCount attempts =>
    simp only [apply]
    by_cases hfits : maxCount.val * size < 2 ^ (64 - 1)
    · have hzero : maxCount = 0 := (of_decide_eq_true hop).resolve_right (not_not.mpr hfits)
      rw [popBatch_of_lt hfits, hzero]
      rfl
    · rw [popBatch_of_ge hfits]

end Recorded

end LockFreeStack

end VelocityX
