import VelocityX.Lib.Transition
import VelocityX.Metrics.Atomic
import VelocityX.Queue.MpmcSimpleWindow

/-!
# The metrics of the default bounded queue

`MpmcQueue` of `src/queue/mpmc_simple.rs` with its two metrics fields, in a sequential run.
`push` and `pop` record their outcome, with the time since the call where it is a success;
`push_batch` and `pop_batch` record nothing, and no operation reads `metrics_enabled`.
-/

namespace VelocityX.MpmcSimple

open Transition
open Metrics (AtomicMetrics PerformanceMetrics)

variable {T : Type*}

structure MeteredQueue (T : Type*) where
  queue : MpmcQueue T
  metrics : AtomicMetrics
  metricsEnabled : Nat
deriving DecidableEq, Repr

namespace MeteredQueue

/-- Metrics are enabled by default. -/
def new {w : Nat} (capacity : Capacity w) : MeteredQueue T := ⟨.new capacity, .default, 1⟩

def push (w : Nat) (q : MeteredQueue T) (value : T) (elapsed : Nat) :
    Except Error Unit × MeteredQueue T :=
  match q.queue.push w value with
  | (.error e, queue) => (.error e, { q with queue := queue, metrics := q.metrics.recordFailure })
  | (.ok (), queue) =>
      (.ok (), { q with queue := queue, metrics := q.metrics.recordSuccess elapsed })

def pop (w : Nat) (q : MeteredQueue T) (elapsed : Nat) : Option T × MeteredQueue T :=
  let r := q.queue.pop w
  (r.1, { q with queue := r.2,
                 metrics := if q.queue.head = q.queue.tail then q.metrics.recordFailure
                            else q.metrics.recordSuccess elapsed })

def tryPush (w : Nat) (q : MeteredQueue T) (value : T) (elapsed : Nat) :
    Except Error Unit × MeteredQueue T :=
  q.push w value elapsed

def tryPop (w : Nat) (q : MeteredQueue T) (elapsed : Nat) : Option T × MeteredQueue T :=
  q.pop w elapsed

def pushBatch (w : Nat) (q : MeteredQueue T) (values : Nat → Option T) : Nat × MeteredQueue T :=
  let r := q.queue.pushBatch w values
  (r.1, { q with queue := r.2 })

def popBatch (w : Nat) (q : MeteredQueue T) (maxValues : Nat) : List T × MeteredQueue T :=
  let r := q.queue.popBatch w maxValues
  (r.1, { q with queue := r.2 })

/-- `metrics()`. -/
def snapshot (q : MeteredQueue T) : PerformanceMetrics := q.metrics.snapshot

def setMetricsEnabled (q : MeteredQueue T) (enabled : Bool) : MeteredQueue T :=
  { q with metricsEnabled := enabled.toNat }

end MeteredQueue

/-- The operations on elements, with the time that a recording one takes. -/
inductive MeteredOp (T : Type*) where
  | push (value : T) (elapsed : Nat)
  | pop (elapsed : Nat)
  | tryPush (value : T) (elapsed : Nat)
  | tryPop (elapsed : Nat)
  | pushBatch (values : Nat → Option T)
  | popBatch (maxValues : Nat)

def MeteredOp.isBatch : MeteredOp T → Bool
  | .pushBatch _ => true
  | .popBatch _ => true
  | _ => false

namespace MeteredQueue

def apply (w : Nat) (q : MeteredQueue T) : MeteredOp T → Reply T × MeteredQueue T
  | .push value elapsed => (.push (q.push w value elapsed).1, (q.push w value elapsed).2)
  | .pop elapsed => (.pop (q.pop w elapsed).1, (q.pop w elapsed).2)
  | .tryPush value elapsed => (.push (q.tryPush w value elapsed).1, (q.tryPush w value elapsed).2)
  | .tryPop elapsed => (.pop (q.tryPop w elapsed).1, (q.tryPop w elapsed).2)
  | .pushBatch values => (.pushBatch (q.pushBatch w values).1, (q.pushBatch w values).2)
  | .popBatch maxValues => (.popBatch (q.popBatch w maxValues).1, (q.popBatch w maxValues).2)

def step (w : Nat) (q : MeteredQueue T) (op : MeteredOp T) : Option (MeteredQueue T) :=
  some (q.apply w op).2

/-! ### Accounts -/

/-- The call is refused: a push for lack of room, a pop because the queue is empty.  With
    `batches` this includes a batch that has a value to push but no room for it, or asks for
    values of an empty queue. -/
def refuses (w : Nat) (batches : Bool) (q : MeteredQueue T) : MeteredOp T → Bool
  | .push _ _ => q.queue.capacity ≤ q.queue.len w
  | .tryPush _ _ => q.queue.capacity ≤ q.queue.len w
  | .pop _ => q.queue.isEmpty
  | .tryPop _ => q.queue.isEmpty
  | .pushBatch values => batches && (values 0).isSome && q.queue.capacity ≤ q.queue.len w
  | .popBatch maxValues => batches && maxValues ≠ 0 && q.queue.isEmpty

/-- A call that moves an element counts as a success, and a refused one as one failure. -/
structure CallAccounted (w : Nat) (batches : Bool) (q : MeteredQueue T) (op : MeteredOp T) :
    Prop where
  moved : (q.apply w op).2.queue.len w ≠ q.queue.len w →
    q.metrics.successfulOperations + 1 ≤ (q.apply w op).2.metrics.successfulOperations
  refused : q.refuses w batches op = true →
    (q.apply w op).2.metrics.failedOperations = q.metrics.failedOperations + 1

/-- Every call of the run is accounted for, and at its end every operation has either succeeded
    or failed. -/
def Accounted (w : Nat) (batches : Bool) (q : MeteredQueue T) (ops : List (MeteredOp T)) : Prop :=
  Along (step w) (CallAccounted w batches) q ops ∧
    ∃ q', run (step w) q ops = some q' ∧
      q'.snapshot.totalOperations =
        q'.snapshot.successfulOperations + q'.snapshot.failedOperations

/-- A batch that finds nothing to move: an empty iterator or no room, a request for no values or
    an empty queue.  With `batches` the lack of room or of values is not enough. -/
def BatchIdle (w : Nat) (batches : Bool) (q : MeteredQueue T) : MeteredOp T → Prop
  | .pushBatch values =>
      values 0 = none ∨ batches = false ∧ q.queue.capacity ≤ q.queue.len w
  | .popBatch maxValues => maxValues = 0 ∨ batches = false ∧ q.queue.isEmpty = true
  | _ => True

section Accounts

variable {w n : Nat} {batches : Bool} {q : MeteredQueue T}

theorem isEmpty_eq (hq : q.queue.Windowed w n) : q.queue.isEmpty = decide (n = 0) := by
  rw [MpmcQueue.isEmpty, Bool.beq_eq_decide_eq]
  exact decide_eq_decide.mpr hq.head_eq_iff

theorem push_cases (hq : q.queue.Windowed w n) (value : T) (elapsed : Nat) :
    (q.queue.capacity ≤ n ∧
      q.push w value elapsed =
        (.error .wouldBlock, { q with metrics := q.metrics.recordFailure })) ∨
    (n < q.queue.capacity ∧ ∃ queue, queue.Windowed w (n + 1) ∧
      q.push w value elapsed =
        (.ok (), { q with queue := queue, metrics := q.metrics.recordSuccess elapsed })) := by
  rcases Nat.lt_or_ge n q.queue.capacity with hroom | hfull
  · obtain ⟨queue, hpush, hqueue⟩ := hq.push_room hroom value
    exact Or.inr ⟨hroom, queue, hqueue, by rw [MeteredQueue.push, hpush]⟩
  · exact Or.inl ⟨hfull, by rw [MeteredQueue.push, hq.push_full hfull]⟩

theorem pop_cases (hq : q.queue.Windowed w n) (elapsed : Nat) :
    (n = 0 ∧ q.pop w elapsed = (none, { q with metrics := q.metrics.recordFailure })) ∨
    (n ≠ 0 ∧ ∃ queue, queue.Windowed w (n - 1) ∧
      (q.pop w elapsed).2 =
        { q with queue := queue, metrics := q.metrics.recordSuccess elapsed }) := by
  cases n with
  | zero =>
    refine Or.inl ⟨rfl, ?_⟩
    rw [MeteredQueue.pop, hq.pop_zero, if_pos (hq.head_eq_iff.mpr rfl)]
  | succ n =>
    refine Or.inr ⟨Nat.succ_ne_zero n, _, hq.pop_succ, ?_⟩
    rw [MeteredQueue.pop, if_neg fun heq => Nat.succ_ne_zero n (hq.head_eq_iff.mp heq)]

/-- What a call records: one failure, one success, or nothing. -/
inductive Recording (w : Nat) (batches : Bool) (q : MeteredQueue T) (n : Nat)
    (op : MeteredOp T) : Prop
  | failure (hop : op.isBatch = false) (hrefused : q.refuses w batches op = true)
      (hlen : (q.apply w op).2.queue.Windowed w n)
      (hmetrics : (q.apply w op).2.metrics = q.metrics.recordFailure)
  | success (m elapsed : Nat) (hop : op.isBatch = false)
      (hrefused : q.refuses w batches op = false)
      (hlen : (q.apply w op).2.queue.Windowed w m) (hmoved : m ≠ n)
      (hmetrics : (q.apply w op).2.metrics = q.metrics.recordSuccess elapsed)
  | nothing (m : Nat) (hop : op.isBatch = true) (hlen : (q.apply w op).2.queue.Windowed w m)
      (hmetrics : (q.apply w op).2.metrics = q.metrics)
      (hidle : m = n ∧ q.refuses w batches op = false ↔ BatchIdle w batches q op)

theorem recording_push (hq : q.queue.Windowed w n) (value : T) (elapsed : Nat) :
    Recording w batches q n (.push value elapsed) := by
  have hrefuses : q.refuses w batches (.push value elapsed) =
      decide (q.queue.capacity ≤ n) := by
    rw [refuses, MpmcQueue.len, hq.len_eq]
  rcases push_cases hq value elapsed with ⟨hfull, hpush⟩ | ⟨hroom, queue, hqueue, hpush⟩
  · refine .failure rfl (hrefuses.trans (decide_eq_true hfull)) ?_ ?_
    · rw [apply, hpush]
      exact hq
    · rw [apply, hpush]
  · refine .success (n + 1) elapsed rfl
      (hrefuses.trans (decide_eq_false (Nat.not_le.mpr hroom))) ?_ (Nat.succ_ne_self n) ?_
    · rw [apply, hpush]
      exact hqueue
    · rw [apply, hpush]

theorem recording_pop (hq : q.queue.Windowed w n) (elapsed : Nat) :
    Recording w batches q n (.pop elapsed) := by
  have hrefuses : q.refuses w batches (.pop elapsed) = decide (n = 0) := isEmpty_eq hq
  rcases pop_cases hq elapsed with ⟨hempty, hpop⟩ | ⟨hne, queue, hqueue, hpop⟩
  · refine .failure rfl (hrefuses.trans (decide_eq_true hempty)) ?_ ?_
    · rw [apply, hpop]
      exact hq
    · rw [apply, hpop]
  · refine .success (n - 1) elapsed rfl (hrefuses.trans (decide_eq_false hne)) ?_ (by omega) ?_
    · rw [apply, hpop]
      exact hqueue
    · rw [apply, hpop]

theorem recording_pushBatch (hq : q.queue.Windowed w n) (values : Nat → Option T) :
    Recording w batches q n (.pushBatch values) := by
  refine .nothing _ rfl (hq.pushBatch values) rfl ?_
  have hzero : n + (q.queue.pushBatch w values).1 = n ↔ q.queue.capacity ≤ n ∨ values 0 = none :=
    Nat.add_eq_left.trans (hq.pushBatch_eq_zero_iff values)
  rw [hzero, refuses, BatchIdle, MpmcQueue.len, hq.len_eq]
  cases hvalue : values 0 with
  | none => simp
  | some value => cases batches <;> simp

theorem recording_popBatch (hq : q.queue.Windowed w n) (maxValues : Nat) :
    Recording w batches q n (.popBatch maxValues) := by
  refine .nothing _ rfl (hq.popBatch maxValues) rfl ?_
  have hzero : n - min maxValues n = n ↔ maxValues = 0 ∨ n = 0 := by omega
  rw [hzero, refuses, BatchIdle, isEmpty_eq hq]
  cases batches with
  | false => simp
  | true =>
    simp
    omega

/-- `try_push` and `try_pop` are other names of `push` and `pop`. -/
theorem Recording.alias {op op' : MeteredOp T} (h : Recording w batches q n op)
    (hop : op.isBatch = false) (hop' : op'.isBatch = false)
    (happly : (q.apply w op').2 = (q.apply w op).2)
    (hrefuses : q.refuses w batches op' = q.refuses w batches op) :
    Recording w batches q n op' := by
  cases h with
  | failure _ hrefused hlen hmetrics =>
    exact .failure hop' (hrefuses.trans hrefused) (happly ▸ hlen) (happly ▸ hmetrics)
  | success m elapsed _ hrefused hlen hmoved hmetrics =>
    exact .success m elapsed hop' (hrefuses.trans hrefused) (happly ▸ hlen) hmoved
      (happly ▸ hmetrics)
  | nothing m hbatch =>
    rw [hop] at hbatch
    cases hbatch

theorem recording (hq : q.queue.Windowed w n) (op : MeteredOp T) :
    Recording w batches q n op := by
  cases op with
  | push value elapsed => exact recording_push hq value elapsed
  | pop elapsed => exact recording_pop hq elapsed
  | tryPush value elapsed => exact (recording_push hq value elapsed).alias rfl rfl rfl rfl
  | tryPop elapsed => exact (recording_pop hq elapsed).alias rfl rfl rfl rfl
  | pushBatch values => exact recording_pushBatch hq values
  | popBatch maxValues => exact recording_popBatch hq maxValues

/-- What is recorded is accounted for as long as the counter does not overflow. -/
theorem callAccounted_failure {op : MeteredOp T} (hq : q.queue.Windowed w n)
    (hrefused : q.refuses w batches op = true)
    (hlen : (q.apply w op).2.queue.Windowed w n)
    (hmetrics : (q.apply w op).2.metrics = q.metrics.recordFailure) :
    CallAccounted w batches q op ↔
      Word.add 64 q.metrics.failedOperations 1 = q.metrics.failedOperations + 1 := by
  have hsame : (q.apply w op).2.queue.len w = q.queue.len w := hlen.len_eq.trans hq.len_eq.symm
  constructor
  · intro h
    have hfailed := h.refused hrefused
    rwa [hmetrics] at hfailed
  · intro hadd
    refine ⟨fun hmoved => absurd hsame hmoved, fun _ => ?_⟩
    rw [hmetrics]
    exact hadd

theorem callAccounted_success {op : MeteredOp T} {m elapsed : Nat} (hq : q.queue.Windowed w n)
    (hrefused : q.refuses w batches op = false)
    (hlen : (q.apply w op).2.queue.Windowed w m) (hmoved : m ≠ n)
    (hmetrics : (q.apply w op).2.metrics = q.metrics.recordSuccess elapsed) :
    CallAccounted w batches q op ↔
      Word.add 64 q.metrics.successfulOperations 1 = q.metrics.successfulOperations + 1 := by
  have hne : (q.apply w op).2.queue.len w ≠ q.queue.len w := by
    rw [MpmcQueue.len, MpmcQueue.len, hlen.len_eq, hq.len_eq]
    exact hmoved
  have hle : Word.add 64 q.metrics.successfulOperations 1 ≤ q.metrics.successfulOperations + 1 :=
    Nat.mod_le _ _
  constructor
  · intro h
    have hge := h.moved hne
    rw [hmetrics] at hge
    exact Nat.le_antisymm hle hge
  · intro hadd
    refine ⟨fun _ => ?_, fun hr => ?_⟩
    · rw [hmetrics]
      exact Nat.le_of_eq hadd.symm
    · rw [hrefused] at hr
      cases hr

/-- A batch is not recorded, so it is accounted for when it has nothing to move. -/
theorem callAccounted_nothing {op : MeteredOp T} {m : Nat} (hq : q.queue.Windowed w n)
    (hlen : (q.apply w op).2.queue.Windowed w m)
    (hmetrics : (q.apply w op).2.metrics = q.metrics)
    (hidle : m = n ∧ q.refuses w batches op = false ↔ BatchIdle w batches q op) :
    CallAccounted w batches q op ↔ BatchIdle w batches q op := by
  have hmoved : (q.apply w op).2.queue.len w = q.queue.len w ↔ m = n := by
    rw [MpmcQueue.len, MpmcQueue.len, hlen.len_eq, hq.len_eq]
  rw [← hidle, ← hmoved]
  constructor
  · rintro ⟨hmove, hrefuse⟩
    rw [hmetrics] at hmove hrefuse
    constructor
    · by_contra hne
      exact absurd (hmove hne) (Nat.not_succ_le_self _)
    · cases hr : q.refuses w batches op with
      | false => rfl
      | true => exact absurd (hrefuse hr).symm (Nat.succ_ne_self _)
  · rintro ⟨hsame, hrefused⟩
    refine ⟨fun hne => absurd hsame hne, fun hr => ?_⟩
    rw [hrefused] at hr
    cases hr

theorem accounted_cons {op : MeteredOp T} {ops : List (MeteredOp T)} :
    Accounted w batches q (op :: ops) ↔
      CallAccounted w batches q op ∧ Accounted w batches (q.apply w op).2 ops := by
  constructor
  · rintro ⟨⟨hop, hops⟩, q', hrun, htotal⟩
    exact ⟨hop, hops _ rfl, q', hrun, htotal⟩
  · rintro ⟨hop, hops, q', hrun, htotal⟩
    refine ⟨⟨hop, ?_⟩, q', hrun, htotal⟩
    rintro _ ⟨⟩
    exact hops

theorem along_batchIdle_cons {op : MeteredOp T} {ops : List (MeteredOp T)} :
    Along (step w) (BatchIdle w batches) q (op :: ops) ↔
      BatchIdle w batches q op ∧ Along (step w) (BatchIdle w batches) (q.apply w op).2 ops := by
  constructor
  · rintro ⟨hop, hops⟩
    exact ⟨hop, hops _ rfl⟩
  · rintro ⟨hop, hops⟩
    refine ⟨hop, ?_⟩
    rintro _ ⟨⟩
    exact hops

theorem batchIdle_of_single {op : MeteredOp T} (hop : op.isBatch = false) :
    BatchIdle w batches q op := by
  cases op with
  | pushBatch values => cases hop
  | popBatch maxValues => cases hop
  | _ => trivial

/-- A recorded operation: the account goes on with one more operation unless its counter
    overflows. -/
theorem accounted_single {op : MeteredOp T} {ops : List (MeteredOp T)} {P : Prop} {k c x : Nat}
    (hop : op.isBatch = false) (hx : x ≤ k)
    (hcall : CallAccounted w batches q op ↔ Word.add 64 x 1 = x + 1)
    (hrest : Word.add 64 x 1 = x + 1 →
      (Accounted w batches (q.apply w op).2 ops ↔ P ∧ k + 1 + c < 2 ^ 64)) :
    CallAccounted w batches q op ∧ Accounted w batches (q.apply w op).2 ops ↔
      (BatchIdle w batches q op ∧ P) ∧ k + (c + 1) < 2 ^ 64 := by
  constructor
  · rintro ⟨hacc, haccs⟩
    obtain ⟨hp, hlt⟩ := (hrest (hcall.mp hacc)).mp haccs
    exact ⟨⟨batchIdle_of_single hop, hp⟩, by omega⟩
  · rintro ⟨⟨_, hp⟩, hlt⟩
    have hadd : Word.add 64 x 1 = x + 1 := Word.add_of_lt (by omega)
    exact ⟨hcall.mpr hadd, (hrest hadd).mpr ⟨hp, by omega⟩⟩

/-- The account of a run that starts after `k` operations. -/
theorem accounted_iff_from {k : Nat} (hq : q.queue.Windowed w n)
    (hsum : q.metrics.successfulOperations + q.metrics.failedOperations = k)
    (htotal : q.metrics.totalOperations = k % 2 ^ 64) (ops : List (MeteredOp T)) :
    Accounted w batches q ops ↔ Along (step w) (BatchIdle w batches) q ops ∧
      k + ops.countP (fun op => !op.isBatch) < 2 ^ 64 := by
  induction ops generalizing q n k with
  | nil =>
    have hlt : k % 2 ^ 64 < 2 ^ 64 := Nat.mod_lt _ (Nat.two_pow_pos 64)
    constructor
    · rintro ⟨_, q', hrun, hfinal⟩
      cases hrun
      have heq : k % 2 ^ 64 = k := htotal.symm.trans (hfinal.trans hsum)
      exact ⟨trivial, heq ▸ hlt⟩
    · rintro ⟨_, hk⟩
      refine ⟨trivial, q, rfl, htotal.trans ((Nat.mod_eq_of_lt hk).trans hsum.symm)⟩
  | cons op ops ih =>
    rw [accounted_cons, along_batchIdle_cons]
    have htotal' : Word.add 64 q.metrics.totalOperations 1 = (k + 1) % 2 ^ 64 := by
      rw [htotal]
      exact Nat.mod_add_mod ..
    have hrecording : Recording w batches q n op := recording hq op
    cases hrecording with
    | failure hop hrefused hlen hmetrics =>
      rw [List.countP_cons_of_pos (by rw [hop]; rfl)]
      refine accounted_single hop (by omega) (callAccounted_failure hq hrefused hlen hmetrics)
        fun hadd => ih hlen ?_ ?_
      · rw [hmetrics]
        show q.metrics.successfulOperations + Word.add 64 q.metrics.failedOperations 1 = k + 1
        omega
      · rw [hmetrics]
        exact htotal'
    | success m elapsed hop hrefused hlen hmoved hmetrics =>
      rw [List.countP_cons_of_pos (by rw [hop]; rfl)]
      refine accounted_single hop (by omega)
        (callAccounted_success hq hrefused hlen hmoved hmetrics) fun hadd => ih hlen ?_ ?_
      · rw [hmetrics]
        show Word.add 64 q.metrics.successfulOperations 1 + q.metrics.failedOperations = k + 1
        omega
      · rw [hmetrics]
        exact htotal'
    | nothing m hop hlen hmetrics hidle =>
      rw [List.countP_cons_of_neg (by rw [hop]; exact Bool.false_ne_true),
        callAccounted_nothing hq hlen hmetrics hidle, and_assoc]
      exact and_congr_right fun _ => ih hlen (hmetrics ▸ hsum) (hmetrics ▸ htotal)

end Accounts

/-- A run of a new queue is accounted for exactly when its batches find nothing to move and its
    other operations do not overflow the counters. -/
theorem accounted_iff {w : Nat} (capacity : Capacity w) (batches : Bool)
    (ops : List (MeteredOp T)) :
    Accounted w batches (new capacity) ops ↔
      Along (step w) (BatchIdle w batches) (new capacity) ops ∧
        ops.countP (fun op => !op.isBatch) < 2 ^ 64 := by
  have haccount : Accounted w batches (new capacity) ops ↔ _ := accounted_iff_from (k := 0)
    (q := new capacity) (windowed_new capacity) rfl rfl ops
  rwa [Nat.zero_add] at haccount

/-- A batch of two values is pushed and not recorded. -/
theorem push_batch_not_accounted :
    ¬ ∀ ops : List (MeteredOp Nat),
      Accounted 64 false (new (⟨10, by decide, by decide⟩ : Capacity 64)) ops := by
  intro h
  have hcall := (h [.pushBatch fun i => [7, 8][i]?]).1.1.moved
  revert hcall
  decide

end MeteredQueue

end VelocityX.MpmcSimple
