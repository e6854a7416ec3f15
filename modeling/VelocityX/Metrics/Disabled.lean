import VelocityX.Queue.MpmcSimpleMetrics
import VelocityX.Stack.LockFree

/-!
# Disabled metrics

`set_metrics_enabled(false)` of the default bounded queue and of the lock-free stack, followed by
operations on elements.  The flag is stored and never read by them.
-/

namespace VelocityX.Metrics

open Transition

variable {σ α ρ : Type*}

/-- The results of a sequence of operations. -/
def replies (apply : σ → α → ρ × σ) : σ → List α → List ρ
  | _, [] => []
  | s, op :: ops => (apply s op).1 :: replies apply (apply s op).2 ops

/-- The structure after every prefix of the operations. -/
def Unchanged (apply : σ → α → ρ × σ) (snapshot : σ → PerformanceMetrics) (s : σ)
    (ops : List α) : Prop :=
  Throughout (fun s op => some (apply s op).2) (fun s' => snapshot s' = snapshot s) s ops

/-- Collection has stopped in `off`: the snapshot stays as it is throughout the operations, which
    return what they return from `on`. -/
structure Stopped (apply : σ → α → ρ × σ) (snapshot : σ → PerformanceMetrics) (off on : σ)
    (ops : List α) : Prop where
  unchanged : Unchanged apply snapshot off ops
  replies : replies apply off ops = replies apply on ops

variable {apply : σ → α → ρ × σ} {snapshot : σ → PerformanceMetrics}

/-- The snapshot stays as it is exactly when no operation records anything. -/
theorem unchanged_iff (idle : α → Bool) (hidle : ∀ s op, idle op = true →
      snapshot (apply s op).2 = snapshot s)
    (hrecord : ∀ s op, idle op = false → snapshot (apply s op).2 ≠ snapshot s)
    (s : σ) (ops : List α) : Unchanged apply snapshot s ops ↔ ∀ op ∈ ops, idle op = true := by
  have htotal : ∀ s op, ∃ s', some (apply s op).2 = some s' := fun s op => ⟨_, rfl⟩
  obtain ⟨s', hrun⟩ := exists_run htotal s ops
  rw [← along_iff_forall_mem (D := fun op => idle op = true) htotal s ops]
  refine throughout_iff_along (I := fun m => snapshot m = snapshot s) ?_ (fun _ h => h) ?_ rfl hrun
  · rintro m op _ hm hop ⟨⟩
    rw [hidle m op hop, hm]
  · rintro m op _ hm ⟨⟩ hnext
    cases hop : idle op with
    | true => rfl
    | false => exact absurd (hnext.trans hm.symm) (hrecord m op hop)

/-- States that agree on everything the results depend on return the same. -/
theorem replies_eq {R : σ → σ → Prop} (hR : ∀ s₁ s₂ op, R s₁ s₂ →
      (apply s₁ op).1 = (apply s₂ op).1 ∧ R (apply s₁ op).2 (apply s₂ op).2)
    {s₁ s₂ : σ} (h : R s₁ s₂) (ops : List α) : replies apply s₁ ops = replies apply s₂ ops := by
  induction ops generalizing s₁ s₂ with
  | nil => rfl
  | cons op ops ih =>
    obtain ⟨hreply, hnext⟩ := hR s₁ s₂ op h
    rw [replies, replies, hreply, ih hnext]

/-! ### The default bounded queue -/

section Queue

open MpmcSimple

variable {T : Type*} {w : Nat} {q q' : MeteredQueue T} {op : MeteredOp T}

theorem queue_total (hop : op.isBatch = false) :
    (q.apply w op).2.metrics.totalOperations = Word.add 64 q.metrics.totalOperations 1 := by
  have hpush : ∀ value elapsed, (q.push w value elapsed).2.metrics.totalOperations =
      Word.add 64 q.metrics.totalOperations 1 := by
    intro value elapsed
    unfold MeteredQueue.push
    split
    · rfl
    · rfl
  have hpop : ∀ elapsed, (q.pop w elapsed).2.metrics.totalOperations =
      Word.add 64 q.metrics.totalOperations 1 := by
    intro elapsed
    unfold MeteredQueue.pop
    dsimp only
    split
    · rfl
    · rfl
  cases op with
  | push value elapsed => exact hpush value elapsed
  | pop elapsed => exact hpop elapsed
  | tryPush value elapsed => exact hpush value elapsed
  | tryPop elapsed => exact hpop elapsed
  | pushBatch values => cases hop
  | popBatch maxValues => cases hop

theorem queue_snapshot_ne (hop : op.isBatch = false) :
    (q.apply w op).2.snapshot ≠ q.snapshot := by
  intro heq
  have htotal := congrArg PerformanceMetrics.totalOperations heq
  exact Word.add_one_ne (by decide) q.metrics.totalOperations ((queue_total hop).symm.trans htotal)

theorem queue_snapshot_batch (hop : op.isBatch = true) :
    (q.apply w op).2.snapshot = q.snapshot := by
  cases op with
  | pushBatch values => rfl
  | popBatch maxValues => rfl
  | _ => cases hop

/-- The results depend on the elements alone. -/
theorem queue_apply_eq (h : q.queue = q'.queue) :
    (q.apply w op).1 = (q'.apply w op).1 ∧ (q.apply w op).2.queue = (q'.apply w op).2.queue := by
  obtain ⟨queue, metrics, enabled⟩ := q
  cases h
  have hpush : ∀ value elapsed,
      (MeteredQueue.push w ⟨q'.queue, metrics, enabled⟩ value elapsed).1 =
          (q'.push w value elapsed).1 ∧
        (MeteredQueue.push w ⟨q'.queue, metrics, enabled⟩ value elapsed).2.queue =
          (q'.push w value elapsed).2.queue := by
    intro value elapsed
    unfold MeteredQueue.push
    dsimp only
    rcases q'.queue.push w value with ⟨_ | _, _⟩
    · exact ⟨rfl, rfl⟩
    · exact ⟨rfl, rfl⟩
  cases op with
  | push value elapsed =>
    obtain ⟨hreply, hnext⟩ := hpush value elapsed
    exact ⟨congrArg Reply.push hreply, hnext⟩
  | tryPush value elapsed =>
    obtain ⟨hreply, hnext⟩ := hpush value elapsed
    exact ⟨congrArg Reply.push hreply, hnext⟩
  | _ => exact ⟨rfl, rfl⟩

theorem queue_stopped_iff (w : Nat) (q : MeteredQueue T) (ops : List (MeteredOp T)) :
    Stopped (MeteredQueue.apply w) MeteredQueue.snapshot (q.setMetricsEnabled false)
        (q.setMetricsEnabled true) ops ↔
      ∀ op ∈ ops, op.isBatch = true := by
  have hunchanged : Unchanged (MeteredQueue.apply w) MeteredQueue.snapshot
      (q.setMetricsEnabled false) ops ↔ ∀ op ∈ ops, op.isBatch = true :=
    unchanged_iff MeteredOp.isBatch (fun _ _ => queue_snapshot_batch)
      (fun _ _ => queue_snapshot_ne) _ ops
  have hreplies : replies (MeteredQueue.apply w) (q.setMetricsEnabled false) ops =
      replies (MeteredQueue.apply w) (q.setMetricsEnabled true) ops :=
    replies_eq (R := fun q q' => q.queue = q'.queue) (fun _ _ _ => queue_apply_eq) rfl ops
  exact ⟨fun h => hunchanged.mp h.unchanged, fun h => ⟨hunchanged.mpr h, hreplies⟩⟩

end Queue

/-! ### The lock-free stack -/

section Stack

open LockFreeStack

variable {T : Type*} {size : Nat} {s s' : LockFreeStack T} {op : Op T}

theorem pop_items_eq (h : s.items = s'.items) (a : Attempt) :
    (s.pop a).1 = (s'.pop a).1 ∧ (s.pop a).2.items = (s'.pop a).2.items := by
  obtain ⟨items, metrics, enabled⟩ := s
  obtain ⟨items', metrics', enabled'⟩ := s'
  cases h
  cases items with
  | nil => exact ⟨rfl, rfl⟩
  | cons value items => exact ⟨rfl, rfl⟩

theorem pushBatch_items_eq (h : s.items = s'.items) (values : List (T × Attempt)) :
    (s.pushBatch values).items = (s'.pushBatch values).items := by
  induction values generalizing s s' with
  | nil => exact h
  | cons value values ih => exact ih (congrArg (value.1 :: ·) h)

theorem popBatchLoop_items_eq (h : s.items = s'.items) (attempts : Nat → Attempt) (count : Nat) :
    (s.popBatchLoop attempts count).1 = (s'.popBatchLoop attempts count).1 ∧
      (s.popBatchLoop attempts count).2.items = (s'.popBatchLoop attempts count).2.items := by
  induction count generalizing s s' with
  | zero => exact ⟨rfl, h⟩
  | succ count ih =>
    obtain ⟨hreply, hitems⟩ := pop_items_eq h (attempts count)
    rw [popBatchLoop, popBatchLoop]
    rcases hs : s.pop (attempts count) with ⟨r, t⟩
    rcases hs' : s'.pop (attempts count) with ⟨r', t'⟩
    rw [hs, hs'] at hreply hitems
    cases hreply
    cases r with
    | none => exact ⟨rfl, hitems⟩
    | some value =>
      obtain ⟨hvalues, hrest⟩ := ih hitems
      exact ⟨congrArg (value :: ·) hvalues, hrest⟩

theorem stack_apply_eq (h : s.items = s'.items) :
    (s.apply size op).1 = (s'.apply size op).1 ∧
      (s.apply size op).2.items = (s'.apply size op).2.items := by
  cases op with
  | push value a => exact ⟨rfl, congrArg (value :: ·) h⟩
  | pop a =>
    obtain ⟨hreply, hitems⟩ := pop_items_eq h a
    exact ⟨congrArg Reply.pop hreply, hitems⟩
  | pushBatch values hlength => exact ⟨rfl, pushBatch_items_eq h values⟩
  | popBatch maxCount attempts =>
    obtain ⟨hvalues, hitems⟩ := popBatchLoop_items_eq h attempts maxCount
    simp only [LockFreeStack.apply]
    by_cases hfits : maxCount.val * size < 2 ^ (64 - 1)
    · rw [popBatch_of_lt hfits, popBatch_of_lt hfits, hvalues]
      exact ⟨rfl, hitems⟩
    · rw [popBatch_of_ge hfits, popBatch_of_ge hfits]
      exact ⟨rfl, h⟩

theorem stack_stopped_iff (size : Nat) (s : LockFreeStack T) (ops : List (Op T)) :
    Stopped (LockFreeStack.apply size) LockFreeStack.snapshot (s.setMetricsEnabled false)
        (s.setMetricsEnabled true) ops ↔
      ∀ op ∈ ops, op.isIdle size = true := by
  have hunchanged : Unchanged (LockFreeStack.apply size) LockFreeStack.snapshot
      (s.setMetricsEnabled false) ops ↔ ∀ op ∈ ops, op.isIdle size = true :=
    unchanged_iff (Op.isIdle size) (fun _ _ hop => congrArg _ (apply_idle hop))
      (fun _ _ => snapshot_ne) _ ops
  have hreplies : replies (LockFreeStack.apply size) (s.setMetricsEnabled false) ops =
      replies (LockFreeStack.apply size) (s.setMetricsEnabled true) ops :=
    replies_eq (R := fun s s' => s.items = s'.items) (fun _ _ _ => stack_apply_eq) rfl ops
  exact ⟨fun h => hunchanged.mp h.unchanged, fun h => ⟨hunchanged.mpr h, hreplies⟩⟩

end Stack

/-- Disabling the metrics stops their collection exactly as long as no operation records
    anything: the queue as long as it is used in batches, the stack as long as no call pushes or
    pops. -/
theorem stopped_iff {T : Type*} :
    (∀ (w : Nat) (q : MpmcSimple.MeteredQueue T) (ops : List (MpmcSimple.MeteredOp T)),
      Stopped (MpmcSimple.MeteredQueue.apply w) MpmcSimple.MeteredQueue.snapshot
          (q.setMetricsEnabled false) (q.setMetricsEnabled true) ops ↔
        ∀ op ∈ ops, op.isBatch = true) ∧
    ∀ (size : Nat) (s : LockFreeStack T) (ops : List (LockFreeStack.Op T)),
      Stopped (LockFreeStack.apply size) LockFreeStack.snapshot
          (s.setMetricsEnabled false) (s.setMetricsEnabled true) ops ↔
        ∀ op ∈ ops, op.isIdle size = true :=
  ⟨queue_stopped_iff, stack_stopped_iff⟩

/-- A push after `set_metrics_enabled(false)` is recorded. -/
theorem push_recorded_when_disabled :
    ¬ ∀ ops : List (MpmcSimple.MeteredOp Nat),
      Stopped (MpmcSimple.MeteredQueue.apply 64) MpmcSimple.MeteredQueue.snapshot
        ((MpmcSimple.MeteredQueue.new (⟨10, by decide, by decide⟩ : Capacity 64)).setMetricsEnabled
          false)
        ((MpmcSimple.MeteredQueue.new (⟨10, by decide, by decide⟩ : Capacity 64)).setMetricsEnabled
          true) ops := by
  intro h
  have hlast := (h [.push 7 0]).unchanged.last rfl
  revert hlast
  decide

end VelocityX.Metrics
