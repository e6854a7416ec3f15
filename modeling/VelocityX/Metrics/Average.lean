import Mathlib.Algebra.Order.BigOperators.Group.List
import Mathlib.Data.List.Induction
import Mathlib.Order.Bounds.Basic
import VelocityX.Metrics.Atomic

/-!
# The average operation time

`avg_operation_time_ns` of a snapshot after a sequence of recordings.  The time is added up by
`record_success` alone, and divided by the number of all recordings since the last reset.
-/

namespace VelocityX.Metrics

inductive Recording where
  | success (duration : Nat)
  | failure
  | reset
deriving DecidableEq, Repr

def AtomicMetrics.record (m : AtomicMetrics) : Recording → AtomicMetrics
  | .success duration => m.recordSuccess duration
  | .failure => m.recordFailure
  | .reset => m.reset

def AtomicMetrics.recordAll (m : AtomicMetrics) (ops : List Recording) : AtomicMetrics :=
  ops.foldl record m

namespace Recording

def duration? : Recording → Option Nat
  | .success duration => some duration
  | _ => none

/-- The recordings since the last reset. -/
def recent (ops : List Recording) : List Recording :=
  ops.foldl (fun recent op => if op = .reset then [] else recent ++ [op]) []

/-- The durations recorded since the last reset. -/
def durations (ops : List Recording) : List Nat := (recent ops).filterMap duration?

/-- The number of failures recorded since the last reset. -/
def failures (ops : List Recording) : Nat := (recent ops).count .failure

end Recording

open Recording

/-- The condition for the average to lie between `least` and `greatest`, for durations with sum
    `sum` and a word that counts `total` recordings. -/
def AverageFits (least greatest sum total : Nat) : Prop :=
  if total = 0 then least = 0 else least * total ≤ sum ∧ sum < (greatest + 1) * total

instance (least greatest sum total : Nat) : Decidable (AverageFits least greatest sum total) :=
  inferInstanceAs (Decidable (if total = 0 then _ else _))

section Recent

variable {ops : List Recording} {op : Recording}

theorem recent_concat (ops : List Recording) (op : Recording) :
    recent (ops ++ [op]) = if op = .reset then [] else recent ops ++ [op] := by
  rw [recent, List.foldl_append]
  rfl

theorem recordAll_concat (m : AtomicMetrics) (ops : List Recording) (op : Recording) :
    m.recordAll (ops ++ [op]) = (m.recordAll ops).record op := by
  rw [AtomicMetrics.recordAll, List.foldl_append]
  rfl

/-- What the counters say about the recordings since the last reset. -/
structure AtomicMetrics.Tracks (m : AtomicMetrics) (ops : List Recording) : Prop where
  total : m.totalOperations = ((durations ops).length + failures ops) % 2 ^ 64
  time : m.totalTimeNs = (durations ops).sum % 2 ^ 64
  longest : ∀ d ∈ durations ops, AtomicMetrics.nanos d ≤ m.maxTimeNs
  attained : m.maxTimeNs = 0 ∨ ∃ d ∈ durations ops, m.maxTimeNs = AtomicMetrics.nanos d

theorem AtomicMetrics.Tracks.record {m : AtomicMetrics} (hm : m.Tracks ops) (op : Recording) :
    (m.record op).Tracks (ops ++ [op]) := by
  cases op with
  | success duration =>
    have hdurations : durations (ops ++ [.success duration]) = durations ops ++ [duration] := by
      simp [durations, recent_concat, duration?]
    have hfailures : failures (ops ++ [.success duration]) = failures ops := by
      simp [failures, recent_concat]
    constructor
    · rw [hdurations, hfailures, List.length_append, List.length_singleton, Nat.add_right_comm]
      show Word.add 64 m.totalOperations 1 = _
      rw [hm.total, Word.add, Nat.mod_add_mod]
    · rw [hdurations, List.sum_append, List.sum_singleton]
      show Word.add 64 m.totalTimeNs (duration % 2 ^ 64) = _
      rw [hm.time, Word.add, ← Nat.add_mod]
    · intro d hd
      rw [hdurations, List.mem_append, List.mem_singleton] at hd
      rcases hd with hold | rfl
      · exact Nat.le_trans (hm.longest d hold) (Nat.le_max_left _ _)
      · exact Nat.le_max_right _ _
    · rw [hdurations]
      show max m.maxTimeNs (AtomicMetrics.nanos duration) = 0 ∨ _
      rcases Nat.le_total (AtomicMetrics.nanos duration) m.maxTimeNs with hle | hge
      · rcases hm.attained with hzero | ⟨d, hd, hmax⟩
        · left
          omega
        · refine Or.inr ⟨d, List.mem_append_left _ hd, ?_⟩
          show max m.maxTimeNs (AtomicMetrics.nanos duration) = _
          rw [Nat.max_eq_left hle, hmax]
      · refine Or.inr ⟨duration, by simp, ?_⟩
        exact Nat.max_eq_right hge
  | failure =>
    have hdurations : durations (ops ++ [.failure]) = durations ops := by
      simp [durations, recent_concat, duration?]
    have hfailures : failures (ops ++ [.failure]) = failures ops + 1 := by
      simp [failures, recent_concat]
    rw [AtomicMetrics.record]
    constructor
    · rw [hdurations, hfailures, ← Nat.add_assoc]
      show Word.add 64 m.totalOperations 1 = _
      rw [hm.total, Word.add, Nat.mod_add_mod]
    · rw [hdurations]
      exact hm.time
    · rw [hdurations]
      exact hm.longest
    · rw [hdurations]
      exact hm.attained
  | reset =>
    have hrecent : recent (ops ++ [.reset]) = [] := by
      simp [recent_concat]
    constructor
    · simp [durations, failures, hrecent, AtomicMetrics.record, AtomicMetrics.reset]
    · simp [durations, hrecent, AtomicMetrics.record, AtomicMetrics.reset]
    · simp [durations, hrecent]
    · exact Or.inl rfl

theorem tracks_recordAll (ops : List Recording) :
    (AtomicMetrics.default.recordAll ops).Tracks ops := by
  induction ops using List.reverseRecOn with
  | nil => exact ⟨rfl, rfl, nofun, Or.inl rfl⟩
  | append_singleton ops op ih =>
    rw [recordAll_concat]
    exact ih.record op

end Recent

/-! ### The quotient -/

section Quotient

variable {ds : List Nat} {least greatest sum total : Nat}

theorem between_iff :
    (least ≤ (if 0 < total then sum / total else 0) ∧
      (if 0 < total then sum / total else 0) ≤ greatest) ↔
      AverageFits least greatest sum total := by
  rw [AverageFits]
  rcases Nat.eq_zero_or_pos total with rfl | hpos
  · simp
  · rw [if_pos hpos, if_neg (Nat.ne_of_gt hpos), Nat.le_div_iff_mul_le hpos,
      ← Nat.lt_succ_iff (m := sum / total), Nat.div_lt_iff_lt_mul hpos]

/-- What the durations exceed the least of them by. -/
theorem sum_sub_least (hleast : ∀ d ∈ ds, least ≤ d) :
    (ds.map (· - least)).sum + least * ds.length = ds.sum := by
  induction ds with
  | nil => rfl
  | cons d ds ih =>
    have hd := hleast d List.mem_cons_self
    have hrest := ih fun e he => hleast e (List.mem_cons_of_mem d he)
    rw [List.map_cons, List.sum_cons, List.sum_cons, List.length_cons, Nat.mul_succ]
    omega

theorem sum_le_greatest (hgreatest : ∀ d ∈ ds, d ≤ greatest) : ds.sum ≤ greatest * ds.length := by
  induction ds with
  | nil => exact Nat.zero_le _
  | cons d ds ih =>
    have hd := hgreatest d List.mem_cons_self
    have hrest := ih fun e he => hgreatest e (List.mem_cons_of_mem d he)
    rw [List.sum_cons, List.length_cons, Nat.mul_succ]
    omega

/-- As long as the number of recordings fits a word, only the failures lower the average. -/
theorem averageFits_iff {failures : Nat} (hleast : ∀ d ∈ ds, least ≤ d)
    (hgreatest : ∀ d ∈ ds, d ≤ greatest) (hpos : 0 < ds.length) :
    AverageFits least greatest ds.sum (ds.length + failures) ↔
      least * failures ≤ (ds.map (· - least)).sum := by
  have hsum := sum_sub_least hleast
  have hle := sum_le_greatest hgreatest
  have hupper : greatest * ds.length ≤ greatest * (ds.length + failures) :=
    Nat.mul_le_mul_left _ (Nat.le_add_right _ _)
  rw [AverageFits, if_neg (by omega), Nat.succ_mul, Nat.mul_add least]
  constructor
  · rintro ⟨hlower, _⟩
    omega
  · intro hlower
    constructor
    · omega
    · omega

end Quotient

/-- **When the average is one.**  With a duration recorded since the last reset, the reported
    average lies between the least and the greatest duration, and below the reported maximum, if
    and only if it fits the number of recordings.  While that number fits a word, the condition is
    that the failures, counted with the least duration each, do not weigh more than what the
    durations exceed the least one by. -/
theorem average_iff (ops : List Recording) {least greatest : Nat}
    (hleast : IsLeast {d | d ∈ durations ops} least)
    (hgreatest : IsGreatest {d | d ∈ durations ops} greatest)
    (hsum : (durations ops).sum < 2 ^ 64) :
    ((least ≤ (AtomicMetrics.default.recordAll ops).snapshot.avgOperationTimeNs ∧
        (AtomicMetrics.default.recordAll ops).snapshot.avgOperationTimeNs ≤ greatest ∧
        (AtomicMetrics.default.recordAll ops).snapshot.avgOperationTimeNs ≤
          (AtomicMetrics.default.recordAll ops).snapshot.maxOperationTimeNs) ↔
      AverageFits least greatest (durations ops).sum
        (((durations ops).length + failures ops) % 2 ^ 64)) ∧
    ((durations ops).length + failures ops < 2 ^ 64 →
      (AverageFits least greatest (durations ops).sum
          (((durations ops).length + failures ops) % 2 ^ 64) ↔
        least * failures ops ≤ ((durations ops).map (· - least)).sum)) := by
  have htracks := tracks_recordAll ops
  have hword : ∀ d ∈ durations ops, AtomicMetrics.nanos d = d := fun d hd =>
    Nat.mod_eq_of_lt (Nat.lt_of_le_of_lt (List.single_le_sum (fun _ _ => Nat.zero_le _) d hd) hsum)
  -- the loop of `record_success` has kept the greatest duration
  have hmax : (AtomicMetrics.default.recordAll ops).maxTimeNs = greatest := by
    have hlower := htracks.longest greatest hgreatest.1
    rw [hword greatest hgreatest.1] at hlower
    rcases htracks.attained with hzero | ⟨d, hd, hattained⟩
    · omega
    · rw [hword d hd] at hattained
      exact Nat.le_antisymm (hattained ▸ hgreatest.2 hd) hlower
  constructor
  · show (least ≤ (if 0 < _ then _ else 0) ∧ (if 0 < _ then _ else 0) ≤ greatest ∧
      (if 0 < _ then _ else 0) ≤ (AtomicMetrics.default.recordAll ops).maxTimeNs) ↔ _
    rw [hmax, and_self_iff, htracks.total, htracks.time, Nat.mod_eq_of_lt hsum]
    exact between_iff
  · intro hfew
    rw [Nat.mod_eq_of_lt hfew]
    exact averageFits_iff (fun d hd => hleast.2 hd) (fun d hd => hgreatest.2 hd)
      (List.length_pos_of_mem hleast.1)

/-- Two durations without a failure. -/
theorem average_iff_twoDurations :
    AverageFits 10 20 30 2 ↔ 10 * 0 ≤ ([10, 20].map (· - 10)).sum := by
  have hlower : ∀ d ∈ durations [.success 10, .success 20], 10 ≤ d := by decide
  have hupper : ∀ d ∈ durations [.success 10, .success 20], d ≤ 20 := by decide
  have hleast : IsLeast {d | d ∈ durations [.success 10, .success 20]} 10 := ⟨by decide, hlower⟩
  have hgreatest : IsGreatest {d | d ∈ durations [.success 10, .success 20]} 20 :=
    ⟨by decide, hupper⟩
  exact (average_iff _ hleast hgreatest (by decide)).2 (by decide)

/-- One success of 10 ns and one failure average to 5 ns. -/
theorem failure_lowers_average :
    ¬ ∀ (ops : List Recording) (least greatest : Nat),
      IsLeast {d | d ∈ durations ops} least → IsGreatest {d | d ∈ durations ops} greatest →
      (durations ops).sum < 2 ^ 64 →
      least ≤ (AtomicMetrics.default.recordAll ops).snapshot.avgOperationTimeNs := by
  intro hall
  have hlower : ∀ d ∈ durations [.success 10, .failure], 10 ≤ d := by decide
  have hupper : ∀ d ∈ durations [.success 10, .failure], d ≤ 10 := by decide
  have hle := hall [.success 10, .failure] 10 10 ⟨by decide, hlower⟩ ⟨by decide, hupper⟩ (by decide)
  exact absurd hle (by decide)

end VelocityX.Metrics
