import VelocityX.Lib.Amortized
import VelocityX.Metrics.Maxima

/-!
# Progress of the metrics

All the functions of `AtomicMetrics` in `src/metrics/mod.rs`, called by any number of threads.
Their steps are those of `Metrics/Threads.lean` and `Metrics/Maxima.lean`.

`record_success` and `update_memory_usage` raise a maximum with a compare-exchange loop, which
is not bounded by itself.  A compare-exchange fails because some call has changed the maximum
since it was loaded, or spuriously.  But every call changes a maximum in its last step or not at
all, so one call makes another one retry at most once.
-/

namespace VelocityX.Metrics.Progress

open Transition
open Threads (RecordPc recordStep maxLoop ResetPc resetStep SnapshotPc snapshotStep)
open Maxima (MemoryPc memoryStep peakLoop)

variable {ι : Type*}

/-! ### Threads -/

inductive Call where
  | recordSuccess (duration : Nat)
  | recordFailure
  | recordContention
  | updateMemoryUsage (usage : Nat)
  | reset
  | snapshot

inductive Pc where
  | idle
  | record (pc : RecordPc)
  | memory (pc : MemoryPc)
  | reset (pc : ResetPc)
  | snapshot (pc : SnapshotPc)
deriving DecidableEq

def Call.entry : Call → Pc
  | .recordSuccess duration => .record (.addTotal (.success (AtomicMetrics.nanos duration)))
  | .recordFailure => .record (.addTotal .failure)
  | .recordContention => .record .addContended
  | .updateMemoryUsage usage => .memory (.swapUsage usage)
  | .reset => .reset .storeTotal
  | .snapshot => .snapshot .loadTotal

def Pc.after {P R : Type*} (inside : P → Pc) : Next P R → Pc
  | .goto pc => inside pc
  | .ret _ => .idle

/-- A thread takes its next step; `spurious` says whether a compare-exchange fails although the
    maximum is as expected. -/
inductive Act where
  | call (c : Call)
  | step (spurious : Bool)

/-- The next step of a call. -/
def advance (sh : Threads.Shared) (spurious : Bool) : Pc → Option (Threads.Shared × Pc)
  | .idle => none
  | .record pc =>
      some ((recordStep sh spurious pc).1, .after .record (recordStep sh spurious pc).2)
  | .memory pc =>
      some ((memoryStep sh spurious pc).1, .after .memory (memoryStep sh spurious pc).2)
  | .reset pc => some ((resetStep sh pc).1, .after .reset (resetStep sh pc).2)
  | .snapshot pc => some ((snapshotStep sh pc).1, .after .snapshot (snapshotStep sh pc).2)

def program (_t : ι) (sh : Threads.Shared) (l : Pc) : Act → Option (Threads.Shared × Pc)
  | .call c =>
      match l with
      | .idle => some (sh, c.entry)
      | _ => none
  | .step spurious => advance sh spurious l

abbrev State (ι : Type*) := Threads ι Threads.Shared Pc

def init : State ι := ⟨.new, fun _ => .idle⟩

abbrev step [DecidableEq ι] : State ι → ι × Act → Option (State ι) := interleave program

def Act.isCall : Act → Bool
  | .call _ => true
  | .step _ => false

def Act.isSpurious : Act → Bool
  | .call _ => false
  | .step spurious => spurious

/-! ### What a call still needs -/

/-- The steps up to the last one, if no compare-exchange fails. -/
def Pc.rank : Pc → Nat
  | .idle => 0
  | .record (.addTotal _) => 4
  | .record (.addOutcome _ _) => 3
  | .record (.addTime _) => 2
  | .record (.loadMax _) => 1
  | .record (.casMax _ _) => 0
  | .record .addContended => 0
  | .memory (.swapUsage _) => 2
  | .memory (.loadPeak _) => 1
  | .memory (.casPeak _ _) => 0
  | .reset .storeTotal => 5
  | .reset .storeSuccessful => 4
  | .reset .storeFailed => 3
  | .reset .storeContended => 2
  | .reset .storeTotalTime => 1
  | .reset .storeMaxTime => 0
  | .snapshot .loadTotal => 7
  | .snapshot (.loadSuccessful _ _) => 6
  | .snapshot (.loadFailed _ _ _) => 5
  | .snapshot (.loadContended _ _ _) => 4
  | .snapshot (.loadTotalTime _ _ _ _) => 3
  | .snapshot (.loadMaxTime _ _ _ _ _) => 2
  | .snapshot (.loadMemory _ _ _ _ _ _) => 1
  | .snapshot (.loadPeak _ _ _ _ _ _ _) => 0

/-- The maximum that the call has loaded is not the current one any more. -/
def Pc.stale (m : AtomicMetrics) : Pc → Nat
  | .record (.casMax _ currentMax) => if m.maxTimeNs = currentMax then 0 else 1
  | .memory (.casPeak _ currentPeak) => if m.peakMemoryUsage = currentPeak then 0 else 1
  | _ => 0

/-- The last step of the call, in which it may change a maximum. -/
def Pc.last : Pc → Nat
  | .idle => 0
  | _ => 1

section Steps

variable {sh sh' : Threads.Shared} {l l' m : Pc} {spurious : Bool} {act : Act} {t : ι}

theorem stale_le (m : AtomicMetrics) (l : Pc) : l.stale m ≤ 1 := by
  unfold Pc.stale
  split
  · split <;> omega
  · split <;> omega
  · omega

theorem stale_congr (hmax : sh'.metrics.maxTimeNs = sh.metrics.maxTimeNs)
    (hpeak : sh'.metrics.peakMemoryUsage = sh.metrics.peakMemoryUsage) (l : Pc) :
    l.stale sh'.metrics = l.stale sh.metrics := by
  unfold Pc.stale
  rw [hmax, hpeak]

theorem entry_rank (m : AtomicMetrics) (c : Call) :
    c.entry.rank ≤ 7 ∧ c.entry.stale m = 0 ∧ c.entry.last = 1 := by
  cases c with
  | _ => simp [Call.entry, Pc.rank, Pc.stale, Pc.last]

theorem return_paid (hl : l.last = 1) (m m' : AtomicMetrics) (k : Nat) :
    Pc.idle.rank + Pc.idle.stale m + Pc.idle.last + 1 ≤ l.rank + l.stale m' + l.last + k := by
  show 0 + 0 + 0 + 1 ≤ l.rank + l.stale m' + l.last + k
  omega

theorem program_call {c : Call} (h : program t sh l (.call c) = some (sh', l')) :
    l = .idle ∧ sh' = sh ∧ l' = c.entry := by
  cases l with
  | idle =>
    cases h
    exact ⟨rfl, rfl, rfl⟩
  | _ => cases h

/-- A step of a call is paid for by what it still needs, by the change of a maximum that has made
    it retry, or by its spurious failure. -/
theorem advance_paid (h : advance sh spurious l = some (sh', l')) :
    l'.rank + l'.stale sh'.metrics + l'.last + 1 ≤
      l.rank + l.stale sh.metrics + l.last + (if spurious then 1 else 0) := by
  cases l with
  | idle => cases h
  | record pc =>
    cases h
    cases pc with
    | addTotal outcome => simp [recordStep, Pc.after, Pc.rank, Pc.stale, Pc.last]
    | addOutcome outcome place =>
      cases outcome with
      | success durationNs => simp [recordStep, Pc.after, Pc.rank, Pc.stale, Pc.last]
      | failure => exact return_paid rfl _ _ _
    | addTime durationNs => simp [recordStep, Pc.after, Pc.rank, Pc.stale, Pc.last]
    | loadMax durationNs =>
      simp only [recordStep, maxLoop]
      split
      · simp [Pc.after, Pc.rank, Pc.stale, Pc.last]
      · exact return_paid rfl _ _ _
    | casMax durationNs currentMax =>
      simp only [recordStep, maxLoop]
      split
      · exact return_paid rfl _ _ _
      · next hfails =>
        split
        · cases spurious with
          | true => simp [Pc.after, Pc.rank, Pc.stale, Pc.last]
          | false =>
            have hne : ¬ sh.metrics.maxTimeNs = currentMax := by simpa using hfails
            simp [Pc.after, Pc.rank, Pc.stale, Pc.last, hne]
        · exact return_paid rfl _ _ _
    | addContended => exact return_paid rfl _ _ _
  | memory pc =>
    cases h
    cases pc with
    | swapUsage usage => simp [memoryStep, Pc.after, Pc.rank, Pc.stale, Pc.last]
    | loadPeak usage =>
      simp only [memoryStep, peakLoop]
      split
      · simp [Pc.after, Pc.rank, Pc.stale, Pc.last]
      · exact return_paid rfl _ _ _
    | casPeak usage currentPeak =>
      simp only [memoryStep, peakLoop]
      split
      · exact return_paid rfl _ _ _
      · next hfails =>
        split
        · cases spurious with
          | true => simp [Pc.after, Pc.rank, Pc.stale, Pc.last]
          | false =>
            have hne : ¬ sh.metrics.peakMemoryUsage = currentPeak := by simpa using hfails
            simp [Pc.after, Pc.rank, Pc.stale, Pc.last, hne]
        · exact return_paid rfl _ _ _
  | reset pc =>
    cases h
    cases pc with
    | storeMaxTime => exact return_paid rfl _ _ _
    | _ => simp [resetStep, Pc.after, Pc.rank, Pc.stale, Pc.last]
  | snapshot pc =>
    cases h
    cases pc with
    | loadPeak => exact return_paid rfl _ _ _
    | _ => simp [snapshotStep, Pc.after, Pc.rank, Pc.stale, Pc.last]

/-- A call changes the maxima in its last step only. -/
theorem advance_maxima (h : advance sh spurious l = some (sh', l')) :
    sh'.metrics.maxTimeNs = sh.metrics.maxTimeNs ∧
      sh'.metrics.peakMemoryUsage = sh.metrics.peakMemoryUsage ∧ l'.last ≤ l.last ∨
    l.last = 1 ∧ l'.last = 0 := by
  cases l with
  | idle => cases h
  | record pc =>
    cases h
    cases pc with
    | addOutcome outcome place =>
      cases outcome with
      | _ => simp [recordStep, Pc.after, Pc.last]
    | loadMax durationNs =>
      simp only [recordStep, maxLoop]
      split <;> simp [Pc.after, Pc.last]
    | casMax durationNs currentMax =>
      simp only [recordStep, maxLoop]
      split
      · simp [Pc.after, Pc.last]
      · split <;> simp [Pc.after, Pc.last]
    | _ => simp [recordStep, Pc.after, Pc.last]
  | memory pc =>
    cases h
    cases pc with
    | swapUsage usage => simp [memoryStep, Pc.after, Pc.last]
    | loadPeak usage =>
      simp only [memoryStep, peakLoop]
      split <;> simp [Pc.after, Pc.last]
    | casPeak usage currentPeak =>
      simp only [memoryStep, peakLoop]
      split
      · simp [Pc.after, Pc.last]
      · split <;> simp [Pc.after, Pc.last]
  | reset pc =>
    cases h
    cases pc with
    | _ => simp [resetStep, Pc.after, Pc.last]
  | snapshot pc =>
    cases h
    cases pc with
    | _ => simp [snapshotStep, Pc.after, Pc.last]

end Steps

/-! ### Runs -/

section Runs

variable [DecidableEq ι] [Fintype ι] {s s' : State ι} {t u : ι} {as : List (ι × Act)}

/-- What thread `t` can still pay for: its own call, a retry, and one retry for every call that
    has not returned yet. -/
def allowance (t : ι) (s : State ι) : Nat :=
  (s.loc t).rank + (s.loc t).stale s.shared.metrics + potential (fun _ l => l.last) s

/-- What a step adds to the allowance of thread `t`. -/
def granted (t : ι) (a : ι × Act) : Nat :=
  7 * (if ownLabel Act.isCall t a then 1 else 0) + (if a.2.isCall then 1 else 0) +
    (if ownLabel Act.isSpurious t a then 1 else 0)

theorem potential_last (s : State ι) (u : ι) (sh : Threads.Shared) (l : Pc) :
    potential (fun _ m => m.last) ⟨sh, Function.update s.loc u l⟩ + (s.loc u).last ≤
      potential (fun _ (m : Pc) => m.last) s + l.last := by
  have hsum := sum_le_of_others (t := u) (d := 0) (f := fun v => (s.loc v).last)
    (g := fun v => (Function.update s.loc u l v).last) fun v hv => by
      simp [Function.update_of_ne hv]
  simpa [potential] using hsum

/-- A step of thread `t` inside a call takes one from its allowance. -/
theorem allowance_step {a : ι × Act} (hstep : step s a = some s') :
    allowance t s' + (if ownLabel (fun act => !act.isCall) t a then 1 else 0) ≤
      allowance t s + granted t a := by
  obtain ⟨u, act⟩ := a
  obtain ⟨sh, l, hp, rfl⟩ := interleave_eq_some.mp hstep
  have hlast := potential_last s u sh l
  cases act with
  | call c =>
    obtain ⟨hidle, rfl, rfl⟩ := program_call hp
    obtain ⟨hrank, hstale, hone⟩ := entry_rank s.shared.metrics c
    rw [hidle, hone] at hlast
    by_cases hu : u = t
    · subst hu
      have hgranted : granted u (u, .call c) = 8 := by
        simp [granted, ownLabel, Act.isCall, Act.isSpurious]
      have hpaid : ownLabel (fun act => !act.isCall) u (u, Act.call c) = false := by
        simp [ownLabel, Act.isCall]
      simp only [allowance, Function.update_self, hgranted, hpaid, hstale, Bool.false_eq_true,
        if_false]
      omega
    · have hgranted : granted t (u, .call c) = 1 := by
        simp [granted, ownLabel, Act.isCall, hu]
      have hpaid : ownLabel (fun act => !act.isCall) t (u, Act.call c) = false := by
        simp [ownLabel, hu]
      simp only [allowance, Function.update_of_ne (Ne.symm hu), hgranted, hpaid,
        Bool.false_eq_true, if_false]
      omega
  | step spurious =>
    by_cases hu : u = t
    · subst hu
      have hcost := advance_paid hp
      have hgranted : granted u (u, .step spurious) = if spurious then 1 else 0 := by
        simp [granted, ownLabel, Act.isCall, Act.isSpurious]
      have hpaid : ownLabel (fun act => !act.isCall) u (u, Act.step spurious) = true := by
        simp [ownLabel, Act.isCall]
      simp only [allowance, Function.update_self, hgranted, hpaid, if_true]
      omega
    · have hgranted : granted t (u, .step spurious) = 0 := by
        simp [granted, ownLabel, Act.isCall, hu]
      have hpaid : ownLabel (fun act => !act.isCall) t (u, Act.step spurious) = false := by
        simp [ownLabel, hu]
      simp only [allowance, Function.update_of_ne (Ne.symm hu), hgranted, hpaid,
        Bool.false_eq_true, if_false]
      rcases advance_maxima hp with ⟨hmax, hpeak, hle⟩ | ⟨hone, hzero⟩
      · rw [stale_congr hmax hpeak]
        omega
      · have hretry := stale_le sh.metrics (s.loc t)
        omega

omit [DecidableEq ι] in
theorem allowance_init : allowance t (init : State ι) = 0 := by
  simp [allowance, potential, init, Pc.rank, Pc.stale, Pc.last]

omit [Fintype ι] in
theorem enabled (hbusy : s.loc t ≠ .idle) : ∃ s', step s (t, .step false) = some s' := by
  obtain ⟨r, hr⟩ : ∃ r, advance s.shared false (s.loc t) = some r := by
    cases hl : s.loc t with
    | idle => exact absurd hl hbusy
    | _ => exact ⟨_, rfl⟩
  exact ⟨_, interleave_eq_some.mpr ⟨r.1, r.2, hr, rfl⟩⟩

/-- **No call starves.**  A thread can always take its next step, and it takes eight steps at most
    for each of its calls, and one more for each call of another thread and for each spurious
    failure of its own. -/
theorem retries_bounded (hrun : run step init as = some s) (t : ι) :
    (s.loc t ≠ .idle → ∃ s', step s (t, .step false) = some s') ∧
    as.countP (ownLabel (fun act => !act.isCall) t) ≤
      7 * as.countP (ownLabel Act.isCall t) + as.countP (fun a => a.2.isCall) +
        as.countP (ownLabel Act.isSpurious t) := by
  refine ⟨enabled, ?_⟩
  have hcost : total step (fun _ a _ => if ownLabel (fun act => !act.isCall) t a then 1 else 0)
        init as + allowance t s ≤
      allowance t init + total step (fun _ a _ => granted t a) init as :=
    run_cost_le (I := fun _ => True) (C := fun _ _ => True)
      (fun _ _ _ _ _ hstep => ⟨trivial, allowance_step hstep⟩) trivial
      (along_of_forall (fun _ _ => trivial) init as) hrun
  have hgranted : total step (fun _ a _ => granted t a) init as =
      7 * as.countP (ownLabel Act.isCall t) + as.countP (fun a => a.2.isCall) +
        as.countP (ownLabel Act.isSpurious t) := by
    rw [← total_countP hrun, ← total_countP hrun, ← total_countP hrun, ← total_mul, ← total_add,
      ← total_add]
    rfl
  rw [hgranted, total_countP hrun, allowance_init] at hcost
  omega

/-- The shorter call raises the maximum between the load and the compare-exchange of the longer
    one, which has to retry. -/
def retried : List (Bool × Act) :=
  (false, Act.call (.recordSuccess 7)) :: List.replicate 4 (false, Act.step false) ++
    (true, Act.call (.recordSuccess 5)) :: List.replicate 5 (true, Act.step false) ++
    List.replicate 2 (false, Act.step false)

theorem retries_bounded_retried : ∃ s : State Bool, run step init retried = some s ∧
    retried.countP (ownLabel (fun act => !act.isCall) false) = 6 ∧
    retried.countP (ownLabel (fun act => !act.isCall) false) ≤ 7 * 1 + 2 + 0 := by
  obtain ⟨s, hs⟩ : ∃ s : State Bool, run step init retried = some s :=
    Option.isSome_iff_exists.mp (by decide)
  exact ⟨s, hs, by decide, (retries_bounded hs false).2⟩

end Runs

end VelocityX.Metrics.Progress
