import VelocityX.Lib.Tally
import VelocityX.Lib.Transition
import VelocityX.Metrics.Atomic

/-!
# Performance metrics under interleaving

Any number of threads record operations in one `AtomicMetrics` of `src/metrics/mod.rs`, reset it
and take snapshots of it.  A step is one `fetch_add`, load, store or `compare_exchange_weak` of
one counter; steps are sequentially consistent.

Ghost state that no step reads: `counted` is the number of increments of `total_operations`, and
`returned` lists the snapshots that have been returned.  A recorder remembers its place among
these increments, and a snapshot how many of them came before its load of `total_operations`.
-/

namespace VelocityX.Metrics.Threads

open Transition

variable {ι : Type*}

structure Shared where
  metrics : AtomicMetrics
  counted : Nat
  returned : List PerformanceMetrics
deriving DecidableEq

def Shared.new : Shared := ⟨.default, 0, []⟩

/-! ### The operations, one step at a time -/

/-- What is recorded: a success with its duration, which was truncated already, or a failure. -/
inductive Outcome where
  | success (durationNs : Nat)
  | failure
deriving DecidableEq

inductive RecordPc where
  | addTotal (outcome : Outcome)
  | addOutcome (outcome : Outcome) (place : Nat)
  | addTime (durationNs : Nat)
  | loadMax (durationNs : Nat)
  | casMax (durationNs currentMax : Nat)
  | addContended
deriving DecidableEq

/-- The condition of the loop of `record_success`, for the maximum that was loaded last. -/
def maxLoop (durationNs currentMax : Nat) : Next RecordPc Unit :=
  if currentMax < durationNs then .goto (.casMax durationNs currentMax) else .ret ()

def recordStep (sh : Shared) (spurious : Bool) : RecordPc → Shared × Next RecordPc Unit
  | .addTotal outcome =>
      ({ sh with metrics.totalOperations := Word.add 64 sh.metrics.totalOperations 1,
                 counted := sh.counted + 1 },
        .goto (.addOutcome outcome sh.counted))
  | .addOutcome (.success durationNs) _ =>
      ({ sh with metrics.successfulOperations := Word.add 64 sh.metrics.successfulOperations 1 },
        .goto (.addTime durationNs))
  | .addOutcome .failure _ =>
      ({ sh with metrics.failedOperations := Word.add 64 sh.metrics.failedOperations 1 }, .ret ())
  | .addTime durationNs =>
      ({ sh with metrics.totalTimeNs := Word.add 64 sh.metrics.totalTimeNs durationNs },
        .goto (.loadMax durationNs))
  | .loadMax durationNs => (sh, maxLoop durationNs sh.metrics.maxTimeNs)
  | .casMax durationNs currentMax =>
      if sh.metrics.maxTimeNs = currentMax ∧ spurious = false then
        ({ sh with metrics.maxTimeNs := durationNs }, .ret ())
      else
        (sh, maxLoop durationNs sh.metrics.maxTimeNs)
  | .addContended =>
      ({ sh with metrics.contendedOperations := Word.add 64 sh.metrics.contendedOperations 1 },
        .ret ())

inductive ResetPc where
  | storeTotal
  | storeSuccessful
  | storeFailed
  | storeContended
  | storeTotalTime
  | storeMaxTime
deriving DecidableEq

def resetStep (sh : Shared) : ResetPc → Shared × Next ResetPc Unit
  | .storeTotal => ({ sh with metrics.totalOperations := 0 }, .goto .storeSuccessful)
  | .storeSuccessful => ({ sh with metrics.successfulOperations := 0 }, .goto .storeFailed)
  | .storeFailed => ({ sh with metrics.failedOperations := 0 }, .goto .storeContended)
  | .storeContended => ({ sh with metrics.contendedOperations := 0 }, .goto .storeTotalTime)
  | .storeTotalTime => ({ sh with metrics.totalTimeNs := 0 }, .goto .storeMaxTime)
  | .storeMaxTime => ({ sh with metrics.maxTimeNs := 0 }, .ret ())

inductive SnapshotPc where
  | loadTotal
  | loadSuccessful (total before : Nat)
  | loadFailed (total successful before : Nat)
  | loadContended (total successful failed : Nat)
  | loadTotalTime (total successful failed contended : Nat)
  | loadMaxTime (total successful failed contended totalTime : Nat)
  | loadMemory (total successful failed contended totalTime maxTime : Nat)
  | loadPeak (total successful failed contended totalTime maxTime memory : Nat)
deriving DecidableEq

def snapshotStep (sh : Shared) : SnapshotPc → Shared × Next SnapshotPc PerformanceMetrics
  | .loadTotal => (sh, .goto (.loadSuccessful sh.metrics.totalOperations sh.counted))
  | .loadSuccessful total before =>
      (sh, .goto (.loadFailed total sh.metrics.successfulOperations before))
  | .loadFailed total successful _ =>
      (sh, .goto (.loadContended total successful sh.metrics.failedOperations))
  | .loadContended total successful failed =>
      (sh, .goto (.loadTotalTime total successful failed sh.metrics.contendedOperations))
  | .loadTotalTime total successful failed contended =>
      (sh, .goto (.loadMaxTime total successful failed contended sh.metrics.totalTimeNs))
  | .loadMaxTime total successful failed contended totalTime =>
      (sh, .goto (.loadMemory total successful failed contended totalTime sh.metrics.maxTimeNs))
  | .loadMemory total successful failed contended totalTime maxTime =>
      (sh, .goto (.loadPeak total successful failed contended totalTime maxTime
        sh.metrics.memoryUsage))
  | .loadPeak total successful failed contended totalTime maxTime memory =>
      let m := report total successful failed contended totalTime maxTime memory
        sh.metrics.peakMemoryUsage
      ({ sh with returned := sh.returned ++ [m] }, .ret m)

/-! ### Threads -/

inductive Call where
  | recordSuccess (duration : Nat)
  | recordFailure
  | recordContention
  | reset
  | snapshot

inductive Pc where
  | idle
  | record (pc : RecordPc)
  | reset (pc : ResetPc)
  | snapshot (pc : SnapshotPc)
deriving DecidableEq

def Call.entry : Call → Pc
  | .recordSuccess duration => .record (.addTotal (.success (AtomicMetrics.nanos duration)))
  | .recordFailure => .record (.addTotal .failure)
  | .recordContention => .record .addContended
  | .reset => .reset .storeTotal
  | .snapshot => .snapshot .loadTotal

def Pc.after {P R : Type*} (inside : P → Pc) : Next P R → Pc
  | .goto pc => inside pc
  | .ret _ => .idle

/-- A thread takes its next step; `spurious` says whether a compare-exchange fails although the
    maximum is as expected. -/
inductive Act where
  | call (c : Call)
  | step (spurious : Bool)

def program (_t : ι) (sh : Shared) (l : Pc) : Act → Option (Shared × Pc)
  | .call c =>
      match l with
      | .idle => some (sh, c.entry)
      | _ => none
  | .step spurious =>
      match l with
      | .idle => none
      | .record pc =>
          some ((recordStep sh spurious pc).1, .after .record (recordStep sh spurious pc).2)
      | .reset pc => some ((resetStep sh pc).1, .after .reset (resetStep sh pc).2)
      | .snapshot pc => some ((snapshotStep sh pc).1, .after .snapshot (snapshotStep sh pc).2)

abbrev State (ι : Type*) := Threads ι Shared Pc

def init : State ι := ⟨Shared.new, fun _ => .idle⟩

abbrev step [DecidableEq ι] : State ι → ι × Act → Option (State ι) := interleave program

/-! ### What a step does to the three counters

`total_operations`, `successful_operations` and `failed_operations` are related by the order in
which each operation accesses them; the other counters are not. -/

/-- A recorder between its two increments. -/
def Pc.halfway : Pc → Bool
  | .record (.addOutcome _ _) => true
  | _ => false

/-- A reset that has cleared the total and not yet both of the other counters. -/
def Pc.clearing : Pc → Bool
  | .reset .storeSuccessful => true
  | .reset .storeFailed => true
  | _ => false

/-- A snapshot that has loaded the total and not yet both of the other counters. -/
def Pc.loading : Pc → Bool
  | .snapshot (.loadSuccessful _ _) => true
  | .snapshot (.loadFailed _ _ _) => true
  | _ => false

/-- The three values of a snapshot that has loaded them. -/
def Pc.loaded : Pc → Option (Nat × Nat × Nat)
  | .snapshot (.loadContended total successful failed) => some (total, successful, failed)
  | .snapshot (.loadTotalTime total successful failed _) => some (total, successful, failed)
  | .snapshot (.loadMaxTime total successful failed _ _) => some (total, successful, failed)
  | .snapshot (.loadMemory total successful failed _ _ _) => some (total, successful, failed)
  | .snapshot (.loadPeak total successful failed _ _ _ _) => some (total, successful, failed)
  | _ => none

/-- A step that accesses none of the three counters may return a snapshot. -/
structure Bystander (sh : Shared) (l : Pc) (sh' : Shared) (l' : Pc) : Prop where
  total : sh'.metrics.totalOperations = sh.metrics.totalOperations
  successful : sh'.metrics.successfulOperations = sh.metrics.successfulOperations
  failed : sh'.metrics.failedOperations = sh.metrics.failedOperations
  counted : sh'.counted = sh.counted
  outside : l.halfway = false ∧ l.clearing = false ∧ l.loading = false
  outside' : l'.halfway = false ∧ l'.clearing = false ∧ l'.loading = false
  loaded : l'.loaded = none ∨ l'.loaded = l.loaded
  returned : sh'.returned = sh.returned ∨ ∃ m, sh'.returned = sh.returned ++ [m] ∧
    l.loaded = some (m.totalOperations, m.successfulOperations, m.failedOperations)

inductive Effect (sh : Shared) : Pc → Shared → Pc → Prop
  | addTotal (outcome : Outcome) :
      Effect sh (.record (.addTotal outcome))
        { sh with metrics.totalOperations := Word.add 64 sh.metrics.totalOperations 1,
                  counted := sh.counted + 1 }
        (.record (.addOutcome outcome sh.counted))
  | addSuccessful (durationNs place : Nat) :
      Effect sh (.record (.addOutcome (.success durationNs) place))
        { sh with metrics.successfulOperations := Word.add 64 sh.metrics.successfulOperations 1 }
        (.record (.addTime durationNs))
  | addFailed (place : Nat) :
      Effect sh (.record (.addOutcome .failure place))
        { sh with metrics.failedOperations := Word.add 64 sh.metrics.failedOperations 1 } .idle
  | storeTotal :
      Effect sh (.reset .storeTotal) { sh with metrics.totalOperations := 0 }
        (.reset .storeSuccessful)
  | storeSuccessful :
      Effect sh (.reset .storeSuccessful) { sh with metrics.successfulOperations := 0 }
        (.reset .storeFailed)
  | storeFailed :
      Effect sh (.reset .storeFailed) { sh with metrics.failedOperations := 0 }
        (.reset .storeContended)
  | loadTotal :
      Effect sh (.snapshot .loadTotal) sh
        (.snapshot (.loadSuccessful sh.metrics.totalOperations sh.counted))
  | loadSuccessful (total before : Nat) :
      Effect sh (.snapshot (.loadSuccessful total before)) sh
        (.snapshot (.loadFailed total sh.metrics.successfulOperations before))
  | loadFailed (total successful before : Nat) :
      Effect sh (.snapshot (.loadFailed total successful before)) sh
        (.snapshot (.loadContended total successful sh.metrics.failedOperations))
  | other (l : Pc) (sh' : Shared) (l' : Pc) (h : Bystander sh l sh' l') : Effect sh l sh' l'

section Inversion

variable {t : ι} {sh sh' : Shared} {l l' : Pc} {act : Act}

theorem bystander_maxLoop (durationNs currentMax : Nat) (hl : l.halfway = false)
    (hl' : l.clearing = false) (hl'' : l.loading = false) :
    Bystander sh l sh (.after .record (maxLoop durationNs currentMax)) := by
  unfold maxLoop
  split
  · exact ⟨rfl, rfl, rfl, rfl, ⟨hl, hl', hl''⟩, ⟨rfl, rfl, rfl⟩, Or.inl rfl, Or.inl rfl⟩
  · exact ⟨rfl, rfl, rfl, rfl, ⟨hl, hl', hl''⟩, ⟨rfl, rfl, rfl⟩, Or.inl rfl, Or.inl rfl⟩

theorem recordStep_effect (sh : Shared) (spurious : Bool) (pc : RecordPc) :
    Effect sh (.record pc) (recordStep sh spurious pc).1
      (.after .record (recordStep sh spurious pc).2) := by
  cases pc with
  | addTotal outcome => exact .addTotal outcome
  | addOutcome outcome place =>
    cases outcome with
    | success durationNs => exact .addSuccessful durationNs place
    | failure => exact .addFailed place
  | addTime durationNs =>
    exact .other _ _ _
      ⟨rfl, rfl, rfl, rfl, ⟨rfl, rfl, rfl⟩, ⟨rfl, rfl, rfl⟩, Or.inl rfl, Or.inl rfl⟩
  | loadMax durationNs => exact .other _ _ _ (bystander_maxLoop _ _ rfl rfl rfl)
  | casMax durationNs currentMax =>
    simp only [recordStep]
    split
    · exact .other _ _ _
        ⟨rfl, rfl, rfl, rfl, ⟨rfl, rfl, rfl⟩, ⟨rfl, rfl, rfl⟩, Or.inl rfl, Or.inl rfl⟩
    · exact .other _ _ _ (bystander_maxLoop _ _ rfl rfl rfl)
  | addContended =>
    exact .other _ _ _
      ⟨rfl, rfl, rfl, rfl, ⟨rfl, rfl, rfl⟩, ⟨rfl, rfl, rfl⟩, Or.inl rfl, Or.inl rfl⟩

theorem resetStep_effect (sh : Shared) (pc : ResetPc) :
    Effect sh (.reset pc) (resetStep sh pc).1 (.after .reset (resetStep sh pc).2) := by
  cases pc with
  | storeTotal => exact .storeTotal
  | storeSuccessful => exact .storeSuccessful
  | storeFailed => exact .storeFailed
  | _ =>
    exact .other _ _ _
      ⟨rfl, rfl, rfl, rfl, ⟨rfl, rfl, rfl⟩, ⟨rfl, rfl, rfl⟩, Or.inl rfl, Or.inl rfl⟩

theorem snapshotStep_effect (sh : Shared) (pc : SnapshotPc) :
    Effect sh (.snapshot pc) (snapshotStep sh pc).1
      (.after .snapshot (snapshotStep sh pc).2) := by
  cases pc with
  | loadTotal => exact .loadTotal
  | loadSuccessful total before => exact .loadSuccessful total before
  | loadFailed total successful before => exact .loadFailed total successful before
  | loadPeak =>
    exact .other _ _ _
      ⟨rfl, rfl, rfl, rfl, ⟨rfl, rfl, rfl⟩, ⟨rfl, rfl, rfl⟩, Or.inl rfl, Or.inr ⟨_, rfl, rfl⟩⟩
  | _ =>
    exact .other _ _ _
      ⟨rfl, rfl, rfl, rfl, ⟨rfl, rfl, rfl⟩, ⟨rfl, rfl, rfl⟩, Or.inr rfl, Or.inl rfl⟩

/-- Every step of a thread is one of these. -/
theorem program_effect (h : program t sh l act = some (sh', l')) : Effect sh l sh' l' := by
  cases act with
  | call c =>
    cases l with
    | idle =>
      cases h
      refine .other _ _ _ ⟨rfl, rfl, rfl, rfl, ⟨rfl, rfl, rfl⟩, ?_, Or.inl ?_, Or.inl rfl⟩
      · cases c with
        | _ => exact ⟨rfl, rfl, rfl⟩
      · cases c with
        | _ => rfl
    | record pc => cases h
    | reset pc => cases h
    | snapshot pc => cases h
  | step spurious =>
    cases l with
    | idle => cases h
    | record pc =>
      cases h
      exact recordStep_effect sh spurious pc
    | reset pc =>
      cases h
      exact resetStep_effect sh pc
    | snapshot pc =>
      cases h
      exact snapshotStep_effect sh pc

end Inversion

end VelocityX.Metrics.Threads
