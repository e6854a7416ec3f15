import VelocityX.Lib.Maximum
import VelocityX.Metrics.Threads

/-!
# Counters and maxima under concurrent recording

Any number of threads call `record_success`, `record_failure` and `update_memory_usage` of one
`AtomicMetrics`; nobody resets it.  The two recorders take the steps of `Metrics/Threads.lean`.

Ghost state that no step reads: `log` is what the calls so far have been called with.
-/

namespace VelocityX.Metrics.Maxima

open Transition
open Threads (Outcome RecordPc recordStep maxLoop)

variable {ι : Type*}

structure Log where
  durations : List Nat
  failures : Nat
  usages : List Nat
deriving DecidableEq

structure Shared where
  counters : Threads.Shared
  log : Log
deriving DecidableEq

def Shared.new : Shared := ⟨.new, ⟨[], 0, []⟩⟩

/-! ### The operations, one step at a time -/

inductive MemoryPc where
  | swapUsage (usage : Nat)
  | loadPeak (usage : Nat)
  | casPeak (usage currentPeak : Nat)
deriving DecidableEq

/-- The condition of the loop of `update_memory_usage`, for the peak that was loaded last. -/
def peakLoop (usage currentPeak : Nat) : Next MemoryPc Unit :=
  if currentPeak < usage then .goto (.casPeak usage currentPeak) else .ret ()

def memoryStep (sh : Threads.Shared) (spurious : Bool) :
    MemoryPc → Threads.Shared × Next MemoryPc Unit
  | .swapUsage usage => ({ sh with metrics.memoryUsage := usage }, .goto (.loadPeak usage))
  | .loadPeak usage => (sh, peakLoop usage sh.metrics.peakMemoryUsage)
  | .casPeak usage currentPeak =>
      if sh.metrics.peakMemoryUsage = currentPeak ∧ spurious = false then
        ({ sh with metrics.peakMemoryUsage := usage }, .ret ())
      else
        (sh, peakLoop usage sh.metrics.peakMemoryUsage)

/-! ### Threads -/

/-- A duration is its number of nanoseconds. -/
inductive Call where
  | recordSuccess (duration : Fin (2 ^ 64))
  | recordFailure
  | updateMemoryUsage (usage : Nat)

inductive Pc where
  | idle
  | record (pc : RecordPc)
  | memory (pc : MemoryPc)
deriving DecidableEq

def Call.entry : Call → Pc
  | .recordSuccess duration => .record (.addTotal (.success (AtomicMetrics.nanos duration)))
  | .recordFailure => .record (.addTotal .failure)
  | .updateMemoryUsage usage => .memory (.swapUsage usage)

def Log.add (log : Log) : Call → Log
  | .recordSuccess duration => { log with durations := log.durations ++ [duration.val] }
  | .recordFailure => { log with failures := log.failures + 1 }
  | .updateMemoryUsage usage => { log with usages := log.usages ++ [usage] }

def Pc.after {P : Type*} (inside : P → Pc) : Next P Unit → Pc
  | .goto pc => inside pc
  | .ret _ => .idle

/-- A thread takes its next step; `spurious` says whether a compare-exchange fails although the
    maximum is as expected. -/
inductive Act where
  | call (c : Call)
  | step (spurious : Bool)

def program (_t : ι) (sh : Shared) (l : Pc) : Act → Option (Shared × Pc)
  | .call c =>
      match l with
      | .idle => some ({ sh with log := sh.log.add c }, c.entry)
      | _ => none
  | .step spurious =>
      match l with
      | .idle => none
      | .record pc =>
          some ({ sh with counters := (recordStep sh.counters spurious pc).1 },
            .after .record (recordStep sh.counters spurious pc).2)
      | .memory pc =>
          some ({ sh with counters := (memoryStep sh.counters spurious pc).1 },
            .after .memory (memoryStep sh.counters spurious pc).2)

abbrev State (ι : Type*) := Threads ι Shared Pc

def init : State ι := ⟨.new, fun _ => .idle⟩

abbrev step [DecidableEq ι] : State ι → ι × Act → Option (State ι) := interleave program

/-- What the counters are once all calls have returned. -/
structure RecordedExactly (m : AtomicMetrics) (log : Log) : Prop where
  maxTime : m.maxTimeNs = log.durations.foldr max 0
  peak : m.peakMemoryUsage = log.usages.foldr max 0
  memory_le : m.memoryUsage ≤ m.peakMemoryUsage
  totalTime : m.totalTimeNs = log.durations.sum % 2 ^ 64
  successful : m.successfulOperations = log.durations.length % 2 ^ 64
  failed : m.failedOperations = log.failures % 2 ^ 64
  total : m.totalOperations = (log.durations.length + log.failures) % 2 ^ 64

/-! ### What a step does -/

/-- What a thread still has to add to each counter, and to bring to each maximum. -/
def Pc.owesTotal : Pc → Nat
  | .record (.addTotal _) => 1
  | _ => 0

def Pc.owesSuccessful : Pc → Nat
  | .record (.addTotal (.success _)) => 1
  | .record (.addOutcome (.success _) _) => 1
  | _ => 0

def Pc.owesFailed : Pc → Nat
  | .record (.addTotal .failure) => 1
  | .record (.addOutcome .failure _) => 1
  | _ => 0

def Pc.owesTime : Pc → Nat
  | .record (.addTotal (.success durationNs)) => durationNs
  | .record (.addOutcome (.success durationNs) _) => durationNs
  | .record (.addTime durationNs) => durationNs
  | _ => 0

def Pc.duration? : Pc → Option Nat
  | .record (.addTotal (.success durationNs)) => some durationNs
  | .record (.addOutcome (.success durationNs) _) => some durationNs
  | .record (.addTime durationNs) => some durationNs
  | .record (.loadMax durationNs) => some durationNs
  | .record (.casMax durationNs _) => some durationNs
  | _ => none

def Pc.usage? : Pc → Option Nat
  | .memory (.swapUsage usage) => some usage
  | .memory (.loadPeak usage) => some usage
  | .memory (.casPeak usage _) => some usage
  | _ => none

/-- A compare-exchange is tried with a greater value than the one it expects. -/
def Pc.Ok : Pc → Prop
  | .record (.casMax durationNs currentMax) => currentMax < durationNs
  | .memory (.casPeak usage currentPeak) => currentPeak < usage
  | _ => True

inductive Effect (sh : Shared) : Pc → Shared → Pc → Prop
  | begin (c : Call) : Effect sh .idle { sh with log := sh.log.add c } c.entry
  | addTotal (outcome : Outcome) :
      Effect sh (.record (.addTotal outcome))
        { sh with
            counters.metrics.totalOperations := Word.add 64 sh.counters.metrics.totalOperations 1,
            counters.counted := sh.counters.counted + 1 }
        (.record (.addOutcome outcome sh.counters.counted))
  | addSuccessful (durationNs place : Nat) :
      Effect sh (.record (.addOutcome (.success durationNs) place))
        { sh with counters.metrics.successfulOperations :=
                    Word.add 64 sh.counters.metrics.successfulOperations 1 }
        (.record (.addTime durationNs))
  | addFailed (place : Nat) :
      Effect sh (.record (.addOutcome .failure place))
        { sh with counters.metrics.failedOperations :=
                    Word.add 64 sh.counters.metrics.failedOperations 1 } .idle
  | addTime (durationNs : Nat) :
      Effect sh (.record (.addTime durationNs))
        { sh with counters.metrics.totalTimeNs :=
                    Word.add 64 sh.counters.metrics.totalTimeNs durationNs }
        (.record (.loadMax durationNs))
  | addContended :
      Effect sh (.record .addContended)
        { sh with counters.metrics.contendedOperations :=
                    Word.add 64 sh.counters.metrics.contendedOperations 1 } .idle
  | enterMax (durationNs : Nat) (hlt : sh.counters.metrics.maxTimeNs < durationNs) :
      Effect sh (.record (.loadMax durationNs)) sh
        (.record (.casMax durationNs sh.counters.metrics.maxTimeNs))
  | leaveMax (durationNs : Nat) (hle : durationNs ≤ sh.counters.metrics.maxTimeNs) :
      Effect sh (.record (.loadMax durationNs)) sh .idle
  | retryMax (durationNs currentMax : Nat) (hlt : sh.counters.metrics.maxTimeNs < durationNs) :
      Effect sh (.record (.casMax durationNs currentMax)) sh
        (.record (.casMax durationNs sh.counters.metrics.maxTimeNs))
  | overtakenMax (durationNs currentMax : Nat)
      (hle : durationNs ≤ sh.counters.metrics.maxTimeNs) :
      Effect sh (.record (.casMax durationNs currentMax)) sh .idle
  | raiseMax (durationNs : Nat) :
      Effect sh (.record (.casMax durationNs sh.counters.metrics.maxTimeNs))
        { sh with counters.metrics.maxTimeNs := durationNs } .idle
  | swapUsage (usage : Nat) :
      Effect sh (.memory (.swapUsage usage))
        { sh with counters.metrics.memoryUsage := usage } (.memory (.loadPeak usage))
  | enterPeak (usage : Nat) (hlt : sh.counters.metrics.peakMemoryUsage < usage) :
      Effect sh (.memory (.loadPeak usage)) sh
        (.memory (.casPeak usage sh.counters.metrics.peakMemoryUsage))
  | leavePeak (usage : Nat) (hle : usage ≤ sh.counters.metrics.peakMemoryUsage) :
      Effect sh (.memory (.loadPeak usage)) sh .idle
  | retryPeak (usage currentPeak : Nat) (hlt : sh.counters.metrics.peakMemoryUsage < usage) :
      Effect sh (.memory (.casPeak usage currentPeak)) sh
        (.memory (.casPeak usage sh.counters.metrics.peakMemoryUsage))
  | overtakenPeak (usage currentPeak : Nat)
      (hle : usage ≤ sh.counters.metrics.peakMemoryUsage) :
      Effect sh (.memory (.casPeak usage currentPeak)) sh .idle
  | raisePeak (usage : Nat) :
      Effect sh (.memory (.casPeak usage sh.counters.metrics.peakMemoryUsage))
        { sh with counters.metrics.peakMemoryUsage := usage } .idle

section Inversion

variable {t : ι} {sh sh' : Shared} {l l' : Pc} {act : Act}

theorem recordStep_effect (sh : Shared) (spurious : Bool) (pc : RecordPc) :
    Effect sh (.record pc) { sh with counters := (recordStep sh.counters spurious pc).1 }
      (.after .record (recordStep sh.counters spurious pc).2) := by
  cases pc with
  | addTotal outcome => exact .addTotal outcome
  | addOutcome outcome place =>
    cases outcome with
    | success durationNs => exact .addSuccessful durationNs place
    | failure => exact .addFailed place
  | addTime durationNs => exact .addTime durationNs
  | loadMax durationNs =>
    simp only [recordStep, maxLoop]
    split
    · next hlt => exact .enterMax durationNs hlt
    · next hge => exact .leaveMax durationNs (Nat.le_of_not_lt hge)
  | casMax durationNs currentMax =>
    simp only [recordStep, maxLoop]
    split
    · next heq =>
      obtain ⟨rfl, _⟩ := heq
      exact .raiseMax durationNs
    · split
      · next hlt => exact .retryMax durationNs currentMax hlt
      · next hge => exact .overtakenMax durationNs currentMax (Nat.le_of_not_lt hge)
  | addContended => exact .addContended

theorem memoryStep_effect (sh : Shared) (spurious : Bool) (pc : MemoryPc) :
    Effect sh (.memory pc) { sh with counters := (memoryStep sh.counters spurious pc).1 }
      (.after .memory (memoryStep sh.counters spurious pc).2) := by
  cases pc with
  | swapUsage usage => exact .swapUsage usage
  | loadPeak usage =>
    simp only [memoryStep, peakLoop]
    split
    · next hlt => exact .enterPeak usage hlt
    · next hge => exact .leavePeak usage (Nat.le_of_not_lt hge)
  | casPeak usage currentPeak =>
    simp only [memoryStep, peakLoop]
    split
    · next heq =>
      obtain ⟨rfl, _⟩ := heq
      exact .raisePeak usage
    · split
      · next hlt => exact .retryPeak usage currentPeak hlt
      · next hge => exact .overtakenPeak usage currentPeak (Nat.le_of_not_lt hge)

/-- Every step of a thread is one of these. -/
theorem program_effect (h : program t sh l act = some (sh', l')) : Effect sh l sh' l' := by
  cases act with
  | call c =>
    cases l with
    | idle => cases h; exact .begin c
    | record pc => cases h
    | memory pc => cases h
  | step spurious =>
    cases l with
    | idle => cases h
    | record pc =>
      cases h
      exact recordStep_effect sh spurious pc
    | memory pc =>
      cases h
      exact memoryStep_effect sh spurious pc

theorem nanos_val (duration : Fin (2 ^ 64)) : AtomicMetrics.nanos duration = duration.val :=
  Nat.mod_eq_of_lt duration.isLt

theorem Effect.ok (h : Effect sh l sh' l') : l'.Ok := by
  cases h with
  | begin c => cases c with | _ => trivial
  | enterMax durationNs hlt => exact hlt
  | retryMax durationNs currentMax hlt => exact hlt
  | enterPeak usage hlt => exact hlt
  | retryPeak usage currentPeak hlt => exact hlt
  | _ => trivial

theorem Effect.total (h : Effect sh l sh' l') :
    Paying (2 ^ 64) l.owesTotal l'.owesTotal sh.counters.metrics.totalOperations
      (sh.log.durations.length + sh.log.failures) sh'.counters.metrics.totalOperations
      (sh'.log.durations.length + sh'.log.failures) := by
  cases h with
  | begin c =>
    cases c with
    | recordSuccess duration =>
      have hlength : (sh.log.add (.recordSuccess duration)).durations.length + sh.log.failures =
          sh.log.durations.length + sh.log.failures + 1 := by
        rw [Log.add, List.length_append, List.length_singleton, Nat.add_right_comm]
      show Paying _ 0 1 _ _ _
        ((sh.log.add (.recordSuccess duration)).durations.length + sh.log.failures)
      rw [hlength]
      exact .request rfl
    | recordFailure => exact .request rfl
    | updateMemoryUsage usage => exact .keep rfl
  | addTotal outcome => exact .pay 1 rfl
  | _ => exact .keep rfl

theorem Effect.successful (h : Effect sh l sh' l') :
    Paying (2 ^ 64) l.owesSuccessful l'.owesSuccessful
      sh.counters.metrics.successfulOperations sh.log.durations.length
      sh'.counters.metrics.successfulOperations sh'.log.durations.length := by
  cases h with
  | begin c =>
    cases c with
    | recordSuccess duration =>
      have hlength : (sh.log.add (.recordSuccess duration)).durations.length =
          sh.log.durations.length + 1 := by
        rw [Log.add, List.length_append, List.length_singleton]
      rw [hlength]
      exact .request rfl
    | recordFailure => exact .keep rfl
    | updateMemoryUsage usage => exact .keep rfl
  | addTotal outcome => cases outcome with | _ => exact .keep rfl
  | addSuccessful durationNs place => exact .pay 1 rfl
  | _ => exact .keep rfl

theorem Effect.failed (h : Effect sh l sh' l') :
    Paying (2 ^ 64) l.owesFailed l'.owesFailed sh.counters.metrics.failedOperations
      sh.log.failures sh'.counters.metrics.failedOperations sh'.log.failures := by
  cases h with
  | begin c =>
    cases c with
    | recordSuccess duration => exact .keep rfl
    | recordFailure => exact .request rfl
    | updateMemoryUsage usage => exact .keep rfl
  | addTotal outcome => cases outcome with | _ => exact .keep rfl
  | addFailed place => exact .pay 1 rfl
  | _ => exact .keep rfl

theorem Effect.totalTime (h : Effect sh l sh' l') :
    Paying (2 ^ 64) l.owesTime l'.owesTime sh.counters.metrics.totalTimeNs
      sh.log.durations.sum sh'.counters.metrics.totalTimeNs sh'.log.durations.sum := by
  cases h with
  | begin c =>
    cases c with
    | recordSuccess duration =>
      have hsum : (sh.log.add (.recordSuccess duration)).durations.sum =
          sh.log.durations.sum + AtomicMetrics.nanos duration := by
        rw [Log.add, List.sum_append, List.sum_singleton, nanos_val]
      rw [hsum]
      exact .request rfl
    | recordFailure => exact .keep rfl
    | updateMemoryUsage usage => exact .keep rfl
  | addTotal outcome => cases outcome with | _ => exact .keep rfl
  | addTime durationNs => exact .pay durationNs (Nat.zero_add _).symm
  | _ => exact .keep rfl

theorem Effect.maxTime (h : Effect sh l sh' l') (hok : l.Ok) :
    Raising l.duration? l'.duration? sh.counters.metrics.maxTimeNs sh.log.durations
      sh'.counters.metrics.maxTimeNs sh'.log.durations := by
  cases h with
  | begin c =>
    cases c with
    | recordSuccess duration =>
      exact .start duration.val rfl (congrArg some (nanos_val duration))
    | recordFailure => exact .keep rfl
    | updateMemoryUsage usage => exact .keep rfl
  | addTotal outcome => cases outcome with | _ => exact .keep rfl
  | leaveMax durationNs hle =>
    exact .settle durationNs _ rfl rfl (Nat.max_eq_left hle).symm
  | overtakenMax durationNs currentMax hle =>
    exact .settle durationNs _ rfl rfl (Nat.max_eq_left hle).symm
  | raiseMax durationNs =>
    exact .settle durationNs _ rfl rfl (Nat.max_eq_right (Nat.le_of_lt hok)).symm
  | _ => exact .keep rfl

theorem Effect.peak (h : Effect sh l sh' l') (hok : l.Ok) :
    Raising l.usage? l'.usage? sh.counters.metrics.peakMemoryUsage sh.log.usages
      sh'.counters.metrics.peakMemoryUsage sh'.log.usages := by
  cases h with
  | begin c =>
    cases c with
    | recordSuccess duration => exact .keep rfl
    | recordFailure => exact .keep rfl
    | updateMemoryUsage usage => exact .start usage rfl rfl
  | leavePeak usage hle => exact .settle usage _ rfl rfl (Nat.max_eq_left hle).symm
  | overtakenPeak usage currentPeak hle =>
    exact .settle usage _ rfl rfl (Nat.max_eq_left hle).symm
  | raisePeak usage =>
    exact .settle usage _ rfl rfl (Nat.max_eq_right (Nat.le_of_lt hok)).symm
  | _ => exact .keep rfl

/-- The current usage is the one of a thread that brings it to the peak. -/
theorem Effect.memory (h : Effect sh l sh' l') :
    sh'.counters.metrics.memoryUsage = sh.counters.metrics.memoryUsage ∨
      l.usage? = some sh'.counters.metrics.memoryUsage := by
  cases h with
  | swapUsage usage => exact Or.inr rfl
  | _ => exact Or.inl rfl

theorem Effect.usages (h : Effect sh l sh' l') : sh.log.usages ⊆ sh'.log.usages := by
  cases h with
  | begin c =>
    cases c with
    | recordSuccess duration => exact fun _ hx => hx
    | recordFailure => exact fun _ hx => hx
    | updateMemoryUsage usage => exact fun _ hx => List.mem_append_left _ hx
  | _ => exact fun _ hx => hx

end Inversion

/-! ### Runs -/

structure Inv (s : State ι) : Prop where
  ok : ∀ t, (s.loc t).Ok
  total : Owes (2 ^ 64) Pc.owesTotal s.loc s.shared.counters.metrics.totalOperations
    (s.shared.log.durations.length + s.shared.log.failures)
  successful : Owes (2 ^ 64) Pc.owesSuccessful s.loc
    s.shared.counters.metrics.successfulOperations s.shared.log.durations.length
  failed : Owes (2 ^ 64) Pc.owesFailed s.loc s.shared.counters.metrics.failedOperations
    s.shared.log.failures
  totalTime : Owes (2 ^ 64) Pc.owesTime s.loc s.shared.counters.metrics.totalTimeNs
    s.shared.log.durations.sum
  maxTime : Raised Pc.duration? s.loc s.shared.counters.metrics.maxTimeNs s.shared.log.durations
  peak : Raised Pc.usage? s.loc s.shared.counters.metrics.peakMemoryUsage s.shared.log.usages
  memory : s.shared.counters.metrics.memoryUsage = 0 ∨
    s.shared.counters.metrics.memoryUsage ∈ s.shared.log.usages

section Runs

variable {s s' : State ι}

theorem inv_init : Inv (init : State ι) where
  ok := fun _ => trivial
  total := .of_zero (fun _ => rfl) (Nat.two_pow_pos 64) rfl
  successful := .of_zero (fun _ => rfl) (Nat.two_pow_pos 64) rfl
  failed := .of_zero (fun _ => rfl) (Nat.two_pow_pos 64) rfl
  totalTime := .of_zero (fun _ => rfl) (Nat.two_pow_pos 64) rfl
  maxTime := .init fun _ => rfl
  peak := .init fun _ => rfl
  memory := Or.inl rfl

theorem Inv.recordedExactly (h : Inv s) (hidle : ∀ t, s.loc t = .idle) :
    RecordedExactly s.shared.counters.metrics s.shared.log := by
  have hsettled : ∀ {α : Type} {f : Pc → α} {x : α}, f .idle = x → ∀ t, f (s.loc t) = x := by
    intro α f x hx t
    rw [hidle t, hx]
  obtain ⟨_, hmax⟩ := h.maxTime.settled (hsettled rfl)
  obtain ⟨hle, hpeak⟩ := h.peak.settled (hsettled rfl)
  refine ⟨hmax, hpeak, ?_, h.totalTime.settled (hsettled rfl), h.successful.settled (hsettled rfl),
    h.failed.settled (hsettled rfl), h.total.settled (hsettled rfl)⟩
  rcases h.memory with hzero | hmem
  · rw [hzero]
    exact Nat.zero_le _
  · exact hle _ hmem

variable [DecidableEq ι]

theorem Inv.step {a : ι × Act} (h : Inv s) (hstep : step s a = some s') : Inv s' := by
  obtain ⟨t, act⟩ := a
  obtain ⟨sh', l', hprogram, rfl⟩ := interleave_eq_some.mp hstep
  have heffect := program_effect hprogram
  constructor
  · intro u
    by_cases hu : u = t
    · subst hu
      show (Function.update s.loc u l' u).Ok
      rw [Function.update_self]
      exact heffect.ok
    · show (Function.update s.loc t l' u).Ok
      rw [Function.update_of_ne hu]
      exact h.ok u
  · exact h.total.update heffect.total
  · exact h.successful.update heffect.successful
  · exact h.failed.update heffect.failed
  · exact h.totalTime.update heffect.totalTime
  · exact h.maxTime.update (heffect.maxTime (h.ok t))
  · exact h.peak.update (heffect.peak (h.ok t))
  · rcases heffect.memory with hsame | hswapped
    · rw [hsame]
      exact h.memory.imp_right fun hmem => heffect.usages hmem
    · exact Or.inr (heffect.usages (h.peak.brought t _ hswapped))

theorem Inv.run {as : List (ι × Act)} (h : Inv s) (hrun : run Maxima.step s as = some s') :
    Inv s' :=
  run_invariant (fun _ _ _ hs hstep => hs.step hstep) h hrun

theorem Inv.maxima_le {a : ι × Act} (h : Inv s) (hstep : Maxima.step s a = some s') :
    s.shared.counters.metrics.maxTimeNs ≤ s'.shared.counters.metrics.maxTimeNs ∧
      s.shared.counters.metrics.peakMemoryUsage ≤ s'.shared.counters.metrics.peakMemoryUsage := by
  obtain ⟨t, act⟩ := a
  obtain ⟨sh', l', hprogram, rfl⟩ := interleave_eq_some.mp hstep
  have heffect := program_effect hprogram
  exact ⟨(heffect.maxTime (h.ok t)).le, (heffect.peak (h.ok t)).le⟩

/-- **Concurrent recording loses nothing.**  In every run, with any number of threads and spurious
    failures, no step lowers the two maxima, and whenever all calls have returned the counters are
    those of the calls. -/
theorem recorded_exactly (as : List (ι × Act)) (hrun : run Maxima.step init as = some s) :
    (∀ a s', Maxima.step s a = some s' →
      s.shared.counters.metrics.maxTimeNs ≤ s'.shared.counters.metrics.maxTimeNs ∧
      s.shared.counters.metrics.peakMemoryUsage ≤ s'.shared.counters.metrics.peakMemoryUsage) ∧
    ((∀ t, s.loc t = .idle) → RecordedExactly s.shared.counters.metrics s.shared.log) := by
  have h : Inv s := inv_init.run hrun
  exact ⟨fun a s' hstep => h.maxima_le hstep, h.recordedExactly⟩

/-- The longer call raises the maximum between the load and the compare-exchange of the shorter
    one, which leaves its loop without storing. -/
def overtaken : List (Bool × Act) :=
  (false, Act.call (.recordSuccess ⟨5, by decide⟩)) ::
    (true, Act.call (.recordSuccess ⟨7, by decide⟩)) ::
    List.replicate 4 (false, Act.step false) ++ List.replicate 5 (true, Act.step false) ++
    [(false, Act.step false)] ++
    (true, Act.call (.updateMemoryUsage 3)) :: List.replicate 3 (true, Act.step false) ++
    (false, Act.call (.updateMemoryUsage 2)) :: List.replicate 2 (false, Act.step false)

theorem recorded_exactly_overtaken : ∃ s, run Maxima.step init overtaken = some s ∧
    s.shared.log = ⟨[5, 7], 0, [3, 2]⟩ ∧
    RecordedExactly s.shared.counters.metrics s.shared.log := by
  have hrun : (run Maxima.step init overtaken).map
      (fun s => (s.shared.log, decide (∀ t, s.loc t = .idle))) =
        some (⟨[5, 7], 0, [3, 2]⟩, true) := by decide
  obtain ⟨s, hs, heq⟩ := Option.map_eq_some_iff.mp hrun
  obtain ⟨hlog, hidle⟩ := Prod.mk.inj heq
  exact ⟨s, hs, hlog, (recorded_exactly overtaken hs).2 (of_decide_eq_true hidle)⟩

/-- One thread records `k` failures. -/
def failures (k : Nat) : List (Unit × Act) :=
  (List.replicate k [((), .call .recordFailure), ((), .step false), ((), .step false)]).flatten

theorem run_failures (k : Nat) :
    ∃ s : State Unit, run Maxima.step init (failures k) = some s ∧
      (∀ t, s.loc t = .idle) ∧ s.shared.log.failures = k := by
  apply run_rounds (P := fun k (s : State Unit) =>
    (∀ t, s.loc t = .idle) ∧ s.shared.log.failures = k)
  · rintro k ⟨sh, loc⟩ _ ⟨hidle, hlog⟩
    obtain rfl : loc = fun _ => .idle := funext hidle
    exact ⟨_, rfl, fun _ => rfl, congrArg (· + 1) hlog⟩
  · exact ⟨fun _ => rfl, rfl⟩

/-- After `2 ^ 64` failures, the counter of failures is 0 again. -/
theorem failures_wrap : ∃ s : State Unit, run Maxima.step init (failures (2 ^ 64)) = some s ∧
    (∀ t, s.loc t = .idle) ∧ s.shared.log.failures = 2 ^ 64 ∧
    s.shared.counters.metrics.failedOperations = 0 := by
  obtain ⟨s, hrun, hidle, hcount⟩ := run_failures (2 ^ 64)
  have hexact := (inv_init.run hrun).recordedExactly hidle
  refine ⟨s, hrun, hidle, hcount, ?_⟩
  rw [hexact.failed, hcount, Nat.mod_self]

end Runs

end VelocityX.Metrics.Maxima
