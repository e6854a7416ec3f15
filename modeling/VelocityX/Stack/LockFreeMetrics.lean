import VelocityX.Lib.Tally
import VelocityX.Metrics.Threads
import VelocityX.Stack.LockFreeThreads

/-!
# The metrics of the lock-free stack

The threads of `LockFreeThreads` together with what they record: `push` and `pop` of
`LockFreeStack` in `src/stack/lock_free.rs` record a contention after every compare-exchange that
fails, a failure before `pop` returns from an empty stack, and a success with the time since the
call before they return otherwise.  A recording takes the steps of `Metrics.Threads`, interleaved
with those of all other threads.

Ghost state: `retries` counts the contentions that the call of a thread has recorded since the
last operation was counted.
-/

namespace VelocityX.LockFreeStack.Metered

open Transition
open Metrics.Threads (RecordPc Outcome recordStep)

variable {ι A T : Type*}

structure Shared (A T : Type*) where
  stack : Threads.Shared A T
  metrics : Metrics.Threads.Shared

structure Local (A T : Type*) where
  pc : Threads.Pc A T
  /-- the recording that has to end before the call goes on or returns -/
  recording : Option RecordPc
  retries : Nat

/-- No call is running, not even to record its end. -/
def Local.idle (l : Local A T) : Bool :=
  match l.pc with
  | .idle => l.recording.isNone
  | _ => false

theorem Local.idle_eq {l : Local A T} (h : l.idle = true) : l.pc = .idle ∧ l.recording = none := by
  unfold Local.idle at h
  split at h
  · next hpc => exact ⟨hpc, Option.isNone_iff_eq_none.mp h⟩
  · cases h

/-- A step of the stack, after which the elapsed time is `elapsed`, or one of a recording. -/
inductive Act (A T : Type*) where
  | op (act : Threads.Act A T) (elapsed : Nat)
  | record (spurious : Bool)

/-- What a step from the first to the second point of a call records. -/
def recorded (durationNs : Nat) : Threads.Pc A T → Threads.Pc A T → Option RecordPc
  | .push (.cas _ _), .idle => some (.addTotal (.success durationNs))
  | .push (.cas _ _), .push _ => some .addContended
  | .pop .loadHead, .idle => some (.addTotal .failure)
  | .pop (.cas _ _ _), .pop .loadHead => some .addContended
  | .pop (.release _), .idle => some (.addTotal (.success durationNs))
  | _, _ => none

/-- The rest of a recording. -/
def rest : Next RecordPc Unit → Option RecordPc
  | .goto pc => some pc
  | .ret _ => none

def RecordPc.retries (pc : RecordPc) (retries : Nat) : Nat :=
  match pc with
  | .addTotal _ => 0
  | .addContended => retries + 1
  | _ => retries

def program [DecidableEq A] (t : ι) (sh : Shared A T) (l : Local A T) :
    Act A T → Option (Shared A T × Local A T)
  | .op act elapsed =>
      match l.recording with
      | some _ => none
      | none =>
          (Threads.program t sh.stack l.pc act).map fun r =>
            ({ sh with stack := r.1 },
              ⟨r.2, recorded (Metrics.AtomicMetrics.nanos elapsed) l.pc r.2, l.retries⟩)
  | .record spurious =>
      l.recording.map fun pc =>
        ({ sh with metrics := (recordStep sh.metrics spurious pc).1 },
          { l with recording := rest (recordStep sh.metrics spurious pc).2,
                   retries := RecordPc.retries pc l.retries })

abbrev State (ι A T : Type*) := Transition.Threads ι (Shared A T) (Local A T)

def init : State ι A T := ⟨⟨.new, .new⟩, fun _ => ⟨.idle, none, 0⟩⟩

abbrev step [DecidableEq ι] [DecidableEq A] : State ι A T → ι × Act A T → Option (State ι A T) :=
  interleave program

/-! ### Contentions and operations -/

/-- The step is a compare-exchange that fails. -/
def casFails [DecidableEq A] (sh : Shared A T) (l : Local A T) : Act A T → Bool
  | .op .spurious _ => true
  | .op .step _ =>
      match l.pc with
      | .push (.cas _ head) => sh.stack.head ≠ head
      | .pop (.cas head _ _) => sh.stack.head ≠ some head
      | _ => false
  | _ => false

def Local.counts (l : Local A T) : Bool :=
  match l.recording with
  | some (.addTotal _) => true
  | _ => false

/-- No compare-exchange fails in a call in which one has failed before, and the total does not
    overflow. -/
def FailsOnce [DecidableEq A] (s : State ι A T) (a : ι × Act A T) : Prop :=
  (casFails s.shared (s.loc a.1) a.2 = true → (s.loc a.1).retries = 0) ∧
    ((s.loc a.1).counts = true → s.shared.metrics.metrics.totalOperations + 1 < 2 ^ 64)

instance [DecidableEq A] (s : State ι A T) (a : ι × Act A T) : Decidable (FailsOnce s a) :=
  inferInstanceAs (Decidable (_ ∧ _))

/-- Once all calls have returned, no more operations were contended than there were. -/
def ContentionBounded (s : State ι A T) : Prop :=
  (∀ t, (s.loc t).idle = true) → ∀ m, m = s.shared.metrics.metrics.snapshot →
    m.contendedOperations ≤ m.totalOperations ∧ 0 ≤ m.contentionRate ∧ m.contentionRate ≤ 100

/-- A call has recorded at most one contention, and none that a counted operation has not been
    charged with once it has returned. -/
def Local.Ok (l : Local A T) : Prop :=
  l.retries ≤ 1 ∧
    match l.recording with
    | none => l.pc = .idle → l.retries = 0
    | some (.addTotal _) => True
    | some .addContended => l.retries = 0 ∧ l.pc ≠ .idle
    | some _ => l.retries = 0

/-- The contentions are charged to the operations counted so far and to the running calls. -/
structure Inv (s : State ι A T) : Prop where
  ok : ∀ t, (s.loc t).Ok
  charged : ∃ n, Tally Local.retries s.loc n ∧
    s.shared.metrics.metrics.contendedOperations ≤
      s.shared.metrics.metrics.totalOperations + n

theorem inv_init : Inv (init : State ι A T) :=
  ⟨fun _ => ⟨Nat.zero_le _, fun _ => rfl⟩, 0, tally_zero fun _ => rfl, Nat.le_refl _⟩

theorem Inv.sound {s : State ι A T} (h : Inv s) : ContentionBounded s := by
  rintro hidle _ rfl
  obtain ⟨n, htally, hcharged⟩ := h.charged
  have hzero : ∀ t, (s.loc t).retries = 0 := by
    intro t
    obtain ⟨hpc, hrecording⟩ := Local.idle_eq (hidle t)
    have hok := (h.ok t).2
    rw [hrecording] at hok
    exact hok hpc
  obtain rfl : n = 0 := htally.eq_zero hzero
  have hle : s.shared.metrics.metrics.snapshot.contendedOperations ≤
      s.shared.metrics.metrics.snapshot.totalOperations := hcharged
  exact ⟨hle, Metrics.PerformanceMetrics.percentage_nonneg _ _,
    Metrics.PerformanceMetrics.percentage_le hle⟩

section Steps

variable {t : ι} {l : Local A T} {s : State ι A T}

/-- After the first increment of a recording nothing is left to be charged. -/
theorem Local.ok_maxLoop (hzero : l.retries = 0) (durationNs currentMax : Nat) :
    Local.Ok { l with recording := rest (Metrics.Threads.maxLoop durationNs currentMax) } := by
  have hle : l.retries ≤ 1 := by omega
  unfold Metrics.Threads.maxLoop
  split
  · exact ⟨hle, hzero⟩
  · exact ⟨hle, fun _ => hzero⟩

theorem Inv.update [DecidableEq ι] (h : Inv s) {sh' : Shared A T} {l' : Local A T} (hok : l'.Ok)
    (hcharged : sh'.metrics.metrics.contendedOperations +
        s.shared.metrics.metrics.totalOperations + (s.loc t).retries ≤
      s.shared.metrics.metrics.contendedOperations +
        sh'.metrics.metrics.totalOperations + l'.retries) :
    Inv ⟨sh', Function.update s.loc t l'⟩ := by
  obtain ⟨n, htally, hn⟩ := h.charged
  obtain ⟨n', htally', hn'⟩ := htally.update t l'
  refine ⟨(Function.forall_update_iff s.loc fun _ l => l.Ok).mpr ⟨hok, fun u _ => h.ok u⟩,
    n', htally', ?_⟩
  show sh'.metrics.metrics.contendedOperations ≤ sh'.metrics.metrics.totalOperations + n'
  omega

/-- A step of a recording: the operation that it counts takes over what its call is charged. -/
theorem Inv.record [DecidableEq ι] (h : Inv s) {rpc : RecordPc} {spurious : Bool}
    (hrecording : (s.loc t).recording = some rpc)
    (hroom : (s.loc t).counts = true →
      s.shared.metrics.metrics.totalOperations + 1 < 2 ^ 64) :
    Inv ⟨{ s.shared with metrics := (recordStep s.shared.metrics spurious rpc).1 },
      Function.update s.loc t
        { s.loc t with recording := rest (recordStep s.shared.metrics spurious rpc).2,
                       retries := RecordPc.retries rpc (s.loc t).retries }⟩ := by
  obtain ⟨hle, hrec⟩ := h.ok t
  rw [hrecording] at hrec
  cases rpc with
  | addTotal outcome =>
    have hadd : Word.add 64 s.shared.metrics.metrics.totalOperations 1 =
        s.shared.metrics.metrics.totalOperations + 1 :=
      Word.add_of_lt (hroom (by rw [Local.counts, hrecording]))
    refine h.update ⟨Nat.zero_le 1, rfl⟩ ?_
    show s.shared.metrics.metrics.contendedOperations +
        s.shared.metrics.metrics.totalOperations + (s.loc t).retries ≤
      s.shared.metrics.metrics.contendedOperations + Word.add 64 _ 1 + 0
    omega
  | addContended =>
    obtain ⟨hzero, hpc⟩ := hrec
    have hadd : Word.add 64 s.shared.metrics.metrics.contendedOperations 1 ≤
        s.shared.metrics.metrics.contendedOperations + 1 := Nat.mod_le _ _
    refine h.update ⟨?_, fun hidle => absurd hidle hpc⟩ ?_
    · show (s.loc t).retries + 1 ≤ 1
      omega
    · show Word.add 64 _ 1 + s.shared.metrics.metrics.totalOperations + (s.loc t).retries ≤
        s.shared.metrics.metrics.contendedOperations +
          s.shared.metrics.metrics.totalOperations + ((s.loc t).retries + 1)
      omega
  | addOutcome outcome place =>
    cases outcome with
    | success durationNs => exact h.update ⟨hle, hrec⟩ (Nat.le_refl _)
    | failure => exact h.update ⟨hle, fun _ => hrec⟩ (Nat.le_refl _)
  | addTime durationNs => exact h.update ⟨hle, hrec⟩ (Nat.le_refl _)
  | loadMax durationNs =>
    exact h.update (Local.ok_maxLoop hrec durationNs _) (Nat.le_refl _)
  | casMax durationNs currentMax =>
    simp only [recordStep]
    split
    · exact h.update ⟨hle, fun _ => hrec⟩ (Nat.le_refl _)
    · exact h.update (Local.ok_maxLoop hrec durationNs _) (Nat.le_refl _)

variable [DecidableEq A]

/-- A step of the stack starts a recording exactly where the call has to record something. -/
theorem Local.Ok.op {sh : Shared A T} {stack : Threads.Shared A T} {pc : Threads.Pc A T}
    {act : Threads.Act A T} {elapsed : Nat} (h : l.Ok)
    (heffect : Threads.Effect sh.stack l.pc act stack pc)
    (hfails : casFails sh l (.op act elapsed) = true → l.retries = 0) (durationNs : Nat) :
    Local.Ok ⟨pc, recorded durationNs l.pc pc, l.retries⟩ := by
  obtain ⟨hle, _⟩ := h
  generalize hl : l.pc = lpc at heffect
  cases heffect with
  | retryPush a head act hact =>
    have hzero : l.retries = 0 := by
      rcases hact with ⟨rfl, hne⟩ | rfl
      · exact hfails (by simp only [casFails, hl]; exact decide_eq_true hne)
      · exact hfails rfl
    exact ⟨hle, hzero, nofun⟩
  | retryPop head next seen act hact =>
    have hzero : l.retries = 0 := by
      rcases hact with ⟨rfl, hne⟩ | rfl
      · exact hfails (by simp only [casFails, hl]; exact decide_eq_true hne)
      · exact hfails rfl
    exact ⟨hle, hzero, nofun⟩
  | publish a head node hhead hnode => exact ⟨hle, trivial⟩
  | popEmpty hhead => exact ⟨hle, trivial⟩
  | release a node hnode => exact ⟨hle, trivial⟩
  | _ => exact ⟨hle, nofun⟩

variable [DecidableEq ι]

theorem Inv.step {s' : State ι A T} {a : ι × Act A T} (h : Inv s) (hC : FailsOnce s a)
    (hstep : step s a = some s') : Inv s' := by
  obtain ⟨t, act⟩ := a
  obtain ⟨sh', l', hprog, rfl⟩ := interleave_eq_some.mp hstep
  cases act with
  | op act elapsed =>
    cases hrecording : (s.loc t).recording with
    | some rpc =>
      simp only [program, hrecording] at hprog
      cases hprog
    | none =>
      simp only [program, hrecording] at hprog
      obtain ⟨⟨stack, pc⟩, hmove, heq⟩ := Option.map_eq_some_iff.mp hprog
      cases heq
      exact h.update ((h.ok t).op (Threads.program_effect hmove) hC.1 _) (Nat.le_refl _)
  | record spurious =>
    obtain ⟨rpc, hrecording, heq⟩ := Option.map_eq_some_iff.mp hprog
    cases heq
    exact h.record hrecording hC.2

end Steps

/-- Along a run in which no call loses its compare-exchange twice the contended operations are
    some of the operations. -/
theorem contentionBounded_of_failsOnce [DecidableEq ι] [DecidableEq A]
    (as : List (ι × Act A T)) (hC : Along step FailsOnce init as) :
    Throughout step ContentionBounded init as :=
  throughout_of_along (fun _ _ _ h hC hstep => h.step hC hstep) (fun _ h => h.sound) inv_init hC

/-! ### Runs -/

section Runs

/-- A push whose compare-exchange fails `fails` times. -/
def pushFailing (fails : Nat) : List (Unit × Act Nat Nat) :=
  [Act.op (.call (.push 7)) 0, Act.op (.alloc 0) 0, Act.op .step 0, Act.op .step 0].map ((), ·) ++
    (List.replicate fails
      [Act.op .spurious 0, Act.record false, Act.op .step 0, Act.op .step 0]).flatten.map ((), ·) ++
    [Act.op .step 5, Act.record false, Act.record false, Act.record false, Act.record false,
      Act.record false].map ((), ·)

theorem push_failing_once_bounded : ∃ s, run step init (pushFailing 1) = some s ∧
    s.shared.metrics.metrics.snapshot = ⟨1, 1, 0, 1, 5, 5, 0, 0⟩ ∧ ContentionBounded s := by
  have hrun : (run step init (pushFailing 1)).map (·.shared.metrics.metrics.snapshot) =
      some ⟨1, 1, 0, 1, 5, 5, 0, 0⟩ := by decide
  obtain ⟨s, hs, hmetrics⟩ := Option.map_eq_some_iff.mp hrun
  exact ⟨s, hs, hmetrics,
    (contentionBounded_of_failsOnce (pushFailing 1) (by decide)).last hs⟩

theorem push_failing_twice_unbounded :
    ¬ ∀ (as : List (Unit × Act Nat Nat)) (s : State Unit Nat Nat),
      run step init as = some s → ContentionBounded s := by
  intro h
  have hrun : (run step init (pushFailing 2)).map (fun s =>
      (s.shared.metrics.metrics.snapshot, (s.loc ()).idle)) =
        some (⟨1, 1, 0, 2, 5, 5, 0, 0⟩, true) := by decide
  obtain ⟨s, hs, heq⟩ := Option.map_eq_some_iff.mp hrun
  obtain ⟨hmetrics, hidle⟩ := Prod.mk.inj heq
  have hle := (h (pushFailing 2) s hs (fun _ => hidle) _ hmetrics.symm).1
  exact absurd hle (by decide)

end Runs

end VelocityX.LockFreeStack.Metered
