import VelocityX.Lib.Amortized
import VelocityX.Lib.LockOrder
import VelocityX.Queue.MpmcSimpleLinearizable

/-!
# The three locks of the default bounded queue

`src/queue/mpmc_simple.rs` takes `push_lock` or `pop_lock` for a whole call and, inside it,
the lock of the buffer for each access to a slot.  Here the buffer lock is explicit: an
access is an acquisition, the access itself and a release, and other threads take steps in
between.

Without the steps on the buffer lock such a run is one of the queue of `MpmcSimpleThreads`.
A thread that waits for the buffer lock holds `push_lock` or `pop_lock` and nobody waits
the other way round, so the threads never block each other for good, and a call that gets
the locks it asks for returns after a number of its own steps that the capacity bounds.
-/

namespace VelocityX.MpmcSimple.Threads

open Transition

variable {ι T : Type*} {w cap : Nat}

/-! ### Steps on the buffer lock -/

structure Guarded (ι T : Type*) where
  queue : Shared ι T
  bufferLock : Option ι

/-- Where a thread is in an access to the buffer. -/
inductive Phase where
  | outside
  | acquired
  | accessed
deriving DecidableEq

structure GuardedLocal (T : Type*) where
  call : Local T
  phase : Phase

/-- The next step of the call reads or writes a slot. -/
def Pc.accesses : Pc T → Bool
  | .push _ (.write _) => true
  | .pop (.take _) => true
  | .pushBatch values (.loop _ available pushed) =>
      (if pushed < available then values pushed else none).isSome
  | .popBatch _ (.loop _ items i _) => decide (i < items)
  | _ => false

def guardedProgram (w : Nat) (t : ι) (sh : Guarded ι T) (l : GuardedLocal T) (a : Act T) :
    Option (Guarded ι T × GuardedLocal T) :=
  match l.phase with
  | .outside =>
      if l.call.pc.accesses then
        match a with
        | .call _ => none
        | .step =>
            if sh.bufferLock = none then
              some ({ sh with bufferLock := some t }, { l with phase := .acquired })
            else
              none
      else
        (program w t sh.queue l.call a).map fun r => ({ sh with queue := r.1 }, ⟨r.2, .outside⟩)
  | .acquired =>
      (program w t sh.queue l.call a).map fun r => ({ sh with queue := r.1 }, ⟨r.2, .accessed⟩)
  | .accessed =>
      match a with
      | .call _ => none
      | .step => some ({ sh with bufferLock := none }, { l with phase := .outside })

abbrev GuardedState (ι T : Type*) := Threads ι (Guarded ι T) (GuardedLocal T)

def guardedInit (capacity : Nat) : GuardedState ι T :=
  ⟨⟨.new capacity, none⟩, fun _ => ⟨⟨.idle, []⟩, .outside⟩⟩

abbrev guardedStep [DecidableEq ι] (w : Nat) :
    GuardedState ι T → ι × Act T → Option (GuardedState ι T) :=
  interleave (guardedProgram w)

/-- The queue and its threads, without the buffer lock. -/
def erase (s : GuardedState ι T) : State ι T := ⟨s.shared.queue, fun t => (s.loc t).call⟩

/-! ### What a step can do -/

/-- The steps of a thread, on the buffer lock and others. -/
inductive GuardedEffect (w : Nat) (t : ι) (sh : Guarded ι T) (l : GuardedLocal T) :
    Act T → Guarded ι T → GuardedLocal T → Prop
  | plain (a : Act T) (queue : Shared ι T) (call : Local T) (hphase : l.phase = .outside)
      (haccess : l.call.pc.accesses = false)
      (hstep : program w t sh.queue l.call a = some (queue, call)) :
      GuardedEffect w t sh l a { sh with queue := queue } ⟨call, .outside⟩
  | acquire (hphase : l.phase = .outside) (haccess : l.call.pc.accesses = true)
      (hfree : sh.bufferLock = none) :
      GuardedEffect w t sh l .step { sh with bufferLock := some t } ⟨l.call, .acquired⟩
  | access (a : Act T) (queue : Shared ι T) (call : Local T) (hphase : l.phase = .acquired)
      (hstep : program w t sh.queue l.call a = some (queue, call)) :
      GuardedEffect w t sh l a { sh with queue := queue } ⟨call, .accessed⟩
  | release (hphase : l.phase = .accessed) :
      GuardedEffect w t sh l .step { sh with bufferLock := none } ⟨l.call, .outside⟩

section Effect

variable {t : ι} {sh sh' : Guarded ι T} {l l' : GuardedLocal T} {a : Act T}

theorem guardedProgram_effect (h : guardedProgram w t sh l a = some (sh', l')) :
    GuardedEffect w t sh l a sh' l' := by
  obtain ⟨call, phase⟩ := l
  cases phase with
  | outside =>
    simp only [guardedProgram] at h
    split at h
    · next haccess =>
      cases a with
      | call c => cases h
      | step =>
        simp only at h
        split at h
        · next hfree =>
          cases h
          exact .acquire rfl haccess hfree
        · cases h
    · next haccess =>
      obtain ⟨⟨queue, call'⟩, hstep, heq⟩ := Option.map_eq_some_iff.mp h
      cases heq
      exact .plain a queue call' rfl (by simpa using haccess) hstep
  | acquired =>
    obtain ⟨⟨queue, call'⟩, hstep, heq⟩ := Option.map_eq_some_iff.mp h
    cases heq
    exact .access a queue call' rfl hstep
  | accessed =>
    cases a with
    | call c => cases h
    | step =>
      cases h
      exact .release rfl

end Effect

/-! ### Erasing the buffer lock -/

section Erase

variable [DecidableEq ι] {s s' : GuardedState ι T}

theorem erase_update {queue : Shared ι T} {bufferLock : Option ι} {t : ι} {l : GuardedLocal T} :
    erase ⟨⟨queue, bufferLock⟩, Function.update s.loc t l⟩ =
      ⟨queue, Function.update (erase s).loc t l.call⟩ := by
  simp only [erase, Threads.mk.injEq, true_and]
  funext u
  exact Function.apply_update (fun _ l => GuardedLocal.call l) s.loc t l u

theorem erase_step {a : ι × Act T} (hstep : guardedStep w s a = some s') :
    erase s' = erase s ∨ step w (erase s) a = some (erase s') := by
  obtain ⟨t, act⟩ := a
  obtain ⟨sh, l, hp, rfl⟩ := interleave_eq_some.mp hstep
  have hquiet : ∀ bufferLock phase, erase ⟨⟨s.shared.queue, bufferLock⟩,
      Function.update s.loc t ⟨(s.loc t).call, phase⟩⟩ = erase s := by
    intro bufferLock phase
    rw [erase_update]
    show (⟨(erase s).shared, Function.update (erase s).loc t ((erase s).loc t)⟩ : State ι T) = _
    rw [Function.update_eq_self]
  cases guardedProgram_effect hp with
  | plain _ queue call hphase haccess hcall =>
    exact .inr (interleave_eq_some.mpr ⟨queue, call, hcall, erase_update⟩)
  | acquire hphase haccess hfree => exact .inl (hquiet _ _)
  | access _ queue call hphase hcall =>
    exact .inr (interleave_eq_some.mpr ⟨queue, call, hcall, erase_update⟩)
  | release hphase => exact .inl (hquiet _ _)

end Erase

/-! ### Who holds which lock -/

inductive Lock where
  | push
  | pop
  | buffer

/-- The order in which a call takes its locks. -/
def Lock.rank : Lock → Nat
  | .push => 0
  | .pop => 0
  | .buffer => 1

theorem Lock.rank_le (lock : Lock) : lock.rank ≤ 1 := by cases lock <;> simp [Lock.rank]

def Guarded.owner (sh : Guarded ι T) : Lock → Option ι
  | .push => sh.queue.pushLock
  | .pop => sh.queue.popLock
  | .buffer => sh.bufferLock

/-- The next step of the call takes `push_lock`. -/
def Pc.wantsPush : Pc T → Bool
  | .push _ .lock => true
  | .pushBatch _ .lock => true
  | _ => false

def Pc.wantsPop : Pc T → Bool
  | .pop .lock => true
  | .popBatch _ .lock => true
  | _ => false

/-- The call is past the acquisition of `push_lock`. -/
def Pc.holdsPush : Pc T → Bool
  | .push _ .lock => false
  | .push _ _ => true
  | .pushBatch _ .lock => false
  | .pushBatch _ _ => true
  | _ => false

def Pc.holdsPop : Pc T → Bool
  | .pop .lock => false
  | .pop _ => true
  | .popBatch _ .lock => false
  | .popBatch _ _ => true
  | _ => false

def GuardedLocal.Holds (l : GuardedLocal T) : Lock → Prop
  | .push => l.call.pc.holdsPush = true
  | .pop => l.call.pc.holdsPop = true
  | .buffer => l.phase ≠ .outside

def GuardedLocal.Waits (l : GuardedLocal T) : Lock → Prop
  | .push => l.phase = .outside ∧ l.call.pc.wantsPush = true
  | .pop => l.phase = .outside ∧ l.call.pc.wantsPop = true
  | .buffer => l.phase = .outside ∧ l.call.pc.accesses = true

/-- A thread has the buffer lock only for an access and holds `push_lock` or `pop_lock`
    meanwhile. -/
def GuardedLocal.PhaseOk (l : GuardedLocal T) : Prop :=
  match l.phase with
  | .outside => True
  | .acquired => l.call.pc.accesses = true
  | .accessed => l.call.pc.holdsPush = true ∨ l.call.pc.holdsPop = true

section Holds

variable {t u : ι} {sh sh' : Shared ι T} {l l' : Local T} {a : Act T} {pc : Pc T}

theorem Pc.holds_of_accesses (h : pc.accesses = true) :
    pc.holdsPush = true ∨ pc.holdsPop = true := by
  cases pc with
  | idle => cases h
  | push value pc =>
    cases pc with
    | write tail => exact .inl rfl
    | _ => cases h
  | pop pc =>
    cases pc with
    | take head => exact .inr rfl
    | _ => cases h
  | pushBatch values pc =>
    cases pc with
    | loop tail available pushed => exact .inl rfl
    | _ => cases h
  | popBatch n pc =>
    cases pc with
    | loop head items i values => exact .inr rfl
    | _ => cases h

/-- A call takes one of the two locks, once. -/
theorem Pc.not_wants_of_holds (h : pc.holdsPush = true ∨ pc.holdsPop = true) :
    pc.wantsPush = false ∧ pc.wantsPop = false := by
  cases pc with
  | idle => exact ⟨rfl, rfl⟩
  | push value pc => cases pc <;> simp [Pc.holdsPush, Pc.holdsPop, Pc.wantsPush, Pc.wantsPop] at *
  | pop pc => cases pc <;> simp [Pc.holdsPush, Pc.holdsPop, Pc.wantsPush, Pc.wantsPop] at *
  | pushBatch values pc =>
    cases pc <;> simp [Pc.holdsPush, Pc.holdsPop, Pc.wantsPush, Pc.wantsPop] at *
  | popBatch n pc => cases pc <;> simp [Pc.holdsPush, Pc.holdsPop, Pc.wantsPush, Pc.wantsPop] at *

/-- What a step of thread `t` does to `push_lock` and `pop_lock`. -/
structure LockFrame (t : ι) (sh sh' : Shared ι T) (pc : Pc T) : Prop where
  push : sh'.pushLock = some t ↔ pc.holdsPush = true
  pop : sh'.popLock = some t ↔ pc.holdsPop = true
  push_other : ∀ u, u ≠ t → (sh'.pushLock = some u ↔ sh.pushLock = some u)
  pop_other : ∀ u, u ≠ t → (sh'.popLock = some u ↔ sh.popLock = some u)

/-- A step that leaves both locks alone. -/
theorem LockFrame.keep (hpush_eq : sh'.pushLock = sh.pushLock) (hpop_eq : sh'.popLock = sh.popLock)
    (hpush : sh.pushLock = some t ↔ pc.holdsPush = true)
    (hpop : sh.popLock = some t ↔ pc.holdsPop = true) : LockFrame t sh sh' pc :=
  ⟨by rwa [hpush_eq], by rwa [hpop_eq], fun u _ => by rw [hpush_eq], fun u _ => by rw [hpop_eq]⟩

theorem lockPush_frame (hpop : sh.popLock = some t ↔ pc.holdsPop = true)
    (hpc : pc.holdsPush = true) (hlock : sh.lockPush t = some sh') : LockFrame t sh sh' pc := by
  simp only [Shared.lockPush] at hlock
  split at hlock
  · next hfree =>
    cases hlock
    exact ⟨by simp [hpc], hpop, fun u hu => by simp [hfree, Ne.symm hu], fun _ _ => Iff.rfl⟩
  · cases hlock

theorem lockPop_frame (hpush : sh.pushLock = some t ↔ pc.holdsPush = true)
    (hpc : pc.holdsPop = true) (hlock : sh.lockPop t = some sh') : LockFrame t sh sh' pc := by
  simp only [Shared.lockPop] at hlock
  split at hlock
  · next hfree =>
    cases hlock
    exact ⟨hpush, by simp [hpc], fun _ _ => Iff.rfl, fun u hu => by simp [hfree, Ne.symm hu]⟩
  · cases hlock

theorem unlockPush_frame (hpush : sh.pushLock = some t)
    (hpop : sh.popLock = some t ↔ (Pc.idle : Pc T).holdsPop = true) :
    LockFrame t sh sh.unlockPush (.idle : Pc T) :=
  ⟨by simp [Shared.unlockPush, Pc.holdsPush], hpop,
    fun u hu => by simp [Shared.unlockPush, hpush, Ne.symm hu], fun _ _ => Iff.rfl⟩

theorem unlockPop_frame (hpush : sh.pushLock = some t ↔ (Pc.idle : Pc T).holdsPush = true)
    (hpop : sh.popLock = some t) : LockFrame t sh sh.unlockPop (.idle : Pc T) :=
  ⟨hpush, by simp [Shared.unlockPop, Pc.holdsPop], fun _ _ => Iff.rfl,
    fun u hu => by simp [Shared.unlockPop, hpop, Ne.symm hu]⟩

theorem program_lockFrame (hpush : sh.pushLock = some t ↔ l.pc.holdsPush = true)
    (hpop : sh.popLock = some t ↔ l.pc.holdsPop = true)
    (hstep : program w t sh l a = some (sh', l')) : LockFrame t sh sh' l'.pc := by
  cases a with
  | call c =>
    obtain ⟨hpc, rfl, rfl⟩ := program_call_cases hstep
    rw [hpc] at hpush hpop
    cases c <;> exact .keep rfl rfl hpush hpop
  | step =>
    rcases program_step_cases hstep with ⟨value, pc, next, hpc, hnext, rfl⟩ |
      ⟨pc, next, hpc, hnext, rfl⟩ | ⟨values, pc, next, hpc, hnext, rfl⟩ |
      ⟨n, pc, next, hpc, hnext, rfl⟩ <;> rw [hpc] at hpush hpop
    · cases pc with
      | lock =>
        obtain ⟨sh₁, hlock, heq⟩ := Option.map_eq_some_iff.mp hnext
        cases heq
        exact lockPush_frame hpop rfl hlock
      | loadHead tail =>
        simp only [pushStep] at hnext
        split at hnext <;> cases hnext <;> exact .keep rfl rfl hpush hpop
      | unlock result =>
        cases hnext
        exact unlockPush_frame (hpush.mpr rfl) hpop
      | _ =>
        cases hnext
        exact .keep rfl rfl hpush hpop
    · cases pc with
      | lock =>
        obtain ⟨sh₁, hlock, heq⟩ := Option.map_eq_some_iff.mp hnext
        cases heq
        exact lockPop_frame hpush rfl hlock
      | loadTail head =>
        simp only [popStep] at hnext
        split at hnext <;> cases hnext <;> exact .keep rfl rfl hpush hpop
      | unlock value =>
        cases hnext
        exact unlockPop_frame hpush (hpop.mpr rfl)
      | _ =>
        cases hnext
        exact .keep rfl rfl hpush hpop
    · cases pc with
      | lock =>
        obtain ⟨sh₁, hlock, heq⟩ := Option.map_eq_some_iff.mp hnext
        cases heq
        exact lockPush_frame hpop rfl hlock
      | loop tail available pushed =>
        simp only [pushBatchStep] at hnext
        split at hnext <;> cases hnext <;> exact .keep rfl rfl hpush hpop
      | unlock pushed =>
        cases hnext
        exact unlockPush_frame (hpush.mpr rfl) hpop
      | _ =>
        cases hnext
        exact .keep rfl rfl hpush hpop
    · cases pc with
      | lock =>
        obtain ⟨sh₁, hlock, heq⟩ := Option.map_eq_some_iff.mp hnext
        cases heq
        exact lockPop_frame hpush rfl hlock
      | loop head items i values =>
        simp only [popBatchStep] at hnext
        split at hnext <;> cases hnext <;> exact .keep rfl rfl hpush hpop
      | unlock values =>
        cases hnext
        exact unlockPop_frame hpush (hpop.mpr rfl)
      | _ =>
        cases hnext
        exact .keep rfl rfl hpush hpop

/-- An access to the buffer does not end the call. -/
theorem holds_of_access (haccess : l.pc.accesses = true)
    (hstep : program w t sh l a = some (sh', l')) :
    l'.pc.holdsPush = true ∨ l'.pc.holdsPop = true := by
  cases a with
  | call c =>
    obtain ⟨hpc, _⟩ := program_call_cases hstep
    rw [hpc] at haccess
    cases haccess
  | step =>
    rcases program_step_cases hstep with ⟨value, pc, next, hpc, hnext, rfl⟩ |
      ⟨pc, next, hpc, hnext, rfl⟩ | ⟨values, pc, next, hpc, hnext, rfl⟩ |
      ⟨n, pc, next, hpc, hnext, rfl⟩ <;> rw [hpc] at haccess
    · cases pc with
      | write tail =>
        cases hnext
        exact .inl rfl
      | _ => cases haccess
    · cases pc with
      | take head =>
        cases hnext
        exact .inr rfl
      | _ => cases haccess
    · cases pc with
      | loop tail available pushed =>
        simp only [pushBatchStep] at hnext
        split at hnext <;> cases hnext <;> exact .inl rfl
      | _ => cases haccess
    · cases pc with
      | loop head items i values =>
        simp only [popBatchStep] at hnext
        split at hnext <;> cases hnext <;> exact .inr rfl
      | _ => cases haccess

/-- A thread inside a call goes on unless it waits for `push_lock` or `pop_lock`. -/
theorem program_enabled (hpc : l.pc ≠ .idle)
    (hpush : l.pc.wantsPush = true → sh.pushLock = none)
    (hpop : l.pc.wantsPop = true → sh.popLock = none) :
    ∃ sh' l', program w t sh l .step = some (sh', l') := by
  have hsome : (program w t sh l .step).isSome := by
    cases hl : l.pc with
    | idle => exact absurd hl hpc
    | push value pc =>
      rw [hl] at hpush
      cases pc with
      | lock => simp [program, hl, pushStep, Shared.lockPush, hpush rfl]
      | loadHead tail =>
        simp only [program, hl, pushStep]
        split <;> rfl
      | _ => simp [program, hl, pushStep]
    | pop pc =>
      rw [hl] at hpop
      cases pc with
      | lock => simp [program, hl, popStep, Shared.lockPop, hpop rfl]
      | loadTail head =>
        simp only [program, hl, popStep]
        split <;> rfl
      | _ => simp [program, hl, popStep]
    | pushBatch values pc =>
      rw [hl] at hpush
      cases pc with
      | lock => simp [program, hl, pushBatchStep, Shared.lockPush, hpush rfl]
      | loop tail available pushed =>
        simp only [program, hl, pushBatchStep]
        split <;> rfl
      | _ => simp [program, hl, pushBatchStep]
    | popBatch n pc =>
      rw [hl] at hpop
      cases pc with
      | lock => simp [program, hl, popBatchStep, Shared.lockPop, hpop rfl]
      | loop head items i values =>
        simp only [program, hl, popBatchStep]
        split <;> rfl
      | _ => simp [program, hl, popBatchStep]
  obtain ⟨⟨sh', l'⟩, hstep⟩ := Option.isSome_iff_exists.mp hsome
  exact ⟨sh', l', hstep⟩

end Holds

/-! ### No deadlock -/

structure LocksOk (s : GuardedState ι T) : Prop where
  owned : LockOrder.Owned GuardedLocal.Holds s.shared.owner s.loc
  phases : ∀ t, (s.loc t).PhaseOk

section Locks

variable {s s' : GuardedState ι T} {t : ι}

theorem locksOk_init (capacity : Nat) : LocksOk (guardedInit capacity : GuardedState ι T) := by
  refine ⟨fun t lock => ?_, fun _ => trivial⟩
  cases lock <;> simp [guardedInit, Guarded.owner, Shared.new, GuardedLocal.Holds, Pc.holdsPush,
    Pc.holdsPop]

theorem ordered_locks (s : GuardedState ι T) :
    LockOrder.Ordered Lock.rank (fun t => (s.loc t).Holds) fun t => (s.loc t).Waits := by
  intro t held wanted hholds hwaits
  have hside : held ≠ .buffer → wanted = .buffer := by
    intro hheld
    have hnot : (s.loc t).call.pc.wantsPush = false ∧ (s.loc t).call.pc.wantsPop = false := by
      apply Pc.not_wants_of_holds
      cases held with
      | push => exact .inl hholds
      | pop => exact .inr hholds
      | buffer => exact absurd rfl hheld
    cases wanted with
    | push => simp [GuardedLocal.Waits, hnot.1] at hwaits
    | pop => simp [GuardedLocal.Waits, hnot.2] at hwaits
    | buffer => rfl
  cases held with
  | buffer => cases wanted <;> exact absurd hwaits.1 hholds
  | push => simp [hside, Lock.rank]
  | pop => simp [hside, Lock.rank]

theorem busy_of_holds {l : GuardedLocal T} (hphase : l.PhaseOk) {lock : Lock}
    (h : l.Holds lock) : l.call.pc ≠ .idle := by
  intro hidle
  obtain ⟨⟨pc, history⟩, phase⟩ := l
  cases hidle
  cases lock with
  | push => cases h
  | pop => cases h
  | buffer =>
    cases phase with
    | outside => exact h rfl
    | acquired => cases hphase
    | accessed => rcases hphase with h | h <;> cases h

variable [DecidableEq ι]

theorem LocksOk.step {a : ι × Act T} (h : LocksOk s) (hstep : guardedStep w s a = some s') :
    LocksOk s' := by
  obtain ⟨t, act⟩ := a
  obtain ⟨sh, l, hp, rfl⟩ := interleave_eq_some.mp hstep
  have hpush := h.owned t .push
  have hpop := h.owned t .pop
  have hbuffer := h.owned t .buffer
  have hphases : ∀ l : GuardedLocal T, l.PhaseOk →
      ∀ u, (Function.update s.loc t l u).PhaseOk := fun l hl =>
    (Function.forall_update_iff s.loc fun _ l => l.PhaseOk).mpr ⟨hl, fun u _ => h.phases u⟩
  cases guardedProgram_effect hp with
  | plain _ queue call hphase haccess hcall =>
    have hframe := program_lockFrame hpush hpop hcall
    refine ⟨h.owned.update (fun lock => ?_) fun u hu lock => ?_, hphases _ trivial⟩
    · cases lock with
      | push => exact hframe.push
      | pop => exact hframe.pop
      | buffer => simpa [Guarded.owner, GuardedLocal.Holds, hphase] using hbuffer
    · cases lock with
      | push => exact hframe.push_other u hu
      | pop => exact hframe.pop_other u hu
      | buffer => exact Iff.rfl
  | acquire hphase haccess hfree =>
    refine ⟨h.owned.update (fun lock => ?_) fun u hu lock => ?_, hphases _ haccess⟩
    · cases lock with
      | push => exact hpush
      | pop => exact hpop
      | buffer => simp [Guarded.owner, GuardedLocal.Holds]
    · cases lock with
      | push => exact Iff.rfl
      | pop => exact Iff.rfl
      | buffer => simp [Guarded.owner, hfree, Ne.symm hu]
  | access _ queue call hphase hcall =>
    have hframe := program_lockFrame hpush hpop hcall
    have haccess : (s.loc t).call.pc.accesses = true := by
      have hphaseOk := h.phases t
      rwa [GuardedLocal.PhaseOk, hphase] at hphaseOk
    refine ⟨h.owned.update (fun lock => ?_) fun u hu lock => ?_,
      hphases _ (holds_of_access haccess hcall)⟩
    · cases lock with
      | push => exact hframe.push
      | pop => exact hframe.pop
      | buffer => simpa [Guarded.owner, GuardedLocal.Holds, hphase] using hbuffer
    · cases lock with
      | push => exact hframe.push_other u hu
      | pop => exact hframe.pop_other u hu
      | buffer => exact Iff.rfl
  | release hphase =>
    have hmine : s.shared.bufferLock = some t := hbuffer.mpr (by simp [GuardedLocal.Holds, hphase])
    refine ⟨h.owned.update (fun lock => ?_) fun u hu lock => ?_, hphases _ trivial⟩
    · cases lock with
      | push => exact hpush
      | pop => exact hpop
      | buffer => simp [Guarded.owner, GuardedLocal.Holds]
    · cases lock with
      | push => exact Iff.rfl
      | pop => exact Iff.rfl
      | buffer => simp [Guarded.owner, hmine, Ne.symm hu]

/-- A thread inside a call that does not wait for a lock that is taken can take its next step. -/
theorem LocksOk.enabled (h : LocksOk s) (w : Nat) (hpc : (s.loc t).call.pc ≠ .idle)
    (hfree : ¬ LockOrder.Blocked (fun t => (s.loc t).Holds) (fun t => (s.loc t).Waits) t) :
    ∃ s', guardedStep w s (t, .step) = some s' := by
  have hnone : ∀ lock, (s.loc t).Waits lock → s.shared.owner lock = none := by
    intro lock hwaits
    cases howner : s.shared.owner lock with
    | none => rfl
    | some u => exact absurd ⟨lock, hwaits, u, (h.owned u lock).mp howner⟩ hfree
  have hprog : (∃ sh l, guardedProgram w t s.shared (s.loc t) .step = some (sh, l)) →
      ∃ s', guardedStep w s (t, .step) = some s' := by
    rintro ⟨sh, l, hp⟩
    exact ⟨_, interleave_eq_some.mpr ⟨sh, l, hp, rfl⟩⟩
  refine hprog ?_
  have hphaseOk := h.phases t
  have hside := ordered_locks s t
  cases hphase : (s.loc t).phase with
  | outside =>
    cases haccess : (s.loc t).call.pc.accesses with
    | true =>
      have hbuffer : s.shared.bufferLock = none := hnone .buffer ⟨hphase, haccess⟩
      simp [guardedProgram, hphase, haccess, hbuffer]
    | false =>
      obtain ⟨queue, call, hcall⟩ := program_enabled (w := w) (t := t) hpc
        (fun hwants => hnone .push ⟨hphase, hwants⟩) fun hwants => hnone .pop ⟨hphase, hwants⟩
      simp [guardedProgram, hphase, haccess, hcall]
  | acquired =>
    rw [GuardedLocal.PhaseOk, hphase] at hphaseOk
    have hwants : (s.loc t).call.pc.wantsPush = false ∧ (s.loc t).call.pc.wantsPop = false := by
      rcases Pc.holds_of_accesses hphaseOk with hholds | hholds
      · exact Pc.not_wants_of_holds (.inl hholds)
      · exact Pc.not_wants_of_holds (.inr hholds)
    have hcall : ∃ queue call,
        program w t s.shared.queue (s.loc t).call .step = some (queue, call) :=
      program_enabled hpc (fun h => by simp [hwants.1] at h) fun h => by simp [hwants.2] at h
    obtain ⟨queue, call, hcall⟩ := hcall
    simp [guardedProgram, hphase, hcall]
  | accessed => simp [guardedProgram, hphase]

theorem LocksOk.no_deadlock (h : LocksOk s) (w : Nat) (ht : (s.loc t).call.pc ≠ .idle) :
    ∃ u, (s.loc u).call.pc ≠ .idle ∧ ∃ s', guardedStep w s (u, .step) = some s' :=
  (ordered_locks s).exists_able Lock.rank_le (fun _ hpc hfree => h.enabled w hpc hfree)
    (fun t _ hl => busy_of_holds (h.phases t) hl) ht

end Locks

/-! ### The queue behind its locks -/

section Refinement

variable [DecidableEq ι] {s s' : GuardedState ι T} {a : ι × Act T} {as : List (ι × Act T)}

theorem run_erase (hrun : run (guardedStep w) (guardedInit cap) as = some s) :
    ∃ bs, bs.Sublist as ∧ run (step w) (init cap) bs = some (erase s) :=
  run_stuttering (fun _ _ _ => erase_step) hrun

theorem guardedStep_written_le (hstep : guardedStep w s a = some s') :
    s.shared.queue.written ≤ s'.shared.queue.written := by
  rcases erase_step hstep with hsame | herased
  · exact Nat.le_of_eq (congrArg (fun m : State ι T => m.shared.written) hsame.symm)
  · exact step_written_le herased

theorem locksOk_of_run (hrun : run (guardedStep w) (guardedInit cap) as = some s) : LocksOk s :=
  run_invariant (fun _ _ _ h hstep => h.step hstep) (locksOk_init cap) hrun

/-- **The buffer lock is taken for one access at a time, and the queue behind it is the bounded
    FIFO.**  Every run with the explicit lock is, without the steps on it, a run of the queue. -/
theorem guarded_refines (capacity : Capacity w)
    (hrun : run (guardedStep w) (guardedInit capacity.val) as = some s)
    (hw : s.shared.queue.written < 2 ^ w) :
    (∀ t u, (s.loc t).phase ≠ .outside → (s.loc u).phase ≠ .outside → t = u) ∧
      ∃ bs, bs.Sublist as ∧ run (step w) (init capacity.val) bs = some (erase s) ∧
        BoundedFifo capacity.val (erase s) ∧ RefusalsJustified w capacity.val bs (erase s) := by
  refine ⟨fun t u ht hu => ?_, ?_⟩
  · have hheld : (s.loc t).Holds .buffer ∧ (s.loc u).Holds .buffer := ⟨ht, hu⟩
    exact (locksOk_of_run hrun).owned.exclusive hheld.1 hheld.2
  · obtain ⟨bs, hbs, hrun'⟩ := run_erase hrun
    have hinv : Inv capacity.val (erase s) := run_inv capacity.lt (inv_init _) hrun' hw
    have hlogs : LogsOk (erase s) := run_logsOk (fun t => ⟨rfl, rfl⟩) hrun'
    exact ⟨bs, hbs, hrun', hinv.boundedFifo hlogs,
      refusalsJustified_of_run capacity.lt hrun' hw⟩

/-- Two threads are in a call each: one has the buffer lock to write, the other waits for it. -/
def contended : List (Bool × Act Nat) :=
  (false, Act.call (.push 7)) :: List.replicate 8 (false, Act.step) ++
    (false, Act.call (.push 8)) :: List.replicate 4 (false, Act.step) ++
    (true, Act.call .pop) :: List.replicate 3 (true, Act.step)

theorem guarded_refines_contended :
    ∃ s, run (guardedStep 64) (guardedInit 2) contended = some s ∧
      (s.loc false).phase = .acquired ∧ guardedStep 64 s (true, .step) = none ∧
      ∃ bs, bs.Sublist contended ∧ run (step 64) (init 2) bs = some (erase s) ∧
        BoundedFifo 2 (erase s) ∧ RefusalsJustified 64 2 bs (erase s) := by
  have hrun : (run (guardedStep 64) (guardedInit 2) contended).map (fun s =>
      ((s.loc false).phase, (guardedStep 64 s (true, .step)).isNone, s.shared.queue.written)) =
        some (.acquired, true, 1) := rfl
  obtain ⟨s, hs, heq⟩ := Option.map_eq_some_iff.mp hrun
  simp only [Prod.mk.injEq, Option.isNone_iff_eq_none] at heq
  obtain ⟨hphase, hwaits, hwritten⟩ := heq
  exact ⟨s, hs, hphase, hwaits,
    (guarded_refines ⟨2, by decide, by decide⟩ hs (by omega)).2⟩

end Refinement

/-! ### How long a call takes -/

/-- The steps a call still has to take, the three of an access to the buffer included. -/
def Pc.rank (cap : Nat) : Pc T → Nat
  | .idle => 0
  | .push _ .lock => 8
  | .push _ .loadTail => 7
  | .push _ (.loadHead _) => 6
  | .push _ (.write _) => 5
  | .push _ (.storeTail _) => 2
  | .push _ (.unlock _) => 1
  | .pop .lock => 8
  | .pop .loadHead => 7
  | .pop (.loadTail _) => 6
  | .pop (.take _) => 5
  | .pop (.storeHead _ _) => 2
  | .pop (.unlock _) => 1
  | .pushBatch _ .lock => 3 * cap + 5
  | .pushBatch _ .loadTail => 3 * cap + 4
  | .pushBatch _ (.loadHead _) => 3 * cap + 3
  | .pushBatch _ (.loop _ available pushed) => 3 * (available - pushed) + 2
  | .pushBatch _ (.unlock _) => 1
  | .popBatch _ .lock => 3 * cap + 5
  | .popBatch _ .loadHead => 3 * cap + 4
  | .popBatch _ (.loadTail _) => 3 * cap + 3
  | .popBatch _ (.loop _ items i _) => 3 * (items - i) + 2
  | .popBatch _ (.unlock _) => 1

def GuardedLocal.rank (cap : Nat) (l : GuardedLocal T) : Nat :=
  match l.phase with
  | .outside => l.call.pc.rank cap
  | .acquired => l.call.pc.rank cap - 1
  | .accessed => l.call.pc.rank cap + 1

section Rank

variable {t : ι} {sh sh' : Shared ι T} {l l' : Local T} {c : Call T}

theorem Pc.rank_pos {pc : Pc T} (h : pc.accesses = true) : 0 < pc.rank cap := by
  cases pc with
  | idle => cases h
  | push value pc => cases pc <;> simp [Pc.rank]
  | pop pc => cases pc <;> simp [Pc.rank]
  | pushBatch values pc => cases pc <;> simp [Pc.rank]
  | popBatch n pc => cases pc <;> simp [Pc.rank]

theorem Call.rank_entry_le (c : Call T) : c.entry.rank cap ≤ 3 * cap + 8 := by
  cases c <;> simp only [Call.entry, Pc.rank] <;> omega

theorem program_rank (hcap_lt : cap < 2 ^ w) (hg : Good cap sh) (hw : sh.written < 2 ^ w)
    (h : ThreadOk t sh l) (hstep : program w t sh l .step = some (sh', l')) :
    l'.pc.rank cap + (if l.pc.accesses then 3 else 1) ≤ l.pc.rank cap := by
  obtain ⟨hp, hk⟩ := h
  have hle := hg.head_le_tail
  have hroom := hg.tail_le
  rcases program_step_cases hstep with ⟨value, pc, next, hpc, hnext, rfl⟩ |
    ⟨pc, next, hpc, hnext, rfl⟩ | ⟨values, pc, next, hpc, hnext, rfl⟩ |
    ⟨n, pc, next, hpc, hnext, rfl⟩ <;> rw [hpc] at hp hk ⊢
  · cases pc with
    | lock =>
      obtain ⟨sh₁, hlock, heq⟩ := Option.map_eq_some_iff.mp hnext
      cases heq
      simp [Local.after, Pc.rank, Pc.accesses]
    | loadHead tail =>
      simp only [pushStep] at hnext
      split at hnext <;> cases hnext <;> simp [Local.after, Pc.rank, Pc.accesses]
    | _ =>
      cases hnext
      simp [Local.after, Pc.rank, Pc.accesses]
  · cases pc with
    | lock =>
      obtain ⟨sh₁, hlock, heq⟩ := Option.map_eq_some_iff.mp hnext
      cases heq
      simp [Local.after, Pc.rank, Pc.accesses]
    | loadTail head =>
      simp only [popStep] at hnext
      split at hnext <;> cases hnext <;> simp [Local.after, Pc.rank, Pc.accesses]
    | _ =>
      cases hnext
      simp [Local.after, Pc.rank, Pc.accesses]
  · cases pc with
    | lock =>
      obtain ⟨sh₁, hlock, heq⟩ := Option.map_eq_some_iff.mp hnext
      cases heq
      simp [Local.after, Pc.rank, Pc.accesses]
    | loadHead tail =>
      -- the space left is at most the capacity
      obtain ⟨_, _, rfl⟩ := hp
      have hsub : Word.sub w sh.capacity (sh.tail - sh.head) = cap - (sh.tail - sh.head) := by
        rw [hg.capacity_eq]
        exact Word.sub_of_le (by omega) hcap_lt
      simp only [pushBatchStep, hg.sub_eq hw, hsub] at hnext
      cases hnext
      simp only [Local.after, Pc.rank, Pc.accesses, Bool.false_eq_true, if_false]
      omega
    | loop tail available pushed =>
      simp only [pushBatchStep] at hnext
      simp only [Pc.rank, Pc.accesses]
      split at hnext
      · next value hvalue =>
        have hlt : pushed < available := by
          by_contra hge
          simp [hge] at hvalue
        cases hnext
        simp only [Local.after, hvalue, Option.isSome_some, if_true]
        omega
      · next hvalue =>
        cases hnext
        simp [Local.after, hvalue]
    | _ =>
      cases hnext
      simp [Local.after, Pc.rank, Pc.accesses]
  · cases pc with
    | lock =>
      obtain ⟨sh₁, hlock, heq⟩ := Option.map_eq_some_iff.mp hnext
      cases heq
      simp [Local.after, Pc.rank, Pc.accesses]
    | loadTail head =>
      obtain ⟨_, _, rfl⟩ := hk
      simp only [popBatchStep, hg.sub_eq hw] at hnext
      cases hnext
      have hmin := Nat.min_le_right n (sh.tail - sh.head)
      simp only [Local.after, Pc.rank, Pc.accesses, Bool.false_eq_true, if_false]
      omega
    | loop head items i values =>
      simp only [popBatchStep] at hnext
      simp only [Pc.rank, Pc.accesses]
      split at hnext
      · next hlt =>
        cases hnext
        simp only [Local.after, hlt, decide_true, if_true]
        omega
      · next hge =>
        cases hnext
        simp [Local.after, hge]
    | _ =>
      cases hnext
      simp [Local.after, Pc.rank, Pc.accesses]

end Rank

def Act.isStep : Act T → Bool
  | .call _ => false
  | .step => true

section Termination

variable [DecidableEq ι] {s s' : GuardedState ι T} {t : ι} {as : List (ι × Act T)}

/-- What holds along a run that pushes fewer than `2 ^ w` values. -/
structure GuardedOk (cap : Nat) (s : GuardedState ι T) : Prop where
  queue : Inv cap (erase s)
  locks : LocksOk s

omit [DecidableEq ι] in
theorem guardedOk_init (cap : Nat) : GuardedOk cap (guardedInit cap : GuardedState ι T) :=
  ⟨inv_init cap, locksOk_init cap⟩

theorem GuardedOk.step {a : ι × Act T} (h : GuardedOk cap s) (hcap_lt : cap < 2 ^ w)
    (hw : s.shared.queue.written < 2 ^ w) (hstep : guardedStep w s a = some s') :
    GuardedOk cap s' := by
  refine ⟨?_, h.locks.step hstep⟩
  rcases erase_step hstep with hsame | herased
  · rw [hsame]
    exact h.queue
  · exact step_inv hcap_lt hw h.queue herased

/-- A step of a thread uses up one of the steps that its call still has to take. -/
theorem GuardedOk.rank_step (h : GuardedOk cap s) (hcap_lt : cap < 2 ^ w)
    (hw : s.shared.queue.written < 2 ^ w) (hstep : guardedStep w s (t, .step) = some s') :
    (s'.loc t).rank cap + 1 ≤ (s.loc t).rank cap := by
  obtain ⟨sh, l, hp, rfl⟩ := interleave_eq_some.mp hstep
  have hphaseOk := h.locks.phases t
  have hcalled : ∀ queue call, program w t s.shared.queue (s.loc t).call .step =
      some (queue, call) → call.pc.rank cap +
        (if (s.loc t).call.pc.accesses then 3 else 1) ≤ (s.loc t).call.pc.rank cap :=
    fun queue call => program_rank hcap_lt h.queue.1 hw (h.queue.2 t)
  show (Function.update s.loc t l t).rank cap + 1 ≤ (s.loc t).rank cap
  rw [Function.update_self]
  cases guardedProgram_effect hp with
  | plain _ queue call hphase haccess hcall =>
    have := hcalled queue call hcall
    simpa [GuardedLocal.rank, hphase, haccess] using this
  | acquire hphase haccess hfree =>
    have hpos : 0 < (s.loc t).call.pc.rank cap := Pc.rank_pos haccess
    simp only [GuardedLocal.rank, hphase]
    omega
  | access _ queue call hphase hcall =>
    have haccess : (s.loc t).call.pc.accesses = true := by
      rwa [GuardedLocal.PhaseOk, hphase] at hphaseOk
    have := hcalled queue call hcall
    simp only [haccess, if_true] at this
    simp only [GuardedLocal.rank, hphase]
    omega
  | release hphase =>
    simp only [GuardedLocal.rank, hphase]
    omega

theorem GuardedOk.rank_call {c : Call T} (h : GuardedOk cap s)
    (hstep : guardedStep w s (t, .call c) = some s') : (s'.loc t).rank cap ≤ 3 * cap + 8 := by
  obtain ⟨sh, l, hp, rfl⟩ := interleave_eq_some.mp hstep
  have hphaseOk := h.locks.phases t
  show (Function.update s.loc t l t).rank cap ≤ 3 * cap + 8
  rw [Function.update_self]
  cases guardedProgram_effect hp with
  | plain _ queue call hphase haccess hcall =>
    obtain ⟨_, _, rfl⟩ := program_call_cases hcall
    exact c.rank_entry_le
  | access _ queue call hphase hcall =>
    -- a thread in an access is inside a call
    obtain ⟨hidle, _⟩ := program_call_cases hcall
    simp [GuardedLocal.PhaseOk, hphase, hidle, Pc.accesses] at hphaseOk

theorem ownSteps_le (hcap_lt : cap < 2 ^ w)
    (hrun : run (guardedStep w) (guardedInit cap) as = some s)
    (hw : s.shared.queue.written < 2 ^ w) (t : ι) :
    as.countP (ownLabel Act.isStep t) ≤
      (3 * cap + 8) * as.countP (ownLabel (fun a => !a.isStep) t) := by
  have hbound := along_of_bound (μ := fun s : GuardedState ι T => s.shared.queue.written)
    (fun _ _ _ => guardedStep_written_le) hrun hw
  have hown := run_own_le (t := t) (p := Act.isStep) (r := GuardedLocal.rank cap) (b := 3 * cap + 8)
    (fun _ _ _ hm hlt hstep => GuardedOk.step hm hcap_lt hlt hstep)
    (fun m a m' ha hm hlt hstep => ?_)
    (fun m a m' ha hm _ hstep => ?_) (guardedOk_init cap) hbound hrun
  · have hinit : ((guardedInit cap : GuardedState ι T).loc t).rank cap = 0 := rfl
    omega
  · cases a with
    | call c => cases ha
    | step => exact hm.rank_step hcap_lt hlt hstep
  · cases a with
    | call c => exact hm.rank_call hstep
    | step => cases ha

/-- **No call of the default bounded queue hangs.**  While a thread is inside a call some thread
    inside a call can take its next step, and as long as fewer than `2 ^ w` values have been written
    a thread takes at most `3 * capacity + 8` steps for each of its calls, whatever the others do
    meanwhile. -/
theorem guarded_terminates (capacity : Capacity w)
    (hrun : run (guardedStep w) (guardedInit capacity.val) as = some s) :
    (∀ t, (s.loc t).call.pc ≠ .idle → ∃ u, (s.loc u).call.pc ≠ .idle ∧
      ∃ s', guardedStep w s (u, .step) = some s') ∧
      (s.shared.queue.written < 2 ^ w → ∀ t, as.countP (ownLabel Act.isStep t) ≤
        (3 * capacity.val + 8) * as.countP (ownLabel (fun a => !a.isStep) t)) :=
  ⟨fun _ ht => (locksOk_of_run hrun).no_deadlock w ht, ownSteps_le capacity.lt hrun⟩

theorem guarded_terminates_contended :
    ∃ s, run (guardedStep 64) (guardedInit 2) contended = some s ∧
      guardedStep 64 s (true, .step) = none ∧
      (∃ u, (s.loc u).call.pc ≠ .idle ∧ ∃ s', guardedStep 64 s (u, .step) = some s') ∧
      contended.countP (ownLabel Act.isStep false) ≤
        14 * contended.countP (ownLabel (fun a => !a.isStep) false) := by
  have hrun : (run (guardedStep 64) (guardedInit 2) contended).map (fun s =>
      ((s.loc true).call.pc.accesses, (guardedStep 64 s (true, .step)).isNone,
        s.shared.queue.written)) = some (true, true, 1) := rfl
  obtain ⟨s, hs, heq⟩ := Option.map_eq_some_iff.mp hrun
  simp only [Prod.mk.injEq, Option.isNone_iff_eq_none] at heq
  obtain ⟨haccess, hwaits, hwritten⟩ := heq
  obtain ⟨hable, hsteps⟩ := guarded_terminates ⟨2, by decide, by decide⟩ hs
  refine ⟨s, hs, hwaits, hable true ?_, hsteps (by omega) false⟩
  intro hidle
  rw [hidle] at haccess
  cases haccess

end Termination

end VelocityX.MpmcSimple.Threads
