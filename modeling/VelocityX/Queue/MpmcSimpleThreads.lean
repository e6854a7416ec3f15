import VelocityX.Error
import VelocityX.Lib.Ring
import VelocityX.Lib.Transition
import VelocityX.Lib.Word

/-!
# The default bounded queue under interleaving

Any number of threads run `push`, `pop`, `push_batch` and `pop_batch` of
`src/queue/mpmc_simple.rs` on one queue.  A step is one acquisition or release of
`push_lock` or `pop_lock`, one load or store of `head` or `tail`, or one access to
the buffer under the buffer lock.  Steps are sequentially consistent and index
arithmetic is that of `w`-bit words.

The shared state carries ghost logs that no step reads.  `accepted` and `returned`
list the values, with the thread that moved them, in the order of the stores to
`tail` and to `head`; `staged` and `taken` are the values written to and taken from
the buffer since the last such store; `written` counts the writes to the buffer.
Each thread also logs the calls it has completed with their results.
-/

namespace VelocityX.MpmcSimple.Threads

open Transition

variable {ι T : Type*} {w : Nat}

/-! ### Shared memory -/

structure Shared (ι T : Type*) where
  buffer : List (Option T)
  capacity : Nat
  head : Nat
  tail : Nat
  pushLock : Option ι
  popLock : Option ι
  accepted : List (ι × T)
  returned : List (ι × T)
  staged : List T
  taken : List T
  written : Nat

namespace Shared

def new (capacity : Nat) : Shared ι T :=
  ⟨List.replicate capacity none, capacity, 0, 0, none, none, [], [], [], [], 0⟩

def lockPush (sh : Shared ι T) (t : ι) : Option (Shared ι T) :=
  if sh.pushLock = none then some { sh with pushLock := some t } else none

def unlockPush (sh : Shared ι T) : Shared ι T := { sh with pushLock := none }

def lockPop (sh : Shared ι T) (t : ι) : Option (Shared ι T) :=
  if sh.popLock = none then some { sh with popLock := some t } else none

def unlockPop (sh : Shared ι T) : Shared ι T := { sh with popLock := none }

/-- `buffer[position % capacity] = Some(value)`, under the buffer lock. -/
def writeSlot (sh : Shared ι T) (position : Nat) (value : T) : Shared ι T :=
  { sh with buffer := sh.buffer.set (position % sh.capacity) (some value),
            staged := sh.staged ++ [value], written := sh.written + 1 }

/-- `buffer[position % capacity].take()`, under the buffer lock. -/
def takeSlot (sh : Shared ι T) (position : Nat) : Option T × Shared ι T :=
  let value := sh.buffer[position % sh.capacity]?.join
  (value, { sh with buffer := sh.buffer.set (position % sh.capacity) none,
                    taken := sh.taken ++ value.toList })

/-- The store to `tail` by which thread `t` publishes `values`. -/
def storeTail (sh : Shared ι T) (t : ι) (tail : Nat) (values : List T) : Shared ι T :=
  { sh with tail := tail, accepted := sh.accepted ++ values.map (t, ·), staged := [] }

/-- The store to `head` by which thread `t` publishes the removal of `values`. -/
def storeHead (sh : Shared ι T) (t : ι) (head : Nat) (values : List T) : Shared ι T :=
  { sh with head := head, returned := sh.returned ++ values.map (t, ·), taken := [] }

end Shared

/-! ### The four operations, one step at a time -/

inductive PushPc where
  | lock
  | loadTail
  | loadHead (tail : Nat)
  | write (tail : Nat)
  | storeTail (tail : Nat)
  | unlock (result : Except Error Unit)

def pushStep (w : Nat) (t : ι) (value : T) (sh : Shared ι T) :
    PushPc → Option (Shared ι T × Next PushPc (Except Error Unit))
  | .lock => (sh.lockPush t).map fun sh' => (sh', .goto .loadTail)
  | .loadTail => some (sh, .goto (.loadHead sh.tail))
  | .loadHead tail =>
      if sh.capacity ≤ Word.sub w tail sh.head then
        some (sh, .goto (.unlock (.error .wouldBlock)))
      else
        some (sh, .goto (.write tail))
  | .write tail => some (sh.writeSlot tail value, .goto (.storeTail tail))
  | .storeTail tail =>
      some (sh.storeTail t (Word.add w tail 1) [value], .goto (.unlock (.ok ())))
  | .unlock result => some (sh.unlockPush, .ret result)

inductive PopPc (T : Type*) where
  | lock
  | loadHead
  | loadTail (head : Nat)
  | take (head : Nat)
  | storeHead (head : Nat) (value : Option T)
  | unlock (value : Option T)

def popStep (w : Nat) (t : ι) (sh : Shared ι T) :
    PopPc T → Option (Shared ι T × Next (PopPc T) (Option T))
  | .lock => (sh.lockPop t).map fun sh' => (sh', .goto .loadHead)
  | .loadHead => some (sh, .goto (.loadTail sh.head))
  | .loadTail head =>
      if head = sh.tail then some (sh, .goto (.unlock none)) else some (sh, .goto (.take head))
  | .take head =>
      let r := sh.takeSlot head
      some (r.2, .goto (.storeHead head r.1))
  | .storeHead head value =>
      some (sh.storeHead t (Word.add w head 1) value.toList, .goto (.unlock value))
  | .unlock value => some (sh.unlockPop, .ret value)

inductive PushBatchPc where
  | lock
  | loadTail
  | loadHead (tail : Nat)
  | loop (tail available pushed : Nat)
  | unlock (pushed : Nat)

/-- The first `n` values of an iterator that yields that many. -/
def firstValues (values : Nat → Option T) (n : Nat) : List T :=
  (List.range n).filterMap values

def pushBatchStep (w : Nat) (t : ι) (values : Nat → Option T) (sh : Shared ι T) :
    PushBatchPc → Option (Shared ι T × Next PushBatchPc Nat)
  | .lock => (sh.lockPush t).map fun sh' => (sh', .goto .loadTail)
  | .loadTail => some (sh, .goto (.loadHead sh.tail))
  | .loadHead tail =>
      some (sh, .goto (.loop tail (Word.sub w sh.capacity (Word.sub w tail sh.head)) 0))
  | .loop tail available pushed =>
      -- `take(available_space)` asks the iterator for no more than `available` values
      match if pushed < available then values pushed else none with
      | some value =>
          some (sh.writeSlot (Word.add w tail pushed) value,
            .goto (.loop tail available (pushed + 1)))
      | none =>
          some (sh.storeTail t (Word.add w tail pushed) (firstValues values pushed),
            .goto (.unlock pushed))
  | .unlock pushed => some (sh.unlockPush, .ret pushed)

inductive PopBatchPc (T : Type*) where
  | lock
  | loadHead
  | loadTail (head : Nat)
  | loop (head items i : Nat) (values : List T)
  | unlock (values : List T)

def popBatchStep (w : Nat) (t : ι) (maxValues : Nat) (sh : Shared ι T) :
    PopBatchPc T → Option (Shared ι T × Next (PopBatchPc T) (List T))
  | .lock => (sh.lockPop t).map fun sh' => (sh', .goto .loadHead)
  | .loadHead => some (sh, .goto (.loadTail sh.head))
  | .loadTail head =>
      some (sh, .goto (.loop head (min maxValues (Word.sub w sh.tail head)) 0 []))
  | .loop head items i values =>
      if i < items then
        let r := sh.takeSlot (Word.add w head i)
        some (r.2, .goto (.loop head items (i + 1) (values ++ r.1.toList)))
      else
        some (sh.storeHead t (Word.add w head items) values, .goto (.unlock values))
  | .unlock values => some (sh.unlockPop, .ret values)

/-! ### Threads -/

inductive Call (T : Type*) where
  | push (value : T)
  | pop
  | pushBatch (values : Nat → Option T)
  | popBatch (maxValues : Nat)

inductive Result (T : Type*) where
  | pushed (result : Except Error Unit)
  | popped (value : Option T)
  | pushedBatch (pushed : Nat)
  | poppedBatch (values : List T)

inductive Pc (T : Type*) where
  | idle
  | push (value : T) (pc : PushPc)
  | pop (pc : PopPc T)
  | pushBatch (values : Nat → Option T) (pc : PushBatchPc)
  | popBatch (maxValues : Nat) (pc : PopBatchPc T)

def Call.entry : Call T → Pc T
  | .push value => .push value .lock
  | .pop => .pop .lock
  | .pushBatch values => .pushBatch values .lock
  | .popBatch maxValues => .popBatch maxValues .lock

structure Local (T : Type*) where
  pc : Pc T
  history : List (Call T × Result T)

/-- Record the outcome of a step of a call in the state of its thread. -/
def Local.after {P R : Type*} (l : Local T) (c : Call T) (inside : P → Pc T)
    (result : R → Result T) : Next P R → Local T
  | .goto pc => { l with pc := inside pc }
  | .ret r => ⟨.idle, l.history ++ [(c, result r)]⟩

/-- An idle thread may call an operation; a thread inside a call takes its next step. -/
inductive Act (T : Type*) where
  | call (c : Call T)
  | step

def program (w : Nat) (t : ι) (sh : Shared ι T) (l : Local T) :
    Act T → Option (Shared ι T × Local T)
  | .call c =>
      match l.pc with
      | .idle => some (sh, { l with pc := c.entry })
      | _ => none
  | .step =>
      match l.pc with
      | .idle => none
      | .push value pc =>
          (pushStep w t value sh pc).map fun r =>
            (r.1, l.after (.push value) (.push value) .pushed r.2)
      | .pop pc =>
          (popStep w t sh pc).map fun r => (r.1, l.after .pop .pop .popped r.2)
      | .pushBatch values pc =>
          (pushBatchStep w t values sh pc).map fun r =>
            (r.1, l.after (.pushBatch values) (.pushBatch values) .pushedBatch r.2)
      | .popBatch maxValues pc =>
          (popBatchStep w t maxValues sh pc).map fun r =>
            (r.1, l.after (.popBatch maxValues) (.popBatch maxValues) .poppedBatch r.2)

/-- The step of a thread, read off the operation it is in. -/
theorem program_step_cases {t : ι} {sh sh' : Shared ι T} {l l' : Local T}
    (hstep : program w t sh l .step = some (sh', l')) :
    (∃ value pc next, l.pc = .push value pc ∧ pushStep w t value sh pc = some (sh', next) ∧
      l' = l.after (.push value) (.push value) .pushed next) ∨
    (∃ pc next, l.pc = .pop pc ∧ popStep w t sh pc = some (sh', next) ∧
      l' = l.after .pop .pop .popped next) ∨
    (∃ values pc next, l.pc = .pushBatch values pc ∧
      pushBatchStep w t values sh pc = some (sh', next) ∧
      l' = l.after (.pushBatch values) (.pushBatch values) .pushedBatch next) ∨
    (∃ maxValues pc next, l.pc = .popBatch maxValues pc ∧
      popBatchStep w t maxValues sh pc = some (sh', next) ∧
      l' = l.after (.popBatch maxValues) (.popBatch maxValues) .poppedBatch next) := by
  cases hpc : l.pc with
  | idle => simp [program, hpc] at hstep
  | push value pc =>
    simp only [program, hpc, Option.map_eq_some_iff, Prod.mk.injEq] at hstep
    obtain ⟨⟨_, next⟩, hnext, rfl, rfl⟩ := hstep
    exact Or.inl ⟨value, pc, next, rfl, hnext, rfl⟩
  | pop pc =>
    simp only [program, hpc, Option.map_eq_some_iff, Prod.mk.injEq] at hstep
    obtain ⟨⟨_, next⟩, hnext, rfl, rfl⟩ := hstep
    exact Or.inr (Or.inl ⟨pc, next, rfl, hnext, rfl⟩)
  | pushBatch values pc =>
    simp only [program, hpc, Option.map_eq_some_iff, Prod.mk.injEq] at hstep
    obtain ⟨⟨_, next⟩, hnext, rfl, rfl⟩ := hstep
    exact Or.inr (Or.inr (Or.inl ⟨values, pc, next, rfl, hnext, rfl⟩))
  | popBatch maxValues pc =>
    simp only [program, hpc, Option.map_eq_some_iff, Prod.mk.injEq] at hstep
    obtain ⟨⟨_, next⟩, hnext, rfl, rfl⟩ := hstep
    exact Or.inr (Or.inr (Or.inr ⟨maxValues, pc, next, rfl, hnext, rfl⟩))

theorem program_call_cases {t : ι} {sh sh' : Shared ι T} {l l' : Local T} {c : Call T}
    (hstep : program w t sh l (.call c) = some (sh', l')) :
    l.pc = .idle ∧ sh' = sh ∧ l' = { l with pc := c.entry } := by
  cases hpc : l.pc <;> simp only [program, hpc] at hstep <;> cases hstep
  exact ⟨rfl, rfl, rfl⟩

abbrev State (ι T : Type*) := Threads ι (Shared ι T) (Local T)

def init (capacity : Nat) : State ι T := ⟨Shared.new capacity, fun _ => ⟨.idle, []⟩⟩

abbrev step [DecidableEq ι] (w : Nat) : State ι T → ι × Act T → Option (State ι T) :=
  interleave (program w)

end VelocityX.MpmcSimple.Threads
