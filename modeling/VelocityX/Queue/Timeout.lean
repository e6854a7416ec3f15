import VelocityX.Lib.Retry
import VelocityX.Queue.Mpmc
import VelocityX.Queue.MpmcSimple

/-!
# Pushing and popping with a timeout

`push_with_timeout` and `pop_with_timeout` of both bounded queues.  The four functions
are the loop of `Retry` around `push` or `pop`, with a first sleep of 100 or 50 ns that
doubles up to 1 ms.  `found k` is the queue as attempt `k` finds it: between two attempts
the other threads may do anything to it.  `clock` gives the successive readings of
`start.elapsed()`.
-/

namespace VelocityX

open Retry

variable {T : Type*} {w : Nat}

/-- The timer of a push: `Duration::from_nanos(100)`, up to `Duration::from_millis(1)`. -/
def pushTimer (clock : Nat → Nat) (timeout : Nat) : Timer := ⟨clock, timeout, 100, 1000000⟩

def popTimer (clock : Nat → Nat) (timeout : Nat) : Timer := ⟨clock, timeout, 50, 1000000⟩

namespace MpmcSimple.MpmcQueue

/-- `self.push(value_factory())`: only `WouldBlock` is tried again. -/
def pushAttempt (w : Nat) (valueFactory : Nat → T) (k : Nat) (q : MpmcQueue T) :
    Outcome (Except Error Unit) × MpmcQueue T :=
  match q.push w (valueFactory k) with
  | (.ok (), q') => (.done (.ok ()), q')
  | (.error .wouldBlock, q') => (.again, q')
  | (.error e, q') => (.done (.error e), q')

def pushWithTimeout (w : Nat) (clock : Nat → Nat) (found : Nat → MpmcQueue T) (timeout : Nat)
    (valueFactory : Nat → T) (fuel : Nat) : Option (Run (MpmcQueue T) (Except Error Unit)) :=
  loop (pushTimer clock timeout) (pushAttempt w valueFactory) found (.error .timeout) fuel 0 100

def popAttempt (w : Nat) (_k : Nat) (q : MpmcQueue T) : Outcome (Option T) × MpmcQueue T :=
  match q.pop w with
  | (some value, q') => (.done (some value), q')
  | (none, q') => (.again, q')

def popWithTimeout (w : Nat) (clock : Nat → Nat) (found : Nat → MpmcQueue T) (timeout : Nat)
    (fuel : Nat) : Option (Run (MpmcQueue T) (Option T)) :=
  loop (popTimer clock timeout) (popAttempt w) found none fuel 0 50

/-- `after` is `before` with `value` enqueued. -/
def Stored (w : Nat) (before after : MpmcQueue T) (value : T) : Prop :=
  after = { before with buffer := before.buffer.set (before.index before.tail) (some value),
                        tail := Word.add w before.tail 1 }

/-- `after` is `before` with `value` dequeued. -/
def Taken (w : Nat) (before after : MpmcQueue T) (value : T) : Prop :=
  before.buffer[before.index before.head]? = some (some value) ∧
    after = { before with buffer := before.buffer.set (before.index before.head) none,
                          head := Word.add w before.head 1 }

end MpmcSimple.MpmcQueue

namespace Mpmc.MpmcQueue

/-- `self.push(value.clone())`: only `CapacityExceeded` is tried again. -/
def pushAttempt (w : Nat) (value : T) (_k : Nat) (q : MpmcQueue T) :
    Outcome (Except Error Unit) × MpmcQueue T :=
  match q.push w value with
  | (.ok (), q') => (.done (.ok ()), q')
  | (.error (.returned .capacityExceeded), q') => (.again, q')
  | (.error (.returned e), q') => (.done (.error e), q')
  | (.error .indexOutOfBounds, q') => (.panicked, q')

def pushWithTimeout (w : Nat) (clock : Nat → Nat) (found : Nat → MpmcQueue T) (value : T)
    (timeout : Nat) (fuel : Nat) : Option (Run (MpmcQueue T) (Except Error Unit)) :=
  loop (pushTimer clock timeout) (pushAttempt w value) found (.error .timeout) fuel 0 100

def popAttempt (w : Nat) (_k : Nat) (q : MpmcQueue T) : Outcome (Option T) × MpmcQueue T :=
  match q.pop w with
  | (some value, q') => (.done (some value), q')
  | (none, q') => (.again, q')

def popWithTimeout (w : Nat) (clock : Nat → Nat) (found : Nat → MpmcQueue T) (timeout : Nat)
    (fuel : Nat) : Option (Run (MpmcQueue T) (Option T)) :=
  loop (popTimer clock timeout) (popAttempt w) found none fuel 0 50

def Stored (w : Nat) (before after : MpmcQueue T) (value : T) : Prop :=
  after = { before with buffer := before.buffer.set (before.index before.tail) (some value),
                        tail := Word.add w before.tail 1,
                        generation := Word.add 64 before.generation 1 }

def Taken (w : Nat) (before after : MpmcQueue T) (value : T) : Prop :=
  before.buffer[before.index before.head]? = some (some value) ∧
    after = { before with buffer := before.buffer.set (before.index before.head) none,
                          head := Word.add w before.head 1,
                          generation := Word.add 64 before.generation 1 }

end Mpmc.MpmcQueue

/-! ### What a call reports

`kept` says that an attempt moved no value, and `effect result` what the attempt that
ends a call with `result` does. -/

section Reports

variable {S R : Type*}

variable {kept : S → S → Prop} {effect : R → Nat → S → S → Prop} {expired : R}

/-- What the attempts of a loop must do for its calls to report them. -/
structure Faithful (attempt : Nat → S → Outcome R × S) (kept : S → S → Prop)
    (effect : R → Nat → S → S → Prop) (expired : R) : Prop where
  again : ∀ {k before after}, attempt k before = (.again, after) → kept before after
  done : ∀ {k before after result}, attempt k before = (.done result, after) →
    effect result k before after
  moved : ∀ {k before after result}, effect result k before after →
    ¬ kept before after ∧ result ≠ expired
  unique : ∀ {k before after r₁ r₂}, effect r₁ k before after → effect r₂ k before after → r₁ = r₂

variable {attempt : Nat → S → Outcome R × S} {run : Run S R}

end Reports

/-! ### The four functions -/

section Attempts

variable {S : Type*} {t : Timer} {found : Nat → S} {busy : S → Prop}

end Attempts

namespace MpmcSimple.MpmcQueue

variable {q q' : MpmcQueue T}

/-- A push finds no room. -/
def IsFull (w : Nat) (q : MpmcQueue T) : Prop := q.capacity ≤ q.len w

/-- A pop finds nothing: the queue is empty or its first slot holds no value. -/
def NothingToPop (q : MpmcQueue T) : Prop :=
  q.head = q.tail ∨ q.buffer[q.index q.head]?.join = none

theorem pushAttempt_cases (w : Nat) (valueFactory : Nat → T) (k : Nat) (q : MpmcQueue T) :
    (q.IsFull w ∧ pushAttempt w valueFactory k q = (.again, q)) ∨
    (¬ q.IsFull w ∧ ∃ q', pushAttempt w valueFactory k q = (.done (.ok ()), q') ∧
      Stored w q q' (valueFactory k)) := by
  by_cases hfull : q.IsFull w
  · have hpush : q.push w (valueFactory k) = (.error .wouldBlock, q) := if_pos hfull
    exact Or.inl ⟨hfull, by rw [pushAttempt, hpush]⟩
  · have hpush : q.push w (valueFactory k) = (.ok (), _) := if_neg hfull
    exact Or.inr ⟨hfull, _, by rw [pushAttempt, hpush], rfl⟩

theorem popAttempt_cases (w k : Nat) (q : MpmcQueue T) :
    (q.NothingToPop ∧ ∃ q', popAttempt w k q = (.again, q') ∧ q'.buffer = q.buffer) ∨
    (¬ q.NothingToPop ∧ ∃ value q', popAttempt w k q = (.done (some value), q') ∧
      Taken w q q' value) := by
  unfold popAttempt pop NothingToPop
  by_cases hempty : q.head = q.tail
  · rw [if_pos hempty]
    exact Or.inl ⟨Or.inl hempty, q, rfl, rfl⟩
  · rw [if_neg hempty]
    cases hslot : q.buffer[q.index q.head]?.join with
    | none => exact Or.inl ⟨Or.inr rfl, _, rfl, Ring.set_none_of_join hslot⟩
    | some value =>
      refine Or.inr ⟨?_, value, _, rfl, Option.join_eq_some_iff.mp hslot, rfl⟩
      rintro (h | h)
      · exact hempty h
      · cases h

end MpmcSimple.MpmcQueue

namespace Mpmc.MpmcQueue

variable {q q' : MpmcQueue T}

/-- The full test of `push`. -/
def IsFull (w : Nat) (q : MpmcQueue T) : Prop := Word.add w q.tail 1 &&& q.mask = q.head

/-- The slot that a push would write is one of the buffer. -/
def TailInBounds (q : MpmcQueue T) : Prop := q.index q.tail < q.buffer.length

def NothingToPop (q : MpmcQueue T) : Prop :=
  q.head = q.tail ∨ q.buffer[q.index q.head]?.join = none

theorem pushAttempt_cases (w : Nat) (value : T) (k : Nat) (q : MpmcQueue T) :
    (q.IsFull w ∧ pushAttempt w value k q = (.again, q)) ∨
    (¬ q.IsFull w ∧ ¬ q.TailInBounds ∧ pushAttempt w value k q = (.panicked, q)) ∨
    (¬ q.IsFull w ∧ q.TailInBounds ∧ ∃ q', pushAttempt w value k q = (.done (.ok ()), q') ∧
      Stored w q q' value) := by
  by_cases hfull : q.IsFull w
  · have hpush : q.push w value = (.error (.returned .capacityExceeded), q) := if_pos hfull
    exact Or.inl ⟨hfull, by rw [pushAttempt, hpush]⟩
  · by_cases hslot : q.TailInBounds
    · have hpush : q.push w value = (.ok (), _) := (if_neg hfull).trans (if_pos hslot)
      exact Or.inr (Or.inr ⟨hfull, hslot, _, by rw [pushAttempt, hpush], rfl⟩)
    · have hpush : q.push w value = (.error .indexOutOfBounds, q) :=
        (if_neg hfull).trans (if_neg hslot)
      exact Or.inr (Or.inl ⟨hfull, hslot, by rw [pushAttempt, hpush]⟩)

theorem popAttempt_cases (w k : Nat) (q : MpmcQueue T) :
    (q.NothingToPop ∧ ∃ q', popAttempt w k q = (.again, q') ∧ q'.buffer = q.buffer) ∨
    (¬ q.NothingToPop ∧ ∃ value q', popAttempt w k q = (.done (some value), q') ∧
      Taken w q q' value) := by
  unfold popAttempt pop NothingToPop
  by_cases hempty : q.head = q.tail
  · rw [if_pos hempty]
    exact Or.inl ⟨Or.inl hempty, q, rfl, rfl⟩
  · rw [if_neg hempty]
    cases hslot : q.buffer[q.index q.head]?.join with
    | none => exact Or.inl ⟨Or.inr rfl, q, rfl, rfl⟩
    | some value =>
      refine Or.inr ⟨?_, value, _, rfl, Option.join_eq_some_iff.mp hslot, rfl⟩
      rintro (h | h)
      · exact hempty h
      · cases h

end Mpmc.MpmcQueue

/-! ### When the calls return -/

end VelocityX
