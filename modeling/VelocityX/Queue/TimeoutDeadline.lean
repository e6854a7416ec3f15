import VelocityX.Queue.Timeout

/-!
# The deadline of a push or pop with a timeout

The retry loops of `push_with_timeout` and `pop_with_timeout` of the default queue in
`src/queue/mpmc_simple.rs`, against a clock that does not go back and that `thread::sleep`
advances by at least the requested time.  The other threads may do anything between two attempts.
A call may still panic, when a second clock reading is past the timeout.
-/

namespace VelocityX

open Retry

variable {T : Type*} {w : Nat}

namespace MpmcSimple.MpmcQueue

theorem pushAttempt_again_iff (w : Nat) (valueFactory : Nat → T) (k : Nat) (q : MpmcQueue T) :
    (pushAttempt w valueFactory k q).1 = .again ↔ q.IsFull w := by
  rcases pushAttempt_cases w valueFactory k q with ⟨hfull, hagain⟩ | ⟨hroom, _, hdone, _⟩
  · rw [hagain]
    exact iff_of_true rfl hfull
  · rw [hdone]
    exact iff_of_false nofun hroom

theorem popAttempt_again_iff (w k : Nat) (q : MpmcQueue T) :
    (popAttempt w k q).1 = .again ↔ q.NothingToPop := by
  rcases popAttempt_cases w k q with ⟨hnothing, _, hagain, _⟩ | ⟨hvalue, _, _, hdone, _⟩
  · rw [hagain]
    exact iff_of_true rfl hnothing
  · rw [hdone]
    exact iff_of_false nofun hvalue

end MpmcSimple.MpmcQueue

/-- The first sleep of a push, 100 ns, reaches 1 ms with the 14th doubling. -/
theorem pushTimer_doublings (clock : Nat → Nat) (timeout : Nat) :
    (pushTimer clock timeout).doublings = 14 := by
  have hiff := (pushTimer clock timeout).doublings_le_iff (by decide : 0 < 100)
  have hle := (hiff 14).mpr (by decide : 1000000 ≤ 100 * 2 ^ 14)
  have hgt := mt (hiff 13).mp (by decide : ¬ 1000000 ≤ 100 * 2 ^ 13)
  omega

/-- The first sleep of a pop, 50 ns, reaches 1 ms with the 15th doubling. -/
theorem popTimer_doublings (clock : Nat → Nat) (timeout : Nat) :
    (popTimer clock timeout).doublings = 15 := by
  have hiff := (popTimer clock timeout).doublings_le_iff (by decide : 0 < 50)
  have hle := (hiff 15).mpr (by decide : 1000000 ≤ 50 * 2 ^ 15)
  have hgt := mt (hiff 14).mp (by decide : ¬ 1000000 ≤ 50 * 2 ^ 14)
  omega

/-- The call ends after enough rounds, and whatever number of rounds it takes, it keeps to the
    timer. -/
def KeepsDeadline {S R : Type*} (t : Timer) (call : Nat → Option (Run S R)) : Prop :=
  (∀ fuel, t.doublings + t.timeout / t.longest + 2 < fuel → (call fuel).isSome) ∧
    ∀ fuel run, call fuel = some run → t.Keeps run

theorem keepsDeadline_loop {S R : Type*} {t : Timer} {attempt : Nat → S → Outcome R × S}
    {found : Nat → S} {expired : R} {busy : Nat → Prop}
    (hbusy : ∀ k, (attempt k (found k)).1 = .again ↔ busy k) (hpos : 0 < t.initial)
    (hle : t.initial ≤ t.longest) (hclock : ∀ i j, i ≤ j → t.clock i ≤ t.clock j)
    (hsleep : t.SleepsAdvance busy) :
    KeepsDeadline t fun fuel => loop t attempt found expired fuel 0 t.initial := by
  constructor
  · intro fuel hfuel
    exact (loop_keeps hbusy hpos hle hclock hsleep fuel).1 (by omega)
  · intro fuel run hrun
    exact (loop_keeps hbusy hpos hle hclock hsleep fuel).2 run hrun

/-- **Calls with a timeout keep their deadline.**  On a clock that does not go back, and that the
    sleeps of the call advance, a push and a pop both end.  Their `k`-th sleep is the first one
    doubled `k` times, at most 1 ms; each sleep fits into what is left of the timeout; and there are
    at most two attempts more than doublings up to 1 ms and milliseconds in the timeout. -/
theorem timeouts_keep_deadline (clock : Nat → Nat) (hclock : ∀ i j, i ≤ j → clock i ≤ clock j)
    (timeout : Nat) (found : Nat → MpmcSimple.MpmcQueue T) (valueFactory : Nat → T) :
    ((pushTimer clock timeout).doublings = 14 ∧ (popTimer clock timeout).doublings = 15) ∧
    ((pushTimer clock timeout).SleepsAdvance (fun k => (found k).IsFull w) →
      KeepsDeadline (pushTimer clock timeout)
        (MpmcSimple.MpmcQueue.pushWithTimeout w clock found timeout valueFactory)) ∧
    ((popTimer clock timeout).SleepsAdvance (fun k => (found k).NothingToPop) →
      KeepsDeadline (popTimer clock timeout)
        (MpmcSimple.MpmcQueue.popWithTimeout w clock found timeout)) := by
  refine ⟨⟨pushTimer_doublings clock timeout, popTimer_doublings clock timeout⟩, ?_, ?_⟩
  · intro hsleep
    exact keepsDeadline_loop
      (fun k => MpmcSimple.MpmcQueue.pushAttempt_again_iff w valueFactory k (found k))
      (by decide : 0 < 100) (by decide : 100 ≤ 1000000) hclock hsleep
  · intro hsleep
    exact keepsDeadline_loop (fun k => MpmcSimple.MpmcQueue.popAttempt_again_iff w k (found k))
      (by decide : 0 < 50) (by decide : 50 ≤ 1000000) hclock hsleep

/-- A push on a full queue with a clock that goes on by 1 ms between any two readings. -/
theorem timeouts_keep_deadline_fullQueue :
    KeepsDeadline (pushTimer (fun n => 1000000 * n) 5000000)
      (MpmcSimple.MpmcQueue.pushWithTimeout 64 (fun n => 1000000 * n)
        (fun _ => ⟨[some 7], 1, 0, 1⟩) 5000000 fun k => k) := by
  refine (timeouts_keep_deadline (fun n => 1000000 * n)
    (fun i j hij => Nat.mul_le_mul_left 1000000 hij) 5000000 (fun _ => ⟨[some 7], 1, 0, 1⟩)
    fun k => k).2.1 ?_
  intro k _
  rw [Timer.backoff_eq (by decide : 100 ≤ 1000000)]
  have hlongest : min (100 * 2 ^ k) 1000000 ≤ 1000000 := Nat.min_le_right _ _
  show 1000000 * (2 * k + 1) + min (100 * 2 ^ k) 1000000 ≤ 1000000 * (2 * (k + 1))
  omega

end VelocityX
