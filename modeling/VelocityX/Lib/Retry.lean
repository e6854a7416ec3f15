import Mathlib.Algebra.Group.Nat.Defs
import Mathlib.Data.List.Basic
import Mathlib.Data.Nat.Log

/-!
# Retrying until a deadline

A loop that attempts something until it succeeds or a timeout expires.  Each round
reads the clock in the loop guard, makes an attempt and, if that fails, reads the
clock again to see whether the next sleep still fits; the sleeps double up to a
longest one.  The subtraction of the second reading from the timeout panics when it
would be negative, and so may an attempt.

The attempts act on states of a type `S` that others change between the attempts:
`found k` is the state that attempt `k` finds.  Times are in nanoseconds.
-/

namespace Retry

variable {S R : Type*}

inductive Outcome (R : Type*) where
  | done (result : R)
  | again
  | panicked
deriving DecidableEq

inductive Exit (R : Type*) where
  | returned (result : R)
  | panicked
deriving DecidableEq

/-- A round of the loop: the state before and after its attempt, and the sleep after it. -/
structure Round (S : Type*) where
  before : S
  after : S
  slept : Option Nat

structure Run (S R : Type*) where
  exit : Exit R
  rounds : List (Round S)

def Run.cons (round : Round S) (run : Run S R) : Run S R :=
  { run with rounds := round :: run.rounds }

structure Timer where
  clock : Nat → Nat
  timeout : Nat
  initial : Nat
  longest : Nat

/-- The sleep after the failed attempt `k`. -/
def Timer.backoff (t : Timer) : Nat → Nat
  | 0 => t.initial
  | k + 1 => min (t.backoff k * 2) t.longest

/-- The difference of two durations; `none` is a panic. -/
def durationSub (a b : Nat) : Option Nat := if b ≤ a then some (a - b) else none

/-- The loop from round `k` on; `none` means that `fuel` rounds were not enough. -/
def loop (t : Timer) (attempt : Nat → S → Outcome R × S) (found : Nat → S) (expired : R) :
    Nat → Nat → Nat → Option (Run S R)
  | 0, _, _ => none
  | fuel + 1, k, backoff =>
      if t.clock (2 * k) < t.timeout then
        match attempt k (found k) with
        | (.done result, after) => some ⟨.returned result, [⟨found k, after, none⟩]⟩
        | (.panicked, after) => some ⟨.panicked, [⟨found k, after, none⟩]⟩
        | (.again, after) =>
            match durationSub t.timeout (t.clock (2 * k + 1)) with
            | none => some ⟨.panicked, [⟨found k, after, none⟩]⟩
            | some remaining =>
                if remaining < backoff then
                  some ⟨.returned expired, [⟨found k, after, none⟩]⟩
                else
                  (loop t attempt found expired fuel (k + 1) (min (backoff * 2) t.longest)).map
                    (Run.cons ⟨found k, after, some backoff⟩)
      else
        some ⟨.returned expired, []⟩

/-! ### What a run did -/

variable {t : Timer} {attempt : Nat → S → Outcome R × S} {found : Nat → S} {expired : R}

/-- Round `k` is followed by another one. -/
def Timer.Continues (t : Timer) (busy : Nat → Prop) (k : Nat) : Prop :=
  t.clock (2 * k) < t.timeout ∧ busy k ∧ t.clock (2 * k + 1) ≤ t.timeout ∧
    t.backoff k ≤ t.timeout - t.clock (2 * k + 1)

/-- The second reading of round `k` is past the timeout that the first one was below. -/
def Timer.Overruns (t : Timer) (busy : Nat → Prop) (k : Nat) : Prop :=
  t.clock (2 * k) < t.timeout ∧ busy k ∧ t.timeout < t.clock (2 * k + 1)

variable {busy : Nat → Prop}

variable (expired) in
theorem loop_of_continues {k : Nat} (hbusy : (attempt k (found k)).1 = .again)
    (hk : t.Continues busy k) (fuel : Nat) :
    ∃ after, attempt k (found k) = (.again, after) ∧
      loop t attempt found expired (fuel + 1) k (t.backoff k) =
        (loop t attempt found expired fuel (k + 1) (t.backoff (k + 1))).map
          (Run.cons ⟨found k, after, some (t.backoff k)⟩) := by
  rcases hk with ⟨hguard, _, hle, hfits⟩
  have hattempt : attempt k (found k) = (.again, (attempt k (found k)).2) := by
    rw [← hbusy]
  refine ⟨(attempt k (found k)).2, hattempt, ?_⟩
  conv_lhs => unfold loop
  rw [if_pos hguard, hattempt]
  simp only [durationSub, if_pos hle, if_neg (Nat.not_lt.mpr hfits)]
  rfl

variable (expired) in
/-- A round that no other follows ends the run, without a panic unless its attempt panics or it
    overruns. -/
theorem loop_of_not_continues {k : Nat} (hbusy : (attempt k (found k)).1 = .again ↔ busy k)
    (hk : ¬ t.Continues busy k) (fuel : Nat) :
    ∃ run, loop t attempt found expired (fuel + 1) k (t.backoff k) = some run ∧
      (run.exit = .panicked ↔ t.Overruns busy k ∨
        t.clock (2 * k) < t.timeout ∧ (attempt k (found k)).1 = .panicked) := by
  unfold loop
  by_cases hguard : t.clock (2 * k) < t.timeout
  · rw [if_pos hguard]
    rcases hattempt : attempt k (found k) with ⟨_ | _ | _, after⟩
    · next result =>
      rw [hattempt] at hbusy
      refine ⟨_, rfl, ?_, ?_⟩
      · intro h
        cases h
      · rintro (⟨_, hb, _⟩ | ⟨_, hpanicked⟩)
        · cases hbusy.mpr hb
        · cases hpanicked
    · rw [hattempt] at hbusy
      have hb : busy k := hbusy.mp rfl
      by_cases hle : t.clock (2 * k + 1) ≤ t.timeout
      · have hnot : ¬ (t.Overruns busy k ∨
            t.clock (2 * k) < t.timeout ∧ Outcome.again = (Outcome.panicked : Outcome R)) := by
          rintro (⟨_, _, hlt⟩ | ⟨_, hpanicked⟩)
          · omega
          · cases hpanicked
        have hshort : t.timeout - t.clock (2 * k + 1) < t.backoff k := by
          by_contra hfits
          exact hk ⟨hguard, hb, hle, Nat.not_lt.mp hfits⟩
        simp only [durationSub, if_pos hle, if_pos hshort]
        refine ⟨_, rfl, ?_, fun h => absurd h hnot⟩
        intro h
        cases h
      · simp only [durationSub, if_neg hle]
        exact ⟨_, rfl, fun _ => Or.inl ⟨hguard, hb, by omega⟩, fun _ => rfl⟩
    · exact ⟨_, rfl, fun _ => Or.inr ⟨hguard, rfl⟩, fun _ => rfl⟩
  · rw [if_neg hguard]
    refine ⟨_, rfl, ?_, fun h => absurd (h.elim And.left And.left) hguard⟩
    intro h
    cases h

/-- The doublings from the first sleep to the longest one. -/
def Timer.doublings (t : Timer) : Nat := Nat.clog 2 ((t.longest + t.initial - 1) / t.initial)

/-- The sum of the first `n` sleeps. -/
def Timer.total (t : Timer) : Nat → Nat
  | 0 => 0
  | n + 1 => t.total n + t.backoff n

/-- Each sleep that the loop makes advances the clock by at least its length. -/
def Timer.SleepsAdvance (t : Timer) (busy : Nat → Prop) : Prop :=
  ∀ k, (∀ j, j ≤ k → t.Continues busy j) → t.clock (2 * k + 1) + t.backoff k ≤ t.clock (2 * (k + 1))

/-- The sleeps of a run in their order. -/
def Run.sleeps (run : Run S R) : List Nat := run.rounds.filterMap Round.slept

/-- From round `k` on, `n` rounds sleep and go on, and at most one more follows. -/
structure Paced (t : Timer) (busy : Nat → Prop) (k n : Nat) (rounds : List (Round S)) : Prop where
  slept : ∀ i r, rounds[i]? = some r → r.slept = if i < n then some (t.backoff (k + i)) else none
  continues : ∀ i, i < n → t.Continues busy (k + i)
  le_length : n ≤ rounds.length
  length_le : rounds.length ≤ n + 1

/-- The `k`-th sleep has the length it should have, every sleep still fits when the second clock
    reading of its round is made, and there are not too many attempts. -/
structure Timer.Keeps (t : Timer) (run : Run S R) : Prop where
  lengths : ∀ k d, run.sleeps[k]? = some d → d = min (t.initial * 2 ^ k) t.longest
  fits : ∀ k r d, run.rounds[k]? = some r → r.slept = some d → t.clock (2 * k + 1) + d ≤ t.timeout
  attempts : run.rounds.length ≤ t.doublings + t.timeout / t.longest + 2

section Deadline

theorem Timer.doublings_le_iff (h : 0 < t.initial) (k : Nat) :
    t.doublings ≤ k ↔ t.longest ≤ t.initial * 2 ^ k := by
  rw [doublings, Nat.clog_le_iff_le_pow (by decide), Nat.div_le_iff_le_mul_add_pred h]
  omega

theorem Timer.backoff_eq (h : t.initial ≤ t.longest) (k : Nat) :
    t.backoff k = min (t.initial * 2 ^ k) t.longest := by
  induction k with
  | zero => rw [backoff, Nat.pow_zero, Nat.mul_one, Nat.min_eq_left h]
  | succ k ih =>
    have hdouble : t.initial * 2 ^ (k + 1) = t.initial * 2 ^ k * 2 := by
      rw [Nat.pow_succ, Nat.mul_assoc]
    rw [backoff, ih, hdouble]
    omega

/-- From `doublings` on the sleeps are as long as the longest one. -/
theorem Timer.backoff_of_le (hpos : 0 < t.initial) (h : t.initial ≤ t.longest) {k : Nat}
    (hk : t.doublings ≤ k) : t.backoff k = t.longest := by
  rw [backoff_eq h, Nat.min_eq_right ((doublings_le_iff hpos k).mp hk)]

theorem Timer.longest_mul_le_total (hpos : 0 < t.initial) (h : t.initial ≤ t.longest) (n : Nat) :
    (n - t.doublings) * t.longest ≤ t.total n := by
  induction n with
  | zero => rw [Nat.zero_sub, Nat.zero_mul]; exact Nat.zero_le _
  | succ n ih =>
    rw [total]
    rcases Nat.lt_or_ge n t.doublings with hlt | hge
    · have hzero : n + 1 - t.doublings = 0 := by omega
      rw [hzero, Nat.zero_mul]
      exact Nat.zero_le _
    · rw [backoff_of_le hpos h hge, Nat.succ_sub hge, Nat.succ_mul]
      omega

/-- The sleeps made so far have all passed on the clock. -/
theorem Timer.total_le_clock (hclock : ∀ i j, i ≤ j → t.clock i ≤ t.clock j)
    (hsleep : t.SleepsAdvance busy) {n : Nat} (hn : ∀ k, k < n → t.Continues busy k) :
    t.total n ≤ t.clock (2 * n) := by
  induction n with
  | zero => exact Nat.zero_le _
  | succ n ih =>
    have hbefore := ih fun k hk => hn k (Nat.lt_succ_of_lt hk)
    have hreading := hclock (2 * n) (2 * n + 1) (Nat.le_succ _)
    have hslept := hsleep n fun j hj => hn j (Nat.lt_succ_of_le hj)
    rw [total]
    omega

/-- Rounds that go on have slept no longer than the timeout. -/
theorem Timer.total_le_timeout (hclock : ∀ i j, i ≤ j → t.clock i ≤ t.clock j)
    (hsleep : t.SleepsAdvance busy) {n : Nat} (hn : ∀ k, k < n → t.Continues busy k) :
    t.total n ≤ t.timeout := by
  cases n with
  | zero => exact Nat.zero_le _
  | succ n =>
    have hbefore := total_le_clock hclock hsleep fun k hk => hn k (Nat.lt_succ_of_lt hk)
    have hreading := hclock (2 * n) (2 * n + 1) (Nat.le_succ _)
    obtain ⟨_, _, hle, hfits⟩ := hn n (Nat.lt_succ_self n)
    rw [total]
    omega

/-- **How many rounds go on.** -/
theorem Timer.continues_le (hpos : 0 < t.initial) (h : t.initial ≤ t.longest)
    (hclock : ∀ i j, i ≤ j → t.clock i ≤ t.clock j) (hsleep : t.SleepsAdvance busy) {n : Nat}
    (hn : ∀ k, k < n → t.Continues busy k) : n ≤ t.doublings + t.timeout / t.longest := by
  have hle : (n - t.doublings) * t.longest ≤ t.timeout :=
    Nat.le_trans (longest_mul_le_total hpos h n) (total_le_timeout hclock hsleep hn)
  have hdiv := (Nat.le_div_iff_mul_le (Nat.lt_of_lt_of_le hpos h)).mpr hle
  omega

theorem paced_nil (t : Timer) (busy : Nat → Prop) (k : Nat) :
    Paced t busy k 0 ([] : List (Round S)) :=
  ⟨nofun, nofun, Nat.le_refl 0, Nat.zero_le 1⟩

theorem paced_last (t : Timer) (busy : Nat → Prop) (k : Nat) (before after : S) :
    Paced t busy k 0 [⟨before, after, none⟩] := by
  refine ⟨?_, nofun, Nat.zero_le 1, Nat.le_refl 1⟩
  intro i r hr
  rw [List.getElem?_singleton] at hr
  split at hr
  · cases hr
    rfl
  · cases hr

theorem Paced.cons {k n : Nat} {rounds : List (Round S)} (hk : t.Continues busy k)
    (hrest : Paced t busy (k + 1) n rounds) (before after : S) :
    Paced t busy k (n + 1) (⟨before, after, some (t.backoff k)⟩ :: rounds) := by
  constructor
  · intro i r hr
    cases i with
    | zero =>
      cases hr
      rfl
    | succ i =>
      rw [hrest.slept i r hr, Nat.add_right_comm, Nat.add_assoc]
      simp only [Nat.add_lt_add_iff_right]
  · intro i hi
    cases i with
    | zero => exact hk
    | succ i =>
      rw [← Nat.add_assoc, Nat.add_right_comm]
      exact hrest.continues i (Nat.lt_of_succ_lt_succ hi)
  · exact Nat.succ_le_succ hrest.le_length
  · exact Nat.succ_le_succ hrest.length_le

theorem paced_loop (hbusy : ∀ k, (attempt k (found k)).1 = .again ↔ busy k) (fuel : Nat) :
    ∀ {k : Nat} {run : Run S R},
      loop t attempt found expired fuel k (t.backoff k) = some run →
        ∃ n, Paced t busy k n run.rounds := by
  induction fuel with
  | zero =>
    intro k run h
    cases h
  | succ fuel ih =>
    intro k run h
    unfold loop at h
    split at h
    · next hguard =>
      split at h
      · cases h
        exact ⟨0, paced_last t busy k _ _⟩
      · cases h
        exact ⟨0, paced_last t busy k _ _⟩
      · next after hagain =>
        split at h
        · cases h
          exact ⟨0, paced_last t busy k _ _⟩
        · next remaining hremaining =>
          split at h
          · cases h
            exact ⟨0, paced_last t busy k _ _⟩
          · next hfits =>
            obtain ⟨rest, hrest, rfl⟩ := Option.map_eq_some_iff.mp h
            obtain ⟨n, hn⟩ := ih hrest
            have hk : t.Continues busy k := by
              unfold durationSub at hremaining
              split at hremaining
              · next hle =>
                cases hremaining
                exact ⟨hguard, (hbusy k).mp (by rw [hagain]), hle, Nat.not_lt.mp hfits⟩
              · cases hremaining
            exact ⟨n + 1, hn.cons hk (found k) after⟩
    · cases h
      exact ⟨0, paced_nil t busy k⟩

/-- The sleeps of a run are the first ones of the timer. -/
theorem Paced.sleeps_eq {n : Nat} {run : Run S R} (h : Paced t busy 0 n run.rounds) :
    run.sleeps = (List.range n).map t.backoff := by
  have hslept : run.rounds.map Round.slept =
      (List.range run.rounds.length).map fun i => if i < n then some (t.backoff i) else none := by
    refine List.ext_getElem (by simp) fun i hi _ => ?_
    rw [List.length_map] at hi
    rw [List.getElem_map, List.getElem_map, List.getElem_range,
      h.slept i _ (List.getElem?_eq_getElem hi), Nat.zero_add]
  have hprefix : ∀ j, (List.range (n + j)).filterMap
      (fun i => if i < n then some (t.backoff i) else none) = (List.range n).map t.backoff := by
    intro j
    induction j with
    | zero =>
      rw [Nat.add_zero, ← List.filterMap_eq_map]
      exact List.filterMap_congr fun i hi => if_pos (List.mem_range.mp hi)
    | succ j ih =>
      rw [← Nat.add_assoc, List.range_succ, List.filterMap_append, ih]
      simp
  obtain ⟨j, hj⟩ := Nat.exists_eq_add_of_le h.le_length
  calc run.sleeps = (run.rounds.map Round.slept).filterMap id := by
        rw [List.filterMap_map]
        rfl
    _ = (List.range n).map t.backoff := by
        rw [hslept, List.filterMap_map, hj]
        exact hprefix j

/-- Enough fuel comes to a round that no other follows. -/
theorem loop_isSome (hbusy : ∀ k, (attempt k (found k)).1 = .again ↔ busy k) (fuel : Nat) :
    ∀ {k : Nat}, (∃ j, k ≤ j ∧ j < k + fuel ∧ ¬ t.Continues busy j) →
      (loop t attempt found expired fuel k (t.backoff k)).isSome := by
  induction fuel with
  | zero =>
    rintro k ⟨j, hkj, hjk, _⟩
    omega
  | succ fuel ih =>
    rintro k ⟨j, hkj, hjk, hj⟩
    by_cases hk : t.Continues busy k
    · obtain ⟨after, _, hloop⟩ := loop_of_continues expired ((hbusy k).mpr hk.2.1) hk fuel
      have hne : j ≠ k := by
        rintro rfl
        exact hj hk
      rw [hloop, Option.isSome_map]
      exact ih ⟨j, by omega, by omega, hj⟩
    · obtain ⟨run, hloop, _⟩ := loop_of_not_continues expired (hbusy k) hk fuel
      rw [hloop]
      rfl

/-- **The loop keeps its deadline.**  Against a clock that does not go back and that every sleep
    advances, the loop comes to its end, and what it did keeps to the timer. -/
theorem loop_keeps (hbusy : ∀ k, (attempt k (found k)).1 = .again ↔ busy k) (hpos : 0 < t.initial)
    (hle : t.initial ≤ t.longest) (hclock : ∀ i j, i ≤ j → t.clock i ≤ t.clock j)
    (hsleep : t.SleepsAdvance busy) (fuel : Nat) :
    (t.doublings + t.timeout / t.longest < fuel →
      (loop t attempt found expired fuel 0 t.initial).isSome) ∧
    ∀ run, loop t attempt found expired fuel 0 t.initial = some run → t.Keeps run := by
  constructor
  · intro hfuel
    apply loop_isSome hbusy (k := 0)
    by_contra hall
    have hcontinues : ∀ k, k < fuel → t.Continues busy k := by
      intro k hk
      by_contra hstops
      exact hall ⟨k, Nat.zero_le k, by omega, hstops⟩
    have hbound := Timer.continues_le hpos hle hclock hsleep hcontinues
    omega
  · intro run hrun
    obtain ⟨n, hn⟩ := paced_loop hbusy fuel (k := 0) hrun
    have hcontinues : ∀ k, k < n → t.Continues busy k := by
      intro k hk
      have := hn.continues k hk
      rwa [Nat.zero_add] at this
    constructor
    · intro k d hd
      rw [hn.sleeps_eq, List.getElem?_map] at hd
      obtain ⟨j, hj, rfl⟩ := Option.map_eq_some_iff.mp hd
      obtain ⟨_, rfl⟩ := List.getElem?_eq_some_iff.mp hj
      rw [List.getElem_range, Timer.backoff_eq hle]
    · intro k r d hr hd
      have hslept := hn.slept k r hr
      rw [hd] at hslept
      split at hslept
      · next hk =>
        cases hslept
        obtain ⟨_, _, hreading, hfits⟩ := hcontinues k hk
        rw [Nat.zero_add]
        omega
      · cases hslept
    · have hbound := Timer.continues_le hpos hle hclock hsleep hcontinues
      have hlength := hn.length_le
      omega

end Deadline

end Retry
