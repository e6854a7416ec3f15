import Mathlib.Data.Fintype.Basic
import VelocityX.Metrics.Threads

/-!
# Consistency of snapshots

A recorder increments the total before the counter of the outcome, so without resets no more
operations have succeeded or failed than have been counted.  A snapshot loads the total first
and may see the outcome of an operation that was counted later; a reset clears the total first
and may separate the two increments of a recorder.  The runs without these overlaps are the
undisturbed ones.

The two rates of a consistent snapshot may still add up to more than 100, by their rounding;
the runs in which no snapshot loads such counters are the undisturbed ones as well.
-/

namespace VelocityX.Metrics.Threads

open Transition

variable {ι : Type*}

/-- The snapshot has loaded the total before the increment at `place`, and will load the counter
    of `outcome`. -/
def Pc.misses (outcome : Outcome) (place : Nat) : Pc → Bool
  | .snapshot (.loadSuccessful _ before) => before ≤ place
  | .snapshot (.loadFailed _ _ before) => before ≤ place ∧ outcome = .failure
  | _ => false

/-- The step of a thread at `l` comes between the accesses of another one to the three counters:
    an access to the total between the stores of a reset, a store to the total between the two
    increments of a recorder, or the increment of an outcome that a snapshot has missed in the
    total and will see. -/
def Pc.disturbs (l : Pc) (other : Pc) : Bool :=
  match l with
  | .record (.addTotal _) => other.clearing
  | .record (.addOutcome outcome place) => other.misses outcome place
  | .reset .storeTotal => other.halfway
  | .snapshot .loadTotal => other.clearing
  | _ => false

def Pc.counts : Pc → Bool
  | .record (.addTotal _) => true
  | _ => false

/-- The total and the successes of a snapshot that is about to load the failures. -/
def Pc.halfLoaded : Pc → Option (Nat × Nat)
  | .snapshot (.loadFailed total successful _) => some (total, successful)
  | _ => none

/-- The rates that a snapshot is about to complete do not exceed 100 by their rounding. -/
def Pc.Rounds (metrics : AtomicMetrics) (l : Pc) : Prop :=
  ∀ r ∈ l.halfLoaded, PerformanceMetrics.RoundsWithin r.1 r.2 metrics.failedOperations

/-- The step disturbs no other thread, the total does not overflow, and the rates that a snapshot
    loads do not exceed 100 by their rounding. -/
def Undisturbed (s : State ι) (a : ι × Act) : Prop :=
  (∀ u, (s.loc a.1).disturbs (s.loc u) = false) ∧
    ((s.loc a.1).counts = true → s.shared.metrics.totalOperations + 1 < 2 ^ 64) ∧
    (s.loc a.1).Rounds s.shared.metrics

instance (metrics : AtomicMetrics) (l : Pc) : Decidable (l.Rounds metrics) :=
  inferInstanceAs (Decidable (∀ r ∈ l.halfLoaded, _))

instance [Fintype ι] (s : State ι) (a : ι × Act) : Decidable (Undisturbed s a) :=
  inferInstanceAs (Decidable (_ ∧ _ ∧ _))

/-- All snapshots so far are consistent, so that their rates are percentages, and once all calls
    have returned every counted operation has succeeded or failed. -/
structure SnapshotsConsistent (s : State ι) : Prop where
  returned : ∀ m ∈ s.shared.returned, m.Consistent ∧
    (0 ≤ m.successRate ∧ m.successRate ≤ 100) ∧ (0 ≤ m.failureRate ∧ m.failureRate ≤ 100) ∧
      m.successRate + m.failureRate ≤ 100
  complete : (∀ t, s.loc t = .idle) →
    s.shared.metrics.successfulOperations + s.shared.metrics.failedOperations =
      s.shared.metrics.totalOperations

/-! ### The invariant -/

/-- A recorder between its two increments. -/
def Pc.pending : Pc → Nat
  | .record (.addOutcome _ _) => 1
  | _ => 0

/-- A recorder between its two increments that a snapshot has counted. -/
def Pc.pendingBefore (before : Nat) : Pc → Nat
  | .record (.addOutcome _ place) => if place < before then 1 else 0
  | _ => 0

/-- The loaded counters make a consistent snapshot whose rates do not exceed 100. -/
def Fits (total successful failed : Nat) : Prop :=
  successful + failed ≤ total ∧ PerformanceMetrics.RoundsWithin total successful failed

/-- What a thread relies on: a snapshot that has loaded the total has room in it for the outcomes
    so far and for those to come of the recorders that it has counted. -/
def Pc.Ok (sh : Shared) (loc : ι → Pc) : Pc → Prop
  | .record (.addOutcome _ place) => place < sh.counted
  | .reset .storeSuccessful => sh.metrics.totalOperations = 0
  | .reset .storeFailed =>
      sh.metrics.totalOperations = 0 ∧ sh.metrics.successfulOperations = 0
  | .snapshot (.loadSuccessful total before) => before ≤ sh.counted ∧
      ∃ n, Tally (Pc.pendingBefore before) loc n ∧
        sh.metrics.successfulOperations + sh.metrics.failedOperations + n ≤ total
  | .snapshot (.loadFailed total successful before) => before ≤ sh.counted ∧
      ∃ n, Tally (Pc.pendingBefore before) loc n ∧
        successful + sh.metrics.failedOperations + n ≤ total
  | l => ∀ total successful failed, l.loaded = some (total, successful, failed) →
      Fits total successful failed

structure Inv (s : State ι) : Prop where
  ok : ∀ t, (s.loc t).Ok s.shared s.loc
  apart : (∀ t, (s.loc t).clearing = false) ∨ ∀ t, (s.loc t).halfway = false
  total_lt : s.shared.metrics.totalOperations < 2 ^ 64
  counts : ∃ n, Tally Pc.pending s.loc n ∧ ((∀ t, (s.loc t).clearing = false) →
    s.shared.metrics.successfulOperations + s.shared.metrics.failedOperations + n =
      s.shared.metrics.totalOperations)
  returned : ∀ m ∈ s.shared.returned,
    Fits m.totalOperations m.successfulOperations m.failedOperations

theorem inv_init : Inv (init : State ι) :=
  ⟨fun _ => nofun, Or.inl fun _ => rfl, Nat.two_pow_pos 64,
    ⟨0, tally_zero fun _ => rfl, fun _ => rfl⟩, nofun⟩

theorem Inv.sound {s : State ι} (h : Inv s) : SnapshotsConsistent s := by
  refine ⟨fun m hm => ?_, fun hidle => ?_⟩
  · obtain ⟨hconsistent, hround⟩ := h.returned m hm
    exact ⟨hconsistent, PerformanceMetrics.Consistent.rates hconsistent hround⟩
  · obtain ⟨n, htally, hcounts⟩ := h.counts
    obtain rfl : n = 0 := htally.eq_zero fun t => by rw [hidle t]; rfl
    exact hcounts fun t => by rw [hidle t]; rfl

theorem Pc.pending_eq_zero {l : Pc} (h : l.halfway = false) : l.pending = 0 := by
  unfold Pc.pending
  split
  · cases h
  · rfl

theorem Pc.pendingBefore_eq_zero {l : Pc} (h : l.halfway = false) (before : Nat) :
    l.pendingBefore before = 0 := by
  unfold Pc.pendingBefore
  split
  · cases h
  · rfl

/-- A thread that accesses none of the three counters relies on its loaded values alone. -/
theorem Pc.ok_of_outside {sh : Shared} {loc : ι → Pc} {l : Pc}
    (houtside : l.halfway = false ∧ l.clearing = false ∧ l.loading = false)
    (h : ∀ total successful failed, l.loaded = some (total, successful, failed) →
      Fits total successful failed) : l.Ok sh loc := by
  obtain ⟨hhalfway, hclearing, hloading⟩ := houtside
  unfold Pc.Ok
  split
  · cases hhalfway
  · cases hclearing
  · cases hclearing
  · cases hloading
  · cases hloading
  · exact h

theorem Pc.Ok.fits {sh : Shared} {loc : ι → Pc} {l : Pc} (h : l.Ok sh loc)
    {total successful failed : Nat} (hl : l.loaded = some (total, successful, failed)) :
    Fits total successful failed := by
  unfold Pc.Ok at h
  split at h
  · cases hl
  · cases hl
  · cases hl
  · cases hl
  · cases hl
  · exact h _ _ _ hl

/-! ### Steps

The other threads rely on no more after a step than before it. -/

section Steps

variable {sh sh' : Shared} {loc loc' : ι → Pc} {t : ι} {l l' : Pc}

theorem Pc.Ok.mono (h : l.Ok sh loc) (hcounted : sh.counted ≤ sh'.counted)
    (hcleared : l.clearing = true → sh'.metrics.totalOperations ≤ sh.metrics.totalOperations ∧
      sh'.metrics.successfulOperations ≤ sh.metrics.successfulOperations)
    (hsuccessful : ∀ total before n, l = .snapshot (.loadSuccessful total before) →
      before ≤ sh.counted → Tally (Pc.pendingBefore before) loc n →
      ∃ n', Tally (Pc.pendingBefore before) loc' n' ∧
        sh'.metrics.successfulOperations + sh'.metrics.failedOperations + n' ≤
          sh.metrics.successfulOperations + sh.metrics.failedOperations + n)
    (hfailed : ∀ total successful before n, l = .snapshot (.loadFailed total successful before) →
      before ≤ sh.counted → Tally (Pc.pendingBefore before) loc n →
      ∃ n', Tally (Pc.pendingBefore before) loc' n' ∧
        sh'.metrics.failedOperations + n' ≤ sh.metrics.failedOperations + n) :
    l.Ok sh' loc' := by
  unfold Pc.Ok at h ⊢
  split at h
  · exact Nat.lt_of_lt_of_le h hcounted
  · have hle := (hcleared rfl).1
    omega
  · have hle := hcleared rfl
    omega
  · next total before =>
    obtain ⟨hbefore, n, htally, hroom⟩ := h
    obtain ⟨n', htally', hle⟩ := hsuccessful total before n rfl hbefore htally
    exact ⟨Nat.le_trans hbefore hcounted, n', htally', Nat.le_trans hle hroom⟩
  · next total successful before =>
    obtain ⟨hbefore, n, htally, hroom⟩ := h
    obtain ⟨n', htally', hle⟩ := hfailed total successful before n rfl hbefore htally
    exact ⟨Nat.le_trans hbefore hcounted, n', htally', by omega⟩
  · exact h

/-- Every halfway recorder has its place before the increments to come. -/
theorem Inv.tally_counted {s : State ι} (h : Inv s) {n : Nat}
    (htally : Tally Pc.pending s.loc n) :
    Tally (Pc.pendingBefore s.shared.counted) s.loc n := by
  refine htally.congr fun u => ?_
  have hok := h.ok u
  cases hu : s.loc u with
  | record pc =>
    cases pc with
    | addOutcome outcome place =>
      rw [hu] at hok
      exact if_pos hok
    | _ => rfl
  | _ => rfl

variable [DecidableEq ι]

theorem tally_pendingBefore_keep {before n : Nat} (htally : Tally (Pc.pendingBefore before) loc n)
    (ht : (loc t).halfway = false) (hl' : l'.halfway = false) :
    Tally (Pc.pendingBefore before) (Function.update loc t l') n := by
  refine htally.update_keep ?_
  rw [Pc.pendingBefore_eq_zero hl', Pc.pendingBefore_eq_zero ht]

/-- A step that increments no counter leaves what the others rely on. -/
theorem Pc.Ok.keep (h : l.Ok sh loc) (hcounted : sh'.counted = sh.counted)
    (htotal : sh'.metrics.totalOperations ≤ sh.metrics.totalOperations)
    (hsuccessful : sh'.metrics.successfulOperations ≤ sh.metrics.successfulOperations)
    (hfailed : sh'.metrics.failedOperations ≤ sh.metrics.failedOperations)
    (ht : (loc t).halfway = false) (hl' : l'.halfway = false) :
    l.Ok sh' (Function.update loc t l') := by
  refine h.mono (Nat.le_of_eq hcounted.symm) (fun _ => ⟨htotal, hsuccessful⟩) ?_ ?_
  · intro _ before n _ _ htally
    exact ⟨n, tally_pendingBefore_keep htally ht hl', by omega⟩
  · intro _ _ before n _ _ htally
    exact ⟨n, tally_pendingBefore_keep htally ht hl', by omega⟩

theorem Inv.addTotal {s : State ι} {outcome : Outcome} (h : Inv s)
    (hl : s.loc t = .record (.addTotal outcome))
    (hroom : s.shared.metrics.totalOperations + 1 < 2 ^ 64)
    (hclear : ∀ u, (s.loc u).clearing = false) :
    Inv ⟨{ s.shared with
            metrics.totalOperations := Word.add 64 s.shared.metrics.totalOperations 1,
            counted := s.shared.counted + 1 },
      Function.update s.loc t (.record (.addOutcome outcome s.shared.counted))⟩ := by
  have hadd : Word.add 64 s.shared.metrics.totalOperations 1 =
      s.shared.metrics.totalOperations + 1 := Word.add_of_lt hroom
  have hhalf : (s.loc t).halfway = false := by rw [hl]; rfl
  have hclear' : ∀ u, (Function.update s.loc t (.record (.addOutcome outcome s.shared.counted)) u
      ).clearing = false :=
    (Function.forall_update_iff s.loc fun _ l => l.clearing = false).mpr
      ⟨rfl, fun u _ => hclear u⟩
  refine ⟨?_, Or.inl hclear', ?_, ?_, h.returned⟩
  · refine (Function.forall_update_iff s.loc fun _ l => l.Ok _ _).mpr
      ⟨Nat.lt_succ_self _, fun u _ => (h.ok u).mono (Nat.le_succ _) ?_ ?_ ?_⟩
    · intro hu
      rw [hclear u] at hu
      cases hu
    · intro _ before n _ hbefore htally
      refine ⟨n, htally.update_keep ?_, Nat.le_refl _⟩
      rw [Pc.pendingBefore_eq_zero hhalf]
      exact if_neg (by omega)
    · intro _ _ before n _ hbefore htally
      refine ⟨n, htally.update_keep ?_, Nat.le_refl _⟩
      rw [Pc.pendingBefore_eq_zero hhalf]
      exact if_neg (by omega)
  · show Word.add 64 _ 1 < _
    rw [hadd]
    exact hroom
  · obtain ⟨n, htally, hcounts⟩ := h.counts
    obtain ⟨n', htally', hn'⟩ := htally.update t (.record (.addOutcome outcome s.shared.counted))
    refine ⟨n', htally', fun _ => ?_⟩
    have hsum := hcounts hclear
    have hone : n' = n + 1 := by
      rw [Pc.pending_eq_zero hhalf] at hn'
      exact hn'
    show _ = Word.add 64 _ 1
    rw [hadd, hone]
    exact congrArg Nat.succ hsum

/-- While a recorder is between its increments no reset is, and there is room for its outcome. -/
theorem Inv.halfway {s : State ι} (h : Inv s) (ht : (s.loc t).halfway = true)
    (hpending : (s.loc t).pending = 1) :
    (∀ u, (s.loc u).clearing = false) ∧
      s.shared.metrics.successfulOperations + s.shared.metrics.failedOperations + 1 < 2 ^ 64 := by
  have hclear : ∀ u, (s.loc u).clearing = false := by
    refine h.apart.resolve_right fun hnone => ?_
    rw [hnone t] at ht
    cases ht
  obtain ⟨n, htally, hcounts⟩ := h.counts
  obtain ⟨n', _, hn'⟩ := htally.update t .idle
  have hsum := hcounts hclear
  have hlt := h.total_lt
  refine ⟨hclear, ?_⟩
  have hidle : Pc.idle.pending = 0 := rfl
  omega

omit [DecidableEq ι] in
/-- While a reset is between its stores no recorder is between its increments. -/
theorem Inv.clearing {s : State ι} (h : Inv s) (ht : (s.loc t).clearing = true) :
    ∀ u, (s.loc u).halfway = false := by
  refine h.apart.resolve_left fun hclear => ?_
  rw [hclear t] at ht
  cases ht

/-- A recorder increments the counter of its outcome. -/
theorem Inv.addOutcome {s : State ι} {outcome : Outcome} {place : Nat} (h : Inv s)
    (hl : s.loc t = .record (.addOutcome outcome place))
    (hmisses : ∀ u, (s.loc u).misses outcome place = false)
    (htotal : sh'.metrics.totalOperations = s.shared.metrics.totalOperations)
    (hsum : sh'.metrics.successfulOperations + sh'.metrics.failedOperations =
      s.shared.metrics.successfulOperations + s.shared.metrics.failedOperations + 1)
    (hfailed : sh'.metrics.failedOperations = s.shared.metrics.failedOperations ∨
      outcome = .failure ∧
        sh'.metrics.failedOperations = s.shared.metrics.failedOperations + 1)
    (hcounted : sh'.counted = s.shared.counted) (hreturned : sh'.returned = s.shared.returned)
    (houtside : l'.halfway = false ∧ l'.clearing = false ∧ l'.loading = false)
    (hloaded : l'.loaded = none) :
    Inv ⟨sh', Function.update s.loc t l'⟩ := by
  have hpending : (s.loc t).pending = 1 := by rw [hl]; rfl
  have hclear := (h.halfway (by rw [hl]; rfl) hpending).1
  -- a snapshot that has counted the recorder loses it from the pending ones
  have hleave : ∀ before n, Tally (Pc.pendingBefore before) s.loc n →
      ∃ n', Tally (Pc.pendingBefore before) (Function.update s.loc t l') n' ∧
        n' + (if place < before then 1 else 0) = n := by
    intro before n htally
    obtain ⟨n', htally', hn'⟩ := htally.update t l'
    rw [hl, Pc.pendingBefore_eq_zero houtside.1] at hn'
    exact ⟨n', htally', hn'⟩
  refine ⟨?_, Or.inl ?_, ?_, ?_, ?_⟩
  · refine (Function.forall_update_iff s.loc fun _ l =>
        l.Ok sh' (Function.update s.loc t l')).mpr
      ⟨Pc.ok_of_outside houtside ?_, fun u _ => ?_⟩
    · intro _ _ _ hsome
      rw [hloaded] at hsome
      cases hsome
    · refine (h.ok u).mono (Nat.le_of_eq hcounted.symm) ?_ ?_ ?_
      · intro hu
        rw [hclear u] at hu
        cases hu
      · intro _ before n hu _ htally
        obtain ⟨n', htally', hn'⟩ := hleave before n htally
        have hseen := hmisses u
        rw [hu, Pc.misses, decide_eq_false_iff_not, Nat.not_le] at hseen
        rw [if_pos hseen] at hn'
        exact ⟨n', htally', by omega⟩
      · intro _ _ before n hu _ htally
        obtain ⟨n', htally', hn'⟩ := hleave before n htally
        refine ⟨n', htally', ?_⟩
        rcases hfailed with hsame | ⟨hfailure, hsucc⟩
        · omega
        · have hseen := hmisses u
          rw [hu, Pc.misses, decide_eq_false_iff_not] at hseen
          have hplace : place < before := by
            by_contra hge
            exact hseen ⟨Nat.not_lt.mp hge, hfailure⟩
          rw [if_pos hplace] at hn'
          omega
  · exact (Function.forall_update_iff s.loc fun _ l => l.clearing = false).mpr
      ⟨houtside.2.1, fun u _ => hclear u⟩
  · show sh'.metrics.totalOperations < 2 ^ 64
    rw [htotal]
    exact h.total_lt
  · obtain ⟨n, htally, hcounts⟩ := h.counts
    obtain ⟨n', htally', hn'⟩ := htally.update t l'
    rw [hpending, Pc.pending_eq_zero houtside.1] at hn'
    have heq := hcounts hclear
    refine ⟨n', htally', fun _ => ?_⟩
    show sh'.metrics.successfulOperations + sh'.metrics.failedOperations + n' =
      sh'.metrics.totalOperations
    omega
  · show ∀ m ∈ sh'.returned, Fits m.totalOperations m.successfulOperations m.failedOperations
    rw [hreturned]
    exact h.returned

/-- A step that increments no counter and is not a recorder's second one. -/
theorem Inv.keep {s : State ι} (h : Inv s) (hcounted : sh'.counted = s.shared.counted)
    (htotal : sh'.metrics.totalOperations ≤ s.shared.metrics.totalOperations)
    (hsuccessful : sh'.metrics.successfulOperations ≤ s.shared.metrics.successfulOperations)
    (hfailed : sh'.metrics.failedOperations ≤ s.shared.metrics.failedOperations)
    (ht : (s.loc t).halfway = false) (hl' : l'.halfway = false)
    (hok : l'.Ok sh' (Function.update s.loc t l'))
    (hapart : l'.clearing = false ∨ ∀ u, (s.loc u).halfway = false)
    (hcounts : ∀ n, Tally Pc.pending s.loc n →
      ((∀ u, (s.loc u).clearing = false) →
        s.shared.metrics.successfulOperations + s.shared.metrics.failedOperations + n =
          s.shared.metrics.totalOperations) →
      l'.clearing = false → (∀ u, u ≠ t → (s.loc u).clearing = false) →
      sh'.metrics.successfulOperations + sh'.metrics.failedOperations + n =
        sh'.metrics.totalOperations)
    (hreturned : ∀ m ∈ sh'.returned,
      Fits m.totalOperations m.successfulOperations m.failedOperations) :
    Inv ⟨sh', Function.update s.loc t l'⟩ := by
  refine ⟨?_, ?_, Nat.lt_of_le_of_lt htotal h.total_lt, ?_, hreturned⟩
  · exact (Function.forall_update_iff s.loc fun _ l =>
      l.Ok sh' (Function.update s.loc t l')).mpr
        ⟨hok, fun u _ => (h.ok u).keep hcounted htotal hsuccessful hfailed ht hl'⟩
  · have hnone : (∀ u, (s.loc u).halfway = false) →
        ∀ u, (Function.update s.loc t l' u).halfway = false := fun hall =>
      (Function.forall_update_iff s.loc fun _ l => l.halfway = false).mpr
        ⟨hl', fun u _ => hall u⟩
    rcases hapart with hclear | hall
    · rcases h.apart with hclearing | hall
      · exact Or.inl ((Function.forall_update_iff s.loc fun _ l => l.clearing = false).mpr
          ⟨hclear, fun u _ => hclearing u⟩)
      · exact Or.inr (hnone hall)
    · exact Or.inr (hnone hall)
  · obtain ⟨n, htally, hold⟩ := h.counts
    refine ⟨n, htally.update_keep ?_, fun hclear => ?_⟩
    · rw [Pc.pending_eq_zero hl', Pc.pending_eq_zero ht]
    · obtain ⟨hclear, hothers⟩ :=
        (Function.forall_update_iff s.loc fun _ l => l.clearing = false).mp hclear
      exact hcounts n htally hold hclear hothers

theorem clearing_all {s : State ι} (ht : (s.loc t).clearing = false)
    (hothers : ∀ u, u ≠ t → (s.loc u).clearing = false) : ∀ u, (s.loc u).clearing = false := by
  intro u
  by_cases hut : u = t
  · rw [hut]
    exact ht
  · exact hothers u hut

/-- A step that leaves the three counters as they are. -/
theorem Inv.read {s : State ι} (h : Inv s) (hcounted : sh'.counted = s.shared.counted)
    (htotal : sh'.metrics.totalOperations = s.shared.metrics.totalOperations)
    (hsuccessful : sh'.metrics.successfulOperations = s.shared.metrics.successfulOperations)
    (hfailed : sh'.metrics.failedOperations = s.shared.metrics.failedOperations)
    (ht : (s.loc t).halfway = false ∧ (s.loc t).clearing = false)
    (hl' : l'.halfway = false ∧ l'.clearing = false)
    (hok : l'.Ok sh' (Function.update s.loc t l'))
    (hreturned : ∀ m ∈ sh'.returned,
      Fits m.totalOperations m.successfulOperations m.failedOperations) :
    Inv ⟨sh', Function.update s.loc t l'⟩ := by
  refine h.keep hcounted (Nat.le_of_eq htotal) (Nat.le_of_eq hsuccessful) (Nat.le_of_eq hfailed)
    ht.1 hl'.1 hok (Or.inl hl'.2) ?_ hreturned
  intro n _ hold _ hothers
  rw [htotal, hsuccessful, hfailed]
  exact hold (clearing_all ht.2 hothers)

/-- A reset clears one of the counters; with the last of the three it starts anew from zero. -/
theorem Inv.clear {s : State ι} (h : Inv s) (hcounted : sh'.counted = s.shared.counted)
    (htotal : sh'.metrics.totalOperations ≤ s.shared.metrics.totalOperations)
    (hsuccessful : sh'.metrics.successfulOperations ≤ s.shared.metrics.successfulOperations)
    (hfailed : sh'.metrics.failedOperations ≤ s.shared.metrics.failedOperations)
    (hnone : ∀ u, (s.loc u).halfway = false) (hl' : l'.halfway = false)
    (hok : l'.Ok sh' (Function.update s.loc t l'))
    (hzero : l'.clearing = false → sh'.metrics.totalOperations = 0 ∧
      sh'.metrics.successfulOperations = 0 ∧ sh'.metrics.failedOperations = 0)
    (hreturned : sh'.returned = s.shared.returned) :
    Inv ⟨sh', Function.update s.loc t l'⟩ := by
  refine h.keep hcounted htotal hsuccessful hfailed (hnone t) hl' hok (Or.inr hnone) ?_ ?_
  · intro n htally _ hclear _
    obtain rfl : n = 0 := htally.eq_zero fun u => Pc.pending_eq_zero (hnone u)
    obtain ⟨h0, h1, h2⟩ := hzero hclear
    omega
  · rw [hreturned]
    exact h.returned

theorem Inv.step {s s' : State ι} {a : ι × Act} (h : Inv s) (hC : Undisturbed s a)
    (hstep : step s a = some s') : Inv s' := by
  obtain ⟨t, act⟩ := a
  obtain ⟨sh', l', hprog, rfl⟩ := interleave_eq_some.mp hstep
  have heffect := program_effect hprog
  have hok := h.ok t
  have hreturned := h.returned
  generalize hl : s.loc t = l at heffect
  rw [hl] at hok
  obtain ⟨hC, hroom, hround⟩ := hC
  simp only [hl] at hC hroom hround
  cases heffect with
  | addTotal outcome => exact h.addTotal hl (hroom rfl) hC
  | addSuccessful durationNs place =>
    have hroom := (h.halfway (by rw [hl]; rfl) (by rw [hl]; rfl)).2
    have hadd : Word.add 64 s.shared.metrics.successfulOperations 1 =
        s.shared.metrics.successfulOperations + 1 := Word.add_of_lt (by omega)
    exact h.addOutcome hl hC rfl ((congrArg (· + _) hadd).trans (Nat.add_right_comm ..))
      (Or.inl rfl) rfl rfl ⟨rfl, rfl, rfl⟩ rfl
  | addFailed place =>
    have hroom := (h.halfway (by rw [hl]; rfl) (by rw [hl]; rfl)).2
    have hadd : Word.add 64 s.shared.metrics.failedOperations 1 =
        s.shared.metrics.failedOperations + 1 := Word.add_of_lt (by omega)
    exact h.addOutcome hl hC rfl (congrArg (_ + ·) hadd) (Or.inr ⟨rfl, hadd⟩) rfl rfl
      ⟨rfl, rfl, rfl⟩ rfl
  | storeTotal =>
    exact h.clear rfl (Nat.zero_le _) (Nat.le_refl _) (Nat.le_refl _) hC rfl rfl nofun rfl
  | storeSuccessful =>
    have hnone := h.clearing (t := t) (by rw [hl]; rfl)
    exact h.clear rfl (Nat.le_refl _) (Nat.zero_le _) (Nat.le_refl _) hnone rfl ⟨hok, rfl⟩ nofun rfl
  | storeFailed =>
    have hnone := h.clearing (t := t) (by rw [hl]; rfl)
    exact h.clear rfl (Nat.le_refl _) (Nat.le_refl _) (Nat.zero_le _) hnone rfl
      (Pc.ok_of_outside ⟨rfl, rfl, rfl⟩ nofun) (fun _ => ⟨hok.1, hok.2, rfl⟩) rfl
  | loadTotal =>
    obtain ⟨n, htally, hcounts⟩ := h.counts
    have hhalf : (s.loc t).halfway = false := by rw [hl]; rfl
    refine h.read rfl rfl rfl rfl ⟨hhalf, by rw [hl]; rfl⟩ ⟨rfl, rfl⟩ ?_ hreturned
    exact ⟨Nat.le_refl _, n, tally_pendingBefore_keep (h.tally_counted htally) hhalf rfl,
      Nat.le_of_eq (hcounts hC)⟩
  | loadSuccessful total before =>
    obtain ⟨hbefore, n, htally, hroom⟩ := hok
    have hhalf : (s.loc t).halfway = false := by rw [hl]; rfl
    refine h.read rfl rfl rfl rfl ⟨hhalf, by rw [hl]; rfl⟩ ⟨rfl, rfl⟩ ?_ hreturned
    exact ⟨hbefore, n, tally_pendingBefore_keep htally hhalf rfl, hroom⟩
  | loadFailed total successful before =>
    obtain ⟨_, n, _, hroom⟩ := hok
    refine h.read rfl rfl rfl rfl ⟨by rw [hl]; rfl, by rw [hl]; rfl⟩ ⟨rfl, rfl⟩ ?_ hreturned
    refine Pc.ok_of_outside ⟨rfl, rfl, rfl⟩ fun total' successful' failed hloaded => ?_
    cases hloaded
    exact ⟨Nat.le_trans (Nat.le_add_right _ n) hroom, hround (total, successful) rfl⟩
  | other _ _ _ hb =>
    rw [← hl] at hb
    refine h.read hb.counted hb.total hb.successful hb.failed ⟨hb.outside.1, hb.outside.2.1⟩
      ⟨hb.outside'.1, hb.outside'.2.1⟩ (Pc.ok_of_outside hb.outside' ?_) ?_
    · intro total successful failed hloaded
      rcases hb.loaded with hnone | hsame
      · rw [hnone] at hloaded
        cases hloaded
      · exact (h.ok t).fits (hsame ▸ hloaded)
    · rcases hb.returned with hsame | ⟨m, hm, hloaded⟩
      · rw [hsame]
        exact hreturned
      · rw [hm]
        exact List.forall_mem_append.mpr ⟨hreturned, fun m' hm' => by
          rw [List.mem_singleton.mp hm']
          exact (h.ok t).fits hloaded⟩

end Steps

section Runs

end Runs

end VelocityX.Metrics.Threads
