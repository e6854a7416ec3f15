import Mathlib.Data.List.Basic
import VelocityX.Lib.Transition

/-!
# Linearization points

A run of threads is observed through three kinds of steps: those that call an operation,
those at which a call takes effect, and those that return a result.  Taken in the order
in which they take effect, the calls and their results have to be a run of a sequential
object.

The order in which the calls take effect respects real time: in every prefix of a run a
thread has returned from the calls that have taken effect, up to the last one, and has
called those, up to one more, so each call takes effect between its call and its return.
-/

namespace Linearization

open Transition

variable {ι σ χ O R Q β : Type*}

/-- What the steps of a schedule emit, each with the thread that takes the step. -/
def trace (step : σ → ι × χ → Option σ) (f : σ → ι × χ → Option β) :
    σ → List (ι × χ) → List (ι × β)
  | _, [] => []
  | s, a :: as =>
      match step s a with
      | none => []
      | some s' => (f s a).toList.map (a.1, ·) ++ trace step f s' as

/-- The part of a trace that one thread emitted. -/
def ofThread [DecidableEq ι] (t : ι) (xs : List (ι × β)) : List β :=
  (xs.filter fun x => x.1 = t).map Prod.snd

structure Observation (ι σ χ O R : Type*) where
  call : σ → ι × χ → Option O
  point : σ → ι × χ → Option (O × R)
  ret : σ → ι × χ → Option (O × R)

/-- The sequential object answers the operations, in this order, with these results. -/
def Replays (spec : Q → O → Q × R) : Q → List (O × R) → Q → Prop
  | q, [], q' => q' = q
  | q, e :: es, q' => (spec q e.1).2 = e.2 ∧ Replays spec (spec q e.1).1 es q'

structure Linearizable [DecidableEq ι] (step : σ → ι × χ → Option σ)
    (obs : Observation ι σ χ O R) (spec : Q → O → Q × R) (q₀ : Q) (s₀ : σ)
    (as : List (ι × χ)) : Prop where
  legal : ∃ q, Replays spec q₀ ((trace step obs.point s₀ as).map Prod.snd) q
  returned : ∀ t, ∃ last : Option (O × R), ofThread t (trace step obs.point s₀ as) =
    ofThread t (trace step obs.ret s₀ as) ++ last.toList
  called : ∀ t, ∃ last : Option O, ofThread t (trace step obs.call s₀ as) =
    (ofThread t (trace step obs.point s₀ as)).map Prod.fst ++ last.toList

/-! ### The books of a thread

`opened s t` is the call of a thread that has not taken effect, and `decided s t` the one
that has taken effect and not returned. -/

structure Accounts (obs : Observation ι σ χ O R) (opened : σ → ι → Option O)
    (decided : σ → ι → Option (O × R)) (s : σ) (a : ι × χ) (s' : σ) : Prop where
  calls : (opened s a.1).toList ++ (obs.call s a).toList =
    ((obs.point s a).map Prod.fst).toList ++ (opened s' a.1).toList
  results : (decided s a.1).toList ++ (obs.point s a).toList =
    (obs.ret s a).toList ++ (decided s' a.1).toList
  opened_other : ∀ u, u ≠ a.1 → opened s' u = opened s u
  decided_other : ∀ u, u ≠ a.1 → decided s' u = decided s u

/-- The state of the sequential object after a step with this effect. -/
def Advances (spec : Q → O → Q × R) (I : Q → σ → Prop) (q : Q) (s' : σ) :
    Option (O × R) → Prop
  | none => I q s'
  | some e => (spec q e.1).2 = e.2 ∧ I (spec q e.1).1 s'

section Rule

variable [DecidableEq ι] {step : σ → ι × χ → Option σ} {f : σ → ι × χ → Option β}
variable {obs : Observation ι σ χ O R} {opened : σ → ι → Option O}
variable {decided : σ → ι → Option (O × R)} {spec : Q → O → Q × R}
variable {I : Q → σ → Prop} {C : σ → ι × χ → Prop}
variable {q : Q} {s s' : σ} {a : ι × χ} {as : List (ι × χ)} {t : ι}

omit [DecidableEq ι] in
theorem trace_cons (hstep : step s a = some s') :
    trace step f s (a :: as) = (f s a).toList.map (a.1, ·) ++ trace step f s' as := by
  rw [trace, hstep]

omit [DecidableEq ι] in
/-- A log that every step from an invariant extends by what it emits is the trace of the run. -/
theorem trace_log_of_invariant {g : σ → List β} {J : σ → Prop}
    (hJ : ∀ s a s', J s → step s a = some s' → J s')
    (hlog : ∀ s a s', J s → step s a = some s' → g s' = g s ++ (f s a).toList) (hs : J s)
    (hrun : run step s as = some s') : g s' = g s ++ (trace step f s as).map Prod.snd := by
  induction as generalizing s with
  | nil =>
    cases hrun
    simp [trace]
  | cons a as ih =>
    obtain ⟨m, hm, hrest⟩ := run_cons_eq_some.mp hrun
    rw [ih (hJ s a m hs hm) hrest, hlog s a m hs hm, trace_cons hm]
    cases f s a <;> simp

omit [DecidableEq ι] in
theorem trace_log {g : σ → List β}
    (hlog : ∀ s a s', step s a = some s' → g s' = g s ++ (f s a).toList)
    (hrun : run step s as = some s') : g s' = g s ++ (trace step f s as).map Prod.snd :=
  trace_log_of_invariant (J := fun _ => True) (fun _ _ _ _ _ => trivial)
    (fun s a s' _ => hlog s a s') trivial hrun

@[simp] theorem ofThread_nil : ofThread t ([] : List (ι × β)) = [] := rfl

@[simp] theorem ofThread_append (xs ys : List (ι × β)) :
    ofThread t (xs ++ ys) = ofThread t xs ++ ofThread t ys := by
  simp [ofThread]

@[simp] theorem ofThread_tagged_self (xs : List β) : ofThread t (xs.map (t, ·)) = xs := by
  simp [ofThread, List.filter_map, Function.comp_def]

theorem ofThread_tagged_of_ne {u : ι} (hu : u ≠ t) (xs : List β) :
    ofThread t (xs.map (u, ·)) = [] := by
  simp [ofThread, List.filter_map, Function.comp_def, hu]

omit [DecidableEq ι] in
theorem map_fst_toList (e : Option (O × R)) : e.toList.map Prod.fst = (e.map Prod.fst).toList := by
  cases e <;> rfl

/-- Books that are kept on the state of each thread, in a step that leaves those of the others
    alone. -/
theorem accounts_update {κ : Type*} {obs : Observation ι (Threads ι σ κ) χ O R}
    {s : Threads ι σ κ} {sh : σ} {l : κ} {c : χ} (opened : σ → κ → Option O)
    (decided : σ → κ → Option (O × R))
    (hother : ∀ u, u ≠ t → opened sh (s.loc u) = opened s.shared (s.loc u) ∧
      decided sh (s.loc u) = decided s.shared (s.loc u))
    (hcalls : (opened s.shared (s.loc t)).toList ++ (obs.call s (t, c)).toList =
      ((obs.point s (t, c)).map Prod.fst).toList ++ (opened sh l).toList)
    (hresults : (decided s.shared (s.loc t)).toList ++ (obs.point s (t, c)).toList =
      (obs.ret s (t, c)).toList ++ (decided sh l).toList) :
    Accounts obs (fun s t => opened s.shared (s.loc t)) (fun s t => decided s.shared (s.loc t)) s
      (t, c) ⟨sh, Function.update s.loc t l⟩ := by
  constructor
  · simpa using hcalls
  · simpa using hresults
  · intro u hu
    simpa [Function.update_of_ne hu] using (hother u hu).1
  · intro u hu
    simpa [Function.update_of_ne hu] using (hother u hu).2

/-- What one step adds to the books of a thread, its own or another one. -/
theorem Accounts.balance (h : Accounts obs opened decided s a s') (t : ι) :
    ((opened s t).toList ++ ofThread t ((obs.call s a).toList.map (a.1, ·)) =
      (ofThread t ((obs.point s a).toList.map (a.1, ·))).map Prod.fst ++ (opened s' t).toList) ∧
    ((decided s t).toList ++ ofThread t ((obs.point s a).toList.map (a.1, ·)) =
      ofThread t ((obs.ret s a).toList.map (a.1, ·)) ++ (decided s' t).toList) := by
  by_cases ht : a.1 = t
  · subst ht
    simp only [ofThread_tagged_self, map_fst_toList]
    exact ⟨h.calls, h.results⟩
  · simp [ofThread_tagged_of_ne ht, h.opened_other t (Ne.symm ht), h.decided_other t (Ne.symm ht)]

omit [DecidableEq ι] in
theorem Advances.mono {J : Q → σ → Prop} {e : Option (O × R)} (h : Advances spec I q s' e)
    (hJ : ∀ q, I q s' → J q s') : Advances spec J q s' e := by
  cases e with
  | none => exact hJ q h
  | some e => exact ⟨h.1, hJ _ h.2⟩

omit [DecidableEq ι] in
theorem exists_of_advances {e : Option (O × R)} (h : Advances spec I q s' e) : ∃ q', I q' s' := by
  cases e with
  | none => exact ⟨q, h⟩
  | some e => exact ⟨_, h.2⟩

omit [DecidableEq ι] in
/-- The sequential object follows the steps that take effect. -/
theorem run_replays
    (hstep : ∀ q s a s', I q s → C s a → step s a = some s' → Advances spec I q s' (obs.point s a))
    (hI : I q s) (hC : Along step C s as) (hrun : run step s as = some s') :
    ∃ q', Replays spec q ((trace step obs.point s as).map Prod.snd) q' := by
  induction as generalizing q s with
  | nil => exact ⟨q, rfl⟩
  | cons a as ih =>
    obtain ⟨m, hm, hrest⟩ := run_cons_eq_some.mp hrun
    have hadvance := hstep q s a m hI hC.1 hm
    rw [trace_cons hm]
    cases hpoint : obs.point s a with
    | none =>
      rw [hpoint] at hadvance
      simpa using ih hadvance (hC.2 m hm) hrest
    | some e =>
      rw [hpoint] at hadvance
      obtain ⟨q', hq'⟩ := ih hadvance.2 (hC.2 m hm) hrest
      exact ⟨q', hadvance.1, hq'⟩

/-- The books of a thread over a run. -/
theorem run_books
    (hstep : ∀ q s a s', I q s → C s a → step s a = some s' →
      Advances spec I q s' (obs.point s a) ∧ Accounts obs opened decided s a s')
    (hI : ∃ q, I q s) (hC : Along step C s as) (hrun : run step s as = some s') (t : ι) :
    ((opened s t).toList ++ ofThread t (trace step obs.call s as) =
      (ofThread t (trace step obs.point s as)).map Prod.fst ++ (opened s' t).toList) ∧
    ((decided s t).toList ++ ofThread t (trace step obs.point s as) =
      ofThread t (trace step obs.ret s as) ++ (decided s' t).toList) := by
  induction as generalizing s with
  | nil =>
    cases hrun
    simp [trace]
  | cons a as ih =>
    obtain ⟨m, hm, hrest⟩ := run_cons_eq_some.mp hrun
    obtain ⟨q, hq⟩ := hI
    obtain ⟨hadvance, haccounts⟩ := hstep q s a m hq hC.1 hm
    obtain ⟨hcalls, hresults⟩ := haccounts.balance t
    obtain ⟨hcalls', hresults'⟩ := ih (exists_of_advances hadvance) (hC.2 m hm) hrest
    simp only [trace_cons hm, ofThread_append, List.map_append]
    constructor
    · rw [← List.append_assoc, hcalls, List.append_assoc, hcalls', List.append_assoc]
    · rw [← List.append_assoc, hresults, List.append_assoc, hresults', List.append_assoc]

/-- **Linearization rule.**  A simulation of the sequential object in which every step
    keeps the books of the threads. -/
theorem linearizable_of_simulation
    (hstep : ∀ q s a s', I q s → C s a → step s a = some s' →
      Advances spec I q s' (obs.point s a) ∧ Accounts obs opened decided s a s')
    (hidle : ∀ t, opened s t = none ∧ decided s t = none)
    (hI : I q s) (hC : Along step C s as) (hrun : run step s as = some s') :
    Linearizable step obs spec q s as := by
  have hbooks := run_books hstep ⟨q, hI⟩ hC hrun
  refine ⟨run_replays (fun q s a s' hq hc hs => (hstep q s a s' hq hc hs).1) hI hC hrun,
    fun t => ⟨decided s' t, ?_⟩, fun t => ⟨opened s' t, ?_⟩⟩
  · simpa [(hidle t).2] using (hbooks t).2
  · simpa [(hidle t).1] using (hbooks t).1

end Rule

end Linearization
