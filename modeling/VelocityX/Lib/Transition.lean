import Mathlib.Data.List.Basic
import Mathlib.Logic.Function.Basic

/-!
# Runs of labelled transition systems

A system is a partial step function: `step s a` is the state after the step
labelled `a`, or `none` when that step is not enabled in `s`.  A schedule is a
list of labels, and a property of every interleaving is a property of every
schedule.  The module packages the inductions over schedules once: invariants,
invariants of the runs whose steps all satisfy a condition, invariants of runs
whose monotone measure stays below a bound, and the step at which a property of
states first becomes true.

The second half instantiates this to threads that interleave on a shared state,
with the thread-modular proof rule: an invariant of the shared state together
with an assertion for each thread that the steps of the others do not disturb.
-/

namespace Transition

variable {σ α : Type*}

/-- Execute a schedule; `none` as soon as a step is not enabled. -/
def run (step : σ → α → Option σ) : σ → List α → Option σ
  | s, [] => some s
  | s, a :: as => (step s a).bind fun s' => run step s' as

/-- `C` holds of every step taken along the schedule (state before it, label). -/
def Along (step : σ → α → Option σ) (C : σ → α → Prop) : σ → List α → Prop
  | _, [] => True
  | s, a :: as => C s a ∧ ∀ s', step s a = some s' → Along step C s' as

instance decidableAlong {step : σ → α → Option σ} {C : σ → α → Prop} [∀ s a, Decidable (C s a)] :
    (s : σ) → (as : List α) → Decidable (Along step C s as)
  | _, [] => .isTrue trivial
  | s, a :: as =>
      match hm : step s a with
      | none => decidable_of_iff (C s a) ⟨fun hC => ⟨hC, by simp [hm]⟩, And.left⟩
      | some m =>
          have : Decidable (Along step C m as) := decidableAlong m as
          decidable_of_iff (C s a ∧ Along step C m as) (by simp [Along, hm])

variable {step : σ → α → Option σ} {C : σ → α → Prop} {I : σ → Prop}
variable {s s' : σ} {a : α} {as bs : List α}

@[simp] theorem run_nil : run step s [] = some s := rfl

theorem run_cons : run step s (a :: as) = (step s a).bind fun s' => run step s' as := rfl

theorem run_cons_eq_some :
    run step s (a :: as) = some s' ↔ ∃ m, step s a = some m ∧ run step m as = some s' := by
  simp only [run_cons, Option.bind_eq_some_iff]

theorem run_append :
    run step s (as ++ bs) = (run step s as).bind fun m => run step m bs := by
  induction as generalizing s with
  | nil => rfl
  | cons a as ih =>
    simp only [List.cons_append, run_cons, Option.bind_assoc]
    congr 1
    funext m
    exact ih

theorem run_append_eq_some :
    run step s (as ++ bs) = some s' ↔
      ∃ m, run step s as = some m ∧ run step m bs = some s' := by
  simp only [run_append, Option.bind_eq_some_iff]

/-- A round of steps that is repeated; `P k` holds after `k` rounds. -/
theorem run_rounds {P : Nat → σ → Prop} (n : Nat)
    (hround : ∀ k s, k < n → P k s → ∃ s', run step s as = some s' ∧ P (k + 1) s') (hs : P 0 s) :
    ∃ s', run step s (List.replicate n as).flatten = some s' ∧ P n s' := by
  induction n with
  | zero => exact ⟨s, rfl, hs⟩
  | succ n ih =>
    obtain ⟨m, hrun, hm⟩ := ih fun k s hk => hround k s (Nat.lt_succ_of_lt hk)
    obtain ⟨s', hlast, hs'⟩ := hround n m (Nat.lt_succ_self n) hm
    refine ⟨s', ?_, hs'⟩
    rw [List.replicate_succ', List.flatten_append, List.flatten_singleton, run_append, hrun]
    exact hlast

/-- **Invariant rule.**  What every step preserves, every run preserves. -/
theorem run_invariant (hstep : ∀ s a s', I s → step s a = some s' → I s')
    (hs : I s) (hrun : run step s as = some s') : I s' := by
  induction as generalizing s with
  | nil => cases hrun; exact hs
  | cons a as ih =>
    obtain ⟨m, hm, hrest⟩ := run_cons_eq_some.mp hrun
    exact ih (hstep s a m hs hm) hrest

/-- **Simulation rule.**  If `f` takes every step from a state in the invariant to a step of another
    system, it takes every run to a run of that system. -/
theorem run_simulation {τ : Type*} {step' : τ → α → Option τ} {f : σ → τ}
    (hstep : ∀ s a s', I s → step s a = some s' → I s' ∧ step' (f s) a = some (f s'))
    (hs : I s) (hrun : run step s as = some s') : I s' ∧ run step' (f s) as = some (f s') := by
  induction as generalizing s with
  | nil =>
    cases hrun
    exact ⟨hs, rfl⟩
  | cons a as ih =>
    obtain ⟨m, hm, hrest⟩ := run_cons_eq_some.mp hrun
    obtain ⟨hI, hm'⟩ := hstep s a m hs hm
    obtain ⟨hI', hrest'⟩ := ih hI hrest
    exact ⟨hI', run_cons_eq_some.mpr ⟨f m, hm', hrest'⟩⟩

/-- **Stuttering rule.**  If every step is one of the other system, as `f` sees it, or changes
    nothing that `f` sees, then `f` takes a run to one of the other system with fewer steps. -/
theorem run_stuttering {τ : Type*} {step' : τ → α → Option τ} {f : σ → τ}
    (hstep : ∀ s a s', step s a = some s' → f s' = f s ∨ step' (f s) a = some (f s'))
    (hrun : run step s as = some s') :
    ∃ bs, bs.Sublist as ∧ run step' (f s) bs = some (f s') := by
  induction as generalizing s with
  | nil =>
    cases hrun
    exact ⟨[], List.Sublist.refl _, rfl⟩
  | cons a as ih =>
    obtain ⟨m, hm, hrest⟩ := run_cons_eq_some.mp hrun
    obtain ⟨bs, hbs, hrun'⟩ := ih hrest
    rcases hstep s a m hm with hsame | hm'
    · exact ⟨bs, hbs.cons a, hsame ▸ hrun'⟩
    · exact ⟨a :: bs, hbs.cons_cons a, run_cons_eq_some.mpr ⟨f m, hm', hrun'⟩⟩

/-- Invariant rule for the runs whose steps all satisfy `C`. -/
theorem run_invariant_along
    (hstep : ∀ s a s', I s → C s a → step s a = some s' → I s')
    (hs : I s) (hC : Along step C s as) (hrun : run step s as = some s') : I s' := by
  induction as generalizing s with
  | nil => cases hrun; exact hs
  | cons a as ih =>
    obtain ⟨m, hm, hrest⟩ := run_cons_eq_some.mp hrun
    exact ih (hstep s a m hs hC.1 hm) (hC.2 m hm) hrest

theorem run_measure_le {μ : σ → Nat} (hmono : ∀ s a s', step s a = some s' → μ s ≤ μ s')
    (hrun : run step s as = some s') : μ s ≤ μ s' :=
  run_invariant (I := fun m => μ s ≤ μ m)
    (fun m a m' h hm => Nat.le_trans h (hmono m a m' hm)) (Nat.le_refl _) hrun

/-- A monotone measure that ends below a bound stays below it. -/
theorem along_of_bound {μ : σ → Nat} {B : Nat} (hmono : ∀ s a s', step s a = some s' → μ s ≤ μ s')
    (hrun : run step s as = some s') (hB : μ s' < B) : Along step (fun s _ => μ s < B) s as := by
  induction as generalizing s with
  | nil => trivial
  | cons a as ih =>
    obtain ⟨m, hm, hrest⟩ := run_cons_eq_some.mp hrun
    refine ⟨Nat.lt_of_le_of_lt (run_measure_le hmono hrun) hB, fun n hn => ?_⟩
    obtain rfl : m = n := Option.some.inj (hm.symm.trans hn)
    exact ih hrest

/-- Invariant rule for the runs along which a monotone measure stays below a
    bound: it is enough to preserve the invariant while the bound holds. -/
theorem run_invariant_of_bound {μ : σ → Nat} {B : Nat}
    (hmono : ∀ s a s', step s a = some s' → μ s ≤ μ s')
    (hstep : ∀ s a s', μ s' < B → I s → step s a = some s' → I s')
    (hs : I s) (hrun : run step s as = some s') (hB : μ s' < B) : I s' := by
  induction as generalizing s with
  | nil => cases hrun; exact hs
  | cons a as ih =>
    obtain ⟨m, hm, hrest⟩ := run_cons_eq_some.mp hrun
    have hle : μ m ≤ μ s' := run_measure_le hmono hrest
    exact ih (hstep s a m (by omega) hs hm) hrest

/-- Steps of a kind that each use up a part of the budget `μ` are at most so many. -/
theorem run_countP_le {p : α → Bool} {μ : σ → Nat}
    (hstep : ∀ s a s', I s → C s a → step s a = some s' →
      I s' ∧ μ s' + (if p a then 1 else 0) ≤ μ s)
    (hs : I s) (hC : Along step C s as) (hrun : run step s as = some s') :
    μ s' + as.countP p ≤ μ s := by
  induction as generalizing s with
  | nil => cases hrun; exact Nat.le_refl _
  | cons a as ih =>
    obtain ⟨m, hm, hrest⟩ := run_cons_eq_some.mp hrun
    obtain ⟨hI, hle⟩ := hstep s a m hs hC.1 hm
    have hle' := ih hI (hC.2 m hm) hrest
    rw [List.countP_cons]
    omega

/-- A property that is false at the start of a run and true at its end becomes
    true at some step of it. -/
theorem exists_turn {P : σ → Prop} (hrun : run step s as = some s')
    (hs : ¬ P s) (hs' : P s') :
    ∃ as₁ a as₂ m m', as = as₁ ++ a :: as₂ ∧ run step s as₁ = some m ∧
      step m a = some m' ∧ run step m' as₂ = some s' ∧ ¬ P m ∧ P m' := by
  induction as generalizing s with
  | nil => cases hrun; exact absurd hs' hs
  | cons a as ih =>
    obtain ⟨m, hm, hrest⟩ := run_cons_eq_some.mp hrun
    by_cases hP : P m
    · exact ⟨[], a, as, s, m, rfl, rfl, hm, hrest, hs, hP⟩
    · obtain ⟨as₁, b, as₂, n, n', has, hn, hb, hrest', hn0, hn1⟩ := ih hrest hP
      refine ⟨a :: as₁, b, as₂, n, n', by simp [has], ?_, hb, hrest', hn0, hn1⟩
      exact run_cons_eq_some.mpr ⟨m, hm, hn⟩

theorem along_of_forall (h : ∀ s a, C s a) (s : σ) (as : List α) : Along step C s as := by
  induction as generalizing s with
  | nil => trivial
  | cons a as ih => exact ⟨h s a, fun s' _ => ih s'⟩

theorem along_of_forall_mem {D : α → Prop} (h : ∀ a ∈ as, D a) (s : σ) :
    Along step (fun _ a => D a) s as := by
  induction as generalizing s with
  | nil => trivial
  | cons a as ih =>
    obtain ⟨ha, hrest⟩ := List.forall_mem_cons.mp h
    exact ⟨ha, fun s' _ => ih hrest s'⟩

/-- A run whose steps are all enabled goes through. -/
theorem exists_run_of_along (hnext : ∀ s a, C s a → ∃ s', step s a = some s')
    (hC : Along step C s as) : ∃ s', run step s as = some s' := by
  induction as generalizing s with
  | nil => exact ⟨s, rfl⟩
  | cons a as ih =>
    obtain ⟨m, hm⟩ := hnext s a hC.1
    obtain ⟨s', hrun⟩ := ih (hC.2 m hm)
    exact ⟨s', run_cons_eq_some.mpr ⟨m, hm, hrun⟩⟩

theorem exists_run (htotal : ∀ s a, ∃ s', step s a = some s') (s : σ) (as : List α) :
    ∃ s', run step s as = some s' :=
  exists_run_of_along (fun s a _ => htotal s a) (along_of_forall (fun _ _ => trivial) s as)

/-- Conditions that agree wherever the invariant holds agree along every run, when a step that meets
    one of them keeps the invariant. -/
theorem along_congr_of_step {D : σ → α → Prop}
    (hstep : ∀ s a s', I s → D s a → step s a = some s' → I s')
    (hiff : ∀ s a, I s → (C s a ↔ D s a)) (hs : I s) :
    Along step C s as ↔ Along step D s as := by
  induction as generalizing s with
  | nil => exact Iff.rfl
  | cons a as ih =>
    have hhead := hiff s a hs
    constructor
    · rintro ⟨ha, hrest⟩
      have hD := hhead.mp ha
      exact ⟨hD, fun m hm => (ih (hstep s a m hs hD hm)).mp (hrest m hm)⟩
    · rintro ⟨ha, hrest⟩
      exact ⟨hhead.mpr ha, fun m hm => (ih (hstep s a m hs ha hm)).mpr (hrest m hm)⟩

/-- Conditions that agree wherever the invariant holds agree along every run. -/
theorem along_congr {D : σ → α → Prop} (hstep : ∀ s a s', I s → step s a = some s' → I s')
    (hiff : ∀ s a, I s → (C s a ↔ D s a)) (hs : I s) : Along step C s as ↔ Along step D s as :=
  along_congr_of_step (fun s a s' hs _ hm => hstep s a s' hs hm) hiff hs

/-- What holds along a run holds along its end. -/
theorem Along.of_append (h : Along step C s (as ++ bs)) (hrun : run step s as = some s') :
    Along step C s' bs := by
  induction as generalizing s with
  | nil => cases hrun; exact h
  | cons a as ih =>
    obtain ⟨m, hm, hrest⟩ := run_cons_eq_some.mp hrun
    exact ih (h.2 m hm) hrest

/-- A condition on the labels alone holds along a run that cannot get stuck when it holds of all
    labels. -/
theorem along_iff_forall_mem {D : α → Prop} (htotal : ∀ s a, ∃ s', step s a = some s')
    (s : σ) (as : List α) : Along step (fun _ a => D a) s as ↔ ∀ a ∈ as, D a := by
  induction as generalizing s with
  | nil => exact ⟨fun _ _ ha => absurd ha List.not_mem_nil, fun _ => trivial⟩
  | cons a as ih =>
    obtain ⟨m, hm⟩ := htotal s a
    rw [List.forall_mem_cons]
    constructor
    · rintro ⟨ha, hrest⟩
      exact ⟨ha, (ih m).mp (hrest m hm)⟩
    · rintro ⟨ha, hrest⟩
      exact ⟨ha, fun s' _ => (ih s').mpr hrest⟩

/-- What the first step that breaks a condition brings about lasts to the end of the run. -/
theorem run_of_not_along {J : σ → Prop}
    (hstep : ∀ s a s', I s → C s a → step s a = some s' → I s')
    (hbreak : ∀ s a s', I s → ¬ C s a → step s a = some s' → J s')
    (hkeep : ∀ s a s', J s → step s a = some s' → J s')
    (hs : I s) (hrun : run step s as = some s') (hC : ¬ Along step C s as) : J s' := by
  induction as generalizing s with
  | nil => exact absurd trivial hC
  | cons a as ih =>
    obtain ⟨m, hm, hrest⟩ := run_cons_eq_some.mp hrun
    by_cases hCa : C s a
    · refine ih (hstep s a m hs hCa hm) hrest fun halong => hC ⟨hCa, fun m' hm' => ?_⟩
      obtain rfl : m = m' := Option.some.inj (hm.symm.trans hm')
      exact halong
    · exact run_invariant hkeep (hbreak s a m hs hCa hm) hrest

/-- `P` holds in every state of the run along the schedule. -/
def Throughout (step : σ → α → Option σ) (P : σ → Prop) : σ → List α → Prop
  | s, [] => P s
  | s, a :: as => P s ∧ ∀ s', step s a = some s' → Throughout step P s' as

theorem Throughout.start {P : σ → Prop} (h : Throughout step P s as) : P s := by
  cases as with
  | nil => exact h
  | cons a as => exact h.1

theorem Throughout.last {P : σ → Prop} (h : Throughout step P s as)
    (hrun : run step s as = some s') : P s' := by
  induction as generalizing s with
  | nil => cases hrun; exact h
  | cons a as ih =>
    obtain ⟨m, hm, hrest⟩ := run_cons_eq_some.mp hrun
    exact ih (h.2 m hm) hrest

theorem throughout_of_along {P : σ → Prop}
    (hstep : ∀ s a s', I s → C s a → step s a = some s' → I s') (hsound : ∀ s, I s → P s)
    (hs : I s) (hC : Along step C s as) : Throughout step P s as := by
  induction as generalizing s with
  | nil => exact hsound s hs
  | cons a as ih =>
    exact ⟨hsound s hs, fun m hm => ih (hstep s a m hs hC.1 hm) (hC.2 m hm)⟩

/-- **Exact conditions.**  If `C` lets a step keep the invariant, the invariant gives `P`, and a
    step to a state with `P` satisfies `C`, then `P` holds throughout a run exactly when `C`
    holds along it. -/
theorem throughout_iff_along {P : σ → Prop}
    (hstep : ∀ s a s', I s → C s a → step s a = some s' → I s') (hsound : ∀ s, I s → P s)
    (hback : ∀ s a s', I s → step s a = some s' → P s' → C s a)
    (hs : I s) (hrun : run step s as = some s') :
    Throughout step P s as ↔ Along step C s as := by
  refine ⟨fun hall => ?_, throughout_of_along hstep hsound hs⟩
  induction as generalizing s with
  | nil => trivial
  | cons a as ih =>
    obtain ⟨m, hm, hrest⟩ := run_cons_eq_some.mp hrun
    have hC := hback s a m hs hm (hall.2 m hm).start
    refine ⟨hC, fun n hn => ?_⟩
    obtain rfl : m = n := Option.some.inj (hm.symm.trans hn)
    exact ih (hstep s a m hs hC hm) hrest (hall.2 m hm)

/-! ### Interleaved threads -/

/-- A step of a call either goes on inside the call or returns from it. -/
inductive Next (P R : Type*) where
  | goto (pc : P)
  | ret (result : R)
deriving DecidableEq

def Next.map {P Q R : Type*} (f : P → Q) : Next P R → Next Q R
  | .goto pc => .goto (f pc)
  | .ret result => .ret result

/-- The steps of one call, which no other thread interrupts, until it returns; `none` when a step
    is not enabled or the call has not returned at the end of the schedule. -/
def complete {P R χ : Type*} (step : σ → P → χ → Option (σ × Next P R)) :
    σ → P → List χ → Option (σ × R)
  | _, _, [] => none
  | s, pc, c :: cs =>
      match step s pc c with
      | none => none
      | some (s', .goto pc') => complete step s' pc' cs
      | some (s', .ret result) => some (s', result)

section Complete

variable {P R χ : Type*} {call : σ → P → χ → Option (σ × Next P R)} {pc pc' : P} {c : χ}
variable {cs : List χ} {result : R}

theorem complete_goto (h : call s pc c = some (s', .goto pc')) :
    complete call s pc (c :: cs) = complete call s' pc' cs := by
  simp only [complete, h]

theorem complete_ret (h : call s pc c = some (s', .ret result)) :
    complete call s pc (c :: cs) = some (s', result) := by
  simp only [complete, h]

end Complete

/-- A shared state and one local state for each thread. -/
structure Threads (ι σ κ : Type*) where
  shared : σ
  loc : ι → κ

section Interleaving

variable {ι κ χ : Type*} [DecidableEq ι]

/-- One thread, chosen by the label, takes a step of its own program. -/
def interleave (prog : ι → σ → κ → χ → Option (σ × κ)) (s : Threads ι σ κ)
    (a : ι × χ) : Option (Threads ι σ κ) :=
  (prog a.1 s.shared (s.loc a.1) a.2).map fun r =>
    ⟨r.1, Function.update s.loc a.1 r.2⟩

variable {prog : ι → σ → κ → χ → Option (σ × κ)} {s s' : Threads ι σ κ} {t : ι} {c : χ}

theorem interleave_eq_some :
    interleave prog s (t, c) = some s' ↔
      ∃ sh l, prog t s.shared (s.loc t) c = some (sh, l) ∧
        s' = ⟨sh, Function.update s.loc t l⟩ := by
  simp only [interleave, Option.map_eq_some_iff, Prod.exists]
  constructor
  · rintro ⟨sh, l, h, rfl⟩
    exact ⟨sh, l, h, rfl⟩
  · rintro ⟨sh, l, h, rfl⟩
    exact ⟨sh, l, h, rfl⟩

/-- While no other thread takes a step, a thread runs its program on the shared state. -/
theorem run_alone {cs : List χ} {sh sh' : σ} {loc : ι → κ} {l : κ}
    (h : run (fun x c => prog t x.1 x.2 c) (sh, loc t) cs = some (sh', l)) :
    run (interleave prog) ⟨sh, loc⟩ (cs.map (t, ·)) = some ⟨sh', Function.update loc t l⟩ := by
  induction cs generalizing sh loc with
  | nil =>
    cases h
    rw [List.map_nil, run_nil, Function.update_eq_self]
  | cons c cs ih =>
    obtain ⟨⟨shm, m⟩, hm, hrest⟩ := run_cons_eq_some.mp h
    refine run_cons_eq_some.mpr ⟨⟨shm, Function.update loc t m⟩, ?_, ?_⟩
    · exact interleave_eq_some.mpr ⟨shm, m, hm, rfl⟩
    · rw [ih (by rw [Function.update_self]; exact hrest), Function.update_idem]

/-- The steps of thread `t`, each of which uses up a part of the budget `μ`, are at most so many,
    whatever the steps of the others, which do not add to it. -/
theorem run_countP_thread_le {μ : Threads ι σ κ → Nat} {I : Threads ι σ κ → Prop}
    {as : List (ι × χ)} (hI : ∀ s a s', I s → interleave prog s a = some s' → I s')
    (hown : ∀ s c s', I s → interleave prog s (t, c) = some s' → μ s' + 1 ≤ μ s)
    (hother : ∀ s u c s', u ≠ t → I s → interleave prog s (u, c) = some s' → μ s' ≤ μ s)
    (hs : I s) (hrun : run (interleave prog) s as = some s') :
    as.countP (fun a => a.1 = t) ≤ μ s := by
  have hbudget := run_countP_le (I := I) (C := fun _ _ => True)
    (p := fun a : ι × χ => decide (a.1 = t)) (μ := μ) ?_ hs
    (along_of_forall (fun _ _ => trivial) s as) hrun
  · exact Nat.le_of_add_left_le hbudget
  · rintro s ⟨u, c⟩ m hs _ hm
    refine ⟨hI s _ m hs hm, ?_⟩
    by_cases hu : u = t
    · subst hu
      simpa using hown s c m hs hm
    · simpa [hu] using hother s u c m hu hs hm

/-- **Thread-modular step rule.**  `G` and `G'` are assertions about the shared
    state before and after the step, and `L t` is one about thread `t`; a step has
    to establish `G'`, re-establish the assertion of the thread that takes it, and
    leave those of the others true. -/
theorem interleave_preserves (G G' : σ → Prop) (L : ι → σ → κ → Prop)
    (hown : ∀ sh l sh' l', G sh → L t sh l → prog t sh l c = some (sh', l') →
      G' sh' ∧ L t sh' l')
    (hother : ∀ u sh l m sh' l', u ≠ t → G sh → L t sh l → L u sh m →
      prog t sh l c = some (sh', l') → L u sh' m)
    (hG : G s.shared) (hL : ∀ u, L u s.shared (s.loc u))
    (hstep : interleave prog s (t, c) = some s') :
    G' s'.shared ∧ ∀ u, L u s'.shared (s'.loc u) := by
  obtain ⟨sh, l, hp, rfl⟩ := interleave_eq_some.mp hstep
  obtain ⟨hG', hown'⟩ := hown _ _ _ _ hG (hL t) hp
  refine ⟨hG', fun u => ?_⟩
  by_cases hu : u = t
  · subst hu
    simpa using hown'
  · simpa [Function.update_of_ne hu] using hother u _ _ _ _ _ hu hG (hL t) (hL u) hp

end Interleaving

/-! ### Exclusive resources

`res l` is the resource that a thread in local state `l` holds, if any.  A step by which
a thread keeps its resource, drops it or takes one that nobody else holds keeps the
threads exclusive. -/

section Exclusive

variable {ι κ ρ : Type*}

def Exclusive (res : κ → Option ρ) (loc : ι → κ) : Prop :=
  ∀ t u r, res (loc t) = some r → res (loc u) = some r → t = u

def Held (res : κ → Option ρ) (loc : ι → κ) (r : ρ) : Prop := ∃ t, res (loc t) = some r

variable {res : κ → Option ρ} {loc : ι → κ} {t : ι} {l : κ} {r : ρ}

theorem Exclusive.ne_of_ne (h : Exclusive res loc) {u : ι} (hu : u ≠ t)
    (hr : res (loc t) = some r) : res (loc u) ≠ some r :=
  fun hr' => hu (h u t r hr' hr)

variable [DecidableEq ι]

theorem Exclusive.update (h : Exclusive res loc)
    (hl : ∀ r, res l = some r → res (loc t) = some r ∨ ∀ u, u ≠ t → res (loc u) ≠ some r) :
    Exclusive res (Function.update loc t l) := by
  have hother : ∀ u r, u ≠ t → res l = some r → res (loc u) ≠ some r := by
    intro u r hu hr
    rcases hl r hr with hold | hnew
    · exact h.ne_of_ne hu hold
    · exact hnew u hu
  intro u v r hu hv
  by_cases hut : u = t
  · subst hut
    by_cases hvt : v = u
    · exact hvt.symm
    · rw [Function.update_self] at hu
      rw [Function.update_of_ne hvt] at hv
      exact absurd hv (hother v r hvt hu)
  · rw [Function.update_of_ne hut] at hu
    by_cases hvt : v = t
    · subst hvt
      rw [Function.update_self] at hv
      exact absurd hu (hother u r hut hv)
    · rw [Function.update_of_ne hvt] at hv
      exact h u v r hu hv

theorem held_update_self (hr : res l = some r) : Held res (Function.update loc t l) r :=
  ⟨t, by rw [Function.update_self]; exact hr⟩

theorem Held.update (h : Held res loc r) (hkeep : res (loc t) = some r → res l = some r) :
    Held res (Function.update loc t l) r := by
  rcases h with ⟨u, hu⟩
  by_cases hut : u = t
  · subst hut
    exact held_update_self (hkeep hu)
  · exact ⟨u, by rw [Function.update_of_ne hut]; exact hu⟩

/-! What is held after a step that keeps the resource of its thread, takes `r` or drops it. -/

theorem held_update_keep (hl : res l = res (loc t)) {q : ρ} :
    Held res (Function.update loc t l) q ↔ Held res loc q := by
  refine ⟨fun h => ?_, fun h => h.update fun hq => hl.trans hq⟩
  have hback := h.update (t := t) (l := loc t) fun hq => by
    rw [Function.update_self] at hq
    exact hl ▸ hq
  rwa [Function.update_idem, Function.update_eq_self] at hback

theorem held_update_take (ht : res (loc t) = none) (hl : res l = some r) {q : ρ} :
    Held res (Function.update loc t l) q ↔ Held res loc q ∨ q = r := by
  constructor
  · rintro ⟨u, hu⟩
    by_cases hut : u = t
    · subst hut
      rw [Function.update_self, hl] at hu
      exact .inr (Option.some.inj hu).symm
    · rw [Function.update_of_ne hut] at hu
      exact .inl ⟨u, hu⟩
  · rintro (h | rfl)
    · exact h.update fun hq => absurd hq (by rw [ht]; exact nofun)
    · exact held_update_self hl

theorem held_update_drop (hex : Exclusive res loc) (ht : res (loc t) = some r)
    (hl : res l = none) {q : ρ} :
    Held res (Function.update loc t l) q ↔ Held res loc q ∧ q ≠ r := by
  constructor
  · rintro ⟨u, hu⟩
    by_cases hut : u = t
    · subst hut
      rw [Function.update_self, hl] at hu
      cases hu
    · rw [Function.update_of_ne hut] at hu
      refine ⟨⟨u, hu⟩, ?_⟩
      rintro rfl
      exact hut (hex u t q hu ht)
  · rintro ⟨h, hne⟩
    refine h.update fun hq => absurd ?_ hne
    rw [ht] at hq
    exact (Option.some.inj hq).symm

end Exclusive

end Transition
