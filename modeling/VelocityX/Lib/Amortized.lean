import Mathlib.Algebra.BigOperators.Group.Finset.Basic
import Mathlib.Algebra.Group.Action.Defs
import Mathlib.Algebra.Order.BigOperators.Group.Finset
import Mathlib.Data.Fintype.Card
import VelocityX.Lib.Transition

/-!
# Amortized step bounds

A potential pays for the steps of a run: every step takes its cost from it, up to what the
step gains.  So a run costs no more than the potential it starts with and the gains along
it.

For threads on a shared state the potential is a sum over the threads: a step pays with
the potential of its own thread, and may cost each of the others up to `d`, when it makes
work of theirs void.
-/

namespace Transition

variable {σ α : Type*} {step : σ → α → Option σ} {I : σ → Prop} {C : σ → α → Prop}
variable {Φ : σ → Nat} {cost gain : σ → α → σ → Nat} {s s' : σ} {as : List α}

/-- The sum of `f` over the steps of a run. -/
def total (step : σ → α → Option σ) (f : σ → α → σ → Nat) : σ → List α → Nat
  | _, [] => 0
  | s, a :: as =>
      match step s a with
      | none => 0
      | some s' => f s a s' + total step f s' as

theorem total_cons {f : σ → α → σ → Nat} {a : α} (h : step s a = some s') :
    total step f s (a :: as) = f s a s' + total step f s' as := by
  simp only [total, h]

/-- **Amortized cost of a run** whose steps all satisfy `C`. -/
theorem run_cost_le
    (hstep : ∀ s a s', I s → C s a → step s a = some s' →
      I s' ∧ Φ s' + cost s a s' ≤ Φ s + gain s a s')
    (hs : I s) (hC : Along step C s as) (hrun : run step s as = some s') :
    total step cost s as + Φ s' ≤ Φ s + total step gain s as := by
  induction as generalizing s with
  | nil =>
    cases hrun
    simp [total]
  | cons a as ih =>
    obtain ⟨m, hm, hrest⟩ := run_cons_eq_some.mp hrun
    obtain ⟨hI, hle⟩ := hstep s a m hs hC.1 hm
    have hlater := ih hI (hC.2 m hm) hrest
    simp only [total_cons hm]
    omega

theorem total_one (hrun : run step s as = some s') :
    total step (fun _ _ _ => 1) s as = as.length := by
  induction as generalizing s with
  | nil => rfl
  | cons a as ih =>
    obtain ⟨m, hm, hrest⟩ := run_cons_eq_some.mp hrun
    rw [total_cons hm, ih hrest, List.length_cons, Nat.add_comm]

/-- **Amortized length of a run.** -/
theorem run_length_le (hstep : ∀ s a s', step s a = some s' → Φ s' + 1 ≤ Φ s + gain s a s')
    (hrun : run step s as = some s') : as.length + Φ s' ≤ Φ s + total step gain s as := by
  rw [← total_one hrun]
  exact run_cost_le (I := fun _ => True) (C := fun _ _ => True)
    (fun s a s' _ _ hm => ⟨trivial, hstep s a s' hm⟩) trivial
    (along_of_forall (fun _ _ => trivial) s as) hrun

theorem total_add {f g : σ → α → σ → Nat} :
    total step (fun s a s' => f s a s' + g s a s') s as =
      total step f s as + total step g s as := by
  induction as generalizing s with
  | nil => rfl
  | cons a as ih =>
    simp only [total]
    cases step s a with
    | none => rfl
    | some m =>
      simp only [ih]
      omega

theorem total_mul {f : σ → α → σ → Nat} {k : Nat} :
    total step (fun s a s' => k * f s a s') s as = k * total step f s as := by
  induction as generalizing s with
  | nil => rfl
  | cons a as ih =>
    simp only [total]
    cases step s a with
    | none => rfl
    | some m => simp only [ih, Nat.mul_add]

theorem total_countP {p : α → Bool} (hrun : run step s as = some s') :
    total step (fun _ a _ => if p a then 1 else 0) s as = as.countP p := by
  induction as generalizing s with
  | nil => rfl
  | cons a as ih =>
    obtain ⟨m, hm, hrest⟩ := run_cons_eq_some.mp hrun
    rw [total_cons hm, ih hrest, List.countP_cons]
    omega

section Threads

variable {ι κ : Type*} [DecidableEq ι] [Fintype ι]

theorem sum_le_of_others {f g : ι → Nat} {t : ι} {d : Nat}
    (hother : ∀ u, u ≠ t → g u ≤ f u + d) :
    ∑ u, g u + f t ≤ ∑ u, f u + g t + (Fintype.card ι - 1) * d := by
  have hsplit : ∀ k : ι → Nat, ∑ u, k u = k t + ∑ u ∈ Finset.univ.erase t, k u :=
    fun k => (Finset.add_sum_erase _ k (Finset.mem_univ t)).symm
  have hrest : ∑ u ∈ Finset.univ.erase t, g u ≤ ∑ u ∈ Finset.univ.erase t, (f u + d) :=
    Finset.sum_le_sum fun u hu => hother u (Finset.ne_of_mem_erase hu)
  rw [Finset.sum_add_distrib, Finset.sum_const, Finset.card_erase_of_mem (Finset.mem_univ t),
    Finset.card_univ, smul_eq_mul] at hrest
  rw [hsplit f, hsplit g]
  omega

/-- The potential of all threads. -/
def potential (φ : σ → κ → Nat) (s : Threads ι σ κ) : Nat := ∑ t, φ s.shared (s.loc t)

variable {φ : σ → κ → Nat} {s : Threads ι σ κ}

omit [DecidableEq ι] in
theorem potential_le {b : Nat} (hle : ∀ sh l, φ sh l ≤ b) :
    potential φ s ≤ Fintype.card ι * b := by
  have hsum := Finset.sum_le_card_nsmul Finset.univ (fun t => φ s.shared (s.loc t)) b
    fun t _ => hle s.shared (s.loc t)
  rwa [Finset.card_univ, smul_eq_mul] at hsum

/-- **Thread-modular potential rule.**  A step pays from the potential of its own thread: one
    unit for itself, and what it costs the others, at most `d` each. -/
theorem potential_update {t : ι} {sh : σ} {l : κ} {own d : Nat}
    (hown : φ sh l + 1 + (Fintype.card ι - 1) * d ≤ φ s.shared (s.loc t) + own)
    (hother : ∀ m, φ sh m ≤ φ s.shared m + d) :
    potential φ ⟨sh, Function.update s.loc t l⟩ + 1 ≤ potential φ s + own := by
  have hsum := sum_le_of_others (t := t) (f := fun u => φ s.shared (s.loc u))
    (g := fun u => φ sh (Function.update s.loc t l u)) (d := d) fun u hu => by
      simpa [Function.update_of_ne hu] using hother (s.loc u)
  simp only [Function.update_self] at hsum
  simp only [potential]
  omega

end Threads

/-! ### The steps of one thread -/

section Own

variable {ι κ χ : Type*} [DecidableEq ι] {prog : ι → σ → κ → χ → Option (σ × κ)}
variable {I : Threads ι σ κ → Prop} {C : Threads ι σ κ → ι × χ → Prop}
variable {s s' : Threads ι σ κ} {as : List (ι × χ)} {t : ι}

/-- The label is one of thread `t`, and `p` holds of it. -/
def ownLabel (p : χ → Bool) (t : ι) (a : ι × χ) : Bool := decide (a.1 = t) && p a.2

theorem interleave_loc_other {u : ι} {c : χ} (hu : u ≠ t)
    (hstep : interleave prog s (u, c) = some s') : s'.loc t = s.loc t := by
  obtain ⟨sh, l, hp, rfl⟩ := interleave_eq_some.mp hstep
  exact Function.update_of_ne (Ne.symm hu) _ _

/-- **Steps for each call.**  A step inside a call uses up one unit of the rank of its thread, and
    a call raises the rank to `b` at most.  The steps of the other threads leave it alone. -/
theorem run_own_le {p : χ → Bool} {r : κ → Nat} {b : Nat}
    (hkeep : ∀ s a s', I s → C s a → interleave prog s a = some s' → I s')
    (hpaid : ∀ s c s', p c = true → I s → C s (t, c) → interleave prog s (t, c) = some s' →
      r (s'.loc t) + 1 ≤ r (s.loc t))
    (hcall : ∀ s c s', p c = false → I s → C s (t, c) → interleave prog s (t, c) = some s' →
      r (s'.loc t) ≤ b)
    (hs : I s) (hC : Along (interleave prog) C s as) (hrun : run (interleave prog) s as = some s') :
    as.countP (ownLabel p t) + r (s'.loc t) ≤
      r (s.loc t) + b * as.countP (ownLabel (fun c => !p c) t) := by
  rw [← total_countP hrun, ← total_countP hrun, ← total_mul]
  refine run_cost_le (I := I) (C := C) (Φ := fun m => r (m.loc t)) ?_ hs hC hrun
  rintro m ⟨u, c⟩ m' hm hc hstep
  refine ⟨hkeep m (u, c) m' hm hc hstep, ?_⟩
  by_cases hu : u = t
  · subst hu
    cases hp : p c with
    | true =>
      have := hpaid m c m' hp hm hc hstep
      simpa [ownLabel, hp] using this
    | false =>
      have := hcall m c m' hp hm hc hstep
      simp only [ownLabel, hp, decide_true, Bool.and_false, Bool.not_false, Bool.and_true,
        Bool.false_eq_true, if_false, if_true]
      omega
  · simp [ownLabel, hu, interleave_loc_other hu hstep]

end Own

end Transition
