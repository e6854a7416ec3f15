import Mathlib.Algebra.BigOperators.Group.Finset.Piecewise
import Mathlib.Data.Nat.ModEq

/-!
# Sums over all threads

`Tally μ loc n` says that only finitely many threads have a local state of weight `μ` other than
0, and that the weights of all threads sum to `n`.  A step changes the local state of one thread,
and so the tally by the difference of two weights.

`Owes M μ loc x target` says that the counter `x`, a number below `M`, comes to `target` modulo `M`
once every thread has added its weight to it.
-/

variable {ι κ : Type*}

def Tally (μ : κ → Nat) (loc : ι → κ) (n : Nat) : Prop :=
  ∃ ts : Finset ι, (∀ t, t ∉ ts → μ (loc t) = 0) ∧ ∑ t ∈ ts, μ (loc t) = n

variable {μ ν : κ → Nat} {loc loc' : ι → κ} {m n : Nat}

theorem tally_zero (h : ∀ t, μ (loc t) = 0) : Tally μ loc 0 :=
  ⟨∅, fun t _ => h t, Finset.sum_empty⟩

namespace Tally

theorem eq_zero (ht : Tally μ loc n) (h : ∀ t, μ (loc t) = 0) : n = 0 := by
  obtain ⟨ts, _, rfl⟩ := ht
  exact Finset.sum_eq_zero fun t _ => h t

theorem congr (ht : Tally μ loc n) (h : ∀ t, ν (loc' t) = μ (loc t)) : Tally ν loc' n := by
  obtain ⟨ts, hout, hsum⟩ := ht
  refine ⟨ts, fun t hmem => ?_, ?_⟩
  · rw [h t]
    exact hout t hmem
  · rw [← hsum]
    exact Finset.sum_congr rfl fun t _ => h t

variable [DecidableEq ι]

/-- A thread of weight 0 may be counted as well. -/
theorem exists_mem (ht : Tally μ loc n) (t : ι) :
    ∃ ts : Finset ι, t ∈ ts ∧ (∀ u, u ∉ ts → μ (loc u) = 0) ∧ ∑ u ∈ ts, μ (loc u) = n := by
  obtain ⟨ts, hout, hsum⟩ := ht
  refine ⟨insert t ts, Finset.mem_insert_self t ts, fun u hu => ?_, ?_⟩
  · exact hout u fun hmem => hu (Finset.mem_insert_of_mem hmem)
  · rw [← hsum]
    exact Finset.sum_insert_of_eq_zero_if_notMem (hout t)

/-- **Update rule.**  What one thread gains or loses, the tally gains or loses. -/
theorem update (ht : Tally μ loc n) (t : ι) (l : κ) :
    ∃ n', Tally μ (Function.update loc t l) n' ∧ n' + μ (loc t) = n + μ l := by
  obtain ⟨ts, hmem, hout, hsum⟩ := ht.exists_mem t
  have hweights : ∀ u, μ (Function.update loc t l u) =
      Function.update (fun u => μ (loc u)) t (μ l) u := by
    intro u
    by_cases hut : u = t
    · subst hut
      rw [Function.update_self, Function.update_self]
    · rw [Function.update_of_ne hut, Function.update_of_ne hut]
  have hrest := Finset.add_sum_erase ts (fun u => μ (loc u)) hmem
  refine ⟨_, ⟨ts, fun u hu => ?_, rfl⟩, ?_⟩
  · have hut : u ≠ t := fun heq => hu (heq ▸ hmem)
    rw [Function.update_of_ne hut]
    exact hout u hu
  · simp only [hweights]
    rw [Finset.sum_update_of_mem hmem, Finset.sdiff_singleton_eq_erase]
    omega

theorem update_keep (ht : Tally μ loc n) {t : ι} {l : κ} (h : μ l = μ (loc t)) :
    Tally μ (Function.update loc t l) n := by
  obtain ⟨n', ht', hn'⟩ := ht.update t l
  obtain rfl : n' = n := by omega
  exact ht'

end Tally

def Owes (M : Nat) (μ : κ → Nat) (loc : ι → κ) (x target : Nat) : Prop :=
  x < M ∧ ∃ n, Tally μ loc n ∧ x + n ≡ target [MOD M]

/-- What a step of a thread, whose weight was `m` and becomes `m'`, does to the counter and to its
    target. -/
inductive Paying (M m m' x target : Nat) : Nat → Nat → Prop
  | keep (hm : m' = m) : Paying M m m' x target x target
  | request (hm : m = 0) : Paying M m m' x target x (target + m')
  | pay (d : Nat) (hm : m = m' + d) : Paying M m m' x target ((x + d) % M) target

namespace Owes

variable {M x x' target target' : Nat}

theorem of_zero (h : ∀ t, μ (loc t) = 0) (hx : x < M) (htarget : x ≡ target [MOD M]) :
    Owes M μ loc x target :=
  ⟨hx, 0, tally_zero h, htarget⟩

/-- When no thread owes anything the counter has reached its target. -/
theorem settled (ho : Owes M μ loc x target) (h : ∀ t, μ (loc t) = 0) : x = target % M := by
  obtain ⟨hlt, n, htally, hx⟩ := ho
  obtain rfl := htally.eq_zero h
  rw [← hx, Nat.add_zero, Nat.mod_eq_of_lt hlt]

/-- **Step rule.** -/
theorem update [DecidableEq ι] (ho : Owes M μ loc x target) {t : ι} {l : κ}
    (hstep : Paying M (μ (loc t)) (μ l) x target x' target') :
    Owes M μ (Function.update loc t l) x' target' := by
  obtain ⟨hlt, n, htally, hx⟩ := ho
  obtain ⟨n', htally', hn'⟩ := htally.update t l
  cases hstep with
  | keep hm =>
    obtain rfl : n' = n := by omega
    exact ⟨hlt, n', htally', hx⟩
  | request hm =>
    obtain rfl : n' = n + μ l := by omega
    exact ⟨hlt, _, htally', by rw [← Nat.add_assoc]; exact hx.add_right _⟩
  | pay d hm =>
    refine ⟨Nat.mod_lt _ (by omega), n', htally', ?_⟩
    have hsum : x + d + n' = x + n := by omega
    calc (x + d) % M + n' ≡ x + d + n' [MOD M] := (Nat.mod_modEq _ _).add_right _
      _ = x + n := hsum
      _ ≡ target [MOD M] := hx

end Owes
