import Mathlib.Logic.Function.Basic

/-!
# A maximum that threads raise

Threads bring values to a shared cell and raise it with a compare-exchange loop: a thread leaves
the loop when the cell has reached its value, whoever raised it.  `value l` is the value that a
thread with local state `l` still has to bring, and `log` lists the values of all threads so far.
-/

variable {ι κ : Type*} {value : κ → Option Nat} {loc : ι → κ} {cell cell' : Nat}
  {log log' : List Nat}

/-- Every value has reached the cell or is still to be brought, and the cell holds one of them. -/
structure Raised (value : κ → Option Nat) (loc : ι → κ) (cell : Nat) (log : List Nat) : Prop where
  reached : ∀ x ∈ log, x ≤ cell ∨ ∃ t, value (loc t) = some x
  brought : ∀ t x, value (loc t) = some x → x ∈ log
  attained : cell = 0 ∨ cell ∈ log

/-- What one step of a thread, whose value was `v` and becomes `v'`, does to the cell. -/
inductive Raising (v v' : Option Nat) (cell : Nat) (log : List Nat) : Nat → List Nat → Prop
  | keep (hv : v' = v) : Raising v v' cell log cell log
  | start (x : Nat) (hv : v = none) (hv' : v' = some x) : Raising v v' cell log cell (log ++ [x])
  | settle (x raised : Nat) (hv : v = some x) (hv' : v' = none) (hcell : raised = max cell x) :
      Raising v v' cell log raised log

theorem Raising.le {v v' : Option Nat} (h : Raising v v' cell log cell' log') : cell ≤ cell' := by
  cases h with
  | keep hv => exact Nat.le_refl _
  | start x hv hv' => exact Nat.le_refl _
  | settle x raised hv hv' hcell => exact hcell ▸ Nat.le_max_left _ _

namespace Raised

theorem init (h : ∀ t, value (loc t) = none) : Raised value loc 0 [] := by
  constructor
  · exact nofun
  · intro t x hx
    rw [h t] at hx
    cases hx
  · exact Or.inl rfl

/-- **Step rule.** -/
theorem update [DecidableEq ι] (h : Raised value loc cell log) {t : ι} {l : κ}
    (hstep : Raising (value (loc t)) (value l) cell log cell' log') :
    Raised value (Function.update loc t l) cell' log' := by
  -- the other threads still have what they had
  have hother : ∀ u x, u ≠ t → (value (Function.update loc t l u) = some x ↔
      value (loc u) = some x) := by
    intro u x hu
    rw [Function.update_of_ne hu]
  have hself : value (Function.update loc t l t) = value l := by
    rw [Function.update_self]
  cases hstep with
  | keep hv =>
    have hsame : ∀ u, value (Function.update loc t l u) = value (loc u) := by
      intro u
      by_cases hu : u = t
      · rw [hu, hself, hv]
      · rw [Function.update_of_ne hu]
    constructor
    · intro x hx
      rcases h.reached x hx with hle | ⟨u, hu⟩
      · exact Or.inl hle
      · exact Or.inr ⟨u, by rw [hsame, hu]⟩
    · intro u x hu
      rw [hsame] at hu
      exact h.brought u x hu
    · exact h.attained
  | start y hv hv' =>
    constructor
    · intro x hx
      rcases List.mem_append.mp hx with hold | hnew
      · rcases h.reached x hold with hle | ⟨u, hu⟩
        · exact Or.inl hle
        · refine Or.inr ⟨u, (hother u x ?_).mpr hu⟩
          rintro rfl
          rw [hv] at hu
          cases hu
      · obtain rfl := List.mem_singleton.mp hnew
        exact Or.inr ⟨t, by rw [hself, hv']⟩
    · intro u x hu
      by_cases hut : u = t
      · rw [hut, hself, hv'] at hu
        cases hu
        simp
      · exact List.mem_append_left _ (h.brought u x ((hother u x hut).mp hu))
    · exact h.attained.imp_right (List.mem_append_left _)
  | settle y raised hv hv' hcell =>
    constructor
    · intro x hx
      rw [hcell]
      rcases h.reached x hx with hle | ⟨u, hu⟩
      · exact Or.inl (Nat.le_trans hle (Nat.le_max_left _ _))
      · by_cases hut : u = t
        · rw [hut, hv] at hu
          cases hu
          exact Or.inl (Nat.le_max_right _ _)
        · exact Or.inr ⟨u, (hother u x hut).mpr hu⟩
    · intro u x hu
      by_cases hut : u = t
      · rw [hut, hself, hv'] at hu
        cases hu
      · exact h.brought u x ((hother u x hut).mp hu)
    · rw [hcell]
      rcases Nat.le_total y cell with hle | hge
      · rw [Nat.max_eq_left hle]
        exact h.attained
      · rw [Nat.max_eq_right hge]
        exact Or.inr (h.brought t y hv)

/-- When no thread has anything left to bring, the cell holds the maximum. -/
theorem settled (h : Raised value loc cell log) (hnone : ∀ t, value (loc t) = none) :
    (∀ x ∈ log, x ≤ cell) ∧ cell = log.foldr max 0 := by
  have hle : ∀ x ∈ log, x ≤ cell := by
    intro x hx
    rcases h.reached x hx with hle | ⟨t, ht⟩
    · exact hle
    · rw [hnone t] at ht
      cases ht
  have hfold : ∀ (xs : List Nat) (b : Nat), (∀ x ∈ xs, x ≤ b) → xs.foldr max 0 ≤ b := by
    intro xs b
    induction xs with
    | nil => exact fun _ => Nat.zero_le b
    | cons x xs ih =>
      intro hxs
      exact Nat.max_le.mpr ⟨hxs x List.mem_cons_self,
        ih fun y hy => hxs y (List.mem_cons_of_mem x hy)⟩
  have hmem : ∀ (xs : List Nat) (x : Nat), x ∈ xs → x ≤ xs.foldr max 0 := by
    intro xs x hx
    induction xs with
    | nil => cases hx
    | cons y xs ih =>
      rcases List.mem_cons.mp hx with rfl | hrest
      · exact Nat.le_max_left _ _
      · exact Nat.le_trans (ih hrest) (Nat.le_max_right _ _)
  refine ⟨hle, Nat.le_antisymm ?_ (hfold log cell hle)⟩
  rcases h.attained with hzero | hattained
  · omega
  · exact hmem log cell hattained

end Raised
