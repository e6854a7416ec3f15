import Mathlib.Data.List.Nodup
import VelocityX.Lib.Transition

/-!
# Critical sections on an array of cells

Every thread runs one call: it takes a lock, works on one cell of a shared array in any
number of steps and gives the lock back.  When calls on the same cell take the same lock,
every run is serial: the calls take effect one after the other, in the order in which they
give their locks back.

A call is specified by its effect `atomic t` on the cell it finds.  `Simulation` relates
the steps to it: `R t pc B b` says that a call at `pc` which found its cell as `B` has made
it `b`.
-/

namespace Sections

open Transition

variable {ι γ ν β κ ρ : Type*}

structure Program (ι γ ν β κ ρ : Type*) where
  cell : ι → γ
  lock : ι → ν
  start : ι → κ
  inner : ι → κ → β → β × Next κ ρ

inductive Local (κ ρ : Type*) where
  | before
  | inside (pc : κ)
  | leaving (result : ρ)
  | returned (result : ρ)
deriving DecidableEq

/-- The thread is between taking its lock and giving it back. -/
def Local.Inside : Local κ ρ → Prop
  | .inside _ => True
  | .leaving _ => True
  | _ => False

def Local.after : Next κ ρ → Local κ ρ
  | .goto pc => .inside pc
  | .ret result => .leaving result

structure Shared (ι γ ν β : Type*) where
  cells : γ → β
  holder : ν → Option ι

abbrev State (ι γ ν β κ ρ : Type*) := Threads ι (Shared ι γ ν β) (Local κ ρ)

def init (cells : γ → β) : State ι γ ν β κ ρ := ⟨⟨cells, fun _ => none⟩, fun _ => .before⟩

variable [DecidableEq γ] [DecidableEq ν]

def program (P : Program ι γ ν β κ ρ) (t : ι) (sh : Shared ι γ ν β) (l : Local κ ρ) (_ : Unit) :
    Option (Shared ι γ ν β × Local κ ρ) :=
  match l with
  | .before =>
      match sh.holder (P.lock t) with
      | none =>
          some ({ sh with holder := Function.update sh.holder (P.lock t) (some t) },
            .inside (P.start t))
      | some _ => none
  | .inside pc =>
      let r := P.inner t pc (sh.cells (P.cell t))
      some ({ sh with cells := Function.update sh.cells (P.cell t) r.1 }, .after r.2)
  | .leaving result =>
      some ({ sh with holder := Function.update sh.holder (P.lock t) none }, .returned result)
  | .returned _ => none

abbrev step [DecidableEq ι] (P : Program ι γ ν β κ ρ) :
    State ι γ ν β κ ρ → ι × Unit → Option (State ι γ ν β κ ρ) :=
  interleave (program P)

/-- What a step and the rest of the call after it do together. -/
def finish (rest : κ → β → β × ρ) : β × Next κ ρ → β × ρ
  | (b, .goto pc) => rest pc b
  | (b, .ret result) => (b, result)

/-! ### Serial executions -/

omit [DecidableEq ν] in
/-- One whole call, with the results so far. -/
def serialStep (P : Program ι γ ν β κ ρ) (atomic : ι → β → β × ρ)
    (x : (γ → β) × List (ι × ρ)) (t : ι) : (γ → β) × List (ι × ρ) :=
  let r := atomic t (x.1 (P.cell t))
  (Function.update x.1 (P.cell t) r.1, x.2 ++ [(t, r.2)])

omit [DecidableEq ν] in
def serial (P : Program ι γ ν β κ ρ) (atomic : ι → β → β × ρ) (cells : γ → β)
    (order : List ι) : (γ → β) × List (ι × ρ) :=
  order.foldl (serialStep P atomic) (cells, [])

omit [DecidableEq ν] in
/-- The cells and the results are those of all calls in some order. -/
def Serializable (P : Program ι γ ν β κ ρ) (atomic : ι → β → β × ρ) (cells : γ → β)
    (s : State ι γ ν β κ ρ) : Prop :=
  ∃ order, order.Nodup ∧ (∀ t, t ∈ order) ∧ (serial P atomic cells order).1 = s.shared.cells ∧
    ∀ t result, s.loc t = .returned result → (t, result) ∈ (serial P atomic cells order).2

omit [DecidableEq γ] [DecidableEq ν] in
/-- No two threads are inside a call on the same cell. -/
def Exclusion (P : Program ι γ ν β κ ρ) (s : State ι γ ν β κ ρ) : Prop :=
  ∀ t u, (s.loc t).Inside → (s.loc u).Inside → P.cell t = P.cell u → t = u

omit [DecidableEq γ] [DecidableEq ν] in
/-- Calls on the same cell take the same lock. -/
def Guarded (P : Program ι γ ν β κ ρ) : Prop :=
  ∀ t u, P.cell t = P.cell u → P.lock t = P.lock u

structure Simulation (P : Program ι γ ν β κ ρ) (atomic : ι → β → β × ρ) (J : β → Prop)
    (R : ι → κ → β → β → Prop) : Prop where
  sound : ∀ t B, J B → J (atomic t B).1
  start : ∀ t B, J B → R t (P.start t) B B
  goto : ∀ t pc B b b' pc', J B → R t pc B b → P.inner t pc b = (b', .goto pc') → R t pc' B b'
  ret : ∀ t pc B b b' result, J B → R t pc B b → P.inner t pc b = (b', .ret result) →
    atomic t B = (b', result)

variable {P : Program ι γ ν β κ ρ} {atomic : ι → β → β × ρ} {J : β → Prop}
variable {R : ι → κ → β → β → Prop} {cells cs : γ → β} {holder : ν → Option ι}
variable {loc : ι → Local κ ρ} {l : Local κ ρ} {order : List ι} {t : ι} {pc : κ} {result : ρ}

/-! ### The locks -/

omit [DecidableEq γ] [DecidableEq ν] in
/-- The holder of a lock is the thread that is inside with it. -/
def Locked (P : Program ι γ ν β κ ρ) (holder : ν → Option ι) (loc : ι → Local κ ρ) : Prop :=
  ∀ k t, holder k = some t ↔ P.lock t = k ∧ (loc t).Inside

omit [DecidableEq γ] [DecidableEq ν] in
theorem locked_init : Locked P (fun _ => none) (fun _ => .before) :=
  fun _ _ => ⟨nofun, fun h => h.2.elim⟩

omit [DecidableEq γ] [DecidableEq ν] in
theorem Locked.exclusion (h : Locked P holder loc) (hguarded : Guarded P) {t u : ι}
    (ht : (loc t).Inside) (hu : (loc u).Inside) (hcell : P.cell t = P.cell u) : t = u := by
  have htake := (h (P.lock t) t).mpr ⟨rfl, ht⟩
  have hutake := (h (P.lock t) u).mpr ⟨(hguarded t u hcell).symm, hu⟩
  rw [htake] at hutake
  exact Option.some.inj hutake

section Update

variable [DecidableEq ι]

omit [DecidableEq γ] [DecidableEq ν] in
/-- A predicate that the step of `t` does not change holds of the same threads as before. -/
theorem update_iff {p : Local κ ρ → Prop} (h : p l ↔ p (loc t)) (u : ι) :
    p (Function.update loc t l u) ↔ p (loc u) := by
  by_cases hu : u = t
  · subst hu
    rw [Function.update_self]
    exact h
  · rw [Function.update_of_ne hu]

omit [DecidableEq γ] in
theorem Locked.enter (h : Locked P holder loc) (hout : ¬ (loc t).Inside)
    (hfree : holder (P.lock t) = none) (hl : l.Inside) :
    Locked P (Function.update holder (P.lock t) (some t)) (Function.update loc t l) := by
  intro k u
  by_cases hk : k = P.lock t
  · subst hk
    rw [Function.update_self]
    by_cases hu : u = t
    · subst hu
      simp [hl]
    · rw [Function.update_of_ne hu, ← h (P.lock t) u, hfree]
      exact ⟨fun hh => absurd (Option.some.inj hh).symm hu, nofun⟩
  · rw [Function.update_of_ne hk, h k u]
    by_cases hu : u = t
    · subst hu
      exact ⟨fun hh => absurd hh.2 hout, fun hh => absurd hh.1.symm hk⟩
    · rw [Function.update_of_ne hu]

omit [DecidableEq γ] in
theorem Locked.leave (h : Locked P holder loc) (hin : (loc t).Inside) (hl : ¬ l.Inside) :
    Locked P (Function.update holder (P.lock t) none) (Function.update loc t l) := by
  intro k u
  by_cases hk : k = P.lock t
  · subst hk
    rw [Function.update_self]
    by_cases hu : u = t
    · subst hu
      simp [hl]
    · rw [Function.update_of_ne hu, ← h (P.lock t) u, (h (P.lock t) t).mpr ⟨rfl, hin⟩]
      exact ⟨nofun, fun hh => absurd (Option.some.inj hh).symm hu⟩
  · rw [Function.update_of_ne hk, h k u]
    by_cases hu : u = t
    · subst hu
      exact ⟨fun hh => absurd hh.1.symm hk, fun hh => absurd hh.1.symm hk⟩
    · rw [Function.update_of_ne hu]

omit [DecidableEq γ] [DecidableEq ν] in
theorem Locked.stay (h : Locked P holder loc) (hl : l.Inside ↔ (loc t).Inside) :
    Locked P holder (Function.update loc t l) := by
  intro k u
  rw [update_iff hl u]
  exact h k u

end Update

/-! ### The invariant -/

/-- What a thread has done to its cell since it found it as `B`. -/
def Local.Rel (atomic : ι → β → β × ρ) (R : ι → κ → β → β → Prop) (t : ι) (B b : β) :
    Local κ ρ → Prop
  | .inside pc => R t pc B b
  | .leaving result => atomic t B = (b, result)
  | _ => True

omit [DecidableEq γ] [DecidableEq ν] in
theorem Local.rel_of_not_inside {B b : β} (h : ¬ l.Inside) : l.Rel atomic R t B b := by
  cases l with
  | before => trivial
  | inside pc => exact absurd trivial h
  | leaving result => exact absurd trivial h
  | returned result => trivial

/-- The calls that have returned took effect in the given order; the others have had the
    effect that `R` says on their cells, and none on other cells. -/
structure Inv (P : Program ι γ ν β κ ρ) (atomic : ι → β → β × ρ) (J : β → Prop)
    (R : ι → κ → β → β → Prop) (cells cs : γ → β) (holder : ν → Option ι)
    (loc : ι → Local κ ρ) (order : List ι) : Prop where
  locked : Locked P holder loc
  nodup : order.Nodup
  mem : ∀ t, t ∈ order ↔ ∃ result, loc t = .returned result
  results : ∀ t result, loc t = .returned result → (t, result) ∈ (serial P atomic cells order).2
  sound : ∀ t, J ((serial P atomic cells order).1 (P.cell t))
  quiet : ∀ i, (∀ t, P.cell t = i → ¬ (loc t).Inside) →
    (serial P atomic cells order).1 i = cs i
  busy : ∀ t, (loc t).Rel atomic R t ((serial P atomic cells order).1 (P.cell t)) (cs (P.cell t))

omit [DecidableEq ν] in
theorem inv_init (hJ : ∀ t, J (cells (P.cell t))) :
    Inv P atomic J R cells cells (fun _ => none) (fun _ => .before) [] :=
  ⟨locked_init, List.nodup_nil, fun _ => ⟨nofun, nofun⟩, nofun, hJ, fun _ _ => rfl,
    fun _ => trivial⟩

omit [DecidableEq ν] in
theorem serial_concat : serial P atomic cells (order ++ [t]) =
    serialStep P atomic (serial P atomic cells order) t := by
  rw [serial, List.foldl_append]
  rfl

variable [DecidableEq ι]

theorem Inv.enter (h : Inv P atomic J R cells cs holder loc order)
    (hsim : Simulation P atomic J R) (hguarded : Guarded P) (hloc : loc t = .before)
    (hfree : holder (P.lock t) = none) :
    Inv P atomic J R cells cs (Function.update holder (P.lock t) (some t))
      (Function.update loc t (.inside (P.start t))) order := by
  have hout : ¬ (loc t).Inside := by
    rw [hloc]
    exact id
  have hreturned : ∀ result u, Function.update loc t (.inside (P.start t)) u = .returned result ↔
      loc u = .returned result :=
    fun result => update_iff (p := (· = .returned result)) (by rw [hloc]; exact ⟨nofun, nofun⟩)
  -- Nobody is inside on the cell, since the lock would be held.
  have hcell : (serial P atomic cells order).1 (P.cell t) = cs (P.cell t) := by
    refine h.quiet _ fun u hu hinside => ?_
    have hheld := (h.locked (P.lock t) u).mpr ⟨hguarded u t hu, hinside⟩
    rw [hfree] at hheld
    cases hheld
  refine ⟨h.locked.enter hout hfree trivial, h.nodup, ?_, ?_, h.sound, ?_, ?_⟩
  · intro u
    simp only [hreturned]
    exact h.mem u
  · intro u result hu
    exact h.results u result ((hreturned result u).mp hu)
  · intro i hi
    refine h.quiet i fun u hu hinside => hi u hu ?_
    have hut : u ≠ t := fun hut => hout (hut ▸ hinside)
    rw [Function.update_of_ne hut]
    exact hinside
  · intro u
    by_cases hut : u = t
    · subst hut
      rw [Function.update_self, ← hcell]
      exact hsim.start u _ (h.sound u)
    · rw [Function.update_of_ne hut]
      exact h.busy u

omit [DecidableEq ν] in
theorem Inv.work (h : Inv P atomic J R cells cs holder loc order)
    (hsim : Simulation P atomic J R) (hguarded : Guarded P) (hloc : loc t = .inside pc) {b : β}
    {next : Next κ ρ} (hinner : P.inner t pc (cs (P.cell t)) = (b, next)) :
    Inv P atomic J R cells (Function.update cs (P.cell t) b) holder
      (Function.update loc t (.after next)) order := by
  have hin : (loc t).Inside := by
    rw [hloc]
    trivial
  have hafter : (Local.after next : Local κ ρ).Inside := by cases next <;> trivial
  have hinside : ∀ u, (Function.update loc t (.after next) u).Inside ↔ (loc u).Inside :=
    update_iff ⟨fun _ => hin, fun _ => hafter⟩
  have hreturned : ∀ result u, Function.update loc t (.after next) u = .returned result ↔
      loc u = .returned result := by
    intro result
    refine update_iff (p := (· = .returned result)) ?_
    rw [hloc]
    cases next <;> exact ⟨nofun, nofun⟩
  have hrel : R t pc ((serial P atomic cells order).1 (P.cell t)) (cs (P.cell t)) := by
    have hbusy := h.busy t
    rwa [hloc] at hbusy
  refine ⟨h.locked.stay ⟨fun _ => hin, fun _ => hafter⟩, h.nodup, ?_, ?_, h.sound, ?_, ?_⟩
  · intro u
    simp only [hreturned]
    exact h.mem u
  · intro u result hu
    exact h.results u result ((hreturned result u).mp hu)
  · intro i hi
    have hne : i ≠ P.cell t := fun hit => hi t hit.symm ((hinside t).mpr hin)
    rw [Function.update_of_ne hne]
    exact h.quiet i fun u hu hu' => hi u hu ((hinside u).mpr hu')
  · intro u
    by_cases hut : u = t
    · subst hut
      rw [Function.update_self, Function.update_self]
      cases next with
      | goto pc' => exact hsim.goto _ _ _ _ _ _ (h.sound u) hrel hinner
      | ret result => exact hsim.ret _ _ _ _ _ _ (h.sound u) hrel hinner
    · rw [Function.update_of_ne hut]
      by_cases hcell : P.cell u = P.cell t
      · exact Local.rel_of_not_inside fun hu =>
          hut (h.locked.exclusion hguarded hu hin hcell)
      · rw [Function.update_of_ne hcell]
        exact h.busy u

theorem Inv.leave (h : Inv P atomic J R cells cs holder loc order)
    (hsim : Simulation P atomic J R) (hguarded : Guarded P) (hloc : loc t = .leaving result) :
    Inv P atomic J R cells cs (Function.update holder (P.lock t) none)
      (Function.update loc t (.returned result)) (order ++ [t]) := by
  have hin : (loc t).Inside := by
    rw [hloc]
    trivial
  have hatomic : atomic t ((serial P atomic cells order).1 (P.cell t)) =
      (cs (P.cell t), result) := by
    have hbusy := h.busy t
    rwa [hloc] at hbusy
  have hcells : (serial P atomic cells (order ++ [t])).1 =
      Function.update (serial P atomic cells order).1 (P.cell t) (cs (P.cell t)) := by
    rw [serial_concat, serialStep, hatomic]
  have hresults : (serial P atomic cells (order ++ [t])).2 =
      (serial P atomic cells order).2 ++ [(t, result)] := by
    rw [serial_concat, serialStep, hatomic]
  have hnotMem : t ∉ order := by
    rw [h.mem t, hloc]
    exact nofun
  refine ⟨h.locked.leave hin id, ?_, ?_, ?_, ?_, ?_, ?_⟩
  · rw [← List.concat_eq_append]
    exact h.nodup.concat hnotMem
  · intro u
    rw [List.mem_append, List.mem_singleton]
    by_cases hut : u = t
    · subst hut
      rw [Function.update_self]
      exact ⟨fun _ => ⟨result, rfl⟩, fun _ => .inr rfl⟩
    · rw [Function.update_of_ne hut, h.mem u]
      exact ⟨fun hu => hu.resolve_right hut, .inl⟩
  · intro u r hu
    rw [hresults]
    by_cases hut : u = t
    · subst hut
      rw [Function.update_self] at hu
      cases hu
      exact List.mem_append_right _ List.mem_cons_self
    · rw [Function.update_of_ne hut] at hu
      exact List.mem_append_left _ (h.results u r hu)
  · intro u
    rw [hcells]
    by_cases hcell : P.cell u = P.cell t
    · have hsound := hsim.sound t _ (h.sound t)
      rw [hatomic] at hsound
      rw [hcell, Function.update_self]
      exact hsound
    · rw [Function.update_of_ne hcell]
      exact h.sound u
  · intro i hi
    rw [hcells]
    by_cases hit : i = P.cell t
    · subst hit
      exact Function.update_self _ _ _
    · rw [Function.update_of_ne hit]
      refine h.quiet i fun u hu hinside => hi u hu ?_
      have hut : u ≠ t := by
        rintro rfl
        exact hit hu.symm
      rw [Function.update_of_ne hut]
      exact hinside
  · intro u
    by_cases hut : u = t
    · subst hut
      rw [Function.update_self]
      trivial
    · rw [Function.update_of_ne hut, hcells]
      by_cases hcell : P.cell u = P.cell t
      · exact Local.rel_of_not_inside fun hu =>
          hut (h.locked.exclusion hguarded hu hin hcell)
      · rw [Function.update_of_ne hcell]
        exact h.busy u

/-! ### Runs -/

variable {s s' : State ι γ ν β κ ρ}

theorem Inv.step (h : Inv P atomic J R cells s.shared.cells s.shared.holder s.loc order)
    (hsim : Simulation P atomic J R) (hguarded : Guarded P) {a : ι × Unit}
    (hstep : step P s a = some s') :
    ∃ order, Inv P atomic J R cells s'.shared.cells s'.shared.holder s'.loc order := by
  obtain ⟨t, c⟩ := a
  obtain ⟨sh, l, hprog, rfl⟩ := interleave_eq_some.mp hstep
  cases hloc : s.loc t with
  | before =>
    simp only [program, hloc] at hprog
    cases hholder : s.shared.holder (P.lock t) with
    | none =>
      simp only [hholder] at hprog
      cases hprog
      exact ⟨order, h.enter hsim hguarded hloc hholder⟩
    | some u =>
      simp only [hholder] at hprog
      cases hprog
  | inside pc =>
    simp only [program, hloc] at hprog
    cases hprog
    exact ⟨order, h.work hsim hguarded hloc rfl⟩
  | leaving result =>
    simp only [program, hloc] at hprog
    cases hprog
    exact ⟨order ++ [t], h.leave hsim hguarded hloc⟩
  | returned result =>
    simp only [program, hloc] at hprog
    cases hprog

theorem run_inv (hsim : Simulation P atomic J R) (hguarded : Guarded P)
    (hJ : ∀ t, J (cells (P.cell t))) {sched : List (ι × Unit)}
    (hrun : run (Sections.step P) (init cells) sched = some s) :
    ∃ order, Inv P atomic J R cells s.shared.cells s.shared.holder s.loc order :=
  run_invariant
    (I := fun s => ∃ order, Inv P atomic J R cells s.shared.cells s.shared.holder s.loc order)
    (fun _ _ _ ⟨_, h⟩ hstep => h.step hsim hguarded hstep) ⟨[], inv_init hJ⟩ hrun

omit [DecidableEq ν] [DecidableEq ι] in
theorem Inv.serializable
    (h : Inv P atomic J R cells s.shared.cells s.shared.holder s.loc order)
    (hdone : ∀ t, ∃ result, s.loc t = .returned result) : Serializable P atomic cells s := by
  refine ⟨order, h.nodup, fun t => (h.mem t).mpr (hdone t), funext fun i => ?_, h.results⟩
  refine h.quiet i fun t _ hinside => ?_
  obtain ⟨result, hresult⟩ := hdone t
  rw [hresult] at hinside
  exact hinside

/-- Without the guard two calls on one cell can be inside at once. -/
theorem guarded_of_exclusion
    (h : ∀ sched s, run (Sections.step P) (init cells) sched = some s → Exclusion P s) :
    Guarded P := by
  intro t u hcell
  by_contra hlock
  have htu : t ≠ u := fun htu => hlock (congrArg P.lock htu)
  let holder : ν → Option ι := Function.update (fun _ => none) (P.lock t) (some t)
  let loc : ι → Local κ ρ := Function.update (fun _ => .before) t (.inside (P.start t))
  have hloc : loc u = .before := Function.update_of_ne (Ne.symm htu) _ _
  have hfree : holder (P.lock u) = none := Function.update_of_ne (Ne.symm hlock) _ _
  have hfirst : Sections.step P (init cells) (t, ()) = some ⟨⟨cells, holder⟩, loc⟩ := rfl
  have hsecond : Sections.step P ⟨⟨cells, holder⟩, loc⟩ (u, ()) = some
      ⟨⟨cells, Function.update holder (P.lock u) (some u)⟩,
        Function.update loc u (.inside (P.start u))⟩ := by
    refine interleave_eq_some.mpr ⟨_, _, ?_, rfl⟩
    simp only [program, hloc, hfree]
  have hrun := run_cons_eq_some.mpr ⟨_, hfirst, run_cons_eq_some.mpr ⟨_, hsecond, run_nil⟩⟩
  refine htu (h _ _ hrun t u ?_ ?_ hcell)
  · show (Function.update loc u _ t).Inside
    rw [Function.update_of_ne htu]
    have hinside : loc t = .inside (P.start t) := Function.update_self _ _ _
    rw [hinside]
    trivial
  · show (Function.update loc u _ u).Inside
    rw [Function.update_self]
    trivial

end Sections
