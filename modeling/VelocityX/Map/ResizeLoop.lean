import Mathlib.Algebra.Order.BigOperators.Group.Finset
import VelocityX.Lib.Word
import VelocityX.Map.ResizeThreads

/-!
# The migration loop of a resize

The loop of `help_resize` in `src/map/concurrent.rs`, run by any finite number of helpers on the
`progress` of one resize state.  A step is the load or a `fetch_add` of `progress`, a test of the
loop guard, or one call of `migrate_bucket`; the arithmetic is that of words of `w` bits.  What
`migrate_bucket` does to the tables is left to `ResizeThreads`, whose steps are these as long as no
word wraps.

A helper that has left the loop has come to `complete_resize`, and takes no step here.
-/

namespace VelocityX.Map.Resizing

open Transition

variable {ι K V : Type*}

/-- `progress`, and the bucket indices that have been passed to `migrate_bucket`. -/
structure Progress where
  progress : Nat
  visited : List Nat

/-- In the loop, or about to load `progress` for it. -/
def HelpPc.InLoop : HelpPc → Prop
  | .loadProgress => True
  | .test _ => True
  | .migrate _ _ _ => True
  | .fetchAdd _ _ => True
  | _ => False

def loopStep (w oldCapacity : Nat) (p : Progress) : HelpPc → Option (Progress × HelpPc)
  | .loadProgress => some (p, .test p.progress)
  | .test migrated =>
      if migrated < oldCapacity then
        some (p, .migrate migrated (min (Word.add w migrated 16) oldCapacity) migrated)
      else
        some (p, .storeTable)
  | .migrate migrated nextMigrated i =>
      if i < nextMigrated then
        some ({ p with visited := p.visited ++ [i] }, .migrate migrated nextMigrated (i + 1))
      else
        some (p, .fetchAdd migrated nextMigrated)
  | .fetchAdd migrated nextMigrated =>
      some ({ p with progress := Word.add w p.progress (Word.sub w nextMigrated migrated) },
        .test p.progress)
  | _ => none

abbrev LoopState (ι : Type*) := Threads ι Progress HelpPc

abbrev loopsStep [DecidableEq ι] (w oldCapacity : Nat) :
    LoopState ι → ι × Unit → Option (LoopState ι) :=
  interleave fun _ p pc _ => loopStep w oldCapacity p pc

/-- The helpers before their loops. -/
def loopsInit [DecidableEq ι] (helpers : Finset ι) : LoopState ι :=
  ⟨⟨0, []⟩, fun t => if t ∈ helpers then .loadProgress else .storeTable⟩

/-! ### The loop among the steps of a resize -/

section Refinement

variable {w st : Nat} {sh sh' : Shared K V} {pc pc' : HelpPc}

/-- What the loops for the resize state `st` see of the memory. -/
def Shared.loop (sh : Shared K V) (st : Nat) : Progress :=
  ⟨(sh.states st).progress, (sh.migrated.filter fun visit => visit.1 = st).map Prod.snd⟩

/-- No word wraps in the next step. -/
def HelpPc.Fits (w progress : Nat) : HelpPc → Prop
  | .test migrated => migrated + 16 < 2 ^ w
  | .fetchAdd migrated nextMigrated =>
      migrated ≤ nextMigrated ∧ nextMigrated < 2 ^ w ∧
        progress + (nextMigrated - migrated) < 2 ^ w
  | _ => True

/-- The loop takes the steps of `help_resize`. -/
theorem loopStep_of_helpStep (hloop : pc.InLoop) (hfits : pc.Fits w (sh.states st).progress)
    (hstep : helpStep st sh pc = (sh', .goto pc')) :
    loopStep w (sh.states st).oldCapacity (sh.loop st) pc = some (sh'.loop st, pc') := by
  cases pc with
  | loadProgress =>
    cases hstep
    rfl
  | test m =>
    have hadd : Word.add w m 16 = m + 16 := Word.add_of_lt hfits
    rw [helpStep] at hstep
    rw [loopStep]
    split at hstep
    · next hlt =>
      cases hstep
      rw [if_pos hlt, hadd]
    · next hge =>
      cases hstep
      rw [if_neg hge]
  | migrate m n i =>
    rw [helpStep] at hstep
    rw [loopStep]
    split at hstep
    · next hlt =>
      cases hstep
      rw [if_pos hlt]
      simp [Shared.loop, Shared.migrateBucket, List.filter_append]
    · next hge =>
      cases hstep
      rw [if_neg hge]
  | fetchAdd m n =>
    obtain ⟨hle, hlt, hsum⟩ := hfits
    cases hstep
    have hsub : Word.sub w n m = n - m := Word.sub_of_le hle hlt
    have hadd : Word.add w (sh.states st).progress (n - m) = (sh.states st).progress + (n - m) :=
      Word.add_of_lt hsum
    simp only [loopStep, Shared.loop, hsub, hadd, Shared.fetchAdd, Function.update_self]
  | _ => exact hloop.elim

end Refinement

/-! ### One step

`weight` counts a helper that will call `fetch_add` on a value below the capacity or has still to
find out; when the last `fetch_add` has brought it past the capacity it counts no more. -/

def HelpPc.weight (oldCapacity : Nat) : HelpPc → Nat
  | .loadProgress => 1
  | .test migrated => if migrated < oldCapacity then 1 else 0
  | .migrate _ _ _ => 1
  | .fetchAdd _ _ => 1
  | _ => 0

/-- A bound for the steps to the next `fetch_add`, or out of the loop. -/
def HelpPc.cost (oldCapacity : Nat) : HelpPc → Nat
  | .loadProgress => 21
  | .test migrated => if migrated < oldCapacity then 20 else 1
  | .migrate _ nextMigrated i => (nextMigrated - i) + 2
  | .fetchAdd _ _ => 1
  | _ => 0

/-- A chunk of a helper lies in the table. -/
def HelpPc.Bounded (oldCapacity : Nat) : HelpPc → Prop
  | .migrate migrated nextMigrated i =>
      migrated < oldCapacity ∧ nextMigrated = min (migrated + 16) oldCapacity ∧
        migrated ≤ i ∧ i ≤ nextMigrated
  | .fetchAdd migrated nextMigrated =>
      migrated < oldCapacity ∧ nextMigrated = min (migrated + 16) oldCapacity
  | _ => True

/-- The steps of a helper whose chunk lies in the table. -/
inductive LoopMove (w cap : Nat) (p : Progress) : HelpPc → Progress → HelpPc → Prop where
  | load : LoopMove w cap p .loadProgress p (.test p.progress)
  | enter {m : Nat} (hlt : m < cap) :
      LoopMove w cap p (.test m) p (.migrate m (min (m + 16) cap) m)
  | leave {m : Nat} (hge : ¬ m < cap) : LoopMove w cap p (.test m) p .storeTable
  | visit {m n i : Nat} (hm : m < cap) (hn : n = min (m + 16) cap) (hmi : m ≤ i) (hlt : i < n) :
      LoopMove w cap p (.migrate m n i) { p with visited := p.visited ++ [i] }
        (.migrate m n (i + 1))
  | chunkDone {m n : Nat} (hm : m < cap) (hn : n = min (m + 16) cap) :
      LoopMove w cap p (.migrate m n n) p (.fetchAdd m n)
  | add {m n : Nat} (hm : m < cap) (hn : n = min (m + 16) cap) :
      LoopMove w cap p (.fetchAdd m n) { p with progress := Word.add w p.progress (n - m) }
        (.test p.progress)

/-- What `progress` is still away from the wrap, and for each helper a whole turn of the word. -/
def potential (w oldCapacity progress : Nat) (pc : HelpPc) : Nat :=
  pc.weight oldCapacity * 2 ^ w + (2 ^ w - progress)

/-- **What a step does.**  The chunk stays in the table; the potential does not grow, and a
    `fetch_add` lowers it. -/
structure Steps (w oldCapacity : Nat) (p p' : Progress) (pc pc' : HelpPc) : Prop where
  loop : pc.InLoop
  bounded : pc'.Bounded oldCapacity
  progress : p'.progress < 2 ^ w
  visited : ∀ i ∈ p'.visited, i ∈ p.visited ∨ i < oldCapacity
  potential : potential w oldCapacity p'.progress pc' ≤ potential w oldCapacity p.progress pc
  budget : 32 * Resizing.potential w oldCapacity p'.progress pc' + pc'.cost oldCapacity + 1 ≤
    32 * Resizing.potential w oldCapacity p.progress pc + pc.cost oldCapacity

section Steps

variable {w cap : Nat} {p p' : Progress} {pc pc' : HelpPc}

/-- A step is one of these, and no word of a chunk wraps in it. -/
theorem loopMove_of_loopStep (hcap : cap + 16 ≤ 2 ^ w) (hbounded : pc.Bounded cap)
    (hstep : loopStep w cap p pc = some (p', pc')) : LoopMove w cap p pc p' pc' := by
  cases pc with
  | loadProgress =>
    cases hstep
    exact .load
  | test m =>
    rw [loopStep] at hstep
    split at hstep
    · next hlt =>
      cases hstep
      have hadd : Word.add w m 16 = m + 16 := Word.add_of_lt (by omega)
      rw [hadd]
      exact .enter hlt
    · next hge =>
      cases hstep
      exact .leave hge
  | migrate m n i =>
    obtain ⟨hm, hn, hmi, hin⟩ := hbounded
    rw [loopStep] at hstep
    split at hstep
    · next hlt =>
      cases hstep
      exact .visit hm hn hmi hlt
    · next hge =>
      cases hstep
      obtain rfl : i = n := by omega
      exact .chunkDone hm hn
  | fetchAdd m n =>
    obtain ⟨hm, hn⟩ := hbounded
    cases hstep
    have hsub : Word.sub w n m = n - m := Word.sub_of_le (by omega) (by omega)
    rw [hsub]
    exact .add hm hn
  | _ => cases hstep

/-- A `fetch_add` uses up a part of the turn or ends the loop of its helper. -/
theorem potential_fetchAdd {progress n : Nat} (hcap : cap + 16 ≤ 2 ^ w) (hp : progress < 2 ^ w)
    (hpos : 0 < n) (hn : n ≤ 16) :
    (HelpPc.test progress).weight cap * 2 ^ w + (2 ^ w - Word.add w progress n) + 1 ≤
      2 ^ w + (2 ^ w - progress) := by
  have hlt := Word.add_lt w progress n
  rw [HelpPc.weight]
  split
  · next hbelow =>
    have hadd : Word.add w progress n = progress + n := Word.add_of_lt (by omega)
    rw [hadd]
    omega
  · omega

/-- A step that leaves `progress` and the weight of its helper as they are. -/
theorem steps_of_weight_eq (hloop : pc.InLoop) (hp : p'.progress < 2 ^ w)
    (hbounded : pc'.Bounded cap) (hprogress : p'.progress = p.progress)
    (hvisited : ∀ i ∈ p'.visited, i ∈ p.visited ∨ i < cap)
    (hweight : pc'.weight cap = pc.weight cap) (hcost : pc'.cost cap + 1 ≤ pc.cost cap) :
    Steps w cap p p' pc pc' := by
  have hsame : potential w cap p'.progress pc' = potential w cap p.progress pc := by
    rw [potential, potential, hprogress, hweight]
  refine ⟨hloop, hbounded, hp, hvisited, Nat.le_of_eq hsame, ?_⟩
  rw [hsame]
  omega

theorem steps_of_loopStep (hcap : cap + 16 ≤ 2 ^ w) (hp : p.progress < 2 ^ w)
    (hbounded : pc.Bounded cap) (hstep : loopStep w cap p pc = some (p', pc')) :
    Steps w cap p p' pc pc' := by
  have hkept : ∀ i ∈ p.visited, i ∈ p.visited ∨ i < cap := fun i hi => Or.inl hi
  cases loopMove_of_loopStep hcap hbounded hstep with
  | load =>
    by_cases hlt : p.progress < cap
    · refine steps_of_weight_eq trivial hp trivial rfl hkept (if_pos hlt) ?_
      simp [HelpPc.cost, hlt]
    · refine ⟨trivial, trivial, hp, hkept, ?_, ?_⟩
      · simp [potential, HelpPc.weight, hlt]
      · simp only [potential, HelpPc.weight, HelpPc.cost, if_neg hlt]
        omega
  | enter hlt =>
    refine steps_of_weight_eq trivial hp ⟨hlt, rfl, Nat.le_refl _, by omega⟩ rfl hkept
      (if_pos hlt).symm ?_
    rw [HelpPc.cost, HelpPc.cost, if_pos hlt]
    omega
  | leave hge =>
    exact steps_of_weight_eq trivial hp trivial rfl hkept (if_neg hge).symm
      (Nat.le_of_eq (if_neg hge).symm)
  | visit hm hn hmi hlt =>
    refine steps_of_weight_eq trivial hp ⟨hm, hn, by omega, hlt⟩ rfl ?_ rfl ?_
    · intro j hj
      rcases List.mem_append.mp hj with hold | hnew
      · exact Or.inl hold
      · rw [List.mem_singleton] at hnew
        exact Or.inr (by omega)
    · rw [HelpPc.cost, HelpPc.cost]
      omega
  | chunkDone hm hn =>
    refine steps_of_weight_eq trivial hp ⟨hm, hn⟩ rfl hkept rfl ?_
    rw [HelpPc.cost, HelpPc.cost]
    omega
  | @add m n hm hn =>
    have hless := potential_fetchAdd (n := n - m) hcap hp (by omega) (by omega)
    have hweight : (HelpPc.fetchAdd m n).weight cap = 1 := rfl
    have hcost : (HelpPc.test p.progress).cost cap ≤ 20 := by
      rw [HelpPc.cost]
      split <;> omega
    refine ⟨trivial, trivial, Word.add_lt _ _ _, hkept, ?_, ?_⟩
    · rw [potential, potential, hweight, Nat.one_mul]
      exact Nat.le_of_succ_le hless
    · show 32 * potential w cap (Word.add w p.progress (n - m)) (.test p.progress) +
        (HelpPc.test p.progress).cost cap + 1 ≤ 32 * potential w cap p.progress (.fetchAdd m n) + 1
      rw [potential, potential, hweight, Nat.one_mul]
      omega

/-- A helper in the loop can take its next step. -/
theorem exists_loopStep (hloop : pc.InLoop) : ∃ p' pc', loopStep w cap p pc = some (p', pc') := by
  cases pc with
  | loadProgress => exact ⟨_, _, rfl⟩
  | test m =>
    rw [loopStep]
    split
    · exact ⟨_, _, rfl⟩
    · exact ⟨_, _, rfl⟩
  | migrate m n i =>
    rw [loopStep]
    split
    · exact ⟨_, _, rfl⟩
    · exact ⟨_, _, rfl⟩
  | fetchAdd m n => exact ⟨_, _, rfl⟩
  | _ => exact hloop.elim

end Steps

/-! ### Runs -/

/-- The sum of the potentials of all helpers. -/
def LoopState.potential (w cap : Nat) (helpers : Finset ι) (s : LoopState ι) : Nat :=
  (∑ t ∈ helpers, (s.loc t).weight cap) * 2 ^ w + (2 ^ w - s.shared.progress)

structure LoopsInv (w cap : Nat) (helpers : Finset ι) (s : LoopState ι) : Prop where
  inside : ∀ t, (s.loc t).InLoop → t ∈ helpers
  bounded : ∀ t, (s.loc t).Bounded cap
  progress : s.shared.progress < 2 ^ w
  visited : ∀ i ∈ s.shared.visited, i < cap

section Runs

variable [DecidableEq ι] {w cap : Nat} {helpers : Finset ι} {s s' : LoopState ι} {t u : ι}

/-- The potential of one helper and that of the others. -/
theorem LoopState.potential_eq (s : LoopState ι) (ht : t ∈ helpers) :
    s.potential w cap helpers =
      (∑ u ∈ helpers.erase t, (s.loc u).weight cap) * 2 ^ w +
        Resizing.potential w cap s.shared.progress (s.loc t) := by
  rw [LoopState.potential, Resizing.potential, ← Finset.add_sum_erase helpers _ ht, Nat.add_mul]
  omega

theorem sum_weight_update (loc : ι → HelpPc) (ht : t ∈ helpers) (pc : HelpPc) :
    ∑ u ∈ helpers, (Function.update loc t pc u).weight cap =
      pc.weight cap + ∑ u ∈ helpers.erase t, (loc u).weight cap := by
  rw [← Finset.add_sum_erase helpers _ ht, Function.update_self]
  congr 1
  apply Finset.sum_congr rfl
  intro u hu
  rw [Function.update_of_ne (Finset.ne_of_mem_erase hu)]

theorem LoopState.potential_update (loc : ι → HelpPc) (p : Progress) (ht : t ∈ helpers)
    (pc : HelpPc) :
    LoopState.potential w cap helpers ⟨p, Function.update loc t pc⟩ =
      (∑ u ∈ helpers.erase t, (loc u).weight cap) * 2 ^ w +
        Resizing.potential w cap p.progress pc := by
  show (∑ u ∈ helpers, (Function.update loc t pc u).weight cap) * 2 ^ w + (2 ^ w - p.progress) = _
  rw [Resizing.potential, sum_weight_update loc ht, Nat.add_mul]
  omega

theorem loopsInv_init (hw : 0 < 2 ^ w) (cap : Nat) (helpers : Finset ι) :
    LoopsInv w cap helpers (loopsInit helpers) := by
  refine ⟨?_, ?_, hw, nofun⟩
  · intro t ht
    by_contra hmem
    simp only [loopsInit, if_neg hmem] at ht
    exact ht
  · intro t
    simp only [loopsInit]
    split <;> trivial

/-- **What a step of a helper does.** -/
theorem LoopsInv.step {a : ι × Unit} (hcap : cap + 16 ≤ 2 ^ w) (hs : LoopsInv w cap helpers s)
    (hstep : loopsStep w cap s a = some s') :
    LoopsInv w cap helpers s' ∧ s'.potential w cap helpers ≤ s.potential w cap helpers ∧
      (∀ u, u ≠ a.1 → s'.loc u = s.loc u) ∧
      32 * s'.potential w cap helpers + (s'.loc a.1).cost cap + 1 ≤
        32 * s.potential w cap helpers + (s.loc a.1).cost cap := by
  obtain ⟨t, _⟩ := a
  obtain ⟨p, pc, hpc, rfl⟩ := interleave_eq_some.mp hstep
  have hsteps := steps_of_loopStep hcap hs.progress (hs.bounded t) hpc
  have hmem := hs.inside t hsteps.loop
  rw [LoopState.potential_update _ _ hmem, s.potential_eq hmem]
  refine ⟨⟨?_, ?_, hsteps.progress, ?_⟩, ?_, ?_, ?_⟩
  · exact (Function.forall_update_iff s.loc (p := fun u pc => pc.InLoop → u ∈ helpers)).mpr
      ⟨fun _ => hmem, fun u _ => hs.inside u⟩
  · exact (Function.forall_update_iff s.loc (p := fun _ pc => pc.Bounded cap)).mpr
      ⟨hsteps.bounded, fun u _ => hs.bounded u⟩
  · intro i hi
    exact (hsteps.visited i hi).elim (hs.visited i) id
  · exact Nat.add_le_add_left hsteps.potential _
  · exact fun u hut => Function.update_of_ne hut _ _
  · have hbudget := hsteps.budget
    have hself : Function.update s.loc t pc t = pc := Function.update_self ..
    simp only [hself]
    omega

/-- A helper takes so many steps of its own at most, whatever the others do. -/
theorem countP_le {as : List (ι × Unit)} (hcap : cap + 16 ≤ 2 ^ w) (hs : LoopsInv w cap helpers s)
    (hrun : run (loopsStep w cap) s as = some s') (t : ι) :
    as.countP (fun a => a.1 = t) ≤ 32 * s.potential w cap helpers + (s.loc t).cost cap := by
  refine run_countP_thread_le (I := LoopsInv w cap helpers)
    (μ := fun s : LoopState ι => 32 * s.potential w cap helpers + (s.loc t).cost cap)
    ?_ ?_ ?_ hs hrun
  · exact fun s a m hs hm => (hs.step hcap hm).1
  · exact fun s _ m hs hm => (hs.step hcap hm).2.2.2
  · intro s u _ m hut hs hm
    obtain ⟨_, hpotential, hothers, _⟩ := hs.step hcap hm
    have hsame : m.loc t = s.loc t := hothers t (Ne.symm hut)
    rw [hsame]
    omega

/-! ### One helper alone -/

/-- Every bucket below `n` has been migrated. -/
def Progress.Covers (p : Progress) (n : Nat) : Prop := ∀ i, i < n → i ∈ p.visited

/-- `progress` is at most one chunk ahead of the value that the helper has, and the buckets before
    that value have been migrated. -/
def LoneInv (cap : Nat) (p : Progress) : HelpPc → Prop
  | .loadProgress => p.progress = 0
  | .test migrated => p.Covers (min migrated cap) ∧ p.progress ≤ migrated + 16
  | .migrate migrated _ i => p.Covers i ∧ p.progress ≤ migrated + 16
  | .fetchAdd migrated nextMigrated => p.Covers nextMigrated ∧ p.progress ≤ migrated + 16
  | _ => p.Covers cap

theorem LoneInv.step {p p' : Progress} {pc pc' : HelpPc} (hcap : cap + 16 ≤ 2 ^ w)
    (hbounded : pc.Bounded cap) (hp : LoneInv cap p pc)
    (hstep : loopStep w cap p pc = some (p', pc')) : LoneInv cap p' pc' := by
  cases loopMove_of_loopStep hcap hbounded hstep with
  | load =>
    have hzero : p.progress = 0 := hp
    rw [LoneInv, hzero]
    exact ⟨fun i hi => by omega, Nat.zero_le _⟩
  | enter hlt =>
    obtain ⟨hcovers, hahead⟩ := hp
    rw [Nat.min_eq_left (Nat.le_of_lt hlt)] at hcovers
    exact ⟨hcovers, hahead⟩
  | leave hge =>
    have hcovers := hp.1
    rwa [Nat.min_eq_right (Nat.le_of_not_lt hge)] at hcovers
  | visit =>
    obtain ⟨hcovers, hahead⟩ := hp
    refine ⟨?_, hahead⟩
    intro j hj
    rcases Nat.lt_succ_iff_lt_or_eq.mp hj with hold | rfl
    · exact List.mem_append_left _ (hcovers j hold)
    · exact List.mem_append_right _ (List.mem_singleton.mpr rfl)
  | chunkDone => exact hp
  | @add m n hm hn =>
    obtain ⟨hcovers, hahead⟩ := hp
    constructor
    · -- the value that `fetch_add` returns is at most one chunk ahead of the last one
      exact fun i hi => hcovers i (by omega)
    · show Word.add w p.progress (n - m) ≤ p.progress + 16
      exact Nat.le_trans (Nat.mod_le _ _) (by omega)

theorem LoneInv.covers {p : Progress} {pc : HelpPc} (hp : LoneInv cap p pc) (hleft : ¬ pc.InLoop) :
    p.Covers cap := by
  cases pc with
  | loadProgress => exact absurd trivial hleft
  | test m => exact absurd trivial hleft
  | migrate m n i => exact absurd trivial hleft
  | fetchAdd m n => exact absurd trivial hleft
  | _ => exact hp

theorem LoopsInv.lone_step {a : ι × Unit} (hcap : cap + 16 ≤ 2 ^ w) (hs : LoopsInv w cap {t} s)
    (hlone : LoneInv cap s.shared (s.loc t)) (hstep : loopsStep w cap s a = some s') :
    LoneInv cap s'.shared (s'.loc t) := by
  obtain ⟨u, _⟩ := a
  obtain ⟨p, pc, hpc, rfl⟩ := interleave_eq_some.mp hstep
  have hloop := (steps_of_loopStep hcap hs.progress (hs.bounded u) hpc).loop
  obtain rfl : u = t := Finset.mem_singleton.mp (hs.inside u hloop)
  show LoneInv cap p (Function.update s.loc u pc u)
  rw [Function.update_self]
  exact hlone.step hcap (hs.bounded u) hpc

/-- A table of a power of two of buckets is at most half as large as the range of a word. -/
theorem add_le_word {k : Nat} (hw : 16 ≤ w) (hcap : 2 ^ k < 2 ^ w) : 2 ^ k + 16 ≤ 2 ^ w := by
  obtain ⟨v, rfl⟩ : ∃ v, w = v + 1 := ⟨w - 1, by omega⟩
  have hkv : k ≤ v := Nat.le_of_lt_succ ((Nat.pow_lt_pow_iff_right (by decide)).mp hcap)
  have hhalf : 2 ^ k ≤ 2 ^ v := Nat.pow_le_pow_right (by decide) hkv
  have hchunk : 2 ^ 4 ≤ 2 ^ v := Nat.pow_le_pow_right (by decide) (by omega)
  rw [Nat.pow_succ]
  omega

/-- **The migration loop.**  Any number of helpers run the loop for a table of a power of two of
    buckets, in any order of their steps.  Every helper takes boundedly many steps, and only one
    that has left the loop cannot take the next; the width of a chunk does not underflow; all bucket
    indices are in the table; and a helper that runs alone migrates every bucket before it
    leaves. -/
theorem migration_loop (hw : 16 ≤ w) (hpower : ∃ k, cap = 2 ^ k) (hcap : cap < 2 ^ w)
    (helpers : Finset ι) (as : List (ι × Unit))
    (hrun : run (loopsStep w cap) (loopsInit helpers) as = some s) :
    (∀ t, as.countP (fun a => a.1 = t) ≤ 32 * ((helpers.card + 1) * 2 ^ w) + 21) ∧
    (∀ t, (s.loc t).InLoop → ∃ s', loopsStep w cap s (t, ()) = some s') ∧
    (∀ t migrated nextMigrated, s.loc t = .fetchAdd migrated nextMigrated →
      migrated ≤ nextMigrated) ∧
    (∀ i ∈ s.shared.visited, i < cap) ∧
    ∀ t, helpers = {t} → ¬ (s.loc t).InLoop → ∀ i, i < cap → i ∈ s.shared.visited := by
  have hroom : cap + 16 ≤ 2 ^ w := by
    obtain ⟨k, rfl⟩ := hpower
    exact add_le_word hw hcap
  have hinit := loopsInv_init (Nat.two_pow_pos w) cap helpers
  have hs : LoopsInv w cap helpers s :=
    run_invariant (fun m a m' hm hstep => (hm.step hroom hstep).1) hinit hrun
  refine ⟨fun t => ?_, fun t ht => ?_, fun t m n ht => ?_, hs.visited, ?_⟩
  · have hbudget := countP_le hroom hinit hrun t
    have hweight : ∑ u ∈ helpers, ((loopsInit helpers).loc u).weight cap = helpers.card := by
      rw [Finset.card_eq_sum_ones]
      apply Finset.sum_congr rfl
      intro u hu
      simp [loopsInit, hu, HelpPc.weight]
    have hcost : ((loopsInit helpers).loc t).cost cap ≤ 21 := by
      simp only [loopsInit]
      split <;> simp [HelpPc.cost]
    rw [LoopState.potential, hweight] at hbudget
    have hprogress : (loopsInit helpers).shared.progress = 0 := rfl
    have hturns : helpers.card * 2 ^ w + 2 ^ w = (helpers.card + 1) * 2 ^ w :=
      (Nat.succ_mul ..).symm
    rw [hprogress, Nat.sub_zero, hturns] at hbudget
    omega
  · have hnext : ∃ p pc, loopStep w cap s.shared (s.loc t) = some (p, pc) := exists_loopStep ht
    obtain ⟨p, pc, hpc⟩ := hnext
    exact ⟨_, interleave_eq_some.mpr ⟨p, pc, hpc, rfl⟩⟩
  · have hbounded := hs.bounded t
    rw [ht] at hbounded
    obtain ⟨hm, hn⟩ := hbounded
    omega
  · intro t hlone hleft
    subst hlone
    have hinv : LoopsInv w cap {t} s ∧ LoneInv cap s.shared (s.loc t) := by
      refine run_invariant (I := fun s => LoopsInv w cap {t} s ∧ LoneInv cap s.shared (s.loc t))
        ?_ ⟨hinit, ?_⟩ hrun
      · rintro m a m' ⟨hm, hlone⟩ hstep
        exact ⟨(hm.step hroom hstep).1, hm.lone_step hroom hlone hstep⟩
      · simp [loopsInit, LoneInv]
    exact hinv.2.covers hleft

/-- In a table of 32 buckets two helpers that take turns with each step make 64 visits; one helper
    alone makes 48, and visits every bucket. -/
theorem migration_loop_twoChunks :
    (∃ s : LoopState Bool, run (loopsStep 64 32) (loopsInit {false, true})
        (List.replicate 40 [(false, ()), (true, ())]).flatten = some s ∧
      s.shared.visited.length = 64 ∧ (∀ i ∈ s.shared.visited, i < 32) ∧
      ¬ (s.loc false).InLoop ∧ ¬ (s.loc true).InLoop) ∧
    ∃ s : LoopState Bool, run (loopsStep 64 32) (loopsInit {true}) (List.replicate 59 (true, ())) =
        some s ∧
      s.shared.visited.length = 48 ∧ ∀ i, i < 32 → i ∈ s.shared.visited := by
  constructor
  · obtain ⟨s, hrun, hlength, hfalse, htrue⟩ : ∃ s : LoopState Bool,
        run (loopsStep 64 32) (loopsInit {false, true})
          (List.replicate 40 [(false, ()), (true, ())]).flatten = some s ∧
        s.shared.visited.length = 64 ∧ ¬ (s.loc false).InLoop ∧ ¬ (s.loc true).InLoop :=
      ⟨_, rfl, rfl, id, id⟩
    have hloop := migration_loop (by decide : 16 ≤ 64) ⟨5, rfl⟩ (by decide : 32 < 2 ^ 64)
      {false, true} _ hrun
    exact ⟨s, hrun, hlength, hloop.2.2.2.1, hfalse, htrue⟩
  · obtain ⟨s, hrun, hlength, hleft⟩ : ∃ s : LoopState Bool,
        run (loopsStep 64 32) (loopsInit {true}) (List.replicate 59 (true, ())) = some s ∧
          s.shared.visited.length = 48 ∧ ¬ (s.loc true).InLoop := ⟨_, rfl, rfl, id⟩
    have hloop := migration_loop (by decide : 16 ≤ 64) ⟨5, rfl⟩ (by decide : 32 < 2 ^ 64) {true}
      (List.replicate 59 (true, ())) hrun
    exact ⟨s, hrun, hlength, hloop.2.2.2.2 true rfl hleft⟩

end Runs

/-! ### While the word does not wrap

A helper's own value is never ahead of `progress`, and with each round of its own the other has
moved on by a chunk: its rounds are one more than the chunks of the table, however many helpers
there are. -/

def chunksLeft (cap progress : Nat) : Nat := (cap - progress + 15) / 16

/-- The value of the helper is not ahead of `progress`. -/
def HelpPc.Behind (progress : Nat) : HelpPc → Prop
  | .test migrated => migrated ≤ progress
  | .migrate migrated _ _ => migrated ≤ progress
  | .fetchAdd migrated _ => migrated ≤ progress
  | _ => True

/-- A bound for the steps that a helper has left. -/
def HelpPc.stepsLeft (cap progress : Nat) : HelpPc → Nat
  | .loadProgress => 19 * (chunksLeft cap progress + 1) + 2
  | .test migrated => if migrated < cap then 19 * (chunksLeft cap progress + 1) + 1 else 1
  | .migrate _ nextMigrated i => 19 * chunksLeft cap progress + (nextMigrated - i) + 3
  | .fetchAdd _ _ => 19 * chunksLeft cap progress + 2
  | _ => 0

section Unwrapped

variable {w cap : Nat} {p p' : Progress} {pc pc' : HelpPc}

theorem HelpPc.Behind.mono {progress progress' : Nat} (h : pc.Behind progress)
    (hle : progress ≤ progress') : pc.Behind progress' := by
  cases pc with
  | test m => exact Nat.le_trans h hle
  | migrate m n i => exact Nat.le_trans h hle
  | fetchAdd m n => exact Nat.le_trans h hle
  | _ => trivial

theorem stepsLeft_anti (pc : HelpPc) {progress progress' : Nat} (hle : progress ≤ progress') :
    pc.stepsLeft cap progress' ≤ pc.stepsLeft cap progress := by
  have hchunks : chunksLeft cap progress' ≤ chunksLeft cap progress := by
    rw [chunksLeft, chunksLeft]
    omega
  cases pc with
  | loadProgress =>
    simp only [HelpPc.stepsLeft]
    omega
  | test m =>
    simp only [HelpPc.stepsLeft]
    split <;> omega
  | migrate m n i =>
    simp only [HelpPc.stepsLeft]
    omega
  | fetchAdd m n =>
    simp only [HelpPc.stepsLeft]
    omega
  | _ => exact Nat.le_refl 0

/-- What a step does while `progress` has room for a chunk. -/
structure Advances (cap : Nat) (p p' : Progress) (pc pc' : HelpPc) : Prop where
  progress_le : p.progress ≤ p'.progress
  behind : pc'.Behind p'.progress
  steps : pc'.stepsLeft cap p'.progress + 1 ≤ pc.stepsLeft cap p.progress
  ahead : p'.progress < cap + 16 ∨
    p'.progress + 16 * pc'.weight cap ≤ p.progress + 16 * pc.weight cap

theorem advances_of_loopStep (hw : cap + 16 ≤ 2 ^ w) (hp : p.progress + 16 * pc.weight cap < 2 ^ w)
    (hbounded : pc.Bounded cap) (hbehind : pc.Behind p.progress)
    (hstep : loopStep w cap p pc = some (p', pc')) : Advances cap p p' pc pc' := by
  cases loopMove_of_loopStep hw hbounded hstep with
  | load =>
    refine ⟨Nat.le_refl _, Nat.le_refl _, ?_, Or.inr ?_⟩
    · simp only [HelpPc.stepsLeft]
      split <;> omega
    · simp only [HelpPc.weight]
      split <;> omega
  | enter hlt =>
    refine ⟨Nat.le_refl _, hbehind, ?_, Or.inr ?_⟩
    · simp only [HelpPc.stepsLeft, if_pos hlt]
      omega
    · simp only [HelpPc.weight, if_pos hlt]
      exact Nat.le_refl _
  | leave hge =>
    refine ⟨Nat.le_refl _, trivial, ?_, Or.inr ?_⟩
    · simp only [HelpPc.stepsLeft, if_neg hge]
      exact Nat.le_refl _
    · simp only [HelpPc.weight, if_neg hge]
      exact Nat.le_refl _
  | visit hm hn hmi hlt =>
    refine ⟨Nat.le_refl _, hbehind, ?_, Or.inr (Nat.le_refl _)⟩
    simp only [HelpPc.stepsLeft]
    omega
  | chunkDone hm hn =>
    refine ⟨Nat.le_refl _, hbehind, ?_, Or.inr (Nat.le_refl _)⟩
    simp only [HelpPc.stepsLeft]
    omega
  | @add m n hm hn =>
    have hbehind : m ≤ p.progress := hbehind
    have hp : p.progress + 16 * 1 < 2 ^ w := hp
    have hadd : Word.add w p.progress (n - m) = p.progress + (n - m) := Word.add_of_lt (by omega)
    rw [hadd]
    refine ⟨Nat.le_add_right _ _, Nat.le_add_right _ _, ?_, ?_⟩
    · -- below the capacity `progress` moves on by a whole chunk, or to the end of the table
      simp only [HelpPc.stepsLeft, chunksLeft]
      split <;> omega
    · simp only [HelpPc.weight]
      split <;> omega

end Unwrapped

structure UnwrappedInv (w cap : Nat) (helpers : Finset ι) (s : LoopState ι) : Prop
    extends LoopsInv w cap helpers s where
  behind : ∀ t, (s.loc t).Behind s.shared.progress
  ahead : s.shared.progress + 16 * ∑ t ∈ helpers, (s.loc t).weight cap ≤
    cap + 15 + 16 * helpers.card

section UnwrappedRuns

variable [DecidableEq ι] {w cap : Nat} {helpers : Finset ι} {s s' : LoopState ι} {t : ι}

theorem weight_le_one (cap : Nat) (pc : HelpPc) : pc.weight cap ≤ 1 := by
  cases pc with
  | test m =>
    simp only [HelpPc.weight]
    split <;> omega
  | _ => simp [HelpPc.weight]

omit [DecidableEq ι] in
theorem sum_weight_le (cap : Nat) (helpers : Finset ι) (loc : ι → HelpPc) :
    ∑ t ∈ helpers, (loc t).weight cap ≤ helpers.card := by
  rw [Finset.card_eq_sum_ones]
  exact Finset.sum_le_sum fun t _ => weight_le_one cap (loc t)

theorem unwrappedInv_init (hw : 0 < 2 ^ w) (cap : Nat) (helpers : Finset ι) :
    UnwrappedInv w cap helpers (loopsInit helpers) := by
  refine ⟨loopsInv_init hw cap helpers, ?_, ?_⟩
  · intro t
    simp only [loopsInit]
    split <;> trivial
  · have hsum := sum_weight_le cap helpers (loopsInit helpers).loc
    show 0 + _ ≤ _
    omega

theorem UnwrappedInv.step {a : ι × Unit} (hw : cap + 16 * (helpers.card + 1) ≤ 2 ^ w)
    (hs : UnwrappedInv w cap helpers s) (hstep : loopsStep w cap s a = some s') :
    UnwrappedInv w cap helpers s' ∧ s.shared.progress ≤ s'.shared.progress ∧
      (s'.loc a.1).stepsLeft cap s'.shared.progress + 1 ≤
        (s.loc a.1).stepsLeft cap s.shared.progress := by
  have hcap : cap + 16 ≤ 2 ^ w := by omega
  have hloops := (hs.toLoopsInv.step hcap hstep).1
  obtain ⟨t, _⟩ := a
  obtain ⟨p, pc, hpc, rfl⟩ := interleave_eq_some.mp hstep
  have hmem := hs.inside t
    (steps_of_loopStep hcap hs.progress (hs.bounded t) hpc).loop
  have hsum := Finset.add_sum_erase helpers (fun u => (s.loc u).weight cap) hmem
  have hahead := hs.ahead
  have hadvances := advances_of_loopStep hcap (by omega) (hs.bounded t) (hs.behind t) hpc
  refine ⟨⟨hloops, ?_, ?_⟩, hadvances.progress_le, ?_⟩
  · exact (Function.forall_update_iff s.loc (p := fun _ pc => pc.Behind p.progress)).mpr
      ⟨hadvances.behind, fun u _ => (hs.behind u).mono hadvances.progress_le⟩
  · have hall := sum_weight_le cap helpers (Function.update s.loc t pc)
    have hupdate : ∑ u ∈ helpers, (Function.update s.loc t pc u).weight cap =
        pc.weight cap + ∑ u ∈ helpers.erase t, (s.loc u).weight cap :=
      sum_weight_update s.loc hmem pc
    show p.progress + 16 * ∑ u ∈ helpers, (Function.update s.loc t pc u).weight cap ≤ _
    rcases hadvances.ahead with hbelow | hkept
    · omega
    · omega
  · show (Function.update s.loc t pc t).stepsLeft cap p.progress + 1 ≤ _
    rw [Function.update_self]
    exact hadvances.steps

/-- **Rounds of a helper.**  While all the helpers together cannot bring `progress` to the wrap of
    its word, the steps of one of them do not depend on how many they are: it makes at most one
    round more than the table has chunks. -/
theorem migration_loop_chunks (hw : cap + 16 * (helpers.card + 1) ≤ 2 ^ w) (as : List (ι × Unit))
    (hrun : run (loopsStep w cap) (loopsInit helpers) as = some s) (t : ι) :
    as.countP (fun a => a.1 = t) ≤ 19 * ((cap + 15) / 16 + 1) + 2 := by
  have hinit := unwrappedInv_init (Nat.two_pow_pos w) cap helpers
  have hbudget := run_countP_thread_le (I := UnwrappedInv w cap helpers) (t := t)
    (μ := fun s => (s.loc t).stepsLeft cap s.shared.progress) ?_ ?_ ?_ hinit hrun
  · refine Nat.le_trans hbudget ?_
    simp only [loopsInit]
    split <;> simp [HelpPc.stepsLeft, chunksLeft]
  · exact fun s a m hs hm => (hs.step hw hm).1
  · exact fun s _ m hs hm => (hs.step hw hm).2.2
  · intro s u _ m hut hs hm
    have hsame : m.loc t = s.loc t := (hs.toLoopsInv.step (by omega) hm).2.2.1 t (Ne.symm hut)
    rw [hsame]
    exact stepsLeft_anti (s.loc t) (hs.step hw hm).2.1

end UnwrappedRuns

end VelocityX.Map.Resizing
