import VelocityX.Map.ResizeThreads

/-!
# When resizes exclude each other

`Moves` says once what a step of a thread can do to the fields that decide which resize is
running; the rest of `insert` does not touch them.  Its invariant has one resize at a time
as long as every compare-exchange comes before the claims of the other threads or after
their resize states have been stored.
-/

namespace VelocityX.Map.Resizing

open Transition

variable {ι K V : Type*}

structure Core where
  table : Nat
  resizeState : Option Nat
  tableCount : Nat
  stateCount : Nat
  oldTable : Nat → Nat
  newTable : Nat → Nat

def Shared.core (sh : Shared K V) : Core where
  table := sh.table
  resizeState := sh.resizeState
  tableCount := sh.tableCount
  stateCount := sh.stateCount
  oldTable i := (sh.states i).oldTable
  newTable i := (sh.states i).newTable

/-- The moves of a thread from one stage to the next; `exchange` says that it is at its
    compare-exchange. -/
inductive Moves (exchange : Prop) (c : Core) : Stage → Core → Stage → Prop where
  | stay (g : Stage) : Moves exchange c g c g
  | claim : exchange → c.resizeState = none → Moves exchange c .out c .claimed
  | load : Moves exchange c .claimed c (.loaded c.table)
  | allocate (old : Nat) :
      Moves exchange c (.loaded old) { c with tableCount := c.tableCount + 1 }
        (.allocated old c.tableCount)
  | create (old new : Nat) :
      Moves exchange c (.allocated old new)
        { c with
          stateCount := c.stateCount + 1
          oldTable := Function.update c.oldTable c.stateCount old
          newTable := Function.update c.newTable c.stateCount new }
        (.created c.stateCount)
  | publish (st : Nat) :
      Moves exchange c (.created st) { c with resizeState := some st } (.migrating st)
  | replace (st : Nat) :
      Moves exchange c (.migrating st) { c with table := c.newTable st } (.replaced st)
  | complete (st : Nat) :
      Moves exchange c (.replaced st) { c with resizeState := none } .out

theorem Moves.imp {p q : Prop} {c c' : Core} {g g' : Stage} (h : Moves p c g c' g') (hpq : p → q) :
    Moves q c g c' g' := by
  cases h with
  | stay => exact .stay g
  | claim hp hnone => exact .claim (hpq hp) hnone
  | load => exact .load
  | allocate old => exact .allocate old
  | create old new => exact .create old new
  | publish st => exact .publish st
  | replace st => exact .replace st
  | complete st => exact .complete st

/-! ### The steps as moves -/

section Steps

variable {sh sh' : Shared K V} {st : Nat}

theorem core_fetchAdd (st n : Nat) : (sh.fetchAdd st n).core = sh.core := by
  have hfield : ∀ f : ResizeState → Nat,
      (∀ p, f { sh.states st with progress := p } = f (sh.states st)) →
      (fun i => f ((sh.fetchAdd st n).states i)) = fun i => f (sh.states i) := by
    intro f hf
    funext i
    by_cases hi : i = st
    · subst hi
      simp only [Shared.fetchAdd, Function.update_self, hf]
    · simp only [Shared.fetchAdd, Function.update_of_ne hi]
  have hold := hfield ResizeState.oldTable fun _ => rfl
  have hnew := hfield ResizeState.newTable fun _ => rfl
  simp only [Shared.core, hold, hnew]
  rfl

theorem core_create (state : ResizeState) :
    (sh.create state).core =
      { sh.core with
        stateCount := sh.stateCount + 1
        oldTable := Function.update sh.core.oldTable sh.stateCount state.oldTable
        newTable := Function.update sh.core.newTable sh.stateCount state.newTable } := by
  have hold := Function.comp_update ResizeState.oldTable sh.states sh.stateCount state
  have hnew := Function.comp_update ResizeState.newTable sh.states sh.stateCount state
  simp only [Shared.core, Shared.create, Core.mk.injEq, true_and]
  exact ⟨hold, hnew⟩

theorem helpStep_moves {pc pc' : HelpPc} (hstep : helpStep st sh pc = (sh', .goto pc')) :
    Moves False sh.core (pc.stage st) sh'.core (pc'.stage st) := by
  cases pc with
  | loadProgress =>
    cases hstep
    exact .stay _
  | test migrated =>
    simp only [helpStep] at hstep
    split at hstep <;> cases hstep <;> exact .stay _
  | migrate migrated nextMigrated i =>
    simp only [helpStep] at hstep
    split at hstep <;> cases hstep <;> exact .stay _
  | fetchAdd migrated nextMigrated =>
    cases hstep
    rw [core_fetchAdd]
    exact .stay _
  | storeTable =>
    cases hstep
    exact .replace st
  | storeCapacity =>
    cases hstep
    exact .stay _
  | storeNull =>
    cases hstep
    exact .complete st
  | dealloc =>
    cases hstep
    exact .stay _
  | dropState => cases hstep

theorem helpStep_ret {pc : HelpPc} (hstep : helpStep st sh pc = (sh', .ret ())) :
    pc.stage st = .out ∧ sh'.core = sh.core := by
  cases pc with
  | dropState =>
    cases hstep
    exact ⟨rfl, rfl⟩
  | test migrated =>
    simp only [helpStep] at hstep
    split at hstep <;> cases hstep
  | migrate migrated nextMigrated i =>
    simp only [helpStep] at hstep
    split at hstep <;> cases hstep
  | _ => cases hstep

variable [DecidableEq K] {call : Insertion K V} {stripe : Nat}

/-- The stage after a step inside `insert`. -/
def stageAfter : Next (InsertPc V) (Except Panic (Option V)) → Stage
  | .goto pc => pc.stage
  | .ret _ => .out

theorem insertStep_moves {pc : InsertPc V} {next : Next (InsertPc V) (Except Panic (Option V))}
    (hstep : insertStep call stripe sh pc = some (sh', next)) :
    Moves (pc = .exchange) sh.core pc.stage sh'.core (stageAfter next) := by
  cases pc with
  | loadCapacity size =>
    simp only [insertStep] at hstep
    split at hstep <;> cases hstep <;> exact .stay _
  | exchange =>
    simp only [insertStep] at hstep
    split at hstep
    · next hnone =>
      cases hstep
      exact .claim rfl hnone
    · cases hstep
      exact .stay _
  | loadOldTable oldCapacity =>
    cases hstep
    exact .load
  | allocate oldCapacity oldTable =>
    cases hstep
    exact .allocate oldTable
  | create oldCapacity oldTable newTable =>
    cases hstep
    rw [core_create]
    exact .create oldTable newTable
  | storeState st =>
    cases hstep
    exact .publish st
  | help st pc =>
    simp only [insertStep] at hstep
    split at hstep
    · next hhelp =>
      cases hstep
      exact (helpStep_moves hhelp).imp nofun
    · next hhelp =>
      cases hstep
      obtain ⟨hout, hcore⟩ := helpStep_ret hhelp
      rw [InsertPc.stage, hout, hcore]
      exact .stay _
  | lock =>
    simp only [insertStep] at hstep
    split at hstep <;> cases hstep
    exact .stay _
  | write capacity table =>
    simp only [insertStep] at hstep
    split at hstep <;> cases hstep <;> exact .stay _
  | _ =>
    cases hstep
    exact .stay _

theorem program_moves {t : ι} {l l' : Local K V} {a : Act K V}
    (hstep : program t sh l a = some (sh', l')) :
    Moves (∃ call stripe, l = .insert call stripe .exchange) sh.core l.stage sh'.core l'.stage := by
  cases a with
  | call call =>
    cases l with
    | ready last =>
      cases hstep
      exact .stay _
    | _ => cases hstep
  | step =>
    cases l with
    | ready last => cases hstep
    | loadCapacity call =>
      cases hstep
      exact .stay _
    | insert call stripe pc =>
      obtain ⟨⟨sh₁, next⟩, hinsert, heq⟩ := Option.map_eq_some_iff.mp hstep
      have hmoves := (insertStep_moves hinsert).imp
        (q := ∃ call' stripe', Local.insert call stripe pc = .insert call' stripe' .exchange)
        fun hpc => ⟨call, stripe, by rw [hpc]⟩
      cases next <;> cases heq <;> exact hmoves

end Steps

/-! ### The invariant of the moves -/

/-- What holds of the fields while a thread is at a stage of a resize, and nobody else is. -/
def Fits (c : Core) : Stage → Prop
  | .out => c.resizeState = none ∧ ∀ i < c.stateCount, c.oldTable i < c.table
  | .claimed => c.resizeState = none ∧ ∀ i < c.stateCount, c.oldTable i < c.table
  | .loaded old =>
      c.resizeState = none ∧ (∀ i < c.stateCount, c.oldTable i < c.table) ∧ old = c.table
  | .allocated old new =>
      c.resizeState = none ∧ (∀ i < c.stateCount, c.oldTable i < c.table) ∧ old = c.table ∧
        c.table < new ∧ new < c.tableCount
  | .created st =>
      c.resizeState = none ∧ (∀ i < c.stateCount, c.oldTable i ≤ c.table) ∧
        c.table < c.newTable st ∧ c.newTable st < c.tableCount
  | .migrating st =>
      c.resizeState = some st ∧ (∀ i < c.stateCount, c.oldTable i ≤ c.table) ∧
        c.table < c.newTable st ∧ c.newTable st < c.tableCount
  | .replaced st => c.resizeState = some st ∧ ∀ i < c.stateCount, c.oldTable i < c.table

structure Ordered (c : Core) : Prop where
  table_lt : c.table < c.tableCount
  old_lt : ∀ j < c.stateCount, ∀ i < j, c.oldTable i < c.oldTable j

structure Inv (c : Core) (stage : ι → Stage) : Prop where
  ordered : Ordered c
  idle : (∀ t, stage t = .out) → Fits c .out
  busy : ∀ t, stage t ≠ .out → Fits c (stage t) ∧ ∀ u, u ≠ t → stage u = .out

section Invariant

variable {c c' : Core} {g g' : Stage} {p : Prop} {stage : ι → Stage}

theorem inv_init (capacity : Nat) :
    Inv (Shared.new capacity : Shared K V).core fun _ : ι => .out :=
  ⟨⟨Nat.zero_lt_one, nofun⟩, fun _ => ⟨rfl, nofun⟩, fun _ h => absurd rfl h⟩

/-- One move of the only thread in a resize. -/
theorem Moves.fits (h : Moves p c g c' g') (ho : Ordered c) (hg : Fits c g) :
    Ordered c' ∧ Fits c' g' := by
  cases h with
  | stay => exact ⟨ho, hg⟩
  | claim => exact ⟨ho, hg⟩
  | load => exact ⟨ho, hg.1, hg.2, rfl⟩
  | allocate old =>
    obtain ⟨hnone, hlt, hold⟩ := hg
    exact ⟨⟨Nat.lt_succ_of_lt ho.table_lt, ho.old_lt⟩, hnone, hlt, hold, ho.table_lt,
      Nat.lt_succ_self _⟩
  | create old new =>
    obtain ⟨hnone, hlt, rfl, hnew, hcount⟩ := hg
    have hbefore : ∀ i < c.stateCount,
        Function.update c.oldTable c.stateCount c.table i = c.oldTable i := fun i hi =>
      Function.update_of_ne (Nat.ne_of_lt hi) _ _
    refine ⟨⟨ho.table_lt, fun j hj i hij => ?_⟩, hnone, fun i hi => ?_, ?_⟩
    · show Function.update c.oldTable c.stateCount c.table i <
        Function.update c.oldTable c.stateCount c.table j
      rcases Nat.lt_succ_iff_lt_or_eq.mp hj with hj | rfl
      · rw [hbefore i (Nat.lt_trans hij hj), hbefore j hj]
        exact ho.old_lt j hj i hij
      · rw [hbefore i hij, Function.update_self]
        exact hlt i hij
    · show Function.update c.oldTable c.stateCount c.table i ≤ c.table
      rcases Nat.lt_succ_iff_lt_or_eq.mp hi with hi | rfl
      · rw [hbefore i hi]
        exact Nat.le_of_lt (hlt i hi)
      · rw [Function.update_self]
    · show c.table < Function.update c.newTable c.stateCount new c.stateCount ∧
        Function.update c.newTable c.stateCount new c.stateCount < c.tableCount
      rw [Function.update_self]
      exact ⟨hnew, hcount⟩
  | publish st => exact ⟨⟨ho.table_lt, ho.old_lt⟩, rfl, hg.2⟩
  | replace st =>
    obtain ⟨hsome, hle, hnew, hcount⟩ := hg
    exact ⟨⟨hcount, ho.old_lt⟩, hsome, fun i hi => Nat.lt_of_le_of_lt (hle i hi) hnew⟩
  | complete st => exact ⟨⟨ho.table_lt, ho.old_lt⟩, rfl, hg.2⟩

/-- With no resize state stored, every resize that is running is unpublished. -/
theorem Inv.unpublished (hI : Inv c stage) (hnone : c.resizeState = none) {t : ι}
    (ht : stage t ≠ .out) : (stage t).Unpublished := by
  have hfits := (hI.busy t ht).1
  revert hfits ht
  cases stage t with
  | out => exact fun ht => absurd rfl ht
  | migrating st => exact fun _ hfits => absurd (hnone.symm.trans hfits.1) nofun
  | replaced st => exact fun _ hfits => absurd (hnone.symm.trans hfits.1) nofun
  | _ => exact fun _ _ => trivial

variable [DecidableEq ι]

theorem Inv.moves (hI : Inv c stage) {t : ι} (h : Moves p c (stage t) c' g')
    (hquiet : p → ∀ u, u ≠ t → ¬ (stage u).Unpublished) :
    Inv c' (Function.update stage t g') := by
  by_cases halone : ∀ u, u ≠ t → stage u = .out
  · -- nobody else is in a resize
    have hfits : Fits c (stage t) := by
      by_cases ht : stage t = .out
      · rw [ht]
        refine hI.idle fun u => ?_
        by_cases hu : u = t
        · rw [hu, ht]
        · exact halone u hu
      · exact (hI.busy t ht).1
    obtain ⟨ho, hfits'⟩ := h.fits hI.ordered hfits
    refine ⟨ho, fun hall => ?_, fun u hu => ?_⟩
    · have ht := hall t
      rw [Function.update_self] at ht
      rwa [ht] at hfits'
    · by_cases hut : u = t
      · subst hut
        rw [Function.update_self]
        exact ⟨hfits', fun v hv => by rw [Function.update_of_ne hv]; exact halone v hv⟩
      · rw [Function.update_of_ne hut, halone u hut] at hu
        exact absurd rfl hu
  · -- another thread is, so this one is not and does not enter
    obtain ⟨u, hut, hu⟩ : ∃ u, u ≠ t ∧ stage u ≠ .out := by
      simpa only [not_forall, exists_prop] using halone
    have hout : stage t = .out := (hI.busy u hu).2 t (Ne.symm hut)
    rw [hout] at h
    cases h with
    | stay =>
      rw [← hout, Function.update_eq_self]
      exact hI
    | claim hp hnone => exact absurd (hI.unpublished hnone hu) (hquiet hp u hut)

end Invariant

/-! ### One resize at a time -/

section Main

variable [DecidableEq ι] [DecidableEq K] {s s' : State ι K V} {a : ι × Act K V}

/-- The stages of the threads. -/
def stages (s : State ι K V) (t : ι) : Stage := (s.loc t).stage

theorem inv_step (hI : Inv s.shared.core (stages s)) (hquiet : NoneUnpublished s a)
    (hstep : step s a = some s') : Inv s'.shared.core (stages s') := by
  obtain ⟨t, act⟩ := a
  obtain ⟨sh, l, hprog, rfl⟩ := interleave_eq_some.mp hstep
  have hstages : stages ⟨sh, Function.update s.loc t l⟩ = Function.update (stages s) t l.stage :=
    Function.comp_update Local.stage s.loc t l
  rw [hstages]
  refine hI.moves (program_moves hprog) ?_
  rintro ⟨call, stripe, hexchange⟩ u hu
  exact hquiet call stripe hexchange u hu

omit [DecidableEq ι] [DecidableEq K] in
theorem Inv.oneResize (hI : Inv s.shared.core (stages s)) : OneResize s := by
  refine ⟨fun t u ht hu => ?_, fun i hi j hj heq => ?_, fun t st ht => ?_⟩
  · by_contra hne
    exact ht ((hI.busy u hu).2 t hne)
  · by_contra hne
    rcases Nat.lt_or_gt_of_ne hne with hij | hji
    · exact Nat.ne_of_lt (hI.ordered.old_lt j hj i hij) heq
    · exact Nat.ne_of_gt (hI.ordered.old_lt i hi j hji) heq
  · have hin : stages s t ≠ .out := by
      rw [stages, ht]
      exact nofun
    have hfits := (hI.busy t hin).1
    rw [stages, ht] at hfits
    exact hfits.1

/-- A compare-exchange succeeds while another thread is between its own and the store of its
    resize state. -/
theorem noneUnpublished_of_oneResize (hI : Inv s.shared.core (stages s))
    (hstep : step s a = some s') (hone : OneResize s') : NoneUnpublished s a := by
  obtain ⟨t, act⟩ := a
  intro call stripe hexchange u hut hunpublished
  obtain ⟨sh, l, hprog, rfl⟩ := interleave_eq_some.mp hstep
  rw [hexchange] at hprog
  have hu : stages s u ≠ .out := by
    intro hout
    rw [show (s.loc u).stage = .out from hout] at hunpublished
    exact hunpublished
  have hnone : s.shared.resizeState = none := by
    have hfits := (hI.busy u hu).1
    revert hfits hunpublished
    rw [show (s.loc u).stage = stages s u from rfl]
    cases stages s u with
    | claimed => exact fun _ hfits => hfits.1
    | loaded old => exact fun _ hfits => hfits.1
    | allocated old new => exact fun _ hfits => hfits.1
    | created st => exact fun _ hfits => hfits.1
    | _ => exact nofun
  have hclaimed : l.stage = .claimed := by
    cases act with
    | call call => cases hprog
    | step =>
      simp only [program, insertStep, hnone, Option.map_some] at hprog
      cases hprog
      rfl
  refine hut (hone.exclusive u t ?_ ?_)
  · show ((Function.update s.loc t l) u).stage ≠ .out
    rw [Function.update_of_ne hut]
    exact hu
  · show ((Function.update s.loc t l) t).stage ≠ .out
    rw [Function.update_self, hclaimed]
    exact nofun

/-- **When one resize is started at a time.**  Resizes exclude each other in all states of a
    run exactly when no compare-exchange of the run comes between that of another thread and
    its store of the resize state. -/
theorem resize_exclusive_iff {capacity : Nat} {sched : List (ι × Act K V)}
    (hrun : run step (init capacity) sched = some s) :
    Throughout step OneResize (init capacity) sched ↔
      Along step NoneUnpublished (init capacity) sched :=
  throughout_iff_along (I := fun s => Inv s.shared.core (stages s))
    (fun _ _ _ => inv_step) (fun _ => Inv.oneResize)
    (fun _ _ _ => noneUnpublished_of_oneResize) (inv_init (ι := ι) capacity) hrun

end Main

/-- Thread `true` has found that a resize is due before thread `false`, which has started it,
    completes it; its own compare-exchange comes after that and claims another resize. -/
def resizeInTurn : List (Bool × Act Nat Nat) :=
  (false, Act.call ⟨5, 7, 5⟩) :: List.replicate 9 (false, Act.step) ++
    (false, Act.call ⟨6, 8, 6⟩) :: List.replicate 9 (false, Act.step) ++
    (true, Act.call ⟨7, 9, 7⟩) :: List.replicate 3 (true, Act.step) ++
    List.replicate 15 (false, Act.step) ++ List.replicate 6 (true, Act.step)

theorem resize_exclusive_iff_inTurn :
    ∃ s : State Bool Nat Nat, run step (init 1) resizeInTurn = some s ∧ s.shared.capacity = 2 ∧
      s.shared.dropped = [0] ∧ s.shared.resizeState = some 1 ∧
      Throughout step OneResize (init 1) resizeInTurn := by
  have hrun : (run step (init 1 : State Bool Nat Nat) resizeInTurn).map
      (fun s => (s.shared.capacity, s.shared.dropped, s.shared.resizeState)) =
        some (2, [0], some 1) := by
    decide
  have hcond : Along step NoneUnpublished (init 1 : State Bool Nat Nat) resizeInTurn := by
    decide
  obtain ⟨s, hs, heq⟩ := Option.map_eq_some_iff.mp hrun
  simp only [Prod.mk.injEq] at heq
  obtain ⟨hcapacity, hdropped, hstate⟩ := heq
  exact ⟨s, hs, hcapacity, hdropped, hstate, (resize_exclusive_iff hs).mpr hcond⟩

/-- Both threads pass the compare-exchange before the first of them stores its resize state. -/
def claimTwice : List (Bool × Act Nat Nat) :=
  (false, Act.call ⟨5, 7, 5⟩) :: List.replicate 9 (false, Act.step) ++
    (false, Act.call ⟨6, 8, 6⟩) :: (true, Act.call ⟨7, 9, 7⟩) ::
    List.replicate 4 (false, Act.step) ++ List.replicate 4 (true, Act.step) ++
    List.replicate 5 (false, Act.step) ++ List.replicate 4 (true, Act.step)

/-- Two threads claim the resize of the same table, and the second is about to overwrite the
    resize state of the first. -/
theorem exchange_claims_twice :
    ∃ (sched : List (Bool × Act Nat Nat)) (s : State Bool Nat Nat),
      run step (init 1) sched = some s ∧ ¬ OneResize s ∧
        (s.loc true).stage = .created 1 ∧ s.shared.resizeState = some 0 ∧
        (s.shared.states 0).oldTable = (s.shared.states 1).oldTable := by
  have hrun : (run step (init 1 : State Bool Nat Nat) claimTwice).map
      (fun s => ((s.loc true).stage, s.shared.resizeState, (s.shared.states 0).oldTable,
        (s.shared.states 1).oldTable)) = some (.created 1, some 0, 0, 0) := by
    decide
  obtain ⟨s, hs, heq⟩ := Option.map_eq_some_iff.mp hrun
  simp only [Prod.mk.injEq] at heq
  obtain ⟨hstage, hstate, hold₀, hold₁⟩ := heq
  refine ⟨claimTwice, s, hs, fun hone => ?_, hstage, hstate, hold₀.trans hold₁.symm⟩
  have hnone := hone.stores true 1 hstage
  rw [hstate] at hnone
  cases hnone

end VelocityX.Map.Resizing
