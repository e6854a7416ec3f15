import VelocityX.Map.ResizeThreads

/-!
# Helping with one resize

One resize has been started: its starter is in `help_resize`, and any number of other
threads call `get`, which calls `help_resize` as well when it finds a resize state.  Every
helper completes the resize when it sees the end of the loop, so it is completed as often
as it is helped with.
-/

namespace VelocityX.Map.Resizing

open Transition

variable {ι K V : Type*}

inductive GetPc where
  | hashKey
  | loadCapacity (hash : UInt64)
  | loadState (hash : UInt64) (capacity : Nat)
  | help (st : Nat) (pc : HelpPc)
  | loadTable (hash : UInt64) (capacity : Nat)
  | scan (hash : UInt64) (capacity table : Nat)
deriving DecidableEq

/-- A step of `get` after `hash_key` has returned; the scan of a bucket is one step. -/
def getStep [DecidableEq K] (key : K) (sh : Shared K V) :
    GetPc → Option (Shared K V × Next GetPc (Except Panic (Option V)))
  | .hashKey => none
  | .loadCapacity hash => some (sh, .goto (.loadState hash sh.capacity))
  | .loadState hash capacity =>
      match sh.resizeState with
      | some st => some (sh, .goto (.help st .loadProgress))
      | none => some (sh, .goto (.loadTable hash capacity))
  | .help st pc =>
      match helpStep st sh pc with
      | (sh, .goto pc) => some (sh, .goto (.help st pc))
      | (sh, .ret ()) => some (sh, .goto .hashKey)
  | .loadTable hash capacity => some (sh, .goto (.scan hash capacity sh.table))
  | .scan hash capacity table => some (sh, .ret ((sh.tables table).getLocked key hash capacity))

/-- The starter in its call of `help_resize`, or a thread that calls `get`. -/
inductive Helper (K V : Type*) where
  | starter (st : Nat) (pc : HelpPc)
  | started
  | ready (last : Option (Except Panic (Option V)))
  | get (key : K) (pc : GetPc)

inductive HelperAct (K : Type*) where
  | call (key : K)
  | hash (hash : UInt64)
  | step

section Program

variable [DecidableEq K]

def helperProgram (_t : ι) (sh : Shared K V) (l : Helper K V) :
    HelperAct K → Option (Shared K V × Helper K V)
  | .call key =>
      match l with
      | .ready _ => some (sh, .get key .hashKey)
      | _ => none
  | .hash hash =>
      match l with
      | .get key .hashKey => some (sh, .get key (.loadCapacity hash))
      | _ => none
  | .step =>
      match l with
      | .starter st pc =>
          match helpStep st sh pc with
          | (sh, .goto pc) => some (sh, .starter st pc)
          | (sh, .ret ()) => some (sh, .started)
      | .get key pc =>
          (getStep key sh pc).map fun r =>
            match r.2 with
            | .goto pc => (r.1, .get key pc)
            | .ret result => (r.1, .ready (some result))
      | _ => none

abbrev HelperState (ι K V : Type*) := Threads ι (Shared K V) (Helper K V)

abbrev helperStep [DecidableEq ι] :
    HelperState ι K V → ι × HelperAct K → Option (HelperState ι K V) :=
  interleave helperProgram

end Program

/-- The threads when `starter` calls `help_resize` for the resize state at `st`. -/
def helpers [DecidableEq ι] (sh : Shared K V) (st : Nat) (starter : ι) : HelperState ι K V :=
  ⟨sh, fun t => if t = starter then .starter st .loadProgress else .ready none⟩

/-- A resize that has just been started. -/
structure Started (sh : Shared K V) (st : Nat) : Prop where
  stored : sh.resizeState = some st
  progress : (sh.states st).progress = 0
  migrated : sh.migrated = []
  freed : sh.freed = []
  dropped : sh.dropped = []

/-! ### Completing once -/

/-- In `complete_resize`. -/
def HelpPc.Completing : HelpPc → Prop
  | .storeTable => True
  | .storeCapacity => True
  | .storeNull => True
  | .dealloc => True
  | .dropState => True
  | _ => False

/-- Where a thread is in `help_resize`, if it is there. -/
def Helper.helping : Helper K V → Option HelpPc
  | .starter _ pc => some pc
  | .get _ (.help _ pc) => some pc
  | _ => none

def Helper.Returned : Helper K V → Prop
  | .started => True
  | .ready _ => True
  | _ => False

instance : (l : Helper K V) → Decidable l.Returned
  | .started => .isTrue trivial
  | .ready _ => .isTrue trivial
  | .starter _ _ => .isFalse id
  | .get _ _ => .isFalse id

def Covered (sh : Shared K V) (st n : Nat) : Prop := ∀ i < n, (st, i) ∈ sh.migrated

/-- Nothing is released twice, and whoever completes the resize does so after all buckets have
    been migrated and with nobody else in the migration. -/
structure Orderly (st : Nat) (s : HelperState ι K V) : Prop where
  freed : s.shared.freed.length ≤ 1
  dropped : s.shared.dropped.length ≤ 1
  finished : ∀ t pc, (s.loc t).helping = some pc → pc.Completing →
    Covered s.shared st (s.shared.states st).oldCapacity ∧
      ∀ u pc', (s.loc u).helping = some pc' → pc'.Completing

/-- The old table and the resize state have been released once. -/
def Released (oldTable st : Nat) (s : HelperState ι K V) : Prop :=
  s.shared.freed = [oldTable] ∧ s.shared.dropped = [st]

/-- A `get` loads the resize state only when it is null. -/
def NoGetHelps (s : HelperState ι K V) (a : ι × HelperAct K) : Prop :=
  ∀ key hash capacity, s.loc a.1 = .get key (.loadState hash capacity) →
    s.shared.resizeState = none

/-! ### The starter alone -/

/-- The value of `progress` after `fetch_add` has returned `migrated`: it is one chunk ahead,
    except at the start. -/
def Ahead (cap progress migrated : Nat) : Prop :=
  progress = 0 ∧ migrated = 0 ∨ min progress cap = min (migrated + 16) cap

def PcInv (sh : Shared K V) (st : Nat) : HelpPc → Prop
  | .loadProgress => (sh.states st).progress = 0 ∧ sh.freed = [] ∧ sh.dropped = []
  | .test m =>
      Covered sh st (min m (sh.states st).oldCapacity) ∧
        Ahead (sh.states st).oldCapacity (sh.states st).progress m ∧ sh.freed = [] ∧ sh.dropped = []
  | .migrate m n i =>
      m < (sh.states st).oldCapacity ∧ n = min (m + 16) (sh.states st).oldCapacity ∧ i ≤ n ∧
        Covered sh st i ∧ Ahead (sh.states st).oldCapacity (sh.states st).progress m ∧
        sh.freed = [] ∧ sh.dropped = []
  | .fetchAdd m n =>
      m < (sh.states st).oldCapacity ∧ n = min (m + 16) (sh.states st).oldCapacity ∧
        Covered sh st n ∧ Ahead (sh.states st).oldCapacity (sh.states st).progress m ∧
        sh.freed = [] ∧ sh.dropped = []
  | .dropState =>
      Covered sh st (sh.states st).oldCapacity ∧ sh.freed = [(sh.states st).oldTable] ∧
        sh.dropped = []
  | _ => Covered sh st (sh.states st).oldCapacity ∧ sh.freed = [] ∧ sh.dropped = []

/-- The rounds that the loop still makes. -/
def rounds (cap progress migrated : Nat) : Nat :=
  if migrated < cap then (cap - migrated) + (if progress = 0 then 1 else 0) else 0

/-- A bound for the steps of `help_resize` that are left. -/
def budget (state : ResizeState) : HelpPc → Nat
  | .loadProgress => 19 * (state.oldCapacity + 1) + 7
  | .test m => 19 * rounds state.oldCapacity state.progress m + 6
  | .migrate m n i => 19 * (rounds state.oldCapacity state.progress m - 1) + (n - i) + 8
  | .fetchAdd m _ => 19 * (rounds state.oldCapacity state.progress m - 1) + 7
  | .storeTable => 5
  | .storeCapacity => 4
  | .storeNull => 3
  | .dealloc => 2
  | .dropState => 1

section Starter

variable {sh sh' : Shared K V} {st : Nat} {pc pc' : HelpPc}

theorem rounds_le (cap progress migrated : Nat) : rounds cap progress migrated ≤ cap + 1 := by
  rw [rounds]
  split
  · split <;> omega
  · exact Nat.zero_le _

/-- One round of the loop: `fetch_add` returns the old value of `progress`. -/
theorem Ahead.fetchAdd {cap progress migrated : Nat} (h : Ahead cap progress migrated)
    (hlt : migrated < cap) :
    Ahead cap (progress + (min (migrated + 16) cap - migrated)) progress ∧
      min progress cap ≤ min (migrated + 16) cap ∧
      rounds cap (progress + (min (migrated + 16) cap - migrated)) progress + 1 ≤
        rounds cap progress migrated := by
  have hsum : progress + (min (migrated + 16) cap - migrated) ≠ 0 := by omega
  simp only [rounds, if_pos hlt, if_neg hsum]
  rcases h with ⟨rfl, rfl⟩ | hmin
  · refine ⟨.inr (by omega), by omega, ?_⟩
    rw [if_pos hlt, if_pos rfl]
  · refine ⟨.inr (by omega), by omega, ?_⟩
    split <;> split <;> omega

theorem states_fetchAdd (n : Nat) :
    (sh.fetchAdd st n).states st =
      { sh.states st with progress := (sh.states st).progress + n } :=
  Function.update_self ..

theorem Covered.migrateBucket {i : Nat} (h : Covered sh st i) :
    Covered (sh.migrateBucket st i) st (i + 1) := by
  intro j hj
  rcases Nat.lt_succ_iff_lt_or_eq.mp hj with hj | rfl
  · exact List.mem_append_left _ (h j hj)
  · exact List.mem_append_right _ (List.mem_singleton.mpr rfl)

/-- A step of the starter keeps its invariant and uses up a part of its budget. -/
theorem helpStep_inv (hinv : PcInv sh st pc) (hstep : helpStep st sh pc = (sh', .goto pc')) :
    PcInv sh' st pc' ∧ budget (sh'.states st) pc' < budget (sh.states st) pc ∧
      (sh'.states st).oldTable = (sh.states st).oldTable ∧
      (sh'.states st).oldCapacity = (sh.states st).oldCapacity := by
  cases pc with
  | loadProgress =>
    cases hstep
    obtain ⟨hprogress, hfreed, hdropped⟩ := hinv
    refine ⟨⟨?_, .inl ⟨hprogress, hprogress⟩, hfreed, hdropped⟩, ?_, rfl, rfl⟩
    · rw [hprogress, Nat.zero_min]
      exact nofun
    · have hle := rounds_le (sh.states st).oldCapacity (sh.states st).progress
        (sh.states st).progress
      simp only [budget]
      omega
  | test m =>
    simp only [helpStep] at hstep
    obtain ⟨hcovered, hahead, hfreed, hdropped⟩ := hinv
    split at hstep <;> cases hstep
    · next hlt =>
      rw [Nat.min_eq_left (Nat.le_of_lt hlt)] at hcovered
      refine ⟨⟨hlt, rfl, by omega, hcovered, hahead, hfreed, hdropped⟩, ?_, rfl, rfl⟩
      simp only [budget, rounds, if_pos hlt]
      omega
    · next hge =>
      rw [Nat.min_eq_right (Nat.le_of_not_lt hge)] at hcovered
      refine ⟨⟨hcovered, hfreed, hdropped⟩, ?_, rfl, rfl⟩
      simp only [budget]
      omega
  | migrate m n i =>
    simp only [helpStep] at hstep
    obtain ⟨hlt, hn, hi, hcovered, hahead, hfreed, hdropped⟩ := hinv
    split at hstep <;> cases hstep
    · next hin =>
      refine ⟨⟨hlt, hn, hin, hcovered.migrateBucket, hahead, hfreed, hdropped⟩, ?_, rfl, rfl⟩
      simp only [budget, Shared.migrateBucket]
      omega
    · next hin =>
      obtain rfl : i = n := by omega
      refine ⟨⟨hlt, hn, hcovered, hahead, hfreed, hdropped⟩, ?_, rfl, rfl⟩
      simp only [budget]
      omega
  | fetchAdd m n =>
    cases hstep
    obtain ⟨hlt, rfl, hcovered, hahead, hfreed, hdropped⟩ := hinv
    obtain ⟨hahead', hle, hrounds⟩ := hahead.fetchAdd hlt
    refine ⟨⟨?_, ?_, hfreed, hdropped⟩, ?_, ?_, ?_⟩
    · rw [states_fetchAdd]
      exact fun i hi => hcovered i (Nat.lt_of_lt_of_le hi hle)
    · rw [states_fetchAdd]
      exact hahead'
    · rw [states_fetchAdd]
      simp only [budget]
      omega
    · rw [states_fetchAdd]
    · rw [states_fetchAdd]
  | storeTable =>
    cases hstep
    exact ⟨hinv, Nat.lt_succ_self _, rfl, rfl⟩
  | storeCapacity =>
    cases hstep
    exact ⟨hinv, Nat.lt_succ_self _, rfl, rfl⟩
  | storeNull =>
    cases hstep
    exact ⟨hinv, Nat.lt_succ_self _, rfl, rfl⟩
  | dealloc =>
    cases hstep
    obtain ⟨hcovered, hfreed, hdropped⟩ := hinv
    exact ⟨⟨hcovered, by rw [hfreed]; rfl, hdropped⟩, Nat.lt_succ_self _, rfl, rfl⟩
  | dropState => cases hstep

theorem helpStep_ret_inv (hinv : PcInv sh st pc) (hstep : helpStep st sh pc = (sh', .ret ())) :
    sh'.freed = [(sh.states st).oldTable] ∧ sh'.dropped = [st] ∧ sh'.states = sh.states ∧
      0 < budget (sh.states st) pc := by
  cases pc with
  | dropState =>
    cases hstep
    obtain ⟨_, hfreed, hdropped⟩ := hinv
    exact ⟨hfreed, by rw [hdropped]; rfl, rfl, Nat.zero_lt_one⟩
  | test m =>
    simp only [helpStep] at hstep
    split at hstep <;> cases hstep
  | migrate m n i =>
    simp only [helpStep] at hstep
    split at hstep <;> cases hstep
  | _ => cases hstep

/-- What the invariant of the starter says about releases and buckets. -/
theorem PcInv.orderly (hinv : PcInv sh st pc) :
    sh.freed.length ≤ 1 ∧ sh.dropped.length ≤ 1 ∧
      (pc.Completing → Covered sh st (sh.states st).oldCapacity) := by
  cases pc with
  | loadProgress => exact ⟨by simp [hinv.2.1], by simp [hinv.2.2], False.elim⟩
  | test m => exact ⟨by simp [hinv.2.2.1], by simp [hinv.2.2.2], False.elim⟩
  | migrate m n i =>
    obtain ⟨_, _, _, _, _, hfreed, hdropped⟩ := hinv
    exact ⟨by simp [hfreed], by simp [hdropped], False.elim⟩
  | fetchAdd m n =>
    obtain ⟨_, _, _, _, hfreed, hdropped⟩ := hinv
    exact ⟨by simp [hfreed], by simp [hdropped], False.elim⟩
  | _ => exact ⟨by simp [hinv.2.1], by simp [hinv.2.2], fun _ => hinv.1⟩

end Starter

section Alone

variable [DecidableEq ι] [DecidableEq K] {sh sh' : Shared K V} {st oldTable : Nat} {starter t : ι}
variable {l l' : Helper K V} {a : HelperAct K} {s s' : HelperState ι K V}

/-- The starter is the only helper. -/
structure Alone (oldTable st : Nat) (starter : ι) (s : HelperState ι K V) : Prop where
  old : (s.shared.states st).oldTable = oldTable
  main : (∃ pc, s.loc starter = .starter st pc ∧ PcInv s.shared st pc) ∨
    s.loc starter = .started ∧ Released oldTable st s
  others : ∀ t, t ≠ starter → (s.loc t).helping = none

/-- The steps that are left to the starter. -/
def left (st : Nat) (starter : ι) (s : HelperState ι K V) : Nat :=
  match s.loc starter with
  | .starter _ pc => budget (s.shared.states st) pc
  | _ => 0

omit [DecidableEq ι] in
/-- A thread that does not help and does not start to changes nothing. -/
theorem helperProgram_idle (hidle : l.helping = none)
    (hnull : ∀ key hash capacity, l = .get key (.loadState hash capacity) → sh.resizeState = none)
    (hstep : helperProgram t sh l a = some (sh', l')) : sh' = sh ∧ l'.helping = none := by
  cases a with
  | call key =>
    cases l with
    | ready last =>
      cases hstep
      exact ⟨rfl, rfl⟩
    | _ => cases hstep
  | hash hash =>
    cases l with
    | get key pc =>
      cases pc with
      | hashKey =>
        cases hstep
        exact ⟨rfl, rfl⟩
      | _ => cases hstep
    | _ => cases hstep
  | step =>
    cases l with
    | starter st pc => cases hidle
    | started => cases hstep
    | ready last => cases hstep
    | get key pc =>
      cases pc with
      | hashKey => cases hstep
      | help st pc => cases hidle
      | loadState hash capacity =>
        simp only [helperProgram, getStep, hnull key hash capacity rfl] at hstep
        cases hstep
        exact ⟨rfl, rfl⟩
      | _ =>
        cases hstep
        exact ⟨rfl, rfl⟩

theorem alone_step {act : ι × HelperAct K} (hI : Alone oldTable st starter s)
    (hno : NoGetHelps s act) (hstep : helperStep s act = some s') :
    Alone oldTable st starter s' ∧
      left st starter s' + (if decide (act.1 = starter) then 1 else 0) ≤ left st starter s := by
  obtain ⟨t, a⟩ := act
  obtain ⟨sh, l, hprog, rfl⟩ := interleave_eq_some.mp hstep
  by_cases ht : t = starter
  · subst ht
    rcases hI.main with ⟨pc, hloc, hinv⟩ | ⟨hloc, _⟩
    · rw [hloc] at hprog
      have hleft : left st t s = budget (s.shared.states st) pc := by
        rw [left, hloc]
      have hothers : ∀ u, u ≠ t → (Function.update s.loc t l u).helping = none := by
        intro u hu
        rw [Function.update_of_ne hu]
        exact hI.others u hu
      cases a with
      | call key => cases hprog
      | hash hash => cases hprog
      | step =>
        simp only [helperProgram] at hprog
        split at hprog
        · next hhelp =>
          cases hprog
          obtain ⟨hinv', hlt, hold, _⟩ := helpStep_inv hinv hhelp
          refine ⟨⟨hold.trans hI.old, .inl ⟨_, Function.update_self .., hinv'⟩, hothers⟩, ?_⟩
          rw [hleft, left]
          simp only [Function.update_self, decide_true, if_true]
          exact hlt
        · next hhelp =>
          cases hprog
          obtain ⟨hfreed, hdropped, hstates, hpos⟩ := helpStep_ret_inv hinv hhelp
          rw [hI.old] at hfreed
          refine ⟨⟨by rw [hstates]; exact hI.old,
            .inr ⟨Function.update_self .., hfreed, hdropped⟩, hothers⟩, ?_⟩
          rw [hleft, left]
          simp only [Function.update_self, decide_true, if_true]
          omega
    · rw [hloc] at hprog
      cases a <;> cases hprog
  · obtain ⟨rfl, hidle⟩ := helperProgram_idle (hI.others t ht) hno hprog
    have hstarter : Function.update s.loc t l starter = s.loc starter :=
      Function.update_of_ne (Ne.symm ht) _ _
    refine ⟨⟨hI.old, ?_, ?_⟩, ?_⟩
    · simp only [hstarter]
      exact hI.main
    · exact (Function.forall_update_iff s.loc fun u l => u ≠ starter → l.helping = none).mpr
        ⟨fun _ => hidle, fun u _ => hI.others u⟩
    · simp only [left, hstarter, ht, decide_false, Bool.false_eq_true, if_false]
      exact Nat.le_refl _

omit [DecidableEq ι] [DecidableEq K] in
theorem Alone.orderly (hI : Alone oldTable st starter s) : Orderly st s := by
  have hother : ∀ u pc, (s.loc u).helping = some pc → u = starter := by
    intro u pc hu
    by_contra hne
    rw [hI.others u hne] at hu
    cases hu
  rcases hI.main with ⟨pc, hloc, hinv⟩ | ⟨hloc, hfreed, hdropped⟩
  · obtain ⟨hfreed, hdropped, hcovered⟩ := hinv.orderly
    refine ⟨hfreed, hdropped, fun t pc₁ ht hcompleting => ?_⟩
    have hone : ∀ u pc₂, (s.loc u).helping = some pc₂ → pc₂ = pc := by
      intro u pc₂ hu
      obtain rfl := hother u pc₂ hu
      rw [hloc] at hu
      exact (Option.some.inj hu).symm
    obtain rfl := hone t pc₁ ht
    exact ⟨hcovered hcompleting, fun u pc' hu => hone u pc' hu ▸ hcompleting⟩
  · refine ⟨by simp [hfreed], by simp [hdropped], fun t pc ht _ => ?_⟩
    obtain rfl := hother t pc ht
    rw [hloc] at ht
    cases ht

/-- The starter has finished the resize, or can take its next step. -/
theorem Alone.released_or_step (hI : Alone oldTable st starter s) :
    (s.loc starter).Returned ∧ Released oldTable st s ∨
      ∃ s', helperStep s (starter, .step) = some s' := by
  rcases hI.main with ⟨pc, hloc, _⟩ | ⟨hloc, hreleased⟩
  · right
    simp only [helperStep, interleave, hloc, helperProgram]
    split <;> exact ⟨_, rfl⟩
  · left
    rw [hloc]
    exact ⟨trivial, hreleased⟩

omit [DecidableEq ι] [DecidableEq K] in
theorem Alone.released (hI : Alone oldTable st starter s) (hreturned : (s.loc starter).Returned) :
    Released oldTable st s := by
  rcases hI.main with ⟨pc, hloc, _⟩ | ⟨_, hreleased⟩
  · rw [hloc] at hreturned
    exact hreturned.elim
  · exact hreleased

omit [DecidableEq K] in
theorem alone_helpers (starter : ι) (hstarted : Started sh st) :
    Alone (sh.states st).oldTable st starter (helpers sh st starter : HelperState ι K V) := by
  refine ⟨rfl, .inl ⟨.loadProgress, if_pos rfl, hstarted.progress, hstarted.freed,
    hstarted.dropped⟩, fun t ht => ?_⟩
  simp only [helpers, if_neg ht]
  rfl

end Alone

/-! ### Counting the completions -/

section Counting

variable [DecidableEq ι] [DecidableEq K] {sh sh' : Shared K V} {st n : Nat} {t : ι}
variable {l l' : Helper K V} {a : HelperAct K} {s s' : HelperState ι K V}

/-- At least `n` calls of `help_resize` have dropped the resize state or are going to. -/
def Completions (n : Nat) (s : HelperState ι K V) : Prop :=
  ∃ ts : List ι, ts.Nodup ∧ (∀ t ∈ ts, (s.loc t).helping ≠ none) ∧
    n ≤ s.shared.dropped.length + ts.length

omit [DecidableEq K] in
theorem helpStep_dropped (st : Nat) (sh : Shared K V) (pc : HelpPc) :
    (∃ sh' pc', helpStep st sh pc = (sh', .goto pc') ∧ sh'.dropped = sh.dropped) ∨
      ∃ sh', helpStep st sh pc = (sh', .ret ()) ∧ sh'.dropped = sh.dropped ++ [st] := by
  cases pc with
  | dropState => exact .inr ⟨_, rfl, rfl⟩
  | test m =>
    left
    rw [helpStep]
    split <;> exact ⟨_, _, rfl, rfl⟩
  | migrate m n i =>
    left
    rw [helpStep]
    split <;> exact ⟨_, _, rfl, rfl⟩
  | _ => exact .inl ⟨_, _, rfl, rfl⟩

omit [DecidableEq ι] in
/-- A call of `help_resize` ends with the drop of a resize state, and nothing else drops one. -/
theorem helperProgram_dropped (hstep : helperProgram t sh l a = some (sh', l')) :
    sh'.dropped.length = sh.dropped.length ∧ (l.helping ≠ none → l'.helping ≠ none) ∨
      sh'.dropped.length = sh.dropped.length + 1 ∧ l.helping ≠ none := by
  cases a with
  | call key =>
    cases l with
    | ready last =>
      cases hstep
      exact .inl ⟨rfl, fun h => absurd rfl h⟩
    | _ => cases hstep
  | hash hash =>
    cases l with
    | get key pc =>
      cases pc with
      | hashKey =>
        cases hstep
        exact .inl ⟨rfl, fun h => absurd rfl h⟩
      | _ => cases hstep
    | _ => cases hstep
  | step =>
    cases l with
    | ready last => cases hstep
    | started => cases hstep
    | starter st pc =>
      rcases helpStep_dropped st sh pc with ⟨sh₁, pc₁, hhelp, hdropped⟩ | ⟨sh₁, hhelp, hdropped⟩
      · simp only [helperProgram, hhelp] at hstep
        cases hstep
        exact .inl ⟨by rw [hdropped], fun _ => nofun⟩
      · simp only [helperProgram, hhelp] at hstep
        cases hstep
        exact .inr ⟨by rw [hdropped, List.length_append]; rfl, nofun⟩
    | get key pc =>
      cases pc with
      | hashKey => cases hstep
      | loadState hash capacity =>
        simp only [helperProgram, getStep] at hstep
        cases hstate : sh.resizeState with
        | none =>
          simp only [hstate] at hstep
          cases hstep
          exact .inl ⟨rfl, fun h => absurd rfl h⟩
        | some st =>
          simp only [hstate] at hstep
          cases hstep
          exact .inl ⟨rfl, fun h => absurd rfl h⟩
      | help st pc =>
        rcases helpStep_dropped st sh pc with ⟨sh₁, pc₁, hhelp, hdropped⟩ | ⟨sh₁, hhelp, hdropped⟩
        · simp only [helperProgram, getStep, hhelp] at hstep
          cases hstep
          exact .inl ⟨by rw [hdropped], fun _ => nofun⟩
        · simp only [helperProgram, getStep, hhelp] at hstep
          cases hstep
          exact .inr ⟨by rw [hdropped, List.length_append]; rfl, nofun⟩
      | _ =>
        cases hstep
        exact .inl ⟨rfl, fun h => absurd rfl h⟩

theorem completions_step {act : ι × HelperAct K} (hn : Completions n s)
    (hstep : helperStep s act = some s') : Completions n s' := by
  obtain ⟨t, a⟩ := act
  obtain ⟨sh, l, hprog, rfl⟩ := interleave_eq_some.mp hstep
  obtain ⟨ts, hnodup, hhelping, hle⟩ := hn
  rcases helperProgram_dropped hprog with ⟨hdropped, hkeep⟩ | ⟨hdropped, hthelps⟩
  · exact ⟨ts, hnodup,
      (Function.forall_update_iff s.loc fun u l => u ∈ ts → l.helping ≠ none).mpr
        ⟨fun ht => hkeep (hhelping t ht), fun u _ => hhelping u⟩, hdropped ▸ hle⟩
  · refine ⟨ts.erase t, hnodup.erase t, fun u hu => ?_, ?_⟩
    · obtain ⟨hut, hu⟩ := hnodup.mem_erase_iff.mp hu
      show (Function.update s.loc t l u).helping ≠ none
      rw [Function.update_of_ne hut]
      exact hhelping u hu
    · have hlength := ts.le_length_erase (a := t)
      show n ≤ sh.dropped.length + (ts.erase t).length
      omega

/-- A `get` that finds a resize state adds a completion. -/
theorem completions_enter {act : ι × HelperAct K} (hn : Completions n s)
    (hstep : helperStep s act = some s') (henter : ¬ NoGetHelps s act) :
    Completions (n + 1) s' := by
  obtain ⟨t, a⟩ := act
  obtain ⟨sh, l, hprog, rfl⟩ := interleave_eq_some.mp hstep
  simp only [NoGetHelps, not_forall] at henter
  obtain ⟨key, hash, capacity, hloc, hstate⟩ := henter
  obtain ⟨st, hst⟩ := Option.ne_none_iff_exists'.mp hstate
  rw [hloc] at hprog
  cases a with
  | call key => cases hprog
  | hash hash => cases hprog
  | step =>
    simp only [helperProgram, getStep, hst] at hprog
    cases hprog
    obtain ⟨ts, hnodup, hhelping, hle⟩ := hn
    have hnotMem : t ∉ ts := by
      intro ht
      refine hhelping t ht ?_
      rw [hloc]
      rfl
    refine ⟨t :: ts, List.nodup_cons.mpr ⟨hnotMem, hnodup⟩, ?_, ?_⟩
    · exact (Function.forall_update_iff s.loc fun u l => u ∈ t :: ts → l.helping ≠ none).mpr
        ⟨fun _ => Option.some_ne_none _,
          fun u hut hu => hhelping u ((List.mem_cons.mp hu).resolve_left hut)⟩
    · rw [List.length_cons]
      show n + 1 ≤ s.shared.dropped.length + (ts.length + 1)
      omega

omit [DecidableEq ι] [DecidableEq K] in
/-- When all calls have returned the completions have taken place. -/
theorem Completions.le_dropped (hn : Completions n s) (hreturned : ∀ t, (s.loc t).Returned) :
    n ≤ s.shared.dropped.length := by
  obtain ⟨ts, _, hhelping, hle⟩ := hn
  cases ts with
  | nil => exact hle
  | cons t ts =>
    have hret := hreturned t
    have hhelp := hhelping t List.mem_cons_self
    revert hret hhelp
    cases s.loc t with
    | starter st pc => exact False.elim
    | get key pc => exact False.elim
    | _ => exact fun _ h => absurd rfl h

omit [DecidableEq K] in
theorem completions_helpers (sh : Shared K V) (st : Nat) (starter : ι) :
    Completions 1 (helpers sh st starter : HelperState ι K V) := by
  refine ⟨[starter], List.nodup_singleton _, fun t ht => ?_, Nat.le_add_left _ _⟩
  obtain rfl := List.mem_singleton.mp ht
  simp [helpers, Helper.helping]

end Counting

/-- **When a resize is completed once.**  If no `get` finds the resize state, the starter alone
    migrates all buckets, in a bounded number of steps that nobody can block, and releases the
    old table and the resize state once; and in a run in which all calls have returned, that is
    so exactly when no `get` has found the resize state. -/
theorem completes_once_iff [DecidableEq ι] [DecidableEq K] {sh : Shared K V} {st : Nat}
    {starter : ι} {sched : List (ι × HelperAct K)} {s : HelperState ι K V}
    (hstarted : Started sh st) (hrun : run helperStep (helpers sh st starter) sched = some s) :
    (Along helperStep NoGetHelps (helpers sh st starter) sched →
      Throughout helperStep (Orderly st) (helpers sh st starter) sched ∧
      (sched.countP fun a => decide (a.1 = starter)) ≤ 19 * ((sh.states st).oldCapacity + 1) + 7 ∧
      ((s.loc starter).Returned ∧ Released (sh.states st).oldTable st s ∨
        ∃ s', helperStep s (starter, .step) = some s')) ∧
    ((∀ t, (s.loc t).Returned) →
      (Throughout helperStep (Orderly st) (helpers sh st starter) sched ∧
        Released (sh.states st).oldTable st s ↔
      Along helperStep NoGetHelps (helpers sh st starter) sched)) := by
  have hinit := alone_helpers starter hstarted
  have horderly : Along helperStep NoGetHelps (helpers sh st starter) sched →
      Throughout helperStep (Orderly st) (helpers sh st starter) sched :=
    throughout_of_along (fun _ _ _ hI hno hstep => (alone_step hI hno hstep).1)
      (fun _ => Alone.orderly) hinit
  have hfinal : Along helperStep NoGetHelps (helpers sh st starter) sched →
      Alone (sh.states st).oldTable st starter s := fun halong =>
    run_invariant_along (fun _ _ _ hI hno hstep => (alone_step hI hno hstep).1) hinit halong hrun
  refine ⟨fun halong => ⟨horderly halong, ?_, ?_⟩, fun hreturned => ⟨?_, fun halong => ?_⟩⟩
  · have hle := run_countP_le (p := fun a : ι × HelperAct K => decide (a.1 = starter))
      (fun _ _ _ => alone_step) hinit halong hrun
    have hleft : left st starter (helpers sh st starter : HelperState ι K V) =
        19 * ((sh.states st).oldCapacity + 1) + 7 := by
      simp only [left, helpers, if_true]
      rfl
    rw [← hleft]
    exact Nat.le_trans (Nat.le_add_left _ _) hle
  · exact (hfinal halong).released_or_step
  · rintro ⟨_, _, hdropped⟩
    by_contra hhelped
    have htwo : Completions (1 + 1) s :=
      run_of_not_along (fun _ _ _ hn _ => completions_step hn)
        (fun _ _ _ hn henter hstep => completions_enter hn hstep henter)
        (fun _ _ _ => completions_step) (completions_helpers sh st starter) hrun hhelped
    have hle := htwo.le_dropped hreturned
    simp [hdropped] at hle
  · exact ⟨horderly halong, (hfinal halong).released (hreturned starter)⟩

/-- A fresh map whose first resize has just been started. -/
def Shared.resizing (capacity : Nat) : Shared K V :=
  let sh : Shared K V := .new capacity
  { (sh.allocate (sh.capacity * 2)).create
      ⟨sh.table, sh.tableCount, sh.capacity, sh.capacity * 2, 0⟩ with resizeState := some 0 }

theorem started_resizing (capacity : Nat) : Started (.resizing capacity : Shared K V) 0 :=
  ⟨rfl, rfl, rfl, rfl, rfl⟩

/-- The starter completes the resize before the `get` is called. -/
def getAfter : List (Bool × HelperAct Nat) :=
  List.replicate 15 (false, HelperAct.step) ++
    [(true, HelperAct.call 5), (true, HelperAct.hash 5)] ++
    List.replicate 4 (true, HelperAct.step)

theorem completes_once_iff_getAfter :
    ∃ (sched : List (Bool × HelperAct Nat)) (s : HelperState Bool Nat Nat),
      run helperStep (helpers (.resizing 1) 0 false) sched = some s ∧
      (∀ t, (s.loc t).Returned) ∧ s.shared.dropped = [0] ∧
      (Throughout helperStep (Orderly 0) (helpers (.resizing 1 : Shared Nat Nat) 0 false) sched ∧
          Released 0 0 s ↔
        Along helperStep NoGetHelps (helpers (.resizing 1 : Shared Nat Nat) 0 false) sched) := by
  have hrun : (run helperStep (helpers (.resizing 1 : Shared Nat Nat) 0 false) getAfter).map
      (fun s => (decide (∀ t, (s.loc t).Returned), s.shared.dropped)) = some (true, [0]) := by
    decide
  obtain ⟨s, hs, heq⟩ := Option.map_eq_some_iff.mp hrun
  obtain ⟨hreturned, hdropped⟩ := Prod.mk.inj heq
  have hreturned := of_decide_eq_true hreturned
  exact ⟨getAfter, s, hs, hreturned, hdropped,
    (completes_once_iff (started_resizing 1) hs).2 hreturned⟩

/-- The starter has loaded the progress when the `get` completes the resize. -/
def getFirst : List (Bool × HelperAct Nat) :=
  [(false, HelperAct.step), (true, HelperAct.call 5), (true, HelperAct.hash 5)] ++
    List.replicate 17 (true, HelperAct.step) ++ List.replicate 10 (false, HelperAct.step) ++
    (true, HelperAct.hash 5) :: List.replicate 4 (true, HelperAct.step)

/-- A `get` helps with the resize, and both the old table and the resize state are released
    twice. -/
theorem helper_completes_again :
    ∃ (sched : List (Bool × HelperAct Nat)) (s : HelperState Bool Nat Nat),
      run helperStep (helpers (.resizing 1) 0 false) sched = some s ∧
      (∀ t, (s.loc t).Returned) ∧ s.shared.freed = [0, 0] ∧ s.shared.dropped = [0, 0] ∧
      ¬ Throughout helperStep (Orderly 0)
        (helpers (.resizing 1 : Shared Nat Nat) 0 false) sched := by
  have hrun : (run helperStep (helpers (.resizing 1 : Shared Nat Nat) 0 false) getFirst).map
      (fun s => (decide (∀ t, (s.loc t).Returned), s.shared.freed, s.shared.dropped)) =
        some (true, [0, 0], [0, 0]) := by
    decide
  obtain ⟨s, hs, heq⟩ := Option.map_eq_some_iff.mp hrun
  simp only [Prod.mk.injEq] at heq
  obtain ⟨hreturned, hfreed, hdropped⟩ := heq
  refine ⟨getFirst, s, hs, of_decide_eq_true hreturned, hfreed, hdropped, fun hall => ?_⟩
  have hle := (hall.last hs).freed
  rw [hfreed] at hle
  exact absurd hle (by decide)

end VelocityX.Map.Resizing
