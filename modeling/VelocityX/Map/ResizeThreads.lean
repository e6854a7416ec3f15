import Mathlib.Data.Fintype.Basic
import VelocityX.Error
import VelocityX.Lib.Transition
import VelocityX.Map.Resize

/-!
# Resizes of the concurrent hash map under interleaving

Any number of threads run `insert` of `src/map/concurrent.rs` on one map.  A step is one
load, store or atomic update of a field of the map or of a resize state, one allocation or
deallocation, or taking or releasing a stripe lock; what `insert_locked` and `migrate_bucket`
do to one bucket is one step.  Steps are sequentially consistent.

Tables and resize states are allocated at the addresses 0, 1, 2, …, and no address is used
twice.  Memory keeps its contents when it is released, so a run goes on after a use of
released memory.  The ghost logs `migrated`, `freed` and `dropped` list the buckets that
have been migrated for each resize state, and the released tables and resize states.

The compare-exchange of `try_resize` replaces null by null, so it claims nothing: it
succeeds for every thread until the first of them has stored its resize state.
-/

namespace VelocityX.Map.Resizing

open Transition

variable {ι K V : Type*}

structure ResizeState where
  oldTable : Nat
  newTable : Nat
  oldCapacity : Nat
  newCapacity : Nat
  progress : Nat
deriving DecidableEq, Repr

structure Shared (K V : Type*) where
  table : Nat
  capacity : Nat
  size : Nat
  locked : Nat → Bool
  resizeState : Option Nat
  tables : Nat → Table K V
  tableCount : Nat
  states : Nat → ResizeState
  stateCount : Nat
  migrated : List (Nat × Nat)
  freed : List Nat
  dropped : List Nat

namespace Shared

/-- `with_capacity`: the first table is at address 0. -/
def new (capacity : Nat) : Shared K V where
  table := 0
  capacity := roundUp capacity
  size := 0
  locked _ := false
  resizeState := none
  tables _ := allocateTable (roundUp capacity)
  tableCount := 1
  states _ := ⟨0, 0, 0, 0, 0⟩
  stateCount := 0
  migrated := []
  freed := []
  dropped := []

/-- `allocate_table`, at the address `sh.tableCount`. -/
def allocate (sh : Shared K V) (capacity : Nat) : Shared K V :=
  { sh with
    tables := Function.update sh.tables sh.tableCount (allocateTable capacity)
    tableCount := sh.tableCount + 1 }

/-- `Box::new(ResizeState { .. })`, at the address `sh.stateCount`. -/
def create (sh : Shared K V) (state : ResizeState) : Shared K V :=
  { sh with
    states := Function.update sh.states sh.stateCount state
    stateCount := sh.stateCount + 1 }

def migrateBucket (sh : Shared K V) (st i : Nat) : Shared K V :=
  let state := sh.states st
  { sh with
    tables := Function.update sh.tables state.newTable
      ((sh.tables state.oldTable i).stored.foldl (Table.place state.newCapacity)
        (sh.tables state.newTable))
    migrated := sh.migrated ++ [(st, i)] }

def fetchAdd (sh : Shared K V) (st n : Nat) : Shared K V :=
  { sh with
    states := Function.update sh.states st
      { sh.states st with progress := (sh.states st).progress + n } }

end Shared

/-! ### Helping with a resize -/

/-- The program counters of `help_resize` and `complete_resize`. -/
inductive HelpPc where
  | loadProgress
  | test (migrated : Nat)
  | migrate (migrated nextMigrated i : Nat)
  | fetchAdd (migrated nextMigrated : Nat)
  | storeTable
  | storeCapacity
  | storeNull
  | dealloc
  | dropState
deriving DecidableEq, Repr

def helpStep (st : Nat) (sh : Shared K V) : HelpPc → Shared K V × Next HelpPc Unit
  | .loadProgress => (sh, .goto (.test (sh.states st).progress))
  | .test migrated =>
      let oldCapacity := (sh.states st).oldCapacity
      if migrated < oldCapacity then
        (sh, .goto (.migrate migrated (min (migrated + 16) oldCapacity) migrated))
      else
        (sh, .goto .storeTable)
  | .migrate migrated nextMigrated i =>
      if i < nextMigrated then
        (sh.migrateBucket st i, .goto (.migrate migrated nextMigrated (i + 1)))
      else
        (sh, .goto (.fetchAdd migrated nextMigrated))
  | .fetchAdd migrated nextMigrated =>
      (sh.fetchAdd st (nextMigrated - migrated), .goto (.test (sh.states st).progress))
  | .storeTable => ({ sh with table := (sh.states st).newTable }, .goto .storeCapacity)
  | .storeCapacity => ({ sh with capacity := (sh.states st).newCapacity }, .goto .storeNull)
  | .storeNull => ({ sh with resizeState := none }, .goto .dealloc)
  | .dealloc => ({ sh with freed := sh.freed ++ [(sh.states st).oldTable] }, .goto .dropState)
  | .dropState => ({ sh with dropped := sh.dropped ++ [st] }, .ret ())

/-! ### Inserting -/

/-- The arguments of a call and the hash that `hash_key` returns to it. -/
structure Insertion (K V : Type*) where
  key : K
  value : V
  hash : UInt64
deriving DecidableEq

inductive InsertPc (V : Type*) where
  | loadSize
  | loadCapacity (size : Nat)
  | exchange
  | loadOldCapacity
  | loadOldTable (oldCapacity : Nat)
  | allocate (oldCapacity oldTable : Nat)
  | create (oldCapacity oldTable newTable : Nat)
  | storeState (st : Nat)
  | help (st : Nat) (pc : HelpPc)
  | lock
  | loadBuckets
  | loadTable (capacity : Nat)
  | write (capacity table : Nat)
  | addSize
  | unlock (result : Except Panic (Option V))

def insertStep [DecidableEq K] (call : Insertion K V) (stripe : Nat) (sh : Shared K V) :
    InsertPc V → Option (Shared K V × Next (InsertPc V) (Except Panic (Option V)))
  -- `should_resize`
  | .loadSize => some (sh, .goto (.loadCapacity sh.size))
  | .loadCapacity size =>
      some (sh, .goto (if 3 * sh.capacity < 4 * size then .exchange else .lock))
  -- `try_resize`
  | .exchange =>
      match sh.resizeState with
      | none => some (sh, .goto .loadOldCapacity)
      | some _ => some (sh, .goto .lock)
  | .loadOldCapacity => some (sh, .goto (.loadOldTable sh.capacity))
  | .loadOldTable oldCapacity => some (sh, .goto (.allocate oldCapacity sh.table))
  | .allocate oldCapacity oldTable =>
      some (sh.allocate (oldCapacity * 2), .goto (.create oldCapacity oldTable sh.tableCount))
  | .create oldCapacity oldTable newTable =>
      some (sh.create ⟨oldTable, newTable, oldCapacity, oldCapacity * 2, 0⟩,
        .goto (.storeState sh.stateCount))
  | .storeState st => some ({ sh with resizeState := some st }, .goto (.help st .loadProgress))
  | .help st pc =>
      match helpStep st sh pc with
      | (sh, .goto pc) => some (sh, .goto (.help st pc))
      | (sh, .ret ()) => some (sh, .goto .lock)
  | .lock =>
      if sh.locked stripe then none
      else some ({ sh with locked := Function.update sh.locked stripe true }, .goto .loadBuckets)
  -- `insert_locked`
  | .loadBuckets => some (sh, .goto (.loadTable sh.capacity))
  | .loadTable capacity => some (sh, .goto (.write capacity sh.table))
  | .write capacity table =>
      let r := (sh.tables table).insertLocked capacity call.key call.value call.hash
      let sh := { sh with tables := Function.update sh.tables table r.1 }
      match r.2 with
      | .ok none => some (sh, .goto .addSize)
      | result => some (sh, .goto (.unlock result))
  | .addSize => some ({ sh with size := sh.size + 1 }, .goto (.unlock (.ok none)))
  | .unlock result =>
      some ({ sh with locked := Function.update sh.locked stripe false }, .ret result)

/-! ### Threads -/

/-- A thread between two calls, with what the last one returned, or inside a call. -/
inductive Local (K V : Type*) where
  | ready (last : Option (Except Panic (Option V)))
  | loadCapacity (call : Insertion K V)
  | insert (call : Insertion K V) (stripe : Nat) (pc : InsertPc V)

inductive Act (K V : Type*) where
  | call (call : Insertion K V)
  | step

section Program

variable [DecidableEq K]

def program (_t : ι) (sh : Shared K V) (l : Local K V) : Act K V → Option (Shared K V × Local K V)
  | .call call =>
      match l with
      | .ready _ => some (sh, .loadCapacity call)
      | _ => none
  | .step =>
      match l with
      | .ready _ => none
      | .loadCapacity call => some (sh, .insert call (stripeIndex call.hash sh.capacity) .loadSize)
      | .insert call stripe pc =>
          (insertStep call stripe sh pc).map fun r =>
            match r.2 with
            | .goto pc => (r.1, .insert call stripe pc)
            | .ret result => (r.1, .ready (some result))

abbrev State (ι K V : Type*) := Threads ι (Shared K V) (Local K V)

def init (capacity : Nat) : State ι K V := ⟨.new capacity, fun _ => .ready none⟩

abbrev step [DecidableEq ι] : State ι K V → ι × Act K V → Option (State ι K V) :=
  interleave program

end Program

/-! ### One resize at a time -/

/-- How far a thread is with a resize that it has started. -/
inductive Stage where
  | out
  | claimed
  | loaded (oldTable : Nat)
  | allocated (oldTable newTable : Nat)
  | created (st : Nat)
  | migrating (st : Nat)
  | replaced (st : Nat)
deriving DecidableEq, Repr

def HelpPc.stage (st : Nat) : HelpPc → Stage
  | .storeCapacity => .replaced st
  | .storeNull => .replaced st
  | .dealloc => .out
  | .dropState => .out
  | _ => .migrating st

def InsertPc.stage : InsertPc V → Stage
  | .loadOldCapacity => .claimed
  | .loadOldTable _ => .claimed
  | .allocate _ oldTable => .loaded oldTable
  | .create _ oldTable newTable => .allocated oldTable newTable
  | .storeState st => .created st
  | .help st pc => pc.stage st
  | _ => .out

def Local.stage : Local K V → Stage
  | .insert _ _ pc => pc.stage
  | _ => .out

/-- Between a successful compare-exchange and the store of the resize state. -/
def Stage.Unpublished : Stage → Prop
  | .claimed => True
  | .loaded _ => True
  | .allocated _ _ => True
  | .created _ => True
  | _ => False

instance : (g : Stage) → Decidable g.Unpublished
  | .claimed | .loaded _ | .allocated _ _ | .created _ => .isTrue trivial
  | .out | .migrating _ | .replaced _ => .isFalse id

/-- Between the compare-exchange of a resize and the store of null that completes it there is
    at most one thread, no two resize states have the same old table, and a resize state is
    stored only where there is none. -/
structure OneResize (s : State ι K V) : Prop where
  exclusive : ∀ t u, (s.loc t).stage ≠ .out → (s.loc u).stage ≠ .out → t = u
  tables : ∀ i < s.shared.stateCount, ∀ j < s.shared.stateCount,
    (s.shared.states i).oldTable = (s.shared.states j).oldTable → i = j
  stores : ∀ t st, (s.loc t).stage = .created st → s.shared.resizeState = none

/-- No thread executes the compare-exchange of `try_resize` while another is between its own
    and the store of its resize state. -/
def NoneUnpublished (s : State ι K V) (a : ι × Act K V) : Prop :=
  ∀ call stripe, s.loc a.1 = .insert call stripe .exchange →
    ∀ u, u ≠ a.1 → ¬ (s.loc u).stage.Unpublished

instance [DecidableEq ι] [Fintype ι] (s : State ι K V) (a : ι × Act K V) :
    Decidable (NoneUnpublished s a) :=
  match hl : s.loc a.1 with
  | .insert _ _ .exchange =>
      decidable_of_iff (∀ u, u ≠ a.1 → ¬ (s.loc u).stage.Unpublished)
        (by simp [NoneUnpublished, hl])
  | .ready _ | .loadCapacity _ | .insert _ _ .loadSize | .insert _ _ (.loadCapacity _)
  | .insert _ _ .loadOldCapacity | .insert _ _ (.loadOldTable _) | .insert _ _ (.allocate _ _)
  | .insert _ _ (.create _ _ _) | .insert _ _ (.storeState _) | .insert _ _ (.help _ _)
  | .insert _ _ .lock | .insert _ _ .loadBuckets | .insert _ _ (.loadTable _)
  | .insert _ _ (.write _ _) | .insert _ _ .addSize | .insert _ _ (.unlock _) =>
      .isTrue (by simp [NoneUnpublished, hl])

end VelocityX.Map.Resizing
