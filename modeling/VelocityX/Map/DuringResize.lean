import VelocityX.Lib.Transition
import VelocityX.Map.Concurrent

/-!
# Calls on the concurrent hash map during a resize

One `insert` resizes a table of `cap` buckets, with a migration that moves every bucket
exactly once, while other threads call `insert`, `get`, `remove` and `clear`.  The hash
function is fixed, and no other resize is started: `try_resize` does nothing while there is
a resize state.  A step is one load or store of a field of the map, taking or releasing a
stripe lock, or what a function does to one bucket; the load factor test is left out.

`Work` is what is left to do of the resize, one piece after the other.  The steps of
`try_resize` before the store of the resize state change nothing that a call reads.

A `get` that finds the resize state leaves the model at its call of `help_resize`: it has a
loop of its own and completes the resize once more (`Map/ResizeThreads.lean`), so that the
resize is not one that moves every bucket once.

The ghost log `writes` lists what the calls have written, in the order of the writes.
-/

namespace VelocityX.Map.DuringResize

open Transition

variable {ι K V : Type*}

/-- The two tables of the resize. -/
inductive Side where
  | old
  | new
deriving DecidableEq, Repr

inductive Work where
  | storeState
  | migrate (i : Nat)
  | storeTable
  | storeCapacity
  | storeNull
  | dealloc
  | dropState
  | finished
deriving DecidableEq, Repr

/-- A `clear` that has loaded `capacity` writes to the buckets one by one. -/
inductive Write (K V : Type*) where
  | insert (key : K) (value : V)
  | remove (key : K)
  | wipe (capacity i : Nat)
deriving DecidableEq, Repr

structure Shared (K V : Type*) where
  old : Table K V
  new : Table K V
  table : Side
  capacity : Nat
  size : Nat
  /-- `resize_state` is not null -/
  resizing : Bool
  /-- the old table has been deallocated -/
  freed : Bool
  locked : Nat → Bool
  work : Work
  writes : List (Write K V)

namespace Shared

def tableAt (sh : Shared K V) : Side → Table K V
  | .old => sh.old
  | .new => sh.new

def storeTableAt (sh : Shared K V) (t : Table K V) : Side → Shared K V
  | .old => { sh with old := t }
  | .new => { sh with new := t }

def log (sh : Shared K V) (w : Write K V) : Shared K V := { sh with writes := sh.writes ++ [w] }

def setLock (sh : Shared K V) (stripe : Nat) (held : Bool) : Shared K V :=
  { sh with locked := Function.update sh.locked stripe held }

/-- The next piece of the resize: the loop of `help_resize` over the buckets, then
    `complete_resize`. -/
def advance (cap : Nat) (sh : Shared K V) : Shared K V :=
  match sh.work with
  | .storeState => { sh with resizing := true, work := .migrate 0 }
  | .migrate i =>
      if i < cap then
        { sh with
          new := (sh.old i).stored.foldl (Table.place (cap * 2)) sh.new
          work := .migrate (i + 1) }
      else
        { sh with work := .storeTable }
  | .storeTable => { sh with table := .new, work := .storeCapacity }
  | .storeCapacity => { sh with capacity := cap * 2, work := .storeNull }
  | .storeNull => { sh with resizing := false, work := .dealloc }
  | .dealloc => { sh with freed := true, work := .dropState }
  | .dropState => { sh with work := .finished }
  | .finished => sh

end Shared

/-! ### The calls, one step at a time -/

inductive InsertPc (V : Type*) where
  /-- `try_resize` after its compare-exchange -/
  | resize
  | lock
  | loadCapacity
  | loadTable (capacity : Nat)
  | write (capacity : Nat) (side : Side)
  | addSize
  | unlock (result : Except Panic (Option V))

inductive GetPc where
  | loadCapacity
  | loadState (capacity : Nat)
  /-- the call of `help_resize`, where the model stops -/
  | help
  | loadTable (capacity : Nat)
  | scan (capacity : Nat) (side : Side)

inductive RemovePc (V : Type*) where
  | loadCapacity
  | lock (capacity : Nat)
  | loadTable (capacity : Nat)
  | write (capacity : Nat) (side : Side)
  | subSize (value : V)
  | unlock (result : Except Panic (Option V))

inductive ClearPc where
  | lock (i : Nat)
  | loadCapacity
  | loadTable (capacity : Nat)
  | wipe (capacity : Nat) (side : Side) (i : Nat)
  | resetSize
  | unlock (i : Nat)

abbrev Result (V : Type*) := Except Panic (Option V)

section Steps

variable [DecidableEq K]

def insertStep (cap : Nat) (key : K) (value : V) (hash : UInt64) (sh : Shared K V) :
    InsertPc V → Option (Shared K V × Next (InsertPc V) (Result V))
  | .resize =>
      match sh.work with
      | .finished => some (sh, .goto .lock)
      | _ => some (sh.advance cap, .goto .resize)
  | .lock =>
      if sh.locked (stripeIndex hash sh.capacity) then none
      else some (sh.setLock (stripeIndex hash sh.capacity) true, .goto .loadCapacity)
  | .loadCapacity => some (sh, .goto (.loadTable sh.capacity))
  | .loadTable capacity => some (sh, .goto (.write capacity sh.table))
  | .write capacity side =>
      match (sh.tableAt side).insertLocked capacity key value hash with
      | (t, .ok none) => some ((sh.storeTableAt t side).log (.insert key value), .goto .addSize)
      | (t, .ok (some old)) =>
          some ((sh.storeTableAt t side).log (.insert key value), .goto (.unlock (.ok (some old))))
      | (t, .error p) => some (sh.storeTableAt t side, .goto (.unlock (.error p)))
  | .addSize => some ({ sh with size := Word.add 64 sh.size 1 }, .goto (.unlock (.ok none)))
  | .unlock result => some (sh.setLock (stripeIndex hash sh.capacity) false, .ret result)

def getStep (key : K) (hash : UInt64) (sh : Shared K V) :
    GetPc → Option (Shared K V × Next GetPc (Result V))
  | .loadCapacity => some (sh, .goto (.loadState sh.capacity))
  | .loadState capacity => some (sh, .goto (if sh.resizing then .help else .loadTable capacity))
  | .help => none
  | .loadTable capacity => some (sh, .goto (.scan capacity sh.table))
  | .scan capacity side => some (sh, .ret ((sh.tableAt side).getLocked key hash capacity))

def removeStep (key : K) (hash : UInt64) (sh : Shared K V) :
    RemovePc V → Option (Shared K V × Next (RemovePc V) (Result V))
  | .loadCapacity => some (sh, .goto (.lock sh.capacity))
  | .lock capacity =>
      if sh.locked (stripeIndex hash capacity) then none
      else some (sh.setLock (stripeIndex hash capacity) true, .goto (.loadTable capacity))
  | .loadTable capacity => some (sh, .goto (.write capacity sh.table))
  | .write capacity side =>
      match (sh.tableAt side).removeLocked key hash capacity with
      | (t, .ok (some value)) =>
          some ((sh.storeTableAt t side).log (.remove key), .goto (.subSize value))
      | (t, result) => some ((sh.storeTableAt t side).log (.remove key), .goto (.unlock result))
  | .subSize value =>
      some ({ sh with size := Word.sub 64 sh.size 1 }, .goto (.unlock (.ok (some value))))
  | .unlock result => some (sh.setLock (stripeIndex hash sh.capacity) false, .ret result)

omit [DecidableEq K] in
def clearStep (sh : Shared K V) : ClearPc → Option (Shared K V × Next ClearPc (Result V))
  | .lock i =>
      if i < stripeCount then
        if sh.locked i then none else some (sh.setLock i true, .goto (.lock (i + 1)))
      else
        some (sh, .goto .loadCapacity)
  | .loadCapacity => some (sh, .goto (.loadTable sh.capacity))
  | .loadTable capacity => some (sh, .goto (.wipe capacity sh.table 0))
  | .wipe capacity side i =>
      if i < capacity then
        some ((sh.storeTableAt (Function.update (sh.tableAt side) i .empty) side).log
          (.wipe capacity i), .goto (.wipe capacity side (i + 1)))
      else
        some (sh, .goto .resetSize)
  | .resetSize => some ({ sh with size := 0 }, .goto (.unlock 0))
  | .unlock i =>
      if i < stripeCount then some (sh.setLock i false, .goto (.unlock (i + 1)))
      else some (sh, .ret (.ok none))

end Steps

/-! ### Threads -/

inductive Call (K V : Type*) where
  | insert (key : K) (value : V)
  | get (key : K)
  | remove (key : K)
  | clear
deriving DecidableEq, Repr

/-- A thread between two calls, with what the last one returned, or inside a call. -/
inductive Local (K V : Type*) where
  | ready (last : Option (Result V))
  | insert (key : K) (value : V) (pc : InsertPc V)
  | get (key : K) (pc : GetPc)
  | remove (key : K) (pc : RemovePc V)
  | clear (pc : ClearPc)

def Local.returned : Local K V → Option (Result V)
  | .ready last => last
  | _ => none

def Local.after {P : Type*} (inside : P → Local K V) : Next P (Result V) → Local K V
  | .goto pc => inside pc
  | .ret result => .ready (some result)

def Call.start : Call K V → Local K V
  | .insert key value => .insert key value .lock
  | .get key => .get key .loadCapacity
  | .remove key => .remove key .loadCapacity
  | .clear => .clear (.lock 0)

inductive Act (K V : Type*) where
  | call (call : Call K V)
  | step
deriving DecidableEq

section Program

variable [DecidableEq K]

def program (h : K → UInt64) (cap : Nat) (_t : ι) (sh : Shared K V) (l : Local K V) :
    Act K V → Option (Shared K V × Local K V)
  | .call call =>
      match l with
      | .ready _ => some (sh, call.start)
      | _ => none
  | .step =>
      match l with
      | .ready _ => none
      | .insert key value pc =>
          (insertStep cap key value (h key) sh pc).map fun r =>
            (r.1, .after (.insert key value) r.2)
      | .get key pc => (getStep key (h key) sh pc).map fun r => (r.1, .after (.get key) r.2)
      | .remove key pc =>
          (removeStep key (h key) sh pc).map fun r => (r.1, .after (.remove key) r.2)
      | .clear pc => (clearStep sh pc).map fun r => (r.1, .after .clear r.2)

abbrev State (ι K V : Type*) := Threads ι (Shared K V) (Local K V)

abbrev step [DecidableEq ι] (h : K → UInt64) (cap : Nat) :
    State ι K V → ι × Act K V → Option (State ι K V) :=
  interleave (program h cap)

end Program

/-- The map when the resize state of a resize of the table `t` is about to be stored. -/
def Shared.start (t : Table K V) (cap size : Nat) : Shared K V where
  old := t
  new := allocateTable (cap * 2)
  table := .old
  capacity := cap
  size := size
  resizing := false
  freed := false
  locked _ := false
  work := .storeState
  writes := []

/-! ### Steps on the right bucket -/

/-- Bucket `i` of the old table has been migrated. -/
def Work.Migrated : Work → Nat → Prop
  | .storeState, _ => False
  | .migrate n, i => i < n
  | _, _ => True

/-- The bucket that the next step of a thread works on, by the key or by its index. -/
inductive Access (K : Type*) where
  | key (key : K) (capacity : Nat) (side : Side)
  | bucket (capacity i : Nat) (side : Side)

def Local.written : Local K V → Option (Access K)
  | .insert key _ (.write capacity side) => some (.key key capacity side)
  | .remove key (.write capacity side) => some (.key key capacity side)
  | .clear (.wipe capacity side i) => if i < capacity then some (.bucket capacity i side) else none
  | _ => none

def Local.scanned : Local K V → Option (Access K)
  | .get key (.scan capacity side) => some (.key key capacity side)
  | _ => none

/-- The bucket that is written is one of the old table that has not been migrated yet, or the
    one of the key in the new table. -/
def InPlace (h : K → UInt64) (cap : Nat) (sh : Shared K V) : Access K → Prop
  | .key key capacity .old => ¬ sh.work.Migrated (bucketIndex (h key) capacity)
  | .key key capacity .new => bucketIndex (h key) capacity = bucketIndex (h key) (cap * 2)
  | .bucket _ i .old => ¬ sh.work.Migrated i
  | .bucket capacity _ .new => capacity = cap * 2

/-- The bucket that is scanned is one of the old table before it is deallocated, or the one of
    the key in the new table. -/
def Readable (h : K → UInt64) (cap : Nat) (sh : Shared K V) : Access K → Prop
  | .key key capacity .new => bucketIndex (h key) capacity = bucketIndex (h key) (cap * 2)
  | _ => sh.freed = false

/-- The next step of a thread does not find a resize to help with. -/
def NoHelp (sh : Shared K V) : Local K V → Prop
  | .get _ (.loadState _) => sh.resizing = false
  | _ => True

/-- What the next step of a thread writes is in place. -/
def WritesRight (h : K → UInt64) (cap : Nat) (sh : Shared K V) (l : Local K V) : Prop :=
  ∀ access ∈ l.written, InPlace h cap sh access

/-- What the next step of a thread scans can be read. -/
def ReadsRight (h : K → UInt64) (cap : Nat) (sh : Shared K V) (l : Local K V) : Prop :=
  ∀ access ∈ l.scanned, Readable h cap sh access

instance : (work : Work) → (i : Nat) → Decidable (work.Migrated i)
  | .storeState, _ => .isFalse id
  | .migrate n, i => inferInstanceAs (Decidable (i < n))
  | .storeTable, _ => .isTrue trivial
  | .storeCapacity, _ => .isTrue trivial
  | .storeNull, _ => .isTrue trivial
  | .dealloc, _ => .isTrue trivial
  | .dropState, _ => .isTrue trivial
  | .finished, _ => .isTrue trivial

instance (h : K → UInt64) (cap : Nat) (sh : Shared K V) :
    (access : Access K) → Decidable (InPlace h cap sh access)
  | .key key capacity .old =>
      inferInstanceAs (Decidable (¬ sh.work.Migrated (bucketIndex (h key) capacity)))
  | .key key capacity .new =>
      inferInstanceAs (Decidable (bucketIndex (h key) capacity = bucketIndex (h key) (cap * 2)))
  | .bucket _ i .old => inferInstanceAs (Decidable (¬ sh.work.Migrated i))
  | .bucket capacity _ .new => inferInstanceAs (Decidable (capacity = cap * 2))

instance (h : K → UInt64) (cap : Nat) (sh : Shared K V) :
    (access : Access K) → Decidable (Readable h cap sh access)
  | .key key capacity .new =>
      inferInstanceAs (Decidable (bucketIndex (h key) capacity = bucketIndex (h key) (cap * 2)))
  | .key _ _ .old => inferInstanceAs (Decidable (sh.freed = false))
  | .bucket _ _ .old => inferInstanceAs (Decidable (sh.freed = false))
  | .bucket _ _ .new => inferInstanceAs (Decidable (sh.freed = false))

instance (sh : Shared K V) : (l : Local K V) → Decidable (NoHelp sh l)
  | .get _ (.loadState _) => inferInstanceAs (Decidable (sh.resizing = false))
  | .get _ .loadCapacity => .isTrue trivial
  | .get _ .help => .isTrue trivial
  | .get _ (.loadTable _) => .isTrue trivial
  | .get _ (.scan _ _) => .isTrue trivial
  | .ready _ => .isTrue trivial
  | .insert _ _ _ => .isTrue trivial
  | .remove _ _ => .isTrue trivial
  | .clear _ => .isTrue trivial

instance (h : K → UInt64) (cap : Nat) (sh : Shared K V) (l : Local K V) :
    Decidable (WritesRight h cap sh l) :=
  inferInstanceAs (Decidable (∀ access ∈ l.written, InPlace h cap sh access))

instance (h : K → UInt64) (cap : Nat) (sh : Shared K V) (l : Local K V) :
    Decidable (ReadsRight h cap sh l) :=
  inferInstanceAs (Decidable (∀ access ∈ l.scanned, Readable h cap sh access))

/-- A `get` on the map as it is. -/
def Shared.get [DecidableEq K] (h : K → UInt64) (key : K) (sh : Shared K V) : Result V :=
  (sh.tableAt sh.table).getLocked key (h key) sh.capacity

end VelocityX.Map.DuringResize
