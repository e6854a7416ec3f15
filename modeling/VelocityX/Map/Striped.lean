import VelocityX.Lib.Amortized
import VelocityX.Lib.LockOrder
import VelocityX.Lib.Word
import VelocityX.Map.Stripes

/-!
# The concurrent hash map under its sixteen locks

Any number of threads call `insert`, `remove`, `clear` and `len` of `src/map/concurrent.rs` on one
table, one call after the other.  A step takes or releases a stripe lock, loads or stores `size`,
or reads or writes a bucket as in `Stripes`.  Each call of `insert` and `remove` brings the hash
that `hash_key` drew for it.

The capacity and the table stay as they are: an insert that finds the load factor exceeded stops
before it enters `try_resize`, with no lock in its hands.

`clear` takes the sixteen locks in order and the other calls take one of them, so the threads never
wait in a circle, and no call takes more steps than the capacity allows.
-/

namespace VelocityX.Map.Striped

open Transition

variable {ι K V : Type*} {w capacity : Nat}

/-! ### Calls -/

inductive Op (K V : Type*) where
  | write (call : Call K V) (hash : UInt64)
  | clear
  | len
deriving DecidableEq

inductive Result (V : Type*) where
  | written (result : Except Panic (Option V))
  | cleared
  | count (n : Nat)
deriving DecidableEq

structure Shared (ι K V : Type*) where
  table : Table K V
  size : Nat
  stripes : Nat → Option ι

namespace Shared

def lock (sh : Shared ι K V) (t : ι) (i : Nat) : Option (Shared ι K V) :=
  if sh.stripes i = none then
    some { sh with stripes := Function.update sh.stripes i (some t) }
  else
    none

def unlock (sh : Shared ι K V) (i : Nat) : Shared ι K V :=
  { sh with stripes := Function.update sh.stripes i none }

def setBucket (sh : Shared ι K V) (i : Nat) (b : Bucket K V) : Shared ι K V :=
  { sh with table := Function.update sh.table i b }

end Shared

/-! ### insert and remove -/

inductive WritePc (K V : Type*) where
  | shouldResize
  /-- The load factor is exceeded and `try_resize` comes next. -/
  | resizing
  | lock
  | bucket (pc : Map.Pc K V)
  | count (result : Option V)
  | unlock (result : Except Panic (Option V))

/-- Where `insert_locked` or `remove_locked` returns to. -/
def settle (call : Call K V) (result : Except Panic (Option V)) : WritePc K V :=
  match call, result with
  | .insert .., .ok none => .count none
  | .remove _, .ok (some value) => .count (some value)
  | _, result => .unlock result

/-- `size.fetch_add(1)` or `size.fetch_sub(1)`. -/
def addSize (w : Nat) (call : Call K V) (size : Nat) : Nat :=
  match call with
  | .insert .. => Word.add w size 1
  | .remove _ => Word.sub w size 1

section Steps

variable [DecidableEq K]

def writeStep (w capacity : Nat) (t : ι) (call : Call K V) (hash : UInt64) (sh : Shared ι K V) :
    WritePc K V → Option (Shared ι K V × Next (WritePc K V) (Except Panic (Option V)))
  | .shouldResize =>
      -- `size as f64 > capacity as f64 * 0.75`
      if 3 * capacity < 4 * sh.size then some (sh, .goto .resizing) else some (sh, .goto .lock)
  | .resizing => none
  | .lock =>
      (sh.lock t (stripeIndex hash capacity)).map fun sh' => (sh', .goto (.bucket call.start))
  | .bucket pc =>
      let i := bucketIndex hash capacity
      match pc.inner (fun _ => hash) (sh.table i) with
      | (b, .goto pc') => some (sh.setBucket i b, .goto (.bucket pc'))
      | (b, .ret result) => some (sh.setBucket i b, .goto (settle call result))
  | .count result =>
      some ({ sh with size := addSize w call sh.size }, .goto (.unlock (.ok result)))
  | .unlock result => some (sh.unlock (stripeIndex hash capacity), .ret result)

end Steps

/-! ### clear -/

inductive ClearPc where
  | lock (i : Nat)
  | len (i : Nat)
  | slot (i j : Nat)
  | size
  | unlock (i : Nat)

/-- The loop over the buckets from bucket `i` on. -/
def clearFrom (capacity i : Nat) : ClearPc := if i < capacity then .len i else .size

def clearStep (capacity : Nat) (t : ι) (sh : Shared ι K V) :
    ClearPc → Option (Shared ι K V × Next ClearPc Unit)
  | .lock i =>
      (sh.lock t i).map fun sh' =>
        (sh', .goto (if i + 1 < stripeCount then .lock (i + 1) else clearFrom capacity 0))
  | .len i => some (sh.setBucket i { sh.table i with len := 0 }, .goto (.slot i 0))
  | .slot i j =>
      some (sh.setBucket i ((sh.table i).write j none),
        .goto (if j + 1 < 16 then .slot i (j + 1) else clearFrom capacity (i + 1)))
  | .size => some ({ sh with size := 0 }, .goto (.unlock 0))
  | .unlock i => some (sh.unlock i, if i + 1 < stripeCount then .goto (.unlock (i + 1)) else .ret ())

/-! ### Threads -/

inductive CallPc (K V : Type*) where
  | idle
  | write (call : Call K V) (hash : UInt64) (pc : WritePc K V)
  | clear (pc : ClearPc)
  | len

def Op.entry : Op K V → CallPc K V
  | .write (.insert key value) hash => .write (.insert key value) hash .shouldResize
  | .write (.remove key) hash => .write (.remove key) hash .lock
  | .clear => .clear (.lock 0)
  | .len => .len

def CallPc.after {P R : Type*} (inside : P → CallPc K V) : Next P R → CallPc K V
  | .goto pc => inside pc
  | .ret _ => .idle

inductive Act (K V : Type*) where
  | call (op : Op K V)
  | step

def Act.isStep : Act K V → Bool
  | .call _ => false
  | .step => true

variable [DecidableEq K]

def program (w capacity : Nat) (t : ι) (sh : Shared ι K V) (l : CallPc K V) :
    Act K V → Option (Shared ι K V × CallPc K V)
  | .call op =>
      match l with
      | .idle => some (sh, op.entry)
      | _ => none
  | .step =>
      match l with
      | .idle => none
      | .write call hash pc =>
          (writeStep w capacity t call hash sh pc).map fun r =>
            (r.1, .after (.write call hash) r.2)
      | .clear pc => (clearStep capacity t sh pc).map fun r => (r.1, .after .clear r.2)
      -- the load of `size` is the whole call
      | .len => some (sh, .idle)

abbrev State (ι K V : Type*) := Threads ι (Shared ι K V) (CallPc K V)

def init (capacity : Nat) : State ι K V :=
  ⟨⟨allocateTable capacity, 0, fun _ => none⟩, fun _ => .idle⟩

abbrev step [DecidableEq ι] (w capacity : Nat) :
    State ι K V → ι × Act K V → Option (State ι K V) :=
  interleave (program w capacity)

/-! ### What a step can do -/

inductive Effect (w capacity : Nat) (t : ι) (sh : Shared ι K V) :
    CallPc K V → Act K V → Shared ι K V → CallPc K V → Prop
  | call (op : Op K V) : Effect w capacity t sh .idle (.call op) sh op.entry
  | full (call : Call K V) (hash : UInt64) :
      Effect w capacity t sh (.write call hash .shouldResize) .step sh (.write call hash .resizing)
  | room (call : Call K V) (hash : UInt64) :
      Effect w capacity t sh (.write call hash .shouldResize) .step sh (.write call hash .lock)
  | lock (call : Call K V) (hash : UInt64) (hfree : sh.stripes (stripeIndex hash capacity) = none) :
      Effect w capacity t sh (.write call hash .lock) .step
        { sh with stripes := Function.update sh.stripes (stripeIndex hash capacity) (some t) }
        (.write call hash (.bucket call.start))
  | bucket (call : Call K V) (hash : UInt64) (pc pc' : Map.Pc K V) (b : Bucket K V)
      (hinner : pc.inner (fun _ => hash) (sh.table (bucketIndex hash capacity)) =
        (b, .goto pc')) :
      Effect w capacity t sh (.write call hash (.bucket pc)) .step
        (sh.setBucket (bucketIndex hash capacity) b) (.write call hash (.bucket pc'))
  | settle (call : Call K V) (hash : UInt64) (pc : Map.Pc K V) (b : Bucket K V)
      (result : Except Panic (Option V))
      (hinner : pc.inner (fun _ => hash) (sh.table (bucketIndex hash capacity)) =
        (b, .ret result)) :
      Effect w capacity t sh (.write call hash (.bucket pc)) .step
        (sh.setBucket (bucketIndex hash capacity) b) (.write call hash (settle call result))
  | count (call : Call K V) (hash : UInt64) (result : Option V) :
      Effect w capacity t sh (.write call hash (.count result)) .step
        { sh with size := addSize w call sh.size } (.write call hash (.unlock (.ok result)))
  | unlock (call : Call K V) (hash : UInt64) (result : Except Panic (Option V)) :
      Effect w capacity t sh (.write call hash (.unlock result)) .step
        (sh.unlock (stripeIndex hash capacity)) .idle
  | clearLock (i : Nat) (hfree : sh.stripes i = none) :
      Effect w capacity t sh (.clear (.lock i)) .step
        { sh with stripes := Function.update sh.stripes i (some t) }
        (.clear (if i + 1 < stripeCount then .lock (i + 1) else clearFrom capacity 0))
  | clearLen (i : Nat) :
      Effect w capacity t sh (.clear (.len i)) .step
        (sh.setBucket i { sh.table i with len := 0 }) (.clear (.slot i 0))
  | clearSlot (i j : Nat) :
      Effect w capacity t sh (.clear (.slot i j)) .step
        (sh.setBucket i ((sh.table i).write j none))
        (.clear (if j + 1 < 16 then .slot i (j + 1) else clearFrom capacity (i + 1)))
  | clearSize :
      Effect w capacity t sh (.clear .size) .step { sh with size := 0 } (.clear (.unlock 0))
  | clearUnlock (i : Nat) :
      Effect w capacity t sh (.clear (.unlock i)) .step (sh.unlock i)
        (if i + 1 < stripeCount then .clear (.unlock (i + 1)) else .idle)
  | len : Effect w capacity t sh .len .step sh .idle

section Effect

variable {t : ι} {sh sh' : Shared ι K V} {l l' : CallPc K V} {a : Act K V} {i : Nat}

omit [DecidableEq K] in
theorem lock_eq_some (h : sh.lock t i = some sh') :
    sh.stripes i = none ∧ sh' = { sh with stripes := Function.update sh.stripes i (some t) } := by
  simp only [Shared.lock] at h
  split at h
  · next hfree => exact ⟨hfree, (Option.some.inj h).symm⟩
  · cases h

theorem program_effect (h : program w capacity t sh l a = some (sh', l')) :
    Effect w capacity t sh l a sh' l' := by
  cases a with
  | call op =>
    cases l with
    | idle =>
      cases h
      exact .call op
    | _ => cases h
  | step =>
    cases l with
    | idle => cases h
    | write call hash pc =>
      obtain ⟨⟨sh₁, next⟩, hnext, heq⟩ := Option.map_eq_some_iff.mp h
      cases heq
      cases pc with
      | shouldResize =>
        simp only [writeStep] at hnext
        split at hnext <;> cases hnext
        · exact .full call hash
        · exact .room call hash
      | resizing => cases hnext
      | lock =>
        obtain ⟨sh₂, hlock, heq⟩ := Option.map_eq_some_iff.mp hnext
        cases heq
        obtain ⟨hfree, rfl⟩ := lock_eq_some hlock
        exact .lock call hash hfree
      | bucket pc =>
        simp only [writeStep] at hnext
        split at hnext <;> cases hnext
        · next b pc' hinner => exact .bucket call hash pc pc' b hinner
        · next b result hinner => exact .settle call hash pc b result hinner
      | count result =>
        cases hnext
        exact .count call hash result
      | unlock result =>
        cases hnext
        exact .unlock call hash result
    | clear pc =>
      obtain ⟨⟨sh₁, next⟩, hnext, heq⟩ := Option.map_eq_some_iff.mp h
      cases heq
      cases pc with
      | lock i =>
        obtain ⟨sh₂, hlock, heq⟩ := Option.map_eq_some_iff.mp hnext
        cases heq
        obtain ⟨hfree, rfl⟩ := lock_eq_some hlock
        exact .clearLock i hfree
      | len i =>
        cases hnext
        exact .clearLen i
      | slot i j =>
        cases hnext
        exact .clearSlot i j
      | size =>
        cases hnext
        exact .clearSize
      | unlock i =>
        cases hnext
        have heq : (CallPc.after .clear
            (if i + 1 < stripeCount then .goto (.unlock (i + 1)) else .ret () : Next ClearPc Unit) :
            CallPc K V) = if i + 1 < stripeCount then .clear (.unlock (i + 1)) else .idle := by
          split <;> rfl
        rw [heq]
        exact .clearUnlock i
    | len =>
      cases h
      exact .len

end Effect

/-! ### Who holds which stripe -/

/-- The stripes whose locks the call has. -/
def CallPc.Holds (capacity : Nat) : CallPc K V → Nat → Prop
  | .write _ hash (.bucket _), k => k = stripeIndex hash capacity
  | .write _ hash (.count _), k => k = stripeIndex hash capacity
  | .write _ hash (.unlock _), k => k = stripeIndex hash capacity
  | .clear (.lock i), k => k < i
  | .clear (.len _), k => k < stripeCount
  | .clear (.slot _ _), k => k < stripeCount
  | .clear .size, k => k < stripeCount
  | .clear (.unlock i), k => i ≤ k ∧ k < stripeCount
  | _, _ => False

/-- The next step of the call takes the lock of this stripe. -/
def CallPc.Waits (capacity : Nat) : CallPc K V → Nat → Prop
  | .write _ hash .lock, k => k = stripeIndex hash capacity
  | .clear (.lock i), k => k = i
  | _, _ => False

/-- There are sixteen stripes. -/
def CallPc.InRange : CallPc K V → Prop
  | .clear (.lock i) => i < stripeCount
  | .clear (.unlock i) => i < stripeCount
  | _ => True

/-- The thread is inside a call and not on its way into `try_resize`. -/
def CallPc.Busy : CallPc K V → Prop
  | .idle => False
  | .write _ _ .resizing => False
  | _ => True

section Holds

variable {call : Call K V} {hash : UInt64} {result : Except Panic (Option V)} {i k : Nat}
variable {l : CallPc K V}

omit [DecidableEq K]

theorem settle_cases (call : Call K V) (result : Except Panic (Option V)) :
    settle call result = .unlock result ∨
      ∃ value, result = .ok value ∧ settle call result = .count value := by
  cases call with
  | insert key value =>
    cases result with
    | error p => exact .inl rfl
    | ok old =>
      cases old with
      | none => exact .inr ⟨none, rfl, rfl⟩
      | some v => exact .inl rfl
  | remove key =>
    cases result with
    | error p => exact .inl rfl
    | ok old =>
      cases old with
      | none => exact .inl rfl
      | some v => exact .inr ⟨some v, rfl, rfl⟩

theorem holds_settle :
    (CallPc.write call hash (settle call result)).Holds capacity k ↔
      k = stripeIndex hash capacity := by
  rcases settle_cases call result with heq | ⟨value, _, heq⟩ <;> rw [heq] <;> rfl

theorem holds_clearFrom :
    (CallPc.clear (clearFrom capacity i) : CallPc K V).Holds capacity k ↔ k < stripeCount := by
  unfold clearFrom
  split <;> rfl

theorem entry_free (op : Op K V) : ¬ op.entry.Holds capacity k := by
  cases op with
  | write call hash => cases call <;> exact id
  | clear => exact Nat.not_lt_zero k
  | len => exact id

theorem busy_of_holds (h : l.Holds capacity k) : l.Busy := by
  cases l with
  | idle => cases h
  | write call hash pc =>
    cases pc with
    | resizing => cases h
    | _ => trivial
  | clear pc => trivial
  | len => trivial

theorem inRange_settle : (CallPc.write call hash (settle call result)).InRange := trivial

theorem inRange_clearFrom : (CallPc.clear (clearFrom capacity i) : CallPc K V).InRange := by
  unfold clearFrom
  split <;> trivial

end Holds

/-! ### No deadlock -/

structure LocksOk (capacity : Nat) (s : State ι K V) : Prop where
  owned : LockOrder.Owned (CallPc.Holds capacity) s.shared.stripes s.loc
  inRange : ∀ t, (s.loc t).InRange

section Locks

variable {s s' : State ι K V} {t : ι}

omit [DecidableEq K] in
theorem locksOk_init (capacity : Nat) : LocksOk capacity (init capacity : State ι K V) :=
  ⟨fun _ _ => ⟨nofun, nofun⟩, fun _ => trivial⟩

theorem stripeIndex_lt (hash : UInt64) (capacity : Nat) : stripeIndex hash capacity < stripeCount :=
  Nat.mod_lt _ (by decide)

theorem locksOk_step [DecidableEq ι] {a : ι × Act K V} (h : LocksOk capacity s)
    (hstep : step w capacity s a = some s') : LocksOk capacity s' := by
  obtain ⟨t, act⟩ := a
  obtain ⟨sh, l, hp, rfl⟩ := interleave_eq_some.mp hstep
  have hrange := h.inRange t
  have hranges : ∀ l : CallPc K V, l.InRange → ∀ u, (Function.update s.loc t l u).InRange :=
    fun l hl => (Function.forall_update_iff s.loc fun _ l => l.InRange).mpr
      ⟨hl, fun u _ => h.inRange u⟩
  have heffect := program_effect hp
  generalize hl : s.loc t = l₀ at heffect hrange
  -- a step that keeps the locks, one that takes a lock and one that gives it back
  have hkeep : (∀ k, l.Holds capacity k ↔ l₀.Holds capacity k) →
      LockOrder.Owned (CallPc.Holds capacity) s.shared.stripes (Function.update s.loc t l) :=
    fun hheld => h.owned.keep fun k => by rw [hl]; exact hheld k
  have htake : ∀ i, s.shared.stripes i = none →
      (∀ k, l.Holds capacity k ↔ k = i ∨ l₀.Holds capacity k) →
      LockOrder.Owned (CallPc.Holds capacity) (Function.update s.shared.stripes i (some t))
        (Function.update s.loc t l) :=
    fun i hfree hheld => h.owned.take hfree fun k => by rw [hl]; exact hheld k
  have hrelease : ∀ i, l₀.Holds capacity i →
      (∀ k, l.Holds capacity k ↔ k ≠ i ∧ l₀.Holds capacity k) →
      LockOrder.Owned (CallPc.Holds capacity) (Function.update s.shared.stripes i none)
        (Function.update s.loc t l) :=
    fun i hmine hheld => h.owned.release (by rw [hl]; exact hmine) fun k => by
      rw [hl]
      exact hheld k
  cases heffect with
  | call op =>
    refine ⟨hkeep fun k => ⟨fun hk => absurd hk (entry_free op), nofun⟩, hranges _ ?_⟩
    cases op with
    | write call hash => cases call <;> trivial
    | clear => exact (by decide : 0 < stripeCount)
    | len => trivial
  | full call hash => exact ⟨hkeep fun k => Iff.rfl, hranges _ trivial⟩
  | room call hash => exact ⟨hkeep fun k => Iff.rfl, hranges _ trivial⟩
  | lock call hash hfree =>
    exact ⟨htake _ hfree fun k => (or_iff_left id).symm, hranges _ trivial⟩
  | bucket call hash pc pc' b hinner => exact ⟨hkeep fun k => Iff.rfl, hranges _ trivial⟩
  | settle call hash pc b result hinner =>
    exact ⟨hkeep fun k => holds_settle, hranges _ inRange_settle⟩
  | count call hash result => exact ⟨hkeep fun k => Iff.rfl, hranges _ trivial⟩
  | unlock call hash result =>
    exact ⟨hrelease _ rfl fun k => ⟨nofun, fun hk => hk.1 hk.2⟩, hranges _ trivial⟩
  | clearLock i hfree =>
    have hi : i < stripeCount := hrange
    by_cases hnext : i + 1 < stripeCount
    · rw [if_pos hnext] at htake ⊢
      refine ⟨htake i hfree fun k => ?_, hranges _ hnext⟩
      simp only [CallPc.Holds]
      omega
    · rw [if_neg hnext] at htake ⊢
      refine ⟨htake i hfree fun k => holds_clearFrom.trans ?_, hranges _ inRange_clearFrom⟩
      simp only [CallPc.Holds]
      omega
  | clearLen i => exact ⟨hkeep fun k => Iff.rfl, hranges _ trivial⟩
  | clearSlot i j =>
    by_cases hnext : j + 1 < 16
    · rw [if_pos hnext] at hkeep ⊢
      exact ⟨hkeep fun k => Iff.rfl, hranges _ trivial⟩
    · rw [if_neg hnext] at hkeep ⊢
      exact ⟨hkeep fun k => holds_clearFrom, hranges _ inRange_clearFrom⟩
  | clearSize =>
    refine ⟨hkeep fun k => ?_, hranges _ (by decide : 0 < stripeCount)⟩
    simp only [CallPc.Holds]
    omega
  | clearUnlock i =>
    have hi : i < stripeCount := hrange
    have hmine : (CallPc.clear (.unlock i) : CallPc K V).Holds capacity i := ⟨Nat.le_refl i, hi⟩
    by_cases hnext : i + 1 < stripeCount
    · rw [if_pos hnext] at hrelease ⊢
      refine ⟨hrelease i hmine fun k => ?_, hranges _ hnext⟩
      simp only [CallPc.Holds]
      omega
    · rw [if_neg hnext] at hrelease ⊢
      refine ⟨hrelease i hmine fun k => ⟨nofun, fun ⟨hne, hle, hlt⟩ => ?_⟩, hranges _ trivial⟩
      omega
  | len => exact ⟨hkeep fun k => Iff.rfl, hranges _ trivial⟩

/-- The order of the locks; all sixteen lie below `stripeCount`. -/
def lockRank (k : Nat) : Nat := min k stripeCount

omit [DecidableEq K] in
theorem LocksOk.ordered (h : LocksOk capacity s) :
    LockOrder.Ordered lockRank (fun t => (s.loc t).Holds capacity)
      fun t => (s.loc t).Waits capacity := by
  intro t held wanted hholds hwaits
  have hrange := h.inRange t
  generalize s.loc t = l at hholds hwaits hrange
  cases l with
  | idle => cases hwaits
  | write call hash pc =>
    cases pc with
    | lock => cases hholds
    | _ => cases hwaits
  | clear pc =>
    cases pc with
    | lock i =>
      obtain rfl : wanted = i := hwaits
      have hlt : held < wanted := hholds
      have hwanted : wanted < stripeCount := hrange
      simp only [lockRank]
      omega
    | _ => cases hwaits
  | len => cases hwaits

variable [DecidableEq ι]

/-- A thread at work that does not wait for a lock that is taken can take its next step. -/
theorem LocksOk.enabled (h : LocksOk capacity s) (w : Nat) (hbusy : (s.loc t).Busy)
    (hfree : ¬ LockOrder.Blocked (fun t => (s.loc t).Holds capacity)
      (fun t => (s.loc t).Waits capacity) t) :
    ∃ s', step w capacity s (t, .step) = some s' := by
  have hnone : ∀ k, (s.loc t).Waits capacity k → s.shared.stripes k = none := by
    intro k hwaits
    cases howner : s.shared.stripes k with
    | none => rfl
    | some u => exact absurd ⟨k, hwaits, u, (h.owned u k).mp howner⟩ hfree
  have hsome : (program w capacity t s.shared (s.loc t) .step).isSome := by
    cases hl : s.loc t with
    | idle =>
      rw [hl] at hbusy
      cases hbusy
    | write call hash pc =>
      rw [hl] at hbusy hnone
      cases pc with
      | shouldResize =>
        simp only [program, writeStep]
        split <;> rfl
      | resizing => cases hbusy
      | lock => simp [program, writeStep, Shared.lock, hnone _ rfl]
      | bucket pc =>
        simp only [program, writeStep]
        split <;> rfl
      | count result => rfl
      | unlock result => rfl
    | clear pc =>
      rw [hl] at hnone
      cases pc with
      | lock i => simp [program, clearStep, Shared.lock, hnone _ rfl]
      | _ => rfl
    | len => rfl
  obtain ⟨⟨sh, l⟩, hp⟩ := Option.isSome_iff_exists.mp hsome
  exact ⟨_, interleave_eq_some.mpr ⟨sh, l, hp, rfl⟩⟩

theorem LocksOk.no_deadlock (h : LocksOk capacity s) (w : Nat) (ht : (s.loc t).Busy) :
    ∃ u, (s.loc u).Busy ∧ ∃ s', step w capacity s (u, .step) = some s' :=
  h.ordered.exists_able (fun _ => Nat.min_le_right _ _)
    (fun _ hbusy hfree => h.enabled w hbusy hfree) (fun _ _ hl => busy_of_holds hl) ht

end Locks

/-! ### How long a call takes

The scan of a bucket ends at slot 16, and so does the loop that closes a gap, whatever the length
of the bucket says. -/

def insertRank : InsertPc K V → Nat
  | .readLen => 24
  | .scan _ i => 7 + (16 - i)
  | .update _ _ => 3
  | .index => 6
  | .place _ => 5
  | .bump => 4
  | .writeLen _ => 3

def removeRank : RemovePc K V → Nat
  | .readLen => 56
  | .scan _ i => 39 + (16 - i)
  | .take _ => 38
  | .range _ _ => 37
  | .shift _ j _ => 4 + 2 * (16 - j)
  | .fill _ j _ _ => 5 + 2 * (16 - (j + 1))
  | .writeLen _ _ => 3

def bucketRank : Map.Pc K V → Nat
  | .insert _ _ pc => insertRank pc
  | .remove _ pc => removeRank pc

def clearRank (capacity : Nat) : ClearPc → Nat
  | .lock i => 17 * capacity + 18 + (15 - i)
  | .len i => 17 * (capacity - (i + 1)) + 34
  | .slot i j => 17 * (capacity - (i + 1)) + 18 + (15 - j)
  | .size => 17
  | .unlock i => 15 - i + 1

/-- The steps that a call still has to take. -/
def CallPc.rank (capacity : Nat) : CallPc K V → Nat
  | .idle => 0
  | .write _ _ .shouldResize => 58
  | .write _ _ .resizing => 0
  | .write _ _ .lock => 57
  | .write _ _ (.bucket pc) => bucketRank pc
  | .write _ _ (.count _) => 2
  | .write _ _ (.unlock _) => 1
  | .clear pc => clearRank capacity pc
  | .len => 1

section Rank

variable {key : K} {value : V} {hash : UInt64} {b b' : Bucket K V} {i : Nat}

theorem matchAt_lt {found : Option (Entry K V)} (h : b.matchAt key hash i = .ok found) :
    i < 16 := by
  by_contra hge
  simp [Bucket.matchAt, Bucket.read, hge, Except.map] at h

omit [DecidableEq K] in
theorem read_lt {slot : Option (Entry K V)} (h : b.read i = .ok slot) : i < 16 := by
  by_contra hge
  simp [Bucket.read, hge] at h

omit [DecidableEq K] in
/-- A call that returns from its bucket still has to count and to unlock. -/
theorem bucketRank_ge (pc : Map.Pc K V) : 3 ≤ bucketRank pc := by
  cases pc with
  | insert key value pc => cases pc <;> simp only [bucketRank, insertRank] <;> omega
  | remove key pc => cases pc <;> simp only [bucketRank, removeRank] <;> omega

theorem insertStep_rank {pc pc' : InsertPc K V}
    (h : insertStep key value hash b pc = (b', .goto pc')) : insertRank pc' < insertRank pc := by
  cases pc with
  | readLen =>
    cases h
    simp [insertRank]
  | scan n i =>
    cases n with
    | zero =>
      simp only [insertStep] at h
      split at h <;> cases h
      simp only [insertRank]
      omega
    | succ n =>
      simp only [insertStep] at h
      split at h <;> cases h
      · next hmatch =>
        have := matchAt_lt hmatch
        simp only [insertRank]
        omega
      · simp only [insertRank]
        omega
  | update i entry => cases h
  | index =>
    cases h
    simp [insertRank]
  | place i =>
    simp only [insertStep] at h
    split at h <;> cases h
    simp [insertRank]
  | bump =>
    cases h
    simp [insertRank]
  | writeLen n => cases h

theorem removeStep_rank {pc pc' : RemovePc K V}
    (h : removeStep key hash b pc = (b', .goto pc')) : removeRank pc' < removeRank pc := by
  cases pc with
  | readLen =>
    cases h
    simp [removeRank]
  | scan n i =>
    cases n with
    | zero => cases h
    | succ n =>
      simp only [removeStep] at h
      split at h <;> cases h
      · next hmatch =>
        have := matchAt_lt hmatch
        simp only [removeRank]
        omega
      · simp only [removeRank]
        omega
  | take i =>
    simp only [removeStep] at h
    split at h <;> cases h
    simp [removeRank]
  | range i value =>
    simp only [removeStep] at h
    split at h <;> cases h
    simp only [removeRank]
    omega
  | shift n j value =>
    cases n with
    | zero =>
      cases h
      simp only [removeRank]
      omega
    | succ n =>
      simp only [removeStep] at h
      split at h <;> cases h
      next hread =>
      have := read_lt hread
      simp only [removeRank]
      omega
  | fill n j value slot =>
    cases h
    simp [removeRank]
  | writeLen n value => cases n <;> cases h

theorem inner_rank {pc pc' : Map.Pc K V}
    (h : pc.inner (fun _ => hash) b = (b', .goto pc')) : bucketRank pc' < bucketRank pc := by
  cases pc with
  | insert key value pc =>
    rw [Pc.inner] at h
    cases hstep : insertStep key value hash b pc with
    | mk b₁ next =>
      rw [hstep] at h
      cases next with
      | goto pc₁ =>
        cases h
        exact insertStep_rank hstep
      | ret result => cases h
  | remove key pc =>
    rw [Pc.inner] at h
    cases hstep : removeStep key hash b pc with
    | mk b₁ next =>
      rw [hstep] at h
      cases next with
      | goto pc₁ =>
        cases h
        exact removeStep_rank hstep
      | ret result => cases h

omit [DecidableEq K] in
theorem clearFrom_rank_le (capacity i : Nat) :
    clearRank capacity (clearFrom capacity i) ≤ 17 * (capacity - i) + 17 := by
  unfold clearFrom
  split
  · simp only [clearRank]
    omega
  · simp [clearRank]

omit [DecidableEq K] in
theorem rank_start_le (call : Call K V) : bucketRank call.start ≤ 56 := by
  cases call <;> simp [Call.start, bucketRank, insertRank, removeRank]

omit [DecidableEq K] in
theorem rank_entry_le (op : Op K V) : op.entry.rank capacity ≤ 17 * capacity + 58 := by
  cases op with
  | write call hash => cases call <;> simp only [Op.entry, CallPc.rank] <;> omega
  | clear =>
    simp only [Op.entry, CallPc.rank, clearRank]
    omega
  | len => simp [Op.entry, CallPc.rank]

/-- A step uses up one of the steps that its call still has to take. -/
theorem program_rank {t : ι} {sh sh' : Shared ι K V} {l l' : CallPc K V}
    (h : program w capacity t sh l .step = some (sh', l')) :
    l'.rank capacity + 1 ≤ l.rank capacity := by
  cases program_effect h with
  | full call hash => simp [CallPc.rank]
  | room call hash => simp [CallPc.rank]
  | lock call hash hfree =>
    have := rank_start_le call
    simp only [CallPc.rank]
    omega
  | bucket call hash pc pc' b hinner => exact inner_rank hinner
  | settle call hash pc b result hinner =>
    have := bucketRank_ge pc
    rcases settle_cases call result with heq | ⟨value, _, heq⟩ <;> rw [heq] <;>
      simp only [CallPc.rank] <;> omega
  | count call hash result => simp [CallPc.rank]
  | unlock call hash result => simp [CallPc.rank]
  | clearLock i hfree =>
    have hfrom := clearFrom_rank_le capacity 0
    by_cases hnext : i + 1 < stripeCount
    · rw [if_pos hnext]
      simp only [CallPc.rank, clearRank, stripeCount] at hnext ⊢
      omega
    · rw [if_neg hnext]
      show clearRank capacity (clearFrom capacity 0) + 1 ≤ 17 * capacity + 18 + (15 - i)
      omega
  | clearLen i =>
    simp only [CallPc.rank, clearRank]
    omega
  | clearSlot i j =>
    have hfrom := clearFrom_rank_le capacity (i + 1)
    by_cases hnext : j + 1 < 16
    · rw [if_pos hnext]
      simp only [CallPc.rank, clearRank]
      omega
    · rw [if_neg hnext]
      show clearRank capacity (clearFrom capacity (i + 1)) + 1 ≤
        17 * (capacity - (i + 1)) + 18 + (15 - j)
      omega
  | clearSize => simp [CallPc.rank, clearRank]
  | clearUnlock i =>
    by_cases hnext : i + 1 < stripeCount
    · rw [if_pos hnext]
      simp only [CallPc.rank, clearRank, stripeCount] at hnext ⊢
      omega
    · rw [if_neg hnext]
      simp [CallPc.rank, clearRank]
  | len => simp [CallPc.rank]

end Rank

section Termination

variable [DecidableEq ι] {s : State ι K V} {as : List (ι × Act K V)}

theorem locksOk_of_run (hrun : run (step w capacity) (init capacity) as = some s) :
    LocksOk capacity s :=
  run_invariant (fun _ _ _ => locksOk_step) (locksOk_init capacity) hrun

theorem ownSteps_le (hrun : run (step w capacity) (init capacity) as = some s) (t : ι) :
    as.countP (ownLabel Act.isStep t) ≤
      (17 * capacity + 58) * as.countP (ownLabel (fun a => !a.isStep) t) := by
  have hown := run_own_le (t := t) (p := Act.isStep) (r := CallPc.rank capacity)
    (b := 17 * capacity + 58) (I := fun _ => True) (C := fun _ _ => True)
    (fun _ _ _ _ _ _ => trivial) (fun m a m' ha _ _ hstep => ?_) (fun m a m' ha _ _ hstep => ?_)
    trivial (along_of_forall (fun _ _ => trivial) _ as) hrun
  · have hinit : ((init capacity : State ι K V).loc t).rank capacity = 0 := rfl
    omega
  · obtain ⟨sh, l, hp, rfl⟩ := interleave_eq_some.mp hstep
    cases a with
    | call op => cases ha
    | step => simpa using program_rank hp
  · obtain ⟨sh, l, hp, rfl⟩ := interleave_eq_some.mp hstep
    cases a with
    | call op =>
      have heffect := program_effect hp
      generalize m.loc t = l₀ at heffect
      cases heffect
      simpa using rank_entry_le op
    | step => cases ha

/-- **No call of the map hangs on the stripe locks.**  Whatever the hashes are, while a thread is
    inside a call some thread inside a call can take its next step, and a thread takes at most
    `17 * capacity + 58` steps for each of its calls. -/
theorem striped_terminates (hrun : run (step w capacity) (init capacity) as = some s) :
    (∀ t, (s.loc t).Busy → ∃ u, (s.loc u).Busy ∧ ∃ s', step w capacity s (u, .step) = some s') ∧
      ∀ t, as.countP (ownLabel Act.isStep t) ≤
        (17 * capacity + 58) * as.countP (ownLabel (fun a => !a.isStep) t) :=
  ⟨fun _ ht => (locksOk_of_run hrun).no_deadlock w ht, ownSteps_le hrun⟩

/-- One thread clears and has five of the locks, the other one waits for the first of them. -/
def clearing : List (Bool × Act Nat Nat) :=
  (true, Act.call (.write (.insert 0 7) 3)) :: List.replicate 10 (true, Act.step) ++
    (false, Act.call .clear) :: List.replicate 5 (false, Act.step) ++
    (true, Act.call (.write (.remove 0) 3)) :: []

theorem striped_terminates_clearing :
    ∃ s, run (step 64 4) (init 4) clearing = some s ∧
      step 64 4 s (true, .step) = none ∧
      (∃ u, (s.loc u).Busy ∧ ∃ s', step 64 4 s (u, .step) = some s') ∧
      clearing.countP (ownLabel Act.isStep true) ≤
        126 * clearing.countP (ownLabel (fun a => !a.isStep) true) := by
  have hrun : (run (step 64 4) (init 4) clearing).map (fun s =>
      ((step 64 4 s (true, .step)).isNone, (s.loc true).rank 4)) = some (true, 57) := rfl
  obtain ⟨s, hs, heq⟩ := Option.map_eq_some_iff.mp hrun
  simp only [Prod.mk.injEq, Option.isNone_iff_eq_none] at heq
  obtain ⟨hwaits, hrank⟩ := heq
  obtain ⟨hable, hsteps⟩ := striped_terminates hs
  refine ⟨s, hs, hwaits, hable true ?_, hsteps true⟩
  cases hl : s.loc true with
  | idle =>
    rw [hl] at hrank
    cases hrank
  | write call hash pc =>
    cases pc with
    | resizing =>
      rw [hl] at hrank
      cases hrank
    | _ => trivial
  | clear pc => trivial
  | len => trivial

end Termination

end VelocityX.Map.Striped
