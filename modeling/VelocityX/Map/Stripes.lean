import VelocityX.Lib.Sections
import VelocityX.Map.Table

/-!
# Writers of the concurrent hash map under the stripe locks

Any number of threads, each with one `insert` or `remove` call on a map of a fixed
capacity, under a fixed hash function.  A step takes or releases a stripe lock, reads or
writes the length of a bucket, or reads, writes or takes a slot.  A panic releases the
lock.

The stripe of a call comes from the high half of its hash and the bucket from the low
bits, so two calls on one bucket need not take the same lock.
-/

namespace VelocityX.Map

open Transition

variable {ι K V : Type*} [DecidableEq K]

inductive Call (K V : Type*) where
  | insert (key : K) (value : V)
  | remove (key : K)
deriving DecidableEq, Repr

def Call.key : Call K V → K
  | .insert key _ => key
  | .remove key => key

/-! ### The two operations, one step at a time -/

inductive InsertPc (K V : Type*) where
  | readLen
  | scan (n i : Nat)
  | update (i : Nat) (entry : Entry K V)
  | index
  | place (i : Nat)
  | bump
  | writeLen (n : Nat)
deriving DecidableEq

def insertStep (key : K) (value : V) (hash : UInt64) (b : Bucket K V) :
    InsertPc K V → Bucket K V × Next (InsertPc K V) (Except Panic (Option V))
  | .readLen => (b, .goto (.scan b.len 0))
  | .scan 0 _ =>
      -- the test `len < 16`
      if b.len < 16 then (b, .goto .index) else (b, .ret (.error .bucketOverflow))
  | .scan (n + 1) i =>
      match b.matchAt key hash i with
      | .error p => (b, .ret (.error p))
      | .ok none => (b, .goto (.scan n (i + 1)))
      | .ok (some entry) => (b, .goto (.update i entry))
  | .update i entry =>
      (b.write i (some ⟨key, value, hash, entry.distance⟩), .ret (.ok (some entry.value)))
  | .index => (b, .goto (.place b.len))
  | .place i =>
      if i < 16 then (b.write i (some ⟨key, value, hash, 0⟩), .goto .bump)
      else (b, .ret (.error .indexOutOfBounds))
  | .bump => (b, .goto (.writeLen b.len))
  | .writeLen n => ({ b with len := n + 1 }, .ret (.ok none))

inductive RemovePc (K V : Type*) where
  | readLen
  | scan (n i : Nat)
  | take (i : Nat)
  | range (i : Nat) (value : V)
  | shift (n j : Nat) (value : V)
  | fill (n j : Nat) (value : V) (slot : Option (Entry K V))
  | writeLen (n : Nat) (value : V)
deriving DecidableEq

def removeStep (key : K) (hash : UInt64) (b : Bucket K V) :
    RemovePc K V → Bucket K V × Next (RemovePc K V) (Except Panic (Option V))
  | .readLen => (b, .goto (.scan b.len 0))
  | .scan 0 _ => (b, .ret (.ok none))
  | .scan (n + 1) i =>
      match b.matchAt key hash i with
      | .error p => (b, .ret (.error p))
      | .ok none => (b, .goto (.scan n (i + 1)))
      | .ok (some _) => (b, .goto (.take i))
  | .take i =>
      match b.read i with
      | .error p => (b, .ret (.error p))
      | .ok none => (b, .ret (.error .unwrapNone))
      | .ok (some entry) => (b.write i none, .goto (.range i entry.value))
  | .range i value =>
      match b.len with
      | 0 => (b, .ret (.error .subtractOverflow))
      | n + 1 => (b, .goto (.shift (n - i) i value))
  | .shift 0 _ value => (b, .goto (.writeLen b.len value))
  | .shift (n + 1) j value =>
      match b.read (j + 1) with
      | .error p => (b, .ret (.error p))
      | .ok slot => (b.write (j + 1) none, .goto (.fill n j value slot))
  | .fill n j value slot => (b.write j slot, .goto (.shift n (j + 1) value))
  | .writeLen 0 _ => (b, .ret (.error .subtractOverflow))
  | .writeLen (n + 1) value => ({ b with len := n }, .ret (.ok (some value)))

/-! ### Calls -/

inductive Pc (K V : Type*) where
  | insert (key : K) (value : V) (pc : InsertPc K V)
  | remove (key : K) (pc : RemovePc K V)
deriving DecidableEq

def Call.start : Call K V → Pc K V
  | .insert key value => .insert key value .readLen
  | .remove key => .remove key .readLen

/-- A step of a call inside its bucket. -/
def Pc.inner (h : K → UInt64) (b : Bucket K V) :
    Pc K V → Bucket K V × Next (Pc K V) (Except Panic (Option V))
  | .insert key value pc =>
      let r := insertStep key value (h key) b pc
      (r.1, r.2.map (.insert key value))
  | .remove key pc =>
      let r := removeStep key (h key) b pc
      (r.1, r.2.map (.remove key))

/-- A whole call on its bucket. -/
def Call.exec (h : K → UInt64) (b : Bucket K V) :
    Call K V → Bucket K V × Except Panic (Option V)
  | .insert key value => b.insert key value (h key)
  | .remove key => b.remove key (h key)

/-- The writers `calls` of a map of the given capacity, each under the stripe lock that its
    code takes. -/
def writers (h : K → UInt64) (capacity : Nat) (calls : ι → Call K V) :
    Sections.Program ι Nat Nat (Bucket K V) (Pc K V) (Except Panic (Option V)) where
  cell t := bucketIndex (h (calls t).key) capacity
  lock t := stripeIndex (h (calls t).key) capacity
  start t := (calls t).start
  inner _ pc b := pc.inner h b

/-! ### The rest of a call

What a call still does, from a step of it on, when nobody else works on its bucket. -/

def insertRest (key : K) (value : V) (hash : UInt64) (b : Bucket K V) :
    InsertPc K V → Bucket K V × Except Panic (Option V)
  | .readLen => b.insert key value hash
  | .scan n i =>
      match b.scan key hash n i with
      | .error p => (b, .error p)
      | .ok (some (j, entry)) =>
          (b.write j (some ⟨key, value, hash, entry.distance⟩), .ok (some entry.value))
      | .ok none => b.insertNew key value hash
  | .update i entry =>
      (b.write i (some ⟨key, value, hash, entry.distance⟩), .ok (some entry.value))
  | .index =>
      if b.len < 16 then (b.push ⟨key, value, hash, 0⟩, .ok none)
      else (b, .error .indexOutOfBounds)
  | .place i =>
      if i < 16 then
        ({ b.write i (some ⟨key, value, hash, 0⟩) with len := b.len + 1 }, .ok none)
      else
        (b, .error .indexOutOfBounds)
  | .bump => ({ b with len := b.len + 1 }, .ok none)
  | .writeLen n => ({ b with len := n + 1 }, .ok none)

def removeRest (key : K) (hash : UInt64) (b : Bucket K V) :
    RemovePc K V → Bucket K V × Except Panic (Option V)
  | .readLen => b.remove key hash
  | .scan n i =>
      match b.scan key hash n i with
      | .error p => (b, .error p)
      | .ok none => (b, .ok none)
      | .ok (some (j, _)) => b.removeAt j
  | .take i => b.removeAt i
  | .range i value => b.closeGap i value
  | .shift n j value => b.shiftFrom n j value
  | .fill n j value slot => (b.write j slot).shiftFrom n (j + 1) value
  | .writeLen 0 _ => (b, .error .subtractOverflow)
  | .writeLen (n + 1) value => ({ b with len := n }, .ok (some value))

def Pc.rest (h : K → UInt64) (pc : Pc K V) (b : Bucket K V) :
    Bucket K V × Except Panic (Option V) :=
  match pc with
  | .insert key value pc => insertRest key value (h key) b pc
  | .remove key pc => removeRest key (h key) b pc

section Rest

variable {key : K} {value : V} {hash : UInt64} {h : K → UInt64} {b : Bucket K V}

theorem insertStep_rest (pc : InsertPc K V) :
    Sections.finish (fun pc b => insertRest key value hash b pc)
      (insertStep key value hash b pc) = insertRest key value hash b pc := by
  cases pc with
  | readLen => rfl
  | scan n i =>
    cases n with
    | zero =>
      simp only [insertStep, insertRest, Bucket.scan, Bucket.insertNew]
      by_cases hroom : b.len < 16
      · simp only [if_pos hroom, Sections.finish]
      · simp only [if_neg hroom, Sections.finish]
    | succ n =>
      simp only [insertStep, insertRest, Bucket.scan]
      cases b.matchAt key hash i with
      | error p => rfl
      | ok found => cases found <;> rfl
  | update i entry => rfl
  | index => rfl
  | place i =>
    simp only [insertStep, insertRest]
    split <;> rfl
  | bump => rfl
  | writeLen n => rfl

theorem removeStep_rest (pc : RemovePc K V) :
    Sections.finish (fun pc b => removeRest key hash b pc) (removeStep key hash b pc) =
      removeRest key hash b pc := by
  cases pc with
  | readLen => rfl
  | scan n i =>
    cases n with
    | zero => rfl
    | succ n =>
      simp only [removeStep, removeRest, Bucket.scan]
      cases b.matchAt key hash i with
      | error p => rfl
      | ok found => cases found <;> rfl
  | take i =>
    simp only [removeStep, removeRest, Bucket.removeAt]
    cases b.read i with
    | error p => rfl
    | ok slot => cases slot <;> rfl
  | range i value =>
    simp only [removeStep, removeRest, Bucket.closeGap]
    cases b.len <;> rfl
  | shift n j value =>
    cases n with
    | zero =>
      simp only [removeStep, removeRest, Bucket.shiftFrom, Bucket.shift, Bucket.shrink,
        Sections.finish]
      cases b.len <;> rfl
    | succ n =>
      simp only [removeStep, removeRest, Bucket.shiftFrom, Bucket.shift]
      cases b.read (j + 1) <;> rfl
  | fill n j value slot => rfl
  | writeLen n value => cases n <;> rfl

theorem inner_rest (pc : Pc K V) : Sections.finish (Pc.rest h) (pc.inner h b) = pc.rest h b := by
  cases pc with
  | insert key value pc =>
    refine Eq.trans ?_ (insertStep_rest pc)
    rw [Pc.inner]
    cases insertStep key value (h key) b pc with
    | mk b' next => cases next <;> rfl
  | remove key pc =>
    refine Eq.trans ?_ (removeStep_rest pc)
    rw [Pc.inner]
    cases removeStep key (h key) b pc with
    | mk b' next => cases next <;> rfl

theorem start_rest (call : Call K V) : call.start.rest h b = call.exec h b := by
  cases call <;> rfl

end Rest

/-! ### What the writers do to a bucket -/

/-- Up to its first write a call has its bucket as it found it, and it writes a new entry
    into the first free slot. -/
def InsertPc.Fresh (B b : Bucket K V) : InsertPc K V → Prop
  | .readLen => b = B
  | .scan _ _ => b = B
  | .index => b = B ∧ b.len < 16
  | .place i => b = B ∧ b.len < 16 ∧ i = b.len
  | _ => True

def Pc.Fresh (B b : Bucket K V) : Pc K V → Prop
  | .insert _ _ pc => pc.Fresh B b
  | .remove _ _ => True

/-- A call of a writer that found its bucket as `B` and is at `pc`, with the bucket `b`. -/
def Rel (h : K → UInt64) (calls : ι → Call K V) (t : ι) (pc : Pc K V) (B b : Bucket K V) : Prop :=
  pc.rest h b = (calls t).exec h B ∧ pc.Fresh B b

def Packed (b : Bucket K V) : Prop := ∃ es, b.Holds es

section Bucket

variable {key : K} {value : V} {hash : UInt64} {h : K → UInt64} {B b b' : Bucket K V}

theorem insertStep_fresh {pc' : InsertPc K V} (pc : InsertPc K V) (hfresh : pc.Fresh B b)
    (hstep : insertStep key value hash b pc = (b', .goto pc')) : pc'.Fresh B b' := by
  cases pc with
  | readLen =>
    cases hstep
    exact hfresh
  | scan n i =>
    cases n with
    | zero =>
      simp only [insertStep] at hstep
      split at hstep <;> cases hstep
      rename_i hroom
      exact ⟨hfresh, hroom⟩
    | succ n =>
      simp only [insertStep] at hstep
      split at hstep <;> cases hstep
      · exact hfresh
      · trivial
  | update i entry => cases hstep
  | index =>
    cases hstep
    exact ⟨hfresh.1, hfresh.2, rfl⟩
  | place i =>
    simp only [insertStep] at hstep
    split at hstep <;> cases hstep
    trivial
  | bump =>
    cases hstep
    trivial
  | writeLen n => cases hstep

theorem inner_fresh {pc pc' : Pc K V} (hfresh : pc.Fresh B b)
    (hstep : pc.inner h b = (b', .goto pc')) : pc'.Fresh B b' := by
  cases pc with
  | insert key value pc =>
    rw [Pc.inner] at hstep
    cases hinsert : insertStep key value (h key) b pc with
    | mk b₁ next =>
      rw [hinsert] at hstep
      cases next with
      | goto pc₁ =>
        cases hstep
        exact insertStep_fresh pc hfresh hinsert
      | ret result => cases hstep
  | remove key pc =>
    rw [Pc.inner] at hstep
    cases hremove : removeStep key (h key) b pc with
    | mk b₁ next =>
      rw [hremove] at hstep
      cases next with
      | goto pc₁ =>
        cases hstep
        trivial
      | ret result => cases hstep

theorem packed_exec (call : Call K V) (hB : Packed B) : Packed (call.exec h B).1 := by
  obtain ⟨es, hes⟩ := hB
  cases call with
  | insert key value =>
    rcases hes.insert key value (h key) with
      ⟨_, _, _, _, _, _, _, hinsert, hb⟩ | ⟨_, ⟨_, _, hinsert, hb⟩ | ⟨_, hinsert⟩⟩
    · rw [Call.exec, hinsert]
      exact ⟨_, hb⟩
    · rw [Call.exec, hinsert]
      exact ⟨_, hb⟩
    · rw [Call.exec, hinsert]
      exact ⟨_, hes⟩
  | remove key =>
    rcases hes.remove key (h key) with
      ⟨_, _, _, _, _, _, _, hremove, hb⟩ | ⟨_, hremove⟩
    · rw [Call.exec, hremove]
      exact ⟨_, hb⟩
    · rw [Call.exec, hremove]
      exact ⟨_, hes⟩

theorem simulation (h : K → UInt64) (capacity : Nat) (calls : ι → Call K V) :
    Sections.Simulation (writers h capacity calls) (fun t b => (calls t).exec h b) Packed
      (Rel h calls) := by
  refine ⟨fun t B hB => packed_exec (calls t) hB, ?_, ?_, ?_⟩
  · intro t B _
    refine ⟨start_rest (calls t), ?_⟩
    show (calls t).start.Fresh B B
    cases calls t with
    | insert key value => rfl
    | remove key => trivial
  · intro t pc B b b' pc' _ hrel hinner
    refine ⟨?_, inner_fresh hrel.2 hinner⟩
    have hrest := inner_rest (h := h) (b := b) pc
    rw [show pc.inner h b = (b', .goto pc') from hinner, hrel.1] at hrest
    exact hrest
  · intro t pc B b b' result _ hrel hinner
    have hrest := inner_rest (h := h) (b := b) pc
    rw [show pc.inner h b = (b', .ret result) from hinner, hrel.1] at hrest
    exact hrest.symm

end Bucket

/-! ### Exclusion and serializability -/

abbrev State (ι K V : Type*) :=
  Sections.State ι Nat Nat (Bucket K V) (Pc K V) (Except Panic (Option V))

/-- No two calls on one bucket are between lock and unlock, a new entry is written into a
    free slot, and once all calls have returned the table and the results are those of the
    calls in some order. -/
structure Sound (h : K → UInt64) (capacity : Nat) (calls : ι → Call K V) (table : Table K V)
    (s : State ι K V) : Prop where
  exclusive : Sections.Exclusion (writers h capacity calls) s
  free : ∀ t key value i, s.loc t = .inside (.insert key value (.place i)) →
    (s.shared.cells (bucketIndex (h (calls t).key) capacity)).read i = .ok none
  serial : (∀ t, ∃ result, s.loc t = .returned result) →
    Sections.Serializable (writers h capacity calls) (fun t b => (calls t).exec h b) table s

variable [DecidableEq ι]

/-- **When the stripe locks protect the buckets.**  Every interleaving of the writers is
    sound exactly when calls on the same bucket take the same stripe. -/
theorem writers_sound_iff {h : K → UInt64} {capacity : Nat} {calls : ι → Call K V}
    {table : Table K V} (hpower : ∃ k, capacity = 2 ^ k)
    (hpacked : ∀ i < capacity, Packed (table i)) :
    (∀ sched s,
      run (Sections.step (writers h capacity calls)) (Sections.init table) sched = some s →
        Sound h capacity calls table s) ↔
    ∀ t u, bucketIndex (h (calls t).key) capacity = bucketIndex (h (calls u).key) capacity →
      stripeIndex (h (calls t).key) capacity = stripeIndex (h (calls u).key) capacity := by
  constructor
  · intro hsound
    exact Sections.guarded_of_exclusion (P := writers h capacity calls) fun sched s hrun =>
      (hsound sched s hrun).exclusive
  · intro hguarded sched s hrun
    have hguard : Sections.Guarded (writers h capacity calls) := hguarded
    have hbucket : ∀ t, Packed (table ((writers h capacity calls).cell t)) :=
      fun t => hpacked _ (bucketIndex_lt _ hpower)
    obtain ⟨order, hinv⟩ :=
      Sections.run_inv (simulation h capacity calls) hguard hbucket hrun
    refine ⟨fun t u ht hu hcell => hinv.locked.exclusion hguard ht hu hcell, ?_, hinv.serializable⟩
    intro t key value i hloc
    have hbusy := hinv.busy t
    rw [hloc] at hbusy
    obtain ⟨hsame, hroom, hi⟩ := hbusy.2
    obtain ⟨es, hes⟩ := hinv.sound t
    rw [← hsame] at hes
    have hlen := hes.len_eq
    have hread := hes.read_eq i (by rw [hi]; exact hroom)
    rw [List.getElem?_eq_none (by rw [hi, ← hlen])] at hread
    exact hread

/-- Both threads insert, thread `false` the key 0 and thread `true` the key 1. -/
def twoInserts (t : Bool) : Call Nat Nat := if t then .insert 1 8 else .insert 0 7

theorem writers_sound_iff_oneStripe :
    ∃ s, run (Sections.step (writers (fun _ => 5) 16 twoInserts)) (Sections.init fun _ => .empty)
        (List.replicate 8 (false, ()) ++ List.replicate 9 (true, ())) = some s ∧
      s.loc true = .returned (.ok none) ∧
      Sound (fun _ => 5) 16 twoInserts (fun _ => .empty) s := by
  have hrun : (run (Sections.step (writers (fun _ => 5) 16 twoInserts))
      (Sections.init fun _ => .empty)
      (List.replicate 8 (false, ()) ++ List.replicate 9 (true, ()))).map (fun s => s.loc true) =
      some (.returned (.ok none)) := rfl
  obtain ⟨s, hs, hdone⟩ := Option.map_eq_some_iff.mp hrun
  have hpower : ∃ k, 16 = 2 ^ k := ⟨4, rfl⟩
  have hpacked : ∀ i < 16, Packed ((fun _ => .empty : Table Nat Nat) i) :=
    fun _ _ => ⟨[], Bucket.holds_empty⟩
  have hsound : ∀ sched s, run (Sections.step (writers (fun _ => 5) 16 twoInserts))
      (Sections.init fun _ => .empty) sched = some s →
      Sound (fun _ => 5) 16 twoInserts (fun _ => .empty) s :=
    (writers_sound_iff hpower hpacked).mpr fun _ _ _ => rfl
  exact ⟨s, hs, hdone, hsound _ s hs⟩

/-- Two keys whose hashes agree in the low bits but not in the high half. -/
def splitHash (key : Nat) : UInt64 := if key = 0 then 0 else 0x100000000

/-- Both threads place their entry in slot 0 and set the length to 1. -/
def lostInsert : List (Bool × Unit) :=
  [false, false, false, false, true, true, true, true, false, true, false, true,
    false, true, false, true].map fun t => (t, ())

theorem serial_len (order : List Bool) (hnodup : order.Nodup) (hall : ∀ t, t ∈ order) :
    ((Sections.serial (writers splitHash 16 twoInserts)
      (fun t b => (twoInserts t).exec splitHash b) (fun _ => .empty) order).1 0).len = 2 := by
  have hperm : order.Perm [false, true] :=
    (List.perm_ext_iff_of_nodup hnodup (by decide)).mpr fun t => by
      cases t <;> simp [hall]
  obtain ⟨t, u, rfl⟩ := List.length_eq_two.mp hperm.length_eq
  have htu : t ≠ u := by simpa using hnodup
  cases t <;> cases u
  · exact absurd rfl htu
  · rfl
  · rfl
  · exact absurd rfl htu

/-- The insert of key 0 returned, but only the entry of key 1 is in the bucket. -/
theorem insert_lost_across_stripes :
    ∃ s, run (Sections.step (writers splitHash 16 twoInserts)) (Sections.init fun _ => .empty)
        lostInsert = some s ∧
      (∀ t, s.loc t = .returned (.ok none)) ∧
      (s.shared.cells 0).stored = [⟨1, 8, 0x100000000, 0⟩] ∧
      ¬ Sound splitHash 16 twoInserts (fun _ => .empty) s := by
  have hrun : (run (Sections.step (writers splitHash 16 twoInserts))
      (Sections.init fun _ => .empty) lostInsert).map
        (fun s => (s.loc false, s.loc true, (s.shared.cells 0).stored, (s.shared.cells 0).len)) =
      some (.returned (.ok none), .returned (.ok none), [⟨1, 8, 0x100000000, 0⟩], 1) := rfl
  obtain ⟨s, hs, hfinal⟩ := Option.map_eq_some_iff.mp hrun
  simp only [Prod.mk.injEq] at hfinal
  obtain ⟨hfalse, htrue, hstored, hlen⟩ := hfinal
  have hdone : ∀ t, s.loc t = .returned (.ok none) := by
    intro t
    cases t
    · exact hfalse
    · exact htrue
  refine ⟨s, hs, hdone, hstored, fun hsound => ?_⟩
  obtain ⟨order, hnodup, hall, hcells, _⟩ := hsound.serial fun t => ⟨_, hdone t⟩
  have hserial := serial_len order hnodup hall
  rw [hcells, hlen] at hserial
  cases hserial

end VelocityX.Map
