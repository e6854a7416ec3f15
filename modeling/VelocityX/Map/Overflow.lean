import VelocityX.Map.Concurrent

/-!
# Bucket overflow

Runs of `insert` on a fresh map, under one hash function for all calls.  The resize before an
insertion is started by the number of stored entries alone, and the insertion panics on a full
bucket whatever that number is.

An insertion into a table that has wrapped writes outside of its memory, which no result of the
call tells: `InsertReturns` also says that the buckets it works on have been allocated.
-/

namespace VelocityX.Map

open Transition

variable {K V : Type*} [DecidableEq K]

namespace Table

/-- The key is looked up where it has been inserted. -/
theorem getLocked_insertLocked {t : Table K V} {capacity : Nat} {key : K} {value : V}
    {hash : UInt64} :
    (t.insertLocked capacity key value hash).1.getLocked key hash capacity =
      ((t (bucketIndex hash capacity)).insert key value hash).1.get key hash :=
  congrArg (fun b : Bucket K V => b.get key hash) (Function.update_self ..)

end Table

namespace ConcurrentHashMap

/-- The state after an insertion that does not panic. -/
def insertStep (heap : Heap) (h : K → UInt64) (m : ConcurrentHashMap K V) (a : K × V) :
    Option (ConcurrentHashMap K V) :=
  match m.insert heap a.1 a.2 (h a.1) with
  | some (m', .ok _) => some m'
  | _ => none

/-- The insertion returns, its value is found after it, and it has worked on allocated memory. -/
def InsertReturns (heap : Heap) (h : K → UInt64) (m : ConcurrentHashMap K V) (a : K × V) : Prop :=
  ∃ m' old, m.insert heap a.1 a.2 (h a.1) = some (m', .ok old) ∧
    m'.table.getLocked a.1 (h a.1) m'.capacity = .ok (some a.2) ∧ m'.InMemory heap

omit [DecidableEq K] in
/-- The key is in its bucket, or the bucket has a free slot.  When a resize comes first, the free
    slot is one of the bucket that takes the entries of this one that go where the key goes, each of
    them twice if the bucket is in the first chunk. -/
def HasRoom (h : K → UInt64) (m : ConcurrentHashMap K V) (a : K × V) : Prop :=
  let i := bucketIndex (h a.1) m.capacity
  (∃ entry ∈ (m.table i).stored, entry.hash = h a.1 ∧ entry.key = a.1) ∨
    if m.shouldResize then
      (Table.bound (m.capacity * 2) (bucketIndex (h a.1) (m.capacity * 2))
        (m.table i).stored).length * (if i < 16 then 2 else 1) < 16
    else
      (m.table i).len < 16

omit [DecidableEq K] in
/-- There is a bucket with room for the key, and the table of the resize that comes first, if any,
    can be allocated. -/
def CanInsert (heap : Heap) (h : K → UInt64) (m : ConcurrentHashMap K V) (a : K × V) : Prop :=
  m.capacity ≠ 0 ∧ m.HasRoom h a ∧ (m.shouldResize → m.resizeGranted heap)

omit [DecidableEq K] in
structure Settled (m : ConcurrentHashMap K V) : Prop where
  placed : m.table.WellPlaced m.capacity
  idle : m.resizeState = none

variable {heap : Heap} {h : K → UInt64} {m m' : ConcurrentHashMap K V} {a : K × V}

omit [DecidableEq K] in
theorem settled_allocated {capacity : Nat} (hpower : ∃ k, capacity = 2 ^ k) :
    (allocated capacity : ConcurrentHashMap K V).Settled :=
  ⟨(Table.valid_allocate hpower).wellPlaced, rfl⟩

omit [DecidableEq K] in
theorem Settled.resized (hm : m.Settled) : m.resized.Settled := by
  refine ⟨⟨hm.placed.power_double, fun j _ => ?_, fun j _ => resized_placed hm.placed j⟩, rfl⟩
  rw [(resized_holds hm.placed j).stored_eq]
  exact resized_holds hm.placed j

omit [DecidableEq K] in
theorem Settled.ready (hm : m.Settled) : m.ready.Settled := by
  unfold ConcurrentHashMap.ready
  split
  · exact hm.resized
  · exact hm

/-! ### Room -/

omit [DecidableEq K] in
/-- The bucket that takes the entries of the key at a resize.  The entries of the first pass come
    first, so that those of the second one cannot displace them. -/
theorem Settled.stored_resized (hm : m.Settled) (hash : UInt64) :
    ∃ again : List (Entry K V),
      (m.resized.table (bucketIndex hash (m.capacity * 2))).stored =
          ((Table.bound (m.capacity * 2) (bucketIndex hash (m.capacity * 2))
            (m.table (bucketIndex hash m.capacity)).stored ++ again).map Entry.settle).take 16 ∧
        (∀ entry ∈ again, entry ∈ Table.bound (m.capacity * 2)
          (bucketIndex hash (m.capacity * 2)) (m.table (bucketIndex hash m.capacity)).stored) ∧
        again.length = if bucketIndex hash m.capacity < 16 then
          (Table.bound (m.capacity * 2) (bucketIndex hash (m.capacity * 2))
            (m.table (bucketIndex hash m.capacity)).stored).length else 0 := by
  have hi := bucketIndex_lt hash hm.placed.power
  have hmod : bucketIndex hash (m.capacity * 2) % m.capacity = bucketIndex hash m.capacity := by
    rw [bucketIndex_eq_mod _ hm.placed.power_double, bucketIndex_eq_mod _ hm.placed.power,
      Nat.mod_mul_right_mod]
  rw [(resized_holds hm.placed (bucketIndex hash (m.capacity * 2))).stored_eq, hmod]
  by_cases hchunk : bucketIndex hash m.capacity < 16
  · rw [if_pos (by omega), if_pos hchunk]
    exact ⟨_, rfl, fun _ hentry => hentry, rfl⟩
  · rw [if_neg (by omega), if_neg hchunk]
    exact ⟨[], by rw [List.append_nil], nofun, rfl⟩

omit [DecidableEq K] in
/-- The key and the room for it in the bucket that takes its entries at a resize. -/
theorem Settled.room_resized (hm : m.Settled) (key : K) (hash : UInt64) :
    ((∃ entry ∈ (m.resized.table (bucketIndex hash (m.capacity * 2))).stored,
          entry.hash = hash ∧ entry.key = key) ∨
        (m.resized.table (bucketIndex hash (m.capacity * 2))).stored.length < 16) ↔
      (∃ entry ∈ (m.table (bucketIndex hash m.capacity)).stored,
          entry.hash = hash ∧ entry.key = key) ∨
        (Table.bound (m.capacity * 2) (bucketIndex hash (m.capacity * 2))
            (m.table (bucketIndex hash m.capacity)).stored).length *
          (if bucketIndex hash m.capacity < 16 then 2 else 1) < 16 := by
  obtain ⟨again, hstored, hagain, hlen⟩ := hm.stored_resized hash
  have hle := (hm.placed.holds _ (bucketIndex_lt hash hm.placed.power)).length_le
  generalize hes : (m.table (bucketIndex hash m.capacity)).stored = es at hstored hagain hlen hle ⊢
  generalize hbs : Table.bound (m.capacity * 2) (bucketIndex hash (m.capacity * 2)) es = bs
    at hstored hagain hlen ⊢
  have hsub : ∀ entry, entry ∈ bs ↔
      entry ∈ es ∧ bucketIndex entry.hash (m.capacity * 2) = bucketIndex hash (m.capacity * 2) := by
    intro entry
    rw [← hbs, Table.bound, List.mem_filter, decide_eq_true_iff]
  have hbsle : bs.length ≤ 16 := by
    rw [← hbs]
    exact Nat.le_trans (List.length_filter_le _ _) hle
  rw [hstored, List.length_take, List.length_map, List.length_append, hlen]
  refine or_congr ⟨?_, ?_⟩ (by split <;> omega)
  · rintro ⟨entry, hentry, hhash, hkey⟩
    obtain ⟨e, he, rfl⟩ := List.mem_map.mp (List.mem_of_mem_take hentry)
    have hmem : e ∈ bs := (List.mem_append.mp he).elim id (hagain e)
    exact ⟨e, ((hsub e).mp hmem).1, hhash, hkey⟩
  · rintro ⟨entry, hentry, rfl, rfl⟩
    have hmem : entry ∈ bs := (hsub entry).mpr ⟨hentry, rfl⟩
    refine ⟨entry.settle, ?_, rfl, rfl⟩
    rw [List.map_append, List.take_append, List.take_of_length_le (by rwa [List.length_map])]
    exact List.mem_append_left _ (List.mem_map_of_mem hmem)

omit [DecidableEq K] in
theorem Settled.hasRoom_iff (hm : m.Settled) :
    m.HasRoom h a ↔
      (∃ entry ∈ (m.ready.table (bucketIndex (h a.1) m.ready.capacity)).stored,
          entry.hash = h a.1 ∧ entry.key = a.1) ∨
        (m.ready.table (bucketIndex (h a.1) m.ready.capacity)).stored.length < 16 := by
  unfold HasRoom ConcurrentHashMap.ready
  dsimp only
  by_cases hfull : m.shouldResize
  · rw [if_pos hfull, if_pos hfull]
    exact (hm.room_resized a.1 (h a.1)).symm
  · rw [if_neg hfull, if_neg hfull,
      (hm.placed.holds _ (bucketIndex_lt (h a.1) hm.placed.power)).len_eq]

/-! ### Insertions -/

/-- An insertion into a table that has not wrapped. -/
theorem Settled.insertReturns_iff (hm : m.Settled)
    (hsound : (m.memory heap).Sound 64 heap.bucket) :
    m.InsertReturns heap h a ↔ m.CanInsert heap h a := by
  have hpos := Nat.pos_iff_ne_zero.mp hm.placed.pos
  rw [InsertReturns, CanInsert, insert_eq hm.placed.power hm.idle]
  by_cases hgranted : m.shouldResize → m.resizeGranted heap
  · have hi := bucketIndex_lt (h a.1) hm.ready.placed.power
    have hroom := (hm.ready.placed.holds _ hi).insert_returns_iff a.1 a.2 (h a.1)
    rw [← hm.hasRoom_iff] at hroom
    obtain ⟨size, hinsert⟩ := m.ready.insertUnderLock_eq a.1 a.2 (h a.1)
    rw [if_pos hgranted, hinsert, ← hroom]
    constructor
    · rintro ⟨m', old, heq, hget, _⟩
      obtain ⟨rfl, hold⟩ := Prod.mk.inj (Option.some.inj heq)
      exact ⟨hpos, ⟨_, old, Prod.ext rfl hold, Table.getLocked_insertLocked.symm.trans hget⟩,
        hgranted⟩
    · rintro ⟨_, ⟨b, old, hbucket, hget⟩, _⟩
      have hresult : (m.ready.table.insertLocked m.ready.capacity a.1 a.2 (h a.1)).2 = .ok old :=
        congrArg Prod.snd hbucket
      refine ⟨_, old, congrArg (fun r => some (_, r)) hresult,
        Table.getLocked_insertLocked.trans ?_, ?_⟩
      · rwa [hbucket]
      · exact inMemory_of_sound (sound_ready hsound hgranted)
  · rw [if_neg hgranted]
    constructor
    · rintro ⟨m', old, heq, _⟩
      cases heq
    · intro hcan
      exact absurd hcan.2.2 hgranted

theorem Settled.insertStep (hm : m.Settled) (hstep : m.insertStep heap h a = some m') :
    (m.shouldResize → m.resizeGranted heap) ∧ m'.Settled ∧ m'.capacity = m.ready.capacity := by
  rw [ConcurrentHashMap.insertStep, insert_eq hm.placed.power hm.idle] at hstep
  by_cases hgranted : m.shouldResize → m.resizeGranted heap
  · obtain ⟨size, hinsert⟩ := m.ready.insertUnderLock_eq a.1 a.2 (h a.1)
    rw [if_pos hgranted, hinsert] at hstep
    split at hstep
    next heq =>
      obtain ⟨rfl, _⟩ := Prod.mk.inj (Option.some.inj heq)
      cases hstep
      exact ⟨hgranted, ⟨hm.ready.placed.insertLocked a.1 a.2 (h a.1), hm.ready.idle⟩, rfl⟩
    next => cases hstep
  · rw [if_neg hgranted] at hstep
    cases hstep

/-! ### Runs from a fresh map -/

omit [DecidableEq K] in
theorem not_inMemory_of_zero (hm : m.capacity = 0) : ¬ m.InMemory heap := by
  rintro ⟨_, hindexed⟩
  have hbytes : (m.memory heap).bytes = 0 := by simp [memory, hm, Word.mul]
  have hfirst := hindexed 0
  rw [hbytes, Nat.le_zero, Nat.mul_eq_zero] at hfirst
  have hle := heap.bucket.le
  omega

/-- A table of no buckets has room for nothing. -/
theorem not_insertReturns_of_zero : ¬ (allocated 0).InsertReturns heap h a := by
  rintro ⟨m', old, hinsert, _, hmemory⟩
  refine not_inMemory_of_zero ?_ hmemory
  obtain ⟨size, hlock⟩ := (allocated 0 : ConcurrentHashMap K V).insertUnderLock_eq a.1 a.2 (h a.1)
  simp only [ConcurrentHashMap.insert, shouldResize, allocated, Nat.mul_zero, Nat.lt_irrefl,
    decide_false, Bool.false_eq_true, if_false] at hinsert hlock
  rw [hlock] at hinsert
  obtain ⟨rfl, _⟩ := Prod.mk.inj (Option.some.inj hinsert)
  rfl

/-- **When insertions return.**  After every request that the constructor grants: the buckets of
    the new table lie in its memory and every insertion of a run returns exactly when the size of
    the table does not wrap and each insertion finds its key or room for it. -/
theorem withCapacity_insertReturns_iff {requested : Nat} (hrequested : requested < 2 ^ 64)
    (hm : withCapacity heap requested = some m) (h : K → UInt64) (as : List (K × V)) :
    m.capacity * heap.bucket.val ≤ (m.memory heap).bytes ∧
        Along (insertStep heap h) (InsertReturns heap h) m as ↔
      roundUpWord 64 requested * heap.bucket.val < 2 ^ 64 ∧
        Along (insertStep heap h) (CanInsert heap h) m as := by
  obtain ⟨t, ht, rfl⟩ := withCapacity_eq_some.mp hm
  rw [Alloc.withCapacity_eq hrequested] at ht
  obtain ⟨hlt, _, rfl⟩ := Alloc.allocateTable_eq_some.mp ht
  show roundUpWord 64 requested * heap.bucket.val ≤
      Word.mul 64 (roundUpWord 64 requested) heap.bucket.val ∧
        Along _ _ (allocated (roundUpWord 64 requested)) as ↔
    _ ∧ Along _ _ (allocated (roundUpWord 64 requested)) as
  have hbytes : Word.mul 64 (roundUpWord 64 requested) heap.bucket.val < 2 ^ 63 := hlt
  by_cases hwrap : roundUp requested < 2 ^ 64
  · rw [roundUpWord_of_lt hwrap] at hbytes ⊢
    have hpower := roundUp_power requested
    by_cases hsize : roundUp requested * heap.bucket.val < 2 ^ 64
    · have hexact := Word.mul_of_lt hsize
      have hsound : ((allocated (roundUp requested) : ConcurrentHashMap K V).memory heap).Sound 64
          heap.bucket := ⟨hpower, hexact, hbytes⟩
      refine and_congr (iff_of_true (Nat.le_of_eq hexact.symm) hsize) ?_
      refine along_congr (I := fun m => m.Settled ∧ (m.memory heap).Sound 64 heap.bucket)
        ?_ ?_ ⟨settled_allocated hpower, hsound⟩
      · rintro m a m' ⟨hm, hsound⟩ hstep
        obtain ⟨hgranted, hm', hcapacity⟩ := hm.insertStep hstep
        refine ⟨hm', ?_⟩
        rw [memory, hcapacity]
        exact sound_ready hsound hgranted
      · rintro m a ⟨hm, hsound⟩
        exact hm.insertReturns_iff hsound
    · refine iff_of_false ?_ fun hcan => hsize hcan.1
      rintro ⟨hle, _⟩
      have hless : (2 : Nat) ^ 63 < 2 ^ 64 := by decide
      exact hsize (by omega)
  · rw [roundUpWord_of_ge (Nat.le_of_not_lt hwrap)]
    cases as with
    | nil => simp [Along]
    | cons a as =>
      refine iff_of_false ?_ ?_
      · rintro ⟨_, hreturns, _⟩
        exact not_insertReturns_of_zero hreturns
      · rintro ⟨_, ⟨hpos, _⟩, _⟩
        exact hpos rfl

/-- The last insertion comes after a resize. -/
theorem withCapacity_insertReturns_iff_resized :
    ∃ m, withCapacity wordHeap 2 = some m ∧
      Along (insertStep wordHeap Nat.toUInt64) (InsertReturns wordHeap Nat.toUInt64) m
        [(0, 5), (1, 6), (1, 7), (2, 8)] := by
  have hm : (withCapacity wordHeap 2 : Option (ConcurrentHashMap Nat Nat)) = some (allocated 2) :=
    withCapacity_of_power ⟨1, rfl⟩ (by decide) rfl
  have hrounded : roundUp 2 = 2 := if_pos ⟨1, rfl⟩
  refine ⟨_, hm, ((withCapacity_insertReturns_iff (by decide) hm _ _).mpr ⟨?_, ?_⟩).2⟩
  · rw [roundUpWord, hrounded]
    decide
  · refine ⟨⟨by decide, by unfold HasRoom; decide, by decide⟩, ?_⟩
    rintro m ⟨⟩
    refine ⟨⟨by decide, by unfold HasRoom; decide, by decide⟩, ?_⟩
    rintro m ⟨⟩
    refine ⟨⟨by decide, by unfold HasRoom; decide, by decide⟩, ?_⟩
    rintro m ⟨⟩
    exact ⟨⟨by decide, by unfold HasRoom; decide, by decide⟩, fun _ _ => trivial⟩

/-- The seventeenth key with one hash panics. -/
theorem colliding_insert_panics :
    ∃ m, withCapacity wordHeap 64 = some m ∧
      ¬ ∀ as : List (Nat × Nat), Along (insertStep wordHeap fun _ => 0)
        (InsertReturns wordHeap fun _ => 0) m as := by
  refine ⟨_, withCapacity_of_power ⟨6, rfl⟩ (by decide) rfl, fun hall => ?_⟩
  have hnext : ∀ (m : ConcurrentHashMap Nat Nat) (a : Nat × Nat),
      m.InsertReturns wordHeap (fun _ => 0) a →
        ∃ m', insertStep wordHeap (fun _ => 0) m a = some m' := by
    rintro m a ⟨m', old, hinsert, _⟩
    exact ⟨m', by rw [insertStep, hinsert]⟩
  obtain ⟨m, hrun⟩ :=
    exists_run_of_along hnext (hall ((List.range 17).map fun key => (key, key)))
  have hpanic : (run (insertStep wordHeap fun _ => 0) (allocated 64 : ConcurrentHashMap Nat Nat)
      ((List.range 17).map fun key => (key, key))).isNone := by decide
  rw [hrun] at hpanic
  cases hpanic

end ConcurrentHashMap

end VelocityX.Map
