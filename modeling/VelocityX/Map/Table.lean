import VelocityX.Lib.FiniteMap
import VelocityX.Lib.Partition
import VelocityX.Map.Bucket

/-!
# Tables of the concurrent hash map

A table is the memory from a table pointer on, one bucket after the other; `capacity`
of them are allocated.  `insertLocked`, `getLocked` and `removeLocked` are the functions
of `src/map/concurrent.rs` under these names, for a given table.

An entry is found only under the hash it was stored with.  `Keyed` says that an operation
uses that hash, and then the operations are those of the finite map that the table
represents.
-/

namespace VelocityX.Map

variable {K V : Type*}

abbrev Table (K V : Type*) := Nat → Bucket K V

def stripeCount : Nat := 16

def stripeIndex (hash : UInt64) (_capacity : Nat) : Nat := (hash >>> 32).toNat % stripeCount

def bucketIndex (hash : UInt64) (capacity : Nat) : Nat := hash.toNat &&& (capacity - 1)

def allocateTable (_capacity : Nat) : Table K V := fun _ => .empty

/-- The key-value pair of an entry. -/
def Entry.binding (entry : Entry K V) : Sigma fun _ : K => V := ⟨entry.key, entry.value⟩

theorem bucketIndex_eq_mod {capacity : Nat} (hash : UInt64) (hpower : ∃ k, capacity = 2 ^ k) :
    bucketIndex hash capacity = hash.toNat % capacity := by
  obtain ⟨k, rfl⟩ := hpower
  exact Nat.and_two_pow_sub_one_eq_mod hash.toNat k

theorem bucketIndex_lt {capacity : Nat} (hash : UInt64) (hpower : ∃ k, capacity = 2 ^ k) :
    bucketIndex hash capacity < capacity := by
  rw [bucketIndex_eq_mod hash hpower]
  obtain ⟨k, rfl⟩ := hpower
  exact Nat.mod_lt _ (Nat.two_pow_pos k)

namespace Table

def entries (t : Table K V) (capacity : Nat) : List (Entry K V) :=
  Partition.join (fun i => (t i).stored) capacity

/-- The sum of the bucket lengths. -/
def lenSum (t : Table K V) (capacity : Nat) : Nat :=
  ((List.range capacity).map fun i => (t i).len).sum

variable [DecidableEq K]

def insertLocked (t : Table K V) (capacity : Nat) (key : K) (value : V) (hash : UInt64) :
    Table K V × Except Panic (Option V) :=
  let i := bucketIndex hash capacity
  let r := (t i).insert key value hash
  (Function.update t i r.1, r.2)

def getLocked (t : Table K V) (key : K) (hash : UInt64) (capacity : Nat) :
    Except Panic (Option V) :=
  (t (bucketIndex hash capacity)).get key hash

def removeLocked (t : Table K V) (key : K) (hash : UInt64) (capacity : Nat) :
    Table K V × Except Panic (Option V) :=
  let i := bucketIndex hash capacity
  let r := (t i).remove key hash
  (Function.update t i r.1, r.2)

/-! ### Valid tables -/

omit [DecidableEq K]

/-- The buckets are in order and every entry is in the bucket of its hash; a key may be stored more
    than once. -/
structure WellPlaced (t : Table K V) (capacity : Nat) : Prop where
  power : ∃ k, capacity = 2 ^ k
  holds : ∀ i < capacity, (t i).Holds (t i).stored
  placed : ∀ i < capacity, ∀ entry ∈ (t i).stored, bucketIndex entry.hash capacity = i

structure Valid (t : Table K V) (capacity : Nat) : Prop where
  power : ∃ k, capacity = 2 ^ k
  holds : ∀ i < capacity, (t i).Holds (t i).stored
  placed : ∀ i < capacity, ∀ entry ∈ (t i).stored, bucketIndex entry.hash capacity = i
  nodup : ((t.entries capacity).map Entry.key).Nodup

variable {t : Table K V} {b : Bucket K V} {es : List (Entry K V)} {entry : Entry K V}
variable {capacity i : Nat} {key : K} {value : V} {hash : UInt64}

theorem WellPlaced.pos (hw : t.WellPlaced capacity) : 0 < capacity := by
  obtain ⟨k, rfl⟩ := hw.power
  exact Nat.two_pow_pos k

theorem WellPlaced.power_double (hw : t.WellPlaced capacity) : ∃ k, capacity * 2 = 2 ^ k := by
  obtain ⟨k, rfl⟩ := hw.power
  exact ⟨k + 1, (Nat.pow_succ ..).symm⟩

theorem WellPlaced.update (hw : t.WellPlaced capacity) (hholds : b.Holds es)
    (hplaced : ∀ entry ∈ es, bucketIndex entry.hash capacity = i) :
    WellPlaced (Function.update t i b) capacity := by
  refine ⟨hw.power, ?_, ?_⟩
  · intro k hk
    by_cases hki : k = i
    · subst hki
      rw [Function.update_self, hholds.stored_eq]
      exact hholds
    · rw [Function.update_of_ne hki]
      exact hw.holds k hk
  · intro k hk entry hentry
    by_cases hki : k = i
    · subst hki
      rw [Function.update_self, hholds.stored_eq] at hentry
      exact hplaced entry hentry
    · rw [Function.update_of_ne hki] at hentry
      exact hw.placed k hk entry hentry

theorem Valid.wellPlaced (hv : t.Valid capacity) : t.WellPlaced capacity :=
  ⟨hv.power, hv.holds, hv.placed⟩

theorem Valid.pos (hv : t.Valid capacity) : 0 < capacity := hv.wellPlaced.pos

theorem Valid.power_double (hv : t.Valid capacity) : ∃ k, capacity * 2 = 2 ^ k :=
  hv.wellPlaced.power_double

theorem mem_entries : entry ∈ t.entries capacity ↔ ∃ i < capacity, entry ∈ (t i).stored :=
  Partition.mem_join

theorem Valid.mem_stored (hv : t.Valid capacity) (hentry : entry ∈ t.entries capacity) :
    entry ∈ (t (bucketIndex entry.hash capacity)).stored := by
  obtain ⟨i, hi, hmem⟩ := mem_entries.mp hentry
  rw [hv.placed i hi entry hmem]
  exact hmem

theorem Valid.lenSum_eq (hv : t.Valid capacity) :
    t.lenSum capacity = (t.entries capacity).length := by
  rw [lenSum, entries, Partition.length_join]
  refine congrArg List.sum (List.map_congr_left fun i hi => ?_)
  exact (hv.holds i (List.mem_range.mp hi)).len_eq

theorem Valid.entries_length_le (hv : t.Valid capacity) :
    (t.entries capacity).length ≤ capacity * 16 :=
  Partition.length_join_le fun i hi => (hv.holds i hi).length_le

/-- A table whose buckets are all empty. -/
theorem entries_of_empty (hempty : ∀ i < capacity, t i = .empty) : t.entries capacity = [] := by
  refine List.eq_nil_iff_forall_not_mem.mpr fun entry hentry => ?_
  obtain ⟨i, hi, hmem⟩ := mem_entries.mp hentry
  rw [hempty i hi, Bucket.holds_empty.stored_eq] at hmem
  cases hmem

theorem valid_of_empty (hpower : ∃ k, capacity = 2 ^ k) (hempty : ∀ i < capacity, t i = .empty) :
    t.Valid capacity := by
  refine ⟨hpower, ?_, ?_, ?_⟩
  · intro i hi
    rw [hempty i hi, Bucket.holds_empty.stored_eq]
    exact Bucket.holds_empty
  · intro i hi entry hentry
    rw [hempty i hi, Bucket.holds_empty.stored_eq] at hentry
    cases hentry
  · rw [entries_of_empty hempty]
    exact List.nodup_nil

theorem entries_allocate : (allocateTable capacity : Table K V).entries capacity = [] :=
  entries_of_empty fun _ _ => rfl

theorem valid_allocate (hpower : ∃ k, capacity = 2 ^ k) :
    (allocateTable capacity : Table K V).Valid capacity :=
  valid_of_empty hpower fun _ _ => rfl

/-- What a table holds outside of one bucket does not change with that bucket. -/
theorem exists_rest (t : Table K V) (hi : i < capacity) :
    ∃ rest, (t.entries capacity).Perm ((t i).stored ++ rest) ∧
      ∀ b : Bucket K V, (entries (Function.update t i b) capacity).Perm (b.stored ++ rest) := by
  obtain ⟨pre, post, hsplit⟩ := Partition.exists_join_split (fun k => (t k).stored) hi
  have hupdate : ∀ b : Bucket K V,
      (entries (Function.update t i b) capacity).Perm (b.stored ++ (pre ++ post)) := by
    intro b
    have hclasses : (fun k => (Function.update t i b k).stored) =
        Function.update (fun k => (t k).stored) i b.stored :=
      Function.comp_update Bucket.stored t i b
    rw [entries, hclasses, hsplit, List.append_assoc]
    exact List.perm_append_comm_assoc pre b.stored post
  refine ⟨pre ++ post, ?_, hupdate⟩
  have hsame := hupdate (t i)
  rw [Function.update_eq_self] at hsame
  exact hsame

/-! ### Refinement of a finite map -/

structure Models (t : Table K V) (capacity : Nat) (F : Finmap fun _ : K => V) : Prop where
  valid : t.Valid capacity
  represents : FiniteMap.Represents ((t.entries capacity).map Entry.binding) F

/-- The hash is the one under which the key is stored, if it is stored at all. -/
def Keyed (t : Table K V) (capacity : Nat) (key : K) (hash : UInt64) : Prop :=
  ∀ entry ∈ t.entries capacity, entry.key = key → entry.hash = hash

instance : Decidable (t.Keyed capacity key hash) :=
  inferInstanceAs (Decidable (∀ entry ∈ t.entries capacity, entry.key = key → entry.hash = hash))

variable {F G : Finmap fun _ : K => V} {rest : List (Entry K V)}

theorem models_of_empty (hpower : ∃ k, capacity = 2 ^ k)
    (hempty : ∀ i < capacity, t i = .empty) : t.Models capacity ∅ := by
  refine ⟨valid_of_empty hpower hempty, ?_⟩
  rw [entries_of_empty hempty]
  exact FiniteMap.represents_nil

theorem models_allocate (hpower : ∃ k, capacity = 2 ^ k) :
    (allocateTable capacity : Table K V).Models capacity ∅ :=
  models_of_empty hpower fun _ _ => rfl

/-- The table after a change of bucket `i`, of which the entries of the bucket and the
    `rest` of the table are the bindings of the new map. -/
theorem WellPlaced.models (hw : WellPlaced (Function.update t i b) capacity) (hholds : b.Holds es)
    (hperm : (entries (Function.update t i b) capacity).Perm (b.stored ++ rest))
    (hrep : FiniteMap.Represents ((es ++ rest).map Entry.binding) G) :
    Models (Function.update t i b) capacity G := by
  rw [hholds.stored_eq] at hperm
  have hnew := hrep.perm (hperm.symm.map Entry.binding)
  have hnodup := hnew.nodup
  rw [List.map_map] at hnodup
  exact ⟨⟨hw.power, hw.holds, hw.placed, hnodup⟩, hnew⟩

variable [DecidableEq K]

theorem WellPlaced.insertLocked (hw : t.WellPlaced capacity) (key : K) (value : V)
    (hash : UInt64) : (t.insertLocked capacity key value hash).1.WellPlaced capacity := by
  have hi := bucketIndex_lt hash hw.power
  obtain ⟨es, hes, hmem⟩ := (hw.holds _ hi).exists_insert key value hash
  refine hw.update hes fun entry hentry => ?_
  rcases hmem entry hentry with ⟨_, rfl⟩ | hold
  · rfl
  · exact hw.placed _ hi entry hold

theorem WellPlaced.removeLocked (hw : t.WellPlaced capacity) (key : K) (hash : UInt64) :
    (t.removeLocked key hash capacity).1.WellPlaced capacity := by
  have hi := bucketIndex_lt hash hw.power
  obtain ⟨es, hes, hmem⟩ := (hw.holds _ hi).exists_remove key hash
  exact hw.update hes fun entry hentry => hw.placed _ hi entry (hmem entry hentry)

theorem Models.lookup_of_mem (hm : t.Models capacity F) (hmem : entry ∈ t.entries capacity) :
    F.lookup entry.key = some entry.value :=
  hm.represents.lookup (List.mem_map_of_mem (f := Entry.binding) hmem)

theorem Models.lookup_none (hm : t.Models capacity F)
    (hnone : ∀ entry ∈ t.entries capacity, entry.key ≠ key) : F.lookup key = none := by
  refine hm.represents.lookup_none fun p hp => ?_
  obtain ⟨entry, hentry, rfl⟩ := List.mem_map.mp hp
  exact hnone entry hentry

omit [DecidableEq K] in
/-- A key that is not in the bucket of its hash is not in the table. -/
theorem Valid.absent (hv : t.Valid capacity) (hkeyed : t.Keyed capacity key hash)
    (hnone : ∀ entry ∈ (t (bucketIndex hash capacity)).stored,
      ¬ (entry.hash = hash ∧ entry.key = key)) :
    ∀ entry ∈ t.entries capacity, entry.key ≠ key := by
  intro entry hentry hkey
  have hhash := hkeyed entry hentry hkey
  have hstored := hv.mem_stored hentry
  rw [hhash] at hstored
  exact hnone entry hstored ⟨hhash, hkey⟩

theorem Models.lookup_of_split {l r : List (Entry K V)} (hm : t.Models capacity F)
    (hi : i < capacity) (hstored : (t i).stored = l ++ entry :: r) :
    F.lookup entry.key = some entry.value := by
  refine hm.lookup_of_mem (mem_entries.mpr ⟨i, hi, ?_⟩)
  rw [hstored]
  exact List.mem_append_right l List.mem_cons_self

omit [DecidableEq K] in
/-- An entry in the middle of a bucket as the first binding of its table. -/
theorem represents_middle {l r : List (Entry K V)} :
    FiniteMap.Represents ((l ++ entry :: r ++ rest).map Entry.binding) F ↔
      FiniteMap.Represents (entry.binding :: (l ++ r ++ rest).map Entry.binding) F := by
  have hperm : (l ++ entry :: r ++ rest).Perm (entry :: (l ++ r ++ rest)) :=
    List.perm_middle.append_right rest
  exact ⟨fun h => h.perm (hperm.map _), fun h => h.perm (hperm.symm.map _)⟩

theorem Models.insertLocked (hm : t.Models capacity F) (hkeyed : t.Keyed capacity key hash)
    (value : V) :
    (∃ t', t.insertLocked capacity key value hash = (t', .ok (F.lookup key)) ∧
      t'.Models capacity (F.insert key value)) ∨
    F.lookup key = none ∧ (t (bucketIndex hash capacity)).len = 16 ∧
      t.insertLocked capacity key value hash = (t, .error .bucketOverflow) := by
  have hi := bucketIndex_lt hash hm.valid.power
  have hholds := hm.valid.holds _ hi
  have hplaced := hm.valid.wellPlaced.insertLocked key value hash
  obtain ⟨rest, hold, hnew⟩ := t.exists_rest hi
  have hrep := hm.represents.perm (hold.map Entry.binding)
  rw [Table.insertLocked] at hplaced ⊢
  rcases hholds.insert key value hash with
    ⟨l, entry, r, b, hstored, hhash, hkey, hinsert, hb⟩ | ⟨hnone, hcase⟩
  · have hlookup := hm.lookup_of_split hi hstored
    rw [hkey] at hlookup
    rw [hinsert] at hplaced
    refine .inl ⟨_, ?_, hplaced.models hb (hnew b) ?_⟩
    · rw [hinsert, hlookup]
    · rw [hstored, represents_middle, Entry.binding, hkey] at hrep
      exact represents_middle.mpr (hrep.replace value)
  · have habsent := hm.valid.absent hkeyed hnone
    have hlookup := hm.lookup_none habsent
    rcases hcase with ⟨_, b, hinsert, hb⟩ | ⟨hfull, hinsert⟩
    · rw [hinsert] at hplaced
      refine .inl ⟨_, ?_, hplaced.models hb (hnew b) ?_⟩
      · rw [hinsert, hlookup]
      · have hne : ∀ p ∈ (t.entries capacity).map Entry.binding, p.1 ≠ key := by
          intro p hp
          obtain ⟨e, he, rfl⟩ := List.mem_map.mp hp
          exact habsent e he
        have hcons := hm.represents.insert hne value
        refine hcons.perm ?_
        have hfront : (⟨key, value, hash, 0⟩ :: t.entries capacity).Perm
            ((t (bucketIndex hash capacity)).stored ++ [⟨key, value, hash, 0⟩] ++ rest) := by
          rw [List.append_assoc]
          exact (hold.cons _).trans List.perm_middle.symm
        exact hfront.map Entry.binding
    · refine .inr ⟨hlookup, by rw [hholds.len_eq, hfull], ?_⟩
      rw [hinsert, Function.update_eq_self]

/-- An insertion that returns has found its key, or room in the bucket. -/
theorem Models.not_full_of_insertLocked {t' : Table K V} {old : Option V}
    (hm : t.Models capacity F)
    (hinsert : t.insertLocked capacity key value hash = (t', .ok old)) :
    ¬ (F.lookup key = none ∧ (t (bucketIndex hash capacity)).len = 16) := by
  rintro ⟨hlookup, hfull⟩
  have hi := bucketIndex_lt hash hm.valid.power
  have hholds := hm.valid.holds _ hi
  rcases hholds.insert key value hash with
    ⟨l, entry, r, b, hstored, _, rfl, _, _⟩ | ⟨_, ⟨hroom, _⟩ | ⟨_, hpanic⟩⟩
  · rw [hm.lookup_of_split hi hstored] at hlookup
    cases hlookup
  · have hlen := hholds.len_eq
    omega
  · rw [Table.insertLocked, hpanic] at hinsert
    cases hinsert

theorem Models.getLocked (hm : t.Models capacity F) (hkeyed : t.Keyed capacity key hash) :
    t.getLocked key hash capacity = .ok (F.lookup key) := by
  have hi := bucketIndex_lt hash hm.valid.power
  rcases (hm.valid.holds _ hi).get key hash with
    ⟨entry, hmem, hhash, rfl, hget⟩ | ⟨hnone, hget⟩
  · rw [Table.getLocked, hget, hm.lookup_of_mem (mem_entries.mpr ⟨_, hi, hmem⟩)]
  · rw [Table.getLocked, hget, hm.lookup_none (hm.valid.absent hkeyed hnone)]

theorem Models.removeLocked (hm : t.Models capacity F) (hkeyed : t.Keyed capacity key hash) :
    ∃ t', t.removeLocked key hash capacity = (t', .ok (F.lookup key)) ∧
      t'.Models capacity (F.erase key) := by
  have hi := bucketIndex_lt hash hm.valid.power
  have hholds := hm.valid.holds _ hi
  have hplaced := hm.valid.wellPlaced.removeLocked key hash
  obtain ⟨rest, hold, hnew⟩ := t.exists_rest hi
  have hrep := hm.represents.perm (hold.map Entry.binding)
  rw [Table.removeLocked] at hplaced ⊢
  rcases hholds.remove key hash with
    ⟨l, entry, r, b, hstored, hhash, hkey, hremove, hb⟩ | ⟨hnone, hremove⟩
  · have hlookup := hm.lookup_of_split hi hstored
    rw [hkey] at hlookup
    rw [hremove] at hplaced
    refine ⟨_, ?_, hplaced.models hb (hnew b) ?_⟩
    · rw [hremove, hlookup]
    · rw [hstored, represents_middle, Entry.binding, hkey] at hrep
      exact hrep.erase
  · have hlookup := hm.lookup_none (hm.valid.absent hkeyed hnone)
    refine ⟨t, ?_, ?_⟩
    · rw [hremove, hlookup, Function.update_eq_self]
    · rw [FiniteMap.erase_of_lookup_none hlookup]
      exact hm

end Table

end VelocityX.Map
