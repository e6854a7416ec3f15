import VelocityX.Map.Allocation

/-!
# The concurrent hash map

The sequential meaning of `ConcurrentHashMap` in `src/map/concurrent.rs`.  The locks are
always free in a sequential run.  A `usize` has 64 bits.  The load factor test
`size > capacity * 0.75` is exact arithmetic here.

`hash_key` builds a new `RandomState` at every call, so the hash of an operation is that
of the key under a seed of its own: each operation of a run carries its seed.  The map
answers as a finite map along the runs in which every operation on a stored key happens
to draw the hash the key was stored under, and every resize migrates every entry once.

The table of a map has as many bytes as `allocate_table` computes from its capacity.  When
that product wraps, or the capacity itself has wrapped to 0, buckets lie outside of it.
-/

namespace VelocityX.Map

variable {K V S : Type*}

/-- What the allocation of a table depends on. -/
structure Heap where
  bucket : Alloc.BucketSize 64
  grants : Alloc.Allocator

namespace ConcurrentHashMap

/-- A map with a freshly allocated table. -/
def allocated (capacity : Nat) : ConcurrentHashMap K V :=
  ⟨allocateTable capacity, capacity, 0, none⟩

/-- `none` when the allocation of the table panics or aborts. -/
def withCapacity (heap : Heap) (capacity : Nat) : Option (ConcurrentHashMap K V) :=
  (Alloc.withCapacity 64 heap.bucket heap.grants capacity).map fun t => allocated t.capacity

def new (heap : Heap) : Option (ConcurrentHashMap K V) := withCapacity heap 16

/-- The table of the map and the bytes that it was allocated. -/
def memory (heap : Heap) (m : ConcurrentHashMap K V) : Alloc.Table :=
  ⟨m.capacity, Word.mul 64 m.capacity heap.bucket.val⟩

/-- All buckets of the table lie in its bytes, and so does every bucket that a hash selects. -/
def InMemory (heap : Heap) (m : ConcurrentHashMap K V) : Prop :=
  m.capacity * heap.bucket.val ≤ (m.memory heap).bytes ∧
    ∀ hash, (Alloc.bucketIndex 64 hash m.capacity + 1) * heap.bucket.val ≤ (m.memory heap).bytes

/-- The new table of a resize can be allocated. -/
def resizeGranted (heap : Heap) (m : ConcurrentHashMap K V) : Bool :=
  (Alloc.tryResize 64 heap.bucket (m.memory heap) heap.grants).isSome

def shouldResize (m : ConcurrentHashMap K V) : Bool := decide (3 * m.capacity < 4 * m.size)

def len (m : ConcurrentHashMap K V) : Nat := m.size

def isEmpty (m : ConcurrentHashMap K V) : Bool := m.len == 0

def clear (m : ConcurrentHashMap K V) : ConcurrentHashMap K V :=
  { m with table := fun i => if i < m.capacity then .empty else m.table i
           size := 0 }

variable [DecidableEq K]

/-- The part of `insert` under the stripe lock. -/
def insertUnderLock (m : ConcurrentHashMap K V) (key : K) (value : V) (hash : UInt64) :
    ConcurrentHashMap K V × Except Panic (Option V) :=
  let r := m.table.insertLocked m.capacity key value hash
  match r.2 with
  | .ok none => ({ m with table := r.1, size := Word.add 64 m.size 1 }, .ok none)
  | result => ({ m with table := r.1 }, result)

/-- `insert`, given the hash of the key; `none` when the migration loop of a resize
    outlasts its fuel. -/
def insert (heap : Heap) (m : ConcurrentHashMap K V) (key : K) (value : V) (hash : UInt64) :
    Option (ConcurrentHashMap K V × Except Panic (Option V)) :=
  if m.shouldResize then
    -- `try_resize` allocates the new table once its compare-exchange has succeeded
    if m.resizeState.isNone && !m.resizeGranted heap then
      some (m, .error .allocation)
    else
      m.tryResize.map fun m => m.insertUnderLock key value hash
  else
    some (m.insertUnderLock key value hash)

/-- `get`, given the hashes that `hash_key` returns to the call and to its retries. -/
def get (m : ConcurrentHashMap K V) (key : K) :
    List UInt64 → Option (ConcurrentHashMap K V × Except Panic (Option V))
  | [] => none
  | hash :: hashes =>
      match m.resizeState with
      | none => some (m, m.table.getLocked key hash m.capacity)
      | some st => (m.helpResize st).bind fun m => m.get key hashes

def remove (m : ConcurrentHashMap K V) (key : K) (hash : UInt64) :
    ConcurrentHashMap K V × Except Panic (Option V) :=
  let r := m.table.removeLocked key hash m.capacity
  match r.2 with
  | .ok (some value) => ({ m with table := r.1, size := Word.sub 64 m.size 1 }, .ok (some value))
  | result => ({ m with table := r.1 }, result)

/-- An insertion changes the table and, when the key is new, the size. -/
theorem insertUnderLock_eq (m : ConcurrentHashMap K V) (key : K) (value : V) (hash : UInt64) :
    ∃ size, m.insertUnderLock key value hash =
      ({ m with table := (m.table.insertLocked m.capacity key value hash).1, size := size },
        (m.table.insertLocked m.capacity key value hash).2) := by
  rw [insertUnderLock]
  rcases m.table.insertLocked m.capacity key value hash with ⟨t, _ | _ | old⟩
  · exact ⟨_, rfl⟩
  · exact ⟨_, rfl⟩
  · exact ⟨_, rfl⟩

/-- Below the load factor an insertion allocates nothing. -/
theorem insert_of_room (heap : Heap) {m : ConcurrentHashMap K V} (hroom : m.shouldResize = false)
    (key : K) (value : V) (hash : UInt64) :
    m.insert heap key value hash = some (m.insertUnderLock key value hash) := by
  simp [insert, hroom]

end ConcurrentHashMap

/-! ### Runs -/

inductive Op (K V S : Type*) where
  | insert (seed : S) (key : K) (value : V)
  | get (seed : S) (key : K)
  | remove (seed : S) (key : K)
  | clear
  | len
deriving DecidableEq, Repr

inductive Ret (V : Type*) where
  | unit
  | value (value : Option V)
  | count (n : Nat)
deriving DecidableEq, Repr

namespace ConcurrentHashMap

variable [DecidableEq K]

/-- An operation of a run, where `h seed key` is the hash of a key under a seed. -/
def exec (heap : Heap) (h : S → K → UInt64) (m : ConcurrentHashMap K V) :
    Op K V S → Option (ConcurrentHashMap K V × Except Panic (Ret V))
  | .insert seed key value =>
      (m.insert heap key value (h seed key)).map fun r => (r.1, r.2.map .value)
  | .get seed key => (m.get key [h seed key]).map fun r => (r.1, r.2.map .value)
  | .remove seed key =>
      let r := m.remove key (h seed key)
      some (r.1, r.2.map .value)
  | .clear => some (m.clear, .ok .unit)
  | .len => some (m, .ok (.count m.len))

/-- The state after an operation that does not panic. -/
def step (heap : Heap) (h : S → K → UInt64) (m : ConcurrentHashMap K V) (op : Op K V S) :
    Option (ConcurrentHashMap K V) :=
  match m.exec heap h op with
  | some (m', .ok _) => some m'
  | _ => none

end ConcurrentHashMap

namespace Op

variable [DecidableEq K]

/-- What the operation does to a finite map. -/
def apply (F : Finmap fun _ : K => V) : Op K V S → Finmap fun _ : K => V
  | .insert _ key value => F.insert key value
  | .remove _ key => F.erase key
  | .clear => ∅
  | .get _ _ => F
  | .len => F

/-- What the operation returns on a finite map. -/
def answer (F : Finmap fun _ : K => V) : Op K V S → Ret V
  | .insert _ key _ => .value (F.lookup key)
  | .get _ key => .value (F.lookup key)
  | .remove _ key => .value (F.lookup key)
  | .clear => .unit
  | .len => .count F.keys.card

/-- The operation may change what is associated with the key. -/
def Writes (key : K) : Op K V S → Prop
  | .insert _ key' _ => key' = key
  | .remove _ key' => key' = key
  | .clear => True
  | .get _ _ => False
  | .len => False

variable {F : Finmap fun _ : K => V} {op : Op K V S} {key : K} {value : V}

theorem lookup_apply (hop : ¬ op.Writes key) : (op.apply F).lookup key = F.lookup key := by
  cases op with
  | insert seed key' value => exact Finmap.lookup_insert_of_ne F (Ne.symm hop)
  | remove seed key' => exact Finmap.lookup_erase_ne (Ne.symm hop)
  | clear => exact absurd trivial hop
  | get seed key' => rfl
  | len => rfl

/-- The latest operation that writes the key inserts the value. -/
def Latest (key : K) (value : V) (ops : List (Op K V S)) : Prop :=
  ∃ pre seed post, ops = pre ++ .insert seed key value :: post ∧ ∀ op ∈ post, ¬ op.Writes key

omit [DecidableEq K] in
theorem latest_concat_of_writes {ops : List (Op K V S)} (hop : op.Writes key) :
    Latest key value (ops ++ [op]) ↔ ∃ seed, op = .insert seed key value := by
  constructor
  · rintro ⟨pre, seed, post, heq, hpost⟩
    rcases List.eq_nil_or_concat post with rfl | ⟨post, last, rfl⟩
    · exact ⟨seed, (List.cons.inj (List.append_inj' heq rfl).2).1⟩
    · rw [List.concat_eq_append, ← List.cons_append, ← List.append_assoc] at heq
      obtain rfl : op = last := (List.cons.inj (List.append_inj' heq rfl).2).1
      exact absurd hop (hpost op (by simp))
  · rintro ⟨seed, rfl⟩
    exact ⟨ops, seed, [], rfl, nofun⟩

omit [DecidableEq K] in
theorem latest_concat_of_not_writes {ops : List (Op K V S)} (hop : ¬ op.Writes key) :
    Latest key value (ops ++ [op]) ↔ Latest key value ops := by
  constructor
  · rintro ⟨pre, seed, post, heq, hpost⟩
    rcases List.eq_nil_or_concat post with rfl | ⟨post, last, rfl⟩
    · obtain rfl : op = .insert seed key value := (List.cons.inj (List.append_inj' heq rfl).2).1
      exact absurd rfl hop
    · rw [List.concat_eq_append, ← List.cons_append, ← List.append_assoc] at heq
      exact ⟨pre, seed, post, (List.append_inj' heq rfl).1, fun o ho => hpost o (by simp [ho])⟩
  · rintro ⟨pre, seed, post, rfl, hpost⟩
    refine ⟨pre, seed, post ++ [op], by simp, fun o ho => ?_⟩
    rcases List.mem_append.mp ho with ho | ho
    · exact hpost o ho
    · rw [List.mem_singleton.mp ho]
      exact hop

/-- A key is associated with the value of its latest insertion, unless a removal or a
    clear came after it. -/
theorem lookup_foldl_apply (ops : List (Op K V S)) :
    (ops.foldl apply ∅).lookup key = some value ↔ Latest key value ops := by
  induction ops using List.reverseRecOn with
  | nil => simp [Latest]
  | append_singleton ops op ih =>
    rw [List.foldl_append, List.foldl_cons, List.foldl_nil]
    by_cases hop : op.Writes key
    · rw [latest_concat_of_writes hop]
      cases op with
      | insert seed key' value' =>
        obtain rfl : key' = key := hop
        rw [apply, Finmap.lookup_insert]
        simp
      | remove seed key' =>
        obtain rfl : key' = key := hop
        rw [apply, Finmap.lookup_erase]
        simp
      | clear => simp [apply]
      | get seed key' => exact hop.elim
      | len => exact hop.elim
    · rw [lookup_apply hop, latest_concat_of_not_writes hop]
      exact ih

end Op

/-! ### The map as a finite map -/

namespace ConcurrentHashMap

variable [DecidableEq K]

/-- Up to the first panic, if any, the run answers as the finite map `F`. -/
def ActsAsMap (heap : Heap) (h : S → K → UInt64) :
    ConcurrentHashMap K V → (Finmap fun _ : K => V) → List (Op K V S) → Prop
  | _, _, [] => True
  | m, F, op :: ops =>
      ∃ m' r, m.exec heap h op = some (m', r) ∧
        (r = .error .bucketOverflow ∨
          r = .ok (op.answer F) ∧ ActsAsMap heap h m' (op.apply F) ops)

omit [DecidableEq K] in
/-- The operation draws the hash its key is stored under, if it is stored, and the resize
    that it starts, if any, gets its table and migrates every entry once. -/
def Consistent (heap : Heap) (h : S → K → UInt64) (m : ConcurrentHashMap K V) :
    Op K V S → Prop
  | .insert seed key _ =>
      m.table.Keyed m.capacity key (h seed key) ∧
        (m.shouldResize → m.SecondPassRefused ∧ m.resizeGranted heap)
  | .get seed key => m.table.Keyed m.capacity key (h seed key)
  | .remove seed key => m.table.Keyed m.capacity key (h seed key)
  | .clear => True
  | .len => True

omit [DecidableEq K] in
structure Models (heap : Heap) (m : ConcurrentHashMap K V) (F : Finmap fun _ : K => V) :
    Prop where
  table : m.table.Models m.capacity F
  size_eq : m.size = F.keys.card
  idle : m.resizeState = none
  sound : (m.memory heap).Sound 64 heap.bucket

variable {heap : Heap} {m : ConcurrentHashMap K V} {F : Finmap fun _ : K => V}
variable {h : S → K → UInt64} {key : K} {hash : UInt64} {requested : Nat}

/-! ### The memory of a table -/

section Memory

omit [DecidableEq K]

theorem withCapacity_eq_some : withCapacity heap requested = some m ↔
    ∃ t, Alloc.withCapacity 64 heap.bucket heap.grants requested = some t ∧
      allocated t.capacity = m := Option.map_eq_some_iff

/-- A table that did not wrap is in memory. -/
theorem inMemory_of_sound (hm : (m.memory heap).Sound 64 heap.bucket) : m.InMemory heap := by
  have hexact := hm.exact (Nat.zero_le _)
  exact ⟨hexact.bytes, hexact.indexed⟩

/-- Sixteen entries for each bucket are fewer than a word can count. -/
theorem entries_lt_of_sound (hm : (m.memory heap).Sound 64 heap.bucket) :
    m.capacity * 16 < 2 ^ 64 := by
  have hlt : 2 * m.capacity * heap.bucket.val < 2 ^ 64 := hm.capacity_lt
  have hle : 2 * m.capacity * 64 ≤ 2 * m.capacity * heap.bucket.val :=
    Nat.mul_le_mul_left _ heap.bucket.le
  omega

/-- A new table that is granted does not wrap either. -/
theorem sound_resized (hm : (m.memory heap).Sound 64 heap.bucket)
    (hgranted : m.resizeGranted heap) : (m.resized.memory heap).Sound 64 heap.bucket := by
  obtain ⟨t, ht⟩ := Option.isSome_iff_exists.mp hgranted
  obtain ⟨hsound, hcapacity⟩ := hm.tryResize ht
  have hsame : m.resized.memory heap = t := by
    have hbytes := hsound.bytes
    have hlt := Word.lt_of_lt_half hsound.lt
    have hdouble : t.capacity = m.capacity * 2 := hcapacity.trans (Nat.mul_comm ..)
    rw [hbytes, hdouble] at hlt
    cases t
    simp only at hbytes hdouble
    simp only [memory, resized, hbytes, hdouble, Word.mul_of_lt hlt]
  rw [hsame]
  exact hsound

/-- A request for a power of two is granted as it is. -/
theorem withCapacity_of_power {capacity : Nat} (hpower : ∃ k, capacity = 2 ^ k)
    (hsize : capacity * heap.bucket.val < 2 ^ 63)
    (hgrants : heap.grants (capacity * heap.bucket.val) = true) :
    (withCapacity heap capacity : Option (ConcurrentHashMap K V)) = some (allocated capacity) := by
  have hbytes : Word.mul 64 capacity heap.bucket.val = capacity * heap.bucket.val :=
    Word.mul_of_lt (by omega)
  have htable : Alloc.allocateTable 64 heap.bucket heap.grants capacity =
      some ⟨capacity, capacity * heap.bucket.val⟩ := by
    rw [Alloc.allocateTable_eq_some, hbytes]
    exact ⟨hsize, hgrants, rfl⟩
  have hsame : (if capacity.isPowerOfTwo then capacity else Alloc.nextPowerOfTwo 64 capacity) =
      capacity := if_pos hpower
  rw [withCapacity, Alloc.withCapacity, hsame, htable]
  rfl

theorem models_withCapacity (hm : withCapacity heap requested = some m)
    (hsize : roundUp requested * heap.bucket.val < 2 ^ 64) : m.Models heap ∅ := by
  obtain ⟨t, ht, rfl⟩ := withCapacity_eq_some.mp hm
  obtain ⟨hsound, hcapacity⟩ := Alloc.sound_of_withCapacity hsize ht
  have hmemory : (allocated t.capacity : ConcurrentHashMap K V).memory heap = t := by
    have hbytes := hsound.bytes
    have hlt := Word.lt_of_lt_half hsound.lt
    rw [hbytes] at hlt
    cases t
    simp only at hbytes
    simp only [memory, allocated, hbytes, Word.mul_of_lt hlt]
  exact ⟨Table.models_allocate hsound.power, rfl, rfl, hmemory ▸ hsound⟩

/-- The map that `insert` locks the stripe of. -/
def ready (m : ConcurrentHashMap K V) : ConcurrentHashMap K V :=
  if m.shouldResize then m.resized else m

theorem sound_ready (hsound : (m.memory heap).Sound 64 heap.bucket)
    (hgranted : m.shouldResize → m.resizeGranted heap) :
    (m.ready.memory heap).Sound 64 heap.bucket := by
  unfold ConcurrentHashMap.ready
  split
  next hfull => exact sound_resized hsound (hgranted hfull)
  next => exact hsound

end Memory
/-- The insertion is the one into the map with the new table, which has to be allocated. -/
theorem insert_eq (hpower : ∃ k, m.capacity = 2 ^ k) (hidle : m.resizeState = none) (key : K)
    (value : V) (hash : UInt64) :
    m.insert heap key value hash =
      if m.shouldResize → m.resizeGranted heap then some (m.ready.insertUnderLock key value hash)
      else some (m, .error .allocation) := by
  unfold ready
  by_cases hfull : m.shouldResize
  · cases hgranted : m.resizeGranted heap with
    | true => simp [insert, hfull, hgranted, tryResize_eq hpower hidle]
    | false => simp [insert, hfull, hgranted, hidle]
  · simp [insert_of_room heap (Bool.eq_false_of_not_eq_true hfull), hfull]

omit [DecidableEq K] in
theorem Models.size_lt (hm : m.Models heap F) : F.keys.card < 2 ^ 64 := by
  rw [hm.table.represents.card_keys, List.length_map]
  exact Nat.lt_of_le_of_lt hm.table.valid.entries_length_le (entries_lt_of_sound hm.sound)

/-! ### The operations on what a map stands for -/

omit [DecidableEq K] in
theorem Models.resized (hm : m.Models heap F) (hrefused : m.SecondPassRefused)
    (hgranted : m.resizeGranted heap) : m.resized.Models heap F := by
  have hperm := (resized_entries hm.table.valid hrefused).map Entry.binding
  rw [List.map_map] at hperm
  exact ⟨⟨resized_valid hm.table.valid hrefused, hm.table.represents.perm hperm.symm⟩,
    hm.size_eq, rfl, sound_resized hm.sound hgranted⟩

omit [DecidableEq K] in
theorem keyed_resized (hm : m.Models heap F) (hrefused : m.SecondPassRefused)
    (hkeyed : m.table.Keyed m.capacity key hash) :
    m.resized.table.Keyed m.resized.capacity key hash := by
  intro entry hentry hkey
  obtain ⟨e, he, rfl⟩ :=
    List.mem_map.mp ((resized_entries hm.table.valid hrefused).mem_iff.mp hentry)
  exact hkeyed e he hkey

theorem Models.insertUnderLock (hm : m.Models heap F)
    (hkeyed : m.table.Keyed m.capacity key hash) (value : V) :
    ∃ m' r, m.insertUnderLock key value hash = (m', r) ∧
      (r = .error .bucketOverflow ∨
        r = .ok (F.lookup key) ∧ m'.Models heap (F.insert key value)) := by
  rcases hm.table.insertLocked hkeyed value with ⟨t, hinsert, ht⟩ | ⟨_, _, hinsert⟩
  · cases hlookup : F.lookup key with
    | none =>
      have hcard := FiniteMap.card_keys_insert_of_none hlookup (v := value)
      have hmodels : Models heap { m with table := t, size := m.size + 1 } (F.insert key value) :=
        ⟨ht, by rw [hcard, hm.size_eq], hm.idle, hm.sound⟩
      have hlt := hmodels.size_lt
      rw [hcard, ← hm.size_eq] at hlt
      refine ⟨_, _, ?_, .inr ⟨rfl, hmodels⟩⟩
      simp only [ConcurrentHashMap.insertUnderLock, hinsert, hlookup, Word.add_of_lt hlt]
    | some old =>
      refine ⟨{ m with table := t }, _, ?_, .inr ⟨rfl, ht, ?_, hm.idle, hm.sound⟩⟩
      · simp only [ConcurrentHashMap.insertUnderLock, hinsert, hlookup]
      · rw [FiniteMap.card_keys_insert_of_some hlookup, hm.size_eq]
  · refine ⟨m, _, ?_, .inl rfl⟩
    simp only [ConcurrentHashMap.insertUnderLock, hinsert]

theorem Models.insert (hm : m.Models heap F) (hkeyed : m.table.Keyed m.capacity key hash)
    (hresize : m.shouldResize → m.SecondPassRefused ∧ m.resizeGranted heap) (value : V) :
    ∃ m' r, m.insert heap key value hash = some (m', r) ∧
      (r = .error .bucketOverflow ∨
        r = .ok (F.lookup key) ∧ m'.Models heap (F.insert key value)) := by
  rw [insert_eq hm.table.valid.power hm.idle, if_pos fun hfull => (hresize hfull).2]
  obtain ⟨hready, hkeyed'⟩ : m.ready.Models heap F ∧
      m.ready.table.Keyed m.ready.capacity key hash := by
    unfold ready
    split
    next hfull =>
      obtain ⟨hrefused, hgranted⟩ := hresize hfull
      exact ⟨hm.resized hrefused hgranted, keyed_resized hm hrefused hkeyed⟩
    next => exact ⟨hm, hkeyed⟩
  obtain ⟨m', r, hinsert, hcase⟩ := hready.insertUnderLock hkeyed' value
  exact ⟨m', r, congrArg some hinsert, hcase⟩

theorem Models.get (hm : m.Models heap F) (hkeyed : m.table.Keyed m.capacity key hash) :
    m.get key [hash] = some (m, .ok (F.lookup key)) := by
  rw [ConcurrentHashMap.get, hm.idle]
  exact congrArg (fun r => some (m, r)) (hm.table.getLocked hkeyed)

theorem Models.remove (hm : m.Models heap F) (hkeyed : m.table.Keyed m.capacity key hash) :
    ∃ m', m.remove key hash = (m', .ok (F.lookup key)) ∧ m'.Models heap (F.erase key) := by
  obtain ⟨t, hremove, ht⟩ := hm.table.removeLocked hkeyed
  rw [ConcurrentHashMap.remove, hremove]
  cases hlookup : F.lookup key with
  | none =>
    refine ⟨_, rfl, ht, ?_, hm.idle, hm.sound⟩
    show m.size = _
    rw [FiniteMap.erase_of_lookup_none hlookup, hm.size_eq]
  | some value =>
    have hcard := FiniteMap.card_keys_erase_of_some hlookup
    have hpos : 0 < F.keys.card :=
      Finset.card_pos.mpr ⟨key, Finmap.mem_keys.mpr (Finmap.mem_of_lookup_eq_some hlookup)⟩
    refine ⟨_, rfl, ht, ?_, hm.idle, hm.sound⟩
    show Word.sub 64 m.size 1 = _
    rw [hcard, hm.size_eq, Word.sub_of_le hpos hm.size_lt]

omit [DecidableEq K] in
theorem Models.clear (hm : m.Models heap F) : m.clear.Models heap ∅ :=
  ⟨Table.models_of_empty hm.table.valid.power fun _ hi => if_pos hi, rfl, hm.idle, hm.sound⟩

/-- One operation that is consistent with the state before it. -/
theorem Models.exec (hm : m.Models heap F) {op : Op K V S} (hc : m.Consistent heap h op) :
    ∃ m' r, m.exec heap h op = some (m', r) ∧
      (r = .error .bucketOverflow ∨
        r = .ok (op.answer F) ∧ m'.Models heap (op.apply F)) := by
  cases op with
  | insert seed key value =>
    obtain ⟨m', r, hinsert, hcase⟩ := hm.insert hc.1 hc.2 value
    rw [ConcurrentHashMap.exec, hinsert]
    rcases hcase with rfl | ⟨rfl, hm'⟩
    · exact ⟨_, _, rfl, .inl rfl⟩
    · exact ⟨_, _, rfl, .inr ⟨rfl, hm'⟩⟩
  | get seed key =>
    rw [ConcurrentHashMap.exec, hm.get hc]
    exact ⟨_, _, rfl, .inr ⟨rfl, hm⟩⟩
  | remove seed key =>
    obtain ⟨m', hremove, hm'⟩ := hm.remove hc
    rw [ConcurrentHashMap.exec, hremove]
    exact ⟨_, _, rfl, .inr ⟨rfl, hm'⟩⟩
  | clear => exact ⟨_, _, rfl, .inr ⟨rfl, hm.clear⟩⟩
  | len =>
    refine ⟨_, _, rfl, .inr ⟨?_, hm⟩⟩
    rw [len, hm.size_eq]
    rfl

theorem Models.step {op : Op K V S} {m' : ConcurrentHashMap K V} (hm : m.Models heap F)
    (hc : m.Consistent heap h op) (hstep : m.step heap h op = some m') :
    m'.Models heap (op.apply F) := by
  obtain ⟨m₁, r, hexec, hcase⟩ := hm.exec hc
  rw [ConcurrentHashMap.step, hexec] at hstep
  rcases hcase with rfl | ⟨rfl, hm₁⟩
  · cases hstep
  · cases hstep
    exact hm₁

/-! ### Runs -/

theorem Models.actsAsMap (hm : m.Models heap F) {ops : List (Op K V S)}
    (hc : Transition.Along (ConcurrentHashMap.step heap h) (Consistent heap h) m ops) :
    ActsAsMap heap h m F ops := by
  induction ops generalizing m F with
  | nil => trivial
  | cons op ops ih =>
    obtain ⟨m', r, hexec, hcase⟩ := hm.exec hc.1
    refine ⟨m', r, hexec, ?_⟩
    rcases hcase with rfl | ⟨rfl, hm'⟩
    · exact .inl rfl
    · refine .inr ⟨rfl, ih hm' (hc.2 m' ?_)⟩
      rw [ConcurrentHashMap.step, hexec]

/-- **The map is a finite map** along every run from a fresh map whose table did not wrap, whose
    operations draw the hashes their keys are stored under and whose resizes get their tables and
    migrate every entry once; every table that it works on lies in the memory allocated for it. -/
theorem withCapacity_actsAsMap (hm : withCapacity heap requested = some m)
    (hsize : roundUp requested * heap.bucket.val < 2 ^ 64) (ops : List (Op K V S))
    (hc : Transition.Along (step heap h) (Consistent heap h) m ops) :
    ActsAsMap heap h m ∅ ops ∧ Transition.Throughout (step heap h) (InMemory heap) m ops := by
  have hmodels := models_withCapacity hm hsize
  refine ⟨hmodels.actsAsMap hc, ?_⟩
  refine Transition.throughout_of_along (I := fun m => ∃ F, m.Models heap F) ?_ ?_
    ⟨∅, hmodels⟩ hc
  · rintro m op m' ⟨F, hm⟩ hc hstep
    exact ⟨op.apply F, hm.step hc hstep⟩
  · rintro m ⟨F, hm⟩
    exact inMemory_of_sound hm.sound

/-- Keys and values of 64 bits, and an allocator that refuses nothing. -/
def wordHeap : Heap := ⟨Alloc.wordBuckets, fun _ => true⟩

theorem withCapacity_actsAsMap_everyCall :
    ∃ m, withCapacity wordHeap 4 = some m ∧
      ActsAsMap wordHeap (fun (_ : Unit) (key : Nat) => key.toUInt64) m ∅
        [.insert () 5 7, .insert () 5 8, .get () 5, .len, .remove () 5, .get () 5, .clear] := by
  have hm : (withCapacity wordHeap 4 : Option (ConcurrentHashMap Nat Nat)) = some (allocated 4) :=
    withCapacity_of_power ⟨2, rfl⟩ (by decide) rfl
  have hsize : roundUp 4 * wordHeap.bucket.val < 2 ^ 64 := by
    have hrounded : roundUp 4 = 4 := if_pos ⟨2, rfl⟩
    rw [hrounded]
    decide
  refine ⟨_, hm, (withCapacity_actsAsMap hm hsize _ ?_).1⟩
  refine ⟨⟨by show Table.Keyed _ _ _ _; decide, fun hfull => absurd hfull (by decide)⟩, ?_⟩
  rintro m ⟨⟩
  refine ⟨⟨by show Table.Keyed _ _ _ _; decide, fun hfull => absurd hfull (by decide)⟩, ?_⟩
  rintro m ⟨⟩
  refine ⟨by show Table.Keyed _ _ _ _; decide, ?_⟩
  rintro m ⟨⟩
  refine ⟨trivial, ?_⟩
  rintro m ⟨⟩
  refine ⟨by show Table.Keyed _ _ _ _; decide, ?_⟩
  rintro m ⟨⟩
  refine ⟨by show Table.Keyed _ _ _ _; decide, ?_⟩
  rintro m ⟨⟩
  exact ⟨trivial, fun _ _ => trivial⟩

/-- The second call draws another seed, under which the key is not found. -/
theorem get_misses_insert :
    ∃ m, withCapacity wordHeap 16 = some m ∧
      ¬ ActsAsMap wordHeap (fun seed (_ : Nat) => if seed then (1 : UInt64) else 0) m ∅
        [.insert false 5 7, .get true 5] := by
  refine ⟨_, withCapacity_of_power ⟨4, rfl⟩ (by decide) rfl, ?_⟩
  rintro ⟨m₁, r₁, h₁, hcase⟩
  cases h₁
  rcases hcase with hpanic | ⟨_, m₂, r₂, h₂, hcase⟩
  · cases hpanic
  · cases h₂
    rcases hcase with hpanic | ⟨hanswer, _⟩
    · cases hpanic
    · cases hanswer

end ConcurrentHashMap

end VelocityX.Map

