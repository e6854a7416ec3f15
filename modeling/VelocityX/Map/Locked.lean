import VelocityX.Map.Concurrent
import VelocityX.Map.Content

/-!
# The locked helpers of the map

Runs of `insert_locked`, `get_locked`, `remove_locked` and `clear` on the table of a map, in
which every key comes with its hash under one function `h`.  An insertion that panics leaves
the table as it was, and the run goes on after it.
-/

namespace VelocityX.Map

variable {K V : Type*}

inductive LockedOp (K V : Type*) where
  | insertLocked (key : K) (value : V)
  | getLocked (key : K)
  | removeLocked (key : K)
  | clear
deriving DecidableEq, Repr

namespace LockedOp

/-- The operation may change what is associated with the key. -/
def Writes (key : K) : LockedOp K V → Prop
  | .insertLocked key' _ => key' = key
  | .removeLocked key' => key' = key
  | .clear => True
  | .getLocked _ => False

variable [DecidableEq K]

def apply (F : Finmap fun _ : K => V) : LockedOp K V → Finmap fun _ : K => V
  | .insertLocked key value => F.insert key value
  | .getLocked _ => F
  | .removeLocked key => F.erase key
  | .clear => ∅

def answer (F : Finmap fun _ : K => V) : LockedOp K V → Option V
  | .insertLocked key _ => F.lookup key
  | .getLocked key => F.lookup key
  | .removeLocked key => F.lookup key
  | .clear => none

theorem lookup_apply {F : Finmap fun _ : K => V} {op : LockedOp K V} {key : K}
    (hop : ¬ op.Writes key) : (op.apply F).lookup key = F.lookup key := by
  cases op with
  | insertLocked key' value => exact Finmap.lookup_insert_of_ne F (Ne.symm hop)
  | getLocked key' => rfl
  | removeLocked key' => exact Finmap.lookup_erase_ne (Ne.symm hop)
  | clear => exact absurd trivial hop

end LockedOp

namespace ConcurrentHashMap

/-- The table stores the associations of `F` and nothing else. -/
structure Stores (h : K → UInt64) (m : ConcurrentHashMap K V) (F : Finmap fun _ : K => V) :
    Prop where
  len_le : ∀ i < m.capacity, (m.table i).len ≤ 16
  used : ∀ i < m.capacity, ∀ j < (m.table i).len, ∃ entry, (m.table i).read j = .ok (some entry)
  free : ∀ i < m.capacity, ∀ j < 16, (m.table i).len ≤ j → (m.table i).read j = .ok none
  distinct : ∀ i < m.capacity, ((m.table i).stored.map Entry.key).Nodup
  hashed : ∀ i < m.capacity, ∀ entry ∈ (m.table i).stored, entry.hash = h entry.key
  placed : ∀ i < m.capacity, ∀ entry ∈ (m.table i).stored,
    bucketIndex (h entry.key) m.capacity = i
  content : ∀ key value, ⟨key, value⟩ ∈ F.entries ↔
    ∃ entry ∈ (m.table (bucketIndex (h key) m.capacity)).stored,
      entry.key = key ∧ entry.value = value

variable [DecidableEq K]

def execLocked (h : K → UInt64) (m : ConcurrentHashMap K V) :
    LockedOp K V → ConcurrentHashMap K V × Except Panic (Option V)
  | .insertLocked key value =>
      let r := m.table.insertLocked m.capacity key value (h key)
      ({ m with table := r.1 }, r.2)
  | .getLocked key => (m, m.table.getLocked key (h key) m.capacity)
  | .removeLocked key =>
      let r := m.table.removeLocked key (h key) m.capacity
      ({ m with table := r.1 }, r.2)
  | .clear => (m.clear, .ok none)

/-- An absent key is inserted into a full bucket. -/
def Overflows (h : K → UInt64) (m : ConcurrentHashMap K V) (F : Finmap fun _ : K => V) :
    LockedOp K V → Prop
  | .insertLocked key _ =>
      F.lookup key = none ∧ (m.table (bucketIndex (h key) m.capacity)).len = 16
  | _ => False

/-- The run answers as the finite map `F`, apart from the insertions that panic. -/
def LockedAsMap (h : K → UInt64) :
    ConcurrentHashMap K V → (Finmap fun _ : K => V) → List (LockedOp K V) → Prop
  | m, F, [] => m.Stores h F
  | m, F, op :: ops =>
      m.Stores h F ∧
        (m.Overflows h F op ∧ m.execLocked h op = (m, .error .bucketOverflow) ∧
            LockedAsMap h m F ops ∨
          ¬ m.Overflows h F op ∧ ∃ m', m.execLocked h op = (m', .ok (op.answer F)) ∧
            (∀ key, ¬ op.Writes key → m'.table.getLocked key (h key) m'.capacity =
              m.table.getLocked key (h key) m.capacity) ∧
            LockedAsMap h m' (op.apply F) ops)

/-! ### The invariant -/

structure Holds (h : K → UInt64) (m : ConcurrentHashMap K V) (F : Finmap fun _ : K => V) :
    Prop where
  models : m.table.Models m.capacity F
  hashed : ∀ entry ∈ m.table.entries m.capacity, entry.hash = h entry.key

variable {h : K → UInt64} {m m' : ConcurrentHashMap K V} {F : Finmap fun _ : K => V}
variable {key : K} {value : V}

omit [DecidableEq K] in
theorem Holds.keyed (hm : m.Holds h F) (key : K) : m.table.Keyed m.capacity key (h key) :=
  Table.keyed_of_hashed hm.hashed key

theorem Holds.getLocked (hm : m.Holds h F) (key : K) :
    m.table.getLocked key (h key) m.capacity = .ok (F.lookup key) :=
  hm.models.getLocked (hm.keyed key)

theorem Holds.content (hm : m.Holds h F) : ⟨key, value⟩ ∈ F.entries ↔
    ∃ entry ∈ (m.table (bucketIndex (h key) m.capacity)).stored,
      entry.key = key ∧ entry.value = value := by
  have hvalid := hm.models.valid
  rw [← Finmap.lookup_eq_some_iff]
  constructor
  · intro hlookup
    by_cases hstored : ∃ entry ∈ m.table.entries m.capacity, entry.key = key
    · obtain ⟨entry, hmem, rfl⟩ := hstored
      have hbucket := hvalid.mem_stored hmem
      rw [hm.hashed entry hmem] at hbucket
      rw [hm.models.lookup_of_mem hmem] at hlookup
      exact ⟨entry, hbucket, rfl, Option.some.inj hlookup⟩
    · rw [hm.models.lookup_none fun entry hmem hkey => hstored ⟨entry, hmem, hkey⟩] at hlookup
      cases hlookup
  · rintro ⟨entry, hbucket, rfl, rfl⟩
    exact hm.models.lookup_of_mem
      (Table.mem_entries.mpr ⟨_, bucketIndex_lt _ hvalid.power, hbucket⟩)

theorem Holds.stores (hm : m.Holds h F) : m.Stores h F := by
  have hvalid := hm.models.valid
  have hashed : ∀ i < m.capacity, ∀ entry ∈ (m.table i).stored, entry.hash = h entry.key :=
    fun i hi entry hentry => hm.hashed entry (Table.mem_entries.mpr ⟨i, hi, hentry⟩)
  refine ⟨?_, ?_, ?_, ?_, hashed, ?_, fun key value => hm.content⟩
  · intro i hi
    rw [(hvalid.holds i hi).len_eq]
    exact (hvalid.holds i hi).length_le
  · intro i hi j hj
    have hholds := hvalid.holds i hi
    have hle := hholds.length_le
    rw [hholds.len_eq] at hj
    exact ⟨_, (hholds.read_eq j (by omega)).trans (congrArg _ (List.getElem?_eq_getElem hj))⟩
  · intro i hi j hj hlen
    have hholds := hvalid.holds i hi
    rw [hholds.len_eq] at hlen
    exact (hholds.read_eq j hj).trans (congrArg _ (List.getElem?_eq_none hlen))
  · intro i hi
    obtain ⟨rest, hperm, _⟩ := m.table.exists_rest hi
    have hnodup := (hperm.map Entry.key).nodup_iff.mp hvalid.nodup
    rw [List.map_append] at hnodup
    exact hnodup.of_append_left
  · intro i hi entry hentry
    rw [← hashed i hi entry hentry]
    exact hvalid.placed i hi entry hentry

omit [DecidableEq K] in
theorem holds_allocated {capacity : Nat} (h : K → UInt64) (hpower : ∃ k, capacity = 2 ^ k) :
    (allocated capacity : ConcurrentHashMap K V).Holds h ∅ := by
  refine ⟨Table.models_allocate hpower, fun entry hentry => ?_⟩
  have hnone : entry ∈ (allocateTable capacity : Table K V).entries capacity := hentry
  rw [Table.entries_allocate] at hnone
  cases hnone

omit [DecidableEq K] in
theorem Holds.clear (hm : m.Holds h F) : m.clear.Holds h ∅ := by
  have hempty : ∀ i < m.capacity, m.clear.table i = .empty := fun i hi => if_pos hi
  refine ⟨Table.models_of_empty hm.models.valid.power hempty, fun entry hentry => ?_⟩
  have hnone : entry ∈ m.clear.table.entries m.capacity := hentry
  rw [Table.entries_of_empty hempty] at hnone
  cases hnone

/-- One operation: a panic on a full bucket, or the step of the finite map. -/
theorem Holds.execLocked (hm : m.Holds h F) (op : LockedOp K V) :
    m.Overflows h F op ∧ m.execLocked h op = (m, .error .bucketOverflow) ∨
      ¬ m.Overflows h F op ∧
        ∃ m', m.execLocked h op = (m', .ok (op.answer F)) ∧ m'.Holds h (op.apply F) := by
  cases op with
  | insertLocked key value =>
    rcases hm.models.insertLocked (hm.keyed key) value with
      ⟨t, hinsert, ht⟩ | ⟨hlookup, hfull, hpanic⟩
    · refine .inr ⟨hm.models.not_full_of_insertLocked hinsert, { m with table := t }, ?_, ht, ?_⟩
      · rw [ConcurrentHashMap.execLocked, hinsert]
        rfl
      · intro entry hentry
        rcases hm.models.valid.mem_insertLocked hinsert hentry with ⟨rfl, hhash⟩ | hold
        · exact hhash
        · exact hm.hashed entry hold
    · refine .inl ⟨⟨hlookup, hfull⟩, ?_⟩
      rw [ConcurrentHashMap.execLocked, hpanic]
  | getLocked key =>
    refine .inr ⟨id, m, ?_, hm⟩
    rw [ConcurrentHashMap.execLocked, hm.getLocked key]
    rfl
  | removeLocked key =>
    obtain ⟨t, hremove, ht⟩ := hm.models.removeLocked (hm.keyed key)
    refine .inr ⟨id, { m with table := t }, ?_, ht, ?_⟩
    · rw [ConcurrentHashMap.execLocked, hremove]
      rfl
    · intro entry hentry
      exact hm.hashed entry (hm.models.valid.mem_removeLocked hremove hentry)
  | clear => exact .inr ⟨id, m.clear, rfl, hm.clear⟩

theorem Holds.lockedAsMap (hm : m.Holds h F) (ops : List (LockedOp K V)) :
    LockedAsMap h m F ops := by
  induction ops generalizing m F with
  | nil => exact hm.stores
  | cons op ops ih =>
    refine ⟨hm.stores, ?_⟩
    rcases hm.execLocked op with ⟨hover, hexec⟩ | ⟨hover, m', hexec, hm'⟩
    · exact .inl ⟨hover, hexec, ih hm⟩
    · refine .inr ⟨hover, m', hexec, fun key hop => ?_, ih hm'⟩
      rw [hm'.getLocked key, hm.getLocked key, LockedOp.lookup_apply hop]

/-- **The table is a finite map** along every run on a freshly allocated table whose capacity is
    a power of two. -/
theorem allocated_lockedAsMap (h : K → UInt64) (k : Nat) (ops : List (LockedOp K V)) :
    LockedAsMap h (allocated (2 ^ k)) ∅ ops :=
  (holds_allocated h ⟨k, rfl⟩).lockedAsMap ops

end ConcurrentHashMap

end VelocityX.Map
