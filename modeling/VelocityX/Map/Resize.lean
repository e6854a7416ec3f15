import VelocityX.Map.Table

/-!
# Resizing the concurrent hash map

`try_resize`, `help_resize`, `migrate_bucket` and `complete_resize` of
`src/map/concurrent.rs`, run by one thread.  The compare-exchange of `try_resize`
replaces null by null, so it succeeds exactly when no resize state is stored.

The migration loop takes the old value of `progress` from `fetch_add`, not the new one.
So it lags one chunk behind: it migrates the first chunk of sixteen buckets twice and
every later chunk once.
-/

namespace VelocityX.Map

variable {K V : Type*}

structure ResizeState (K V : Type*) where
  oldTable : Table K V
  newTable : Table K V
  oldCapacity : Nat
  newCapacity : Nat
  progress : Nat

structure ConcurrentHashMap (K V : Type*) where
  table : Table K V
  capacity : Nat
  size : Nat
  resizeState : Option (ResizeState K V)

/-- The copy of an entry that the migration makes. -/
def Entry.settle (entry : Entry K V) : Entry K V := { entry with distance := 0 }

/-- Migrate one entry into a table of `capacity` buckets; it is skipped when its bucket
    is full. -/
def Table.place (capacity : Nat) (t : Table K V) (entry : Entry K V) : Table K V :=
  let i := bucketIndex entry.hash capacity
  if (t i).len < 16 then Function.update t i ((t i).push entry.settle) else t

namespace ResizeState

def migrateBucket (st : ResizeState K V) (i : Nat) : ResizeState K V :=
  { st with
    newTable := (st.oldTable i).stored.foldl (Table.place st.newCapacity) st.newTable }

/-- The loop `for i in migrated..next_migrated`. -/
def migrateRange (st : ResizeState K V) (migrated nextMigrated : Nat) : ResizeState K V :=
  (List.range' migrated (nextMigrated - migrated)).foldl migrateBucket st

/-- `progress.fetch_add(n)`, which returns the value before the addition. -/
def fetchAdd (st : ResizeState K V) (n : Nat) : Nat × ResizeState K V :=
  (st.progress, { st with progress := st.progress + n })

/-- The loop `while migrated < old_capacity`; `none` when the fuel runs out. -/
def migrateLoop : Nat → Nat → ResizeState K V → Option (ResizeState K V)
  | 0, _, _ => none
  | fuel + 1, migrated, st =>
      if migrated < st.oldCapacity then
        let nextMigrated := min (migrated + 16) st.oldCapacity
        let r := (st.migrateRange migrated nextMigrated).fetchAdd (nextMigrated - migrated)
        migrateLoop fuel r.1 r.2
      else
        some st

end ResizeState

namespace ConcurrentHashMap

def completeResize (m : ConcurrentHashMap K V) (st : ResizeState K V) : ConcurrentHashMap K V :=
  { m with table := st.newTable, capacity := st.newCapacity, resizeState := none }

def helpResize (m : ConcurrentHashMap K V) (st : ResizeState K V) :
    Option (ConcurrentHashMap K V) :=
  (ResizeState.migrateLoop (st.oldCapacity + 2) st.progress st).map m.completeResize

def tryResize (m : ConcurrentHashMap K V) : Option (ConcurrentHashMap K V) :=
  match m.resizeState with
  | some _ => some m
  | none =>
      let newCapacity := m.capacity * 2
      let st : ResizeState K V := ⟨m.table, allocateTable newCapacity, m.capacity, newCapacity, 0⟩
      helpResize { m with resizeState := some st } st

end ConcurrentHashMap

/-! ### The order of the migration -/

namespace ResizeState

variable {st : ResizeState K V} {migrated n fuel : Nat} {ks ks' : List Nat}

/-- The state after the buckets `ks` have been migrated. -/
def after (st : ResizeState K V) (ks : List Nat) (progress : Nat) : ResizeState K V :=
  { st with
    newTable := (ks.flatMap fun i => (st.oldTable i).stored).foldl
      (Table.place st.newCapacity) st.newTable
    progress := progress }

@[simp] theorem after_progress {progress : Nat} : (st.after ks progress).progress = progress := rfl

@[simp] theorem after_oldCapacity {progress : Nat} :
    (st.after ks progress).oldCapacity = st.oldCapacity := rfl

theorem after_after {p p' : Nat} : (st.after ks p).after ks' p' = st.after (ks ++ ks') p' := by
  simp only [after, List.flatMap_append, List.foldl_append]

theorem foldl_migrateBucket (ks : List Nat) (st : ResizeState K V) :
    ks.foldl migrateBucket st = st.after ks st.progress := by
  induction ks generalizing st with
  | nil => rfl
  | cons k ks ih =>
    have hfirst : st.migrateBucket k = st.after [k] st.progress := by
      simp only [migrateBucket, after, List.flatMap_singleton]
    rw [List.foldl_cons, ih, hfirst, after_progress, after_after]
    rfl

/-- One iteration of the loop, which migrates `n` buckets. -/
theorem migrateLoop_succ (st : ResizeState K V) (hlt : migrated < st.oldCapacity)
    (hn : min (migrated + 16) st.oldCapacity = migrated + n) :
    migrateLoop (fuel + 1) migrated st =
      migrateLoop fuel st.progress (st.after (List.range' migrated n) (st.progress + n)) := by
  have hwidth : migrated + n - migrated = n := by omega
  rw [migrateLoop, if_pos hlt]
  simp only [fetchAdd, hn, migrateRange, hwidth, foldl_migrateBucket]
  rfl

/-- From the second chunk on `migrated` is one chunk behind `progress`, and the loop comes
    to every bucket once. -/
theorem migrateLoop_chunks (st : ResizeState K V) (migrated fuel : Nat)
    (hprogress : 0 < n → st.progress = migrated + 16)
    (hcapacity : st.oldCapacity = migrated + 16 * n) (hfuel : n < fuel) :
    ∃ progress, migrateLoop fuel migrated st =
      some (st.after (List.range' migrated (16 * n)) progress) := by
  induction n generalizing st migrated fuel with
  | zero =>
    obtain ⟨fuel, rfl⟩ := Nat.exists_eq_succ_of_ne_zero (Nat.ne_of_gt hfuel)
    refine ⟨st.progress, ?_⟩
    rw [migrateLoop, if_neg (by omega)]
    rfl
  | succ n ih =>
    obtain ⟨fuel, rfl⟩ := Nat.exists_eq_succ_of_ne_zero (Nat.ne_of_gt (Nat.zero_lt_of_lt hfuel))
    obtain ⟨progress, hrest⟩ := ih (st.after (List.range' migrated 16) (migrated + 16 + 16))
      (migrated + 16) fuel (fun _ => rfl) (by rw [after_oldCapacity]; omega) (by omega)
    have happend : List.range' migrated 16 ++ List.range' (migrated + 16) (16 * n) =
        List.range' migrated (16 * (n + 1)) := by
      rw [List.range'_append_1, Nat.mul_succ, Nat.add_comm 16]
    refine ⟨progress, ?_⟩
    rw [migrateLoop_succ (n := 16) st (by omega) (by omega), hprogress (Nat.succ_pos n), hrest,
      after_after, happend]

/-- The buckets in the order in which the loop migrates them. -/
def visited (capacity : Nat) : List Nat :=
  List.range (min 16 capacity) ++ List.range (min 16 capacity) ++
    List.range' (min 16 capacity) (capacity - min 16 capacity)

/-- A power of two is at most one chunk or a number of whole chunks. -/
theorem exists_chunks {capacity : Nat} (hpower : ∃ k, capacity = 2 ^ k) :
    ∃ n, capacity = min 16 capacity + 16 * n ∧ (0 < n → min 16 capacity = 16) := by
  obtain ⟨k, rfl⟩ := hpower
  by_cases hk : k ≤ 4
  · have hle : 2 ^ k ≤ 2 ^ 4 := Nat.pow_le_pow_right (by omega) hk
    exact ⟨0, by omega, nofun⟩
  · obtain ⟨j, rfl⟩ : ∃ j, k = 4 + j := ⟨k - 4, by omega⟩
    have hpos : 0 < 2 ^ j := Nat.two_pow_pos j
    rw [Nat.pow_add]
    exact ⟨2 ^ j - 1, by omega, fun _ => by omega⟩

theorem migrateLoop_eq (st : ResizeState K V) (hpower : ∃ k, st.oldCapacity = 2 ^ k)
    (hprogress : st.progress = 0) :
    ∃ progress, migrateLoop (st.oldCapacity + 2) 0 st =
      some (st.after (visited st.oldCapacity) progress) := by
  obtain ⟨n, hcapacity, hn⟩ := exists_chunks hpower
  have hpos : 0 < st.oldCapacity := by
    obtain ⟨k, hk⟩ := hpower
    rw [hk]
    exact Nat.two_pow_pos k
  rw [visited]
  generalize hfirst : min 16 st.oldCapacity = first at hcapacity hn
  have hchunk : min (0 + 16) st.oldCapacity = 0 + first := by omega
  have hfuel : st.oldCapacity + 2 = (st.oldCapacity + 1) + 1 := rfl
  -- `fetch_add` returns 0, so the first chunk is migrated a second time.
  rw [hfuel, migrateLoop_succ st hpos hchunk, hprogress,
    migrateLoop_succ (st.after _ _) hpos hchunk, after_after, after_progress, Nat.zero_add]
  obtain ⟨progress, hrest⟩ := migrateLoop_chunks (n := n)
    (st.after (List.range' 0 first ++ List.range' 0 first) (first + first)) first st.oldCapacity
    (fun h => by rw [after_progress, hn h]) (by rw [after_oldCapacity]; exact hcapacity)
    (by omega)
  refine ⟨progress, ?_⟩
  have hwidth : 16 * n = st.oldCapacity - first := by omega
  rw [hrest, after_after, hwidth, List.range_eq_range']

end ResizeState

/-! ### What the migration puts into a bucket -/

namespace Table

variable {t : Table K V} {capacity i j : Nat} {xs : Nat → List (Entry K V)}
variable {entry : Entry K V} {es : List (Entry K V)}

/-- The entries that belong into bucket `j` of a table of `capacity` buckets. -/
def bound (capacity j : Nat) (es : List (Entry K V)) : List (Entry K V) :=
  es.filter fun entry => bucketIndex entry.hash capacity = j

theorem take_append_take {α : Type*} (n : Nat) (as bs : List α) :
    (as.take n ++ bs).take n = (as ++ bs).take n := by
  rw [List.take_append, List.take_append, List.take_take, List.length_take, Nat.min_self]
  congr 2
  omega

theorem holds_place (capacity : Nat) (entry : Entry K V) (h : ∀ j, (t j).Holds (xs j))
    (j : Nat) :
    (place capacity t entry j).Holds
      ((xs j ++ (bound capacity j [entry]).map Entry.settle).take 16) := by
  have hsame : ∀ k, (t k).Holds ((xs k ++ []).take 16) := by
    intro k
    rw [List.append_nil, List.take_of_length_le (h k).length_le]
    exact h k
  by_cases hj : bucketIndex entry.hash capacity = j
  · subst hj
    have hbound : bound capacity (bucketIndex entry.hash capacity) [entry] = [entry] := by
      simp [bound]
    rw [hbound, place]
    by_cases hroom : (t (bucketIndex entry.hash capacity)).len < 16
    · have hlen := (h (bucketIndex entry.hash capacity)).len_eq
      rw [if_pos hroom, Function.update_self, List.take_of_length_le]
      · exact (h _).push (by omega) _
      · rw [List.length_append, List.map_singleton, List.length_singleton]
        omega
    · have hlen := (h (bucketIndex entry.hash capacity)).len_eq
      rw [if_neg hroom, List.take_append_of_le_length (by omega)]
      have := hsame (bucketIndex entry.hash capacity)
      rw [List.append_nil] at this
      exact this
  · have hbound : bound capacity j [entry] = [] := by
      simp [bound, hj]
    rw [hbound, List.map_nil, place]
    split
    · rw [Function.update_of_ne (Ne.symm hj)]
      exact hsame j
    · exact hsame j

theorem holds_foldl_place (capacity : Nat) (es : List (Entry K V)) (h : ∀ j, (t j).Holds (xs j))
    (j : Nat) :
    (es.foldl (place capacity) t j).Holds
      ((xs j ++ (bound capacity j es).map Entry.settle).take 16) := by
  induction es generalizing t xs with
  | nil =>
    show (t j).Holds ((xs j ++ []).take 16)
    rw [List.append_nil, List.take_of_length_le (h j).length_le]
    exact h j
  | cons entry es ih =>
    have hrest := ih (holds_place capacity entry h)
    have hcons : bound capacity j (entry :: es) = bound capacity j [entry] ++ bound capacity j es :=
      List.filter_append [entry] es
    rw [take_append_take, List.append_assoc, ← List.map_append, ← hcons] at hrest
    exact hrest

/-- An old bucket has entries for two new buckets only, which it reduces to. -/
theorem WellPlaced.bound_eq_nil (hw : t.WellPlaced capacity) (hi : i < capacity)
    (hne : i ≠ j % capacity) :
    bound (capacity * 2) j (t i).stored = [] := by
  refine List.filter_eq_nil_iff.mpr fun entry hentry hidx => hne ?_
  have hold := hw.placed i hi entry hentry
  rw [bucketIndex_eq_mod _ hw.power] at hold
  rw [decide_eq_true_eq, bucketIndex_eq_mod _ hw.power_double] at hidx
  rw [← hold, ← hidx, Nat.mod_mul_right_mod]

theorem WellPlaced.bound_flatMap (hw : t.WellPlaced capacity) (j : Nat) (ks : List Nat)
    (hks : ks.Nodup) (hlt : ∀ k ∈ ks, k < capacity) :
    bound (capacity * 2) j (ks.flatMap fun i => (t i).stored) =
      if j % capacity ∈ ks then bound (capacity * 2) j (t (j % capacity)).stored else [] :=
  Partition.filter_flatMap_of_only hks fun k hk hne => hw.bound_eq_nil (hlt k hk) hne

/-- The first `n` buckets of `t` have been migrated into `t'`, and nothing else. -/
def Migrated (t t' : Table K V) (capacity n : Nat) : Prop :=
  ∀ j, (t' j).Holds
    ((if j % capacity < n then bound (capacity * 2) j (t (j % capacity)).stored else []).map
      Entry.settle)

variable {t' : Table K V} {n : Nat}

theorem migrated_allocate (t : Table K V) (capacity : Nat) :
    t.Migrated (allocateTable (capacity * 2)) capacity 0 := by
  intro j
  rw [if_neg (Nat.not_lt_zero _)]
  exact Bucket.holds_empty

/-- The migration of the next bucket. -/
theorem Migrated.step (h : t.Migrated t' capacity n) (hv : t.Valid capacity) (hn : n < capacity) :
    t.Migrated ((t n).stored.foldl (place (capacity * 2)) t') capacity (n + 1) := by
  intro j
  have hnext := holds_foldl_place (capacity * 2) (t n).stored h j
  by_cases hj : j % capacity = n
  · subst hj
    have hle : (bound (capacity * 2) j (t (j % capacity)).stored).length ≤ 16 :=
      Nat.le_trans (List.length_filter_le _ _) (hv.holds _ hn).length_le
    rw [if_neg (Nat.lt_irrefl _), List.map_nil, List.nil_append,
      List.take_of_length_le (by rwa [List.length_map])] at hnext
    rw [if_pos (Nat.lt_succ_self _)]
    exact hnext
  · rw [hv.wellPlaced.bound_eq_nil hn (Ne.symm hj), List.map_nil, List.append_nil,
      List.take_of_length_le (h j).length_le] at hnext
    have hiff : j % capacity < n + 1 ↔ j % capacity < n := by omega
    simp only [hiff]
    exact hnext

/-- A change of a bucket that has not been migrated yet. -/
theorem Migrated.update (h : t.Migrated t' capacity n) (hi : n ≤ i) (b : Bucket K V) :
    Migrated (Function.update t i b) t' capacity n := by
  intro j
  have hj := h j
  by_cases hlt : j % capacity < n
  · have hne : j % capacity ≠ i := by omega
    rw [if_pos hlt] at hj ⊢
    rwa [Function.update_of_ne hne]
  · rw [if_neg hlt] at hj ⊢
    exact hj

theorem Migrated.entries (h : t.Migrated t' capacity capacity) (hv : t.Valid capacity) :
    (t'.entries (capacity * 2)).Perm ((t.entries capacity).map Entry.settle) := by
  have hclass : ∀ j,
      (t' j).stored = (bound (capacity * 2) j (t.entries capacity)).map Entry.settle := by
    intro j
    have hlt : j % capacity < capacity := Nat.mod_lt j hv.pos
    rw [(h j).stored_eq, if_pos hlt, Table.entries, Partition.join,
      hv.wellPlaced.bound_flatMap j _ List.nodup_range fun k hk => List.mem_range.mp hk,
      if_pos (List.mem_range.mpr hlt)]
  rw [Table.entries, Partition.join_congr fun j _ => hclass j, Partition.join, ← List.map_flatMap]
  exact (Partition.join_filter_perm _ fun e _ =>
    bucketIndex_lt e.hash hv.power_double).map _

theorem Migrated.valid (h : t.Migrated t' capacity capacity) (hv : t.Valid capacity) :
    t'.Valid (capacity * 2) := by
  refine ⟨hv.power_double, fun j _ => ?_, fun j _ entry hentry => ?_, ?_⟩
  · rw [(h j).stored_eq]
    exact h j
  · rw [(h j).stored_eq, if_pos (Nat.mod_lt j hv.pos)] at hentry
    obtain ⟨e, he, rfl⟩ := List.mem_map.mp hentry
    exact of_decide_eq_true (List.mem_filter.mp he).2
  · have hkeys := (h.entries hv).map Entry.key
    rw [List.map_map] at hkeys
    exact hkeys.nodup_iff.mpr hv.nodup

end Table

/-! ### What a resize preserves -/

/-- What an entry is apart from its distance, which no function of the map reads and the
    migration resets. -/
def Entry.content (entry : Entry K V) : K × V × UInt64 := (entry.key, entry.value, entry.hash)

namespace ConcurrentHashMap

variable {m m' : ConcurrentHashMap K V} {i j : Nat}

structure Preserved (m m' : ConcurrentHashMap K V) : Prop where
  capacity : m'.capacity = 2 * m.capacity
  entries : ((m'.table.entries m'.capacity).map Entry.content).Perm
    ((m.table.entries m.capacity).map Entry.content)
  placed : ∀ i < m'.capacity, ∀ entry ∈ (m'.table i).stored,
    bucketIndex entry.hash m'.capacity = i
  size : m'.table.lenSum m'.capacity = m'.size

/-- Every bucket of the first chunk is empty, or full of entries for one new bucket, which
    is then full as well when they are migrated again. -/
def SecondPassRefused (m : ConcurrentHashMap K V) : Prop :=
  ∀ i < min 16 m.capacity, (m.table i).len = 0 ∨
    (m.table i).len = 16 ∧
      ∃ j, ∀ entry ∈ (m.table i).stored, bucketIndex entry.hash (m.capacity * 2) = j

/-- The map that `try_resize` leaves behind. -/
def resized (m : ConcurrentHashMap K V) : ConcurrentHashMap K V :=
  { m with
    table := ((ResizeState.visited m.capacity).flatMap fun i => (m.table i).stored).foldl
      (Table.place (m.capacity * 2)) (allocateTable (m.capacity * 2))
    capacity := m.capacity * 2
    resizeState := none }

theorem tryResize_eq (hpower : ∃ k, m.capacity = 2 ^ k) (hidle : m.resizeState = none) :
    m.tryResize = some m.resized := by
  let st : ResizeState K V :=
    ⟨m.table, allocateTable (m.capacity * 2), m.capacity, m.capacity * 2, 0⟩
  obtain ⟨progress, hloop⟩ := ResizeState.migrateLoop_eq st hpower rfl
  rw [tryResize, hidle]
  show Option.map _ (ResizeState.migrateLoop (st.oldCapacity + 2) 0 st) = _
  rw [hloop]
  rfl

theorem bound_visited (hw : m.table.WellPlaced m.capacity) (j : Nat) :
    Table.bound (m.capacity * 2) j
        ((ResizeState.visited m.capacity).flatMap fun i => (m.table i).stored) =
      if j % m.capacity < min 16 m.capacity then
        Table.bound (m.capacity * 2) j (m.table (j % m.capacity)).stored ++
          Table.bound (m.capacity * 2) j (m.table (j % m.capacity)).stored
      else
        Table.bound (m.capacity * 2) j (m.table (j % m.capacity)).stored := by
  have hlt : j % m.capacity < m.capacity := Nat.mod_lt j hw.pos
  have hfirst := hw.bound_flatMap j (List.range (min 16 m.capacity)) List.nodup_range
    fun k hk => by
      have := List.mem_range.mp hk
      omega
  have hrest := hw.bound_flatMap j
    (List.range' (min 16 m.capacity) (m.capacity - min 16 m.capacity)) List.nodup_range'
    fun k hk => by
      have := List.mem_range'_1.mp hk
      omega
  have hsplit : ∀ as bs : List (Entry K V), Table.bound (m.capacity * 2) j (as ++ bs) =
      Table.bound (m.capacity * 2) j as ++ Table.bound (m.capacity * 2) j bs :=
    fun as bs => List.filter_append as bs
  rw [ResizeState.visited, List.flatMap_append, List.flatMap_append, hsplit, hsplit, hfirst, hrest]
  by_cases hchunk : j % m.capacity < min 16 m.capacity
  · have hnotMem : ¬ j % m.capacity ∈
        List.range' (min 16 m.capacity) (m.capacity - min 16 m.capacity) := by
      rw [List.mem_range'_1]
      omega
    rw [if_pos (List.mem_range.mpr hchunk), if_neg hnotMem, if_pos hchunk, List.append_nil]
  · have hmem : j % m.capacity ∈
        List.range' (min 16 m.capacity) (m.capacity - min 16 m.capacity) := by
      rw [List.mem_range'_1]
      omega
    rw [if_neg (mt List.mem_range.mp hchunk), if_pos hmem, if_neg hchunk, List.nil_append,
      List.nil_append]

theorem resized_holds (hw : m.table.WellPlaced m.capacity) (j : Nat) :
    (m.resized.table j).Holds
      (((if j % m.capacity < min 16 m.capacity then
          Table.bound (m.capacity * 2) j (m.table (j % m.capacity)).stored ++
            Table.bound (m.capacity * 2) j (m.table (j % m.capacity)).stored
        else
          Table.bound (m.capacity * 2) j (m.table (j % m.capacity)).stored).map
        Entry.settle).take 16) := by
  have h := Table.holds_foldl_place (m.capacity * 2)
    ((ResizeState.visited m.capacity).flatMap fun i => (m.table i).stored)
    (fun _ => Bucket.holds_empty) j
  rw [List.nil_append, bound_visited hw] at h
  exact h

theorem resized_placed (hw : m.table.WellPlaced m.capacity) (j : Nat) :
    ∀ entry ∈ (m.resized.table j).stored, bucketIndex entry.hash (m.capacity * 2) = j := by
  intro entry hentry
  rw [(resized_holds hw j).stored_eq] at hentry
  obtain ⟨e, he, rfl⟩ := List.mem_map.mp (List.mem_of_mem_take hentry)
  have hbound : e ∈ Table.bound (m.capacity * 2) j (m.table (j % m.capacity)).stored := by
    split at he
    · exact (List.mem_append.mp he).elim id id
    · exact he
  exact of_decide_eq_true (List.mem_filter.mp hbound).2

/-- A bucket of the new table, when the second pass adds nothing. -/
theorem stored_resized (hv : m.table.Valid m.capacity) (hrefused : m.SecondPassRefused) (j : Nat) :
    (m.resized.table j).stored =
      (Table.bound (m.capacity * 2) j (m.table (j % m.capacity)).stored).map Entry.settle := by
  rw [(resized_holds hv.wellPlaced j).stored_eq]
  have hlt : j % m.capacity < m.capacity := Nat.mod_lt j hv.pos
  have hholds := hv.holds _ hlt
  have hle : (Table.bound (m.capacity * 2) j (m.table (j % m.capacity)).stored).length ≤ 16 :=
    Nat.le_trans (List.length_filter_le _ _) hholds.length_le
  by_cases hchunk : j % m.capacity < min 16 m.capacity
  · rw [if_pos hchunk]
    rcases hrefused _ hchunk with hempty | ⟨hfull, i, hsame⟩
    · rw [hholds.len_eq] at hempty
      rw [List.eq_nil_of_length_eq_zero hempty]
      rfl
    · by_cases hij : i = j
      · subst hij
        have hall : Table.bound (m.capacity * 2) i (m.table (i % m.capacity)).stored =
            (m.table (i % m.capacity)).stored :=
          List.filter_eq_self.mpr fun e he => by simpa using hsame e he
        have hlen : (m.table (i % m.capacity)).stored.length = 16 := by
          rw [← hholds.len_eq, hfull]
        rw [hall, List.map_append, List.take_left' (by rw [List.length_map, hlen])]
      · have hnone : Table.bound (m.capacity * 2) j (m.table (j % m.capacity)).stored = [] :=
          List.filter_eq_nil_iff.mpr fun e he hidx => by
            rw [hsame e he, decide_eq_true_eq] at hidx
            exact hij hidx
        rw [hnone]
        rfl
  · rw [if_neg hchunk, List.take_of_length_le (by rw [List.length_map]; exact hle)]

theorem migrated_resized (hv : m.table.Valid m.capacity) (hrefused : m.SecondPassRefused) :
    m.table.Migrated m.resized.table m.capacity m.capacity := by
  intro j
  rw [if_pos (Nat.mod_lt j hv.pos), ← stored_resized hv hrefused,
    (resized_holds hv.wellPlaced j).stored_eq]
  exact resized_holds hv.wellPlaced j

theorem resized_entries (hv : m.table.Valid m.capacity) (hrefused : m.SecondPassRefused) :
    (m.resized.table.entries (m.capacity * 2)).Perm
      ((m.table.entries m.capacity).map Entry.settle) :=
  (migrated_resized hv hrefused).entries hv

theorem resized_valid (hv : m.table.Valid m.capacity) (hrefused : m.SecondPassRefused) :
    m.resized.table.Valid m.resized.capacity :=
  (migrated_resized hv hrefused).valid hv

theorem preserved_of_refused (hv : m.table.Valid m.capacity)
    (hsize : m.table.lenSum m.capacity = m.size) (hrefused : m.SecondPassRefused) :
    m.Preserved m.resized := by
  have hperm := resized_entries hv hrefused
  refine ⟨Nat.mul_comm _ _, ?_, fun j _ => resized_placed hv.wellPlaced j, ?_⟩
  · have hcontent := hperm.map Entry.content
    rw [List.map_map] at hcontent
    exact hcontent
  · rw [(resized_valid hv hrefused).lenSum_eq]
    have hlen := hperm.length_eq
    rw [List.length_map, ← hv.lenSum_eq, hsize] at hlen
    exact hlen

/-- A class that is put down twice and does not fill its bucket is there twice. -/
theorem not_nodup_take_append_self {α : Type*} {x : α} {xs : List α} {n : Nat} (hx : x ∈ xs)
    (hlt : xs.length < n) : ¬ ((xs ++ xs).take n).Nodup := by
  obtain ⟨y, ys, rfl⟩ := List.exists_cons_of_ne_nil (List.ne_nil_of_mem hx)
  obtain ⟨k, hk⟩ : ∃ k, n - (y :: ys).length = k + 1 := ⟨n - (y :: ys).length - 1, by omega⟩
  rw [List.take_append, List.take_of_length_le (Nat.le_of_lt hlt), hk, List.take_succ_cons]
  intro hnodup
  exact List.disjoint_of_nodup_append hnodup List.mem_cons_self List.mem_cons_self

theorem refused_of_preserved (hv : m.table.Valid m.capacity) (h : m.Preserved m.resized) :
    m.SecondPassRefused := by
  intro i hi
  have hcap : i < m.capacity := by omega
  have hholds := hv.holds i hcap
  cases hstored : (m.table i).stored with
  | nil => exact .inl (by rw [hholds.len_eq, hstored]; rfl)
  | cons e es =>
    have he : e ∈ (m.table i).stored := by
      rw [hstored]
      exact List.mem_cons_self
    let j := bucketIndex e.hash (m.capacity * 2)
    have hj : j % m.capacity = i := by
      rw [← hv.placed i hcap e he, bucketIndex_eq_mod _ hv.power]
      show bucketIndex e.hash (m.capacity * 2) % m.capacity = _
      rw [bucketIndex_eq_mod _ hv.power_double, Nat.mod_mul_right_mod]
    have hbound : e ∈ Table.bound (m.capacity * 2) j (m.table i).stored :=
      List.mem_filter.mpr ⟨he, decide_eq_true rfl⟩
    have hnodup : (m.resized.table j).stored.Nodup := by
      have hkeys : ((m.resized.table.entries m.resized.capacity).map Entry.key).Nodup := by
        have hperm := h.entries.map Prod.fst
        rw [List.map_map, List.map_map] at hperm
        exact hperm.nodup_iff.mpr hv.nodup
      have hjlt : j < m.resized.capacity := bucketIndex_lt e.hash hv.power_double
      exact (List.nodup_flatMap.mp hkeys.of_map).1 j (List.mem_range.mpr hjlt)
    have hfull : 16 ≤ (Table.bound (m.capacity * 2) j (m.table i).stored).length := by
      by_contra hlt
      have hlt' : ((Table.bound (m.capacity * 2) j (m.table i).stored).map
          Entry.settle).length < 16 := by
        rw [List.length_map]
        omega
      have hmem := List.mem_map_of_mem (f := Entry.settle) hbound
      refine not_nodup_take_append_self hmem hlt' ?_
      rw [(resized_holds hv.wellPlaced j).stored_eq, hj, if_pos hi, List.map_append] at hnodup
      exact hnodup
    have hall : Table.bound (m.capacity * 2) j (m.table i).stored = (m.table i).stored :=
      List.filter_sublist.eq_of_length_le (Nat.le_trans hholds.length_le hfull)
    refine .inr ⟨?_, j, fun e' he' => ?_⟩
    · rw [hholds.len_eq]
      exact Nat.le_antisymm hholds.length_le (by rw [hall] at hfull; exact hfull)
    · rw [← hstored, ← hall] at he'
      exact of_decide_eq_true (List.mem_filter.mp he').2

/-- **What a resize preserves.**  A single-threaded `try_resize` doubles the capacity and
    keeps every entry exactly once exactly when its second pass over the first chunk is
    refused everywhere. -/
theorem tryResize_preserved_iff (hv : m.table.Valid m.capacity)
    (hsize : m.table.lenSum m.capacity = m.size) (hidle : m.resizeState = none) :
    (∃ m', m.tryResize = some m' ∧ m.Preserved m') ↔ m.SecondPassRefused := by
  rw [tryResize_eq hv.power hidle]
  constructor
  · rintro ⟨m', hm', h⟩
    cases hm'
    exact refused_of_preserved hv h
  · intro hrefused
    exact ⟨m.resized, rfl, preserved_of_refused hv hsize hrefused⟩

/-- A map that holds one entry. -/
def single (capacity : Nat) (entry : Entry K V) : ConcurrentHashMap K V :=
  ⟨Function.update (allocateTable capacity) (bucketIndex entry.hash capacity)
    (Bucket.empty.push entry), capacity, 1, none⟩

theorem entries_single {capacity : Nat} (entry : Entry K V) (hpower : ∃ k, capacity = 2 ^ k) :
    (single capacity entry).table.entries capacity = [entry] := by
  obtain ⟨rest, hold, hnew⟩ :=
    (allocateTable capacity : Table K V).exists_rest (bucketIndex_lt entry.hash hpower)
  have hempty := hold.length_eq
  rw [Table.entries_allocate, List.length_append] at hempty
  have hrest : rest = [] := List.eq_nil_of_length_eq_zero (by simp at hempty; omega)
  have hbucket := Bucket.holds_empty.push (by simp) entry
  have hperm := hnew (Bucket.empty.push entry)
  rw [hrest, hbucket.stored_eq] at hperm
  exact List.perm_singleton.mp hperm

theorem valid_single {capacity : Nat} (entry : Entry K V) (hpower : ∃ k, capacity = 2 ^ k) :
    (single capacity entry).table.Valid capacity := by
  have hplaced : ∀ e ∈ [] ++ [entry],
      bucketIndex e.hash capacity = bucketIndex entry.hash capacity := by
    intro e he
    rw [List.nil_append, List.mem_singleton] at he
    rw [he]
  have hw := (Table.valid_allocate hpower).wellPlaced.update
    (Bucket.holds_empty.push (by simp) entry) hplaced
  refine ⟨hw.power, hw.holds, hw.placed, ?_⟩
  rw [entries_single entry hpower]
  exact List.nodup_singleton _

theorem lenSum_single {capacity : Nat} (entry : Entry K V) (hpower : ∃ k, capacity = 2 ^ k) :
    (single capacity entry).table.lenSum capacity = 1 := by
  rw [(valid_single entry hpower).lenSum_eq, entries_single entry hpower]
  rfl

theorem tryResize_preserved_iff_secondChunk :
    ∃ m', (single 32 ⟨0, 7, 16, 0⟩ : ConcurrentHashMap Nat Nat).tryResize = some m' ∧
      (single 32 ⟨0, 7, 16, 0⟩).Preserved m' := by
  have hfirst : ∀ i < 16,
      ((single 32 ⟨0, 7, 16, 0⟩ : ConcurrentHashMap Nat Nat).table i).len = 0 := by
    decide
  exact (tryResize_preserved_iff (valid_single _ ⟨5, rfl⟩) (lenSum_single _ ⟨5, rfl⟩) rfl).mpr
    fun i hi => .inl (hfirst i hi)

/-- The one entry of the map is in the new table twice. -/
theorem tryResize_duplicates_entry :
    (single 1 ⟨0, 7, 0, 0⟩ : ConcurrentHashMap Nat Nat).table.Valid 1 ∧
      (single 1 ⟨0, 7, 0, 0⟩ : ConcurrentHashMap Nat Nat).table.lenSum 1 = 1 ∧
      ∃ m', (single 1 ⟨0, 7, 0, 0⟩ : ConcurrentHashMap Nat Nat).tryResize = some m' ∧
        (m'.table 0).stored = [⟨0, 7, 0, 0⟩, ⟨0, 7, 0, 0⟩] ∧
        ¬ (single 1 ⟨0, 7, 0, 0⟩).Preserved m' := by
  refine ⟨valid_single _ ⟨0, rfl⟩, lenSum_single _ ⟨0, rfl⟩, _, rfl, rfl, ?_⟩
  intro h
  have hlen := h.entries.length_eq
  cases hlen

end ConcurrentHashMap

end VelocityX.Map
