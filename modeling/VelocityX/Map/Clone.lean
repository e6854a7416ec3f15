import VelocityX.Map.Growth

/-!
# Cloning the concurrent hash map

`clone` of `src/map/concurrent.rs`, run by one thread.  It goes through the buckets in
order and inserts a copy of every entry into a new map of the same capacity, and every one
of these insertions draws a hash of its own.

So the buckets of the copy have nothing to do with those of the original, and the copy may
need more room in one of them than there is.  `redrawn` lists the entries under the hashes
of the copy: the clone stands for the same finite map when no bucket is given more than
sixteen of them, and panics otherwise.  It never resizes, since a map is never filled
beyond one entry over its load factor.
-/

namespace VelocityX.Map

variable {K V S : Type*}

/-! ### The copy loop -/

/-- The map that is filled, and how many hashes have been drawn for it. -/
structure Copying (K V : Type*) where
  newMap : ConcurrentHashMap K V
  drawn : Nat

namespace ConcurrentHashMap

variable [DecidableEq K]

/-- `new_map.insert(entry.key.clone(), entry.value.clone())`, where `draw n` is the hash
    function that the `n`-th call of `hash_key` draws. -/
def copyEntry (heap : Heap) (draw : Nat → K → UInt64) (entry : Entry K V) (c : Copying K V) :
    Option (Except Panic (Copying K V)) :=
  (c.newMap.insert heap entry.key entry.value (draw c.drawn entry.key)).map fun r =>
    r.2.map fun _ => ⟨r.1, c.drawn + 1⟩

def copySlot (heap : Heap) (draw : Nat → K → UInt64) (b : Bucket K V) (i : Nat)
    (c : Copying K V) : Option (Except Panic (Copying K V)) :=
  match b.read i with
  | .error p => some (.error p)
  | .ok none => some (.ok c)
  | .ok (some entry) => copyEntry heap draw entry c

/-- The loop `for i in 0..len` from slot `i` on with `n` slots to go. -/
def copySlots (heap : Heap) (draw : Nat → K → UInt64) (b : Bucket K V) :
    Nat → Nat → Copying K V → Option (Except Panic (Copying K V))
  | 0, _, c => some (.ok c)
  | n + 1, i, c =>
      match copySlot heap draw b i c with
      | some (.ok c) => copySlots heap draw b n (i + 1) c
      | stopped => stopped

/-- The loop `for bucket_index in 0..capacity` from bucket `i` on with `n` buckets to go. -/
def copyBuckets (heap : Heap) (draw : Nat → K → UInt64) (t : Table K V) :
    Nat → Nat → Copying K V → Option (Except Panic (Copying K V))
  | 0, _, c => some (.ok c)
  | n + 1, i, c =>
      match copySlots heap draw (t i) (t i).len 0 c with
      | some (.ok c) => copyBuckets heap draw t n (i + 1) c
      | stopped => stopped

def clone (heap : Heap) (draw : Nat → K → UInt64) (m : ConcurrentHashMap K V) :
    Option (Except Panic (ConcurrentHashMap K V)) :=
  match withCapacity heap m.capacity with
  | none => some (.error .allocation)
  | some newMap =>
      (copyBuckets heap draw m.table m.capacity 0 ⟨newMap, 0⟩).map fun r => r.map Copying.newMap

/-! ### The loops as one loop over the entries -/

/-- Copy the entries of a list, one after the other. -/
def copyEntries (heap : Heap) (draw : Nat → K → UInt64) :
    List (Entry K V) → Copying K V → Option (Except Panic (Copying K V))
  | [], c => some (.ok c)
  | entry :: es, c =>
      match copyEntry heap draw entry c with
      | some (.ok c) => copyEntries heap draw es c
      | stopped => stopped

variable {heap : Heap} {draw : Nat → K → UInt64} {t : Table K V} {b : Bucket K V}
variable {c c' : Copying K V}
variable {capacity : Nat} {es done l r : List (Entry K V)}

theorem copyEntries_append (es : List (Entry K V)) (c : Copying K V) :
    copyEntries heap draw (es ++ done) c =
      match copyEntries heap draw es c with
      | some (.ok c) => copyEntries heap draw done c
      | stopped => stopped := by
  induction es generalizing c with
  | nil => rfl
  | cons entry es ih =>
    simp only [List.cons_append, copyEntries]
    rcases copyEntry heap draw entry c with _ | _ | c
    · rfl
    · rfl
    · exact ih c

theorem copySlots_eq (h : b.Holds (l ++ r)) :
    copySlots heap draw b r.length l.length c = copyEntries heap draw r c := by
  induction r generalizing l c with
  | nil => rfl
  | cons entry r ih =>
    simp only [List.length_cons, copySlots, copyEntries, copySlot, h.read_middle]
    rcases copyEntry heap draw entry c with _ | _ | c
    · rfl
    · rfl
    · have hrest := ih (l := l ++ [entry]) (c := c) (by simpa using h)
      simpa using hrest

theorem copySlots_all (h : b.Holds es) :
    copySlots heap draw b b.len 0 c = copyEntries heap draw es c := by
  rw [h.len_eq]
  exact copySlots_eq (l := []) h

theorem copyBuckets_eq (hholds : ∀ j < capacity, (t j).Holds (t j).stored) {n i : Nat}
    (hn : i + n = capacity) :
    copyBuckets heap draw t n i c =
      copyEntries heap draw ((List.range' i n).flatMap fun j => (t j).stored) c := by
  induction n generalizing i c with
  | zero => rfl
  | succ n ih =>
    rw [copyBuckets, copySlots_all (hholds i (by omega)), List.range'_succ, List.flatMap_cons,
      copyEntries_append]
    rcases copyEntries heap draw (t i).stored c with _ | _ | c
    · rfl
    · rfl
    · exact ih (by omega)

/-- The clone inserts the entries of the table one after the other. -/
theorem clone_eq {m newMap : ConcurrentHashMap K V}
    (hnew : withCapacity heap m.capacity = some newMap)
    (hholds : ∀ j < m.capacity, (m.table j).Holds (m.table j).stored) :
    m.clone heap draw =
      (copyEntries heap draw (m.table.entries m.capacity) ⟨newMap, 0⟩).map fun r =>
        r.map Copying.newMap := by
  simp only [clone, hnew, copyBuckets_eq hholds (Nat.zero_add _), Table.entries, Partition.join,
    List.range_eq_range']

end ConcurrentHashMap

/-! ### Tables filled with fresh keys -/

namespace Table

/-- Every bucket holds those of the entries that belong there, in their order. -/
def Filled (t : Table K V) (capacity : Nat) (es : List (Entry K V)) : Prop :=
  ∀ j < capacity, (t j).Holds (bound capacity j es)

/-- No bucket is given more entries than it has slots. -/
def Fits (capacity : Nat) (es : List (Entry K V)) : Prop :=
  ∀ j < capacity, (bound capacity j es).length ≤ 16

instance {capacity : Nat} {es : List (Entry K V)} : Decidable (Fits capacity es) :=
  inferInstanceAs (Decidable (∀ j < capacity, (bound capacity j es).length ≤ 16))

variable {t : Table K V} {capacity j : Nat} {es es' : List (Entry K V)} {entry : Entry K V}
variable {key : K} {value : V} {hash : UInt64} {F : Finmap fun _ : K => V}

theorem bound_append : bound capacity j (es ++ es') = bound capacity j es ++ bound capacity j es' :=
  List.filter_append es es'

theorem bound_singleton_self (entry : Entry K V) :
    bound capacity (bucketIndex entry.hash capacity) [entry] = [entry] := by
  simp [bound]

theorem bound_singleton_of_ne (hne : bucketIndex entry.hash capacity ≠ j) :
    bound capacity j [entry] = [] := by
  simp [bound, hne]

theorem filled_allocate : (allocateTable capacity : Table K V).Filled capacity [] :=
  fun _ _ => Bucket.holds_empty

theorem Filled.entries_perm (hf : t.Filled capacity es) (hpower : ∃ k, capacity = 2 ^ k) :
    (t.entries capacity).Perm es := by
  have hstored : ∀ j < capacity, (t j).stored = bound capacity j es :=
    fun j hj => (hf j hj).stored_eq
  rw [Table.entries, Partition.join_congr hstored]
  exact Partition.join_filter_perm es fun e _ => bucketIndex_lt e.hash hpower

theorem Filled.models (hf : t.Filled capacity es) (hpower : ∃ k, capacity = 2 ^ k)
    (hrep : FiniteMap.Represents (es.map Entry.binding) F) : t.Models capacity F := by
  have hperm := hf.entries_perm hpower
  have hentries := hrep.perm (hperm.symm.map Entry.binding)
  refine ⟨⟨hpower, fun j hj => ?_, fun j hj e he => ?_, ?_⟩, hentries⟩
  · rw [(hf j hj).stored_eq]
    exact hf j hj
  · rw [(hf j hj).stored_eq] at he
    exact of_decide_eq_true (List.mem_filter.mp he).2
  · have hnodup := hentries.nodup
    rwa [List.map_map] at hnodup

variable [DecidableEq K]

/-- A key that is not stored is appended to its bucket, unless the bucket is full. -/
theorem Filled.insertLocked (hf : t.Filled capacity es) (hpower : ∃ k, capacity = 2 ^ k)
    (hfresh : ∀ e ∈ es, e.key ≠ key) (value : V) (hash : UInt64) :
    (∃ t', t.insertLocked capacity key value hash = (t', .ok none) ∧
      t'.Filled capacity (es ++ [⟨key, value, hash, 0⟩])) ∨
    (bound capacity (bucketIndex hash capacity) es).length = 16 ∧
      t.insertLocked capacity key value hash = (t, .error .bucketOverflow) := by
  have hi := hf _ (bucketIndex_lt hash hpower)
  rcases hi.insert key value hash with
    ⟨l, e, r, b', hsplit, _, hkey, _⟩ | ⟨_, ⟨_, b', hinsert, hb⟩ | ⟨hfull, hinsert⟩⟩
  · have hmem : e ∈ bound capacity (bucketIndex hash capacity) es := by simp [hsplit]
    exact absurd hkey (hfresh e (List.mem_filter.mp hmem).1)
  · left
    refine ⟨_, by rw [Table.insertLocked, hinsert], fun j hj => ?_⟩
    rw [bound_append]
    by_cases hidx : bucketIndex hash capacity = j
    · subst hidx
      rw [Function.update_self, bound_singleton_self ⟨key, value, hash, 0⟩]
      exact hb
    · rw [Function.update_of_ne (Ne.symm hidx), bound_singleton_of_ne hidx, List.append_nil]
      exact hf j hj
  · right
    refine ⟨hfull, ?_⟩
    rw [Table.insertLocked, hinsert, Function.update_eq_self]

end Table

/-! ### The entries of the copy -/

/-- The entries as a copy stores them, from the `n`-th insertion on. -/
def redrawn (draw : Nat → K → UInt64) : Nat → List (Entry K V) → List (Entry K V)
  | _, [] => []
  | n, entry :: es => ⟨entry.key, entry.value, draw n entry.key, 0⟩ :: redrawn draw (n + 1) es

section Redrawn

variable {draw : Nat → K → UInt64} {n : Nat} {es : List (Entry K V)}

theorem redrawn_binding (draw : Nat → K → UInt64) (n : Nat) (es : List (Entry K V)) :
    (redrawn draw n es).map Entry.binding = es.map Entry.binding := by
  induction es generalizing n with
  | nil => rfl
  | cons entry es ih => simp [redrawn, ih, Entry.binding]

/-- A copy that draws the hashes of the original stores the entries of the original. -/
theorem redrawn_eq_settle
    (hdraw : ∀ k entry, es[k]? = some entry → draw (n + k) entry.key = entry.hash) :
    redrawn draw n es = es.map Entry.settle := by
  induction es generalizing n with
  | nil => rfl
  | cons entry es ih =>
    have hhead := hdraw 0 entry rfl
    have htail : redrawn draw (n + 1) es = es.map Entry.settle := by
      refine ih fun k e he => ?_
      rw [Nat.add_right_comm]
      exact hdraw (k + 1) e he
    simp only [Nat.add_zero] at hhead
    simp [redrawn, htail, hhead, Entry.settle]

end Redrawn

namespace ConcurrentHashMap

/-- The map has been filled with the entries, and no resize has begun. -/
structure Filling (m : ConcurrentHashMap K V) (capacity : Nat) (es : List (Entry K V)) : Prop where
  filled : m.table.Filled capacity es
  capacity_eq : m.capacity = capacity
  size_eq : m.size = es.length
  idle : m.resizeState = none

variable {heap : Heap} {m m' : ConcurrentHashMap K V} {capacity requested : Nat}
variable {es done : List (Entry K V)}
variable {key : K} {value : V} {hash : UInt64} {F : Finmap fun _ : K => V}

theorem filling_allocated : (allocated capacity : ConcurrentHashMap K V).Filling capacity [] :=
  ⟨Table.filled_allocate, rfl, rfl, rfl⟩

theorem Filling.models (hm : m'.Filling m.capacity es)
    (hsound : (m.memory heap).Sound 64 heap.bucket)
    (hrep : FiniteMap.Represents (es.map Entry.binding) F) : m'.Models heap F := by
  refine ⟨?_, ?_, hm.idle, ?_⟩
  · rw [hm.capacity_eq]
    exact hm.filled.models hsound.power hrep
  · rw [hm.size_eq, hrep.card_keys, List.length_map]
  · rw [memory, hm.capacity_eq]
    exact hsound

variable [DecidableEq K]

theorem Filling.insert (hm : m.Filling capacity es) (hpower : ∃ k, capacity = 2 ^ k)
    (hword : 2 * capacity < 2 ^ 64) (hload : 4 * es.length ≤ 3 * capacity)
    (hfresh : ∀ e ∈ es, e.key ≠ key) (value : V)
    (hash : UInt64) :
    (∃ m', m.insert heap key value hash = some (m', .ok none) ∧
      m'.Filling capacity (es ++ [⟨key, value, hash, 0⟩])) ∨
    (Table.bound capacity (bucketIndex hash capacity) es).length = 16 ∧
      m.insert heap key value hash = some (m, .error .bucketOverflow) := by
  have hsmall : m.shouldResize = false := by
    simp [shouldResize, hm.capacity_eq, hm.size_eq, hload]
  have hcapacity := hm.capacity_eq
  rcases hm.filled.insertLocked hpower hfresh value hash with
    ⟨t', hinsert, ht'⟩ | ⟨hfull, hinsert⟩
  · left
    have hcount : Word.add 64 m.size 1 = m.size + 1 := by
      apply Word.add_of_lt
      have hpos : 0 < capacity := by
        obtain ⟨k, rfl⟩ := hpower
        exact Nat.two_pow_pos k
      have hsize := hm.size_eq
      omega
    refine ⟨{ m with table := t', size := m.size + 1 }, ?_, ht', hcapacity, ?_, hm.idle⟩
    · simp [insert_of_room heap hsmall, insertUnderLock, hcapacity, hinsert, hcount]
    · simp [hm.size_eq]
  · right
    subst hcapacity
    refine ⟨hfull, ?_⟩
    simp [insert_of_room heap hsmall, insertUnderLock, hinsert]

variable {c : Copying K V}

omit [DecidableEq K] in
theorem fits_of_append (hfits : Table.Fits capacity (done ++ es)) : Table.Fits capacity done := by
  intro j hj
  have hle := hfits j hj
  rw [Table.bound_append, List.length_append] at hle
  omega

/-- **The copy loop** over entries whose keys are fresh and distinct, with room below the load
    factor: it stores all of them, or panics if one of the buckets cannot hold its share. -/
theorem copyEntries_spec (heap : Heap) (draw : Nat → K → UInt64) (hpower : ∃ k, capacity = 2 ^ k)
    (hword : 2 * capacity < 2 ^ 64) (hc : c.newMap.Filling capacity done)
    (hkeys : ((done ++ es).map Entry.key).Nodup)
    (hload : 4 * (done.length + es.length) ≤ 3 * capacity + 4) :
    (Table.Fits capacity (done ++ redrawn draw c.drawn es) ∧
      ∃ c', copyEntries heap draw es c = some (.ok c') ∧
        c'.newMap.Filling capacity (done ++ redrawn draw c.drawn es)) ∨
    ¬ Table.Fits capacity (done ++ redrawn draw c.drawn es) ∧
      copyEntries heap draw es c = some (.error .bucketOverflow) := by
  induction es generalizing c done with
  | nil =>
    left
    simp only [redrawn, List.append_nil]
    exact ⟨fun j hj => (hc.filled j hj).length_le, c, rfl, hc⟩
  | cons entry es ih =>
    have hfresh : ∀ e ∈ done, e.key ≠ entry.key := by
      intro e he heq
      rw [List.map_append, List.map_cons] at hkeys
      have hdisjoint := (List.nodup_append.mp hkeys).2.2
      exact hdisjoint e.key (List.mem_map_of_mem he) entry.key List.mem_cons_self heq
    have hroom : 4 * done.length ≤ 3 * capacity := by
      simp only [List.length_cons] at hload
      omega
    have hsplit : done ++ redrawn draw c.drawn (entry :: es) =
        done ++ [⟨entry.key, entry.value, draw c.drawn entry.key, 0⟩] ++
          redrawn draw (c.drawn + 1) es := by simp [redrawn]
    rw [hsplit]
    rcases hc.insert hpower hword hroom hfresh entry.value (draw c.drawn entry.key) with
      ⟨m', hinsert, hm'⟩ | ⟨hfull, hinsert⟩
    · have hcopy : copyEntry heap draw entry c = some (.ok ⟨m', c.drawn + 1⟩) := by
        rw [copyEntry, hinsert]
        rfl
      have hrest := ih (c := ⟨m', c.drawn + 1⟩) hm' (by simpa using hkeys)
        (by simp only [List.length_append, List.length_cons, List.length_nil] at hload ⊢; omega)
      simp only [copyEntries, hcopy]
      exact hrest
    · right
      have hcopy : copyEntry heap draw entry c = some (.error .bucketOverflow) := by
        rw [copyEntry, hinsert]
        rfl
      refine ⟨fun hfits => ?_, by simp only [copyEntries, hcopy]⟩
      -- the entry that does not fit is the seventeenth of its bucket
      have hle := fits_of_append hfits _ (bucketIndex_lt (draw c.drawn entry.key) hpower)
      rw [Table.bound_append, List.length_append, hfull, Table.bound_singleton_self
        ⟨entry.key, entry.value, draw c.drawn entry.key, 0⟩] at hle
      simp at hle

/-- A clone stores every entry once more, in the order of the original table and under the hashes
    that it draws, and panics if they do not fit. -/
theorem Models.clone (hm : m.Models heap F) (hgrants : heap.grants (m.memory heap).bytes = true)
    (hload : 4 * m.size ≤ 3 * m.capacity + 4) (draw : Nat → K → UInt64) :
    (Table.Fits m.capacity (redrawn draw 0 (m.table.entries m.capacity)) ∧
      ∃ m', m.clone heap draw = some (.ok m') ∧
        m'.Filling m.capacity (redrawn draw 0 (m.table.entries m.capacity))) ∨
    ¬ Table.Fits m.capacity (redrawn draw 0 (m.table.entries m.capacity)) ∧
      m.clone heap draw = some (.error .bucketOverflow) := by
  have hvalid := hm.table.valid
  have hnodup := hvalid.nodup
  have hsize : (m.table.entries m.capacity).length = m.size := by
    rw [hm.size_eq, hm.table.represents.card_keys, List.length_map]
  have hbytes : (m.memory heap).bytes = m.capacity * heap.bucket.val := hm.sound.bytes
  have hlt := hm.sound.lt
  rw [hbytes] at hgrants hlt
  rw [← hsize] at hload
  rw [clone_eq (withCapacity_of_power hvalid.power hlt hgrants) hvalid.holds]
  generalize m.table.entries m.capacity = es at hload hnodup ⊢
  have hword := entries_lt_of_sound hm.sound
  have hloop := copyEntries_spec heap draw (c := ⟨allocated m.capacity, 0⟩) hvalid.power
    (by omega) filling_allocated hnodup (by simpa using hload)
  simp only [List.nil_append] at hloop
  rcases hloop with ⟨hfits, c', hcopy, hc'⟩ | ⟨hfits, hcopy⟩
  · exact .inl ⟨hfits, c'.newMap, by rw [hcopy]; rfl, hc'⟩
  · exact .inr ⟨hfits, by rw [hcopy]; rfl⟩

/-! ### Clones of the maps that runs reach -/

variable {h : S → K → UInt64} {op : Op K V S} {ops : List (Op K V S)}
variable {initial : ConcurrentHashMap K V}

/-- A removal that finds its key in the finite map counts it down. -/
theorem Models.countsDown (hm : m.Models heap F) (hc : m.Consistent heap h op) :
    m.CountsDown h op := by
  cases op with
  | remove seed key =>
    intro value hvalue
    obtain ⟨m', hremove, _⟩ := hm.remove hc
    rw [hremove] at hvalue
    rw [hm.size_eq]
    have hmem := Finmap.mem_of_lookup_eq_some (Except.ok.inj hvalue)
    exact Finset.card_pos.mpr ⟨key, Finmap.mem_keys.mpr hmem⟩
  | insert seed key value => trivial
  | get seed key => trivial
  | clear => trivial
  | len => trivial

/-- A map that a consistent run reaches stands for a finite map and is not overfull. -/
theorem models_of_run (hnew : withCapacity heap requested = some initial)
    (hsize : roundUp requested * heap.bucket.val < 2 ^ 64)
    (hc : Transition.Along (step heap h) (Consistent heap h) initial ops)
    (hrun : Transition.run (step heap h) initial ops = some m) :
    (∃ F, m.Models heap F) ∧ m.Sized heap := by
  refine Transition.run_invariant_along (I := fun m => (∃ F, m.Models heap F) ∧ m.Sized heap) ?_
    ⟨⟨∅, models_withCapacity hnew hsize⟩, (sized_withCapacity hnew hsize).1⟩ hc hrun
  rintro m op m' ⟨⟨F, hm⟩, hsized⟩ hc hstep
  exact ⟨⟨op.apply F, hm.step hc hstep⟩, hsized.step (hm.countsDown hc) hstep⟩

/-- **A clone stands for the map it was made from**, whatever hashes it draws, unless more than
    sixteen of its entries belong into one bucket under these hashes; then it panics. -/
theorem clone_of_run (hnew : withCapacity heap requested = some initial)
    (hsize : roundUp requested * heap.bucket.val < 2 ^ 64)
    (hc : Transition.Along (step heap h) (Consistent heap h) initial ops)
    (hrun : Transition.run (step heap h) initial ops = some m)
    (hgrants : heap.grants (m.memory heap).bytes = true) (draw : Nat → K → UInt64) :
    (Table.Fits m.capacity (redrawn draw 0 (m.table.entries m.capacity)) ∧
      ∃ m', m.clone heap draw = some (.ok m') ∧ m'.capacity = m.capacity ∧ m'.len = m.len ∧
        m'.table.Filled m.capacity (redrawn draw 0 (m.table.entries m.capacity)) ∧
        ∃ F, m.Models heap F ∧ m'.Models heap F) ∨
    ¬ Table.Fits m.capacity (redrawn draw 0 (m.table.entries m.capacity)) ∧
      m.clone heap draw = some (.error .bucketOverflow) := by
  obtain ⟨⟨F, hm⟩, hsized⟩ := models_of_run hnew hsize hc hrun
  rcases hm.clone hgrants hsized.load draw with ⟨hfits, m', hclone, hm'⟩ | hpanic
  · have hrep := hm.table.represents
    rw [← redrawn_binding draw 0] at hrep
    have hmodels := hm'.models hm.sound hrep
    refine .inl ⟨hfits, m', hclone, hm'.capacity_eq, ?_, hm'.filled, F, hm, hmodels⟩
    exact hmodels.size_eq.trans hm.size_eq.symm
  · exact .inr hpanic

/-- All of the copies draw the same hash and share one bucket. -/
theorem clone_of_run_oneBucket :
    ∃ initial m m' : ConcurrentHashMap Nat Nat, withCapacity wordHeap 2 = some initial ∧
      Transition.run (step wordHeap fun (_ : Unit) (key : Nat) => key.toUInt64) initial
        [.insert () 5 7, .insert () 6 8] = some m ∧
      m.clone wordHeap (fun _ _ => 0) = some (.ok m') ∧ m'.len = 2 := by
  have hnew : (withCapacity wordHeap 2 : Option (ConcurrentHashMap Nat Nat)) =
      some (allocated 2) := withCapacity_of_power ⟨1, rfl⟩ (by decide) rfl
  have hsize : roundUp 2 * wordHeap.bucket.val < 2 ^ 64 := by
    have hrounded : roundUp 2 = 2 := if_pos ⟨1, rfl⟩
    rw [hrounded]
    decide
  have hc : Transition.Along (step wordHeap fun (_ : Unit) (key : Nat) => key.toUInt64)
      (Consistent wordHeap fun (_ : Unit) (key : Nat) => key.toUInt64)
      (allocated 2 : ConcurrentHashMap Nat Nat) [.insert () 5 7, .insert () 6 8] := by
    refine ⟨⟨by show Table.Keyed _ _ _ _; decide, fun hfull => absurd hfull (by decide)⟩, ?_⟩
    rintro m ⟨⟩
    exact ⟨⟨by show Table.Keyed _ _ _ _; decide, fun hfull => absurd hfull (by decide)⟩,
      fun _ _ => trivial⟩
  rcases clone_of_run hnew hsize hc rfl rfl fun _ _ => 0 with
    ⟨_, m', hclone, _, hlen, _⟩ | ⟨hfits, _⟩
  · exact ⟨_, _, m', hnew, rfl, hclone, hlen⟩
  · exact absurd (by decide) hfits

omit [DecidableEq K] in
theorem bound_entries {t : Table K V} {capacity j : Nat} (hw : t.WellPlaced capacity)
    (hj : j < capacity) :
    Table.bound capacity j ((t.entries capacity).map Entry.settle) =
      (t j).stored.map Entry.settle := by
  have honly : ∀ k ∈ List.range capacity, k ≠ j →
      (t k).stored.filter (fun e => bucketIndex e.hash capacity = j) = [] := by
    intro k hk hne
    refine List.filter_eq_nil_iff.mpr fun e he hidx => hne ?_
    rw [← hw.placed k (List.mem_range.mp hk) e he]
    exact of_decide_eq_true hidx
  have hall : (t j).stored.filter (fun e => bucketIndex e.hash capacity = j) = (t j).stored :=
    List.filter_eq_self.mpr fun e he => decide_eq_true (hw.placed j hj e he)
  rw [Table.bound, List.filter_map]
  refine congrArg (List.map Entry.settle) ?_
  have hbucket := Partition.filter_flatMap_of_only List.nodup_range honly
  rw [if_pos (List.mem_range.mpr hj), hall] at hbucket
  exact hbucket

/-- A clone that draws the hashes of the original copies it bucket by bucket, and returns. -/
theorem clone_same_hashes {draw : Nat → K → UInt64}
    (hnew : withCapacity heap requested = some initial)
    (hsize : roundUp requested * heap.bucket.val < 2 ^ 64)
    (hc : Transition.Along (step heap h) (Consistent heap h) initial ops)
    (hrun : Transition.run (step heap h) initial ops = some m)
    (hgrants : heap.grants (m.memory heap).bytes = true)
    (hdraw : ∀ n entry, (m.table.entries m.capacity)[n]? = some entry →
      draw n entry.key = entry.hash) :
    ∃ m', m.clone heap draw = some (.ok m') ∧ m'.capacity = m.capacity ∧
      ∀ j < m.capacity, (m'.table j).Holds ((m.table j).stored.map Entry.settle) := by
  obtain ⟨⟨F, hm⟩, hsized⟩ := models_of_run hnew hsize hc hrun
  have hw := hm.table.valid.wellPlaced
  have hsame : redrawn draw 0 (m.table.entries m.capacity) =
      (m.table.entries m.capacity).map Entry.settle :=
    redrawn_eq_settle fun k entry hk => by simpa using hdraw k entry hk
  rcases hm.clone hgrants hsized.load draw with ⟨_, m', hclone, hm'⟩ | ⟨hfits, _⟩
  · refine ⟨m', hclone, hm'.capacity_eq, fun j hj => ?_⟩
    have hholds := hm'.filled j hj
    rwa [hsame, bound_entries hw hj] at hholds
  · refine absurd (fun j hj => ?_) hfits
    rw [hsame, bound_entries hw hj, List.length_map]
    exact (hw.holds j hj).length_le

end ConcurrentHashMap

end VelocityX.Map
