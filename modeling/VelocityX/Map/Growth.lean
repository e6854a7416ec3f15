import VelocityX.Lib.Amortized
import VelocityX.Map.Concurrent

/-!
# Growth of the concurrent hash map

What `insert` of `src/map/concurrent.rs` pays for resizing over a sequential run, whatever
hashes it draws.  A resize goes through the buckets of the old table, those of the first
chunk twice.  It comes when the map is over its load factor, and doubles the capacity, so
that the insertions since the last resize pay for it.

A resize may store an entry twice, and then more removals than insertions succeed.  The size
wraps below 0 in such a run, and every later insertion resizes; `CountsDown` excludes this.
-/

namespace VelocityX.Map

open Transition

variable {K V S : Type*}

def Op.isInsert : Op K V S → Bool
  | .insert _ _ _ => true
  | _ => false

theorem ResizeState.visited_length (capacity : Nat) :
    (visited capacity).length = capacity + min 16 capacity := by
  simp only [visited, List.length_append, List.length_range, List.length_range']
  omega

namespace ConcurrentHashMap

/-- The operation is an insertion into a map that is over its load factor. -/
def resizes (m : ConcurrentHashMap K V) (op : Op K V S) : Bool := op.isInsert && m.shouldResize

/-- How many buckets the migration loop goes through in an operation. -/
def migrations (m : ConcurrentHashMap K V) (op : Op K V S) : Nat :=
  if m.resizes op then (ResizeState.visited m.capacity).length else 0

/-- A map that no thread resizes and that is at most one entry over its load factor. -/
structure Sized (heap : Heap) (m : ConcurrentHashMap K V) : Prop where
  power : ∃ k, m.capacity = 2 ^ k
  idle : m.resizeState = none
  load : 4 * m.size ≤ 3 * m.capacity + 4
  sound : (m.memory heap).Sound 64 heap.bucket

variable {heap : Heap} {m m' : ConcurrentHashMap K V} {op : Op K V S} {ops : List (Op K V S)}
variable {key : K} {value : V} {hash : UInt64} {old : Option V} {requested : Nat}

theorem Sized.pos (hm : m.Sized heap) : 0 < m.capacity := by
  obtain ⟨k, hk⟩ := hm.power
  rw [hk]
  exact Nat.two_pow_pos k

theorem sized_withCapacity (hm : withCapacity heap requested = some m)
    (hsize : roundUp requested * heap.bucket.val < 2 ^ 64) :
    m.Sized heap ∧ m.size = 0 ∧ m.capacity = roundUp requested := by
  have hsound := (models_withCapacity hm hsize).sound
  obtain ⟨t, ht, rfl⟩ := withCapacity_eq_some.mp hm
  obtain ⟨⟨hpower, _, _⟩, hcapacity⟩ := Alloc.sound_of_withCapacity hsize ht
  exact ⟨⟨hpower, rfl, Nat.zero_le _, hsound⟩, rfl, hcapacity⟩

theorem resizes_iff : m.resizes op = true ↔ op.isInsert = true ∧ 3 * m.capacity < 4 * m.size := by
  simp [resizes, shouldResize]

/-- Without a resize, an insertion finds the map within its load factor. -/
theorem not_resizes (hop : ¬ m.resizes op = true) :
    (if op.isInsert then 1 else 0) = 0 ∨
      (if op.isInsert then 1 else 0) = 1 ∧ 4 * m.size ≤ 3 * m.capacity := by
  rw [resizes_iff] at hop
  by_cases hinsert : op.isInsert = true
  · right
    simp only [hinsert, true_and, Nat.not_lt] at hop
    exact ⟨if_pos hinsert, hop⟩
  · exact .inl (if_neg hinsert)

variable [DecidableEq K] {h : S → K → UInt64}

/-- A removal that finds its key finds a size to take one from. -/
def CountsDown (h : S → K → UInt64) (m : ConcurrentHashMap K V) : Op K V S → Prop
  | .remove seed key => ∀ value, (m.remove key (h seed key)).2 = .ok (some value) → 0 < m.size
  | _ => True

/-- What an operation does to the capacity and to the size. -/
structure Grown (heap : Heap) (m : ConcurrentHashMap K V) (op : Op K V S)
    (m' : ConcurrentHashMap K V) : Prop where
  idle : m'.resizeState = none
  capacity : m'.capacity = if m.resizes op then m.capacity * 2 else m.capacity
  size : m'.size ≤ m.size + if op.isInsert then 1 else 0
  sound : (m'.memory heap).Sound 64 heap.bucket

theorem insertUnderLock_grown (m : ConcurrentHashMap K V) (key : K) (value : V) (hash : UInt64) :
    (m.insertUnderLock key value hash).1.resizeState = m.resizeState ∧
      (m.insertUnderLock key value hash).1.capacity = m.capacity ∧
      (m.insertUnderLock key value hash).1.size ≤ m.size + 1 := by
  rw [insertUnderLock]
  split
  · exact ⟨rfl, rfl, Nat.mod_le _ _⟩
  · exact ⟨rfl, rfl, Nat.le_succ _⟩

theorem Sized.insert (hm : m.Sized heap) (seed : S)
    (hinsert : m.insert heap key value hash = some (m', .ok old)) :
    m.Grown heap (.insert seed key value) m' := by
  rw [insert_eq hm.power hm.idle] at hinsert
  split at hinsert
  next hgranted =>
    obtain ⟨hidle, hcapacity, hsize⟩ := m.ready.insertUnderLock_grown key value hash
    have hm' : (m.ready.insertUnderLock key value hash).1 = m' :=
      congrArg Prod.fst (Option.some.inj hinsert)
    rw [hm'] at hidle hcapacity hsize
    have hsound := sound_ready hm.sound hgranted
    have hmemory : m'.memory heap = m.ready.memory heap := by rw [memory, hcapacity, memory]
    refine ⟨?_, ?_, ?_, hmemory ▸ hsound⟩
    · rw [hidle, ready]
      split
      · rfl
      · exact hm.idle
    · rw [hcapacity, ready, resizes, Op.isInsert, Bool.true_and]
      split
      · rfl
      · rfl
    · refine Nat.le_trans hsize (Nat.le_of_eq ?_)
      rw [ready]
      split
      · rfl
      · rfl
  next => cases hinsert

theorem remove_grown (m : ConcurrentHashMap K V) (key : K) (hash : UInt64)
    (hcounts : ∀ value, (m.remove key hash).2 = .ok (some value) → 0 < m.size) :
    (m.remove key hash).1.resizeState = m.resizeState ∧
      (m.remove key hash).1.capacity = m.capacity ∧ (m.remove key hash).1.size ≤ m.size := by
  simp only [ConcurrentHashMap.remove] at hcounts ⊢
  split
  next value hvalue =>
    rw [hvalue] at hcounts
    exact ⟨rfl, rfl, Nat.le_trans (Word.sub_le (hcounts value rfl)) (Nat.sub_le _ _)⟩
  next => exact ⟨rfl, rfl, Nat.le_refl _⟩

theorem Sized.grown (hm : m.Sized heap) (hcounts : CountsDown h m op)
    (hstep : m.step heap h op = some m') : m.Grown heap op m' := by
  simp only [ConcurrentHashMap.step] at hstep
  split at hstep
  next m₁ r hexec =>
    cases hstep
    cases op with
    | insert seed key value =>
      simp only [exec, Option.map_eq_some_iff] at hexec
      obtain ⟨⟨m₂, r₂⟩, hinsert, heq⟩ := hexec
      cases r₂ with
      | error p => cases heq
      | ok old =>
        cases heq
        exact hm.insert seed hinsert
    | get seed key =>
      simp only [exec, ConcurrentHashMap.get, hm.idle, Option.map_some] at hexec
      obtain ⟨rfl, _⟩ := Prod.mk.inj (Option.some.inj hexec)
      exact ⟨hm.idle, rfl, Nat.le_refl _, hm.sound⟩
    | remove seed key =>
      obtain ⟨rfl, _⟩ := Prod.mk.inj (Option.some.inj hexec)
      obtain ⟨hidle, hcapacity, hsize⟩ := remove_grown m key (h seed key) hcounts
      refine ⟨hidle.trans hm.idle, hcapacity, hsize, ?_⟩
      rw [memory, hcapacity]
      exact hm.sound
    | clear =>
      cases hexec
      exact ⟨hm.idle, rfl, Nat.zero_le _, hm.sound⟩
    | len =>
      cases hexec
      exact ⟨hm.idle, rfl, Nat.le_refl _, hm.sound⟩
  next => cases hstep

theorem Sized.step (hm : m.Sized heap) (hcounts : CountsDown h m op)
    (hstep : m.step heap h op = some m') : m'.Sized heap := by
  have hgrown := hm.grown hcounts hstep
  have hload := hm.load
  have hsize := hgrown.size
  by_cases hresize : m.resizes op = true
  · obtain ⟨hinsert, hfull⟩ := resizes_iff.mp hresize
    have hcapacity : m'.capacity = m.capacity * 2 := hgrown.capacity.trans (if_pos hresize)
    have hpos := hm.pos
    rw [if_pos hinsert] at hsize
    refine ⟨?_, hgrown.idle, by omega, hgrown.sound⟩
    obtain ⟨k, hk⟩ := hm.power
    exact ⟨k + 1, by rw [hcapacity, hk, Nat.pow_succ]⟩
  · have hcapacity : m'.capacity = m.capacity := hgrown.capacity.trans (if_neg hresize)
    have hroom := not_resizes hresize
    refine ⟨by rw [hcapacity]; exact hm.power, hgrown.idle, ?_, hgrown.sound⟩
    omega

theorem Sized.of_run (hm : m.Sized heap)
    (hcounts : Along (ConcurrentHashMap.step heap h) (CountsDown h) m ops)
    (hrun : run (ConcurrentHashMap.step heap h) m ops = some m') : m'.Sized heap :=
  run_invariant_along (fun _ _ _ hm hcounts hstep => hm.step hcounts hstep) hm hcounts hrun

/-! ### The cost of resizing -/

/-- What the insertions since the last resize have saved for the next one. -/
def savings (m : ConcurrentHashMap K V) : Nat := 16 * m.size - 6 * m.capacity

/-- An insertion saves sixteen thirds of a bucket. -/
theorem Sized.migrations_paid (hm : m.Sized heap) (hcounts : CountsDown h m op)
    (hstep : m.step heap h op = some m') :
    m'.savings + 3 * m.migrations op ≤ m.savings + 16 * (if op.isInsert then 1 else 0) := by
  have hgrown := hm.grown hcounts hstep
  have hsize := hgrown.size
  simp only [savings, migrations, ResizeState.visited_length]
  by_cases hresize : m.resizes op = true
  · obtain ⟨hinsert, hfull⟩ := resizes_iff.mp hresize
    have hcapacity : m'.capacity = m.capacity * 2 := hgrown.capacity.trans (if_pos hresize)
    rw [if_pos hinsert] at hsize ⊢
    rw [if_pos hresize]
    omega
  · have hcapacity : m'.capacity = m.capacity := hgrown.capacity.trans (if_neg hresize)
    rw [if_neg hresize]
    omega

/-- The capacity is the initial one, or the insertions so far have filled the half of it. -/
theorem Sized.capacity_run {initial n : Nat} (hm : m.Sized heap) (hsize : m.size ≤ n)
    (hcapacity : m.capacity = initial ∨ 3 * m.capacity < 8 * n)
    (hcounts : Along (ConcurrentHashMap.step heap h) (CountsDown h) m ops)
    (hrun : run (ConcurrentHashMap.step heap h) m ops = some m') :
    m'.capacity = initial ∨ 3 * m'.capacity < 8 * (n + ops.countP Op.isInsert) := by
  induction ops generalizing m n with
  | nil =>
    cases hrun
    exact hcapacity
  | cons op ops ih =>
    obtain ⟨m₁, hstep, hrest⟩ := run_cons_eq_some.mp hrun
    have hgrown := hm.grown hcounts.1 hstep
    have hnext := ih (n := n + if op.isInsert then 1 else 0) (hm.step hcounts.1 hstep)
      (Nat.le_trans hgrown.size (Nat.add_le_add_right hsize _)) ?_ (hcounts.2 m₁ hstep) hrest
    · rw [List.countP_cons]
      rwa [Nat.add_assoc, Nat.add_comm (if op.isInsert then 1 else 0)] at hnext
    · by_cases hresize : m.resizes op = true
      · obtain ⟨hinsert, hfull⟩ := resizes_iff.mp hresize
        rw [hgrown.capacity, if_pos hresize]
        omega
      · rw [hgrown.capacity, if_neg hresize]
        omega

/-- **Resizing is amortized.**  In every sequential run that never counts below 0, whatever hashes
    it draws, the migrations go through 16 buckets at most for every three insertions; the map is
    never more than one entry over its load factor, and it outgrows its initial capacity only by
    what has been inserted. -/
theorem resizing_amortized {initial : ConcurrentHashMap K V}
    (hnew : withCapacity heap requested = some initial)
    (hsize : roundUp requested * heap.bucket.val < 2 ^ 64)
    (hcounts : Along (step heap h) (CountsDown h) initial ops)
    (hrun : run (step heap h) initial ops = some m) :
    3 * total (step heap h) (fun m op _ => m.migrations op) initial ops ≤
        16 * ops.countP Op.isInsert ∧
      4 * m.size ≤ 3 * m.capacity + 4 ∧
      (m.capacity = roundUp requested ∨ 3 * m.capacity < 8 * ops.countP Op.isInsert) := by
  obtain ⟨hstart, hzero, hcapacity⟩ := sized_withCapacity hnew hsize
  have hcost : total (step heap h) (fun m op _ => 3 * m.migrations op) initial ops + m.savings ≤
      initial.savings +
        total (step heap h) (fun _ op _ => 16 * (if op.isInsert then 1 else 0)) initial ops :=
    run_cost_le (I := Sized heap) (C := CountsDown h)
      (fun _ _ _ hm hcounts hstep => ⟨hm.step hcounts hstep, hm.migrations_paid hcounts hstep⟩)
      hstart hcounts hrun
  have hempty : initial.savings = 0 := by simp [savings, hzero]
  rw [total_mul, total_mul, total_countP hrun, hempty] at hcost
  have hgrowth := hstart.capacity_run (n := 0) (Nat.le_of_eq hzero) (.inl hcapacity) hcounts hrun
  rw [Nat.zero_add] at hgrowth
  exact ⟨by omega, (hstart.of_run hcounts hrun).load, hgrowth⟩

/-- Two of the three insertions resize the map. -/
theorem resizing_amortized_twice :
    ∃ initial m, withCapacity wordHeap 1 = some initial ∧
      run (step wordHeap fun (_ : Unit) (key : Nat) => key.toUInt64)
        (initial : ConcurrentHashMap Nat Nat)
        [.insert () 1 5, .insert () 2 6, .insert () 3 7] = some m ∧ m.capacity = 4 ∧
      3 * total (step wordHeap fun (_ : Unit) (key : Nat) => key.toUInt64)
        (fun m op _ => m.migrations op) initial
        [.insert () 1 5, .insert () 2 6, .insert () 3 7] ≤ 16 * 3 := by
  have hnew : (withCapacity wordHeap 1 : Option (ConcurrentHashMap Nat Nat)) =
      some (allocated 1) := withCapacity_of_power ⟨0, rfl⟩ (by decide) rfl
  have hsize : roundUp 1 * wordHeap.bucket.val < 2 ^ 64 := by
    have hrounded : roundUp 1 = 1 := if_pos ⟨0, rfl⟩
    rw [hrounded]
    decide
  have hrun : (run (step wordHeap fun (_ : Unit) (key : Nat) => key.toUInt64)
      (allocated 1 : ConcurrentHashMap Nat Nat)
      [.insert () 1 5, .insert () 2 6, .insert () 3 7]).map capacity = some 4 := by
    decide +kernel
  obtain ⟨m, hm, hcapacity⟩ := Option.map_eq_some_iff.mp hrun
  have hcounts : Along (step wordHeap fun (_ : Unit) (key : Nat) => key.toUInt64)
      (CountsDown fun (_ : Unit) (key : Nat) => key.toUInt64)
      (allocated 1 : ConcurrentHashMap Nat Nat)
      [.insert () 1 5, .insert () 2 6, .insert () 3 7] :=
    ⟨trivial, fun _ _ => ⟨trivial, fun _ _ => ⟨trivial, fun _ _ => trivial⟩⟩⟩
  exact ⟨_, m, hnew, hm, hcapacity, (resizing_amortized hnew hsize hcounts hm).1⟩

end ConcurrentHashMap

end VelocityX.Map
