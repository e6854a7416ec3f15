import VelocityX.Error
import VelocityX.Lib.Transition
import VelocityX.Lib.Word
import VelocityX.Map.Resize

/-!
# The sizes of the tables of the concurrent hash map

The arithmetic of `with_capacity`, `allocate_table` and `try_resize` of `src/map/concurrent.rs` in a
release build: a `usize` has `w` bits, and `next_power_of_two`, `capacity * size_of::<Bucket>()` and
`old_capacity * 2` wrap.  The layout refuses sizes above `isize::MAX`, but it sees the size only
after it has wrapped.

A table is its capacity together with the number of bytes that have been allocated for it.  The
allocator may return null for any size; `grants` says for which sizes it does not.
-/

namespace VelocityX.Map.Alloc

open Transition

variable {K V : Type*} {w : Nat}

/-- `size_of::<Bucket<K, V>>()`, for buckets aligned to 64 bytes. -/
structure BucketSize (w : Nat) where
  val : Nat
  aligned : 64 ∣ val
  le : 64 ≤ val
  lt : val < 2 ^ w

structure Table where
  capacity : Nat
  bytes : Nat
deriving DecidableEq, Repr

abbrev Allocator := Nat → Bool

/-- `Layout::from_size_align(size, align)`: an error for a size that exceeds `isize::MAX` when it is
    rounded up to the alignment. -/
def layoutFromSizeAlign (w size align : Nat) : Option Nat :=
  if (size + (align - 1)) / align * align ≤ 2 ^ (w - 1) - 1 then some size else none

/-- `none` is the panic of `unwrap`, or the abort after a null pointer. -/
def allocateTable (w : Nat) (bucket : BucketSize w) (grants : Allocator) (capacity : Nat) :
    Option Table :=
  (layoutFromSizeAlign w (Word.mul w capacity bucket.val) 64).bind fun size =>
    if grants size then some ⟨capacity, size⟩ else none

/-- `capacity.next_power_of_two()`, which wraps to 0. -/
def nextPowerOfTwo (w capacity : Nat) : Nat := capacity.nextPowerOfTwo % 2 ^ w

def withCapacity (w : Nat) (bucket : BucketSize w) (grants : Allocator) (capacity : Nat) :
    Option Table :=
  allocateTable w bucket grants
    (if capacity.isPowerOfTwo then capacity else nextPowerOfTwo w capacity)

/-- The new table of `try_resize`. -/
def tryResize (w : Nat) (bucket : BucketSize w) (old : Table) (grants : Allocator) : Option Table :=
  allocateTable w bucket grants (Word.mul w old.capacity 2)

/-- `(hash as usize) & (capacity - 1)`. -/
def bucketIndex (w : Nat) (hash : UInt64) (capacity : Nat) : Nat :=
  hash.toNat % 2 ^ w &&& Word.sub w capacity 1

/-- The capacity is a power of two from `least` on, and all buckets lie in the allocation: those
    that are initialised and those that a hash selects. -/
structure Exact (w : Nat) (bucket : BucketSize w) (least : Nat) (t : Table) : Prop where
  power : ∃ k, t.capacity = 2 ^ k
  least_le : least ≤ t.capacity
  bytes : t.capacity * bucket.val ≤ t.bytes
  initialized : ∀ i, i < t.capacity → (i + 1) * bucket.val ≤ t.bytes
  indexed : ∀ hash, (bucketIndex w hash t.capacity + 1) * bucket.val ≤ t.bytes

/-- The table that `with_capacity` returns is exact, and so is every table that later resizes
    allocate. -/
def ExactOrRefused (w : Nat) (bucket : BucketSize w) (grants : Allocator) (requested : Nat) :
    Prop :=
  ∀ t, withCapacity w bucket grants requested = some t →
    Exact w bucket requested t ∧
      ∀ later : List Allocator, Along (tryResize w bucket)
        (fun old grants => ∀ t', tryResize w bucket old grants = some t' →
          Exact w bucket (2 * old.capacity) t') t later

section Sizes

variable {bucket : BucketSize w} {grants : Allocator} {capacity size requested : Nat} {t t' : Table}

theorem BucketSize.width (bucket : BucketSize w) : 7 ≤ w := by
  have hlt : 2 ^ 6 < 2 ^ w := Nat.lt_of_le_of_lt bucket.le bucket.lt
  exact (Nat.pow_lt_pow_iff_right (by decide)).mp hlt

theorem BucketSize.dvd_size (bucket : BucketSize w) (capacity : Nat) :
    64 ∣ Word.mul w capacity bucket.val := by
  have hword : 2 ^ 6 ∣ 2 ^ w := Nat.pow_dvd_pow 2 (Nat.le_of_succ_le bucket.width)
  exact (Nat.dvd_mod_iff hword).mpr (Dvd.dvd.mul_left bucket.aligned capacity)

/-- The layout of a multiple of the alignment. -/
theorem layout_eq (hsize : 64 ∣ size) :
    layoutFromSizeAlign w size 64 = if size < 2 ^ (w - 1) then some size else none := by
  obtain ⟨n, rfl⟩ := hsize
  have hround : (64 * n + (64 - 1)) / 64 * 64 = 64 * n := by omega
  have hpos := Nat.two_pow_pos (w - 1)
  rw [layoutFromSizeAlign, hround]
  congr 1
  exact propext (by omega)

theorem allocateTable_eq_some :
    allocateTable w bucket grants capacity = some t ↔
      Word.mul w capacity bucket.val < 2 ^ (w - 1) ∧
        grants (Word.mul w capacity bucket.val) = true ∧
        t = ⟨capacity, Word.mul w capacity bucket.val⟩ := by
  rw [allocateTable, layout_eq (bucket.dvd_size capacity)]
  split
  · next hlt =>
    rw [Option.bind_some]
    split
    · next hgrants =>
      rw [Option.some.injEq]
      exact ⟨fun h => ⟨hlt, hgrants, h.symm⟩, fun h => h.2.2.symm⟩
    · next hrefused => exact iff_of_false nofun fun h => hrefused h.2.1
  · next hge => exact iff_of_false nofun fun h => hge h.1

theorem withCapacity_eq (hrequested : requested < 2 ^ w) :
    withCapacity w bucket grants requested =
      allocateTable w bucket grants (roundUp requested % 2 ^ w) := by
  rw [withCapacity, roundUp]
  congr 1
  split
  · exact (Nat.mod_eq_of_lt hrequested).symm
  · rfl

/-- The size of the table does not depend on whether its capacity has wrapped. -/
theorem mul_mod (capacity : Nat) :
    Word.mul w (capacity % 2 ^ w) bucket.val = capacity * bucket.val % 2 ^ w := by
  rw [Word.mul, Nat.mod_mul_mod]

end Sizes

/-! ### Tables in use -/

/-- The bytes of a table are those of its buckets. -/
structure Table.Sound (w : Nat) (bucket : BucketSize w) (t : Table) : Prop where
  power : ∃ k, t.capacity = 2 ^ k
  bytes : t.bytes = t.capacity * bucket.val
  lt : t.bytes < 2 ^ (w - 1)

section Sound

variable {bucket : BucketSize w} {grants : Allocator} {requested least : Nat} {t t' : Table}

theorem bucketIndex_lt (hash : UInt64) {capacity : Nat} (hpower : ∃ k, capacity = 2 ^ k)
    (hlt : capacity < 2 ^ w) : bucketIndex w hash capacity < capacity := by
  obtain ⟨k, rfl⟩ := hpower
  rw [bucketIndex, Word.sub_of_le Nat.one_le_two_pow hlt, Nat.and_two_pow_sub_one_eq_mod]
  exact Nat.mod_lt _ (Nat.two_pow_pos k)

/-- With a 64-bit `usize` this is the index of `Map/Table.lean`. -/
theorem bucketIndex_eq (hash : UInt64) {capacity : Nat} (hpos : 0 < capacity)
    (hlt : capacity < 2 ^ 64) : bucketIndex 64 hash capacity = Map.bucketIndex hash capacity := by
  rw [bucketIndex, Word.sub_of_le hpos hlt, Nat.mod_eq_of_lt hash.toNat_lt, Map.bucketIndex]

theorem Table.Sound.capacity_lt (ht : t.Sound w bucket) : 2 * t.capacity * bucket.val < 2 ^ w := by
  have hw := bucket.width
  have hdouble : 2 ^ w = 2 * 2 ^ (w - 1) := by
    rw [← Nat.pow_succ', Nat.sub_one, Nat.succ_pred (by omega)]
  have hlt := ht.lt
  rw [ht.bytes] at hlt
  rw [Nat.mul_assoc]
  omega

theorem Table.Sound.exact (ht : t.Sound w bucket) (hleast : least ≤ t.capacity) :
    Exact w bucket least t := by
  have hlt : t.capacity < 2 ^ w := by
    have hsize := ht.capacity_lt
    have hle : t.capacity * 64 ≤ t.capacity * bucket.val := Nat.mul_le_mul_left _ bucket.le
    rw [Nat.mul_assoc] at hsize
    omega
  have hbucket : ∀ i, i < t.capacity → (i + 1) * bucket.val ≤ t.bytes := by
    intro i hi
    rw [ht.bytes]
    exact Nat.mul_le_mul_right _ hi
  refine ⟨ht.power, hleast, Nat.le_of_eq ht.bytes.symm, hbucket, fun hash => ?_⟩
  exact hbucket _ (bucketIndex_lt hash ht.power hlt)

/-- A capacity whose table does not wrap. -/
theorem sound_of_allocateTable {capacity : Nat} (hpower : ∃ k, capacity = 2 ^ k)
    (hlt : capacity * bucket.val < 2 ^ w)
    (ht : allocateTable w bucket grants capacity = some t) :
    t.Sound w bucket ∧ t.capacity = capacity := by
  obtain ⟨hsize, _, rfl⟩ := allocateTable_eq_some.mp ht
  exact ⟨⟨hpower, Word.mul_of_lt hlt, hsize⟩, rfl⟩

/-- A request whose rounded capacity does not wrap in bytes. -/
theorem sound_of_withCapacity (hsize : roundUp requested * bucket.val < 2 ^ w)
    (ht : withCapacity w bucket grants requested = some t) :
    t.Sound w bucket ∧ t.capacity = roundUp requested := by
  have hle : roundUp requested * 64 ≤ roundUp requested * bucket.val :=
    Nat.mul_le_mul_left _ bucket.le
  have hrequested := le_roundUp requested
  rw [withCapacity_eq (by omega), Nat.mod_eq_of_lt (by omega)] at ht
  exact sound_of_allocateTable (roundUp_power requested) hsize ht

/-- A sound table is doubled without a wrap. -/
theorem Table.Sound.tryResize (ht : t.Sound w bucket)
    (hresize : Alloc.tryResize w bucket t grants = some t') :
    t'.Sound w bucket ∧ t'.capacity = 2 * t.capacity := by
  have hsize := ht.capacity_lt
  have hdouble : Word.mul w t.capacity 2 = 2 * t.capacity := by
    rw [Nat.mul_comm 2]
    apply Word.mul_of_lt
    have hle : t.capacity * 64 ≤ t.capacity * bucket.val := Nat.mul_le_mul_left _ bucket.le
    rw [Nat.mul_assoc] at hsize
    omega
  rw [Alloc.tryResize, hdouble] at hresize
  refine sound_of_allocateTable ?_ hsize hresize
  obtain ⟨k, hk⟩ := ht.power
  exact ⟨k + 1, by rw [hk, Nat.pow_succ']⟩

/-- The resize of the map, whose capacities are natural numbers, has the capacity of the words. -/
theorem Table.Sound.resized_capacity {m : ConcurrentHashMap K V} (ht : t.Sound w bucket)
    (hcapacity : m.capacity = t.capacity) (hidle : m.resizeState = none)
    (hresize : Alloc.tryResize w bucket t grants = some t') :
    ∃ m', m.tryResize = some m' ∧ m'.capacity = t'.capacity := by
  refine ⟨m.resized, ConcurrentHashMap.tryResize_eq (hcapacity ▸ ht.power) hidle, ?_⟩
  show m.capacity * 2 = t'.capacity
  rw [(ht.tryResize hresize).2, hcapacity, Nat.mul_comm]

/-- Every table that later resizes allocate is sound. -/
theorem Table.Sound.along (ht : t.Sound w bucket) (later : List Allocator) :
    Along (Alloc.tryResize w bucket)
      (fun old grants => ∀ t', Alloc.tryResize w bucket old grants = some t' →
        Exact w bucket (2 * old.capacity) t') t later := by
  refine (along_congr (D := fun _ _ => True) (I := Table.Sound w bucket) ?_ ?_ ht).mpr
    (along_of_forall (fun _ _ => trivial) t later)
  · exact fun old grants t' hold hresize => (hold.tryResize hresize).1
  · intro old grants hold
    refine iff_of_true (fun t' hresize => ?_) trivial
    obtain ⟨hsound, hdouble⟩ := hold.tryResize hresize
    exact hsound.exact (Nat.le_of_eq hdouble.symm)

/-- A capacity that the rounding has wrapped to 0, or whose size has wrapped. -/
theorem not_exact_of_wrap {capacity size : Nat} (hpower : ∃ k, capacity = 2 ^ k)
    (hle : capacity ≤ 2 ^ w) (hwrap : 2 ^ w ≤ capacity * bucket.val) (hsize : size < 2 ^ w) :
    ¬ Exact w bucket least ⟨capacity % 2 ^ w, size⟩ := by
  intro hexact
  rcases Nat.lt_or_eq_of_le hle with hlt | heq
  · have hbytes : capacity % 2 ^ w * bucket.val ≤ size := hexact.bytes
    rw [Nat.mod_eq_of_lt hlt] at hbytes
    omega
  · obtain ⟨k, hk⟩ := hexact.power
    have hzero : capacity % 2 ^ w = 0 := by rw [heq, Nat.mod_self]
    exact Nat.ne_of_lt (Nat.two_pow_pos k) (hzero.symm.trans hk)

/-- **Which requests are exact or refused.**  For every requested capacity and bucket size: the size
    of the rounded capacity does not wrap, or the layout or the allocator refuses what is left of it
    after the wrap.  Then every later resize is exact or refused as well. -/
theorem exactOrRefused_iff (bucket : BucketSize w) (grants : Allocator)
    (hrequested : requested < 2 ^ w) :
    ExactOrRefused w bucket grants requested ↔
      roundUp requested * bucket.val < 2 ^ w ∨
        2 ^ (w - 1) ≤ roundUp requested * bucket.val % 2 ^ w ∨
        grants (roundUp requested * bucket.val % 2 ^ w) = false := by
  have hpower := roundUp_power requested
  constructor
  · intro hexact
    by_contra hnot
    rw [not_or, not_or, Nat.not_lt, Nat.not_le, Bool.not_eq_false] at hnot
    obtain ⟨hwrap, hsize, hgrants⟩ := hnot
    have htable : withCapacity w bucket grants requested =
        some ⟨roundUp requested % 2 ^ w, roundUp requested * bucket.val % 2 ^ w⟩ := by
      rw [withCapacity_eq hrequested, allocateTable_eq_some, mul_mod]
      exact ⟨hsize, hgrants, rfl⟩
    exact not_exact_of_wrap hpower (roundUp_le (Nat.le_of_lt hrequested)) hwrap
      (Nat.mod_lt _ (Nat.two_pow_pos w)) (hexact _ htable).1
  · intro hcondition t ht
    have hsize : roundUp requested * bucket.val < 2 ^ w := by
      rw [withCapacity_eq hrequested] at ht
      obtain ⟨hlt, hgrants, _⟩ := allocateTable_eq_some.mp ht
      rw [mul_mod] at hlt hgrants
      rcases hcondition with hsize | hrefused | hrefused
      · exact hsize
      · exact absurd hlt (Nat.not_lt.mpr hrefused)
      · rw [hrefused] at hgrants
        cases hgrants
    obtain ⟨hsound, hcapacity⟩ := sound_of_withCapacity hsize ht
    refine ⟨hsound.exact ?_, hsound.along⟩
    rw [hcapacity]
    exact le_roundUp requested

/-- Buckets of 704 bytes, as for keys and values of 64 bits. -/
def wordBuckets : BucketSize 64 := ⟨704, by decide, by decide, by decide⟩

/-- A request for 100 buckets. -/
theorem exactOrRefused_iff_hundredBuckets :
    ExactOrRefused 64 wordBuckets (fun _ => true) 100 := by
  refine (exactOrRefused_iff wordBuckets (fun _ => true) (by decide)).mpr (Or.inl ?_)
  have hrounded : roundUp 100 ≤ 2 ^ 7 := roundUp_le (by decide)
  calc roundUp 100 * 704 ≤ 2 ^ 7 * 704 := Nat.mul_le_mul_right _ hrounded
    _ < 2 ^ 64 := by decide

/-- A request for 2 ^ 58 buckets, for which no bytes are allocated. -/
theorem allocated_nothing :
    ¬ ∀ (bucket : BucketSize 64) (grants : Allocator) (requested : Nat), requested < 2 ^ 64 →
      ExactOrRefused 64 bucket grants requested := by
  intro hall
  have hrounded : roundUp (2 ^ 58) = 2 ^ 58 := if_pos ⟨58, rfl⟩
  have htable : withCapacity 64 wordBuckets (fun _ => true) (2 ^ 58) = some ⟨2 ^ 58, 0⟩ := by
    rw [withCapacity_eq (by decide), hrounded]
    exact allocateTable_eq_some.mpr ⟨by decide, rfl, by decide⟩
  have hexact := (hall wordBuckets (fun _ => true) (2 ^ 58) (by decide) _ htable).1
  exact absurd hexact.bytes (by decide)

end Sound

end VelocityX.Map.Alloc
