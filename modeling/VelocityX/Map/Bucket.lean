import Mathlib.Data.List.Basic

/-!
# Buckets of the concurrent hash map

The bucket of `src/map/concurrent.rs`: an array of sixteen slots of which the first
`len` are in use, and what `insert_locked`, `get_locked` and `remove_locked` do inside
one bucket.  Array accesses carry the bounds check of the array; an operation returns
the bucket it leaves behind also when it panics.

`Holds b es` says that the entries `es` occupy the slots below `len`, in order, and the
other slots are free.
-/

namespace VelocityX.Map

variable {K V : Type*}

structure Entry (K V : Type*) where
  key : K
  value : V
  hash : UInt64
  distance : Nat
deriving DecidableEq, Repr

inductive Panic where
  | bucketOverflow
  | indexOutOfBounds
  | unwrapNone
  | subtractOverflow
  | allocation
deriving DecidableEq, Repr

structure Bucket (K V : Type*) where
  entries : Vector (Option (Entry K V)) 16
  len : Nat
deriving DecidableEq, Repr

namespace Bucket

/-- A bucket of a freshly allocated table. -/
def empty : Bucket K V := ⟨Vector.replicate 16 none, 0⟩

/-- `entries[i]`. -/
def read (b : Bucket K V) (i : Nat) : Except Panic (Option (Entry K V)) :=
  if h : i < 16 then .ok b.entries[i] else .error .indexOutOfBounds

/-- `entries[i] = slot`, for an index that has passed the bounds check. -/
def write (b : Bucket K V) (i : Nat) (slot : Option (Entry K V)) : Bucket K V :=
  { b with entries := b.entries.setIfInBounds i slot }

/-- The entries that a loop over `0..len` comes to. -/
def stored (b : Bucket K V) : List (Entry K V) :=
  (List.range b.len).filterMap fun i => b.entries[i]?.join

/-- `entries[len] = Some(entry); len += 1`. -/
def push (b : Bucket K V) (entry : Entry K V) : Bucket K V :=
  { b.write b.len (some entry) with len := b.len + 1 }

variable [DecidableEq K]

/-- The entry in slot `i`, if there is one and it has the hash and the key. -/
def matchAt (b : Bucket K V) (key : K) (hash : UInt64) (i : Nat) :
    Except Panic (Option (Entry K V)) :=
  (b.read i).map fun slot => slot.filter fun entry => entry.hash = hash ∧ entry.key = key

/-- The loop `for i in 0..len` from slot `i` on with `n` slots to go, up to the first
    entry that has the hash and the key. -/
def scan (b : Bucket K V) (key : K) (hash : UInt64) :
    Nat → Nat → Except Panic (Option (Nat × Entry K V))
  | 0, _ => .ok none
  | n + 1, i =>
      match b.matchAt key hash i with
      | .error p => .error p
      | .ok none => b.scan key hash n (i + 1)
      | .ok (some entry) => .ok (some (i, entry))

/-- The part of `insert_locked` after a scan that found no entry. -/
def insertNew (b : Bucket K V) (key : K) (value : V) (hash : UInt64) :
    Bucket K V × Except Panic (Option V) :=
  if b.len < 16 then
    (b.push ⟨key, value, hash, 0⟩, .ok none)
  else
    (b, .error .bucketOverflow)

def insert (b : Bucket K V) (key : K) (value : V) (hash : UInt64) :
    Bucket K V × Except Panic (Option V) :=
  match b.scan key hash b.len 0 with
  | .error p => (b, .error p)
  | .ok (some (i, entry)) =>
      (b.write i (some ⟨key, value, hash, entry.distance⟩), .ok (some entry.value))
  | .ok none => b.insertNew key value hash

def get (b : Bucket K V) (key : K) (hash : UInt64) : Except Panic (Option V) :=
  match b.scan key hash b.len 0 with
  | .error p => .error p
  | .ok found => .ok (found.map fun r => r.2.value)

omit [DecidableEq K] in
/-- The loop `for j in i..len - 1`, from `j` on with `n` iterations left. -/
def shift : Nat → Nat → Bucket K V → Bucket K V × Except Panic Unit
  | 0, _, b => (b, .ok ())
  | n + 1, j, b =>
      match b.read (j + 1) with
      | .error p => (b, .error p)
      | .ok slot => shift n (j + 1) ((b.write (j + 1) none).write j slot)

omit [DecidableEq K] in
/-- `len -= 1` and the return of the removed value. -/
def shrink (b : Bucket K V) (value : V) : Bucket K V × Except Panic (Option V) :=
  match b.len with
  | 0 => (b, .error .subtractOverflow)
  | n + 1 => ({ b with len := n }, .ok (some value))

omit [DecidableEq K] in
/-- The rest of `remove_locked` from iteration `j` of the shift on. -/
def shiftFrom (b : Bucket K V) (n j : Nat) (value : V) : Bucket K V × Except Panic (Option V) :=
  match shift n j b with
  | (b', .error p) => (b', .error p)
  | (b', .ok ()) => b'.shrink value

omit [DecidableEq K] in
/-- The rest of `remove_locked` once the entry has been taken out of slot `i`. -/
def closeGap (b : Bucket K V) (i : Nat) (value : V) : Bucket K V × Except Panic (Option V) :=
  match b.len with
  | 0 => (b, .error .subtractOverflow)
  | n + 1 => b.shiftFrom (n - i) i value

omit [DecidableEq K] in
/-- `entries[i].take().unwrap()` and what follows it. -/
def removeAt (b : Bucket K V) (i : Nat) : Bucket K V × Except Panic (Option V) :=
  match b.read i with
  | .error p => (b, .error p)
  | .ok none => (b, .error .unwrapNone)
  | .ok (some entry) => closeGap (b.write i none) i entry.value

def remove (b : Bucket K V) (key : K) (hash : UInt64) :
    Bucket K V × Except Panic (Option V) :=
  match b.scan key hash b.len 0 with
  | .error p => (b, .error p)
  | .ok none => (b, .ok none)
  | .ok (some (i, _)) => b.removeAt i

/-! ### Slots -/

omit [DecidableEq K]

variable {b : Bucket K V} {i j : Nat} {slot : Option (Entry K V)} {entry : Entry K V}

@[simp] theorem write_len : (b.write i slot).len = b.len := rfl

@[simp] theorem push_len : (b.push entry).len = b.len + 1 := rfl

theorem read_write_self (hi : i < 16) : (b.write i slot).read i = .ok slot := by
  simp [read, write, hi]

theorem read_write_of_ne (hne : i ≠ j) : (b.write i slot).read j = b.read j := by
  simp only [read, write]
  split
  · rw [Vector.getElem_setIfInBounds_ne _ hne]
  · rfl

/-! ### What a bucket holds -/

structure Holds (b : Bucket K V) (es : List (Entry K V)) : Prop where
  len_eq : b.len = es.length
  length_le : es.length ≤ 16
  read_eq : ∀ i < 16, b.read i = .ok es[i]?

variable {es l r : List (Entry K V)} {key : K} {value : V} {hash : UInt64}

theorem holds_empty : (empty : Bucket K V).Holds [] := by
  refine ⟨rfl, Nat.zero_le _, ?_⟩
  intro i hi
  simp [read, empty, hi]

theorem filterMap_range_getElem? {α : Type*} (xs : List α) :
    (List.range xs.length).filterMap (fun i => xs[i]?) = xs := by
  induction xs with
  | nil => rfl
  | cons x xs ih =>
    rw [List.length_cons, List.range_succ_eq_map]
    show x :: List.filterMap (fun i => (x :: xs)[i]?) ((List.range xs.length).map Nat.succ) = _
    rw [List.filterMap_map]
    exact congrArg (x :: ·) ih

theorem Holds.stored_eq (h : b.Holds es) : b.stored = es := by
  have hslot : ∀ i ∈ List.range b.len, b.entries[i]?.join = es[i]? := by
    intro i hi
    have hlt : i < 16 := by
      have := List.mem_range.mp hi
      have := h.len_eq
      have := h.length_le
      omega
    have hread := h.read_eq i hlt
    simp only [read, hlt, dif_pos, Except.ok.injEq] at hread
    rw [← hread, Vector.getElem?_eq_getElem hlt]
    rfl
  rw [stored, List.filterMap_congr hslot, h.len_eq]
  exact filterMap_range_getElem? es

theorem Holds.read_middle (h : b.Holds (l ++ entry :: r)) :
    b.read l.length = .ok (some entry) := by
  have hle := h.length_le
  rw [List.length_append, List.length_cons] at hle
  rw [h.read_eq _ (by omega), List.getElem?_append_right (Nat.le_refl _), Nat.sub_self]
  rfl

theorem Holds.write (h : b.Holds es) (hi : i < es.length) (entry : Entry K V) :
    (b.write i (some entry)).Holds (es.set i entry) := by
  refine ⟨by simpa using h.len_eq, by simpa using h.length_le, ?_⟩
  intro j hj
  by_cases hij : i = j
  · subst hij
    rw [read_write_self hj, List.getElem?_set_self hi]
  · rw [read_write_of_ne hij, List.getElem?_set_ne hij]
    exact h.read_eq j hj

theorem Holds.push (h : b.Holds es) (hroom : es.length < 16) (entry : Entry K V) :
    (b.push entry).Holds (es ++ [entry]) := by
  refine ⟨by simp [h.len_eq], by simp; omega, ?_⟩
  intro j hj
  show (b.write b.len (some entry)).read j = _
  rw [h.len_eq]
  by_cases hij : es.length = j
  · subst hij
    rw [read_write_self hj, List.getElem?_concat_length]
  · rw [read_write_of_ne hij, h.read_eq j hj]
    rcases Nat.lt_or_gt_of_ne hij with hgt | hlt
    · rw [List.getElem?_eq_none (by omega), List.getElem?_eq_none (by simp; omega)]
    · rw [List.getElem?_append_left hlt]

/-! ### The gap of a removal

While `remove_locked` shifts the later entries down there is one free slot between the
entries `l` that are in place and the entries `r` that are not. -/

structure Gap (b : Bucket K V) (l r : List (Entry K V)) : Prop where
  len_eq : b.len = l.length + 1 + r.length
  length_le : l.length + 1 + r.length ≤ 16
  below : ∀ i < l.length, b.read i = .ok l[i]?
  gap : b.read l.length = .ok none
  above : ∀ i, l.length < i → i < 16 → b.read i = .ok r[i - (l.length + 1)]?

theorem Holds.gap (h : b.Holds (l ++ entry :: r)) : (b.write l.length none).Gap l r := by
  have hlen : (l ++ entry :: r).length = l.length + 1 + r.length := by
    rw [List.length_append, List.length_cons]
    omega
  have hle : l.length + 1 + r.length ≤ 16 := hlen ▸ h.length_le
  refine ⟨by rw [write_len, h.len_eq, hlen], hle, ?_, read_write_self (by omega), ?_⟩
  · intro i hi
    rw [read_write_of_ne (by omega), h.read_eq i (by omega), List.getElem?_append_left hi]
  · intro i hlt hi
    obtain ⟨k, rfl⟩ := Nat.exists_eq_add_of_lt hlt
    rw [read_write_of_ne (by omega), h.read_eq _ hi, List.getElem?_append_right (by omega)]
    have hk : l.length + k + 1 - l.length = k + 1 := by omega
    have hk' : l.length + k + 1 - (l.length + 1) = k := by omega
    rw [hk, hk', List.getElem?_cons_succ]

theorem Gap.step (h : b.Gap l (entry :: r)) :
    ((b.write (l.length + 1) none).write l.length (some entry)).Gap (l ++ [entry]) r := by
  have hle : l.length + 1 + (r.length + 1) ≤ 16 := h.length_le
  have hlen : (l ++ [entry]).length = l.length + 1 := List.length_append
  refine ⟨?_, ?_, ?_, ?_, ?_⟩
  · rw [write_len, write_len, h.len_eq, hlen, List.length_cons]
    omega
  · omega
  · intro i hi
    by_cases hil : l.length = i
    · subst hil
      rw [read_write_self (by omega), List.getElem?_concat_length]
    · have hlt : i < l.length := by omega
      rw [read_write_of_ne hil, read_write_of_ne (by omega), h.below i hlt,
        List.getElem?_append_left hlt]
  · rw [hlen, read_write_of_ne (by omega), read_write_self (by omega)]
  · intro i hlt hi
    rw [hlen] at hlt ⊢
    rw [read_write_of_ne (by omega), read_write_of_ne (by omega), h.above i (by omega) hi]
    have hi' : i - (l.length + 1) = i - (l.length + 1 + 1) + 1 := by omega
    rw [hi', List.getElem?_cons_succ]

theorem Gap.close (h : b.Gap l []) : { b with len := l.length }.Holds l := by
  have hle : l.length + 1 ≤ 16 := h.length_le
  refine ⟨rfl, by omega, ?_⟩
  intro i hi
  show b.read i = _
  rcases Nat.lt_trichotomy i l.length with hlt | rfl | hgt
  · exact h.below i hlt
  · rw [h.gap, List.getElem?_eq_none (Nat.le_refl _)]
  · rw [h.above i hgt hi, List.getElem?_eq_none (Nat.le_of_lt hgt)]
    rfl

theorem Gap.shift_loop (h : b.Gap l r) :
    ∃ b', Bucket.shift r.length l.length b = (b', .ok ()) ∧ b'.Gap (l ++ r) [] := by
  induction r generalizing b l with
  | nil => exact ⟨b, rfl, by simpa using h⟩
  | cons entry r ih =>
    have hle : l.length + 1 + (r.length + 1) ≤ 16 := h.length_le
    have hread : b.read (l.length + 1) = .ok (some entry) := by
      rw [h.above _ (Nat.lt_succ_self _) (by omega), Nat.sub_self]
      rfl
    obtain ⟨b', hb', hgap⟩ := ih h.step
    refine ⟨b', ?_, by simpa using hgap⟩
    rw [List.length_append, List.length_singleton] at hb'
    rw [List.length_cons, Bucket.shift, hread]
    exact hb'

/-! ### The operations on what a bucket holds -/

variable [DecidableEq K]

theorem matchAt_of_read (hread : b.read i = .ok (some entry)) :
    b.matchAt key hash i =
      .ok (if entry.hash = hash ∧ entry.key = key then some entry else none) := by
  rw [matchAt, hread]
  by_cases hmatch : entry.hash = hash ∧ entry.key = key
  · rw [if_pos hmatch]
    exact congrArg Except.ok (Option.filter_some_pos (decide_eq_true hmatch))
  · rw [if_neg hmatch]
    exact congrArg Except.ok (Option.filter_some_neg (by simpa using hmatch))

/-- The scan stops at an entry with the hash and the key, unless there is none. -/
theorem Holds.scan_append (key : K) (hash : UInt64) (h : b.Holds (l ++ r)) :
    (∃ r₁ entry r₂, r = r₁ ++ entry :: r₂ ∧ entry.hash = hash ∧ entry.key = key ∧
      b.scan key hash r.length l.length = .ok (some ((l ++ r₁).length, entry))) ∨
    (∀ entry ∈ r, ¬ (entry.hash = hash ∧ entry.key = key)) ∧
      b.scan key hash r.length l.length = .ok none := by
  induction r generalizing l with
  | nil => exact .inr ⟨nofun, rfl⟩
  | cons entry r ih =>
    rw [List.length_cons, Bucket.scan, matchAt_of_read h.read_middle]
    by_cases hmatch : entry.hash = hash ∧ entry.key = key
    · refine .inl ⟨[], entry, r, rfl, hmatch.1, hmatch.2, ?_⟩
      rw [if_pos hmatch, List.append_nil]
    · have hrest := ih (l := l ++ [entry]) (by simpa using h)
      rw [List.length_append, List.length_singleton] at hrest
      rw [if_neg hmatch]
      rcases hrest with ⟨r₁, found, r₂, rfl, hhash, hkey, hscan⟩ | ⟨hnone, hscan⟩
      · refine .inl ⟨entry :: r₁, found, r₂, rfl, hhash, hkey, ?_⟩
        rw [List.append_assoc] at hscan
        exact hscan
      · refine .inr ⟨?_, hscan⟩
        intro e he
        rcases List.mem_cons.mp he with rfl | he
        · exact hmatch
        · exact hnone e he

theorem Holds.scan (h : b.Holds es) (key : K) (hash : UInt64) :
    (∃ l entry r, es = l ++ entry :: r ∧ entry.hash = hash ∧ entry.key = key ∧
      b.scan key hash b.len 0 = .ok (some (l.length, entry))) ∨
    (∀ entry ∈ es, ¬ (entry.hash = hash ∧ entry.key = key)) ∧
      b.scan key hash b.len 0 = .ok none := by
  have := Holds.scan_append (l := []) (r := es) key hash h
  rw [h.len_eq]
  exact this

/-- After an entry has been found and overwritten the scan stops at the same slot. -/
theorem scan_write_self {n : Nat} {old : Entry K V}
    (hscan : b.scan key hash n i = .ok (some (j, old))) (hj : j < 16)
    (hmatch : entry.hash = hash ∧ entry.key = key) :
    (b.write j (some entry)).scan key hash n i = .ok (some (j, entry)) := by
  induction n generalizing i with
  | zero => cases hscan
  | succ n ih =>
    rw [Bucket.scan] at hscan ⊢
    by_cases hji : j = i
    · subst hji
      rw [matchAt_of_read (read_write_self hj), if_pos hmatch]
    · have hsame : (b.write j (some entry)).matchAt key hash i = b.matchAt key hash i := by
        rw [matchAt, matchAt, read_write_of_ne hji]
      rw [hsame]
      rcases hat : b.matchAt key hash i with p | _ | found
      · rw [hat] at hscan
        cases hscan
      · rw [hat] at hscan
        exact ih hscan
      · rw [hat] at hscan
        cases hscan
        exact absurd rfl hji

/-- The outcomes of `insert`: an update in place, a new entry at the end, or a panic on
    a full bucket. -/
theorem Holds.insert (h : b.Holds es) (key : K) (value : V) (hash : UInt64) :
    (∃ l entry r b', es = l ++ entry :: r ∧ entry.hash = hash ∧ entry.key = key ∧
      b.insert key value hash = (b', .ok (some entry.value)) ∧
      b'.Holds (l ++ ⟨key, value, hash, entry.distance⟩ :: r)) ∨
    (∀ entry ∈ es, ¬ (entry.hash = hash ∧ entry.key = key)) ∧
      ((es.length < 16 ∧ ∃ b', b.insert key value hash = (b', .ok none) ∧
          b'.Holds (es ++ [⟨key, value, hash, 0⟩])) ∨
        (es.length = 16 ∧ b.insert key value hash = (b, .error .bucketOverflow))) := by
  rcases h.scan key hash with
    ⟨l, entry, r, rfl, hhash, hkey, hscan⟩ | ⟨hnone, hscan⟩
  · have hwrite := h.write (i := l.length) (by simp) ⟨key, value, hash, entry.distance⟩
    rw [List.set_append_right _ _ (Nat.le_refl _), Nat.sub_self] at hwrite
    refine .inl ⟨l, entry, r, _, rfl, hhash, hkey, ?_, hwrite⟩
    rw [Bucket.insert, hscan]
  · refine .inr ⟨hnone, ?_⟩
    rw [Bucket.insert, hscan]
    by_cases hroom : es.length < 16
    · refine .inl ⟨hroom, _, ?_, h.push hroom _⟩
      exact if_pos (by rw [h.len_eq]; exact hroom)
    · refine .inr ⟨Nat.le_antisymm h.length_le (Nat.le_of_not_lt hroom), ?_⟩
      exact if_neg (by rw [h.len_eq]; exact hroom)

theorem Holds.get (h : b.Holds es) (key : K) (hash : UInt64) :
    (∃ entry ∈ es, entry.hash = hash ∧ entry.key = key ∧
      b.get key hash = .ok (some entry.value)) ∨
    (∀ entry ∈ es, ¬ (entry.hash = hash ∧ entry.key = key)) ∧ b.get key hash = .ok none := by
  rcases h.scan key hash with
    ⟨l, entry, r, rfl, hhash, hkey, hscan⟩ | ⟨hnone, hscan⟩
  · refine .inl ⟨entry, by simp, hhash, hkey, ?_⟩
    rw [Bucket.get, hscan]
    rfl
  · refine .inr ⟨hnone, ?_⟩
    rw [Bucket.get, hscan]
    rfl

theorem Holds.remove (h : b.Holds es) (key : K) (hash : UInt64) :
    (∃ l entry r b', es = l ++ entry :: r ∧ entry.hash = hash ∧ entry.key = key ∧
      b.remove key hash = (b', .ok (some entry.value)) ∧ b'.Holds (l ++ r)) ∨
    (∀ entry ∈ es, ¬ (entry.hash = hash ∧ entry.key = key)) ∧
      b.remove key hash = (b, .ok none) := by
  rcases h.scan key hash with
    ⟨l, entry, r, rfl, hhash, hkey, hscan⟩ | ⟨hnone, hscan⟩
  · obtain ⟨b', hshift, hgap⟩ := h.gap.shift_loop
    have hlen : (b.write l.length none).len = l.length + r.length + 1 := by
      rw [h.gap.len_eq]
      omega
    have hlen' : b'.len = (l ++ r).length + 1 := hgap.len_eq
    refine .inl ⟨l, entry, r, _, rfl, hhash, hkey, ?_, hgap.close⟩
    have hn : l.length + r.length - l.length = r.length := by omega
    simp only [Bucket.remove, hscan, removeAt, h.read_middle, closeGap, hlen, hn, shiftFrom, hshift,
      shrink, hlen']
  · refine .inr ⟨hnone, ?_⟩
    rw [Bucket.remove, hscan]

/-- After an insertion a bucket holds what it held before, apart from the inserted key. -/
theorem Holds.exists_insert (h : b.Holds es) (key : K) (value : V) (hash : UInt64) :
    ∃ es', (b.insert key value hash).1.Holds es' ∧
      ∀ entry ∈ es', entry.key = key ∧ entry.hash = hash ∨ entry ∈ es := by
  rcases h.insert key value hash with
    ⟨l, entry, r, b', rfl, _, _, hinsert, hb⟩ | ⟨_, ⟨_, b', hinsert, hb⟩ | ⟨_, hinsert⟩⟩
  · rw [hinsert]
    refine ⟨_, hb, fun e he => ?_⟩
    rcases List.mem_append.mp he with hl | hr
    · exact .inr (List.mem_append_left _ hl)
    · rcases List.mem_cons.mp hr with rfl | hr
      · exact .inl ⟨rfl, rfl⟩
      · exact .inr (List.mem_append_right l (List.mem_cons_of_mem _ hr))
  · rw [hinsert]
    refine ⟨_, hb, fun e he => ?_⟩
    rcases List.mem_append.mp he with hold | hnew
    · exact .inr hold
    · rw [List.mem_singleton.mp hnew]
      exact .inl ⟨rfl, rfl⟩
  · rw [hinsert]
    exact ⟨es, h, fun e he => .inr he⟩

theorem Holds.exists_remove (h : b.Holds es) (key : K) (hash : UInt64) :
    ∃ es', (b.remove key hash).1.Holds es' ∧ ∀ entry ∈ es', entry ∈ es := by
  rcases h.remove key hash with ⟨l, entry, r, b', rfl, _, _, hremove, hb⟩ | ⟨_, hremove⟩
  · rw [hremove]
    refine ⟨_, hb, fun e he => ?_⟩
    rcases List.mem_append.mp he with hl | hr
    · exact List.mem_append_left _ hl
    · exact List.mem_append_right l (List.mem_cons_of_mem _ hr)
  · rw [hremove]
    exact ⟨es, h, fun e he => he⟩

/-- An insertion returns, and its value is found after it, exactly when it finds the key or a
    free slot. -/
theorem Holds.insert_returns_iff (h : b.Holds es) (key : K) (value : V) (hash : UInt64) :
    (∃ b' old, b.insert key value hash = (b', .ok old) ∧ b'.get key hash = .ok (some value)) ↔
      (∃ entry ∈ es, entry.hash = hash ∧ entry.key = key) ∨ es.length < 16 := by
  rcases h.scan key hash with ⟨l, entry, r, rfl, hhash, hkey, hscan⟩ | ⟨hnone, hscan⟩
  · have hlen := h.length_le
    rw [List.length_append, List.length_cons] at hlen
    have hafter :
        (b.write l.length (some ⟨key, value, hash, entry.distance⟩)).scan key hash b.len 0 =
          .ok (some (l.length, ⟨key, value, hash, entry.distance⟩)) :=
      scan_write_self hscan (by omega) ⟨rfl, rfl⟩
    refine iff_of_true ⟨_, _, by rw [Bucket.insert, hscan], ?_⟩
      (.inl ⟨entry, List.mem_append_right l List.mem_cons_self, hhash, hkey⟩)
    rw [Bucket.get, write_len, hafter]
    rfl
  · have habsent : ¬ ∃ entry ∈ es, entry.hash = hash ∧ entry.key = key :=
      fun ⟨entry, hentry, hmatch⟩ => hnone entry hentry hmatch
    by_cases hroom : es.length < 16
    · have hpush := h.push hroom ⟨key, value, hash, 0⟩
      refine iff_of_true ⟨b.push ⟨key, value, hash, 0⟩, none, ?_, ?_⟩ (.inr hroom)
      · rw [Bucket.insert, hscan]
        exact if_pos (by rw [h.len_eq]; exact hroom)
      · rcases hpush.get key hash with ⟨found, hfound, hhash, hkey, hget⟩ | ⟨hnew, _⟩
        · rcases List.mem_append.mp hfound with hold | hnew
          · exact absurd ⟨hhash, hkey⟩ (hnone found hold)
          · rw [hget, List.mem_singleton.mp hnew]
        · exact absurd ⟨rfl, rfl⟩ (hnew _ List.mem_concat_self)
    · refine iff_of_false ?_ fun h => h.elim habsent hroom
      rintro ⟨b', old, hinsert, _⟩
      rw [Bucket.insert, hscan] at hinsert
      have hfull : ¬ b.len < 16 := by rw [h.len_eq]; exact hroom
      simp only [insertNew, if_neg hfull, Prod.mk.injEq, reduceCtorEq, and_false] at hinsert

end Bucket

end VelocityX.Map
