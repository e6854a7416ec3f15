import VelocityX.Lib.Linearization
import VelocityX.Map.Striped

/-!
# Linearizability of the striped map

Each call of `insert` and `remove` is answered for its key under the hash it drew, so what the map
holds is a finite map from keys with hashes to values.  When calls on one bucket always take the
same lock, the calls on the map take effect one after the other on this finite map, `clear` and
`len` included: an insert of a new entry and a removal when they change `size`, a `clear` when it
stores zero there.
-/

namespace VelocityX.Map

variable {K V : Type*} {capacity i : Nat}

/-! ### Keys with hashes -/

/-- A value for each key together with the hash under which it was inserted. -/
abbrev Contents (K V : Type*) := Finmap fun _ : K × UInt64 => V

def Entry.tagged (entry : Entry K V) : Sigma fun _ : K × UInt64 => V :=
  ⟨(entry.key, entry.hash), entry.value⟩

/-- The number of entries in the bucket. -/
def bucketSize (capacity : Nat) (F : Contents K V) (i : Nat) : Nat :=
  (F.keys.filter fun p => bucketIndex p.2 capacity = i).card

namespace Table

structure Stores (t : Table K V) (capacity : Nat) (F : Contents K V) : Prop where
  placed : t.WellPlaced capacity
  represents : FiniteMap.Represents ((t.entries capacity).map Entry.tagged) F

variable {t : Table K V} {F G : Contents K V} {b : Bucket K V} {es l r rest : List (Entry K V)}
variable {entry : Entry K V} {key : K} {value : V} {hash : UInt64}

theorem stores_of_empty (hpower : ∃ k, capacity = 2 ^ k) (hempty : ∀ i < capacity, t i = .empty) :
    t.Stores capacity ∅ := by
  refine ⟨(valid_of_empty hpower hempty).wellPlaced, ?_⟩
  rw [entries_of_empty hempty]
  exact FiniteMap.represents_nil

theorem Stores.card_keys (h : t.Stores capacity F) : F.keys.card = (t.entries capacity).length := by
  rw [h.represents.card_keys, List.length_map]

/-- A bucket has sixteen slots. -/
theorem Stores.card_le (h : t.Stores capacity F) : F.keys.card ≤ 16 * capacity := by
  have hle : ∀ n ≤ capacity, (Partition.join (fun i => (t i).stored) n).length ≤ 16 * n := by
    intro n hn
    induction n with
    | zero => simp [Partition.join]
    | succ n ih =>
      have hlast := (h.placed.holds n hn).length_le
      have hbelow := ih (Nat.le_of_lt hn)
      rw [Partition.length_join] at hbelow ⊢
      rw [List.range_succ, List.map_append, List.sum_append]
      simp only [List.map_cons, List.map_nil, List.sum_singleton]
      omega
  rw [h.card_keys]
  exact hle capacity (Nat.le_refl _)

theorem Stores.bucketSize_eq (h : t.Stores capacity F) (hi : i < capacity) :
    bucketSize capacity F i = (t i).stored.length := by
  show Multiset.card ((F.entries.map Sigma.fst).filter fun p => bucketIndex p.2 capacity = i) = _
  have hkeys : F.entries.map Sigma.fst =
      ((t.entries capacity).map fun e => (e.key, e.hash) : List (K × UInt64)) := by
    rw [h.represents, Multiset.map_coe, List.map_map]
    rfl
  have honly : (t.entries capacity).filter (fun e => bucketIndex e.hash capacity = i) =
      (t i).stored := by
    rw [entries, Partition.join, Partition.filter_flatMap_of_only List.nodup_range,
      if_pos (List.mem_range.mpr hi)]
    · exact List.filter_eq_self.mpr fun e he => decide_eq_true (h.placed.placed i hi e he)
    · intro k hk hne
      refine List.filter_eq_nil_iff.mpr fun e he => ?_
      rw [h.placed.placed k (List.mem_range.mp hk) e he]
      simpa using hne
  rw [hkeys, Multiset.filter_coe, Multiset.coe_card, List.filter_map, List.length_map]
  exact congrArg List.length honly

/-- An entry in the middle of a bucket as the first of its table. -/
theorem tagged_middle :
    FiniteMap.Represents ((l ++ entry :: r ++ rest).map Entry.tagged) F ↔
      FiniteMap.Represents (entry.tagged :: (l ++ r ++ rest).map Entry.tagged) F := by
  have hperm : (l ++ entry :: r ++ rest).Perm (entry :: (l ++ r ++ rest)) :=
    List.perm_middle.append_right rest
  exact ⟨fun h => h.perm (hperm.map _), fun h => h.perm (hperm.symm.map _)⟩

theorem stores_update (hw : WellPlaced (Function.update t i b) capacity) (hholds : b.Holds es)
    (hperm : (entries (Function.update t i b) capacity).Perm (b.stored ++ rest))
    (hrep : FiniteMap.Represents ((es ++ rest).map Entry.tagged) G) :
    Stores (Function.update t i b) capacity G := by
  rw [hholds.stored_eq] at hperm
  exact ⟨hw, hrep.perm (hperm.symm.map Entry.tagged)⟩

variable [DecidableEq K]

theorem Stores.lookup_of_split (h : t.Stores capacity F) (hi : i < capacity)
    (hstored : (t i).stored = l ++ entry :: r) :
    F.lookup (entry.key, entry.hash) = some entry.value := by
  refine h.represents.lookup (List.mem_map_of_mem (f := Entry.tagged) ?_)
  refine mem_entries.mpr ⟨i, hi, ?_⟩
  rw [hstored]
  exact List.mem_append_right l List.mem_cons_self

omit [DecidableEq K] in
/-- What is not in the bucket of its hash is nowhere in the table. -/
theorem Stores.absent (h : t.Stores capacity F)
    (hnone : ∀ entry ∈ (t (bucketIndex hash capacity)).stored,
      ¬ (entry.hash = hash ∧ entry.key = key)) :
    ∀ p ∈ (t.entries capacity).map Entry.tagged, p.1 ≠ (key, hash) := by
  intro p hp heq
  obtain ⟨e, he, rfl⟩ := List.mem_map.mp hp
  obtain ⟨i, hi, hmem⟩ := mem_entries.mp he
  obtain ⟨hkey, hhash⟩ := Prod.mk.inj heq
  have hplace := h.placed.placed i hi e hmem
  rw [← hplace, hhash] at hmem
  exact hnone e hmem ⟨hhash, hkey⟩

/-- The map after a call of `insert` and its answer. -/
def inserted (capacity : Nat) (F : Contents K V) (key : K) (value : V) (hash : UInt64) :
    Contents K V × Except Panic (Option V) :=
  if (F.lookup (key, hash)).isNone ∧ bucketSize capacity F (bucketIndex hash capacity) = 16 then
    (F, .error .bucketOverflow)
  else
    (F.insert (key, hash) value, .ok (F.lookup (key, hash)))

theorem Stores.insert (h : t.Stores capacity F) (key : K) (value : V) (hash : UInt64) :
    ((t (bucketIndex hash capacity)).insert key value hash).2 =
        (inserted capacity F key value hash).2 ∧
      Stores (t.insertLocked capacity key value hash).1 capacity
        (inserted capacity F key value hash).1 := by
  have hi := bucketIndex_lt hash h.placed.power
  have hholds := h.placed.holds _ hi
  have hplaced := h.placed.insertLocked key value hash
  obtain ⟨rest, hold, hnew⟩ := t.exists_rest hi
  have hrep := h.represents.perm (hold.map Entry.tagged)
  have hsize := h.bucketSize_eq hi
  rw [Table.insertLocked] at hplaced ⊢
  rcases hholds.insert key value hash with
    ⟨l, entry, r, b, hstored, hhash, hkey, hinsert, hb⟩ | ⟨hnone, hcase⟩
  · have hlookup := h.lookup_of_split hi hstored
    rw [hkey, hhash] at hlookup
    rw [hinsert] at hplaced ⊢
    rw [inserted, if_neg (by simp [hlookup]), hlookup]
    refine ⟨rfl, stores_update hplaced hb (hnew b) ?_⟩
    rw [hstored, tagged_middle, Entry.tagged, hkey, hhash] at hrep
    exact tagged_middle.mpr (hrep.replace value)
  · have habsent := h.absent hnone
    have hlookup := h.represents.lookup_none habsent
    rcases hcase with ⟨hroom, b, hinsert, hb⟩ | ⟨hfull, hinsert⟩
    · rw [hinsert] at hplaced ⊢
      rw [inserted, if_neg (by rw [hsize]; omega), hlookup]
      refine ⟨rfl, stores_update hplaced hb (hnew b) ?_⟩
      refine (h.represents.insert habsent value).perm ?_
      have hfront : (⟨key, value, hash, 0⟩ :: t.entries capacity).Perm
          ((t (bucketIndex hash capacity)).stored ++ [⟨key, value, hash, 0⟩] ++ rest) := by
        rw [List.append_assoc]
        exact (hold.cons _).trans List.perm_middle.symm
      exact hfront.map Entry.tagged
    · rw [hinsert, inserted, if_pos ⟨by simp [hlookup], by rw [hsize, hfull]⟩,
        Function.update_eq_self]
      exact ⟨rfl, h⟩

theorem Stores.remove (h : t.Stores capacity F) (key : K) (hash : UInt64) :
    ((t (bucketIndex hash capacity)).remove key hash).2 = .ok (F.lookup (key, hash)) ∧
      Stores (t.removeLocked key hash capacity).1 capacity (F.erase (key, hash)) := by
  have hi := bucketIndex_lt hash h.placed.power
  have hplaced := h.placed.removeLocked key hash
  obtain ⟨rest, hold, hnew⟩ := t.exists_rest hi
  have hrep := h.represents.perm (hold.map Entry.tagged)
  rw [Table.removeLocked] at hplaced ⊢
  rcases (h.placed.holds _ hi).remove key hash with
    ⟨l, entry, r, b, hstored, hhash, hkey, hremove, hb⟩ | ⟨hnone, hremove⟩
  · have hlookup := h.lookup_of_split hi hstored
    rw [hkey, hhash] at hlookup
    rw [hremove] at hplaced ⊢
    rw [hlookup]
    refine ⟨rfl, stores_update hplaced hb (hnew b) ?_⟩
    rw [hstored, tagged_middle, Entry.tagged, hkey, hhash] at hrep
    exact hrep.erase
  · have hlookup := h.represents.lookup_none (h.absent hnone)
    rw [hremove, Function.update_eq_self, hlookup, FiniteMap.erase_of_lookup_none hlookup]
    exact ⟨rfl, h⟩

end Table

end VelocityX.Map

namespace VelocityX.Map.Striped

open Transition Linearization

variable {ι K V : Type*} [DecidableEq K] {w capacity : Nat}

/-- What a call of `insert` or `remove` does to the map. -/
def written (capacity : Nat) (F : Contents K V) (call : Call K V) (hash : UInt64) :
    Contents K V × Except Panic (Option V) :=
  match call with
  | .insert key value => Table.inserted capacity F key value hash
  | .remove key => (F.erase (key, hash), .ok (F.lookup (key, hash)))

/-- The sequential map. -/
def spec (capacity : Nat) (F : Contents K V) : Op K V → Contents K V × Result V
  | .write call hash => ((written capacity F call hash).1, .written (written capacity F call hash).2)
  | .clear => (∅, .cleared)
  | .len => (F, .count F.keys.card)

/-! ### What is seen of a run -/

def calledBy (_ : State ι K V) : ι × Act K V → Option (Op K V)
  | (_, .call op) => some op
  | (_, .step) => none

/-- The step takes effect on the map. -/
def effectOf (capacity : Nat) (s : State ι K V) : ι × Act K V → Option (Op K V × Result V)
  | (_, .call _) => none
  | (t, .step) =>
      match s.loc t with
      | .write call hash (.bucket pc) =>
          match (pc.inner (fun _ => hash) (s.shared.table (bucketIndex hash capacity))).2 with
          | .goto _ => none
          | .ret result =>
              match settle call result with
              | .unlock result => some (.write call hash, .written result)
              | _ => none
      | .write call hash (.count result) => some (.write call hash, .written (.ok result))
      | .clear .size => some (.clear, .cleared)
      | .len => some (.len, .count s.shared.size)
      | _ => none

def returnedBy (s : State ι K V) : ι × Act K V → Option (Op K V × Result V)
  | (_, .call _) => none
  | (t, .step) =>
      match s.loc t with
      | .write call hash (.unlock result) => some (.write call hash, .written result)
      | .clear (.unlock i) => if i + 1 < stripeCount then none else some (.clear, .cleared)
      | .len => some (.len, .count s.shared.size)
      | _ => none

def observation (capacity : Nat) :
    Observation ι (State ι K V) (Act K V) (Op K V) (Result V) :=
  ⟨calledBy, effectOf capacity, returnedBy⟩

omit [DecidableEq K] in
/-- The call of a thread that has not taken effect. -/
def CallPc.opened : CallPc K V → Option (Op K V)
  | .idle => none
  | .write _ _ (.unlock _) => none
  | .write call hash _ => some (.write call hash)
  | .clear (.unlock _) => none
  | .clear _ => some .clear
  | .len => some .len

omit [DecidableEq K] in
/-- The call of a thread that has taken effect and has not returned. -/
def CallPc.decided : CallPc K V → Option (Op K V × Result V)
  | .write call hash (.unlock result) => some (.write call hash, .written result)
  | .clear (.unlock _) => some (.clear, .cleared)
  | _ => none

section Accounts

variable [DecidableEq ι] {s s' : State ι K V} {t : ι} {a : Act K V}

omit [DecidableEq K] [DecidableEq ι] in
theorem opened_clearFrom (capacity i : Nat) :
    (CallPc.clear (clearFrom capacity i) : CallPc K V).opened = some .clear ∧
      (CallPc.clear (clearFrom capacity i) : CallPc K V).decided = none := by
  unfold clearFrom
  split <;> exact ⟨rfl, rfl⟩

theorem accounts_step (hstep : step w capacity s (t, a) = some s') :
    Accounts (observation capacity) (fun s t => (s.loc t).opened) (fun s t => (s.loc t).decided)
      s (t, a) s' := by
  obtain ⟨sh, l, hp, rfl⟩ := interleave_eq_some.mp hstep
  have hother : ∀ u, u ≠ t → Function.update s.loc t l u = s.loc u :=
    fun u hu => Function.update_of_ne hu _ _
  have hbooks : ((s.loc t).opened.toList ++ (calledBy s (t, a)).toList =
      ((effectOf capacity s (t, a)).map Prod.fst).toList ++ l.opened.toList) ∧
      ((s.loc t).decided.toList ++ (effectOf capacity s (t, a)).toList =
        (returnedBy s (t, a)).toList ++ l.decided.toList) := by
    have heffect := program_effect hp
    generalize hl : s.loc t = l₀ at heffect
    cases heffect with
    | call op =>
      cases op with
      | write call hash => cases call <;> exact ⟨rfl, rfl⟩
      | clear => exact ⟨rfl, rfl⟩
      | len => exact ⟨rfl, rfl⟩
    | settle call hash pc b result hinner =>
      rcases settle_cases call result with heq | ⟨value, _, heq⟩ <;>
        simp [effectOf, calledBy, returnedBy, hl, hinner, heq, CallPc.opened, CallPc.decided]
    | bucket call hash pc pc' b hinner =>
      simp [effectOf, calledBy, returnedBy, hl, hinner, CallPc.opened, CallPc.decided]
    | clearLock i hfree =>
      have hlock : (CallPc.clear (.lock i) : CallPc K V).opened = some .clear ∧
          (CallPc.clear (.lock i) : CallPc K V).decided = none := ⟨rfl, rfl⟩
      by_cases hnext : i + 1 < stripeCount
      · simp [effectOf, calledBy, returnedBy, hl, hnext, CallPc.opened, CallPc.decided]
      · simp [effectOf, calledBy, returnedBy, hl, hnext, hlock, opened_clearFrom]
    | clearSlot i j =>
      have hslot : (CallPc.clear (.slot i j) : CallPc K V).opened = some .clear ∧
          (CallPc.clear (.slot i j) : CallPc K V).decided = none := ⟨rfl, rfl⟩
      by_cases hnext : j + 1 < 16
      · simp [effectOf, calledBy, returnedBy, hl, hnext, CallPc.opened, CallPc.decided]
      · simp [effectOf, calledBy, returnedBy, hl, hnext, hslot, opened_clearFrom]
    | clearUnlock i =>
      by_cases hnext : i + 1 < stripeCount <;>
        simp [effectOf, calledBy, returnedBy, hl, hnext, CallPc.opened, CallPc.decided]
    | _ => simp [effectOf, calledBy, returnedBy, hl, CallPc.opened, CallPc.decided]
  refine ⟨?_, ?_, fun u hu => congrArg _ (hother u hu), fun u hu => congrArg _ (hother u hu)⟩
  · simpa [observation] using hbooks.1
  · simpa [observation] using hbooks.2

end Accounts

/-! ### Threads at work on a bucket

While a call is at work on its bucket the map still has the bucket `B i` that the call found. -/

/-- The hashes that the calls of a run draw. -/
def hashes (as : List (ι × Act K V)) : List UInt64 :=
  as.filterMap fun a =>
    match a.2 with
    | .call (.write _ hash) => some hash
    | _ => none

/-- Calls on the same bucket take the same lock. -/
def Guarded (capacity : Nat) (hs : List UInt64) : Prop :=
  ∀ h₁ ∈ hs, ∀ h₂ ∈ hs, bucketIndex h₁ capacity = bucketIndex h₂ capacity →
    stripeIndex h₁ capacity = stripeIndex h₂ capacity

instance (hs : List UInt64) : Decidable (Guarded capacity hs) :=
  inferInstanceAs (Decidable (∀ h₁ ∈ hs, ∀ h₂ ∈ hs,
    bucketIndex h₁ capacity = bucketIndex h₂ capacity →
      stripeIndex h₁ capacity = stripeIndex h₂ capacity))

def CallPc.Drawn (hs : List UInt64) : CallPc K V → Prop
  | .write _ hash _ => hash ∈ hs
  | _ => True

/-- The call is at work on bucket `i`. -/
def CallPc.Touches (capacity : Nat) : CallPc K V → Nat → Prop
  | .write _ hash (.bucket _), i => i = bucketIndex hash capacity
  | .write _ hash (.count _), i => i = bucketIndex hash capacity
  | .clear (.len _), _ => True
  | .clear (.slot _ _), _ => True
  | .clear .size, _ => True
  | _, _ => False

/-- What a call at work has made of the buckets `B` that it found. -/
def CallPc.Working (capacity : Nat) (B table : Table K V) : CallPc K V → Prop
  | .write call hash (.bucket pc) =>
      pc.rest (fun _ => hash) (table (bucketIndex hash capacity)) =
        call.exec (fun _ => hash) (B (bucketIndex hash capacity))
  | .write call hash (.count result) =>
      call.exec (fun _ => hash) (B (bucketIndex hash capacity)) =
        (table (bucketIndex hash capacity), .ok result) ∧ settle call (.ok result) = .count result
  | .clear (.len i) => ∀ k < i, table k = .empty
  | .clear (.slot i j) =>
      (∀ k < i, table k = .empty) ∧ (table i).len = 0 ∧ ∀ k < j, (table i).read k = .ok none
  | .clear .size => ∀ k < capacity, table k = .empty
  | _ => True

section Working

variable {B B' table table' : Table K V} {l : CallPc K V} {hs : List UInt64} {i k : Nat}

omit [DecidableEq K] in
/-- A call at work on a bucket holds the lock of its stripe; `clear` holds all locks. -/
theorem holds_of_touches (h : l.Touches capacity i) :
    (∃ call hash pc, l = .write call hash pc ∧ i = bucketIndex hash capacity ∧
      l.Holds capacity (stripeIndex hash capacity)) ∨
    ∀ k < stripeCount, l.Holds capacity k := by
  cases l with
  | idle => cases h
  | write call hash pc =>
    cases pc with
    | bucket pc => exact .inl ⟨call, hash, _, rfl, h, rfl⟩
    | count result => exact .inl ⟨call, hash, _, rfl, h, rfl⟩
    | _ => cases h
  | clear pc =>
    cases pc with
    | lock i => cases h
    | unlock i => cases h
    | _ => exact .inr fun k hk => hk
  | len => cases h

theorem CallPc.Working.congr (h : l.Working capacity B table)
    (hsame : ∀ k, l.Touches capacity k → B' k = B k ∧ table' k = table k) :
    l.Working capacity B' table' := by
  cases l with
  | idle => trivial
  | write call hash pc =>
    cases pc with
    | bucket pc =>
      obtain ⟨hB, htable⟩ := hsame _ rfl
      simpa [CallPc.Working, hB, htable] using h
    | count result =>
      obtain ⟨hB, htable⟩ := hsame _ rfl
      simpa [CallPc.Working, hB, htable] using h
    | _ => trivial
  | clear pc =>
    cases pc with
    | lock i => trivial
    | len i =>
      have htable : table' = table := funext fun k => (hsame k trivial).2
      rwa [htable]
    | slot i j =>
      have htable : table' = table := funext fun k => (hsame k trivial).2
      rwa [htable]
    | size =>
      have htable : table' = table := funext fun k => (hsame k trivial).2
      rwa [htable]
    | unlock i => trivial
  | len => trivial

variable [DecidableEq ι] {loc : ι → CallPc K V} {t : ι}

/-- A step of thread `t` that leaves alone what the others are at work on. -/
theorem working_update (hworking : ∀ u, (loc u).Working capacity B table)
    (hother : ∀ u, u ≠ t → ∀ k, (loc u).Touches capacity k → B' k = B k ∧ table' k = table k)
    (hown : l.Working capacity B' table') (u : ι) :
    (Function.update loc t l u).Working capacity B' table' :=
  (Function.forall_update_iff loc fun _ l => l.Working capacity B' table').mpr
    ⟨hown, fun u hu => (hworking u).congr (hother u hu)⟩ u

end Working

/-! ### The simulation -/

structure Simulates (capacity : Nat) (hs : List UInt64) (F : Contents K V) (s : State ι K V) :
    Prop where
  locks : LocksOk capacity s
  drawn : ∀ t, (s.loc t).Drawn hs
  size_eq : s.shared.size = F.keys.card
  content : ∃ B : Table K V, B.Stores capacity F ∧
    (∀ t, (s.loc t).Working capacity B s.shared.table) ∧
    ∀ i < capacity, (∀ t, ¬ (s.loc t).Touches capacity i) → s.shared.table i = B i

section Simulation

variable {hs : List UInt64} {F F' : Contents K V} {s s' : State ι K V} {t u : ι} {i : Nat}
variable {call : Call K V} {hash : UInt64} {result : Except Panic (Option V)} {B : Table K V}

omit [DecidableEq K] in
theorem simulates_init (hpower : ∃ k, capacity = 2 ^ k) (hs : List UInt64) [DecidableEq K] :
    Simulates capacity hs (∅ : Contents K V) (init capacity : State ι K V) :=
  ⟨locksOk_init capacity, fun _ => trivial, rfl, allocateTable capacity,
    Table.stores_of_empty hpower fun _ _ => rfl, fun _ => trivial, fun _ _ _ => rfl⟩

/-- No two calls are at work on one bucket. -/
theorem Simulates.exclusive (h : Simulates capacity hs F s) (hguard : Guarded capacity hs)
    (ht : (s.loc t).Touches capacity i) (hu : (s.loc u).Touches capacity i) : t = u := by
  rcases holds_of_touches ht with ⟨call, hash, pc, hl, hi, hholds⟩ | hall
  · rcases holds_of_touches hu with ⟨call', hash', pc', hl', hi', hholds'⟩ | hall'
    · have hdrawn := h.drawn t
      have hdrawn' := h.drawn u
      rw [hl] at hdrawn
      rw [hl'] at hdrawn'
      have hstripe := hguard hash hdrawn hash' hdrawn' (hi.symm.trans hi')
      rw [← hstripe] at hholds'
      exact h.locks.owned.exclusive hholds hholds'
    · exact h.locks.owned.exclusive hholds (hall' _ (stripeIndex_lt hash capacity))
  · rcases holds_of_touches hu with ⟨call', hash', pc', hl', hi', hholds'⟩ | hall'
    · exact h.locks.owned.exclusive (hall _ (stripeIndex_lt hash' capacity)) hholds'
    · exact h.locks.owned.exclusive (hall 0 (by decide)) (hall' 0 (by decide))

theorem exec_stores (hB : B.Stores capacity F) (call : Call K V) (hash : UInt64) :
    (call.exec (fun _ => hash) (B (bucketIndex hash capacity))).2 =
        (written capacity F call hash).2 ∧
      Table.Stores (Function.update B (bucketIndex hash capacity)
          (call.exec (fun _ => hash) (B (bucketIndex hash capacity))).1) capacity
        (written capacity F call hash).1 := by
  cases call with
  | insert key value => exact hB.insert key value hash
  | remove key => exact hB.remove key hash

theorem inserted_cases (capacity : Nat) (F : Contents K V) (key : K) (value : V) (hash : UInt64) :
    Table.inserted capacity F key value hash = (F, .error .bucketOverflow) ∨
      Table.inserted capacity F key value hash =
        (F.insert (key, hash) value, .ok (F.lookup (key, hash))) := by
  unfold Table.inserted
  split
  · exact .inl rfl
  · exact .inr rfl

/-- A call that goes on to count has added an entry or taken one away. -/
theorem card_counted {value : Option V} (hB : B.Stores capacity F) (hsize : 16 * capacity < 2 ^ w)
    (hresult : (written capacity F call hash).2 = .ok value)
    (hcount : settle call (.ok value) = .count value) :
    (written capacity F call hash).1.keys.card = addSize w call F.keys.card := by
  have hle := hB.card_le
  have hle' := (exec_stores hB call hash).2.card_le
  cases call with
  | insert key v =>
    cases value with
    | some old => cases hcount
    | none =>
      simp only [written] at hresult hle' ⊢
      rcases inserted_cases capacity F key v hash with heq | heq
      · rw [heq] at hresult
        cases hresult
      · rw [heq] at hresult hle' ⊢
        have hcard := FiniteMap.card_keys_insert_of_none (v := v) (Except.ok.inj hresult)
        rw [hcard] at hle'
        rw [hcard, addSize, Word.add_of_lt (by omega)]
  | remove key =>
    cases value with
    | none => cases hcount
    | some old =>
      have hlookup : F.lookup (key, hash) = some old := Except.ok.inj hresult
      have hmem : (key, hash) ∈ F.keys :=
        Finmap.mem_keys.mpr (Finmap.mem_of_lookup_eq_some hlookup)
      have hpos : 0 < F.keys.card := Finset.card_pos.mpr ⟨_, hmem⟩
      rw [addSize, Word.sub_of_le hpos (by omega)]
      exact FiniteMap.card_keys_erase_of_some hlookup

theorem card_kept (hresult : (written capacity F call hash).2 = result)
    (hunlock : settle call result = .unlock result) :
    (written capacity F call hash).1.keys.card = F.keys.card := by
  cases call with
  | insert key v =>
    simp only [written] at hresult ⊢
    rcases inserted_cases capacity F key v hash with heq | heq
    · rw [heq]
    · rw [heq] at hresult ⊢
      cases hlookup : F.lookup (key, hash) with
      | none =>
        rw [← hresult, hlookup] at hunlock
        cases hunlock
      | some old => exact FiniteMap.card_keys_insert_of_some hlookup
  | remove key =>
    simp only [written] at hresult ⊢
    cases hlookup : F.lookup (key, hash) with
    | none => rw [FiniteMap.erase_of_lookup_none hlookup]
    | some old =>
      rw [← hresult, hlookup] at hunlock
      cases hunlock

variable [DecidableEq ι]

/-- A step of thread `t` that changes only the buckets that `t` is at work on, and settles those
    that it leaves. -/
theorem Simulates.advance {sh : Shared ι K V} {l : CallPc K V} {B' : Table K V}
    (h : Simulates capacity hs F s) (hguard : Guarded capacity hs)
    (hworking : ∀ u, (s.loc u).Working capacity B s.shared.table)
    (hframe : ∀ k < capacity, (∀ u, ¬ (s.loc u).Touches capacity k) → s.shared.table k = B k)
    (hlocks : LocksOk capacity (⟨sh, Function.update s.loc t l⟩ : State ι K V))
    (hdrawn : l.Drawn hs) (hsize : sh.size = F'.keys.card) (hB : B'.Stores capacity F')
    (hsame : ∀ k, ¬ (s.loc t).Touches capacity k → B' k = B k ∧ sh.table k = s.shared.table k)
    (hown : l.Working capacity B' sh.table)
    (hleave : ∀ k < capacity, (s.loc t).Touches capacity k → ¬ l.Touches capacity k →
      sh.table k = B' k) :
    Simulates capacity hs F' (⟨sh, Function.update s.loc t l⟩ : State ι K V) := by
  refine ⟨hlocks, (Function.forall_update_iff s.loc fun _ l => l.Drawn hs).mpr
    ⟨hdrawn, fun u _ => h.drawn u⟩, hsize, B', hB, ?_, ?_⟩
  · refine working_update hworking (fun u hu k hk => hsame k fun ht => ?_) hown
    exact hu (h.exclusive hguard hk ht)
  · intro k hk hfree
    have hl : ¬ l.Touches capacity k := by simpa using hfree t
    by_cases ht : (s.loc t).Touches capacity k
    · exact hleave k hk ht hl
    · obtain ⟨hB', htable⟩ := hsame k ht
      refine htable.trans ((hframe k hk fun u => ?_).trans hB'.symm)
      by_cases hu : u = t
      · rwa [hu]
      · simpa [hu] using hfree u

/-- A step that leaves the map and the table alone, of a thread that is at work on no bucket. -/
theorem Simulates.quiet {sh : Shared ι K V} {l : CallPc K V} (h : Simulates capacity hs F s)
    (hguard : Guarded capacity hs)
    (hlocks : LocksOk capacity (⟨sh, Function.update s.loc t l⟩ : State ι K V))
    (hdrawn : l.Drawn hs) (hsize : sh.size = s.shared.size) (htable : sh.table = s.shared.table)
    (hnot : ∀ k, ¬ (s.loc t).Touches capacity k)
    (hown : ∀ B, (∀ k < capacity, (∀ u, ¬ (s.loc u).Touches capacity k) →
      s.shared.table k = B k) → l.Working capacity B s.shared.table) :
    Simulates capacity hs F (⟨sh, Function.update s.loc t l⟩ : State ι K V) := by
  obtain ⟨B, hB, hworking, hframe⟩ := h.content
  refine h.advance hguard hworking hframe hlocks hdrawn (hsize.trans h.size_eq) hB
    (fun k _ => ⟨rfl, by rw [htable]⟩) ?_ fun k _ hk => absurd hk (hnot k)
  rw [htable]
  exact hown B hframe

omit [DecidableEq ι] in
/-- While the lock of its stripe is free nobody is at work on a bucket. -/
theorem Simulates.untouched (h : Simulates capacity hs F s) (hguard : Guarded capacity hs)
    (hdrawn : hash ∈ hs) (hfree : s.shared.stripes (stripeIndex hash capacity) = none) (u : ι) :
    ¬ (s.loc u).Touches capacity (bucketIndex hash capacity) := by
  intro hu
  have hnot := h.locks.owned.free hfree u
  rcases holds_of_touches hu with ⟨call', hash', pc', hl', hi', hholds'⟩ | hall
  · have hdrawn' := h.drawn u
    rw [hl'] at hdrawn'
    rw [hguard hash hdrawn hash' hdrawn' hi'] at hnot
    exact hnot hholds'
  · exact hnot (hall _ (stripeIndex_lt hash capacity))

omit [DecidableEq K] in
/-- A bucket that `clear` is done with. -/
theorem eq_empty {b : Bucket K V} (hlen : b.len = 0) (hread : ∀ k < 16, b.read k = .ok none) :
    b = .empty := by
  obtain ⟨entries, len⟩ := b
  obtain rfl : len = 0 := hlen
  refine congrArg (Bucket.mk · 0) (Vector.ext fun k hk => ?_)
  have hslot := hread k hk
  simp only [Bucket.read, hk, dif_pos, Except.ok.injEq] at hslot
  simpa using hslot

/-- A call that is done with its bucket has taken effect or goes on to count. -/
theorem Simulates.settled {pc : Map.Pc K V} {b : Bucket K V} (h : Simulates capacity hs F s)
    (hguard : Guarded capacity hs) (hl : s.loc t = .write call hash (.bucket pc))
    (hinner : pc.inner (fun _ => hash) (s.shared.table (bucketIndex hash capacity)) =
      (b, .ret result))
    (hlocks : LocksOk capacity (⟨s.shared.setBucket (bucketIndex hash capacity) b,
      Function.update s.loc t (.write call hash (settle call result))⟩ : State ι K V)) :
    Advances (spec capacity) (Simulates capacity hs) F
      (⟨s.shared.setBucket (bucketIndex hash capacity) b,
        Function.update s.loc t (.write call hash (settle call result))⟩ : State ι K V)
      (effectOf capacity s (t, .step)) := by
  obtain ⟨B, hB, hworking, hframe⟩ := h.content
  have hdrawn : hash ∈ hs := by
    have hdrawn := h.drawn t
    rwa [hl] at hdrawn
  have hbefore := hworking t
  have htouch : ∀ k, (s.loc t).Touches capacity k ↔ k = bucketIndex hash capacity := by
    intro k
    rw [hl]
    exact Iff.rfl
  have hexec : (b, result) = call.exec (fun _ => hash) (B (bucketIndex hash capacity)) := by
    rw [hl] at hbefore
    have hrest := inner_rest (h := fun _ => hash)
      (b := s.shared.table (bucketIndex hash capacity)) pc
    rw [hinner] at hrest
    exact hrest.trans hbefore
  have hothers : ∀ (B' : Table K V) k, ¬ (s.loc t).Touches capacity k →
      B' k = B k → B' k = B k ∧
        (s.shared.setBucket (bucketIndex hash capacity) b).table k = s.shared.table k :=
    fun B' k hk hB' => ⟨hB', Function.update_of_ne (fun heq => hk ((htouch k).mpr heq)) _ _⟩
  obtain ⟨hanswer, hstores⟩ := exec_stores hB call hash
  rw [← hexec] at hanswer hstores
  rcases settle_cases call result with heq | ⟨value, rfl, heq⟩
  · have hpoint : effectOf capacity s (t, .step) = some (.write call hash, .written result) := by
      simp [effectOf, hl, hinner, heq]
    rw [hpoint, heq]
    refine ⟨congrArg Result.written hanswer.symm, ?_⟩
    refine h.advance hguard hworking hframe (heq ▸ hlocks) hdrawn ?_ hstores
      (fun k hk => ?_) trivial
      fun k _ hk _ => ?_
    · exact h.size_eq.trans (card_kept hanswer.symm heq).symm
    · exact hothers _ k hk (Function.update_of_ne (fun heq => hk ((htouch k).mpr heq)) _ _)
    · obtain rfl := (htouch k).mp hk
      simp [Shared.setBucket]
  · have hpoint : effectOf capacity s (t, .step) = none := by
      simp [effectOf, hl, hinner, heq]
    rw [hpoint, heq]
    refine h.advance hguard hworking hframe (heq ▸ hlocks) hdrawn h.size_eq hB
      (fun k hk => hothers B k hk rfl) ⟨?_, heq⟩ fun k _ hk hnot => absurd ((htouch k).mp hk) hnot
    simpa [Shared.setBucket] using hexec.symm

omit [DecidableEq ι] in
theorem working_clearFrom {table : Table K V} (h : ∀ k < i, table k = .empty) :
    (CallPc.clear (clearFrom capacity i)).Working capacity B table := by
  unfold clearFrom
  split
  · exact h
  · next hge => exact fun k hk => h k (Nat.lt_of_lt_of_le hk (Nat.le_of_not_lt hge))

omit [DecidableEq K] in
theorem touches_clearFrom (k : Nat) :
    (CallPc.clear (clearFrom capacity i) : CallPc K V).Touches capacity k := by
  unfold clearFrom
  split <;> trivial

/-- A step of a `clear` that has all the locks and goes on with them. -/
theorem Simulates.clears {sh : Shared ι K V} {l : CallPc K V} (h : Simulates capacity hs F s)
    (hguard : Guarded capacity hs) (hbefore : ∀ k, (s.loc t).Touches capacity k)
    (hafter : ∀ k, l.Touches capacity k)
    (hlocks : LocksOk capacity (⟨sh, Function.update s.loc t l⟩ : State ι K V))
    (hdrawn : l.Drawn hs) (hsize : sh.size = s.shared.size)
    (hown : ∀ B, (s.loc t).Working capacity B s.shared.table → l.Working capacity B sh.table) :
    Simulates capacity hs F (⟨sh, Function.update s.loc t l⟩ : State ι K V) := by
  obtain ⟨B, hB, hworking, hframe⟩ := h.content
  exact h.advance hguard hworking hframe hlocks hdrawn (hsize.trans h.size_eq) hB
    (fun k hk => absurd (hbefore k) hk) (hown B (hworking t))
    fun k _ _ hleft => absurd (hafter k) hleft

theorem simulates_step {a : ι × Act K V} (h : Simulates capacity hs F s)
    (hguard : Guarded capacity hs) (hsize : 16 * capacity < 2 ^ w)
    (hdraw : ∀ call hash, a.2 = .call (.write call hash) → hash ∈ hs)
    (hstep : step w capacity s a = some s') :
    Advances (spec capacity) (Simulates capacity hs) F s' (effectOf capacity s a) := by
  have hlocks := locksOk_step h.locks hstep
  obtain ⟨t, act⟩ := a
  obtain ⟨sh, l, hp, rfl⟩ := interleave_eq_some.mp hstep
  have heffect := program_effect hp
  have hdrawn := h.drawn t
  generalize hl : s.loc t = l₀ at heffect hdrawn
  have hnot : (∀ k, ¬ l₀.Touches capacity k) → ∀ k, ¬ (s.loc t).Touches capacity k := by
    intro hnot k
    rw [hl]
    exact hnot k
  cases heffect with
  | call op =>
    refine h.quiet hguard hlocks ?_ rfl rfl (hnot fun _ => id) fun B _ => ?_
    · cases op with
      | write call hash => cases call <;> exact hdraw _ hash rfl
      | clear => trivial
      | len => trivial
    · cases op with
      | write call hash => cases call <;> trivial
      | clear => trivial
      | len => trivial
  | full call hash =>
    have hpoint : effectOf capacity s (t, .step) = none := by simp [effectOf, hl]
    rw [hpoint]
    exact h.quiet hguard hlocks hdrawn rfl rfl (hnot fun _ => id) fun _ _ => trivial
  | room call hash =>
    have hpoint : effectOf capacity s (t, .step) = none := by simp [effectOf, hl]
    rw [hpoint]
    exact h.quiet hguard hlocks hdrawn rfl rfl (hnot fun _ => id) fun _ _ => trivial
  | lock call hash hfree =>
    have hpoint : effectOf capacity s (t, .step) = none := by simp [effectOf, hl]
    rw [hpoint]
    refine h.quiet hguard hlocks hdrawn rfl rfl (hnot fun _ => id) fun B hframe => ?_
    obtain ⟨B₀, hB₀, _⟩ := h.content
    have hsame := hframe _ (bucketIndex_lt hash hB₀.placed.power) (h.untouched hguard hdrawn hfree)
    simp only [CallPc.Working, hsame, start_rest]
  | bucket call hash pc pc' b hinner =>
    have hpoint : effectOf capacity s (t, .step) = none := by simp [effectOf, hl, hinner]
    rw [hpoint]
    obtain ⟨B, hB, hworking, hframe⟩ := h.content
    have hbefore := hworking t
    refine h.advance hguard hworking hframe hlocks hdrawn h.size_eq hB (fun k hk => ⟨rfl, ?_⟩) ?_
      fun k _ hk hleft => ?_
    · rw [hl] at hk
      exact Function.update_of_ne hk _ _
    · have hrest := inner_rest (h := fun _ => hash)
        (b := s.shared.table (bucketIndex hash capacity)) pc
      rw [hinner] at hrest
      rw [hl] at hbefore
      simpa [CallPc.Working, Shared.setBucket, Sections.finish] using hrest.trans hbefore
    · rw [hl] at hk
      exact absurd hk hleft
  | settle call hash pc b result hinner => exact h.settled hguard hl hinner hlocks
  | count call hash result =>
    have hpoint : effectOf capacity s (t, .step) =
        some (.write call hash, .written (.ok result)) := by simp [effectOf, hl]
    obtain ⟨B, hB, hworking, hframe⟩ := h.content
    have hbefore := hworking t
    rw [hl] at hbefore
    obtain ⟨hexec, hcount⟩ := hbefore
    obtain ⟨hanswer, hstores⟩ := exec_stores hB call hash
    rw [hexec] at hanswer hstores
    have hcard := card_counted hB hsize hanswer.symm hcount
    rw [hpoint]
    refine ⟨congrArg Result.written hanswer.symm, ?_⟩
    refine h.advance hguard hworking hframe hlocks hdrawn ?_ hstores (fun k hk => ⟨?_, rfl⟩) trivial
      fun k _ hk _ => ?_
    · exact (congrArg (addSize w call) h.size_eq).trans hcard.symm
    · rw [hl] at hk
      exact Function.update_of_ne hk _ _
    · rw [hl] at hk
      obtain rfl : k = bucketIndex hash capacity := hk
      rw [Function.update_self]
  | unlock call hash result =>
    have hpoint : effectOf capacity s (t, .step) = none := by simp [effectOf, hl]
    rw [hpoint]
    exact h.quiet hguard hlocks trivial rfl rfl (hnot fun _ => id) fun _ _ => trivial
  | clearLock i hfree =>
    have hpoint : effectOf capacity s (t, .step) = none := by simp [effectOf, hl]
    rw [hpoint]
    refine h.quiet hguard hlocks trivial rfl rfl (hnot fun _ => id) fun B _ => ?_
    by_cases hnext : i + 1 < stripeCount
    · rw [if_pos hnext]
      trivial
    · rw [if_neg hnext]
      exact working_clearFrom fun k hk => absurd hk (Nat.not_lt_zero k)
  | clearLen i =>
    have hpoint : effectOf capacity s (t, .step) = none := by simp [effectOf, hl]
    rw [hpoint]
    refine h.clears hguard (fun k => by rw [hl]; trivial) (fun _ => trivial) hlocks trivial rfl
      fun B hbefore => ?_
    rw [hl] at hbefore
    refine ⟨fun k hk => ?_, by simp [Shared.setBucket], fun k hk => absurd hk (Nat.not_lt_zero k)⟩
    simpa [Shared.setBucket, Function.update_of_ne (Nat.ne_of_lt hk)] using hbefore k hk
  | clearSlot i j =>
    have hpoint : effectOf capacity s (t, .step) = none := by simp [effectOf, hl]
    rw [hpoint]
    refine h.clears hguard (fun k => by rw [hl]; trivial) (fun k => ?_) hlocks trivial rfl
      fun B hbefore => ?_
    · by_cases hnext : j + 1 < 16
      · rw [if_pos hnext]
        trivial
      · rw [if_neg hnext]
        exact touches_clearFrom k
    · rw [hl] at hbefore
      obtain ⟨hbelow, hlen, hread⟩ := hbefore
      have hbelow' : ∀ k < i, (s.shared.setBucket i ((s.shared.table i).write j none)).table k =
          .empty := by
        intro k hk
        simpa [Shared.setBucket, Function.update_of_ne (Nat.ne_of_lt hk)] using hbelow k hk
      have hread' : ∀ k < j + 1, k < 16 → ((s.shared.table i).write j none).read k = .ok none := by
        intro k hk hlt
        by_cases hkj : j = k
        · subst hkj
          exact Bucket.read_write_self hlt
        · rw [Bucket.read_write_of_ne hkj]
          exact hread k (by omega)
      by_cases hnext : j + 1 < 16
      · rw [if_pos hnext]
        refine ⟨hbelow', by simpa [Shared.setBucket] using hlen, fun k hk => ?_⟩
        simpa [Shared.setBucket] using hread' k hk (by omega)
      · rw [if_neg hnext]
        refine working_clearFrom fun k hk => ?_
        by_cases hki : k = i
        · subst hki
          simp only [Shared.setBucket, Function.update_self]
          exact eq_empty hlen fun m hm => hread' m (by omega) hm
        · exact hbelow' k (by omega)
  | clearSize =>
    have hpoint : effectOf capacity s (t, .step) = some (.clear, .cleared) := by
      simp [effectOf, hl]
    rw [hpoint]
    obtain ⟨B, hB, hworking, hframe⟩ := h.content
    have hempty := hworking t
    rw [hl] at hempty
    refine ⟨rfl, ?_⟩
    refine h.advance hguard hworking hframe hlocks trivial rfl
      (Table.stores_of_empty hB.placed.power hempty) (fun k hk => ?_) trivial fun _ _ _ _ => rfl
    rw [hl] at hk
    exact absurd trivial hk
  | clearUnlock i =>
    have hpoint : effectOf capacity s (t, .step) = none := by simp [effectOf, hl]
    rw [hpoint]
    refine h.quiet hguard hlocks ?_ rfl rfl (hnot fun _ => id) fun _ _ => ?_ <;> split <;> trivial
  | len =>
    have hpoint : effectOf capacity s (t, .step) = some (.len, .count s.shared.size) := by
      simp [effectOf, hl]
    rw [hpoint]
    refine ⟨congrArg Result.count h.size_eq.symm, ?_⟩
    exact h.quiet hguard hlocks trivial rfl rfl (hnot fun _ => id) fun _ _ => trivial

end Simulation

section Run

variable [DecidableEq ι] {as : List (ι × Act K V)} {s : State ι K V}

omit [DecidableEq K] [DecidableEq ι] in
theorem mem_hashes {a : ι × Act K V} (ha : a ∈ as) {call : Call K V} {hash : UInt64}
    (hcall : a.2 = .call (.write call hash)) : hash ∈ hashes as := by
  refine List.mem_filterMap.mpr ⟨a, ha, ?_⟩
  rw [hcall]

/-- **The striped map is linearizable** as a map from keys with hashes to values, when the calls on
    one bucket take one lock. -/
theorem striped_linearizable (hpower : ∃ k, capacity = 2 ^ k) (hsize : 16 * capacity < 2 ^ w)
    (hguard : Guarded capacity (hashes as))
    (hrun : run (step w capacity) (init capacity) as = some s) :
    Linearizable (step w capacity) (observation capacity) (spec capacity) (∅ : Contents K V)
      (init capacity) as := by
  exact linearizable_of_simulation (I := Simulates capacity (hashes as))
    (C := fun _ a => ∀ call hash, a.2 = .call (.write call hash) → hash ∈ hashes as)
    (fun F m a m' hm hdraw hstep =>
      ⟨simulates_step hm hguard hsize hdraw hstep, accounts_step hstep⟩)
    (fun _ => ⟨rfl, rfl⟩) (simulates_init hpower _)
    (along_of_forall_mem (fun a ha call hash hcall => mem_hashes ha hcall) _) hrun

/-- Thread `true` inserts while `false` takes the first locks of a `clear` that waits for it, then
    looks at the length before and after. -/
def clearedBetween : List (Bool × Act Nat Nat) :=
  (true, Act.call (.write (.insert 5 7) 0x300000000)) :: List.replicate 4 (true, Act.step) ++
    (false, Act.call .clear) :: List.replicate 3 (false, Act.step) ++
    List.replicate 6 (true, Act.step) ++ (true, Act.call .len) :: (true, Act.step) ::
    List.replicate 47 (false, Act.step) ++ (true, Act.call .len) :: [(true, Act.step)]

theorem striped_linearizable_clearedBetween :
    ofThread true (trace (step 64 1) returnedBy (init 1) clearedBetween) =
        [(.write (.insert 5 7) 0x300000000, .written (.ok none)), (.len, .count 1),
          (.len, .count 0)] ∧
      Linearizable (step 64 1) (observation 1) (spec 1) (∅ : Contents Nat Nat) (init 1)
        clearedBetween := by
  have hrun : (run (step 64 1) (init 1) clearedBetween).isSome = true := rfl
  obtain ⟨s, hs⟩ := Option.isSome_iff_exists.mp hrun
  have hhashes : hashes clearedBetween = [0x300000000] := rfl
  have hguard : Guarded 1 (hashes clearedBetween) := by
    intro h₁ hh₁ h₂ hh₂ _
    rw [hhashes, List.mem_singleton] at hh₁ hh₂
    rw [hh₁, hh₂]
  have hpower : ∃ k, 1 = 2 ^ k := ⟨0, rfl⟩
  exact ⟨rfl, striped_linearizable hpower (by decide) hguard hs⟩

end Run

end VelocityX.Map.Striped
