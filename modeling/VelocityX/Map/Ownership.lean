import Mathlib.Data.List.Nodup
import VelocityX.Lib.Transition
import VelocityX.Map.Concurrent

/-!
# Ownership of the values of the concurrent hash map

Every value that is inserted carries a token, the number of its insert call.  The map owns
the tokens in its slots.  A run notes the tokens that are handed to a caller and those that
the map releases: an assignment to a slot drops what the slot holds, `clear` and the drop of
the map assign `None` to every slot, and a panic drops the arguments of the call.

When `insert_locked` updates an entry it copies the old value out of the slot with
`ptr::read` and returns the copy; the assignment that follows drops the original.

Runs are those of a table that is not resized.
-/

namespace VelocityX.Map

open Transition

variable {K V : Type*}

/-! ### What the operations on a bucket drop -/

namespace Bucket

/-- What an assignment to the slot drops. -/
def held (b : Bucket K V) (i : Nat) : List V := (b.entries[i]?.join.map Entry.value).toList

/-- What assignments to all slots drop. -/
def allHeld (b : Bucket K V) : List V := (List.range 16).flatMap b.held

section Drops

variable [DecidableEq K]

def insertDrops (b : Bucket K V) (key : K) (value : V) (hash : UInt64) : List V :=
  match b.scan key hash b.len 0 with
  | .error _ => [value]
  | .ok (some (i, _)) => b.held i
  | .ok none => if b.len < 16 then b.held b.len else [value]

omit [DecidableEq K] in
/-- The assignments `entries[j] = entries[j + 1].take()` of the loop `shift`. -/
def shiftDrops : Nat → Nat → Bucket K V → List V
  | 0, _, _ => []
  | n + 1, j, b =>
      match b.read (j + 1) with
      | .error _ => []
      | .ok slot =>
          (b.write (j + 1) none).held j ++
            shiftDrops n (j + 1) ((b.write (j + 1) none).write j slot)

/-- The value of the removed entry moves to the caller. -/
def removeDrops (b : Bucket K V) (key : K) (hash : UInt64) : List V :=
  match b.scan key hash b.len 0 with
  | .ok (some (i, _)) => shiftDrops (b.len - 1 - i) i (b.write i none)
  | _ => []

end Drops

variable {b : Bucket K V} {es l r : List (Entry K V)} {slot : Option (Entry K V)} {i : Nat}

theorem held_of_read (hread : b.read i = .ok slot) : b.held i = (slot.map Entry.value).toList := by
  unfold read at hread
  split at hread
  · next hi =>
    cases hread
    simp [held, hi]
  · cases hread

theorem Holds.held_eq (h : b.Holds es) (hi : i < 16) :
    b.held i = (es[i]?.map Entry.value).toList := held_of_read (h.read_eq i hi)

theorem Holds.held_free (h : b.Holds es) (hi : es.length ≤ i) : b.held i = [] := by
  by_cases hlt : i < 16
  · simp [h.held_eq hlt, hi]
  · simp [held, hlt]

theorem flatMap_range_getElem? {α : Type*} (xs : List α) :
    (List.range xs.length).flatMap (fun i => xs[i]?.toList) = xs := by
  induction xs using List.reverseRecOn with
  | nil => rfl
  | append_singleton xs x ih =>
    have hprefix : ∀ i ∈ List.range xs.length, (xs ++ [x])[i]?.toList = xs[i]?.toList := by
      intro i hi
      rw [List.getElem?_append_left (List.mem_range.mp hi)]
    rw [List.length_append, List.length_singleton, List.range_succ, List.flatMap_append,
      List.flatMap_congr hprefix, ih]
    simp

theorem Holds.allHeld_eq (h : b.Holds es) : b.allHeld = es.map Entry.value := by
  obtain ⟨k, hk⟩ := Nat.exists_eq_add_of_le h.length_le
  have hbelow : ∀ i ∈ List.range es.length, b.held i = ((es.map Entry.value)[i]?).toList := by
    intro i hi
    have hlt := List.mem_range.mp hi
    rw [h.held_eq (by omega), List.getElem?_map]
  have habove : ((List.range k).map (es.length + ·)).flatMap b.held = [] := by
    simp [List.flatMap_eq_nil_iff, h.held_free]
  have hall := flatMap_range_getElem? (es.map Entry.value)
  rw [List.length_map] at hall
  rw [allHeld, hk, List.range_add, List.flatMap_append, List.flatMap_congr hbelow, habove, hall,
    List.append_nil]

/-- Every assignment of the shift goes to the free slot. -/
theorem Gap.shiftDrops_eq (h : b.Gap l r) : shiftDrops r.length l.length b = [] := by
  induction r generalizing b l with
  | nil => rfl
  | cons entry r ih =>
    have hle : l.length + 1 + (r.length + 1) ≤ 16 := h.length_le
    have hread : b.read (l.length + 1) = .ok (some entry) := by
      rw [h.above _ (Nat.lt_succ_self _) (by omega), Nat.sub_self]
      rfl
    have hgap : (b.write (l.length + 1) none).read l.length = .ok none :=
      (read_write_of_ne (by omega)).trans h.gap
    have hfree : (b.write (l.length + 1) none).held l.length = [] := held_of_read hgap
    have hrest := ih h.step
    rw [List.length_append, List.length_singleton] at hrest
    rw [List.length_cons, shiftDrops, hread]
    simp only [hfree, hrest, List.append_nil]

variable [DecidableEq K] {key : K} {value : V} {hash : UInt64}

/-- Where the values of a bucket and the inserted one are after an insert: an update copies
    the old value to the caller and drops it, and a panic drops the new one. -/
theorem Holds.insert_values (h : b.Holds es) (key : K) (value : V) (hash : UInt64) :
    (∃ b' old es', b.insert key value hash = (b', .ok (some old)) ∧ b'.Holds es' ∧
      b.get key hash = .ok (some old) ∧ b.insertDrops key value hash = [old] ∧
      (old :: es'.map Entry.value).Perm (value :: es.map Entry.value)) ∨
    (∃ b' es', b.insert key value hash = (b', .ok none) ∧ b'.Holds es' ∧
      b.get key hash = .ok none ∧ b.insertDrops key value hash = [] ∧
      (es'.map Entry.value).Perm (value :: es.map Entry.value)) ∨
    b.insert key value hash = (b, .error .bucketOverflow) ∧ b.get key hash = .ok none ∧
      b.insertDrops key value hash = [value] := by
  rcases h.scan key hash with ⟨l, entry, r, rfl, hhash, hkey, hscan⟩ | ⟨hnone, hscan⟩
  · left
    have hwrite := h.write (i := l.length) (by simp) ⟨key, value, hash, entry.distance⟩
    rw [List.set_append_right _ _ (Nat.le_refl _), Nat.sub_self] at hwrite
    have hheld : b.held l.length = [entry.value] := held_of_read h.read_middle
    refine ⟨_, entry.value, _, by rw [Bucket.insert, hscan], hwrite, by rw [Bucket.get, hscan]; rfl,
      by simp only [insertDrops, hscan, hheld], ?_⟩
    simp only [List.map_append, List.set_cons_zero, List.map_cons]
    exact (List.perm_middle.cons _).trans
      ((List.Perm.swap _ _ _).trans (List.perm_middle.symm.cons _))
  · right
    have hget : b.get key hash = .ok none := by
      rw [Bucket.get, hscan]
      rfl
    by_cases hroom : es.length < 16
    · left
      have hlt : b.len < 16 := h.len_eq ▸ hroom
      refine ⟨_, _, ?_, h.push hroom ⟨key, value, hash, 0⟩, hget, ?_, ?_⟩
      · simp only [Bucket.insert, hscan, insertNew, if_pos hlt]
      · simp only [insertDrops, hscan, if_pos hlt]
        exact h.held_free (Nat.le_of_eq h.len_eq.symm)
      · rw [List.map_append]
        exact List.perm_append_comm
    · right
      have hfull : ¬ b.len < 16 := h.len_eq ▸ hroom
      simp only [Bucket.insert, insertDrops, hscan, insertNew, if_neg hfull]
      exact ⟨trivial, hget, trivial⟩

theorem Holds.removeDrops_eq (h : b.Holds es) (key : K) (hash : UInt64) :
    b.removeDrops key hash = [] := by
  rcases h.scan key hash with ⟨l, entry, r, rfl, hhash, hkey, hscan⟩ | ⟨hnone, hscan⟩
  · have hlen : b.len - 1 - l.length = r.length := by
      rw [h.len_eq, List.length_append, List.length_cons]
      omega
    simp only [removeDrops, hscan, hlen]
    exact h.gap.shiftDrops_eq
  · simp only [removeDrops, hscan]

end Bucket

/-! ### Runs -/

namespace Ownership

structure Tagged (V : Type*) where
  token : Nat
  value : V
deriving DecidableEq, Repr

structure State (K V : Type*) where
  map : ConcurrentHashMap K (Tagged V)
  /-- the number of tokens given out so far -/
  issued : Nat
  given : List Nat
  released : List Nat

inductive Op (K V : Type*) where
  | insert (key : K) (value : V)
  | remove (key : K)
  | clear
deriving DecidableEq, Repr

/-- A map with a new table for `capacity` buckets, rounded up. -/
def init (capacity : Nat) : State K V :=
  ⟨ConcurrentHashMap.allocated (roundUp capacity), 0, [], []⟩

/-- The tokens of all slots of the table. -/
def allTokens (m : ConcurrentHashMap K (Tagged V)) : List Nat :=
  ((List.range m.capacity).flatMap fun i => (m.table i).allHeld).map Tagged.token

/-- The value that a call returns goes to the caller. -/
def givenTo : Except Panic (Option (Tagged V)) → List Nat
  | .ok (some value) => [value.token]
  | _ => []

variable [DecidableEq K]

/-- One call, for a fixed hash function; `none` for an insert that would resize.  Without a resize
    `insert` is `insertUnderLock`. -/
def step (h : K → UInt64) (s : State K V) : Op K V → Option (State K V)
  | .insert key value =>
      if s.map.shouldResize then none
      else
        let r := s.map.insertUnderLock key ⟨s.issued, value⟩ (h key)
        some
          { map := r.1
            issued := s.issued + 1
            given := s.given ++ givenTo r.2
            released := s.released ++
              ((s.map.table (bucketIndex (h key) s.map.capacity)).insertDrops key
                ⟨s.issued, value⟩ (h key)).map Tagged.token }
  | .remove key =>
      let r := s.map.remove key (h key)
      some { s with
        map := r.1
        given := s.given ++ givenTo r.2
        released := s.released ++
          ((s.map.table (bucketIndex (h key) s.map.capacity)).removeDrops key (h key)).map
            Tagged.token }
  | .clear => some { s with map := s.map.clear, released := s.released ++ allTokens s.map }

omit [DecidableEq K] in
/-- `drop` of the map. -/
def State.drop (s : State K V) : State K V :=
  { s with map := s.map.clear, released := s.released ++ allTokens s.map }

omit [DecidableEq K] in
/-- Every token has been handed to a caller or released, and only once. -/
def OwnedOnce (s : State K V) : Prop := (s.given ++ s.released).Perm (List.range s.issued)

/-- An insert is called only on keys for which a `get` would find nothing. -/
def OnAbsentKey (h : K → UInt64) (s : State K V) (op : Op K V) : Prop :=
  ∀ key value, op = .insert key value →
    s.map.table.getLocked key (h key) s.map.capacity = .ok none

/-! ### The books of a run

The tokens given, released and stored are those issued, and one more for each insert that
updated an entry. -/

omit [DecidableEq K] in
structure Accounts (s : State K V) (twice : List Nat) : Prop where
  power : ∃ k, s.map.capacity = 2 ^ k
  holds : ∀ i < s.map.capacity, (s.map.table i).Holds (s.map.table i).stored
  perm : (s.given ++ s.released ++
    (s.map.table.entries s.map.capacity).map fun e => e.value.token).Perm
      (List.range s.issued ++ twice)

section Accounts

variable {h : K → UInt64} {s s' : State K V} {twice : List Nat} {key : K} {value : V}

omit [DecidableEq K] in
theorem Accounts.allTokens_eq (hA : Accounts s twice) :
    allTokens s.map = (s.map.table.entries s.map.capacity).map fun e => e.value.token := by
  have hbuckets : ∀ i ∈ List.range s.map.capacity,
      (s.map.table i).allHeld = (s.map.table i).stored.map Entry.value :=
    fun i hi => (hA.holds i (List.mem_range.mp hi)).allHeld_eq
  rw [allTokens, List.flatMap_congr hbuckets, ← List.map_flatMap, List.map_map]
  rfl

omit [DecidableEq K] in
theorem accounts_init (capacity : Nat) : Accounts (init capacity : State K V) [] := by
  have hv := Table.valid_allocate (K := K) (V := Tagged V) (roundUp_power capacity)
  refine ⟨roundUp_power capacity, hv.holds, ?_⟩
  simp [init, ConcurrentHashMap.allocated, Table.entries_allocate]

omit [DecidableEq K] in
theorem holds_update {t : Table K (Tagged V)} {capacity i : Nat} {b : Bucket K (Tagged V)}
    {es : List (Entry K (Tagged V))} (ht : ∀ i < capacity, (t i).Holds (t i).stored)
    (hb : b.Holds es) :
    ∀ j < capacity, (Function.update t i b j).Holds (Function.update t i b j).stored := by
  intro j hj
  by_cases hji : j = i
  · subst hji
    rw [Function.update_self, hb.stored_eq]
    exact hb
  · rw [Function.update_of_ne hji]
    exact ht j hj

omit [DecidableEq K] in
/-- The tokens of the table after a change of one bucket. -/
theorem tokens_update {t : Table K (Tagged V)} {capacity i : Nat} {b : Bucket K (Tagged V)}
    {es : List (Entry K (Tagged V))} (hi : i < capacity) (hb : b.Holds es) :
    ∃ rest : List Nat,
      ((t.entries capacity).map fun e => e.value.token).Perm
        (((t i).stored.map Entry.value).map Tagged.token ++ rest) ∧
      ((Table.entries (Function.update t i b) capacity).map fun e => e.value.token).Perm
        ((es.map Entry.value).map Tagged.token ++ rest) := by
  obtain ⟨rest, hold, hnew⟩ := t.exists_rest hi
  refine ⟨rest.map fun e => e.value.token, ?_, ?_⟩
  · have hmap := hold.map fun e => e.value.token
    rw [List.map_append] at hmap
    rw [List.map_map]
    exact hmap
  · have hmap := (hnew b).map fun e => e.value.token
    rw [hb.stored_eq, List.map_append] at hmap
    rw [List.map_map]
    exact hmap

omit [DecidableEq K] in
/-- The books after a call that has changed one bucket of the table, has handed `given` to
    the caller and has dropped `released`; `new` are the tokens issued to it. -/
theorem Accounts.update {m : ConcurrentHashMap K (Tagged V)} {i issued : Nat}
    {b : Bucket K (Tagged V)} {es : List (Entry K (Tagged V))} {given released new extra : List Nat}
    (hA : Accounts s twice) (hi : i < s.map.capacity) (hb : b.Holds es)
    (htable : m.table = Function.update s.map.table i b) (hcapacity : m.capacity = s.map.capacity)
    (hissued : List.range issued = List.range s.issued ++ new)
    (hperm : (given ++ released ++ (es.map Entry.value).map Tagged.token).Perm
      (((s.map.table i).stored.map Entry.value).map Tagged.token ++ new ++ extra)) :
    Accounts (⟨m, issued, s.given ++ given, s.released ++ released⟩ : State K V)
      (twice ++ extra) := by
  obtain ⟨rest, hold, hnew⟩ := tokens_update (t := s.map.table) hi hb
  have hbooks := hA.perm
  rw [List.perm_iff_count] at hold hnew hbooks hperm
  refine ⟨hcapacity ▸ hA.power, ?_, ?_⟩
  · simp only [htable, hcapacity]
    exact holds_update hA.holds hb
  · simp only [htable, hcapacity, hissued, List.perm_iff_count]
    intro a
    have h₁ := hold a
    have h₂ := hnew a
    have h₃ := hbooks a
    have h₄ := hperm a
    simp only [List.count_append] at h₁ h₂ h₃ h₄ ⊢
    omega

theorem remove_eq (m : ConcurrentHashMap K (Tagged V)) (key : K) (hash : UInt64) :
    ∃ n, m.remove key hash =
      ({ m with table := (m.table.removeLocked key hash m.capacity).1, size := n },
        (m.table.removeLocked key hash m.capacity).2) := by
  rw [ConcurrentHashMap.remove]
  cases hr : m.table.removeLocked key hash m.capacity with
  | mk t r =>
    cases r with
    | error p => exact ⟨m.size, rfl⟩
    | ok old =>
      cases old with
      | none => exact ⟨m.size, rfl⟩
      | some v => exact ⟨Word.sub 64 m.size 1, rfl⟩

/-- An insert of an absent key keeps the books balanced, and any other counts the old value
    twice. -/
theorem Accounts.insert (hA : Accounts s twice) (hstep : step h s (.insert key value) = some s') :
    ∃ extra, Accounts s' (twice ++ extra) ∧
      (extra = [] ↔ s.map.table.getLocked key (h key) s.map.capacity = .ok none) := by
  cases hroom : s.map.shouldResize with
  | true => simp [step, hroom] at hstep
  | false =>
    obtain ⟨n, hinsert⟩ := s.map.insertUnderLock_eq key ⟨s.issued, value⟩ (h key)
    have hi := bucketIndex_lt (h key) hA.power
    have hholds := hA.holds _ hi
    have hrange : List.range (s.issued + 1) = List.range s.issued ++ [s.issued] := List.range_succ
    simp only [step, hroom, hinsert, Table.insertLocked, Bool.false_eq_true, if_false,
      Option.some.injEq] at hstep
    subst hstep
    rw [Table.getLocked]
    rcases hholds.insert_values key ⟨s.issued, value⟩ (h key) with
      ⟨b, old, es, hbucket, hb, hget, hdrops, hvalues⟩ |
      ⟨b, es, hbucket, hb, hget, hdrops, hvalues⟩ | ⟨hbucket, hget, hdrops⟩
    · -- the old value is given to the caller and dropped
      have htokens := hvalues.map Tagged.token
      refine ⟨[old.token], ?_, by simp [hget]⟩
      simp only [hbucket, hdrops, givenTo]
      refine hA.update hi hb rfl rfl hrange ?_
      rw [List.perm_iff_count] at htokens ⊢
      intro a
      have hcount := htokens a
      simp only [List.map_cons, List.map_nil, List.count_append, List.count_cons] at hcount ⊢
      omega
    · have htokens := hvalues.map Tagged.token
      refine ⟨[], ?_, by simp [hget]⟩
      simp only [hbucket, hdrops, givenTo]
      refine hA.update hi hb rfl rfl hrange ?_
      rw [List.append_nil]
      exact htokens.trans (List.perm_append_singleton _ _).symm
    · refine ⟨[], ?_, by simp [hget]⟩
      simp only [hbucket, hdrops, givenTo]
      refine hA.update hi hholds rfl rfl hrange ?_
      rw [List.append_nil]
      exact (List.perm_append_singleton _ _).symm

theorem Accounts.remove (hA : Accounts s twice) (hstep : step h s (.remove key) = some s') :
    Accounts s' twice := by
  obtain ⟨n, hremove⟩ := remove_eq s.map key (h key)
  have hi := bucketIndex_lt (h key) hA.power
  have hholds := hA.holds _ hi
  have hdrops := hholds.removeDrops_eq key (h key)
  simp only [step, hremove, Table.removeLocked, hdrops, Option.some.injEq] at hstep
  subst hstep
  have hissued : List.range s.issued = List.range s.issued ++ [] := (List.append_nil _).symm
  rw [← List.append_nil twice]
  rcases hholds.remove key (h key) with
    ⟨l, entry, r, b, hstored, _, _, hbucket, hb⟩ | ⟨_, hbucket⟩
  · simp only [hbucket, givenTo]
    refine hA.update hi hb rfl rfl hissued ?_
    rw [hstored]
    simp only [List.map_append, List.map_cons, List.map_nil, List.append_nil, List.singleton_append]
    exact List.perm_middle.symm
  · simp only [hbucket, givenTo]
    refine hA.update hi hholds rfl rfl hissued ?_
    simp

omit [DecidableEq K] in
theorem Accounts.clear (hA : Accounts s twice) :
    Accounts { s with map := s.map.clear, released := s.released ++ allTokens s.map } twice := by
  have hempty : ∀ i < s.map.capacity, s.map.clear.table i = .empty := fun i hi => if_pos hi
  refine ⟨hA.power, fun i hi => ?_, ?_⟩
  · rw [hempty i hi, Bucket.holds_empty.stored_eq]
    exact Bucket.holds_empty
  · have hstored : ∀ i < s.map.capacity, (s.map.clear.table i).stored = [] := by
      intro i hi
      rw [hempty i hi]
      exact Bucket.holds_empty.stored_eq
    have hcapacity : s.map.clear.capacity = s.map.capacity := rfl
    have hentries : s.map.clear.table.entries s.map.clear.capacity = [] := by
      rw [hcapacity, Table.entries, Partition.join_congr hstored, Partition.join]
      simp
    rw [hentries, List.map_nil, List.append_nil, hA.allTokens_eq, ← List.append_assoc]
    exact hA.perm

/-- The books of a whole run: nothing is counted twice exactly if every insert was called on
    an absent key. -/
theorem Accounts.run (ops : List (Op K V)) :
    ∀ {s : State K V} {twice : List Nat}, Accounts s twice →
      Transition.run (step h) s ops = some s' →
        ∃ extra, Accounts s' (twice ++ extra) ∧
          (extra = [] ↔ Along (step h) (OnAbsentKey h) s ops) := by
  induction ops with
  | nil =>
    intro s twice hA hrun
    cases hrun
    exact ⟨[], by rwa [List.append_nil], fun _ => trivial, fun _ => rfl⟩
  | cons op ops ih =>
    intro s twice hA hrun
    obtain ⟨m, hm, hrest⟩ := run_cons_eq_some.mp hrun
    have hfirst : ∃ extra, Accounts m (twice ++ extra) ∧ (extra = [] ↔ OnAbsentKey h s op) := by
      cases op with
      | insert key value =>
        obtain ⟨extra, hA', hextra⟩ := hA.insert hm
        refine ⟨extra, hA', hextra.trans ⟨fun habsent k v heq => ?_, fun hop => hop key value rfl⟩⟩
        cases heq
        exact habsent
      | remove key => exact ⟨[], by simpa using hA.remove hm, fun _ => nofun, fun _ => rfl⟩
      | clear =>
        cases hm
        exact ⟨[], by simpa using hA.clear, fun _ => nofun, fun _ => rfl⟩
    obtain ⟨extra₁, hA₁, hextra₁⟩ := hfirst
    obtain ⟨extra₂, hA₂, hextra₂⟩ := ih hA₁ hrest
    refine ⟨extra₁ ++ extra₂, by rwa [← List.append_assoc], ?_⟩
    rw [List.append_eq_nil_iff, hextra₁, hextra₂, Along]
    constructor
    · rintro ⟨hop, halong⟩
      refine ⟨hop, fun s₁ hs₁ => ?_⟩
      rw [hm] at hs₁
      cases hs₁
      exact halong
    · rintro ⟨hop, halong⟩
      exact ⟨hop, halong m hm⟩

omit [DecidableEq K] in
/-- After the drop of the map, the books say which tokens left it twice. -/
theorem Accounts.ownedOnce_drop (hA : Accounts s twice) : OwnedOnce s.drop ↔ twice = [] := by
  have hperm := hA.clear.perm
  have hentries : s.drop.map.table.entries s.drop.map.capacity = [] := by
    refine List.eq_nil_iff_forall_not_mem.mpr fun e he => ?_
    obtain ⟨i, hi, hmem⟩ := Table.mem_entries.mp he
    have hempty : s.drop.map.table i = .empty := if_pos hi
    rw [hempty, Bucket.holds_empty.stored_eq] at hmem
    cases hmem
  change (s.drop.given ++ s.drop.released ++
    (s.drop.map.table.entries s.drop.map.capacity).map _).Perm _ at hperm
  rw [hentries, List.map_nil, List.append_nil] at hperm
  constructor
  · intro howned
    have hlen := (howned.symm.trans hperm).length_eq
    rw [List.length_append] at hlen
    exact List.eq_nil_of_length_eq_zero (Nat.left_eq_add.mp hlen)
  · rintro rfl
    rw [List.append_nil] at hperm
    exact hperm

end Accounts

/-- **When the map owns each value exactly once.**  After a run on a table that is not
    resized and the drop of the map, every inserted value has been handed out or released
    exactly once if and only if no insert was called on a key that the map held. -/
theorem ownedOnce_iff {h : K → UInt64} {capacity : Nat} {ops : List (Op K V)} {s : State K V}
    (hrun : Transition.run (step h) (init capacity) ops = some s) :
    OwnedOnce s.drop ↔ Along (step h) (OnAbsentKey h) (init capacity) ops := by
  obtain ⟨extra, hA, hextra⟩ := (accounts_init capacity).run ops hrun
  rw [hA.ownedOnce_drop, List.nil_append, hextra]

theorem ownedOnce_iff_insertRemove :
    ∃ s : State Nat Nat, Transition.run (step Nat.toUInt64) (init 1)
        [.insert 5 7, .remove 5] = some s ∧ s.given = [0] ∧ s.drop.released = [] ∧
      (OwnedOnce s.drop ↔
        Along (step Nat.toUInt64) (OnAbsentKey Nat.toUInt64) (init 1 : State Nat Nat)
          [.insert 5 7, .remove 5]) := by
  have hrun : (Transition.run (step Nat.toUInt64) (init 1 : State Nat Nat)
      [.insert 5 7, .remove 5]).map (fun s => (s.given, s.drop.released)) = some ([0], []) := by
    decide
  obtain ⟨s, hs, heq⟩ := Option.map_eq_some_iff.mp hrun
  obtain ⟨hgiven, hreleased⟩ := Prod.mk.inj heq
  exact ⟨s, hs, hgiven, hreleased, ownedOnce_iff hs⟩

/-- The first value is returned by the second insert and dropped by its assignment. -/
theorem update_releases_returned_value :
    ∃ s : State Nat Nat, Transition.run (step Nat.toUInt64) (init 16)
        [.insert 5 7, .insert 5 8] = some s ∧ s.given = [0] ∧ s.drop.released = [0, 1] ∧
      ¬ OwnedOnce s.drop := by
  have hrun : (Transition.run (step Nat.toUInt64) (init 16 : State Nat Nat)
      [.insert 5 7, .insert 5 8]).map (fun s => (s.given, s.drop.released)) =
        some ([0], [0, 1]) := by
    decide
  obtain ⟨s, hs, heq⟩ := Option.map_eq_some_iff.mp hrun
  obtain ⟨hgiven, hreleased⟩ := Prod.mk.inj heq
  refine ⟨s, hs, hgiven, hreleased, fun howned => ?_⟩
  have hnodup := howned.nodup_iff.mpr List.nodup_range
  have hsame : s.drop.given = s.given := rfl
  rw [hsame, hgiven, hreleased] at hnodup
  exact absurd hnodup (by decide)

end Ownership

end VelocityX.Map
