import VelocityX.Map.Resize

/-!
# What a table answers

Under a fixed hash function `h` a valid table answers as a function from keys to values.
`Content` names that function, and the lemmas say what the operations on one bucket and a
migration do to it.
-/

namespace VelocityX.Map.Table

variable {K V : Type*} [DecidableEq K]

structure Content (h : K → UInt64) (t : Table K V) (capacity : Nat) (f : K → Option V) : Prop where
  hashed : ∀ entry ∈ t.entries capacity, entry.hash = h entry.key
  models : ∃ F, t.Models capacity F ∧ ∀ key, F.lookup key = f key

variable {h : K → UInt64} {t t' : Table K V} {capacity i : Nat} {f : K → Option V}
variable {key : K} {value : V} {result : Except Panic (Option V)} {entry : Entry K V}

theorem Content.valid (hc : Content h t capacity f) : t.Valid capacity := by
  obtain ⟨F, hF, _⟩ := hc.models
  exact hF.valid

omit [DecidableEq K] in
theorem keyed_of_hashed (hashed : ∀ entry ∈ t.entries capacity, entry.hash = h entry.key)
    (key : K) : t.Keyed capacity key (h key) := by
  rintro entry hentry rfl
  exact hashed entry hentry

theorem Content.getLocked (hc : Content h t capacity f) (key : K) :
    t.getLocked key (h key) capacity = .ok (f key) := by
  obtain ⟨F, hF, hlookup⟩ := hc.models
  rw [hF.getLocked (keyed_of_hashed hc.hashed key), hlookup]

theorem content_allocate (hpower : ∃ k, capacity = 2 ^ k) :
    Content h (allocateTable capacity : Table K V) capacity fun _ => none := by
  refine ⟨fun entry hentry => ?_, ∅, models_allocate hpower, fun key => rfl⟩
  rw [entries_allocate] at hentry
  cases hentry

/-! ### Entries after an operation -/

omit [DecidableEq K] in
theorem mem_entries_update {b : Bucket K V}
    (hentry : entry ∈ Table.entries (Function.update t i b) capacity) :
    entry ∈ b.stored ∨ entry ∈ t.entries capacity := by
  obtain ⟨k, hk, hmem⟩ := mem_entries.mp hentry
  by_cases hki : k = i
  · subst hki
    rw [Function.update_self] at hmem
    exact .inl hmem
  · rw [Function.update_of_ne hki] at hmem
    exact .inr (mem_entries.mpr ⟨k, hk, hmem⟩)

theorem Valid.mem_insertLocked {hash : UInt64} (hv : t.Valid capacity)
    (hinsert : t.insertLocked capacity key value hash = (t', result))
    (hentry : entry ∈ t'.entries capacity) :
    entry.key = key ∧ entry.hash = hash ∨ entry ∈ t.entries capacity := by
  obtain rfl := (Prod.mk.inj hinsert).1
  have hi := bucketIndex_lt hash hv.power
  obtain ⟨es, hes, hmem⟩ := (hv.holds _ hi).exists_insert key value hash
  rcases mem_entries_update hentry with hstored | hentry
  · rw [hes.stored_eq] at hstored
    rcases hmem entry hstored with hnew | hold
    · exact .inl hnew
    · exact .inr (mem_entries.mpr ⟨_, hi, hold⟩)
  · exact .inr hentry

theorem Valid.mem_removeLocked {hash : UInt64} (hv : t.Valid capacity)
    (hremove : t.removeLocked key hash capacity = (t', result))
    (hentry : entry ∈ t'.entries capacity) : entry ∈ t.entries capacity := by
  obtain rfl := (Prod.mk.inj hremove).1
  have hi := bucketIndex_lt hash hv.power
  obtain ⟨es, hes, hmem⟩ := (hv.holds _ hi).exists_remove key hash
  rcases mem_entries_update hentry with hstored | hentry
  · rw [hes.stored_eq] at hstored
    exact mem_entries.mpr ⟨_, hi, hmem entry hstored⟩
  · exact hentry

/-! ### The operations on the content -/

/-- An insert that does not panic changes the answer for its key, and one that panics changes
    nothing. -/
theorem Content.insertLocked (hc : Content h t capacity f)
    (hinsert : t.insertLocked capacity key value (h key) = (t', result)) :
    result = .ok (f key) ∧ Content h t' capacity (Function.update f key (some value)) ∨
      result = .error .bucketOverflow ∧ t' = t := by
  obtain ⟨F, hF, hlookup⟩ := hc.models
  rcases hF.insertLocked (keyed_of_hashed hc.hashed key) value with
    ⟨t₁, hinsert₁, ht₁⟩ | ⟨_, _, hinsert₁⟩
  · left
    have hmem : ∀ e ∈ t'.entries capacity, e.key = key ∧ e.hash = h key ∨ e ∈ t.entries capacity :=
      fun e he => hc.valid.mem_insertLocked hinsert he
    rw [hinsert₁] at hinsert
    cases hinsert
    refine ⟨by rw [hlookup], fun e he => ?_, _, ht₁, fun key' => ?_⟩
    · rcases hmem e he with ⟨rfl, hhash⟩ | hold
      · exact hhash
      · exact hc.hashed e hold
    · by_cases hkey : key' = key
      · subst hkey
        rw [Finmap.lookup_insert, Function.update_self]
      · rw [Finmap.lookup_insert_of_ne F hkey, Function.update_of_ne hkey, hlookup]
  · right
    rw [hinsert₁] at hinsert
    cases hinsert
    exact ⟨rfl, rfl⟩

theorem Content.insertLocked_ok {old : Option V} (hc : Content h t capacity f)
    (hinsert : t.insertLocked capacity key value (h key) = (t', .ok old)) :
    Content h t' capacity (Function.update f key (some value)) := by
  rcases hc.insertLocked hinsert with ⟨_, hcontent⟩ | ⟨herror, _⟩
  · exact hcontent
  · cases herror

theorem Content.removeLocked (hc : Content h t capacity f)
    (hremove : t.removeLocked key (h key) capacity = (t', result)) :
    result = .ok (f key) ∧ Content h t' capacity (Function.update f key none) := by
  obtain ⟨F, hF, hlookup⟩ := hc.models
  obtain ⟨t₁, hremove₁, ht₁⟩ := hF.removeLocked (keyed_of_hashed hc.hashed key)
  have hmem : ∀ e ∈ t'.entries capacity, e ∈ t.entries capacity :=
    fun e he => hc.valid.mem_removeLocked hremove he
  rw [hremove₁] at hremove
  cases hremove
  refine ⟨by rw [hlookup], fun e he => hc.hashed e (hmem e he), _, ht₁, fun key' => ?_⟩
  by_cases hkey : key' = key
  · subst hkey
    rw [Finmap.lookup_erase, Function.update_self]
  · rw [Finmap.lookup_erase_ne hkey, Function.update_of_ne hkey, hlookup]

/-- Emptying a bucket removes the keys that belong there. -/
theorem Content.wipe (hc : Content h t capacity f) (hi : i < capacity) :
    Content h (Function.update t i .empty) capacity fun key =>
      if bucketIndex (h key) capacity = i then none else f key := by
  obtain ⟨F, hF, hlookup⟩ := hc.models
  obtain ⟨rest, hold, hnew⟩ := t.exists_rest hi
  have hmem : ∀ e ∈ Table.entries (Function.update t i .empty) capacity,
      e ∈ t.entries capacity := by
    intro e he
    rcases mem_entries_update he with hstored | he
    · rw [Bucket.holds_empty.stored_eq] at hstored
      cases hstored
    · exact he
  have hashed : ∀ e ∈ Table.entries (Function.update t i .empty) capacity, e.hash = h e.key :=
    fun e he => hc.hashed e (hmem e he)
  have hkeys : ((rest.map Entry.binding).map Sigma.fst).Nodup := by
    have hrep := (hF.represents.perm (hold.map Entry.binding)).nodup
    rw [List.map_append, List.map_append] at hrep
    exact (List.nodup_append.mp hrep).2.1
  obtain ⟨G, hG⟩ := FiniteMap.exists_represents hkeys
  have hmodels : Models (Function.update t i .empty) capacity G :=
    (hF.valid.wellPlaced.update Bucket.holds_empty nofun).models Bucket.holds_empty (hnew .empty) hG
  refine ⟨hashed, G, hmodels, fun key => ?_⟩
  by_cases hkey : bucketIndex (h key) capacity = i
  · rw [if_pos hkey]
    refine hmodels.lookup_none fun e he hek => ?_
    have hstored := hmodels.valid.mem_stored he
    rw [hashed e he, hek, hkey, Function.update_self, Bucket.holds_empty.stored_eq] at hstored
    cases hstored
  · rw [if_neg hkey, ← hlookup]
    by_cases hstored : ∃ e ∈ Table.entries (Function.update t i .empty) capacity, e.key = key
    · obtain ⟨e, he, rfl⟩ := hstored
      rw [hmodels.lookup_of_mem he, hF.lookup_of_mem (hmem e he)]
    · rw [hmodels.lookup_none fun e he hek => hstored ⟨e, he, hek⟩]
      symm
      refine hF.lookup_none fun e he hek => hstored ⟨e, mem_entries.mpr ?_, hek⟩
      have hbucket := hc.valid.mem_stored he
      rw [hc.hashed e he, hek] at hbucket
      refine ⟨_, bucketIndex_lt (h key) hc.valid.power, ?_⟩
      rwa [Function.update_of_ne hkey]

/-- The new table answers as the old one after the migration of all buckets. -/
theorem Content.migrated (hc : Content h t capacity f) (hm : t.Migrated t' capacity capacity) :
    Content h t' (capacity * 2) f := by
  obtain ⟨F, hF, hlookup⟩ := hc.models
  have hperm := hm.entries hc.valid
  refine ⟨fun e he => ?_, F, ⟨hm.valid hc.valid, ?_⟩, hlookup⟩
  · obtain ⟨e', he', rfl⟩ := List.mem_map.mp (hperm.mem_iff.mp he)
    exact hc.hashed e' he'
  · have hbindings := hperm.map Entry.binding
    rw [List.map_map] at hbindings
    exact hF.represents.perm hbindings.symm

end VelocityX.Map.Table
