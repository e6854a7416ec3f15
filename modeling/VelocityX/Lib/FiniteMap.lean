import Mathlib.Data.Finmap

/-!
# Finite maps as bags of bindings

A container that keeps key-value pairs in some order and without repeated keys stands
for a `Finmap`.  The rules say what adding, replacing and deleting one pair of the
container does to the map.
-/

namespace FiniteMap

variable {K V : Type*} {F : Finmap fun _ : K => V} {ps qs : List (Sigma fun _ : K => V)}
variable {k : K} {v v' : V}

def Represents (ps : List (Sigma fun _ : K => V)) (F : Finmap fun _ : K => V) : Prop :=
  F.entries = (ps : Multiset (Sigma fun _ : K => V))

theorem represents_nil : Represents [] (∅ : Finmap fun _ : K => V) := rfl

theorem exists_represents (h : (ps.map Sigma.fst).Nodup) :
    ∃ F : Finmap fun _ : K => V, Represents ps F :=
  ⟨⟨ps, Multiset.coe_nodupKeys.mpr h⟩, rfl⟩

theorem Represents.perm (h : Represents ps F) (hperm : ps.Perm qs) : Represents qs F := by
  unfold Represents at h ⊢
  rw [h]
  exact Multiset.coe_eq_coe.mpr hperm

theorem Represents.nodup (h : Represents ps F) : (ps.map Sigma.fst).Nodup := by
  have hnodup : Multiset.NodupKeys (ps : Multiset (Sigma fun _ : K => V)) := h ▸ F.nodupKeys
  exact Multiset.coe_nodupKeys.mp hnodup

theorem Represents.card_keys (h : Represents ps F) : F.keys.card = ps.length := by
  show Multiset.card (F.entries.map Sigma.fst) = ps.length
  rw [h, Multiset.card_map, Multiset.coe_card]

variable [DecidableEq K]

theorem Represents.lookup (h : Represents ps F) (hmem : ⟨k, v⟩ ∈ ps) : F.lookup k = some v := by
  refine Finmap.lookup_eq_some_iff.mpr ?_
  rw [h]
  exact hmem

theorem Represents.lookup_none (h : Represents ps F) (hnone : ∀ p ∈ ps, p.1 ≠ k) :
    F.lookup k = none := by
  cases hlookup : F.lookup k with
  | none => rfl
  | some v =>
    have hmem := Finmap.lookup_eq_some_iff.mp hlookup
    rw [h] at hmem
    exact absurd rfl (hnone _ hmem)

theorem Represents.insert (h : Represents ps F) (hnone : ∀ p ∈ ps, p.1 ≠ k) (v : V) :
    Represents (⟨k, v⟩ :: ps) (F.insert k v) := by
  have hnotMem : k ∉ F := Finmap.lookup_eq_none.mp (h.lookup_none hnone)
  unfold Represents at h ⊢
  rw [Finmap.entries_insert_of_notMem hnotMem, h]
  rfl

/-- The map of the other pairs, to which the first one has been added. -/
theorem Represents.exists_tail (h : Represents (⟨k, v⟩ :: ps) F) :
    ∃ G, Represents ps G ∧ k ∉ G ∧ F = G.insert k v := by
  have hkeys := List.nodupKeys_cons.mp h.nodup
  let G : Finmap fun _ : K => V := ⟨ps, Multiset.coe_nodupKeys.mpr hkeys.2⟩
  have hnotMem : k ∉ G := fun hk => hkeys.1 hk
  refine ⟨G, rfl, hnotMem, Finmap.ext ?_⟩
  rw [h, Finmap.entries_insert_of_notMem hnotMem]
  rfl

theorem Represents.replace (h : Represents (⟨k, v⟩ :: ps) F) (v' : V) :
    Represents (⟨k, v'⟩ :: ps) (F.insert k v') := by
  obtain ⟨G, hG, hnotMem, rfl⟩ := h.exists_tail
  unfold Represents at hG ⊢
  rw [Finmap.insert_insert, Finmap.entries_insert_of_notMem hnotMem, hG]
  rfl

theorem Represents.erase (h : Represents (⟨k, v⟩ :: ps) F) : Represents ps (F.erase k) := by
  obtain ⟨G, hG, hnotMem, rfl⟩ := h.exists_tail
  have herase : (G.insert k v).erase k = G := by
    refine Finmap.ext_lookup fun k' => ?_
    by_cases hk : k' = k
    · subst hk
      rw [Finmap.lookup_erase, Finmap.lookup_eq_none.mpr hnotMem]
    · rw [Finmap.lookup_erase_ne hk, Finmap.lookup_insert_of_ne _ hk]
  rw [herase]
  exact hG

theorem card_keys_insert_of_none (hnone : F.lookup k = none) :
    (F.insert k v).keys.card = F.keys.card + 1 := by
  have hrep : Represents F.entries.toList F := (Multiset.coe_toList _).symm
  have hne : ∀ p ∈ F.entries.toList, p.1 ≠ k := by
    rintro ⟨k', v'⟩ hp rfl
    rw [hrep.lookup hp] at hnone
    cases hnone
  rw [(hrep.insert hne v).card_keys, hrep.card_keys, List.length_cons]

theorem card_keys_insert_of_some (hsome : F.lookup k = some v') :
    (F.insert k v).keys.card = F.keys.card := by
  refine congrArg Finset.card (Finset.ext fun k' => ?_)
  rw [Finmap.mem_keys, Finmap.mem_keys, Finmap.mem_insert]
  have hmem : k ∈ F := Finmap.mem_of_lookup_eq_some hsome
  exact ⟨fun h => h.elim (fun hk => hk ▸ hmem) id, Or.inr⟩

theorem card_keys_erase_of_some (hsome : F.lookup k = some v) :
    (F.erase k).keys.card = F.keys.card - 1 := by
  rw [Finmap.keys_erase]
  exact Finset.card_erase_of_mem (Finmap.mem_keys.mpr (Finmap.mem_of_lookup_eq_some hsome))

theorem erase_of_lookup_none (hnone : F.lookup k = none) : F.erase k = F := by
  refine Finmap.ext_lookup fun k' => ?_
  by_cases hk : k' = k
  · subst hk
    rw [Finmap.lookup_erase, hnone]
  · rw [Finmap.lookup_erase_ne hk]

end FiniteMap
