import Mathlib.Data.List.Nodup
import VelocityX.Queue.MpmcThreads

/-!
# Exactly-once delivery of the lock-free bounded queue

Undisturbed runs of `push` and `pop` with fewer push calls than slots deliver every
value exactly once: no other step can lose or duplicate one.  The invariant follows
each box from its push through its slot to the pop that frees it.  A call that is the
only one to know a box holds it as an exclusive resource.
-/

namespace VelocityX.Mpmc.Threads

open Transition Linearization

variable {ι T : Type*} {w cap : Nat}

/-! ### What a call holds

A push that has not stored its box yet and a pop that has loaded a pointer each own a
value; a push between its two stores owns the publication of the tail. -/

inductive Resource where
  | value (ticket : Nat)
  | publication
deriving DecidableEq

def Pc.resource : Pc T → Option Resource
  | .idle => none
  | .push box .loadHead => some (.value box.ticket)
  | .push box (.loadTail _) => some (.value box.ticket)
  | .push box (.storeSlot _) => some (.value box.ticket)
  | .push _ (.storeTail _) => some .publication
  | .push _ .addGeneration => none
  | .pop .loadTail => none
  | .pop (.loadHead _) => none
  | .pop (.loadSlot _) => none
  | .pop (.storeHead _ ptr) => some (.value ptr.ticket)
  | .pop (.clearSlot _ ptr) => some (.value ptr.ticket)
  | .pop (.reclaim ptr) => some (.value ptr.ticket)

/-- A box that its push has not stored yet. -/
def Shared.Fresh (sh : Shared T) (box : Box T) : Prop :=
  box.ticket < sh.pushes ∧ ∀ b ∈ sh.placed, b.ticket ≠ box.ticket

def Pc.Ok (sh : Shared T) : Pc T → Prop
  | .idle => True
  | .push box .loadHead => sh.Fresh box
  | .push box (.loadTail _) => sh.Fresh box
  | .push box (.storeSlot _) => sh.Fresh box
  | .push box (.storeTail tail) =>
      tail = sh.tail ∧ sh.placed.length = sh.tail + 1 ∧ box ∈ sh.placed
  | .push box .addGeneration => box ∈ sh.placed
  | .pop .loadTail => True
  | .pop (.loadHead _) => True
  | .pop (.loadSlot head) => head ≤ sh.head
  | .pop (.storeHead head ptr) => head = sh.head ∧ sh.placed[head]? = some ptr
  | .pop (.clearSlot head ptr) =>
      head < sh.head ∧ sh.placed[head]? = some ptr ∧ ptr ∉ sh.returned
  | .pop (.reclaim ptr) => ptr ∈ sh.placed.take sh.head ∧ ptr ∉ sh.returned

theorem mem_take_iff_getElem? {α : Type*} {xs : List α} {x : α} {n : Nat} :
    x ∈ xs.take n ↔ ∃ i < n, xs[i]? = some x := by
  rw [List.mem_iff_getElem?]
  refine exists_congr fun i => ?_
  rw [List.getElem?_take]
  by_cases hi : i < n
  · rw [if_pos hi]
    exact (and_iff_right hi).symm
  · rw [if_neg hi]
    exact ⟨nofun, fun h => absurd h.1 hi⟩

/-- The shared memory, while fewer pushes than slots have been called: the box stored at
    position `i` is in slot `i` from its store until a pop clears the slot. -/
structure Good (w cap : Nat) (sh : Shared T) : Prop where
  capacity_lt : cap < 2 ^ w
  capacity_eq : sh.capacity = cap
  mask : ∀ i, i < cap → i &&& sh.mask = i
  length : sh.buffer.length = cap
  few : sh.pushes < cap
  tickets : (sh.placed.map Box.ticket).Nodup
  tickets_lt : ∀ box ∈ sh.placed, box.ticket < sh.pushes
  head_le : sh.head ≤ sh.placed.length
  tail_le : sh.tail ≤ sh.placed.length
  le_tail : sh.placed.length ≤ sh.tail + 1
  pending : ∀ i, sh.head ≤ i → i < cap → sh.buffer[i]? = some sh.placed[i]?
  popped : ∀ i, i < sh.head → sh.buffer[i]? = some none ∨ sh.buffer[i]? = some sh.placed[i]?
  returned_nodup : sh.returned.Nodup
  returned_popped : ∀ box ∈ sh.returned, box ∈ sh.placed.take sh.head
  accepted_placed : ∀ box ∈ sh.accepted, box ∈ sh.placed

structure Inv (w cap : Nat) (s : State ι T) : Prop where
  good : Good w cap s.shared
  ok : ∀ t, (s.loc t).Ok s.shared
  exclusive : Exclusive Pc.resource s.loc
  publication : s.shared.placed.length = s.shared.tail + 1 → Held Pc.resource s.loc .publication
  delivered : ∀ box ∈ s.shared.placed.take s.shared.head,
    box ∈ s.shared.returned ∨ Held Pc.resource s.loc (.value box.ticket)
  uncleared : ∀ i box, i < s.shared.head → s.shared.buffer[i]? = some (some box) →
    ∃ t, s.loc t = .pop (.clearSlot i box)

section Good

variable {sh : Shared T}

theorem Good.placed_unique (h : Good w cap sh) {i j : Nat} {a b : Box T}
    (hi : sh.placed[i]? = some a) (hj : sh.placed[j]? = some b) (hab : a.ticket = b.ticket) :
    i = j := by
  have hi' : (sh.placed.map Box.ticket)[i]? = some a.ticket := by
    rw [List.getElem?_map, hi]
    rfl
  have hj' : (sh.placed.map Box.ticket)[j]? = some a.ticket := by
    rw [List.getElem?_map, hj, hab]
    rfl
  have hlt : i < (sh.placed.map Box.ticket).length := (List.getElem?_eq_some_iff.mp hi').1
  exact (List.getElem?_inj hlt h.tickets).mp (hi'.trans hj'.symm)

/-- A box is determined by its ticket. -/
theorem Good.box_unique (h : Good w cap sh) {a b : Box T} (ha : a ∈ sh.placed)
    (hb : b ∈ sh.placed) (hab : a.ticket = b.ticket) : a = b :=
  List.inj_on_of_nodup_map h.tickets ha hb hab

theorem Good.length_le_pushes (h : Good w cap sh) : sh.placed.length ≤ sh.pushes := by
  have hsub : sh.placed.map Box.ticket ⊆ List.range sh.pushes := by
    intro n hn
    rcases List.mem_map.mp hn with ⟨box, hbox, rfl⟩
    exact List.mem_range.mpr (h.tickets_lt box hbox)
  have hle := h.tickets.length_le_of_subset hsub
  rw [List.length_map, List.length_range] at hle
  exact hle

theorem Good.length_lt_pushes (h : Good w cap sh) {box : Box T} (hbox : sh.Fresh box) :
    sh.placed.length < sh.pushes := by
  have hnodup : (box.ticket :: sh.placed.map Box.ticket).Nodup := by
    refine List.nodup_cons.mpr ⟨?_, h.tickets⟩
    intro hmem
    rcases List.mem_map.mp hmem with ⟨b, hb, heq⟩
    exact hbox.2 b hb heq
  have hsub : box.ticket :: sh.placed.map Box.ticket ⊆ List.range sh.pushes := by
    intro n hn
    rcases List.mem_cons.mp hn with rfl | hn
    · exact List.mem_range.mpr hbox.1
    · rcases List.mem_map.mp hn with ⟨b, hb, rfl⟩
      exact List.mem_range.mpr (h.tickets_lt b hb)
  have hle := hnodup.length_le_of_subset hsub
  rw [List.length_cons, List.length_map, List.length_range] at hle
  exact hle

theorem Good.head_lt (h : Good w cap sh) : sh.head < cap := by
  have h₁ := h.head_le
  have h₂ := h.length_le_pushes
  have h₃ := h.few
  omega

/-- Only the push that is about to publish holds the publication. -/
theorem Pc.storeTail_of_resource {l : Pc T} (hl : l.resource = some .publication) :
    ∃ b tl, l = .push b (.storeTail tl) := by
  cases l with
  | idle => cases hl
  | pop pc => cases pc <;> cases hl
  | push b pc =>
    cases pc with
    | storeTail tl => exact ⟨b, tl, rfl⟩
    | loadHead => cases hl
    | loadTail head => cases hl
    | storeSlot tl => cases hl
    | addGeneration => cases hl

/-- While no push is between its two stores, the tail counts the stored boxes. -/
theorem Inv.length_eq {s : State ι T} (h : Inv w cap s)
    (hnone : ∀ u box tail, s.loc u ≠ .push box (.storeTail tail)) :
    s.shared.placed.length = s.shared.tail := by
  have h₁ := h.good.tail_le
  have h₂ := h.good.le_tail
  by_contra hne
  obtain ⟨u, hu⟩ := h.publication (by omega)
  obtain ⟨box, tail, hpc⟩ := Pc.storeTail_of_resource hu
  exact hnone u box tail hpc

end Good

/-! ### Frames

What the steps of one thread leave true for the others. -/

section Frames

variable {sh : Shared T} {l : Pc T}

theorem Pc.Ok.callPush (h : l.Ok sh) : l.Ok { sh with pushes := sh.pushes + 1 } := by
  cases l with
  | idle => trivial
  | pop pc => cases pc <;> exact h
  | push box pc =>
    cases pc with
    | loadHead => exact ⟨Nat.lt_succ_of_lt h.1, h.2⟩
    | loadTail head => exact ⟨Nat.lt_succ_of_lt h.1, h.2⟩
    | storeSlot tail => exact ⟨Nat.lt_succ_of_lt h.1, h.2⟩
    | storeTail tail => exact h
    | addGeneration => exact h

theorem Pc.Ok.storeSlot {box : Box T} {buffer : List (Option (Box T))} (h : l.Ok sh)
    (hhead : sh.head ≤ sh.placed.length) (hvalue : l.resource ≠ some (.value box.ticket))
    (hpub : ∀ b tail, l ≠ .push b (.storeTail tail)) :
    l.Ok { sh with buffer := buffer, placed := sh.placed ++ [box] } := by
  have hfresh : ∀ b : Box T, sh.Fresh b → (.value b.ticket : Resource) ≠ .value box.ticket →
      Shared.Fresh { sh with buffer := buffer, placed := sh.placed ++ [box] } b := by
    intro b hb hne
    refine ⟨hb.1, fun b' hb' => ?_⟩
    rcases List.mem_append.mp hb' with hold | hnew
    · exact hb.2 b' hold
    · rw [List.mem_singleton] at hnew
      subst hnew
      intro heq
      exact hne (by rw [heq])
  have hget : ∀ {i : Nat} {b : Box T}, sh.placed[i]? = some b →
      (sh.placed ++ [box])[i]? = some b := by
    intro i b hi
    rw [List.getElem?_append_left (List.getElem?_eq_some_iff.mp hi).1]
    exact hi
  cases l with
  | idle => trivial
  | push b pc =>
    cases pc with
    | loadHead => exact hfresh b h (fun heq => hvalue (congrArg some heq))
    | loadTail head => exact hfresh b h (fun heq => hvalue (congrArg some heq))
    | storeSlot tail => exact hfresh b h (fun heq => hvalue (congrArg some heq))
    | storeTail tail => exact absurd rfl (hpub b tail)
    | addGeneration => exact List.mem_append_left _ h
  | pop pc =>
    cases pc with
    | loadTail => trivial
    | loadHead tail => trivial
    | loadSlot head => exact h
    | storeHead head ptr => exact ⟨h.1, hget h.2⟩
    | clearSlot head ptr => exact ⟨h.1, hget h.2.1, h.2.2⟩
    | reclaim ptr =>
      refine ⟨?_, h.2⟩
      show ptr ∈ (sh.placed ++ [box]).take sh.head
      rw [List.take_append_of_le_length hhead]
      exact h.1

theorem Pc.Ok.storeTail {n : Nat} (h : l.Ok sh) (hpub : l.resource ≠ some .publication) :
    l.Ok { sh with tail := n } := by
  cases l with
  | idle => trivial
  | pop pc => cases pc <;> exact h
  | push box pc =>
    cases pc with
    | storeTail tail => exact absurd rfl hpub
    | loadHead => exact h
    | loadTail head => exact h
    | storeSlot tail => exact h
    | addGeneration => exact h

theorem Pc.Ok.addGeneration {n : Nat} {accepted : List (Box T)} (h : l.Ok sh) :
    l.Ok { sh with generation := n, accepted := accepted } := by
  cases l with
  | idle => trivial
  | push box pc => cases pc <;> exact h
  | pop pc => cases pc <;> exact h

theorem Pc.Ok.storeHead (h : l.Ok sh)
    (hvalue : ∀ box, sh.placed[sh.head]? = some box →
      l.resource ≠ some (.value box.ticket)) :
    l.Ok { sh with head := sh.head + 1 } := by
  cases l with
  | idle => trivial
  | push box pc => cases pc <;> exact h
  | pop pc =>
    cases pc with
    | loadTail => trivial
    | loadHead tail => trivial
    | loadSlot head => exact Nat.le_succ_of_le h
    | storeHead head ptr =>
      rcases h with ⟨rfl, hptr⟩
      exact absurd rfl (hvalue ptr hptr)
    | clearSlot head ptr => exact ⟨Nat.lt_succ_of_lt h.1, h.2⟩
    | reclaim ptr => exact ⟨List.take_subset_take_left _ (Nat.le_succ _) h.1, h.2⟩

theorem Pc.Ok.clearSlot {buffer : List (Option (Box T))} (h : l.Ok sh) :
    l.Ok { sh with buffer := buffer } := by
  cases l with
  | idle => trivial
  | push box pc => cases pc <;> exact h
  | pop pc => cases pc <;> exact h

theorem Pc.Ok.reclaim {n : Nat} {ptr : Box T} (h : l.Ok sh)
    (hvalue : l.resource ≠ some (.value ptr.ticket)) :
    l.Ok { sh with generation := n, returned := sh.returned ++ [ptr] } := by
  have hnot : ∀ b : Box T, (.value b.ticket : Resource) ≠ .value ptr.ticket → b ∉ sh.returned →
      b ∉ sh.returned ++ [ptr] := by
    intro b hne hb hmem
    rcases List.mem_append.mp hmem with hold | hnew
    · exact hb hold
    · rw [List.mem_singleton] at hnew
      exact hne (by rw [hnew])
  cases l with
  | idle => trivial
  | push box pc => cases pc <;> exact h
  | pop pc =>
    cases pc with
    | loadTail => trivial
    | loadHead tail => trivial
    | loadSlot head => exact h
    | storeHead head ptr' => exact h
    | clearSlot head ptr' =>
      exact ⟨h.1, h.2.1, hnot ptr' (fun heq => hvalue (congrArg some heq)) h.2.2⟩
    | reclaim ptr' => exact ⟨h.1, hnot ptr' (fun heq => hvalue (congrArg some heq)) h.2⟩

end Frames

/-! ### The steps

One lemma for each step that changes the shared memory, and `Inv.quiet` for the loads. -/

section Steps

variable [DecidableEq ι] {s : State ι T} {t : ι} {l' : Pc T}

theorem ok_update {sh' : Shared T} {loc : ι → Pc T} (hself : l'.Ok sh')
    (hothers : ∀ u, u ≠ t → (loc u).Ok sh') : ∀ u, (Function.update loc t l' u).Ok sh' :=
  (Function.forall_update_iff loc fun _ l => Pc.Ok sh' l).mpr ⟨hself, hothers⟩

/-- A thread that is not clearing a slot takes a step: the others still are. -/
theorem uncleared_update {i : Nat} {box : Box T}
    (h : ∃ u, s.loc u = .pop (.clearSlot i box)) (ht : s.loc t ≠ .pop (.clearSlot i box)) :
    ∃ u, Function.update s.loc t l' u = .pop (.clearSlot i box) := by
  rcases h with ⟨u, hu⟩
  refine ⟨u, ?_⟩
  rw [Function.update_of_ne (fun hut => ht (by rw [← hut]; exact hu))]
  exact hu

theorem Inv.delivered_update (h : Inv w cap s) {box : Box T}
    (hbox : box ∈ s.shared.placed.take s.shared.head)
    (hkeep : (s.loc t).resource = some (.value box.ticket) →
      l'.resource = some (.value box.ticket)) :
    box ∈ s.shared.returned ∨
      Held Pc.resource (Function.update s.loc t l') (.value box.ticket) := by
  rcases h.delivered box hbox with hret | hheld
  · exact Or.inl hret
  · exact Or.inr (hheld.update hkeep)

/-- A step that does not change the shared memory. -/
theorem Inv.quiet (h : Inv w cap s) (hok : l'.Ok s.shared)
    (hres : ∀ r, l'.resource = some r → (s.loc t).resource = some r ∨
      ∀ u, u ≠ t → (s.loc u).resource ≠ some r)
    (hkeep : ∀ r, (s.loc t).resource = some r → l'.resource = some r ∨
      ∃ box, s.shared.Fresh box ∧ r = .value box.ticket)
    (hclear : ∀ i box, s.loc t ≠ .pop (.clearSlot i box)) :
    Inv w cap ⟨s.shared, Function.update s.loc t l'⟩ := by
  refine ⟨h.good, ok_update hok fun u _ => h.ok u, h.exclusive.update hres, ?_, ?_, ?_⟩
  · intro hlen
    refine (h.publication hlen).update fun hr => ?_
    rcases hkeep _ hr with hsame | ⟨box, _, heq⟩
    · exact hsame
    · cases heq
  · intro box hbox
    refine h.delivered_update hbox fun hr => ?_
    rcases hkeep _ hr with hsame | ⟨box', hfresh, heq⟩
    · exact hsame
    · rw [Resource.value.injEq] at heq
      exact absurd heq (hfresh.2 box (List.mem_of_mem_take hbox))
  · intro i box hi hslot
    exact uncleared_update (h.uncleared i box hi hslot) (hclear i box)

/-- The loads of a push keep its value, and a refused push drops it. -/
theorem Inv.pushLoad (h : Inv w cap s) {box : Box T} {pc : PushPc} (hl : s.loc t = .push box pc)
    (next : Pc T) (hfresh : s.shared.Fresh box)
    (hold : (Pc.push box pc).resource = some (.value box.ticket)) (hok : next.Ok s.shared)
    (hres : next.resource = some (.value box.ticket) ∨ next.resource = none) :
    Inv w cap ⟨s.shared, Function.update s.loc t next⟩ := by
  have hheld : (s.loc t).resource = some (.value box.ticket) := by rw [hl, hold]
  refine h.quiet hok (fun r hr => ?_) (fun r hr => Or.inr ⟨box, hfresh, ?_⟩) (fun i b heq => ?_)
  · rcases hres with hkeep | hdrop
    · rw [hkeep] at hr
      cases hr
      exact Or.inl hheld
    · rw [hdrop] at hr
      cases hr
  · rw [hheld] at hr
    cases hr
    rfl
  · rw [hl] at heq
    cases heq

/-- The loads of a pop hold nothing. -/
theorem Inv.popLoad (h : Inv w cap s) {pc : PopPc T} (hl : s.loc t = .pop pc) (next : Pc T)
    (hold : (Pc.pop pc).resource = none) (hok : next.Ok s.shared)
    (hres : next.resource = none) :
    Inv w cap ⟨s.shared, Function.update s.loc t next⟩ := by
  refine h.quiet hok (fun r hr => ?_) (fun r hr => ?_) (fun i b heq => ?_)
  · rw [hres] at hr
    cases hr
  · rw [hl, hold] at hr
    cases hr
  · rw [Pc.pop.inj (hl.symm.trans heq)] at hold
    cases hold

theorem Inv.callPush (h : Inv w cap s) (hfew : s.shared.pushes + 1 < cap)
    (hl : s.loc t = .idle) (value : T) :
    Inv w cap ⟨{ s.shared with pushes := s.shared.pushes + 1 },
      Function.update s.loc t (.push ⟨s.shared.pushes, value⟩ .loadHead)⟩ := by
  have hg := h.good
  -- the new ticket is larger than those of all boxes that threads hold
  have hnew : ∀ u r, (s.loc u).resource = some r → r ≠ .value s.shared.pushes := by
    intro u r hr heq
    subst heq
    have hok := h.ok u
    have hlt : ∀ b : Box T, some (Resource.value b.ticket) = some (.value s.shared.pushes) →
        ¬ b.ticket < s.shared.pushes := by
      intro b hb
      rw [Resource.value.inj (Option.some.inj hb)]
      exact Nat.lt_irrefl _
    cases hpc : s.loc u with
    | idle => rw [hpc] at hr; cases hr
    | push b pc =>
      rw [hpc] at hr hok
      cases pc with
      | loadHead => exact hlt b hr hok.1
      | loadTail head => exact hlt b hr hok.1
      | storeSlot tail => exact hlt b hr hok.1
      | storeTail tail => cases hr
      | addGeneration => cases hr
    | pop pc =>
      rw [hpc] at hr hok
      cases pc with
      | loadTail => cases hr
      | loadHead tail => cases hr
      | loadSlot head => cases hr
      | storeHead head ptr => exact hlt ptr hr (hg.tickets_lt ptr (List.mem_of_getElem? hok.2))
      | clearSlot head ptr =>
        exact hlt ptr hr (hg.tickets_lt ptr (List.mem_of_getElem? hok.2.1))
      | reclaim ptr => exact hlt ptr hr (hg.tickets_lt ptr (List.mem_of_mem_take hok.1))
  refine ⟨?_, ?_, ?_, ?_, ?_, ?_⟩
  · exact { hg with
      few := hfew
      tickets_lt := fun box hbox => Nat.lt_succ_of_lt (hg.tickets_lt box hbox) }
  · refine ok_update ⟨Nat.lt_succ_self _, fun b hb => ?_⟩ fun u _ => (h.ok u).callPush
    exact Nat.ne_of_lt (hg.tickets_lt b hb)
  · refine h.exclusive.update fun r hr => Or.inr fun u _ hu => ?_
    cases hr
    exact hnew u _ hu rfl
  · intro hlen
    refine (h.publication hlen).update fun hr => ?_
    rw [hl] at hr
    cases hr
  · intro box hbox
    refine h.delivered_update hbox fun hr => ?_
    rw [hl] at hr
    cases hr
  · intro i box hi hslot
    exact uncleared_update (h.uncleared i box hi hslot) (by rw [hl]; intro heq; cases heq)

/-- A push writes the slot behind the last placed box. -/
theorem Good.storeSlot {sh : Shared T} {box : Box T} {tail : Nat} (h : Good w cap sh)
    (hfresh : sh.Fresh box) (htail : sh.tail = tail) (hlen : sh.placed.length = tail) :
    Good w cap { sh with buffer := sh.buffer.set tail (some box), placed := sh.placed ++ [box] } ∧
      (∀ i, i ≠ tail → (sh.buffer.set tail (some box))[i]? = sh.buffer[i]?) ∧
      (sh.placed ++ [box]).take sh.head = sh.placed.take sh.head := by
  have hhead : sh.head ≤ tail := by
    rw [← hlen]
    exact h.head_le
  have hslot : ∀ i, i ≠ tail → (sh.buffer.set tail (some box))[i]? = sh.buffer[i]? :=
    fun i hi => List.getElem?_set_ne (Ne.symm hi)
  have hplaced : ∀ i, i ≠ tail → (sh.placed ++ [box])[i]? = sh.placed[i]? := by
    intro i hi
    rw [List.getElem?_append]
    split
    · rfl
    · next hge =>
      rw [List.getElem?_eq_none (by rw [List.length_singleton]; omega),
        List.getElem?_eq_none (by omega)]
  have hself : (sh.placed ++ [box])[tail]? = some box := by
    rw [← hlen]
    exact List.getElem?_concat_length
  have htake : (sh.placed ++ [box]).take sh.head = sh.placed.take sh.head :=
    List.take_append_of_le_length h.head_le
  refine ⟨⟨h.capacity_lt, h.capacity_eq, h.mask, ?_, h.few, ?_, ?_, ?_, ?_, ?_, ?_, ?_,
    h.returned_nodup, ?_, ?_⟩, hslot, htake⟩
  · show (sh.buffer.set tail (some box)).length = cap
    rw [List.length_set, h.length]
  · show ((sh.placed ++ [box]).map Box.ticket).Nodup
    rw [List.map_append]
    refine List.Nodup.append h.tickets (List.nodup_singleton _) ?_
    intro n hn hbox
    rw [List.map_singleton, List.mem_singleton] at hbox
    rcases List.mem_map.mp hn with ⟨b, hb, heq⟩
    exact hfresh.2 b hb (heq.trans hbox)
  · intro b hb
    rcases List.mem_append.mp hb with hold | hnew
    · exact h.tickets_lt b hold
    · rw [List.mem_singleton] at hnew
      subst hnew
      exact hfresh.1
  · show sh.head ≤ (sh.placed ++ [box]).length
    rw [List.length_append]
    omega
  · show sh.tail ≤ (sh.placed ++ [box]).length
    rw [List.length_append]
    omega
  · show (sh.placed ++ [box]).length ≤ sh.tail + 1
    rw [List.length_append, List.length_singleton]
    omega
  · intro i hi hcap
    show (sh.buffer.set tail (some box))[i]? = some (sh.placed ++ [box])[i]?
    by_cases hit : i = tail
    · subst hit
      rw [hself, List.getElem?_set_self (by rw [h.length]; exact hcap)]
    · rw [hslot i hit, hplaced i hit]
      exact h.pending i hi hcap
  · intro i hi
    have hi' : i < sh.head := hi
    show (sh.buffer.set tail (some box))[i]? = some none ∨
      (sh.buffer.set tail (some box))[i]? = some (sh.placed ++ [box])[i]?
    rw [hslot i (by omega), hplaced i (by omega)]
    exact h.popped i hi'
  · intro b hb
    show b ∈ (sh.placed ++ [box]).take sh.head
    rw [htake]
    exact h.returned_popped b hb
  · intro b hb
    exact List.mem_append_left _ (h.accepted_placed b hb)

omit [DecidableEq ι] in
/-- The slot of a push that no other one disturbs is in the buffer. -/
theorem Inv.tail_lt (h : Inv w cap s) {box : Box T} {tail : Nat}
    (hl : s.loc t = .push box (.storeSlot tail)) (htail : s.shared.tail = tail)
    (hnone : ∀ u b tl, s.loc u ≠ .push b (.storeTail tl)) : tail < cap := by
  have hfresh : s.shared.Fresh box := by
    have hok := h.ok t
    rw [hl] at hok
    exact hok
  have hlen : s.shared.placed.length = tail := by rw [← htail]; exact h.length_eq hnone
  have hbelow := h.good.length_lt_pushes hfresh
  have hfew := h.good.few
  omega

theorem Inv.storeSlot (h : Inv w cap s) {box : Box T} {tail : Nat}
    (hl : s.loc t = .push box (.storeSlot tail)) (htail : s.shared.tail = tail)
    (hnone : ∀ u b tl, s.loc u ≠ .push b (.storeTail tl)) :
    Inv w cap
      ⟨{ s.shared with buffer := s.shared.buffer.set (tail &&& s.shared.mask) (some box),
                       placed := s.shared.placed ++ [box] },
        Function.update s.loc t (.push box (.storeTail tail))⟩ := by
  have hg := h.good
  have hfresh : s.shared.Fresh box := by
    have hok := h.ok t
    rw [hl] at hok
    exact hok
  have hlen : s.shared.placed.length = tail := by rw [← htail]; exact h.length_eq hnone
  have hlt := h.tail_lt hl htail hnone
  have hhead : s.shared.head ≤ tail := by rw [← hlen]; exact hg.head_le
  rw [hg.mask tail hlt]
  obtain ⟨hgood, hslot, htake⟩ := hg.storeSlot hfresh htail hlen
  refine ⟨hgood, ?_, ?_, ?_, ?_, ?_⟩
  · refine ok_update ⟨htail.symm, ?_, List.mem_append_right _ (List.mem_singleton_self _)⟩ ?_
    · show (s.shared.placed ++ [box]).length = s.shared.tail + 1
      rw [List.length_append, List.length_singleton, hlen, htail]
    · intro u hu
      refine (h.ok u).storeSlot hg.head_le ?_ (hnone u)
      exact h.exclusive.ne_of_ne hu (by rw [hl]; rfl)
  · refine h.exclusive.update fun r hr => Or.inr fun u hu hr' => ?_
    cases hr
    obtain ⟨b, tl, hpc⟩ := Pc.storeTail_of_resource hr'
    exact hnone u b tl hpc
  · intro _
    exact held_update_self rfl
  · intro b hb
    have hb' : b ∈ s.shared.placed.take s.shared.head := by rw [← htake]; exact hb
    refine h.delivered_update hb' fun hr => ?_
    rw [hl] at hr
    exact absurd (Resource.value.inj (Option.some.inj hr)).symm
      (hfresh.2 b (List.mem_of_mem_take hb'))
  · intro i b hi hb
    have hi' : i < s.shared.head := hi
    have hb' : s.shared.buffer[i]? = some (some b) := by
      rw [← hslot i (by omega)]
      exact hb
    exact uncleared_update (h.uncleared i b hi' hb') (by rw [hl]; intro heq; cases heq)

theorem Inv.storeTail (h : Inv w cap s) {box : Box T} {tail : Nat}
    (hl : s.loc t = .push box (.storeTail tail)) :
    Inv w cap ⟨{ s.shared with tail := Word.add w tail 1 },
      Function.update s.loc t (.push box .addGeneration)⟩ := by
  have hg := h.good
  have hok := h.ok t
  rw [hl] at hok
  rcases hok with ⟨rfl, hlen, hbox⟩
  have hword : Word.add w s.shared.tail 1 = s.shared.tail + 1 := by
    refine Word.add_of_lt ?_
    have h₁ := hg.length_le_pushes
    have h₂ := hg.few
    have h₃ := hg.capacity_lt
    omega
  rw [hword]
  refine ⟨?_, ?_, ?_, ?_, ?_, ?_⟩
  · exact { hg with
      tail_le := Nat.le_of_eq hlen.symm
      le_tail := by show s.shared.placed.length ≤ s.shared.tail + 1 + 1; omega }
  · refine ok_update hbox fun u hu => (h.ok u).storeTail ?_
    exact h.exclusive.ne_of_ne hu (by rw [hl]; rfl)
  · exact h.exclusive.update fun r hr => by cases hr
  · intro hlen'
    have : s.shared.placed.length = s.shared.tail + 1 + 1 := hlen'
    omega
  · intro b hb
    refine h.delivered_update hb fun hr => ?_
    rw [hl] at hr
    cases hr
  · intro i b hi hb
    exact uncleared_update (h.uncleared i b hi hb) (by rw [hl]; intro heq; cases heq)

theorem Inv.addGeneration (h : Inv w cap s) {box : Box T} {n : Nat}
    (hl : s.loc t = .push box .addGeneration) :
    Inv w cap ⟨{ s.shared with generation := n, accepted := s.shared.accepted ++ [box] },
      Function.update s.loc t .idle⟩ := by
  have hbox : box ∈ s.shared.placed := by
    have hok := h.ok t
    rw [hl] at hok
    exact hok
  refine ⟨?_, ?_, ?_, ?_, ?_, ?_⟩
  · refine { h.good with accepted_placed := fun b hb => ?_ }
    rcases List.mem_append.mp hb with hold | hnew
    · exact h.good.accepted_placed b hold
    · rw [List.mem_singleton] at hnew
      subst hnew
      exact hbox
  · exact ok_update trivial fun u _ => (h.ok u).addGeneration
  · exact h.exclusive.update fun r hr => by cases hr
  · intro hlen
    refine (h.publication hlen).update fun hr => ?_
    rw [hl] at hr
    cases hr
  · intro b hb
    refine h.delivered_update hb fun hr => ?_
    rw [hl] at hr
    cases hr
  · intro i b hi hb
    exact uncleared_update (h.uncleared i b hi hb) (by rw [hl]; intro heq; cases heq)

/-- A pop takes the pointer of the slot it loads: the slot is that of the head, and nobody
    else holds its box. -/
theorem Inv.loadSlot (h : Inv w cap s) {head : Nat} {ptr : Box T}
    (hl : s.loc t = .pop (.loadSlot head))
    (hptr : s.shared.buffer[head &&& s.shared.mask]?.join = some ptr)
    (halone : ∀ u p, s.loc u ≠ .pop (.storeHead head p) ∧ s.loc u ≠ .pop (.clearSlot head p)) :
    Inv w cap ⟨s.shared, Function.update s.loc t (.pop (.storeHead head ptr))⟩ := by
  have hg := h.good
  have hle : head ≤ s.shared.head := by
    have hok := h.ok t
    rw [hl] at hok
    exact hok
  have hslot : s.shared.buffer[head]? = some (some ptr) := by
    rw [hg.mask head (Nat.lt_of_le_of_lt hle hg.head_lt)] at hptr
    exact Option.join_eq_some_iff.mp hptr
  have hhead : head = s.shared.head := by
    by_contra hne
    rcases h.uncleared head ptr (by omega) hslot with ⟨u, hu⟩
    exact (halone u ptr).2 hu
  have hplaced : s.shared.placed[head]? = some ptr := by
    have hpending := hg.pending head (Nat.le_of_eq hhead.symm) (by rw [hhead]; exact hg.head_lt)
    rw [hslot] at hpending
    exact (Option.some.inj hpending).symm
  have hmem : ptr ∈ s.shared.placed := List.mem_of_getElem? hplaced
  refine h.quiet ⟨hhead, hplaced⟩ ?_ ?_ ?_
  · intro r hr
    cases hr
    right
    intro u _ hu
    have hok := h.ok u
    -- a thread that holds the box works on the same position
    have hsame : ∀ (i : Nat) (p : Box T), s.shared.placed[i]? = some p →
        some (Resource.value p.ticket) = some (.value ptr.ticket) → i = head :=
      fun i p hi heq => hg.placed_unique hi hplaced (Resource.value.inj (Option.some.inj heq))
    cases hpc : s.loc u with
    | idle => rw [hpc] at hu; cases hu
    | push b pc =>
      rw [hpc] at hu hok
      have hstored : s.shared.Fresh b → some (Resource.value b.ticket) ≠ some (.value ptr.ticket) :=
        fun hb heq => hb.2 ptr hmem (Resource.value.inj (Option.some.inj heq)).symm
      cases pc with
      | loadHead => exact hstored hok hu
      | loadTail hd => exact hstored hok hu
      | storeSlot tail => exact hstored hok hu
      | storeTail tail => cases hu
      | addGeneration => cases hu
    | pop pc =>
      rw [hpc] at hu hok
      cases pc with
      | loadTail => cases hu
      | loadHead tail => cases hu
      | loadSlot hd => cases hu
      | storeHead hd p =>
        have hhd := hsame hd p hok.2 hu
        subst hhd
        exact (halone u p).1 hpc
      | clearSlot hd p =>
        have hhd := hsame hd p hok.2.1 hu
        subst hhd
        exact (halone u p).2 hpc
      | reclaim p =>
        rcases mem_take_iff_getElem?.mp hok.1 with ⟨i, hi, hget⟩
        have := hsame i p hget hu
        omega
  · intro r hr
    rw [hl] at hr
    cases hr
  · intro i b heq
    rw [hl] at heq
    cases heq

theorem Inv.storeHead (h : Inv w cap s) {head : Nat} {ptr : Box T}
    (hl : s.loc t = .pop (.storeHead head ptr)) :
    Inv w cap ⟨{ s.shared with head := Word.add w head 1 },
      Function.update s.loc t (.pop (.clearSlot head ptr))⟩ := by
  have hg := h.good
  have hok := h.ok t
  rw [hl] at hok
  rcases hok with ⟨rfl, hptr⟩
  have hword : Word.add w s.shared.head 1 = s.shared.head + 1 := by
    refine Word.add_of_lt ?_
    have h₁ := hg.head_lt
    have h₂ := hg.capacity_lt
    omega
  have hlt : s.shared.head < s.shared.placed.length := (List.getElem?_eq_some_iff.mp hptr).1
  have htake : s.shared.placed.take (s.shared.head + 1) =
      s.shared.placed.take s.shared.head ++ [ptr] := by
    rw [List.take_add_one, hptr]
    rfl
  have hnot : ptr ∉ s.shared.returned := by
    intro hmem
    rcases mem_take_iff_getElem?.mp (hg.returned_popped ptr hmem) with ⟨i, hi, hget⟩
    have := hg.placed_unique hget hptr rfl
    omega
  rw [hword]
  refine ⟨?_, ?_, ?_, ?_, ?_, ?_⟩
  · refine { hg with
      head_le := hlt
      pending := fun i hi hcap => hg.pending i (Nat.le_of_succ_le hi) hcap
      popped := fun i hi => ?_
      returned_popped := fun b hb => ?_ }
    · by_cases heq : i = s.shared.head
      · subst heq
        exact Or.inr (hg.pending _ (Nat.le_refl _) hg.head_lt)
      · have hi' : i < s.shared.head + 1 := hi
        exact hg.popped i (by omega)
    · show b ∈ s.shared.placed.take (s.shared.head + 1)
      rw [htake]
      exact List.mem_append_left _ (hg.returned_popped b hb)
  · refine ok_update ⟨Nat.lt_succ_self _, hptr, hnot⟩ fun u hu => (h.ok u).storeHead ?_
    intro b hb
    rw [hptr] at hb
    cases hb
    exact h.exclusive.ne_of_ne hu (by rw [hl]; rfl)
  · refine h.exclusive.update fun r hr => Or.inl ?_
    rw [hl]
    exact hr
  · intro hlen
    refine (h.publication hlen).update fun hr => ?_
    rw [hl] at hr
    cases hr
  · intro b hb
    have hb' : b ∈ s.shared.placed.take s.shared.head ++ [ptr] := by
      rw [← htake]
      exact hb
    rcases List.mem_append.mp hb' with hold | hnew
    · refine h.delivered_update hold fun hr => ?_
      rw [hl] at hr
      exact hr
    · rw [List.mem_singleton] at hnew
      subst hnew
      exact Or.inr (held_update_self rfl)
  · intro i b hi hb
    by_cases heq : i = s.shared.head
    · subst heq
      have hpending := hg.pending _ (Nat.le_refl _) hg.head_lt
      rw [hptr] at hpending
      have hbptr : b = ptr := Option.some.inj (Option.some.inj (hb.symm.trans hpending))
      subst hbptr
      exact ⟨t, Function.update_self _ _ _⟩
    · have hi' : i < s.shared.head + 1 := hi
      refine uncleared_update (h.uncleared i b (by omega) hb) ?_
      rw [hl]
      intro heq'
      cases heq'

theorem Inv.clearSlot (h : Inv w cap s) {head : Nat} {ptr : Box T}
    (hl : s.loc t = .pop (.clearSlot head ptr)) :
    Inv w cap
      ⟨{ s.shared with buffer := s.shared.buffer.set (head &&& s.shared.mask) none },
        Function.update s.loc t (.pop (.reclaim ptr))⟩ := by
  have hg := h.good
  have hok := h.ok t
  rw [hl] at hok
  rcases hok with ⟨hlt, hptr, hnot⟩
  have hcap : head < cap := Nat.lt_trans hlt hg.head_lt
  rw [hg.mask head hcap]
  have hslot : ∀ i, i ≠ head → (s.shared.buffer.set head none)[i]? = s.shared.buffer[i]? :=
    fun i hi => List.getElem?_set_ne (Ne.symm hi)
  have hcleared : (s.shared.buffer.set head none)[head]? = some none :=
    List.getElem?_set_self (by rw [hg.length]; exact hcap)
  refine ⟨?_, ?_, ?_, ?_, ?_, ?_⟩
  · refine { hg with
      length := List.length_set.trans hg.length
      pending := fun i hi hcap => ?_
      popped := fun i hi => ?_ }
    · show (s.shared.buffer.set head none)[i]? = some s.shared.placed[i]?
      have hi' : s.shared.head ≤ i := hi
      rw [hslot i (by omega)]
      exact hg.pending i hi' hcap
    · show (s.shared.buffer.set head none)[i]? = some none ∨
        (s.shared.buffer.set head none)[i]? = some s.shared.placed[i]?
      by_cases heq : i = head
      · subst heq
        exact Or.inl hcleared
      · rw [hslot i heq]
        exact hg.popped i hi
  · exact ok_update ⟨mem_take_iff_getElem?.mpr ⟨head, hlt, hptr⟩, hnot⟩ fun u _ =>
      (h.ok u).clearSlot
  · refine h.exclusive.update fun r hr => Or.inl ?_
    rw [hl]
    exact hr
  · intro hlen
    refine (h.publication hlen).update fun hr => ?_
    rw [hl] at hr
    cases hr
  · intro b hb
    refine h.delivered_update hb fun hr => ?_
    rw [hl] at hr
    exact hr
  · intro i b hi hb
    have hb' : (s.shared.buffer.set head none)[i]? = some (some b) := hb
    by_cases heq : i = head
    · subst heq
      rw [hcleared] at hb'
      cases hb'
    · rw [hslot i heq] at hb'
      refine uncleared_update (h.uncleared i b hi hb') ?_
      rw [hl]
      intro heq'
      cases heq'
      exact heq rfl

theorem Inv.reclaim (h : Inv w cap s) {ptr : Box T} {n : Nat}
    (hl : s.loc t = .pop (.reclaim ptr)) :
    Inv w cap ⟨{ s.shared with generation := n, returned := s.shared.returned ++ [ptr] },
      Function.update s.loc t .idle⟩ := by
  have hg := h.good
  have hok := h.ok t
  rw [hl] at hok
  rcases hok with ⟨hptr, hnot⟩
  refine ⟨?_, ?_, ?_, ?_, ?_, ?_⟩
  · refine { hg with
      returned_nodup := ?_
      returned_popped := fun b hb => ?_ }
    · refine List.Nodup.append hg.returned_nodup (List.nodup_singleton _) ?_
      intro b hb hmem
      rw [List.mem_singleton] at hmem
      subst hmem
      exact hnot hb
    · rcases List.mem_append.mp hb with hold | hnew
      · exact hg.returned_popped b hold
      · rw [List.mem_singleton] at hnew
        subst hnew
        exact hptr
  · refine ok_update trivial fun u hu => (h.ok u).reclaim ?_
    exact h.exclusive.ne_of_ne hu (by rw [hl]; rfl)
  · exact h.exclusive.update fun r hr => by cases hr
  · intro hlen
    refine (h.publication hlen).update fun hr => ?_
    rw [hl] at hr
    cases hr
  · intro b hb
    rcases h.delivered b hb with hret | hheld
    · exact Or.inl (List.mem_append_left _ hret)
    · by_cases heq : b.ticket = ptr.ticket
      · have hbptr : b = ptr :=
          hg.box_unique (List.mem_of_mem_take hb) (List.mem_of_mem_take hptr) heq
        subst hbptr
        exact Or.inl (List.mem_append_right _ (List.mem_singleton_self _))
      · refine Or.inr (hheld.update fun hr => ?_)
        rw [hl] at hr
        exact absurd (Resource.value.inj (Option.some.inj hr)).symm heq
  · intro i b hi hb
    exact uncleared_update (h.uncleared i b hi hb) (by rw [hl]; intro heq; cases heq)

end Steps

/-! ### Runs -/

section Runs

variable {s s' : State ι T} {q : MpmcQueue T} {capacity : Nat}

theorem Inv.deliveredOnce (h : Inv w cap s) : DeliveredOnce s := by
  have hg := h.good
  refine ⟨hg.returned_nodup, fun hidle box hbox => ?_⟩
  have hnobody : ∀ r, ¬ Held Pc.resource s.loc r := by
    rintro r ⟨t, ht⟩
    rw [hidle t] at ht
    cases ht
  have hlen : s.shared.placed.length = s.shared.tail := by
    refine h.length_eq fun u b tail hu => ?_
    rw [hidle u] at hu
    cases hu
  rcases List.getElem?_of_mem (hg.accepted_placed box hbox) with ⟨i, hi⟩
  have hlt : i < s.shared.placed.length := (List.getElem?_eq_some_iff.mp hi).1
  by_cases hpopped : i < s.shared.head
  · left
    have hmem : box ∈ s.shared.placed.take s.shared.head :=
      mem_take_iff_getElem?.mpr ⟨i, hpopped, hi⟩
    rcases h.delivered box hmem with hret | hheld
    · exact hret
    · exact absurd hheld (hnobody _)
  · right
    have hcap : i < cap := by
      have h₁ := hg.length_le_pushes
      have h₂ := hg.few
      omega
    refine ⟨i, by omega, by omega, ?_⟩
    rw [hg.mask i hcap, hg.pending i (by omega) hcap, hi]

theorem inv_init (hq : MpmcQueue.new w capacity = some q) (hpos : 0 < q.capacity) :
    Inv w q.capacity (init q : State ι T) := by
  have hmodels := MpmcQueue.models_withCapacity hq hpos
  have hnew := MpmcQueue.withCapacity_eq_some hq hpos
  have hhead : q.head = 0 := by rw [hnew]
  have htail : q.tail = 0 := by rw [hnew]
  refine ⟨?_, fun _ => trivial, fun _ _ _ ht => (by cases ht), ?_, ?_, ?_⟩
  · refine ⟨MpmcQueue.withCapacity_lt hq, rfl, ?_, ?_, hmodels.capacity_pos, ?_, ?_, ?_, ?_, ?_,
      ?_, ?_, ?_, ?_, ?_⟩
    · intro i hi
      exact (hmodels.and_mask i).trans (Nat.mod_eq_of_lt hi)
    · exact List.length_replicate
    · exact List.nodup_nil
    · intro box hbox
      cases hbox
    · exact Nat.le_of_eq hhead
    · exact Nat.le_of_eq htail
    · exact Nat.zero_le _
    · intro i _ hi
      exact List.getElem?_replicate_of_lt hi
    · intro i hi
      have hi' : i < q.head := hi
      omega
    · exact List.nodup_nil
    · intro box hbox
      cases hbox
    · intro box hbox
      cases hbox
  · intro hlen
    cases hlen
  · intro box hbox
    have hmem := List.mem_of_mem_take hbox
    cases hmem
  · intro i box hi
    have hi' : i < q.head := hi
    omega

variable [DecidableEq ι]

theorem pushes_le {a : ι × Act T} (hstep : step w s a = some s') :
    s.shared.pushes ≤ s'.shared.pushes := by
  rcases a with ⟨t, c⟩
  rcases interleave_eq_some.mp hstep with ⟨sh, l, hp, rfl⟩
  show s.shared.pushes ≤ sh.pushes
  cases c with
  | call c =>
    cases hl : s.loc t <;> cases c <;> rw [hl] at hp <;> cases hp
    · exact Nat.le_succ _
    · exact Nat.le_refl _
  | step =>
    cases hl : s.loc t with
    | idle => rw [hl] at hp; cases hp
    | push box pc =>
      rw [hl] at hp
      cases hp
      cases pc with
      | loadTail head =>
        rw [pushStep]
        split <;> exact Nat.le_refl _
      | storeSlot tail =>
        rw [pushStep]
        split <;> exact Nat.le_refl _
      | loadHead => exact Nat.le_refl _
      | storeTail tail => exact Nat.le_refl _
      | addGeneration => exact Nat.le_refl _
    | pop pc =>
      rw [hl] at hp
      cases hp
      cases pc with
      | loadHead tail =>
        rw [popStep]
        split <;> exact Nat.le_refl _
      | loadSlot head =>
        rw [popStep]
        split <;> exact Nat.le_refl _
      | loadTail => exact Nat.le_refl _
      | storeHead head ptr => exact Nat.le_refl _
      | clearSlot head ptr => exact Nat.le_refl _
      | reclaim ptr => exact Nat.le_refl _

/-- **Every undisturbed step keeps the invariant.** -/
theorem inv_step {a : ι × Act T} (h : Inv w cap s) (hcond : Undisturbed s a)
    (hstep : step w s a = some s') (hfew : s'.shared.pushes < cap) : Inv w cap s' := by
  rcases a with ⟨t, c⟩
  rcases interleave_eq_some.mp hstep with ⟨sh, l, hp, rfl⟩
  cases c with
  | call c =>
    cases hl : s.loc t with
    | push box pc => rw [hl] at hp; cases hp
    | pop pc => rw [hl] at hp; cases hp
    | idle =>
      rw [hl] at hp
      cases c with
      | push value =>
        cases hp
        exact h.callPush hfew hl value
      | pop =>
        cases hp
        refine h.quiet trivial (fun r hr => by cases hr) (fun r hr => ?_) (fun i box heq => ?_)
        · rw [hl] at hr
          cases hr
        · rw [hl] at heq
          cases heq
  | step =>
    rcases hcond rfl with ⟨hpush, hpop⟩
    cases hl : s.loc t with
    | idle => rw [hl] at hp; cases hp
    | push box pc =>
      have hok := h.ok t
      rw [hl] at hp hok
      cases hp
      cases pc with
      | loadHead => exact h.pushLoad hl _ hok rfl hok (Or.inl rfl)
      | loadTail head =>
        by_cases hfull : Word.add w s.shared.tail 1 &&& s.shared.mask = head
        · rw [pushStep, if_pos hfull]
          exact h.pushLoad hl .idle hok rfl trivial (Or.inr rfl)
        · rw [pushStep, if_neg hfull]
          exact h.pushLoad hl (.push box (.storeSlot s.shared.tail)) hok rfl hok (Or.inl rfl)
      | storeSlot tail =>
        rcases hpush box tail hl with ⟨htail, hnone⟩
        have hlt := h.tail_lt hl htail hnone
        have hslot : tail &&& s.shared.mask < s.shared.buffer.length := by
          rw [h.good.mask tail hlt, h.good.length]
          exact hlt
        rw [pushStep, if_pos hslot]
        exact h.storeSlot hl htail hnone
      | storeTail tail => exact h.storeTail hl
      | addGeneration => exact h.addGeneration hl
    | pop pc =>
      have hok := h.ok t
      rw [hl] at hp hok
      cases hp
      cases pc with
      | loadTail => exact h.popLoad hl _ rfl trivial rfl
      | loadHead tail =>
        by_cases hempty : s.shared.head = tail
        · rw [popStep, if_pos hempty]
          exact h.popLoad hl .idle rfl trivial rfl
        · rw [popStep, if_neg hempty]
          exact h.popLoad hl (.pop (.loadSlot s.shared.head)) rfl (Nat.le_refl _) rfl
      | loadSlot head =>
        rw [popStep]
        cases hptr : s.shared.buffer[head &&& s.shared.mask]?.join with
        | none => exact h.popLoad hl .idle rfl trivial rfl
        | some ptr => exact h.loadSlot hl hptr (hpop head hl)
      | storeHead head ptr => exact h.storeHead hl
      | clearSlot head ptr => exact h.clearSlot hl
      | reclaim ptr => exact h.reclaim hl

/-- **Exactly-once delivery of undisturbed runs.**  In every run with fewer push calls than
    slots whose steps are all undisturbed, every state reached has delivered each value at
    most once and lost none; the values accepted and delivered are those that the calls
    returned. -/
theorem delivered_once (hq : MpmcQueue.new w capacity = some q) {as : List (ι × Act T)}
    (hcond : Along (step w) Undisturbed (init q) as) (hrun : run (step w) (init q) as = some s)
    (hfew : s.shared.pushes < q.capacity) :
    DeliveredOnce s ∧
      (trace (step w) (acknowledged w) (init q) as).map Prod.snd =
        s.shared.accepted.map Box.value ∧
      (trace (step w) (handedOut w) (init q) as).map Prod.snd =
        s.shared.returned.map Box.value := by
  have hpos : 0 < q.capacity := Nat.zero_lt_of_lt hfew
  have hinv : s.shared.pushes < q.capacity → Inv w q.capacity s := by
    refine run_invariant_along
      (I := fun m : State ι T => m.shared.pushes < q.capacity → Inv w q.capacity m)
      (fun m a m' hm hC hstep hfew' => ?_) (fun _ => inv_init hq hpos) hcond hrun
    have hmono := pushes_le hstep
    exact inv_step (hm (by omega)) hC hstep hfew'
  exact ⟨(hinv hfew).deliveredOnce, logs_eq hrun⟩

/-- Two pushes and two pops that overlap, and a push during the second pop. -/
def overlapping : List (Bool × Act Nat) :=
  [(false, .call (.push 7)), (true, .call (.push 8)), (false, .step), (true, .step),
    (false, .step), (false, .step), (false, .step), (true, .step), (false, .step),
    (false, .call .pop), (true, .step), (false, .step), (true, .step), (false, .step),
    (false, .step), (true, .step), (true, .call .pop), (false, .step), (true, .step),
    (true, .step), (true, .step), (false, .step), (true, .step), (false, .step),
    (false, .call (.push 9)), (true, .step), (false, .step), (true, .step), (false, .step),
    (false, .step), (false, .step), (false, .step)]

theorem delivered_once_overlapping :
    ∃ s : State Bool Nat, run (step 64) (init ⟨List.replicate 4 none, 4, 3, 0, 0, 0⟩)
        overlapping = some s ∧ DeliveredOnce s ∧
      s.shared.accepted.map Box.value = [7, 8, 9] ∧
      s.shared.returned.map Box.value = [7, 8] := by
  have hq : MpmcQueue.new 64 4 =
      some (⟨List.replicate 4 none, 4, 3, 0, 0, 0⟩ : MpmcQueue Nat) := by decide
  have hrun : (run (step 64) (init ⟨List.replicate 4 none, 4, 3, 0, 0, 0⟩ : State Bool Nat)
      overlapping).map (fun s => s.shared.pushes) = some 3 := by decide
  have hcond : Along (step 64) Undisturbed
      (init ⟨List.replicate 4 none, 4, 3, 0, 0, 0⟩ : State Bool Nat) overlapping := by
    decide
  obtain ⟨s, hs, hpushes⟩ := Option.map_eq_some_iff.mp hrun
  obtain ⟨hdelivered, haccepted, hreturned⟩ :=
    delivered_once hq hcond hs (by rw [hpushes]; decide)
  refine ⟨s, hs, hdelivered, ?_, ?_⟩
  · rw [← haccepted]
    decide
  · rw [← hreturned]
    decide

/-- Two pushes that load the same tail: the box of the first is overwritten. -/
def collidingPushes : List (Bool × Act Nat) :=
  [(false, .call (.push 7)), (true, .call (.push 8)), (false, .step), (false, .step),
    (true, .step), (true, .step), (false, .step), (true, .step), (false, .step), (true, .step),
    (false, .step), (true, .step)]

theorem concurrent_push_loses_value :
    ¬ (∀ (q : MpmcQueue Nat) (as : List (Bool × Act Nat)) (s : State Bool Nat),
      MpmcQueue.new 64 4 = some q → run (step 64) (init q) as = some s →
        s.shared.pushes < q.capacity → DeliveredOnce s) := by
  intro h
  have hq : MpmcQueue.new 64 4 =
      some (⟨[none, none, none, none], 4, 3, 0, 0, 0⟩ : MpmcQueue Nat) := by decide
  have hrun : (run (step 64) (init ⟨[none, none, none, none], 4, 3, 0, 0, 0⟩)
      collidingPushes).map (fun s => (s.shared, s.loc false, s.loc true)) =
        some (⟨[some ⟨1, 8⟩, none, none, none], 4, 3, 0, 1, 2, 2, [⟨0, 7⟩, ⟨1, 8⟩],
          [⟨0, 7⟩, ⟨1, 8⟩], []⟩, .idle, .idle) := rfl
  rcases Option.map_eq_some_iff.mp hrun with ⟨s, hs, heq⟩
  simp only [Prod.mk.injEq] at heq
  rcases heq with ⟨hshared, hfalse, htrue⟩
  have hkept := (h _ collidingPushes s hq hs (by rw [hshared]; decide)).kept
    (fun t => by cases t; exacts [hfalse, htrue]) ⟨0, 7⟩ (by rw [hshared]; decide)
  rw [hshared] at hkept
  rcases hkept with hret | ⟨i, hi, hlt, hslot⟩
  · cases hret
  · have hi0 : i = 0 := Nat.lt_one_iff.mp hlt
    subst hi0
    exact absurd hslot (by decide)

end Runs

end VelocityX.Mpmc.Threads
