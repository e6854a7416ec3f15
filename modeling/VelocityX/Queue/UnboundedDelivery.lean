import Mathlib.Data.List.Nodup
import VelocityX.Queue.UnboundedThreads

/-!
# Exactly-once delivery of the unbounded queue

Along an undisturbed run the linked nodes form one chain that starts at the dummy.  `head`
and `tail` point into it: the nodes up to `head` are those whose values have been taken,
and at most one node, that of a push between its two stores, lies beyond `tail`.
-/

namespace VelocityX.Unbounded.Threads

open Transition Linearization

variable {ι T : Type*} {w : Nat}

/-- How `head` and `tail` divide the chain. -/
structure Layout where
  chain : List Nat
  popped : List Nat
  published : List Nat
  pending : List Nat

/-! ### What a call holds

A push that has not linked its node yet and a pop that has moved the head each own a node; a
push between its two stores owns the publication of the tail. -/

inductive Resource where
  | node (a : Nat)
  | publication
deriving DecidableEq

def Pc.resource : Pc T → Option Resource
  | .push a .loadTail => some (.node a)
  | .push a (.storeNext _) => some (.node a)
  | .push _ (.reloadNext _) => some .publication
  | .push _ (.storeTail _) => some .publication
  | .pop (.subSize a _) => some (.node a)
  | _ => none

/-- A node that its push has not linked yet. -/
def Shared.Fresh (sh : Shared T) (y : Layout) (a : Nat) : Prop :=
  a < sh.nodes.length ∧ a ∉ y.chain

def Pc.Ok (y : Layout) (sh : Shared T) : Pc T → Prop
  | .push a .loadTail => sh.Fresh y a
  | .push a (.storeNext t) => sh.Fresh y a ∧ t ∈ y.published
  | .push a (.reloadNext t) => y.pending = [a] ∧ y.published.getLast? = some t
  | .push a (.storeTail n) => y.pending = [a] ∧ n = a
  | .push a .addSize => a ∈ y.chain ∧ a ≠ 0
  | .pop (.readValue h n) => sh.link h = some (some n)
  | .pop (.storeHead h n _) => sh.link h = some (some n)
  | .pop (.subSize n _) => n ∈ y.popped ∧ n ∉ sh.returned
  | _ => True

structure Good (y : Layout) (sh : Shared T) : Prop where
  chain : Linked.Chain sh.link (some 0) y.chain
  popped : y.popped <+: y.chain
  head : y.popped.getLast? = some sh.head
  published : y.chain = y.published ++ y.pending
  tail : y.published.getLast? = some sh.tail
  loose : ∀ a < sh.nodes.length, a ∉ y.chain → sh.link a = some none
  returned_nodup : sh.returned.Nodup
  returned_popped : ∀ a ∈ sh.returned, a ∈ y.popped
  pushed_linked : ∀ a ∈ sh.pushed, a ∈ y.chain ∧ a ≠ 0

structure InvAt (y : Layout) (s : State ι T) : Prop where
  good : Good y s.shared
  ok : ∀ t, (s.loc t).Ok y s.shared
  exclusive : Exclusive Pc.resource s.loc
  publication : y.pending ≠ [] → Held Pc.resource s.loc .publication
  delivered : ∀ a ∈ y.popped, a ≠ 0 →
    a ∈ s.shared.returned ∨ Held Pc.resource s.loc (.node a)

def Inv (s : State ι T) : Prop := ∃ y, InvAt y s

section Good

variable {y : Layout} {sh : Shared T} {a n t : Nat}

theorem link_lt (h : sh.link a = some (some n)) : a < sh.nodes.length := by
  obtain ⟨node, hnode, _⟩ := Option.map_eq_some_iff.mp h
  exact (List.getElem?_eq_some_iff.mp hnode).1

theorem Good.mem_lt (h : Good y sh) (ha : a ∈ y.chain) : a < sh.nodes.length := by
  obtain ⟨n, hn⟩ := h.chain.exists_next ha
  obtain ⟨node, hnode, _⟩ := Option.map_eq_some_iff.mp hn
  exact (List.getElem?_eq_some_iff.mp hnode).1

/-- A node of the chain without a successor is the last one. -/
theorem Good.last_of_null (h : Good y sh) (ha : a ∈ y.chain) (hnull : sh.link a = some none) :
    ∃ l, y.chain = l ++ [a] := by
  obtain ⟨l, r, heq⟩ := List.append_of_mem ha
  cases r with
  | nil => exact ⟨l, heq⟩
  | cons b r =>
    have hnext := heq ▸ h.chain
    rw [hnext.next_eq] at hnull
    cases hnull

/-- The successor of the head is the first node that has not been popped. -/
theorem Good.popped_next (h : Good y sh) (hn : sh.link sh.head = some (some n)) :
    ∃ rest, y.chain = y.popped ++ n :: rest := by
  obtain ⟨l, hl⟩ := List.getLast?_eq_some_iff.mp h.head
  obtain ⟨r, hr⟩ := h.popped
  have hchain := h.chain
  rw [← hr, hl, List.append_assoc] at hchain
  cases r with
  | nil =>
    rw [hchain.next_last] at hn
    cases hn
  | cons b r =>
    have hnext : sh.link sh.head = some (some b) := hchain.next_eq
    rw [hn] at hnext
    cases hnext
    exact ⟨r, hr.symm⟩

/-- A published node whose link is null is the last one, and nothing is pending. -/
theorem Good.nothing_pending {tail : Nat} (h : Good y sh) (htail : tail ∈ y.published)
    (hnull : sh.link tail = some none) : y.pending = [] ∧ ∃ l, y.chain = l ++ [tail] := by
  have hmem : tail ∈ y.chain := by
    rw [h.published]
    exact List.mem_append_left _ htail
  obtain ⟨l, hlast⟩ := h.last_of_null hmem hnull
  refine ⟨?_, l, hlast⟩
  rcases List.eq_nil_or_concat y.pending with hnil | ⟨r, b, hb⟩
  · exact hnil
  · have hchain := h.published
    rw [hlast, hb, List.concat_eq_append, ← List.append_assoc] at hchain
    obtain ⟨hinit, hsame⟩ := List.append_inj' hchain rfl
    have hnodup : (l ++ [tail]).Nodup := hlast ▸ h.chain.nodup
    refine absurd ?_ ((List.nodup_append.mp hnodup).2.2 tail · tail List.mem_cons_self rfl)
    rw [hinit]
    exact List.mem_append_left _ htail

end Good

/-! ### The memory -/

section Memory

variable {sh : Shared T} {a b n : Nat} {value : T}

/-- A push links its node behind the last one. -/
theorem Good.storeNext {y : Layout} {tail : Nat} {l : List Nat} (h : Good y sh)
    (hfresh : sh.Fresh y a) (hpending : y.pending = []) (hlast : y.chain = l ++ [tail])
    (hnull : sh.link tail = some none) :
    Good ⟨y.chain ++ [a], y.popped, y.published, [a]⟩ (sh.storeNext tail a) := by
  obtain ⟨hlt, hnotMem⟩ := hfresh
  have hmem : tail ∈ y.chain := by
    rw [hlast]
    exact List.mem_append_right _ List.mem_cons_self
  have hne : a ≠ tail := fun heq => hnotMem (heq ▸ hmem)
  refine ⟨?_, h.popped.trans (List.prefix_append _ _), h.head, ?_, h.tail,
    fun b hb hloose => ?_, h.returned_nodup, h.returned_popped, fun b hb => ?_⟩
  · have hchain := h.chain
    have hnodup := h.chain.nodup
    rw [hlast] at hchain hnodup ⊢
    refine hchain.link (fun x hx => link_storeNext_ne ?_) (link_storeNext_self hnull) ?_
    · rintro rfl
      exact (List.nodup_append.mp hnodup).2.2 x hx x List.mem_cons_self rfl
    · rw [link_storeNext_ne hne]
      exact h.loose a hlt hnotMem
  · show y.chain ++ [a] = y.published ++ [a]
    rw [h.published, hpending, List.append_nil]
  · rw [nodes_storeNext] at hb
    have hb' : b ∉ y.chain := fun hmem => hloose (List.mem_append_left _ hmem)
    have hbt : b ≠ tail := by
      rintro rfl
      exact hb' hmem
    rw [link_storeNext_ne hbt]
    exact h.loose b hb hb'
  · exact ⟨List.mem_append_left _ (h.pushed_linked b hb).1, (h.pushed_linked b hb).2⟩

end Memory

/-! ### The steps -/

section Steps

variable [DecidableEq ι] {s : State ι T} {y : Layout} {t : ι} {p : Pc T} {a h n : Nat}
variable {value : Option T}

theorem ok_update {sh' : Shared T} {loc : ι → Pc T} (hself : p.Ok y sh')
    (hothers : ∀ u, u ≠ t → (loc u).Ok y sh') : ∀ u, (Function.update loc t p u).Ok y sh' :=
  (Function.forall_update_iff loc fun _ l => Pc.Ok y sh' l).mpr ⟨hself, hothers⟩

/-- A step that does not change the shared memory.  The call keeps what it holds. -/
theorem InvAt.quiet (h : InvAt y s) (hok : p.Ok y s.shared)
    (hres : p.resource = (s.loc t).resource) :
    InvAt y ⟨s.shared, Function.update s.loc t p⟩ := by
  refine ⟨h.good, ok_update hok fun u _ => h.ok u, ?_, fun hne => ?_, fun a ha hne => ?_⟩
  · exact h.exclusive.update fun r hr => .inl (hres ▸ hr)
  · exact (held_update_keep hres).mpr (h.publication hne)
  · exact (h.delivered a ha hne).imp_right (held_update_keep hres).mpr

theorem Pc.Ok.alloc {l : Pc T} {sh : Shared T} {value : T} (h : l.Ok y sh) :
    l.Ok y (sh.alloc value) := by
  have hfresh : ∀ {b}, sh.Fresh y b → (sh.alloc value).Fresh y b :=
    fun hb => ⟨by rw [nodes_alloc]; exact Nat.lt_succ_of_lt hb.1, hb.2⟩
  have hlink : ∀ {b n}, sh.link b = some (some n) → (sh.alloc value).link b = some (some n) :=
    fun hb => (link_alloc_of_lt (link_lt hb)).trans hb
  cases l with
  | idle => trivial
  | push b pc =>
    cases pc with
    | loadTail => exact hfresh h
    | storeNext t => exact ⟨hfresh h.1, h.2⟩
    | reloadNext t => exact h
    | storeTail n => exact h
    | addSize => exact h
  | pop pc =>
    cases pc with
    | loadHead => trivial
    | loadNext b => trivial
    | readValue b n => exact hlink h
    | storeHead b n value => exact hlink h
    | subSize n value => exact h

theorem InvAt.callPush (h : InvAt y s) (hl : s.loc t = .idle) (value : T) :
    InvAt y ⟨s.shared.alloc value,
      Function.update s.loc t (.push s.shared.nodes.length .loadTail)⟩ := by
  have hg := h.good
  have hnotMem : s.shared.nodes.length ∉ y.chain := fun hmem => Nat.lt_irrefl _ (hg.mem_lt hmem)
  -- nobody holds the new node
  have hnew : ∀ u, (s.loc u).resource ≠ some (.node s.shared.nodes.length) := by
    intro u hu
    have hok := h.ok u
    cases hpc : s.loc u with
    | idle =>
      rw [hpc] at hu
      cases hu
    | push b pc =>
      rw [hpc] at hu hok
      cases pc <;> cases hu
      · exact Nat.lt_irrefl _ hok.1
      · exact Nat.lt_irrefl _ hok.1.1
    | pop pc =>
      rw [hpc] at hu hok
      cases pc <;> cases hu
      exact hnotMem (hg.popped.subset hok.1)
  refine ⟨?_, ok_update ⟨?_, hnotMem⟩ fun u _ => (h.ok u).alloc, ?_, fun hne => ?_,
    fun a ha hne => ?_⟩
  · refine ⟨hg.chain.congr fun a ha => link_alloc_of_lt (hg.mem_lt ha), hg.popped, hg.head,
      hg.published, hg.tail, fun a ha hloose => ?_, hg.returned_nodup, hg.returned_popped,
      hg.pushed_linked⟩
    rw [nodes_alloc] at ha
    rcases Nat.lt_succ_iff_lt_or_eq.mp ha with hlt | rfl
    · rw [link_alloc_of_lt hlt]
      exact hg.loose a hlt hloose
    · exact link_alloc_self
  · rw [nodes_alloc]
    exact Nat.lt_succ_self _
  · refine h.exclusive.update fun r hr => .inr fun u _ hu => hnew u ?_
    rw [hu, ← hr]
    rfl
  · refine (h.publication hne).update fun hr => ?_
    rw [hl] at hr
    cases hr
  · refine (h.delivered a ha hne).imp_right fun hheld => hheld.update fun hr => ?_
    rw [hl] at hr
    cases hr

/-- What a push does to the others by linking its node. -/
theorem Pc.Ok.storeNext {l : Pc T} {sh : Shared T} {tail : Nat} (hok : l.Ok y sh)
    (hpending : y.pending = []) (hnull : sh.link tail = some none)
    (hother : l.resource ≠ some (.node a)) :
    l.Ok ⟨y.chain ++ [a], y.popped, y.published, [a]⟩ (sh.storeNext tail a) := by
  have hfresh : ∀ {b}, sh.Fresh y b → (.node b : Resource) ≠ .node a →
      (sh.storeNext tail a).Fresh ⟨y.chain ++ [a], y.popped, y.published, [a]⟩ b := by
    intro b hb hne
    refine ⟨by rw [nodes_storeNext]; exact hb.1, fun hmem => ?_⟩
    rcases List.mem_append.mp hmem with hold | hlast
    · exact hb.2 hold
    · exact hne (congrArg Resource.node (List.mem_singleton.mp hlast))
  have hlink : ∀ {b n}, sh.link b = some (some n) →
      (sh.storeNext tail a).link b = some (some n) := by
    intro b n hb
    rw [link_storeNext_ne]
    · exact hb
    · rintro rfl
      rw [hnull] at hb
      cases hb
  cases l with
  | idle => trivial
  | push b pc =>
    cases pc with
    | loadTail => exact hfresh hok fun heq => hother (congrArg some heq)
    | storeNext t => exact ⟨hfresh hok.1 fun heq => hother (congrArg some heq), hok.2⟩
    | reloadNext t => exact absurd (hpending.symm.trans hok.1) nofun
    | storeTail n => exact absurd (hpending.symm.trans hok.1) nofun
    | addSize => exact ⟨List.mem_append_left _ hok.1, hok.2⟩
  | pop pc =>
    cases pc with
    | loadHead => trivial
    | loadNext b => trivial
    | readValue b n => exact hlink hok
    | storeHead b n value => exact hlink hok
    | subSize n value => exact hok

/-- A push links its node to the last one of the chain. -/
theorem InvAt.storeNext {tail : Nat} (h : InvAt y s)
    (hl : s.loc t = .push a (.storeNext tail)) (hnull : s.shared.link tail = some none) :
    Inv ⟨s.shared.storeNext tail a, Function.update s.loc t (.push a (.reloadNext tail))⟩ := by
  have hg := h.good
  have hok := h.ok t
  rw [hl] at hok
  obtain ⟨hfresh, htail⟩ := hok
  obtain ⟨hpending, l, hlast⟩ := hg.nothing_pending htail hnull
  have hres : (s.loc t).resource = some (.node a) := by
    rw [hl]
    rfl
  refine ⟨⟨y.chain ++ [a], y.popped, y.published, [a]⟩, hg.storeNext hfresh hpending hlast hnull,
    ?_, ?_, fun _ => ?_, fun b hb hne => ?_⟩
  · refine ok_update ⟨rfl, ?_⟩ fun u hu =>
      (h.ok u).storeNext hpending hnull (h.exclusive.ne_of_ne hu hres)
    show y.published.getLast? = some tail
    rw [← List.append_nil y.published, ← hpending, ← hg.published, hlast, List.getLast?_concat]
  · refine h.exclusive.update fun r hr => .inr fun u _ hu => ?_
    cases hr
    -- a second push between its two stores would have a node pending
    have hoku := h.ok u
    cases hpc : s.loc u with
    | idle =>
      rw [hpc] at hu
      cases hu
    | push b pc =>
      rw [hpc] at hu hoku
      cases pc <;> cases hu
      · exact absurd (hpending.symm.trans hoku.1) nofun
      · exact absurd (hpending.symm.trans hoku.1) nofun
    | pop pc =>
      rw [hpc] at hu
      cases pc <;> cases hu
  · exact held_update_self rfl
  · refine (h.delivered b hb hne).imp_right fun hheld => hheld.update fun hr => ?_
    rw [hres] at hr
    cases hr
    exact absurd (hg.popped.subset hb) hfresh.2

omit [DecidableEq ι] in
/-- The pointer that a push reloads is the one it has stored. -/
theorem InvAt.reload {tail : Nat} (h : InvAt y s) (hl : s.loc t = .push a (.reloadNext tail)) :
    y.pending = [a] ∧ s.shared.link tail = some (some a) := by
  have hok := h.ok t
  rw [hl] at hok
  obtain ⟨hpending, htail⟩ := hok
  obtain ⟨l, hpub⟩ := List.getLast?_eq_some_iff.mp htail
  refine ⟨hpending, ?_⟩
  have hchain := h.good.chain
  rw [h.good.published, hpub, hpending, List.append_assoc] at hchain
  exact hchain.next_eq

theorem Pc.Ok.publish {l : Pc T} {sh : Shared T} {tail : Nat} (hok : l.Ok y sh)
    (hother : l.resource ≠ some .publication) :
    l.Ok ⟨y.chain, y.popped, y.published ++ y.pending, []⟩ { sh with tail := tail } := by
  cases l with
  | idle => trivial
  | push b pc =>
    cases pc with
    | loadTail => exact hok
    | storeNext t => exact ⟨hok.1, List.mem_append_left _ hok.2⟩
    | reloadNext t => exact absurd rfl hother
    | storeTail n => exact absurd rfl hother
    | addSize => exact hok
  | pop pc => cases pc <;> exact hok

theorem InvAt.storeTail (h : InvAt y s) (hl : s.loc t = .push a (.storeTail n)) :
    Inv ⟨{ s.shared with tail := n }, Function.update s.loc t (.push a .addSize)⟩ := by
  have hg := h.good
  have hok := h.ok t
  have hres : (s.loc t).resource = some .publication := by
    rw [hl]
    rfl
  rw [hl] at hok
  obtain ⟨hpending, rfl⟩ := hok
  have hmem : n ∈ y.chain := by
    rw [hg.published, hpending]
    exact List.mem_append_right _ List.mem_cons_self
  refine ⟨⟨y.chain, y.popped, y.published ++ y.pending, []⟩, ?_, ?_, ?_, fun hne => ?_,
    fun b hb hne => ?_⟩
  · refine ⟨hg.chain, hg.popped, hg.head, ?_, ?_, hg.loose, hg.returned_nodup,
      hg.returned_popped, hg.pushed_linked⟩
    · rw [List.append_nil]
      exact hg.published
    · show (y.published ++ y.pending).getLast? = some n
      rw [hpending, List.getLast?_concat]
  · refine ok_update ⟨hmem, ?_⟩ fun u hu =>
      (h.ok u).publish (h.exclusive.ne_of_ne hu hres)
    -- the dummy is published, and no node is in the chain twice
    rintro rfl
    have hnodup := hg.chain.nodup
    rw [hg.published, hpending] at hnodup
    have hchain := hg.chain
    rw [hg.published, hpending] at hchain
    cases hpub : y.published with
    | nil =>
      have htail := hg.tail
      rw [hpub] at htail
      cases htail
    | cons b l =>
      rw [hpub] at hchain hnodup
      cases hchain.1
      exact (List.nodup_append.mp hnodup).2.2 0 List.mem_cons_self 0 List.mem_cons_self rfl
  · exact h.exclusive.update fun r hr => by cases hr
  · exact absurd rfl hne
  · refine (h.delivered b hb hne).imp_right fun hheld => hheld.update fun hr => ?_
    rw [hres] at hr
    cases hr

theorem Pc.Ok.addSize {l : Pc T} {sh : Shared T} {m : Nat} {pushed : List Nat} (hok : l.Ok y sh) :
    l.Ok y { sh with size := m, pushed := pushed } := by
  cases l with
  | idle => trivial
  | push b pc => cases pc <;> exact hok
  | pop pc => cases pc <;> exact hok

theorem InvAt.addSize {m : Nat} (h : InvAt y s) (hl : s.loc t = .push a .addSize) :
    InvAt y ⟨{ s.shared with size := m, pushed := s.shared.pushed ++ [a] },
      Function.update s.loc t .idle⟩ := by
  have hg := h.good
  have hok := h.ok t
  have hres : (Pc.idle : Pc T).resource = (s.loc t).resource := by
    rw [hl]
    rfl
  rw [hl] at hok
  refine ⟨?_, ok_update trivial fun u _ => (h.ok u).addSize, ?_, fun hne => ?_,
    fun b hb hne => ?_⟩
  · refine ⟨hg.chain, hg.popped, hg.head, hg.published, hg.tail, hg.loose, hg.returned_nodup,
      hg.returned_popped, fun b hb => ?_⟩
    rcases List.mem_append.mp hb with hold | hlast
    · exact hg.pushed_linked b hold
    · rw [List.mem_singleton.mp hlast]
      exact hok
  · exact h.exclusive.update fun r hr => by cases hr
  · exact (held_update_keep hres).mpr (h.publication hne)
  · exact (h.delivered b hb hne).imp_right (held_update_keep hres).mpr

theorem Pc.Ok.storeHead {l : Pc T} {sh : Shared T} (hok : l.Ok y sh) :
    l.Ok ⟨y.chain, y.popped ++ [n], y.published, y.pending⟩ { sh with head := n } := by
  cases l with
  | idle => trivial
  | push b pc => cases pc <;> exact hok
  | pop pc =>
    cases pc with
    | subSize m value => exact ⟨List.mem_append_left _ hok.1, hok.2⟩
    | loadHead => trivial
    | loadNext b => trivial
    | readValue b m => exact hok
    | storeHead b m value => exact hok

/-- A pop moves the head that it has loaded to its successor. -/
theorem InvAt.storeHead (h' : InvAt y s) (hl : s.loc t = .pop (.storeHead h n value))
    (hhead : s.shared.head = h) :
    Inv ⟨{ s.shared with head := n }, Function.update s.loc t (.pop (.subSize n value))⟩ := by
  have hg := h'.good
  have hok := h'.ok t
  rw [hl] at hok
  have hlink : s.shared.link s.shared.head = some (some n) := hhead ▸ hok
  obtain ⟨rest, hchain⟩ := hg.popped_next hlink
  have hnodup := hg.chain.nodup
  rw [hchain] at hnodup
  have hnotMem : n ∉ y.popped := fun hmem =>
    (List.nodup_append.mp hnodup).2.2 n hmem n List.mem_cons_self rfl
  have hmem : n ∈ y.chain := by
    rw [hchain]
    exact List.mem_append_right _ List.mem_cons_self
  have hold : ∀ r, (s.loc t).resource ≠ some r := by
    rw [hl]
    nofun
  refine ⟨⟨y.chain, y.popped ++ [n], y.published, y.pending⟩, ?_, ?_, ?_, fun hne => ?_,
    fun b hb hne => ?_⟩
  · refine ⟨hg.chain, ?_, List.getLast?_concat, hg.published, hg.tail, hg.loose,
      hg.returned_nodup, fun b hb => List.mem_append_left _ (hg.returned_popped b hb),
      hg.pushed_linked⟩
    show y.popped ++ [n] <+: y.chain
    rw [hchain]
    exact ⟨rest, by simp⟩
  · refine ok_update ⟨List.mem_append_right _ List.mem_cons_self, fun hret => ?_⟩
      fun u _ => (h'.ok u).storeHead
    exact hnotMem (hg.returned_popped n hret)
  · refine h'.exclusive.update fun r hr => .inr fun u _ hu => ?_
    cases hr
    have hoku := h'.ok u
    cases hpc : s.loc u with
    | idle =>
      rw [hpc] at hu
      cases hu
    | push b pc =>
      rw [hpc] at hu hoku
      cases pc <;> cases hu
      · exact hoku.2 hmem
      · exact hoku.1.2 hmem
    | pop pc =>
      rw [hpc] at hu hoku
      cases pc <;> cases hu
      exact hnotMem hoku.1
  · exact (h'.publication hne).update fun hr => absurd hr (hold _)
  · rcases List.mem_append.mp hb with hpopped | hlast
    · exact (h'.delivered b hpopped hne).imp_right fun hheld =>
        hheld.update fun hr => absurd hr (hold _)
    · rw [List.mem_singleton.mp hlast]
      exact .inr (held_update_self rfl)

theorem Pc.Ok.subSize {l : Pc T} {sh : Shared T} {m : Nat} (hok : l.Ok y sh)
    (hother : l.resource ≠ some (.node n)) :
    l.Ok y { sh with size := m, returned := sh.returned ++ [n] } := by
  cases l with
  | idle => trivial
  | push b pc => cases pc <;> exact hok
  | pop pc =>
    cases pc with
    | subSize b value =>
      refine ⟨hok.1, fun hmem => ?_⟩
      rcases List.mem_append.mp hmem with hold | hlast
      · exact hok.2 hold
      · rw [List.mem_singleton] at hlast
        subst hlast
        exact hother rfl
    | loadHead => trivial
    | loadNext b => trivial
    | readValue b m => exact hok
    | storeHead b m value => exact hok

theorem InvAt.subSize {m : Nat} (h : InvAt y s) (hl : s.loc t = .pop (.subSize n value)) :
    InvAt y ⟨{ s.shared with size := m, returned := s.shared.returned ++ [n] },
      Function.update s.loc t .idle⟩ := by
  have hg := h.good
  have hok := h.ok t
  have hres : (s.loc t).resource = some (.node n) := by
    rw [hl]
    rfl
  rw [hl] at hok
  refine ⟨?_, ok_update trivial fun u hu => (h.ok u).subSize (h.exclusive.ne_of_ne hu hres), ?_,
    fun hne => ?_, fun b hb hne => ?_⟩
  · refine ⟨hg.chain, hg.popped, hg.head, hg.published, hg.tail, hg.loose, ?_, fun b hb => ?_,
      hg.pushed_linked⟩
    · refine List.Nodup.append hg.returned_nodup (List.nodup_singleton _) fun b hb hmem => ?_
      rw [List.mem_singleton.mp hmem] at hb
      exact hok.2 hb
    · rcases List.mem_append.mp hb with hold | hlast
      · exact hg.returned_popped b hold
      · rw [List.mem_singleton.mp hlast]
        exact hok.1
  · exact h.exclusive.update fun r hr => by cases hr
  · refine (h.publication hne).update fun hr => ?_
    rw [hres] at hr
    cases hr
  · rcases h.delivered b hb hne with hret | hheld
    · exact .inl (List.mem_append_left _ hret)
    · by_cases heq : b = n
      · subst heq
        exact .inl (List.mem_append_right _ List.mem_cons_self)
      · refine .inr (hheld.update fun hr => ?_)
        rw [hres] at hr
        cases hr
        exact absurd rfl heq

end Steps

/-! ### Runs -/

section Runs

variable {s s' : State ι T} {y : Layout}

theorem InvAt.deliveredOnce (h : InvAt y s) : DeliveredOnce s := by
  have hg := h.good
  refine ⟨hg.returned_nodup, fun a ha => ?_, fun hidle a ha => ?_⟩
  · by_cases hmem : a ∈ y.chain
    · obtain ⟨l, r, heq⟩ := List.append_of_mem hmem
      have hchain := hg.chain
      rw [heq] at hchain
      exact ⟨a :: r, hchain.of_append⟩
    · exact ⟨[a], rfl, none, hg.loose a ha hmem, rfl⟩
  · obtain ⟨hmem, hne⟩ := hg.pushed_linked a ha
    obtain ⟨r, hr⟩ := hg.popped
    rw [← hr] at hmem
    rcases List.mem_append.mp hmem with hpopped | hrest
    · refine .inl ((h.delivered a hpopped hne).resolve_right ?_)
      rintro ⟨t, ht⟩
      rw [hidle t] at ht
      cases ht
    · obtain ⟨l, hl⟩ := List.getLast?_eq_some_iff.mp hg.head
      have hchain := hg.chain
      rw [← hr, hl, List.append_assoc] at hchain
      exact .inr ⟨r, hchain.of_append, hrest⟩

theorem inv_init : Inv (init : State ι T) := by
  refine ⟨⟨[0], [0], [0], []⟩, ⟨⟨rfl, none, rfl, rfl⟩, List.prefix_refl _, rfl, rfl, rfl, ?_,
    List.nodup_nil, nofun, nofun⟩, fun _ => trivial, fun _ _ _ ht => (by cases ht),
    fun hne => absurd rfl hne, fun a ha hne => ?_⟩
  · intro a ha hloose
    exact absurd (Nat.lt_one_iff.mp ha) fun heq => hloose (heq ▸ List.mem_cons_self)
  · exact absurd (List.mem_singleton.mp ha) hne

variable [DecidableEq ι]

/-- **Every undisturbed step keeps the invariant.** -/
theorem inv_step {a : ι × Act T} (hinv : Inv s) (hcond : Undisturbed s a)
    (hstep : step w s a = some s') : Inv s' := by
  obtain ⟨y, h⟩ := hinv
  obtain ⟨t, c⟩ := a
  obtain ⟨sh, l, hp, rfl⟩ := interleave_eq_some.mp hstep
  have hok := h.ok t
  cases c with
  | call c =>
    cases hl : s.loc t with
    | push node pc =>
      rw [hl] at hp
      cases hp
    | pop pc =>
      rw [hl] at hp
      cases hp
    | idle =>
      rw [hl] at hp
      cases c with
      | push value =>
        cases hp
        exact ⟨y, h.callPush hl value⟩
      | pop =>
        cases hp
        exact ⟨y, h.quiet trivial (by rw [hl]; rfl)⟩
  | step =>
    obtain ⟨hpush, hpop⟩ := hcond rfl
    cases hl : s.loc t with
    | idle =>
      rw [hl] at hp
      cases hp
    | push node pc =>
      rw [hl] at hp hok
      cases pc with
      | loadTail =>
        cases hp
        refine ⟨y, h.quiet (p := .push node (.storeNext s.shared.tail)) ⟨hok, ?_⟩
          (by rw [hl]; rfl)⟩
        exact List.mem_of_getLast? h.good.tail
      | storeNext tail =>
        cases hp
        exact h.storeNext hl (hpush node tail hl)
      | reloadNext tail =>
        obtain ⟨hpending, hnext⟩ := h.reload hl
        simp only [program, pushStep, hnext, Option.join_some, Option.map_some] at hp
        cases hp
        exact ⟨y, h.quiet (p := .push node (.storeTail node)) ⟨hpending, rfl⟩ (by rw [hl]; rfl)⟩
      | storeTail next =>
        cases hp
        exact h.storeTail hl
      | addSize =>
        cases hp
        exact ⟨y, h.addSize hl⟩
    | pop pc =>
      rw [hl] at hp hok
      cases hp
      cases pc with
      | loadHead =>
        exact ⟨y, h.quiet (p := .pop (.loadNext s.shared.head)) trivial (by rw [hl]; rfl)⟩
      | loadNext head =>
        rw [popStep]
        cases hnext : (s.shared.link head).join with
        | none => exact ⟨y, h.quiet (p := .idle) trivial (by rw [hl]; rfl)⟩
        | some next =>
          exact ⟨y, h.quiet (p := .pop (.readValue head next))
            (Option.join_eq_some_iff.mp hnext) (by rw [hl]; rfl)⟩
      | readValue head next => exact ⟨y, h.quiet (p := .pop _) hok (by rw [hl]; rfl)⟩
      | storeHead head next value => exact h.storeHead hl (hpop head next value hl)
      | subSize next value => exact ⟨y, h.subSize hl⟩

/-- **Exactly-once delivery of undisturbed runs.**  In every run whose steps are all
    undisturbed, every state reached has delivered each value at most once and lost none; the
    values of the logged nodes are those that the calls returned. -/
theorem unbounded_delivered_once {as : List (ι × Act T)}
    (hcond : Along (step w) Undisturbed (init : State ι T) as)
    (hrun : run (step w) init as = some s) :
    DeliveredOnce s ∧
      (trace (step w) (acknowledged w) (init : State ι T) as).map (fun e => some e.2) =
        s.shared.pushed.map s.shared.valueAt ∧
      (trace (step w) (handedOut w) (init : State ι T) as).map (fun e => some e.2) =
        s.shared.returned.map s.shared.valueAt := by
  obtain ⟨y, hinv⟩ := run_invariant_along (I := Inv)
    (fun _ _ _ hs hC hstep => inv_step hs hC hstep) inv_init hcond hrun
  exact ⟨hinv.deliveredOnce, returned_eq hrun⟩

/-- Two pushes and two pops that overlap, and a push during the second pop. -/
def overlapping : List (Bool × Act Nat) :=
  [(false, .call (.push 7)), (true, .call (.push 8)), (false, .step), (false, .step),
    (false, .step), (false, .step), (true, .step), (false, .step), (false, .call .pop),
    (false, .step), (true, .step), (false, .step), (true, .step), (false, .step), (true, .step),
    (false, .step), (true, .step), (true, .call .pop), (true, .step), (false, .step),
    (true, .step), (true, .step), (false, .call (.push 9)), (true, .step), (false, .step),
    (true, .step), (false, .step), (false, .step), (false, .step), (false, .step)]

theorem unbounded_delivered_once_overlapping :
    ∃ s : State Bool Nat, run (step 64) init overlapping = some s ∧ DeliveredOnce s ∧
      s.shared.pushed.map s.shared.valueAt = [some 7, some 8, some 9] ∧
      s.shared.returned = [1, 2] ∧ s.shared.returned.map s.shared.valueAt = [some 7, some 8] := by
  have hrun : (run (step 64) (init : State Bool Nat) overlapping).map
      (fun s => s.shared.returned) = some [1, 2] := rfl
  have hcond : Along (step 64) Undisturbed (init : State Bool Nat) overlapping := by
    decide
  obtain ⟨s, hs, hnodes⟩ := Option.map_eq_some_iff.mp hrun
  obtain ⟨hdelivered, hpushed, hreturned⟩ := unbounded_delivered_once hcond hs
  refine ⟨s, hs, hdelivered, ?_, hnodes, ?_⟩
  · rw [← hpushed]
    decide
  · rw [← hreturned]
    decide

/-- Two pushes that load the same tail: the node of the first is unlinked again. -/
def overlappingPushes : List (Bool × Act Nat) :=
  [(false, .call (.push 7)), (true, .call (.push 8)), (false, .step), (true, .step),
    (false, .step), (true, .step), (false, .step), (false, .step), (false, .step),
    (true, .step), (true, .step), (true, .step)]

theorem overlapping_push_loses_value :
    ¬ (∀ (as : List (Bool × Act Nat)) (s : State Bool Nat),
      run (step 64) init as = some s → DeliveredOnce s) := by
  intro h
  have hrun : (run (step 64) init overlappingPushes).map
      (fun s => (s.shared, s.loc false, s.loc true)) =
        some (⟨[⟨none, some 2⟩, ⟨some 7, none⟩, ⟨some 8, none⟩], 0, 2, 2, [1, 2], []⟩,
          .idle, .idle) := rfl
  obtain ⟨s, hs, heq⟩ := Option.map_eq_some_iff.mp hrun
  simp only [Prod.mk.injEq] at heq
  obtain ⟨hshared, hfalse, htrue⟩ := heq
  have hkept := (h overlappingPushes s hs).kept (fun t => by cases t; exacts [hfalse, htrue]) 1
    (by rw [hshared]; decide)
  rw [hshared] at hkept
  have hchain : Linked.Chain
      (⟨[⟨none, some 2⟩, ⟨some 7, none⟩, ⟨some 8, none⟩], 0, 2, 2, [1, 2], []⟩ : Shared Nat).link
      (some 0) [0, 2] := ⟨rfl, some 2, rfl, rfl, none, rfl, rfl⟩
  rcases hkept with hret | ⟨as, has, hmem⟩
  · cases hret
  · cases has.unique hchain
    exact absurd hmem (by decide)

end Runs

end VelocityX.Unbounded.Threads
