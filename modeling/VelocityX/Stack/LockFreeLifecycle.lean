import VelocityX.Error
import VelocityX.Stack.LockFree
import VelocityX.Stack.LockFreeAba

/-!
# The life of a node of the lock-free stack

`LockFreeStack` of `src/stack/lock_free.rs` in a sequential run on a heap of nodes, up to and with
its drop.  `push` and `pop` take the steps of `Stack/LockFreeThreads.lean` without interruption;
their compare-exchanges fail spuriously as often as the environment chooses.  The allocator hands
out any address that is not allocated, in particular one that was released.

A node is identified by the ticket of its allocation.  The traversals of `len` and of the drop are
given a number of rounds; `none` is a traversal that has not ended by then, or an access to a node
that is not allocated.
-/

namespace VelocityX.LockFreeStack.Lifecycle

open Transition Linked
open Threads (Item Node PushPc PopPc Act pushStep popStep)

variable {A T : Type*}

abbrev Heap (A T : Type*) := Threads.Shared A T

/-- The address of the node of a push, and how often its compare-exchange fails. -/
structure Choice (A : Type*) where
  address : A
  fails : Nat

/-- Failed rounds of the loop of `push` or of `pop`. -/
def retries (fails : Nat) : List (Act A T) :=
  (List.replicate fails [.step, .step, .spurious]).flatten

section Operations

variable [DecidableEq A]

def push (sh : Heap A T) (value : T) (c : Choice A) : Option (Heap A T) :=
  (complete pushStep sh (.alloc value)
    (.alloc c.address :: (retries c.fails ++ [.step, .step, .step]))).map Prod.fst

def pop (sh : Heap A T) (fails : Nat) : Option (Heap A T × Option T) :=
  complete popStep sh .loadHead (retries fails ++ [.step, .step, .step, .step])

def pushBatch (sh : Heap A T) : List (T × Choice A) → Option (Heap A T)
  | [] => some sh
  | (value, c) :: values => (push sh value c).bind fun sh' => pushBatch sh' values

/-- The loop of `pop_batch` with `count` iterations left. -/
def popBatchLoop (fails : Nat → Nat) :
    Nat → Heap A T → List T → Option (Heap A T × List T)
  | 0, sh, result => some (sh, result)
  | count + 1, sh, result =>
      match pop sh (fails count) with
      | none => none
      | some (sh', some value) => popBatchLoop fails count sh' (result ++ [value])
      | some (sh', none) => some (sh', result)

/-- The loop of `len`.  The nodes have different addresses, so that `count` does not overflow. -/
def lenLoop (sh : Heap A T) : Nat → Option A → Nat → Option Nat
  | _, none, count => some count
  | 0, some _, _ => none
  | fuel + 1, some current, count =>
      if sh.live current then
        (sh.mem current).bind fun node => lenLoop sh fuel node.next (count + 1)
      else
        none

def len (fuel : Nat) (sh : Heap A T) : Option Nat := lenLoop sh fuel sh.head 0

/-- The loop of `Drop`, which has dropped the items `dropped` so far. -/
def dropLoop : Nat → Option A → Heap A T → List (Item T) → Option (Heap A T × List (Item T))
  | _, none, sh, dropped => some (sh, dropped)
  | 0, some _, _, _ => none
  | fuel + 1, some current, sh, dropped =>
      if sh.live current then
        (sh.mem current).bind fun node =>
          dropLoop fuel node.next { sh with live := Function.update sh.live current false }
            (dropped ++ [node.item])
      else
        none

def drop (fuel : Nat) (sh : Heap A T) : Option (Heap A T × List (Item T)) :=
  dropLoop fuel sh.head sh []

/-! ### Runs -/

inductive Op (A T : Type*) where
  | push (value : T) (c : Choice A)
  | pop (fails : Nat)
  | pushBatch (values : List (T × Choice A))
  | popBatch (maxCount : Nat) (fails : Nat → Nat)
  | len

inductive Reply (T : Type*) where
  | done
  | value (result : Option T)
  | values (result : List T)
  | panicked
  | count (n : Nat)
deriving DecidableEq

/-- One operation, for values of `size` bytes and words of `w` bits. -/
def exec (w size fuel : Nat) (sh : Heap A T) : Op A T → Option (Heap A T × Reply T)
  | .push value c => (push sh value c).map fun sh' => (sh', .done)
  | .pop fails => (pop sh fails).map fun r => (r.1, .value r.2)
  | .pushBatch values => (pushBatch sh values).map fun sh' => (sh', .done)
  | .popBatch maxCount fails =>
      match (vecWithCapacity w size maxCount : Option (List T)) with
      | none => some (sh, .panicked)
      | some result => (popBatchLoop fails maxCount sh result).map fun r => (r.1, .values r.2)
  | .len => (len fuel sh).map fun n => (sh, .count n)

def step (w size fuel : Nat) (sh : Heap A T) (op : Op A T) : Option (Heap A T) :=
  (exec w size fuel sh op).map Prod.fst

end Operations

/-- The stack as a list, its top first. -/
def stack (xs : List T) : Op A T → List T × Reply T
  | .push value _ => (value :: xs, .done)
  | .pop _ => (xs.tail, .value xs.head?)
  | .pushBatch values => ((values.map Prod.fst).reverse ++ xs, .done)
  | .popBatch maxCount _ => (xs.drop maxCount, .values (xs.take maxCount))
  | .len => (xs, .count xs.length)

/-- The sequential model of `Stack/LockFree.lean` has the same stack. -/
theorem stack_items (s : LockFreeStack T) :
    (∀ value a (c : Choice A), (s.push value a).items = (stack s.items (.push value c)).1) ∧
    (∀ a fails, ((s.pop a).2.items, .value (s.pop a).1) = stack s.items (.pop fails : Op A T)) ∧
    ∀ attempts fails maxCount,
      ((s.popBatchLoop attempts maxCount).2.items,
          .values (s.popBatchLoop attempts maxCount).1) =
        stack s.items (.popBatch maxCount fails : Op A T) := by
  refine ⟨fun value a c => rfl, fun a fails => ?_, fun attempts fails maxCount => ?_⟩
  · rw [LockFreeStack.pop]
    cases s.items with
    | nil => rfl
    | cons value items => rfl
  · obtain ⟨hvalues, hrest⟩ := LockFreeStack.popBatchLoop_items attempts maxCount s
    rw [hvalues, hrest]
    rfl

/-- The values that a reply hands out. -/
def Reply.handedOut : Reply T → List T
  | .value result => result.toList
  | .values result => result
  | _ => []

/-- The nodes from `head` on, none of which is visited twice, are the allocated ones, and hold the
    stack. -/
structure HoldsStack (sh : Heap A T) (xs : List T) (as : List A) : Prop where
  chain : Chain sh.next sh.head as
  nodup : as.Nodup
  live_iff : ∀ a, sh.live a = true ↔ a ∈ as
  values : as.map (fun a => (sh.item a).map Item.value) = xs.map some

/-- After the drop of a stack of the values `xs`, which handed out `out`: each node that was ever
    allocated has been released once, by a pop that returned its value or by the drop. -/
structure Released (sh : Heap A T) (dropped : List (Item T)) (xs out : List T) : Prop where
  once : ((sh.returned ++ dropped).map Item.ticket).Perm (List.range sh.tickets)
  returned_eq : sh.returned.map Item.value = out
  dropped_eq : dropped.map Item.value = xs
  dead : ∀ a, sh.live a = false

/-- The operations answer as the stack, the heap holds the stack between them, and dropping it in
    the end releases what is left. -/
def Exact [DecidableEq A] (w size fuel : Nat) :
    Heap A T → List T → List T → List (Op A T) → Prop
  | sh, xs, out, [] => (∃ as, HoldsStack sh xs as) ∧
      ∃ sh' dropped, drop fuel sh = some (sh', dropped) ∧ Released sh' dropped xs out
  | sh, xs, out, op :: ops => (∃ as, HoldsStack sh xs as) ∧
      ∃ sh', exec w size fuel sh op = some (sh', (stack xs op).2) ∧
        Exact w size fuel sh' (stack xs op).1 (out ++ (stack xs op).2.handedOut) ops

/-- The addresses that the allocator hands out are not allocated. -/
def Fresh (sh : Heap A T) : Op A T → Prop
  | .push _ c => ¬ sh.live c.address = true
  | .pushBatch values => (values.map fun v => v.2.address).Nodup ∧
      ∀ v ∈ values, ¬ sh.live v.2.address = true
  | _ => True

instance [DecidableEq A] (sh : Heap A T) : (op : Op A T) → Decidable (Fresh sh op)
  | .push _ _ => inferInstanceAs (Decidable (¬ _))
  | .pushBatch _ => inferInstanceAs (Decidable (_ ∧ _))
  | .pop _ | .popBatch _ _ | .len => .isTrue trivial

def Op.allocations : Op A T → Nat
  | .push _ _ => 1
  | .pushBatch values => values.length
  | _ => 0

/-- The vector that `pop_batch` reserves fits the address space. -/
def Op.Fits (w size : Nat) : Op A T → Prop
  | .popBatch maxCount _ => maxCount * size < 2 ^ (w - 1)
  | _ => True

instance (w size : Nat) : (op : Op A T) → Decidable (op.Fits w size)
  | .popBatch _ _ => inferInstanceAs (Decidable (_ < _))
  | .push _ _ | .pop _ | .pushBatch _ | .len => .isTrue trivial

/-! ### One push and one pop -/

section Calls

open Threads

theorem retries_succ (fails : Nat) :
    (retries (fails + 1) : List (Act A T)) = .step :: .step :: .spurious :: retries fails := rfl

/-- The heap after the node at `a` has been published. -/
structure Published (sh : Heap A T) (a : A) (sh' : Heap A T) : Prop where
  head_eq : sh'.head = some a
  next_self : sh'.next a = some sh.head
  next_of_ne : ∀ b, b ≠ a → sh'.next b = sh.next b
  item_eq : ∀ b, sh'.item b = sh.item b
  live_eq : sh'.live = sh.live
  tickets_eq : sh'.tickets = sh.tickets
  returned_eq : sh'.returned = sh.returned

variable [DecidableEq A] {sh sh' : Heap A T} {a : A} {node : Node A T}

theorem storeNext_step (hnode : sh.mem a = some node) :
    pushStep sh (.storeNext a sh.head) .step =
      some (sh.storeNext a node sh.head, .goto (.cas a sh.head)) := by
  simp only [pushStep, hnode, Option.map_some]

theorem storeNext_mem_self {next : Option A} :
    (sh.storeNext a node next).mem a = some { node with next := next } := by
  simp only [Shared.storeNext, Function.update_self]

/-- The loop of `push` ends, however often its compare-exchange fails spuriously. -/
theorem publish_spec (fails : Nat) : ∀ {sh : Heap A T} {node : Node A T}, sh.mem a = some node →
    ∃ sh', complete pushStep sh (.loadHead a) (retries fails ++ [.step, .step, .step]) =
      some (sh', ()) ∧ Published sh a sh' := by
  induction fails with
  | zero =>
    intro sh node hnode
    have hcas : pushStep (sh.storeNext a node sh.head) (.cas a sh.head) .step =
        some ({ sh.storeNext a node sh.head with
                head := some a, pushed := sh.pushed ++ [node.item] }, .ret ()) := by
      have hhead : (sh.storeNext a node sh.head).head = sh.head := rfl
      simp only [pushStep, if_pos hhead, storeNext_mem_self, Option.map_some]
      rfl
    refine ⟨_, (complete_goto rfl).trans ((complete_goto (storeNext_step hnode)).trans
      (complete_ret hcas)), ?_⟩
    exact ⟨rfl, storeNext_next_self, fun b hb => storeNext_next_of_ne hb,
      storeNext_item hnode, rfl, rfl, rfl⟩
  | succ fails ih =>
    intro sh node hnode
    have hmem : (sh.storeNext a node sh.head).mem a = some { node with next := sh.head } :=
      storeNext_mem_self
    obtain ⟨sh', hrest, h⟩ := ih hmem
    refine ⟨sh', ?_, ?_⟩
    · rw [retries_succ]
      exact (complete_goto rfl).trans ((complete_goto (storeNext_step hnode)).trans
        ((complete_goto rfl).trans hrest))
    · refine ⟨h.head_eq, h.next_self, fun b hb => ?_, fun b => ?_, h.live_eq, h.tickets_eq,
        h.returned_eq⟩
      · rw [h.next_of_ne b hb, storeNext_next_of_ne hb]
      · rw [h.item_eq b, storeNext_item hnode]

theorem push_spec (value : T) (c : Choice A) (hdead : ¬ sh.live c.address = true) :
    ∃ sh', push sh value c = some sh' ∧
      Published (sh.alloc c.address value) c.address sh' := by
  have halloc : pushStep sh (.alloc value) (.alloc c.address) =
      some (sh.alloc c.address value, .goto (.loadHead c.address)) := by
    simp only [pushStep, if_neg hdead]
  have hmem : (sh.alloc c.address value).mem c.address = some ⟨⟨sh.tickets, value⟩, none⟩ := by
    simp [Shared.alloc]
  obtain ⟨sh', hrest, h⟩ := publish_spec c.fails hmem
  refine ⟨sh', ?_, h⟩
  rw [push, complete_goto halloc, hrest]
  rfl

theorem pop_empty (hhead : sh.head = none) (fails : Nat) : pop sh fails = some (sh, none) := by
  have hload : popStep sh .loadHead .step = some (sh, .ret none) := by
    simp only [popStep, hhead]
  cases fails with
  | zero => exact complete_ret hload
  | succ fails => exact complete_ret hload

/-- The loop of `pop` ends, however often its compare-exchange fails spuriously. -/
theorem pop_node (hhead : sh.head = some a) (hnode : sh.mem a = some node) (fails : Nat) :
    pop sh fails =
      some (({ sh with head := node.next } : Heap A T).release a node, some node.item.value) := by
  have hload : popStep sh .loadHead .step = some (sh, .goto (.loadNext a)) := by
    simp only [popStep, hhead]
  have hnext : popStep sh (.loadNext a) .step =
      some (sh, .goto (.cas a node.next (sh.writes a))) := by
    simp only [popStep, hnode, Option.map_some]
  have hcas : popStep sh (.cas a node.next (sh.writes a)) .step =
      some ({ sh with head := node.next }, .goto (.release a)) := by
    simp only [popStep, hhead, reduceIte]
  have hrelease : popStep ({ sh with head := node.next } : Heap A T) (.release a) .step =
      some (({ sh with head := node.next } : Heap A T).release a node,
        .ret (some node.item.value)) := by
    simp only [popStep, hnode, Option.map_some]
  induction fails with
  | zero =>
    exact (complete_goto hload).trans ((complete_goto hnext).trans
      ((complete_goto hcas).trans (complete_ret hrelease)))
  | succ fails ih =>
    rw [pop, retries_succ]
    exact (complete_goto hload).trans ((complete_goto hnext).trans ((complete_goto rfl).trans ih))

end Calls

/-! ### The shape of the heap -/

/-- The nodes from `head` on are the allocated ones; their items and the ones that pops returned are
    all that were ever allocated. -/
structure Inv (sh : Heap A T) (as : List A) (items : List (Item T)) : Prop where
  chain : Chain sh.next sh.head as
  items_eq : as.map sh.item = items.map some
  live_iff : ∀ a, sh.live a = true ↔ a ∈ as
  once : ((items ++ sh.returned).map Item.ticket).Perm (List.range sh.tickets)

section Shape

open Threads

variable {w size fuel : Nat} {sh : Heap A T} {as : List A} {items : List (Item T)}

theorem inv_new : Inv (Shared.new : Heap A T) [] [] :=
  ⟨rfl, rfl, fun _ => ⟨nofun, nofun⟩, List.Perm.refl _⟩

theorem Inv.length_eq (h : Inv sh as items) : as.length = items.length := by
  have hlength := congrArg List.length h.items_eq
  rwa [List.length_map, List.length_map] at hlength

theorem Inv.holdsStack (h : Inv sh as items) : HoldsStack sh (items.map Item.value) as := by
  refine ⟨h.chain, h.chain.nodup, h.live_iff, ?_⟩
  have hvalues := congrArg (List.map (Option.map Item.value)) h.items_eq
  rw [List.map_map, List.map_map] at hvalues
  rw [List.map_map]
  exact hvalues

/-- The node at the head, and what is left without it. -/
theorem Inv.first {x : Item T} (h : Inv sh as (x :: items)) :
    ∃ a as' next, as = a :: as' ∧ sh.head = some a ∧ sh.mem a = some ⟨x, next⟩ ∧
      Chain sh.next next as' ∧ as'.map sh.item = items.map some := by
  cases as with
  | nil => cases h.items_eq
  | cons a as' =>
    obtain ⟨hhead, next, hnext, hrest⟩ := h.chain
    have hitems := h.items_eq
    rw [List.map_cons, List.map_cons, List.cons.injEq] at hitems
    obtain ⟨node, hnode, hn⟩ := Option.map_eq_some_iff.mp hnext
    obtain ⟨node', hnode', hx⟩ := Option.map_eq_some_iff.mp hitems.1
    obtain rfl : node = node' := Option.some.inj (hnode.symm.trans hnode')
    refine ⟨a, as', next, rfl, hhead, ?_, hrest, hitems.2⟩
    rw [hnode, ← hx, ← hn]

variable [DecidableEq A]

theorem Inv.push (h : Inv sh as items) (value : T) {c : Choice A}
    (hdead : ¬ sh.live c.address = true) :
    ∃ sh', push sh value c = some sh' ∧
      Inv sh' (c.address :: as) (⟨sh.tickets, value⟩ :: items) ∧ sh'.returned = sh.returned := by
  obtain ⟨sh', hpush, hp⟩ := push_spec value c hdead
  have hout : ∀ b ∈ as, b ≠ c.address := by
    rintro b hb rfl
    exact hdead ((h.live_iff _).mpr hb)
  refine ⟨sh', hpush, ⟨⟨hp.head_eq, sh.head, hp.next_self, ?_⟩, ?_, fun b => ?_, ?_⟩,
    hp.returned_eq⟩
  · refine h.chain.congr fun b hb => ?_
    rw [hp.next_of_ne b (hout b hb), alloc_next_of_ne (hout b hb)]
  · rw [List.map_cons, List.map_cons, hp.item_eq, alloc_item_self, ← h.items_eq]
    congr 1
    refine List.map_congr_left fun b hb => ?_
    rw [hp.item_eq, alloc_item_of_ne (hout b hb)]
  · rw [hp.live_eq, List.mem_cons]
    by_cases hb : b = c.address
    · rw [hb]
      exact ⟨fun _ => Or.inl rfl, fun _ => alloc_live_self⟩
    · rw [alloc_live_of_ne hb, h.live_iff b, or_iff_right hb]
  · rw [hp.returned_eq, hp.tickets_eq]
    show (sh.tickets :: (items ++ sh.returned).map Item.ticket).Perm (List.range (sh.tickets + 1))
    rw [List.range_succ]
    exact (h.once.cons _).trans (List.perm_append_singleton _ _).symm

theorem Inv.pop {x : Item T} (h : Inv sh as (x :: items)) (fails : Nat) :
    ∃ sh' as', pop sh fails = some (sh', some x.value) ∧ Inv sh' as' items ∧
      sh'.returned = sh.returned ++ [x] := by
  obtain ⟨a, as', next, rfl, hhead, hnode, hrest, hitems⟩ := h.first
  have hnotin : a ∉ as' := (List.nodup_cons.mp h.chain.nodup).1
  refine ⟨_, as', pop_node hhead hnode fails, ⟨hrest, hitems, fun b => ?_, ?_⟩, rfl⟩
  · by_cases hb : b = a
    · subst hb
      rw [release_live_self]
      exact ⟨nofun, fun hmem => absurd hmem hnotin⟩
    · rw [release_live_of_ne hb]
      show sh.live b = true ↔ b ∈ as'
      rw [h.live_iff b, List.mem_cons, or_iff_right hb]
  · show ((items ++ (sh.returned ++ [x])).map Item.ticket).Perm (List.range sh.tickets)
    rw [← List.append_assoc]
    have hfront : (items ++ sh.returned ++ [x]).Perm (x :: items ++ sh.returned) :=
      List.perm_append_singleton x _
    exact (hfront.map _).trans h.once

theorem Inv.pop_nil (h : Inv sh as []) (fails : Nat) :
    Lifecycle.pop sh fails = some (sh, none) := by
  have has : as = [] := List.map_eq_nil_iff.mp h.items_eq
  have hchain := h.chain
  rw [has] at hchain
  exact pop_empty hchain fails

/-- The last value of the batch is on top. -/
theorem Inv.pushBatch (values : List (T × Choice A)) :
    ∀ {sh : Heap A T} {as : List A} {items : List (Item T)}, Inv sh as items →
      (values.map fun v => v.2.address).Nodup →
      (∀ v ∈ values, ¬ sh.live v.2.address = true) →
      ∃ sh' as' items', Lifecycle.pushBatch sh values = some sh' ∧ Inv sh' as' items' ∧
        items'.map Item.value = (values.map Prod.fst).reverse ++ items.map Item.value ∧
        sh'.returned = sh.returned := by
  induction values with
  | nil =>
    intro sh as items h _ _
    exact ⟨sh, as, items, rfl, h, rfl, rfl⟩
  | cons v values ih =>
    intro sh as items h hnodup hdead
    obtain ⟨value, c⟩ := v
    rw [List.map_cons, List.nodup_cons] at hnodup
    obtain ⟨sh₁, hpush, h₁, hreturned₁⟩ := h.push value (hdead _ List.mem_cons_self)
    have hdead₁ : ∀ v ∈ values, ¬ sh₁.live v.2.address = true := by
      intro v hv hlive
      rcases List.mem_cons.mp ((h₁.live_iff _).mp hlive) with heq | hmem
      · exact hnodup.1 (heq ▸ List.mem_map.mpr ⟨v, hv, rfl⟩)
      · exact hdead v (List.mem_cons_of_mem _ hv) ((h.live_iff _).mpr hmem)
    obtain ⟨sh', as', items', hrest, h', hvalues, hreturned⟩ := ih h₁ hnodup.2 hdead₁
    refine ⟨sh', as', items', ?_, h', ?_, hreturned.trans hreturned₁⟩
    · rw [Lifecycle.pushBatch, hpush]
      exact hrest
    · rw [hvalues, List.map_cons, List.map_cons, List.reverse_cons, List.append_assoc]
      rfl

theorem Inv.popBatchLoop (fails : Nat → Nat) (count : Nat) :
    ∀ {sh : Heap A T} {as : List A} {items : List (Item T)} (result : List T), Inv sh as items →
      ∃ sh' as', Lifecycle.popBatchLoop fails count sh result =
          some (sh', result ++ (items.take count).map Item.value) ∧
        Inv sh' as' (items.drop count) ∧ sh'.returned = sh.returned ++ items.take count := by
  induction count with
  | zero =>
    intro sh as items result h
    refine ⟨sh, as, ?_, h, (List.append_nil _).symm⟩
    rw [Lifecycle.popBatchLoop, List.take_zero, List.map_nil, List.append_nil]
  | succ count ih =>
    intro sh as items result h
    cases items with
    | nil =>
      refine ⟨sh, as, ?_, h, (List.append_nil _).symm⟩
      simp only [Lifecycle.popBatchLoop, h.pop_nil, List.take_nil, List.map_nil, List.append_nil]
    | cons x items =>
      obtain ⟨sh₁, as₁, hpop, h₁, hreturned₁⟩ := h.pop (fails count)
      obtain ⟨sh', as', hrest, h', hreturned⟩ := ih (result ++ [x.value]) h₁
      refine ⟨sh', as', ?_, h', ?_⟩
      · simp only [Lifecycle.popBatchLoop, hpop]
        rw [hrest, List.append_assoc]
        rfl
      · rw [hreturned, hreturned₁, List.append_assoc]
        rfl

omit [DecidableEq A] in
/-- The traversal of `len` ends after as many rounds as there are nodes. -/
theorem lenLoop_spec {next : Option A} (hchain : Chain sh.next next as)
    (hlive : ∀ a ∈ as, sh.live a = true) :
    ∀ {fuel : Nat} (count : Nat), as.length ≤ fuel →
      lenLoop sh fuel next count = some (count + as.length) := by
  induction as generalizing next with
  | nil =>
    intro fuel count _
    have hnull : next = none := hchain
    subst hnull
    cases fuel with
    | zero => rfl
    | succ fuel => rfl
  | cons a as ih =>
    intro fuel count hle
    obtain ⟨rfl, n, hn, hrest⟩ := hchain
    obtain ⟨node, hnode, rfl⟩ := Option.map_eq_some_iff.mp hn
    cases fuel with
    | zero => exact absurd hle (Nat.not_succ_le_zero _)
    | succ fuel =>
      rw [lenLoop, if_pos (hlive a List.mem_cons_self), hnode, Option.bind_some,
        ih hrest (fun b hb => hlive b (List.mem_cons_of_mem _ hb)) (count + 1)
          (Nat.le_of_succ_le_succ hle), List.length_cons, Nat.add_assoc, Nat.add_comm 1]

/-- The loop of the drop reads the next pointer of a node before it releases it. -/
theorem dropLoop_spec (as : List A) :
    ∀ (sh : Heap A T) {fuel : Nat} {next : Option A} {items : List (Item T)}
      (dropped : List (Item T)), Chain sh.next next as → as.Nodup →
      (∀ a ∈ as, sh.live a = true) → as.map sh.item = items.map some → as.length ≤ fuel →
      ∃ sh', dropLoop fuel next sh dropped = some (sh', dropped ++ items) ∧
        (∀ a, sh'.live a = true ↔ sh.live a = true ∧ a ∉ as) ∧
        sh'.returned = sh.returned ∧ sh'.tickets = sh.tickets := by
  induction as with
  | nil =>
    intro sh fuel next items dropped hchain _ _ hitems _
    have hnull : next = none := hchain
    have hnone : items = [] := List.map_eq_nil_iff.mp hitems.symm
    subst hnull hnone
    refine ⟨sh, ?_, fun a => ⟨fun hlive => ⟨hlive, nofun⟩, And.left⟩, rfl, rfl⟩
    rw [List.append_nil]
    cases fuel with
    | zero => rfl
    | succ fuel => rfl
  | cons a as ih =>
    intro sh fuel next items dropped hchain hnodup hlive hitems hle
    obtain ⟨rfl, n, hn, hrest⟩ := hchain
    obtain ⟨node, hnode, rfl⟩ := Option.map_eq_some_iff.mp hn
    obtain ⟨hnotin, hnodup'⟩ := List.nodup_cons.mp hnodup
    cases items with
    | nil => cases hitems
    | cons x items =>
      rw [List.map_cons, List.map_cons, List.cons.injEq] at hitems
      have hx : node.item = x := by
        have hitem := hitems.1
        rw [Shared.item, hnode] at hitem
        exact Option.some.inj hitem
      cases fuel with
      | zero => exact absurd hle (Nat.not_succ_le_zero _)
      | succ fuel =>
        have hlive' : ∀ b ∈ as, Function.update sh.live a false b = true := by
          intro b hb
          have hne : b ≠ a := by
            rintro rfl
            exact hnotin hb
          rw [Function.update_of_ne hne]
          exact hlive b (List.mem_cons_of_mem _ hb)
        obtain ⟨sh', hloop, hdead, hreturned, htickets⟩ :=
          ih { sh with live := Function.update sh.live a false } (dropped ++ [node.item])
            hrest hnodup' hlive' hitems.2 (Nat.le_of_succ_le_succ hle)
        refine ⟨sh', ?_, fun b => ?_, hreturned, htickets⟩
        · rw [dropLoop, if_pos (hlive a List.mem_cons_self), hnode, Option.bind_some, hloop, hx,
            List.append_assoc]
          rfl
        · rw [hdead b]
          show Function.update sh.live a false b = true ∧ b ∉ as ↔ _
          rw [List.mem_cons, not_or]
          by_cases hb : b = a
          · rw [hb, Function.update_self]
            constructor
            · rintro ⟨hfalse, _⟩
              cases hfalse
            · rintro ⟨_, hself, _⟩
              exact absurd rfl hself
          · rw [Function.update_of_ne hb]
            exact ⟨fun hk => ⟨hk.1, hb, hk.2⟩, fun hk => ⟨hk.1, hk.2.2⟩⟩

theorem Inv.drop (h : Inv sh as items) (hle : items.length ≤ fuel) :
    ∃ sh', Lifecycle.drop fuel sh = some (sh', items) ∧
      Released sh' items (items.map Item.value) (sh.returned.map Item.value) := by
  obtain ⟨sh', hloop, hdead, hreturned, htickets⟩ :=
    dropLoop_spec as sh [] h.chain h.chain.nodup (fun a ha => (h.live_iff a).mpr ha) h.items_eq
      (Nat.le_trans (Nat.le_of_eq h.length_eq) hle)
  refine ⟨sh', hloop, ⟨?_, congrArg _ hreturned, rfl, fun a => ?_⟩⟩
  · rw [hreturned, htickets]
    exact (List.perm_append_comm.map _).trans h.once
  · refine Bool.eq_false_iff.mpr fun hlive => ?_
    obtain ⟨hbefore, hnotin⟩ := (hdead a).mp hlive
    exact hnotin ((h.live_iff a).mp hbefore)

/-! ### Runs -/

/-- One operation answers as the stack and keeps the shape of the heap. -/
theorem Inv.exec (h : Inv sh as items) {op : Op A T} (hfresh : Fresh sh op)
    (hfits : op.Fits w size) (hle : items.length ≤ fuel) :
    ∃ sh' as' items', Lifecycle.exec w size fuel sh op =
        some (sh', (stack (items.map Item.value) op).2) ∧ Inv sh' as' items' ∧
      items'.map Item.value = (stack (items.map Item.value) op).1 ∧
      sh'.returned.map Item.value =
        sh.returned.map Item.value ++ (stack (items.map Item.value) op).2.handedOut := by
  cases op with
  | push value c =>
    obtain ⟨sh', hpush, h', hreturned⟩ := h.push value hfresh
    refine ⟨sh', _, _, ?_, h', rfl, ?_⟩
    · rw [Lifecycle.exec, hpush]
      rfl
    · rw [hreturned]
      exact (List.append_nil _).symm
  | pop fails =>
    cases items with
    | nil =>
      refine ⟨sh, as, [], ?_, h, rfl, (List.append_nil _).symm⟩
      rw [Lifecycle.exec, h.pop_nil]
      rfl
    | cons x items =>
      obtain ⟨sh', as', hpop, h', hreturned⟩ := h.pop fails
      refine ⟨sh', as', items, ?_, h', rfl, ?_⟩
      · rw [Lifecycle.exec, hpop]
        rfl
      · rw [hreturned, List.map_append]
        rfl
  | pushBatch values =>
    obtain ⟨sh', as', items', hpush, h', hvalues, hreturned⟩ :=
      h.pushBatch values hfresh.1 hfresh.2
    refine ⟨sh', as', items', ?_, h', hvalues, ?_⟩
    · rw [Lifecycle.exec, hpush]
      rfl
    · rw [hreturned]
      exact (List.append_nil _).symm
  | popBatch maxCount fails =>
    obtain ⟨sh', as', hpop, h', hreturned⟩ := h.popBatchLoop fails maxCount []
    refine ⟨sh', as', items.drop maxCount, ?_, h', List.map_drop, ?_⟩
    · rw [Lifecycle.exec, vecWithCapacity_of_lt hfits]
      simp only [hpop, List.nil_append, Option.map_some, stack, List.map_take]
    · rw [hreturned, List.map_append, List.map_take]
      rfl
  | len =>
    refine ⟨sh, as, items, ?_, h, rfl, (List.append_nil _).symm⟩
    have hlen := lenLoop_spec h.chain (fun a ha => (h.live_iff a).mpr ha) 0
      (Nat.le_trans (Nat.le_of_eq h.length_eq) hle)
    rw [Lifecycle.exec, Lifecycle.len, hlen, h.length_eq, Nat.zero_add, stack, List.length_map]
    rfl

omit [DecidableEq A] in
theorem stack_length (xs : List T) (op : Op A T) :
    (stack xs op).1.length ≤ xs.length + op.allocations := by
  cases op with
  | push value c => exact Nat.le_refl _
  | pop fails =>
    rw [stack, List.length_tail]
    exact Nat.le_trans (Nat.sub_le _ _) (Nat.le_add_right _ _)
  | pushBatch values =>
    rw [stack, List.length_append, List.length_reverse, List.length_map, Nat.add_comm]
    exact Nat.le_refl _
  | popBatch maxCount fails =>
    rw [stack, List.length_drop]
    exact Nat.le_trans (Nat.sub_le _ _) (Nat.le_add_right _ _)
  | len => exact Nat.le_refl _

theorem Inv.exact (ops : List (Op A T)) :
    ∀ {sh : Heap A T} {as : List A} {items : List (Item T)}, Inv sh as items →
      items.length + (ops.map Op.allocations).sum ≤ fuel →
      Along (step w size fuel) Fresh sh ops → (∀ op ∈ ops, op.Fits w size) →
      Exact w size fuel sh (items.map Item.value) (sh.returned.map Item.value) ops := by
  induction ops with
  | nil =>
    intro sh as items h hle _ _
    obtain ⟨sh', hdrop, hreleased⟩ := h.drop hle
    exact ⟨⟨as, h.holdsStack⟩, sh', items, hdrop, hreleased⟩
  | cons op ops ih =>
    intro sh as items h hle hfresh hfits
    rw [List.map_cons, List.sum_cons] at hle
    obtain ⟨sh', as', items', hexec, h', hvalues, hout⟩ :=
      h.exec hfresh.1 (hfits op List.mem_cons_self)
        (Nat.le_trans (Nat.le_add_right _ _) hle)
    have hstep : step w size fuel sh op = some sh' := by
      rw [step, hexec]
      rfl
    have hlength := stack_length (items.map Item.value) op
    rw [← hvalues, List.length_map, List.length_map] at hlength
    have hrest := ih h' (by omega) (hfresh.2 sh' hstep)
      fun op hop => hfits op (List.mem_cons_of_mem _ hop)
    rw [hvalues, hout] at hrest
    exact ⟨⟨as, h.holdsStack⟩, sh', hexec, hrest⟩

/-- A batch of pops that answers has reserved its vector. -/
theorem fits_of_exec {xs : List T} {op : Op A T} {sh' : Heap A T}
    (h : exec w size fuel sh op = some (sh', (stack xs op).2)) : op.Fits w size := by
  cases op with
  | popBatch maxCount fails =>
    by_contra hlarge
    rw [exec, vecWithCapacity_of_ge hlarge] at h
    cases h
  | _ => trivial

theorem fits_of_exact (ops : List (Op A T)) :
    ∀ {sh : Heap A T} {xs out : List T}, Exact w size fuel sh xs out ops →
      ∀ op ∈ ops, op.Fits w size := by
  induction ops with
  | nil => exact nofun
  | cons op ops ih =>
    rintro sh xs out ⟨_, sh', hexec, hrest⟩ op' hop'
    rcases List.mem_cons.mp hop' with rfl | hmem
    · exact fits_of_exec hexec
    · exact ih hrest op' hmem

/-- **The life of a node.**  A sequential run and the drop after it are exact if and only if no
    batch of pops reserves more than the address space holds; the traversals end after as many
    rounds as values were pushed. -/
theorem exact_iff_fits (ops : List (Op A T)) (hfuel : (ops.map Op.allocations).sum ≤ fuel)
    (hfresh : Along (step w size fuel) Fresh (Shared.new : Heap A T) ops) :
    Exact w size fuel (Shared.new : Heap A T) [] [] ops ↔ ∀ op ∈ ops, op.Fits w size :=
  ⟨fits_of_exact ops, fun hfits =>
    inv_new.exact ops (by rwa [List.length_nil, Nat.zero_add]) hfresh hfits⟩

end Shape

/-! ### Two runs -/

/-- The address of a popped node is used again. -/
def reused : List (Op Nat Nat) :=
  [.pushBatch [(7, ⟨0, 0⟩), (8, ⟨1, 2⟩)], .pop 1, .push 9 ⟨1, 0⟩, .len, .popBatch 1 fun _ => 3]

theorem exact_iff_fits_reused : Exact 64 8 3 (Threads.Shared.new : Heap Nat Nat) [] [] reused :=
  (exact_iff_fits reused (by decide) (by decide)).mpr (by decide)

/-- `pop_batch(usize::MAX)` panics, for values of 8 bytes. -/
theorem popBatch_max_inexact :
    ¬ ∀ (ops : List (Op Nat Nat)) (fuel : Nat), (ops.map Op.allocations).sum ≤ fuel →
      Along (step 64 8 fuel) Fresh (Threads.Shared.new : Heap Nat Nat) ops →
      Exact 64 8 fuel (Threads.Shared.new : Heap Nat Nat) [] [] ops := by
  intro hall
  have hexact := hall [.push 7 ⟨0, 0⟩, .popBatch (2 ^ 64 - 1) fun _ => 0] 1 (by decide)
    ⟨by decide, fun _ _ => ⟨trivial, fun _ _ => trivial⟩⟩
  have hfits := fits_of_exact _ hexact _ (List.mem_cons_of_mem _ List.mem_cons_self)
  exact absurd hfits (by decide)

end VelocityX.LockFreeStack.Lifecycle
