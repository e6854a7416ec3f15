import Mathlib.Data.List.Range
import VelocityX.Queue.UnboundedThreads

/-!
# Ownership in the unbounded queue

A sequential run of `push` and `pop` of `UnboundedMpmcQueue` in `src/queue/mpmc.rs`, after which
the queue is dropped.  As in `UnboundedThreads` a value is identified by the node that its push
has allocated, and node 0 is the dummy.

`ptr::read` copies the value out of a node and leaves the copy in it.  `defer_destroy` drops the
node, and with it the value field, at some later time.  The queue has no `Drop` of its own, and
its fields are two `Atomic` pointers, which do not own a node, and a counter: dropping the queue
drops no value.
-/

namespace VelocityX.Unbounded

open Transition
open Threads (Node Shared Call)

variable {T : Type*}

/-- The memory of the queue, and the nodes that have been passed to `defer_destroy`. -/
structure UnboundedMpmcQueue (T : Type*) where
  memory : Shared T
  destroyed : List Nat

namespace UnboundedMpmcQueue

def new : UnboundedMpmcQueue T := ⟨Shared.new, []⟩

def push (w : Nat) (q : UnboundedMpmcQueue T) (value : T) : Option (UnboundedMpmcQueue T) :=
  let node := q.memory.nodes.length
  let allocated := q.memory.alloc value
  let tail := allocated.tail
  let linked := allocated.storeNext tail node
  (linked.link tail).join.map fun next =>
    { q with memory := { linked with tail := next, size := Word.add w linked.size 1,
                                     pushed := linked.pushed ++ [node] } }

def pop (w : Nat) (q : UnboundedMpmcQueue T) : Option T × UnboundedMpmcQueue T :=
  let head := q.memory.head
  match (q.memory.link head).join with
  | none => (none, q)
  | some next =>
      (q.memory.nodes[next]?.bind Node.value,
        { memory := { q.memory with head := next, size := Word.sub w q.memory.size 1,
                                    returned := q.memory.returned ++ [next] },
          destroyed := q.destroyed ++ [head] })

/-- The nodes whose value field has been dropped once the queue itself is dropped. -/
def dropped (q : UnboundedMpmcQueue T) : List Nat := q.destroyed

def step (w : Nat) (q : UnboundedMpmcQueue T) : Call T → Option (UnboundedMpmcQueue T)
  | .push value => q.push w value
  | .pop => some (q.pop w).2

/-- Every pushed value has been handed to a caller or dropped, one of the two and once, and the
    value field of the dummy, which was never initialised, has not been dropped. -/
structure OwnedOnce (q : UnboundedMpmcQueue T) : Prop where
  once : ∀ a ∈ q.memory.pushed, q.memory.returned.count a + q.dropped.count a = 1
  dummy : 0 ∉ q.dropped

/-! ### The operations as runs of one thread -/

section Alone

variable {ι : Type*} {w : Nat} {q q' : UnboundedMpmcQueue T} {value : T}
variable {loc : ι → Threads.Pc T} {t : ι}

theorem run_push (w : Nat) (t : ι) (q : UnboundedMpmcQueue T) (value : T) :
    run (fun x c => Threads.program w t x.1 x.2 c) (q.memory, .idle)
        (.call (.push value) :: List.replicate 5 .step) =
      (q.push w value).map fun q' => (q'.memory, .idle) := by
  simp only [List.replicate, run_cons, run_nil, Threads.program, Threads.pushStep,
    Option.bind_some, Option.map_some, Threads.Pc.after, push]
  cases (((q.memory.alloc value).storeNext (q.memory.alloc value).tail
    q.memory.nodes.length).link (q.memory.alloc value).tail).join with
  | none => rfl
  | some next => rfl

variable [DecidableEq ι]

/-- A thread that calls `push` while no other takes a step leaves the memory that `push` leaves. -/
theorem push_alone (ht : loc t = .idle) (hpush : q.push w value = some q') :
    run (Threads.step w) ⟨q.memory, loc⟩
        ((.call (.push value) :: List.replicate 5 .step).map (t, ·)) =
      some ⟨q'.memory, loc⟩ := by
  have hlocal := run_push w t q value
  rw [hpush, Option.map_some, ← ht] at hlocal
  rw [run_alone hlocal, Function.update_eq_self]

/-- A call of `pop` takes five steps, or two on an empty queue. -/
theorem pop_alone (w : Nat) (q : UnboundedMpmcQueue T) (ht : loc t = .idle) :
    ∃ n, run (Threads.step w) ⟨q.memory, loc⟩
        ((.call .pop :: List.replicate n .step).map (t, ·)) = some ⟨(q.pop w).2.memory, loc⟩ := by
  have hlocal : ∃ n, run (fun x c => Threads.program w t x.1 x.2 c) (q.memory, .idle)
      (.call .pop :: List.replicate n .step) = some ((q.pop w).2.memory, .idle) := by
    cases hnext : (q.memory.link q.memory.head).join with
    | none =>
      refine ⟨2, ?_⟩
      simp only [List.replicate, run_cons, run_nil, Threads.program, Threads.popStep,
        Option.bind_some, Threads.Pc.after, pop, hnext]
    | some next =>
      refine ⟨5, ?_⟩
      simp only [List.replicate, run_cons, run_nil, Threads.program, Threads.popStep,
        Option.bind_some, Threads.Pc.after, pop, hnext]
  obtain ⟨n, hlocal⟩ := hlocal
  refine ⟨n, ?_⟩
  rw [← ht] at hlocal
  rw [run_alone hlocal, Function.update_eq_self]

end Alone

/-! ### The ledger

After the pushes of `xs` the nodes form one chain in the order of their allocation.  `head` nodes
of it have been popped: node `a + 1` by the pop that has destroyed node `a`. -/

structure Ledger (q : UnboundedMpmcQueue T) (xs : List T) : Prop where
  tail_eq : q.memory.tail = xs.length
  head_le : q.memory.head ≤ xs.length
  values : q.memory.nodes.map Node.value = none :: xs.map some
  linked : ∀ a < xs.length, q.memory.link a = some (some (a + 1))
  last : q.memory.link xs.length = some none
  pushed : q.memory.pushed = List.range' 1 xs.length
  returned : q.memory.returned = List.range' 1 q.memory.head
  destroyed : q.destroyed = List.range q.memory.head

section Ledger

variable {w : Nat} {q q' : UnboundedMpmcQueue T} {xs : List T} {value : T}

theorem ledger_new : Ledger (new : UnboundedMpmcQueue T) [] :=
  ⟨rfl, Nat.le_refl _, rfl, fun _ ha => absurd ha (Nat.not_lt_zero _), rfl, rfl, rfl, rfl⟩

theorem Ledger.length_eq (h : Ledger q xs) : q.memory.nodes.length = xs.length + 1 := by
  have hlen := congrArg List.length h.values
  rwa [List.length_map, List.length_cons, List.length_map] at hlen

theorem values_storeNext (sh : Shared T) (a next : Nat) :
    (sh.storeNext a next).nodes.map Node.value = sh.nodes.map Node.value := by
  refine List.ext_getElem (by rw [List.length_map, List.length_map, Threads.nodes_storeNext])
    fun k _ _ => ?_
  rw [List.getElem_map, List.getElem_map]
  simp only [Shared.storeNext, List.getElem_modify]
  split
  · rfl
  · rfl

/-- A push writes its value to a new node behind the last one. -/
theorem Ledger.push (h : Ledger q xs) (w : Nat) (value : T) :
    ∃ q', q.push w value = some q' ∧ Ledger q' (xs ++ [value]) := by
  have hlen := h.length_eq
  have hlast : (q.memory.alloc value).link xs.length = some none := by
    rw [Threads.link_alloc_of_lt (by omega), h.last]
  have hlinked : ((q.memory.alloc value).storeNext xs.length (xs.length + 1)).link xs.length =
      some (some (xs.length + 1)) := Threads.link_storeNext_self hlast
  refine ⟨⟨{ (q.memory.alloc value).storeNext xs.length (xs.length + 1) with
             tail := xs.length + 1, size := Word.add w q.memory.size 1,
             pushed := q.memory.pushed ++ [xs.length + 1] }, q.destroyed⟩, ?_, ?_⟩
  · have htail : (q.memory.alloc value).tail = xs.length := h.tail_eq
    rw [UnboundedMpmcQueue.push, htail, hlen]
    simp only [hlinked]
    rfl
  · have hlength : (xs ++ [value]).length = xs.length + 1 := List.length_append
    refine ⟨hlength.symm, ?_, ?_, fun a ha => ?_, ?_, ?_, h.returned, h.destroyed⟩
    · rw [hlength]
      exact Nat.le_trans h.head_le (Nat.le_add_right ..)
    · show ((q.memory.alloc value).storeNext xs.length (xs.length + 1)).nodes.map Node.value = _
      rw [values_storeNext]
      show (q.memory.nodes ++ [_]).map Node.value = _
      rw [List.map_append, h.values, List.map_append]
      rfl
    · show ((q.memory.alloc value).storeNext xs.length (xs.length + 1)).link a = _
      by_cases hlt : a < xs.length
      · rw [Threads.link_storeNext_ne (by omega), Threads.link_alloc_of_lt (by omega),
          h.linked a hlt]
      · have heq : a = xs.length := by omega
        rw [heq, hlinked]
    · show ((q.memory.alloc value).storeNext xs.length (xs.length + 1)).link _ = _
      rw [hlength, Threads.link_storeNext_ne (by omega), ← hlen, Threads.link_alloc_self]
    · show q.memory.pushed ++ [xs.length + 1] = _
      rw [h.pushed, hlength, List.range'_1_concat, Nat.add_comm]

theorem Ledger.pop_nil (h : Ledger q xs) (hempty : q.memory.head = xs.length) (w : Nat) :
    q.pop w = (none, q) := by
  have hnext : (q.memory.link q.memory.head).join = none := by
    rw [hempty, h.last]
    rfl
  simp only [UnboundedMpmcQueue.pop, hnext]

/-- A pop hands out the value of the node after the head and destroys the head. -/
theorem Ledger.pop (h : Ledger q xs) (hlt : q.memory.head < xs.length) (w : Nat) :
    ∃ q', q.pop w = (some xs[q.memory.head], q') ∧ q'.memory.head = q.memory.head + 1 ∧
      Ledger q' xs := by
  have hnext : (q.memory.link q.memory.head).join = some (q.memory.head + 1) := by
    rw [h.linked _ hlt]
    rfl
  have hvalue : q.memory.nodes[q.memory.head + 1]?.bind Node.value = some xs[q.memory.head] := by
    have hget := congrArg (·[q.memory.head + 1]?) h.values
    simp only [List.getElem?_map, List.getElem?_cons_succ, List.getElem?_eq_getElem hlt,
      Option.map_some] at hget
    obtain ⟨node, hnode, hvalue⟩ := Option.map_eq_some_iff.mp hget
    rw [hnode, Option.bind_some, hvalue]
  refine ⟨⟨{ q.memory with head := q.memory.head + 1, size := Word.sub w q.memory.size 1,
                           returned := q.memory.returned ++ [q.memory.head + 1] },
           q.destroyed ++ [q.memory.head]⟩, ?_, rfl, ?_⟩
  · simp only [UnboundedMpmcQueue.pop, hnext, hvalue]
  · refine ⟨h.tail_eq, hlt, h.values, h.linked, h.last, h.pushed, ?_, ?_⟩
    · show q.memory.returned ++ [q.memory.head + 1] = List.range' 1 (q.memory.head + 1)
      rw [h.returned, List.range'_1_concat, Nat.add_comm]
    · show q.destroyed ++ [q.memory.head] = List.range (q.memory.head + 1)
      rw [h.destroyed, List.range_succ]

/-- The values of the pushes of a run. -/
def pushes (calls : List (Call T)) : List T :=
  calls.filterMap fun c =>
    match c with
    | .push value => some value
    | .pop => none

theorem Ledger.step (h : Ledger q xs) (w : Nat) (c : Call T) :
    ∃ q', UnboundedMpmcQueue.step w q c = some q' ∧ Ledger q' (xs ++ pushes [c]) := by
  cases c with
  | push value => exact h.push w value
  | pop =>
    have hpushes : xs ++ pushes [Call.pop] = xs := List.append_nil xs
    rw [hpushes]
    rcases Nat.lt_or_eq_of_le h.head_le with hlt | hempty
    · obtain ⟨q', hpop, _, hq'⟩ := h.pop hlt w
      exact ⟨q', by rw [UnboundedMpmcQueue.step, hpop], hq'⟩
    · exact ⟨q, by rw [UnboundedMpmcQueue.step, h.pop_nil hempty], h⟩

/-- Every run keeps the ledger. -/
theorem Ledger.run (h : Ledger q xs) (w : Nat) (calls : List (Call T)) :
    ∃ q', Transition.run (UnboundedMpmcQueue.step w) q calls = some q' ∧
      Ledger q' (xs ++ pushes calls) := by
  induction calls generalizing q xs with
  | nil => exact ⟨q, rfl, by rwa [pushes, List.filterMap_nil, List.append_nil]⟩
  | cons c calls ih =>
    obtain ⟨m, hm, hledger⟩ := h.step w c
    obtain ⟨q', hrun, hq'⟩ := ih hledger
    refine ⟨q', run_cons_eq_some.mpr ⟨m, hm, hrun⟩, ?_⟩
    rwa [List.append_assoc, pushes, pushes, ← List.filterMap_append] at hq'

/-- Every popped value has been handed out, every one but the last has been dropped too, and a
    value that stays in the queue has no owner. -/
theorem Ledger.owners (h : Ledger q xs) {a : Nat} (ha : a ∈ q.memory.pushed) :
    q.memory.returned.count a + q.dropped.count a =
      (if a ≤ q.memory.head then 1 else 0) + (if a < q.memory.head then 1 else 0) := by
  have hnodup : (List.range' 1 q.memory.head).Nodup := List.nodup_range'
  rw [h.pushed, List.mem_range'_1] at ha
  rw [h.returned, dropped, h.destroyed, hnodup.count, List.nodup_range.count]
  congr 1
  · exact if_congr (by rw [List.mem_range'_1]; omega) rfl rfl
  · exact if_congr List.mem_range rfl rfl

/-- The first successful pop destroys the dummy, and without a pop no value leaves the nodes. -/
theorem Ledger.ownedOnce_iff_nil (h : Ledger q xs) : OwnedOnce q ↔ xs = [] := by
  constructor
  · intro howned
    by_contra hne
    have hpos : 0 < xs.length := List.length_pos_iff.mpr hne
    rcases Nat.eq_zero_or_pos q.memory.head with hzero | hhead
    · have hfirst : 1 ∈ q.memory.pushed := by
        rw [h.pushed]
        exact List.mem_range'_1.mpr (by omega)
      have hcount := howned.once 1 hfirst
      rw [h.owners hfirst, hzero] at hcount
      cases hcount
    · refine howned.dummy ?_
      rw [dropped, h.destroyed]
      exact List.mem_range.mpr hhead
  · rintro rfl
    have hzero : q.memory.head = 0 := Nat.le_zero.mp h.head_le
    refine ⟨fun a ha => ?_, ?_⟩
    · rw [h.pushed] at ha
      cases ha
    · rw [dropped, h.destroyed, hzero]
      exact List.not_mem_nil

end Ledger

/-- A run of `push` and `pop` and the drop of the queue after it leave every value with one owner
    exactly when the run pushes nothing. -/
theorem run_ownedOnce_iff (w : Nat) (calls : List (Call T)) :
    ∃ q, run (step w) new calls = some q ∧
      (OwnedOnce q ↔ ∀ value, Call.push value ∉ calls) := by
  obtain ⟨q, hrun, hledger⟩ := ledger_new.run w calls
  refine ⟨q, hrun, hledger.ownedOnce_iff_nil.trans ?_⟩
  rw [List.nil_append, pushes, List.filterMap_eq_nil_iff]
  constructor
  · intro h value hmem
    cases h _ hmem
  · intro h c hc
    cases c with
    | push value => exact absurd hc (h value)
    | pop => rfl

/-- Of two values that are pushed and popped the first is dropped as well as handed out, together
    with the dummy; a value that stays in the queue has no owner. -/
theorem not_ownedOnce_run :
    ¬ ∀ calls : List (Call Nat), ∃ q, run (step 64) new calls = some q ∧ OwnedOnce q := by
  intro hall
  obtain ⟨q, hrun, howned⟩ := hall [.push 7, .push 8, .pop, .pop]
  have hdropped : (run (step 64) new [Call.push 7, .push 8, .pop, .pop]).map dropped =
      some [0, 1] := by decide
  rw [hrun, Option.map_some, Option.some.injEq] at hdropped
  refine howned.dummy ?_
  rw [hdropped]
  exact List.mem_cons_self

end UnboundedMpmcQueue

end VelocityX.Unbounded
