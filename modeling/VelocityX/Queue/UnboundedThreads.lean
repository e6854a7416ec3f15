import VelocityX.Lib.Linearization
import VelocityX.Lib.Linked
import VelocityX.Lib.Transition
import VelocityX.Lib.Word

/-!
# The unbounded queue under interleaving

Any number of threads run `push` and `pop` of `UnboundedMpmcQueue` in `src/queue/mpmc.rs`
on one queue.  A step is one load or store of `head`, `tail` or the `next` of a node, the
`ptr::read` of a value, or one update of `size`; steps are sequentially consistent.

The epochs keep a node that a running call may still reach from being reused.  Here no
address is used twice: `nodes` lists all nodes in the order of their allocation, and the
address of a node is its position.  Node 0 is the dummy.  The value of a push is
identified by its node; the ghost logs `pushed` and `returned` list the nodes of the pushes
that have returned and of the pops that have returned a value, which by `returned_eq` is the
value of the node.

`push` stores the `next` of a tail, and `pop` a head, that it has loaded some steps before;
`Undisturbed` excludes the stores that come too late.
-/

namespace VelocityX.Unbounded.Threads

open Transition Linearization

variable {ι T : Type*}

/-- The value of the dummy is not initialised. -/
structure Node (T : Type*) where
  value : Option T
  next : Option Nat
deriving DecidableEq

structure Shared (T : Type*) where
  nodes : List (Node T)
  head : Nat
  tail : Nat
  size : Nat
  pushed : List Nat
  returned : List Nat

def Shared.new : Shared T := ⟨[⟨none, none⟩], 0, 0, 0, [], []⟩

/-- The `next` pointer of each address. -/
def Shared.link (sh : Shared T) (a : Nat) : Option (Option Nat) := sh.nodes[a]?.map Node.next

def Shared.valueAt (sh : Shared T) (a : Nat) : Option T := sh.nodes[a]?.bind Node.value

/-- `Owned::new(Node { value, next: Atomic::null() })`, at the address `sh.nodes.length`. -/
def Shared.alloc (sh : Shared T) (value : T) : Shared T :=
  { sh with nodes := sh.nodes ++ [⟨some value, none⟩] }

def Shared.storeNext (sh : Shared T) (a next : Nat) : Shared T :=
  { sh with nodes := sh.nodes.modify a fun node => { node with next := some next } }

section Memory

variable {sh : Shared T} {a b n : Nat} {value : T}

theorem link_alloc_of_lt (h : a < sh.nodes.length) : (sh.alloc value).link a = sh.link a := by
  show ((sh.nodes ++ [_])[a]?).map Node.next = _
  rw [List.getElem?_append_left h]
  rfl

theorem link_alloc_self : (sh.alloc value).link sh.nodes.length = some none := by
  show ((sh.nodes ++ [_])[sh.nodes.length]?).map Node.next = _
  rw [List.getElem?_concat_length]
  rfl

theorem nodes_alloc : (sh.alloc value).nodes.length = sh.nodes.length + 1 := List.length_append

theorem link_storeNext_self (h : sh.link a = some none) :
    (sh.storeNext a n).link a = some (some n) := by
  obtain ⟨node, hnode, _⟩ := Option.map_eq_some_iff.mp h
  show ((sh.nodes.modify a _)[a]?).map Node.next = _
  rw [List.getElem?_modify_eq, hnode]
  rfl

theorem eq_of_link_storeNext {p : Option Nat} (h : (sh.storeNext a n).link a = some p) :
    p = some n := by
  obtain ⟨node, hnode, hnext⟩ := Option.map_eq_some_iff.mp h
  simp only [Shared.storeNext, List.getElem?_modify_eq] at hnode
  obtain ⟨old, _, rfl⟩ := Option.map_eq_some_iff.mp hnode
  exact hnext.symm

theorem link_storeNext_ne (h : b ≠ a) : (sh.storeNext a n).link b = sh.link b := by
  show ((sh.nodes.modify a _)[b]?).map Node.next = _
  rw [List.getElem?_modify_ne _ _ (Ne.symm h)]
  rfl

theorem valueAt_alloc_of_lt (h : a < sh.nodes.length) :
    (sh.alloc value).valueAt a = sh.valueAt a := by
  show ((sh.nodes ++ [_])[a]?).bind Node.value = _
  rw [List.getElem?_append_left h]
  rfl

theorem valueAt_alloc_self : (sh.alloc value).valueAt sh.nodes.length = some value := by
  show ((sh.nodes ++ [_])[sh.nodes.length]?).bind Node.value = _
  rw [List.getElem?_concat_length]
  rfl

theorem valueAt_lt (h : sh.valueAt a = some value) : a < sh.nodes.length := by
  obtain ⟨node, hnode, _⟩ := Option.bind_eq_some_iff.mp h
  exact (List.getElem?_eq_some_iff.mp hnode).1

theorem valueAt_storeNext : (sh.storeNext a n).valueAt b = sh.valueAt b := by
  show ((sh.nodes.modify a _)[b]?).bind Node.value = sh.nodes[b]?.bind Node.value
  rw [List.getElem?_modify]
  cases sh.nodes[b]? with
  | none => rfl
  | some node => by_cases hab : a = b <;> simp [hab]

theorem lt_of_link {p : Option Nat} (h : sh.link a = some p) : a < sh.nodes.length := by
  obtain ⟨node, hnode, _⟩ := Option.map_eq_some_iff.mp h
  exact (List.getElem?_eq_some_iff.mp hnode).1

theorem nodes_storeNext : (sh.storeNext a n).nodes.length = sh.nodes.length :=
  List.length_modify ..

end Memory

/-! ### The two operations, one step at a time -/

inductive PushPc where
  | loadTail
  | storeNext (tail : Nat)
  | reloadNext (tail : Nat)
  | storeTail (next : Nat)
  | addSize
deriving DecidableEq

/-- The reloaded pointer is not null, since the store before it was not. -/
def pushStep (w node : Nat) (sh : Shared T) :
    PushPc → Option (Shared T × Next PushPc Unit)
  | .loadTail => some (sh, .goto (.storeNext sh.tail))
  | .storeNext tail => some (sh.storeNext tail node, .goto (.reloadNext tail))
  | .reloadNext tail => (sh.link tail).join.map fun next => (sh, .goto (.storeTail next))
  | .storeTail next => some ({ sh with tail := next }, .goto .addSize)
  | .addSize =>
      some ({ sh with size := Word.add w sh.size 1, pushed := sh.pushed ++ [node] }, .ret ())

inductive PopPc (T : Type*) where
  | loadHead
  | loadNext (head : Nat)
  | readValue (head next : Nat)
  | storeHead (head next : Nat) (value : Option T)
  | subSize (next : Nat) (value : Option T)
deriving DecidableEq

def popStep (w : Nat) (sh : Shared T) : PopPc T → Shared T × Next (PopPc T) (Option T)
  | .loadHead => (sh, .goto (.loadNext sh.head))
  | .loadNext head =>
      match (sh.link head).join with
      | none => (sh, .ret none)
      | some next => (sh, .goto (.readValue head next))
  | .readValue head next =>
      (sh, .goto (.storeHead head next (sh.nodes[next]?.bind Node.value)))
  | .storeHead _ next value => ({ sh with head := next }, .goto (.subSize next value))
  | .subSize next value =>
      ({ sh with size := Word.sub w sh.size 1, returned := sh.returned ++ [next] }, .ret value)

/-! ### Threads -/

inductive Call (T : Type*) where
  | push (value : T)
  | pop

inductive Pc (T : Type*) where
  | idle
  | push (node : Nat) (pc : PushPc)
  | pop (pc : PopPc T)
deriving DecidableEq

def Pc.after {P R : Type*} (inside : P → Pc T) : Next P R → Pc T
  | .goto pc => inside pc
  | .ret _ => .idle

inductive Act (T : Type*) where
  | call (c : Call T)
  | step

def program (w : Nat) (_t : ι) (sh : Shared T) (l : Pc T) : Act T → Option (Shared T × Pc T)
  | .call c =>
      match l, c with
      | .idle, .push value => some (sh.alloc value, .push sh.nodes.length .loadTail)
      | .idle, .pop => some (sh, .pop .loadHead)
      | _, _ => none
  | .step =>
      match l with
      | .idle => none
      | .push node pc => (pushStep w node sh pc).map fun r => (r.1, .after (.push node) r.2)
      | .pop pc => some ((popStep w sh pc).1, .after .pop (popStep w sh pc).2)

abbrev State (ι T : Type*) := Threads ι (Shared T) (Pc T)

def init : State ι T := ⟨Shared.new, fun _ => .idle⟩

abbrev step [DecidableEq ι] (w : Nat) : State ι T → ι × Act T → Option (State ι T) :=
  interleave (program w)

/-! ### What the calls return -/

/-- The value of a push that returns with this step. -/
def acknowledged (w : Nat) (s : State ι T) (a : ι × Act T) : Option T :=
  match s.loc a.1, a.2 with
  | .push node pc, .step =>
      match pushStep w node s.shared pc with
      | some (_, .ret ()) => s.shared.valueAt node
      | _ => none
  | _, _ => none

/-- The value that a pop returns with this step. -/
def handedOut (w : Nat) (s : State ι T) (a : ι × Act T) : Option T :=
  match s.loc a.1, a.2 with
  | .pop pc, .step =>
      match (popStep w s.shared pc).2 with
      | .ret value => value
      | .goto _ => none
  | _, _ => none

/-- A node that a push has made. -/
def Shared.Valued (sh : Shared T) (a : Nat) : Prop := ∃ x, sh.valueAt a = some x

/-- The nodes that a call works on are those of pushes, and a pop carries the value of its. -/
def Pc.Valued (sh : Shared T) : Pc T → Prop
  | .push node _ => sh.Valued node
  | .pop (.readValue _ next) => sh.Valued next
  | .pop (.storeHead _ next value) => sh.Valued next ∧ value = sh.valueAt next
  | .pop (.subSize next value) => sh.Valued next ∧ value = sh.valueAt next
  | _ => True

structure Valued (s : State ι T) : Prop where
  calls : ∀ t, (s.loc t).Valued s.shared
  linked : ∀ a n, s.shared.link a = some (some n) → s.shared.Valued n
  pushed : ∀ a ∈ s.shared.pushed, s.shared.Valued a
  returned : ∀ a ∈ s.shared.returned, s.shared.Valued a

section Returned

variable {s s' : State ι T} {sh sh' : Shared T} {l : Pc T} {t : ι} {a : Nat} {as : List Nat}

/-- Nodes keep their values. -/
def Shared.Keeps (sh sh' : Shared T) : Prop := ∀ a, sh.Valued a → sh'.valueAt a = sh.valueAt a

theorem keeps_refl (sh : Shared T) : sh.Keeps sh := fun _ _ => rfl

theorem keeps_alloc (sh : Shared T) (value : T) : sh.Keeps (sh.alloc value) := by
  rintro a ⟨x, hx⟩
  exact valueAt_alloc_of_lt (valueAt_lt hx)

theorem keeps_storeNext (sh : Shared T) (tail node : Nat) : sh.Keeps (sh.storeNext tail node) :=
  fun _ _ => valueAt_storeNext

theorem Shared.Valued.mono (h : sh.Valued a) (hkeeps : sh.Keeps sh') : sh'.Valued a := by
  obtain ⟨x, hx⟩ := h
  exact ⟨x, (hkeeps a ⟨x, hx⟩).trans hx⟩

theorem Pc.Valued.mono (h : l.Valued sh) (hkeeps : sh.Keeps sh') : l.Valued sh' := by
  cases l with
  | idle => trivial
  | push node pc => exact Shared.Valued.mono h hkeeps
  | pop pc =>
    cases pc with
    | readValue head next => exact Shared.Valued.mono h hkeeps
    | storeHead head next value =>
      obtain ⟨hnext, hvalue⟩ := h
      exact ⟨hnext.mono hkeeps, hvalue.trans (hkeeps next hnext).symm⟩
    | subSize next value =>
      obtain ⟨hnext, hvalue⟩ := h
      exact ⟨hnext.mono hkeeps, hvalue.trans (hkeeps next hnext).symm⟩
    | _ => trivial

theorem filterMap_valueAt (h : ∀ a ∈ as, sh.Valued a) (hkeeps : sh.Keeps sh') :
    as.filterMap sh'.valueAt = as.filterMap sh.valueAt :=
  List.filterMap_congr fun a ha => hkeeps a (h a ha)

theorem map_some_filterMap (h : ∀ a ∈ as, sh.Valued a) :
    (as.filterMap sh.valueAt).map some = as.map sh.valueAt := by
  induction as with
  | nil => rfl
  | cons a as ih =>
    obtain ⟨x, hx⟩ := h a List.mem_cons_self
    rw [List.filterMap_cons_some hx, List.map_cons, List.map_cons,
      ih fun b hb => h b (List.mem_cons_of_mem a hb), hx]

theorem valued_init : Valued (init : State ι T) :=
  ⟨fun _ => trivial, fun a n hn => (by cases a <;> cases hn), nofun, nofun⟩

variable [DecidableEq ι]

theorem Valued.after (h : Valued s) (hkeeps : s.shared.Keeps sh) (hl : l.Valued sh)
    (hlinked : ∀ a n, sh.link a = some (some n) → sh.Valued n)
    (hpushed : ∀ a ∈ sh.pushed, a ∈ s.shared.pushed ∨ sh.Valued a)
    (hreturned : ∀ a ∈ sh.returned, a ∈ s.shared.returned ∨ sh.Valued a) :
    Valued (⟨sh, Function.update s.loc t l⟩ : State ι T) := by
  refine ⟨(Function.forall_update_iff s.loc fun _ l => l.Valued sh).mpr
    ⟨hl, fun u _ => (h.calls u).mono hkeeps⟩, hlinked, fun a ha => ?_, fun a ha => ?_⟩
  · exact (hpushed a ha).elim (fun hold => (h.pushed a hold).mono hkeeps) id
  · exact (hreturned a ha).elim (fun hold => (h.returned a hold).mono hkeeps) id

/-- A step that leaves the memory and the logs alone. -/
theorem Valued.quiet (h : Valued s) (hl : l.Valued s.shared) :
    Valued (⟨s.shared, Function.update s.loc t l⟩ : State ι T) :=
  h.after (keeps_refl _) hl h.linked (fun _ ha => Or.inl ha) (fun _ ha => Or.inl ha)

theorem Valued.alloc (h : Valued s) (value : T) :
    Valued (⟨s.shared.alloc value, Function.update s.loc t
      (.push s.shared.nodes.length .loadTail)⟩ : State ι T) := by
  have hkeeps := keeps_alloc s.shared value
  refine h.after hkeeps ⟨value, valueAt_alloc_self⟩ (fun a n hn => ?_) (fun _ ha => Or.inl ha)
    (fun _ ha => Or.inl ha)
  by_cases ha : a < s.shared.nodes.length
  · rw [link_alloc_of_lt ha] at hn
    exact (h.linked a n hn).mono hkeeps
  · -- the new node has no successor
    have hlt := lt_of_link hn
    rw [nodes_alloc] at hlt
    have heq : a = s.shared.nodes.length := by omega
    rw [heq, link_alloc_self] at hn
    cases hn

theorem Valued.storeNext {node tail : Nat} (h : Valued s)
    (hl : s.loc t = .push node (.storeNext tail)) :
    Valued (⟨s.shared.storeNext tail node, Function.update s.loc t
      (.push node (.reloadNext tail))⟩ : State ι T) := by
  have hkeeps := keeps_storeNext s.shared tail node
  have hnode : s.shared.Valued node := by
    have hcall := h.calls t
    rwa [hl] at hcall
  refine h.after hkeeps (hnode.mono hkeeps) (fun a n hn => ?_) (fun _ ha => Or.inl ha)
    (fun _ ha => Or.inl ha)
  by_cases ha : a = tail
  · subst ha
    cases eq_of_link_storeNext hn
    exact hnode.mono hkeeps
  · rw [link_storeNext_ne ha] at hn
    exact (h.linked a n hn).mono hkeeps

theorem valued_step {a : ι × Act T} (h : Valued s) (hstep : step w s a = some s') : Valued s' := by
  obtain ⟨t, c⟩ := a
  obtain ⟨sh, l, hp, rfl⟩ := interleave_eq_some.mp hstep
  have hcall := h.calls t
  cases c with
  | call c =>
    cases hl : s.loc t <;> cases c <;> rw [hl] at hp <;> cases hp
    · exact h.alloc _
    · exact h.quiet trivial
  | step =>
    cases hl : s.loc t with
    | idle =>
      rw [hl] at hp
      cases hp
    | push node pc =>
      rw [hl] at hp hcall
      cases pc with
      | loadTail =>
        cases hp
        exact h.quiet hcall
      | storeNext tail =>
        cases hp
        exact h.storeNext hl
      | reloadNext tail =>
        obtain ⟨r, hr, heq⟩ := Option.map_eq_some_iff.mp hp
        obtain ⟨next, _, rfl⟩ := Option.map_eq_some_iff.mp hr
        cases heq
        exact h.quiet hcall
      | storeTail next =>
        cases hp
        exact h.after (keeps_refl _) hcall h.linked (fun _ ha => Or.inl ha) fun _ ha => Or.inl ha
      | addSize =>
        cases hp
        refine h.after (keeps_refl _) trivial h.linked (fun a ha => ?_) fun _ ha => Or.inl ha
        rcases List.mem_append.mp ha with hold | hlast
        · exact Or.inl hold
        · rw [List.mem_singleton.mp hlast]
          exact Or.inr hcall
    | pop pc =>
      rw [hl] at hp hcall
      cases hp
      cases pc with
      | loadHead => exact h.quiet trivial
      | loadNext head =>
        rw [popStep]
        cases hnext : (s.shared.link head).join with
        | none => exact h.quiet trivial
        | some next => exact h.quiet (h.linked head next (Option.join_eq_some_iff.mp hnext))
      | readValue head next => exact h.quiet ⟨hcall, rfl⟩
      | storeHead head next value =>
        exact h.after (keeps_refl _) hcall h.linked (fun _ ha => Or.inl ha) fun _ ha => Or.inl ha
      | subSize next value =>
        refine h.after (keeps_refl _) trivial h.linked (fun _ ha => Or.inl ha) fun a ha => ?_
        rcases List.mem_append.mp ha with hold | hlast
        · exact Or.inl hold
        · rw [List.mem_singleton.mp hlast]
          exact Or.inr hcall.1

/-- A step extends the logs by what it returns. -/
theorem logs_step {a : ι × Act T} (h : Valued s) (hstep : step w s a = some s') :
    s'.shared.pushed.filterMap s'.shared.valueAt =
        s.shared.pushed.filterMap s.shared.valueAt ++ (acknowledged w s a).toList ∧
      s'.shared.returned.filterMap s'.shared.valueAt =
        s.shared.returned.filterMap s.shared.valueAt ++ (handedOut w s a).toList := by
  obtain ⟨t, c⟩ := a
  obtain ⟨sh, l, hp, rfl⟩ := interleave_eq_some.mp hstep
  have hcall := h.calls t
  have hkept : ∀ sh', s.shared.Keeps sh' → sh'.pushed = s.shared.pushed →
      sh'.returned = s.shared.returned →
      sh'.pushed.filterMap sh'.valueAt = s.shared.pushed.filterMap s.shared.valueAt ∧
        sh'.returned.filterMap sh'.valueAt = s.shared.returned.filterMap s.shared.valueAt := by
    intro sh' hkeeps hpushed hreturned
    rw [hpushed, hreturned, filterMap_valueAt h.pushed hkeeps, filterMap_valueAt h.returned hkeeps]
    exact ⟨rfl, rfl⟩
  cases c with
  | call c =>
    cases hl : s.loc t <;> cases c <;> rw [hl] at hp <;> cases hp
    · simpa [acknowledged, handedOut, hl] using hkept _ (keeps_alloc s.shared _) rfl rfl
    · simp [acknowledged, handedOut, hl]
  | step =>
    cases hl : s.loc t with
    | idle =>
      rw [hl] at hp
      cases hp
    | push node pc =>
      rw [hl] at hp hcall
      cases pc with
      | loadTail =>
        cases hp
        simp [acknowledged, handedOut, hl, pushStep]
      | storeNext tail =>
        cases hp
        simpa [acknowledged, handedOut, hl, pushStep] using
          hkept _ (keeps_storeNext s.shared tail node) rfl rfl
      | reloadNext tail =>
        obtain ⟨r, hr, heq⟩ := Option.map_eq_some_iff.mp hp
        obtain ⟨next, hnext, rfl⟩ := Option.map_eq_some_iff.mp hr
        cases heq
        simp [acknowledged, handedOut, hl, pushStep, hnext]
      | storeTail next =>
        cases hp
        simpa [acknowledged, handedOut, hl, pushStep] using
          hkept { s.shared with tail := next } (keeps_refl _) rfl rfl
      | addSize =>
        cases hp
        obtain ⟨x, hx⟩ := hcall
        constructor
        · show (s.shared.pushed ++ [node]).filterMap s.shared.valueAt = _
          simp [acknowledged, hl, pushStep, hx]
        · show s.shared.returned.filterMap s.shared.valueAt = _
          simp [handedOut, hl]
    | pop pc =>
      rw [hl] at hp hcall
      cases hp
      cases pc with
      | loadHead => simp [acknowledged, handedOut, hl, popStep]
      | loadNext head =>
        cases hnext : (s.shared.link head).join <;>
          simp [acknowledged, handedOut, hl, popStep, hnext]
      | readValue head next => simp [acknowledged, handedOut, hl, popStep]
      | storeHead head next value =>
        simpa [acknowledged, handedOut, hl, popStep] using
          hkept { s.shared with head := next } (keeps_refl _) rfl rfl
      | subSize next value =>
        obtain ⟨⟨x, hx⟩, hvalue⟩ := hcall
        constructor
        · show s.shared.pushed.filterMap s.shared.valueAt = _
          simp [acknowledged, hl]
        · show (s.shared.returned ++ [next]).filterMap s.shared.valueAt = _
          simp [handedOut, hl, popStep, hvalue, hx]

/-- **The logs are what the calls returned**: the values of the nodes in `pushed` are those of the
    pushes that returned, and the values of the nodes in `returned` those that pops returned. -/
theorem returned_eq {as : List (ι × Act T)}
    (hrun : run (step w) (init : State ι T) as = some s) :
    (trace (step w) (acknowledged w) (init : State ι T) as).map (fun e => some e.2) =
        s.shared.pushed.map s.shared.valueAt ∧
      (trace (step w) (handedOut w) (init : State ι T) as).map (fun e => some e.2) =
        s.shared.returned.map s.shared.valueAt := by
  have hvalued : Valued s :=
    run_invariant (I := Valued) (fun _ _ _ hm hstep => valued_step hm hstep) valued_init hrun
  have hpushed := trace_log_of_invariant (J := Valued)
    (g := fun s : State ι T => s.shared.pushed.filterMap s.shared.valueAt)
    (fun _ _ _ hm hstep => valued_step hm hstep) (fun _ _ _ hm hstep => (logs_step hm hstep).1)
    valued_init hrun
  have hreturned := trace_log_of_invariant (J := Valued)
    (g := fun s : State ι T => s.shared.returned.filterMap s.shared.valueAt)
    (fun _ _ _ hm hstep => valued_step hm hstep) (fun _ _ _ hm hstep => (logs_step hm hstep).2)
    valued_init hrun
  constructor
  · rw [← map_some_filterMap hvalued.pushed, hpushed]
    simp [init, Shared.new, Function.comp_def]
  · rw [← map_some_filterMap hvalued.returned, hreturned]
    simp [init, Shared.new, Function.comp_def]

end Returned

/-! ### Delivery -/

/-- No value is returned twice, the chain from every node ends, and once all calls have
    returned every pushed value has been returned or is in a node after the head. -/
structure DeliveredOnce (s : State ι T) : Prop where
  returned_once : s.shared.returned.Nodup
  acyclic : ∀ a < s.shared.nodes.length, ∃ as, Linked.Chain s.shared.link (some a) as
  kept : (∀ t, s.loc t = .idle) → ∀ a ∈ s.shared.pushed, a ∈ s.shared.returned ∨
    ∃ as, Linked.Chain s.shared.link (some s.shared.head) (s.shared.head :: as) ∧ a ∈ as

/-- No store overwrites what was stored since its call has loaded it: a push links its node
    to one without a successor, and a pop moves the head that it has loaded. -/
def Undisturbed (s : State ι T) (a : ι × Act T) : Prop :=
  a.2 = .step →
    (∀ node tail, s.loc a.1 = .push node (.storeNext tail) →
      s.shared.link tail = some none) ∧
    (∀ head next value, s.loc a.1 = .pop (.storeHead head next value) → s.shared.head = head)

instance (s : State ι T) : (a : ι × Act T) → Decidable (Undisturbed s a)
  | (_, .call _) => .isTrue nofun
  | (t, .step) =>
      match hl : s.loc t with
      | .push _ (.storeNext tail) =>
          decidable_of_iff (s.shared.link tail = some none) (by simp [Undisturbed, hl])
      | .pop (.storeHead head _ _) =>
          decidable_of_iff (s.shared.head = head) (by simp [Undisturbed, hl])
      | .idle | .push _ .loadTail | .push _ (.reloadNext _) | .push _ (.storeTail _)
      | .push _ .addSize | .pop .loadHead | .pop (.loadNext _) | .pop (.readValue _ _)
      | .pop (.subSize _ _) => .isTrue (by simp [Undisturbed, hl])

end VelocityX.Unbounded.Threads
