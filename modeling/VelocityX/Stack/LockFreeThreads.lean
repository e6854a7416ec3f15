import VelocityX.Lib.Linearization
import VelocityX.Lib.Linked
import VelocityX.Lib.Transition

/-!
# The lock-free stack under interleaving

Any number of threads run `push` and `pop` of `LockFreeStack` in
`src/stack/lock_free.rs` on one stack.  A step is an allocation or release of a node, a
load of `head` or of a node's `next`, a store to a node's `next`, or a
`compare_exchange_weak` on `head`, which may fail spuriously; steps are sequentially
consistent.

Addresses are the elements of a type `A`.  The allocator may return any address that is
not allocated, and a released node keeps its contents until its address is allocated
again.

An item is identified by the push that made it.  Ghost state that no step reads: `writes`
counts the initialisations of and stores to the `next` field of each address, `pushed` and
`returned` list the items by the compare-exchange that published them and by the release
that handed them out; by `returned_eq` the values of the latter are what the pops returned.
A pop remembers the count it saw when it loaded `next`.
-/

namespace VelocityX.LockFreeStack.Threads

open Transition Linearization

variable {ι A T : Type*}

structure Item (T : Type*) where
  ticket : Nat
  value : T
deriving DecidableEq

structure Node (A T : Type*) where
  item : Item T
  next : Option A

structure Shared (A T : Type*) where
  head : Option A
  mem : A → Option (Node A T)
  live : A → Bool
  writes : A → Nat
  tickets : Nat
  pushed : List (Item T)
  returned : List (Item T)

def Shared.new : Shared A T := ⟨none, fun _ => none, fun _ => false, fun _ => 0, 0, [], []⟩

/-! ### The two operations, one step at a time -/

inductive PushPc (A T : Type*) where
  | alloc (value : T)
  | loadHead (node : A)
  | storeNext (node : A) (head : Option A)
  | cas (node : A) (head : Option A)

inductive PopPc (A : Type*) where
  | loadHead
  | loadNext (head : A)
  | cas (head : A) (next : Option A) (seen : Nat)
  | release (head : A)

inductive Call (T : Type*) where
  | push (value : T)
  | pop

/-- What the environment chooses: the call, the address an allocation returns, and
    whether a compare-exchange fails although `head` is as expected. -/
inductive Act (A T : Type*) where
  | call (c : Call T)
  | alloc (a : A)
  | step
  | spurious

variable [DecidableEq A]

/-- `Box::new(Node { data: value, next: null })` at address `a`. -/
def Shared.alloc (sh : Shared A T) (a : A) (value : T) : Shared A T :=
  { sh with mem := Function.update sh.mem a (some ⟨⟨sh.tickets, value⟩, none⟩),
            live := Function.update sh.live a true,
            writes := Function.update sh.writes a (sh.writes a + 1),
            tickets := sh.tickets + 1 }

def Shared.storeNext (sh : Shared A T) (a : A) (node : Node A T) (next : Option A) : Shared A T :=
  { sh with mem := Function.update sh.mem a (some { node with next := next }),
            writes := Function.update sh.writes a (sh.writes a + 1) }

/-- `Box::from_raw(a)`: the value moves out and the node is released. -/
def Shared.release (sh : Shared A T) (a : A) (node : Node A T) : Shared A T :=
  { sh with live := Function.update sh.live a false,
            returned := sh.returned ++ [node.item] }

/-- A node that was never allocated cannot be read: the step is not enabled. -/
def pushStep (sh : Shared A T) :
    PushPc A T → Act A T → Option (Shared A T × Next (PushPc A T) Unit)
  | .alloc value, .alloc a =>
      if sh.live a then none else some (sh.alloc a value, .goto (.loadHead a))
  | .loadHead a, .step => some (sh, .goto (.storeNext a sh.head))
  | .storeNext a head, .step =>
      (sh.mem a).map fun node => (sh.storeNext a node head, .goto (.cas a head))
  | .cas a head, .step =>
      if sh.head = head then
        (sh.mem a).map fun node =>
          ({ sh with head := some a, pushed := sh.pushed ++ [node.item] }, .ret ())
      else
        some (sh, .goto (.loadHead a))
  | .cas a _, .spurious => some (sh, .goto (.loadHead a))
  | _, _ => none

def popStep (sh : Shared A T) :
    PopPc A → Act A T → Option (Shared A T × Next (PopPc A) (Option T))
  | .loadHead, .step =>
      match sh.head with
      | none => some (sh, .ret none)
      | some head => some (sh, .goto (.loadNext head))
  | .loadNext head, .step =>
      (sh.mem head).map fun node => (sh, .goto (.cas head node.next (sh.writes head)))
  | .cas head next _, .step =>
      if sh.head = some head then
        some ({ sh with head := next }, .goto (.release head))
      else
        some (sh, .goto .loadHead)
  | .cas _ _ _, .spurious => some (sh, .goto .loadHead)
  | .release head, .step =>
      (sh.mem head).map fun node => (sh.release head node, .ret (some node.item.value))
  | _, _ => none

/-! ### Threads -/

inductive Pc (A T : Type*) where
  | idle
  | push (pc : PushPc A T)
  | pop (pc : PopPc A)

def Pc.after {P R : Type*} (inside : P → Pc A T) : Next P R → Pc A T
  | .goto pc => inside pc
  | .ret _ => .idle

def program (_t : ι) (sh : Shared A T) (l : Pc A T) (a : Act A T) :
    Option (Shared A T × Pc A T) :=
  match l with
  | .idle =>
      match a with
      | .call (.push value) => some (sh, .push (.alloc value))
      | .call .pop => some (sh, .pop .loadHead)
      | _ => none
  | .push pc => (pushStep sh pc a).map fun r => (r.1, .after .push r.2)
  | .pop pc => (popStep sh pc a).map fun r => (r.1, .after .pop r.2)

abbrev State (ι A T : Type*) := Threads ι (Shared A T) (Pc A T)

def init : State ι A T := ⟨Shared.new, fun _ => .idle⟩

abbrev step [DecidableEq ι] : State ι A T → ι × Act A T → Option (State ι A T) :=
  interleave program

/-! ### What a step can do -/

/-- The steps of a thread, from the local state `l` to `l'`. -/
inductive Effect (sh : Shared A T) : Pc A T → Act A T → Shared A T → Pc A T → Prop
  | callPush (value : T) : Effect sh .idle (.call (.push value)) sh (.push (.alloc value))
  | callPop : Effect sh .idle (.call .pop) sh (.pop .loadHead)
  | alloc (value : T) (a : A) (hdead : ¬ sh.live a = true) :
      Effect sh (.push (.alloc value)) (.alloc a) (sh.alloc a value) (.push (.loadHead a))
  | loadHead (a : A) : Effect sh (.push (.loadHead a)) .step sh (.push (.storeNext a sh.head))
  | storeNext (a : A) (head : Option A) (node : Node A T) (hnode : sh.mem a = some node) :
      Effect sh (.push (.storeNext a head)) .step (sh.storeNext a node head) (.push (.cas a head))
  | publish (a : A) (head : Option A) (node : Node A T) (hhead : sh.head = head)
      (hnode : sh.mem a = some node) :
      Effect sh (.push (.cas a head)) .step
        { sh with head := some a, pushed := sh.pushed ++ [node.item] } .idle
  | retryPush (a : A) (head : Option A) (act : Act A T)
      (hact : act = .step ∧ sh.head ≠ head ∨ act = .spurious) :
      Effect sh (.push (.cas a head)) act sh (.push (.loadHead a))
  | popEmpty (hhead : sh.head = none) : Effect sh (.pop .loadHead) .step sh .idle
  | popHead (head : A) (hhead : sh.head = some head) :
      Effect sh (.pop .loadHead) .step sh (.pop (.loadNext head))
  | loadNext (head : A) (node : Node A T) (hnode : sh.mem head = some node) :
      Effect sh (.pop (.loadNext head)) .step sh (.pop (.cas head node.next (sh.writes head)))
  | unlink (head : A) (next : Option A) (seen : Nat) (hhead : sh.head = some head) :
      Effect sh (.pop (.cas head next seen)) .step { sh with head := next } (.pop (.release head))
  | retryPop (head : A) (next : Option A) (seen : Nat) (act : Act A T)
      (hact : act = .step ∧ sh.head ≠ some head ∨ act = .spurious) :
      Effect sh (.pop (.cas head next seen)) act sh (.pop .loadHead)
  | release (a : A) (node : Node A T) (hnode : sh.mem a = some node) :
      Effect sh (.pop (.release a)) .step (sh.release a node) .idle

section Inversion

variable {t : ι} {sh sh' : Shared A T} {l l' : Pc A T} {act : Act A T}

theorem pushStep_effect {pc : PushPc A T} {next : Next (PushPc A T) Unit}
    (h : pushStep sh pc act = some (sh', next)) :
    Effect sh (.push pc) act sh' (.after .push next) := by
  cases pc with
  | alloc value =>
    cases act with
    | alloc a =>
      simp only [pushStep] at h
      split at h
      · cases h
      · next hdead =>
        cases h
        exact .alloc value a hdead
    | call c => cases h
    | step => cases h
    | spurious => cases h
  | loadHead a =>
    cases act with
    | step =>
      cases h
      exact .loadHead a
    | call c => cases h
    | alloc b => cases h
    | spurious => cases h
  | storeNext a head =>
    cases act with
    | step =>
      obtain ⟨node, hnode, heq⟩ := Option.map_eq_some_iff.mp h
      cases heq
      exact .storeNext a head node hnode
    | call c => cases h
    | alloc b => cases h
    | spurious => cases h
  | cas a head =>
    cases act with
    | step =>
      simp only [pushStep] at h
      split at h
      · next hhead =>
        obtain ⟨node, hnode, heq⟩ := Option.map_eq_some_iff.mp h
        cases heq
        exact .publish a head node hhead hnode
      · next hhead =>
        cases h
        exact .retryPush a head .step (Or.inl ⟨rfl, hhead⟩)
    | spurious =>
      cases h
      exact .retryPush a head .spurious (Or.inr rfl)
    | call c => cases h
    | alloc b => cases h

theorem popStep_effect {pc : PopPc A} {next : Next (PopPc A) (Option T)}
    (h : popStep sh pc act = some (sh', next)) :
    Effect sh (.pop pc) act sh' (.after .pop next) := by
  cases pc with
  | loadHead =>
    cases act with
    | step =>
      simp only [popStep] at h
      split at h
      · next hhead =>
        cases h
        exact .popEmpty hhead
      · next head hhead =>
        cases h
        exact .popHead head hhead
    | call c => cases h
    | alloc b => cases h
    | spurious => cases h
  | loadNext head =>
    cases act with
    | step =>
      obtain ⟨node, hnode, heq⟩ := Option.map_eq_some_iff.mp h
      cases heq
      exact .loadNext head node hnode
    | call c => cases h
    | alloc b => cases h
    | spurious => cases h
  | cas head next seen =>
    cases act with
    | step =>
      simp only [popStep] at h
      split at h
      · next hhead =>
        cases h
        exact .unlink head next seen hhead
      · next hhead =>
        cases h
        exact .retryPop head next seen .step (Or.inl ⟨rfl, hhead⟩)
    | spurious =>
      cases h
      exact .retryPop head next seen .spurious (Or.inr rfl)
    | call c => cases h
    | alloc b => cases h
  | release a =>
    cases act with
    | step =>
      obtain ⟨node, hnode, heq⟩ := Option.map_eq_some_iff.mp h
      cases heq
      exact .release a node hnode
    | call c => cases h
    | alloc b => cases h
    | spurious => cases h

/-- Every step of a thread is one of these. -/
theorem program_effect (h : program t sh l act = some (sh', l')) : Effect sh l act sh' l' := by
  cases l with
  | idle =>
    rcases act with (value | _) | a | _ | _ <;> cases h
    · exact .callPush value
    · exact .callPop
  | push pc =>
    obtain ⟨⟨sh₁, next⟩, hstep, heq⟩ := Option.map_eq_some_iff.mp h
    cases heq
    exact pushStep_effect hstep
  | pop pc =>
    obtain ⟨⟨sh₁, next⟩, hstep, heq⟩ := Option.map_eq_some_iff.mp h
    cases heq
    exact popStep_effect hstep

end Inversion

/-! ### What the pops return -/

/-- The value that a pop returns with this step. -/
def handedOut (s : State ι A T) (a : ι × Act A T) : Option T :=
  match s.loc a.1 with
  | .pop pc =>
      match popStep s.shared pc a.2 with
      | some (_, .ret value) => value
      | _ => none
  | _ => none

section Returned

variable [DecidableEq ι] {s s' : State ι A T}

/-- A step extends the log by what it returns. -/
theorem returned_step {a : ι × Act A T} (hstep : step s a = some s') :
    s'.shared.returned.map Item.value =
      s.shared.returned.map Item.value ++ (handedOut s a).toList := by
  obtain ⟨t, act⟩ := a
  obtain ⟨sh, l, hp, rfl⟩ := interleave_eq_some.mp hstep
  generalize hl : s.loc t = l₀ at hp
  cases program_effect hp with
  | popEmpty hhead => simp [handedOut, hl, popStep, hhead]
  | popHead head hhead => simp [handedOut, hl, popStep, hhead]
  | loadNext head node hnode => simp [handedOut, hl, popStep, hnode]
  | unlink head next seen hhead => simp [handedOut, hl, popStep, hhead]
  | retryPop head next seen act hact =>
    obtain ⟨rfl, hne⟩ | rfl := hact
    · simp [handedOut, hl, popStep, hne]
    · simp [handedOut, hl, popStep]
  | release b node hnode => simp [handedOut, hl, popStep, hnode, Shared.release]
  | alloc value b hdead => simp [handedOut, hl, Shared.alloc]
  | storeNext b head node hnode => simp [handedOut, hl, Shared.storeNext]
  | _ => simp [handedOut, hl]

/-- **The log is what the pops returned**, in the order in which they returned it. -/
theorem returned_eq {as : List (ι × Act A T)} (hrun : run step (init : State ι A T) as = some s) :
    (trace step handedOut (init : State ι A T) as).map Prod.snd =
      s.shared.returned.map Item.value := by
  have hlog := trace_log (g := fun s : State ι A T => s.shared.returned.map Item.value)
    (fun _ _ _ hstep => returned_step hstep) hrun
  exact hlog.symm

end Returned

/-! ### Freedom from ABA -/

def Shared.next (sh : Shared A T) (a : A) : Option (Option A) := (sh.mem a).map Node.next

def Shared.item (sh : Shared A T) (a : A) : Option (Item T) := (sh.mem a).map Node.item

/-- A compare-exchange of a pop that succeeds installs the next pointer of the node that
    is the head at that instant. -/
def InstallsCurrentNext (s : State ι A T) (a : ι × Act A T) : Prop :=
  ∀ head next seen, s.loc a.1 = .pop (.cas head next seen) → a.2 = .step →
    s.shared.head = some head → s.shared.next head = some next

/-- Every item is handed out at most once, and once all calls have returned the pushed
    items are those handed out and, each once, those of the nodes reachable from head. -/
structure DeliveredOnce (s : State ι A T) : Prop where
  returned_once : s.shared.returned.Nodup
  kept : (∀ t, s.loc t = .idle) → ∃ as, Linked.Chain s.shared.next s.shared.head as ∧
    ∃ items, as.map s.shared.item = items.map some ∧
      (items ++ s.shared.returned).Perm s.shared.pushed ∧
      (items ++ s.shared.returned).Nodup

/-- A compare-exchange of a pop that finds the head it loaded does so before the node at
    that address has been allocated or had its `next` stored again since the pop loaded
    `next`. -/
def NotReused (s : State ι A T) (a : ι × Act A T) : Prop :=
  ∀ head next seen, s.loc a.1 = .pop (.cas head next seen) → a.2 = .step →
    s.shared.head = some head → s.shared.writes head = seen

instance (s : State ι A T) : (a : ι × Act A T) → Decidable (NotReused s a)
  | (_, .call _) | (_, .alloc _) | (_, .spurious) => .isTrue nofun
  | (t, .step) =>
      match hl : s.loc t with
      | .pop (.cas head _ seen) =>
          decidable_of_iff (s.shared.head = some head → s.shared.writes head = seen)
            (by simp [NotReused, hl])
      | .idle | .push _ | .pop .loadHead | .pop (.loadNext _) | .pop (.release _) =>
          .isTrue (by simp [NotReused, hl])

end VelocityX.LockFreeStack.Threads
