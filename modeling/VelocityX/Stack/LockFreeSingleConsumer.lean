import VelocityX.Lib.Linearization
import VelocityX.Stack.LockFreeAba

/-!
# The lock-free stack with a single consumer

With one thread that pops, the node a pop has loaded stays on the stack until that pop
unlinks it, so that its address is not reused in between.  The stack is then
linearizable: a push takes effect when its compare-exchange succeeds, and so does a pop,
or when it loads a null head.
-/

namespace VelocityX.LockFreeStack.Threads

open Transition Linked Linearization

variable {ι A T : Type*}

/-! ### The sequential stack -/

inductive Result (T : Type*) where
  | pushed
  | popped (value : Option T)
deriving DecidableEq, Repr

def stackSpec (xs : List T) : Call T → List T × Result T
  | .push value => (value :: xs, .pushed)
  | .pop => (xs.tail, .popped xs.head?)

/-! ### What the calls do and when -/

def Shared.valueAt (sh : Shared A T) (a : A) : Option T := (sh.item a).map Item.value

/-- The value of a push, which it moves into its node. -/
def PushPc.value (sh : Shared A T) : PushPc A T → Option T
  | .alloc value => some value
  | .loadHead node => sh.valueAt node
  | .storeNext node _ => sh.valueAt node
  | .cas node _ => sh.valueAt node

def Pc.called : Pc A T → Act A T → Option (Call T)
  | .idle, .call c => some c
  | _, _ => none

/-- The call of a thread that has not taken effect. -/
def Pc.opened (sh : Shared A T) : Pc A T → Option (Call T)
  | .idle => none
  | .push pc => (pc.value sh).map .push
  | .pop (.release _) => none
  | .pop _ => some .pop

/-- The call of a thread that has taken effect and not returned. -/
def Pc.decided (sh : Shared A T) : Pc A T → Option (Call T × Result T)
  | .pop (.release node) => (sh.valueAt node).map fun value => (.pop, .popped (some value))
  | _ => none

section

variable [DecidableEq A]

def Pc.point (sh : Shared A T) : Pc A T → Act A T → Option (Call T × Result T)
  | .push (.cas node head), .step =>
      if sh.head = head then (sh.valueAt node).map fun value => (.push value, .pushed) else none
  | .pop .loadHead, .step => if sh.head = none then some (.pop, .popped none) else none
  | .pop (.cas head _ _), .step =>
      if sh.head = some head then (sh.valueAt head).map fun value => (.pop, .popped (some value))
      else none
  | _, _ => none

def Pc.returns (sh : Shared A T) (act : Act A T) : Pc A T → Option (Call T × Result T)
  | .idle => none
  | .push pc =>
      match pushStep sh pc act with
      | some (_, .ret _) => (pc.value sh).map fun value => (.push value, .pushed)
      | _ => none
  | .pop pc =>
      match popStep sh pc act with
      | some (_, .ret result) => some (.pop, .popped result)
      | _ => none

def observation : Observation ι (State ι A T) (Act A T) (Call T) (Result T) where
  call s a := (s.loc a.1).called a.2
  point s a := (s.loc a.1).point s.shared a.2
  ret s a := (s.loc a.1).returns s.shared a.2

/-- A node that a pop reads is allocated: the load of `next`, and the move out of the
    node before its release. -/
def ReadsAllocated (s : State ι A T) (a : ι × Act A T) : Prop :=
  ∀ node, s.loc a.1 = .pop (.loadNext node) ∨ s.loc a.1 = .pop (.release node) → a.2 = .step →
    s.shared.live node = true

end

/-- The pointer `head` starts a list of allocated nodes that ends with a null pointer and
    does not come to a node twice. -/
def WellLinked (sh : Shared A T) : Prop :=
  ∃ nodes, Chain sh.next sh.head nodes ∧ nodes.Nodup ∧ ∀ a ∈ nodes, sh.live a = true

/-! ### The invariant -/

/-- A pop that has loaded a node: it is still on the stack, and untouched. -/
def Pc.Sees (sh : Shared A T) (as : List A) : Pc A T → Prop
  | .pop (.loadNext head) => head ∈ as
  | .pop (.cas head _ seen) => head ∈ as ∧ sh.writes head = seen
  | _ => True

def Pc.IsPop : Pc A T → Prop
  | .pop _ => True
  | _ => False

structure Consumed (consumer : ι) (as : List A) (s : State ι A T) : Prop where
  inv : InvAt as s
  sees : ∀ t, (s.loc t).Sees s.shared as
  only : ∀ t, (s.loc t).IsPop → t = consumer

/-- The stack holds the values `xs`, the last one pushed first. -/
def Holds (consumer : ι) (xs : List T) (s : State ι A T) : Prop :=
  ∃ as, Consumed consumer as s ∧ as.map s.shared.valueAt = xs.map some

theorem holds_init (consumer : ι) : Holds consumer [] (init : State ι A T) :=
  ⟨[], ⟨invAt_init, fun _ => trivial, fun _ h => h.elim⟩, rfl⟩

variable {consumer t : ι} {as : List A} {xs : List T} {s : State ι A T} {sh sh' : Shared A T}
variable {l l' : Pc A T} {act : Act A T}

theorem Consumed.wellLinked (h : Consumed consumer as s) : WellLinked s.shared :=
  ⟨as, h.inv.chain, h.inv.chain.nodup, h.inv.stack_live⟩

theorem Pc.opened_congr (hok : l.Ok sh) (hitem : ∀ b, sh.live b = true → sh'.item b = sh.item b) :
    l.opened sh' = l.opened sh := by
  have hvalue : ∀ b, sh.live b = true → sh'.valueAt b = sh.valueAt b :=
    fun b hb => congrArg _ (hitem b hb)
  cases l with
  | idle => rfl
  | push pc =>
    cases pc with
    | alloc value => rfl
    | loadHead b => simp [Pc.opened, PushPc.value, hvalue b hok.1]
    | storeNext b head => simp [Pc.opened, PushPc.value, hvalue b hok.1]
    | cas b head => simp [Pc.opened, PushPc.value, hvalue b hok.1.1]
  | pop pc => cases pc <;> rfl

theorem Pc.decided_congr (hok : l.Ok sh) (hitem : ∀ b, sh.live b = true → sh'.item b = sh.item b) :
    l.decided sh' = l.decided sh := by
  cases l with
  | idle => rfl
  | push pc => rfl
  | pop pc =>
    cases pc with
    | release b => simp [Pc.decided, Shared.valueAt, hitem b hok.1]
    | loadHead => rfl
    | loadNext b => rfl
    | cas b next seen => rfl

variable [DecidableEq A]

/-- No step changes the item of an allocated node. -/
theorem Effect.item_eq (heff : Effect sh l act sh' l') {b : A} (hb : sh.live b = true) :
    sh'.item b = sh.item b := by
  cases heff with
  | alloc value a hdead =>
    refine alloc_item_of_ne fun hba => ?_
    subst hba
    exact hdead hb
  | storeNext a head node hnode => exact storeNext_item hnode b
  | callPush | callPop | loadHead | publish | retryPush | popEmpty | popHead | loadNext | unlink
  | retryPop | release => rfl

/-- A step of a thread that does not pop takes no node off the stack and writes to none. -/
theorem InvAt.producer_frame (h : InvAt as s) (hl : s.loc t = l) (hpop : ¬ l.IsPop)
    (heff : Effect s.shared l act sh' l') {b : A} (hb : b ∈ as) :
    b ∈ stackAfter s.shared as l act ∧ sh'.writes b = s.shared.writes b := by
  cases heff with
  | callPush value => exact ⟨hb, rfl⟩
  | callPop => exact ⟨hb, rfl⟩
  | alloc value a hdead =>
    refine ⟨hb, alloc_writes_of_ne fun hba => ?_⟩
    subst hba
    exact hdead (h.stack_live b hb)
  | loadHead a => exact ⟨hb, rfl⟩
  | storeNext a head node hnode =>
    refine ⟨hb, storeNext_writes_of_ne fun hba => ?_⟩
    subst hba
    exact h.stack_free b hb t (by rw [hl]; rfl)
  | publish a head node hhead hnode =>
    rw [stackAfter, if_pos hhead]
    exact ⟨List.mem_cons_of_mem a hb, rfl⟩
  | retryPush a head act hact =>
    rcases hact with ⟨rfl, hne⟩ | rfl
    · rw [stackAfter, if_neg hne]
      exact ⟨hb, rfl⟩
    · exact ⟨hb, rfl⟩
  | popEmpty | popHead | loadNext | unlink | retryPop | release => exact (hpop trivial).elim

omit [DecidableEq A] in
/-- Between the load of `next` and the compare-exchange nobody writes to the node. -/
theorem Consumed.notReused {a : ι × Act A T} (h : Consumed consumer as s) : NotReused s a := by
  intro head next seen hl _ _
  have hsees := h.sees a.1
  rw [hl] at hsees
  exact hsees.2

omit [DecidableEq A] in
theorem Consumed.readsAllocated {a : ι × Act A T} (h : Consumed consumer as s) :
    ReadsAllocated s a := by
  rintro node (hl | hl) _
  · have hsees := h.sees a.1
    rw [hl] at hsees
    exact h.inv.stack_live node hsees
  · have hok := h.inv.ok a.1
    rw [hl] at hok
    exact hok.1

/-! ### The steps -/

/-- The steps are taken by threads of which only the consumer calls `pop`. -/
def OnlyConsumerPops (consumer : ι) (_s : State ι A T) (a : ι × Act A T) : Prop :=
  a.2 = .call .pop → a.1 = consumer

theorem Consumed.effect_sees (h : Consumed consumer as s) (hl : s.loc t = l)
    (heff : Effect s.shared l act sh' l') : l'.Sees sh' (stackAfter s.shared as l act) := by
  have hsees := h.sees t
  rw [hl] at hsees
  cases heff with
  | popHead head hhead =>
    have hchain := h.inv.chain
    rw [hhead] at hchain
    cases as with
    | nil => cases hchain
    | cons a rest =>
      cases hchain.1
      exact List.mem_cons_self
  | loadNext head node hnode => exact ⟨hsees, rfl⟩
  | callPush | callPop | alloc | loadHead | storeNext | publish | retryPush | popEmpty | unlink
  | retryPop | release => trivial

theorem Consumed.effect_pops (h : Consumed consumer as s) (hl : s.loc t = l)
    (hcond : OnlyConsumerPops consumer s (t, act)) (heff : Effect s.shared l act sh' l')
    (hpop : l'.IsPop) : t = consumer := by
  have honly := h.only t
  rw [hl] at honly
  cases heff with
  | callPop => exact hcond rfl
  | popHead | loadNext | unlink | retryPop => exact honly trivial
  | callPush | alloc | loadHead | storeNext | publish | retryPush | popEmpty | release =>
    exact hpop.elim

theorem Consumed.effect [DecidableEq ι] (h : Consumed consumer as s) (hl : s.loc t = l)
    (hcond : OnlyConsumerPops consumer s (t, act)) (heff : Effect s.shared l act sh' l') :
    Consumed consumer (stackAfter s.shared as l act) ⟨sh', Function.update s.loc t l'⟩ := by
  refine ⟨h.inv.effect hl (installsCurrentNext h.inv h.notReused) heff, ?_, ?_⟩
  · refine (Function.forall_update_iff _ fun _ l => Pc.Sees sh' _ l).mpr
      ⟨h.effect_sees hl heff, fun u hu => ?_⟩
    by_cases hpop : (s.loc u).IsPop
    · -- then `u` is the consumer and `t` is not
      have hproducer : ¬ l.IsPop := by
        intro hlpop
        rw [← hl] at hlpop
        exact hu ((h.only u hpop).trans (h.only t hlpop).symm)
      have hframe := fun b hb => h.inv.producer_frame (b := b) hl hproducer heff hb
      have hsees := h.sees u
      cases hlu : s.loc u with
      | idle => trivial
      | push pc => trivial
      | pop pc =>
        rw [hlu] at hsees
        cases pc with
        | loadHead => trivial
        | loadNext head => exact (hframe head hsees).1
        | cas head next seen =>
          exact ⟨(hframe head hsees.1).1, (hframe head hsees.1).2.trans hsees.2⟩
        | release head => trivial
    · cases hlu : s.loc u with
      | idle => trivial
      | push pc => trivial
      | pop pc =>
        rw [hlu] at hpop
        exact (hpop trivial).elim
  · refine (Function.forall_update_iff _ fun u l => Pc.IsPop l → u = consumer).mpr
      ⟨h.effect_pops hl hcond heff, fun u _ => h.only u⟩

/-- The values on the stack follow the sequential stack. -/
theorem Consumed.values (h : Consumed consumer as s) (hl : s.loc t = l)
    (hvalues : as.map s.shared.valueAt = xs.map some) (heff : Effect s.shared l act sh' l') :
    match l.point s.shared act with
    | none => (stackAfter s.shared as l act).map sh'.valueAt = xs.map some
    | some e => (stackSpec xs e.1).2 = e.2 ∧
        (stackAfter s.shared as l act).map sh'.valueAt = (stackSpec xs e.1).1.map some := by
  have hsame : as.map sh'.valueAt = xs.map some := by
    rw [← hvalues]
    exact List.map_congr_left fun b hb => congrArg _ (heff.item_eq (h.inv.stack_live b hb))
  have hok := h.inv.ok t
  rw [hl] at hok
  cases heff with
  | callPush | callPop | alloc | loadHead | storeNext | loadNext | release => exact hsame
  | publish a head node hhead hnode =>
    have hvalue : s.shared.valueAt a = some node.item.value := by
      simp [Shared.valueAt, Shared.item, hnode]
    simp only [Pc.point, stackAfter, if_pos hhead, hvalue, Option.map_some]
    refine ⟨rfl, ?_⟩
    rw [List.map_cons, hsame]
    exact congrArg (· :: _) hvalue
  | retryPush a head act hact =>
    rcases hact with ⟨rfl, hne⟩ | rfl
    · simpa only [Pc.point, stackAfter, if_neg hne] using hsame
    · exact hsame
  | popEmpty hhead =>
    have hchain := h.inv.chain
    rw [hhead] at hchain
    cases as with
    | nil =>
      have hnil : xs = [] := List.map_eq_nil_iff.mp hvalues.symm
      subst hnil
      simp [Pc.point, hhead, stackSpec, stackAfter]
    | cons a rest => cases hchain.1
  | popHead head hhead => simpa [Pc.point, hhead, stackAfter] using hsame
  | unlink head next seen hhead =>
    have hchain := h.inv.chain
    rw [hhead] at hchain
    cases as with
    | nil => cases hchain
    | cons a rest =>
      cases hchain.1
      cases xs with
      | nil => cases hvalues
      | cons x xs =>
        rw [List.map_cons, List.map_cons, List.cons.injEq] at hvalues
        simp only [Pc.point, stackAfter, if_pos hhead, hvalues.1, Option.map_some]
        exact ⟨rfl, hvalues.2⟩
  | retryPop head next seen act hact =>
    rcases hact with ⟨rfl, hne⟩ | rfl
    · simpa only [Pc.point, stackAfter, if_neg hne] using hsame
    · exact hsame

attribute [local simp] Pc.opened PushPc.value Pc.decided Pc.called Pc.point Pc.returns
attribute [local simp] pushStep popStep

/-- A step keeps the books of the thread that takes it. -/
theorem Consumed.books (h : Consumed consumer as s) (hl : s.loc t = l)
    (heff : Effect s.shared l act sh' l') :
    (l.opened s.shared).toList ++ (l.called act).toList =
        ((l.point s.shared act).map Prod.fst).toList ++ (l'.opened sh').toList ∧
      (l.decided s.shared).toList ++ (l.point s.shared act).toList =
        (l.returns s.shared act).toList ++ (l'.decided sh').toList := by
  have hok := h.inv.ok t
  rw [hl] at hok
  cases heff with
  | callPush value => exact ⟨rfl, rfl⟩
  | callPop => exact ⟨rfl, rfl⟩
  | alloc value a hdead => simp [hdead, Shared.valueAt, alloc_item_self]
  | loadHead a => simp
  | storeNext a head node hnode => simp [hnode, Shared.valueAt, storeNext_item hnode]
  | publish a head node hhead hnode => simp [hhead, hnode, Shared.valueAt, Shared.item]
  | retryPush a head act hact =>
    rcases hact with ⟨rfl, hne⟩ | rfl
    · simp [hne]
    · simp
  | popEmpty hhead => simp [hhead]
  | popHead head hhead => simp [hhead]
  | loadNext head node hnode => simp [hnode]
  | unlink head next seen hhead =>
    have hsees := h.sees t
    rw [hl] at hsees
    obtain ⟨x, hx, _⟩ := h.inv.stack_pushed head hsees.1
    have hx' : Shared.item { s.shared with head := next } head = some x := hx
    simp [hhead, Shared.valueAt, hx, hx']
  | retryPop head next seen act hact =>
    rcases hact with ⟨rfl, hne⟩ | rfl
    · simp [hne]
    · simp
  | release a node hnode => simp [hnode, Shared.valueAt, Shared.item]

variable [DecidableEq ι] {s' : State ι A T} {a : ι × Act A T} {sched : List (ι × Act A T)}

theorem Holds.step (h : Holds consumer xs s) (hcond : OnlyConsumerPops consumer s a)
    (hstep : step s a = some s') :
    Advances stackSpec (Holds consumer) xs s' (observation.point s a) ∧
      Accounts observation (fun s t => (s.loc t).opened s.shared)
        (fun s t => (s.loc t).decided s.shared) s a s' := by
  obtain ⟨as, h, hvalues⟩ := h
  obtain ⟨t, act⟩ := a
  obtain ⟨sh', l', hp, rfl⟩ := interleave_eq_some.mp hstep
  have heff := program_effect hp
  have hnew := h.effect rfl hcond heff
  have hlist := h.values rfl hvalues heff
  constructor
  · show Advances stackSpec (Holds consumer) xs _ ((s.loc t).point s.shared act)
    cases hpoint : (s.loc t).point s.shared act with
    | none =>
      rw [hpoint] at hlist
      exact ⟨_, hnew, hlist⟩
    | some e =>
      rw [hpoint] at hlist
      exact ⟨hlist.1, _, hnew, hlist.2⟩
  · obtain ⟨hcalls, hresults⟩ := h.books rfl heff
    have hitem : ∀ b, s.shared.live b = true → sh'.item b = s.shared.item b :=
      fun b hb => heff.item_eq hb
    refine ⟨?_, ?_, fun u hu => ?_, fun u hu => ?_⟩
    · simpa [observation] using hcalls
    · simpa [observation] using hresults
    · simpa [Function.update_of_ne hu] using Pc.opened_congr (h.inv.ok u) hitem
    · simpa [Function.update_of_ne hu] using Pc.decided_congr (h.inv.ok u) hitem

theorem along_onlyConsumerPops (hconsumer : ∀ t, (t, .call .pop) ∈ sched → t = consumer) :
    Along step (OnlyConsumerPops consumer) s sched := by
  induction sched generalizing s with
  | nil => trivial
  | cons a sched ih =>
    refine ⟨fun ha => hconsumer a.1 ?_, fun s' _ => ih fun t ht => ?_⟩
    · rw [← ha]
      exact List.mem_cons_self
    · exact hconsumer t (List.mem_cons_of_mem a ht)

theorem along_readsAllocated (h : ∃ xs, Holds consumer xs s)
    (hcond : Along step (OnlyConsumerPops consumer) s sched) :
    Along step ReadsAllocated s sched := by
  induction sched generalizing s with
  | nil => trivial
  | cons a sched ih =>
    obtain ⟨xs, h⟩ := h
    obtain ⟨as, hconsumed, _⟩ := id h
    refine ⟨hconsumed.readsAllocated, fun s' hs' => ?_⟩
    exact ih (exists_of_advances (h.step hcond.1 hs').1) (hcond.2 s' hs')

/-- **With a single consumer the stack is linearizable.**  For any number of pushing
    threads, every interleaving and every allocator. -/
theorem singleConsumer_linearizable
    (hconsumer : ∀ t, (t, .call .pop) ∈ sched → t = consumer)
    (hrun : run step (init : State ι A T) sched = some s) :
    WellLinked s.shared ∧
      Linearizable step observation stackSpec [] (init : State ι A T) sched ∧
      Along step ReadsAllocated (init : State ι A T) sched := by
  have hcond : Along step (OnlyConsumerPops consumer) (init : State ι A T) sched :=
    along_onlyConsumerPops hconsumer
  obtain ⟨xs, as, h, _⟩ := run_invariant_along
    (I := fun s : State ι A T => ∃ xs, Holds consumer xs s)
    (fun _ _ _ h hC hs' => h.elim fun _ h => exists_of_advances (h.step hC hs').1)
    ⟨[], holds_init consumer⟩ hcond hrun
  refine ⟨h.wellLinked, ?_, along_readsAllocated ⟨[], holds_init consumer⟩ hcond⟩
  exact linearizable_of_simulation (fun _ _ _ _ h hC hs' => h.step hC hs') (fun _ => ⟨rfl, rfl⟩)
    (holds_init consumer) hcond hrun

/-- Thread `false` pushes 7, and thread `true` pops it. -/
def handOver : List (Bool × Act Nat Nat) :=
  [(false, .call (.push 7)), (false, .alloc 0), (false, .step), (false, .step), (true, .call .pop),
    (false, .step), (true, .step), (true, .step), (true, .step), (true, .step)]

theorem singleConsumer_linearizable_handOver :
    ∃ s, run step (init : State Bool Nat Nat) handOver = some s ∧
      ofThread true (trace step observation.ret (init : State Bool Nat Nat) handOver) =
        [(.pop, .popped (some 7))] ∧
      WellLinked s.shared ∧
      Linearizable step observation stackSpec [] (init : State Bool Nat Nat) handOver ∧
      Along step ReadsAllocated (init : State Bool Nat Nat) handOver := by
  have hrun : (run step (init : State Bool Nat Nat) handOver).map (fun s => s.shared.returned) =
      some [⟨0, 7⟩] := rfl
  obtain ⟨s, hs, _⟩ := Option.map_eq_some_iff.mp hrun
  have hconsumer : ∀ t, (t, .call .pop) ∈ handOver → t = true := by
    intro t ht
    cases t with
    | false => simp [handOver] at ht
    | true => rfl
  exact ⟨s, hs, rfl, singleConsumer_linearizable hconsumer hs⟩

end VelocityX.LockFreeStack.Threads
