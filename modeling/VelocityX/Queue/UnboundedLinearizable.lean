import VelocityX.Lib.Linearization
import VelocityX.Queue.UnboundedDelivery
import VelocityX.Queue.UnboundedSize

/-!
# Linearizability of the unbounded queue

Along an undisturbed run the queue is the list of the values behind `head`.  A push takes effect
when it links its node and a pop when it moves the head, or when it finds no successor of a head
that it has loaded: the head has then not moved since.

With one producer and one consumer every run is undisturbed.
-/

namespace VelocityX.Unbounded.Threads

open Transition Linked Linearization

variable {ι T : Type*} {w : Nat}

/-! ### The sequential queue -/

inductive Result (T : Type*) where
  | pushed
  | popped (value : Option T)
deriving DecidableEq

def queueSpec (xs : List T) : Call T → List T × Result T
  | .push value => (xs ++ [value], .pushed)
  | .pop => (xs.tail, .popped xs.head?)

/-! ### What the calls do and when -/

def Pc.called : Pc T → Act T → Option (Call T)
  | .idle, .call c => some c
  | _, _ => none

/-- The call of a thread that has not taken effect. -/
def Pc.opened (sh : Shared T) : Pc T → Option (Call T)
  | .push node .loadTail => (sh.valueAt node).map .push
  | .push node (.storeNext _) => (sh.valueAt node).map .push
  | .pop (.subSize _ _) => none
  | .pop _ => some .pop
  | _ => none

/-- The call of a thread that has taken effect and not returned. -/
def Pc.decided (sh : Shared T) : Pc T → Option (Call T × Result T)
  | .push _ .loadTail => none
  | .push _ (.storeNext _) => none
  | .push node _ => (sh.valueAt node).map fun value => (.push value, .pushed)
  | .pop (.subSize _ value) => some (.pop, .popped value)
  | _ => none

def Pc.point (sh : Shared T) : Pc T → Act T → Option (Call T × Result T)
  | .push node (.storeNext _), .step => (sh.valueAt node).map fun value => (.push value, .pushed)
  | .pop (.loadNext head), .step =>
      if (sh.link head).join = none then some (.pop, .popped none) else none
  | .pop (.storeHead _ _ value), .step => some (.pop, .popped value)
  | _, _ => none

def Pc.returns (w : Nat) (sh : Shared T) : Pc T → Act T → Option (Call T × Result T)
  | .push node pc, .step =>
      match pushStep w node sh pc with
      | some (_, .ret _) => (sh.valueAt node).map fun value => (.push value, .pushed)
      | _ => none
  | .pop pc, .step =>
      match (popStep w sh pc).2 with
      | .ret result => some (.pop, .popped result)
      | .goto _ => none
  | _, _ => none

def observation (w : Nat) : Observation ι (State ι T) (Act T) (Call T) (Result T) where
  call s a := (s.loc a.1).called a.2
  point s a := (s.loc a.1).point s.shared a.2
  ret s a := (s.loc a.1).returns w s.shared a.2

/-! ### The invariant -/

/-- The chain from the node at `a` on, which comes to the head. -/
def Ahead (sh : Shared T) (a : Nat) (as : List Nat) : Prop :=
  Chain sh.link (some a) as ∧ sh.head ∈ as

/-- What a call knows about the head that it has loaded. -/
def Pc.Knows (sh : Shared T) : Pc T → Prop
  | .pop (.loadNext head) => ∃ as, Ahead sh head as
  | _ => True

/-- The queue holds the values `xs`, oldest first. -/
structure Holds (xs : List T) (s : State ι T) : Prop where
  inv : Inv s
  valued : Valued s
  knows : ∀ t, (s.loc t).Knows s.shared
  chain : ∃ as, Chain s.shared.link (some s.shared.head) (s.shared.head :: as) ∧
    as.map s.shared.valueAt = xs.map some

theorem holds_init : Holds [] (init : State ι T) :=
  ⟨inv_init, valued_init, fun _ => trivial, [], ⟨rfl, none, rfl, rfl⟩, rfl⟩

section Memory

variable {sh : Shared T} {y : Layout} {a b n tail : Nat} {as : List Nat} {value : T}

theorem chain_mem_lt {p : Option Nat} (h : Chain sh.link p as) (ha : a ∈ as) :
    a < sh.nodes.length := by
  obtain ⟨n, hn⟩ := h.exists_next ha
  exact lt_of_link hn

theorem Ahead.mem (h : Ahead sh a as) : a ∈ as := by
  obtain ⟨hchain, hmem⟩ := h
  cases as with
  | nil => cases hmem
  | cons b bs =>
    cases hchain.1
    exact List.mem_cons_self

theorem Ahead.alloc (h : Ahead sh a as) : Ahead (sh.alloc value) a as :=
  ⟨h.1.congr fun _ hb => link_alloc_of_lt (chain_mem_lt h.1 hb), h.2⟩

/-- A push links its node behind every chain that comes to the head. -/
theorem Ahead.storeNext (h : Ahead sh a as) (hg : Good y sh) {l : List Nat}
    (hlast : y.chain = l ++ [tail]) (hnull : sh.link tail = some none) (hn : n ≠ tail)
    (hfresh : sh.link n = some none) : Ahead (sh.storeNext tail n) a (as ++ [n]) := by
  have hmem : sh.head ∈ y.chain := hg.popped.subset (List.mem_of_getLast? hg.head)
  have hchain := hg.chain
  rw [hlast] at hchain hmem
  obtain ⟨l', rfl⟩ := h.1.exists_last hchain h.2 hmem
  have hnodup := h.1.nodup
  refine ⟨h.1.link (fun x hx => link_storeNext_ne ?_) (link_storeNext_self hnull) ?_,
    List.mem_append_left _ h.2⟩
  · rintro rfl
    exact (List.nodup_append.mp hnodup).2.2 x hx x List.mem_cons_self rfl
  · rw [link_storeNext_ne hn]
    exact hfresh

/-- The head moves to its successor, to which every chain comes that came to the head. -/
theorem Ahead.storeHead (h : Ahead sh a as) (hn : sh.link sh.head = some (some n)) :
    Ahead { sh with head := n } a as := by
  obtain ⟨l, r, rfl⟩ := List.append_of_mem h.2
  refine ⟨h.1, ?_⟩
  show n ∈ l ++ sh.head :: r
  cases r with
  | nil =>
    rw [h.1.next_last] at hn
    cases hn
  | cons b r =>
    have hb : b = n := Option.some.inj (Option.some.inj (h.1.next_eq.symm.trans hn))
    simp [hb]

/-- A head that was loaded and has no successor is still the head. -/
theorem Ahead.eq_head (h : Ahead sh a as) (hnull : sh.link a = some none) : a = sh.head := by
  obtain ⟨hchain, hmem⟩ := h
  cases as with
  | nil => cases hmem
  | cons b bs =>
    obtain ⟨hb, n, hn, hrest⟩ := hchain
    cases hb
    rw [hnull] at hn
    cases hn
    cases bs with
    | nil => exact (List.mem_singleton.mp hmem).symm
    | cons c cs => cases hrest.1

end Memory

section Steps

variable {s s' : State ι T} {xs xs' : List T} {t : ι} {sh sh' : Shared T} {l : Pc T} {value : T}
variable {a : Act T}

/-- Chains that come to the head still do. -/
def Grows (sh sh' : Shared T) : Prop := ∀ a, (∃ as, Ahead sh a as) → ∃ as, Ahead sh' a as

theorem Grows.of_eq (hnodes : sh'.nodes = sh.nodes) (hhead : sh'.head = sh.head) :
    Grows sh sh' := by
  obtain ⟨nodes, head, _, _, _, _⟩ := sh
  cases hnodes
  cases hhead
  exact fun _ => id

theorem Pc.Knows.mono (h : l.Knows sh) (hgrows : Grows sh sh') : l.Knows sh' := by
  cases l with
  | idle => trivial
  | push node pc => trivial
  | pop pc =>
    cases pc with
    | loadNext head => exact hgrows head h
    | _ => trivial

theorem Pc.Valued.books_eq (h : l.Valued sh) (hkeeps : sh.Keeps sh') :
    l.opened sh' = l.opened sh ∧ l.decided sh' = l.decided sh := by
  cases l with
  | idle => exact ⟨rfl, rfl⟩
  | push node pc =>
    have hnode := hkeeps node h
    cases pc <;> simp [Pc.opened, Pc.decided, hnode]
  | pop pc => cases pc <;> exact ⟨rfl, rfl⟩

/-- A head without a successor is the head of an empty queue. -/
theorem Holds.eq_nil (h : Holds xs s) (hnull : s.shared.link s.shared.head = some none) :
    xs = [] := by
  obtain ⟨as, ⟨_, n, hn, hrest⟩, hvalues⟩ := h.chain
  rw [hnull] at hn
  cases hn
  cases as with
  | nil => exact List.map_eq_nil_iff.mp hvalues.symm
  | cons a as => cases hrest.1

variable [DecidableEq ι]

theorem Holds.after (h : Holds xs s) (hgrows : Grows s.shared sh)
    (hinv : Inv (⟨sh, Function.update s.loc t l⟩ : State ι T))
    (hvalued : Valued (⟨sh, Function.update s.loc t l⟩ : State ι T)) (hknows : l.Knows sh)
    (hchain : ∃ as, Chain sh.link (some sh.head) (sh.head :: as) ∧
      as.map sh.valueAt = xs'.map some) :
    Holds xs' (⟨sh, Function.update s.loc t l⟩ : State ι T) :=
  ⟨hinv, hvalued, (Function.forall_update_iff s.loc fun _ l => l.Knows sh).mpr
    ⟨hknows, fun u _ => (h.knows u).mono hgrows⟩, hchain⟩

/-- A step that leaves the nodes and the head alone. -/
theorem Holds.quiet (h : Holds xs s) (hnodes : sh.nodes = s.shared.nodes)
    (hhead : sh.head = s.shared.head) (hinv : Inv (⟨sh, Function.update s.loc t l⟩ : State ι T))
    (hvalued : Valued (⟨sh, Function.update s.loc t l⟩ : State ι T)) (hknows : l.Knows s.shared) :
    Holds xs (⟨sh, Function.update s.loc t l⟩ : State ι T) := by
  have hgrows := Grows.of_eq hnodes hhead
  have hlink : sh.link = s.shared.link := by
    unfold Shared.link
    rw [hnodes]
  have hvalue : sh.valueAt = s.shared.valueAt := by
    unfold Shared.valueAt
    rw [hnodes]
  refine h.after hgrows hinv hvalued (hknows.mono hgrows) ?_
  rw [hlink, hvalue, hhead]
  exact h.chain

theorem Holds.alloc (h : Holds xs s)
    (hinv : Inv (⟨s.shared.alloc value, Function.update s.loc t
      (.push s.shared.nodes.length .loadTail)⟩ : State ι T)) :
    Holds xs (⟨s.shared.alloc value, Function.update s.loc t
      (.push s.shared.nodes.length .loadTail)⟩ : State ι T) := by
  refine h.after (fun a ⟨as, has⟩ => ⟨as, has.alloc⟩) hinv (h.valued.alloc value) trivial ?_
  obtain ⟨as, hchain, hvalues⟩ := h.chain
  refine ⟨as, hchain.congr fun b hb => link_alloc_of_lt (chain_mem_lt hchain hb), ?_⟩
  rw [← hvalues]
  refine List.map_congr_left fun b hb => ?_
  exact valueAt_alloc_of_lt (chain_mem_lt hchain (List.mem_cons_of_mem _ hb))

/-- A push takes effect when it links its node. -/
theorem Holds.storeNext {node tail : Nat} (h : Holds xs s)
    (hl : s.loc t = .push node (.storeNext tail)) (hnull : s.shared.link tail = some none)
    (hvalue : s.shared.valueAt node = some value)
    (hinv : Inv (⟨s.shared.storeNext tail node, Function.update s.loc t
      (.push node (.reloadNext tail))⟩ : State ι T)) :
    Holds (xs ++ [value]) (⟨s.shared.storeNext tail node, Function.update s.loc t
      (.push node (.reloadNext tail))⟩ : State ι T) := by
  obtain ⟨y, hy⟩ := h.inv
  have hg := hy.good
  have hok := hy.ok t
  rw [hl] at hok
  obtain ⟨⟨hlt, hnotMem⟩, htail⟩ := hok
  obtain ⟨_, l, hlast⟩ := hg.nothing_pending htail hnull
  have hmem : tail ∈ y.chain := by
    rw [hlast]
    exact List.mem_append_right _ List.mem_cons_self
  have hne : node ≠ tail := fun heq => hnotMem (heq ▸ hmem)
  have hfresh := hg.loose node hlt hnotMem
  have hahead : ∀ a as, Ahead s.shared a as →
      Ahead (s.shared.storeNext tail node) a (as ++ [node]) :=
    fun a as has => has.storeNext hg hlast hnull hne hfresh
  refine h.after (fun a ⟨as, has⟩ => ⟨_, hahead a as has⟩) hinv (h.valued.storeNext hl) trivial ?_
  obtain ⟨as, hchain, hvalues⟩ := h.chain
  refine ⟨as ++ [node], (hahead _ _ ⟨hchain, List.mem_cons_self⟩).1, ?_⟩
  have hsame : (s.shared.storeNext tail node).valueAt = s.shared.valueAt :=
    funext fun b => valueAt_storeNext
  rw [hsame, List.map_append, hvalues, List.map_append]
  simp [hvalue]

/-- A pop takes effect when it moves the head. -/
theorem Holds.storeHead {head next : Nat} {value : Option T} (h : Holds xs s)
    (hl : s.loc t = .pop (.storeHead head next value)) (hhead : s.shared.head = head)
    (hinv : Inv (⟨{ s.shared with head := next }, Function.update s.loc t
      (.pop (.subSize next value))⟩ : State ι T))
    (hvalued : Valued (⟨{ s.shared with head := next }, Function.update s.loc t
      (.pop (.subSize next value))⟩ : State ι T)) :
    ∃ x rest, xs = x :: rest ∧ value = some x ∧
      Holds rest (⟨{ s.shared with head := next }, Function.update s.loc t
        (.pop (.subSize next value))⟩ : State ι T) := by
  obtain ⟨y, hy⟩ := h.inv
  have hok := hy.ok t
  have hcall := h.valued.calls t
  rw [hl] at hok hcall
  obtain ⟨⟨x, hx⟩, rfl⟩ := hcall
  have hlink : s.shared.link s.shared.head = some (some next) := hhead ▸ hok
  obtain ⟨as, ⟨_, n, hn, hrest⟩, hvalues⟩ := h.chain
  have hnext : n = some next := Option.some.inj (hn.symm.trans hlink)
  cases as with
  | nil => exact absurd (hnext.symm.trans hrest) nofun
  | cons b bs =>
    obtain rfl : b = next := Option.some.inj (hrest.1.symm.trans hnext)
    cases xs with
    | nil => cases hvalues
    | cons v rest =>
      rw [List.map_cons, List.map_cons, hx] at hvalues
      obtain ⟨hv, hbehind⟩ := List.cons.inj hvalues
      cases hv
      refine ⟨x, rest, rfl, hx, h.after (fun a ⟨as, has⟩ => ⟨as, ?_⟩) hinv hvalued trivial
        ⟨bs, ?_, hbehind⟩⟩
      · exact has.storeHead hlink
      · rwa [hnext] at hrest

theorem Holds.accounts (h : Holds xs s)
    (hkeeps : s.shared.Keeps sh)
    (hcalls : ((s.loc t).opened s.shared).toList ++ ((s.loc t).called a).toList =
      (((s.loc t).point s.shared a).map Prod.fst).toList ++ (l.opened sh).toList)
    (hresults : ((s.loc t).decided s.shared).toList ++ ((s.loc t).point s.shared a).toList =
      ((s.loc t).returns w s.shared a).toList ++ (l.decided sh).toList) :
    Accounts (observation w) (fun s t => (s.loc t).opened s.shared)
      (fun s t => (s.loc t).decided s.shared) s (t, a)
      (⟨sh, Function.update s.loc t l⟩ : State ι T) :=
  accounts_update _ _ (fun u _ => (h.valued.calls u).books_eq hkeeps) hcalls hresults

attribute [local simp] Pc.opened Pc.decided Pc.called Pc.point Pc.returns Pc.after pushStep popStep

theorem holds_step {a : ι × Act T} (h : Holds xs s) (hcond : Undisturbed s a)
    (hstep : step w s a = some s') :
    Advances queueSpec Holds xs s' ((observation w).point s a) ∧
      Accounts (observation w) (fun s t => (s.loc t).opened s.shared)
        (fun s t => (s.loc t).decided s.shared) s a s' := by
  have hinv := inv_step h.inv hcond hstep
  have hvalued := valued_step h.valued hstep
  obtain ⟨t, c⟩ := a
  obtain ⟨sh, l, hp, rfl⟩ := interleave_eq_some.mp hstep
  have hcall := h.valued.calls t
  show Advances queueSpec Holds xs _ ((s.loc t).point s.shared c) ∧ _
  cases c with
  | call c =>
    cases hl : s.loc t with
    | push node pc =>
      rw [hl] at hp
      cases hp
    | pop pc =>
      rw [hl] at hp
      cases hp
    | idle =>
      rw [hl] at hp
      cases c with
      | push value =>
        cases hp
        refine ⟨h.alloc hinv, h.accounts (keeps_alloc s.shared value) ?_ ?_⟩
        · simp [hl, valueAt_alloc_self]
        · simp [hl]
      | pop =>
        cases hp
        refine ⟨h.quiet rfl rfl hinv hvalued trivial, h.accounts (keeps_refl _) ?_ ?_⟩
        · simp [hl]
        · simp [hl]
  | step =>
    obtain ⟨hpush, hpop⟩ := hcond rfl
    cases hl : s.loc t with
    | idle =>
      rw [hl] at hp
      cases hp
    | push node pc =>
      rw [hl] at hp hcall
      obtain ⟨value, hvalue⟩ := hcall
      cases pc with
      | loadTail =>
        cases hp
        refine ⟨h.quiet rfl rfl hinv hvalued trivial, h.accounts (keeps_refl _) ?_ ?_⟩
        · simp [hl]
        · simp [hl]
      | storeNext tail =>
        cases hp
        have hsame : (s.shared.storeNext tail node).valueAt = s.shared.valueAt :=
          funext fun b => valueAt_storeNext
        refine ⟨?_, h.accounts (keeps_storeNext s.shared tail node) ?_ ?_⟩
        · have hpoint : Pc.point s.shared (.push node (.storeNext tail)) .step =
              some (.push value, .pushed) := by simp [hvalue]
          rw [hpoint]
          exact ⟨rfl, h.storeNext hl (hpush node tail hl) hvalue hinv⟩
        · simp [hl, hvalue]
        · simp [hl, hvalue, hsame]
      | reloadNext tail =>
        obtain ⟨y, hy⟩ := h.inv
        obtain ⟨_, hnext⟩ := hy.reload hl
        simp only [program, pushStep, hnext, Option.join_some, Option.map_some] at hp
        cases hp
        refine ⟨h.quiet rfl rfl hinv hvalued trivial, h.accounts (keeps_refl _) ?_ ?_⟩
        · simp [hl]
        · simp [hl, hnext]
      | storeTail next =>
        cases hp
        refine ⟨h.quiet rfl rfl hinv hvalued trivial, h.accounts (keeps_refl _) ?_ ?_⟩
        · simp [hl]
        · simp [hl, Shared.valueAt]
      | addSize =>
        cases hp
        refine ⟨h.quiet rfl rfl hinv hvalued trivial, h.accounts (keeps_refl _) ?_ ?_⟩
        · simp [hl]
        · simp [hl]
    | pop pc =>
      rw [hl] at hp
      cases hp
      cases pc with
      | loadHead =>
        obtain ⟨as, hchain, _⟩ := h.chain
        refine ⟨h.quiet rfl rfl hinv hvalued ⟨_, hchain, List.mem_cons_self⟩,
          h.accounts (keeps_refl _) ?_ ?_⟩
        · simp [hl]
        · simp [hl]
      | loadNext head =>
        have hknows := h.knows t
        rw [hl] at hknows
        obtain ⟨as, hahead⟩ := hknows
        obtain ⟨n, hn⟩ := hahead.1.exists_next hahead.mem
        cases n with
        | none =>
          have hhead := hahead.eq_head hn
          have hempty := h.eq_nil (hhead ▸ hn)
          subst hempty
          have hpoint : Pc.point s.shared (.pop (.loadNext head)) .step =
              some (.pop, .popped (none : Option T)) := by simp [hn]
          refine ⟨?_, h.accounts (by simp [hn, keeps_refl]) ?_ ?_⟩
          · rw [hpoint]
            exact ⟨rfl, h.quiet (by simp [hn]) (by simp [hn]) hinv hvalued
              (by simp [hn, Pc.Knows])⟩
          · simp [hl, hn]
          · simp [hl, hn]
        | some next =>
          have hpoint : Pc.point s.shared (.pop (.loadNext head)) .step = none := by
            simp [hn]
          refine ⟨?_, h.accounts (by simp [hn, keeps_refl]) ?_ ?_⟩
          · rw [hpoint]
            exact h.quiet (by simp [hn]) (by simp [hn]) hinv hvalued
              (by simp [hn, Pc.Knows])
          · simp [hl, hn]
          · simp [hl, hn]
      | readValue head next =>
        refine ⟨h.quiet rfl rfl hinv hvalued trivial, h.accounts (keeps_refl _) ?_ ?_⟩
        · simp [hl]
        · simp [hl]
      | storeHead head next value =>
        obtain ⟨x, rest, rfl, rfl, hrest⟩ :=
          h.storeHead hl (hpop head next value hl) hinv hvalued
        refine ⟨⟨rfl, hrest⟩, h.accounts (keeps_refl _) ?_ ?_⟩
        · simp [hl]
        · simp [hl]
      | subSize next value =>
        refine ⟨h.quiet rfl rfl hinv hvalued trivial, h.accounts (keeps_refl _) ?_ ?_⟩
        · simp [hl]
        · simp [hl]

/-- **An undisturbed run is linearizable.** -/
theorem undisturbed_linearizable {as : List (ι × Act T)}
    (hcond : Along (step w) Undisturbed (init : State ι T) as)
    (hrun : run (step w) init as = some s) :
    Linearizable (step w) (observation w) queueSpec [] (init : State ι T) as :=
  linearizable_of_simulation (fun _ _ _ _ h hC hstep => holds_step h hC hstep)
    (fun _ => ⟨rfl, rfl⟩) holds_init hcond hrun

end Steps

/-! ### One producer and one consumer -/

section Alone

variable {s s' : State Role T} {xs : List T} {sh : Shared T} {l : Pc T}

/-- The node to which the next push of the producer links its own. -/
def Pc.last (sh : Shared T) : Pc T → Nat
  | .push _ (.storeNext tail) => tail
  | .push node (.reloadNext _) => node
  | .push _ (.storeTail next) => next
  | _ => sh.tail

/-- The head that a running pop has loaded. -/
def Pc.loaded : Pc T → Option Nat
  | .pop (.loadNext head) => some head
  | .pop (.readValue head _) => some head
  | .pop (.storeHead head _ _) => some head
  | _ => none

def Pc.pops : Pc T → Bool
  | .pop _ => true
  | _ => false

/-- Only the producer links nodes and only the consumer moves the head. -/
structure Alone (s : State Role T) : Prop where
  pushes : (s.loc .producer).pops = false
  pops : (s.loc .consumer).pushing = none
  last : s.shared.link ((s.loc .producer).last s.shared) = some none
  loaded : ∀ head, (s.loc .consumer).loaded = some head → s.shared.head = head

theorem alone_init : Alone (init : State Role T) := ⟨rfl, rfl, rfl, nofun⟩

theorem Alone.undisturbed (h : Alone s) (a : Role × Act T) : Undisturbed s a := by
  obtain ⟨t, c⟩ := a
  intro _
  cases t with
  | producer =>
    refine ⟨fun node tail hl => ?_, fun head next value hl => ?_⟩
    · have hlast := h.last
      rwa [hl] at hlast
    · have hpushes := h.pushes
      rw [hl] at hpushes
      cases hpushes
  | consumer =>
    refine ⟨fun node tail hl => ?_, fun head next value hl => ?_⟩
    · have hpops := h.pops
      rw [hl] at hpops
      cases hpops
    · exact h.loaded head (by rw [hl]; rfl)

theorem Alone.produce (h : Alone s) (hhead : sh.head = s.shared.head) (hl : l.pops = false)
    (hlast : sh.link (l.last sh) = some none) :
    Alone ⟨sh, Function.update s.loc .producer l⟩ := by
  have hother : Function.update s.loc .producer l .consumer = s.loc .consumer :=
    Function.update_of_ne (by decide) _ _
  refine ⟨?_, ?_, ?_, fun head hloaded => ?_⟩
  · simpa using hl
  · simpa [hother] using h.pops
  · simpa using hlast
  · simp only [hother] at hloaded
    exact hhead.trans (h.loaded head hloaded)

theorem Alone.consume (h : Alone s) (hnodes : sh.nodes = s.shared.nodes)
    (htail : sh.tail = s.shared.tail) (hl : l.pushing = none)
    (hloaded : ∀ head, l.loaded = some head → sh.head = head) :
    Alone ⟨sh, Function.update s.loc .consumer l⟩ := by
  have hother : Function.update s.loc .consumer l .producer = s.loc .producer :=
    Function.update_of_ne (by decide) _ _
  have hlast : (s.loc .producer).last sh = (s.loc .producer).last s.shared := by
    unfold Pc.last
    rw [htail]
  have hlink : sh.link = s.shared.link := by
    unfold Shared.link
    rw [hnodes]
  refine ⟨?_, ?_, ?_, ?_⟩
  · simpa [hother] using h.pushes
  · simpa using hl
  · simpa [hother, hlast, hlink] using h.last
  · simpa using hloaded

theorem Alone.producerStep {c : Act T} (h : Alone s) (hinv : Inv s)
    (hperm : permitted (Role.producer, c) = true)
    (hp : program w Role.producer s.shared (s.loc .producer) c = some (sh, l)) :
    Alone ⟨sh, Function.update s.loc .producer l⟩ := by
  obtain ⟨y, hy⟩ := hinv
  have hok := hy.ok .producer
  have hlast := h.last
  cases hl : s.loc .producer with
  | idle =>
    rw [hl] at hp hlast
    cases c with
    | step => cases hp
    | call c =>
      cases c with
      | pop => cases hperm
      | push value =>
        cases hp
        exact h.produce rfl rfl ((link_alloc_of_lt (lt_of_link hlast)).trans hlast)
  | pop pc =>
    have hpushes := h.pushes
    rw [hl] at hpushes
    cases hpushes
  | push node pc =>
    rw [hl] at hp hlast hok
    cases c with
    | call c => cases hp
    | step =>
      cases pc with
      | loadTail =>
        cases hp
        exact h.produce rfl rfl hlast
      | storeNext tail =>
        cases hp
        obtain ⟨⟨hlt, hnotMem⟩, htail⟩ := hok
        have hne : node ≠ tail := by
          rintro rfl
          exact hnotMem (hy.good.published ▸ List.mem_append_left _ htail)
        exact h.produce rfl rfl ((link_storeNext_ne hne).trans (hy.good.loose node hlt hnotMem))
      | reloadNext tail =>
        obtain ⟨_, hnext⟩ := hy.reload hl
        simp only [program, pushStep, hnext, Option.join_some, Option.map_some] at hp
        cases hp
        exact h.produce rfl rfl hlast
      | storeTail next =>
        cases hp
        exact h.produce rfl rfl hlast
      | addSize =>
        cases hp
        exact h.produce rfl rfl hlast

theorem Alone.consumerStep {c : Act T} (h : Alone s)
    (hperm : permitted (Role.consumer, c) = true)
    (hp : program w Role.consumer s.shared (s.loc .consumer) c = some (sh, l)) :
    Alone ⟨sh, Function.update s.loc .consumer l⟩ := by
  have hloaded := h.loaded
  cases hl : s.loc .consumer with
  | idle =>
    rw [hl] at hp
    cases c with
    | step => cases hp
    | call c =>
      cases c with
      | push value => cases hperm
      | pop =>
        cases hp
        exact h.consume rfl rfl rfl (by rintro _ ⟨⟩)
  | push node pc =>
    have hpops := h.pops
    rw [hl] at hpops
    cases hpops
  | pop pc =>
    rw [hl] at hp hloaded
    cases c with
    | call c => cases hp
    | step =>
      cases hp
      cases pc with
      | loadHead => exact h.consume rfl rfl rfl fun head heq => Option.some.inj heq
      | loadNext head =>
        rw [popStep]
        cases (s.shared.link head).join with
        | none => exact h.consume rfl rfl rfl (by rintro _ ⟨⟩)
        | some next => exact h.consume rfl rfl rfl hloaded
      | readValue head next => exact h.consume rfl rfl rfl hloaded
      | storeHead head next value => exact h.consume rfl rfl rfl (by rintro _ ⟨⟩)
      | subSize next value => exact h.consume rfl rfl rfl (by rintro _ ⟨⟩)

theorem alone_step {a : Role × Act T} (h : Alone s) (hinv : Inv s)
    (hstep : spscStep w s a = some s') : Alone s' := by
  obtain ⟨hperm, sh, l, hp, rfl⟩ := spscStep_eq_some.mp hstep
  obtain ⟨t, c⟩ := a
  cases t with
  | producer => exact h.producerStep hinv hperm hp
  | consumer => exact h.consumerStep hperm hp

theorem spscStep_sub {a : Role × Act T} (hstep : spscStep w s a = some s') :
    step w s a = some s' := by
  unfold spscStep at hstep
  split at hstep
  · exact hstep
  · cases hstep

theorem aloneHolds_step {a : Role × Act T} (h : Holds xs s ∧ Alone s)
    (hstep : spscStep w s a = some s') :
    Advances queueSpec (fun xs s => Holds xs s ∧ Alone s) xs s' ((observation w).point s a) ∧
      Accounts (observation w) (fun s t => (s.loc t).opened s.shared)
        (fun s t => (s.loc t).decided s.shared) s a s' := by
  obtain ⟨hholds, halone⟩ := h
  have hkept := alone_step halone hholds.inv hstep
  obtain ⟨hadvances, haccounts⟩ :=
    holds_step hholds (halone.undisturbed a) (spscStep_sub hstep)
  exact ⟨hadvances.mono fun _ hxs => ⟨hxs, hkept⟩, haccounts⟩

/-- **One producer and one consumer**: every run is linearizable and delivers every value once. -/
theorem spsc_linearizable {as : List (Role × Act T)} (hrun : run (spscStep w) init as = some s) :
    Linearizable (spscStep w) (observation w) queueSpec [] (init : State Role T) as ∧
      DeliveredOnce s := by
  have hinit : Holds [] (init : State Role T) ∧ Alone (init : State Role T) :=
    ⟨holds_init, alone_init⟩
  constructor
  · exact linearizable_of_simulation (fun _ _ _ _ h _ hstep => aloneHolds_step h hstep)
      (fun _ => ⟨rfl, rfl⟩) hinit (along_of_forall (fun _ _ => trivial) _ _) hrun
  · have hkeep : ∀ (s : State Role T) a s', (∃ xs, Holds xs s ∧ Alone s) →
        spscStep w s a = some s' → ∃ xs, Holds xs s' ∧ Alone s' :=
      fun _ _ _ ⟨_, h⟩ hstep => exists_of_advances (aloneHolds_step h hstep).1
    obtain ⟨xs, hholds, _⟩ := run_invariant hkeep ⟨[], hinit⟩ hrun
    obtain ⟨y, hy⟩ := hholds.inv
    exact hy.deliveredOnce

end Alone

/-! ### Runs -/

section Runs

/-- Two pushes, one after the other, and a pop that has loaded the head before the first. -/
def headLoadedFirst : List (Bool × Act Nat) :=
  (true, Act.call .pop) :: (true, Act.step) ::
    ((false, Act.call (.push 7)) :: List.replicate 5 (false, Act.step)) ++
      ((false, Act.call (.push 8)) :: List.replicate 3 (false, Act.step)) ++
        List.replicate 4 (true, Act.step) ++ List.replicate 2 (false, Act.step)

theorem undisturbed_linearizable_headLoadedFirst :
    (trace (step 64) (observation 64).ret init headLoadedFirst).map
        (fun e => (e.1, e.2.2)) = [(false, .pushed), (true, .popped (some 7)), (false, .pushed)] ∧
      Linearizable (step 64) (observation 64) queueSpec [] init headLoadedFirst := by
  have hrun : (run (step 64) init headLoadedFirst).isSome := by decide
  obtain ⟨s, hs⟩ := Option.isSome_iff_exists.mp hrun
  exact ⟨by decide, undisturbed_linearizable (by decide +kernel) hs⟩

theorem spsc_linearizable_takenEarly :
    (trace (spscStep 64) (observation 64).ret init (takenEarly ++ [(Role.consumer, Act.step),
        (Role.producer, Act.step)])).map (fun e => (e.1, e.2.2)) =
          [(.consumer, .popped (some 7)), (.producer, .pushed)] ∧
      Linearizable (spscStep 64) (observation 64) queueSpec [] init
        (takenEarly ++ [(Role.consumer, Act.step), (Role.producer, Act.step)]) := by
  have hrun : (run (spscStep 64) init (takenEarly ++ [(Role.consumer, Act.step),
      (Role.producer, Act.step)])).isSome := by decide
  obtain ⟨s, hs⟩ := Option.isSome_iff_exists.mp hrun
  exact ⟨by decide, (spsc_linearizable hs).1⟩

end Runs

end VelocityX.Unbounded.Threads
