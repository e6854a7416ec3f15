import Mathlib.Data.Fintype.Basic
import VelocityX.Stack.LockFreeAba

/-!
# The length of the lock-free stack

`len` of `LockFreeStack` in `src/stack/lock_free.rs` loads `head` and walks along the `next`
pointers while other threads go on.  Pushes only put nodes in front of the ones that it still has
to count, so it returns the number of nodes of the stack at the instant at which it loaded
`head`.  A pop may release the node that `len` is at; no pop takes a node off the stack meanwhile
when the threads that pop are those that call `len`.
-/

namespace VelocityX.LockFreeStack.Threads

open Transition Linked

variable {ι ρ A T : Type*}

/-! ### Readers -/

/-- `start` is ghost: the memory when the call loaded `head`. -/
inductive LenPc (A T : Type*) where
  | loadHead
  | walk (start : Shared A T) (current : Option A) (count : Nat)

def LenPc.walks : LenPc A T → Bool
  | .loadHead => false
  | .walk _ _ _ => true

/-- A call that returns emits its start and what it has counted. -/
def lenStep (sh : Shared A T) : LenPc A T → Option (LenPc A T × List (Shared A T × Nat))
  | .loadHead => some (.walk sh sh.head 0, [])
  | .walk start none count => some (.loadHead, [(start, count)])
  | .walk start (some a) count =>
      (sh.mem a).map fun node => (.walk start node.next (count + 1), [])

/-- The stack and its threads, with readers; `lens` lists what their calls have returned. -/
structure Observed (ι ρ A T : Type*) where
  stack : State ι A T
  reader : ρ → LenPc A T
  lens : List (Shared A T × Nat)

def Observed.init : Observed ι ρ A T := ⟨Threads.init, fun _ => .loadHead, []⟩

def observedStep [DecidableEq A] [DecidableEq ι] [DecidableEq ρ] (s : Observed ι ρ A T) :
    (ι × Act A T) ⊕ ρ → Option (Observed ι ρ A T)
  | .inl a => (step s.stack a).map fun stack => { s with stack := stack }
  | .inr r => (lenStep s.stack.shared (s.reader r)).map fun next =>
      { s with reader := Function.update s.reader r next.1, lens := s.lens ++ next.2 }

/-- Every length returned was that of the stack when its call loaded `head`. -/
def LensExact (s : Observed ι ρ A T) : Prop :=
  ∀ e ∈ s.lens, ∃ as, Chain e.1.next e.1.head as ∧ e.2 = as.length

/-- The node that a call of `len` reads next is allocated. -/
def WalksAllocated (s : Observed ι ρ A T) : Prop :=
  ∀ r start a count, s.reader r = .walk start (some a) count → s.stack.shared.live a = true

/-- The thread is about to take the head off the stack. -/
def Unlinks [DecidableEq A] (s : State ι A T) : ι × Act A T → Bool
  | (t, .step) =>
      match s.loc t with
      | .pop (.cas head _ _) => s.shared.head = some head
      | _ => false
  | _ => false

/-- No pop meets a reused node, and none takes a node off while a call of `len` walks. -/
def Unpopped [DecidableEq A] (s : Observed ι ρ A T) : (ι × Act A T) ⊕ ρ → Prop
  | .inl a => NotReused s.stack a ∧ (Unlinks s.stack a = true → ∀ r, (s.reader r).walks = false)
  | .inr _ => True

instance [DecidableEq A] [Fintype ρ] (s : Observed ι ρ A T) :
    (a : (ι × Act A T) ⊕ ρ) → Decidable (Unpopped s a)
  | .inl a => inferInstanceAs (Decidable (NotReused s.stack a ∧
      (Unlinks s.stack a = true → ∀ r, (s.reader r).walks = false)))
  | .inr _ => .isTrue trivial

/-! ### The invariant -/

/-- The nodes of the stack are some that were pushed since the call began, those that it has
    counted, and the rest. -/
def LenPc.Ok (sh : Shared A T) (as : List A) : LenPc A T → Prop
  | .loadHead => True
  | .walk start current count => ∃ front counted rest, as = front ++ (counted ++ rest) ∧
      counted.length = count ∧ Chain sh.next current rest ∧
        Chain start.next start.head (counted ++ rest)

structure ObservedAt (as : List A) (s : Observed ι ρ A T) : Prop where
  inv : InvAt as s.stack
  walks : ∀ r, (s.reader r).Ok s.stack.shared as
  lens : LensExact s

theorem observedAt_init : ObservedAt [] (Observed.init : Observed ι ρ A T) :=
  ⟨invAt_init, fun _ => trivial, by rintro _ ⟨⟩⟩

theorem ObservedAt.walksAllocated {as : List A} {s : Observed ι ρ A T} (h : ObservedAt as s) :
    WalksAllocated s := by
  intro r start a count hr
  have hok := h.walks r
  rw [hr] at hok
  obtain ⟨front, counted, rest, rfl, _, hchain, _⟩ := hok
  cases rest with
  | nil => cases hchain
  | cons b rest =>
    cases hchain.1
    exact h.inv.stack_live a (by simp)

section Steps

variable [DecidableEq A] [DecidableEq ι] {as as' : List A} {sh sh' : Shared A T} {l : Pc A T}
variable {act : Act A T} {pc : LenPc A T}

omit [DecidableEq A] [DecidableEq ι] in
/-- Nodes are pushed in front of those that a call has to count. -/
theorem LenPc.Ok.push {head : Option A} {front : List A} (h : pc.Ok sh as)
    (hchain : Chain sh'.next head (front ++ as)) : pc.Ok sh' (front ++ as) := by
  cases pc with
  | loadHead => trivial
  | walk start current count =>
    obtain ⟨front', counted, rest, rfl, hcount, hrest, hstart⟩ := h
    refine ⟨front ++ front', counted, rest, by simp, hcount, ?_, hstart⟩
    cases rest with
    | nil => exact hrest
    | cons b rest =>
      obtain ⟨rfl, _⟩ := hrest
      have hassoc : front ++ (front' ++ (counted ++ b :: rest)) =
          (front ++ front' ++ counted) ++ b :: rest := by simp
      rw [hassoc] at hchain
      exact hchain.of_append

omit [DecidableEq ι] in
/-- What a step does to the nodes of the stack. -/
theorem stackAfter_cases {s : State ι A T} {t : ι} (as : List A)
    (hunlinks : Unlinks s (t, act) = false) :
    ∃ front, stackAfter s.shared as (s.loc t) act = front ++ as := by
  cases hl : s.loc t with
  | idle => exact ⟨[], rfl⟩
  | push pc =>
    cases pc with
    | cas a head =>
      cases act with
      | step =>
        by_cases hhead : s.shared.head = head
        · exact ⟨[a], if_pos hhead⟩
        · exact ⟨[], if_neg hhead⟩
      | _ => exact ⟨[], rfl⟩
    | _ => exact ⟨[], rfl⟩
  | pop pc =>
    cases pc with
    | cas head next seen =>
      cases act with
      | step =>
        have hhead : ¬ s.shared.head = some head := by simpa [Unlinks, hl] using hunlinks
        exact ⟨[], if_neg hhead⟩
      | _ => exact ⟨[], rfl⟩
    | _ => exact ⟨[], rfl⟩

variable [DecidableEq ρ] {s s' : Observed ι ρ A T}

theorem ObservedAt.stackStep {a : ι × Act A T} (h : ObservedAt as s) (hcond : Unpopped s (.inl a))
    (hstep : observedStep s (.inl a) = some s') : ∃ as', ObservedAt as' s' := by
  obtain ⟨hreused, hwalks⟩ := hcond
  obtain ⟨m, hm, rfl⟩ := Option.map_eq_some_iff.mp hstep
  obtain ⟨t, act⟩ := a
  obtain ⟨sh, l, hp, rfl⟩ := interleave_eq_some.mp hm
  have hnext := h.inv.effect rfl (installsCurrentNext h.inv hreused) (program_effect hp)
  refine ⟨_, hnext, fun r => ?_, h.lens⟩
  cases hunlinks : Unlinks s.stack (t, act) with
  | true =>
    have hidle := hwalks hunlinks r
    show (s.reader r).Ok _ _
    cases hr : s.reader r with
    | loadHead => trivial
    | walk start current count =>
      rw [hr] at hidle
      cases hidle
  | false =>
    obtain ⟨front, hfront⟩ := stackAfter_cases as hunlinks
    have hchain := hnext.chain
    rw [hfront] at hchain ⊢
    exact (h.walks r).push hchain

theorem ObservedAt.readerStep {r : ρ} (h : ObservedAt as s)
    (hstep : observedStep s (.inr r) = some s') : ObservedAt as s' := by
  obtain ⟨⟨pc, returned⟩, hpc, rfl⟩ := Option.map_eq_some_iff.mp hstep
  have hok := h.walks r
  suffices hnext : pc.Ok s.stack.shared as ∧
      ∀ e ∈ returned, ∃ as, Chain e.1.next e.1.head as ∧ e.2 = as.length by
    refine ⟨h.inv, ?_, fun e he => ?_⟩
    · exact (Function.forall_update_iff s.reader fun _ pc => pc.Ok s.stack.shared as).mpr
        ⟨hnext.1, fun u _ => h.walks u⟩
    · exact (List.mem_append.mp he).elim (h.lens e) (hnext.2 e)
  cases hr : s.reader r with
  | loadHead =>
    rw [hr] at hpc
    cases hpc
    exact ⟨⟨[], [], as, rfl, rfl, h.inv.chain, h.inv.chain⟩, by rintro _ ⟨⟩⟩
  | walk start current count =>
    rw [hr] at hpc hok
    obtain ⟨front, counted, rest, rfl, hcount, hrest, hstart⟩ := hok
    cases current with
    | none =>
      cases hpc
      refine ⟨trivial, fun e he => ?_⟩
      rw [List.mem_singleton.mp he]
      cases rest with
      | nil => exact ⟨counted ++ [], hstart, by simp [hcount]⟩
      | cons b rest => cases hrest.1
    | some a =>
      obtain ⟨node, hnode, heq⟩ := Option.map_eq_some_iff.mp hpc
      cases heq
      refine ⟨?_, by rintro _ ⟨⟩⟩
      cases rest with
      | nil => cases hrest
      | cons b rest =>
        obtain ⟨hb, n, hn, hbehind⟩ := hrest
        cases hb
        have hnext : n = node.next := by
          rw [Shared.next, hnode] at hn
          exact (Option.some.inj hn).symm
        subst hnext
        exact ⟨front, counted ++ [a], rest, by simp, by simp [hcount], hbehind,
          by simpa using hstart⟩

/-- **`len` is exact**: it returns the number of nodes that the stack had when it loaded `head`,
    and reads allocated nodes only. -/
theorem len_exact {bs : List ((ι × Act A T) ⊕ ρ)}
    (hcond : Along observedStep Unpopped (Observed.init : Observed ι ρ A T) bs)
    (hrun : run observedStep (Observed.init : Observed ι ρ A T) bs = some s) :
    LensExact s ∧ WalksAllocated s := by
  have hkeep : ∀ (s : Observed ι ρ A T) a s', (∃ as, ObservedAt as s) → Unpopped s a →
      observedStep s a = some s' → ∃ as, ObservedAt as s' := by
    intro s a s' ⟨as, hs⟩ hC hm
    cases a with
    | inl a => exact hs.stackStep hC hm
    | inr r => exact ⟨as, hs.readerStep hm⟩
  obtain ⟨as, h⟩ := run_invariant_along hkeep ⟨[], observedAt_init⟩ hcond hrun
  exact ⟨h.lens, h.walksAllocated⟩

end Steps

/-! ### Runs -/

section Runs

def pushAt (a value : Nat) : List ((Unit × Act Nat Nat) ⊕ Unit) :=
  [.call (.push value), .alloc a, .step, .step, .step].map fun act => .inl ((), act)

/-- A push while a call of `len` walks, a second call, and a pop. -/
def pushedMeanwhile : List ((Unit × Act Nat Nat) ⊕ Unit) :=
  pushAt 0 7 ++ [Sum.inr ()] ++ pushAt 1 8 ++ List.replicate 6 (Sum.inr ()) ++
    [Act.call .pop, Act.step, Act.step, Act.step, Act.step].map fun act => Sum.inl ((), act)

theorem len_exact_pushedMeanwhile :
    ∃ s : Observed Unit Unit Nat Nat, run observedStep Observed.init pushedMeanwhile = some s ∧
      s.lens.map Prod.snd = [1, 2] ∧ LensExact s ∧ WalksAllocated s := by
  have hrun : (run observedStep (Observed.init : Observed Unit Unit Nat Nat) pushedMeanwhile).map
      (fun s => s.lens.map Prod.snd) = some [1, 2] := by decide
  obtain ⟨s, hs, hlens⟩ := Option.map_eq_some_iff.mp hrun
  exact ⟨s, hs, hlens, len_exact (by decide) hs⟩

end Runs

end VelocityX.LockFreeStack.Threads
