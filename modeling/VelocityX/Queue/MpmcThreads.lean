import Mathlib.Data.Fintype.Basic
import VelocityX.Lib.Linearization
import VelocityX.Queue.Mpmc

/-!
# The lock-free bounded queue under interleaving

Any number of threads run `push` and `pop` of the bounded `MpmcQueue` of
`src/queue/mpmc.rs` on one queue.  A step is one load or store of `head`, `tail` or a
slot, or the increment of `generation`; steps are sequentially consistent.

A box is identified by the push call that allocated it: its ticket is the number of
push calls before that one.  The shared state carries ghost logs that no step reads:
`placed` lists the boxes in the order in which they were stored into slots, `accepted`
those whose push returned `Ok`, and `returned` those handed out, and thereby freed, by
a pop; by `logs_eq` the values of the last two are what the calls returned.

`push` and `pop` store an index they have loaded some steps before, so two calls that
work on the same index can lose or duplicate a value; `Undisturbed` excludes that.
-/

namespace VelocityX.Mpmc.Threads

open Transition Linearization

variable {ι T : Type*} {w cap : Nat}

structure Box (T : Type*) where
  ticket : Nat
  value : T
deriving DecidableEq

structure Shared (T : Type*) where
  buffer : List (Option (Box T))
  capacity : Nat
  mask : Nat
  head : Nat
  tail : Nat
  generation : Nat
  pushes : Nat
  placed : List (Box T)
  accepted : List (Box T)
  returned : List (Box T)

/-- The shared memory of a queue that has just been created. -/
def Shared.new (q : MpmcQueue T) : Shared T :=
  ⟨List.replicate q.capacity none, q.capacity, q.mask, q.head, q.tail, q.generation, 0, [], [], []⟩

/-! ### The two operations, one step at a time -/

inductive PushPc where
  | loadHead
  | loadTail (head : Nat)
  | storeSlot (tail : Nat)
  | storeTail (tail : Nat)
  | addGeneration
deriving DecidableEq

def pushStep (w : Nat) (box : Box T) (sh : Shared T) :
    PushPc → Shared T × Next PushPc (Except PushFailure Unit)
  | .loadHead => (sh, .goto (.loadTail sh.head))
  | .loadTail head =>
      if Word.add w sh.tail 1 &&& sh.mask = head then
        (sh, .ret (.error (.returned .capacityExceeded)))
      else
        (sh, .goto (.storeSlot sh.tail))
  | .storeSlot tail =>
      if tail &&& sh.mask < sh.buffer.length then
        ({ sh with buffer := sh.buffer.set (tail &&& sh.mask) (some box),
                   placed := sh.placed ++ [box] }, .goto (.storeTail tail))
      else
        (sh, .ret (.error .indexOutOfBounds))
  | .storeTail tail => ({ sh with tail := Word.add w tail 1 }, .goto .addGeneration)
  | .addGeneration =>
      ({ sh with generation := Word.add 64 sh.generation 1, accepted := sh.accepted ++ [box] },
        .ret (.ok ()))

inductive PopPc (T : Type*) where
  | loadTail
  | loadHead (tail : Nat)
  | loadSlot (head : Nat)
  | storeHead (head : Nat) (ptr : Box T)
  | clearSlot (head : Nat) (ptr : Box T)
  | reclaim (ptr : Box T)
deriving DecidableEq

def popStep (w : Nat) (sh : Shared T) : PopPc T → Shared T × Next (PopPc T) (Option T)
  | .loadTail => (sh, .goto (.loadHead sh.tail))
  | .loadHead tail =>
      if sh.head = tail then (sh, .ret none) else (sh, .goto (.loadSlot sh.head))
  | .loadSlot head =>
      match sh.buffer[head &&& sh.mask]?.join with
      | none => (sh, .ret none)
      | some ptr => (sh, .goto (.storeHead head ptr))
  | .storeHead head ptr => ({ sh with head := Word.add w head 1 }, .goto (.clearSlot head ptr))
  | .clearSlot head ptr =>
      ({ sh with buffer := sh.buffer.set (head &&& sh.mask) none }, .goto (.reclaim ptr))
  | .reclaim ptr =>
      -- `Box::from_raw`, and the increment of the generation before the return
      ({ sh with generation := Word.add 64 sh.generation 1, returned := sh.returned ++ [ptr] },
        .ret (some ptr.value))

/-! ### Threads -/

inductive Call (T : Type*) where
  | push (value : T)
  | pop

inductive Pc (T : Type*) where
  | idle
  | push (box : Box T) (pc : PushPc)
  | pop (pc : PopPc T)
deriving DecidableEq

def Pc.after {P R : Type*} (inside : P → Pc T) : Next P R → Pc T
  | .goto pc => inside pc
  | .ret _ => .idle

inductive Act (T : Type*) where
  | call (c : Call T)
  | step

def program (w : Nat) (_t : ι) (sh : Shared T) (l : Pc T) : Act T → Option (Shared T × Pc T)
  | .call c =>
      match l, c with
      | .idle, .push value =>
          some ({ sh with pushes := sh.pushes + 1 }, .push ⟨sh.pushes, value⟩ .loadHead)
      | .idle, .pop => some (sh, .pop .loadTail)
      | _, _ => none
  | .step =>
      match l with
      | .idle => none
      | .push box pc =>
          some ((pushStep w box sh pc).1, .after (.push box) (pushStep w box sh pc).2)
      | .pop pc => some ((popStep w sh pc).1, .after .pop (popStep w sh pc).2)

abbrev State (ι T : Type*) := Threads ι (Shared T) (Pc T)

def init (q : MpmcQueue T) : State ι T := ⟨Shared.new q, fun _ => .idle⟩

abbrev step [DecidableEq ι] (w : Nat) : State ι T → ι × Act T → Option (State ι T) :=
  interleave (program w)

/-! ### What the calls return -/

/-- The value of a push that returns `Ok` with this step. -/
def acknowledged (w : Nat) (s : State ι T) (a : ι × Act T) : Option T :=
  match s.loc a.1, a.2 with
  | .push box pc, .step =>
      match (pushStep w box s.shared pc).2 with
      | .ret (.ok ()) => some box.value
      | _ => none
  | _, _ => none

/-- The value that a pop returns with this step. -/
def handedOut (w : Nat) (s : State ι T) (a : ι × Act T) : Option T :=
  match s.loc a.1, a.2 with
  | .pop pc, .step =>
      match (popStep w s.shared pc).2 with
      | .ret value => value
      | .goto _ => none
  | _, _ => none

section Logs

variable [DecidableEq ι] {s s' : State ι T}

/-- A step extends the logs by what it returns. -/
theorem logs_step {a : ι × Act T} (hstep : step w s a = some s') :
    s'.shared.accepted.map Box.value =
        s.shared.accepted.map Box.value ++ (acknowledged w s a).toList ∧
      s'.shared.returned.map Box.value =
        s.shared.returned.map Box.value ++ (handedOut w s a).toList := by
  obtain ⟨t, c⟩ := a
  obtain ⟨sh, l, hp, rfl⟩ := interleave_eq_some.mp hstep
  cases c with
  | call c =>
    cases hl : s.loc t <;> cases c <;> rw [hl] at hp <;> cases hp <;>
      simp [acknowledged, handedOut, hl]
  | step =>
    cases hl : s.loc t with
    | idle =>
      rw [hl] at hp
      cases hp
    | push box pc =>
      rw [hl] at hp
      cases hp
      cases pc with
      | loadTail head =>
        by_cases hfull : Word.add w s.shared.tail 1 &&& s.shared.mask = head <;>
          simp [acknowledged, handedOut, hl, pushStep, hfull]
      | storeSlot tail =>
        by_cases hslot : tail &&& s.shared.mask < s.shared.buffer.length <;>
          simp [acknowledged, handedOut, hl, pushStep, hslot]
      | loadHead => simp [acknowledged, handedOut, hl, pushStep]
      | storeTail tail => simp [acknowledged, handedOut, hl, pushStep]
      | addGeneration => simp [acknowledged, handedOut, hl, pushStep]
    | pop pc =>
      rw [hl] at hp
      cases hp
      cases pc with
      | loadHead tail =>
        by_cases hempty : s.shared.head = tail <;>
          simp [acknowledged, handedOut, hl, popStep, hempty]
      | loadSlot head =>
        cases hslot : s.shared.buffer[head &&& s.shared.mask]?.join <;>
          simp [acknowledged, handedOut, hl, popStep, hslot]
      | loadTail => simp [acknowledged, handedOut, hl, popStep]
      | storeHead head ptr => simp [acknowledged, handedOut, hl, popStep]
      | clearSlot head ptr => simp [acknowledged, handedOut, hl, popStep]
      | reclaim ptr => simp [acknowledged, handedOut, hl, popStep]

/-- **The logs are what the calls returned**: `accepted` lists the values of the pushes that
    returned `Ok`, and `returned` those that the pops returned. -/
theorem logs_eq {q : MpmcQueue T} {as : List (ι × Act T)}
    (hrun : run (step w) (init q) as = some s) :
    (trace (step w) (acknowledged w) (init q) as).map Prod.snd =
        s.shared.accepted.map Box.value ∧
      (trace (step w) (handedOut w) (init q) as).map Prod.snd =
        s.shared.returned.map Box.value := by
  have haccepted := trace_log (g := fun s : State ι T => s.shared.accepted.map Box.value)
    (fun _ _ _ hstep => (logs_step hstep).1) hrun
  have hreturned := trace_log (g := fun s : State ι T => s.shared.returned.map Box.value)
    (fun _ _ _ hstep => (logs_step hstep).2) hrun
  exact ⟨haccepted.symm, hreturned.symm⟩

end Logs

/-! ### Delivery -/

/-- No box is handed out twice, and once all calls have returned every accepted box has
    been handed out or is in the slot of an index in `[head, tail)`. -/
structure DeliveredOnce (s : State ι T) : Prop where
  returned_once : s.shared.returned.Nodup
  kept : (∀ t, s.loc t = .idle) → ∀ box ∈ s.shared.accepted, box ∈ s.shared.returned ∨
    ∃ i, s.shared.head ≤ i ∧ i < s.shared.tail ∧
      s.shared.buffer[i &&& s.shared.mask]? = some (some box)

/-- No two calls work on the same index: a push stores into a slot only if `tail` is still
    what it loaded and no other push is between its two stores, and a pop loads a slot
    only if no other pop is between its load of that slot and its clearing of it. -/
def Undisturbed (s : State ι T) (a : ι × Act T) : Prop :=
  a.2 = .step →
    (∀ box tail, s.loc a.1 = .push box (.storeSlot tail) →
      s.shared.tail = tail ∧ ∀ u box' tail', s.loc u ≠ .push box' (.storeTail tail')) ∧
    (∀ head, s.loc a.1 = .pop (.loadSlot head) →
      ∀ u ptr, s.loc u ≠ .pop (.storeHead head ptr) ∧ s.loc u ≠ .pop (.clearSlot head ptr))

instance : (l : Pc T) → Decidable (∀ box tail, l ≠ .push box (.storeTail tail))
  | .push box (.storeTail tail) => .isFalse fun h => h box tail rfl
  | .idle | .push _ .loadHead | .push _ (.loadTail _) | .push _ (.storeSlot _)
  | .push _ .addGeneration | .pop _ => .isTrue nofun

instance (head : Nat) : (l : Pc T) →
    Decidable (∀ ptr, l ≠ .pop (.storeHead head ptr) ∧ l ≠ .pop (.clearSlot head ptr))
  | .pop (.storeHead head' _) | .pop (.clearSlot head' _) =>
      decidable_of_iff (head' ≠ head) (by simp)
  | .idle | .push _ _ | .pop .loadTail | .pop (.loadHead _) | .pop (.loadSlot _)
  | .pop (.reclaim _) => .isTrue (by simp)

instance [Fintype ι] (s : State ι T) : (a : ι × Act T) → Decidable (Undisturbed s a)
  | (_, .call _) => .isTrue nofun
  | (t, .step) =>
      match hl : s.loc t with
      | .push _ (.storeSlot tail) =>
          decidable_of_iff
            (s.shared.tail = tail ∧ ∀ u box' tail', s.loc u ≠ .push box' (.storeTail tail'))
            (by simp [Undisturbed, hl])
      | .pop (.loadSlot head) =>
          decidable_of_iff
            (∀ u ptr, s.loc u ≠ .pop (.storeHead head ptr) ∧ s.loc u ≠ .pop (.clearSlot head ptr))
            (by simp [Undisturbed, hl])
      | .idle | .push _ .loadHead | .push _ (.loadTail _) | .push _ (.storeTail _)
      | .push _ .addGeneration | .pop .loadTail | .pop (.loadHead _) | .pop (.storeHead _ _)
      | .pop (.clearSlot _ _) | .pop (.reclaim _) => .isTrue (by simp [Undisturbed, hl])

end VelocityX.Mpmc.Threads
