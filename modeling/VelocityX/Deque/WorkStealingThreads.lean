import VelocityX.Deque.WorkStealing
import VelocityX.Lib.Linearization

/-!
# The work-stealing deque under interleaving

One owner runs `push` and `pop` and any number of thieves run `steal` on one deque, as
the documentation of `src/deque/work_stealing.rs` has it (the `&mut self` receivers are
set aside).  A step is one load, store or `compare_exchange` of `bottom` or `top`, or one
access to a slot; steps are sequentially consistent.

A task carries the number of its push call as a ticket.  The ghost log `accepted` lists
the tasks whose push returned `Ok`, and `returned` those that a pop or a steal returned; by
`logs_eq` their values are what the calls returned.

`pop` and `steal` empty a slot before their `compare_exchange` on `top`, and `steal` puts
the task back when it fails.  Meanwhile the owner can come to the empty slot; `Undisputed`
excludes the steps by which it then gives the index of the task up.
-/

namespace VelocityX.Deque.Threads

open Transition Linearization

variable {ι T : Type*} {w : Nat}

structure Task (T : Type*) where
  ticket : Nat
  value : T
deriving DecidableEq

structure Shared (T : Type*) where
  buffer : List (Option (Task T))
  capacity : Nat
  mask : Nat
  bottom : Int
  top : Int
  pushes : Nat
  accepted : List (Task T)
  returned : List (Task T)

/-- The shared memory of a deque that has just been created. -/
def Shared.new (d : WorkStealingDeque T) : Shared T :=
  ⟨List.replicate d.capacity none, d.capacity, d.mask, d.bottom, d.top, 0, [], []⟩

/-- The slot of an index: `(i as usize) & self.mask`. -/
def Shared.index (w : Nat) (sh : Shared T) (i : Int) : Nat := Word.unsigned w i &&& sh.mask

/-! ### The three operations, one step at a time -/

inductive PushPc where
  | loadBottom
  | loadTop (bottom : Int)
  | storeSlot (bottom : Int)
  | storeBottom (bottom : Int)
deriving DecidableEq

def pushStep (w : Nat) (task : Task T) (sh : Shared T) :
    PushPc → Shared T × Next PushPc (Except Error Unit)
  | .loadBottom => (sh, .goto (.loadTop sh.bottom))
  | .loadTop bottom =>
      if Word.signed w sh.capacity ≤ Word.signed w (bottom - sh.top) then
        (sh, .ret (.error .wouldBlock))
      else
        (sh, .goto (.storeSlot bottom))
  | .storeSlot bottom =>
      ({ sh with buffer := sh.buffer.set (sh.index w bottom) (some task) },
        .goto (.storeBottom bottom))
  | .storeBottom bottom =>
      ({ sh with bottom := Word.signed w (bottom + 1), accepted := sh.accepted ++ [task] },
        .ret (.ok ()))

inductive PopPc (T : Type*) where
  | loadBottom
  | storeBottom (bottom : Int)
  | loadTop (bottom : Int)
  | takeSlot (bottom top : Int)
  | exchangeTop (bottom top : Int) (value : Option (Task T))
  | restoreBottom (bottom : Int) (value : Option (Task T))
deriving DecidableEq

def popStep (w : Nat) (sh : Shared T) : PopPc T → Shared T × Next (PopPc T) (Option T)
  | .loadBottom =>
      if sh.bottom = 0 then (sh, .ret none) else (sh, .goto (.storeBottom sh.bottom))
  | .storeBottom bottom =>
      ({ sh with bottom := Word.signed w (bottom - 1) }, .goto (.loadTop bottom))
  | .loadTop bottom =>
      if sh.top < bottom then (sh, .goto (.takeSlot bottom sh.top))
      else (sh, .goto (.restoreBottom bottom none))
  | .takeSlot bottom top =>
      let index := sh.index w (Word.signed w (bottom - 1))
      let value := sh.buffer[index]?.join
      let sh := { sh with buffer := sh.buffer.set index none }
      if top = Word.signed w (bottom - 1) then
        (sh, .goto (.exchangeTop bottom top value))
      else
        ({ sh with returned := sh.returned ++ value.toList }, .ret (value.map Task.value))
  | .exchangeTop bottom top value =>
      if sh.top = top then
        ({ sh with top := Word.signed w (top + 1) }, .goto (.restoreBottom bottom value))
      else
        (sh, .goto (.restoreBottom bottom none))
  | .restoreBottom bottom value =>
      ({ sh with bottom := bottom, returned := sh.returned ++ value.toList },
        .ret (value.map Task.value))

inductive StealPc (T : Type*) where
  | loadTop
  | loadBottom (top : Int)
  | takeSlot (top : Int)
  | exchangeTop (top : Int) (value : Task T)
  | putBack (top : Int) (value : Task T)
deriving DecidableEq

def stealStep (w : Nat) (sh : Shared T) : StealPc T → Shared T × Next (StealPc T) (Option T)
  | .loadTop => (sh, .goto (.loadBottom sh.top))
  | .loadBottom top => if sh.bottom ≤ top then (sh, .ret none) else (sh, .goto (.takeSlot top))
  | .takeSlot top =>
      match sh.buffer[sh.index w top]?.join with
      | some value =>
          ({ sh with buffer := sh.buffer.set (sh.index w top) none },
            .goto (.exchangeTop top value))
      | none => (sh, .ret none)
  | .exchangeTop top value =>
      if sh.top = top then
        ({ sh with top := Word.signed w (top + 1), returned := sh.returned ++ [value] },
          .ret (some value.value))
      else
        (sh, .goto (.putBack top value))
  | .putBack top value =>
      ({ sh with buffer := sh.buffer.set (sh.index w top) (some value) }, .ret none)

/-! ### Threads -/

inductive Call (T : Type*) where
  | push (value : T)
  | pop
  | steal

inductive Pc (T : Type*) where
  | idle
  | push (task : Task T) (pc : PushPc)
  | pop (pc : PopPc T)
  | steal (pc : StealPc T)
deriving DecidableEq

def Pc.after {P R : Type*} (inside : P → Pc T) : Next P R → Pc T
  | .goto pc => inside pc
  | .ret _ => .idle

inductive Act (T : Type*) where
  | call (c : Call T)
  | step

/-- The owner is the thread `none`, the thieves are the others. -/
def program (w : Nat) (t : Option ι) (sh : Shared T) (l : Pc T) :
    Act T → Option (Shared T × Pc T)
  | .call c =>
      match t, l, c with
      | none, .idle, .push value =>
          some ({ sh with pushes := sh.pushes + 1 }, .push ⟨sh.pushes, value⟩ .loadBottom)
      | none, .idle, .pop => some (sh, .pop .loadBottom)
      | some _, .idle, .steal => some (sh, .steal .loadTop)
      | _, _, _ => none
  | .step =>
      match l with
      | .idle => none
      | .push task pc =>
          some ((pushStep w task sh pc).1, .after (.push task) (pushStep w task sh pc).2)
      | .pop pc => some ((popStep w sh pc).1, .after .pop (popStep w sh pc).2)
      | .steal pc => some ((stealStep w sh pc).1, .after .steal (stealStep w sh pc).2)

abbrev State (ι T : Type*) := Threads (Option ι) (Shared T) (Pc T)

def init (d : WorkStealingDeque T) : State ι T := ⟨Shared.new d, fun _ => .idle⟩

abbrev step [DecidableEq ι] (w : Nat) : State ι T → Option ι × Act T → Option (State ι T) :=
  interleave (program w)

/-! ### What the calls return -/

/-- The value of a push that returns `Ok` with this step. -/
def acknowledged (w : Nat) (s : State ι T) (a : Option ι × Act T) : Option T :=
  match s.loc a.1, a.2 with
  | .push task pc, .step =>
      match (pushStep w task s.shared pc).2 with
      | .ret (.ok ()) => some task.value
      | _ => none
  | _, _ => none

/-- The value that a pop or a steal returns with this step. -/
def handedOut (w : Nat) (s : State ι T) (a : Option ι × Act T) : Option T :=
  match s.loc a.1, a.2 with
  | .pop pc, .step =>
      match (popStep w s.shared pc).2 with
      | .ret value => value
      | .goto _ => none
  | .steal pc, .step =>
      match (stealStep w s.shared pc).2 with
      | .ret value => value
      | .goto _ => none
  | _, _ => none

section Logs

variable [DecidableEq ι] {s s' : State ι T}

/-- A step extends the logs by what it returns. -/
theorem logs_step {a : Option ι × Act T} (hstep : step w s a = some s') :
    s'.shared.accepted.map Task.value =
        s.shared.accepted.map Task.value ++ (acknowledged w s a).toList ∧
      s'.shared.returned.map Task.value =
        s.shared.returned.map Task.value ++ (handedOut w s a).toList := by
  obtain ⟨t, c⟩ := a
  obtain ⟨sh, l, hp, rfl⟩ := interleave_eq_some.mp hstep
  cases c with
  | call c =>
    cases t <;> cases hl : s.loc _ <;> cases c <;> rw [hl] at hp <;> cases hp <;>
      simp [acknowledged, handedOut, hl]
  | step =>
    cases hl : s.loc t with
    | idle =>
      rw [hl] at hp
      cases hp
    | push task pc =>
      rw [hl] at hp
      cases hp
      cases pc with
      | loadTop bottom =>
        by_cases hfull : Word.signed w s.shared.capacity ≤
            Word.signed w (bottom - s.shared.top) <;>
          simp [acknowledged, handedOut, hl, pushStep, hfull]
      | loadBottom => simp [acknowledged, handedOut, hl, pushStep]
      | storeSlot bottom => simp [acknowledged, handedOut, hl, pushStep]
      | storeBottom bottom => simp [acknowledged, handedOut, hl, pushStep]
    | pop pc =>
      rw [hl] at hp
      cases hp
      cases pc with
      | loadBottom =>
        by_cases hzero : s.shared.bottom = 0 <;>
          simp [acknowledged, handedOut, hl, popStep, hzero]
      | loadTop bottom =>
        by_cases hlt : s.shared.top < bottom <;>
          simp [acknowledged, handedOut, hl, popStep, hlt]
      | takeSlot bottom top =>
        by_cases hlast : top = Word.signed w (bottom - 1)
        · simp [acknowledged, handedOut, hl, popStep, hlast]
        · cases hslot : s.shared.buffer[s.shared.index w (Word.signed w (bottom - 1))]?.join <;>
            simp [acknowledged, handedOut, hl, popStep, hlast, hslot]
      | exchangeTop bottom top value =>
        by_cases htop : s.shared.top = top <;>
          simp [acknowledged, handedOut, hl, popStep, htop]
      | storeBottom bottom => simp [acknowledged, handedOut, hl, popStep]
      | restoreBottom bottom value =>
        cases value <;> simp [acknowledged, handedOut, hl, popStep]
    | steal pc =>
      rw [hl] at hp
      cases hp
      cases pc with
      | loadBottom top =>
        by_cases hle : s.shared.bottom ≤ top <;>
          simp [acknowledged, handedOut, hl, stealStep, hle]
      | takeSlot top =>
        cases hslot : s.shared.buffer[s.shared.index w top]?.join <;>
          simp [acknowledged, handedOut, hl, stealStep, hslot]
      | exchangeTop top value =>
        by_cases htop : s.shared.top = top <;>
          simp [acknowledged, handedOut, hl, stealStep, htop]
      | loadTop => simp [acknowledged, handedOut, hl, stealStep]
      | putBack top value => simp [acknowledged, handedOut, hl, stealStep]

/-- **The logs are what the calls returned**: `accepted` lists the values of the pushes that
    returned `Ok`, and `returned` those that the pops and the steals returned. -/
theorem logs_eq {d : WorkStealingDeque T} {as : List (Option ι × Act T)}
    (hrun : run (step w) (init d) as = some s) :
    (trace (step w) (acknowledged w) (init d) as).map Prod.snd =
        s.shared.accepted.map Task.value ∧
      (trace (step w) (handedOut w) (init d) as).map Prod.snd =
        s.shared.returned.map Task.value := by
  have haccepted := trace_log (g := fun s : State ι T => s.shared.accepted.map Task.value)
    (fun _ _ _ hstep => (logs_step hstep).1) hrun
  have hreturned := trace_log (g := fun s : State ι T => s.shared.returned.map Task.value)
    (fun _ _ _ hstep => (logs_step hstep).2) hrun
  exact ⟨haccepted.symm, hreturned.symm⟩

end Logs

/-! ### Delivery -/

/-- No task is returned twice, and once all calls have returned every accepted task has
    been returned or is in the slot of an index in `[top, bottom)`. -/
structure DeliveredOnce (w : Nat) (s : State ι T) : Prop where
  returned_once : s.shared.returned.Nodup
  kept : (∀ t, s.loc t = .idle) → s.shared.top ≤ s.shared.bottom ∧
    ∀ task ∈ s.shared.accepted, task ∈ s.shared.returned ∨
      ∃ i, s.shared.top ≤ i ∧ i < s.shared.bottom ∧
        s.shared.buffer[s.shared.index w i]? = some (some task)

/-- The owner never gives up the index of a task that is out on loan: a pop that saw more
    than one task finds the slot it empties full, a pop that has emptied its slot in vain
    finds `top` moved by someone else, and `bottom` does not leave the word. -/
def Undisputed (w : Nat) (s : State ι T) (a : Option ι × Act T) : Prop :=
  a = (none, .step) →
    (∀ bottom top, s.loc none = .pop (.takeSlot bottom top) →
      top ≠ Word.signed w (bottom - 1) →
        s.shared.buffer[s.shared.index w (Word.signed w (bottom - 1))]? ≠ some none) ∧
    (∀ bottom top, s.loc none = .pop (.exchangeTop bottom top none) → s.shared.top ≠ top) ∧
    ∀ task bottom, s.loc none = .push task (.storeBottom bottom) → bottom + 1 < 2 ^ (w - 1)

instance [DecidableEq T] (w : Nat) (s : State ι T) :
    (a : Option ι × Act T) → Decidable (Undisputed w s a)
  | (_, .call _) | (some _, .step) => .isTrue nofun
  | (none, .step) =>
      match hl : s.loc none with
      | .pop (.takeSlot bottom top) =>
          decidable_of_iff (top ≠ Word.signed w (bottom - 1) →
            s.shared.buffer[s.shared.index w (Word.signed w (bottom - 1))]? ≠ some none)
            (by simp [Undisputed, hl])
      | .pop (.exchangeTop _ top none) =>
          decidable_of_iff (s.shared.top ≠ top) (by simp [Undisputed, hl])
      | .push _ (.storeBottom bottom) =>
          decidable_of_iff (bottom + 1 < 2 ^ (w - 1)) (by simp [Undisputed, hl])
      | .idle | .push _ .loadBottom | .push _ (.loadTop _) | .push _ (.storeSlot _)
      | .pop .loadBottom | .pop (.storeBottom _) | .pop (.loadTop _)
      | .pop (.exchangeTop _ _ (some _)) | .pop (.restoreBottom _ _) | .steal _ =>
          .isTrue (by simp [Undisputed, hl])

end VelocityX.Deque.Threads
