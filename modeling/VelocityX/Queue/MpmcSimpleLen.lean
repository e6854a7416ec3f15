import VelocityX.Queue.MpmcSimpleLinearizable

/-!
# The length of the default bounded queue under interleaving

`len` of `src/queue/mpmc_simple.rs` loads `head` and then `tail` and takes no lock.  Readers call it
while other threads run the operations of the queue, any number of which may fall between the two
loads.
-/

namespace VelocityX.MpmcSimple.Threads

open Transition

variable {ι ρ T : Type*} {w cap : Nat}

/-- What a call of `len` has loaded when it returns. -/
structure Loaded where
  head : Nat
  tail : Nat
deriving DecidableEq

/-- `tail - head`. -/
def Loaded.len (w : Nat) (l : Loaded) : Nat := Word.sub w l.tail l.head

/-- The next load of a reader. -/
inductive LenPc where
  | loadHead
  | loadTail (head : Nat)
deriving DecidableEq

def lenStep (sh : Shared ι T) : LenPc → LenPc × List Loaded
  | .loadHead => (.loadTail sh.head, [])
  | .loadTail head => (.loadHead, [⟨head, sh.tail⟩])

/-- The queue and its threads, with readers; `lengths` lists what their calls have loaded. -/
structure Observed (ι ρ T : Type*) where
  queue : State ι T
  reader : ρ → LenPc
  lengths : List Loaded

def Observed.init (capacity : Nat) : Observed ι ρ T :=
  ⟨Threads.init capacity, fun _ => .loadHead, []⟩

/-- A step of a thread of the queue or of a reader. -/
def observedStep [DecidableEq ι] [DecidableEq ρ] (w : Nat) (s : Observed ι ρ T) :
    (ι × Act T) ⊕ ρ → Option (Observed ι ρ T)
  | .inl a => (step w s.queue a).map fun queue => { s with queue := queue }
  | .inr r =>
      let next := lenStep s.queue.shared (s.reader r)
      some { s with reader := Function.update s.reader r next.1
                    lengths := s.lengths ++ next.2 }

/-- No subtraction underflows, and no length is larger than the capacity. -/
def LensPossible (w : Nat) (s : Observed ι ρ T) : Prop :=
  ∀ l ∈ s.lengths, l.head ≤ l.tail ∧ l.len w ≤ s.queue.shared.capacity

/-- The positions that `head` has moved on since the reader has loaded it. -/
def LenPc.popped (sh : Shared ι T) : LenPc → Nat
  | .loadHead => 0
  | .loadTail head => sh.head - head

def Shared.free (sh : Shared ι T) : Nat := sh.capacity - (sh.tail - sh.head)

/-- No index overflows, and when a reader loads `tail`, no more values have been popped since it has
    loaded `head` than there are free slots. -/
def InReach (w : Nat) (s : Observed ι ρ T) : (ι × Act T) ⊕ ρ → Prop
  | .inl _ => s.queue.shared.written < 2 ^ w
  | .inr r =>
      s.queue.shared.written < 2 ^ w ∧ (s.reader r).popped s.queue.shared ≤ s.queue.shared.free

instance (w : Nat) (s : Observed ι ρ T) : (a : (ι × Act T) ⊕ ρ) → Decidable (InReach w s a)
  | .inl _ => inferInstanceAs (Decidable (_ < _))
  | .inr _ => inferInstanceAs (Decidable (_ ∧ _))

/-! ### The invariant -/

structure ObservedInv (w cap : Nat) (s : Observed ι ρ T) : Prop where
  queue : Inv cap s.queue
  reader : ∀ r head, s.reader r = .loadTail head → head ≤ s.queue.shared.head
  possible : LensPossible w s

section Steps

variable {s s' : Observed ι ρ T} {q q' : State ι T}

theorem observedInv_init (cap : Nat) : ObservedInv w cap (Observed.init cap : Observed ι ρ T) :=
  ⟨inv_init cap, nofun, nofun⟩

/-- The two loads of a call whose reader has not been overtaken. -/
theorem ObservedInv.loaded {head : Nat} (h : ObservedInv w cap s)
    (hw : s.queue.shared.written < 2 ^ w) (hhead : head ≤ s.queue.shared.head)
    (hreach : s.queue.shared.head - head ≤ s.queue.shared.free) :
    head ≤ s.queue.shared.tail ∧
      Loaded.len w ⟨head, s.queue.shared.tail⟩ ≤ s.queue.shared.capacity := by
  have hgood := h.queue.1
  have hle := hgood.head_le_tail
  have hroom := hgood.tail_le
  have hwritten := hgood.written_eq
  have hcapacity := hgood.capacity_eq
  have hsub : Word.sub w s.queue.shared.tail head = s.queue.shared.tail - head :=
    Word.sub_of_le (by omega) (by omega)
  rw [Shared.free] at hreach
  refine ⟨by omega, ?_⟩
  rw [Loaded.len, hsub]
  omega

variable [DecidableEq ι] [DecidableEq ρ]

theorem step_head_le {a : ι × Act T} (hcap_lt : cap < 2 ^ w) (hw : q.shared.written < 2 ^ w)
    (h : Inv cap q) (hstep : step w q a = some q') :
    q.shared.head ≤ q'.shared.head ∧ q'.shared.capacity = q.shared.capacity := by
  have hcapacity := (step_inv hcap_lt hw h hstep).1.capacity_eq.trans h.1.capacity_eq.symm
  refine ⟨?_, hcapacity⟩
  obtain ⟨sh, l, hp, rfl⟩ := interleave_eq_some.mp hstep
  obtain ⟨_, _, hframe⟩ := program_ok hcap_lt ⟨h.1, hw⟩ (h.2 a.1) hp
  rcases hframe with rfl | hf | hf
  · exact Nat.le_refl _
  · exact Nat.le_of_eq hf.head.symm
  · exact hf.head

theorem ObservedInv.step {a : (ι × Act T) ⊕ ρ} (hcap_lt : cap < 2 ^ w) (h : ObservedInv w cap s)
    (hC : InReach w s a) (hstep : observedStep w s a = some s') : ObservedInv w cap s' := by
  cases a with
  | inl a =>
    obtain ⟨q, hq, rfl⟩ := Option.map_eq_some_iff.mp hstep
    obtain ⟨hhead, hcapacity⟩ := step_head_le hcap_lt hC h.queue hq
    refine ⟨step_inv hcap_lt hC h.queue hq, fun r head hr => ?_, fun l hl => ?_⟩
    · exact Nat.le_trans (h.reader r head hr) hhead
    · show l.head ≤ l.tail ∧ l.len w ≤ q.shared.capacity
      rw [hcapacity]
      exact h.possible l hl
  | inr r =>
    obtain ⟨hw, hreach⟩ := hC
    cases hstep
    refine ⟨h.queue, ?_, ?_⟩
    · refine (Function.forall_update_iff s.reader fun _ pc =>
        ∀ head, pc = LenPc.loadTail head → head ≤ s.queue.shared.head).mpr
          ⟨fun head hnext => ?_, fun u _ => h.reader u⟩
      cases hr : s.reader r with
      | loadHead =>
        rw [hr] at hnext
        cases hnext
        exact Nat.le_refl _
      | loadTail head =>
        rw [hr] at hnext
        cases hnext
    · intro l hl
      rcases List.mem_append.mp hl with hold | hnew
      · exact h.possible l hold
      · cases hr : s.reader r with
        | loadHead =>
          rw [hr] at hnew
          cases hnew
        | loadTail head =>
          rw [hr] at hnew hreach
          rw [List.mem_singleton.mp hnew]
          exact h.loaded hw (h.reader r head hr) hreach

/-- Along a run whose readers are not overtaken every length is a possible one. -/
theorem lensPossible_of_inReach (capacity : Capacity w) (as : List ((ι × Act T) ⊕ ρ))
    (hC : Along (observedStep w) (InReach w) (Observed.init capacity.val : Observed ι ρ T) as) :
    Throughout (observedStep w) (LensPossible w)
      (Observed.init capacity.val : Observed ι ρ T) as :=
  throughout_of_along (fun _ _ _ h hC hstep => h.step capacity.lt hC hstep)
    (fun _ h => h.possible) (observedInv_init capacity.val) hC

end Steps

/-! ### Runs -/

section Runs

/-- Thread `false` pushes 7, thread `true` pops it, and thread `false` pushes 8. -/
def pushPopPush : List (Bool × Act Nat) :=
  (false, Act.call (.push 7)) :: List.replicate 6 (false, Act.step) ++
    (true, Act.call .pop) :: List.replicate 6 (true, Act.step) ++
      (false, Act.call (.push 8)) :: List.replicate 6 (false, Act.step)

/-- A reader that loads the head, the queue running until it loads the tail. -/
def readAround (as : List (Bool × Act Nat)) : List ((Bool × Act Nat) ⊕ Unit) :=
  .inr () :: as.map .inl ++ [.inr ()]

theorem len_around_push : ∃ s, run (observedStep 64) (Observed.init 1)
      (readAround (pushPopPush.take 7)) = some s ∧ s.lengths = [⟨0, 1⟩] ∧ LensPossible 64 s := by
  have hrun : (run (observedStep 64) (Observed.init 1)
      (readAround (pushPopPush.take 7))).map (·.lengths) = some [⟨0, 1⟩] := by decide
  obtain ⟨s, hs, hlengths⟩ := Option.map_eq_some_iff.mp hrun
  have hpossible := lensPossible_of_inReach (⟨1, by decide, by decide⟩ : Capacity 64)
    (readAround (pushPopPush.take 7)) (by decide)
  exact ⟨s, hs, hlengths, hpossible.last hs⟩

/-- A queue of capacity 1 of length 2. -/
theorem len_overtaken :
    ¬ ∀ (as : List ((Bool × Act Nat) ⊕ Unit)) (s : Observed Bool Unit Nat),
      run (observedStep 64) (Observed.init 1) as = some s → LensPossible 64 s := by
  intro h
  have hrun : (run (observedStep 64) (Observed.init 1) (readAround pushPopPush)).map (fun s =>
      (s.lengths, s.queue.shared.capacity)) = some ([⟨0, 2⟩], 1) := by decide
  obtain ⟨s, hs, heq⟩ := Option.map_eq_some_iff.mp hrun
  obtain ⟨hlengths, hcapacity⟩ := Prod.mk.inj heq
  have hle := (h _ s hs ⟨0, 2⟩ (by rw [hlengths]; exact List.mem_cons_self)).2
  rw [hcapacity] at hle
  exact absurd hle (by decide)

end Runs

end VelocityX.MpmcSimple.Threads
