import VelocityX.Lib.Transition
import VelocityX.Queue.MpmcSimpleBatch

/-!
# The default bounded queue across the wrap of its counters

Sequential runs of any length, in which `head` and `tail` pass the end of the word.  The difference
of the counters stays right, but the slot `position % capacity` jumps at the wrap unless the
capacity divides `2 ^ w`.  `wrap_iff` says exactly which runs are not affected.
-/

namespace VelocityX.MpmcSimple

open Transition

variable {T : Type*} {w : Nat}

namespace MpmcQueue

/-- A pushed value is written into an empty slot, and pops return the oldest pending values. -/
def Answers (w : Nat) (q : MpmcQueue T) (xs : List T) : QueueOp T → Prop
  | .push value => (q.push w value).1 = .ok () → q.buffer[q.index q.tail]? = some none
  | .pop => (q.pop w).1 = xs.head?
  | .pushBatch values => ∀ j < (q.pushBatch w values).1,
      -- the buffer in round `j` of the loop, before the value of that round is written
      (pushBatchLoop w q.capacity q.tail values j 0 q.buffer).2[
        Word.add w q.tail j % q.capacity]? = some none
  | .popBatch maxValues => (q.popBatch w maxValues).1 = xs.take maxValues
  | .len => q.len w = xs.length

/-- One operation on a queue, beside the values pushed and not yet popped. -/
def trackStep (w : Nat) (s : MpmcQueue T × List T) (op : QueueOp T) :
    Option (MpmcQueue T × List T) :=
  some ((s.1.apply w op).2, s.1.pending w s.2 op)

end MpmcQueue

open MpmcQueue

section Answers

variable {q : MpmcQueue T} {xs : List T}

/-- The slot of a round of the batch loop, when the rounds before it found theirs empty. -/
theorem MpmcQueue.Stores.batch_slot_iff (hq : q.Stores w xs) (values : Nat → Option T) {j : Nat}
    (hj : j < (q.pushBatch w values).1) (hbefore : ∀ i < j, q.ClearAt w i) :
    (pushBatchLoop w q.capacity q.tail values j 0 q.buffer).2[
        Word.add w q.tail j % q.capacity]? = some none ↔ q.ClearAt w j := by
  have hupcoming : (Iter.mk values 0).upcoming = values := by
    funext k
    simp [Iter.upcoming]
  obtain ⟨hroom, hvalues⟩ := (hq.windowed.lt_pushBatch_iff values j).mp hj
  have htail : q.tail = Word.add w q.tail 0 := by
    rw [Word.add_zero_of_lt (hq.tail_eq ▸ Word.add_lt w _ _)]
  obtain ⟨m, calls, buffer, hloop, htakes, hafter, _⟩ :=
    pushBatchFromLoop_spec j (Iter.mk values 0) hq.windowed (by omega) htail
  -- all `j` rounds run, since the iterator still yields a value after them
  have hm : m = j := by
    rcases htakes.stops with ⟨_, hlimit⟩ | ⟨_, hlt, hnone⟩
    · exact hlimit
    · rw [hupcoming] at hnone
      exact absurd hnone (hvalues m (Nat.le_of_lt hlt))
  subst hm
  have hbuffer : (pushBatchLoop w q.capacity q.tail values m 0 q.buffer).2 = buffer := by
    have heq := pushBatchFromLoop_eq w q.capacity q.tail (Iter.mk values 0) m 0 q.buffer
    rw [Iter.advance_zero, hloop, hupcoming] at heq
    rw [← heq]
  have hnext : (q.after w (((Iter.mk values 0).collect m).map .push)).Stores w
      (xs ++ (Iter.mk values 0).collect m) := by
    apply hq.after_pushes
    · rw [htakes.length_collect]
      omega
    · rw [htakes.length_collect]
      exact hbefore
  have hlen := hnext.len_eq
  have hfree := hnext.free_iff (by
    rw [List.length_append, htakes.length_collect, after_capacity]
    omega)
  rw [hafter, Nat.zero_add] at hfree hlen
  rw [MpmcQueue.ClearAt, hlen, List.length_append, htakes.length_collect] at hfree
  rw [hbuffer, MpmcQueue.ClearAt, hq.len_eq]
  refine hfree.trans ?_
  rw [Word.add_add, Nat.add_zero, Nat.add_zero]

/-- One operation is answered without loss exactly when its pushes find their slots empty. -/
theorem MpmcQueue.Stores.answers_iff (hq : q.Stores w xs) (op : QueueOp T) :
    q.Answers w xs op ↔ q.ClearFor w op := by
  cases op with
  | push value =>
    rw [MpmcQueue.Answers, MpmcQueue.ClearFor, hq.len_eq]
    rcases Nat.lt_or_ge xs.length q.capacity with hroom | hfull
    · rw [hq.toServes.push_eq hroom, hq.free_iff hroom]
      exact ⟨fun h _ => h rfl, fun h _ => h hroom⟩
    · rw [hq.windowed.push_full hfull]
      exact iff_of_true nofun fun hroom => absurd hroom (Nat.not_lt.mpr hfull)
  | pop =>
    refine iff_of_true ?_ trivial
    rw [MpmcQueue.Answers]
    cases xs with
    | nil => rw [hq.toServes.pop_nil]; rfl
    | cons x xs => exact hq.toServes.pop_cons.1
  | pushBatch values =>
    have hlt := hq.windowed.lt_pushBatch_iff values
    constructor
    · intro hanswers
      -- the rounds in order: the state of each is known once those before it were clear
      have hclear : ∀ j, j < (q.pushBatch w values).1 → q.ClearAt w j := by
        intro j
        induction j using Nat.strong_induction_on with
        | _ j ih =>
          intro hj
          exact (hq.batch_slot_iff values hj fun i hi => ih i hi (Nat.lt_trans hi hj)).mp
            (hanswers j hj)
      intro j hroom hvalues
      rw [hq.len_eq] at hroom
      exact hclear j ((hlt j).mpr ⟨hroom, hvalues⟩)
    · intro hclear j hj
      have hbefore : ∀ i, i ≤ j → q.ClearAt w i := by
        intro i hi
        obtain ⟨hroom, hvalues⟩ := (hlt i).mp (Nat.lt_of_le_of_lt hi hj)
        exact hclear i (by rw [hq.len_eq]; exact hroom) hvalues
      exact (hq.batch_slot_iff values hj fun i hi => hbefore i (Nat.le_of_lt hi)).mpr
        (hbefore j (Nat.le_refl j))
  | popBatch maxValues =>
    refine iff_of_true ?_ trivial
    rw [MpmcQueue.Answers, (hq.toServes.popBatch maxValues).1]
  | len => exact iff_of_true hq.len_eq trivial

/-- **First-in first-out across the wrap.**  In a sequential run of any length from a new queue no
    value is overwritten before it is popped, and pops return the accepted values in order, if and
    only if every accepted value meets the condition on its counter: where the counter has just
    wrapped, to a word below the remainder of `2 ^ w` by the capacity, the queue holds fewer values
    than that remainder. -/
theorem wrap_iff (capacity : Capacity w) (ops : List (QueueOp T)) :
    Along (trackStep w) (fun s op => s.1.Answers w s.2 op) (MpmcQueue.new capacity, []) ops ↔
      Along (trackStep w) (fun s op => s.1.ClearFor w op) (MpmcQueue.new capacity, []) ops := by
  apply along_congr_of_step (I := fun s => s.1.Stores w s.2)
  · intro s op s' hs hclear hstep
    cases hstep
    exact hs.apply op hclear
  · intro s op hs
    exact hs.answers_iff op
  · exact stores_new capacity

end Answers

/-! ### A full turn of the counters -/

section Turn

variable {c h : Nat} {value : T}

/-- One push and one pop on an empty queue move both counters by one. -/
theorem run_pair (hpos : 0 < c) (hlt : c < 2 ^ w) :
    run (trackStep w) (⟨List.replicate c none, c, h, h⟩, []) [.push value, .pop] =
      some (⟨List.replicate c none, c, Word.add w h 1, Word.add w h 1⟩, []) := by
  have hpush : (⟨List.replicate c none, c, h, h⟩ : MpmcQueue T).push w value =
      (.ok (), ⟨(List.replicate c none).set (h % c) (some value), c, h, Word.add w h 1⟩) := by
    rw [MpmcQueue.push, Word.sub_self, if_neg (Nat.not_le.mpr hpos)]
    rfl
  have hslot : h % c < c := Nat.mod_lt h hpos
  have hpop : (⟨(List.replicate c none).set (h % c) (some value), c, h, Word.add w h 1⟩ :
      MpmcQueue T).pop w =
      (some value, ⟨List.replicate c none, c, Word.add w h 1, Word.add w h 1⟩) := by
    rw [MpmcQueue.pop, if_neg (Ne.symm (Word.add_ne (Nat.one_pos) (by omega) h)), MpmcQueue.index,
      List.getElem?_set_self (by simp [hslot]), List.set_set, List.set_replicate_self]
    rfl
  rw [run_cons, trackStep, MpmcQueue.apply, MpmcQueue.pending, MpmcQueue.pushedBy, hpush]
  rw [Option.bind_some, run_cons, trackStep, MpmcQueue.apply, MpmcQueue.pending, hpop]
  rfl

theorem run_pairs (hpos : 0 < c) (hlt : c < 2 ^ w) (k : Nat) (hh : h < 2 ^ w) :
    run (trackStep w) (⟨List.replicate c none, c, h, h⟩, [])
        (List.replicate k [.push value, .pop]).flatten =
      some (⟨List.replicate c none, c, Word.add w h k, Word.add w h k⟩, []) := by
  have hround : ∀ j s, j < k →
      s = (⟨List.replicate c none, c, Word.add w h j, Word.add w h j⟩, []) →
      ∃ s', run (trackStep w) s [.push value, .pop] = some s' ∧
        s' = (⟨List.replicate c none, c, Word.add w h (j + 1), Word.add w h (j + 1)⟩, []) := by
    rintro j s _ rfl
    exact ⟨_, run_pair hpos hlt, by rw [Word.add_add]⟩
  obtain ⟨s, hrun, rfl⟩ := run_rounds k hround rfl
  rw [Word.add_zero_of_lt hh] at hrun
  exact hrun

/-- With capacity 3 and words of 32 bits, the second of two values pushed after `2 ^ 32 - 1` others
    have passed through overwrites the first. -/
theorem wrap_overwrites :
    ¬ ∀ (w : Nat) (capacity : Capacity w) (ops : List (QueueOp Nat)),
      Along (trackStep w) (fun s op => s.1.Answers w s.2 op) (MpmcQueue.new capacity, []) ops := by
  intro hall
  have halong := (hall 32 ⟨3, by decide, by decide⟩
    ((List.replicate (2 ^ 32 - 1) [.push 0, .pop]).flatten ++ [.push 1, .push 2])).of_append
    (run_pairs (by decide) (by decide) (2 ^ 32 - 1) (by decide))
  exact absurd ((halong.2 _ rfl).1 (by decide)) (by decide)

end Turn

end VelocityX.MpmcSimple
