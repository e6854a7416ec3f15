import VelocityX.Queue.MpmcSimpleWindow

/-!
# Iterators that panic in the default bounded queue

`push_batch` runs the caller's iterator while it holds `push_lock`.  When the iterator panics, the
slots written so far stay written, `tail` is not stored, and the mutex is poisoned: from then on
`lock()` returns an error and `lock().unwrap()` panics.

An operation returns `some` result, or `none` when it panics.
-/

namespace VelocityX.MpmcSimple

variable {T : Type*} {w : Nat}

/-- What a `next` call does. -/
inductive Called (T : Type*) where
  | item (value : T)
  | done
  | panic
deriving DecidableEq

def Called.value? : Called T → Option T
  | .item value => some value
  | _ => none

/-- A queue together with the poison flags of its three mutexes. -/
structure GuardedQueue (T : Type*) where
  queue : MpmcQueue T
  pushPoisoned : Bool
  popPoisoned : Bool
  bufferPoisoned : Bool
deriving DecidableEq

inductive GuardedOp (T : Type*) where
  | push (value : T)
  | pop
  | pushBatch (values : Nat → Called T)
  | popBatch (maxValues : Nat)

/-- `pop` and `pop_batch`. -/
def GuardedOp.isPop : GuardedOp T → Bool
  | .pop | .popBatch _ => true
  | .push _ | .pushBatch _ => false

namespace GuardedQueue

def new (capacity : Capacity w) : GuardedQueue T := ⟨.new capacity, false, false, false⟩

def push (w : Nat) (g : GuardedQueue T) (value : T) :
    Option (Except Error Unit) × GuardedQueue T :=
  if g.pushPoisoned then
    (none, g)
  else
    match g.queue.push w value with
    | (.error error, _) => (some (.error error), g)
    | (.ok (), queue) =>
        if g.bufferPoisoned then
          (none, { g with pushPoisoned := true })
        else
          (some (.ok ()), { g with queue := queue })

def pop (w : Nat) (g : GuardedQueue T) : Option (Option T) × GuardedQueue T :=
  if g.popPoisoned then
    (none, g)
  else if g.queue.head = g.queue.tail then
    (some none, g)
  else if g.bufferPoisoned then
    (none, { g with popPoisoned := true })
  else
    (some (g.queue.pop w).1, { g with queue := (g.queue.pop w).2 })

/-- The loop of `push_batch`; no result when the iterator or the buffer's mutex panics. -/
def pushBatchLoop (w capacity tail : Nat) (values : Nat → Called T) (poisoned : Bool) :
    Nat → Nat → List (Option T) → Option Nat × List (Option T)
  | 0, pushed, buffer => (some pushed, buffer)
  | available + 1, pushed, buffer =>
      match values pushed with
      | .done => (some pushed, buffer)
      | .panic => (none, buffer)
      | .item value =>
          if poisoned then
            (none, buffer)
          else
            pushBatchLoop w capacity tail values poisoned available (pushed + 1)
              (buffer.set (Word.add w tail pushed % capacity) (some value))

def pushBatch (w : Nat) (g : GuardedQueue T) (values : Nat → Called T) :
    Option Nat × GuardedQueue T :=
  if g.pushPoisoned then
    (none, g)
  else
    let q := g.queue
    let available := Word.sub w q.capacity (Word.sub w q.tail q.head)
    match pushBatchLoop w q.capacity q.tail values g.bufferPoisoned available 0 q.buffer with
    | (none, buffer) =>
        (none, { g with queue := { q with buffer := buffer }, pushPoisoned := true })
    | (some pushed, buffer) =>
        (some pushed,
          { g with queue := { q with buffer := buffer, tail := Word.add w q.tail pushed } })

def popBatch (w : Nat) (g : GuardedQueue T) (maxValues : Nat) :
    Option (List T) × GuardedQueue T :=
  if g.popPoisoned then
    (none, g)
  else if g.bufferPoisoned ∧ min maxValues (Word.sub w g.queue.tail g.queue.head) ≠ 0 then
    (none, { g with popPoisoned := true })
  else
    (some (g.queue.popBatch w maxValues).1, { g with queue := (g.queue.popBatch w maxValues).2 })

def apply (w : Nat) (g : GuardedQueue T) : GuardedOp T → Option (Reply T) × GuardedQueue T
  | .push value => ((g.push w value).1.map .push, (g.push w value).2)
  | .pop => ((g.pop w).1.map .pop, (g.pop w).2)
  | .pushBatch values => ((g.pushBatch w values).1.map .pushBatch, (g.pushBatch w values).2)
  | .popBatch maxValues => ((g.popBatch w maxValues).1.map .popBatch, (g.popBatch w maxValues).2)

def after (w : Nat) (g : GuardedQueue T) (ops : List (GuardedOp T)) : GuardedQueue T :=
  ops.foldl (fun g op => (g.apply w op).2) g

def outcomes (w : Nat) : GuardedQueue T → List (GuardedOp T) → List (Option (Reply T))
  | _, [] => []
  | g, op :: ops => (g.apply w op).1 :: (g.apply w op).2.outcomes w ops

/-- The values that an operation puts into the queue. -/
def pushedBy (w : Nat) (g : GuardedQueue T) : GuardedOp T → List T
  | .push value => if (g.push w value).1 = some (.ok ()) then [value] else []
  | .pushBatch values =>
      (List.range ((g.pushBatch w values).1.getD 0)).filterMap fun k => (values k).value?
  | _ => []

def accepted (w : Nat) : GuardedQueue T → List (GuardedOp T) → List T
  | _, [] => []
  | g, op :: ops => g.pushedBy w op ++ (g.apply w op).2.accepted w ops

end GuardedQueue

/-- The values that pops returned. -/
def popped : List (Option (Reply T)) → List T
  | [] => []
  | some (.pop value) :: outcomes => value.toList ++ popped outcomes
  | some (.popBatch values) :: outcomes => values ++ popped outcomes
  | _ :: outcomes => popped outcomes

/-- The values that popping everything would return. -/
def MpmcQueue.contents (w : Nat) (q : MpmcQueue T) : List T := (q.popBatch w (2 ^ w - 1)).1

namespace GuardedQueue

/-- Inside `push_batch` the iterator yields `j` values, for which there is room, and then panics. -/
structure PanicsAt (w : Nat) (g : GuardedQueue T) (values : Nat → Called T) (j : Nat) : Prop where
  unpoisoned : g.pushPoisoned = false
  room : j < g.queue.capacity - g.queue.len w
  items : ∀ i < j, ∃ value, values i = .item value
  panics : values j = .panic

/-- After a `push_batch` whose iterator yields `j` values and panics, every operation returns, and
    what pops return, together with the rest that a last `pop_batch` takes, is the old contents,
    some of the yielded values and then the values accepted later. -/
def Survives (w : Nat) (g : GuardedQueue T) (values : Nat → Called T) (j : Nat)
    (later : List (GuardedOp T)) : Prop :=
  (∀ outcome ∈ (g.pushBatch w values).2.outcomes w later, outcome ≠ none) ∧
    ∃ ys rest, ys <+: ((List.range j).filterMap fun k => (values k).value?) ∧
      (((g.pushBatch w values).2.after w later).popBatch w (2 ^ w - 1)).1 = some rest ∧
      popped ((g.pushBatch w values).2.outcomes w later) ++ rest =
        g.queue.contents w ++ ys ++ (g.pushBatch w values).2.accepted w later

/-- None of the first `j` slots after the tail is the slot of a value of the queue. -/
def Apart (w : Nat) (g : GuardedQueue T) (j : Nat) : Prop :=
  ∀ i < j, ∀ k < g.queue.len w,
    Word.add w g.queue.tail i % g.queue.capacity ≠ Word.add w g.queue.head k % g.queue.capacity

end GuardedQueue

open MpmcQueue

/-! ### What pops return

The values of the window are returned in turn, whatever is in the other slots. -/

/-- The indices of `q` are `n` positions apart. -/
structure MpmcQueue.Spans (w : Nat) (q : MpmcQueue T) (n : Nat) : Prop where
  head_lt : q.head < 2 ^ w
  tail_eq : q.tail = Word.add w q.head n
  le_capacity : n ≤ q.capacity
  capacity_lt : q.capacity < 2 ^ w

section PopBatchLoop

variable {c h d : Nat}

theorem popBatchLoop_add (items items' : Nat) (i : Nat) (cells : List (Option T)) :
    popBatchLoop w c h (items + items') i cells =
      ((popBatchLoop w c h items i cells).1 ++
        (popBatchLoop w c h items' (i + items) (popBatchLoop w c h items i cells).2).1,
        (popBatchLoop w c h items' (i + items) (popBatchLoop w c h items i cells).2).2) := by
  induction items generalizing i cells with
  | zero => simp [popBatchLoop]
  | succ items ih =>
    rw [Nat.add_right_comm, popBatchLoop, ih]
    simp [popBatchLoop, Nat.add_assoc, Nat.add_comm 1 items]

theorem popBatchLoop_shift (items : Nat) (i : Nat) (cells : List (Option T)) :
    popBatchLoop w c (Word.add w h d) items i cells = popBatchLoop w c h items (d + i) cells := by
  induction items generalizing i cells with
  | zero => rfl
  | succ items ih => rw [popBatchLoop, popBatchLoop, Word.add_add, ih, Nat.add_assoc]

/-- The loop reads the slots of its own positions only. -/
theorem popBatchLoop_congr (items : Nat) :
    ∀ {i : Nat} {cells cells' : List (Option T)},
      (∀ k < items, cells[Word.add w h (i + k) % c]? = cells'[Word.add w h (i + k) % c]?) →
      (popBatchLoop w c h items i cells).1 = (popBatchLoop w c h items i cells').1 := by
  induction items with
  | zero =>
    intro i cells cells' _
    rfl
  | succ items ih =>
    intro i cells cells' hsame
    have hfirst : cells[Word.add w h i % c]? = cells'[Word.add w h i % c]? :=
      hsame 0 (Nat.succ_pos items)
    rw [popBatchLoop, popBatchLoop, hfirst]
    refine congrArg (_ ++ ·) (ih fun k hk => ?_)
    rw [Nat.add_assoc, Nat.add_comm 1 k]
    by_cases heq : Word.add w h i % c = Word.add w h (i + (k + 1)) % c
    · rw [← heq, List.getElem?_set_self', List.getElem?_set_self', hfirst]
    · rw [List.getElem?_set_ne heq, List.getElem?_set_ne heq]
      exact hsame (k + 1) (Nat.succ_lt_succ hk)

end PopBatchLoop

section Spans

variable {q : MpmcQueue T} {n : Nat}

theorem MpmcQueue.Windowed.spans (hq : q.Windowed w n) : q.Spans w n :=
  ⟨hq.head_lt, hq.tail_eq, hq.le_capacity, hq.capacity_lt⟩

theorem MpmcQueue.Spans.len_eq (hq : q.Spans w n) : Word.sub w q.tail q.head = n := by
  rw [hq.tail_eq]
  exact Word.sub_add_left (Nat.lt_of_le_of_lt hq.le_capacity hq.capacity_lt)

theorem MpmcQueue.Spans.contents_eq (hq : q.Spans w n) :
    q.contents w = (popBatchLoop w q.capacity q.head n 0 q.buffer).1 := by
  have hall : min (2 ^ w - 1) n = n := by
    have := Nat.lt_of_le_of_lt hq.le_capacity hq.capacity_lt
    omega
  rw [MpmcQueue.contents, MpmcQueue.popBatch, hq.len_eq, hall]

theorem MpmcQueue.Spans.popBatch (hq : q.Spans w n) (maxValues : Nat) :
    (q.popBatch w maxValues).2.Spans w (n - min maxValues n) ∧
      (q.popBatch w maxValues).1 ++ (q.popBatch w maxValues).2.contents w = q.contents w := by
  have hsum : min maxValues n + (n - min maxValues n) = n :=
    Nat.add_sub_cancel' (Nat.min_le_right _ _)
  have hnext : (q.popBatch w maxValues).2.Spans w (n - min maxValues n) := by
    rw [MpmcQueue.popBatch, hq.len_eq]
    refine ⟨Word.add_lt w _ _, ?_, Nat.le_trans (Nat.sub_le _ _) hq.le_capacity, hq.capacity_lt⟩
    show q.tail = Word.add w (Word.add w q.head (min maxValues n)) (n - min maxValues n)
    rw [Word.add_add, hsum, hq.tail_eq]
  refine ⟨hnext, ?_⟩
  rw [hnext.contents_eq, hq.contents_eq]
  have hloop := congrArg Prod.fst
    (popBatchLoop_add (w := w) (c := q.capacity) (h := q.head) (min maxValues n)
      (n - min maxValues n) 0 q.buffer)
  rw [hsum] at hloop
  rw [hloop, MpmcQueue.popBatch, hq.len_eq]
  simp only [popBatchLoop_shift, Nat.add_comm]

/-- A pop is a batch of one, unless the queue is empty. -/
theorem MpmcQueue.Spans.pop (hq : q.Spans w n) :
    ∃ m, (q.pop w).2.Spans w m ∧
      (q.pop w).1.toList ++ (q.pop w).2.contents w = q.contents w := by
  have hbatch := hq.popBatch 1
  cases n with
  | zero =>
    have heq : q.head = q.tail := by
      rw [hq.tail_eq, Word.add_zero_of_lt hq.head_lt]
    rw [MpmcQueue.pop, if_pos heq]
    exact ⟨0, hq, rfl⟩
  | succ n =>
    have hne : ¬ q.head = q.tail := by
      intro heq
      have hlen := hq.len_eq
      rw [heq, Word.sub_self] at hlen
      cases hlen
    have hone : min 1 (n + 1) = 1 := Nat.min_eq_left (by omega)
    have hpop : q.popBatch w 1 = ((q.pop w).1.toList, (q.pop w).2) := by
      rw [MpmcQueue.popBatch, hq.len_eq, hone, MpmcQueue.pop, if_neg hne]
      simp [popBatchLoop, MpmcQueue.index, Word.add_zero_of_lt hq.head_lt]
    rw [hpop] at hbatch
    exact ⟨_, hbatch⟩

end Spans

/-! ### The loop over an iterator that may panic -/

section PushBatchLoop

variable {c tail j : Nat} {values : Nat → Called T}

variable (w c tail) in
/-- Up to a panic the loop does what it does on an iterator that ends there. -/
theorem pushBatchLoop_value? (values : Nat → Called T) (available : Nat) :
    ∀ (pushed : Nat) (buffer : List (Option T)),
      (GuardedQueue.pushBatchLoop w c tail values false available pushed buffer).2 =
        (MpmcQueue.pushBatchLoop w c tail (fun k => (values k).value?) available pushed buffer).2 ∧
      ∀ k, (GuardedQueue.pushBatchLoop w c tail values false available pushed buffer).1 = some k →
        k = (MpmcQueue.pushBatchLoop w c tail (fun k => (values k).value?) available pushed
          buffer).1 := by
  induction available with
  | zero =>
    intro pushed buffer
    exact ⟨rfl, fun k hk => (Option.some.inj hk).symm⟩
  | succ available ih =>
    intro pushed buffer
    rw [GuardedQueue.pushBatchLoop, MpmcQueue.pushBatchLoop]
    cases values pushed with
    | item value => exact ih (pushed + 1) _
    | done => exact ⟨rfl, fun k hk => (Option.some.inj hk).symm⟩
    | panic =>
      refine ⟨rfl, fun k hk => ?_⟩
      cases hk

variable (w c tail) in
/-- The loop panics with the iterator, and has written the slots of the values before that. -/
theorem pushBatchLoop_panics (hpanic : values j = .panic) (available : Nat) :
    ∀ (pushed : Nat) (buffer : List (Option T)), pushed ≤ j → j < pushed + available →
      (∀ i, pushed ≤ i → i < j → ∃ value, values i = .item value) →
      (GuardedQueue.pushBatchLoop w c tail values false available pushed buffer).1 = none ∧
      ∀ slot, (∀ i, pushed ≤ i → i < j → Word.add w tail i % c ≠ slot) →
        (GuardedQueue.pushBatchLoop w c tail values false available pushed buffer).2[slot]? =
          buffer[slot]? := by
  induction available with
  | zero =>
    intro pushed buffer hle hlt
    omega
  | succ available ih =>
    intro pushed buffer hle hlt hitems
    rw [GuardedQueue.pushBatchLoop]
    rcases Nat.eq_or_lt_of_le hle with rfl | hbefore
    · rw [hpanic]
      exact ⟨rfl, fun _ _ => rfl⟩
    · obtain ⟨value, hvalue⟩ := hitems pushed (Nat.le_refl _) hbefore
      have hrest := ih (pushed + 1)
        (buffer.set (Word.add w tail pushed % c) (some value)) hbefore (by omega)
        fun i hi => hitems i (Nat.le_of_succ_le hi)
      rw [hvalue]
      refine ⟨hrest.1, fun slot hslot => ?_⟩
      exact (hrest.2 slot fun i hi => hslot i (Nat.le_of_succ_le hi)).trans
        (List.getElem?_set_ne (hslot pushed (Nat.le_refl _) hbefore))

end PushBatchLoop

/-! ### Reachable queues -/

/-- Only the mutex of the pushes is ever poisoned, and until then the queue is a window. -/
structure GuardedQueue.Sound (w : Nat) (g : GuardedQueue T) : Prop where
  pop_free : g.popPoisoned = false
  buffer_free : g.bufferPoisoned = false
  windowed : g.pushPoisoned = false → ∃ n, g.queue.Windowed w n

section Sound

variable {g : GuardedQueue T}

theorem sound_new (capacity : Capacity w) : (GuardedQueue.new capacity : GuardedQueue T).Sound w :=
  ⟨rfl, rfl, fun _ => ⟨0, windowed_new capacity⟩⟩

theorem GuardedQueue.Sound.pop_eq (hg : g.Sound w) :
    g.pop w = (some (g.queue.pop w).1, { g with queue := (g.queue.pop w).2 }) := by
  rw [GuardedQueue.pop, if_neg (by simp [hg.pop_free])]
  split
  · next heq => rw [MpmcQueue.pop, if_pos heq]
  · rw [if_neg (by simp [hg.buffer_free])]

theorem GuardedQueue.Sound.popBatch_eq (hg : g.Sound w) (maxValues : Nat) :
    g.popBatch w maxValues = (some (g.queue.popBatch w maxValues).1,
      { g with queue := (g.queue.popBatch w maxValues).2 }) := by
  simp [GuardedQueue.popBatch, hg.pop_free, hg.buffer_free]

theorem GuardedQueue.Sound.push (hg : g.Sound w) (value : T) : (g.push w value).2.Sound w := by
  rw [GuardedQueue.push]
  split
  · exact hg
  · next hfree =>
    rw [Bool.not_eq_true] at hfree
    obtain ⟨n, hq⟩ := hg.windowed hfree
    obtain ⟨m, hq'⟩ := hq.apply (.push value)
    rw [MpmcQueue.apply] at hq'
    split
    · exact hg
    · next queue hpush =>
      rw [hpush] at hq'
      rw [hg.buffer_free]
      exact ⟨hg.pop_free, rfl, fun _ => ⟨m, hq'⟩⟩

theorem GuardedQueue.Sound.pushBatch (hg : g.Sound w) (values : Nat → Called T) :
    (g.pushBatch w values).2.Sound w := by
  rw [GuardedQueue.pushBatch]
  split
  · exact hg
  · next hfree =>
    rw [Bool.not_eq_true] at hfree
    obtain ⟨n, hq⟩ := hg.windowed hfree
    have hloop := pushBatchLoop_value? w g.queue.capacity g.queue.tail values
      (Word.sub w g.queue.capacity (Word.sub w g.queue.tail g.queue.head)) 0 g.queue.buffer
    rw [hg.buffer_free]
    dsimp only
    split
    · exact ⟨hg.pop_free, rfl, nofun⟩
    · next pushed buffer heq =>
      rw [heq] at hloop
      obtain ⟨hbuffer, hpushed⟩ := hloop
      have hq' := hq.pushBatch fun k => (values k).value?
      rw [MpmcQueue.pushBatch, ← hbuffer, ← hpushed pushed rfl] at hq'
      exact ⟨hg.pop_free, rfl, fun _ => ⟨n + pushed, hq'⟩⟩

theorem GuardedQueue.Sound.apply (hg : g.Sound w) (op : GuardedOp T) :
    (g.apply w op).2.Sound w := by
  have hqueue : ∀ op : QueueOp T,
      ({ g with queue := (g.queue.apply w op).2 } : GuardedQueue T).Sound w := by
    intro op
    refine ⟨hg.pop_free, hg.buffer_free, fun hfree => ?_⟩
    obtain ⟨n, hq⟩ := hg.windowed hfree
    exact hq.apply op
  cases op with
  | push value => exact hg.push value
  | pop =>
    rw [GuardedQueue.apply, hg.pop_eq]
    exact hqueue .pop
  | pushBatch values => exact hg.pushBatch values
  | popBatch maxValues =>
    rw [GuardedQueue.apply, hg.popBatch_eq]
    exact hqueue (.popBatch maxValues)

theorem GuardedQueue.Sound.after (hg : g.Sound w) (ops : List (GuardedOp T)) :
    (g.after w ops).Sound w := by
  induction ops generalizing g with
  | nil => exact hg
  | cons op ops ih => exact ih (hg.apply op)

end Sound

/-! ### After the panic -/

section Poisoned

variable {g : GuardedQueue T} {op : GuardedOp T} {n : Nat}

/-- With the mutex of the pushes poisoned, an operation panics unless it is a pop. -/
theorem GuardedQueue.Sound.apply_poisoned (hg : g.Sound w) (hpush : g.pushPoisoned = true)
    (op : GuardedOp T) : ((g.apply w op).1 ≠ none ↔ op.isPop = true) ∧
      (g.apply w op).2.pushPoisoned = true := by
  cases op with
  | push value => simp [GuardedQueue.apply, GuardedQueue.push, hpush, GuardedOp.isPop]
  | pop => simp [GuardedQueue.apply, hg.pop_eq, hpush, GuardedOp.isPop]
  | pushBatch values => simp [GuardedQueue.apply, GuardedQueue.pushBatch, hpush, GuardedOp.isPop]
  | popBatch maxValues => simp [GuardedQueue.apply, hg.popBatch_eq, hpush, GuardedOp.isPop]

theorem GuardedQueue.Sound.returns_iff (ops : List (GuardedOp T)) :
    ∀ {g : GuardedQueue T}, g.Sound w → g.pushPoisoned = true →
      ((∀ outcome ∈ g.outcomes w ops, outcome ≠ none) ↔ ∀ op ∈ ops, op.isPop = true) := by
  induction ops with
  | nil =>
    intro g _ _
    exact iff_of_true nofun nofun
  | cons op ops ih =>
    intro g hg hpush
    obtain ⟨hreturn, hpush'⟩ := hg.apply_poisoned hpush op
    rw [GuardedQueue.outcomes, List.forall_mem_cons, List.forall_mem_cons, hreturn,
      ih (hg.apply op) hpush']

/-- Pops accept nothing. -/
theorem accepted_of_pops (ops : List (GuardedOp T)) :
    ∀ (g : GuardedQueue T), (∀ op ∈ ops, op.isPop = true) → g.accepted w ops = [] := by
  induction ops with
  | nil =>
    intro g _
    rfl
  | cons op ops ih =>
    intro g hpops
    obtain ⟨hop, hrest⟩ := List.forall_mem_cons.mp hpops
    have hnone : g.pushedBy w op = [] := by
      cases op with
      | push value => cases hop
      | pushBatch values => cases hop
      | pop => rfl
      | popBatch maxValues => rfl
    rw [GuardedQueue.accepted, hnone, ih _ hrest, List.append_nil]

/-- Pops return the contents from the front on, and leave the rest. -/
theorem GuardedQueue.Sound.popped_append (ops : List (GuardedOp T)) :
    ∀ {g : GuardedQueue T} {n : Nat}, g.Sound w → g.queue.Spans w n →
      (∀ op ∈ ops, op.isPop = true) →
      popped (g.outcomes w ops) ++ (g.after w ops).queue.contents w = g.queue.contents w := by
  induction ops with
  | nil =>
    intro g n _ _ _
    rfl
  | cons op ops ih =>
    intro g n hg hq hpops
    rw [List.forall_mem_cons] at hpops
    obtain ⟨hop, hrest⟩ := hpops
    have hg' := hg.apply op
    have hafter : g.after w (op :: ops) = (g.apply w op).2.after w ops := rfl
    rw [hafter]
    cases op with
    | push value => cases hop
    | pushBatch values => cases hop
    | pop =>
      obtain ⟨m, hq', hcontents⟩ := hq.pop
      rw [GuardedQueue.apply, hg.pop_eq] at hg'
      rw [GuardedQueue.outcomes, GuardedQueue.apply, hg.pop_eq, ← hcontents, ← ih hg' hq' hrest]
      exact List.append_assoc ..
    | popBatch maxValues =>
      obtain ⟨hq', hcontents⟩ := hq.popBatch maxValues
      rw [GuardedQueue.apply, hg.popBatch_eq] at hg'
      rw [GuardedQueue.outcomes, GuardedQueue.apply, hg.popBatch_eq, ← hcontents,
        ← ih hg' hq' hrest]
      exact List.append_assoc ..

end Poisoned

/-- **After a panicking iterator.**  In every reachable state, all later operations return exactly
    when none of them is a push or a batch of pushes: the mutex of the pushes is poisoned, and
    `lock().unwrap()` panics.  Where no slot that the batch wrote belongs to a value of the queue,
    the values that pops return are right as well. -/
theorem survives_iff (capacity : Capacity w) (ops : List (GuardedOp T)) {g : GuardedQueue T}
    (hrun : (GuardedQueue.new capacity : GuardedQueue T).after w ops = g)
    {values : Nat → Called T} {j : Nat} (hpanic : g.PanicsAt w values j)
    (later : List (GuardedOp T)) :
    ((∀ outcome ∈ (g.pushBatch w values).2.outcomes w later, outcome ≠ none) ↔
        ∀ op ∈ later, op.isPop = true) ∧
      (g.Apart w j → (g.Survives w values j later ↔ ∀ op ∈ later, op.isPop = true)) := by
  have hg : g.Sound w := by
    rw [← hrun]
    exact (sound_new capacity).after ops
  obtain ⟨n, hq⟩ := hg.windowed hpanic.unpoisoned
  have hlen : g.queue.len w = n := hq.len_eq
  have hroom := hpanic.room
  rw [hlen] at hroom
  obtain ⟨hnone, hframe⟩ := pushBatchLoop_panics w g.queue.capacity g.queue.tail
    hpanic.panics (g.queue.capacity - n) 0 g.queue.buffer (Nat.zero_le j) (by omega)
    fun i _ hi => hpanic.items i hi
  obtain ⟨buffer, hloop⟩ : ∃ buffer, GuardedQueue.pushBatchLoop w g.queue.capacity g.queue.tail
      values false (g.queue.capacity - n) 0 g.queue.buffer = (none, buffer) :=
    ⟨_, Prod.ext hnone rfl⟩
  rw [hloop] at hframe
  have hbatch : (g.pushBatch w values).2 =
      { g with queue := { g.queue with buffer := buffer }, pushPoisoned := true } := by
    rw [GuardedQueue.pushBatch, if_neg (by simp [hpanic.unpoisoned])]
    simp only [hq.available_eq, hg.buffer_free, hloop]
  have hnext := hg.pushBatch values
  have hpoisoned : (g.pushBatch w values).2.pushPoisoned = true := by rw [hbatch]
  have hreturns := GuardedQueue.Sound.returns_iff later hnext hpoisoned
  refine ⟨hreturns, fun hapart => ?_⟩
  rw [GuardedQueue.Survives, hreturns]
  refine ⟨And.left, fun hpops => ⟨hpops, [], _, List.nil_prefix,
    congrArg Prod.fst ((hnext.after later).popBatch_eq _), ?_⟩⟩
  have hspans : (g.pushBatch w values).2.queue.Spans w n := by
    rw [hbatch]
    exact ⟨hq.head_lt, hq.tail_eq, hq.le_capacity, hq.capacity_lt⟩
  -- the panicked batch has not touched the slots of the window
  have hcontents : (g.pushBatch w values).2.queue.contents w = g.queue.contents w := by
    rw [hspans.contents_eq, hq.spans.contents_eq, hbatch]
    apply popBatchLoop_congr
    intro k hk
    rw [Nat.zero_add]
    exact hframe _ fun i _ hi => hapart i hi k (by rw [hlen]; exact hk)
  rw [accepted_of_pops later _ hpops, List.append_nil, List.append_nil, ← hcontents]
  exact GuardedQueue.Sound.popped_append later hnext hspans hpops

/-- A queue of two values, to which the iterator adds one before it panics. -/
theorem survives_iff_severalPops :
    ∃ g : GuardedQueue Nat,
      (GuardedQueue.new (w := 64) ⟨4, by decide, by decide⟩).after 64 [.push 5, .push 6] = g ∧
      popped ((g.pushBatch 64 fun k => if k = 0 then .item 7 else .panic).2.outcomes 64
        [.pop, .popBatch 3, .pop]) = [5, 6] ∧
      g.Survives 64 (fun k => if k = 0 then .item 7 else .panic) 1 [.pop, .popBatch 3, .pop] := by
  refine ⟨_, rfl, by decide, ?_⟩
  have hpanic : ((GuardedQueue.new (w := 64) ⟨4, by decide, by decide⟩).after 64
      [.push 5, .push 6]).PanicsAt 64 (fun k => if k = 0 then .item 7 else .panic) 1 := by
    refine ⟨rfl, by decide, fun i hi => ⟨7, ?_⟩, rfl⟩
    rw [if_pos (Nat.lt_one_iff.mp hi)]
  refine ((survives_iff _ [.push 5, .push 6] rfl hpanic [.pop, .popBatch 3, .pop]).2 ?_).mpr
    (by decide)
  show ∀ i < 1, ∀ k < _, _
  decide

/-- The iterator yields one value and panics; the next push panics as well. -/
theorem push_panics_after_iterator :
    ¬ ∀ (capacity : Capacity 64) (ops : List (GuardedOp Nat)) (values : Nat → Called Nat) (j : Nat),
      ((GuardedQueue.new capacity).after 64 ops).PanicsAt 64 values j →
        ∀ later, ((GuardedQueue.new capacity).after 64 ops).Survives 64 values j later := by
  intro hall
  have hpanic : (GuardedQueue.new (w := 64) ⟨2, by decide, by decide⟩ : GuardedQueue Nat).PanicsAt
      64 (fun k => if k = 0 then .item 7 else .panic) 1 := by
    refine ⟨rfl, by decide, fun i hi => ⟨7, ?_⟩, rfl⟩
    rw [if_pos (Nat.lt_one_iff.mp hi)]
  have hreturns := (hall _ [] _ 1 hpanic [.push 8]).1
  revert hreturns
  decide

end VelocityX.MpmcSimple
