import VelocityX.Queue.MpmcSimpleThreads

/-!
# Safety of the default bounded queue

Producers and consumers hold different locks, so each side checks its bound against
an index of the other side that may already be stale.  The proof abstracts the
shared state to a `Ring.Channel`, and every program counter to what its call knows
while it holds a lock: `Producer` for the calls under `push_lock` and `Consumer`
for those under `pop_lock`.  One lemma for each operation says that its steps keep
the channel invariant and this knowledge; a frame lemma says that they keep the
knowledge of all other threads.
-/

namespace VelocityX.MpmcSimple.Threads

open Transition

variable {ι T : Type*} {w cap : Nat}

/-! ### The channel behind the shared state -/

def Shared.channel (sh : Shared ι T) : Ring.Channel T :=
  ⟨sh.buffer, sh.head, sh.tail, sh.accepted.map Prod.snd, sh.returned.map Prod.snd,
    sh.staged, sh.taken⟩

structure Good (cap : Nat) (sh : Shared ι T) : Prop where
  capacity_eq : sh.capacity = cap
  inv : Ring.Channel.Inv cap sh.channel
  push_free : sh.pushLock = none → sh.staged = []
  pop_free : sh.popLock = none → sh.taken = []
  written_eq : sh.written = sh.tail + sh.staged.length

theorem good_new (cap : Nat) : Good cap (Shared.new cap : Shared ι T) :=
  ⟨rfl, Ring.Channel.inv_empty cap, fun _ => rfl, fun _ => rfl, rfl⟩

theorem Good.head_le_tail {sh : Shared ι T} (h : Good cap sh) :
    sh.head + sh.taken.length ≤ sh.tail := h.inv.head_le_tail

theorem Good.tail_le {sh : Shared ι T} (h : Good cap sh) :
    sh.tail + sh.staged.length ≤ sh.head + cap := h.inv.room

theorem Good.sub_eq {sh : Shared ι T} (h : Good cap sh) (hw : sh.written < 2 ^ w) :
    Word.sub w sh.tail sh.head = sh.tail - sh.head := by
  have hle := h.head_le_tail
  have hwritten := h.written_eq
  exact Word.sub_of_le (by omega) (by omega)

theorem Good.writeSlot {sh : Shared ι T} {position : Nat} {value : T} (h : Good cap sh)
    (hlock : sh.pushLock ≠ none) (hpos : position = sh.tail + sh.staged.length)
    (hroom : position < sh.head + cap) : Good cap (sh.writeSlot position value) := by
  obtain ⟨rfl, hinv, hpush, hpop, hwritten⟩ := h
  subst hpos
  refine ⟨rfl, hinv.write hroom value, fun hn => absurd hn hlock, hpop, ?_⟩
  simp only [Shared.writeSlot, List.length_append, List.length_singleton]
  omega

theorem Good.storeTail {sh : Shared ι T} {t : ι} {tail : Nat} {values : List T}
    (h : Good cap sh) (htail : tail = sh.tail + sh.staged.length)
    (hvalues : values = sh.staged) : Good cap (sh.storeTail t tail values) := by
  obtain ⟨hcap, hinv, hpush, hpop, hwritten⟩ := h
  subst htail hvalues
  refine ⟨hcap, ?_, fun _ => rfl, hpop, hwritten⟩
  have hpublish := hinv.publishTail
  simpa [Shared.channel, Shared.storeTail, Ring.Channel.publishTail, Function.comp_def]
    using hpublish

theorem Good.takeSlot {sh : Shared ι T} (h : Good cap sh) (position : Nat)
    (hlock : sh.popLock ≠ none) (hpos : position = sh.head + sh.taken.length)
    (hlt : position < sh.tail) :
    Good cap (sh.takeSlot position).2 ∧ ∃ value, (sh.takeSlot position).1 = some value := by
  obtain ⟨rfl, hinv, hpush, hpop, hwritten⟩ := h
  subst hpos
  refine ⟨⟨rfl, hinv.take hlt, hpush, fun hn => absurd hn hlock, hwritten⟩, ?_⟩
  obtain ⟨x, _, _, hx, _⟩ := hinv.takeSlot_full hlt
  exact ⟨x, congrArg Option.join hx⟩

theorem Good.storeHead {sh : Shared ι T} {t : ι} {head : Nat} {values : List T}
    (h : Good cap sh) (hhead : head = sh.head + sh.taken.length)
    (hvalues : values = sh.taken) : Good cap (sh.storeHead t head values) := by
  obtain ⟨hcap, hinv, hpush, hpop, hwritten⟩ := h
  subst hhead hvalues
  refine ⟨hcap, ?_, hpush, fun _ => rfl, hwritten⟩
  have hpublish := hinv.publishHead
  simpa [Shared.channel, Shared.storeHead, Ring.Channel.publishHead, Function.comp_def]
    using hpublish

/-! ### What a call knows while it holds a lock -/

inductive Producer (T : Type*) where
  | out
  | holding
  | located (tail : Nat)
  /-- `pushed` of at most `room` values are written from `tail` on. -/
  | filling (tail room pushed : Nat) (values : List T)

def ProducerOk (t : ι) (sh : Shared ι T) : Producer T → Prop
  | .out => sh.pushLock ≠ some t
  | .holding => sh.pushLock = some t ∧ sh.staged = []
  | .located tail => sh.pushLock = some t ∧ sh.staged = [] ∧ sh.tail = tail
  | .filling tail room pushed values =>
      sh.pushLock = some t ∧ sh.staged = values ∧ values.length = pushed ∧ sh.tail = tail ∧
        tail + room ≤ sh.head + sh.capacity ∧ pushed ≤ room

inductive Consumer (T : Type*) where
  | out
  | holding
  | located (head : Nat)
  /-- `i` of `items` values are taken from `head` on. -/
  | draining (head items i : Nat) (values : List T)

def ConsumerOk (t : ι) (sh : Shared ι T) : Consumer T → Prop
  | .out => sh.popLock ≠ some t
  | .holding => sh.popLock = some t ∧ sh.taken = []
  | .located head => sh.popLock = some t ∧ sh.taken = [] ∧ sh.head = head
  | .draining head items i values =>
      sh.popLock = some t ∧ sh.taken = values ∧ values.length = i ∧ sh.head = head ∧
        head + items ≤ sh.tail ∧ i ≤ items

def PushPc.producer (value : T) : PushPc → Producer T
  | .lock => .out
  | .loadTail => .holding
  | .loadHead tail => .located tail
  | .write tail => .filling tail 1 0 []
  | .storeTail tail => .filling tail 1 1 [value]
  | .unlock _ => .holding

def PushBatchPc.producer (values : Nat → Option T) : PushBatchPc → Producer T
  | .lock => .out
  | .loadTail => .holding
  | .loadHead tail => .located tail
  | .loop tail available pushed => .filling tail available pushed (firstValues values pushed)
  | .unlock _ => .holding

def PopPc.consumer : PopPc T → Consumer T
  | .lock => .out
  | .loadHead => .holding
  | .loadTail head => .located head
  | .take head => .draining head 1 0 []
  | .storeHead head value => .draining head 1 1 value.toList
  | .unlock _ => .holding

def PopBatchPc.consumer : PopBatchPc T → Consumer T
  | .lock => .out
  | .loadHead => .holding
  | .loadTail head => .located head
  | .loop head items i values => .draining head items i values
  | .unlock _ => .holding

def Pc.producer : Pc T → Producer T
  | .push value pc => pc.producer value
  | .pushBatch values pc => pc.producer values
  | _ => .out

def Pc.consumer : Pc T → Consumer T
  | .pop pc => pc.consumer
  | .popBatch _ pc => pc.consumer
  | _ => .out

def nextProducer {P R : Type*} (view : P → Producer T) : Next P R → Producer T
  | .goto pc => view pc
  | .ret _ => .out

def nextConsumer {P R : Type*} (view : P → Consumer T) : Next P R → Consumer T
  | .goto pc => view pc
  | .ret _ => .out

/-! ### Frames

A step of a call under `push_lock` (or on its way to it) leaves the consumers'
side alone except that `tail` may grow, and the other way round. -/

structure ProducerFrame (t : ι) (sh sh' : Shared ι T) : Prop where
  lock : sh.pushLock = none ∨ sh.pushLock = some t
  lock' : sh'.pushLock = none ∨ sh'.pushLock = some t
  popLock : sh'.popLock = sh.popLock
  taken : sh'.taken = sh.taken
  head : sh'.head = sh.head
  tail : sh.tail ≤ sh'.tail

structure ConsumerFrame (t : ι) (sh sh' : Shared ι T) : Prop where
  lock : sh.popLock = none ∨ sh.popLock = some t
  lock' : sh'.popLock = none ∨ sh'.popLock = some t
  pushLock : sh'.pushLock = sh.pushLock
  staged : sh'.staged = sh.staged
  tail : sh'.tail = sh.tail
  head : sh.head ≤ sh'.head
  capacity : sh'.capacity = sh.capacity

theorem ProducerFrame.refl {t : ι} {sh : Shared ι T} (h : sh.pushLock = some t) :
    ProducerFrame t sh sh := ⟨Or.inr h, Or.inr h, rfl, rfl, rfl, Nat.le_refl _⟩

theorem ConsumerFrame.refl {t : ι} {sh : Shared ι T} (h : sh.popLock = some t) :
    ConsumerFrame t sh sh := ⟨Or.inr h, Or.inr h, rfl, rfl, rfl, Nat.le_refl _, rfl⟩

theorem ProducerFrame.consumerOk {t u : ι} {sh sh' : Shared ι T} {k : Consumer T}
    (hf : ProducerFrame t sh sh') (h : ConsumerOk u sh k) : ConsumerOk u sh' k := by
  have htail := hf.tail
  cases k with
  | out => simpa only [ConsumerOk, hf.popLock] using h
  | holding => simpa only [ConsumerOk, hf.popLock, hf.taken] using h
  | located head => simpa only [ConsumerOk, hf.popLock, hf.taken, hf.head] using h
  | draining head items i values =>
    obtain ⟨hlock, htaken, hlen, hhead, hbound, hi⟩ := h
    exact ⟨by rw [hf.popLock, hlock], by rw [hf.taken, htaken], hlen, by rw [hf.head, hhead],
      by omega, hi⟩

theorem ConsumerFrame.producerOk {t u : ι} {sh sh' : Shared ι T} {p : Producer T}
    (hf : ConsumerFrame t sh sh') (h : ProducerOk u sh p) : ProducerOk u sh' p := by
  have hhead := hf.head
  have hcap := hf.capacity
  cases p with
  | out => simpa only [ProducerOk, hf.pushLock] using h
  | holding => simpa only [ProducerOk, hf.pushLock, hf.staged] using h
  | located tail => simpa only [ProducerOk, hf.pushLock, hf.staged, hf.tail] using h
  | filling tail room pushed values =>
    obtain ⟨hlock, hstaged, hlen, htail, hbound, hi⟩ := h
    exact ⟨by rw [hf.pushLock, hlock], by rw [hf.staged, hstaged], hlen, by rw [hf.tail, htail],
      by omega, hi⟩

/-- Only the thread that holds `push_lock` knows anything about the producers' side. -/
theorem ProducerFrame.producerOk_other {t u : ι} {sh sh' : Shared ι T} {p : Producer T}
    (hf : ProducerFrame t sh sh') (hu : u ≠ t) (h : ProducerOk u sh p) :
    ProducerOk u sh' p := by
  have hnot : sh.pushLock ≠ some u := by
    rcases hf.lock with hl | hl <;> simp [hl, Ne.symm hu]
  have hnot' : sh'.pushLock ≠ some u := by
    rcases hf.lock' with hl | hl <;> simp [hl, Ne.symm hu]
  cases p with
  | out => exact hnot'
  | holding => exact absurd h.1 hnot
  | located tail => exact absurd h.1 hnot
  | filling tail room pushed values => exact absurd h.1 hnot

theorem ConsumerFrame.consumerOk_other {t u : ι} {sh sh' : Shared ι T} {k : Consumer T}
    (hf : ConsumerFrame t sh sh') (hu : u ≠ t) (h : ConsumerOk u sh k) :
    ConsumerOk u sh' k := by
  have hnot : sh.popLock ≠ some u := by
    rcases hf.lock with hl | hl <;> simp [hl, Ne.symm hu]
  have hnot' : sh'.popLock ≠ some u := by
    rcases hf.lock' with hl | hl <;> simp [hl, Ne.symm hu]
  cases k with
  | out => exact hnot'
  | holding => exact absurd h.1 hnot
  | located head => exact absurd h.1 hnot
  | draining head items i values => exact absurd h.1 hnot

/-! ### The steps of the operations -/

theorem lockPush_ok {t : ι} {sh sh' : Shared ι T} (hg : Good cap sh)
    (hstep : sh.lockPush t = some sh') :
    Good cap sh' ∧ ProducerFrame t sh sh' ∧ ProducerOk t sh' .holding := by
  simp only [Shared.lockPush] at hstep
  split at hstep
  · rename_i hfree
    cases hstep
    refine ⟨⟨hg.capacity_eq, hg.inv, ?_, hg.pop_free, hg.written_eq⟩,
      ⟨Or.inl hfree, Or.inr rfl, rfl, rfl, rfl, Nat.le_refl _⟩, rfl, hg.push_free hfree⟩
    intro hn
    cases hn
  · cases hstep

theorem unlockPush_ok {t : ι} {sh : Shared ι T} (hg : Good cap sh)
    (h : ProducerOk t sh .holding) :
    Good cap sh.unlockPush ∧ ProducerFrame t sh sh.unlockPush ∧
      ProducerOk t sh.unlockPush .out := by
  refine ⟨⟨hg.capacity_eq, hg.inv, fun _ => h.2, hg.pop_free, hg.written_eq⟩,
    ⟨Or.inr h.1, Or.inl rfl, rfl, rfl, rfl, Nat.le_refl _⟩, ?_⟩
  intro hn
  cases hn

theorem lockPop_ok {t : ι} {sh sh' : Shared ι T} (hg : Good cap sh)
    (hstep : sh.lockPop t = some sh') :
    Good cap sh' ∧ ConsumerFrame t sh sh' ∧ ConsumerOk t sh' .holding := by
  simp only [Shared.lockPop] at hstep
  split at hstep
  · rename_i hfree
    cases hstep
    refine ⟨⟨hg.capacity_eq, hg.inv, hg.push_free, ?_, hg.written_eq⟩,
      ⟨Or.inl hfree, Or.inr rfl, rfl, rfl, rfl, Nat.le_refl _, rfl⟩, rfl, hg.pop_free hfree⟩
    intro hn
    cases hn
  · cases hstep

theorem unlockPop_ok {t : ι} {sh : Shared ι T} (hg : Good cap sh)
    (h : ConsumerOk t sh .holding) :
    Good cap sh.unlockPop ∧ ConsumerFrame t sh sh.unlockPop ∧
      ConsumerOk t sh.unlockPop .out := by
  refine ⟨⟨hg.capacity_eq, hg.inv, hg.push_free, fun _ => h.2, hg.written_eq⟩,
    ⟨Or.inr h.1, Or.inl rfl, rfl, rfl, rfl, Nat.le_refl _, rfl⟩, ?_⟩
  intro hn
  cases hn

/-- A write inside the bound the producer computed. -/
theorem writeSlot_ok {t : ι} {sh : Shared ι T} {tail room pushed : Nat} {values : List T}
    (hg : Good cap sh) (h : ProducerOk t sh (.filling tail room pushed values))
    (hlt : pushed < room) (value : T) :
    Good cap (sh.writeSlot (tail + pushed) value) ∧
      ProducerFrame t sh (sh.writeSlot (tail + pushed) value) ∧
      ProducerOk t (sh.writeSlot (tail + pushed) value)
        (.filling tail room (pushed + 1) (values ++ [value])) := by
  obtain ⟨hlock, hstaged, hlen, htail, hbound, hle⟩ := h
  have hcap := hg.capacity_eq
  refine ⟨hg.writeSlot (by simp [hlock]) (by rw [htail, hstaged, hlen]) (by omega),
    ⟨Or.inr hlock, Or.inr hlock, rfl, rfl, rfl, Nat.le_refl _⟩,
    hlock, by simp [Shared.writeSlot, hstaged], by simp [hlen], htail, hbound, hlt⟩

theorem storeTail_ok {t : ι} {sh : Shared ι T} {tail room pushed : Nat} {values : List T}
    (hg : Good cap sh) (h : ProducerOk t sh (.filling tail room pushed values)) :
    Good cap (sh.storeTail t (tail + pushed) values) ∧
      ProducerFrame t sh (sh.storeTail t (tail + pushed) values) ∧
      ProducerOk t (sh.storeTail t (tail + pushed) values) .holding := by
  obtain ⟨hlock, hstaged, hlen, htail, hbound, hle⟩ := h
  refine ⟨hg.storeTail (by rw [htail, hstaged, hlen]) hstaged.symm,
    ⟨Or.inr hlock, Or.inr hlock, rfl, rfl, rfl, ?_⟩, hlock, rfl⟩
  show sh.tail ≤ tail + pushed
  omega

theorem takeSlot_ok {t : ι} {sh : Shared ι T} {head items i : Nat} {values : List T}
    (hg : Good cap sh) (h : ConsumerOk t sh (.draining head items i values)) (hlt : i < items) :
    Good cap (sh.takeSlot (head + i)).2 ∧ ConsumerFrame t sh (sh.takeSlot (head + i)).2 ∧
      ∃ value, (sh.takeSlot (head + i)).1 = some value ∧
        ConsumerOk t (sh.takeSlot (head + i)).2
          (.draining head items (i + 1) (values ++ [value])) := by
  obtain ⟨hlock, htaken, hlen, hhead, hbound, hle⟩ := h
  obtain ⟨hg', value, hvalue⟩ := hg.takeSlot (head + i) (by simp [hlock])
    (by rw [hhead, htaken, hlen]) (by omega)
  refine ⟨hg', ⟨Or.inr hlock, Or.inr hlock, rfl, rfl, rfl, Nat.le_refl _, rfl⟩, value, hvalue,
    hlock, ?_, by simp [hlen], hhead, hbound, hlt⟩
  simp only [Shared.takeSlot] at hvalue
  simp [Shared.takeSlot, hvalue, htaken]

theorem storeHead_ok {t : ι} {sh : Shared ι T} {head items i : Nat} {values : List T}
    (hg : Good cap sh) (h : ConsumerOk t sh (.draining head items i values)) :
    Good cap (sh.storeHead t (head + i) values) ∧
      ConsumerFrame t sh (sh.storeHead t (head + i) values) ∧
      ConsumerOk t (sh.storeHead t (head + i) values) .holding := by
  obtain ⟨hlock, htaken, hlen, hhead, hbound, hle⟩ := h
  refine ⟨hg.storeHead (by rw [hhead, htaken, hlen]) htaken.symm,
    ⟨Or.inr hlock, Or.inr hlock, rfl, rfl, rfl, ?_, rfl⟩, hlock, rfl⟩
  show sh.head ≤ head + i
  omega

theorem pushStep_ok {t : ι} {value : T} {sh sh' : Shared ι T} {pc : PushPc}
    {next : Next PushPc (Except Error Unit)} (hg : Good cap sh) (hw : sh.written < 2 ^ w)
    (h : ProducerOk t sh (pc.producer value))
    (hstep : pushStep w t value sh pc = some (sh', next)) :
    Good cap sh' ∧ ProducerFrame t sh sh' ∧
      ProducerOk t sh' (nextProducer (PushPc.producer value) next) := by
  have hcap := hg.capacity_eq
  have hwritten := hg.written_eq
  cases pc with
  | lock =>
    obtain ⟨sh₁, hlock, heq⟩ := Option.map_eq_some_iff.mp hstep
    cases heq
    exact lockPush_ok hg hlock
  | loadTail =>
    cases hstep
    exact ⟨hg, .refl h.1, h.1, h.2, rfl⟩
  | loadHead tail =>
    obtain ⟨hlock, hstaged, rfl⟩ := h
    simp only [pushStep, hg.sub_eq hw] at hstep
    have hle := hg.head_le_tail
    split at hstep
    · cases hstep
      exact ⟨hg, .refl hlock, hlock, hstaged⟩
    · cases hstep
      exact ⟨hg, .refl hlock, hlock, hstaged, rfl, rfl, by omega, by omega⟩
  | write tail =>
    cases hstep
    exact writeSlot_ok hg h (by omega) value
  | storeTail tail =>
    obtain ⟨_, hstaged, _, htail, _⟩ := id h
    have hlen : sh.staged.length = 1 := by rw [hstaged]; rfl
    have hadd : Word.add w tail 1 = tail + 1 := Word.add_of_lt (by omega)
    simp only [pushStep, hadd] at hstep
    cases hstep
    exact storeTail_ok hg h
  | unlock result =>
    cases hstep
    exact unlockPush_ok hg h

theorem firstValues_succ {values : Nat → Option T} {n : Nat} {value : T}
    (h : values n = some value) :
    firstValues values (n + 1) = firstValues values n ++ [value] := by
  simp [firstValues, List.range_succ, h]

theorem pushBatchStep_ok {t : ι} {values : Nat → Option T} {sh sh' : Shared ι T}
    {pc : PushBatchPc} {next : Next PushBatchPc Nat} (hg : Good cap sh)
    (hw : sh.written < 2 ^ w) (hcap_lt : cap < 2 ^ w)
    (h : ProducerOk t sh (pc.producer values))
    (hstep : pushBatchStep w t values sh pc = some (sh', next)) :
    Good cap sh' ∧ ProducerFrame t sh sh' ∧
      ProducerOk t sh' (nextProducer (PushBatchPc.producer values) next) := by
  have hcap := hg.capacity_eq
  have hwritten := hg.written_eq
  cases pc with
  | lock =>
    obtain ⟨sh₁, hlock, heq⟩ := Option.map_eq_some_iff.mp hstep
    cases heq
    exact lockPush_ok hg hlock
  | loadTail =>
    cases hstep
    exact ⟨hg, .refl h.1, h.1, h.2, rfl⟩
  | loadHead tail =>
    obtain ⟨hlock, hstaged, rfl⟩ := h
    have hle := hg.head_le_tail
    have hroom := hg.tail_le
    have hsub : Word.sub w sh.capacity (sh.tail - sh.head) = cap - (sh.tail - sh.head) := by
      rw [hcap]
      exact Word.sub_of_le (by omega) hcap_lt
    simp only [pushBatchStep, hg.sub_eq hw, hsub] at hstep
    cases hstep
    exact ⟨hg, .refl hlock, hlock, hstaged, rfl, rfl, by omega, Nat.zero_le _⟩
  | loop tail available pushed =>
    obtain ⟨_, hstaged, hlen, htail, _, hle⟩ := id h
    have hlen' : sh.staged.length = pushed := by rw [hstaged, hlen]
    have hadd : Word.add w tail pushed = tail + pushed := Word.add_of_lt (by omega)
    simp only [pushBatchStep, hadd] at hstep
    split at hstep
    · rename_i value hvalue
      cases hstep
      have hlt : pushed < available := by
        by_contra hnot
        simp [hnot] at hvalue
      rw [if_pos hlt] at hvalue
      simpa only [nextProducer, PushBatchPc.producer, firstValues_succ hvalue]
        using writeSlot_ok hg h hlt value
    · cases hstep
      exact storeTail_ok hg h
  | unlock pushed =>
    cases hstep
    exact unlockPush_ok hg h

theorem popStep_ok {t : ι} {sh sh' : Shared ι T} {pc : PopPc T}
    {next : Next (PopPc T) (Option T)} (hg : Good cap sh) (hw : sh.written < 2 ^ w)
    (h : ConsumerOk t sh pc.consumer) (hstep : popStep w t sh pc = some (sh', next)) :
    Good cap sh' ∧ ConsumerFrame t sh sh' ∧
      ConsumerOk t sh' (nextConsumer PopPc.consumer next) := by
  have hwritten := hg.written_eq
  have hle := hg.head_le_tail
  cases pc with
  | lock =>
    obtain ⟨sh₁, hlock, heq⟩ := Option.map_eq_some_iff.mp hstep
    cases heq
    exact lockPop_ok hg hlock
  | loadHead =>
    cases hstep
    exact ⟨hg, .refl h.1, h.1, h.2, rfl⟩
  | loadTail head =>
    obtain ⟨hlock, htaken, rfl⟩ := h
    simp only [popStep] at hstep
    split at hstep
    · cases hstep
      exact ⟨hg, .refl hlock, hlock, htaken⟩
    · cases hstep
      exact ⟨hg, .refl hlock, hlock, htaken, rfl, rfl, by omega, by omega⟩
  | take head =>
    obtain ⟨hg', hframe, value, hvalue, hok⟩ := takeSlot_ok hg h (by omega)
    rw [Nat.add_zero] at hvalue
    cases hstep
    refine ⟨hg', hframe, ?_⟩
    simpa [nextConsumer, PopPc.consumer, hvalue] using hok
  | storeHead head value =>
    obtain ⟨_, htaken, hlen, hhead, hbound, _⟩ := id h
    have hadd : Word.add w head 1 = head + 1 := Word.add_of_lt (by omega)
    simp only [popStep, hadd] at hstep
    cases hstep
    exact storeHead_ok hg h
  | unlock value =>
    cases hstep
    exact unlockPop_ok hg h

theorem popBatchStep_ok {t : ι} {maxValues : Nat} {sh sh' : Shared ι T} {pc : PopBatchPc T}
    {next : Next (PopBatchPc T) (List T)} (hg : Good cap sh) (hw : sh.written < 2 ^ w)
    (h : ConsumerOk t sh pc.consumer)
    (hstep : popBatchStep w t maxValues sh pc = some (sh', next)) :
    Good cap sh' ∧ ConsumerFrame t sh sh' ∧
      ConsumerOk t sh' (nextConsumer PopBatchPc.consumer next) := by
  have hwritten := hg.written_eq
  have hle := hg.head_le_tail
  cases pc with
  | lock =>
    obtain ⟨sh₁, hlock, heq⟩ := Option.map_eq_some_iff.mp hstep
    cases heq
    exact lockPop_ok hg hlock
  | loadHead =>
    cases hstep
    exact ⟨hg, .refl h.1, h.1, h.2, rfl⟩
  | loadTail head =>
    obtain ⟨hlock, htaken, rfl⟩ := h
    simp only [popBatchStep, hg.sub_eq hw] at hstep
    cases hstep
    exact ⟨hg, .refl hlock, hlock, htaken, rfl, rfl, by omega, Nat.zero_le _⟩
  | loop head items i values =>
    obtain ⟨_, htaken, hlen, hhead, hbound, hi⟩ := id h
    have hadd : Word.add w head i = head + i := Word.add_of_lt (by omega)
    simp only [popBatchStep, hadd] at hstep
    split at hstep
    · rename_i hlt
      obtain ⟨hg', hframe, value, hvalue, hok⟩ := takeSlot_ok hg h hlt
      cases hstep
      refine ⟨hg', hframe, ?_⟩
      simpa [nextConsumer, PopBatchPc.consumer, hvalue] using hok
    · have hitems : items = i := by omega
      subst hitems
      simp only [hadd] at hstep
      cases hstep
      exact storeHead_ok hg h
  | unlock values =>
    cases hstep
    exact unlockPop_ok hg h

/-! ### The invariant of a run -/

def ThreadOk (t : ι) (sh : Shared ι T) (l : Local T) : Prop :=
  ProducerOk t sh l.pc.producer ∧ ConsumerOk t sh l.pc.consumer

theorem program_ok {t : ι} {sh sh' : Shared ι T} {l l' : Local T} {a : Act T}
    (hcap_lt : cap < 2 ^ w) (hg : Good cap sh ∧ sh.written < 2 ^ w) (h : ThreadOk t sh l)
    (hstep : program w t sh l a = some (sh', l')) :
    Good cap sh' ∧ ThreadOk t sh' l' ∧
      (sh' = sh ∨ ProducerFrame t sh sh' ∨ ConsumerFrame t sh sh') := by
  obtain ⟨hg, hw⟩ := hg
  obtain ⟨hp, hk⟩ := h
  cases a with
  | call c =>
    obtain ⟨hpc, rfl, rfl⟩ := program_call_cases hstep
    rw [hpc] at hp hk
    exact ⟨hg, by cases c <;> exact ⟨hp, hk⟩, Or.inl rfl⟩
  | step =>
    rcases program_step_cases hstep with ⟨value, pc, next, hpc, hnext, rfl⟩ |
      ⟨pc, next, hpc, hnext, rfl⟩ | ⟨values, pc, next, hpc, hnext, rfl⟩ |
      ⟨maxValues, pc, next, hpc, hnext, rfl⟩ <;> rw [hpc] at hp hk
    · obtain ⟨hg', hframe, hp'⟩ := pushStep_ok hg hw hp hnext
      have hk' := hframe.consumerOk hk
      exact ⟨hg', by cases next <;> exact ⟨hp', hk'⟩, Or.inr (Or.inl hframe)⟩
    · obtain ⟨hg', hframe, hk'⟩ := popStep_ok hg hw hk hnext
      have hp' := hframe.producerOk hp
      exact ⟨hg', by cases next <;> exact ⟨hp', hk'⟩, Or.inr (Or.inr hframe)⟩
    · obtain ⟨hg', hframe, hp'⟩ := pushBatchStep_ok hg hw hcap_lt hp hnext
      have hk' := hframe.consumerOk hk
      exact ⟨hg', by cases next <;> exact ⟨hp', hk'⟩, Or.inr (Or.inl hframe)⟩
    · obtain ⟨hg', hframe, hk'⟩ := popBatchStep_ok hg hw hk hnext
      have hp' := hframe.producerOk hp
      exact ⟨hg', by cases next <;> exact ⟨hp', hk'⟩, Or.inr (Or.inr hframe)⟩

theorem ThreadOk.of_other {t u : ι} {sh sh' : Shared ι T} {l : Local T} (hu : u ≠ t)
    (hframe : sh' = sh ∨ ProducerFrame t sh sh' ∨ ConsumerFrame t sh sh')
    (h : ThreadOk u sh l) : ThreadOk u sh' l := by
  rcases hframe with rfl | hf | hf
  · exact h
  · exact ⟨hf.producerOk_other hu h.1, hf.consumerOk h.2⟩
  · exact ⟨hf.producerOk h.1, hf.consumerOk_other hu h.2⟩

def Inv (cap : Nat) (s : State ι T) : Prop :=
  Good cap s.shared ∧ ∀ t, ThreadOk t s.shared (s.loc t)

theorem inv_init (cap : Nat) : Inv cap (init cap : State ι T) := by
  refine ⟨good_new cap, fun t => ⟨?_, ?_⟩⟩ <;> exact fun hn => by cases hn

end VelocityX.MpmcSimple.Threads
