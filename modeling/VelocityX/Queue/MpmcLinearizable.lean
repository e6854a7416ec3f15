import VelocityX.Queue.MpmcThreads

/-!
# One producer and one consumer of the lock-free bounded queue

One thread calls `push` and one calls `pop` of the bounded `MpmcQueue` in `src/queue/mpmc.rs`,
over any number of laps of the ring.  The queue is then a bounded first-in first-out queue of
`capacity - 1` values, as long as its full test works: the test masks `tail + 1` but not the
`head` that it has loaded, and no longer fires once that head has passed the mask.

A push takes effect when it stores the tail, and a refused one when it loads the head that the
test will fail for.  A pop takes effect when it stores the head, and one that finds nothing when
it loads the tail.  The slot of the value popped last is still to be cleared then; the slot that
the full test keeps free is what keeps the producer away from it.
-/

namespace VelocityX.Mpmc.Threads

open Transition Linearization

variable {T : Type*} {w cap : Nat}

inductive Role where
  | producer
  | consumer
deriving DecidableEq

/-- The producer calls `push` and the consumer calls `pop`. -/
def permitted : Role × Act T → Bool
  | (.producer, .call .pop) => false
  | (.consumer, .call (.push _)) => false
  | _ => true

def spscStep (w : Nat) (s : State Role T) (a : Role × Act T) : Option (State Role T) :=
  if permitted a then step w s a else none

/-- A push that finds the queue full has loaded a head on the first lap, and the tail does not
    wrap. -/
def FullTestWorks (w : Nat) (s : State Role T) (a : Role × Act T) : Prop :=
  a.2 = .step → ∀ box head, s.loc a.1 = .push box (.loadTail head) →
    s.shared.tail + 1 < 2 ^ w ∧
      (s.shared.tail + 1 = head + s.shared.capacity → head < s.shared.capacity)

instance (s : State Role T) : (a : Role × Act T) → Decidable (FullTestWorks w s a)
  | (_, .call _) => .isTrue nofun
  | (t, .step) =>
      match hl : s.loc t with
      | .push _ (.loadTail head) =>
          decidable_of_iff (s.shared.tail + 1 < 2 ^ w ∧
            (s.shared.tail + 1 = head + s.shared.capacity → head < s.shared.capacity))
            (by simp [FullTestWorks, hl])
      | .idle | .pop _ | .push _ .loadHead | .push _ (.storeSlot _) | .push _ (.storeTail _)
      | .push _ .addGeneration => .isTrue (by simp [FullTestWorks, hl])

/-! ### The sequential queue -/

inductive Result (T : Type*) where
  | pushed (result : Except PushFailure Unit)
  | popped (value : Option T)
deriving DecidableEq

/-- One slot of the buffer stays free. -/
def queueSpec (capacity : Nat) (xs : List T) : Call T → List T × Result T
  | .push value =>
      if xs.length + 1 < capacity then (xs ++ [value], .pushed (.ok ()))
      else (xs, .pushed (.error (.returned .capacityExceeded)))
  | .pop => (xs.tail, .popped xs.head?)

/-! ### What the calls do and when -/

/-- The full test of `push`, for a head that it has loaded. -/
def Shared.Refuses (w : Nat) (sh : Shared T) (head : Nat) : Prop :=
  Word.add w sh.tail 1 &&& sh.mask = head

instance (sh : Shared T) (head : Nat) : Decidable (sh.Refuses w head) :=
  inferInstanceAs (Decidable (_ = _))

def Box.accepted (box : Box T) : Call T × Result T := (.push box.value, .pushed (.ok ()))

def Box.refused (box : Box T) : Call T × Result T :=
  (.push box.value, .pushed (.error (.returned .capacityExceeded)))

def Pc.called : Pc T → Act T → Option (Call T)
  | .idle, .call c => some c
  | _, _ => none

/-- The call of a thread that has taken effect and not returned. -/
def Pc.decided (w : Nat) (sh : Shared T) : Pc T → Option (Call T × Result T)
  | .push box (.loadTail head) => if sh.Refuses w head then some box.refused else none
  | .push box .addGeneration => some box.accepted
  | .pop (.loadHead tail) => if sh.head = tail then some (.pop, .popped none) else none
  | .pop (.clearSlot _ ptr) => some (.pop, .popped (some ptr.value))
  | .pop (.reclaim ptr) => some (.pop, .popped (some ptr.value))
  | _ => none

/-- The call of a thread that has not taken effect. -/
def Pc.opened (w : Nat) (sh : Shared T) (l : Pc T) : Option (Call T) :=
  if l.decided w sh = none then
    match l with
    | .idle => none
    | .push box _ => some (.push box.value)
    | .pop _ => some .pop
  else none

def Pc.point (w : Nat) (sh : Shared T) : Pc T → Act T → Option (Call T × Result T)
  | .push box .loadHead, .step => if sh.Refuses w sh.head then some box.refused else none
  | .push box (.storeTail _), .step => some box.accepted
  | .pop .loadTail, .step => if sh.head = sh.tail then some (.pop, .popped none) else none
  | .pop (.storeHead _ ptr), .step => some (.pop, .popped (some ptr.value))
  | _, _ => none

def Pc.returns (w : Nat) (sh : Shared T) : Pc T → Act T → Option (Call T × Result T)
  | .push box pc, .step =>
      match (pushStep w box sh pc).2 with
      | .ret result => some (.push box.value, .pushed result)
      | .goto _ => none
  | .pop pc, .step =>
      match (popStep w sh pc).2 with
      | .ret result => some (.pop, .popped result)
      | .goto _ => none
  | _, _ => none

def observation (w : Nat) : Observation Role (State Role T) (Act T) (Call T) (Result T) where
  call s a := (s.loc a.1).called a.2
  point s a := (s.loc a.1).point w s.shared a.2
  ret s a := (s.loc a.1).returns w s.shared a.2

/-! ### The invariant -/

/-- The slot of an index. -/
def Shared.slot (sh : Shared T) (i : Nat) : Option (Option (Box T)) := sh.buffer[i &&& sh.mask]?

/-- The parts of the shared memory that no call changes. -/
structure Shape (w cap : Nat) (sh : Shared T) : Prop where
  power : ∃ k, cap = 2 ^ k
  cap_lt : cap < 2 ^ w
  capacity_eq : sh.capacity = cap
  mask_eq : sh.mask = cap - 1
  length_eq : sh.buffer.length = cap

def Pc.Produces (w cap : Nat) (sh : Shared T) : Pc T → Prop
  | .push _ (.loadTail head) => head ≤ sh.head ∧ sh.tail < head + cap
  | .push _ (.storeSlot tail) => tail = sh.tail ∧ tail + 1 < sh.head + cap ∧ tail + 1 < 2 ^ w
  | .push box (.storeTail tail) =>
      tail = sh.tail ∧ tail + 1 < sh.head + cap ∧ tail + 1 < 2 ^ w ∧
        sh.slot tail = some (some box)
  | .pop _ => False
  | _ => True

def Pc.Consumes (sh : Shared T) : Pc T → Prop
  | .pop (.loadHead tail) => sh.head ≤ tail ∧ tail ≤ sh.tail
  | .pop (.loadSlot head) => head = sh.head ∧ head < sh.tail
  | .pop (.storeHead head ptr) =>
      head = sh.head ∧ head < sh.tail ∧ sh.slot head = some (some ptr)
  | .pop (.clearSlot head _) => sh.head = head + 1
  | .push _ _ => False
  | _ => True

/-- The queue holds the values `xs`, oldest first. -/
structure Holds (w cap : Nat) (xs : List T) (s : State Role T) : Prop where
  shape : Shape w cap s.shared
  tail_eq : s.shared.tail = s.shared.head + xs.length
  room : xs.length < cap
  tail_lt : s.shared.tail < 2 ^ w
  stored : ∀ k x, xs[k]? = some x →
    ∃ ptr, s.shared.slot (s.shared.head + k) = some (some ptr) ∧ ptr.value = x
  producer : (s.loc .producer).Produces w cap s.shared
  consumer : (s.loc .consumer).Consumes s.shared

theorem holds_init {q : MpmcQueue T} {capacity : Nat}
    (hq : MpmcQueue.new w capacity = some q) (hpos : 0 < q.capacity) :
    Holds w q.capacity [] (init q) := by
  have hlt := MpmcQueue.withCapacity_lt hq
  have hpower := (MpmcQueue.models_withCapacity hq hpos).power
  have hnew := MpmcQueue.withCapacity_eq_some hq hpos
  rw [hnew] at hpos hlt hpower ⊢
  exact ⟨⟨hpower, hlt, rfl, rfl, List.length_replicate⟩, rfl, hpos, Nat.two_pow_pos w,
    (by rintro _ _ ⟨⟩), trivial, trivial⟩

section Slots

variable {sh sh' : Shared T} {i j : Nat} {x : Option (Box T)}

theorem Shape.and_mask (h : Shape w cap sh) (i : Nat) : i &&& sh.mask = i % cap := by
  obtain ⟨k, hk⟩ := h.power
  rw [h.mask_eq, hk]
  exact Nat.and_two_pow_sub_one_eq_mod i k

theorem Shape.cap_pos (h : Shape w cap sh) : 0 < cap := by
  obtain ⟨k, hk⟩ := h.power
  rw [hk]
  exact Nat.two_pow_pos k

theorem mod_ne (hij : i < j) (hlt : j < i + cap) : i % cap ≠ j % cap := by
  have hne := Ring.slot_ne (c := cap) (h := i) (i := 0) (j := j - i) (by omega) (by omega)
    (by omega)
  have hsum : i + (j - i) = j := by omega
  rwa [hsum] at hne

theorem Shape.of_store (h : Shape w cap sh) (hmask : sh'.mask = sh.mask)
    (hcapacity : sh'.capacity = sh.capacity) (hbuffer : sh'.buffer = sh.buffer.set i x) :
    Shape w cap sh' := by
  refine ⟨h.power, h.cap_lt, hcapacity.trans h.capacity_eq, hmask.trans h.mask_eq, ?_⟩
  rw [hbuffer, List.length_set]
  exact h.length_eq

theorem Shape.slot_self (h : Shape w cap sh) (hmask : sh'.mask = sh.mask)
    (hbuffer : sh'.buffer = sh.buffer.set (i &&& sh.mask) x) : sh'.slot i = some x := by
  unfold Shared.slot
  rw [hbuffer, hmask]
  refine List.getElem?_set_self ?_
  rw [h.and_mask, h.length_eq]
  exact Nat.mod_lt i h.cap_pos

theorem Shape.slot_ne (h : Shape w cap sh) (hmask : sh'.mask = sh.mask)
    (hbuffer : sh'.buffer = sh.buffer.set (i &&& sh.mask) x) (hij : i % cap ≠ j % cap) :
    sh'.slot j = sh.slot j := by
  unfold Shared.slot
  rw [hbuffer, hmask]
  refine List.getElem?_set_ne ?_
  rwa [h.and_mask, h.and_mask]

end Slots

section Steps

variable {s s' : State Role T} {xs xs' : List T} {sh : Shared T} {l : Pc T} {a : Act T}
variable {head tail : Nat}

/-- The full test fails for the present head only when one slot is free. -/
theorem Holds.full (h : Holds w cap xs s) (hrefuses : s.shared.Refuses w s.shared.head) :
    xs.length + 1 = cap := by
  have htail := h.tail_eq
  have hroom := h.room
  have hcap := h.shape.cap_pos
  have hlt := h.shape.cap_lt
  unfold Shared.Refuses at hrefuses
  rw [h.shape.and_mask] at hrefuses
  by_contra hne
  rcases Nat.lt_or_ge (s.shared.tail + 1) (2 ^ w) with hword | hword
  · rw [Word.add_of_lt hword] at hrefuses
    have hhead : s.shared.head % cap = s.shared.head := by
      rw [← hrefuses]
      exact Nat.mod_mod _ _
    have hne := @mod_ne cap s.shared.head (s.shared.tail + 1) (by omega) (by omega)
    rw [hrefuses, hhead] at hne
    exact hne rfl
  · have hsum : s.shared.tail + 1 = 2 ^ w := Nat.le_antisymm h.tail_lt hword
    have hzero : Word.add w s.shared.tail 1 = 0 := by rw [Word.add, hsum, Nat.mod_self]
    rw [hzero, Nat.zero_mod] at hrefuses
    omega

/-- A push that passes the full test finds room for its value. -/
theorem passes_of_fullTestWorks {box : Box T} (h : Holds w cap xs s)
    (hl : s.loc .producer = .push box (.loadTail head))
    (hworks : FullTestWorks w s (.producer, .step)) (hpasses : ¬ s.shared.Refuses w head) :
    s.shared.tail + 1 < s.shared.head + cap ∧ s.shared.tail + 1 < 2 ^ w := by
  have hproducer := h.producer
  rw [hl] at hproducer
  obtain ⟨hle, hlt⟩ := hproducer
  obtain ⟨hword, hfirst⟩ := hworks rfl box head hl
  rw [h.shape.capacity_eq] at hfirst
  refine ⟨?_, hword⟩
  by_contra hge
  have hsum : s.shared.tail + 1 = head + cap := by omega
  apply hpasses
  unfold Shared.Refuses
  rw [h.shape.and_mask, Word.add_of_lt hword, hsum, Nat.add_mod_right]
  exact Nat.mod_eq_of_lt (hfirst hsum)

/-- A step of the producer, which leaves the head and the slots of the queued values alone. -/
theorem Holds.produce (h : Holds w cap xs s) (hshape : Shape w cap sh)
    (hhead : sh.head = s.shared.head) (htail : sh.tail = sh.head + xs'.length)
    (hle : s.shared.tail ≤ sh.tail) (hroom : xs'.length < cap) (hlt : sh.tail < 2 ^ w)
    (hstored : ∀ k x, xs'[k]? = some x →
      ∃ ptr, sh.slot (sh.head + k) = some (some ptr) ∧ ptr.value = x)
    (hkeep : s.shared.head < s.shared.tail → sh.slot s.shared.head = s.shared.slot s.shared.head)
    (hl : l.Produces w cap sh) :
    Holds w cap xs' (⟨sh, Function.update s.loc .producer l⟩ : State Role T) := by
  have hother : Function.update s.loc .producer l .consumer = s.loc .consumer :=
    Function.update_of_ne (by decide) _ _
  refine ⟨hshape, htail, hroom, hlt, hstored, by simpa using hl, ?_⟩
  have hconsumer := h.consumer
  simp only [hother]
  cases hpc : s.loc .consumer with
  | idle => trivial
  | push box pc => rw [hpc] at hconsumer; exact hconsumer
  | pop pc =>
    rw [hpc] at hconsumer
    cases pc with
    | loadTail => trivial
    | loadHead tail => exact ⟨hhead ▸ hconsumer.1, Nat.le_trans hconsumer.2 hle⟩
    | loadSlot head => exact ⟨hhead ▸ hconsumer.1, Nat.lt_of_lt_of_le hconsumer.2 hle⟩
    | storeHead head ptr =>
      obtain ⟨rfl, hbelow, hslot⟩ := hconsumer
      exact ⟨hhead.symm, Nat.lt_of_lt_of_le hbelow hle, (hkeep hbelow).trans hslot⟩
    | clearSlot head ptr => exact hhead.trans hconsumer
    | reclaim ptr => trivial

/-- A step of the consumer, which leaves the tail and the slots behind the head alone. -/
theorem Holds.consume (h : Holds w cap xs s) (hshape : Shape w cap sh)
    (htail : sh.tail = s.shared.tail) (hle : s.shared.head ≤ sh.head)
    (hlen : sh.tail = sh.head + xs'.length)
    (hvalues : ∀ k x, xs'[k]? = some x →
      ∃ ptr, s.shared.slot (sh.head + k) = some (some ptr) ∧ ptr.value = x)
    (hkeep : ∀ i, sh.head ≤ i → i + 1 < sh.head + cap → sh.slot i = s.shared.slot i)
    (hl : l.Consumes sh) :
    Holds w cap xs' (⟨sh, Function.update s.loc .consumer l⟩ : State Role T) := by
  have hother : Function.update s.loc .consumer l .producer = s.loc .producer :=
    Function.update_of_ne (by decide) _ _
  have hroom := h.room
  have hold := h.tail_eq
  refine ⟨hshape, hlen, by omega, by rw [htail]; exact h.tail_lt, fun k x hk => ?_, ?_,
    by simpa using hl⟩
  · have hk' := (List.getElem?_eq_some_iff.mp hk).1
    simp only [hkeep (sh.head + k) (by omega) (by omega)]
    exact hvalues k x hk
  · have hproducer := h.producer
    simp only [hother]
    cases hpc : s.loc .producer with
    | idle => trivial
    | pop pc => rw [hpc] at hproducer; exact hproducer
    | push box pc =>
      rw [hpc] at hproducer
      cases pc with
      | loadHead => trivial
      | loadTail head => exact ⟨Nat.le_trans hproducer.1 hle, htail ▸ hproducer.2⟩
      | storeSlot tail =>
        obtain ⟨rfl, hbelow, hword⟩ := hproducer
        exact ⟨htail.symm, by omega, hword⟩
      | storeTail tail =>
        obtain ⟨rfl, hbelow, hword, hslot⟩ := hproducer
        exact ⟨htail.symm, by omega, hword, (hkeep _ (by omega) (by omega)).trans hslot⟩
      | addGeneration => trivial

theorem Pc.opened_congr {sh sh' : Shared T} (h : l.decided w sh' = l.decided w sh) :
    l.opened w sh' = l.opened w sh := by
  simp only [Pc.opened, h]

theorem Pc.Produces.decided_eq {sh sh' : Shared T} (h : l.Produces w cap sh)
    (htail : sh'.tail = sh.tail) (hmask : sh'.mask = sh.mask) :
    l.decided w sh' = l.decided w sh := by
  cases l with
  | idle => rfl
  | push box pc =>
    cases pc with
    | loadTail head =>
      have hiff : sh'.Refuses w head ↔ sh.Refuses w head := by
        simp only [Shared.Refuses, htail, hmask]
      simp only [Pc.decided, hiff]
    | _ => rfl
  | pop pc => exact h.elim

theorem Pc.Consumes.decided_eq {sh sh' : Shared T} (h : l.Consumes sh)
    (hhead : sh'.head = sh.head) : l.decided w sh' = l.decided w sh := by
  cases l with
  | idle => rfl
  | push box pc => exact h.elim
  | pop pc => cases pc <;> simp [Pc.decided, hhead]

theorem Holds.producerAccounts (h : Holds w cap xs s) (hhead : sh.head = s.shared.head)
    (hcalls : ((s.loc .producer).opened w s.shared).toList ++
        ((s.loc .producer).called a).toList =
      (((s.loc .producer).point w s.shared a).map Prod.fst).toList ++ (l.opened w sh).toList)
    (hresults : ((s.loc .producer).decided w s.shared).toList ++
        ((s.loc .producer).point w s.shared a).toList =
      ((s.loc .producer).returns w s.shared a).toList ++ (l.decided w sh).toList) :
    Accounts (observation w) (fun s t => (s.loc t).opened w s.shared)
      (fun s t => (s.loc t).decided w s.shared) s (.producer, a)
      (⟨sh, Function.update s.loc .producer l⟩ : State Role T) := by
  refine accounts_update _ _ (fun u hu => ?_) hcalls hresults
  cases u with
  | producer => exact absurd rfl hu
  | consumer =>
    have hsame : (s.loc .consumer).decided w sh = (s.loc .consumer).decided w s.shared :=
      h.consumer.decided_eq hhead
    exact ⟨Pc.opened_congr hsame, hsame⟩

theorem Holds.consumerAccounts (h : Holds w cap xs s) (htail : sh.tail = s.shared.tail)
    (hmask : sh.mask = s.shared.mask)
    (hcalls : ((s.loc .consumer).opened w s.shared).toList ++
        ((s.loc .consumer).called a).toList =
      (((s.loc .consumer).point w s.shared a).map Prod.fst).toList ++ (l.opened w sh).toList)
    (hresults : ((s.loc .consumer).decided w s.shared).toList ++
        ((s.loc .consumer).point w s.shared a).toList =
      ((s.loc .consumer).returns w s.shared a).toList ++ (l.decided w sh).toList) :
    Accounts (observation w) (fun s t => (s.loc t).opened w s.shared)
      (fun s t => (s.loc t).decided w s.shared) s (.consumer, a)
      (⟨sh, Function.update s.loc .consumer l⟩ : State Role T) := by
  refine accounts_update _ _ (fun u hu => ?_) hcalls hresults
  cases u with
  | producer =>
    have hsame : (s.loc .producer).decided w sh = (s.loc .producer).decided w s.shared :=
      h.producer.decided_eq htail hmask
    exact ⟨Pc.opened_congr hsame, hsame⟩
  | consumer => exact absurd rfl hu

/-- A step of the producer that leaves the indices and the slots alone. -/
theorem Holds.produceQuiet (h : Holds w cap xs s) (hshape : Shape w cap sh)
    (hslot : sh.slot = s.shared.slot) (hhead : sh.head = s.shared.head)
    (htail : sh.tail = s.shared.tail) (hl : l.Produces w cap sh) :
    Holds w cap xs (⟨sh, Function.update s.loc .producer l⟩ : State Role T) := by
  refine h.produce hshape hhead ?_ (Nat.le_of_eq htail.symm) h.room ?_ ?_ ?_ hl
  · rw [htail, hhead]
    exact h.tail_eq
  · rw [htail]
    exact h.tail_lt
  · rw [hslot, hhead]
    exact h.stored
  · intro _
    rw [hslot]

/-- A step of the consumer that leaves the indices and the slots alone. -/
theorem Holds.consumeQuiet (h : Holds w cap xs s) (hshape : Shape w cap sh)
    (hslot : sh.slot = s.shared.slot) (hhead : sh.head = s.shared.head)
    (htail : sh.tail = s.shared.tail) (hl : l.Consumes sh) :
    Holds w cap xs (⟨sh, Function.update s.loc .consumer l⟩ : State Role T) := by
  refine h.consume hshape htail (Nat.le_of_eq hhead.symm) ?_ ?_ ?_ hl
  · rw [htail, hhead]
    exact h.tail_eq
  · rw [hhead]
    exact h.stored
  · intro _ _ _
    rw [hslot]

theorem Holds.storeSlot {box : Box T} (h : Holds w cap xs s)
    (hl : s.loc .producer = .push box (.storeSlot tail))
    (hbuffer : sh.buffer = s.shared.buffer.set (tail &&& s.shared.mask) (some box))
    (hmask : sh.mask = s.shared.mask) (hcapacity : sh.capacity = s.shared.capacity)
    (hhead : sh.head = s.shared.head) (htail : sh.tail = s.shared.tail) :
    Holds w cap xs
      (⟨sh, Function.update s.loc .producer (.push box (.storeTail tail))⟩ : State Role T) := by
  have hproducer := h.producer
  rw [hl] at hproducer
  obtain ⟨rfl, hbelow, hword⟩ := hproducer
  have hlen := h.tail_eq
  have hsame : ∀ k, k < xs.length →
      sh.slot (s.shared.head + k) = s.shared.slot (s.shared.head + k) :=
    fun k hk => h.shape.slot_ne hmask hbuffer (mod_ne (by omega) (by omega)).symm
  refine h.produce (h.shape.of_store hmask hcapacity hbuffer) hhead (by omega)
    (Nat.le_of_eq htail.symm) h.room (by rw [htail]; exact h.tail_lt) ?_ ?_ ?_
  · intro k x hk
    rw [hhead, hsame k (List.getElem?_eq_some_iff.mp hk).1]
    exact h.stored k x hk
  · intro hlt
    exact hsame 0 (by omega)
  · exact ⟨htail.symm, by rwa [hhead], hword, h.shape.slot_self hmask hbuffer⟩

/-- A push takes effect when it stores the tail. -/
theorem Holds.storeTail {box : Box T} (h : Holds w cap xs s)
    (hl : s.loc .producer = .push box (.storeTail tail)) :
    xs.length + 1 < cap ∧
      Holds w cap (xs ++ [box.value]) (⟨{ s.shared with tail := Word.add w tail 1 },
        Function.update s.loc .producer (.push box .addGeneration)⟩ : State Role T) := by
  have hproducer := h.producer
  rw [hl] at hproducer
  obtain ⟨rfl, hbelow, hword, hslot⟩ := hproducer
  have htail := h.tail_eq
  have hroom : xs.length + 1 < cap := by omega
  have hlen : (xs ++ [box.value]).length = xs.length + 1 := List.length_append
  rw [Word.add_of_lt hword]
  refine ⟨hroom, h.produce ⟨h.shape.power, h.shape.cap_lt, h.shape.capacity_eq, h.shape.mask_eq,
    h.shape.length_eq⟩ rfl ?_ (Nat.le_succ _) ?_ hword ?_ (fun _ => rfl) trivial⟩
  · show s.shared.tail + 1 = s.shared.head + (xs ++ [box.value]).length
    omega
  · omega
  · intro k x hk
    rcases Nat.lt_or_ge k xs.length with hlt | hge
    · rw [List.getElem?_append_left hlt] at hk
      exact h.stored k x hk
    · have hk' := (List.getElem?_eq_some_iff.mp hk).1
      obtain rfl : k = xs.length := by omega
      rw [List.getElem?_concat_length] at hk
      cases hk
      exact ⟨box, by rw [← htail]; exact hslot, rfl⟩

/-- A pop takes effect when it stores the head. -/
theorem Holds.storeHead {ptr : Box T} (h : Holds w cap xs s)
    (hl : s.loc .consumer = .pop (.storeHead head ptr)) :
    ∃ rest, xs = ptr.value :: rest ∧
      Holds w cap rest (⟨{ s.shared with head := Word.add w head 1 },
        Function.update s.loc .consumer (.pop (.clearSlot head ptr))⟩ : State Role T) := by
  have hconsumer := h.consumer
  rw [hl] at hconsumer
  obtain ⟨rfl, hbelow, hslot⟩ := hconsumer
  have htail := h.tail_eq
  cases xs with
  | nil =>
    rw [List.length_nil] at htail
    omega
  | cons x rest =>
    rw [List.length_cons] at htail
    obtain ⟨ptr', hslot', rfl⟩ := h.stored 0 x rfl
    have hptr : ptr' = ptr := Option.some.inj (Option.some.inj (hslot'.symm.trans hslot))
    subst hptr
    have hword : s.shared.head + 1 < 2 ^ w := Nat.lt_of_le_of_lt hbelow h.tail_lt
    rw [Word.add_of_lt hword]
    refine ⟨rest, rfl, h.consume ⟨h.shape.power, h.shape.cap_lt, h.shape.capacity_eq,
      h.shape.mask_eq, h.shape.length_eq⟩ rfl (Nat.le_succ _) ?_ ?_ (fun _ _ _ => rfl) rfl⟩
    · show s.shared.tail = s.shared.head + 1 + rest.length
      omega
    · intro k x hk
      have hstored := h.stored (k + 1) x hk
      rwa [← Nat.add_assoc, Nat.add_right_comm] at hstored

theorem Holds.clearSlot {ptr : Box T} (h : Holds w cap xs s)
    (hl : s.loc .consumer = .pop (.clearSlot head ptr)) :
    Holds w cap xs (⟨{ s.shared with
        buffer := s.shared.buffer.set (head &&& s.shared.mask) none },
      Function.update s.loc .consumer (.pop (.reclaim ptr))⟩ : State Role T) := by
  have hconsumer := h.consumer
  rw [hl] at hconsumer
  have hhead : s.shared.head = head + 1 := hconsumer
  refine h.consume (h.shape.of_store rfl rfl rfl) rfl (Nat.le_refl _) h.tail_eq h.stored ?_ trivial
  intro i hle hlt
  refine h.shape.slot_ne rfl rfl (mod_ne ?_ ?_)
  · show head < i
    have : s.shared.head ≤ i := hle
    omega
  · have : i + 1 < s.shared.head + cap := hlt
    omega

attribute [local simp] Pc.opened Pc.decided Pc.called Pc.point Pc.returns Pc.after

theorem Holds.producerStep {c : Act T} (h : Holds w cap xs s)
    (hworks : FullTestWorks w s (.producer, c)) (hperm : permitted (Role.producer, c) = true)
    (hp : program w Role.producer s.shared (s.loc .producer) c = some (sh, l)) :
    Advances (queueSpec cap) (Holds w cap) xs
        (⟨sh, Function.update s.loc .producer l⟩ : State Role T)
        ((s.loc .producer).point w s.shared c) ∧
      Accounts (observation w) (fun s t => (s.loc t).opened w s.shared)
        (fun s t => (s.loc t).decided w s.shared) s (.producer, c)
        (⟨sh, Function.update s.loc .producer l⟩ : State Role T) := by
  have hshape := h.shape
  have htail := h.tail_eq
  have hroom := h.room
  cases hl : s.loc .producer with
  | pop pc =>
    have hproducer := h.producer
    rw [hl] at hproducer
    exact hproducer.elim
  | idle =>
    rw [hl] at hp
    cases c with
    | step => cases hp
    | call c =>
      cases c with
      | pop => cases hperm
      | push value =>
        cases hp
        refine ⟨h.produceQuiet ⟨hshape.power, hshape.cap_lt, hshape.capacity_eq, hshape.mask_eq,
          hshape.length_eq⟩ rfl rfl rfl trivial, h.producerAccounts rfl ?_ ?_⟩
        · simp [hl]
        · simp [hl]
  | push box pc =>
    rw [hl] at hp
    cases c with
    | call c => cases hp
    | step =>
      cases hp
      cases pc with
      | loadHead =>
        have hknown : (Pc.push box (.loadTail s.shared.head)).Produces w cap s.shared :=
          ⟨Nat.le_refl _, by omega⟩
        have hquiet := h.produceQuiet hshape rfl rfl rfl hknown
        by_cases hrefuses : s.shared.Refuses w s.shared.head
        · have hpoint : Pc.point w s.shared (.push box .loadHead) .step = some box.refused :=
            if_pos hrefuses
          rw [hpoint]
          have hfull := h.full hrefuses
          have hspec : queueSpec cap xs (.push box.value) =
              (xs, .pushed (.error (.returned .capacityExceeded))) := if_neg (by omega)
          refine ⟨⟨congrArg Prod.snd hspec, ?_⟩, h.producerAccounts rfl ?_ ?_⟩
          · show Holds w cap (queueSpec cap xs (.push box.value)).1 _
            rw [hspec]
            exact hquiet
          · simp [hl, pushStep, hrefuses, Box.refused]
          · simp [hl, pushStep, hrefuses]
        · have hpoint : Pc.point w s.shared (.push box .loadHead) .step = none :=
            if_neg hrefuses
          rw [hpoint]
          refine ⟨hquiet, h.producerAccounts rfl ?_ ?_⟩
          · simp [hl, pushStep, hrefuses]
          · simp [hl, pushStep, hrefuses]
      | loadTail head =>
        by_cases hrefuses : s.shared.Refuses w head
        · have hstep : pushStep w box s.shared (.loadTail head) =
              (s.shared, .ret (.error (.returned .capacityExceeded))) := if_pos hrefuses
          rw [hstep]
          refine ⟨h.produceQuiet hshape rfl rfl rfl trivial, h.producerAccounts rfl ?_ ?_⟩
          · simp [hl, hrefuses]
          · simp [hl, hrefuses, hstep, Box.refused]
        · have hstep : pushStep w box s.shared (.loadTail head) =
              (s.shared, .goto (.storeSlot s.shared.tail)) := if_neg hrefuses
          rw [hstep]
          obtain ⟨hbelow, hword⟩ := passes_of_fullTestWorks h hl hworks hrefuses
          have hknown : (Pc.push box (.storeSlot s.shared.tail)).Produces w cap s.shared :=
            ⟨rfl, hbelow, hword⟩
          refine ⟨h.produceQuiet hshape rfl rfl rfl hknown, h.producerAccounts rfl ?_ ?_⟩
          · simp [hl, hrefuses]
          · simp [hl, hrefuses, hstep]
      | storeSlot tail =>
        have hslot : tail &&& s.shared.mask < s.shared.buffer.length := by
          rw [hshape.and_mask, hshape.length_eq]
          exact Nat.mod_lt tail hshape.cap_pos
        have hstep : pushStep w box s.shared (.storeSlot tail) = (_, .goto (.storeTail tail)) :=
          if_pos hslot
        rw [hstep]
        refine ⟨h.storeSlot hl rfl rfl rfl rfl rfl, h.producerAccounts rfl ?_ ?_⟩
        · simp [hl]
        · simp [hl, hstep]
      | storeTail tail =>
        obtain ⟨hspare, hpushed⟩ := h.storeTail hl
        have hspec : queueSpec cap xs (.push box.value) =
            (xs ++ [box.value], .pushed (.ok ())) := if_pos hspare
        refine ⟨⟨congrArg Prod.snd hspec, ?_⟩, h.producerAccounts rfl ?_ ?_⟩
        · show Holds w cap (queueSpec cap xs (.push box.value)).1 _
          rw [hspec]
          exact hpushed
        · simp [hl, pushStep, Box.accepted]
        · simp [hl, pushStep]
      | addGeneration =>
        refine ⟨h.produceQuiet ⟨hshape.power, hshape.cap_lt, hshape.capacity_eq, hshape.mask_eq,
          hshape.length_eq⟩ rfl rfl rfl trivial, h.producerAccounts rfl ?_ ?_⟩
        · simp [hl, pushStep]
        · simp [hl, pushStep, Box.accepted]

theorem Holds.consumerStep {c : Act T} (h : Holds w cap xs s)
    (hperm : permitted (Role.consumer, c) = true)
    (hp : program w Role.consumer s.shared (s.loc .consumer) c = some (sh, l)) :
    Advances (queueSpec cap) (Holds w cap) xs
        (⟨sh, Function.update s.loc .consumer l⟩ : State Role T)
        ((s.loc .consumer).point w s.shared c) ∧
      Accounts (observation w) (fun s t => (s.loc t).opened w s.shared)
        (fun s t => (s.loc t).decided w s.shared) s (.consumer, c)
        (⟨sh, Function.update s.loc .consumer l⟩ : State Role T) := by
  have hshape := h.shape
  have htail := h.tail_eq
  have hconsumer := h.consumer
  cases hl : s.loc .consumer with
  | push box pc =>
    rw [hl] at hconsumer
    exact hconsumer.elim
  | idle =>
    rw [hl] at hp
    cases c with
    | step => cases hp
    | call c =>
      cases c with
      | push value => cases hperm
      | pop =>
        cases hp
        refine ⟨h.consumeQuiet hshape rfl rfl rfl trivial, h.consumerAccounts rfl rfl ?_ ?_⟩
        · simp [hl]
        · simp [hl]
  | pop pc =>
    rw [hl] at hp hconsumer
    cases c with
    | call c => cases hp
    | step =>
      cases hp
      cases pc with
      | loadTail =>
        have hknown : (Pc.pop (.loadHead s.shared.tail)).Consumes s.shared :=
          ⟨by omega, Nat.le_refl _⟩
        have hquiet := h.consumeQuiet hshape rfl rfl rfl hknown
        by_cases hempty : s.shared.head = s.shared.tail
        · have hpoint : Pc.point w s.shared (.pop .loadTail) .step =
              some (.pop, .popped (none : Option T)) := if_pos hempty
          rw [hpoint]
          obtain rfl : xs = [] := List.length_eq_zero_iff.mp (by omega)
          refine ⟨⟨rfl, hquiet⟩, h.consumerAccounts rfl rfl ?_ ?_⟩
          · simp [hl, popStep, hempty]
          · simp [hl, popStep, hempty]
        · have hpoint : Pc.point w s.shared (.pop (.loadTail : PopPc T)) .step = none :=
            if_neg hempty
          rw [hpoint]
          refine ⟨hquiet, h.consumerAccounts rfl rfl ?_ ?_⟩
          · simp [hl, popStep, hempty]
          · simp [hl, popStep, hempty]
      | loadHead tail =>
        by_cases hempty : s.shared.head = tail
        · have hstep : popStep w s.shared (.loadHead tail) = (s.shared, .ret none) := if_pos hempty
          rw [hstep]
          refine ⟨h.consumeQuiet hshape rfl rfl rfl trivial, h.consumerAccounts rfl rfl ?_ ?_⟩
          · simp [hl, hempty]
          · simp [hl, hempty, hstep]
        · have hstep : popStep w s.shared (.loadHead tail) =
              (s.shared, .goto (.loadSlot s.shared.head)) := if_neg hempty
          rw [hstep]
          obtain ⟨hle, hbelow⟩ := hconsumer
          have hknown : (Pc.pop (.loadSlot s.shared.head)).Consumes s.shared := ⟨rfl, by omega⟩
          refine ⟨h.consumeQuiet hshape rfl rfl rfl hknown, h.consumerAccounts rfl rfl ?_ ?_⟩
          · simp [hl, hempty]
          · simp [hl, hempty, hstep]
      | loadSlot head =>
        obtain ⟨rfl, hbelow⟩ := hconsumer
        have hpos : 0 < xs.length := by omega
        obtain ⟨ptr, hslot, _⟩ := h.stored 0 xs[0] (List.getElem?_eq_getElem hpos)
        have hread : s.shared.buffer[s.shared.head &&& s.shared.mask]?.join = some ptr := by
          show (s.shared.slot (s.shared.head + 0)).join = some ptr
          rw [hslot]
          rfl
        have hstep : popStep w s.shared (.loadSlot s.shared.head) =
            (s.shared, .goto (.storeHead s.shared.head ptr)) := by
          simp only [popStep, hread]
        rw [hstep]
        have hknown : (Pc.pop (.storeHead s.shared.head ptr)).Consumes s.shared :=
          ⟨rfl, hbelow, hslot⟩
        refine ⟨h.consumeQuiet hshape rfl rfl rfl hknown, h.consumerAccounts rfl rfl ?_ ?_⟩
        · simp [hl]
        · simp [hl, hstep]
      | storeHead head ptr =>
        obtain ⟨rest, rfl, hrest⟩ := h.storeHead hl
        refine ⟨⟨rfl, hrest⟩, h.consumerAccounts rfl rfl ?_ ?_⟩
        · simp [hl, popStep]
        · simp [hl, popStep]
      | clearSlot head ptr =>
        refine ⟨h.clearSlot hl, h.consumerAccounts rfl rfl ?_ ?_⟩
        · simp [hl, popStep]
        · simp [hl, popStep]
      | reclaim ptr =>
        refine ⟨h.consumeQuiet ⟨hshape.power, hshape.cap_lt, hshape.capacity_eq, hshape.mask_eq,
          hshape.length_eq⟩ rfl rfl rfl trivial, h.consumerAccounts rfl rfl ?_ ?_⟩
        · simp [hl, popStep]
        · simp [hl, popStep]

theorem spscStep_eq_some {a : Role × Act T} :
    spscStep w s a = some s' ↔ permitted a = true ∧ ∃ sh l,
      program w a.1 s.shared (s.loc a.1) a.2 = some (sh, l) ∧
        s' = ⟨sh, Function.update s.loc a.1 l⟩ := by
  unfold spscStep
  split
  · next hperm =>
    rw [interleave_eq_some]
    exact ⟨fun h => ⟨hperm, h⟩, And.right⟩
  · next hperm => simp [hperm]

theorem holds_step {a : Role × Act T} (h : Holds w cap xs s) (hworks : FullTestWorks w s a)
    (hstep : spscStep w s a = some s') :
    Advances (queueSpec cap) (Holds w cap) xs s' ((observation w).point s a) ∧
      Accounts (observation w) (fun s t => (s.loc t).opened w s.shared)
        (fun s t => (s.loc t).decided w s.shared) s a s' := by
  obtain ⟨hperm, sh, l, hp, rfl⟩ := spscStep_eq_some.mp hstep
  obtain ⟨t, c⟩ := a
  cases t with
  | producer => exact h.producerStep hworks hperm hp
  | consumer => exact h.consumerStep hperm hp

end Steps

/-- **One producer and one consumer** of a lock-free queue with slots see a bounded queue of
    `capacity - 1` values, as long as the full test works. -/
theorem oneProducer_linearizable {capacity : Nat} {q : MpmcQueue T} {s : State Role T}
    {as : List (Role × Act T)} (hq : MpmcQueue.new w capacity = some q) (hpos : 0 < q.capacity)
    (hworks : Along (spscStep w) (FullTestWorks w) (init q) as)
    (hrun : run (spscStep w) (init q) as = some s) :
    Linearizable (spscStep w) (observation w) (queueSpec q.capacity) [] (init q) as :=
  linearizable_of_simulation (fun _ _ _ _ h hC hstep => holds_step h hC hstep)
    (fun t => by cases t <;> exact ⟨rfl, rfl⟩) (holds_init hq hpos) hworks hrun

/-! ### Runs -/

section Runs

def pushing (value steps : Nat) : List (Role × Act Nat) :=
  (.producer, .call (.push value)) :: List.replicate steps (.producer, .step)

/-- A queue of two slots: a push is refused, the next one stores into the second slot while the
    first is still to be cleared, and a last one goes round the ring. -/
def roundTheRing : List (Role × Act Nat) :=
  pushing 7 5 ++ pushing 8 2 ++
    (Role.consumer, Act.call .pop) :: List.replicate 4 (Role.consumer, Act.step) ++
    pushing 9 5 ++ List.replicate 2 (Role.consumer, Act.step) ++
      (Role.consumer, Act.call .pop) :: List.replicate 6 (Role.consumer, Act.step) ++ pushing 10 5

theorem oneProducer_linearizable_roundTheRing :
    ∃ q : MpmcQueue Nat, MpmcQueue.new 64 2 = some q ∧
      (trace (spscStep 64) (observation 64).ret (init q) roundTheRing).map (fun e => (e.1, e.2.2)) =
        [(.producer, .pushed (.ok ())), (.producer, .pushed (.error (.returned .capacityExceeded))),
          (.producer, .pushed (.ok ())), (.consumer, .popped (some 7)),
          (.consumer, .popped (some 9)), (.producer, .pushed (.ok ()))] ∧
      Linearizable (spscStep 64) (observation 64) (queueSpec q.capacity) [] (init q)
        roundTheRing := by
  have hq : MpmcQueue.new 64 2 = some (⟨[none, none], 2, 1, 0, 0, 0⟩ : MpmcQueue Nat) := by
    decide
  refine ⟨_, hq, by decide, ?_⟩
  have hrun : (run (spscStep 64) (init ⟨[none, none], 2, 1, 0, 0, 0⟩) roundTheRing).isSome := by
    decide
  obtain ⟨s, hs⟩ := Option.isSome_iff_exists.mp hrun
  exact oneProducer_linearizable hq (by decide) (by decide) hs

end Runs

end VelocityX.Mpmc.Threads
