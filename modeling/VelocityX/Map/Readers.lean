import Mathlib.Control.Monad.Basic
import VelocityX.Lib.Transition
import VelocityX.Map.Stripes

/-!
# A lock-free reader beside the writers of its bucket

One `get_locked` call for the key `k` scans a bucket slot by slot without a lock, while
`insert` and `remove` calls on other keys work on the same bucket, one at a time, with the
steps of `Stripes`.  The table is not resized and the hash function is fixed.

`remove_locked` moves the entries behind the removed one down by one slot, one after the
other, and the reader goes up.  It misses `k` exactly when the two meet: when the writer
takes the entry of `k` out of the slot that the reader is about to read, or the reader reads
the slot below while the entry is on its way there.
-/

namespace VelocityX.Map.Readers

open Transition

variable {K V : Type*} [DecidableEq K]

inductive ReaderPc (V : Type*) where
  | readLen
  | scan (n i : Nat)
  | returned (result : Except Panic (Option V))
deriving DecidableEq

/-- A step of the loop of `get_locked`. -/
def readerStep (key : K) (hash : UInt64) (b : Bucket K V) : ReaderPc V → Option (ReaderPc V)
  | .readLen => some (.scan b.len 0)
  | .scan 0 _ => some (.returned (.ok none))
  | .scan (n + 1) i =>
      match b.matchAt key hash i with
      | .error p => some (.returned (.error p))
      | .ok none => some (.scan n (i + 1))
      | .ok (some entry) => some (.returned (.ok (some entry.value)))
  | .returned _ => none

structure State (K V : Type*) where
  bucket : Bucket K V
  writer : Option (Pc K V)
  reader : ReaderPc V

inductive Act (K V : Type*) where
  | call (call : Call K V)
  | write
  | read
deriving DecidableEq

def Act.isRead : Act K V → Bool
  | .read => true
  | _ => false

def init (b : Bucket K V) : State K V := ⟨b, none, .readLen⟩

/-- The bucket and the writer after a step of the writer at `pc`. -/
def State.wrote (s : State K V) : Bucket K V × Next (Pc K V) (Except Panic (Option V)) → State K V
  | (b, .goto pc) => { s with bucket := b, writer := some pc }
  | (b, .ret _) => { s with bucket := b, writer := none }

def step (h : K → UInt64) (k : K) (s : State K V) : Act K V → Option (State K V)
  | .call call =>
      match s.writer with
      | none => if call.key = k then none else some { s with writer := some call.start }
      | some _ => none
  | .write => s.writer.map fun pc => s.wrote (pc.inner h s.bucket)
  | .read => (readerStep k (h k) s.bucket s.reader).map fun pc => { s with reader := pc }

/-- The writer does not take the entry of `k` out of the slot that the reader is about to read,
    and the reader does not read the slot to which the entry of `k` is on its way. -/
def NotOvertaken (h : K → UInt64) (k : K) (s : State K V) (a : Act K V) : Prop :=
  ∀ key n j value,
    (a = .write → s.writer = some (.remove key (.shift (n + 1) j value)) →
      s.bucket.matchAt k (h k) (j + 1) ≠ .ok none → ∀ m, s.reader ≠ .scan m (j + 1)) ∧
    (a = .read → ∀ entry, s.writer = some (.remove key (.fill n j value (some entry))) →
      entry.hash = h k → entry.key = k → ∀ m, s.reader ≠ .scan m j)

/-! ### The slot of the key -/

section Slots

variable {b : Bucket K V} {key : K} {hash : UInt64} {i j : Nat} {slot : Option (Entry K V)}
variable {entry : Entry K V}

theorem read_of_matchAt (h : b.matchAt key hash i = .ok (some entry)) :
    b.read i = .ok (some entry) ∧ entry.hash = hash ∧ entry.key = key := by
  simp only [Bucket.matchAt] at h
  cases hread : b.read i with
  | error p =>
    rw [hread] at h
    cases h
  | ok slot =>
    rw [hread] at h
    have hfilter : slot.filter (fun e => decide (e.hash = hash ∧ e.key = key)) = some entry :=
      Except.ok.inj h
    obtain ⟨rfl, hmatch⟩ := Option.filter_eq_some_iff.mp hfilter
    exact ⟨rfl, of_decide_eq_true hmatch⟩

theorem matchAt_of_ok (hread : b.read i = .ok slot) :
    b.matchAt key hash i =
      .ok (slot.filter fun e => decide (e.hash = hash ∧ e.key = key)) := by
  rw [Bucket.matchAt, hread]
  rfl

theorem matchAt_write_self (hi : i < 16) :
    (b.write i slot).matchAt key hash i =
      .ok (slot.filter fun e => decide (e.hash = hash ∧ e.key = key)) :=
  matchAt_of_ok (Bucket.read_write_self hi)

theorem matchAt_write_of_ne (hne : i ≠ j) :
    (b.write i slot).matchAt key hash j = b.matchAt key hash j := by
  rw [Bucket.matchAt, Bucket.matchAt, Bucket.read_write_of_ne hne]

end Slots

/-- Slot `p` has the entry of the key, with the value `v`, and no other slot has one. -/
structure Settled (key : K) (hash : UInt64) (v : V) (b : Bucket K V) (p : Nat) : Prop where
  found : ∃ entry, b.matchAt key hash p = .ok (some entry) ∧ entry.value = v
  unique : ∀ i < 16, i ≠ p → b.matchAt key hash i = .ok none
  lt_len : p < b.len
  len_le : b.len ≤ 16

/-- The entry of the key has been taken out of the bucket. -/
structure Carried (key : K) (hash : UInt64) (v : V) (b : Bucket K V)
    (slot : Option (Entry K V)) : Prop where
  entry : ∃ entry, slot = some entry ∧ entry.hash = hash ∧ entry.key = key ∧ entry.value = v
  absent : ∀ i < 16, b.matchAt key hash i = .ok none
  len_le : b.len ≤ 16

section Settled

variable {key key' : K} {hash hash' : UInt64} {v : V} {b : Bucket K V} {p i : Nat}
variable {entry : Entry K V} {slot : Option (Entry K V)}

/-- A slot with another key is not the slot of this one. -/
theorem Settled.ne_of_matchAt (hs : Settled key hash v b p) (hkey : key' ≠ key)
    (hmatch : b.matchAt key' hash' i = .ok (some entry)) : i ≠ p := by
  rintro rfl
  obtain ⟨found, hfound, _⟩ := hs.found
  obtain ⟨hread, _, hkey₁⟩ := read_of_matchAt hfound
  obtain ⟨hread', _, hkey₂⟩ := read_of_matchAt hmatch
  rw [hread] at hread'
  cases hread'
  exact hkey (hkey₂.symm.trans hkey₁)

theorem Settled.not_carried (hs : Settled key hash v b p) : ¬ Carried key hash v b slot := by
  intro hcarried
  obtain ⟨found, hfound, _⟩ := hs.found
  have hnone := hcarried.absent p (Nat.lt_of_lt_of_le hs.lt_len hs.len_le)
  rw [hfound] at hnone
  cases hnone

/-- A write of something else into another slot. -/
theorem Settled.write (hs : Settled key hash v b p) (hne : i ≠ p)
    (hslot : slot.filter (fun e => decide (e.hash = hash ∧ e.key = key)) = none) :
    Settled key hash v (b.write i slot) p := by
  refine ⟨?_, fun j hj hjp => ?_, hs.lt_len, hs.len_le⟩
  · rw [matchAt_write_of_ne hne]
    exact hs.found
  · by_cases hij : i = j
    · subst hij
      rw [matchAt_write_self hj, hslot]
    · rw [matchAt_write_of_ne hij]
      exact hs.unique j hj hjp

theorem Settled.matchAt_ne_none (hs : Settled key hash v b p) :
    b.matchAt key hash p ≠ .ok none := by
  obtain ⟨found, hfound, _⟩ := hs.found
  rw [hfound]
  intro hnone
  cases hnone

/-- The entry of the key is taken out of its slot. -/
theorem Settled.carry (hs : Settled key hash v b p) :
    ∃ slot, b.read p = .ok slot ∧ Carried key hash v (b.write p none) slot := by
  obtain ⟨found, hfound, hvalue⟩ := hs.found
  obtain ⟨hread, hhash, hkey⟩ := read_of_matchAt hfound
  refine ⟨some found, hread, ⟨found, rfl, hhash, hkey, hvalue⟩, fun i hi => ?_, hs.len_le⟩
  by_cases hip : p = i
  · subst hip
    exact matchAt_write_self hi
  · rw [matchAt_write_of_ne hip]
    exact hs.unique i hi (Ne.symm hip)

/-- The entry of the key comes to its new slot. -/
theorem Carried.settle (hcarried : Carried key hash v b slot) (hp : p < b.len) :
    Settled key hash v (b.write p slot) p := by
  obtain ⟨entry, rfl, hhash, hkey, hvalue⟩ := hcarried.entry
  have hle := hcarried.len_le
  refine ⟨⟨entry, ?_, hvalue⟩, fun i hi hip => ?_, hp, hle⟩
  · rw [matchAt_write_self (Nat.lt_of_lt_of_le hp hle), Option.filter_some_pos]
    exact decide_eq_true ⟨hhash, hkey⟩
  · rw [matchAt_write_of_ne (Ne.symm hip)]
    exact hcarried.absent i hi

theorem Settled.setLen (hs : Settled key hash v b p) {n : Nat} (hp : p < n) (hn : n ≤ 16) :
    Settled key hash v { b with len := n } p :=
  ⟨hs.found, hs.unique, hp, hn⟩

omit [DecidableEq K] in
theorem filter_of_key_ne [DecidableEq K] (hkey : entry.key ≠ key) :
    (some entry).filter (fun e => decide (e.hash = hash ∧ e.key = key)) = none := by
  rw [Option.filter_some_neg]
  simp [hkey]

end Settled

/-! ### What the writers keep -/

def InsertInv (b : Bucket K V) (p : Nat) : InsertPc K V → Prop
  | .update i _ => i ≠ p
  | .index => b.len < 16
  | .place i => i = b.len ∧ b.len < 16
  | .bump => b.len < 16
  | .writeLen n => n = b.len ∧ b.len < 16
  | _ => True

/-- `p` is the slot of the entry of the key, or the slot that the entry is on its way to. -/
def RemoveInv (key : K) (hash : UInt64) (v : V) (b : Bucket K V) (p : Nat) : RemovePc K V → Prop
  | .readLen => Settled key hash v b p
  | .scan n i => Settled key hash v b p ∧ n + i = b.len
  | .take i => Settled key hash v b p ∧ i < b.len ∧ i ≠ p
  | .range i _ => Settled key hash v b p ∧ i < b.len ∧ i ≠ p
  | .shift n j _ => Settled key hash v b p ∧ n + j + 1 = b.len ∧ j ≠ p
  | .fill n j _ slot =>
      n + j + 2 = b.len ∧
        (Settled key hash v b p ∧ j ≠ p ∧ j + 1 ≠ p ∧
          slot.filter (fun e => decide (e.hash = hash ∧ e.key = key)) = none ∨
        Carried key hash v b slot ∧ p = j)
  | .writeLen n _ => Settled key hash v b p ∧ n = b.len ∧ p + 1 < b.len

section Writers

variable {key key' : K} {hash hash' : UInt64} {value v : V} {b b' : Bucket K V} {p : Nat}

/-- What holds after a step of `insert`. -/
def InsertAfter (b : Bucket K V) (p : Nat) :
    Next (InsertPc K V) (Except Panic (Option V)) → Prop
  | .goto pc => InsertInv b p pc
  | .ret _ => True

theorem insertStep_settled {pc : InsertPc K V}
    {next : Next (InsertPc K V) (Except Panic (Option V))}
    (hkey : key' ≠ key) (hs : Settled key hash v b p) (hinv : InsertInv b p pc)
    (hstep : insertStep key' value hash' b pc = (b', next)) :
    Settled key hash v b' p ∧ InsertAfter b' p next := by
  cases pc with
  | readLen =>
    cases hstep
    exact ⟨hs, trivial⟩
  | scan n i =>
    cases n with
    | zero =>
      simp only [insertStep] at hstep
      split at hstep <;> cases hstep
      · next hroom => exact ⟨hs, hroom⟩
      · exact ⟨hs, trivial⟩
    | succ n =>
      simp only [insertStep] at hstep
      split at hstep <;> cases hstep
      · exact ⟨hs, trivial⟩
      · exact ⟨hs, trivial⟩
      · next hmatch => exact ⟨hs, hs.ne_of_matchAt hkey hmatch⟩
  | update i entry =>
    cases hstep
    exact ⟨hs.write hinv (filter_of_key_ne hkey), trivial⟩
  | index =>
    cases hstep
    exact ⟨hs, rfl, hinv⟩
  | place i =>
    obtain ⟨rfl, hroom⟩ := hinv
    simp only [insertStep, if_pos hroom] at hstep
    cases hstep
    exact ⟨hs.write (Nat.ne_of_gt hs.lt_len) (filter_of_key_ne hkey), hroom⟩
  | bump =>
    cases hstep
    exact ⟨hs, rfl, hinv⟩
  | writeLen n =>
    obtain ⟨rfl, hroom⟩ := hinv
    cases hstep
    exact ⟨hs.setLen (Nat.lt_succ_of_lt hs.lt_len) hroom, trivial⟩

/-- What holds after a step of `remove`. -/
def RemoveAfter (key : K) (hash : UInt64) (v : V) (b : Bucket K V) (p : Nat) :
    Next (RemovePc K V) (Except Panic (Option V)) → Prop
  | .goto pc => RemoveInv key hash v b p pc
  | .ret _ => Settled key hash v b p

/-- The next step of `remove` does not take the entry of the key out of its slot. -/
def Leaves (key : K) (hash : UInt64) (b : Bucket K V) : RemovePc K V → Prop
  | .shift (_ + 1) j _ => b.matchAt key hash (j + 1) = .ok none
  | _ => True

/-- The entry of the key stays where it is, or the loop `shift` takes it down by one slot. -/
theorem removeStep_settled {pc : RemovePc K V}
    {next : Next (RemovePc K V) (Except Panic (Option V))}
    (hkey : key' ≠ key) (hinv : RemoveInv key hash v b p pc)
    (hstep : removeStep key' hash' b pc = (b', next)) :
    RemoveAfter key hash v b' p next ∧ Leaves key hash b pc ∨
      ∃ n j value, pc = .shift (n + 1) j value ∧ p = j + 1 ∧
        b.matchAt key hash (j + 1) ≠ .ok none ∧ RemoveAfter key hash v b' j next := by
  cases pc with
  | readLen =>
    cases hstep
    exact .inl ⟨⟨hinv, rfl⟩, trivial⟩
  | scan n i =>
    obtain ⟨hs, hlen⟩ := hinv
    cases n with
    | zero =>
      cases hstep
      exact .inl ⟨hs, trivial⟩
    | succ n =>
      simp only [removeStep] at hstep
      split at hstep <;> cases hstep
      · exact .inl ⟨hs, trivial⟩
      · refine .inl ⟨⟨hs, ?_⟩, trivial⟩
        omega
      · next hmatch =>
        refine .inl ⟨⟨hs, ?_, hs.ne_of_matchAt hkey hmatch⟩, trivial⟩
        omega
  | take i =>
    obtain ⟨hs, hlt, hne⟩ := hinv
    simp only [removeStep] at hstep
    split at hstep <;> cases hstep
    · exact .inl ⟨hs, trivial⟩
    · exact .inl ⟨hs, trivial⟩
    · exact .inl ⟨⟨hs.write hne rfl, hlt, hne⟩, trivial⟩
  | range i value =>
    obtain ⟨hs, hlt, hne⟩ := hinv
    simp only [removeStep] at hstep
    split at hstep <;> cases hstep
    · exact .inl ⟨hs, trivial⟩
    · next hlen =>
      refine .inl ⟨⟨hs, ?_, hne⟩, trivial⟩
      omega
  | shift n j value =>
    obtain ⟨hs, hlen, hne⟩ := hinv
    cases n with
    | zero =>
      cases hstep
      have hlt := hs.lt_len
      refine .inl ⟨⟨hs, rfl, ?_⟩, trivial⟩
      omega
    | succ n =>
      have hle := hs.len_le
      simp only [removeStep] at hstep
      by_cases hp : j + 1 = p
      · -- the entry of the key is taken
        subst hp
        obtain ⟨slot, hread, hcarried⟩ := hs.carry
        rw [hread] at hstep
        cases hstep
        refine .inr ⟨n, j, value, rfl, rfl, hs.matchAt_ne_none, ?_, .inr ⟨hcarried, rfl⟩⟩
        rw [Bucket.write_len]
        omega
      · have hnone := hs.unique (j + 1) (by omega) hp
        split at hstep
        · cases hstep
          exact .inl ⟨hs, hnone⟩
        · next slot hread =>
          cases hstep
          have hslot := (matchAt_of_ok hread).symm.trans hnone
          refine .inl ⟨⟨?_, .inl ⟨hs.write hp rfl, hne, hp, Except.ok.inj hslot⟩⟩, hnone⟩
          rw [Bucket.write_len]
          omega
  | fill n j value slot =>
    obtain ⟨hlen, hcase⟩ := hinv
    cases hstep
    refine .inl ⟨?_, trivial⟩
    rcases hcase with ⟨hs, hne, hne', hslot⟩ | ⟨hcarried, rfl⟩
    · refine ⟨hs.write hne hslot, ?_, hne'⟩
      rw [Bucket.write_len]
      omega
    · refine ⟨hcarried.settle (by omega), ?_, Nat.succ_ne_self _⟩
      rw [Bucket.write_len]
      omega
  | writeLen n value =>
    obtain ⟨hs, hn, hlt⟩ := hinv
    have hle := hs.len_le
    cases n with
    | zero => omega
    | succ n =>
      cases hstep
      exact .inl ⟨hs.setLen (by omega) (by omega), trivial⟩

end Writers

/-! ### The reader and the writers -/

def WriterInv (key : K) (hash : UInt64) (v : V) (b : Bucket K V) (p : Nat) :
    Option (Pc K V) → Prop
  | none => Settled key hash v b p
  | some (.insert key' _ pc) => key' ≠ key ∧ Settled key hash v b p ∧ InsertInv b p pc
  | some (.remove key' pc) => key' ≠ key ∧ RemoveInv key hash v b p pc

/-- The reader has the slot `p` before it, or has found the key. -/
def Ahead (v : V) (p : Nat) : ReaderPc V → Prop
  | .readLen => True
  | .scan n i => i ≤ p ∧ p < i + n ∧ i + n ≤ 16
  | .returned result => result = .ok (some v)

/-- The reader has the slot `p` behind it, or has returned without the key. -/
def Past (p : Nat) : ReaderPc V → Prop
  | .readLen => False
  | .scan n i => p < i ∧ i + n ≤ 16
  | .returned result => result = .ok none

section System

variable {h : K → UInt64} {k : K} {v : V} {s s' : State K V} {b : Bucket K V} {p : Nat}
variable {a : Act K V} {pc : Pc K V} {w : Option (Pc K V)}

/-- The entry is in its slot, or in the hand of a remover that is about to fill the slot. -/
theorem WriterInv.cases {hash : UInt64} (hinv : WriterInv k hash v b p w) :
    Settled k hash v b p ∨
      ∃ key n value slot, w = some (.remove key (.fill n p value slot)) ∧
        Carried k hash v b slot ∧ p < b.len := by
  cases w with
  | none => exact .inl hinv
  | some pc =>
    cases pc with
    | insert key value pc => exact .inl hinv.2.1
    | remove key pc =>
      obtain ⟨_, hinv⟩ := hinv
      cases pc with
      | readLen => exact .inl hinv
      | fill n j value slot =>
        rcases hinv.2 with ⟨hs, _⟩ | ⟨hcarried, rfl⟩
        · exact .inl hs
        · have hlen := hinv.1
          exact .inr ⟨key, n, value, slot, rfl, hcarried, by omega⟩
      | _ => exact .inl hinv.1

theorem WriterInv.len {hash : UInt64} (hinv : WriterInv k hash v b p w) :
    p < b.len ∧ b.len ≤ 16 := by
  rcases hinv.cases with hs | ⟨_, _, _, _, _, hcarried, hlt⟩
  · exact ⟨hs.lt_len, hs.len_le⟩
  · exact ⟨hlt, hcarried.len_le⟩

/-- A step of the writer leaves the entry where it is or takes it down by one slot. -/
theorem WriterInv.wrote (hinv : WriterInv k (h k) v s.bucket p (some pc)) :
    WriterInv k (h k) v (s.wrote (pc.inner h s.bucket)).bucket p
          (s.wrote (pc.inner h s.bucket)).writer ∧
        (∀ key pc', pc = .remove key pc' → Leaves k (h k) s.bucket pc') ∨
      ∃ key n j value, pc = .remove key (.shift (n + 1) j value) ∧ p = j + 1 ∧
        s.bucket.matchAt k (h k) (j + 1) ≠ .ok none ∧
        WriterInv k (h k) v (s.wrote (pc.inner h s.bucket)).bucket j
          (s.wrote (pc.inner h s.bucket)).writer := by
  cases pc with
  | insert key value pc =>
    obtain ⟨hkey, hs, hpc⟩ := hinv
    cases hstep : insertStep key value (h key) s.bucket pc with
    | mk b next =>
      obtain ⟨hs', hpc'⟩ := insertStep_settled hkey hs hpc hstep
      simp only [Pc.inner, hstep]
      refine .inl ⟨?_, fun key' pc' heq => ?_⟩
      · cases next with
        | goto pc' => exact ⟨hkey, hs', hpc'⟩
        | ret result => exact hs'
      · cases heq
  | remove key pc =>
    obtain ⟨hkey, hpc⟩ := hinv
    cases hstep : removeStep key (h key) s.bucket pc with
    | mk b next =>
      simp only [Pc.inner, hstep]
      rcases removeStep_settled hkey hpc hstep with ⟨hafter, hleaves⟩ |
        ⟨n, j, value, rfl, hp, hfound, hafter⟩
      · refine .inl ⟨?_, fun key' pc' heq => ?_⟩
        · cases next with
          | goto pc' => exact ⟨hkey, hafter⟩
          | ret result => exact hafter
        · cases heq
          exact hleaves
      · refine .inr ⟨key, n, j, value, rfl, hp, hfound, ?_⟩
        cases next with
        | goto pc' => exact ⟨hkey, hafter⟩
        | ret result => exact hafter

omit [DecidableEq K] in
theorem wrote_reader (r : Bucket K V × Next (Pc K V) (Except Panic (Option V))) :
    (s.wrote r).reader = s.reader := by
  obtain ⟨b, next⟩ := r
  cases next <;> rfl

/-- The slot of the key, as the writers have left it, and where the reader is. -/
def Inv (h : K → UInt64) (k : K) (v : V) (R : Nat → ReaderPc V → Prop) (s : State K V) : Prop :=
  ∃ p, WriterInv k (h k) v s.bucket p s.writer ∧ R p s.reader

theorem inv_call {R : Nat → ReaderPc V → Prop} {call : Call K V} (hI : Inv h k v R s)
    (hstep : step h k s (.call call) = some s') : Inv h k v R s' := by
  obtain ⟨p, hinv, hR⟩ := hI
  cases hw : s.writer with
  | some pc => simp [step, hw] at hstep
  | none =>
    rw [hw] at hinv
    simp only [step, hw] at hstep
    split at hstep <;> cases hstep
    next hkey =>
    refine ⟨p, ?_, hR⟩
    cases call with
    | insert key value => exact ⟨hkey, hinv, trivial⟩
    | remove key => exact ⟨hkey, hinv⟩

theorem past_step (hI : Inv h k v Past s) (hstep : step h k s a = some s') :
    Inv h k v Past s' := by
  cases a with
  | call call => exact inv_call hI hstep
  | write =>
    obtain ⟨p, hinv, hpast⟩ := hI
    obtain ⟨pc, hw, rfl⟩ := Option.map_eq_some_iff.mp hstep
    rw [hw] at hinv
    rcases hinv.wrote with ⟨hinv', _⟩ | ⟨_, n, j, value, _, rfl, _, hinv'⟩
    · exact ⟨p, hinv', by rw [wrote_reader]; exact hpast⟩
    · refine ⟨j, hinv', ?_⟩
      rw [wrote_reader]
      revert hpast
      cases s.reader with
      | readLen => exact id
      | scan n i => exact fun hpast => ⟨by have := hpast.1; omega, hpast.2⟩
      | returned result => exact id
  | read =>
    obtain ⟨p, hinv, hpast⟩ := hI
    obtain ⟨r, hread, rfl⟩ := Option.map_eq_some_iff.mp hstep
    refine ⟨p, hinv, ?_⟩
    cases hr : s.reader with
    | readLen => exact (hr ▸ hpast).elim
    | returned result =>
      rw [hr] at hread
      cases hread
    | scan n i =>
      rw [hr] at hread hpast
      obtain ⟨hlt, hle⟩ := hpast
      cases n with
      | zero =>
        cases hread
        rfl
      | succ n =>
        have hnone : s.bucket.matchAt k (h k) i = .ok none := by
          rcases hinv.cases with hs | ⟨_, _, _, _, _, hcarried, _⟩
          · exact hs.unique i (by omega) (by omega)
          · exact hcarried.absent i (by omega)
        simp only [readerStep, hnone] at hread
        cases hread
        exact ⟨by omega, by omega⟩

/-! While the reader has the key before it, a step keeps it there unless the two meet. -/

theorem ahead_write (hI : Inv h k v (Ahead v) s) (hstep : step h k s .write = some s') :
    (NotOvertaken h k s .write → Inv h k v (Ahead v) s') ∧
      (¬ NotOvertaken h k s .write → Inv h k v Past s') := by
  obtain ⟨p, hinv, hahead⟩ := hI
  obtain ⟨pc, hw, rfl⟩ := Option.map_eq_some_iff.mp hstep
  rw [hw] at hinv
  rcases hinv.wrote with ⟨hinv', hleaves⟩ | ⟨key, n, j, value, rfl, rfl, hfound, hinv'⟩
  · refine ⟨fun _ => ⟨p, hinv', by rw [wrote_reader]; exact hahead⟩, fun hmeet => ?_⟩
    refine absurd (fun key n j value => ⟨fun _ hshift hfound => ?_, nofun⟩) hmeet
    rw [hw] at hshift
    exact absurd (hleaves key _ (Option.some.inj hshift)) hfound
  · by_cases hmeet : ∃ m, s.reader = .scan m (j + 1)
    · obtain ⟨m, hm⟩ := hmeet
      refine ⟨fun hnot => absurd hm ((hnot key n j value).1 rfl hw hfound m), fun _ => ?_⟩
      rw [hm] at hahead
      refine ⟨j, hinv', ?_⟩
      rw [wrote_reader, hm]
      exact ⟨Nat.lt_succ_self j, hahead.2.2⟩
    · refine ⟨fun _ => ⟨j, hinv', ?_⟩, fun hmet => ?_⟩
      · rw [wrote_reader]
        revert hahead hmeet
        cases s.reader with
        | readLen => exact fun _ _ => trivial
        | scan m i =>
          intro hahead hmeet
          have hne : i ≠ j + 1 := by
            rintro rfl
            exact hmeet ⟨m, rfl⟩
          obtain ⟨hle, hlt, hbound⟩ := hahead
          exact ⟨by omega, by omega, hbound⟩
        | returned result => exact fun hahead _ => hahead
      · refine absurd (fun key' n' j' value' => ⟨fun _ hshift _ m hm => ?_, nofun⟩) hmet
        rw [hw] at hshift
        cases hshift
        exact hmeet ⟨m, hm⟩

theorem ahead_read (hI : Inv h k v (Ahead v) s) (hstep : step h k s .read = some s') :
    (NotOvertaken h k s .read → Inv h k v (Ahead v) s') ∧
      (¬ NotOvertaken h k s .read → Inv h k v Past s') := by
  obtain ⟨p, hinv, hahead⟩ := hI
  obtain ⟨r, hread, rfl⟩ := Option.map_eq_some_iff.mp hstep
  cases hr : s.reader with
  | readLen =>
    rw [hr] at hread
    cases hread
    obtain ⟨hlt, hle⟩ := hinv.len
    refine ⟨fun _ => ⟨p, hinv, Nat.zero_le p, by omega, by omega⟩, fun hmet => ?_⟩
    refine absurd (fun key n j value => ⟨nofun, fun _ entry _ _ _ m hm => ?_⟩) hmet
    rw [hr] at hm
    cases hm
  | returned result =>
    rw [hr] at hread
    cases hread
  | scan n i =>
    rw [hr] at hread hahead
    obtain ⟨hle, hlt, hbound⟩ := hahead
    cases n with
    | zero => omega
    | succ n =>
      rcases hinv.cases with hs | ⟨key, m, value, slot, hw, hcarried, _⟩
      · have hnot : NotOvertaken h k s .read := by
          refine fun key m j value => ⟨nofun, fun _ entry hw hhash hkey => ?_⟩
          rw [hw] at hinv
          rcases hinv.2.2 with ⟨_, _, _, hslot⟩ | ⟨hcarried, rfl⟩
          · simp [hhash, hkey] at hslot
          · exact absurd hcarried hs.not_carried
        refine ⟨fun _ => ⟨p, hinv, ?_⟩, fun hmet => absurd hnot hmet⟩
        by_cases hip : i = p
        · subst hip
          obtain ⟨entry, hfound, hvalue⟩ := hs.found
          simp only [readerStep, hfound, hvalue] at hread
          cases hread
          rfl
        · simp only [readerStep, hs.unique i (by omega) hip] at hread
          cases hread
          exact ⟨by omega, by omega, by omega⟩
      · -- the entry is on its way to slot `p`
        simp only [readerStep, hcarried.absent i (by omega)] at hread
        cases hread
        obtain ⟨entry, rfl, hhash, hkey, _⟩ := hcarried.entry
        refine ⟨fun hnot => ⟨p, hinv, ?_⟩, fun hmet => ⟨p, hinv, ?_⟩⟩
        · have hne : i ≠ p := by
            rintro rfl
            exact (hnot key m i value).2 rfl entry hw hhash hkey _ hr
          exact ⟨by omega, by omega, by omega⟩
        · refine ⟨?_, by omega⟩
          by_contra hip
          refine hmet fun key' m' j' value' => ⟨nofun, fun _ entry' hw' _ _ m'' hr' => ?_⟩
          rw [hw] at hw'
          rw [hr] at hr'
          cases hw'
          cases hr'
          omega

theorem ahead_step (hI : Inv h k v (Ahead v) s) (hstep : step h k s a = some s') :
    (NotOvertaken h k s a → Inv h k v (Ahead v) s') ∧
      (¬ NotOvertaken h k s a → Inv h k v Past s') := by
  cases a with
  | call call =>
    have hnot : NotOvertaken h k s (.call call) := fun _ _ _ _ => ⟨nofun, nofun⟩
    exact ⟨fun _ => inv_call hI hstep, fun hmeet => absurd hnot hmeet⟩
  | write => exact ahead_write hI hstep
  | read => exact ahead_read hI hstep

/-! ### The result of the reader -/

theorem settled_of_holds {l r : List (Entry K V)} {entry : Entry K V}
    (hb : b.Holds (l ++ entry :: r)) (hhash : entry.hash = h k) (hkey : entry.key = k)
    (hothers : ∀ e ∈ l ++ r, e.key ≠ k) : Settled k (h k) entry.value b l.length := by
  have hlen : (l ++ entry :: r).length = l.length + r.length + 1 := by
    rw [List.length_append, List.length_cons]
    omega
  have hle := hb.length_le
  refine ⟨⟨entry, ?_, rfl⟩, fun i hi hne => ?_, ?_, ?_⟩
  · rw [Bucket.matchAt_of_read hb.read_middle, if_pos ⟨hhash, hkey⟩]
  · rw [matchAt_of_ok (hb.read_eq i hi)]
    cases he : (l ++ entry :: r)[i]? with
    | none => rfl
    | some e =>
      rw [filter_of_key_ne]
      refine hothers e ?_
      rcases Nat.lt_or_gt_of_ne hne with hlt | hgt
      · rw [List.getElem?_append_left hlt] at he
        exact List.mem_append_left r (List.mem_of_getElem? he)
      · obtain ⟨d, rfl⟩ := Nat.exists_eq_add_of_lt hgt
        rw [List.getElem?_append_right (by omega)] at he
        have hd : l.length + d + 1 - l.length = d + 1 := by omega
        rw [hd, List.getElem?_cons_succ] at he
        exact List.mem_append_right l (List.mem_of_getElem? he)
  · rw [hb.len_eq]
    omega
  · rw [hb.len_eq]
    exact hle

/-- The steps that are left to the reader. -/
def left (s : State K V) : Nat :=
  match s.reader with
  | .readLen => 18
  | .scan n _ => n + 1
  | .returned _ => 0

theorem left_step {R : Nat → ReaderPc V → Prop} (hI : Inv h k v R s)
    (hstep : step h k s a = some s') :
    left s' + (if a.isRead then 1 else 0) ≤ left s := by
  obtain ⟨p, hinv, _⟩ := hI
  cases a with
  | call call =>
    cases hw : s.writer with
    | some pc => simp [step, hw] at hstep
    | none =>
      simp only [step, hw] at hstep
      split at hstep <;> cases hstep
      exact Nat.le_refl _
  | write =>
    obtain ⟨pc, _, rfl⟩ := Option.map_eq_some_iff.mp hstep
    simp [left, wrote_reader, Act.isRead]
  | read =>
    obtain ⟨r, hread, rfl⟩ := Option.map_eq_some_iff.mp hstep
    have hle := hinv.len.2
    cases hr : s.reader with
    | readLen =>
      rw [hr] at hread
      cases hread
      simp only [left, hr, Act.isRead, if_true]
      omega
    | returned result =>
      rw [hr] at hread
      cases hread
    | scan n i =>
      rw [hr] at hread
      simp only [left, hr, Act.isRead, if_true]
      cases n with
      | zero =>
        cases hread
        exact Nat.le_refl _
      | succ n =>
        simp only [readerStep] at hread
        split at hread <;> cases hread
        · exact Nat.le_add_left _ _
        · exact Nat.le_refl _
        · exact Nat.le_add_left _ _

end System

/-- **When a reader finds a key that is there.**  A `get` beside writers of other keys returns
    after at most 18 steps of its own, none of which can be blocked, and its result is the value
    of the key exactly when the writer and the reader do not meet at the entry of the key. -/
theorem get_finds_iff {h : K → UInt64} {k : K} {b : Bucket K V} {l r : List (Entry K V)}
    {entry : Entry K V} {sched : List (Act K V)} {s : State K V}
    (hb : b.Holds (l ++ entry :: r)) (hhash : entry.hash = h k) (hkey : entry.key = k)
    (hothers : ∀ e ∈ l ++ r, e.key ≠ k) (hrun : run (step h k) (init b) sched = some s) :
    sched.countP Act.isRead ≤ 18 ∧
      ((∃ result, s.reader = .returned result) ∨ ∃ s', step h k s .read = some s') ∧
      ∀ result, s.reader = .returned result →
        (result = .ok (some entry.value) ↔ Along (step h k) (NotOvertaken h k) (init b) sched) := by
  have hinit : Inv h k entry.value (Ahead entry.value) (init b) :=
    ⟨l.length, settled_of_holds hb hhash hkey hothers, trivial⟩
  have hstep : ∀ s a s', Inv h k entry.value (Ahead entry.value) s ∨ Inv h k entry.value Past s →
      step h k s a = some s' →
        Inv h k entry.value (Ahead entry.value) s' ∨ Inv h k entry.value Past s' := by
    rintro s a s' (hahead | hpast) hs
    · by_cases hnot : NotOvertaken h k s a
      · exact .inl ((ahead_step hahead hs).1 hnot)
      · exact .inr ((ahead_step hahead hs).2 hnot)
    · exact .inr (past_step hpast hs)
  refine ⟨?_, ?_, fun result hresult => ⟨fun hfound => ?_, fun halong => ?_⟩⟩
  · have hle := run_countP_le (C := fun _ _ => True) (p := Act.isRead) (μ := left)
      (fun s a s' hI _ hs => ⟨hstep s a s' hI hs,
        hI.elim (fun hI => left_step hI hs) fun hI => left_step hI hs⟩)
      (.inl hinit) (along_of_forall (fun _ _ => trivial) _ _) hrun
    exact Nat.le_trans (Nat.le_add_left _ _) hle
  · cases hr : s.reader with
    | readLen => exact .inr ⟨_, by rw [step, hr]; rfl⟩
    | returned result => exact .inl ⟨result, rfl⟩
    | scan n i =>
      right
      cases n with
      | zero => exact ⟨_, by rw [step, hr]; rfl⟩
      | succ n =>
        simp only [step, hr, readerStep]
        split <;> exact ⟨_, rfl⟩
  · by_contra hmet
    obtain ⟨p, _, hpast⟩ : Inv h k entry.value Past s :=
      run_of_not_along (fun _ _ _ hI hnot hs => (ahead_step hI hs).1 hnot)
        (fun _ _ _ hI hnot hs => (ahead_step hI hs).2 hnot) (fun _ _ _ => past_step) hinit hrun hmet
    rw [hresult, hfound] at hpast
    cases hpast
  · obtain ⟨p, _, hahead⟩ : Inv h k entry.value (Ahead entry.value) s :=
      run_invariant_along (fun _ _ _ hI hnot hs => (ahead_step hI hs).1 hnot) hinit halong hrun
    rw [hresult] at hahead
    exact hahead

/-- Two keys in one bucket. -/
def pair : Bucket Nat Nat := (Bucket.empty.push ⟨1, 10, 1, 0⟩).push ⟨2, 20, 2, 0⟩

theorem holds_pair : pair.Holds ([⟨1, 10, 1, 0⟩] ++ [⟨2, 20, 2, 0⟩]) :=
  (Bucket.holds_empty.push (by decide) _).push (by decide) _

/-- The other key is removed before the reader comes to the bucket. -/
def removeFirst : List (Act Nat Nat) :=
  Act.call (.remove 1) :: List.replicate 8 Act.write ++ [Act.read, Act.read]

theorem get_finds_iff_removeFirst :
    ∃ (sched : List (Act Nat Nat)) (s : State Nat Nat),
      run (step Nat.toUInt64 2) (init pair) sched = some s ∧
      s.reader = .returned (.ok (some 20)) ∧
      Along (step Nat.toUInt64 2) (NotOvertaken Nat.toUInt64 2) (init pair) sched := by
  have hrun : (run (step Nat.toUInt64 2) (init pair) removeFirst).map State.reader =
      some (.returned (.ok (some 20))) := by
    decide
  obtain ⟨s, hs, hreader⟩ := Option.map_eq_some_iff.mp hrun
  refine ⟨removeFirst, s, hs, hreader, ?_⟩
  have hfinds := get_finds_iff (k := 2) holds_pair rfl rfl (by decide) hs
  exact (hfinds.2.2 _ hreader).mp rfl

/-- The other key is removed while the reader is between the slots of the two keys. -/
def removeBetween : List (Act Nat Nat) :=
  Act.read :: Act.read :: Act.call (.remove 1) :: List.replicate 8 Act.write ++ [Act.read, Act.read]

theorem get_misses_present_key :
    ∃ (sched : List (Act Nat Nat)) (s : State Nat Nat),
      run (step Nat.toUInt64 2) (init pair) sched = some s ∧
      s.reader = .returned (.ok none) ∧ (s.bucket.get 2 2 = .ok (some 20)) := by
  have hrun : (run (step Nat.toUInt64 2) (init pair) removeBetween).map
      (fun s => (s.reader, s.bucket.get 2 2)) =
        some (.returned (.ok none), .ok (some 20)) := by
    decide
  obtain ⟨s, hs, heq⟩ := Option.map_eq_some_iff.mp hrun
  obtain ⟨hreader, hget⟩ := Prod.mk.inj heq
  exact ⟨removeBetween, s, hs, hreader, hget⟩

end VelocityX.Map.Readers
