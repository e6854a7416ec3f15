import Mathlib.Data.List.Basic
import Mathlib.Data.Nat.ModEq

/-!
# Ring buffers

A ring of `c` slots stores position `p` in slot `p % c`.  `Holds cells c h xs`
says that the ring holds exactly the list `xs` at the positions from `h` on, and
nothing in its other slots.

On top of it, `Channel` is the abstract state of a ring that one producer and one
consumer use at the same time.  The producer writes slots beyond `tail` and then
publishes them by moving `tail`; the consumer empties slots from `head` on and then
publishes that by moving `head`.  Between a write and its publication the ring and
the interval `[head, tail)` disagree; `staged` and `taken` are the values written
and taken since the last publication, and `accepted` and `returned` are the values
published so far on either side.

`Lends cells c h xs lent` is `Holds` with some slots on loan: whoever emptied such a slot
either puts the value back or removes it from the window.
-/

namespace Ring

variable {α : Type*}

/-! ### Slots of a window -/

/-- Two positions of a window of `c` positions never share a slot. -/
theorem slot_ne {c h i j : Nat} (hi : i < c) (hj : j < c) (hij : i ≠ j) :
    (h + i) % c ≠ (h + j) % c := by
  intro heq
  have hmod : i ≡ j [MOD c] := Nat.ModEq.add_left_cancel' h heq
  exact hij (hmod.eq_of_lt_of_lt hi hj)

/-- Emptying a slot that holds no value. -/
theorem set_none_of_join {cells : List (Option α)} {i : Nat} (h : cells[i]?.join = none) :
    cells.set i none = cells := by
  cases hslot : cells[i]? with
  | none => exact List.set_eq_of_length_le (List.getElem?_eq_none_iff.mp hslot)
  | some slot =>
    rcases List.getElem?_eq_some_iff.mp hslot with ⟨hlt, hget⟩
    rw [hslot] at h
    have hnone : cells[i] = none := hget.trans h
    rw [← hnone]
    exact List.set_getElem_self hlt

/-- The ring holds exactly `xs`, from position `h` on. -/
def Holds (cells : List (Option α)) (c h : Nat) (xs : List α) : Prop :=
  cells.length = c ∧ xs.length ≤ c ∧ ∀ k, k < c → cells[(h + k) % c]? = some xs[k]?

theorem holds_replicate (c h : Nat) :
    Holds (List.replicate c (none : Option α)) c h [] := by
  refine ⟨by simp, by simp, fun k hk => ?_⟩
  have hslot : (h + k) % c < c := Nat.mod_lt _ (by omega)
  simp [hslot]

theorem Holds.congr {cells : List (Option α)} {c h h' : Nat} {xs : List α}
    (hr : Holds cells c h xs) (hmod : h % c = h' % c) : Holds cells c h' xs := by
  obtain ⟨hlen, hxs, hcells⟩ := hr
  refine ⟨hlen, hxs, fun k hk => ?_⟩
  rw [← Nat.mod_add_mod, ← hmod, Nat.mod_add_mod]
  exact hcells k hk

theorem Holds.slot_full {cells : List (Option α)} {c h k : Nat} {xs : List α}
    (hr : Holds cells c h xs) (hk : k < xs.length) :
    cells[(h + k) % c]? = some (some xs[k]) := by
  rw [hr.2.2 k (Nat.lt_of_lt_of_le hk hr.2.1), List.getElem?_eq_getElem hk]

theorem Holds.slot_free {cells : List (Option α)} {c h k : Nat} {xs : List α}
    (hr : Holds cells c h xs) (hk : xs.length ≤ k) (hc : k < c) :
    cells[(h + k) % c]? = some none := by
  rw [hr.2.2 k hc, List.getElem?_eq_none hk]

/-- Filling the first free slot appends the value. -/
theorem Holds.push {cells : List (Option α)} {c h : Nat} {xs : List α} {x : α}
    (hr : Holds cells c h xs) (hroom : xs.length < c) :
    Holds (cells.set ((h + xs.length) % c) (some x)) c h (xs ++ [x]) := by
  obtain ⟨hlen, _, hcells⟩ := hr
  refine ⟨by simpa using hlen, by simp; omega, fun k hk => ?_⟩
  by_cases hkx : k = xs.length
  · subst hkx
    have hslot : (h + xs.length) % c < cells.length := by
      rw [hlen]; exact Nat.mod_lt _ (by omega)
    simp [hslot]
  · rw [List.getElem?_set_ne (slot_ne hroom hk (Ne.symm hkx)), hcells k hk]
    by_cases hlt : k < xs.length
    · rw [List.getElem?_append_left hlt]
    · rw [List.getElem?_eq_none (by omega), List.getElem?_eq_none (by simp; omega)]

/-- Emptying the first slot removes the oldest value. -/
theorem Holds.pop {cells : List (Option α)} {c h : Nat} {x : α} {xs : List α}
    (hr : Holds cells c h (x :: xs)) :
    Holds (cells.set (h % c) none) c (h + 1) xs := by
  obtain ⟨hlen, hxs, hcells⟩ := hr
  rw [List.length_cons] at hxs
  refine ⟨by simpa using hlen, by omega, fun k hk => ?_⟩
  by_cases hlast : k + 1 = c
  · have hslot : (h + 1 + k) % c = h % c := by
      rw [show h + 1 + k = h + c by omega, Nat.add_mod_right]
    have hlt : h % c < cells.length := by rw [hlen]; exact Nat.mod_lt _ (by omega)
    rw [hslot, List.getElem?_set_self hlt, List.getElem?_eq_none (by omega)]
  · have hne : h % c ≠ (h + (k + 1)) % c := by
      simpa using slot_ne (h := h) (show 0 < c by omega) (show k + 1 < c by omega) (by omega)
    rw [show h + 1 + k = h + (k + 1) by omega, List.getElem?_set_ne hne,
      hcells (k + 1) (by omega), List.getElem?_cons_succ]

/-- Emptying the last full slot removes the newest value. -/
theorem Holds.popBack {cells : List (Option α)} {c h : Nat} {x : α} {xs : List α}
    (hr : Holds cells c h (xs ++ [x])) :
    Holds (cells.set ((h + xs.length) % c) none) c h xs := by
  obtain ⟨hlen, hxs, hcells⟩ := hr
  rw [List.length_append, List.length_singleton] at hxs
  refine ⟨by simpa using hlen, by omega, fun k hk => ?_⟩
  by_cases hkx : k = xs.length
  · subst hkx
    have hslot : (h + xs.length) % c < cells.length := by
      rw [hlen]
      exact Nat.mod_lt _ (by omega)
    rw [List.getElem?_set_self hslot, List.getElem?_eq_none (Nat.le_refl _)]
  · rw [List.getElem?_set_ne (slot_ne (by omega) hk (Ne.symm hkx)), hcells k hk]
    rcases Nat.lt_or_gt_of_ne hkx with hlt | hgt
    · rw [List.getElem?_append_left hlt]
    · rw [List.getElem?_eq_none (by simp; omega), List.getElem?_eq_none (by omega)]

/-! ### Slots on loan -/

/-- The ring holds `xs` from position `h` on, but for the slots that are on loan. -/
structure Lends (cells : List (Option α)) (c h : Nat) (xs : List α) (lent : Nat → Prop) :
    Prop where
  length_eq : cells.length = c
  length_le : xs.length ≤ c
  out : ∀ k, k < c → lent ((h + k) % c) → cells[(h + k) % c]? = some none
  kept : ∀ k, k < c → ¬ lent ((h + k) % c) → cells[(h + k) % c]? = some xs[k]?

/-- Every slot is the slot of a position of the window. -/
theorem exists_slot {c slot : Nat} (h : Nat) (hslot : slot < c) :
    ∃ k, k < c ∧ (h + k) % c = slot := by
  refine ⟨(slot + (c - h % c)) % c, Nat.mod_lt _ (by omega), ?_⟩
  have hlt : h % c < c := Nat.mod_lt _ (by omega)
  have hsum : h % c + (slot + (c - h % c)) = slot + c := by omega
  rw [Nat.add_mod_mod, ← Nat.mod_add_mod, hsum, Nat.add_mod_right, Nat.mod_eq_of_lt hslot]

section Lends

variable {cells : List (Option α)} {c h k : Nat} {xs : List α} {x : α} {lent lent' : Nat → Prop}

theorem Holds.lends (hr : Holds cells c h xs) (hnone : ∀ slot, ¬ lent slot) :
    Lends cells c h xs lent :=
  ⟨hr.1, hr.2.1, fun _ _ hlent => absurd hlent (hnone _), fun k hk _ => hr.2.2 k hk⟩

theorem Lends.congr (hr : Lends cells c h xs lent) (hiff : ∀ slot, lent' slot ↔ lent slot) :
    Lends cells c h xs lent' :=
  ⟨hr.length_eq, hr.length_le, fun k hk hlent => hr.out k hk ((hiff _).mp hlent),
    fun k hk hnot => hr.kept k hk fun hlent => hnot ((hiff _).mpr hlent)⟩

/-- A full slot is not on loan and holds the value of its position. -/
theorem Lends.of_full (hr : Lends cells c h xs lent) (hk : k < c)
    (hfull : cells[(h + k) % c]? = some (some x)) :
    ¬ lent ((h + k) % c) ∧ xs[k]? = some x := by
  have hnot : ¬ lent ((h + k) % c) := by
    intro hlent
    rw [hr.out k hk hlent] at hfull
    cases hfull
  refine ⟨hnot, ?_⟩
  rw [hr.kept k hk hnot] at hfull
  exact Option.some.inj hfull

/-- A change of the slot of position `k` is seen at position `k` only. -/
theorem set_slot_ne {i : Nat} (hk : k < c) (hi : i < c) (hne : i ≠ k) (slot : Option α) :
    (cells.set ((h + k) % c) slot)[(h + i) % c]? = cells[(h + i) % c]? :=
  List.getElem?_set_ne (slot_ne hk hi (Ne.symm hne))

theorem Lends.set_self (hr : Lends cells c h xs lent) (hk : k < c) (slot : Option α) :
    (cells.set ((h + k) % c) slot)[(h + k) % c]? = some slot := by
  refine List.getElem?_set_self ?_
  rw [hr.length_eq]
  exact Nat.mod_lt _ (by omega)

theorem Lends.push (hr : Lends cells c h xs lent) (hroom : xs.length < c)
    (hnot : ¬ lent ((h + xs.length) % c)) (x : α) :
    Lends (cells.set ((h + xs.length) % c) (some x)) c h (xs ++ [x]) lent := by
  refine ⟨by rw [List.length_set, hr.length_eq], by simp; omega, fun i hi hlent => ?_,
    fun i hi hkeep => ?_⟩
  · have hne : i ≠ xs.length := by
      rintro rfl
      exact hnot hlent
    rw [set_slot_ne hroom hi hne, hr.out i hi hlent]
  · by_cases hix : i = xs.length
    · subst hix
      rw [hr.set_self hi, List.getElem?_concat_length]
    · rw [set_slot_ne hroom hi hix, hr.kept i hi hkeep]
      rcases Nat.lt_or_gt_of_ne hix with hlt | hgt
      · rw [List.getElem?_append_left hlt]
      · rw [List.getElem?_eq_none (by omega), List.getElem?_eq_none (by simp; omega)]

theorem Lends.lend (hr : Lends cells c h xs lent) (hk : k < c) :
    Lends (cells.set ((h + k) % c) none) c h xs
      (fun slot => lent slot ∨ slot = (h + k) % c) := by
  refine ⟨by rw [List.length_set, hr.length_eq], hr.length_le, fun i hi hlent => ?_,
    fun i hi hkeep => ?_⟩
  · by_cases hik : i = k
    · subst hik
      exact hr.set_self hi none
    · have hold := hlent.resolve_right (slot_ne hi hk hik)
      rw [set_slot_ne hk hi hik, hr.out i hi hold]
  · have hik : i ≠ k := by
      rintro rfl
      exact hkeep (.inr rfl)
    rw [set_slot_ne hk hi hik]
    exact hr.kept i hi fun hlent => hkeep (.inl hlent)

theorem Lends.giveBack (hr : Lends cells c h xs lent) (hk : k < c) (hx : xs[k]? = some x) :
    Lends (cells.set ((h + k) % c) (some x)) c h xs
      (fun slot => lent slot ∧ slot ≠ (h + k) % c) := by
  refine ⟨by rw [List.length_set, hr.length_eq], hr.length_le, fun i hi hlent => ?_,
    fun i hi hkeep => ?_⟩
  · have hik : i ≠ k := by
      rintro rfl
      exact hlent.2 rfl
    rw [set_slot_ne hk hi hik, hr.out i hi hlent.1]
  · by_cases hik : i = k
    · subst hik
      rw [hr.set_self hi, hx]
    · rw [set_slot_ne hk hi hik]
      exact hr.kept i hi fun hlent => hkeep ⟨hlent, slot_ne hi hk hik⟩

/-- The first value leaves the window while its slot is on loan. -/
theorem Lends.dropFirst (hr : Lends cells c h (x :: xs) lent) (hlent : lent (h % c)) :
    Lends cells c (h + 1) xs (fun slot => lent slot ∧ slot ≠ h % c) := by
  have hlen : xs.length + 1 ≤ c := hr.length_le
  have hfirst : cells[h % c]? = some none := hr.out 0 (by omega) hlent
  have hwrap : ∀ i, i < c → (h + 1 + i) % c = (h + (i + 1)) % c := by
    intro i _
    rw [Nat.add_assoc, Nat.add_comm 1 i]
  have hlast : (h + 1 + (c - 1)) % c = h % c := by
    have hsum : h + 1 + (c - 1) = h + c := by omega
    rw [hsum, Nat.add_mod_right]
  refine ⟨hr.length_eq, by omega, fun i hi hout => ?_, fun i hi hkeep => ?_⟩
  · have hi' : i + 1 < c := by
      by_contra hge
      have heq : i = c - 1 := by omega
      rw [heq, hlast] at hout
      exact hout.2 rfl
    rw [hwrap i hi] at hout ⊢
    exact hr.out (i + 1) hi' hout.1
  · by_cases hi' : i + 1 < c
    · have hne : (h + (i + 1)) % c ≠ h % c := slot_ne (j := 0) hi' (by omega) (Nat.succ_ne_zero i)
      rw [hwrap i hi] at hkeep ⊢
      rw [hr.kept (i + 1) hi' fun hl => hkeep ⟨hl, hne⟩, List.getElem?_cons_succ]
    · have heq : i = c - 1 := by omega
      rw [heq, hlast, hfirst, List.getElem?_eq_none (by omega)]

/-- The last value leaves the window from a slot that is not on loan. -/
theorem Lends.dropLast (hr : Lends cells c h (xs ++ [x]) lent)
    (hnot : ¬ lent ((h + xs.length) % c)) :
    Lends (cells.set ((h + xs.length) % c) none) c h xs lent := by
  have hlen := hr.length_le
  rw [List.length_append, List.length_singleton] at hlen
  refine ⟨by rw [List.length_set, hr.length_eq], by omega, fun i hi hlent => ?_,
    fun i hi hkeep => ?_⟩
  · have hne : i ≠ xs.length := by
      rintro rfl
      exact hnot hlent
    rw [set_slot_ne hlen hi hne, hr.out i hi hlent]
  · by_cases hix : i = xs.length
    · subst hix
      rw [hr.set_self hi, List.getElem?_eq_none (Nat.le_refl _)]
    · rw [set_slot_ne hlen hi hix, hr.kept i hi hkeep]
      rcases Nat.lt_or_gt_of_ne hix with hlt | hgt
      · rw [List.getElem?_append_left hlt]
      · rw [List.getElem?_eq_none (by simp; omega), List.getElem?_eq_none (by omega)]

end Lends

/-! ### A ring between a producer and a consumer -/

structure Channel (α : Type*) where
  cells : List (Option α)
  head : Nat
  tail : Nat
  /-- values of all positions below `tail` -/
  accepted : List α
  /-- values of all positions below `head` -/
  returned : List α
  /-- values written at `tail` and after, not yet published -/
  staged : List α
  /-- values taken at `head` and after, not yet published -/
  taken : List α

namespace Channel

def empty (c : Nat) : Channel α :=
  ⟨List.replicate c none, 0, 0, [], [], [], []⟩

/-- The slot the producer writes next. -/
def writeSlot (c : Nat) (s : Channel α) : Nat := (s.tail + s.staged.length) % c

/-- The slot the consumer empties next. -/
def takeSlot (c : Nat) (s : Channel α) : Nat := (s.head + s.taken.length) % c

def write (c : Nat) (s : Channel α) (x : α) : Channel α :=
  { s with cells := s.cells.set (s.writeSlot c) (some x), staged := s.staged ++ [x] }

def publishTail (s : Channel α) : Channel α :=
  { s with tail := s.tail + s.staged.length, accepted := s.accepted ++ s.staged, staged := [] }

def take (c : Nat) (s : Channel α) : Channel α :=
  { s with cells := s.cells.set (s.takeSlot c) none,
           taken := s.taken ++ (s.cells[s.takeSlot c]?.join).toList }

def publishHead (s : Channel α) : Channel α :=
  { s with head := s.head + s.taken.length, returned := s.returned ++ s.taken, taken := [] }

/-- The invariant of the protocol: the two published logs agree up to `head`, and
    the ring holds what is published and not taken, followed by what is staged. -/
structure Inv (c : Nat) (s : Channel α) : Prop where
  head_eq : s.head = s.returned.length
  tail_eq : s.tail = s.accepted.length
  room : s.tail + s.staged.length ≤ s.head + c
  holds : ∃ rest, s.accepted = s.returned ++ s.taken ++ rest ∧
    Holds s.cells c (s.head + s.taken.length) (rest ++ s.staged)

variable {c : Nat} {s : Channel α}

theorem inv_empty (c : Nat) : Inv c (empty c : Channel α) :=
  ⟨rfl, rfl, by simp [empty], [], rfl, by simpa [empty] using holds_replicate c 0⟩

/-- What is published and not taken, together with where it lies. -/
theorem Inv.window (h : Inv c s) :
    ∃ rest, s.accepted = s.returned ++ s.taken ++ rest ∧
      s.tail = s.head + s.taken.length + rest.length ∧
      Holds s.cells c (s.head + s.taken.length) (rest ++ s.staged) := by
  obtain ⟨rest, hrest, hholds⟩ := h.holds
  refine ⟨rest, hrest, ?_, hholds⟩
  rw [h.tail_eq, hrest, h.head_eq, List.length_append, List.length_append]

/-- The consumer never passes the producer. -/
theorem Inv.head_le_tail (h : Inv c s) : s.head + s.taken.length ≤ s.tail := by
  obtain ⟨rest, _, htail, _⟩ := h.window
  omega

theorem Inv.tail_le (h : Inv c s) : s.tail ≤ s.head + c := by
  have := h.room
  omega

/-- The slot the producer writes next is the first one after the window. -/
theorem writeSlot_eq {rest : List α} (htail : s.tail = s.head + s.taken.length + rest.length) :
    s.writeSlot c = (s.head + s.taken.length + (rest ++ s.staged).length) % c := by
  rw [writeSlot, htail, List.length_append, Nat.add_assoc]

theorem Inv.write (h : Inv c s) (hroom : s.tail + s.staged.length < s.head + c) (x : α) :
    Inv c (s.write c x) := by
  obtain ⟨rest, hrest, htail, hholds⟩ := h.window
  refine ⟨h.head_eq, h.tail_eq, by simp [Channel.write]; omega, rest, hrest, ?_⟩
  have hpush := hholds.push (x := x) (by rw [List.length_append]; omega)
  rw [← writeSlot_eq htail] at hpush
  simpa [Channel.write] using hpush

theorem Inv.publishTail (h : Inv c s) : Inv c s.publishTail := by
  obtain ⟨rest, hrest, hholds⟩ := h.holds
  refine ⟨h.head_eq, by simp [Channel.publishTail, h.tail_eq],
    by simpa [Channel.publishTail] using h.room,
    rest ++ s.staged, by simp [Channel.publishTail, hrest], ?_⟩
  simpa [Channel.publishTail] using hholds

/-- Below `tail` the consumer finds the value that was published there. -/
theorem Inv.takeSlot_full (h : Inv c s) (hlt : s.head + s.taken.length < s.tail) :
    ∃ x rest, s.accepted = s.returned ++ s.taken ++ x :: rest ∧
      s.cells[s.takeSlot c]? = some (some x) ∧
      Holds (s.cells.set (s.takeSlot c) none) c (s.head + s.taken.length + 1)
        (rest ++ s.staged) := by
  obtain ⟨rest, hrest, htail, hholds⟩ := h.window
  obtain ⟨x, xs, rfl⟩ : ∃ x xs, rest = x :: xs :=
    List.exists_cons_of_length_pos (by omega)
  refine ⟨x, xs, hrest, ?_, hholds.pop⟩
  simpa [takeSlot] using hholds.slot_full (k := 0) (by simp)

theorem Inv.take (h : Inv c s) (hlt : s.head + s.taken.length < s.tail) :
    Inv c (s.take c) := by
  obtain ⟨x, rest, hrest, hx, hholds⟩ := h.takeSlot_full hlt
  have htaken : (s.take c).taken = s.taken ++ [x] := by simp [Channel.take, hx]
  refine ⟨h.head_eq, h.tail_eq, h.room, rest, ?_, ?_⟩
  · rw [htaken]
    simpa [Channel.take] using hrest
  · rw [htaken]
    simpa [Channel.take, Nat.add_assoc] using hholds

theorem Inv.publishHead (h : Inv c s) : Inv c s.publishHead := by
  obtain ⟨rest, hrest, hholds⟩ := h.holds
  have hle := h.room
  refine ⟨by simp [Channel.publishHead, h.head_eq], h.tail_eq,
    by simp only [Channel.publishHead]; omega, rest, by simp [Channel.publishHead, hrest], ?_⟩
  simpa [Channel.publishHead] using hholds

end Channel

end Ring
