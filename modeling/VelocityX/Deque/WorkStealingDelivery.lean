import Mathlib.Data.List.Nodup
import VelocityX.Deque.WorkStealingThreads

/-!
# Exactly-once delivery of the work-stealing deque

Along an undisputed run the deque holds a list `ys` of tasks at the indices from `h = top`
on, all accepted and none of them returned.  The invariant has three parts: the indices
(`Indices`: what each call has loaded, against `h` and the length of `ys`), the slots
(`Loans`: a slot in `[top, bottom)` is full unless a call has emptied it and still holds its
task), and the books (`Ledger`: an accepted task has been returned, or is in the hand of a
pop that is about to return it, or is in `ys`).

While a pop runs, `bottom` is one below the end of `ys` from its store on.
-/

namespace VelocityX.Deque.Threads

open Transition Linearization

variable {ι T : Type*} {w cap h n : Nat}

/-! ### What the calls hold -/

/-- The `bottom` that the call of the owner has loaded. -/
def Pc.bottom : Pc T → Option Int
  | .push _ (.loadTop b) => some b
  | .push _ (.storeSlot b) => some b
  | .push _ (.storeBottom b) => some b
  | .pop (.storeBottom b) => some b
  | .pop (.loadTop b) => some b
  | .pop (.takeSlot b _) => some b
  | .pop (.exchangeTop b _ _) => some b
  | .pop (.restoreBottom b _) => some b
  | _ => none

/-- The pop has decremented `bottom`. -/
def Pc.lowered : Pc T → Bool
  | .pop (.loadTop _) => true
  | .pop (.takeSlot _ _) => true
  | .pop (.exchangeTop _ _ _) => true
  | .pop (.restoreBottom _ _) => true
  | _ => false

/-- The `top` that the steal has loaded. -/
def Pc.seen : Pc T → Option Int
  | .steal (.loadBottom t) => some t
  | .steal (.takeSlot t) => some t
  | .steal (.exchangeTop t _) => some t
  | .steal (.putBack t _) => some t
  | _ => none

/-- The index that the steal is going for. -/
def Pc.chosen : Pc T → Option Int
  | .steal (.takeSlot t) => some t
  | .steal (.exchangeTop t _) => some t
  | .steal (.putBack t _) => some t
  | _ => none

/-- The slot that the call has emptied, and its task. -/
def Pc.loan (cap : Nat) : Pc T → Option (Nat × Task T)
  | .pop (.exchangeTop b _ (some x)) => some ((b - 1).toNat % cap, x)
  | .steal (.exchangeTop t x) => some (t.toNat % cap, x)
  | .steal (.putBack t x) => some (t.toNat % cap, x)
  | _ => none

def Pc.slot (cap : Nat) (l : Pc T) : Option Nat := (l.loan cap).map Prod.fst

/-- The task that the push has written and not published. -/
def Pc.staged : Pc T → List (Task T)
  | .push task (.storeBottom _) => [task]
  | _ => []

/-- The task that the pop is about to return. -/
def Pc.inHand : Pc T → List (Task T)
  | .pop (.restoreBottom _ value) => value.toList
  | _ => []

def Pc.Thief : Pc T → Prop
  | .idle => True
  | .steal _ => True
  | _ => False

/-! ### The indices -/

/-- What the pc of the owner says about `top = h` and the number `n` of tasks. -/
def Pc.OwnerOk (cap h n : Nat) : Pc T → Prop
  | .push _ (.storeSlot _) => n < cap
  | .push _ (.storeBottom _) => n < cap
  | .pop (.storeBottom _) => 0 < h + n
  | .pop (.loadTop _) => 0 < h + n
  | .pop (.takeSlot _ t) =>
      ∃ m : Nat, t = m ∧ m ≤ h ∧ m < h + n ∧ (m + 1 ≠ h + n → 0 < n)
  | .pop (.exchangeTop _ t _) => t + 1 = (h + n : Nat) ∧ n ≤ 1
  | .pop (.restoreBottom _ _) => n = 0
  | .steal _ => False
  | _ => True

structure Indices (w cap h n : Nat) (bottom top : Int) (o : Pc T) (th : ι → Pc T) : Prop where
  top_eq : top = (h : Nat)
  lt : h + n < 2 ^ (w - 1)
  bottom_eq : bottom = if o.lowered then ((h + n : Nat) : Int) - 1 else (h + n : Nat)
  loaded : ∀ b, o.bottom = some b → b = (h + n : Nat)
  owner : o.OwnerOk cap h n
  thief : ∀ i, (th i).Thief
  seen : ∀ i t, (th i).seen = some t → ∃ m : Nat, t = m ∧ m ≤ h
  chosen : ∀ i t, (th i).chosen = some t → t < (h + n : Nat)
  /-- A pop that saw more than one task empties a slot that no steal is going for. -/
  apart : ∀ b t, o = .pop (.takeSlot b t) → t + 1 ≠ (h + n : Nat) →
    ∀ i t', (th i).chosen = some t' → t' + 1 < (h + n : Nat)

section Indices

variable {bottom top : Int} {o o' : Pc T} {th : ι → Pc T}

theorem Pc.seen_of_chosen {l : Pc T} {t : Int} (hl : l.chosen = some t) : l.seen = some t := by
  cases l with
  | steal pc => cases pc <;> first | exact hl | cases hl
  | idle => cases hl
  | push task pc => cases hl
  | pop pc => cases hl

theorem Indices.bottom_le (hI : Indices w cap h n bottom top o th) : bottom ≤ (h + n : Nat) := by
  have hb := hI.bottom_eq
  split at hb <;> omega

/-- The owner goes on without changing `top`, `bottom` or the tasks. -/
theorem Indices.ownerMove (hI : Indices w cap h n bottom top o th)
    (hlow : o'.lowered = o.lowered) (hloaded : ∀ b, o'.bottom = some b → b = (h + n : Nat))
    (hok : o'.OwnerOk cap h n)
    (hapart : ∀ b t, o' = .pop (.takeSlot b t) → t + 1 ≠ (h + n : Nat) →
      ∀ i t', (th i).chosen = some t' → t' + 1 < (h + n : Nat)) :
    Indices w cap h n bottom top o' th :=
  ⟨hI.top_eq, hI.lt, by rw [hlow]; exact hI.bottom_eq, hloaded, hok, hI.thief, hI.seen,
    hI.chosen, hapart⟩

variable [DecidableEq ι] {i : ι} {l : Pc T}

/-- A steal goes on without changing `top`. -/
theorem Indices.thiefMove (hI : Indices w cap h n bottom top o th) (hl : l.Thief)
    (hseen : ∀ t, l.seen = some t → (th i).seen = some t ∨ t = top)
    (hchosen : ∀ t, l.chosen = some t → (th i).chosen = some t ∨ t < bottom) :
    Indices w cap h n bottom top o (Function.update th i l) := by
  have hle := hI.bottom_le
  refine ⟨hI.top_eq, hI.lt, hI.bottom_eq, hI.loaded, hI.owner, ?_, ?_, ?_, fun b t ho hne => ?_⟩
  · exact (Function.forall_update_iff th fun _ l => l.Thief).mpr ⟨hl, fun j _ => hI.thief j⟩
  · refine (Function.forall_update_iff th fun _ l => ∀ t, l.seen = some t →
      ∃ m : Nat, t = m ∧ m ≤ h).mpr ⟨fun t ht => ?_, fun j _ => hI.seen j⟩
    rcases hseen t ht with hold | hnew
    · exact hI.seen i t hold
    · exact ⟨h, hnew.trans hI.top_eq, Nat.le_refl h⟩
  · refine (Function.forall_update_iff th fun _ l => ∀ t, l.chosen = some t →
      t < (h + n : Nat)).mpr ⟨fun t ht => ?_, fun j _ => hI.chosen j⟩
    rcases hchosen t ht with hold | hnew
    · exact hI.chosen i t hold
    · omega
  · refine (Function.forall_update_iff th fun _ l => ∀ t', l.chosen = some t' →
      t' + 1 < (h + n : Nat)).mpr ⟨fun t' ht' => ?_, fun j _ => hI.apart b t ho hne j⟩
    rcases hchosen t' ht' with hold | hnew
    · exact hI.apart b t ho hne i t' hold
    · have hbottom := hI.bottom_eq
      rw [ho, Pc.lowered, if_pos rfl] at hbottom
      omega

/-- A steal advances `top`. -/
theorem Indices.thiefAdvance (hI : Indices w cap h (n + 1) bottom top o th)
    (hi : (th i).chosen = some ((h : Nat) : Int)) :
    Indices w cap (h + 1) n bottom ((h + 1 : Nat) : Int) o (Function.update th i .idle) := by
  have hsum : h + 1 + n = h + (n + 1) := by omega
  have howner : o.OwnerOk cap (h + 1) n := by
    have hok := hI.owner
    cases o with
    | idle => exact hok
    | steal pc => exact hok
    | push task pc =>
      cases pc with
      | loadBottom => exact hok
      | loadTop b => exact hok
      | storeSlot b => exact Nat.lt_of_succ_lt hok
      | storeBottom b => exact Nat.lt_of_succ_lt hok
    | pop pc =>
      cases pc with
      | loadBottom => exact hok
      | storeBottom b => exact Nat.lt_of_lt_of_eq hok hsum.symm
      | loadTop b => exact Nat.lt_of_lt_of_eq hok hsum.symm
      | takeSlot b t =>
        obtain ⟨m, hm, hle, hlt, _⟩ := hok
        refine ⟨m, hm, Nat.le_succ_of_le hle, by omega, fun hne => ?_⟩
        have happart := hI.apart b t rfl (by omega) i _ hi
        omega
      | exchangeTop b t value =>
        obtain ⟨ht, hle⟩ := hok
        exact ⟨by omega, by omega⟩
      | restoreBottom b value => exact absurd hok (Nat.succ_ne_zero n)
  refine ⟨rfl, by have := hI.lt; omega, by rw [hsum]; exact hI.bottom_eq,
    by rw [hsum]; exact hI.loaded, howner, ?_, ?_, ?_, fun b t ho hne => ?_⟩
  · exact (Function.forall_update_iff th fun _ l => l.Thief).mpr ⟨trivial, fun j _ => hI.thief j⟩
  · refine (Function.forall_update_iff th fun _ l => ∀ t, l.seen = some t →
      ∃ m : Nat, t = m ∧ m ≤ h + 1).mpr ⟨nofun, fun j _ t ht => ?_⟩
    obtain ⟨m, hm, hle⟩ := hI.seen j t ht
    exact ⟨m, hm, Nat.le_succ_of_le hle⟩
  · rw [hsum]
    exact (Function.forall_update_iff th fun _ l => ∀ t, l.chosen = some t →
      t < (h + (n + 1) : Nat)).mpr ⟨nofun, fun j _ => hI.chosen j⟩
  · rw [hsum] at hne ⊢
    exact (Function.forall_update_iff th fun _ l => ∀ t', l.chosen = some t' →
      t' + 1 < (h + (n + 1) : Nat)).mpr ⟨nofun, fun j _ => hI.apart b t ho hne j⟩

end Indices

/-! ### The slots -/

structure Loans {κ : Type*} (cap h : Nat) (xs : List (Task T)) (buffer : List (Option (Task T)))
    (loc : κ → Pc T) : Prop where
  ring : Ring.Lends buffer cap h xs (Held (Pc.slot cap) loc)
  exclusive : Exclusive (Pc.slot cap) loc
  held : ∀ t slot x, (loc t).loan cap = some (slot, x) →
    ∃ k, xs[k]? = some x ∧ slot = (h + k) % cap

section Loans

variable {κ : Type*} {xs : List (Task T)} {buffer : List (Option (Task T))} {loc : κ → Pc T}
variable {t : κ} {l : Pc T} {x : Task T} {slot k : Nat}

theorem Pc.slot_of_loan (hl : l.loan cap = some (slot, x)) : l.slot cap = some slot := by
  rw [Pc.slot, hl]
  rfl

theorem Pc.slot_of_none (hl : l.loan cap = none) : l.slot cap = none := by
  rw [Pc.slot, hl]
  rfl

/-- The value of a full slot. -/
theorem Loans.of_full (hL : Loans cap h xs buffer loc) (hslot : slot < cap)
    (hfull : buffer[slot]?.join = some x) :
    ∃ k, k < cap ∧ slot = (h + k) % cap ∧ xs[k]? = some x ∧ ¬ Held (Pc.slot cap) loc slot := by
  obtain ⟨k, hk, rfl⟩ := Ring.exists_slot h hslot
  have hcell : buffer[(h + k) % cap]? = some (some x) := Option.join_eq_some_iff.mp hfull
  obtain ⟨hnot, hx⟩ := hL.ring.of_full hk hcell
  exact ⟨k, hk, rfl, hx, hnot⟩

variable [DecidableEq κ]

/-- A step that leaves the slots and the loan of its call alone. -/
theorem Loans.keep (hL : Loans cap h xs buffer loc) (hl : l.loan cap = (loc t).loan cap) :
    Loans cap h xs buffer (Function.update loc t l) := by
  have hslot : l.slot cap = (loc t).slot cap := congrArg (Option.map Prod.fst) hl
  refine ⟨hL.ring.congr fun slot => held_update_keep hslot, ?_, ?_⟩
  · exact hL.exclusive.update fun r hr => .inl (hslot ▸ hr)
  · refine (Function.forall_update_iff loc fun _ l => ∀ slot x, l.loan cap = some (slot, x) →
      ∃ k, xs[k]? = some x ∧ slot = (h + k) % cap).mpr ⟨?_, fun u _ => hL.held u⟩
    rw [hl]
    exact hL.held t

/-- A call empties a full slot and holds its task from now on. -/
theorem Loans.take (hL : Loans cap h xs buffer loc) (hk : k < cap) (hx : xs[k]? = some x)
    (hnot : ¬ Held (Pc.slot cap) loc ((h + k) % cap)) (ht : (loc t).loan cap = none)
    (hl : l.loan cap = some ((h + k) % cap, x)) :
    Loans cap h xs (buffer.set ((h + k) % cap) none) (Function.update loc t l) := by
  have hslot := Pc.slot_of_loan hl
  refine ⟨(hL.ring.lend hk).congr fun slot => held_update_take (Pc.slot_of_none ht) hslot, ?_, ?_⟩
  · refine hL.exclusive.update fun r hr => .inr fun u _ hu => hnot ⟨u, ?_⟩
    rw [hslot] at hr
    rw [hu, hr]
  · refine (Function.forall_update_iff loc fun _ l => ∀ slot x, l.loan cap = some (slot, x) →
      ∃ k, xs[k]? = some x ∧ slot = (h + k) % cap).mpr ⟨fun slot y hy => ?_, fun u _ => hL.held u⟩
    rw [hl] at hy
    cases hy
    exact ⟨k, hx, rfl⟩

/-- A call puts its task back. -/
theorem Loans.giveBack (hL : Loans cap h xs buffer loc)
    (ht : (loc t).loan cap = some (slot, x)) (hl : l.loan cap = none) :
    Loans cap h xs (buffer.set slot (some x)) (Function.update loc t l) := by
  obtain ⟨k, hx, rfl⟩ := hL.held t slot x ht
  have hk : k < cap :=
    Nat.lt_of_lt_of_le (List.getElem?_eq_some_iff.mp hx).1 hL.ring.length_le
  refine ⟨(hL.ring.giveBack hk hx).congr fun slot =>
    held_update_drop hL.exclusive (Pc.slot_of_loan ht) (Pc.slot_of_none hl), ?_, ?_⟩
  · refine hL.exclusive.update fun r hr => ?_
    rw [Pc.slot_of_none hl] at hr
    cases hr
  · refine (Function.forall_update_iff loc fun _ l => ∀ slot x, l.loan cap = some (slot, x) →
      ∃ k, xs[k]? = some x ∧ slot = (h + k) % cap).mpr ⟨fun slot y hy => ?_, fun u _ => hL.held u⟩
    rw [hl] at hy
    cases hy

/-- The push writes the slot after the last task. -/
theorem Loans.push (hL : Loans cap h xs buffer loc) (hroom : xs.length < cap) (x : Task T)
    (hl : l.loan cap = (loc t).loan cap) :
    Loans cap h (xs ++ [x]) (buffer.set ((h + xs.length) % cap) (some x))
      (Function.update loc t l) := by
  have hnot : ¬ Held (Pc.slot cap) loc ((h + xs.length) % cap) := by
    rintro ⟨u, hu⟩
    obtain ⟨⟨slot, y⟩, hloan, heq⟩ := Option.map_eq_some_iff.mp hu
    obtain ⟨k, hy, hslot⟩ := hL.held u slot y hloan
    have hk := (List.getElem?_eq_some_iff.mp hy).1
    exact Ring.slot_ne (by omega) hroom (Nat.ne_of_lt hk) (hslot.symm.trans heq)
  refine Loans.keep ⟨hL.ring.push hroom hnot x, hL.exclusive, fun u slot y hy => ?_⟩ hl
  obtain ⟨k, hk, hslot⟩ := hL.held u slot y hy
  refine ⟨k, ?_, hslot⟩
  rw [List.getElem?_append_left (List.getElem?_eq_some_iff.mp hk).1]
  exact hk

/-- The first task leaves with the call that holds it. -/
theorem Loans.dropFirst {y : Task T} (hL : Loans cap h (y :: xs) buffer loc)
    (ht : (loc t).loan cap = some (h % cap, x)) (hl : l.loan cap = none) :
    x = y ∧ Loans cap (h + 1) xs buffer (Function.update loc t l) := by
  have hlen : xs.length + 1 ≤ cap := hL.ring.length_le
  have hslot := Pc.slot_of_loan ht
  refine ⟨?_, (hL.ring.dropFirst ⟨t, hslot⟩).congr fun slot =>
    held_update_drop hL.exclusive hslot (Pc.slot_of_none hl), ?_, ?_⟩
  · obtain ⟨k, hk, heq⟩ := hL.held t _ x ht
    have hlt := (List.getElem?_eq_some_iff.mp hk).1
    rw [List.length_cons] at hlt
    by_cases hzero : k = 0
    · subst hzero
      exact (Option.some.inj hk).symm
    · exact absurd heq.symm
        (Ring.slot_ne (j := 0) (Nat.lt_of_lt_of_le hlt hlen) (by omega) hzero)
  · refine hL.exclusive.update fun r hr => ?_
    rw [Pc.slot_of_none hl] at hr
    cases hr
  · refine (Function.forall_update_iff loc fun _ l => ∀ slot x, l.loan cap = some (slot, x) →
      ∃ k, xs[k]? = some x ∧ slot = (h + 1 + k) % cap).mpr
        ⟨fun slot y hy => ?_, fun u hu slot z hz => ?_⟩
    · rw [hl] at hy
      cases hy
    · obtain ⟨k, hk, heq⟩ := hL.held u slot z hz
      cases k with
      | zero =>
        have hother := hL.exclusive.ne_of_ne hu hslot
        rw [Pc.slot_of_loan hz, heq] at hother
        exact absurd rfl hother
      | succ k =>
        refine ⟨k, hk, ?_⟩
        rw [heq, Nat.add_assoc, Nat.add_comm 1 k]

/-- The last task leaves from its slot. -/
theorem Loans.dropLast (hL : Loans cap h (xs ++ [x]) buffer loc)
    (hfull : buffer[(h + xs.length) % cap]? ≠ some none) (hl : l.loan cap = (loc t).loan cap) :
    buffer[(h + xs.length) % cap]? = some (some x) ∧
      Loans cap h xs (buffer.set ((h + xs.length) % cap) none) (Function.update loc t l) := by
  have hlen := hL.ring.length_le
  rw [List.length_append, List.length_singleton] at hlen
  have hnot : ¬ Held (Pc.slot cap) loc ((h + xs.length) % cap) :=
    fun hheld => hfull (hL.ring.out _ hlen hheld)
  refine ⟨?_, Loans.keep ⟨hL.ring.dropLast hnot, hL.exclusive, fun u slot y hy => ?_⟩ hl⟩
  · rw [hL.ring.kept _ hlen hnot, List.getElem?_concat_length]
  · obtain ⟨k, hk, hslot⟩ := hL.held u slot y hy
    have hlt := (List.getElem?_eq_some_iff.mp hk).1
    rw [List.length_append, List.length_singleton] at hlt
    by_cases hlast : k = xs.length
    · subst hlast
      exact absurd ⟨u, hslot ▸ Pc.slot_of_loan hy⟩ hnot
    · refine ⟨k, ?_, hslot⟩
      rw [List.getElem?_append_left (by omega)] at hk
      exact hk

end Loans

/-! ### The books -/

structure Ledger (sh : Shared T) (o : Pc T) (ys : List (Task T)) : Prop where
  perm : sh.accepted.Perm (sh.returned ++ (o.inHand ++ ys))
  nodup : (sh.accepted.map Task.ticket).Nodup
  issued : ∀ a ∈ sh.accepted, a.ticket < sh.pushes
  current : ∀ task pc, o = .push task pc →
    task.ticket < sh.pushes ∧ ∀ a ∈ sh.accepted, a.ticket ≠ task.ticket

structure Fixed (w cap : Nat) (sh : Shared T) : Prop where
  capacity_eq : sh.capacity = cap
  cap_pos : 0 < cap
  cap_lt : Nonempty T → cap < 2 ^ (w - 1)
  index_eq : ∀ n : Nat, n < 2 ^ (w - 1) → sh.index w n = n % cap

structure InvAt (w cap h : Nat) (ys : List (Task T)) (s : State ι T) : Prop where
  fixed : Fixed w cap s.shared
  indices : Indices w cap h ys.length s.shared.bottom s.shared.top (s.loc none)
    fun i => s.loc (some i)
  loans : Loans cap h (ys ++ (s.loc none).staged) s.shared.buffer s.loc
  ledger : Ledger s.shared (s.loc none) ys

def Inv (w cap : Nat) (s : State ι T) : Prop := ∃ h ys, InvAt w cap h ys s

section Ledger

variable {sh : Shared T} {o o' : Pc T} {ys ys' : List (Task T)}

/-- A step that accepts nothing. -/
theorem Ledger.move (hB : Ledger sh o ys) {returned : List (Task T)} {b t : Int}
    {buffer : List (Option (Task T))}
    (hperm : (sh.returned ++ (o.inHand ++ ys)).Perm (returned ++ (o'.inHand ++ ys')))
    (hcurrent : ∀ task pc, o' = .push task pc → ∃ pc', o = .push task pc') :
    Ledger { sh with buffer := buffer, bottom := b, top := t, returned := returned } o' ys' := by
  refine ⟨hB.perm.trans hperm, hB.nodup, hB.issued, fun task pc ho' => ?_⟩
  obtain ⟨pc', ho⟩ := hcurrent task pc ho'
  exact hB.current task pc' ho

end Ledger

/-! ### The steps of the owner -/

section Steps

variable [DecidableEq ι] {s : State ι T} {ys ys' : List (Task T)} {sh' : Shared T} {p : Pc T}
variable {task x : Task T} {b t : Int} {i : ι} {value : Option (Task T)}

theorem invAt_owner (hF : Fixed w cap sh')
    (hI : Indices w cap h ys'.length sh'.bottom sh'.top p fun i => s.loc (some i))
    (hL : Loans cap h (ys' ++ p.staged) sh'.buffer (Function.update s.loc none p))
    (hB : Ledger sh' p ys') :
    InvAt w cap h ys' ⟨sh', Function.update s.loc none p⟩ := by
  have hself : Function.update s.loc none p none = p := Function.update_self ..
  have hothers : (fun i => Function.update s.loc none p (some i)) = fun i => s.loc (some i) :=
    funext fun i => Function.update_of_ne (Option.some_ne_none i) _ _
  refine ⟨hF, ?_, ?_, ?_⟩
  · dsimp only
    rw [hself, hothers]
    exact hI
  · dsimp only
    rw [hself]
    exact hL
  · dsimp only
    rw [hself]
    exact hB

theorem invAt_thief (hF : Fixed w cap sh')
    (hI : Indices w cap h ys'.length sh'.bottom sh'.top (s.loc none)
      (Function.update (fun i => s.loc (some i)) i p))
    (hL : Loans cap h (ys' ++ (s.loc none).staged) sh'.buffer (Function.update s.loc (some i) p))
    (hB : Ledger sh' (s.loc none) ys') :
    InvAt w cap h ys' ⟨sh', Function.update s.loc (some i) p⟩ := by
  have howner : Function.update s.loc (some i) p none = s.loc none :=
    Function.update_of_ne (Option.some_ne_none i).symm _ _
  have hthieves : (fun j => Function.update s.loc (some i) p (some j)) =
      Function.update (fun j => s.loc (some j)) i p := by
    funext j
    by_cases hj : j = i
    · subst hj
      rw [Function.update_self, Function.update_self]
    · rw [Function.update_of_ne hj, Function.update_of_ne fun heq => hj (Option.some.inj heq)]
  refine ⟨hF, ?_, ?_, ?_⟩
  · dsimp only
    rw [howner, hthieves]
    exact hI
  · dsimp only
    rw [howner]
    exact hL
  · dsimp only
    rw [howner]
    exact hB

/-- The owner goes on without changing the shared memory. -/
theorem InvAt.ownerQuiet (h' : InvAt w cap h ys s) (hlow : p.lowered = (s.loc none).lowered)
    (hloaded : ∀ b, p.bottom = some b → b = (h + ys.length : Nat))
    (hok : p.OwnerOk cap h ys.length)
    (hapart : ∀ b t, p = .pop (.takeSlot b t) → t + 1 ≠ (h + ys.length : Nat) →
      ∀ i t', (s.loc (some i)).chosen = some t' → t' + 1 < (h + ys.length : Nat))
    (hloan : p.loan cap = (s.loc none).loan cap) (hstaged : p.staged = (s.loc none).staged)
    (hhand : p.inHand = (s.loc none).inHand)
    (hcurrent : ∀ task pc, p = .push task pc → ∃ pc', s.loc none = .push task pc') :
    InvAt w cap h ys ⟨s.shared, Function.update s.loc none p⟩ := by
  obtain ⟨hF, hI, hL, hB⟩ := h'
  refine invAt_owner hF (hI.ownerMove hlow hloaded hok hapart) ?_ ?_
  · rw [hstaged]
    exact hL.keep hloan
  · exact hB.move (by rw [hhand]) hcurrent

/-- A push goes on without changing the shared memory. -/
theorem InvAt.pushOn {task : Task T} {pc pc' : PushPc} (h' : InvAt w cap h ys s)
    (hl : s.loc none = .push task pc)
    (hloaded : ∀ b, (Pc.push task pc').bottom = some b → b = (h + ys.length : Nat))
    (hok : (Pc.push task pc').OwnerOk cap h ys.length)
    (hstaged : (Pc.push task pc').staged = (Pc.push task pc).staged) :
    InvAt w cap h ys ⟨s.shared, Function.update s.loc none (.push task pc')⟩ := by
  refine h'.ownerQuiet (by rw [hl]; rfl) hloaded hok (fun b t heq => ?_) (by rw [hl]; rfl)
    (by rw [hl, hstaged]) (by rw [hl]; rfl) fun task' pc'' heq => ?_
  · cases heq
  · cases heq
    exact ⟨pc, hl⟩

/-- A pop goes on without changing the shared memory. -/
theorem InvAt.popOn {pc pc' : PopPc T} (h' : InvAt w cap h ys s) (hl : s.loc none = .pop pc)
    (hlow : (Pc.pop pc').lowered = (Pc.pop pc).lowered)
    (hloaded : ∀ b, (Pc.pop pc').bottom = some b → b = (h + ys.length : Nat))
    (hok : (Pc.pop pc').OwnerOk cap h ys.length)
    (hapart : ∀ b t, pc' = .takeSlot b t → t + 1 ≠ (h + ys.length : Nat) →
      ∀ i t', (s.loc (some i)).chosen = some t' → t' + 1 < (h + ys.length : Nat))
    (hloan : (Pc.pop pc').loan cap = (Pc.pop pc).loan cap)
    (hhand : (Pc.pop pc').inHand = (Pc.pop pc).inHand) :
    InvAt w cap h ys ⟨s.shared, Function.update s.loc none (.pop pc')⟩ := by
  refine h'.ownerQuiet (by rw [hl, hlow]) hloaded hok (fun b t heq => hapart b t ?_)
    (by rw [hl, hloan]) (by rw [hl]; rfl) (by rw [hl, hhand]) fun task pc'' heq => ?_
  · exact Pc.pop.inj heq
  · cases heq

/-- The owner returns. -/
theorem InvAt.ownerIdle (h' : InvAt w cap h ys s) (hlow : (s.loc none).lowered = false)
    (hloan : (s.loc none).loan cap = none) (hstaged : (s.loc none).staged = [])
    (hhand : (s.loc none).inHand = []) :
    InvAt w cap h ys ⟨s.shared, Function.update s.loc none .idle⟩ :=
  h'.ownerQuiet hlow.symm nofun trivial nofun hloan.symm hstaged.symm hhand.symm nofun

theorem InvAt.callPush (h' : InvAt w cap h ys s) (hl : s.loc none = .idle) (value : T) :
    InvAt w cap h ys ⟨{ s.shared with pushes := s.shared.pushes + 1 },
      Function.update s.loc none (.push ⟨s.shared.pushes, value⟩ .loadBottom)⟩ := by
  obtain ⟨hF, hI, hL, hB⟩ := h'
  have hloan : (s.loc none).loan cap = none := by
    rw [hl]
    rfl
  rw [hl] at hI hL hB
  refine invAt_owner ⟨hF.capacity_eq, hF.cap_pos, hF.cap_lt, hF.index_eq⟩
    (hI.ownerMove rfl nofun trivial nofun) (hL.keep hloan.symm)
    ⟨hB.perm, hB.nodup, fun a ha => Nat.lt_succ_of_lt (hB.issued a ha), ?_⟩
  intro task pc heq
  cases heq
  exact ⟨Nat.lt_succ_self _, fun a ha => Nat.ne_of_lt (hB.issued a ha)⟩

theorem InvAt.callPop (h' : InvAt w cap h ys s) (hl : s.loc none = .idle) :
    InvAt w cap h ys ⟨s.shared, Function.update s.loc none (.pop .loadBottom)⟩ :=
  h'.ownerQuiet (by rw [hl]; rfl) nofun trivial nofun (by rw [hl]; rfl) (by rw [hl]; rfl)
    (by rw [hl]; rfl) nofun

omit [DecidableEq ι] in
/-- The full test lets a push pass only if there is room. -/
theorem InvAt.room (h' : InvAt w cap h ys s) (hl : s.loc none = .push task (.loadTop b))
    (hpass : ¬ Word.signed w s.shared.capacity ≤ Word.signed w (b - s.shared.top)) :
    ys.length < cap := by
  obtain ⟨hF, hI, _, _⟩ := h'
  rw [hl] at hI
  have hlt := hI.lt
  have hdiff : b - s.shared.top = (ys.length : Nat) := by
    have hb := hI.loaded b rfl
    have htop := hI.top_eq
    omega
  rw [hdiff, hF.capacity_eq, Word.signed_of_lt (hF.cap_lt ⟨task.value⟩),
    Word.signed_of_lt (by omega)] at hpass
  omega

theorem InvAt.storeSlot (h' : InvAt w cap h ys s) (hl : s.loc none = .push task (.storeSlot b)) :
    InvAt w cap h ys
      ⟨{ s.shared with buffer := s.shared.buffer.set (s.shared.index w b) (some task) },
        Function.update s.loc none (.push task (.storeBottom b))⟩ := by
  obtain ⟨hF, hI, hL, hB⟩ := h'
  have hloan : (s.loc none).loan cap = none := by
    rw [hl]
    rfl
  rw [hl] at hI hL hB
  have hb : b = (h + ys.length : Nat) := hI.loaded b rfl
  have hindex : s.shared.index w b = (h + ys.length) % cap := by
    rw [hb]
    exact hF.index_eq _ hI.lt
  have hroom : ys.length < cap := hI.owner
  refine invAt_owner ⟨hF.capacity_eq, hF.cap_pos, hF.cap_lt, hF.index_eq⟩
    (hI.ownerMove rfl (fun b' hb' => ?_) hroom nofun) ?_ (hB.move (List.Perm.refl _) ?_)
  · cases hb'
    exact hb
  · have hpush := Loans.push (t := none) (l := .push task (.storeBottom b)) hL
      (by simpa [Pc.staged] using hroom) task hloan.symm
    simp only [Pc.staged, List.append_nil] at hpush ⊢
    rw [hindex]
    exact hpush
  · intro task' pc heq
    cases heq
    exact ⟨_, rfl⟩

theorem InvAt.publish (h' : InvAt w cap h ys s)
    (hl : s.loc none = .push task (.storeBottom b)) (hlt : b + 1 < 2 ^ (w - 1)) :
    InvAt w cap h (ys ++ [task])
      ⟨{ s.shared with bottom := Word.signed w (b + 1),
                       accepted := s.shared.accepted ++ [task] },
        Function.update s.loc none .idle⟩ := by
  obtain ⟨hF, hI, hL, hB⟩ := h'
  have hloan : (s.loc none).loan cap = none := by
    rw [hl]
    rfl
  rw [hl] at hI hL hB
  have hb : b = (h + ys.length : Nat) := hI.loaded b rfl
  have hnext : h + (ys.length + 1) < 2 ^ (w - 1) := by
    rw [hb] at hlt
    exact_mod_cast hlt
  have hbottom : Word.signed w (b + 1) = (h + (ys.length + 1) : Nat) := by
    rw [hb]
    exact Word.signed_of_lt (a := h + (ys.length + 1)) hnext
  obtain ⟨hticket, hnew⟩ := hB.current task _ rfl
  refine invAt_owner ⟨hF.capacity_eq, hF.cap_pos, hF.cap_lt, hF.index_eq⟩ ?_ ?_ ?_
  · rw [List.length_append, List.length_singleton]
    refine ⟨hI.top_eq, hnext, hbottom, nofun, trivial, hI.thief, hI.seen, fun j t ht => ?_, nofun⟩
    have hold := hI.chosen j t ht
    omega
  · have hkeep := Loans.keep (t := none) (l := .idle) hL hloan.symm
    simpa only [Pc.staged, List.append_nil] using hkeep
  · refine ⟨?_, ?_, fun a ha => ?_, nofun⟩
    · have hperm := hB.perm.append_right [task]
      simpa only [Pc.inHand, List.nil_append, List.append_assoc] using hperm
    · rw [List.map_append]
      refine List.Nodup.append hB.nodup (List.nodup_singleton _) fun n hn hmem => ?_
      obtain ⟨a, ha, rfl⟩ := List.mem_map.mp hn
      exact hnew a ha (List.mem_singleton.mp hmem)
    · rcases List.mem_append.mp ha with hold | hlast
      · exact hB.issued a hold
      · rw [List.mem_singleton.mp hlast]
        exact hticket

theorem InvAt.lower (h' : InvAt w cap h ys s) (hl : s.loc none = .pop (.storeBottom b)) :
    InvAt w cap h ys ⟨{ s.shared with bottom := Word.signed w (b - 1) },
      Function.update s.loc none (.pop (.loadTop b))⟩ := by
  obtain ⟨hF, hI, hL, hB⟩ := h'
  have hloan : (s.loc none).loan cap = none := by
    rw [hl]
    rfl
  rw [hl] at hI hL hB
  have hb : b = (h + ys.length : Nat) := hI.loaded b rfl
  have hpos : 0 < h + ys.length := hI.owner
  have hlt := hI.lt
  have hsub : b - 1 = (h + ys.length - 1 : Nat) := by omega
  refine invAt_owner ⟨hF.capacity_eq, hF.cap_pos, hF.cap_lt, hF.index_eq⟩
    ⟨hI.top_eq, hlt, ?_, fun b' hb' => ?_, hpos, hI.thief, hI.seen, hI.chosen, nofun⟩
    (hL.keep hloan.symm) (hB.move (List.Perm.refl _) nofun)
  · show Word.signed w (b - 1) = ((h + ys.length : Nat) : Int) - 1
    rw [hsub, Word.signed_of_lt (by omega)]
    omega
  · cases hb'
    exact hb

omit [DecidableEq ι] in
/-- A pop takes the slot of the last task. -/
theorem InvAt.takeIndex (h' : InvAt w cap h ys s) (hl : s.loc none = .pop (.takeSlot b t)) :
    b = (h + ys.length : Nat) ∧ Word.signed w (b - 1) = (h + ys.length - 1 : Nat) ∧
      s.shared.index w (Word.signed w (b - 1)) = (h + ys.length - 1) % cap := by
  obtain ⟨hF, hI, _, _⟩ := h'
  rw [hl] at hI
  have hb : b = (h + ys.length : Nat) := hI.loaded b rfl
  obtain ⟨m, hm, hle, hlt, _⟩ := hI.owner
  have hbound := hI.lt
  have hsub : b - 1 = (h + ys.length - 1 : Nat) := by omega
  have hpred : Word.signed w (b - 1) = (h + ys.length - 1 : Nat) := by
    rw [hsub]
    exact Word.signed_of_lt (by omega)
  refine ⟨hb, hpred, ?_⟩
  rw [hpred]
  exact hF.index_eq _ (by omega)

/-- The pop takes the slot of the last index.  A task that is there is `ys`. -/
theorem InvAt.takeLast (h' : InvAt w cap h ys s) (hl : s.loc none = .pop (.takeSlot b t))
    (ht : t = Word.signed w (b - 1))
    (hvalue : s.shared.buffer[s.shared.index w (Word.signed w (b - 1))]?.join = value) :
    InvAt w cap h ys
      ⟨{ s.shared with
          buffer := s.shared.buffer.set (s.shared.index w (Word.signed w (b - 1))) none },
        Function.update s.loc none (.pop (.exchangeTop b t value))⟩ := by
  obtain ⟨hb, hpred, hindex⟩ := h'.takeIndex hl
  obtain ⟨hF, hI, hL, hB⟩ := h'
  have hloan : (s.loc none).loan cap = none := by
    rw [hl]
    rfl
  rw [hl] at hI hL hB
  obtain ⟨m, hm, hle, hlt, hmore⟩ := hI.owner
  have hsub : h + ys.length - 1 = (b - 1).toNat := by omega
  rw [hindex, hsub] at hvalue
  rw [hindex, hsub]
  refine invAt_owner ⟨hF.capacity_eq, hF.cap_pos, hF.cap_lt, hF.index_eq⟩
    (hI.ownerMove rfl (fun b' hb' => ?_) ⟨by omega, by omega⟩ nofun) ?_
    (hB.move (List.Perm.refl _) nofun)
  · cases hb'
    exact hb
  · cases value with
    | none =>
      show Loans cap h _ (s.shared.buffer.set _ none) _
      rw [Ring.set_none_of_join hvalue]
      exact hL.keep hloan.symm
    | some x =>
      obtain ⟨k, hk, hslot, hx, hnot⟩ := hL.of_full (Nat.mod_lt _ hF.cap_pos) hvalue
      show Loans cap h _ (s.shared.buffer.set ((b - 1).toNat % cap) none) _
      have hout : (Pc.pop (.exchangeTop b t (some x)) : Pc T).loan cap =
          some ((h + k) % cap, x) := by
        rw [← hslot]
        rfl
      rw [hslot] at hnot ⊢
      exact hL.take hk hx hnot hloan hout

/-- The pop takes and returns the last of several tasks. -/
theorem InvAt.takeOne (h' : InvAt w cap h ys s) (hl : s.loc none = .pop (.takeSlot b t))
    (ht : t ≠ Word.signed w (b - 1))
    (hfull : s.shared.buffer[s.shared.index w (Word.signed w (b - 1))]? ≠ some none) :
    InvAt w cap h ys.dropLast
      ⟨{ s.shared with
          buffer := s.shared.buffer.set (s.shared.index w (Word.signed w (b - 1))) none
          returned := s.shared.returned ++
            (s.shared.buffer[s.shared.index w (Word.signed w (b - 1))]?.join).toList },
        Function.update s.loc none .idle⟩ := by
  obtain ⟨hb, hpred, hindex⟩ := h'.takeIndex hl
  obtain ⟨hF, hI, hL, hB⟩ := h'
  have hloan : (s.loc none).loan cap = none := by
    rw [hl]
    rfl
  rw [hl] at hI hL hB
  obtain ⟨m, hm, hle, hlt, hmore⟩ := hI.owner
  have hbound := hI.lt
  have hne : m + 1 ≠ h + ys.length := by omega
  have hpos := hmore hne
  rcases List.eq_nil_or_concat ys with rfl | ⟨ys, x, rfl⟩
  · exact absurd hpos (Nat.lt_irrefl 0)
  rw [List.concat_eq_append] at *
  rw [List.length_append, List.length_singleton] at *
  rw [← Nat.add_assoc, Nat.add_sub_cancel] at hindex
  rw [hindex] at hfull ⊢
  rw [List.dropLast_concat]
  have hloans : Loans cap h (ys ++ [x]) s.shared.buffer s.loc := by
    simpa only [Pc.staged, List.append_nil] using hL
  obtain ⟨hx, hrest⟩ := hloans.dropLast (t := none) (l := .idle) hfull hloan.symm
  refine invAt_owner ⟨hF.capacity_eq, hF.cap_pos, hF.cap_lt, hF.index_eq⟩ ?_ ?_ ?_
  · have hbottom := hI.bottom_eq
    rw [Pc.lowered, if_pos rfl] at hbottom
    refine ⟨hI.top_eq, by omega, ?_, nofun, trivial, hI.thief, hI.seen, fun j t' ht' => ?_, nofun⟩
    · show s.shared.bottom = (h + ys.length : Nat)
      omega
    · have happart := hI.apart b t rfl (by omega) j t' ht'
      omega
  · simpa only [Pc.staged, List.append_nil] using hrest
  · rw [hx]
    refine hB.move ?_ nofun
    simp only [Pc.inHand, List.nil_append, Option.join_some, Option.toList_some,
      List.append_assoc]
    exact (List.perm_append_comm).append_left _

/-- The pop wins the last task. -/
theorem InvAt.win (h' : InvAt w cap h ys s)
    (hl : s.loc none = .pop (.exchangeTop b t (some x))) (ht : s.shared.top = t) :
    InvAt w cap (h + 1) [] ⟨{ s.shared with top := Word.signed w (t + 1) },
      Function.update s.loc none (.pop (.restoreBottom b (some x)))⟩ := by
  obtain ⟨hF, hI, hL, hB⟩ := h'
  have hloan : (s.loc none).loan cap = some ((b - 1).toNat % cap, x) := by
    rw [hl]
    rfl
  rw [hl] at hI hL hB
  have hb : b = (h + ys.length : Nat) := hI.loaded b rfl
  have htop := hI.top_eq
  have hbound := hI.lt
  obtain ⟨hlast, hone⟩ := hI.owner
  obtain ⟨y, rfl⟩ : ∃ y, ys = [y] := List.length_eq_one_iff.mp (by omega)
  rw [List.length_singleton] at *
  have hnext : Word.signed w (t + 1) = (h + 1 : Nat) := by
    rw [hlast]
    exact Word.signed_of_lt hbound
  have hslot : (b - 1).toNat = h := by omega
  rw [hslot] at hloan
  obtain ⟨rfl, hrest⟩ := Loans.dropFirst (l := .pop (.restoreBottom b (some x))) hL hloan rfl
  refine invAt_owner ⟨hF.capacity_eq, hF.cap_pos, hF.cap_lt, hF.index_eq⟩ ?_ hrest
    (hB.move (List.Perm.refl _) nofun)
  refine ⟨hnext, hbound, hI.bottom_eq, fun b' hb' => ?_, rfl, hI.thief, fun j t' ht' => ?_,
    hI.chosen, nofun⟩
  · cases hb'
    exact hb
  · obtain ⟨m, hm, hle⟩ := hI.seen j t' ht'
    exact ⟨m, hm, Nat.le_succ_of_le hle⟩

/-- The pop has lost the last task: it holds nothing. -/
theorem InvAt.lose (h' : InvAt w cap h ys s)
    (hl : s.loc none = .pop (.exchangeTop b t value)) (ht : s.shared.top ≠ t) :
    InvAt w cap h ys ⟨s.shared, Function.update s.loc none (.pop (.restoreBottom b none))⟩ := by
  have hI := h'.indices
  have hL := h'.loans
  rw [hl] at hI hL
  have htop := hI.top_eq
  obtain ⟨hlast, hone⟩ := hI.owner
  have hnil : ys = [] := List.eq_nil_of_length_eq_zero (by omega)
  refine h'.ownerQuiet (by rw [hl]; rfl) (fun b' hb' => ?_) (by rw [hnil]; rfl) nofun ?_
    (by rw [hl]; rfl) (by rw [hl]; rfl) nofun
  · cases hb'
    exact hI.loaded b rfl
  · rw [hl]
    cases value with
    | none => rfl
    | some x =>
      obtain ⟨k, hk, _⟩ := hL.held none _ x (by rw [hl]; rfl)
      rw [hnil] at hk
      cases hk

theorem InvAt.restore (h' : InvAt w cap h ys s)
    (hl : s.loc none = .pop (.restoreBottom b value)) :
    InvAt w cap h ys
      ⟨{ s.shared with bottom := b, returned := s.shared.returned ++ value.toList },
        Function.update s.loc none .idle⟩ := by
  obtain ⟨hF, hI, hL, hB⟩ := h'
  have hloan : (s.loc none).loan cap = none := by
    rw [hl]
    rfl
  rw [hl] at hI hL hB
  refine invAt_owner ⟨hF.capacity_eq, hF.cap_pos, hF.cap_lt, hF.index_eq⟩
    ⟨hI.top_eq, hI.lt, hI.loaded b rfl, nofun, trivial, hI.thief, hI.seen, hI.chosen, nofun⟩
    (hL.keep hloan.symm) (hB.move ?_ nofun)
  rw [List.append_assoc]
  exact List.Perm.refl _

/-! ### The steps of a thief -/

/-- A steal goes on without changing the shared memory. -/
theorem InvAt.thiefQuiet (h' : InvAt w cap h ys s) (hl : p.Thief)
    (hseen : ∀ t, p.seen = some t → (s.loc (some i)).seen = some t ∨ t = s.shared.top)
    (hchosen : ∀ t, p.chosen = some t →
      (s.loc (some i)).chosen = some t ∨ t < s.shared.bottom)
    (hloan : p.loan cap = (s.loc (some i)).loan cap) :
    InvAt w cap h ys ⟨s.shared, Function.update s.loc (some i) p⟩ :=
  invAt_thief h'.fixed (h'.indices.thiefMove hl hseen hchosen) (h'.loans.keep hloan) h'.ledger

theorem InvAt.callSteal (h' : InvAt w cap h ys s) (hl : s.loc (some i) = .idle) :
    InvAt w cap h ys ⟨s.shared, Function.update s.loc (some i) (.steal .loadTop)⟩ :=
  h'.thiefQuiet trivial nofun nofun (by rw [hl]; rfl)

/-- A thief returns. -/
theorem InvAt.thiefIdle (h' : InvAt w cap h ys s) (hloan : (s.loc (some i)).loan cap = none) :
    InvAt w cap h ys ⟨s.shared, Function.update s.loc (some i) .idle⟩ :=
  h'.thiefQuiet trivial nofun nofun hloan.symm

omit [DecidableEq ι] in
/-- The slot that a steal is going for. -/
theorem InvAt.index_eq (h' : InvAt w cap h ys s) (hseen : (s.loc (some i)).seen = some t) :
    s.shared.index w t = t.toNat % cap := by
  obtain ⟨m, rfl, hle⟩ := h'.indices.seen i t hseen
  have hlt := h'.indices.lt
  rw [Int.toNat_natCast]
  exact h'.fixed.index_eq m (by omega)

theorem InvAt.stealTake (h' : InvAt w cap h ys s)
    (hl : s.loc (some i) = .steal (.takeSlot t))
    (hvalue : s.shared.buffer[s.shared.index w t]?.join = some x) :
    InvAt w cap h ys
      ⟨{ s.shared with buffer := s.shared.buffer.set (s.shared.index w t) none },
        Function.update s.loc (some i) (.steal (.exchangeTop t x))⟩ := by
  have hindex : s.shared.index w t = t.toNat % cap := h'.index_eq (i := i) (by rw [hl]; rfl)
  obtain ⟨hF, hI, hL, hB⟩ := h'
  rw [hindex] at hvalue ⊢
  obtain ⟨k, hk, hslot, hx, hnot⟩ := hL.of_full (Nat.mod_lt _ hF.cap_pos) hvalue
  refine invAt_thief ⟨hF.capacity_eq, hF.cap_pos, hF.cap_lt, hF.index_eq⟩
    (hI.thiefMove trivial (fun t' ht' => ?_) (fun t' ht' => ?_)) ?_
    (hB.move (List.Perm.refl _) fun task pc ho => ⟨pc, ho⟩)
  · rw [hl]
    exact .inl ht'
  · rw [hl]
    exact .inl ht'
  · have hout : (Pc.steal (.exchangeTop t x) : Pc T).loan cap = some ((h + k) % cap, x) := by
      rw [← hslot]
      rfl
    rw [hslot] at hnot
    show Loans cap h _ (s.shared.buffer.set (t.toNat % cap) none) _
    rw [hslot]
    exact hL.take hk hx hnot (by rw [hl]; rfl) hout

/-- The steal wins the first task. -/
theorem InvAt.stealWin (h' : InvAt w cap h ys s)
    (hl : s.loc (some i) = .steal (.exchangeTop t x)) (ht : s.shared.top = t) :
    InvAt w cap (h + 1) ys.tail
      ⟨{ s.shared with top := Word.signed w (t + 1), returned := s.shared.returned ++ [x] },
        Function.update s.loc (some i) .idle⟩ := by
  obtain ⟨hF, hI, hL, hB⟩ := h'
  have htop : t = (h : Nat) := ht.symm.trans hI.top_eq
  have hchosen : (s.loc (some i)).chosen = some ((h : Nat) : Int) := by
    rw [hl, ← htop]
    rfl
  have hlive := hI.chosen i _ hchosen
  have hloan : (s.loc (some i)).loan cap = some (h % cap, x) := by
    rw [hl, htop]
    rfl
  cases ys with
  | nil => exact absurd hlive (by simp)
  | cons y ys =>
    have hbound := hI.lt
    rw [List.length_cons] at hbound
    have hnext : Word.signed w (t + 1) = (h + 1 : Nat) := by
      rw [htop]
      exact Word.signed_of_lt (a := h + 1) (by omega)
    obtain ⟨rfl, hrest⟩ := Loans.dropFirst (l := .idle) hL hloan rfl
    rw [hnext]
    refine invAt_thief ⟨hF.capacity_eq, hF.cap_pos, hF.cap_lt, hF.index_eq⟩
      (hI.thiefAdvance hchosen) hrest (hB.move ?_ fun task pc ho => ⟨pc, ho⟩)
    rw [List.append_assoc]
    exact (List.perm_middle).append_left _

theorem InvAt.putBack (h' : InvAt w cap h ys s)
    (hl : s.loc (some i) = .steal (.putBack t x)) :
    InvAt w cap h ys
      ⟨{ s.shared with buffer := s.shared.buffer.set (s.shared.index w t) (some x) },
        Function.update s.loc (some i) .idle⟩ := by
  have hindex : s.shared.index w t = t.toNat % cap := h'.index_eq (i := i) (by rw [hl]; rfl)
  obtain ⟨hF, hI, hL, hB⟩ := h'
  rw [hindex]
  exact invAt_thief ⟨hF.capacity_eq, hF.cap_pos, hF.cap_lt, hF.index_eq⟩
    (hI.thiefMove trivial nofun nofun) (hL.giveBack (by rw [hl]; rfl) rfl)
    (hB.move (List.Perm.refl _) fun task pc ho => ⟨pc, ho⟩)

end Steps

/-! ### Runs -/

section Runs

variable {s s' : State ι T} {d : WorkStealingDeque T} {slot capacity : Nat}
variable {ys : List (Task T)}

theorem InvAt.deliveredOnce (h' : InvAt w cap h ys s) : DeliveredOnce w s := by
  obtain ⟨hF, hI, hL, hB⟩ := h'
  refine ⟨?_, fun hidle => ?_⟩
  · have hnodup := (hB.perm.nodup_iff.mp hB.nodup.of_map)
    exact (List.nodup_append.mp hnodup).1
  · rw [hidle none] at hI hL hB
    have htop := hI.top_eq
    have hbottom : s.shared.bottom = (h + ys.length : Nat) := hI.bottom_eq
    have hbound := hI.lt
    refine ⟨by omega, fun task htask => ?_⟩
    rcases List.mem_append.mp (hB.perm.mem_iff.mp htask) with hret | hmem
    · exact .inl hret
    · obtain ⟨k, hk⟩ := List.getElem?_of_mem (show task ∈ ys from hmem)
      have hlt : k < ys.length := (List.getElem?_eq_some_iff.mp hk).1
      refine .inr ⟨(h + k : Nat), by omega, by omega, ?_⟩
      have hring := hL.ring
      simp only [Pc.staged, List.append_nil] at hring
      rw [hF.index_eq _ (by omega), hring.kept k (Nat.lt_of_lt_of_le hlt hring.length_le), hk]
      rintro ⟨u, hu⟩
      rw [hidle u] at hu
      cases hu

theorem inv_init (hslot : Nonempty T → 0 < slot)
    (hd : WorkStealingDeque.new w slot capacity = some d) (hpos : 0 < d.capacity) :
    Inv w d.capacity (init d : State ι T) := by
  have hrep := WorkStealingDeque.represents_withCapacity hd hpos
  obtain ⟨hnew, _, hbytes⟩ := WorkStealingDeque.withCapacity_eq_some hd hpos
  have hcapacity : d.capacity = roundUp capacity := by rw [hnew]
  have htop : d.top = 0 := by rw [hnew]
  have hbottom : d.bottom = 0 := by rw [hnew]
  have hnobody : ∀ r, ¬ Held (Pc.slot d.capacity) (fun _ : Option ι => (.idle : Pc T)) r := by
    rintro r ⟨t, ht⟩
    cases ht
  refine ⟨0, [], ⟨rfl, ?_, ?_, ?_⟩, ?_, ⟨?_, ?_, nofun⟩, ⟨?_, ?_, nofun, nofun⟩⟩
  · exact hpos
  · intro hT
    rw [hcapacity]
    exact Nat.lt_of_le_of_lt (Nat.le_mul_of_pos_right _ (hslot hT)) hbytes
  · intro n hn
    exact hrep.index_eq hn
  · refine ⟨htop, Nat.two_pow_pos (w - 1), hbottom, nofun, trivial, fun _ => trivial, nofun,
      nofun, nofun⟩
  · exact (Ring.holds_replicate d.capacity 0).lends hnobody
  · intro t u r ht
    cases ht
  · exact List.Perm.refl _
  · exact List.nodup_nil

variable [DecidableEq ι]

/-- The tasks after a step of a push. -/
def PushPc.leaves (task : Task T) (ys : List (Task T)) : PushPc → List (Task T)
  | .storeBottom _ => ys ++ [task]
  | _ => ys

/-- The tasks after a step of a pop. -/
def PopPc.leaves (w : Nat) (top : Int) (ys : List (Task T)) : PopPc T → List (Task T)
  | .takeSlot b t => if t = Word.signed w (b - 1) then ys else ys.dropLast
  | .exchangeTop _ t _ => if top = t then [] else ys
  | _ => ys

/-- The tasks after a step of a steal. -/
def StealPc.leaves (top : Int) (ys : List (Task T)) : StealPc T → List (Task T)
  | .exchangeTop t _ => if top = t then ys.tail else ys
  | _ => ys

theorem inv_pushStep {task : Task T} {pc : PushPc} (h' : InvAt w cap h ys s)
    (hl : s.loc none = .push task pc)
    (hpublish : ∀ b, pc = .storeBottom b → b + 1 < 2 ^ (w - 1)) :
    InvAt w cap h (pc.leaves task ys) ⟨(pushStep w task s.shared pc).1,
      Function.update s.loc none (.after (.push task) (pushStep w task s.shared pc).2)⟩ := by
  have hI := h'.indices
  rw [hl] at hI
  cases pc with
  | loadBottom =>
    refine h'.pushOn hl (fun b hb => ?_) trivial rfl
    cases hb
    exact hI.bottom_eq
  | loadTop b =>
    by_cases hfull : Word.signed w s.shared.capacity ≤ Word.signed w (b - s.shared.top)
    · rw [pushStep, if_pos hfull]
      exact h'.ownerIdle (by rw [hl]; rfl) (by rw [hl]; rfl) (by rw [hl]; rfl) (by rw [hl]; rfl)
    · rw [pushStep, if_neg hfull]
      refine h'.pushOn hl (fun b' hb' => ?_) (h'.room hl hfull) rfl
      cases hb'
      exact hI.loaded b rfl
  | storeSlot b => exact h'.storeSlot hl
  | storeBottom b => exact h'.publish hl (hpublish b rfl)

theorem inv_popStep {pc : PopPc T} (h' : InvAt w cap h ys s) (hl : s.loc none = .pop pc)
    (hfull : ∀ b t, pc = .takeSlot b t → t ≠ Word.signed w (b - 1) →
      s.shared.buffer[s.shared.index w (Word.signed w (b - 1))]? ≠ some none)
    (hempty : ∀ b t, pc = .exchangeTop b t none → s.shared.top ≠ t) :
    ∃ h', InvAt w cap h' (pc.leaves w s.shared.top ys) ⟨(popStep w s.shared pc).1,
      Function.update s.loc none (.after .pop (popStep w s.shared pc).2)⟩ := by
  have hI := h'.indices
  rw [hl] at hI
  cases pc with
  | loadBottom =>
    have hbottom : s.shared.bottom = (h + ys.length : Nat) := hI.bottom_eq
    by_cases hzero : s.shared.bottom = 0
    · rw [popStep, if_pos hzero]
      exact ⟨h, h'.ownerIdle (by rw [hl]; rfl) (by rw [hl]; rfl) (by rw [hl]; rfl)
        (by rw [hl]; rfl)⟩
    · rw [popStep, if_neg hzero]
      have hpos : 0 < h + ys.length := by omega
      refine ⟨h, h'.popOn hl rfl (fun b hb => ?_) hpos (fun b t heq => ?_) rfl rfl⟩
      · cases hb
        exact hbottom
      · cases heq
  | storeBottom b => exact ⟨h, h'.lower hl⟩
  | loadTop b =>
    have hb : b = (h + ys.length : Nat) := hI.loaded b rfl
    have htop := hI.top_eq
    by_cases hmore : s.shared.top < b
    · rw [popStep, if_pos hmore]
      refine ⟨h, h'.popOn hl rfl (fun b' hb' => ?_)
        ⟨h, htop, Nat.le_refl h, by omega, fun _ => by omega⟩
        (fun b' t heq hne i t' ht' => ?_) rfl rfl⟩
      · cases hb'
        exact hb
      · -- a steal has loaded a `top` from before
        cases heq
        obtain ⟨m, rfl, hle⟩ := hI.seen i t' (Pc.seen_of_chosen ht')
        omega
    · rw [popStep, if_neg hmore]
      have hnone : ys.length = 0 := by omega
      refine ⟨h, h'.popOn hl rfl (fun b' hb' => ?_) hnone (fun b' t heq => ?_) rfl rfl⟩
      · cases hb'
        exact hb
      · cases heq
  | takeSlot b t =>
    by_cases ht : t = Word.signed w (b - 1)
    · simp only [popStep, PopPc.leaves, if_pos ht]
      exact ⟨h, h'.takeLast hl ht rfl⟩
    · simp only [popStep, PopPc.leaves, if_neg ht]
      exact ⟨h, h'.takeOne hl ht (hfull b t rfl ht)⟩
  | exchangeTop b t value =>
    by_cases ht : s.shared.top = t
    · simp only [popStep, PopPc.leaves, if_pos ht]
      cases value with
      | none => exact absurd ht (hempty b t rfl)
      | some x => exact ⟨h + 1, h'.win hl ht⟩
    · simp only [popStep, PopPc.leaves, if_neg ht]
      exact ⟨h, h'.lose hl ht⟩
  | restoreBottom b value => exact ⟨h, h'.restore hl⟩

theorem inv_stealStep {i : ι} {pc : StealPc T} (h' : InvAt w cap h ys s)
    (hl : s.loc (some i) = .steal pc) :
    ∃ h', InvAt w cap h' (pc.leaves s.shared.top ys) ⟨(stealStep w s.shared pc).1,
      Function.update s.loc (some i) (.after .steal (stealStep w s.shared pc).2)⟩ := by
  cases pc with
  | loadTop =>
    refine ⟨h, h'.thiefQuiet (p := .steal (.loadBottom s.shared.top)) trivial (fun t ht => ?_)
      (fun t ht => ?_) (by rw [hl]; rfl)⟩
    · cases ht
      exact .inr rfl
    · cases ht
  | loadBottom t =>
    by_cases hempty : s.shared.bottom ≤ t
    · rw [stealStep, if_pos hempty]
      exact ⟨h, h'.thiefIdle (by rw [hl]; rfl)⟩
    · rw [stealStep, if_neg hempty]
      refine ⟨h, h'.thiefQuiet (p := .steal (.takeSlot t)) trivial (fun t' ht' => ?_)
        (fun t' ht' => ?_) (by rw [hl]; rfl)⟩
      · rw [hl]
        exact .inl ht'
      · cases ht'
        exact .inr (Int.not_le.mp hempty)
  | takeSlot t =>
    rw [stealStep]
    cases hvalue : s.shared.buffer[s.shared.index w t]?.join with
    | none => exact ⟨h, h'.thiefIdle (by rw [hl]; rfl)⟩
    | some x => exact ⟨h, h'.stealTake hl hvalue⟩
  | exchangeTop t x =>
    by_cases ht : s.shared.top = t
    · simp only [stealStep, StealPc.leaves, if_pos ht]
      exact ⟨h + 1, h'.stealWin hl ht⟩
    · simp only [stealStep, StealPc.leaves, if_neg ht]
      refine ⟨h, h'.thiefQuiet (p := .steal (.putBack t x)) trivial (fun t' ht' => ?_)
        (fun t' ht' => ?_) (by rw [hl]; rfl)⟩
      · rw [hl]
        exact .inl ht'
      · rw [hl]
        exact .inl ht'
  | putBack t x => exact ⟨h, h'.putBack hl⟩

/-- **Every undisputed step keeps the invariant.** -/
theorem inv_step {a : Option ι × Act T} (hinv : Inv w cap s) (hcond : Undisputed w s a)
    (hstep : step w s a = some s') : Inv w cap s' := by
  obtain ⟨h, ys, h'⟩ := hinv
  obtain ⟨t, c⟩ := a
  obtain ⟨sh, l, hp, rfl⟩ := interleave_eq_some.mp hstep
  cases t with
  | none =>
    have hok := h'.indices.owner
    cases hl : s.loc none with
    | idle =>
      rw [hl] at hp
      cases c with
      | step => cases hp
      | call c =>
        cases c with
        | steal => cases hp
        | push value =>
          cases hp
          exact ⟨h, ys, h'.callPush hl value⟩
        | pop =>
          cases hp
          exact ⟨h, ys, h'.callPop hl⟩
    | push task pc =>
      rw [hl] at hp
      cases c with
      | call c => cases c <;> cases hp
      | step =>
        cases hp
        exact ⟨h, _, inv_pushStep h' hl fun b hb => (hcond rfl).2.2 task b (hb ▸ hl)⟩
    | pop pc =>
      rw [hl] at hp
      cases c with
      | call c => cases c <;> cases hp
      | step =>
        cases hp
        obtain ⟨h₁, hnext⟩ := inv_popStep h' hl (fun b t hb => (hcond rfl).1 b t (hb ▸ hl))
          fun b t hb => (hcond rfl).2.1 b t (hb ▸ hl)
        exact ⟨h₁, _, hnext⟩
    | steal pc =>
      rw [hl] at hok
      exact hok.elim
  | some i =>
    have hthief := h'.indices.thief i
    cases hl : s.loc (some i) with
    | idle =>
      rw [hl] at hp
      cases c with
      | step => cases hp
      | call c =>
        cases c with
        | push value => cases hp
        | pop => cases hp
        | steal =>
          cases hp
          exact ⟨h, ys, h'.callSteal hl⟩
    | push task pc =>
      rw [hl] at hthief
      exact hthief.elim
    | pop pc =>
      rw [hl] at hthief
      exact hthief.elim
    | steal pc =>
      rw [hl] at hp
      cases c with
      | call c => cases c <;> cases hp
      | step =>
        cases hp
        obtain ⟨h₁, hnext⟩ := inv_stealStep h' hl
        exact ⟨h₁, _, hnext⟩

/-! ### Without slots -/

/-- A call that can only be refused or return nothing. -/
def Pc.InVain : Pc T → Prop
  | .idle | .push _ .loadBottom | .pop .loadBottom | .steal .loadTop => True
  | .push _ (.loadTop bottom) => bottom = 0
  | .steal (.loadBottom top) => top = 0
  | _ => False

/-- A deque without slots stays empty, and every call is in vain. -/
structure Slotless (s : State ι T) : Prop where
  capacity_eq : s.shared.capacity = 0
  bottom_eq : s.shared.bottom = 0
  top_eq : s.shared.top = 0
  accepted_eq : s.shared.accepted = []
  returned_eq : s.shared.returned = []
  inVain : ∀ t, (s.loc t).InVain

omit [DecidableEq ι] in
theorem slotless_init (w : Nat) :
    Slotless (init (WorkStealingDeque.slotless w : WorkStealingDeque T) : State ι T) :=
  ⟨rfl, rfl, rfl, rfl, rfl, fun _ => trivial⟩

theorem Slotless.step {a : Option ι × Act T} (h : Slotless s) (hstep : step w s a = some s') :
    Slotless s' := by
  obtain ⟨t, c⟩ := a
  obtain ⟨sh, l, hp, rfl⟩ := interleave_eq_some.mp hstep
  obtain ⟨hcapacity, hbottom, htop, haccepted, hreturned, hvain⟩ := h
  suffices hnext : (sh.capacity = s.shared.capacity ∧ sh.bottom = s.shared.bottom ∧
      sh.top = s.shared.top ∧ sh.accepted = s.shared.accepted ∧
      sh.returned = s.shared.returned) ∧ l.InVain by
    obtain ⟨⟨h₁, h₂, h₃, h₄, h₅⟩, hl⟩ := hnext
    exact ⟨h₁.trans hcapacity, h₂.trans hbottom, h₃.trans htop, h₄.trans haccepted,
      h₅.trans hreturned, (Function.forall_update_iff s.loc fun _ l => l.InVain).mpr
        ⟨hl, fun u _ => hvain u⟩⟩
  have hown := hvain t
  cases c with
  | call c =>
    cases t <;> cases hl : s.loc _ <;> cases c <;> rw [hl] at hp <;> cases hp <;>
      exact ⟨⟨rfl, rfl, rfl, rfl, rfl⟩, trivial⟩
  | step =>
    cases hl : s.loc t with
    | idle =>
      rw [hl] at hp
      cases hp
    | push task pc =>
      rw [hl] at hp hown
      cases hp
      cases pc with
      | loadBottom => exact ⟨⟨rfl, rfl, rfl, rfl, rfl⟩, hbottom⟩
      | loadTop bottom =>
        -- the full test fires at once
        have hfull : Word.signed w s.shared.capacity ≤
            Word.signed w (bottom - s.shared.top) := by
          rw [hcapacity, htop, show bottom = 0 from hown]
          exact Int.le_refl _
        rw [pushStep, if_pos hfull]
        exact ⟨⟨rfl, rfl, rfl, rfl, rfl⟩, trivial⟩
      | storeSlot bottom => exact hown.elim
      | storeBottom bottom => exact hown.elim
    | pop pc =>
      rw [hl] at hp hown
      cases hp
      cases pc with
      | loadBottom =>
        rw [popStep, if_pos hbottom]
        exact ⟨⟨rfl, rfl, rfl, rfl, rfl⟩, trivial⟩
      | _ => exact hown.elim
    | steal pc =>
      rw [hl] at hp hown
      cases hp
      cases pc with
      | loadTop => exact ⟨⟨rfl, rfl, rfl, rfl, rfl⟩, htop⟩
      | loadBottom top =>
        have hle : s.shared.bottom ≤ top := by
          rw [hbottom, show top = 0 from hown]
        rw [stealStep, if_pos hle]
        exact ⟨⟨rfl, rfl, rfl, rfl, rfl⟩, trivial⟩
      | _ => exact hown.elim

omit [DecidableEq ι] in
theorem Slotless.deliveredOnce (h : Slotless s) : DeliveredOnce w s := by
  constructor
  · rw [h.returned_eq]
    exact List.nodup_nil
  · intro _
    rw [h.bottom_eq, h.top_eq, h.accepted_eq]
    exact ⟨Int.le_refl 0, nofun⟩

/-- **Exactly-once delivery of undisputed runs.**  In every run whose steps are all
    undisputed, every state reached has delivered each task at most once and lost none; the values
    accepted and delivered are those that the calls returned. -/
theorem undisputed_delivered_once (hslot : Nonempty T → 0 < slot)
    (hd : WorkStealingDeque.new w slot capacity = some d) {as : List (Option ι × Act T)}
    (hcond : Along (step w) (Undisputed w) (init d) as)
    (hrun : run (step w) (init d) as = some s) :
    DeliveredOnce w s ∧
      (trace (step w) (acknowledged w) (init d) as).map Prod.snd =
        s.shared.accepted.map Task.value ∧
      (trace (step w) (handedOut w) (init d) as).map Prod.snd =
        s.shared.returned.map Task.value := by
  refine ⟨?_, logs_eq hrun⟩
  rcases Nat.eq_zero_or_pos d.capacity with hzero | hpos
  · rw [WorkStealingDeque.withCapacity_eq_slotless hd hzero] at hrun
    have hslotless := run_invariant (I := Slotless) (fun _ _ _ hs hstep => hs.step hstep)
      (slotless_init w) hrun
    exact hslotless.deliveredOnce
  · obtain ⟨h, ys, hinv⟩ := run_invariant_along (I := Inv w d.capacity)
      (fun _ _ _ hs hC hstep => inv_step hs hC hstep) (inv_init hslot hd hpos) hcond hrun
    exact hinv.deliveredOnce

/-- Three pushes, then a pop and a steal at the two ends, step by step in turn, and a last pop. -/
def bothEnds : List (Option Unit × Act Nat) :=
  ((none, Act.call (.push 7)) :: List.replicate 4 (none, Act.step)) ++
    ((none, Act.call (.push 8)) :: List.replicate 4 (none, Act.step)) ++
      ((none, Act.call (.push 9)) :: List.replicate 4 (none, Act.step)) ++
        [(none, Act.call .pop), (some (), Act.call .steal), (none, Act.step), (some (), Act.step),
          (none, Act.step), (some (), Act.step), (none, Act.step), (some (), Act.step),
          (none, Act.step), (some (), Act.step)] ++
            (none, Act.call .pop) :: List.replicate 6 (none, Act.step)

theorem undisputed_delivered_once_bothEnds :
    ∃ s : State Unit Nat, run (step 64) (init ⟨List.replicate 4 none, 4, 3, 0, 0⟩) bothEnds =
        some s ∧ DeliveredOnce 64 s ∧ s.shared.accepted.map Task.value = [7, 8, 9] ∧
      s.shared.returned.map Task.value = [9, 7, 8] := by
  have hd : WorkStealingDeque.new 64 16 4 =
      some (⟨List.replicate 4 none, 4, 3, 0, 0⟩ : WorkStealingDeque Nat) := by decide
  have hrun : (run (step 64) (init ⟨List.replicate 4 none, 4, 3, 0, 0⟩ : State Unit Nat)
      bothEnds).isSome := by decide
  have hcond : Along (step 64) (Undisputed 64)
      (init ⟨List.replicate 4 none, 4, 3, 0, 0⟩ : State Unit Nat) bothEnds := by decide
  obtain ⟨s, hs⟩ := Option.isSome_iff_exists.mp hrun
  obtain ⟨hdelivered, haccepted, hreturned⟩ :=
    undisputed_delivered_once (fun _ => by decide) hd hcond hs
  refine ⟨s, hs, hdelivered, ?_, ?_⟩
  · rw [← haccepted]
    decide
  · rw [← hreturned]
    decide

/-- The steal has emptied the only slot when the pop comes to it; the pop moves `top`
    past the task, which the steal then puts back. -/
def losingPop : List (Option Unit × Act Nat) :=
  ((none, Act.call (.push 7)) :: List.replicate 4 (none, Act.step)) ++
    ((some (), Act.call .steal) :: List.replicate 3 (some (), Act.step)) ++
    ((none, Act.call .pop) :: List.replicate 6 (none, Act.step)) ++
    List.replicate 2 (some (), Act.step)

theorem pop_loses_task :
    ¬ (∀ (d : WorkStealingDeque Nat) (as : List (Option Unit × Act Nat)) (s : State Unit Nat),
      WorkStealingDeque.new 64 16 1 = some d → run (step 64) (init d) as = some s →
        DeliveredOnce 64 s) := by
  intro h
  have hd : WorkStealingDeque.new 64 16 1 =
      some (⟨[none], 1, 0, 0, 0⟩ : WorkStealingDeque Nat) := by decide
  have hrun : (run (step 64) (init ⟨[none], 1, 0, 0, 0⟩) losingPop).map
      (fun s => (s.shared, s.loc none, s.loc (some ()))) =
        some (⟨[some ⟨0, 7⟩], 1, 0, 1, 1, 1, [⟨0, 7⟩], []⟩, .idle, .idle) := rfl
  obtain ⟨s, hs, heq⟩ := Option.map_eq_some_iff.mp hrun
  simp only [Prod.mk.injEq] at heq
  obtain ⟨hshared, howner, hthief⟩ := heq
  have hidle : ∀ t, s.loc t = .idle := by
    intro t
    cases t
    · exact howner
    · exact hthief
  have hkept := ((h _ losingPop s hd hs).kept hidle).2 ⟨0, 7⟩ (by rw [hshared]; decide)
  rw [hshared] at hkept
  rcases hkept with hret | ⟨i, hi, hlt, _⟩
  · cases hret
  · exact absurd (Int.lt_of_le_of_lt hi hlt) (Int.lt_irrefl 1)

end Runs

end VelocityX.Deque.Threads
