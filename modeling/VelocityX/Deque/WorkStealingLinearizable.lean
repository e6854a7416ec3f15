import VelocityX.Deque.WorkStealingDelivery

/-!
# The order of the tasks of the work-stealing deque

Along an undisputed run the deque is the list of its tasks, from `top` on: the owner pushes and
pops at the end, and a steal takes the first task.  A push takes effect when it stores `bottom`,
or is refused when it loads `top`.  A pop takes effect when it empties the slot of one task of
several, when it goes for the last one by its `compare_exchange`, or when it finds the deque empty.
A steal takes effect by its `compare_exchange`.

A steal may return nothing because another call is at its slot, whatever the deque holds; only
the steals that take a task are observed, from the step at which they do.
-/

namespace VelocityX.Deque.Threads

open Transition Linearization

variable {ι T : Type*} {w cap h : Nat}

/-! ### The sequential deque -/

inductive Result (T : Type*) where
  | pushed (result : Except Error Unit)
  | popped (value : Option T)
  | stolen (value : Option T)
deriving DecidableEq

def dequeSpec (capacity : Nat) (xs : List T) : Call T → List T × Result T
  | .push value =>
      if xs.length < capacity then (xs ++ [value], .pushed (.ok ()))
      else (xs, .pushed (.error .wouldBlock))
  | .pop => (xs.dropLast, .popped xs.getLast?)
  | .steal => (xs.tail, .stolen xs.head?)

/-! ### What the calls do and when -/

def Pc.called (sh : Shared T) : Pc T → Act T → Option (Call T)
  | .idle, .call (.push value) => some (.push value)
  | .idle, .call .pop => some .pop
  | .steal (.exchangeTop top _), .step => if sh.top = top then some .steal else none
  | _, _ => none

/-- The call of the owner that has not taken effect. -/
def Pc.opened : Pc T → Option (Call T)
  | .push task _ => some (.push task.value)
  | .pop (.restoreBottom _ _) => none
  | .pop _ => some .pop
  | _ => none

/-- The call of the owner that has taken effect and not returned. -/
def Pc.decided : Pc T → Option (Call T × Result T)
  | .pop (.restoreBottom _ value) => some (.pop, .popped (value.map Task.value))
  | _ => none

def Pc.point (w : Nat) (sh : Shared T) : Pc T → Act T → Option (Call T × Result T)
  | .push task (.loadTop bottom), .step =>
      if Word.signed w sh.capacity ≤ Word.signed w (bottom - sh.top) then
        some (.push task.value, .pushed (.error .wouldBlock))
      else none
  | .push task (.storeBottom _), .step => some (.push task.value, .pushed (.ok ()))
  | .pop .loadBottom, .step => if sh.bottom = 0 then some (.pop, .popped none) else none
  | .pop (.loadTop bottom), .step =>
      if sh.top < bottom then none else some (.pop, .popped none)
  | .pop (.takeSlot bottom top), .step =>
      if top = Word.signed w (bottom - 1) then none
      else some (.pop, .popped
        ((sh.buffer[sh.index w (Word.signed w (bottom - 1))]?.join).map Task.value))
  | .pop (.exchangeTop _ top value), .step =>
      some (.pop, .popped (if sh.top = top then value.map Task.value else none))
  | .steal (.exchangeTop top value), .step =>
      if sh.top = top then some (.steal, .stolen (some value.value)) else none
  | _, _ => none

def Pc.returns (w : Nat) (sh : Shared T) : Pc T → Act T → Option (Call T × Result T)
  | .push task pc, .step =>
      match (pushStep w task sh pc).2 with
      | .ret result => some (.push task.value, .pushed result)
      | .goto _ => none
  | .pop pc, .step =>
      match (popStep w sh pc).2 with
      | .ret result => some (.pop, .popped result)
      | .goto _ => none
  | .steal pc, .step =>
      match (stealStep w sh pc).2 with
      | .ret (some value) => some (.steal, .stolen (some value))
      | _ => none
  | _, _ => none

def observation (w : Nat) :
    Observation (Option ι) (State ι T) (Act T) (Call T) (Result T) where
  call s a := (s.loc a.1).called s.shared a.2
  point s a := (s.loc a.1).point w s.shared a.2
  ret s a := (s.loc a.1).returns w s.shared a.2

-- the books of a step are read off the pc
attribute [local simp] Pc.opened Pc.decided Pc.called Pc.point Pc.returns Pc.after
attribute [local simp] pushStep popStep stealStep

/-- The deque holds the values `xs`, from `top` on. -/
def Holds (w cap : Nat) (xs : List T) (s : State ι T) : Prop :=
  ∃ h ys, InvAt w cap h ys s ∧ ys.map Task.value = xs

section Values

variable {s : State ι T} {ys : List (Task T)} {task x : Task T} {b t : Int}
variable {value : Option (Task T)} {i : ι}

/-- A refused push has found the deque full. -/
theorem InvAt.full (h' : InvAt w cap h ys s) (hl : s.loc none = .push task (.loadTop b))
    (hfull : Word.signed w s.shared.capacity ≤ Word.signed w (b - s.shared.top)) :
    ys.length = cap := by
  have hlen : ys.length ≤ cap := by
    have hle := h'.loans.ring.length_le
    rw [List.length_append] at hle
    omega
  have hI := h'.indices
  rw [hl] at hI
  have hlt := hI.lt
  have hb := hI.loaded b rfl
  have htop := hI.top_eq
  have hdiff : b - s.shared.top = (ys.length : Nat) := by omega
  rw [hdiff, h'.fixed.capacity_eq, Word.signed_of_lt (h'.fixed.cap_lt ⟨task.value⟩),
    Word.signed_of_lt (by omega)] at hfull
  omega

theorem InvAt.nil_of_bottom (h' : InvAt w cap h ys s) (hl : s.loc none = .pop .loadBottom)
    (hzero : s.shared.bottom = 0) : ys = [] := by
  have hI := h'.indices
  rw [hl] at hI
  have hbottom : s.shared.bottom = (h + ys.length : Nat) := hI.bottom_eq
  exact List.eq_nil_of_length_eq_zero (by omega)

theorem InvAt.nil_of_top (h' : InvAt w cap h ys s) (hl : s.loc none = .pop (.loadTop b))
    (hle : ¬ s.shared.top < b) : ys = [] := by
  have hI := h'.indices
  rw [hl] at hI
  have hb := hI.loaded b rfl
  have htop := hI.top_eq
  exact List.eq_nil_of_length_eq_zero (by omega)

/-- A pop that sees more than one task takes the last one. -/
theorem InvAt.take_last (h' : InvAt w cap h ys s) (hl : s.loc none = .pop (.takeSlot b t))
    (ht : t ≠ Word.signed w (b - 1))
    (hfull : s.shared.buffer[s.shared.index w (Word.signed w (b - 1))]? ≠ some none) :
    s.shared.buffer[s.shared.index w (Word.signed w (b - 1))]?.join = ys.getLast? := by
  obtain ⟨hb, hpred, hindex⟩ := h'.takeIndex hl
  have hI := h'.indices
  have hloans := h'.loans
  rw [hl] at hI hloans
  obtain ⟨m, hm, hle, hlt, hmore⟩ := hI.owner
  have hpos : 0 < ys.length := hmore (by omega)
  have hlen : ys.length ≤ cap := by
    have hle := hloans.ring.length_le
    rwa [show (Pc.pop (.takeSlot b t) : Pc T).staged = [] from rfl, List.append_nil] at hle
  have hlast : h + ys.length - 1 = h + (ys.length - 1) := by omega
  rw [hindex, hlast] at hfull ⊢
  have hnot : ¬ Held (Pc.slot cap) s.loc ((h + (ys.length - 1)) % cap) :=
    fun hheld => hfull (hloans.ring.out _ (by omega) hheld)
  rw [hloans.ring.kept _ (by omega) hnot]
  simp [Pc.staged, List.getLast?_eq_getElem?]

/-- A pop that goes for the last task holds it. -/
theorem InvAt.last_task (h' : InvAt w cap h ys s)
    (hl : s.loc none = .pop (.exchangeTop b t (some x))) (ht : s.shared.top = t) : ys = [x] := by
  have hI := h'.indices
  rw [hl] at hI
  have htop := hI.top_eq
  obtain ⟨hlast, hone⟩ := hI.owner
  obtain ⟨y, rfl⟩ : ∃ y, ys = [y] := List.length_eq_one_iff.mp (by omega)
  obtain ⟨k, hk, _⟩ := h'.loans.held none _ x (by rw [hl]; rfl)
  rw [hl] at hk
  have hzero : k = 0 := by
    have hlt := (List.getElem?_eq_some_iff.mp hk).1
    exact Nat.lt_one_iff.mp hlt
  subst hzero
  cases hk
  rfl

/-- A pop whose `compare_exchange` fails has found the deque empty. -/
theorem InvAt.nil_of_moved (h' : InvAt w cap h ys s)
    (hl : s.loc none = .pop (.exchangeTop b t value)) (ht : s.shared.top ≠ t) : ys = [] := by
  have hI := h'.indices
  rw [hl] at hI
  have htop := hI.top_eq
  obtain ⟨hlast, hone⟩ := hI.owner
  exact List.eq_nil_of_length_eq_zero (by omega)

/-- A steal takes the first task. -/
theorem InvAt.first_task (h' : InvAt w cap h ys s)
    (hl : s.loc (some i) = .steal (.exchangeTop t x)) (ht : s.shared.top = t) :
    ∃ rest, ys = x :: rest := by
  have hI := h'.indices
  have htop : t = (h : Nat) := ht.symm.trans hI.top_eq
  have hlive := hI.chosen i t (by rw [hl]; rfl)
  cases ys with
  | nil =>
    rw [List.length_nil] at hlive
    omega
  | cons y rest =>
    obtain ⟨k, hk, hslot⟩ := h'.loans.held (some i) (h % cap) x (by rw [hl, htop]; rfl)
    have hlen := h'.loans.ring.length_le
    have hlt := (List.getElem?_eq_some_iff.mp hk).1
    cases k with
    | zero =>
      cases hk
      exact ⟨rest, rfl⟩
    | succ k =>
      exact absurd hslot.symm (Ring.slot_ne (j := 0) (by omega) (by omega) (Nat.succ_ne_zero k))

end Values

section Steps

variable [DecidableEq ι] {s s' : State ι T} {sh : Shared T} {xs : List T} {ys : List (Task T)}
variable {task : Task T} {l : Pc T} {a : Act T} {t : Option ι} {i : ι}

theorem accounts
    (hcalls : (s.loc t).opened.toList ++ ((s.loc t).called s.shared a).toList =
      (((s.loc t).point w s.shared a).map Prod.fst).toList ++ l.opened.toList)
    (hresults : (s.loc t).decided.toList ++ ((s.loc t).point w s.shared a).toList =
      ((s.loc t).returns w s.shared a).toList ++ l.decided.toList) :
    Accounts (observation w) (fun s t => (s.loc t).opened) (fun s t => (s.loc t).decided) s (t, a)
      (⟨sh, Function.update s.loc t l⟩ : State ι T) :=
  accounts_update (fun _ => Pc.opened) (fun _ => Pc.decided) (fun _ _ => ⟨rfl, rfl⟩) hcalls
    hresults

theorem advances_push {pc : PushPc} (h' : InvAt w cap h ys s)
    (hl : s.loc none = .push task pc)
    (hpublish : ∀ b, pc = .storeBottom b → b + 1 < 2 ^ (w - 1)) :
    Advances (dequeSpec cap) (Holds w cap) (ys.map Task.value)
        (⟨(pushStep w task s.shared pc).1,
          Function.update s.loc none (.after (.push task) (pushStep w task s.shared pc).2)⟩ :
            State ι T)
        ((Pc.push task pc).point w s.shared .step) := by
  have hnext := inv_pushStep h' hl hpublish
  cases pc with
  | loadBottom => exact ⟨h, ys, hnext, rfl⟩
  | loadTop b =>
    by_cases hfull : Word.signed w s.shared.capacity ≤ Word.signed w (b - s.shared.top)
    · have hlen := h'.full hl hfull
      have hspec : dequeSpec cap (ys.map Task.value) (.push task.value) =
          (ys.map Task.value, .pushed (.error .wouldBlock)) := if_neg (by simp [hlen])
      have hpoint : (Pc.push task (.loadTop b)).point w s.shared .step =
          some (.push task.value, .pushed (.error .wouldBlock)) := if_pos hfull
      rw [hpoint]
      refine ⟨congrArg Prod.snd hspec, h, ys, hnext, ?_⟩
      rw [hspec]
    · have hpoint : (Pc.push task (.loadTop b)).point w s.shared .step = none := if_neg hfull
      rw [hpoint]
      exact ⟨h, ys, hnext, rfl⟩
  | storeSlot b => exact ⟨h, ys, hnext, rfl⟩
  | storeBottom b =>
    have hI := h'.indices
    rw [hl] at hI
    have hroom : ys.length < cap := hI.owner
    have hspec : dequeSpec cap (ys.map Task.value) (.push task.value) =
        ((ys ++ [task]).map Task.value, .pushed (.ok ())) := by
      rw [List.map_append]
      exact if_pos (by simpa using hroom)
    refine ⟨congrArg Prod.snd hspec, h, ys ++ [task], hnext, ?_⟩
    rw [hspec]

theorem advances_pop {pc : PopPc T} (h' : InvAt w cap h ys s) (hl : s.loc none = .pop pc)
    (hfull : ∀ b t, pc = .takeSlot b t → t ≠ Word.signed w (b - 1) →
      s.shared.buffer[s.shared.index w (Word.signed w (b - 1))]? ≠ some none)
    (hempty : ∀ b t, pc = .exchangeTop b t none → s.shared.top ≠ t) :
    Advances (dequeSpec cap) (Holds w cap) (ys.map Task.value)
      (⟨(popStep w s.shared pc).1,
        Function.update s.loc none (.after .pop (popStep w s.shared pc).2)⟩ : State ι T)
      ((Pc.pop pc).point w s.shared .step) := by
  obtain ⟨h₁, hnext⟩ := inv_popStep h' hl hfull hempty
  cases pc with
  | loadBottom =>
    by_cases hzero : s.shared.bottom = 0
    · obtain rfl := h'.nil_of_bottom hl hzero
      have hpoint : (Pc.pop (.loadBottom : PopPc T)).point w s.shared .step =
          some (.pop, .popped none) := if_pos hzero
      rw [hpoint]
      exact ⟨rfl, h₁, [], hnext, rfl⟩
    · have hpoint : (Pc.pop (.loadBottom : PopPc T)).point w s.shared .step = none :=
        if_neg hzero
      rw [hpoint]
      exact ⟨h₁, ys, hnext, rfl⟩
  | storeBottom b => exact ⟨h₁, ys, hnext, rfl⟩
  | loadTop b =>
    by_cases hmore : s.shared.top < b
    · have hpoint : (Pc.pop (.loadTop b : PopPc T)).point w s.shared .step = none := if_pos hmore
      rw [hpoint]
      exact ⟨h₁, ys, hnext, rfl⟩
    · obtain rfl := h'.nil_of_top hl hmore
      have hpoint : (Pc.pop (.loadTop b : PopPc T)).point w s.shared .step =
          some (.pop, .popped none) := if_neg hmore
      rw [hpoint]
      exact ⟨rfl, h₁, [], hnext, rfl⟩
  | takeSlot b t =>
    by_cases ht : t = Word.signed w (b - 1)
    · have hpoint : (Pc.pop (.takeSlot b t : PopPc T)).point w s.shared .step = none := if_pos ht
      simp only [PopPc.leaves, if_pos ht] at hnext
      rw [hpoint]
      exact ⟨h₁, ys, hnext, rfl⟩
    · have hlast := h'.take_last hl ht (hfull b t rfl ht)
      have hpoint : (Pc.pop (.takeSlot b t : PopPc T)).point w s.shared .step =
          some (.pop, .popped (ys.getLast?.map Task.value)) := by
        simp only [Pc.point, if_neg ht, hlast]
      simp only [PopPc.leaves, if_neg ht] at hnext
      rw [hpoint]
      refine ⟨?_, h₁, ys.dropLast, hnext, ?_⟩
      · simp [dequeSpec, List.getLast?_map]
      · simp [dequeSpec, List.map_dropLast]
  | exchangeTop b t value =>
    by_cases ht : s.shared.top = t
    · cases value with
      | none => exact absurd ht (hempty b t rfl)
      | some x =>
        obtain rfl := h'.last_task hl ht
        have hpoint : (Pc.pop (.exchangeTop b t (some x))).point w s.shared .step =
            some (.pop, .popped (some x.value)) := by
          simp only [Pc.point, if_pos ht, Option.map_some]
        simp only [PopPc.leaves, if_pos ht] at hnext
        rw [hpoint]
        exact ⟨rfl, h₁, [], hnext, rfl⟩
    · obtain rfl := h'.nil_of_moved hl ht
      have hpoint : (Pc.pop (.exchangeTop b t value)).point w s.shared .step =
          some (.pop, .popped none) := by
        simp only [Pc.point, if_neg ht]
      simp only [PopPc.leaves, if_neg ht] at hnext
      rw [hpoint]
      exact ⟨rfl, h₁, [], hnext, rfl⟩
  | restoreBottom b value => exact ⟨h₁, ys, hnext, rfl⟩

theorem advances_steal {pc : StealPc T} (h' : InvAt w cap h ys s)
    (hl : s.loc (some i) = .steal pc) :
    Advances (dequeSpec cap) (Holds w cap) (ys.map Task.value)
      (⟨(stealStep w s.shared pc).1,
        Function.update s.loc (some i) (.after .steal (stealStep w s.shared pc).2)⟩ : State ι T)
      ((Pc.steal pc).point w s.shared .step) := by
  obtain ⟨h₁, hnext⟩ := inv_stealStep h' hl
  cases pc with
  | exchangeTop t x =>
    by_cases ht : s.shared.top = t
    · obtain ⟨rest, rfl⟩ := h'.first_task hl ht
      have hpoint : (Pc.steal (.exchangeTop t x)).point w s.shared .step =
          some (.steal, .stolen (some x.value)) := if_pos ht
      simp only [StealPc.leaves, if_pos ht] at hnext
      rw [hpoint]
      exact ⟨rfl, h₁, rest, hnext, rfl⟩
    · have hpoint : (Pc.steal (.exchangeTop t x)).point w s.shared .step = none := if_neg ht
      simp only [StealPc.leaves, if_neg ht] at hnext
      rw [hpoint]
      exact ⟨h₁, ys, hnext, rfl⟩
  | _ => exact ⟨h₁, ys, hnext, rfl⟩

theorem accounts_push {pc : PushPc} (hl : s.loc none = .push task pc) :
    Accounts (observation w) (fun s t => (s.loc t).opened) (fun s t => (s.loc t).decided) s
      (none, .step) (⟨(pushStep w task s.shared pc).1,
        Function.update s.loc none (.after (.push task) (pushStep w task s.shared pc).2)⟩ :
          State ι T) := by
  cases pc with
  | loadTop b =>
    by_cases hfull : Word.signed w s.shared.capacity ≤ Word.signed w (b - s.shared.top)
    · refine accounts ?_ ?_ <;> simp [hl, hfull]
    · refine accounts ?_ ?_ <;> simp [hl, hfull]
  | _ =>
    refine accounts ?_ ?_ <;> simp [hl]

theorem accounts_pop {pc : PopPc T} (hl : s.loc none = .pop pc) :
    Accounts (observation w) (fun s t => (s.loc t).opened) (fun s t => (s.loc t).decided) s
      (none, .step) (⟨(popStep w s.shared pc).1,
        Function.update s.loc none (.after .pop (popStep w s.shared pc).2)⟩ : State ι T) := by
  cases pc with
  | loadBottom =>
    by_cases hzero : s.shared.bottom = 0 <;> refine accounts ?_ ?_ <;> simp [hl, hzero]
  | loadTop b =>
    by_cases hmore : s.shared.top < b <;> refine accounts ?_ ?_ <;> simp [hl, hmore]
  | takeSlot b t =>
    by_cases ht : t = Word.signed w (b - 1) <;> refine accounts ?_ ?_ <;> simp [hl, ht]
  | exchangeTop b t value =>
    by_cases ht : s.shared.top = t <;> refine accounts ?_ ?_ <;> simp [hl, ht]
  | _ =>
    refine accounts ?_ ?_ <;> simp [hl]

theorem accounts_steal {pc : StealPc T} (hl : s.loc (some i) = .steal pc) :
    Accounts (observation w) (fun s t => (s.loc t).opened) (fun s t => (s.loc t).decided) s
      (some i, .step) (⟨(stealStep w s.shared pc).1,
        Function.update s.loc (some i) (.after .steal (stealStep w s.shared pc).2)⟩ :
          State ι T) := by
  cases pc with
  | loadBottom t =>
    by_cases hempty : s.shared.bottom ≤ t <;> refine accounts ?_ ?_ <;> simp [hl, hempty]
  | takeSlot t =>
    cases hvalue : s.shared.buffer[s.shared.index w t]?.join <;> refine accounts ?_ ?_ <;>
      simp [hl, hvalue]
  | exchangeTop t x =>
    by_cases ht : s.shared.top = t <;> refine accounts ?_ ?_ <;> simp [hl, ht]
  | _ =>
    refine accounts ?_ ?_ <;> simp [hl]

theorem holds_step {a : Option ι × Act T} (hxs : Holds w cap xs s) (hcond : Undisputed w s a)
    (hstep : step w s a = some s') :
    Advances (dequeSpec cap) (Holds w cap) xs s' ((observation w).point s a) ∧
      Accounts (observation w) (fun s t => (s.loc t).opened) (fun s t => (s.loc t).decided)
        s a s' := by
  obtain ⟨h, ys, h', rfl⟩ := hxs
  obtain ⟨t, c⟩ := a
  obtain ⟨sh, l, hp, rfl⟩ := interleave_eq_some.mp hstep
  show Advances (dequeSpec cap) (Holds w cap) _ _ ((s.loc t).point w s.shared c) ∧ _
  cases t with
  | none =>
    have hok := h'.indices.owner
    cases hl : s.loc none with
    | idle =>
      rw [hl] at hp
      cases c with
      | step => cases hp
      | call c =>
        cases c with
        | steal => cases hp
        | push value =>
          cases hp
          refine ⟨⟨h, ys, h'.callPush hl value, rfl⟩, accounts ?_ ?_⟩ <;> simp [hl]
        | pop =>
          cases hp
          refine ⟨⟨h, ys, h'.callPop hl, rfl⟩, accounts ?_ ?_⟩ <;> simp [hl]
    | push task pc =>
      rw [hl] at hp
      cases c with
      | call c => cases c <;> cases hp
      | step =>
        cases hp
        exact ⟨advances_push h' hl fun b hb => (hcond rfl).2.2 task b (hb ▸ hl),
          accounts_push hl⟩
    | pop pc =>
      rw [hl] at hp
      cases c with
      | call c => cases c <;> cases hp
      | step =>
        cases hp
        exact ⟨advances_pop h' hl (fun b t hb => (hcond rfl).1 b t (hb ▸ hl))
          fun b t hb => (hcond rfl).2.1 b t (hb ▸ hl), accounts_pop hl⟩
    | steal pc =>
      rw [hl] at hok
      exact hok.elim
  | some i =>
    have hthief := h'.indices.thief i
    cases hl : s.loc (some i) with
    | idle =>
      rw [hl] at hp
      cases c with
      | step => cases hp
      | call c =>
        cases c with
        | push value => cases hp
        | pop => cases hp
        | steal =>
          cases hp
          refine ⟨⟨h, ys, h'.callSteal hl, rfl⟩, accounts ?_ ?_⟩ <;> simp [hl]
    | push task pc =>
      rw [hl] at hthief
      exact hthief.elim
    | pop pc =>
      rw [hl] at hthief
      exact hthief.elim
    | steal pc =>
      rw [hl] at hp
      cases c with
      | call c => cases c <;> cases hp
      | step =>
        cases hp
        exact ⟨advances_steal h' hl, accounts_steal hl⟩

/-- **An undisputed run of a deque with slots is linearizable**: the owner works at one end of the
    deque, the thieves at the other. -/
theorem undisputed_linearizable {slot capacity : Nat} {d : WorkStealingDeque T}
    (hslot : Nonempty T → 0 < slot) (hd : WorkStealingDeque.new w slot capacity = some d)
    (hpos : 0 < d.capacity) {as : List (Option ι × Act T)}
    (hcond : Along (step w) (Undisputed w) (init d) as)
    (hrun : run (step w) (init d) as = some s) :
    Linearizable (step w) (observation w) (dequeSpec d.capacity) [] (init d : State ι T) as := by
  have hinit : Holds w d.capacity [] (init d : State ι T) := by
    obtain ⟨h, ys, hinv⟩ := inv_init (ι := ι) hslot hd hpos
    obtain ⟨hnew, _⟩ := WorkStealingDeque.withCapacity_eq_some hd hpos
    have hbottom := hinv.indices.bottom_eq
    simp only [hnew, init, Shared.new, Pc.lowered, Bool.false_eq_true, if_false] at hbottom
    have hnil : ys = [] := List.eq_nil_of_length_eq_zero (by omega)
    exact ⟨h, ys, hinv, by simp [hnil]⟩
  exact linearizable_of_simulation (fun _ _ _ _ h hC hm => holds_step h hC hm)
    (fun _ => ⟨rfl, rfl⟩) hinit hcond hrun

end Steps

/-! ### Runs -/

section Runs

theorem undisputed_linearizable_bothEnds :
    ∃ d : WorkStealingDeque Nat, WorkStealingDeque.new 64 16 4 = some d ∧
      (trace (step 64) (observation 64).ret (init d) bothEnds).map (fun e => (e.1, e.2.2)) =
        [(none, .pushed (.ok ())), (none, .pushed (.ok ())), (none, .pushed (.ok ())),
          (none, .popped (some 9)), (some (), .stolen (some 7)), (none, .popped (some 8))] ∧
      Linearizable (step 64) (observation 64) (dequeSpec d.capacity) [] (init d) bothEnds := by
  have hd : WorkStealingDeque.new 64 16 4 =
      some (⟨[none, none, none, none], 4, 3, 0, 0⟩ : WorkStealingDeque Nat) := by decide
  have hrun : (run (step 64) (init ⟨[none, none, none, none], 4, 3, 0, 0⟩) bothEnds).isSome := by
    decide
  obtain ⟨s, hs⟩ := Option.isSome_iff_exists.mp hrun
  exact ⟨_, hd, by decide,
    undisputed_linearizable (fun _ => by decide) hd (by decide) (by decide) hs⟩

end Runs

end VelocityX.Deque.Threads
