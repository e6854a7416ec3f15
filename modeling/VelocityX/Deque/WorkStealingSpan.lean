import VelocityX.Deque.WorkStealingDelivery
import VelocityX.Deque.WorkStealingWrap

/-!
# The index range of the work-stealing deque under interleaving

The indices `top = h` and `bottom = h + n` in every run, disputed or not: a task that gets lost
leaves its slot empty and does not disturb them.  So the deque never spans more than its
capacity, and a `len` that loads `bottom` and `top` while the others run on never exceeds it, nor
what the deque held at its first load.

The number of calls of `push` bounds both indices; while it fits the word no index wraps.
-/

namespace VelocityX.Deque.Threads

open Transition

variable {ι ρ T : Type*} {w cap h n : Nat}

/-! ### Readers -/

/-- What a call of `len` or `is_empty` has loaded when it returns; no step reads `before`, the `top`
    at the load of `bottom`. -/
structure Loaded where
  bottom : Int
  top : Int
  before : Int
deriving DecidableEq

/-- `(bottom - top).max(0) as usize`. -/
def Loaded.len (w : Nat) (l : Loaded) : Nat :=
  Word.unsigned w (max (Word.signed w (l.bottom - l.top)) 0)

def Loaded.isEmpty (l : Loaded) : Bool := l.bottom == l.top

/-- The next load of a reader. -/
inductive LenPc where
  | loadBottom
  | loadTop (bottom before : Int)
deriving DecidableEq

def lenStep (sh : Shared T) : LenPc → LenPc × List Loaded
  | .loadBottom => (.loadTop sh.bottom sh.top, [])
  | .loadTop bottom before => (.loadBottom, [⟨bottom, sh.top, before⟩])

/-- The deque and its threads, with readers; `loads` lists what their calls have loaded. -/
structure Observed (ι ρ T : Type*) where
  deque : State ι T
  reader : ρ → LenPc
  loads : List Loaded

def Observed.init (d : WorkStealingDeque T) : Observed ι ρ T :=
  ⟨Threads.init d, fun _ => .loadBottom, []⟩

/-- A step of a thread of the deque or of a reader. -/
def observedStep [DecidableEq ι] [DecidableEq ρ] (w : Nat) (s : Observed ι ρ T) :
    (Option ι × Act T) ⊕ ρ → Option (Observed ι ρ T)
  | .inl a => (step w s.deque a).map fun deque => { s with deque := deque }
  | .inr r =>
      let next := lenStep s.deque.shared (s.reader r)
      some { s with reader := Function.update s.reader r next.1
                    loads := s.loads ++ next.2 }

/-! ### The span -/

/-- The calls of `push` that have not stored `bottom`. -/
def Pc.pending : Pc T → Nat
  | .push _ _ => 1
  | _ => 0

/-- The deque spans the `n` indices from `h` on. -/
structure Span (w cap h n : Nat) (s : State ι T) : Prop where
  fixed : Fixed w cap s.shared
  indices : Indices w cap h n s.shared.bottom s.shared.top (s.loc none) fun i => s.loc (some i)
  room : n ≤ cap
  issued : h + n + (s.loc none).pending ≤ s.shared.pushes

theorem span_init {slot capacity : Nat} {d : WorkStealingDeque T} (hslot : Nonempty T → 0 < slot)
    (hd : WorkStealingDeque.new w slot capacity = some d) (hpos : 0 < d.capacity) :
    Span w d.capacity 0 0 (init d : State ι T) := by
  obtain ⟨h, ys, hinv⟩ := inv_init (ι := ι) hslot hd hpos
  obtain ⟨hnew, _⟩ := WorkStealingDeque.withCapacity_eq_some hd hpos
  have htop := hinv.indices.top_eq
  have hbottom := hinv.indices.bottom_eq
  have hzero : h = 0 ∧ ys.length = 0 := by
    subst hnew
    simp only [init, Shared.new, Pc.lowered, Bool.false_eq_true, if_false] at htop hbottom
    omega
  have hindices := hinv.indices
  rw [hzero.1, hzero.2] at hindices
  exact ⟨hinv.fixed, hindices, Nat.zero_le _, Nat.le_refl _⟩

section Steps

variable [DecidableEq ι] {s s' : State ι T} {sh : Shared T} {p : Pc T} {task : Task T}
variable {b t : Int} {i : ι} {value : Option (Task T)}

theorem span_owner (hfixed : Fixed w cap sh)
    (hindices : Indices w cap h n sh.bottom sh.top p fun i => s.loc (some i))
    (hroom : n ≤ cap) (hissued : h + n + p.pending ≤ sh.pushes) :
    Span w cap h n ⟨sh, Function.update s.loc none p⟩ := by
  have hothers : (fun i => Function.update s.loc none p (some i)) = fun i => s.loc (some i) :=
    funext fun i => Function.update_of_ne (Option.some_ne_none i) _ _
  refine ⟨hfixed, ?_, hroom, by simpa using hissued⟩
  simpa [hothers] using hindices

theorem span_thief (hfixed : Fixed w cap sh)
    (hindices : Indices w cap h n sh.bottom sh.top (s.loc none)
      (Function.update (fun i => s.loc (some i)) i p))
    (hroom : n ≤ cap) (hissued : h + n + (s.loc none).pending ≤ sh.pushes) :
    Span w cap h n ⟨sh, Function.update s.loc (some i) p⟩ := by
  have howner : Function.update s.loc (some i) p none = s.loc none :=
    Function.update_of_ne (Option.some_ne_none i).symm _ _
  have hthieves : (fun j => Function.update s.loc (some i) p (some j)) =
      Function.update (fun j => s.loc (some j)) i p := by
    funext j
    simp [Function.update_apply]
  refine ⟨hfixed, ?_, hroom, by simpa [howner] using hissued⟩
  simpa [howner, hthieves] using hindices

/-- The owner goes on without changing the indices. -/
theorem Span.ownerMove (hs : Span w cap h n s) (hfixed : Fixed w cap sh)
    (hbottom : sh.bottom = s.shared.bottom) (htop : sh.top = s.shared.top)
    (hlow : p.lowered = (s.loc none).lowered)
    (hloaded : ∀ b, p.bottom = some b → b = (h + n : Nat)) (hok : p.OwnerOk cap h n)
    (hapart : ∀ b t, p = .pop (.takeSlot b t) → t + 1 ≠ (h + n : Nat) →
      ∀ i t', (s.loc (some i)).chosen = some t' → t' + 1 < (h + n : Nat))
    (hissued : h + n + p.pending ≤ sh.pushes) :
    Span w cap h n ⟨sh, Function.update s.loc none p⟩ := by
  refine span_owner hfixed ?_ hs.room hissued
  rw [hbottom, htop]
  exact hs.indices.ownerMove hlow hloaded hok hapart

/-- A thief goes on without changing the indices. -/
theorem Span.thiefMove (hs : Span w cap h n s) (hfixed : Fixed w cap sh)
    (hbottom : sh.bottom = s.shared.bottom) (htop : sh.top = s.shared.top)
    (hpushes : sh.pushes = s.shared.pushes) (hp : p.Thief)
    (hseen : ∀ t, p.seen = some t → (s.loc (some i)).seen = some t ∨ t = s.shared.top)
    (hchosen : ∀ t, p.chosen = some t →
      (s.loc (some i)).chosen = some t ∨ t < s.shared.bottom) :
    Span w cap h n ⟨sh, Function.update s.loc (some i) p⟩ := by
  refine span_thief hfixed ?_ hs.room (by rw [hpushes]; exact hs.issued)
  rw [hbottom, htop]
  exact hs.indices.thiefMove hp hseen hchosen

omit [DecidableEq ι] in
theorem Fixed.of_eq (hfixed : Fixed w cap s.shared) (hcapacity : sh.capacity = s.shared.capacity)
    (hmask : sh.mask = s.shared.mask) : Fixed w cap sh := by
  refine ⟨hcapacity.trans hfixed.capacity_eq, hfixed.cap_pos, hfixed.cap_lt, fun k hk => ?_⟩
  rw [Shared.index, hmask]
  exact hfixed.index_eq k hk

omit [DecidableEq ι] in
@[simp] theorem pushStep_pushes (sh : Shared T) (pc : PushPc) :
    (pushStep w task sh pc).1.pushes = sh.pushes := by
  cases pc with
  | loadTop b => simp only [pushStep]; split <;> rfl
  | _ => rfl

omit [DecidableEq ι] in
@[simp] theorem popStep_pushes (sh : Shared T) (pc : PopPc T) :
    (popStep w sh pc).1.pushes = sh.pushes := by
  cases pc with
  | storeBottom b => rfl
  | restoreBottom b value => rfl
  | _ => simp only [popStep]; split <;> rfl

omit [DecidableEq ι] in
@[simp] theorem stealStep_pushes (sh : Shared T) (pc : StealPc T) :
    (stealStep w sh pc).1.pushes = sh.pushes := by
  cases pc with
  | loadTop => rfl
  | putBack t value => rfl
  | _ => simp only [stealStep]; split <;> rfl

/-! ### The steps of the owner -/

theorem Span.push {pc : PushPc} (hs : Span w cap h n s) (hl : s.loc none = .push task pc)
    (hlt : s.shared.pushes < 2 ^ (w - 1)) :
    ∃ n', Span w cap h n' ⟨(pushStep w task s.shared pc).1,
      Function.update s.loc none (.after (.push task) (pushStep w task s.shared pc).2)⟩ := by
  have hI := hs.indices
  have hissued := hs.issued
  simp only [hl, Pc.pending] at hI hissued
  cases pc with
  | loadBottom =>
    refine ⟨n, hs.ownerMove hs.fixed rfl rfl (by rw [hl]; rfl) (fun b hb => ?_) trivial
      (by rintro _ _ ⟨⟩) hissued⟩
    cases hb
    exact hI.bottom_eq
  | loadTop b =>
    have hb : b = (h + n : Nat) := hI.loaded b rfl
    by_cases hfull : Word.signed w s.shared.capacity ≤ Word.signed w (b - s.shared.top)
    · simp only [pushStep, if_pos hfull]
      exact ⟨n, hs.ownerMove hs.fixed rfl rfl (by rw [hl]; rfl) (by rintro _ ⟨⟩) trivial
        (by rintro _ _ ⟨⟩) (Nat.le_of_succ_le hissued)⟩
    · simp only [pushStep, if_neg hfull]
      have hroom : n < cap := by
        have hdiff : b - s.shared.top = (n : Nat) := by
          have htop := hI.top_eq
          omega
        rw [hdiff, hs.fixed.capacity_eq, Word.signed_of_lt (hs.fixed.cap_lt ⟨task.value⟩),
          Word.signed_of_lt (by omega)] at hfull
        omega
      refine ⟨n, hs.ownerMove hs.fixed rfl rfl (by rw [hl]; rfl) (fun b' hb' => ?_) hroom
        (by rintro _ _ ⟨⟩) hissued⟩
      cases hb'
      exact hb
  | storeSlot b =>
    refine ⟨n, hs.ownerMove (hs.fixed.of_eq rfl rfl) rfl rfl (by rw [hl]; rfl) (fun b' hb' => ?_)
      hI.owner (by rintro _ _ ⟨⟩) hissued⟩
    cases hb'
    exact hI.loaded b rfl
  | storeBottom b =>
    have hb : b = (h + n : Nat) := hI.loaded b rfl
    have hroom : n < cap := hI.owner
    have hbottom : Word.signed w (b + 1) = (h + (n + 1) : Nat) := by
      rw [hb]
      exact Word.signed_of_lt (a := h + (n + 1)) (by omega)
    refine ⟨n + 1, span_owner (hs.fixed.of_eq rfl rfl) ?_ hroom hissued⟩
    refine ⟨hI.top_eq, by omega, hbottom, (by rintro _ ⟨⟩), trivial, hI.thief, hI.seen,
      fun j t ht => ?_, (by rintro _ _ ⟨⟩)⟩
    have hold := hI.chosen j t ht
    omega

theorem Span.pop {pc : PopPc T} (hs : Span w cap h n s) (hl : s.loc none = .pop pc) :
    ∃ h' n', h ≤ h' ∧ Span w cap h' n' ⟨(popStep w s.shared pc).1,
      Function.update s.loc none (.after .pop (popStep w s.shared pc).2)⟩ := by
  have hI := hs.indices
  have hissued := hs.issued
  have hroom := hs.room
  simp only [hl, Pc.pending] at hI hissued
  have htop := hI.top_eq
  have hlt := hI.lt
  cases pc with
  | loadBottom =>
    have hbottom : s.shared.bottom = (h + n : Nat) := hI.bottom_eq
    by_cases hzero : s.shared.bottom = 0
    · simp only [popStep, if_pos hzero]
      exact ⟨h, n, Nat.le_refl h, hs.ownerMove hs.fixed rfl rfl (by rw [hl]; rfl)
        (by rintro _ ⟨⟩) trivial (by rintro _ _ ⟨⟩) hissued⟩
    · simp only [popStep, if_neg hzero]
      have hpos : 0 < h + n := by omega
      refine ⟨h, n, Nat.le_refl h, hs.ownerMove hs.fixed rfl rfl (by rw [hl]; rfl)
        (fun b hb => ?_) hpos (by rintro _ _ ⟨⟩) hissued⟩
      cases hb
      exact hbottom
  | storeBottom b =>
    have hb : b = (h + n : Nat) := hI.loaded b rfl
    have hpos : 0 < h + n := hI.owner
    have hsub : b - 1 = (h + n - 1 : Nat) := by omega
    refine ⟨h, n, Nat.le_refl h, span_owner (hs.fixed.of_eq rfl rfl)
      ⟨htop, hlt, ?_, fun b' hb' => ?_, hpos, hI.thief, hI.seen, hI.chosen, (by rintro _ _ ⟨⟩)⟩
      hroom hissued⟩
    · show Word.signed w (b - 1) = ((h + n : Nat) : Int) - 1
      rw [hsub, Word.signed_of_lt (by omega)]
      omega
    · cases hb'
      exact hb
  | loadTop b =>
    have hb : b = (h + n : Nat) := hI.loaded b rfl
    by_cases hmore : s.shared.top < b
    · simp only [popStep, if_pos hmore]
      refine ⟨h, n, Nat.le_refl h, hs.ownerMove hs.fixed rfl rfl (by rw [hl]; rfl)
        (fun b' hb' => ?_) ⟨h, htop, Nat.le_refl h, by omega, fun _ => by omega⟩
        (fun b' t heq hne i t' ht' => ?_) hissued⟩
      · cases hb'
        exact hb
      · -- a steal has loaded a `top` from before
        cases heq
        obtain ⟨m, rfl, hle⟩ := hI.seen i t' (Pc.seen_of_chosen ht')
        omega
    · simp only [popStep, if_neg hmore]
      have hnone : n = 0 := by omega
      refine ⟨h, n, Nat.le_refl h, hs.ownerMove hs.fixed rfl rfl (by rw [hl]; rfl)
        (fun b' hb' => ?_) hnone (by rintro _ _ ⟨⟩) hissued⟩
      cases hb'
      exact hb
  | takeSlot b t =>
    have hb : b = (h + n : Nat) := hI.loaded b rfl
    obtain ⟨m, hm, hle, hmlt, hmore⟩ := hI.owner
    have hsub : b - 1 = (h + n - 1 : Nat) := by omega
    have hpred : Word.signed w (b - 1) = (h + n - 1 : Nat) := by
      rw [hsub]
      exact Word.signed_of_lt (by omega)
    by_cases hlast : t = Word.signed w (b - 1)
    · simp only [popStep, if_pos hlast]
      refine ⟨h, n, Nat.le_refl h, hs.ownerMove (hs.fixed.of_eq rfl rfl) rfl rfl (by rw [hl]; rfl)
        (fun b' hb' => ?_) ⟨by omega, by omega⟩ (by rintro _ _ ⟨⟩) hissued⟩
      cases hb'
      exact hb
    · simp only [popStep, if_neg hlast]
      have hpos : 0 < n := hmore (by omega)
      refine ⟨h, n - 1, Nat.le_refl h, span_owner (hs.fixed.of_eq rfl rfl) ?_ (by omega)
        (by simp only [Pc.after, Pc.pending]; omega)⟩
      have hbottom := hI.bottom_eq
      simp only [Pc.lowered, if_true] at hbottom
      refine ⟨htop, by omega, ?_, (by rintro _ ⟨⟩), trivial, hI.thief, hI.seen,
        fun j t' ht' => ?_, (by rintro _ _ ⟨⟩)⟩
      · show s.shared.bottom = (h + (n - 1) : Nat)
        omega
      · have happart := hI.apart b t rfl (by omega) j t' ht'
        omega
  | exchangeTop b t value =>
    have hb : b = (h + n : Nat) := hI.loaded b rfl
    obtain ⟨hlast, hone⟩ := hI.owner
    by_cases hwin : s.shared.top = t
    · simp only [popStep, if_pos hwin]
      have hn : n = 1 := by omega
      have hnext : Word.signed w (t + 1) = (h + 1 : Nat) := by
        rw [hlast, hn]
        exact Word.signed_of_lt (by omega)
      refine ⟨h + 1, 0, Nat.le_succ h, span_owner (hs.fixed.of_eq rfl rfl) ?_ (Nat.zero_le _)
        (by simp only [Pc.after, Pc.pending]; omega)⟩
      subst hn
      refine ⟨hnext, hlt, hI.bottom_eq, fun b' hb' => ?_, rfl, hI.thief, fun j t' ht' => ?_,
        hI.chosen, (by rintro _ _ ⟨⟩)⟩
      · cases hb'
        exact hb
      · obtain ⟨m, hm, hle⟩ := hI.seen j t' ht'
        exact ⟨m, hm, Nat.le_succ_of_le hle⟩
    · simp only [popStep, if_neg hwin]
      have hnone : n = 0 := by omega
      refine ⟨h, n, Nat.le_refl h, hs.ownerMove hs.fixed rfl rfl (by rw [hl]; rfl)
        (fun b' hb' => ?_) hnone (by rintro _ _ ⟨⟩) hissued⟩
      cases hb'
      exact hb
  | restoreBottom b value =>
    exact ⟨h, n, Nat.le_refl h, span_owner (hs.fixed.of_eq rfl rfl)
      ⟨htop, hlt, hI.loaded b rfl, (by rintro _ ⟨⟩), trivial, hI.thief, hI.seen, hI.chosen,
        (by rintro _ _ ⟨⟩)⟩ hroom hissued⟩

/-! ### The steps of a thief -/

theorem Span.steal {pc : StealPc T} (hs : Span w cap h n s) (hl : s.loc (some i) = .steal pc) :
    ∃ h' n', h ≤ h' ∧ Span w cap h' n' ⟨(stealStep w s.shared pc).1,
      Function.update s.loc (some i) (.after .steal (stealStep w s.shared pc).2)⟩ := by
  have hI := hs.indices
  have htop := hI.top_eq
  have hlt := hI.lt
  -- the other steps leave `top` alone
  have hmove : ∀ {sh p}, Fixed w cap sh → sh.bottom = s.shared.bottom → sh.top = s.shared.top →
      sh.pushes = s.shared.pushes → Pc.Thief p →
      (∀ t, p.seen = some t → (s.loc (some i)).seen = some t ∨ t = s.shared.top) →
      (∀ t, p.chosen = some t → (s.loc (some i)).chosen = some t ∨ t < s.shared.bottom) →
      ∃ h' n', h ≤ h' ∧ Span w cap h' n' ⟨sh, Function.update s.loc (some i) p⟩ :=
    fun hf hb ht hp hthief hseen hchosen =>
      ⟨h, n, Nat.le_refl h, hs.thiefMove hf hb ht hp hthief hseen hchosen⟩
  cases pc with
  | loadTop =>
    refine hmove hs.fixed rfl rfl rfl trivial (fun t ht => ?_) (by rintro _ ⟨⟩)
    cases ht
    exact .inr rfl
  | loadBottom t =>
    by_cases hempty : s.shared.bottom ≤ t
    · simp only [stealStep, if_pos hempty]
      exact hmove hs.fixed rfl rfl rfl trivial (by rintro _ ⟨⟩) (by rintro _ ⟨⟩)
    · simp only [stealStep, if_neg hempty]
      refine hmove hs.fixed rfl rfl rfl trivial (fun t' ht' => ?_) (fun t' ht' => ?_)
      · rw [hl]
        exact .inl ht'
      · cases ht'
        exact .inr (Int.not_le.mp hempty)
  | takeSlot t =>
    simp only [stealStep]
    cases s.shared.buffer[s.shared.index w t]?.join with
    | none => exact hmove hs.fixed rfl rfl rfl trivial (by rintro _ ⟨⟩) (by rintro _ ⟨⟩)
    | some x =>
      refine hmove (hs.fixed.of_eq rfl rfl) rfl rfl rfl trivial (fun t' ht' => ?_)
        (fun t' ht' => ?_)
      · rw [hl]
        exact .inl ht'
      · rw [hl]
        exact .inl ht'
  | exchangeTop t x =>
    by_cases hwin : s.shared.top = t
    · have hchosen : (s.loc (some i)).chosen = some ((h : Nat) : Int) := by
        rw [hl, ← htop, hwin]
        rfl
      have hlive := hI.chosen i _ hchosen
      obtain ⟨n, rfl⟩ : ∃ m, n = m + 1 := ⟨n - 1, by omega⟩
      have hnext : Word.signed w (t + 1) = (h + 1 : Nat) := by
        rw [← hwin, htop]
        exact Word.signed_of_lt (a := h + 1) (by omega)
      have hissued := hs.issued
      simp only [stealStep, if_pos hwin]
      refine ⟨h + 1, n, Nat.le_succ h, span_thief (hs.fixed.of_eq rfl rfl) ?_
        (Nat.le_of_succ_le hs.room) (by simp only; omega)⟩
      simp only [hnext]
      exact hI.thiefAdvance hchosen
    · simp only [stealStep, if_neg hwin]
      refine hmove hs.fixed rfl rfl rfl trivial (fun t' ht' => ?_) (fun t' ht' => ?_)
      · rw [hl]
        exact .inl ht'
      · rw [hl]
        exact .inl ht'
  | putBack t x =>
    exact hmove (hs.fixed.of_eq rfl rfl) rfl rfl rfl trivial (by rintro _ ⟨⟩) (by rintro _ ⟨⟩)

/-- The span moves up, and `top` never moves down. -/
theorem Span.step {a : Option ι × Act T} (hs : Span w cap h n s)
    (hlt : s'.shared.pushes < 2 ^ (w - 1)) (hstep : step w s a = some s') :
    ∃ h' n', h ≤ h' ∧ Span w cap h' n' s' := by
  obtain ⟨t, c⟩ := a
  obtain ⟨sh, l, hp, rfl⟩ := interleave_eq_some.mp hstep
  cases t with
  | none =>
    have hok := hs.indices.owner
    cases hl : s.loc none with
    | idle =>
      rw [hl] at hp
      have hissued := hs.issued
      have hmove : ∀ {sh p}, Fixed w cap sh → sh.bottom = s.shared.bottom →
          sh.top = s.shared.top → p.lowered = false → p.bottom = none →
          Pc.OwnerOk cap h n p → (∀ b t, p ≠ .pop (.takeSlot b t)) →
          h + n + p.pending ≤ sh.pushes →
          ∃ h' n', h ≤ h' ∧ Span w cap h' n' ⟨sh, Function.update s.loc none p⟩ :=
        fun hf hb ht hlow hnone hok hne hle => ⟨h, n, Nat.le_refl h, hs.ownerMove hf hb ht
          (by rw [hl]; exact hlow) (fun b hb => by rw [hnone] at hb; cases hb) hok
          (fun b t heq => absurd heq (hne b t)) hle⟩
      rw [hl] at hissued
      cases c with
      | step => cases hp
      | call c =>
        cases c with
        | steal => cases hp
        | push value =>
          cases hp
          exact hmove (hs.fixed.of_eq rfl rfl) rfl rfl rfl rfl trivial nofun
            (Nat.succ_le_succ hissued)
        | pop =>
          cases hp
          exact hmove hs.fixed rfl rfl rfl rfl trivial nofun hissued
    | push task pc =>
      rw [hl] at hp
      cases c with
      | call c => cases c <;> cases hp
      | step =>
        cases hp
        obtain ⟨n', hn'⟩ := hs.push hl (by simpa using hlt)
        exact ⟨h, n', Nat.le_refl h, hn'⟩
    | pop pc =>
      rw [hl] at hp
      cases c with
      | call c => cases c <;> cases hp
      | step =>
        cases hp
        exact hs.pop hl
    | steal pc =>
      rw [hl] at hok
      exact hok.elim
  | some i =>
    have hthief := hs.indices.thief i
    cases hl : s.loc (some i) with
    | idle =>
      rw [hl] at hp
      cases c with
      | step => cases hp
      | call c =>
        cases c with
        | push value => cases hp
        | pop => cases hp
        | steal =>
          cases hp
          exact ⟨h, n, Nat.le_refl h, hs.thiefMove hs.fixed rfl rfl rfl trivial nofun nofun⟩
    | push task pc =>
      rw [hl] at hthief
      exact hthief.elim
    | pop pc =>
      rw [hl] at hthief
      exact hthief.elim
    | steal pc =>
      rw [hl] at hp
      cases c with
      | call c => cases c <;> cases hp
      | step =>
        cases hp
        exact hs.steal hl

omit [DecidableEq ι] in
theorem Span.bottom_le (hs : Span w cap h n s) : s.shared.bottom ≤ s.shared.top + cap := by
  have htop := hs.indices.top_eq
  have hbottom := hs.indices.bottom_le
  have hroom := hs.room
  omega

omit [DecidableEq ι] in
theorem Span.bottom_ge (hs : Span w cap h n s) : s.shared.top - 1 ≤ s.shared.bottom := by
  have htop := hs.indices.top_eq
  have hbottom := hs.indices.bottom_eq
  split at hbottom <;> omega

omit [DecidableEq ι] in
theorem Span.top_le_bottom (hs : Span w cap h n s) (hidle : s.loc none = .idle) :
    s.shared.top ≤ s.shared.bottom := by
  have htop := hs.indices.top_eq
  have hbottom := hs.indices.bottom_eq
  simp only [hidle, Pc.lowered, Bool.false_eq_true, if_false] at hbottom
  omega

end Steps

/-! ### The loads of the readers -/

/-- Between the loads of a call `top` can only have moved up. -/
structure ObservedSpan (w cap : Nat) (s : Observed ι ρ T) : Prop where
  span : ∃ h n, Span w cap h n s.deque
  reader : ∀ r b t, s.reader r = .loadTop b t →
    -1 ≤ b ∧ b ≤ s.deque.shared.pushes ∧ b ≤ s.deque.shared.top + cap ∧ t ≤ s.deque.shared.top
  loads : ∀ l ∈ s.loads, l.len w = (l.bottom - l.top).toNat ∧ l.len w ≤ cap ∧
    l.len w ≤ (l.bottom - l.before).toNat

/-- The indices span at most `cap` slots, `top` is past `bottom` only while a pop has lowered it,
    and every call of `len` has returned the difference of the two indices that it loaded one after
    the other, which is at most `cap` and at most their difference at the first load. -/
structure WithinCapacity (w cap : Nat) (s : Observed ι ρ T) : Prop where
  top_nonneg : 0 ≤ s.deque.shared.top
  bottom_le : s.deque.shared.bottom ≤ s.deque.shared.top + cap
  bottom_ge : s.deque.shared.top - 1 ≤ s.deque.shared.bottom
  top_le : s.deque.loc none = .idle → s.deque.shared.top ≤ s.deque.shared.bottom
  loads : ∀ l ∈ s.loads, l.len w = (l.bottom - l.top).toNat ∧ l.len w ≤ cap ∧
    l.len w ≤ (l.bottom - l.before).toNat

section Readers

variable {s s' : Observed ι ρ T}

theorem ObservedSpan.withinCapacity (hs : ObservedSpan w cap s) : WithinCapacity w cap s := by
  obtain ⟨⟨h, n, hspan⟩, _, hloads⟩ := hs
  have htop := hspan.indices.top_eq
  exact ⟨by omega, hspan.bottom_le, hspan.bottom_ge, hspan.top_le_bottom, hloads⟩

theorem Loaded.len_of_span {q : State ι T} {b t : Int} (hw : 0 < w) (hspan : Span w cap h n q)
    (hlow : -1 ≤ b) (hhigh : b ≤ q.shared.top + cap) (hbefore : t ≤ q.shared.top)
    (hlt : b < (2 ^ (w - 1) : Nat)) :
    Loaded.len w ⟨b, q.shared.top, t⟩ = (b - q.shared.top).toNat ∧
      Loaded.len w ⟨b, q.shared.top, t⟩ ≤ cap ∧
      Loaded.len w ⟨b, q.shared.top, t⟩ ≤ (b - t).toNat := by
  have htop := hspan.indices.top_eq
  have hbound := hspan.indices.lt
  have hexact : Word.signed w (b - q.shared.top) = b - q.shared.top :=
    Word.signed_of_range hw (by omega) (by omega)
  have hlen : Loaded.len w ⟨b, q.shared.top, t⟩ = (b - q.shared.top).toNat := by
    rw [Loaded.len, hexact, Word.unsigned_of_range (by omega) (by omega)]
    omega
  exact ⟨hlen, by omega, by omega⟩

variable [DecidableEq ι]

theorem pushes_le_of_step {q q' : State ι T} {a : Option ι × Act T}
    (hstep : step w q a = some q') : q.shared.pushes ≤ q'.shared.pushes := by
  obtain ⟨t, c⟩ := a
  obtain ⟨sh, l, hp, rfl⟩ := interleave_eq_some.mp hstep
  cases hl : q.loc t with
  | idle =>
    rw [hl] at hp
    cases t <;> cases c with
    | step => cases hp
    | call c => cases c <;> cases hp <;> simp
  | push task pc =>
    rw [hl] at hp
    cases t <;> cases c <;> cases hp <;> simp
  | pop pc =>
    rw [hl] at hp
    cases t <;> cases c <;> cases hp <;> simp
  | steal pc =>
    rw [hl] at hp
    cases t <;> cases c <;> cases hp <;> simp

variable [DecidableEq ρ]

theorem observed_pushes_le {a : (Option ι × Act T) ⊕ ρ} (hstep : observedStep w s a = some s') :
    s.deque.shared.pushes ≤ s'.deque.shared.pushes := by
  cases a with
  | inl a =>
    obtain ⟨q, hq, rfl⟩ := Option.map_eq_some_iff.mp hstep
    exact pushes_le_of_step hq
  | inr r =>
    cases hstep
    exact Nat.le_refl _

theorem ObservedSpan.step {a : (Option ι × Act T) ⊕ ρ} (hw : 0 < w) (hs : ObservedSpan w cap s)
    (hlt : s'.deque.shared.pushes < 2 ^ (w - 1)) (hstep : observedStep w s a = some s') :
    ObservedSpan w cap s' := by
  obtain ⟨⟨h, n, hspan⟩, hreader, hloads⟩ := hs
  cases a with
  | inl a =>
    obtain ⟨q, hq, rfl⟩ := Option.map_eq_some_iff.mp hstep
    obtain ⟨h', n', hle, hspan'⟩ : ∃ h' n', h ≤ h' ∧ Span w cap h' n' q := hspan.step hlt hq
    refine ⟨⟨h', n', hspan'⟩, fun r b t hr => ?_, hloads⟩
    obtain ⟨hlow, hissued, hhigh, hbefore⟩ := hreader r b t hr
    have hpushes := pushes_le_of_step hq
    have htop := hspan.indices.top_eq
    have htop' := hspan'.indices.top_eq
    exact ⟨hlow, by simp only; omega, by simp only; omega, by simp only; omega⟩
  | inr r =>
    cases hstep
    refine ⟨⟨h, n, hspan⟩, ?_, fun l hl => ?_⟩
    · refine (Function.forall_update_iff s.reader fun _ pc => ∀ b t, pc = LenPc.loadTop b t →
        -1 ≤ b ∧ b ≤ s.deque.shared.pushes ∧ b ≤ s.deque.shared.top + cap ∧
          t ≤ s.deque.shared.top).mpr ⟨fun b t hnext => ?_, fun u _ => hreader u⟩
      cases hr : s.reader r with
      | loadTop b' t' =>
        rw [hr] at hnext
        cases hnext
      | loadBottom =>
        rw [hr] at hnext
        cases hnext
        have htop := hspan.indices.top_eq
        have hlow := hspan.bottom_ge
        have hhigh := hspan.indices.bottom_le
        have hissued := hspan.issued
        exact ⟨by omega, by omega, hspan.bottom_le, Int.le_refl _⟩
    · rcases List.mem_append.mp hl with hold | hnew
      · exact hloads l hold
      · cases hr : s.reader r with
        | loadBottom =>
          rw [hr] at hnew
          cases hnew
        | loadTop b t =>
          rw [hr] at hnew
          rw [List.mem_singleton.mp hnew]
          obtain ⟨hlow, hissued, hhigh, hbefore⟩ := hreader r b t hr
          have hfits : s.deque.shared.pushes < 2 ^ (w - 1) := hlt
          exact Loaded.len_of_span hw hspan hlow hhigh hbefore (by omega)

/-- **A deque with slots stays within its capacity** in every run, and so does every length that it
    reports, whatever the owner and the thieves do between the two loads. -/
theorem withinCapacity_of_run {slot capacity : Nat} {d : WorkStealingDeque T}
    (hslot : Nonempty T → 0 < slot) (hd : WorkStealingDeque.new w slot capacity = some d)
    (hpos : 0 < d.capacity) {as : List ((Option ι × Act T) ⊕ ρ)}
    (hrun : run (observedStep w) (Observed.init d) as = some s)
    (hpushes : s.deque.shared.pushes < 2 ^ (w - 1)) : WithinCapacity w d.capacity s := by
  obtain ⟨hw, _⟩ := WorkStealingDeque.capacity_fits hslot hd hpos
  have hinit : ObservedSpan w d.capacity (Observed.init d : Observed ι ρ T) :=
    ⟨⟨0, 0, span_init hslot hd hpos⟩, nofun, nofun⟩
  have hspan := run_invariant_of_bound (I := ObservedSpan w d.capacity)
    (μ := fun s => s.deque.shared.pushes) (fun _ _ _ hstep => observed_pushes_le hstep)
    (fun _ _ _ hlt hs hstep => hs.step hw hlt hstep) hinit hrun hpushes
  exact hspan.withinCapacity

/-- A reader loads `bottom` around a steal and a pop that dispute the only task. -/
theorem withinCapacity_of_run_dispute :
    ∃ s : Observed Unit Unit Nat,
      run (observedStep 64) (Observed.init ⟨[none], 1, 0, 0, 0⟩)
        (losingPop.map .inl ++ [.inr (), .inl (none, .call .pop), .inl (none, .step), .inr ()]) =
          some s ∧
      s.loads = [⟨1, 1, 1⟩] ∧ WithinCapacity 64 1 s := by
  have hd : WorkStealingDeque.new 64 16 1 =
      some (⟨[none], 1, 0, 0, 0⟩ : WorkStealingDeque Nat) := by decide
  have hrun : (run (observedStep 64) (Observed.init ⟨[none], 1, 0, 0, 0⟩ : Observed Unit Unit Nat)
      (losingPop.map .inl ++
        [.inr (), .inl (none, .call .pop), .inl (none, .step), .inr ()])).map
          (fun s => (s.loads, s.deque.shared.pushes)) = some ([⟨1, 1, 1⟩], 1) := rfl
  obtain ⟨s, hs, heq⟩ := Option.map_eq_some_iff.mp hrun
  simp only [Prod.mk.injEq] at heq
  obtain ⟨hloads, hpushes⟩ := heq
  exact ⟨s, hs, hloads,
    withinCapacity_of_run (fun _ => by decide) hd (by decide) hs (by rw [hpushes]; decide)⟩

end Readers

end VelocityX.Deque.Threads
