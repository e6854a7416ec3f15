import Mathlib.Data.Set.Finite.Basic
import Mathlib.Tactic.Ring
import VelocityX.Lib.Amortized
import VelocityX.Stack.LockFreeThreads

/-!
# Progress of the lock-free stack

The documentation of `src/stack/lock_free.rs` calls `pop` lock-free and `push` wait-free.

Both are lock-free: a compare-exchange fails because another call has moved `head` in
between, or spuriously, and a call that moves `head` is about to return.  So a number of
threads that take steps return from calls at a rate that depends on their number alone,
whatever state the stack is in.  But `push` is not wait-free: the other threads can make
every compare-exchange of one push fail.
-/

namespace VelocityX.LockFreeStack.Threads

open Transition

variable {ι A T : Type*}

/-! ### The work of a call -/

def Pc.isIdle : Pc A T → Bool
  | .idle => true
  | _ => false

def Act.isSpurious : Act A T → Bool
  | .spurious => true
  | _ => false

def Act.isCall : Act A T → Bool
  | .call _ => true
  | _ => false

/-- The step returns from a call. -/
def returns (s : State ι A T) (a : ι × Act A T) (s' : State ι A T) : Nat :=
  if (s.loc a.1).isIdle then 0 else if (s'.loc a.1).isIdle then 1 else 0

variable [DecidableEq A]

/-- The steps up to the compare-exchange that the call may still need, where `head` is what it
    has loaded and a failure costs three. -/
def upTo (sh : Shared A T) (head : Option A) (steps : Nat) : Nat :=
  if sh.head = head then steps else steps + 3

/-- The steps that a call still pays for, among `n` threads: its own up to its return, and three
    for each of the others once it has moved `head`.  A thread that is idle can pay for its next
    call. -/
def work (n : Nat) (sh : Shared A T) : Pc A T → Nat
  | .idle => 5 + 3 * (n - 1)
  | .push (.alloc _) => 4 + 3 * (n - 1)
  | .push (.loadHead _) => 3 + 3 * (n - 1)
  | .push (.storeNext _ head) => upTo sh head 2 + 3 * (n - 1)
  | .push (.cas _ head) => upTo sh head 1 + 3 * (n - 1)
  | .pop .loadHead => 4 + 3 * (n - 1)
  | .pop (.loadNext head) => upTo sh (some head) 3 + 3 * (n - 1)
  | .pop (.cas head _ _) => upTo sh (some head) 2 + 3 * (n - 1)
  | .pop (.release _) => 1

section Work

variable {n k : Nat} {sh sh' : Shared A T} {head : Option A} {l l' : Pc A T} {act : Act A T}

theorem upTo_self (h : sh.head = head) : upTo sh head k = k := if_pos h

theorem upTo_ne (h : sh.head ≠ head) : upTo sh head k = k + 3 := if_neg h

theorem upTo_le (sh : Shared A T) (head : Option A) (k : Nat) : upTo sh head k ≤ k + 3 := by
  unfold upTo
  split <;> omega

theorem le_upTo (sh : Shared A T) (head : Option A) (k : Nat) : k ≤ upTo sh head k := by
  unfold upTo
  split <;> omega

theorem upTo_succ : upTo sh head (k + 1) = upTo sh head k + 1 := by
  unfold upTo
  split <;> omega

theorem upTo_congr (h : sh'.head = sh.head) : upTo sh' head k = upTo sh head k := by
  unfold upTo
  rw [h]

theorem work_le (n : Nat) (sh : Shared A T) (l : Pc A T) : work n sh l ≤ 6 + 3 * (n - 1) := by
  cases l with
  | idle => simp [work]
  | push pc =>
    cases pc with
    | alloc value => simp [work]
    | loadHead a => simp [work]
    | storeNext a head =>
      have := upTo_le sh head 2
      simp only [work]
      omega
    | cas a head =>
      have := upTo_le sh head 1
      simp only [work]
      omega
  | pop pc =>
    cases pc with
    | loadHead => simp [work]
    | loadNext head =>
      have := upTo_le sh (some head) 3
      simp only [work]
      omega
    | cas head next seen =>
      have := upTo_le sh (some head) 2
      simp only [work]
      omega
    | release a =>
      simp only [work]
      omega

/-- A step costs the other threads nothing while it leaves `head` alone. -/
theorem work_congr (h : sh'.head = sh.head) (l : Pc A T) : work n sh' l = work n sh l := by
  cases l with
  | idle => rfl
  | push pc => cases pc <;> simp [work, upTo_congr h]
  | pop pc => cases pc <;> simp [work, upTo_congr h]

theorem work_moved (sh sh' : Shared A T) (l : Pc A T) : work n sh' l ≤ work n sh l + 3 := by
  have hmoved : ∀ head k, upTo sh' head k ≤ upTo sh head k + 3 := by
    intro head k
    have := upTo_le sh' head k
    have := le_upTo sh head k
    omega
  cases l with
  | idle => simp [work]
  | push pc =>
    cases pc with
    | storeNext a head =>
      have := hmoved head 2
      simp only [work]
      omega
    | cas a head =>
      have := hmoved head 1
      simp only [work]
      omega
    | _ => simp [work]
  | pop pc =>
    cases pc with
    | loadNext head =>
      have := hmoved (some head) 3
      simp only [work]
      omega
    | cas head next seen =>
      have := hmoved (some head) 2
      simp only [work]
      omega
    | _ => simp [work]

end Work

/-! ### The length of a run -/

section Bound

variable [DecidableEq ι] [Fintype ι] {s s' : State ι A T} {t : ι} {act : Act A T}
variable {as : List (ι × Act A T)}

/-- What a step gains: a return pays for the next call, a spurious failure for the retry. -/
def gained (n : Nat) (s : State ι A T) (a : ι × Act A T) (s' : State ι A T) : Nat :=
  (5 + 3 * (n - 1)) * returns s a s' + 3 * if a.2.isSpurious then 1 else 0

theorem work_step (hstep : step s (t, act) = some s') :
    potential (work (Fintype.card ι)) s' + 1 ≤
      potential (work (Fintype.card ι)) s + gained (Fintype.card ι) s (t, act) s' := by
  obtain ⟨sh, l, hp, rfl⟩ := interleave_eq_some.mp hstep
  generalize hn : Fintype.card ι = n
  -- a step that leaves `head` alone, and one that moves it
  have hquiet : sh.head = s.shared.head →
      work n sh l + 1 ≤ work n s.shared (s.loc t) +
        gained n s (t, act) ⟨sh, Function.update s.loc t l⟩ →
      potential (work n) ⟨sh, Function.update s.loc t l⟩ + 1 ≤
        potential (work n) s + gained n s (t, act) ⟨sh, Function.update s.loc t l⟩ := by
    intro hhead hown
    refine potential_update (d := 0) (by simpa using hown) fun m => ?_
    rw [work_congr hhead]
    exact Nat.le_refl _
  have hmove : work n sh l + 1 + (n - 1) * 3 ≤ work n s.shared (s.loc t) +
        gained n s (t, act) ⟨sh, Function.update s.loc t l⟩ →
      potential (work n) ⟨sh, Function.update s.loc t l⟩ + 1 ≤
        potential (work n) s + gained n s (t, act) ⟨sh, Function.update s.loc t l⟩ :=
    fun hown => potential_update (by rw [hn]; exact hown) fun m => work_moved s.shared sh m
  have hgained : gained n s (t, act) ⟨sh, Function.update s.loc t l⟩ =
      (5 + 3 * (n - 1)) * (if (s.loc t).isIdle then 0 else if l.isIdle then 1 else 0) +
        3 * if act.isSpurious then 1 else 0 := by
    simp [gained, returns]
  have heffect := program_effect hp
  generalize hl : s.loc t = l₀ at heffect
  rw [hgained, hl] at hquiet hmove ⊢
  cases heffect with
  | callPush value => exact hquiet rfl (by simp [work, Pc.isIdle]; omega)
  | callPop => exact hquiet rfl (by simp [work, Pc.isIdle]; omega)
  | alloc value a hdead => exact hquiet rfl (by simp [work, Pc.isIdle]; omega)
  | loadHead a => exact hquiet rfl (by simp [work, Pc.isIdle, upTo_self]; omega)
  | storeNext a head node hnode =>
    have hsame : upTo (s.shared.storeNext a node head) head 1 = upTo s.shared head 1 :=
      upTo_congr rfl
    have hnext : upTo s.shared head 2 = upTo s.shared head 1 + 1 := upTo_succ
    exact hquiet rfl (by simp [work, Pc.isIdle, hsame, hnext]; omega)
  | publish a head node hhead hnode =>
    exact hmove (by simp [work, Pc.isIdle, upTo_self hhead, Act.isSpurious]; omega)
  | retryPush a head act hact =>
    rcases hact with ⟨rfl, hne⟩ | rfl
    · exact hquiet rfl (by simp [work, Pc.isIdle, upTo_ne hne]; omega)
    · have hle := le_upTo s.shared head 1
      exact hquiet rfl (by simp [work, Pc.isIdle, Act.isSpurious]; omega)
  | popEmpty hhead =>
    refine hquiet rfl ?_
    simp only [work, Pc.isIdle, Bool.false_eq_true, if_false, if_true]
    omega
  | popHead head hhead =>
    refine hquiet rfl ?_
    simp only [work, Pc.isIdle, upTo_self hhead, Bool.false_eq_true, if_false]
    omega
  | loadNext head node hnode =>
    have hnext : upTo s.shared (some head) 3 = upTo s.shared (some head) 2 + 1 := upTo_succ
    exact hquiet rfl (by simp [work, Pc.isIdle, hnext]; omega)
  | unlink head next seen hhead =>
    exact hmove (by simp [work, Pc.isIdle, upTo_self hhead]; omega)
  | retryPop head next seen act hact =>
    rcases hact with ⟨rfl, hne⟩ | rfl
    · exact hquiet rfl (by simp [work, Pc.isIdle, upTo_ne hne]; omega)
    · have hle := le_upTo s.shared (some head) 2
      exact hquiet rfl (by simp [work, Pc.isIdle, Act.isSpurious]; omega)
  | release a node hnode =>
    refine hquiet rfl ?_
    simp only [work, Pc.isIdle, Bool.false_eq_true, if_false, if_true]
    omega

/-- A run of any length, from any state, has returned from a call for every `3n + 2` of its
    steps, up to a constant and the spurious failures. -/
theorem length_le (hrun : run step s as = some s') :
    as.length ≤ 3 * Fintype.card ι * (Fintype.card ι + 1) +
      (3 * Fintype.card ι + 2) * total step returns s as +
      3 * as.countP fun a => a.2.isSpurious := by
  have hlength := run_length_le (Φ := potential (work (Fintype.card ι)))
    (fun _ (_, _) _ hstep => work_step hstep) hrun
  have hgained : total step (gained (Fintype.card ι)) s as =
      (5 + 3 * (Fintype.card ι - 1)) * total step returns s as +
        3 * as.countP fun a => a.2.isSpurious := by
    rw [← total_countP hrun, ← total_mul, ← total_mul, ← total_add]
    rfl
  have hstart := potential_le (s := s) (work_le (A := A) (T := T) (Fintype.card ι))
  rw [hgained] at hlength
  rcases Nat.eq_zero_or_pos (Fintype.card ι) with hzero | hpos
  · have hempty : as = [] := by
      cases as with
      | nil => rfl
      | cons a as => exact absurd (Fintype.card_pos_iff.mpr ⟨a.1⟩) (by omega)
    simp [hempty]
  · obtain ⟨m, hm⟩ : ∃ m, Fintype.card ι = m + 1 := ⟨Fintype.card ι - 1, by omega⟩
    rw [hm] at hlength hstart ⊢
    simp only [Nat.add_sub_cancel] at hlength hstart
    have hfive : 5 + 3 * m = 3 * (m + 1) + 2 := by omega
    have hsix : (m + 1) * (6 + 3 * m) = 3 * (m + 1) * (m + 1 + 1) := by ring
    rw [hfive] at hlength
    rw [hsix] at hstart
    omega

end Bound

/-! ### No thread waits -/

/-- The nodes that a call has got hold of. -/
def Pc.nodes : Pc A T → List A
  | .push (.loadHead a) => [a]
  | .push (.storeNext a head) => a :: head.toList
  | .push (.cas a head) => a :: head.toList
  | .pop (.loadNext head) => [head]
  | .pop (.cas head next _) => head :: next.toList
  | .pop (.release head) => [head]
  | _ => []

/-- Every node that can be got hold of has been allocated, and finitely many are live. -/
structure Mapped (s : State ι A T) : Prop where
  head : ∀ a ∈ s.shared.head, (s.shared.mem a).isSome
  next : ∀ a node, s.shared.mem a = some node → ∀ b ∈ node.next, (s.shared.mem b).isSome
  nodes : ∀ t, ∀ a ∈ (s.loc t).nodes, (s.shared.mem a).isSome
  live : {a | s.shared.live a = true}.Finite

section Mapped

variable [DecidableEq ι] {s s' : State ι A T} {t : ι} {sh : Shared A T} {l : Pc A T}

omit [DecidableEq A] [DecidableEq ι] in
theorem mapped_init : Mapped (init : State ι A T) :=
  ⟨nofun, nofun, nofun, by simp [init, Shared.new]⟩

omit [DecidableEq A] in
/-- A step that does not write to the memory. -/
theorem Mapped.quiet (h : Mapped s) (hmem : sh.mem = s.shared.mem)
    (hlive : ∀ a, sh.live a = true → s.shared.live a = true)
    (hhead : ∀ a ∈ sh.head, (s.shared.mem a).isSome)
    (hl : ∀ a ∈ l.nodes, (s.shared.mem a).isSome) :
    Mapped ⟨sh, Function.update s.loc t l⟩ := by
  refine ⟨by rwa [hmem], by rw [hmem]; exact h.next, ?_, h.live.subset hlive⟩
  rw [hmem]
  exact (Function.forall_update_iff s.loc fun _ l => ∀ a ∈ l.nodes, (s.shared.mem a).isSome).mpr
    ⟨hl, fun u _ => h.nodes u⟩

omit [DecidableEq A] in
/-- A step after which the call has got hold of no node. -/
theorem Mapped.letGo (h : Mapped s) (hmem : sh.mem = s.shared.mem)
    (hlive : ∀ a, sh.live a = true → s.shared.live a = true)
    (hhead : ∀ a ∈ sh.head, (s.shared.mem a).isSome) (hl : l.nodes = []) :
    Mapped ⟨sh, Function.update s.loc t l⟩ :=
  h.quiet hmem hlive hhead (by simp [hl])

/-- A step that writes a node, whose `next` is one that the call has got hold of. -/
theorem Mapped.write (h : Mapped s) {a : A} {node : Node A T}
    (hmem : sh.mem = Function.update s.shared.mem a (some node))
    (hnext : ∀ b ∈ node.next, (s.shared.mem b).isSome)
    (hlive : {a | sh.live a = true}.Finite) (hhead : sh.head = s.shared.head)
    (hl : ∀ b ∈ l.nodes, b = a ∨ (s.shared.mem b).isSome) :
    Mapped ⟨sh, Function.update s.loc t l⟩ := by
  have hkeep : ∀ b, b = a ∨ (s.shared.mem b).isSome → (sh.mem b).isSome := by
    intro b hb
    rw [hmem]
    by_cases hba : b = a
    · simp [hba]
    · simpa [hba] using hb.resolve_left hba
  refine ⟨?_, ?_, ?_, hlive⟩
  · rw [hhead]
    exact fun b hb => hkeep b (.inr (h.head b hb))
  · intro b node' hb c hc
    refine hkeep c (.inr ?_)
    rw [hmem] at hb
    by_cases hba : b = a
    · subst hba
      simp only [Function.update_self, Option.some.injEq] at hb
      exact hnext c (hb ▸ hc)
    · rw [Function.update_of_ne hba] at hb
      exact h.next b node' hb c hc
  · exact (Function.forall_update_iff s.loc fun _ l => ∀ a ∈ l.nodes, (sh.mem a).isSome).mpr
      ⟨fun b hb => hkeep b (hl b hb), fun u _ b hb => hkeep b (.inr (h.nodes u b hb))⟩

theorem Mapped.step {a : ι × Act A T} (h : Mapped s) (hstep : step s a = some s') : Mapped s' := by
  obtain ⟨t, act⟩ := a
  obtain ⟨sh, l, hp, rfl⟩ := interleave_eq_some.mp hstep
  have hnodes := h.nodes t
  have heffect := program_effect hp
  generalize s.loc t = l₀ at heffect hnodes
  cases heffect with
  | callPush value => exact h.letGo rfl (fun _ => id) h.head rfl
  | callPop => exact h.letGo rfl (fun _ => id) h.head rfl
  | alloc value a hdead =>
    refine h.write rfl (fun b hb => ?_) ?_ rfl (by simp [Pc.nodes])
    · cases hb
    · refine (h.live.insert a).subset fun b hb => ?_
      by_cases hba : b = a
      · exact .inl hba
      · exact .inr (by simpa [Shared.alloc, hba] using hb)
  | loadHead a =>
    refine h.quiet rfl (fun _ => id) h.head fun b hb => ?_
    rcases List.mem_cons.mp hb with rfl | hb
    · exact hnodes _ List.mem_cons_self
    · exact h.head b (Option.mem_toList.mp hb)
  | storeNext a head node hnode =>
    refine h.write rfl (fun b hb => ?_) h.live rfl fun b hb => .inr (hnodes b hb)
    exact hnodes b (List.mem_cons_of_mem _ (Option.mem_toList.mpr hb))
  | publish a head node hhead hnode =>
    refine h.letGo rfl (fun _ => id) (fun b hb => ?_) rfl
    cases hb
    exact hnodes a List.mem_cons_self
  | retryPush a head act hact =>
    refine h.quiet rfl (fun _ => id) h.head fun b hb => ?_
    exact hnodes b (List.mem_cons.mpr (.inl (List.mem_singleton.mp hb)))
  | popEmpty hhead => exact h.letGo rfl (fun _ => id) h.head rfl
  | popHead head hhead =>
    refine h.quiet rfl (fun _ => id) h.head fun b hb => ?_
    rw [List.mem_singleton.mp hb]
    exact h.head head hhead
  | loadNext head node hnode =>
    refine h.quiet rfl (fun _ => id) h.head fun b hb => ?_
    rcases List.mem_cons.mp hb with rfl | hb
    · exact hnodes _ List.mem_cons_self
    · exact h.next head node hnode b (Option.mem_toList.mp hb)
  | unlink head next seen hhead =>
    refine h.quiet rfl (fun _ => id) (fun b hb => ?_) fun b hb => ?_
    · exact hnodes b (List.mem_cons_of_mem _ (Option.mem_toList.mpr hb))
    · exact hnodes b (List.mem_cons.mpr (.inl (List.mem_singleton.mp hb)))
  | retryPop head next seen act hact => exact h.letGo rfl (fun _ => id) h.head rfl
  | release a node hnode =>
    refine h.letGo rfl (fun b hb => ?_) h.head rfl
    by_cases hba : b = a
    · simp [Shared.release, hba] at hb
    · simpa [Shared.release, hba] using hb

/-- Every thread can take a step that is no spurious failure. -/
theorem Mapped.enabled [Infinite A] (h : Mapped s) (t : ι) :
    ∃ act, act.isSpurious = false ∧ ∃ s', Threads.step s (t, act) = some s' := by
  have hnodes := h.nodes t
  have hrun : ∀ act, (program t s.shared (s.loc t) act).isSome →
      ∃ s', Threads.step s (t, act) = some s' := by
    intro act hp
    obtain ⟨⟨sh, l⟩, hp⟩ := Option.isSome_iff_exists.mp hp
    exact ⟨_, interleave_eq_some.mpr ⟨sh, l, hp, rfl⟩⟩
  cases hl : s.loc t with
  | idle => exact ⟨.call .pop, rfl, hrun _ (by rw [hl]; rfl)⟩
  | push pc =>
    rw [hl] at hnodes
    cases pc with
    | alloc value =>
      obtain ⟨a, ha⟩ := h.live.infinite_compl.nonempty
      have hdead : ¬ s.shared.live a = true := ha
      exact ⟨.alloc a, rfl, hrun _ (by simp [hl, program, pushStep, hdead])⟩
    | loadHead a => exact ⟨.step, rfl, hrun _ (by rw [hl]; rfl)⟩
    | storeNext a head =>
      refine ⟨.step, rfl, hrun _ ?_⟩
      have ha := hnodes a List.mem_cons_self
      simpa [hl, program, pushStep] using ha
    | cas a head =>
      refine ⟨.step, rfl, hrun _ ?_⟩
      have ha := hnodes a List.mem_cons_self
      by_cases hhead : s.shared.head = head
      · simpa [hl, program, pushStep, hhead] using ha
      · simp [hl, program, pushStep, hhead]
  | pop pc =>
    rw [hl] at hnodes
    cases pc with
    | loadHead =>
      refine ⟨.step, rfl, hrun _ ?_⟩
      simp only [hl, program, popStep]
      split <;> simp
    | loadNext head =>
      refine ⟨.step, rfl, hrun _ ?_⟩
      have ha := hnodes head List.mem_cons_self
      simpa [hl, program, popStep] using ha
    | cas head next seen =>
      refine ⟨.step, rfl, hrun _ ?_⟩
      simp only [hl, program, popStep]
      split <;> simp
    | release head =>
      refine ⟨.step, rfl, hrun _ ?_⟩
      have ha := hnodes head List.mem_cons_self
      simpa [hl, program, popStep] using ha

end Mapped

/-! ### Lock-freedom -/

section LockFree

variable [DecidableEq ι] [Fintype ι] {s s' : State ι A T} {pre as : List (ι × Act A T)}

/-- **`push` and `pop` are lock-free.**  At any point of a run every one of the `n` threads can
    take a step, and from then on the threads return from a call for every `3n + 2` steps they
    take, up to a constant and the compare-exchanges that fail spuriously. -/
theorem lock_free [Infinite A] (hpre : run step (init : State ι A T) pre = some s) :
    (∀ t, ∃ act, act.isSpurious = false ∧ ∃ s', step s (t, act) = some s') ∧
    ∀ as s', run step s as = some s' →
      as.length ≤ 3 * Fintype.card ι * (Fintype.card ι + 1) +
        (3 * Fintype.card ι + 2) * total step returns s as +
        3 * as.countP fun a => a.2.isSpurious := by
  have hmapped : Mapped s :=
    run_invariant (fun _ _ _ h hstep => h.step hstep) mapped_init hpre
  exact ⟨fun t => hmapped.enabled t, fun as s' hrun => length_le hrun⟩

/-- Two threads, one of which has been overtaken between its load of `head` and its
    compare-exchange. -/
theorem lock_free_overtaken :
    ∃ s : State Bool Nat Nat, run step init ((false, .call (.push 7)) :: (false, .alloc 0) ::
        (false, .step) :: (true, .call (.push 8)) :: (true, .alloc 1) ::
          List.replicate 3 (true, .step)) = some s ∧ s.shared.head = some 1 ∧
      ∀ as s', run step s as = some s' →
        as.length ≤ 18 + 8 * total step returns s as + 3 * as.countP fun a => a.2.isSpurious := by
  obtain ⟨s, hs, hhead⟩ : ∃ s : State Bool Nat Nat, run step init ((false, .call (.push 7)) ::
      (false, .alloc 0) :: (false, .step) :: (true, .call (.push 8)) :: (true, .alloc 1) ::
        List.replicate 3 (true, .step)) = some s ∧ s.shared.head = some 1 := ⟨_, rfl, rfl⟩
  exact ⟨s, hs, hhead, by simpa using (lock_free hs).2⟩

end LockFree

/-! ### A push that never returns

Thread `true` pushes a node and pops it again, each time between the load of `head` and the
compare-exchange of thread `false`. -/

section NotWaitFree

/-- Two failures of thread `false`. -/
def overtake (value : T) : List (Bool × Act Nat T) :=
  List.replicate 2 (false, Act.step) ++
    (true, Act.call (.push value)) :: (true, Act.alloc 1) :: List.replicate 3 (true, Act.step) ++
    List.replicate 3 (false, Act.step) ++
    (true, Act.call .pop) :: List.replicate 4 (true, Act.step) ++ [(false, Act.step)]

theorem overtake_ok (value : T) : ∀ a ∈ overtake value,
    a.2.isSpurious = false ∧ (a.1 = false → a.2.isCall = false) := by
  simp [overtake, List.replicate, Act.isSpurious, Act.isCall]

/-- Thread `false` is about to load `head` again and thread `true` has cleaned up. -/
structure Overtaken (s : State Bool Nat T) : Prop where
  pusher : s.loc false = .push (.loadHead 0)
  other : s.loc true = .idle
  head : s.shared.head = none
  free : s.shared.live 1 = false
  node : (s.shared.mem 0).isSome

/-- Thread `true` has pushed its node, and thread `false` has loaded it as the `head`. -/
structure Pushed (s : State Bool Nat T) : Prop where
  pusher : s.loc false = .push (.cas 0 (some 1))
  other : s.loc true = .idle
  head : s.shared.head = some 1
  top : ∃ node, s.shared.mem 1 = some node ∧ node.next = none
  node : (s.shared.mem 0).isSome

theorem Overtaken.push {s : State Bool Nat T} (h : Overtaken s) (value : T) :
    ∃ s', run step s (List.replicate 2 (false, Act.step) ++
      (true, Act.call (.push value)) :: (true, Act.alloc 1) :: List.replicate 3 (true, Act.step) ++
      List.replicate 3 (false, Act.step)) = some s' ∧ Pushed s' := by
  obtain ⟨sh, loc⟩ := s
  obtain ⟨hpusher, hother, hhead, hfree, hnode⟩ := h
  obtain ⟨node, hnode⟩ := Option.isSome_iff_exists.mp hnode
  simp only at hpusher hother hhead hfree hnode
  refine ⟨_, by simp [run_cons, interleave, program, pushStep, hpusher, hother, hhead, hfree,
    hnode, Pc.after, Shared.alloc, Shared.storeNext, List.replicate]; rfl, ?_⟩
  exact ⟨by simp, by simp, rfl, by simp, by simp⟩

theorem Pushed.pop {s : State Bool Nat T} (h : Pushed s) :
    ∃ s', run step s ((true, Act.call .pop) :: List.replicate 4 (true, Act.step) ++
      [(false, Act.step)]) = some s' ∧ Overtaken s' := by
  obtain ⟨sh, loc⟩ := s
  obtain ⟨hpusher, hother, hhead, ⟨top, htop, hnext⟩, hnode⟩ := h
  simp only at hpusher hother hhead htop hnode
  refine ⟨_, by simp [run_cons, interleave, program, pushStep, popStep, hpusher, hother, hhead,
    htop, hnext, Pc.after, Shared.release, List.replicate]; rfl, ?_⟩
  exact ⟨by simp, by simp, rfl, by simp, by simpa using hnode⟩

theorem Overtaken.round {s : State Bool Nat T} (h : Overtaken s) (value : T) :
    ∃ s', run step s (overtake value) = some s' ∧ Overtaken s' := by
  obtain ⟨s₁, hpush, hpushed⟩ := h.push value
  obtain ⟨s₂, hpop, hovertaken⟩ := hpushed.pop
  refine ⟨s₂, ?_, hovertaken⟩
  rw [overtake, List.append_assoc, run_append_eq_some]
  exact ⟨s₁, hpush, hpop⟩

/-- **`push` is not wait-free.**  Whatever the number of steps, there is a run in which a push
    has taken as many without returning, and no compare-exchange of the run fails spuriously. -/
theorem push_not_waitFree (value : T) (steps : Nat) :
    ∃ as s, run step (init : State Bool Nat T) ((false, .call (.push value)) :: as) = some s ∧
      (∀ a ∈ as, a.2.isSpurious = false ∧ (a.1 = false → a.2.isCall = false)) ∧
      steps ≤ as.countP (fun a => a.1 = false) ∧ ∃ pc, s.loc false = .push pc := by
  obtain ⟨s₀, hs₀, hstart⟩ : ∃ s₀, run step (init : State Bool Nat T)
      [(false, .call (.push value)), (false, .alloc 0)] = some s₀ ∧ Overtaken s₀ :=
    ⟨_, rfl, by simp [Pc.after], by simp [init], rfl, by simp [init, Shared.alloc, Shared.new],
      by simp [Shared.alloc]⟩
  obtain ⟨s, hrun, hlast⟩ := run_rounds (P := fun _ => Overtaken) steps
    (fun _ _ _ h => h.round value) hstart
  refine ⟨(false, .alloc 0) :: (List.replicate steps (overtake value)).flatten, s, ?_, ?_, ?_, _,
    hlast.pusher⟩
  · rw [← run_append_eq_some.mpr ⟨s₀, hs₀, hrun⟩]
    rfl
  · intro a ha
    rcases List.mem_cons.mp ha with rfl | ha
    · exact ⟨rfl, fun _ => rfl⟩
    · obtain ⟨round, hround, ha⟩ := List.mem_flatten.mp ha
      rw [List.eq_of_mem_replicate hround] at ha
      exact overtake_ok value a ha
  · have hround : (overtake value).countP (fun a => a.1 = false) = 6 := rfl
    rw [List.countP_cons, List.countP_flatten, List.map_replicate, hround]
    simp
    omega

end NotWaitFree

end VelocityX.LockFreeStack.Threads
