import VelocityX.Queue.MpmcSimple

/-!
# Clones of the default bounded queue

`Clone` and `Drop` of `src/queue/mpmc_simple.rs`.  A clone shares the buffer, which
is behind an `Arc`, but copies `head` and `tail`, and dropping any handle empties
the whole shared buffer.  A `Family` is the shared buffer with the indices of the
handles to it; an operation on a handle is the operation of `MpmcQueue` on the
buffer and that handle's indices.
-/

namespace VelocityX.MpmcSimple

variable {T : Type*} {w : Nat}

structure Handle where
  head : Nat
  tail : Nat
deriving DecidableEq, Repr

structure Family (T : Type*) where
  buffer : List (Option T)
  capacity : Nat
  handles : List Handle
deriving DecidableEq, Repr

namespace Family

def new (capacity : Capacity w) : Family T :=
  ⟨List.replicate capacity.val none, capacity.val, [⟨0, 0⟩]⟩

/-- The queue as one of its handles sees it. -/
def view (f : Family T) (h : Handle) : MpmcQueue T := ⟨f.buffer, f.capacity, h.head, h.tail⟩

/-- Write back the queue after an operation on handle `i`. -/
def store (f : Family T) (i : Nat) (q : MpmcQueue T) : Family T :=
  { f with buffer := q.buffer, handles := f.handles.set i ⟨q.head, q.tail⟩ }

/-- `clone`: the buffer is shared, the indices are loaded once and copied. -/
def clone (f : Family T) (h : Handle) : Family T :=
  { f with handles := f.handles ++ [⟨h.head, h.tail⟩] }

/-- `drop`: every item of the shared buffer is set to `None`. -/
def drop (f : Family T) (i : Nat) : Family T :=
  { f with buffer := f.buffer.map fun _ => none, handles := f.handles.eraseIdx i }

theorem store_view {f : Family T} {i : Nat} {h : Handle} (hi : f.handles[i]? = some h) :
    f.store i (f.view h) = f := by
  obtain ⟨hlt, rfl⟩ := List.getElem?_eq_some_iff.mp hi
  show { f with handles := f.handles.set i f.handles[i] } = f
  rw [List.set_getElem_self]

end Family

/-! ### A family of handles as one queue -/

inductive HandleOp (T : Type*) where
  | clone (i : Nat)
  | push (i : Nat) (value : T)
  | pop (i : Nat)
deriving DecidableEq, Repr

def HandleOp.handle : HandleOp T → Nat
  | .clone i => i
  | .push i _ => i
  | .pop i => i

/-- An operation on a handle of the family; one on a handle that does not exist
    changes nothing. -/
def Family.step (w : Nat) (f : Family T) : HandleOp T → Family T
  | .clone i => (f.handles[i]?.map f.clone).getD f
  | .push i value =>
      (f.handles[i]?.map fun h => f.store i ((f.view h).push w value).2).getD f
  | .pop i => (f.handles[i]?.map fun h => f.store i ((f.view h).pop w).2).getD f

/-- The same operation on the one bounded queue the family stands for. -/
def Family.specStep (f : Family T) (xs : List T) : HandleOp T → List T
  | .clone _ => xs
  | .push i value => if i < f.handles.length then (Fifo.push f.capacity xs value).2 else xs
  | .pop i => if i < f.handles.length then (Fifo.pop xs).2 else xs

/-- The result of the operation is that of the bounded queue `xs`, and an accepted
    push does not overwrite anything. -/
def Family.Answers (w : Nat) (f : Family T) (xs : List T) : HandleOp T → Prop
  | .clone _ => True
  | .push i value => ∀ h, f.handles[i]? = some h →
      ((f.view h).push w value).1 =
        (if (Fifo.push f.capacity xs value).1 then .ok () else .error .wouldBlock) ∧
      (((f.view h).push w value).1 = .ok () → f.buffer[h.tail % f.capacity]? = some none)
  | .pop i => ∀ h, f.handles[i]? = some h → ((f.view h).pop w).1 = (Fifo.pop xs).1

def Family.LensAgree (w : Nat) (f : Family T) (xs : List T) : Prop :=
  ∀ h ∈ f.handles, (f.view h).len w = xs.length

/-- Along the run the handles behave as handles to the one bounded queue `xs`. -/
def ActsAsOneQueue (w : Nat) : Family T → List T → List (HandleOp T) → Prop
  | f, xs, [] => f.LensAgree w xs
  | f, xs, op :: ops =>
      f.LensAgree w xs ∧ f.Answers w xs op ∧
        ActsAsOneQueue w (f.step w op) (f.specStep xs op) ops

/-- An operation that changes the queue goes through its only handle, and a push does
    not move the tail past the end of the word unless the slots stay aligned there. -/
def Family.Exclusive (w : Nat) (f : Family T) : HandleOp T → Prop
  | .clone _ => True
  | .push i _ => ∀ h, f.handles[i]? = some h → f.capacity ≤ (f.view h).len w ∨
      f.handles.length = 1 ∧ (h.tail + 1 < 2 ^ w ∨ f.capacity ∣ 2 ^ w)
  | .pop i => ∀ h, f.handles[i]? = some h → (f.view h).isEmpty ∨ f.handles.length = 1

def ThroughOnlyHandle (w : Nat) : Family T → List (HandleOp T) → Prop
  | _, [] => True
  | f, op :: ops => f.Exclusive w op ∧ ThroughOnlyHandle w (f.step w op) ops

/-! ### Every handle is up to date

As long as only one handle changes the queue, every handle sees the whole of it. -/

def Family.UpToDate (w : Nat) (f : Family T) (xs : List T) : Prop :=
  ∀ h ∈ f.handles, (f.view h).Models w xs

variable {f : Family T} {q : MpmcQueue T} {xs ys : List T} {i : Nat} {h : Handle}

theorem upToDate_new (capacity : Capacity w) :
    (Family.new capacity : Family T).UpToDate w [] := by
  intro h hh
  rw [Family.new, List.mem_singleton] at hh
  subst hh
  exact MpmcQueue.models_new capacity

theorem Family.UpToDate.lensAgree (hf : f.UpToDate w xs) : f.LensAgree w xs := by
  intro h hh
  exact (hf h hh).len_eq

theorem Family.UpToDate.clone (hf : f.UpToDate w xs) (hh : h ∈ f.handles) :
    (f.clone h).UpToDate w xs := by
  intro h' hh'
  rcases List.mem_append.mp hh' with hold | hnew
  · exact hf h' hold
  · rw [List.mem_singleton] at hnew
    subst hnew
    exact hf h hh

theorem upToDate_store_only (hi : f.handles[i]? = some h) (hlen : f.handles.length = 1)
    (hq : q.Models w ys) (hcap : q.capacity = f.capacity) : (f.store i q).UpToDate w ys := by
  have hlt : i < f.handles.length := (List.getElem?_eq_some_iff.mp hi).1
  rcases List.length_eq_one_iff.mp hlen with ⟨h₀, hhandles⟩
  have hi0 : i = 0 := by omega
  subst hi0
  intro h' hh'
  have heq : h' = ⟨q.head, q.tail⟩ := by
    simpa [Family.store, hhandles] using hh'
  subst heq
  have hview : (f.store 0 q).view ⟨q.head, q.tail⟩ = q := by
    show { q with capacity := f.capacity } = q
    rw [← hcap]
  rw [hview]
  exact hq

theorem store_upToDate (hf : f.UpToDate w xs) (hi : f.handles[i]? = some h) :
    (f.store i (f.view h)).UpToDate w xs := by
  rw [Family.store_view hi]
  exact hf

/-- A change through one of several handles leaves the others behind. -/
theorem not_lensAgree_of_store (hf : f.UpToDate w xs) (hi : f.handles[i]? = some h)
    (hlen : f.handles.length ≠ 1) (hne : xs.length ≠ ys.length) :
    ¬ (f.store i q).LensAgree w ys := by
  intro hagree
  have hlt : i < f.handles.length := (List.getElem?_eq_some_iff.mp hi).1
  have hother : ∃ j, j < f.handles.length ∧ i ≠ j := by
    by_cases hi0 : i = 0
    · exact ⟨1, by omega, by omega⟩
    · exact ⟨0, by omega, hi0⟩
  rcases hother with ⟨j, hj, hij⟩
  have hmem : f.handles[j] ∈ (f.store i q).handles := by
    have hget : (f.handles.set i ⟨q.head, q.tail⟩)[j]? = some f.handles[j] := by
      rw [List.getElem?_set_ne hij, List.getElem?_eq_getElem hj]
    exact List.mem_of_getElem? hget
  have hold : (f.view f.handles[j]).len w = xs.length :=
    (hf _ (List.getElem_mem hj)).len_eq
  have hnew : (f.view f.handles[j]).len w = ys.length := hagree _ hmem
  exact hne (hold.symm.trans hnew)

/-! ### One operation -/

/-- An operation on a handle that does not exist. -/
theorem step_absent {op : HandleOp T} (hop : f.handles[op.handle]? = none) (xs : List T) :
    f.step w op = f ∧ f.specStep xs op = xs ∧ f.Answers w xs op ∧ f.Exclusive w op := by
  have habsent : ∀ {h : Handle} {P : Prop}, f.handles[op.handle]? = some h → P := by
    intro h P hsome
    rw [hop] at hsome
    cases hsome
  have hge : ¬ op.handle < f.handles.length := by
    rw [List.getElem?_eq_none_iff] at hop
    omega
  cases op with
  | clone i => exact ⟨by simp only [Family.step, show f.handles[i]? = none from hop]; rfl,
      rfl, trivial, trivial⟩
  | push i value =>
    refine ⟨?_, if_neg hge, fun h hh => habsent hh, fun h hh => habsent hh⟩
    simp only [Family.step, show f.handles[i]? = none from hop]
    rfl
  | pop i =>
    refine ⟨?_, if_neg hge, fun h hh => habsent hh, fun h hh => habsent hh⟩
    simp only [Family.step, show f.handles[i]? = none from hop]
    rfl

theorem step_clone (hi : f.handles[i]? = some h) : f.step w (.clone i) = f.clone h := by
  simp only [Family.step, hi, Option.map_some, Option.getD_some]

theorem step_push (hi : f.handles[i]? = some h) (value : T) :
    f.step w (.push i value) = f.store i ((f.view h).push w value).2 := by
  simp only [Family.step, hi, Option.map_some, Option.getD_some]

theorem step_pop (hi : f.handles[i]? = some h) :
    f.step w (.pop i) = f.store i ((f.view h).pop w).2 := by
  simp only [Family.step, hi, Option.map_some, Option.getD_some]

theorem specStep_push (hi : f.handles[i]? = some h) (xs : List T) (value : T) :
    f.specStep xs (.push i value) = (Fifo.push f.capacity xs value).2 :=
  if_pos (List.getElem?_eq_some_iff.mp hi).1

theorem specStep_pop (hi : f.handles[i]? = some h) (xs : List T) :
    f.specStep xs (.pop i) = (Fifo.pop xs).2 :=
  if_pos (List.getElem?_eq_some_iff.mp hi).1

theorem forall_handle {P : Handle → Prop} (hi : f.handles[i]? = some h) (hP : P h) :
    ∀ h', f.handles[i]? = some h' → P h' := by
  intro h' hh'
  rw [hi] at hh'
  cases hh'
  exact hP

/-- An operation that meets the condition answers as the one queue does and leaves every
    handle up to date. -/
theorem step_upToDate {op : HandleOp T} (hf : f.UpToDate w xs) (hop : f.Exclusive w op) :
    f.Answers w xs op ∧ (f.step w op).UpToDate w (f.specStep xs op) := by
  cases hi : f.handles[op.handle]? with
  | none =>
    rcases step_absent hi xs with ⟨hstep, hspec, hanswers, _⟩
    rw [hstep, hspec]
    exact ⟨hanswers, hf⟩
  | some h =>
    have hmodels : (f.view h).Models w xs := hf h (List.mem_of_getElem? hi)
    cases op with
    | clone i =>
      change f.handles[i]? = some h at hi
      rw [step_clone hi]
      exact ⟨trivial, hf.clone (List.mem_of_getElem? hi)⟩
    | push i value =>
      change f.handles[i]? = some h at hi
      rw [step_push hi, specStep_push hi]
      by_cases hfull : f.capacity ≤ xs.length
      · have hpush := hmodels.push_full hfull value
        rw [hpush, Fifo.push_of_ge hfull]
        refine ⟨forall_handle hi ?_, store_upToDate hf hi⟩
        rw [hpush, Fifo.push_of_ge hfull]
        exact ⟨rfl, fun hok => by cases hok⟩
      · have hroom : xs.length < f.capacity := by omega
        rcases hop h hi with hge | ⟨hlen, hwrap⟩
        · rw [hmodels.len_eq] at hge
          exact absurd hge hfull
        · rcases hmodels.push_room hroom hwrap value with ⟨q, hpush, hq, hcap, hslot⟩
          rw [hpush, Fifo.push_of_lt hroom]
          refine ⟨forall_handle hi ?_, upToDate_store_only hi hlen hq hcap⟩
          rw [hpush, Fifo.push_of_lt hroom]
          exact ⟨rfl, fun _ => hslot⟩
    | pop i =>
      change f.handles[i]? = some h at hi
      rw [step_pop hi, specStep_pop hi]
      cases xs with
      | nil =>
        have hpop := hmodels.pop_nil
        rw [hpop]
        refine ⟨forall_handle hi ?_, store_upToDate hf hi⟩
        rw [hpop]
        rfl
      | cons x xs =>
        rcases hmodels.pop_cons with ⟨q, hpop, hq, hcap⟩
        rcases hop h hi with hempty | hlen
        · have hnil := hmodels.isEmpty_iff.mp hempty
          cases hnil
        · rw [hpop]
          refine ⟨forall_handle hi ?_, upToDate_store_only hi hlen hq hcap⟩
          rw [hpop]
          rfl

/-- If every handle still sees the whole queue, the operation met the condition. -/
theorem exclusive_of_lensAgree {op : HandleOp T} (hf : f.UpToDate w xs)
    (hwrap : ∀ h ∈ f.handles, h.tail + 1 < 2 ^ w)
    (hagree : (f.step w op).LensAgree w (f.specStep xs op)) : f.Exclusive w op := by
  cases hi : f.handles[op.handle]? with
  | none => exact (step_absent hi xs).2.2.2
  | some h =>
    have hmem : h ∈ f.handles := List.mem_of_getElem? hi
    have hmodels : (f.view h).Models w xs := hf h hmem
    cases op with
    | clone i => trivial
    | push i value =>
      change f.handles[i]? = some h at hi
      refine forall_handle hi ?_
      rw [step_push hi, specStep_push hi] at hagree
      by_cases hfull : f.capacity ≤ xs.length
      · left
        rw [hmodels.len_eq]
        exact hfull
      · right
        refine ⟨?_, Or.inl (hwrap h hmem)⟩
        by_contra hlen
        refine not_lensAgree_of_store hf hi hlen ?_ hagree
        rw [Fifo.push_of_lt (by omega), List.length_append]
        simp
    | pop i =>
      change f.handles[i]? = some h at hi
      refine forall_handle hi ?_
      rw [step_pop hi, specStep_pop hi] at hagree
      cases xs with
      | nil => exact Or.inl (hmodels.isEmpty_iff.mpr rfl)
      | cons x xs =>
        right
        by_contra hlen
        refine not_lensAgree_of_store hf hi hlen ?_ hagree
        simp

theorem tail_push_le (q : MpmcQueue T) (value : T) : (q.push w value).2.tail ≤ q.tail + 1 := by
  unfold MpmcQueue.push
  split
  · exact Nat.le_succ _
  · exact Nat.mod_le _ _

theorem tail_pop (q : MpmcQueue T) : (q.pop w).2.tail = q.tail := by
  unfold MpmcQueue.pop
  split
  · rfl
  · rfl

/-- No operation moves a tail by more than one position. -/
theorem step_tail_le {op : HandleOp T} {n : Nat} (hn : ∀ h ∈ f.handles, h.tail ≤ n) :
    ∀ h ∈ (f.step w op).handles, h.tail ≤ n + 1 := by
  have hstore : ∀ {i : Nat} {q : MpmcQueue T}, q.tail ≤ n + 1 →
      ∀ h ∈ (f.store i q).handles, h.tail ≤ n + 1 := by
    intro i q hq h hh
    rcases List.mem_or_eq_of_mem_set hh with hold | hnew
    · exact Nat.le_succ_of_le (hn h hold)
    · subst hnew
      exact hq
  cases hi : f.handles[op.handle]? with
  | none =>
    rw [(step_absent hi []).1]
    exact fun h hh => Nat.le_succ_of_le (hn h hh)
  | some h =>
    have hle : h.tail ≤ n := hn h (List.mem_of_getElem? hi)
    cases op with
    | clone i =>
      change f.handles[i]? = some h at hi
      rw [step_clone hi]
      intro h' hh'
      rcases List.mem_append.mp hh' with hold | hnew
      · exact Nat.le_succ_of_le (hn h' hold)
      · rw [List.mem_singleton] at hnew
        subst hnew
        exact Nat.le_succ_of_le hle
    | push i value =>
      change f.handles[i]? = some h at hi
      rw [step_push hi]
      refine hstore (Nat.le_trans (tail_push_le _ value) ?_)
      exact Nat.succ_le_succ hle
    | pop i =>
      change f.handles[i]? = some h at hi
      rw [step_pop hi]
      refine hstore ((Nat.le_of_eq (tail_pop _)).trans ?_)
      exact Nat.le_succ_of_le hle

/-! ### Runs -/

theorem actsAsOneQueue_of_throughOnlyHandle (ops : List (HandleOp T)) :
    ∀ {f : Family T} {xs : List T}, f.UpToDate w xs → ThroughOnlyHandle w f ops →
      ActsAsOneQueue w f xs ops := by
  induction ops with
  | nil =>
    intro f xs hf _
    exact hf.lensAgree
  | cons op ops ih =>
    intro f xs hf hops
    rcases hops with ⟨hop, hrest⟩
    rcases step_upToDate hf hop with ⟨hanswers, hnext⟩
    exact ⟨hf.lensAgree, hanswers, ih hnext hrest⟩

theorem ActsAsOneQueue.lensAgree {ops : List (HandleOp T)} (h : ActsAsOneQueue w f xs ops) :
    f.LensAgree w xs := by
  cases ops with
  | nil => exact h
  | cons op ops => exact h.1

theorem throughOnlyHandle_of_actsAsOneQueue (ops : List (HandleOp T)) :
    ∀ {f : Family T} {xs : List T} {n : Nat}, f.UpToDate w xs → (∀ h ∈ f.handles, h.tail ≤ n) →
      n + ops.length < 2 ^ w → ActsAsOneQueue w f xs ops → ThroughOnlyHandle w f ops := by
  induction ops with
  | nil =>
    intro f xs n _ _ _ _
    trivial
  | cons op ops ih =>
    intro f xs n hf hn hlen hacts
    rw [List.length_cons] at hlen
    rcases hacts with ⟨_, _, hrest⟩
    have hwrap : ∀ h ∈ f.handles, h.tail + 1 < 2 ^ w := by
      intro h hh
      have := hn h hh
      omega
    have hop : f.Exclusive w op := exclusive_of_lensAgree hf hwrap hrest.lensAgree
    exact ⟨hop, ih (step_upToDate hf hop).2 (step_tail_le hn) (by omega) hrest⟩

/-- **When clones are handles to one queue.**  A family of handles behaves as one bounded
    queue in every run in which each change of the queue goes through its only handle; in
    runs too short to wrap an index there is no other way. -/
theorem clones_actAsOneQueue (capacity : Capacity w) (ops : List (HandleOp T)) :
    (ThroughOnlyHandle w (Family.new capacity : Family T) ops →
      ActsAsOneQueue w (Family.new capacity) [] ops) ∧
    (ops.length < 2 ^ w → ActsAsOneQueue w (Family.new capacity : Family T) [] ops →
      ThroughOnlyHandle w (Family.new capacity) ops) := by
  have hnew : (Family.new capacity : Family T).UpToDate w [] := upToDate_new capacity
  refine ⟨actsAsOneQueue_of_throughOnlyHandle ops hnew, ?_⟩
  intro hlen
  refine throughOnlyHandle_of_actsAsOneQueue (n := 0) ops hnew ?_ (by omega)
  intro h hh
  rw [Family.new, List.mem_singleton] at hh
  subst hh
  exact Nat.le_refl 0

theorem clones_actAsOneQueue_twoHandles :
    ThroughOnlyHandle 64 (Family.new (⟨2, by decide, by decide⟩ : Capacity 64) : Family Nat)
        [.push 0 7, .clone 0] ∧
      ActsAsOneQueue 64 (Family.new (⟨2, by decide, by decide⟩ : Capacity 64) : Family Nat) []
        [.push 0 7, .clone 0] := by
  have hthrough : ThroughOnlyHandle 64
      (Family.new (⟨2, by decide, by decide⟩ : Capacity 64) : Family Nat) [.push 0 7, .clone 0] :=
    ⟨fun h _ => Or.inr ⟨rfl, Or.inr (by decide)⟩, trivial, trivial⟩
  exact ⟨hthrough, (clones_actAsOneQueue _ _).1 hthrough⟩

/-- The value pushed through the original is not seen by the clone. -/
theorem clone_pop_misses_push :
    ¬ ActsAsOneQueue 64 (Family.new (⟨2, by decide, by decide⟩ : Capacity 64) : Family Nat) []
        [.clone 0, .push 0 7, .pop 1] := by
  rintro ⟨_, _, _, _, _, hpop, _⟩
  exact absurd (hpop ⟨0, 0⟩ rfl) (by decide)

end VelocityX.MpmcSimple
