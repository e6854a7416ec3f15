import VelocityX.Queue.MpmcSimpleHandles
import VelocityX.Queue.MpmcSimpleWindow

/-!
# Dropping a clone of the default bounded queue

A run of the original queue's operations, with clones of it created and dropped in
between.  `replies` are the results of the original's operations; the run without
clones is the same list of operations on the queue alone.

The loops of `push_batch` and `pop_batch` are part of the run, and indices may wrap.
-/

namespace VelocityX.MpmcSimple

variable {T : Type*} {w : Nat}

/-- The queue after its buffer has been emptied by a `drop`. -/
def MpmcQueue.emptied (q : MpmcQueue T) : MpmcQueue T :=
  { q with buffer := q.buffer.map fun _ => none }

open MpmcQueue

/-! ### Runs with clones -/

/-- An operation of the original, a `clone` of it, or the `drop` of one of the clones
    that exist at this point. -/
inductive Event (T : Type*) where
  | use (op : QueueOp T)
  | clone
  | drop (j : Nat)

def Family.event (w : Nat) (f : Family T) : Event T → List (Reply T) × Family T
  | .use op =>
      match f.handles[0]? with
      | none => ([], f)
      | some h => ([((f.view h).apply w op).1], f.store 0 ((f.view h).apply w op).2)
  | .clone => ([], (f.handles[0]?.map f.clone).getD f)
  | .drop j => ([], if j + 1 < f.handles.length then f.drop (j + 1) else f)

def Family.replies (w : Nat) : Family T → List (Event T) → List (Reply T)
  | _, [] => []
  | f, e :: es => (f.event w e).1 ++ (f.event w e).2.replies w es

/-- The operations of the original. -/
def uses : List (Event T) → List (QueueOp T)
  | [] => []
  | .use op :: es => op :: uses es
  | .clone :: es => uses es
  | .drop _ :: es => uses es

/-- From no point of the run on can the original's operations tell it from the run
    without clones. -/
def ClonesInvisible (w : Nat) (capacity : Capacity w) (es : List (Event T)) : Prop :=
  ∀ pre, pre <+: es → ∀ ops : List (QueueOp T),
    (Family.new capacity).replies w (pre ++ ops.map .use) =
      (MpmcQueue.new capacity).replies w (uses pre ++ ops)

/-- A clone is dropped only when no slot of the shared buffer holds a value. -/
def DropsWhenVacant (w : Nat) : Family T → List (Event T) → Prop
  | _, [] => True
  | f, e :: es =>
      (∀ j, e = .drop j → j + 1 < f.handles.length → ∀ slot ∈ f.buffer, slot = none) ∧
        DropsWhenVacant w (f.event w e).2 es

/-! ### The original within the family

`f.IsOriginal q`: the queue that the first handle of `f` sees is `q`. -/

def Family.IsOriginal (f : Family T) (q : MpmcQueue T) : Prop :=
  ∃ h, f.handles[0]? = some h ∧ f.view h = q

section Original

variable {f : Family T} {q : MpmcQueue T}

theorem isOriginal_new (capacity : Capacity w) :
    (Family.new capacity : Family T).IsOriginal (MpmcQueue.new capacity) :=
  ⟨⟨0, 0⟩, rfl, rfl⟩

theorem Family.IsOriginal.use (hf : f.IsOriginal q) (op : QueueOp T) :
    (f.event w (.use op)).1 = [(q.apply w op).1] ∧
      (f.event w (.use op)).2.IsOriginal (q.apply w op).2 := by
  rcases hf with ⟨h, hh, hview⟩
  have hcap : (q.apply w op).2.capacity = f.capacity := by
    rw [apply_capacity, ← hview]
    rfl
  have hevent : f.event w (.use op) = ([(q.apply w op).1], f.store 0 (q.apply w op).2) := by
    simp only [Family.event, hh, hview]
  rw [hevent]
  refine ⟨rfl, ⟨(q.apply w op).2.head, (q.apply w op).2.tail⟩, ?_, ?_⟩
  · exact List.getElem?_set_self (List.getElem?_eq_some_iff.mp hh).1
  · show { (q.apply w op).2 with capacity := f.capacity } = (q.apply w op).2
    rw [← hcap]

theorem Family.IsOriginal.clone (hf : f.IsOriginal q) : (f.event w .clone).2.IsOriginal q := by
  rcases hf with ⟨h, hh, hview⟩
  have hevent : (f.event w .clone).2 = f.clone h := by
    simp only [Family.event, hh, Option.map_some, Option.getD_some]
  rw [hevent]
  refine ⟨h, ?_, hview⟩
  show (f.handles ++ [(⟨h.head, h.tail⟩ : Handle)])[0]? = some h
  rw [List.getElem?_append_left (List.getElem?_eq_some_iff.mp hh).1, hh]

theorem Family.IsOriginal.drop (hf : f.IsOriginal q) (j : Nat) :
    (f.drop (j + 1)).IsOriginal q.emptied := by
  rcases hf with ⟨h, hh, hview⟩
  refine ⟨h, ?_, ?_⟩
  · show (f.handles.eraseIdx (j + 1))[0]? = some h
    rw [List.getElem?_eraseIdx_of_lt (Nat.succ_pos j), hh]
  · rw [← hview]
    rfl

theorem emptied_vacant (q : MpmcQueue T) : q.emptied.Vacant := by
  intro slot hslot
  rcases List.mem_map.mp hslot with ⟨_, _, heq⟩
  exact heq.symm

theorem emptied_eq (hq : q.Vacant) : q.emptied = q := by
  have hbuffer : q.buffer.map (fun _ => (none : Option T)) = q.buffer := by
    rw [List.map_congr_left (g := id) (fun slot hslot => (hq slot hslot).symm), List.map_id]
  rw [MpmcQueue.emptied, hbuffer]

theorem uses_cons (e : Event T) (es : List (Event T)) : uses (e :: es) = uses [e] ++ uses es := by
  cases e with
  | use op => rfl
  | clone => rfl
  | drop j => rfl

/-- One event of a run in which the drops meet the condition. -/
theorem Family.IsOriginal.event {n : Nat} (hf : f.IsOriginal q) (hq : q.Windowed w n) (e : Event T)
    (he : ∀ j, e = .drop j → j + 1 < f.handles.length → q.Vacant) :
    ∃ q' m, (f.event w e).2.IsOriginal q' ∧ q'.Windowed w m ∧
      ∀ ops, q.replies w (uses [e] ++ ops) = (f.event w e).1 ++ q'.replies w ops := by
  cases e with
  | use op =>
    rcases hf.use (w := w) op with ⟨hreply, horiginal⟩
    rcases hq.apply op with ⟨m, hm⟩
    refine ⟨(q.apply w op).2, m, horiginal, hm, fun ops => ?_⟩
    rw [hreply]
    rfl
  | clone => exact ⟨q, n, hf.clone, hq, fun _ => rfl⟩
  | drop j =>
    refine ⟨q, n, ?_, hq, fun _ => rfl⟩
    show (if j + 1 < f.handles.length then f.drop (j + 1) else f).IsOriginal q
    by_cases hj : j + 1 < f.handles.length
    · have hdrop := hf.drop j
      rw [emptied_eq (he j rfl hj)] at hdrop
      rw [if_pos hj]
      exact hdrop
    · rw [if_neg hj]
      exact hf

theorem replies_uses (ops : List (QueueOp T)) :
    ∀ {f : Family T} {q : MpmcQueue T}, f.IsOriginal q →
      f.replies w (ops.map .use) = q.replies w ops := by
  induction ops with
  | nil =>
    intro f q _
    rfl
  | cons op ops ih =>
    intro f q hf
    rcases hf.use (w := w) op with ⟨hreply, horiginal⟩
    show (f.event w (.use op)).1 ++ (f.event w (.use op)).2.replies w (ops.map .use) =
      (q.apply w op).1 :: (q.apply w op).2.replies w ops
    rw [hreply, ih horiginal]
    rfl

/-- An unseen drop found no value in the buffer: otherwise taking everything out would
    return one in the run without clones only. -/
theorem vacant_of_same_replies {n j : Nat} (hf : f.IsOriginal q) (hq : q.Windowed w n)
    (hj : j + 1 < f.handles.length)
    (hsame : ∀ ops, f.replies w (.drop j :: ops.map .use) = q.replies w ops) : q.Vacant := by
  have hdropped : (q.emptied.popBatch w (2 ^ w - 1)).1 = [] := by
    have hwindowed : q.emptied.Windowed w n := by
      refine ⟨hq.head_lt, hq.tail_eq, hq.le_capacity, hq.capacity_lt, ?_⟩
      intro i x hi
      cases emptied_vacant q _ (List.mem_of_getElem? hi)
    exact hwindowed.popBatch_all.mpr (emptied_vacant q)
  have hall := hsame [.popBatch (2 ^ w - 1)]
  have hleft : f.replies w (.drop j :: [QueueOp.popBatch (2 ^ w - 1)].map .use) =
      q.emptied.replies w [.popBatch (2 ^ w - 1)] := by
    rw [← replies_uses [QueueOp.popBatch (2 ^ w - 1)] (hf.drop j)]
    simp only [Family.replies, Family.event, if_pos hj, List.nil_append, List.map_cons]
  rw [hleft] at hall
  simp only [MpmcQueue.replies, MpmcQueue.apply, List.cons.injEq, Reply.popBatch.injEq,
    and_true] at hall
  rw [hdropped] at hall
  exact hq.popBatch_all.mp hall.symm

end Original

/-! ### Runs -/

theorem invisible_of_dropsWhenVacant (es : List (Event T)) :
    ∀ {f : Family T} {q : MpmcQueue T} {n : Nat}, f.IsOriginal q → q.Windowed w n →
      DropsWhenVacant w f es → ∀ pre, pre <+: es → ∀ ops : List (QueueOp T),
        f.replies w (pre ++ ops.map .use) = q.replies w (uses pre ++ ops) := by
  induction es with
  | nil =>
    intro f q n hf _ _ pre hpre ops
    rw [List.prefix_nil.mp hpre]
    exact replies_uses ops hf
  | cons e es ih =>
    intro f q n hf hq hes pre hpre ops
    rcases hes with ⟨he, hrest⟩
    cases pre with
    | nil => exact replies_uses ops hf
    | cons e' pre =>
      rcases List.cons_prefix_cons.mp hpre with ⟨rfl, hpre'⟩
      have hvacant : ∀ j, e' = .drop j → j + 1 < f.handles.length → q.Vacant := by
        intro j hj hlt
        rcases hf with ⟨h, _, hview⟩
        rw [← hview]
        exact he j hj hlt
      rcases hf.event hq e' hvacant with ⟨q', m, hf', hq', hreplies⟩
      rw [uses_cons, List.append_assoc, hreplies, ← ih hf' hq' hrest pre hpre' ops]
      rfl

theorem dropsWhenVacant_of_invisible (es : List (Event T)) :
    ∀ {f : Family T} {q : MpmcQueue T} {n : Nat}, f.IsOriginal q → q.Windowed w n →
      (∀ pre, pre <+: es → ∀ ops : List (QueueOp T),
        f.replies w (pre ++ ops.map .use) = q.replies w (uses pre ++ ops)) →
      DropsWhenVacant w f es := by
  induction es with
  | nil =>
    intro f q n _ _ _
    trivial
  | cons e es ih =>
    intro f q n hf hq hsame
    have hvacant : ∀ j, e = .drop j → j + 1 < f.handles.length → q.Vacant := by
      intro j hj hlt
      subst hj
      refine vacant_of_same_replies hf hq hlt fun ops => ?_
      exact hsame [.drop j] (List.prefix_cons_inj _ |>.mpr List.nil_prefix) ops
    refine ⟨?_, ?_⟩
    · intro j hj hlt
      have := hvacant j hj hlt
      rcases hf with ⟨h, _, hview⟩
      rw [← hview] at this
      exact this
    · rcases hf.event hq e hvacant with ⟨q', m, hf', hq', hreplies⟩
      refine ih hf' hq' fun pre hpre ops => ?_
      have hcons := hsame (e :: pre) (List.cons_prefix_cons.mpr ⟨rfl, hpre⟩) ops
      rw [uses_cons, List.append_assoc, hreplies] at hcons
      exact List.append_cancel_left hcons

/-- **When dropping a clone is invisible.**  The original's operations never see that
    clones are created and dropped exactly when every clone is dropped while the shared
    buffer holds no value. -/
theorem clonesInvisible_iff (capacity : Capacity w) (es : List (Event T)) :
    ClonesInvisible w capacity es ↔ DropsWhenVacant w (Family.new capacity) es := by
  constructor
  · exact dropsWhenVacant_of_invisible es (isOriginal_new capacity) (windowed_new capacity)
  · exact invisible_of_dropsWhenVacant es (isOriginal_new capacity) (windowed_new capacity)

/-- A clone dropped while the original holds a value takes the value away. -/
theorem dropped_clone_loses_value :
    ¬ ClonesInvisible 64 (⟨2, by decide, by decide⟩ : Capacity 64)
        [.use (.push (7 : Nat)), .clone, .drop 0] := by
  intro h
  exact absurd (h _ List.prefix_rfl [.pop]) (by decide)

end VelocityX.MpmcSimple
