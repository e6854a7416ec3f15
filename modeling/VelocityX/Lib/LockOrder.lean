import Mathlib.Logic.Function.Basic

/-!
# Locks that are taken in order

Threads hold locks and wait for locks.  When a thread waits only for locks that rank above
all those it holds, and there is a highest rank, nobody waits in a circle: among the
threads that are at work some thread is not waiting.

`Owned` keeps the books of the locks: the owner that a lock records is the thread that
holds it, so no two threads hold one lock.
-/

namespace LockOrder

variable {ι L κ : Type*} {rank : L → Nat} {bound : Nat} {holds waits : ι → L → Prop} {t : ι}
variable {l : L}

/-- A thread waits only for locks above those that it holds. -/
def Ordered (rank : L → Nat) (holds waits : ι → L → Prop) : Prop :=
  ∀ t k l, holds t k → waits t l → rank k < rank l

/-- The thread waits for a lock that is taken. -/
def Blocked (holds waits : ι → L → Prop) (t : ι) : Prop := ∃ l, waits t l ∧ ∃ u, holds u l

theorem Ordered.exists_unblocked (h : Ordered rank holds waits) (hbound : ∀ l, rank l ≤ bound)
    (ht : holds t l) : ∃ u k, holds u k ∧ ¬ Blocked holds waits u := by
  induction hgap : bound - rank l using Nat.strongRecOn generalizing t l with
  | _ gap ih =>
    by_cases hblocked : Blocked holds waits t
    · obtain ⟨l', hwaits, u, hu⟩ := hblocked
      have habove := h t l l' ht hwaits
      have hle := hbound l'
      exact ih (bound - rank l') (by omega) hu rfl
    · exact ⟨t, l, ht, hblocked⟩

/-- **No deadlock.**  If every thread at work that is not blocked can go on, and a thread that
    holds a lock is at work, then some thread can go on while any is at work. -/
theorem Ordered.exists_able {busy able : ι → Prop} (h : Ordered rank holds waits)
    (hbound : ∀ l, rank l ≤ bound) (hable : ∀ t, busy t → ¬ Blocked holds waits t → able t)
    (hholds : ∀ t l, holds t l → busy t) (hbusy : busy t) : ∃ u, busy u ∧ able u := by
  by_cases hblocked : Blocked holds waits t
  · obtain ⟨l, _, u, hu⟩ := hblocked
    obtain ⟨v, k, hv, hfree⟩ := h.exists_unblocked hbound hu
    exact ⟨v, hholds v k hv, hable v (hholds v k hv) hfree⟩
  · exact ⟨t, hbusy, hable t hbusy hblocked⟩

/-! ### The books of the locks -/

/-- A thread in the local state `l` holds the locks `held l`. -/
def Owned (held : κ → L → Prop) (owner : L → Option ι) (loc : ι → κ) : Prop :=
  ∀ t l, owner l = some t ↔ held (loc t) l

section Owned

variable {held : κ → L → Prop} {owner owner' : L → Option ι} {loc : ι → κ} {u : ι} {m : κ}

theorem Owned.exclusive (h : Owned held owner loc) (ht : held (loc t) l) (hu : held (loc u) l) :
    t = u :=
  Option.some.inj (((h t l).mpr ht).symm.trans ((h u l).mpr hu))

theorem Owned.free (h : Owned held owner loc) (hl : owner l = none) (t : ι) :
    ¬ held (loc t) l := by
  rw [← h t l, hl]
  exact nofun

variable [DecidableEq ι]

/-- A step of thread `t` that changes only what `t` itself holds. -/
theorem Owned.update (h : Owned held owner loc) (hown : ∀ l, owner' l = some t ↔ held m l)
    (hother : ∀ u, u ≠ t → ∀ l, owner' l = some u ↔ owner l = some u) :
    Owned held owner' (Function.update loc t m) := by
  intro u l
  by_cases hu : u = t
  · subst hu
    simpa using hown l
  · simpa [hu] using (hother u hu l).trans (h u l)

theorem Owned.keep (h : Owned held owner loc) (hheld : ∀ l, held m l ↔ held (loc t) l) :
    Owned held owner (Function.update loc t m) :=
  h.update (fun l => (h t l).trans (hheld l).symm) fun _ _ _ => Iff.rfl

variable [DecidableEq L] {k : L}

theorem Owned.take (h : Owned held owner loc) (hfree : owner k = none)
    (hheld : ∀ l, held m l ↔ l = k ∨ held (loc t) l) :
    Owned held (Function.update owner k (some t)) (Function.update loc t m) := by
  refine h.update (fun l => ?_) fun u hu l => ?_
  · by_cases hl : l = k
    · simp [hl, hheld]
    · simpa [hl, hheld] using h t l
  · by_cases hl : l = k
    · simp [hl, hfree, Ne.symm hu]
    · simp [hl]

theorem Owned.release (h : Owned held owner loc) (hmine : held (loc t) k)
    (hheld : ∀ l, held m l ↔ l ≠ k ∧ held (loc t) l) :
    Owned held (Function.update owner k none) (Function.update loc t m) := by
  have howner : owner k = some t := (h t k).mpr hmine
  refine h.update (fun l => ?_) fun u hu l => ?_
  · by_cases hl : l = k
    · simp [hl, hheld]
    · simpa [hl, hheld] using h t l
  · by_cases hl : l = k
    · simp [hl, howner, Ne.symm hu]
    · simp [hl]

end Owned

end LockOrder
