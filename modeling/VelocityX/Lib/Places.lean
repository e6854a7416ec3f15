import Mathlib.Data.List.Basic
import Mathlib.Data.List.Nodup

/-!
# Items in places

A system that moves items around and never copies one: each place has room for one item,
`content p` is the item in place `p`, and an item is in at most one place.  The rules say
which changes of the content keep it so.

Items may get lost: what a move overwrites is gone.
-/

namespace Places

variable {P A : Type*} {content content' : P → Option A} {src dst : P} {x : A}

def Unique (content : P → Option A) : Prop :=
  ∀ p q x, content p = some x → content q = some x → p = q

/-- Items get lost. -/
theorem Unique.mono (h : Unique content) (hsub : ∀ p y, content' p = some y → content p = some y) :
    Unique content' :=
  fun p q y hp hq => h p q y (hsub p y hp) (hsub q y hq)

/-- The item `x` arrives at `dst`, and it is nowhere else. -/
theorem Unique.arrive (h : Unique content) (hdst : ∀ y, content' dst = some y → y = x)
    (hrest : ∀ p y, p ≠ dst → content' p = some y → content p = some y ∧ y ≠ x) :
    Unique content' := by
  intro p q y hp hq
  by_cases hpd : p = dst
  · by_cases hqd : q = dst
    · rw [hpd, hqd]
    · subst hpd
      exact absurd (hdst y hp) (hrest q y hqd hq).2
  · by_cases hqd : q = dst
    · subst hqd
      exact absurd (hdst y hq) (hrest p y hpd hp).2
    · exact h p q y (hrest p y hpd hp).1 (hrest q y hqd hq).1

/-- The item of `src` moves to `dst`. -/
theorem Unique.move (h : Unique content) (hx : content src = some x)
    (hgone : content' src = some x → src = dst) (hdst : ∀ y, content' dst = some y → y = x)
    (hrest : ∀ p y, p ≠ dst → content' p = some y → content p = some y) : Unique content' := by
  refine h.arrive hdst fun p y hp hy => ⟨hrest p y hp hy, ?_⟩
  rintro rfl
  have hsrc : p = src := h p src y (hrest p y hp hy) hx
  subst hsrc
  exact hp (hgone hy)

/-- The places of a list are its positions. -/
theorem nodup_of_unique {xs : List A} (h : Unique fun k : Nat => xs[k]?) : xs.Nodup := by
  rw [List.nodup_iff_injective_get]
  intro i j hij
  refine Fin.ext (h i j (xs.get i) ?_ ?_)
  · simp
  · rw [hij]
    simp

/-! ### Slots and lists -/

theorem join_set_none {slots : List (Option A)} {i k : Nat}
    (h : (slots.set i none)[k]?.join = some x) : k ≠ i ∧ slots[k]?.join = some x := by
  rw [List.getElem?_set] at h
  split at h
  · split at h <;> cases h
  · next hne => exact ⟨Ne.symm hne, h⟩

theorem join_set_some {slots : List (Option A)} {i k : Nat} {y : A}
    (h : (slots.set i (some y))[k]?.join = some x) :
    k = i ∧ x = y ∨ k ≠ i ∧ slots[k]?.join = some x := by
  rw [List.getElem?_set] at h
  split at h
  · next heq =>
    split at h
    · exact .inl ⟨heq.symm, (Option.some.inj h).symm⟩
    · cases h
  · next hne => exact .inr ⟨Ne.symm hne, h⟩

theorem getElem?_append_toList {xs : List A} {o : Option A} {k : Nat}
    (h : (xs ++ o.toList)[k]? = some x) :
    xs[k]? = some x ∨ k = xs.length ∧ o = some x := by
  rw [List.getElem?_append] at h
  split at h
  · exact .inl h
  · next hle =>
    cases o with
    | none => cases h
    | some y =>
      rw [Option.toList_some, List.getElem?_singleton] at h
      split at h
      · next hzero => exact .inr ⟨by omega, h⟩
      · cases h

end Places
