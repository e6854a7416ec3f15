import Mathlib.Algebra.Order.BigOperators.Group.List
import Mathlib.Algebra.Order.Ring.Nat
import Mathlib.Data.List.Perm.Basic
import Mathlib.Data.List.Nodup
import Mathlib.Logic.Function.Basic

/-!
# Lists split into classes

`join f n` is the concatenation of the classes `f 0, …, f (n - 1)`.  The module relates
it to its classes in both directions: what a change of one class does to the whole, and
how a list is the concatenation of its own classes under an index function.
-/

namespace Partition

variable {α : Type*}

def join (f : Nat → List α) (n : Nat) : List α := (List.range n).flatMap f

variable {f g : Nat → List α} {idx : α → Nat} {p : α → Bool} {ks : List Nat}
variable {xs : List α} {x : α} {i n : Nat}

theorem mem_join : x ∈ join f n ↔ ∃ i < n, x ∈ f i := by
  simp [join, List.mem_flatMap]

theorem join_congr (h : ∀ i < n, f i = g i) : join f n = join g n :=
  List.flatMap_congr fun i hi => h i (List.mem_range.mp hi)

theorem length_join : (join f n).length = ((List.range n).map fun i => (f i).length).sum :=
  List.length_flatMap

theorem length_join_le {k : Nat} (h : ∀ i < n, (f i).length ≤ k) : (join f n).length ≤ n * k := by
  rw [length_join]
  have hsum := List.sum_le_card_nsmul ((List.range n).map fun i => (f i).length) k
    (by simpa using h)
  simpa using hsum

/-- A change of one class leaves what stands before and after it. -/
theorem exists_join_split (f : Nat → List α) (hi : i < n) :
    ∃ pre post, ∀ xs, join (Function.update f i xs) n = pre ++ xs ++ post := by
  obtain ⟨l, r, hlr⟩ := List.append_of_mem (List.mem_range.mpr hi)
  have hnodup : (l ++ i :: r).Nodup := hlr ▸ List.nodup_range
  have hmiddle := List.nodup_middle.mp hnodup
  have hnotMem : i ∉ l ++ r := (List.nodup_cons.mp hmiddle).1
  refine ⟨l.flatMap f, r.flatMap f, ?_⟩
  intro xs
  have hsame : ∀ k ∈ l ++ r, Function.update f i xs k = f k := by
    intro k hk
    have hne : k ≠ i := by
      rintro rfl
      exact hnotMem hk
    exact Function.update_of_ne hne _ _
  rw [join, hlr, List.flatMap_append, List.flatMap_cons, Function.update_self,
    List.flatMap_congr fun k hk => hsame k (List.mem_append_left r hk),
    List.flatMap_congr fun k hk => hsame k (List.mem_append_right l hk), List.append_assoc]

/-- When only class `i` has members that satisfy `p`, filtering finds these and no others. -/
theorem filter_flatMap_of_only (hks : ks.Nodup) (honly : ∀ k ∈ ks, k ≠ i → (f k).filter p = []) :
    (ks.flatMap f).filter p = if i ∈ ks then (f i).filter p else [] := by
  induction ks with
  | nil => rfl
  | cons k ks ih =>
    obtain ⟨hk, hks⟩ := List.nodup_cons.mp hks
    have hrest := ih hks fun j hj => honly j (List.mem_cons_of_mem _ hj)
    rw [List.flatMap_cons, List.filter_append, hrest]
    by_cases hki : k = i
    · subst hki
      simp [hk]
    · rw [honly k List.mem_cons_self hki]
      simp [Ne.symm hki]

/-- A list is the concatenation of its classes, up to order. -/
theorem join_filter_perm (xs : List α) (hlt : ∀ x ∈ xs, idx x < n) :
    (join (fun i => xs.filter fun x => idx x = i) n).Perm xs := by
  induction n generalizing xs with
  | zero =>
    cases xs with
    | nil => rfl
    | cons x xs => exact absurd (hlt x List.mem_cons_self) (Nat.not_lt_zero _)
  | succ n ih =>
    have hbelow := ih (xs.filter fun x => idx x < n) fun x hx => by
      simpa using (List.mem_filter.mp hx).2
    have hclasses : join (fun i => xs.filter fun x => idx x = i) n =
        join (fun i => (xs.filter fun x => idx x < n).filter fun x => idx x = i) n := by
      refine join_congr fun i hi => ?_
      rw [List.filter_filter]
      refine List.filter_congr fun x _ => ?_
      simp only [← Bool.decide_and]
      exact decide_eq_decide.mpr ⟨fun h => ⟨h, h ▸ hi⟩, And.left⟩
    have hlast : (xs.filter fun x => idx x = n) = xs.filter fun x => !decide (idx x < n) := by
      refine List.filter_congr fun x hx => ?_
      have := hlt x hx
      rw [← decide_not]
      exact decide_eq_decide.mpr (by omega)
    rw [join, List.range_succ, List.flatMap_append, List.flatMap_singleton, ← join, hclasses,
      hlast]
    exact (hbelow.append_right _).trans (List.filter_append_perm _ _)

end Partition
