import Mathlib.Data.List.Basic

/-!
# Singly linked chains

A memory of nodes is given by the next pointer of each address: `next a` is `none`
where there is no node, and `some n` for a node whose next pointer is `n`, itself
`none` for a null pointer.  `Chain next h as` says that `as` are the addresses of the
nodes from the pointer `h` on, up to the null pointer.
-/

namespace Linked

variable {A : Type*}

def Chain (next : A → Option (Option A)) : Option A → List A → Prop
  | h, [] => h = none
  | h, a :: as => h = some a ∧ ∃ n, next a = some n ∧ Chain next n as

variable {next next' : A → Option (Option A)} {h : Option A} {a : A} {as bs : List A}

/-- A change of the memory outside the chain. -/
theorem Chain.congr (hc : Chain next h as) (hsame : ∀ a ∈ as, next' a = next a) :
    Chain next' h as := by
  induction as generalizing h with
  | nil => exact hc
  | cons a as ih =>
    rcases hc with ⟨hh, n, hn, hrest⟩
    refine ⟨hh, n, ?_, ih hrest fun b hb => hsame b (List.mem_cons_of_mem _ hb)⟩
    rw [hsame a List.mem_cons_self]
    exact hn

/-- The pointer determines the chain. -/
theorem Chain.unique (ha : Chain next h as) (hb : Chain next h bs) : as = bs := by
  induction as generalizing h bs with
  | nil =>
    cases bs with
    | nil => rfl
    | cons b bs =>
      have hnone : h = none := ha
      rw [hnone] at hb
      cases hb.1
  | cons a as ih =>
    rcases ha with ⟨rfl, n, hn, hrest⟩
    cases bs with
    | nil => cases hb
    | cons b bs =>
      rcases hb with ⟨heq, m, hm, hrest'⟩
      cases heq
      rw [hn] at hm
      cases hm
      rw [ih hrest hrest']

theorem Chain.of_append {l r : List A} (hc : Chain next h (l ++ a :: r)) :
    Chain next (some a) (a :: r) := by
  induction l generalizing h with
  | nil =>
    rcases hc with ⟨rfl, hrest⟩
    exact ⟨rfl, hrest⟩
  | cons b l ih =>
    rcases hc with ⟨_, n, _, hrest⟩
    exact ih hrest

theorem Chain.next_eq {l r : List A} {b : A} (hc : Chain next h (l ++ a :: b :: r)) :
    next a = some (some b) := by
  rcases hc.of_append with ⟨_, n, hn, hrest⟩
  rw [hn, hrest.1]

theorem Chain.next_last {l : List A} (hc : Chain next h (l ++ [a])) : next a = some none := by
  rcases hc.of_append with ⟨_, n, hn, hrest⟩
  have hnull : n = none := hrest
  rw [hn, hnull]

theorem Chain.exists_next (hc : Chain next h as) (ha : a ∈ as) : ∃ n, next a = some n := by
  rcases List.append_of_mem ha with ⟨l, r, rfl⟩
  rcases hc.of_append with ⟨_, n, hn, _⟩
  exact ⟨n, hn⟩

/-- A node that is linked to the last node of a chain. -/
theorem Chain.link {l : List A} {b : A} (hc : Chain next h (l ++ [a]))
    (hsame : ∀ x ∈ l, next' x = next x) (ha : next' a = some (some b)) (hb : next' b = some none) :
    Chain next' h (l ++ [a] ++ [b]) := by
  induction l generalizing h with
  | nil => exact ⟨hc.1, some b, ha, rfl, none, hb, rfl⟩
  | cons x l ih =>
    rcases hc with ⟨hh, n, hn, hrest⟩
    refine ⟨hh, n, ?_, ih hrest fun y hy => hsame y (List.mem_cons_of_mem _ hy)⟩
    rw [hsame x List.mem_cons_self]
    exact hn

/-- A chain that ends does not visit a node twice. -/
theorem Chain.nodup (hc : Chain next h as) : as.Nodup := by
  induction as generalizing h with
  | nil => exact List.nodup_nil
  | cons a as ih =>
    have hself : Chain next (some a) (a :: as) := hc.of_append (l := [])
    rcases hc with ⟨_, n, _, hrest⟩
    refine List.nodup_cons.mpr ⟨fun hmem => ?_, ih hrest⟩
    rcases List.append_of_mem hmem with ⟨l, r, rfl⟩
    -- the chain from `a` would be longer than itself
    have heq := hself.unique hrest.of_append
    have hlen := congrArg List.length heq
    simp only [List.length_cons, List.length_append] at hlen
    omega

/-- Chains that come to a common node end with the same node. -/
theorem Chain.exists_last {l : List A} {b : A} {p : Option A} (hc : Chain next h as)
    (hl : Chain next p (l ++ [b])) (ha : a ∈ as) (hal : a ∈ l ++ [b]) : ∃ l', as = l' ++ [b] := by
  rcases List.append_of_mem ha with ⟨l₁, r₁, rfl⟩
  rcases List.append_of_mem hal with ⟨l₂, r₂, heq⟩
  have hsame : a :: r₁ = a :: r₂ := hc.of_append.unique (heq ▸ hl).of_append
  have hsuffix : a :: r₂ <:+ l ++ [b] := ⟨l₂, heq.symm⟩
  rcases List.suffix_concat_iff.mp hsuffix with hnil | ⟨t, ht, _⟩
  · cases hnil
  · exact ⟨l₁ ++ t, by rw [hsame, ht, List.append_assoc]⟩

end Linked
