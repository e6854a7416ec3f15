import VelocityX.Deque.WorkStealing

/-!
# The work-stealing deque at every position of its indices

`WorkStealingDeque` of `src/deque/work_stealing.rs` with `bottom` and `top` anywhere in the range
of a signed word, in a build whose arithmetic wraps.  Fullness is tested by the difference of the
indices, which wraps with them; emptiness by `top < bottom`, which does not, and by `bottom == 0`.
-/

namespace VelocityX.Deque

open Transition

variable {T : Type*}

namespace WorkStealingDeque

/-- Every operation answers as the bounded sequence and leaves its values, a value that is found
    comes from its slot, and `len` counts. -/
structure Answers (w : Nat) (d : WorkStealingDeque T) (xs : List T) : Prop where
  exec_eq : ∀ op : Op T, (d.exec w op).2 = (sequence d.capacity xs op).2 ∧
    (d.exec w op).1.Spans w (sequence d.capacity xs op).1
  slots : xs ≠ [] →
    (d.pop w).1 = d.buffer[d.index w (Word.signed w (d.bottom - 1))]?.join ∧
      (d.steal w).1 = d.buffer[d.index w d.top]?.join
  len_eq : d.len w = xs.length

/-- The `n` values of the deque end below `isize::MAX + 1`, and not before index 0. -/
def InOrder (w : Nat) (d : WorkStealingDeque T) (n : Nat) : Prop :=
  n = 0 ∨ (d.top + n < (2 ^ (w - 1) : Nat) ∧ d.top + n ≠ 0)

instance (w : Nat) (d : WorkStealingDeque T) (n : Nat) : Decidable (d.InOrder w n) :=
  inferInstanceAs (Decidable (_ ∨ _))

section Spans

variable {w slot requested : Nat} {d d₀ : WorkStealingDeque T} {xs : List T} {x : T}

/-- A value to push exists only where `T` is inhabited, and there the capacity is an `isize`. -/
theorem capacity_fits (hslot : Nonempty T → 0 < slot) (hd : new w slot requested = some d₀)
    (hpos : 0 < d₀.capacity) :
    0 < w ∧ d₀.capacity < 2 ^ w ∧ (Nonempty T → d₀.capacity < 2 ^ (w - 1)) := by
  obtain ⟨heq, hword, hbytes⟩ := withCapacity_eq_some hd hpos
  have hcapacity : d₀.capacity = roundUp requested := by rw [heq]
  rw [hcapacity]
  refine ⟨?_, hword, fun hT => ?_⟩
  · rcases Nat.eq_zero_or_pos w with rfl | hw
    · exact absurd hword (Nat.not_lt_of_le (roundUp_pos requested))
    · exact hw
  · exact Nat.lt_of_le_of_lt (Nat.le_mul_of_pos_right _ (hslot hT)) hbytes

/-! ### What the comparisons judge -/

theorem Spans.top_lt_bottom (h : d.Spans w xs) (hw : 0 < w) (hne : xs ≠ [])
    (hlt : d.top + xs.length < (2 ^ (w - 1) : Nat)) :
    d.bottom = d.top + xs.length ∧ d.top < d.bottom := by
  have hpos : 0 < xs.length := List.length_pos_iff.mpr hne
  have hbottom := h.bottom_of_lt hw hlt
  exact ⟨hbottom, by omega⟩

/-- Where the sign changes between the indices, `bottom` is the smaller one. -/
theorem Spans.bottom_le_top (h : d.Spans w xs) (hw : 0 < w) (hlen : xs.length < 2 ^ (w - 1))
    (hle : (2 ^ (w - 1) : Nat) ≤ d.top + xs.length) : d.bottom ≤ d.top := by
  have htwo : 2 ^ w = 2 ^ (w - 1) * 2 := (Nat.two_pow_pred_mul_two hw).symm
  have hup := Word.signed_upper hw d.top
  rw [h.top_word] at hup
  rw [h.bottom_eq, Word.signed_of_wrap hw hle (by omega)]
  omega

theorem Spans.exec (h : d.Spans w xs) (hfits : d.capacity < 2 ^ w)
    (hcap : Nonempty T → d.capacity < 2 ^ (w - 1))
    (hjudged : xs ≠ [] → d.bottom ≠ 0 ∧ d.top < d.bottom) (op : Op T) :
    (d.exec w op).2 = (sequence d.capacity xs op).2 ∧
      (d.exec w op).1.Spans w (sequence d.capacity xs op).1 := by
  cases op with
  | push value =>
    by_cases hroom : xs.length < d.capacity
    · obtain ⟨d', hpush, hd', _⟩ := h.push_room (hcap ⟨value⟩) hroom value
      rw [WorkStealingDeque.exec, hpush, sequence, if_pos hroom]
      exact ⟨rfl, hd'⟩
    · rw [WorkStealingDeque.exec, h.push_full (hcap ⟨value⟩) hroom, sequence, if_neg hroom]
      exact ⟨rfl, h⟩
  | pop =>
    rcases List.eq_nil_or_concat xs with rfl | ⟨xs, x, rfl⟩
    · rw [WorkStealingDeque.exec, pop_of_eq h.bottom_nil]
      exact ⟨rfl, h⟩
    · rw [List.concat_eq_append] at h hjudged ⊢
      obtain ⟨hne, hlt⟩ := hjudged (by simp)
      obtain ⟨d', hpop, hd', _⟩ := h.pop_concat hfits hne hlt
      rw [WorkStealingDeque.exec, hpop, sequence, List.getLast?_concat, List.dropLast_concat]
      exact ⟨rfl, hd'⟩
  | steal =>
    cases xs with
    | nil =>
      rw [WorkStealingDeque.exec, steal_of_le (Int.le_of_eq h.bottom_nil)]
      exact ⟨rfl, h⟩
    | cons x xs =>
      obtain ⟨d', hsteal, hd', _⟩ := h.steal_cons hfits (hjudged (by simp)).2
      rw [WorkStealingDeque.exec, hsteal]
      exact ⟨rfl, hd'⟩

theorem Spans.answers (h : d.Spans w xs) (hw : 0 < w) (hfits : d.capacity < 2 ^ w)
    (hcap : Nonempty T → d.capacity < 2 ^ (w - 1)) (hin : d.InOrder w xs.length) :
    d.Answers w xs := by
  have hjudged : xs ≠ [] → d.bottom ≠ 0 ∧ d.top < d.bottom := by
    intro hne
    rcases hin with hzero | ⟨hlt, hpass⟩
    · exact absurd (List.length_eq_zero_iff.mp hzero) hne
    · obtain ⟨hbottom, hbelow⟩ := h.top_lt_bottom hw hne hlt
      rw [hbottom]
      exact ⟨hpass, hbottom ▸ hbelow⟩
  constructor
  · exact h.exec hfits hcap hjudged
  · intro hne
    obtain ⟨hnonzero, hlt⟩ := hjudged hne
    constructor
    · rw [pop_found hnonzero hlt rfl]
    · obtain ⟨x, xs, rfl⟩ := List.exists_cons_of_ne_nil hne
      rw [steal_found hlt rfl (h.first_slot hfits), h.first_slot hfits]
  · exact h.len_eq (h.length_lt hcap)

theorem Spans.inOrder (h : d.Spans w xs) (hw : 0 < w)
    (hcap : Nonempty T → d.capacity < 2 ^ (w - 1)) (ha : d.Answers w xs) :
    d.InOrder w xs.length := by
  by_cases hempty : xs = []
  · exact Or.inl (List.length_eq_zero_iff.mpr hempty)
  · refine Or.inr ⟨?_, ?_⟩
    · by_contra hge
      have hle := h.bottom_le_top hw (h.length_lt hcap) (Int.not_lt.mp hge)
      have hret := (ha.exec_eq .steal).1
      rw [WorkStealingDeque.exec, steal_of_le hle] at hret
      exact hempty (List.head?_eq_none_iff.mp (Ret.taken.inj hret).symm)
    · intro hzero
      have hbottom : d.bottom = 0 := by
        rw [h.bottom_eq, hzero]
        exact Int.zero_bmod
      have hnone : d.pop w = (none, d) := by
        rw [pop]
        exact if_pos hbottom
      have hret := (ha.exec_eq .pop).1
      rw [WorkStealingDeque.exec, hnone] at hret
      exact hempty (List.getLast?_eq_none_iff.mp (Ret.taken.inj hret).symm)

/-- **Wrap-around.**  At every position of its indices, a deque answers as the bounded sequence
    exactly when it is empty or its values end below `isize::MAX + 1` and not before index 0. -/
theorem answers_iff_inOrder (hslot : Nonempty T → 0 < slot) (hd : new w slot requested = some d₀)
    (hcapacity : d.capacity = d₀.capacity) (h : d.Spans w xs) :
    d.Answers w xs ↔ d.InOrder w xs.length := by
  obtain ⟨k, hk⟩ := h.power
  obtain ⟨hw, hfits, hcap⟩ := capacity_fits hslot hd (by
    rw [← hcapacity, hk]
    exact Nat.two_pow_pos k)
  rw [← hcapacity] at hfits hcap
  exact ⟨h.inOrder hw hcap, h.answers hw hfits hcap⟩

/-- One value at index -3. -/
theorem answers_iff_inOrder_negative :
    (⟨[none, some 7], 2, 1, -2, -3⟩ : WorkStealingDeque Nat).Answers 64 [7] := by
  have hd : new 64 16 2 = some (⟨[none, none], 2, 1, 0, 0⟩ : WorkStealingDeque Nat) := by decide
  have h : (⟨[none, some 7], 2, 1, -2, -3⟩ : WorkStealingDeque Nat).Spans 64 [7] :=
    ⟨⟨1, rfl⟩, rfl, by decide, by decide, rfl, by decide, by decide⟩
  exact (answers_iff_inOrder (d := ⟨[none, some 7], 2, 1, -2, -3⟩) (fun _ => by decide) hd rfl
    h).mpr (by decide)

/-! ### A turn of the indices -/

/-- `k` values are pushed, each stolen before the next one. -/
def turns (value : T) (k : Nat) : List (Op T) := (List.replicate k [.push value, .steal]).flatten

theorem Spans.run_turn (h : d.Spans w []) (hw : 0 < w) (hpos : 0 < d.capacity)
    (hcap : d.capacity < 2 ^ (w - 1)) (hlt : d.top + 1 < (2 ^ (w - 1) : Nat)) (value : T) :
    ∃ d', run (step w) d [.push value, .steal] = some d' ∧ d'.Spans w [] ∧
      d'.top = d.top + 1 ∧ d'.capacity = d.capacity := by
  have hfits := Word.lt_of_lt_half hcap
  obtain ⟨d₁, hpush, h₁, htop₁, hcap₁⟩ := h.push_room hcap hpos value
  have hlow := Word.signed_lower hw d.top
  rw [h.top_word] at hlow
  have hone : d₁.top + ([value] : List T).length < (2 ^ (w - 1) : Nat) := by
    rw [htop₁, List.length_singleton]
    exact hlt
  have hbelow := (h₁.top_lt_bottom hw (by simp) hone).2
  obtain ⟨d', hsteal, h', htop', hcap'⟩ := h₁.steal_cons (hcap₁ ▸ hfits) hbelow
  refine ⟨d', ?_, h', ?_, hcap'.trans hcap₁⟩
  · rw [run_cons, step, WorkStealingDeque.exec, hpush, Option.bind_some, run_cons,
      step, WorkStealingDeque.exec, hsteal]
    rfl
  · rw [htop', htop₁]
    exact Word.signed_of_range hw (by omega) hlt

theorem Spans.run_turns (h : d.Spans w []) (hw : 0 < w) (hpos : 0 < d.capacity)
    (hcap : d.capacity < 2 ^ (w - 1)) (value : T) (k : Nat)
    (hlt : d.top + k < (2 ^ (w - 1) : Nat)) :
    ∃ d', run (step w) d (turns value k) = some d' ∧ d'.Spans w [] ∧ d'.top = d.top + k ∧
      d'.capacity = d.capacity := by
  apply run_rounds (P := fun k (d' : WorkStealingDeque T) =>
    d'.Spans w [] ∧ d'.top = d.top + k ∧ d'.capacity = d.capacity)
  · rintro j d₁ hj ⟨h₁, htop₁, hcap₁⟩
    obtain ⟨d', hrun, h', htop', hcap'⟩ :=
      h₁.run_turn hw (hcap₁ ▸ hpos) (hcap₁ ▸ hcap) (by omega) value
    exact ⟨d', hrun, h', by omega, hcap'.trans hcap₁⟩
  · exact ⟨h, (Int.add_zero _).symm, rfl⟩

/-- With `top` at `isize::MAX` the one value of the deque is not found. -/
theorem turn_hides :
    ¬ ∀ d₀ : WorkStealingDeque Nat, new 64 16 2 = some d₀ →
      ∀ (ops : List (Op Nat)) (d : WorkStealingDeque Nat) (xs : List Nat),
        run (step 64) d₀ ops = some d → d.Spans 64 xs → d.Answers 64 xs := by
  intro hall
  have hd : new 64 16 2 = some (⟨[none, none], 2, 1, 0, 0⟩ : WorkStealingDeque Nat) := by decide
  have h₀ : (⟨[none, none], 2, 1, 0, 0⟩ : WorkStealingDeque Nat).Spans 64 [] :=
    ⟨⟨1, rfl⟩, rfl, by decide, by decide, Ring.holds_replicate 2 0⟩
  obtain ⟨d, hrun, h, htop, hcap⟩ :=
    h₀.run_turns (by decide) (by decide) (by decide) 0 (2 ^ 63 - 1) (by decide)
  have hcapacity : d.capacity = 2 := hcap
  obtain ⟨d', hpush, h', htop', hcap'⟩ := h.push_room (by rw [hcapacity]; decide)
    (by rw [hcapacity]; decide) 1
  have hlast : run (step 64) ⟨[none, none], 2, 1, 0, 0⟩ (turns 0 (2 ^ 63 - 1) ++ [.push 1]) =
      some d' := by
    rw [run_append, hrun, Option.bind_some, run_cons, step, WorkStealingDeque.exec, hpush]
    rfl
  have hin := h'.inOrder (by decide) (fun _ => by rw [hcap', hcapacity]; decide)
    (hall _ hd _ _ _ hlast h')
  rw [InOrder, htop', htop] at hin
  exact absurd hin (by decide)

end Spans

end WorkStealingDeque

end VelocityX.Deque
