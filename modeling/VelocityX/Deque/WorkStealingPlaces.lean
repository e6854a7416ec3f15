import VelocityX.Lib.Places
import VelocityX.Deque.WorkStealingSpan

/-!
# Where the tasks of the work-stealing deque are

A task is in a slot of the buffer, with a thread that is working on it, or returned.  In
every run, disputed or not, a task is in one place only and only accepted tasks are
returned: a dispute can lose a task, and that is all it can do.

The task of a push that has not stored `bottom` is not accepted.  A thief with an outdated
`top` can empty its slot, but its `compare_exchange` fails.
-/

namespace VelocityX.Deque.Threads

open Transition

variable {ι T : Type*} {w cap h n : Nat}

inductive Place (ι : Type*) where
  | slot (i : Nat)
  | thread (t : Option ι)
  | returned (k : Nat)

/-- The task that a call has and the deque has not. -/
def Pc.carried : Pc T → Option (Task T)
  | .push task .loadBottom => some task
  | .push task (.loadTop _) => some task
  | .push task (.storeSlot _) => some task
  | .pop (.exchangeTop _ _ value) => value
  | .pop (.restoreBottom _ value) => value
  | .steal (.exchangeTop _ value) => some value
  | .steal (.putBack _ value) => some value
  | _ => none

def content (s : State ι T) : Place ι → Option (Task T)
  | .slot i => s.shared.buffer[i]?.join
  | .thread t => (s.loc t).carried
  | .returned k => s.shared.returned[k]?

/-- No task is in two places, none is returned twice, and only accepted tasks are returned. -/
structure TakenOnce (s : State ι T) : Prop where
  unique : Places.Unique (content s)
  returned_once : (s.shared.returned.map Task.ticket).Nodup
  genuine : ∀ a ∈ s.shared.returned, a ∈ s.shared.accepted

/-- The task of the push in progress, in a place that it has got to. -/
def Offered (cap : Nat) (s : State ι T) (x : Task T) : Place ι → Prop
  | .slot k => (s.loc none).staged = [x] ∧ k = s.shared.bottom.toNat % cap
  | .thread none => ∃ pc, s.loc none = .push x pc
  | .thread (some i) => (s.loc none).staged = [x] ∧ ∃ m : Nat, (s.loc (some i)).chosen = some m ∧
      (m : Int) < s.shared.top ∧ m % cap = s.shared.bottom.toNat % cap
  | .returned _ => False

structure Owned (cap : Nat) (s : State ι T) : Prop where
  unique : Places.Unique (content s)
  issued : ∀ p x, content s p = some x → x.ticket < s.shared.pushes
  genuine : ∀ p x, content s p = some x → x ∈ s.shared.accepted ∨ Offered cap s x p
  nodup : (s.shared.accepted.map Task.ticket).Nodup
  accepted : ∀ a ∈ s.shared.accepted, a.ticket < s.shared.pushes
  current : ∀ task pc, s.loc none = .push task pc →
    task.ticket < s.shared.pushes ∧ ∀ a ∈ s.shared.accepted, a.ticket ≠ task.ticket

theorem Owned.takenOnce {s : State ι T} (ho : Owned cap s) : TakenOnce s := by
  have hgenuine : ∀ a ∈ s.shared.returned, a ∈ s.shared.accepted := by
    intro a ha
    obtain ⟨k, hk⟩ := List.getElem?_of_mem ha
    exact (ho.genuine (.returned k) a hk).resolve_right id
  refine ⟨ho.unique, ?_, hgenuine⟩
  have hnodup : s.shared.returned.Nodup := by
    refine Places.nodup_of_unique fun k j x hk hj => ?_
    cases ho.unique (.returned k) (.returned j) x hk hj
    rfl
  refine hnodup.map_on fun a ha b hb heq => ?_
  exact List.inj_on_of_nodup_map ho.nodup (hgenuine a ha) (hgenuine b hb) heq

theorem owned_init (cap : Nat) (d : WorkStealingDeque T) : Owned cap (init d : State ι T) := by
  have hempty : ∀ p x, content (init d : State ι T) p ≠ some x := by
    intro p x hp
    cases p with
    | slot i =>
      simp only [content, init, Shared.new, List.getElem?_replicate] at hp
      split at hp <;> cases hp
    | thread t => cases hp
    | returned k => cases hp
  exact ⟨fun p _ x hp => absurd hp (hempty p x), fun p x hp => absurd hp (hempty p x),
    fun p x hp => absurd hp (hempty p x), List.nodup_nil, (by rintro _ ⟨⟩), (by rintro _ _ ⟨⟩)⟩

/-! ### What a step may do -/

section Moves

variable {s s' : State ι T} {x : Task T} {p : Place ι}

theorem not_offered (hpush : ∀ task pc, s.loc none ≠ .push task pc) : ¬ Offered cap s x p := by
  have hstaged : (s.loc none).staged = [] := by
    cases hl : s.loc none with
    | push task pc => exact absurd hl (hpush task pc)
    | _ => rfl
  intro h
  cases p with
  | slot k =>
    rw [Offered, hstaged] at h
    cases h.1
  | thread t =>
    cases t with
    | none =>
      obtain ⟨pc, hpc⟩ := h
      exact hpush x pc hpc
    | some i =>
      rw [Offered, hstaged] at h
      cases h.1
  | returned k => exact h

/-- A step that accepts nothing, and whose tasks were all somewhere before. -/
theorem Owned.keep (ho : Owned cap s) (haccepted : s'.shared.accepted = s.shared.accepted)
    (hpushes : s'.shared.pushes = s.shared.pushes)
    (hcurrent : ∀ task pc, s'.loc none = .push task pc → ∃ pc', s.loc none = .push task pc')
    (hunique : Places.Unique (content s'))
    (hsource : ∀ p x, content s' p = some x → ∃ q, content s q = some x)
    (hgenuine : ∀ p x, content s' p = some x → x ∈ s.shared.accepted ∨ Offered cap s' x p) :
    Owned cap s' := by
  refine ⟨hunique, fun p x hp => ?_, fun p x hp => ?_, ?_, ?_, fun task pc hl => ?_⟩
  · obtain ⟨q, hq⟩ := hsource p x hp
    rw [hpushes]
    exact ho.issued q x hq
  · rw [haccepted]
    exact hgenuine p x hp
  · rw [haccepted]
    exact ho.nodup
  · rw [haccepted, hpushes]
    exact ho.accepted
  · obtain ⟨pc', hl'⟩ := hcurrent task pc hl
    rw [haccepted, hpushes]
    exact ho.current task pc' hl'

/-- A step that may lose tasks. -/
theorem Owned.lose (ho : Owned cap s) (haccepted : s'.shared.accepted = s.shared.accepted)
    (hpushes : s'.shared.pushes = s.shared.pushes)
    (hcurrent : ∀ task pc, s'.loc none = .push task pc → ∃ pc', s.loc none = .push task pc')
    (hsub : ∀ p x, content s' p = some x → content s p = some x)
    (hkeep : ∀ p x, content s' p = some x → Offered cap s x p → Offered cap s' x p) :
    Owned cap s' :=
  ho.keep haccepted hpushes hcurrent (ho.unique.mono hsub) (fun p x hp => ⟨p, hsub p x hp⟩)
    fun p x hp => (ho.genuine p x (hsub p x hp)).imp_right (hkeep p x hp)

/-- A step that moves the task `x` from `src` to `dst`. -/
theorem Owned.move (src dst : Place ι) (ho : Owned cap s)
    (haccepted : s'.shared.accepted = s.shared.accepted)
    (hpushes : s'.shared.pushes = s.shared.pushes)
    (hcurrent : ∀ task pc, s'.loc none = .push task pc → ∃ pc', s.loc none = .push task pc')
    (hx : content s src = some x) (hgone : content s' src = some x → src = dst)
    (hdst : ∀ y, content s' dst = some y → y = x)
    (hrest : ∀ p y, p ≠ dst → content s' p = some y → content s p = some y)
    (hnew : Offered cap s x src → x ∈ s.shared.accepted ∨ Offered cap s' x dst)
    (hkeep : ∀ p y, p ≠ dst → content s' p = some y → Offered cap s y p → Offered cap s' y p) :
    Owned cap s' := by
  refine ho.keep haccepted hpushes hcurrent (ho.unique.move hx hgone hdst hrest)
    (fun p y hp => ?_) (fun p y hp => ?_)
  · by_cases hpd : p = dst
    · subst hpd
      exact ⟨src, hdst y hp ▸ hx⟩
    · exact ⟨p, hrest p y hpd hp⟩
  · by_cases hpd : p = dst
    · subst hpd
      rw [hdst y hp]
      exact (ho.genuine src x hx).elim .inl hnew
    · exact (ho.genuine p y (hrest p y hpd hp)).imp_right (hkeep p y hpd hp)

end Moves

section Steps

variable [DecidableEq ι] {s s' : State ι T} {sh : Shared T} {t : Option ι} {i : ι} {l : Pc T}
variable {x task : Task T} {p : Place ι} {k : Nat}

@[simp] theorem content_slot :
    content (⟨sh, Function.update s.loc t l⟩ : State ι T) (.slot k) = sh.buffer[k]?.join := rfl

@[simp] theorem content_returned :
    content (⟨sh, Function.update s.loc t l⟩ : State ι T) (.returned k) = sh.returned[k]? := rfl

@[simp] theorem content_thread_self :
    content (⟨sh, Function.update s.loc t l⟩ : State ι T) (.thread t) = l.carried := by
  simp [content]

theorem content_thread_ne {u : Option ι} (hu : u ≠ t) :
    content (⟨sh, Function.update s.loc t l⟩ : State ι T) (.thread u) = content s (.thread u) := by
  simp [content, hu]

theorem content_sub_of_ne (hbuffer : sh.buffer = s.shared.buffer)
    (hreturned : sh.returned = s.shared.returned) (hne : p ≠ .thread t)
    (hp : content (⟨sh, Function.update s.loc t l⟩ : State ι T) p = some x) :
    content s p = some x := by
  cases p with
  | slot k => simpa [content, hbuffer] using hp
  | returned k => simpa [content, hreturned] using hp
  | thread u => rwa [content_thread_ne fun hu => hne (by rw [hu])] at hp

/-- What is where it was before a step that does not write the slots and returns nothing. -/
theorem content_sub (hbuffer : sh.buffer = s.shared.buffer)
    (hreturned : sh.returned = s.shared.returned)
    (hl : l.carried = none ∨ l.carried = (s.loc t).carried) (p : Place ι) (x : Task T)
    (hp : content (⟨sh, Function.update s.loc t l⟩ : State ι T) p = some x) :
    content s p = some x := by
  by_cases hne : p = .thread t
  · subst hne
    rw [content_thread_self] at hp
    rcases hl with hnone | hsame
    · rw [hnone] at hp
      cases hp
    · rw [hsame] at hp
      exact hp
  · exact content_sub_of_ne hbuffer hreturned hne hp

/-- The offer of the owner stands while a thief takes a step. -/
theorem Offered.thief (h : Offered cap s x p) (hbottom : sh.bottom = s.shared.bottom)
    (htop : s.shared.top ≤ sh.top)
    (hl : p = .thread (some i) → l.chosen = (s.loc (some i)).chosen) :
    Offered cap (⟨sh, Function.update s.loc (some i) l⟩ : State ι T) x p := by
  have howner : Function.update s.loc (some i) l none = s.loc none :=
    Function.update_of_ne (Option.some_ne_none i).symm _ _
  cases p with
  | slot k => simpa [Offered, howner, hbottom] using h
  | returned k => exact h
  | thread u =>
    cases u with
    | none => simpa [Offered, howner] using h
    | some j =>
      obtain ⟨hstaged, m, hchosen, hlt, hslot⟩ := h
      refine ⟨by simpa [howner] using hstaged, m, ?_, Int.lt_of_lt_of_le hlt htop, ?_⟩
      · by_cases hj : j = i
        · subst hj
          simpa [hl rfl] using hchosen
        · simpa [hj] using hchosen
      · simpa [hbottom] using hslot

/-- A thread takes a task out of a slot. -/
theorem Owned.take (ho : Owned cap s) (hbuffer : sh.buffer = s.shared.buffer.set k none)
    (hreturned : sh.returned = s.shared.returned) (haccepted : sh.accepted = s.shared.accepted)
    (hpushes : sh.pushes = s.shared.pushes)
    (hcurrent : ∀ task pc, Function.update s.loc t l none = .push task pc →
      ∃ pc', s.loc none = .push task pc')
    (hx : s.shared.buffer[k]?.join = some x) (hl : l.carried = some x)
    (hnew : Offered cap s x (.slot k) → x ∈ s.shared.accepted ∨
      Offered cap (⟨sh, Function.update s.loc t l⟩ : State ι T) x (.thread t))
    (hkeep : ∀ p y, p ≠ .thread t → Offered cap s y p →
      Offered cap (⟨sh, Function.update s.loc t l⟩ : State ι T) y p) :
    Owned cap (⟨sh, Function.update s.loc t l⟩ : State ι T) := by
  refine ho.move (.slot k) (.thread t) haccepted hpushes hcurrent hx (fun hgone => ?_)
    (fun y hy => ?_) (fun p y hp hy => ?_) hnew fun p y hp _ => hkeep p y hp
  · rw [content_slot, hbuffer] at hgone
    exact absurd rfl (Places.join_set_none hgone).1
  · rw [content_thread_self, hl] at hy
    exact (Option.some.inj hy).symm
  · cases p with
    | slot j =>
      rw [content_slot, hbuffer] at hy
      exact (Places.join_set_none hy).2
    | returned j => rwa [content_returned, hreturned] at hy
    | thread u => rwa [content_thread_ne fun hu => hp (by rw [hu])] at hy

/-- A thread returns the task that it has. -/
theorem Owned.handOver (ho : Owned cap s) (hbuffer : sh.buffer = s.shared.buffer)
    (hreturned : sh.returned = s.shared.returned ++ [x])
    (haccepted : sh.accepted = s.shared.accepted) (hpushes : sh.pushes = s.shared.pushes)
    (hcurrent : ∀ task pc, Function.update s.loc t l none = .push task pc →
      ∃ pc', s.loc none = .push task pc')
    (hx : (s.loc t).carried = some x) (hl : l.carried = none)
    (hnew : ¬ Offered cap s x (.thread t))
    (hkeep : ∀ p y, p ≠ .thread t → Offered cap s y p →
      Offered cap (⟨sh, Function.update s.loc t l⟩ : State ι T) y p) :
    Owned cap (⟨sh, Function.update s.loc t l⟩ : State ι T) := by
  refine ho.move (.thread t) (.returned s.shared.returned.length) haccepted hpushes
    hcurrent hx (fun hgone => ?_) (fun y hy => ?_) (fun p y hp hy => ?_)
    (fun hoffered => absurd hoffered hnew) fun p y hp hy => hkeep p y fun heq => ?_
  · rw [content_thread_self, hl] at hgone
    cases hgone
  · rw [content_returned, hreturned, List.getElem?_concat_length] at hy
    exact (Option.some.inj hy).symm
  · cases p with
    | slot j => rwa [content_slot, hbuffer] at hy
    | returned j =>
      rw [content_returned, hreturned] at hy
      rcases Places.getElem?_append_toList (o := some x) hy with hold | ⟨rfl, _⟩
      · exact hold
      · exact absurd rfl hp
    | thread u =>
      by_cases hu : u = t
      · subst hu
        rw [content_thread_self, hl] at hy
        cases hy
      · rwa [content_thread_ne hu] at hy
  · rw [heq, content_thread_self, hl] at hy
    cases hy

omit [DecidableEq ι] in
theorem Offered.unstaged (h : Offered cap s x p) (hstaged : (s.loc none).staged = []) :
    p = .thread none := by
  cases p with
  | slot k =>
    rw [Offered, hstaged] at h
    cases h.1
  | thread t =>
    cases t with
    | none => rfl
    | some i =>
      rw [Offered, hstaged] at h
      cases h.1
  | returned k => exact h.elim

/-! ### The steps of the owner -/

theorem Owned.callPush (ho : Owned cap s) (hl : s.loc none = .idle) (value : T) :
    Owned cap (⟨{ s.shared with pushes := s.shared.pushes + 1 },
      Function.update s.loc none (.push ⟨s.shared.pushes, value⟩ .loadBottom)⟩ : State ι T) := by
  have hself : ∀ y, content (⟨{ s.shared with pushes := s.shared.pushes + 1 },
      Function.update s.loc none (.push ⟨s.shared.pushes, value⟩ .loadBottom)⟩ : State ι T)
        (.thread none) = some y → y = ⟨s.shared.pushes, value⟩ := by
    intro y hy
    simpa [Pc.carried, eq_comm] using hy
  refine ⟨ho.unique.arrive hself fun p y hp hy => ⟨content_sub_of_ne rfl rfl hp hy, ?_⟩,
    fun p y hy => ?_, fun p y hy => ?_, ho.nodup, fun a ha => Nat.lt_succ_of_lt (ho.accepted a ha),
    fun task pc hpush => ?_⟩
  · rintro rfl
    exact Nat.lt_irrefl _ (ho.issued p _ (content_sub_of_ne rfl rfl hp hy))
  · by_cases hp : p = .thread none
    · subst hp
      rw [hself y hy]
      exact Nat.lt_succ_self _
    · exact Nat.lt_succ_of_lt (ho.issued p y (content_sub_of_ne rfl rfl hp hy))
  · by_cases hp : p = .thread none
    · subst hp
      rw [hself y hy]
      exact .inr ⟨.loadBottom, by simp⟩
    · have hold := content_sub_of_ne rfl rfl hp hy
      refine .inl ((ho.genuine p y hold).resolve_right fun hoffered => ?_)
      exact not_offered (fun task pc hpush => by rw [hl] at hpush; cases hpush) hoffered
  · simp only [Function.update_self, Pc.push.injEq] at hpush
    rw [← hpush.1]
    exact ⟨Nat.lt_succ_self _, fun a ha => Nat.ne_of_lt (ho.accepted a ha)⟩

theorem Owned.push {pc : PushPc} (ho : Owned cap s) (hs : Span w cap h n s)
    (hl : s.loc none = .push task pc) :
    Owned cap (⟨(pushStep w task s.shared pc).1,
      Function.update s.loc none (.after (.push task) (pushStep w task s.shared pc).2)⟩ :
        State ι T) := by
  -- before its store the push has its task in hand
  have hload : ∀ pc', (s.loc none).staged = [] →
      (Pc.push task pc').carried = (s.loc none).carried →
      Owned cap (⟨s.shared, Function.update s.loc none (.push task pc')⟩ : State ι T) := by
    intro pc' hstaged hcarried
    refine ho.lose rfl rfl (fun task' pc'' hpush => ?_) (content_sub rfl rfl (.inr hcarried))
      fun p x hp hoffered => ?_
    · simp only [Function.update_self, Pc.push.injEq] at hpush
      exact ⟨pc, hpush.1 ▸ hl⟩
    · obtain rfl := hoffered.unstaged hstaged
      obtain ⟨pc'', hpush⟩ := hoffered
      rw [hl] at hpush
      cases hpush
      exact ⟨pc', by simp⟩
  cases pc with
  | loadBottom => exact hload _ (by rw [hl]; rfl) (by rw [hl]; rfl)
  | loadTop b =>
    simp only [pushStep]
    split
    · refine ho.lose rfl rfl (fun task' pc' hpush => ?_) (content_sub rfl rfl (.inl rfl))
        fun p x hp hoffered => ?_
      · simp [Pc.after] at hpush
      · obtain rfl := hoffered.unstaged (by rw [hl]; rfl)
        simp [Pc.after, Pc.carried] at hp
    · exact hload _ (by rw [hl]; rfl) (by rw [hl]; rfl)
  | storeSlot b =>
    have hI := hs.indices
    have hindex : s.shared.index w b = s.shared.bottom.toNat % cap := by
      have hb : b = (h + n : Nat) := by
        rw [hl] at hI
        exact hI.loaded b rfl
      have hbottom : s.shared.bottom = (h + n : Nat) := by
        have hbottom := hI.bottom_eq
        simpa [hl, Pc.lowered] using hbottom
      rw [hb, hbottom, Int.toNat_natCast]
      exact hs.fixed.index_eq _ hI.lt
    refine ho.move (.thread none) (.slot (s.shared.index w b)) (x := task) rfl rfl
      (fun task' pc' hpush => ?_) (by rw [content, hl]; rfl) (fun hgone => ?_) (fun y hy => ?_)
      (fun p y hp hy => ?_) (fun _ => .inr ⟨?_, hindex⟩) (fun p y hp hy hoffered => ?_)
    · simp only [pushStep, Pc.after, Function.update_self, Pc.push.injEq] at hpush
      exact ⟨_, hpush.1 ▸ hl⟩
    · simp [pushStep, Pc.after, Pc.carried] at hgone
    · rw [content_slot] at hy
      rcases Places.join_set_some hy with ⟨_, rfl⟩ | ⟨hne, _⟩
      · rfl
      · exact absurd rfl hne
    · cases p with
      | slot k =>
        rcases Places.join_set_some (show _ = some y from hy) with ⟨rfl, _⟩ | ⟨_, hold⟩
        · exact absurd rfl hp
        · exact hold
      | returned k => exact hy
      | thread u =>
        by_cases hu : u = none
        · subst hu
          simp [pushStep, Pc.after, Pc.carried] at hy
        · rwa [content_thread_ne hu] at hy
    · simp [pushStep, Pc.after, Pc.staged]
    · obtain rfl := hoffered.unstaged (by rw [hl]; rfl)
      simp [pushStep, Pc.after, Pc.carried] at hy
  | storeBottom b =>
    have hsub : ∀ p x, content (⟨(pushStep w task s.shared (.storeBottom b)).1,
        Function.update s.loc none .idle⟩ : State ι T) p = some x → content s p = some x :=
      content_sub rfl rfl (.inl rfl)
    obtain ⟨hticket, hnew⟩ := ho.current task _ hl
    refine ⟨ho.unique.mono hsub, fun p x hp => ho.issued p x (hsub p x hp), fun p x hp => ?_, ?_,
      fun a ha => ?_, fun task' pc' hpush => ?_⟩
    · refine .inl (List.mem_append.mpr ?_)
      refine (ho.genuine p x (hsub p x hp)).imp_right fun hoffered => ?_
      have hstaged : (s.loc none).staged = [task] := by
        rw [hl]
        rfl
      cases p with
      | slot k =>
        have heq := hoffered.1
        rw [hstaged] at heq
        exact heq ▸ List.mem_cons_self
      | thread u =>
        cases u with
        | none => simp [Pc.carried, Pc.after, pushStep] at hp
        | some i =>
          have heq := hoffered.1
          rw [hstaged] at heq
          exact heq ▸ List.mem_cons_self
      | returned k => exact hoffered.elim
    · simp only [pushStep, List.map_append, List.map_cons, List.map_nil]
      refine List.Nodup.append ho.nodup (List.nodup_singleton _) fun m hm hmem => ?_
      obtain ⟨a, ha, rfl⟩ := List.mem_map.mp hm
      exact hnew a ha (List.mem_singleton.mp hmem)
    · rcases List.mem_append.mp ha with hold | hlast
      · exact ho.accepted a hold
      · rw [List.mem_singleton.mp hlast]
        exact hticket
    · simp [pushStep, Pc.after] at hpush

theorem Owned.pop {pc : PopPc T} (ho : Owned cap s) (hl : s.loc none = .pop pc) :
    Owned cap (⟨(popStep w s.shared pc).1,
      Function.update s.loc none (.after .pop (popStep w s.shared pc).2)⟩ : State ι T) := by
  have hnone : ∀ p x, ¬ Offered cap s x p :=
    fun p x => not_offered fun task pc' hpush => by rw [hl] at hpush; cases hpush
  -- a step that neither empties a slot nor returns a task
  have hquiet : ∀ {sh : Shared T} {l : Pc T}, sh.buffer = s.shared.buffer →
      sh.returned = s.shared.returned → sh.accepted = s.shared.accepted →
      sh.pushes = s.shared.pushes → (∀ task pc, l ≠ .push task pc) →
      (l.carried = none ∨ l.carried = (s.loc none).carried) →
      Owned cap (⟨sh, Function.update s.loc none l⟩ : State ι T) := by
    intro sh l hbuffer hreturned haccepted hpushes hpush hcarried
    refine ho.lose haccepted hpushes (fun task pc' heq => ?_)
      (content_sub hbuffer hreturned hcarried) fun p x _ hoffered => absurd hoffered (hnone p x)
    exact absurd (by simpa using heq) (hpush task pc')
  cases pc with
  | loadBottom =>
    simp only [popStep]
    split
    · exact hquiet rfl rfl rfl rfl (by rintro _ _ ⟨⟩) (.inl rfl)
    · exact hquiet rfl rfl rfl rfl (by rintro _ _ ⟨⟩) (.inl rfl)
  | storeBottom b => exact hquiet rfl rfl rfl rfl (by rintro _ _ ⟨⟩) (.inl rfl)
  | loadTop b =>
    simp only [popStep]
    split
    · exact hquiet rfl rfl rfl rfl (by rintro _ _ ⟨⟩) (.inl rfl)
    · exact hquiet rfl rfl rfl rfl (by rintro _ _ ⟨⟩) (.inl rfl)
  | takeSlot b t =>
    simp only [popStep]
    generalize s.shared.index w (Word.signed w (b - 1)) = k
    cases hx : s.shared.buffer[k]?.join with
    | none =>
      have hsame := Ring.set_none_of_join hx
      split
      · exact hquiet hsame rfl rfl rfl (by rintro _ _ ⟨⟩) (.inl rfl)
      · exact hquiet hsame (by simp) rfl rfl (by rintro _ _ ⟨⟩) (.inl rfl)
    | some x =>
      split
      · refine ho.take rfl rfl rfl rfl (fun task pc' heq => ?_) hx rfl
          (fun hoffered => absurd hoffered (hnone _ x))
          fun p y _ hoffered => absurd hoffered (hnone p y)
        simp [Pc.after] at heq
      · refine ho.move (.slot k) (.returned s.shared.returned.length) rfl rfl
          (fun task pc' heq => ?_) hx (fun hgone => ?_) (fun y hy => ?_) (fun p y hp hy => ?_)
          (fun hoffered => absurd hoffered (hnone _ x))
          fun p y _ _ hoffered => absurd hoffered (hnone p y)
        · simp [Pc.after] at heq
        · exact absurd rfl (Places.join_set_none hgone).1
        · simpa [eq_comm] using hy
        · cases p with
          | slot j => exact (Places.join_set_none hy).2
          | returned j =>
            rcases Places.getElem?_append_toList hy with hold | ⟨rfl, _⟩
            · exact hold
            · exact absurd rfl hp
          | thread u =>
            by_cases hu : u = none
            · subst hu
              simp [Pc.after, Pc.carried] at hy
            · rwa [content_thread_ne hu] at hy
  | exchangeTop b t value =>
    simp only [popStep]
    split
    · exact hquiet rfl rfl rfl rfl (by rintro _ _ ⟨⟩) (.inr (by rw [hl]; rfl))
    · exact hquiet rfl rfl rfl rfl (by rintro _ _ ⟨⟩) (.inl rfl)
  | restoreBottom b value =>
    cases value with
    | none => exact hquiet rfl (List.append_nil _) rfl rfl (by rintro _ _ ⟨⟩) (.inl rfl)
    | some x =>
      refine ho.handOver rfl rfl rfl rfl (fun task pc' heq => ?_) (by rw [hl]; rfl) rfl
        (hnone _ x) fun p y _ hoffered => absurd hoffered (hnone p y)
      simp [Pc.after, popStep] at heq

/-! ### The steps of a thief -/

omit [DecidableEq ι] in
/-- The slot of the push in progress is that of no thief that can still succeed. -/
theorem Span.lt_of_offered {m : Nat} (hs : Span w cap h n s)
    (hstaged : (s.loc none).staged = [x]) (hchosen : (s.loc (some i)).chosen = some (m : Int))
    (hslot : m % cap = s.shared.bottom.toNat % cap) : (m : Int) < s.shared.top := by
  have hI := hs.indices
  have htop := hI.top_eq
  have hlt : (m : Int) < (h + n : Nat) := hI.chosen i m hchosen
  obtain ⟨b, hl⟩ : ∃ b, s.loc none = .push x (.storeBottom b) := by
    cases hl : s.loc none with
    | push task pc =>
      cases pc with
      | storeBottom b =>
        rw [hl] at hstaged
        cases hstaged
        exact ⟨b, rfl⟩
      | _ => rw [hl] at hstaged; cases hstaged
    | _ => rw [hl] at hstaged; cases hstaged
  rw [hl] at hI
  have hroom : n < cap := hI.owner
  have hbottom : s.shared.bottom = (h + n : Nat) := hI.bottom_eq
  rw [hbottom, Int.toNat_natCast] at hslot
  have hdvd : cap ∣ h + n - m := (Nat.modEq_iff_dvd' (by omega)).mp hslot
  have hle := Nat.le_of_dvd (by omega) hdvd
  omega

theorem Owned.steal {pc : StealPc T} (ho : Owned cap s) (hs : Span w cap h n s)
    (hl : s.loc (some i) = .steal pc) :
    Owned cap (⟨(stealStep w s.shared pc).1,
      Function.update s.loc (some i) (.after .steal (stealStep w s.shared pc).2)⟩ :
        State ι T) := by
  have hkeep : ∀ {sh : Shared T} {l : Pc T}, sh.bottom = s.shared.bottom →
      s.shared.top ≤ sh.top → ∀ p y, p ≠ .thread (some i) → Offered cap s y p →
        Offered cap (⟨sh, Function.update s.loc (some i) l⟩ : State ι T) y p :=
    fun hbottom htop p y hp hoffered => hoffered.thief hbottom htop fun heq => absurd heq hp
  -- the thief gives up, with empty hands
  have hidle : ∀ {l : Pc T}, l.carried = none →
      Owned cap (⟨s.shared, Function.update s.loc (some i) l⟩ : State ι T) := by
    intro l hcarried
    refine ho.lose rfl rfl (fun _ pc' heq => ⟨pc', heq⟩)
      (content_sub rfl rfl (.inl hcarried)) fun p y hp hoffered => ?_
    refine hkeep rfl (Int.le_refl _) p y (fun heq => ?_) hoffered
    rw [heq, content_thread_self, hcarried] at hp
    cases hp
  have hI := hs.indices
  have htop := hI.top_eq
  cases pc with
  | loadTop => exact hidle rfl
  | loadBottom t =>
    simp only [stealStep]
    split
    · exact hidle rfl
    · exact hidle rfl
  | takeSlot t =>
    simp only [stealStep]
    cases hx : s.shared.buffer[s.shared.index w t]?.join with
    | none => exact hidle rfl
    | some x =>
      refine ho.take rfl rfl rfl rfl (fun _ pc' heq => ⟨pc', heq⟩) hx rfl (fun hoffered => .inr ?_)
        (hkeep rfl (Int.le_refl _))
      obtain ⟨hstaged, hslot⟩ := hoffered
      have hchosen : (s.loc (some i)).chosen = some t := by
        rw [hl]
        rfl
      obtain ⟨m, rfl, hle⟩ := hI.seen i t (Pc.seen_of_chosen hchosen)
      have hindex := hs.fixed.index_eq m (by have := hI.lt; omega)
      rw [hindex] at hslot
      refine ⟨?_, m, by simp [Pc.after, Pc.chosen], hs.lt_of_offered hstaged hchosen hslot, hslot⟩
      simpa using hstaged
  | exchangeTop t x =>
    have hchosen : (s.loc (some i)).chosen = some t := by
      rw [hl]
      rfl
    simp only [stealStep]
    split
    · next hwin =>
      have hlt := hI.lt
      have hlive := hI.chosen i t hchosen
      have hnext : s.shared.top ≤ Word.signed w (t + 1) := by
        have heq : t + 1 = (h + 1 : Nat) := by omega
        rw [heq, Word.signed_of_lt (by omega)]
        omega
      refine ho.handOver rfl rfl rfl rfl (fun _ pc' heq => ⟨pc', heq⟩) (by rw [hl]; rfl) rfl ?_
        (hkeep rfl hnext)
      rintro ⟨hstaged, m, hm, hlt', _⟩
      rw [hchosen] at hm
      have heq := Option.some.inj hm
      omega
    · refine ho.lose rfl rfl (fun _ pc' heq => ⟨pc', heq⟩)
        (content_sub rfl rfl (.inr (by rw [hl]; rfl)))
        fun p y hp hoffered => hoffered.thief rfl (Int.le_refl _) fun _ => ?_
      rw [hl]
      rfl
  | putBack t x =>
    have hchosen : (s.loc (some i)).chosen = some t := by
      rw [hl]
      rfl
    obtain ⟨m, rfl, hle⟩ := hI.seen i t (Pc.seen_of_chosen hchosen)
    have hindex := hs.fixed.index_eq m (by have := hI.lt; omega)
    refine ho.move (.thread (some i)) (.slot (s.shared.index w m)) (x := x) rfl rfl
      (fun _ pc' heq => ⟨pc', heq⟩) (by rw [content, hl]; rfl) (fun hgone => ?_) (fun y hy => ?_)
      (fun p y hp hy => ?_) (fun hoffered => .inr ?_) (fun p y hp hy hoffered => ?_)
    · simp [stealStep, Pc.after, Pc.carried] at hgone
    · rcases Places.join_set_some (show _ = some y from hy) with ⟨_, rfl⟩ | ⟨hne, _⟩
      · rfl
      · exact absurd rfl hne
    · cases p with
      | slot k =>
        rcases Places.join_set_some (show _ = some y from hy) with ⟨rfl, _⟩ | ⟨_, hold⟩
        · exact absurd rfl hp
        · exact hold
      | returned k => exact hy
      | thread u =>
        by_cases hu : u = some i
        · subst hu
          simp [stealStep, Pc.after, Pc.carried] at hy
        · rwa [content_thread_ne hu] at hy
    · obtain ⟨hstaged, m', hm, _, hslot⟩ := hoffered
      rw [hchosen] at hm
      obtain rfl : m = m' := Int.ofNat.inj (Option.some.inj hm)
      exact ⟨by simpa using hstaged, hindex.trans hslot⟩
    · refine hkeep rfl (Int.le_refl _) p y (fun heq => ?_) hoffered
      rw [heq] at hy
      simp [stealStep, Pc.after, Pc.carried] at hy

/-! ### Runs -/

theorem Owned.step {a : Option ι × Act T} (ho : Owned cap s) (hs : Span w cap h n s)
    (hstep : step w s a = some s') : Owned cap s' := by
  obtain ⟨t, c⟩ := a
  obtain ⟨sh, l, hp, rfl⟩ := interleave_eq_some.mp hstep
  cases t with
  | none =>
    have hok := hs.indices.owner
    cases hl : s.loc none with
    | idle =>
      rw [hl] at hp
      cases c with
      | step => cases hp
      | call c =>
        cases c with
        | steal => cases hp
        | push value =>
          cases hp
          exact ho.callPush hl value
        | pop =>
          cases hp
          refine ho.lose rfl rfl (fun task pc hpush => ?_) (content_sub rfl rfl (.inl rfl))
            fun p x _ hoffered => absurd hoffered (not_offered fun task pc hpush => ?_)
          · simp at hpush
          · rw [hl] at hpush
            cases hpush
    | push task pc =>
      rw [hl] at hp
      cases c with
      | call c => cases c <;> cases hp
      | step =>
        cases hp
        exact ho.push hs hl
    | pop pc =>
      rw [hl] at hp
      cases c with
      | call c => cases c <;> cases hp
      | step =>
        cases hp
        exact ho.pop hl
    | steal pc =>
      rw [hl] at hok
      exact hok.elim
  | some i =>
    have hthief := hs.indices.thief i
    cases hl : s.loc (some i) with
    | idle =>
      rw [hl] at hp
      cases c with
      | step => cases hp
      | call c =>
        cases c with
        | push value => cases hp
        | pop => cases hp
        | steal =>
          cases hp
          refine ho.lose rfl rfl (fun _ pc heq => ⟨pc, heq⟩) (content_sub rfl rfl (.inl rfl))
            fun p x hp hoffered => hoffered.thief rfl (Int.le_refl _) fun heq => ?_
          rw [heq, content_thread_self] at hp
          cases hp
    | push task pc =>
      rw [hl] at hthief
      exact hthief.elim
    | pop pc =>
      rw [hl] at hthief
      exact hthief.elim
    | steal pc =>
      rw [hl] at hp
      cases c with
      | call c => cases c <;> cases hp
      | step =>
        cases hp
        exact ho.steal hs hl

/-- **No task is taken twice**, and no task is taken that was not accepted, in any run of the
    owner and the thieves of a deque with slots. -/
theorem takenOnce_of_run {slot capacity : Nat} {d : WorkStealingDeque T}
    (hslot : Nonempty T → 0 < slot) (hd : WorkStealingDeque.new w slot capacity = some d)
    (hpos : 0 < d.capacity) {as : List (Option ι × Act T)}
    (hrun : run (Threads.step w) (init d) as = some s)
    (hpushes : s.shared.pushes < 2 ^ (w - 1)) : TakenOnce s := by
  have hinv := run_invariant_of_bound (μ := fun s : State ι T => s.shared.pushes)
    (I := fun s => (∃ h n, Span w d.capacity h n s) ∧ Owned d.capacity s)
    (fun _ _ _ hstep => pushes_le_of_step hstep) ?_ ⟨⟨0, 0, span_init hslot hd hpos⟩,
      owned_init d.capacity d⟩ hrun hpushes
  · exact hinv.2.takenOnce
  · rintro s a s' hlt ⟨⟨h, n, hs⟩, ho⟩ hstep
    obtain ⟨h', n', _, hs'⟩ := hs.step hlt hstep
    exact ⟨⟨h', n', hs'⟩, ho.step hs hstep⟩

/-- A run in which a task gets lost. -/
theorem takenOnce_of_run_dispute :
    ∃ s : State Unit Nat, run (Threads.step 64) (init ⟨[none], 1, 0, 0, 0⟩) losingPop = some s ∧
      s.shared.accepted = [⟨0, 7⟩] ∧ s.shared.returned = [] ∧ TakenOnce s := by
  have hd : WorkStealingDeque.new 64 16 1 =
      some (⟨[none], 1, 0, 0, 0⟩ : WorkStealingDeque Nat) := by decide
  have hrun : (run (Threads.step 64) (init ⟨[none], 1, 0, 0, 0⟩ : State Unit Nat) losingPop).map
      (fun s => (s.shared.accepted, s.shared.returned, s.shared.pushes)) =
        some ([⟨0, 7⟩], [], 1) := rfl
  obtain ⟨s, hs, heq⟩ := Option.map_eq_some_iff.mp hrun
  simp only [Prod.mk.injEq] at heq
  obtain ⟨haccepted, hreturned, hpushes⟩ := heq
  exact ⟨s, hs, haccepted, hreturned,
    takenOnce_of_run (fun _ => by decide) hd (by decide) hs (by rw [hpushes]; decide)⟩

end Steps

end VelocityX.Deque.Threads
