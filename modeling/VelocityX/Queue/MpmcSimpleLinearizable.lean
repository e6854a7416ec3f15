import VelocityX.Queue.MpmcSimpleSafety

/-!
# Linearizability of the default bounded queue

The ghost logs of the queue agree with each other, with the buffer and with the
results of the calls, and every refusal is justified by an instant inside the call
at which the queue was as full, or as empty, as the refusal says.
-/

namespace VelocityX.MpmcSimple.Threads

open Transition

variable {ι T : Type*} {w cap : Nat}

/-! ### Logs

What a step adds to the logs: the outcome of a call is fixed by one of its steps,
and that is also the step that publishes the values it moved. -/

def acceptedBy : Call T × Result T → List T
  | (.push value, .pushed (.ok _)) => [value]
  | (.pushBatch values, .pushedBatch pushed) => firstValues values pushed
  | _ => []

def returnedBy : Call T × Result T → List T
  | (.pop, .popped value) => value.toList
  | (.popBatch _, .poppedBatch values) => values
  | _ => []

/-- The call a thread is in and its result, once that is fixed. -/
def Pc.outcome : Pc T → Option (Call T × Result T)
  | .push value (.unlock result) => some (.push value, .pushed result)
  | .pop (.unlock value) => some (.pop, .popped value)
  | .pushBatch values (.unlock pushed) => some (.pushBatch values, .pushedBatch pushed)
  | .popBatch maxValues (.unlock values) => some (.popBatch maxValues, .poppedBatch values)
  | _ => none

def Local.completed (l : Local T) : List (Call T × Result T) := l.history ++ l.pc.outcome.toList

structure Recorded (t : ι) (sh sh' : Shared ι T) (l l' : Local T)
    (es : List (Call T × Result T)) : Prop where
  history : l.history <+: l'.history
  completed : l'.completed = l.completed ++ es
  accepted : sh'.accepted = sh.accepted ++ (es.flatMap acceptedBy).map (t, ·)
  returned : sh'.returned = sh.returned ++ (es.flatMap returnedBy).map (t, ·)
  written : sh.written ≤ sh'.written

theorem Recorded.quiet {t : ι} {sh sh' : Shared ι T} {l l' : Local T}
    (hhistory : l.history <+: l'.history) (hcompleted : l'.completed = l.completed)
    (haccepted : sh'.accepted = sh.accepted)
    (hreturned : sh'.returned = sh.returned) (hwritten : sh.written ≤ sh'.written) :
    Recorded t sh sh' l l' [] :=
  ⟨hhistory, by simpa using hcompleted, by simpa using haccepted, by simpa using hreturned,
    hwritten⟩

theorem lockPush_logs {t : ι} {sh sh' : Shared ι T} (h : sh.lockPush t = some sh') :
    sh'.accepted = sh.accepted ∧ sh'.returned = sh.returned ∧ sh.written ≤ sh'.written := by
  simp only [Shared.lockPush] at h
  split at h <;> cases h
  exact ⟨rfl, rfl, Nat.le_refl _⟩

theorem lockPop_logs {t : ι} {sh sh' : Shared ι T} (h : sh.lockPop t = some sh') :
    sh'.accepted = sh.accepted ∧ sh'.returned = sh.returned ∧ sh.written ≤ sh'.written := by
  simp only [Shared.lockPop] at h
  split at h <;> cases h
  exact ⟨rfl, rfl, Nat.le_refl _⟩

theorem pushStep_recorded {t : ι} {value : T} {sh sh' : Shared ι T} {pc : PushPc}
    {next : Next PushPc (Except Error Unit)} {l : Local T} (hpc : l.pc = .push value pc)
    (hstep : pushStep w t value sh pc = some (sh', next)) :
    ∃ es, es.length ≤ 1 ∧
      Recorded t sh sh' l (l.after (.push value) (.push value) .pushed next) es := by
  obtain ⟨_, history⟩ := l
  subst hpc
  cases pc with
  | lock =>
    obtain ⟨sh₂, hlock, heq⟩ := Option.map_eq_some_iff.mp hstep
    cases heq
    obtain ⟨h₁, h₂, h₃⟩ := lockPush_logs hlock
    exact ⟨[], Nat.zero_le _, .quiet (List.prefix_refl _) rfl h₁ h₂ h₃⟩
  | loadTail =>
    cases hstep
    exact ⟨[], Nat.zero_le _, .quiet (List.prefix_refl _) rfl rfl rfl (Nat.le_refl _)⟩
  | loadHead tail =>
    simp only [pushStep] at hstep
    split at hstep <;> cases hstep
    · exact ⟨[(.push value, .pushed (.error .wouldBlock))], Nat.le_refl _, List.prefix_refl _,
        by simp [Local.completed, Local.after, Pc.outcome], by simp [acceptedBy],
        by simp [returnedBy], Nat.le_refl _⟩
    · exact ⟨[], Nat.zero_le _, .quiet (List.prefix_refl _) rfl rfl rfl (Nat.le_refl _)⟩
  | write tail =>
    cases hstep
    exact ⟨[], Nat.zero_le _, .quiet (List.prefix_refl _) rfl rfl rfl (Nat.le_succ _)⟩
  | storeTail tail =>
    cases hstep
    exact ⟨[(.push value, .pushed (.ok ()))], Nat.le_refl _, List.prefix_refl _,
      by simp [Local.completed, Local.after, Pc.outcome],
      by simp [acceptedBy, Shared.storeTail],
      by simp [returnedBy, Shared.storeTail], Nat.le_refl _⟩
  | unlock result =>
    cases hstep
    exact ⟨[], Nat.zero_le _, .quiet (List.prefix_append _ _)
      (by simp [Local.completed, Local.after, Pc.outcome]) rfl rfl (Nat.le_refl _)⟩

theorem popStep_recorded {t : ι} {sh sh' : Shared ι T} {pc : PopPc T}
    {next : Next (PopPc T) (Option T)} {l : Local T} (hpc : l.pc = .pop pc)
    (hstep : popStep w t sh pc = some (sh', next)) :
    ∃ es, es.length ≤ 1 ∧ Recorded t sh sh' l (l.after .pop .pop .popped next) es := by
  obtain ⟨_, history⟩ := l
  subst hpc
  cases pc with
  | lock =>
    obtain ⟨sh₂, hlock, heq⟩ := Option.map_eq_some_iff.mp hstep
    cases heq
    obtain ⟨h₁, h₂, h₃⟩ := lockPop_logs hlock
    exact ⟨[], Nat.zero_le _, .quiet (List.prefix_refl _) rfl h₁ h₂ h₃⟩
  | loadHead =>
    cases hstep
    exact ⟨[], Nat.zero_le _, .quiet (List.prefix_refl _) rfl rfl rfl (Nat.le_refl _)⟩
  | loadTail head =>
    simp only [popStep] at hstep
    split at hstep <;> cases hstep
    · exact ⟨[(.pop, .popped none)], Nat.le_refl _, List.prefix_refl _,
        by simp [Local.completed, Local.after, Pc.outcome], by simp [acceptedBy],
        by simp [returnedBy], Nat.le_refl _⟩
    · exact ⟨[], Nat.zero_le _, .quiet (List.prefix_refl _) rfl rfl rfl (Nat.le_refl _)⟩
  | take head =>
    cases hstep
    exact ⟨[], Nat.zero_le _, .quiet (List.prefix_refl _) rfl rfl rfl (Nat.le_refl _)⟩
  | storeHead head value =>
    cases hstep
    exact ⟨[(.pop, .popped value)], Nat.le_refl _, List.prefix_refl _,
      by simp [Local.completed, Local.after, Pc.outcome],
      by simp [acceptedBy, Shared.storeHead],
      by simp [returnedBy, Shared.storeHead], Nat.le_refl _⟩
  | unlock value =>
    cases hstep
    exact ⟨[], Nat.zero_le _, .quiet (List.prefix_append _ _)
      (by simp [Local.completed, Local.after, Pc.outcome]) rfl rfl (Nat.le_refl _)⟩

theorem pushBatchStep_recorded {t : ι} {values : Nat → Option T} {sh sh' : Shared ι T}
    {pc : PushBatchPc}
    {next : Next PushBatchPc Nat} {l : Local T} (hpc : l.pc = .pushBatch values pc)
    (hstep : pushBatchStep w t values sh pc = some (sh', next)) :
    ∃ es, es.length ≤ 1 ∧
      Recorded t sh sh' l
        (l.after (.pushBatch values) (.pushBatch values) .pushedBatch next) es := by
  obtain ⟨_, history⟩ := l
  subst hpc
  cases pc with
  | lock =>
    obtain ⟨sh₂, hlock, heq⟩ := Option.map_eq_some_iff.mp hstep
    cases heq
    obtain ⟨h₁, h₂, h₃⟩ := lockPush_logs hlock
    exact ⟨[], Nat.zero_le _, .quiet (List.prefix_refl _) rfl h₁ h₂ h₃⟩
  | loadTail =>
    cases hstep
    exact ⟨[], Nat.zero_le _, .quiet (List.prefix_refl _) rfl rfl rfl (Nat.le_refl _)⟩
  | loadHead tail =>
    cases hstep
    exact ⟨[], Nat.zero_le _, .quiet (List.prefix_refl _) rfl rfl rfl (Nat.le_refl _)⟩
  | loop tail available pushed =>
    simp only [pushBatchStep] at hstep
    split at hstep <;> cases hstep
    · exact ⟨[], Nat.zero_le _, .quiet (List.prefix_refl _) rfl rfl rfl (Nat.le_succ _)⟩
    · exact ⟨[(.pushBatch values, .pushedBatch pushed)], Nat.le_refl _, List.prefix_refl _,
        by simp [Local.completed, Local.after, Pc.outcome],
        by simp [acceptedBy, Shared.storeTail],
        by simp [returnedBy, Shared.storeTail], Nat.le_refl _⟩
  | unlock pushed =>
    cases hstep
    exact ⟨[], Nat.zero_le _, .quiet (List.prefix_append _ _)
      (by simp [Local.completed, Local.after, Pc.outcome]) rfl rfl (Nat.le_refl _)⟩

theorem popBatchStep_recorded {t : ι} {maxValues : Nat} {sh sh' : Shared ι T} {pc : PopBatchPc T}
    {next : Next (PopBatchPc T) (List T)} {l : Local T} (hpc : l.pc = .popBatch maxValues pc)
    (hstep : popBatchStep w t maxValues sh pc = some (sh', next)) :
    ∃ es, es.length ≤ 1 ∧
      Recorded t sh sh' l
        (l.after (.popBatch maxValues) (.popBatch maxValues) .poppedBatch next) es := by
  obtain ⟨_, history⟩ := l
  subst hpc
  cases pc with
  | lock =>
    obtain ⟨sh₂, hlock, heq⟩ := Option.map_eq_some_iff.mp hstep
    cases heq
    obtain ⟨h₁, h₂, h₃⟩ := lockPop_logs hlock
    exact ⟨[], Nat.zero_le _, .quiet (List.prefix_refl _) rfl h₁ h₂ h₃⟩
  | loadHead =>
    cases hstep
    exact ⟨[], Nat.zero_le _, .quiet (List.prefix_refl _) rfl rfl rfl (Nat.le_refl _)⟩
  | loadTail head =>
    cases hstep
    exact ⟨[], Nat.zero_le _, .quiet (List.prefix_refl _) rfl rfl rfl (Nat.le_refl _)⟩
  | loop head items i values =>
    simp only [popBatchStep] at hstep
    split at hstep <;> cases hstep
    · exact ⟨[], Nat.zero_le _, .quiet (List.prefix_refl _) rfl rfl rfl (Nat.le_refl _)⟩
    · exact ⟨[(.popBatch maxValues, .poppedBatch values)], Nat.le_refl _, List.prefix_refl _,
        by simp [Local.completed, Local.after, Pc.outcome],
        by simp [acceptedBy, Shared.storeHead],
        by simp [returnedBy, Shared.storeHead], Nat.le_refl _⟩
  | unlock values =>
    cases hstep
    exact ⟨[], Nat.zero_le _, .quiet (List.prefix_append _ _)
      (by simp [Local.completed, Local.after, Pc.outcome]) rfl rfl (Nat.le_refl _)⟩

/-- A step fixes at most one outcome, and publishes exactly its values. -/
theorem program_recorded {t : ι} {sh sh' : Shared ι T} {l l' : Local T} {a : Act T}
    (hstep : program w t sh l a = some (sh', l')) :
    ∃ es, es.length ≤ 1 ∧ Recorded t sh sh' l l' es := by
  cases a with
  | call c =>
    obtain ⟨hpc, rfl, rfl⟩ := program_call_cases hstep
    refine ⟨[], Nat.zero_le _, .quiet (List.prefix_refl _) ?_ rfl rfl (Nat.le_refl _)⟩
    cases c <;> simp [Local.completed, hpc, Call.entry, Pc.outcome]
  | step =>
    rcases program_step_cases hstep with ⟨value, pc, next, hpc, hnext, rfl⟩ |
      ⟨pc, next, hpc, hnext, rfl⟩ | ⟨values, pc, next, hpc, hnext, rfl⟩ |
      ⟨maxValues, pc, next, hpc, hnext, rfl⟩
    · exact pushStep_recorded hpc hnext
    · exact popStep_recorded hpc hnext
    · exact pushBatchStep_recorded hpc hnext
    · exact popBatchStep_recorded hpc hnext

/-! ### Refusals

A refused call is justified by an instant at which the queue was as full, or as
empty, as the refusal says.  For the single operations this is the instant of the
second index load; a batch learns its bound there and uses it until its loop ends. -/

/-- The number of elements the queue must have held at some instant of a call that
    did less than it was asked for. -/
def refusedAt (cap : Nat) : Call T × Result T → Option Nat
  | (.push _, .pushed (.error _)) => some cap
  | (.pop, .popped none) => some 0
  | (.pushBatch values, .pushedBatch pushed) =>
      if (values pushed).isSome then some (cap - pushed) else none
  | (.popBatch maxValues, .poppedBatch values) =>
      if values.length < maxValues then some values.length else none
  | _ => none

/-- What a batch in its loop remembers of the instant of its second index load. -/
def Pc.knows (cap : Nat) : Pc T → Nat → Prop
  | .pushBatch _ (.loop _ available _), n => n = cap - available
  | .popBatch maxValues (.loop _ items _ _), n => items < maxValues ∧ n = items
  | _, _ => False

/-- The step from `l` to `l'` fixes an outcome that refuses at `n` elements, or
    makes a batch learn the bound behind such a refusal. -/
def Decides (cap n : Nat) (l l' : Local T) : Prop :=
  l'.pc.knows cap n ∨ ∃ e, l'.completed = l.completed ++ [e] ∧ refusedAt cap e = some n

section Held

attribute [local simp] Decides Local.after Local.completed Pc.knows Pc.outcome refusedAt

theorem pushStep_held {t : ι} {value : T} {sh sh' : Shared ι T} {pc : PushPc}
    {next : Next PushPc (Except Error Unit)} {l : Local T} {n : Nat} (hg : Good cap sh)
    (hw : sh.written < 2 ^ w) (hp : ProducerOk t sh (pc.producer value))
    (hpc : l.pc = .push value pc)
    (hstep : pushStep w t value sh pc = some (sh', next))
    (hn : Decides cap n l (l.after (.push value) (.push value) .pushed next)) :
    l.pc.knows cap n ∨ sh.tail - sh.head = n := by
  obtain ⟨_, history⟩ := l
  subst hpc
  have hle := hg.head_le_tail
  have hroom := hg.tail_le
  cases pc with
  | lock =>
    obtain ⟨_, _, heq⟩ := Option.map_eq_some_iff.mp hstep
    cases heq
    simp at hn
  | loadHead tail =>
    obtain ⟨_, _, rfl⟩ := hp
    simp only [pushStep, hg.sub_eq hw, hg.capacity_eq] at hstep
    split at hstep <;> cases hstep <;> simp at hn
    right
    omega
  | _ =>
    cases hstep
    simp at hn

theorem popStep_held {t : ι} {sh sh' : Shared ι T} {pc : PopPc T}
    {next : Next (PopPc T) (Option T)} {l : Local T} {n : Nat} (hg : Good cap sh)
    (hk : ConsumerOk t sh pc.consumer) (hpc : l.pc = .pop pc)
    (hstep : popStep w t sh pc = some (sh', next))
    (hn : Decides cap n l (l.after .pop .pop .popped next)) :
    l.pc.knows cap n ∨ sh.tail - sh.head = n := by
  obtain ⟨_, history⟩ := l
  subst hpc
  have hle := hg.head_le_tail
  have hroom := hg.tail_le
  cases pc with
  | lock =>
    obtain ⟨_, _, heq⟩ := Option.map_eq_some_iff.mp hstep
    cases heq
    simp at hn
  | loadTail head =>
    obtain ⟨_, _, rfl⟩ := hk
    simp only [popStep] at hstep
    split at hstep <;> cases hstep <;> simp at hn
    right
    omega
  | storeHead head value =>
    -- below `tail` the slot was full, so the value is there
    obtain ⟨_, _, hlen, _⟩ := hk
    cases hstep
    cases value with
    | none => simp at hlen
    | some x => simp at hn
  | _ =>
    cases hstep
    simp at hn

theorem pushBatchStep_held {t : ι} {values : Nat → Option T} {sh sh' : Shared ι T}
    {pc : PushBatchPc}
    {next : Next PushBatchPc Nat} {l : Local T} {n : Nat} (hcap_lt : cap < 2 ^ w) (hg : Good cap sh)
    (hw : sh.written < 2 ^ w) (hp : ProducerOk t sh (pc.producer values))
    (hpc : l.pc = .pushBatch values pc)
    (hstep : pushBatchStep w t values sh pc = some (sh', next))
    (hn : Decides cap n l (l.after (.pushBatch values) (.pushBatch values) .pushedBatch next)) :
    l.pc.knows cap n ∨ sh.tail - sh.head = n := by
  obtain ⟨_, history⟩ := l
  subst hpc
  have hle := hg.head_le_tail
  have hroom := hg.tail_le
  cases pc with
  | lock =>
    obtain ⟨_, _, heq⟩ := Option.map_eq_some_iff.mp hstep
    cases heq
    simp at hn
  | loadHead tail =>
    obtain ⟨_, _, rfl⟩ := hp
    have hsub : Word.sub w sh.capacity (sh.tail - sh.head) = cap - (sh.tail - sh.head) := by
      rw [hg.capacity_eq]
      exact Word.sub_of_le (by omega) hcap_lt
    simp only [pushBatchStep, hg.sub_eq hw, hsub] at hstep
    cases hstep
    simp at hn
    right
    omega
  | loop tail available pushed =>
    left
    obtain ⟨_, _, _, _, _, hpushed⟩ := hp
    simp only [pushBatchStep] at hstep
    split at hstep
    · cases hstep
      simpa using hn
    · rename_i hnone
      cases hstep
      simp only [Decides, Local.after, Pc.knows, Local.completed, Pc.outcome, Option.toList,
        List.append_nil, List.append_cancel_left_eq, List.cons.injEq, and_true, exists_eq_left',
        refusedAt, false_or] at hn
      split at hn
      · rename_i hsome
        cases hn
        have hend : ¬ pushed < available := by
          intro hlt
          rw [if_pos hlt] at hnone
          simp [hnone] at hsome
        have heq : pushed = available := by omega
        show cap - pushed = cap - available
        rw [heq]
      · cases hn
  | _ =>
    cases hstep
    simp at hn

theorem popBatchStep_held {t : ι} {maxValues : Nat} {sh sh' : Shared ι T} {pc : PopBatchPc T}
    {next : Next (PopBatchPc T) (List T)} {l : Local T} {n : Nat} (hg : Good cap sh)
    (hw : sh.written < 2 ^ w) (hk : ConsumerOk t sh pc.consumer)
    (hpc : l.pc = .popBatch maxValues pc)
    (hstep : popBatchStep w t maxValues sh pc = some (sh', next))
    (hn : Decides cap n l (l.after (.popBatch maxValues) (.popBatch maxValues) .poppedBatch next)) :
    l.pc.knows cap n ∨ sh.tail - sh.head = n := by
  obtain ⟨_, history⟩ := l
  subst hpc
  have hle := hg.head_le_tail
  have hroom := hg.tail_le
  cases pc with
  | lock =>
    obtain ⟨_, _, heq⟩ := Option.map_eq_some_iff.mp hstep
    cases heq
    simp at hn
  | loadTail head =>
    obtain ⟨_, _, rfl⟩ := hk
    simp only [popBatchStep, hg.sub_eq hw] at hstep
    cases hstep
    simp at hn
    right
    omega
  | loop head items i values =>
    left
    obtain ⟨_, _, hlen, _, _, hi⟩ := hk
    simp only [popBatchStep] at hstep
    split at hstep
    · cases hstep
      simpa using hn
    · cases hstep
      simp only [Decides, Local.after, Pc.knows, Local.completed, Pc.outcome, Option.toList,
        List.append_nil, List.append_cancel_left_eq, List.cons.injEq, and_true, exists_eq_left',
        refusedAt, false_or] at hn
      split at hn
      · cases hn
        show items < maxValues ∧ values.length = items
        omega
      · cases hn
  | _ =>
    cases hstep
    simp at hn

end Held

theorem program_held {t : ι} {sh sh' : Shared ι T} {l l' : Local T} {n : Nat}
    (hcap_lt : cap < 2 ^ w) (hg : Good cap sh) (hw : sh.written < 2 ^ w) (h : ThreadOk t sh l)
    (hstep : program w t sh l .step = some (sh', l')) (hn : Decides cap n l l') :
    l.pc.knows cap n ∨ sh.tail - sh.head = n := by
  obtain ⟨hp, hk⟩ := h
  rcases program_step_cases hstep with ⟨value, pc, next, hpc, hnext, rfl⟩ |
    ⟨pc, next, hpc, hnext, rfl⟩ | ⟨values, pc, next, hpc, hnext, rfl⟩ |
    ⟨maxValues, pc, next, hpc, hnext, rfl⟩ <;> rw [hpc] at hp hk
  · exact pushStep_held hg hw hp hpc hnext hn
  · exact popStep_held hg hk hpc hnext hn
  · exact pushBatchStep_held hcap_lt hg hw hp hpc hnext hn
  · exact popBatchStep_held hg hw hk hpc hnext hn

variable [DecidableEq ι]

theorem step_inv {s s' : State ι T} {a : ι × Act T} (hcap_lt : cap < 2 ^ w)
    (hw : s.shared.written < 2 ^ w) (hinv : Inv cap s) (hstep : step w s a = some s') :
    Inv cap s' := by
  obtain ⟨t, act⟩ := a
  refine interleave_preserves (fun sh => Good cap sh ∧ sh.written < 2 ^ w) (Good cap) ThreadOk
    ?_ ?_ ⟨hinv.1, hw⟩ hinv.2 hstep
  · intro sh l sh' l' hg h hp
    obtain ⟨hg', h', _⟩ := program_ok hcap_lt hg h hp
    exact ⟨hg', h'⟩
  · intro u sh l m sh' l' hu hg h hm hp
    obtain ⟨_, _, hframe⟩ := program_ok hcap_lt hg h hp
    exact hm.of_other hu hframe

theorem step_written_le {s s' : State ι T} {a : ι × Act T} (hstep : step w s a = some s') :
    s.shared.written ≤ s'.shared.written := by
  obtain ⟨t, act⟩ := a
  obtain ⟨sh, l, hp, rfl⟩ := interleave_eq_some.mp hstep
  obtain ⟨_, _, hrec⟩ := program_recorded hp
  exact hrec.written

theorem run_inv {s s' : State ι T} {as : List (ι × Act T)} (hcap_lt : cap < 2 ^ w)
    (hinv : Inv cap s) (hrun : run (step w) s as = some s')
    (hw : s'.shared.written < 2 ^ w) : Inv cap s' := by
  refine run_invariant_of_bound (μ := fun s : State ι T => s.shared.written)
    (fun m a m' => step_written_le) ?_ hinv hrun hw
  intro m a m' hw' hm hstep
  exact step_inv hcap_lt (Nat.lt_of_le_of_lt (step_written_le hstep) hw') hm hstep

theorem run_recorded {s s' : State ι T} {as : List (ι × Act T)}
    (hrun : run (step w) s as = some s') (t : ι) :
    (s.loc t).history <+: (s'.loc t).history ∧ (s.loc t).completed <+: (s'.loc t).completed := by
  refine run_invariant (I := fun m : State ι T => (s.loc t).history <+: (m.loc t).history ∧
    (s.loc t).completed <+: (m.loc t).completed) ?_ ⟨List.prefix_refl _, List.prefix_refl _⟩ hrun
  rintro m ⟨u, act⟩ m' ⟨hhistory, hcompleted⟩ hstep
  obtain ⟨sh, l, hp, rfl⟩ := interleave_eq_some.mp hstep
  obtain ⟨es, _, hrec⟩ := program_recorded hp
  by_cases hu : t = u
  · subst hu
    have hext : (m.loc t).completed <+: l.completed := ⟨es, hrec.completed.symm⟩
    simpa using ⟨hhistory.trans hrec.history, hcompleted.trans hext⟩
  · simpa [Function.update_of_ne hu] using ⟨hhistory, hcompleted⟩

/-- The logs of the queue are the values moved by the calls of the threads. -/
def LogsOk (s : State ι T) : Prop :=
  ∀ t, (s.shared.accepted.filter (·.1 = t)).map Prod.snd = (s.loc t).completed.flatMap acceptedBy ∧
    (s.shared.returned.filter (·.1 = t)).map Prod.snd = (s.loc t).completed.flatMap returnedBy

theorem filter_tagged (t u : ι) (xs : List T) :
    ((xs.map (t, ·)).filter (·.1 = u)).map Prod.snd = if t = u then xs else [] := by
  by_cases h : t = u <;> simp [List.filter_map, Function.comp_def, h]

theorem run_logsOk {s s' : State ι T} {as : List (ι × Act T)}
    (hs : LogsOk s) (hrun : run (step w) s as = some s') : LogsOk s' := by
  refine run_invariant ?_ hs hrun
  rintro m ⟨u, act⟩ m' hm hstep t
  obtain ⟨sh, l, hp, rfl⟩ := interleave_eq_some.mp hstep
  obtain ⟨es, _, hrec⟩ := program_recorded hp
  obtain ⟨haccepted, hreturned⟩ := hm t
  simp only [hrec.accepted, hrec.returned, List.filter_append, List.map_append, filter_tagged,
    haccepted, hreturned]
  by_cases hu : u = t
  · subst hu
    simp [hrec.completed]
  · simp [hu, Function.update_of_ne (Ne.symm hu)]

/-! ### The queue is a linearizable bounded FIFO -/

/-- What holds in every reachable state: the bounds on the indices, the agreement
    of the two logs with each other, with the buffer and with the calls. -/
structure BoundedFifo (cap : Nat) (s : State ι T) : Prop where
  head_le_tail : s.shared.head ≤ s.shared.tail
  tail_le : s.shared.tail ≤ s.shared.head + cap
  /-- The values popped so far, then those in the hands of a running pop, then the
      rest, are the accepted values in the order of the stores to `tail`; and
      every value of the rest is in its slot. -/
  in_order : ∃ rest, s.shared.accepted.map Prod.snd =
      s.shared.returned.map Prod.snd ++ s.shared.taken ++ rest ∧
    ∀ i (h : i < rest.length),
      s.shared.buffer[(s.shared.head + s.shared.taken.length + i) % cap]? = some (some rest[i])
  taken_held : s.shared.popLock = none → s.shared.taken = []
  accepted_by : ∀ t, (s.shared.accepted.filter (·.1 = t)).map Prod.snd =
    (s.loc t).completed.flatMap acceptedBy
  returned_by : ∀ t, (s.shared.returned.filter (·.1 = t)).map Prod.snd =
    (s.loc t).completed.flatMap returnedBy

/-- Every call of the run that returned having done less than it was asked for ran
    through an instant at which the queue held the number of elements that
    justifies it. -/
def RefusalsJustified (w cap : Nat) (as : List (ι × Act T)) (s : State ι T) : Prop :=
  ∀ as₀ t c as₁ s₁, as = as₀ ++ (t, .call c) :: as₁ →
    run (step w) (init cap) (as₀ ++ [(t, .call c)]) = some s₁ →
    ∀ r n, (s.loc t).history = (s₁.loc t).history ++ [(c, r)] → refusedAt cap (c, r) = some n →
    ∃ as₂ as₃ m, as₁ = as₂ ++ as₃ ∧ run (step w) s₁ as₂ = some m ∧
      (m.loc t).pc ≠ .idle ∧ (m.loc t).history = (s₁.loc t).history ∧
      m.shared.tail - m.shared.head = n

theorem Inv.boundedFifo {s : State ι T} (h : Inv cap s) (hlogs : LogsOk s) :
    BoundedFifo cap s := by
  obtain ⟨hg, _⟩ := h
  have hle := hg.head_le_tail
  have hroom := hg.tail_le
  obtain ⟨rest, hrest, hholds⟩ := hg.inv.holds
  refine ⟨by omega, by omega, ⟨rest, hrest, fun i hi => ?_⟩, hg.pop_free,
    fun t => (hlogs t).1, fun t => (hlogs t).2⟩
  have hslot := hholds.slot_full (k := i) (by rw [List.length_append]; omega)
  rwa [List.getElem_append_left hi] at hslot

/-- The outcome that a step adds to a log is the first one after the old log. -/
theorem append_singleton_prefix {β : Type*} {old xs es : List β} {e : β} (hold : old <+: xs)
    (hlen : es.length ≤ 1) (hnew : old ++ [e] <+: xs ++ es) (hnot : ¬ old ++ [e] <+: xs) :
    xs = old ∧ es = [e] := by
  obtain ⟨ys, rfl⟩ := hold
  rw [List.append_assoc] at hnew
  rw [List.prefix_append_right_inj] at hnew hnot
  cases ys with
  | nil =>
    refine ⟨List.append_nil _, ?_⟩
    exact (hnew.eq_of_length_le (by simpa using hlen)).symm
  | cons y ys =>
    obtain ⟨rfl, _⟩ := List.cons_prefix_cons.mp hnew
    exact absurd (List.cons_prefix_cons.mpr ⟨rfl, List.nil_prefix⟩) hnot

/-- The outcome `e` of the call that thread `t` started with the log `old` is fixed,
    or the call is a batch that has learnt the bound `n` behind it. -/
def Decided (cap : Nat) (t : ι) (old : List (Call T × Result T)) (e : Call T × Result T) (n : Nat)
    (m : State ι T) : Prop :=
  old ++ [e] <+: (m.loc t).completed ∨
    ((m.loc t).completed = old ∧ (m.loc t).pc.knows cap n)

variable (cap) in
theorem not_decided_of_call {s₀ s₁ : State ι T} {t : ι} {c : Call T} {e : Call T × Result T}
    {n : Nat} (hcall : step w s₀ (t, .call c) = some s₁) :
    (s₁.loc t).completed = (s₁.loc t).history ∧
      ¬ Decided cap t (s₁.loc t).history e n s₁ := by
  obtain ⟨sh, l, hp, rfl⟩ := interleave_eq_some.mp hcall
  obtain ⟨_, _, rfl⟩ := program_call_cases hp
  have hcompleted : c.entry.outcome = none := by cases c <;> rfl
  refine ⟨by simp [Local.completed, hcompleted], ?_⟩
  rintro (hpre | ⟨_, hknows⟩)
  · have hlen := hpre.length_le
    simp only [Local.completed, Function.update_self, hcompleted, Option.toList_none,
      List.append_nil, List.length_append, List.length_singleton] at hlen
    exact absurd hlen (Nat.not_succ_le_self _)
  · simp only [Function.update_self] at hknows
    cases c <;> exact hknows

/-- The step that decides an outcome is taken inside its call, at an instant at
    which the queue held the number of elements behind the refusal. -/
theorem held_of_decided {m m' : State ι T} {t u : ι} {act : Act T}
    {old : List (Call T × Result T)} {e : Call T × Result T} {n : Nat} (hcap_lt : cap < 2 ^ w)
    (hinv : Inv cap m) (hw : m.shared.written < 2 ^ w) (hrefused : refusedAt cap e = some n)
    (hold : old <+: (m.loc t).completed) (hstep : step w m (u, act) = some m')
    (hnot : ¬ Decided cap t old e n m) (hdec : Decided cap t old e n m') :
    (m.loc t).pc ≠ .idle ∧ (m.loc t).completed = old ∧
      m.shared.tail - m.shared.head = n := by
  obtain ⟨sh, l, hp, rfl⟩ := interleave_eq_some.mp hstep
  have hut : u = t := by
    by_contra hne
    apply hnot
    simpa [Decided, Function.update_of_ne (Ne.symm hne)] using hdec
  subst hut
  obtain ⟨es, hes, hrec⟩ := program_recorded hp
  simp only [Decided, Function.update_self, hrec.completed] at hdec
  have hturn : (m.loc u).completed = old ∧ (l.pc.knows cap n ∨ es = [e]) := by
    rcases hdec with hpre | ⟨heq, hknows⟩
    · obtain ⟨h₁, h₂⟩ := append_singleton_prefix hold hes hpre (fun h => hnot (Or.inl h))
      exact ⟨h₁, Or.inr h₂⟩
    · have hpre : (m.loc u).completed <+: old := ⟨es, heq⟩
      exact ⟨hpre.eq_of_length_le hold.length_le, Or.inl hknows⟩
  cases act with
  | call c =>
    obtain ⟨hidle, _, rfl⟩ := program_call_cases hp
    exfalso
    rcases hturn.2 with hknows | hone
    · cases c <;> exact hknows
    · have hlen := congrArg List.length hrec.completed
      rw [hone] at hlen
      cases c <;> simp [Local.completed, Call.entry, Pc.outcome, hidle] at hlen
  | step =>
    have hheld : (m.loc u).pc.knows cap n ∨ m.shared.tail - m.shared.head = n := by
      apply program_held hcap_lt hinv.1 hw (hinv.2 u) hp
      rcases hturn.2 with hknows | hone
      · exact Or.inl hknows
      · exact Or.inr ⟨e, by rw [hrec.completed, hone], hrefused⟩
    refine ⟨?_, hturn.1, ?_⟩
    · intro hidle
      simp [program, hidle] at hp
    · rcases hheld with hknows | hheld
      · exact absurd (Or.inr ⟨hturn.1, hknows⟩) hnot
      · exact hheld

theorem refusalsJustified_of_run {as : List (ι × Act T)} {s : State ι T} (hcap_lt : cap < 2 ^ w)
    (hrun : run (step w) (init cap) as = some s) (hw : s.shared.written < 2 ^ w) :
    RefusalsJustified w cap as s := by
  intro as₀ t c as₁ s₁ has hs₁ r n hhistory hrefused
  have hrest : run (step w) s₁ as₁ = some s := by
    rw [has, List.append_cons, run_append, hs₁] at hrun
    exact hrun
  obtain ⟨s₀, _, hlast⟩ := run_append_eq_some.mp hs₁
  obtain ⟨_, hcall, heq⟩ := run_cons_eq_some.mp hlast
  cases heq
  obtain ⟨hcompleted, hundecided⟩ := not_decided_of_call cap (e := (c, r)) (n := n) hcall
  have hdecided : Decided cap t (s₁.loc t).history (c, r) n s := by
    left
    rw [← hhistory]
    exact List.prefix_append _ _
  obtain ⟨as₂, ⟨u, act⟩, as₃, m, m', has₁, hm, hstep, hm's, hnot, hdec⟩ :=
    exists_turn hrest hundecided hdecided
  have hmw : m.shared.written < 2 ^ w := by
    refine Nat.lt_of_le_of_lt (Nat.le_trans (step_written_le hstep) ?_) hw
    exact run_measure_le (μ := fun s : State ι T => s.shared.written)
      (fun _ _ _ => step_written_le) hm's
  have hinv : Inv cap m := run_inv hcap_lt (inv_init cap)
    (run_append_eq_some.mpr ⟨s₁, hs₁, hm⟩) hmw
  obtain ⟨hhistory₁, hcompleted₁⟩ := run_recorded hm t
  rw [hcompleted] at hcompleted₁
  obtain ⟨hbusy, hold, hheld⟩ :=
    held_of_decided hcap_lt hinv hmw hrefused hcompleted₁ hstep hnot hdec
  refine ⟨as₂, (u, act) :: as₃, m, has₁, hm, hbusy, ?_, hheld⟩
  have hpre : (m.loc t).history <+: (s₁.loc t).history := by
    rw [← hold]
    exact List.prefix_append _ _
  exact hpre.eq_of_length_le hhistory₁.length_le

/-- **The default queue is a linearizable bounded FIFO.**  In every reachable state
    of every interleaving, with fewer than `2 ^ w` values pushed in total. -/
theorem queue_linearizable (capacity : Capacity w) {as : List (ι × Act T)} {s : State ι T}
    (hrun : run (step w) (init capacity.val) as = some s) (hw : s.shared.written < 2 ^ w) :
    BoundedFifo capacity.val s ∧ RefusalsJustified w capacity.val as s := by
  have hinv : Inv capacity.val s := run_inv capacity.lt (inv_init _) hrun hw
  have hlogs : LogsOk s := run_logsOk (fun t => ⟨rfl, rfl⟩) hrun
  exact ⟨hinv.boundedFifo hlogs, refusalsJustified_of_run capacity.lt hrun hw⟩

/-- Thread `false` pushes 7 to a queue of capacity 1, then thread `true` tries 8. -/
def refusedPush : List (Bool × Act Nat) :=
  (false, Act.call (.push 7)) :: List.replicate 6 (false, Act.step) ++
    (true, Act.call (.push 8)) :: List.replicate 4 (true, Act.step)

theorem queue_linearizable_refusedPush :
    ∃ s, run (step 64) (init 1) refusedPush = some s ∧
      (s.loc true).history = [(.push 8, .pushed (.error .wouldBlock))] ∧
      BoundedFifo 1 s ∧ RefusalsJustified 64 1 refusedPush s := by
  have hrun : (run (step 64) (init 1) refusedPush).map (fun s =>
      ((s.loc true).history, s.shared.written)) =
        some ([(.push 8, .pushed (.error .wouldBlock))], 1) := rfl
  obtain ⟨s, hs, heq⟩ := Option.map_eq_some_iff.mp hrun
  obtain ⟨hhistory, hwritten⟩ := Prod.mk.inj heq
  refine ⟨s, hs, hhistory, ?_⟩
  exact queue_linearizable ⟨1, by decide, by decide⟩ hs (by omega)

end VelocityX.MpmcSimple.Threads
