import VelocityX.Queue.UnboundedThreads

/-!
# The size counter of the unbounded queue

One producer and one consumer of `UnboundedMpmcQueue` in `src/queue/mpmc.rs`.  `push` counts its
node after it has published it, so that a pop can take the node and uncount it first.

The producer links the nodes in the order of their allocation.  `linked` of them are in the chain,
of which `pushed` logs those that have been counted and `returned` those that have been uncounted.
-/

namespace VelocityX.Unbounded.Threads

open Transition

variable {T : Type*} {w : Nat}

def Shared.len (sh : Shared T) : Nat := sh.size

def Shared.isEmpty (sh : Shared T) : Bool := sh.len == 0

/-- Every push that has been started has allocated a node. -/
def Shared.started (sh : Shared T) : Nat := sh.nodes.length - 1

inductive Role where
  | producer
  | consumer
deriving DecidableEq

/-- The producer calls `push` and the consumer calls `pop`. -/
def permitted : Role × Act T → Bool
  | (.producer, .call .pop) => false
  | (.consumer, .call (.push _)) => false
  | _ => true

def spscStep (w : Nat) (s : State Role T) (a : Role × Act T) : Option (State Role T) :=
  if permitted a then step w s a else none

/-- The counter has not wrapped, counts at most the pushes started that no pop has returned for,
    and counts the queued values once all calls have returned. -/
structure SizeCounted (s : State Role T) : Prop where
  unwrapped : s.shared.size + s.shared.returned.length = s.shared.pushed.length
  len_le : s.shared.len + s.shared.returned.length ≤ s.shared.started
  queued : (∀ t, s.loc t = .idle) → ∃ as,
    Linked.Chain s.shared.link (some s.shared.head) (s.shared.head :: as) ∧
      s.shared.len = as.length

/-- The node of a running push. -/
def Pc.pushing : Pc T → Option Nat
  | .push node _ => some node
  | _ => none

/-- The node that a pop is about to uncount. -/
def Pc.uncounts : Pc T → Option Nat
  | .pop (.subSize next _) => some next
  | _ => none

def Pc.counts : Pc T → Bool
  | .push _ .addSize => true
  | _ => false

/-- A node is uncounted after its push has returned, and the counter does not overflow. -/
def CountedFirst (w : Nat) (s : State Role T) (a : Role × Act T) : Prop :=
  ((s.loc a.1).uncounts = none ∨ (s.loc .producer).pushing ≠ (s.loc a.1).uncounts) ∧
    ((s.loc a.1).counts = true → s.shared.size + 1 < 2 ^ w)

instance (w : Nat) (s : State Role T) (a : Role × Act T) : Decidable (CountedFirst w s a) :=
  inferInstanceAs (Decidable (_ ∧ _))

/-! ### The invariant -/

def Pc.Produces (linked : Nat) (sh : Shared T) : Pc T → Prop
  | .idle =>
      sh.nodes.length = sh.pushed.length + 1 ∧ linked = sh.pushed.length ∧ sh.tail = linked
  | .push node pc =>
      node = sh.pushed.length + 1 ∧ sh.nodes.length = node + 1 ∧
        match pc with
        | .loadTail => linked + 1 = node ∧ sh.tail = linked ∧ sh.link node = some none
        | .storeNext tail => linked + 1 = node ∧ sh.link node = some none ∧ tail = linked
        | .reloadNext tail => linked = node ∧ tail + 1 = node
        | .storeTail next => linked = node ∧ next = node
        | .addSize => linked = node ∧ sh.tail = node
  | .pop _ => False

def Pc.Consumes (linked : Nat) (sh : Shared T) : Pc T → Prop
  | .idle => sh.head = sh.returned.length
  | .push _ _ => False
  | .pop .loadHead => sh.head = sh.returned.length
  | .pop (.loadNext head) => sh.head = sh.returned.length ∧ head = sh.head
  | .pop (.readValue head next) =>
      sh.head = sh.returned.length ∧ head = sh.head ∧ next = head + 1 ∧ next ≤ linked
  | .pop (.storeHead head next _) =>
      sh.head = sh.returned.length ∧ head = sh.head ∧ next = head + 1 ∧ next ≤ linked
  | .pop (.subSize next _) => sh.head = sh.returned.length + 1 ∧ next = sh.head

structure InLine (w linked : Nat) (s : State Role T) : Prop where
  links : ∀ a < linked, s.shared.link a = some (some (a + 1))
  last : s.shared.link linked = some none
  head_le : s.shared.head ≤ linked
  unwrapped : s.shared.size + s.shared.returned.length = s.shared.pushed.length
  size_lt : s.shared.size < 2 ^ w
  producer : (s.loc .producer).Produces linked s.shared
  consumer : (s.loc .consumer).Consumes linked s.shared

section Steps

variable {s : State Role T} {linked linked' : Nat} {sh : Shared T} {p : Pc T}

theorem chain_of_links {link : Nat → Option (Option Nat)} {n : Nat}
    (hlinks : ∀ a < linked, link a = some (some (a + 1))) (hlast : link linked = some none)
    {a : Nat} (hn : a + n = linked) :
    Linked.Chain link (some a) (List.range' a (n + 1)) := by
  induction n generalizing a with
  | zero =>
    obtain rfl : a = linked := hn
    exact ⟨rfl, none, hlast, rfl⟩
  | succ n ih =>
    exact ⟨rfl, some (a + 1), hlinks a (by omega), ih (by omega)⟩

theorem Pc.Consumes.mono {l : Pc T} {sh' : Shared T} (h : l.Consumes linked sh)
    (hle : linked ≤ linked') (hhead : sh'.head = sh.head) (hreturned : sh'.returned = sh.returned) :
    l.Consumes linked' sh' := by
  cases l with
  | idle =>
    show sh'.head = sh'.returned.length
    rw [hhead, hreturned]
    exact h
  | push node pc => exact h
  | pop pc =>
    cases pc <;> simp only [Pc.Consumes, hhead, hreturned] at h ⊢ <;> omega

/-- A step of the producer, which leaves the head and what has been returned alone. -/
theorem InLine.produce (h : InLine w linked s) (hle : linked ≤ linked')
    (hlinks : ∀ a < linked', sh.link a = some (some (a + 1))) (hlast : sh.link linked' = some none)
    (hhead : sh.head = s.shared.head) (hreturned : sh.returned = s.shared.returned)
    (hcount : sh.size + sh.returned.length = sh.pushed.length) (hlt : sh.size < 2 ^ w)
    (hp : p.Produces linked' sh) :
    InLine w linked' ⟨sh, Function.update s.loc .producer p⟩ := by
  refine ⟨hlinks, hlast, ?_, hcount, hlt, ?_, ?_⟩
  · show sh.head ≤ linked'
    rw [hhead]
    exact Nat.le_trans h.head_le hle
  · show (Function.update s.loc .producer p .producer).Produces linked' sh
    rw [Function.update_self]
    exact hp
  · show (Function.update s.loc .producer p .consumer).Consumes linked' sh
    rw [Function.update_of_ne (by decide)]
    exact h.consumer.mono hle hhead hreturned

theorem Pc.Produces.congr {l : Pc T} {sh' : Shared T} (h : l.Produces linked sh)
    (hnodes : sh'.nodes = sh.nodes) (htail : sh'.tail = sh.tail)
    (hpushed : sh'.pushed = sh.pushed) : l.Produces linked sh' := by
  have hlink : sh'.link = sh.link := by
    unfold Shared.link
    rw [hnodes]
  cases l with
  | idle =>
    show sh'.nodes.length = sh'.pushed.length + 1 ∧ linked = sh'.pushed.length ∧ sh'.tail = linked
    rw [hnodes, htail, hpushed]
    exact h
  | push node pc =>
    cases pc <;> simpa only [Pc.Produces, hnodes, htail, hpushed, hlink] using h
  | pop pc => exact h

/-- A step of the consumer, which leaves the nodes, the tail and what has been pushed alone. -/
theorem InLine.consume (h : InLine w linked s) (hnodes : sh.nodes = s.shared.nodes)
    (htail : sh.tail = s.shared.tail) (hpushed : sh.pushed = s.shared.pushed)
    (hhead : sh.head ≤ linked) (hcount : sh.size + sh.returned.length = sh.pushed.length)
    (hlt : sh.size < 2 ^ w) (hp : p.Consumes linked sh) :
    InLine w linked ⟨sh, Function.update s.loc .consumer p⟩ := by
  have hlink : sh.link = s.shared.link := by
    unfold Shared.link
    rw [hnodes]
  refine ⟨?_, ?_, hhead, hcount, hlt, ?_, ?_⟩
  · show ∀ a < linked, sh.link a = some (some (a + 1))
    rw [hlink]
    exact h.links
  · show sh.link linked = some none
    rw [hlink]
    exact h.last
  · show (Function.update s.loc .consumer p .producer).Produces linked sh
    rw [Function.update_of_ne (by decide)]
    exact h.producer.congr hnodes htail hpushed
  · show (Function.update s.loc .consumer p .consumer).Consumes linked sh
    rw [Function.update_self]
    exact hp

theorem inLine_init : InLine w 0 (init : State Role T) :=
  ⟨fun _ ha => absurd ha (Nat.not_lt_zero _), rfl, Nat.le_refl _, rfl, Nat.two_pow_pos w,
    ⟨rfl, rfl, rfl⟩, rfl⟩

theorem Pc.Produces.pushing_eq {l : Pc T} {node : Nat} (h : l.Produces linked sh)
    (hl : l.pushing = some node) : node = sh.pushed.length + 1 := by
  cases l with
  | idle => cases hl
  | push a pc =>
    cases hl
    exact h.1
  | pop pc => cases hl

/-- Only the node of a running push is linked before it is counted. -/
theorem Pc.Produces.linked_le {l : Pc T} (h : l.Produces linked sh) :
    linked ≤ sh.pushed.length ∨
      linked = sh.pushed.length + 1 ∧ l.pushing = some (sh.pushed.length + 1) := by
  cases l with
  | idle => exact .inl (Nat.le_of_eq h.2.1)
  | push node pc =>
    obtain ⟨rfl, _, hpc⟩ := h
    cases pc with
    | loadTail => exact .inl (Nat.le_of_eq (Nat.succ.inj hpc.1))
    | storeNext tail => exact .inl (Nat.le_of_eq (Nat.succ.inj hpc.1))
    | reloadNext tail => exact .inr ⟨hpc.1, rfl⟩
    | storeTail next => exact .inr ⟨hpc.1, rfl⟩
    | addSize => exact .inr ⟨hpc.1, rfl⟩
  | pop pc => exact h.elim

/-- A step of the producer. -/
theorem InLine.producerStep {c : Act T} {l : Pc T} (h : InLine w linked s)
    (hperm : permitted (Role.producer, c) = true) (hC : CountedFirst w s (.producer, c))
    (hp : program w Role.producer s.shared (s.loc .producer) c = some (sh, l)) :
    ∃ linked', InLine w linked' ⟨sh, Function.update s.loc .producer l⟩ := by
  have hpc := h.producer
  have hcounts := hC.2
  have hread : ∀ {l : Pc T}, l.Produces linked s.shared →
      InLine w linked ⟨s.shared, Function.update s.loc .producer l⟩ :=
    fun hl => h.produce (Nat.le_refl _) h.links h.last rfl rfl h.unwrapped h.size_lt hl
  cases hl : s.loc .producer with
  | idle =>
    rw [hl] at hp hpc
    obtain ⟨hnodes, hlinked, htail⟩ := hpc
    cases c with
    | step => cases hp
    | call c =>
      cases c with
      | pop => cases hperm
      | push value =>
        cases hp
        refine ⟨linked, h.produce (Nat.le_refl _) (fun a ha => ?_) ?_ rfl rfl h.unwrapped
          h.size_lt ?_⟩
        · rw [link_alloc_of_lt (by omega)]
          exact h.links a ha
        · rw [link_alloc_of_lt (by omega)]
          exact h.last
        · exact ⟨hnodes, nodes_alloc, by omega, htail, link_alloc_self⟩
  | push node pc =>
    rw [hl] at hp hpc hcounts
    cases c with
    | call c => cases hp
    | step =>
      obtain ⟨hnode, hnodes, hpc⟩ := hpc
      cases pc with
      | loadTail =>
        cases hp
        obtain ⟨hlinked, htail, hnull⟩ := hpc
        exact ⟨linked, hread ⟨hnode, hnodes, hlinked, hnull, htail⟩⟩
      | storeNext tail =>
        cases hp
        obtain ⟨rfl, hnull, rfl⟩ := hpc
        refine ⟨tail + 1, h.produce (Nat.le_succ _) ?_ ?_ rfl rfl h.unwrapped h.size_lt ?_⟩
        · intro a ha
          rcases Nat.lt_succ_iff_lt_or_eq.mp ha with hlt | rfl
          · rw [link_storeNext_ne (by omega)]
            exact h.links a hlt
          · exact link_storeNext_self h.last
        · rw [link_storeNext_ne (by omega)]
          exact hnull
        · exact ⟨hnode, nodes_storeNext.trans hnodes, rfl, rfl⟩
      | reloadNext tail =>
        obtain ⟨rfl, rfl⟩ := hpc
        have hnext : s.shared.link tail = some (some (tail + 1)) := h.links tail (by omega)
        simp only [program, pushStep, hnext, Option.join_some, Option.map_some] at hp
        cases hp
        exact ⟨tail + 1, hread ⟨hnode, hnodes, rfl, rfl⟩⟩
      | storeTail next =>
        cases hp
        obtain ⟨rfl, rfl⟩ := hpc
        exact ⟨next, h.produce (Nat.le_refl _) h.links h.last rfl rfl h.unwrapped h.size_lt
          ⟨hnode, hnodes, rfl, rfl⟩⟩
      | addSize =>
        cases hp
        obtain ⟨rfl, htail⟩ := hpc
        have hadd : Word.add w s.shared.size 1 = s.shared.size + 1 := Word.add_of_lt (hcounts rfl)
        have hcount := h.unwrapped
        refine ⟨linked, h.produce (Nat.le_refl _) h.links h.last rfl rfl ?_ (Word.add_lt ..) ?_⟩
        · show Word.add w s.shared.size 1 + s.shared.returned.length =
            (s.shared.pushed ++ [linked]).length
          rw [hadd, List.length_append, List.length_singleton]
          omega
        · show s.shared.nodes.length = (s.shared.pushed ++ [linked]).length + 1 ∧
            linked = (s.shared.pushed ++ [linked]).length ∧ s.shared.tail = linked
          rw [List.length_append, List.length_singleton]
          omega
  | pop pc =>
    rw [hl] at hpc
    cases hpc

/-- A step of the consumer. -/
theorem InLine.consumerStep {c : Act T} {l : Pc T} (h : InLine w linked s)
    (hperm : permitted (Role.consumer, c) = true) (hC : CountedFirst w s (.consumer, c))
    (hp : program w Role.consumer s.shared (s.loc .consumer) c = some (sh, l)) :
    InLine w linked ⟨sh, Function.update s.loc .consumer l⟩ := by
  have hpc := h.consumer
  have huncounts := hC.1
  have hread : ∀ {l : Pc T}, l.Consumes linked s.shared →
      InLine w linked ⟨s.shared, Function.update s.loc .consumer l⟩ :=
    fun hl => h.consume rfl rfl rfl h.head_le h.unwrapped h.size_lt hl
  cases hl : s.loc .consumer with
  | idle =>
    rw [hl] at hp hpc
    cases c with
    | step => cases hp
    | call c =>
      cases c with
      | push value => cases hperm
      | pop =>
        cases hp
        exact hread hpc
  | push node pc =>
    rw [hl] at hpc
    exact hpc.elim
  | pop pc =>
    rw [hl] at hp hpc huncounts
    cases c with
    | call c => cases hp
    | step =>
      cases hp
      cases pc with
      | loadHead => exact hread ⟨hpc, rfl⟩
      | loadNext head =>
        obtain ⟨hhead, rfl⟩ := hpc
        rw [popStep]
        cases hnext : (s.shared.link s.shared.head).join with
        | none => exact hread hhead
        | some next =>
          have hlink := Option.join_eq_some_iff.mp hnext
          have hlt : s.shared.head < linked := by
            refine Nat.lt_of_le_of_ne h.head_le fun heq => ?_
            rw [heq, h.last] at hlink
            cases hlink
          rw [h.links _ hlt] at hlink
          cases hlink
          exact hread (l := .pop (.readValue _ _)) ⟨hhead, rfl, rfl, hlt⟩
      | readValue head next => exact hread (l := .pop (.storeHead _ _ _)) hpc
      | storeHead head next value =>
        obtain ⟨hhead, rfl, rfl, hle⟩ := hpc
        exact h.consume (p := .pop (.subSize _ _)) rfl rfl rfl hle h.unwrapped h.size_lt
          ⟨congrArg (· + 1) hhead, rfl⟩
      | subSize next value =>
        obtain ⟨hhead, rfl⟩ := hpc
        have hcount := h.unwrapped
        have hlt : s.shared.returned.length < s.shared.pushed.length := by
          have hle := h.head_le
          rcases h.producer.linked_le with hlinked | ⟨hlinked, hpushing⟩
          · omega
          · have hne := huncounts.resolve_left (Option.some_ne_none _)
            rw [hpushing] at hne
            have : s.shared.pushed.length + 1 ≠ s.shared.head := fun heq => hne (congrArg some heq)
            omega
        have hsub : Word.sub w s.shared.size 1 = s.shared.size - 1 :=
          Word.sub_of_le (by omega) h.size_lt
        have hlen : (s.shared.returned ++ [s.shared.head]).length =
            s.shared.returned.length + 1 := List.length_append
        refine h.consume (p := .idle) rfl rfl rfl h.head_le ?_ ?_ ?_
        · show Word.sub w s.shared.size 1 + (s.shared.returned ++ [s.shared.head]).length =
            s.shared.pushed.length
          omega
        · show Word.sub w s.shared.size 1 < 2 ^ w
          have := h.size_lt
          omega
        · show s.shared.head = (s.shared.returned ++ [s.shared.head]).length
          omega

theorem Pc.Produces.pushed_lt {l : Pc T} (h : l.Produces linked sh) :
    sh.pushed.length < sh.nodes.length := by
  cases l with
  | idle =>
    rw [h.1]
    exact Nat.lt_succ_self _
  | push node pc =>
    obtain ⟨rfl, hnodes, _⟩ := h
    omega
  | pop pc => exact h.elim

theorem InLine.sizeCounted (h : InLine w linked s) : SizeCounted s := by
  have hcount := h.unwrapped
  refine ⟨hcount, ?_, fun hidle => ?_⟩
  · have hlt := h.producer.pushed_lt
    show s.shared.size + s.shared.returned.length ≤ s.shared.nodes.length - 1
    omega
  · have hproducer := h.producer
    have hconsumer := h.consumer
    rw [hidle] at hproducer hconsumer
    obtain ⟨_, hlinked, _⟩ := hproducer
    have hhead : s.shared.head = s.shared.returned.length := hconsumer
    refine ⟨_, chain_of_links (n := s.shared.size) h.links h.last (by omega), ?_⟩
    rw [List.length_range']
    rfl

theorem spscStep_eq_some {a : Role × Act T} {s' : State Role T} :
    spscStep w s a = some s' ↔ permitted a = true ∧ ∃ sh l,
      program w a.1 s.shared (s.loc a.1) a.2 = some (sh, l) ∧
        s' = ⟨sh, Function.update s.loc a.1 l⟩ := by
  unfold spscStep
  split
  · next hperm =>
    rw [interleave_eq_some]
    exact ⟨fun h => ⟨hperm, h⟩, And.right⟩
  · next hperm => exact ⟨nofun, fun h => absurd h.1 hperm⟩

theorem inLine_step {a : Role × Act T} {s' : State Role T} (h : ∃ linked, InLine w linked s)
    (hC : CountedFirst w s a) (hstep : spscStep w s a = some s') :
    ∃ linked, InLine w linked s' := by
  obtain ⟨linked, h⟩ := h
  obtain ⟨hperm, sh, l, hp, rfl⟩ := spscStep_eq_some.mp hstep
  obtain ⟨t, c⟩ := a
  cases t with
  | producer => exact h.producerStep hperm hC hp
  | consumer => exact ⟨linked, h.consumerStep hperm hC hp⟩

/-- A counter that has not wrapped in a step was not about to. -/
theorem InLine.countedFirst {a : Role × Act T} {s' : State Role T} (h : InLine w linked s)
    (hstep : spscStep w s a = some s') (hs' : SizeCounted s') : CountedFirst w s a := by
  obtain ⟨_, sh, l, hp, rfl⟩ := spscStep_eq_some.mp hstep
  have hcount := h.unwrapped
  have hcount' := hs'.unwrapped
  obtain ⟨t, c⟩ := a
  cases t with
  | producer =>
    have hpc := h.producer
    cases hl : s.loc .producer with
    | idle => exact ⟨.inl (by rw [hl]; rfl), by rw [hl]; nofun⟩
    | pop pc =>
      rw [hl] at hpc
      exact hpc.elim
    | push node pc =>
      refine ⟨.inl (by rw [hl]; rfl), fun hcounts => ?_⟩
      rw [hl] at hcounts hp
      cases pc with
      | addSize =>
        cases c with
        | call c => cases hp
        | step =>
          cases hp
          have hadd : Word.add w s.shared.size 1 + s.shared.returned.length =
              (s.shared.pushed ++ [node]).length := hcount'
          have hlt := Word.add_lt w s.shared.size 1
          rw [List.length_append, List.length_singleton] at hadd
          show s.shared.size + 1 < 2 ^ w
          omega
      | _ => cases hcounts
  | consumer =>
    have hpc := h.consumer
    cases hl : s.loc .consumer with
    | idle => exact ⟨.inl (by rw [hl]; rfl), by rw [hl]; nofun⟩
    | push node pc =>
      rw [hl] at hpc
      exact hpc.elim
    | pop pc =>
      refine ⟨?_, by rw [hl]; nofun⟩
      rw [hl] at hpc hp ⊢
      cases pc with
      | subSize next value =>
        obtain ⟨hhead, rfl⟩ := hpc
        refine .inr fun hpushing => ?_
        have hnode := h.producer.pushing_eq hpushing
        cases c with
        | call c => cases hp
        | step =>
          cases hp
          have hsub : Word.sub w s.shared.size 1 +
              (s.shared.returned ++ [s.shared.head]).length = s.shared.pushed.length := hcount'
          rw [List.length_append, List.length_singleton] at hsub
          omega
      | _ => exact .inl rfl

end Steps

/-- **The size counter counts** throughout a run of one producer and one consumer exactly when every
    node is uncounted after its push has returned. -/
theorem sizeCounted_iff {as : List (Role × Act T)} {s : State Role T}
    (hrun : run (spscStep w) init as = some s) :
    Throughout (spscStep w) SizeCounted init as ↔ Along (spscStep w) (CountedFirst w) init as :=
  throughout_iff_along (I := fun s => ∃ linked, InLine w linked s)
    (fun _ _ _ h hC hstep => inLine_step h hC hstep) (fun _ ⟨_, h⟩ => h.sizeCounted)
    (fun _ _ _ ⟨_, h⟩ hstep hs' => h.countedFirst hstep hs') ⟨0, inLine_init⟩ hrun

/-! ### Runs -/

section Runs

/-- The consumer takes the value between the last two steps of its push. -/
def takenEarly : List (Role × Act Nat) :=
  (Role.producer, Act.call (.push 7)) :: List.replicate 4 (Role.producer, Act.step) ++
    (Role.consumer, Act.call .pop) :: List.replicate 4 (Role.consumer, Act.step)

theorem takenEarly_counted : ∃ s, run (spscStep 64) init (takenEarly ++ [(Role.producer, Act.step),
      (Role.consumer, Act.step)]) = some s ∧ s.shared.size = 0 ∧
    Throughout (spscStep 64) SizeCounted init (takenEarly ++ [(Role.producer, Act.step),
      (Role.consumer, Act.step)]) := by
  have hrun : (run (spscStep 64) init (takenEarly ++ [(Role.producer, Act.step),
      (Role.consumer, Act.step)])).map (·.shared.size) = some 0 := by decide
  obtain ⟨s, hs, hsize⟩ := Option.map_eq_some_iff.mp hrun
  exact ⟨s, hs, hsize, (sizeCounted_iff hs).mpr (by decide)⟩

/-- Uncounted before it is counted, one value makes the length of the queue `2 ^ 64 - 1`. -/
theorem uncounted_first_wraps :
    ¬ ∀ (as : List (Role × Act Nat)) (s : State Role Nat),
      run (spscStep 64) init as = some s → SizeCounted s := by
  intro h
  have hrun : (run (spscStep 64) init (takenEarly ++ [(.consumer, .step)])).map (fun s =>
      (s.shared.len, s.shared.isEmpty, s.shared.started)) =
        some (2 ^ 64 - 1, false, 1) := by decide
  obtain ⟨s, hs, heq⟩ := Option.map_eq_some_iff.mp hrun
  simp only [Prod.mk.injEq] at heq
  have hle := (h _ s hs).len_le
  omega

end Runs

end VelocityX.Unbounded.Threads
