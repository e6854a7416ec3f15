import Mathlib.Data.List.Nodup
import Mathlib.Data.Option.Basic
import VelocityX.Stack.LockFreeThreads

/-!
# Freedom from ABA of the lock-free stack

In a run in which no address is reused between the load of `next` by a pop and a
successful compare-exchange of that pop, the nodes reachable from `head` are always those
pushed and not yet popped.  A push owns the node it has allocated until it publishes it,
and a pop owns the node it has unlinked until it releases it.
-/

namespace VelocityX.LockFreeStack.Threads

open Transition Linearization Linked

variable {ι A T : Type*}

/-! ### The invariant -/

def Pc.resource : Pc A T → Option A
  | .idle => none
  | .push (.alloc _) => none
  | .push (.loadHead a) => some a
  | .push (.storeNext a _) => some a
  | .push (.cas a _) => some a
  | .pop .loadHead => none
  | .pop (.loadNext _) => none
  | .pop (.cas _ _ _) => none
  | .pop (.release a) => some a

/-- The node at `a` is allocated and not published yet. -/
def Shared.Unpublished (sh : Shared A T) (a : A) : Prop :=
  sh.live a = true ∧ ∃ x, sh.item a = some x ∧ x ∉ sh.pushed

def Pc.Ok (sh : Shared A T) : Pc A T → Prop
  | .idle => True
  | .push (.alloc _) => True
  | .push (.loadHead a) => sh.Unpublished a
  | .push (.storeNext a _) => sh.Unpublished a
  | .push (.cas a head) => sh.Unpublished a ∧ sh.next a = some head
  | .pop .loadHead => True
  | .pop (.loadNext _) => True
  | .pop (.cas head next seen) =>
      seen ≤ sh.writes head ∧ (sh.writes head = seen → sh.next head = some next)
  | .pop (.release a) => sh.live a = true ∧ ∃ x, sh.item a = some x ∧ x ∈ sh.pushed

structure Good (sh : Shared A T) : Prop where
  live_item : ∀ a, sh.live a = true →
    ∃ x, sh.item a = some x ∧ x.ticket < sh.tickets ∧ x ∉ sh.returned
  live_unique : ∀ a b x y, sh.live a = true → sh.live b = true → sh.item a = some x →
    sh.item b = some y → x.ticket = y.ticket → a = b
  pushed_lt : ∀ x ∈ sh.pushed, x.ticket < sh.tickets
  pushed_nodup : sh.pushed.Nodup
  returned_nodup : sh.returned.Nodup
  returned_pushed : ∀ x ∈ sh.returned, x ∈ sh.pushed

/-- `as` are the addresses of the nodes of the stack. -/
structure InvAt (as : List A) (s : State ι A T) : Prop where
  chain : Chain s.shared.next s.shared.head as
  good : Good s.shared
  ok : ∀ t, (s.loc t).Ok s.shared
  exclusive : Exclusive Pc.resource s.loc
  stack_live : ∀ a ∈ as, s.shared.live a = true
  stack_free : ∀ a ∈ as, ∀ t, (s.loc t).resource ≠ some a
  stack_pushed : ∀ a ∈ as, ∃ x, s.shared.item a = some x ∧ x ∈ s.shared.pushed
  delivered : ∀ x ∈ s.shared.pushed, x ∈ s.shared.returned ∨
    (∃ a, a ∈ as ∧ s.shared.item a = some x) ∨
    ∃ t a, s.loc t = .pop (.release a) ∧ s.shared.item a = some x

theorem invAt_init : InvAt [] (init : State ι A T) := by
  refine ⟨rfl, ⟨?_, ?_, ?_, List.nodup_nil, List.nodup_nil, ?_⟩, fun _ => trivial,
    fun _ _ _ h => (by cases h), ?_, ?_, ?_, ?_⟩
  · intro a h
    cases h
  · intro a b x y h
    cases h
  · intro x h
    cases h
  · intro x h
    cases h
  · intro a h
    cases h
  · intro a h
    cases h
  · intro a h
    cases h
  · intro x h
    cases h

/-- A thread that holds an address knows that it is allocated. -/
theorem Pc.Ok.live {sh : Shared A T} {l : Pc A T} {a : A} (h : l.Ok sh)
    (hres : l.resource = some a) : sh.live a = true := by
  cases l with
  | idle => cases hres
  | push pc =>
    cases pc with
    | alloc value => cases hres
    | loadHead b => cases hres; exact h.1
    | storeNext b head => cases hres; exact h.1
    | cas b head => cases hres; exact h.1.1
  | pop pc =>
    cases pc with
    | loadHead => cases hres
    | loadNext b => cases hres
    | cas b next seen => cases hres
    | release b => cases hres; exact h.1

/-! ### Memory -/

section Memory

variable [DecidableEq A] {sh : Shared A T} {a b : A} {value : T} {node : Node A T}

theorem alloc_next_of_ne (hne : b ≠ a) : (sh.alloc a value).next b = sh.next b := by
  simp only [Shared.alloc, Shared.next, Function.update_of_ne hne]

theorem alloc_item_of_ne (hne : b ≠ a) : (sh.alloc a value).item b = sh.item b := by
  simp only [Shared.alloc, Shared.item, Function.update_of_ne hne]

theorem alloc_live_of_ne (hne : b ≠ a) : (sh.alloc a value).live b = sh.live b := by
  simp only [Shared.alloc, Function.update_of_ne hne]

theorem alloc_writes_of_ne (hne : b ≠ a) : (sh.alloc a value).writes b = sh.writes b := by
  simp only [Shared.alloc, Function.update_of_ne hne]

theorem alloc_item_self : (sh.alloc a value).item a = some ⟨sh.tickets, value⟩ := by
  simp only [Shared.alloc, Shared.item, Function.update_self, Option.map_some]

theorem alloc_live_self : (sh.alloc a value).live a = true := by
  simp only [Shared.alloc, Function.update_self]

theorem alloc_writes_self : (sh.alloc a value).writes a = sh.writes a + 1 := by
  simp only [Shared.alloc, Function.update_self]

variable {next : Option A}

theorem storeNext_next_self : (sh.storeNext a node next).next a = some next := by
  simp only [Shared.storeNext, Shared.next, Function.update_self, Option.map_some]

theorem storeNext_next_of_ne (hne : b ≠ a) : (sh.storeNext a node next).next b = sh.next b := by
  simp only [Shared.storeNext, Shared.next, Function.update_of_ne hne]

/-- A store to a node's `next` leaves all items as they are. -/
theorem storeNext_item (hnode : sh.mem a = some node) (b : A) :
    (sh.storeNext a node next).item b = sh.item b := by
  by_cases hne : b = a
  · subst hne
    simp only [Shared.storeNext, Shared.item, Function.update_self, hnode, Option.map_some]
  · simp only [Shared.storeNext, Shared.item, Function.update_of_ne hne]

theorem storeNext_writes_self : (sh.storeNext a node next).writes a = sh.writes a + 1 := by
  simp only [Shared.storeNext, Function.update_self]

theorem storeNext_writes_of_ne (hne : b ≠ a) :
    (sh.storeNext a node next).writes b = sh.writes b := by
  simp only [Shared.storeNext, Function.update_of_ne hne]

theorem release_live_self : (sh.release a node).live a = false := by
  simp only [Shared.release, Function.update_self]

theorem release_live_of_ne (hne : b ≠ a) : (sh.release a node).live b = sh.live b := by
  simp only [Shared.release, Function.update_of_ne hne]

end Memory

/-! ### Frames

What the steps of one thread leave true for the others. -/

section Frames

variable {sh : Shared A T} {l : Pc A T} {a : A}

theorem Pc.Ok.publish {x : Item T} {head : Option A} (hg : Good sh) (h : l.Ok sh)
    (hlive : sh.live a = true) (hx : sh.item a = some x) (hres : l.resource ≠ some a) :
    l.Ok { sh with head := head, pushed := sh.pushed ++ [x] } := by
  have hunpublished : ∀ b, sh.Unpublished b → some b ≠ some a →
      Shared.Unpublished { sh with head := head, pushed := sh.pushed ++ [x] } b := by
    rintro b ⟨hb, y, hy, hnot⟩ hne
    refine ⟨hb, y, hy, fun hmem => ?_⟩
    rcases List.mem_append.mp hmem with hold | hnew
    · exact hnot hold
    · rw [List.mem_singleton] at hnew
      subst hnew
      exact hne (congrArg some (hg.live_unique b a y y hb hlive hy hx rfl))
  cases l with
  | idle => trivial
  | push pc =>
    cases pc with
    | alloc value => trivial
    | loadHead b => exact hunpublished b h hres
    | storeNext b hd => exact hunpublished b h hres
    | cas b hd => exact ⟨hunpublished b h.1 hres, h.2⟩
  | pop pc =>
    cases pc with
    | loadHead => trivial
    | loadNext b => trivial
    | cas b next seen => exact h
    | release b =>
      rcases h with ⟨hb, y, hy, hmem⟩
      exact ⟨hb, y, hy, List.mem_append_left _ hmem⟩

theorem Pc.Ok.unlink {head : Option A} (h : l.Ok sh) : l.Ok { sh with head := head } := by
  cases l with
  | idle => trivial
  | push pc => cases pc <;> exact h
  | pop pc => cases pc <;> exact h

variable [DecidableEq A]

theorem Pc.Ok.alloc {value : T} (h : l.Ok sh) (hdead : ¬ sh.live a = true) :
    l.Ok (sh.alloc a value) := by
  have hne : ∀ b, sh.live b = true → b ≠ a := by
    intro b hb heq
    subst heq
    exact hdead hb
  have hunpublished : ∀ b, sh.Unpublished b → (sh.alloc a value).Unpublished b := by
    rintro b ⟨hb, x, hx, hnot⟩
    refine ⟨?_, x, ?_, hnot⟩
    · rw [alloc_live_of_ne (hne b hb)]
      exact hb
    · rw [alloc_item_of_ne (hne b hb)]
      exact hx
  cases l with
  | idle => trivial
  | push pc =>
    cases pc with
    | alloc value' => trivial
    | loadHead b => exact hunpublished b h
    | storeNext b hd => exact hunpublished b h
    | cas b hd =>
      refine ⟨hunpublished b h.1, ?_⟩
      rw [alloc_next_of_ne (hne b h.1.1)]
      exact h.2
  | pop pc =>
    cases pc with
    | loadHead => trivial
    | loadNext b => trivial
    | cas b next seen =>
      rcases h with ⟨hle, hnext⟩
      by_cases hb : b = a
      · subst hb
        rw [Pc.Ok, alloc_writes_self]
        exact ⟨Nat.le_succ_of_le hle, fun heq => by omega⟩
      · rw [Pc.Ok, alloc_writes_of_ne hb, alloc_next_of_ne hb]
        exact ⟨hle, hnext⟩
    | release b =>
      rcases h with ⟨hb, x, hx, hmem⟩
      refine ⟨?_, x, ?_, hmem⟩
      · rw [alloc_live_of_ne (hne b hb)]
        exact hb
      · rw [alloc_item_of_ne (hne b hb)]
        exact hx

theorem Pc.Ok.storeNext {node : Node A T} {next : Option A} (h : l.Ok sh)
    (hnode : sh.mem a = some node) (hres : l.resource ≠ some a) :
    l.Ok (sh.storeNext a node next) := by
  have hunpublished : ∀ b, sh.Unpublished b → (sh.storeNext a node next).Unpublished b := by
    rintro b ⟨hb, x, hx, hnot⟩
    refine ⟨hb, x, ?_, hnot⟩
    rw [storeNext_item hnode]
    exact hx
  cases l with
  | idle => trivial
  | push pc =>
    cases pc with
    | alloc value => trivial
    | loadHead b => exact hunpublished b h
    | storeNext b hd => exact hunpublished b h
    | cas b hd =>
      refine ⟨hunpublished b h.1, ?_⟩
      rw [storeNext_next_of_ne (fun heq => hres (congrArg some heq))]
      exact h.2
  | pop pc =>
    cases pc with
    | loadHead => trivial
    | loadNext b => trivial
    | cas b next' seen =>
      rcases h with ⟨hle, hnext⟩
      by_cases hb : b = a
      · subst hb
        rw [Pc.Ok, storeNext_writes_self]
        exact ⟨Nat.le_succ_of_le hle, fun heq => by omega⟩
      · rw [Pc.Ok, storeNext_writes_of_ne hb, storeNext_next_of_ne hb]
        exact ⟨hle, hnext⟩
    | release b =>
      rcases h with ⟨hb, x, hx, hmem⟩
      refine ⟨hb, x, ?_, hmem⟩
      rw [storeNext_item hnode]
      exact hx

theorem Pc.Ok.release {node : Node A T} (h : l.Ok sh) (hres : l.resource ≠ some a) :
    l.Ok (sh.release a node) := by
  have hunpublished : ∀ b, sh.Unpublished b → some b ≠ some a →
      (sh.release a node).Unpublished b := by
    rintro b ⟨hb, hitem⟩ hne
    refine ⟨?_, hitem⟩
    rw [release_live_of_ne (fun heq => hne (congrArg some heq))]
    exact hb
  cases l with
  | idle => trivial
  | push pc =>
    cases pc with
    | alloc value => trivial
    | loadHead b => exact hunpublished b h hres
    | storeNext b hd => exact hunpublished b h hres
    | cas b hd => exact ⟨hunpublished b h.1 hres, h.2⟩
  | pop pc =>
    cases pc with
    | loadHead => trivial
    | loadNext b => trivial
    | cas b next seen => exact h
    | release b =>
      refine ⟨?_, h.2⟩
      rw [release_live_of_ne (fun heq => hres (congrArg some heq))]
      exact h.1

end Frames

/-! ### The steps -/

section Steps

variable [DecidableEq ι] {s : State ι A T} {t : ι} {l' : Pc A T} {as : List A}

/-- What a step by a thread that is not releasing a node leaves of `delivered`. -/
theorem released_update {x : Item T}
    (h : ∃ u a, s.loc u = .pop (.release a) ∧ s.shared.item a = some x)
    (ht : ∀ a, s.loc t ≠ .pop (.release a)) :
    ∃ u a, Function.update s.loc t l' u = .pop (.release a) ∧ s.shared.item a = some x := by
  rcases h with ⟨u, a, hu, ha⟩
  refine ⟨u, a, ?_, ha⟩
  rw [Function.update_of_ne (fun hut => ht a (by rw [← hut]; exact hu))]
  exact hu

/-- A step that does not change the shared memory. -/
theorem InvAt.quiet (h : InvAt as s) (hok : l'.Ok s.shared)
    (hres : ∀ a, l'.resource = some a → (s.loc t).resource = some a)
    (hrelease : ∀ a, s.loc t ≠ .pop (.release a)) :
    InvAt as ⟨s.shared, Function.update s.loc t l'⟩ := by
  refine ⟨h.chain, h.good, ?_, h.exclusive.update fun a ha => Or.inl (hres a ha), h.stack_live,
    fun a ha => ?_, h.stack_pushed, fun x hx => ?_⟩
  · exact (Function.forall_update_iff _ fun _ l => Pc.Ok s.shared l).mpr ⟨hok, fun u _ => h.ok u⟩
  · refine (Function.forall_update_iff _ fun _ l => Pc.resource l ≠ some a).mpr ⟨?_, ?_⟩
    · exact fun ha' => h.stack_free a ha t (hres a ha')
    · exact fun u _ => h.stack_free a ha u
  · rcases h.delivered x hx with hret | hstack | hheld
    · exact Or.inl hret
    · exact Or.inr (Or.inl hstack)
    · exact Or.inr (Or.inr (released_update hheld hrelease))

/-- A push publishes its node: it becomes the first of the stack. -/
theorem InvAt.publish (h : InvAt as s) {a : A} {node : Node A T}
    (hl : s.loc t = .push (.cas a s.shared.head)) (hnode : s.shared.mem a = some node) :
    InvAt (a :: as) ⟨{ s.shared with head := some a, pushed := s.shared.pushed ++ [node.item] },
      Function.update s.loc t .idle⟩ := by
  have hg := h.good
  have hres : (s.loc t).resource = some a := by
    rw [hl]
    rfl
  have hok := h.ok t
  rw [hl] at hok
  rcases hok with ⟨⟨hlive, x, hx, hnot⟩, hnext⟩
  have hitem : s.shared.item a = some node.item := by
    rw [Shared.item, hnode]
    rfl
  rw [hx] at hitem
  cases hitem
  refine ⟨⟨rfl, _, hnext, h.chain⟩, ⟨hg.live_item, hg.live_unique, ?_, ?_, hg.returned_nodup, ?_⟩,
    ?_, ?_, ?_, ?_, ?_, ?_⟩
  · intro y hy
    rcases List.mem_append.mp hy with hold | hnew
    · exact hg.pushed_lt y hold
    · rw [List.mem_singleton] at hnew
      subst hnew
      rcases hg.live_item a hlive with ⟨z, hz, hlt, _⟩
      rw [hx] at hz
      cases hz
      exact hlt
  · refine List.Nodup.append hg.pushed_nodup (List.nodup_singleton _) ?_
    intro y hy hmem
    rw [List.mem_singleton] at hmem
    subst hmem
    exact hnot hy
  · intro y hy
    exact List.mem_append_left _ (hg.returned_pushed y hy)
  · refine (Function.forall_update_iff _ fun _ l => Pc.Ok _ l).mpr ⟨trivial, fun u hu => ?_⟩
    exact (h.ok u).publish hg hlive hx (h.exclusive.ne_of_ne hu hres)
  · exact h.exclusive.update fun b hb => by cases hb
  · intro b hb
    rcases List.mem_cons.mp hb with rfl | hb
    · exact hlive
    · exact h.stack_live b hb
  · intro b hb
    refine (Function.forall_update_iff _ fun _ l => Pc.resource l ≠ some b).mpr ⟨nofun, ?_⟩
    intro u hu
    rcases List.mem_cons.mp hb with rfl | hb
    · exact h.exclusive.ne_of_ne hu hres
    · exact h.stack_free b hb u
  · intro b hb
    rcases List.mem_cons.mp hb with rfl | hb
    · exact ⟨node.item, hx, List.mem_append_right _ (List.mem_singleton_self _)⟩
    · rcases h.stack_pushed b hb with ⟨y, hy, hmem⟩
      exact ⟨y, hy, List.mem_append_left _ hmem⟩
  · intro y hy
    rcases List.mem_append.mp hy with hold | hnew
    · rcases h.delivered y hold with hret | ⟨b, hb, hby⟩ | hheld
      · exact Or.inl hret
      · exact Or.inr (Or.inl ⟨b, List.mem_cons_of_mem _ hb, hby⟩)
      · refine Or.inr (Or.inr (released_update hheld fun b heq => ?_))
        rw [hl] at heq
        cases heq
    · rw [List.mem_singleton] at hnew
      subst hnew
      exact Or.inr (Or.inl ⟨a, List.mem_cons_self, hx⟩)

/-- A pop unlinks the first node of the stack if it installs that node's next pointer. -/
theorem InvAt.unlink (h : InvAt as s) {head : A} {next : Option A} {seen : Nat}
    (hl : s.loc t = .pop (.cas head next seen)) (hhead : s.shared.head = some head)
    (hnext : s.shared.next head = some next) :
    ∃ rest, as = head :: rest ∧ InvAt rest
      ⟨{ s.shared with head := next }, Function.update s.loc t (.pop (.release head))⟩ := by
  have hg := h.good
  have hchain := h.chain
  rw [hhead] at hchain
  cases as with
  | nil => cases hchain
  | cons a rest =>
    rcases hchain with ⟨heq, n, hn, hrest⟩
    cases heq
    rw [hnext] at hn
    cases hn
    have hnodup : head ∉ rest := (List.nodup_cons.mp h.chain.nodup).1
    have hmem : ∀ b, b ∈ rest → b ∈ head :: rest := fun b hb => List.mem_cons_of_mem _ hb
    refine ⟨rest, rfl, hrest, { hg with }, ?_, ?_, fun b hb => h.stack_live b (hmem b hb), ?_,
      fun b hb => h.stack_pushed b (hmem b hb), ?_⟩
    · refine (Function.forall_update_iff _ fun _ l => Pc.Ok _ l).mpr
        ⟨?_, fun u _ => (h.ok u).unlink⟩
      exact ⟨h.stack_live head List.mem_cons_self, h.stack_pushed head List.mem_cons_self⟩
    · refine h.exclusive.update fun b hb => Or.inr fun u _ => ?_
      cases hb
      exact h.stack_free head List.mem_cons_self u
    · intro b hb
      refine (Function.forall_update_iff _ fun _ l => Pc.resource l ≠ some b).mpr ⟨?_, ?_⟩
      · intro heq
        cases heq
        exact hnodup hb
      · exact fun u _ => h.stack_free b (hmem b hb) u
    · intro x hx
      rcases h.delivered x hx with hret | ⟨b, hb, hbx⟩ | hheld
      · exact Or.inl hret
      · rcases List.mem_cons.mp hb with rfl | hb
        · exact Or.inr (Or.inr ⟨t, b, Function.update_self _ _ _, hbx⟩)
        · exact Or.inr (Or.inl ⟨b, hb, hbx⟩)
      · refine Or.inr (Or.inr (released_update hheld fun b heq => ?_))
        rw [hl] at heq
        cases heq

variable [DecidableEq A]

/-- The ticket of the new item is larger than all others. -/
theorem Good.alloc {sh : Shared A T} {a : A} (h : Good sh) (value : T) :
    Good (sh.alloc a value) := by
  have hnew : ⟨sh.tickets, value⟩ ∉ sh.pushed := fun hmem =>
    Nat.lt_irrefl _ (h.pushed_lt _ hmem)
  refine ⟨?_, ?_, ?_, h.pushed_nodup, h.returned_nodup, h.returned_pushed⟩
  · intro b hb
    by_cases hba : b = a
    · subst hba
      exact ⟨⟨sh.tickets, value⟩, alloc_item_self, Nat.lt_succ_self _,
        fun hmem => hnew (h.returned_pushed _ hmem)⟩
    · rw [alloc_live_of_ne hba] at hb
      rcases h.live_item b hb with ⟨x, hx, hlt, hnot⟩
      refine ⟨x, ?_, Nat.lt_succ_of_lt hlt, hnot⟩
      rw [alloc_item_of_ne hba]
      exact hx
  · have hold : ∀ b y, b ≠ a → (sh.alloc a value).live b = true →
        (sh.alloc a value).item b = some y →
        sh.live b = true ∧ sh.item b = some y ∧ y.ticket < sh.tickets := by
      intro b y hba hb hy
      rw [alloc_live_of_ne hba] at hb
      rw [alloc_item_of_ne hba] at hy
      rcases h.live_item b hb with ⟨x, hx, hlt, _⟩
      rw [hx] at hy
      cases hy
      exact ⟨hb, hx, hlt⟩
    have hself : ∀ y, (sh.alloc a value).item a = some y → y.ticket = sh.tickets := by
      intro y hy
      rw [alloc_item_self] at hy
      cases hy
      rfl
    intro b c x y hb hc hx hy hxy
    by_cases hba : b = a
    · by_cases hca : c = a
      · rw [hba, hca]
      · subst hba
        have hlt := (hold c y hca hc hy).2.2
        rw [← hxy, hself x hx] at hlt
        exact absurd hlt (Nat.lt_irrefl _)
    · have hb' := hold b x hba hb hx
      by_cases hca : c = a
      · subst hca
        have hlt := hb'.2.2
        rw [hxy, hself y hy] at hlt
        exact absurd hlt (Nat.lt_irrefl _)
      · have hc' := hold c y hca hc hy
        exact h.live_unique b c x y hb'.1 hc'.1 hb'.2.1 hc'.2.1 hxy
  · intro x hx
    exact Nat.lt_succ_of_lt (h.pushed_lt x hx)

theorem InvAt.alloc (h : InvAt as s) {a : A} {value : T} (hl : s.loc t = .push (.alloc value))
    (hdead : ¬ s.shared.live a = true) :
    InvAt as ⟨s.shared.alloc a value, Function.update s.loc t (.push (.loadHead a))⟩ := by
  have hg := h.good
  have hne : ∀ b, s.shared.live b = true → b ≠ a := by
    intro b hb heq
    subst heq
    exact hdead hb
  have hunheld : ∀ u, (s.loc u).resource ≠ some a := fun u hu => hdead ((h.ok u).live hu)
  have hstack : ∀ b ∈ as, b ≠ a := fun b hb => hne b (h.stack_live b hb)
  have hnew : ⟨s.shared.tickets, value⟩ ∉ s.shared.pushed := fun hmem =>
    Nat.lt_irrefl _ (hg.pushed_lt _ hmem)
  refine ⟨?_, hg.alloc value, ?_, ?_, ?_, ?_,
    ?_, ?_⟩
  · exact h.chain.congr fun b hb => alloc_next_of_ne (hstack b hb)
  · refine (Function.forall_update_iff _ fun _ l => Pc.Ok (s.shared.alloc a value) l).mpr ⟨?_, ?_⟩
    · exact ⟨alloc_live_self, ⟨s.shared.tickets, value⟩, alloc_item_self, hnew⟩
    · exact fun u _ => (h.ok u).alloc hdead
  · refine h.exclusive.update fun b hb => Or.inr fun u _ => ?_
    cases hb
    exact hunheld u
  · intro b hb
    show (s.shared.alloc a value).live b = true
    rw [alloc_live_of_ne (hstack b hb)]
    exact h.stack_live b hb
  · intro b hb
    refine (Function.forall_update_iff _ fun _ l => Pc.resource l ≠ some b).mpr ⟨?_, ?_⟩
    · exact fun heq => hstack b hb (Option.some.inj heq).symm
    · exact fun u _ => h.stack_free b hb u
  · intro b hb
    rcases h.stack_pushed b hb with ⟨x, hx, hmem⟩
    refine ⟨x, ?_, hmem⟩
    show (s.shared.alloc a value).item b = some x
    rw [alloc_item_of_ne (hstack b hb)]
    exact hx
  · intro x hx
    rcases h.delivered x hx with hret | ⟨b, hb, hbx⟩ | ⟨u, b, hu, hbx⟩
    · exact Or.inl hret
    · refine Or.inr (Or.inl ⟨b, hb, ?_⟩)
      show (s.shared.alloc a value).item b = some x
      rw [alloc_item_of_ne (hstack b hb)]
      exact hbx
    · have hba : b ≠ a := fun heq => hunheld u (by rw [hu, heq]; rfl)
      refine Or.inr (Or.inr ⟨u, b, ?_, ?_⟩)
      · show Function.update s.loc t (.push (.loadHead a)) u = .pop (.release b)
        rw [Function.update_of_ne]
        · exact hu
        · intro hut
          rw [hut, hl] at hu
          cases hu
      · show (s.shared.alloc a value).item b = some x
        rw [alloc_item_of_ne hba]
        exact hbx

theorem InvAt.storeNext (h : InvAt as s) {a : A} {head : Option A} {node : Node A T}
    (hl : s.loc t = .push (.storeNext a head)) (hnode : s.shared.mem a = some node) :
    InvAt as ⟨s.shared.storeNext a node head, Function.update s.loc t (.push (.cas a head))⟩ := by
  have hg := h.good
  have hself : s.shared.Unpublished a := by
    have hok := h.ok t
    rw [hl] at hok
    exact hok
  have hres : (s.loc t).resource = some a := by
    rw [hl]
    rfl
  have hstack : ∀ b ∈ as, b ≠ a := by
    intro b hb heq
    subst heq
    exact h.stack_free b hb t hres
  have hitem : ∀ b, (s.shared.storeNext a node head).item b = s.shared.item b :=
    storeNext_item hnode
  refine ⟨?_, ⟨?_, ?_, hg.pushed_lt, hg.pushed_nodup, hg.returned_nodup, hg.returned_pushed⟩,
    ?_, ?_, h.stack_live, ?_, ?_, ?_⟩
  · exact h.chain.congr fun b hb => storeNext_next_of_ne (hstack b hb)
  · intro b hb
    rw [hitem]
    exact hg.live_item b hb
  · intro b c x y hb hc
    rw [hitem, hitem]
    exact hg.live_unique b c x y hb hc
  · refine (Function.forall_update_iff _
      fun _ l => Pc.Ok (s.shared.storeNext a node head) l).mpr ⟨⟨?_, storeNext_next_self⟩, ?_⟩
    · rcases hself with ⟨hlive, x, hx, hnot⟩
      exact ⟨hlive, x, by rw [hitem]; exact hx, hnot⟩
    · exact fun u hu => (h.ok u).storeNext hnode (h.exclusive.ne_of_ne hu hres)
  · refine h.exclusive.update fun b hb => Or.inl ?_
    rw [hl]
    exact hb
  · intro b hb
    refine (Function.forall_update_iff _ fun _ l => Pc.resource l ≠ some b).mpr ⟨?_, ?_⟩
    · exact fun heq => hstack b hb (Option.some.inj heq).symm
    · exact fun u _ => h.stack_free b hb u
  · intro b hb
    rw [hitem]
    exact h.stack_pushed b hb
  · intro x hx
    simp only [hitem]
    rcases h.delivered x hx with hret | hstack | hheld
    · exact Or.inl hret
    · exact Or.inr (Or.inl hstack)
    · refine Or.inr (Or.inr (released_update hheld fun b heq => ?_))
      rw [hl] at heq
      cases heq

theorem InvAt.release (h : InvAt as s) {a : A} {node : Node A T}
    (hl : s.loc t = .pop (.release a)) (hnode : s.shared.mem a = some node) :
    InvAt as ⟨s.shared.release a node, Function.update s.loc t .idle⟩ := by
  have hg := h.good
  have hres : (s.loc t).resource = some a := by
    rw [hl]
    rfl
  have hok := h.ok t
  rw [hl] at hok
  rcases hok with ⟨hlive, x, hx, hpushed⟩
  have hitem : s.shared.item a = some node.item := by
    rw [Shared.item, hnode]
    rfl
  rw [hx] at hitem
  cases hitem
  have hnot : node.item ∉ s.shared.returned := by
    rcases hg.live_item a hlive with ⟨y, hy, _, hnot⟩
    rw [hx] at hy
    cases hy
    exact hnot
  have hlive_of : ∀ b, (s.shared.release a node).live b = true →
      b ≠ a ∧ s.shared.live b = true := by
    intro b hb
    by_cases hba : b = a
    · subst hba
      rw [release_live_self] at hb
      cases hb
    · rw [release_live_of_ne hba] at hb
      exact ⟨hba, hb⟩
  refine ⟨h.chain, ⟨?_, ?_, hg.pushed_lt, hg.pushed_nodup, ?_, ?_⟩, ?_, ?_, ?_, ?_,
    h.stack_pushed, ?_⟩
  · intro b hb
    rcases hlive_of b hb with ⟨hba, hb⟩
    rcases hg.live_item b hb with ⟨y, hy, hlt, hnoty⟩
    refine ⟨y, hy, hlt, fun hmem => ?_⟩
    rcases List.mem_append.mp hmem with hold | hnew
    · exact hnoty hold
    · rw [List.mem_singleton] at hnew
      subst hnew
      exact hba (hg.live_unique b a _ _ hb hlive hy hx rfl)
  · intro b c y z hb hc
    exact hg.live_unique b c y z (hlive_of b hb).2 (hlive_of c hc).2
  · refine List.Nodup.append hg.returned_nodup (List.nodup_singleton _) ?_
    intro y hy hmem
    rw [List.mem_singleton] at hmem
    subst hmem
    exact hnot hy
  · intro y hy
    rcases List.mem_append.mp hy with hold | hnew
    · exact hg.returned_pushed y hold
    · rw [List.mem_singleton] at hnew
      subst hnew
      exact hpushed
  · refine (Function.forall_update_iff _ fun _ l => Pc.Ok _ l).mpr ⟨trivial, fun u hu => ?_⟩
    exact (h.ok u).release (h.exclusive.ne_of_ne hu hres)
  · exact h.exclusive.update fun b hb => by cases hb
  · intro b hb
    show (s.shared.release a node).live b = true
    rw [release_live_of_ne]
    · exact h.stack_live b hb
    · intro heq
      subst heq
      exact h.stack_free b hb t hres
  · intro b hb
    exact (Function.forall_update_iff _ fun _ l => Pc.resource l ≠ some b).mpr
      ⟨nofun, fun u _ => h.stack_free b hb u⟩
  · intro y hy
    rcases h.delivered y hy with hret | hstack | ⟨u, b, hu, hby⟩
    · exact Or.inl (List.mem_append_left _ hret)
    · exact Or.inr (Or.inl hstack)
    · by_cases hut : u = t
      · subst hut
        rw [hl] at hu
        cases hu
        rw [hx] at hby
        cases hby
        exact Or.inl (List.mem_append_right _ (List.mem_singleton_self _))
      · refine Or.inr (Or.inr ⟨u, b, ?_, hby⟩)
        show Function.update s.loc t .idle u = .pop (.release b)
        rw [Function.update_of_ne hut]
        exact hu

end Steps

/-! ### Runs -/

theorem exists_map_some {α β : Type*} {f : α → Option β} (l : List α)
    (h : ∀ a ∈ l, ∃ b, f a = some b) : ∃ bs : List β, l.map f = bs.map some := by
  induction l with
  | nil => exact ⟨[], rfl⟩
  | cons a l ih =>
    rcases h a List.mem_cons_self with ⟨b, hb⟩
    rcases ih fun c hc => h c (List.mem_cons_of_mem _ hc) with ⟨bs, hbs⟩
    exact ⟨b :: bs, by rw [List.map_cons, List.map_cons, hb, hbs]⟩

theorem InvAt.deliveredOnce {s : State ι A T} {as : List A} (h : InvAt as s) :
    DeliveredOnce s := by
  have hg := h.good
  refine ⟨hg.returned_nodup, fun hidle => ⟨as, h.chain, ?_⟩⟩
  have hsome : ∀ a ∈ as, ∃ x, s.shared.item a = some x := by
    intro a ha
    rcases h.stack_pushed a ha with ⟨x, hx, _⟩
    exact ⟨x, hx⟩
  rcases exists_map_some as hsome with ⟨items, hitems⟩
  have hmem : ∀ x, x ∈ items ↔ ∃ a ∈ as, s.shared.item a = some x := by
    intro x
    rw [← List.mem_map, hitems, List.mem_map_of_injective (Option.some_injective _)]
  have hnodup : items.Nodup := by
    have hmap : (as.map s.shared.item).Nodup := by
      refine h.chain.nodup.map_on fun a ha b hb heq => ?_
      rcases h.stack_pushed a ha with ⟨x, hx, _⟩
      exact hg.live_unique a b x x (h.stack_live a ha) (h.stack_live b hb) hx
        (by rw [← heq]; exact hx) rfl
    rw [hitems] at hmap
    exact hmap.of_map _
  have hboth : (items ++ s.shared.returned).Nodup := by
    refine List.Nodup.append hnodup hg.returned_nodup fun x hx hret => ?_
    rcases (hmem x).mp hx with ⟨a, ha, hax⟩
    rcases hg.live_item a (h.stack_live a ha) with ⟨y, hy, _, hnot⟩
    rw [hax] at hy
    cases hy
    exact hnot hret
  refine ⟨items, hitems, ?_, hboth⟩
  refine (List.perm_ext_iff_of_nodup hboth hg.pushed_nodup).mpr fun x => ?_
  rw [List.mem_append, hmem]
  constructor
  · rintro (⟨a, ha, hax⟩ | hret)
    · rcases h.stack_pushed a ha with ⟨y, hy, hpushed⟩
      rw [hax] at hy
      cases hy
      exact hpushed
    · exact hg.returned_pushed x hret
  · intro hx
    rcases h.delivered x hx with hret | hstack | ⟨t, a, ht, _⟩
    · exact Or.inr hret
    · exact Or.inl hstack
    · rw [hidle t] at ht
      cases ht

/-- A compare-exchange that meets the condition sees the `next` that it loaded. -/
theorem installsCurrentNext {s : State ι A T} {a : ι × Act A T} {as : List A} (h : InvAt as s)
    (hcond : NotReused s a) : InstallsCurrentNext s a := by
  intro head next seen hl ha hhead
  have hok := h.ok a.1
  rw [hl] at hok
  exact hok.2 (hcond head next seen hl ha hhead)

section Runs

variable [DecidableEq A] [DecidableEq ι] {s s' : State ι A T}

/-- The nodes of the stack after a step. -/
def stackAfter (sh : Shared A T) (as : List A) : Pc A T → Act A T → List A
  | .push (.cas a head), .step => if sh.head = head then a :: as else as
  | .pop (.cas head _ _), .step => if sh.head = some head then as.tail else as
  | _, _ => as

theorem InvAt.effect {t : ι} {act : Act A T} {sh' : Shared A T} {l l' : Pc A T} {as : List A}
    (h : InvAt as s) (hl : s.loc t = l) (hcurrent : InstallsCurrentNext s (t, act))
    (heff : Effect s.shared l act sh' l') :
    InvAt (stackAfter s.shared as l act) ⟨sh', Function.update s.loc t l'⟩ := by
  have hok := h.ok t
  rw [hl] at hok
  -- a step that leaves the memory alone, by a thread that is not about to release a node
  have hquiet : ∀ l' : Pc A T, l'.Ok s.shared → (∀ b, l'.resource = some b → l.resource = some b) →
      (∀ b, l ≠ .pop (.release b)) → InvAt as ⟨s.shared, Function.update s.loc t l'⟩ := by
    intro l' hl' hres hrelease
    refine h.quiet hl' (fun b hb => ?_) (fun b heq => hrelease b (hl.symm.trans heq))
    rw [hl]
    exact hres b hb
  cases heff with
  | callPush value => exact hquiet _ trivial nofun nofun
  | callPop => exact hquiet _ trivial nofun nofun
  | alloc value a hdead => exact h.alloc hl hdead
  | loadHead a => exact hquiet (.push (.storeNext a s.shared.head)) hok (fun _ hb => hb) nofun
  | storeNext a head node hnode => exact h.storeNext hl hnode
  | publish a head node hhead hnode =>
    subst hhead
    rw [stackAfter, if_pos rfl]
    exact h.publish hl hnode
  | retryPush a head act hact =>
    have hsame : stackAfter s.shared as (.push (.cas a head)) act = as := by
      rcases hact with ⟨rfl, hne⟩ | rfl
      · exact if_neg hne
      · rfl
    rw [hsame]
    exact hquiet (.push (.loadHead a)) hok.1 (fun _ hb => hb) nofun
  | popEmpty hhead => exact hquiet _ trivial nofun nofun
  | popHead head hhead => exact hquiet _ trivial nofun nofun
  | loadNext head node hnode =>
    refine hquiet _ ⟨Nat.le_refl _, fun _ => ?_⟩ nofun nofun
    rw [Shared.next, hnode]
    rfl
  | unlink head next seen hhead =>
    obtain ⟨rest, rfl, hrest⟩ := h.unlink hl hhead (hcurrent head next seen hl rfl hhead)
    rw [stackAfter, if_pos hhead]
    exact hrest
  | retryPop head next seen act hact =>
    have hsame : stackAfter s.shared as (.pop (.cas head next seen)) act = as := by
      rcases hact with ⟨rfl, hne⟩ | rfl
      · exact if_neg hne
      · rfl
    rw [hsame]
    exact hquiet _ trivial nofun nofun
  | release a node hnode => exact h.release hl hnode

/-- **Every step that meets the condition keeps the invariant.** -/
theorem inv_step {a : ι × Act A T} (h : ∃ as, InvAt as s) (hcond : NotReused s a)
    (hstep : step s a = some s') : ∃ as, InvAt as s' := by
  obtain ⟨as, h⟩ := h
  obtain ⟨t, act⟩ := a
  obtain ⟨sh', l', hp, rfl⟩ := interleave_eq_some.mp hstep
  exact ⟨_, h.effect rfl (installsCurrentNext h hcond) (program_effect hp)⟩

theorem along_installsCurrentNext {as : List (ι × Act A T)} :
    ∀ {s : State ι A T}, (∃ l, InvAt l s) → Along step NotReused s as →
      Along step InstallsCurrentNext s as := by
  induction as with
  | nil =>
    intro s _ _
    trivial
  | cons a as ih =>
    intro s h hcond
    rcases hcond with ⟨ha, hrest⟩
    refine ⟨?_, fun s' hs' => ih (inv_step h ha hs') (hrest s' hs')⟩
    rcases h with ⟨l, h⟩
    exact installsCurrentNext h ha

/-- **Without reuse there is no ABA.**  In every run whose steps all meet the condition,
    every successful compare-exchange of a pop installs the current next pointer, and every
    state reached has handed out each item at most once and lost none; the items handed out are
    those whose values the pops returned. -/
theorem aba_free_of_notReused {as : List (ι × Act A T)}
    (hcond : Along step NotReused (init : State ι A T) as)
    (hrun : run step (init : State ι A T) as = some s) :
    Along step InstallsCurrentNext (init : State ι A T) as ∧ DeliveredOnce s ∧
      (trace step handedOut (init : State ι A T) as).map Prod.snd =
        s.shared.returned.map Item.value := by
  have hinit : ∃ l, InvAt l (init : State ι A T) := ⟨[], invAt_init⟩
  refine ⟨along_installsCurrentNext hinit hcond, ?_, returned_eq hrun⟩
  rcases run_invariant_along (I := fun m : State ι A T => ∃ l, InvAt l m)
    (fun _ _ _ hm hC hm' => inv_step hm hC hm') hinit hcond hrun with ⟨l, h⟩
  exact h.deliveredOnce

end Runs

/-- Thread `false` loads the head and its next; thread `true` pops that node, pushes at the same
    address again and then a second node, so that the compare-exchange of `false` fails. -/
def reusedBelow : List (Bool × Act Nat Nat) :=
  [(true, .call (.push 5)), (true, .alloc 1), (true, .step), (true, .step), (true, .step),
    (false, .call .pop), (false, .step), (false, .step),
    (true, .call .pop), (true, .step), (true, .step), (true, .step), (true, .step),
    (true, .call (.push 6)), (true, .alloc 1), (true, .step), (true, .step), (true, .spurious),
    (true, .step), (true, .step), (true, .step),
    (true, .call (.push 8)), (true, .alloc 2), (true, .step), (true, .step), (true, .step),
    (false, .step), (false, .step), (false, .step), (false, .step), (false, .step)]

theorem aba_free_of_notReused_reused :
    ∃ s, run step (init : State Bool Nat Nat) reusedBelow = some s ∧ s.shared.writes 1 = 5 ∧
      (trace step handedOut (init : State Bool Nat Nat) reusedBelow).map Prod.snd = [5, 8] ∧
      Along step InstallsCurrentNext (init : State Bool Nat Nat) reusedBelow ∧
      DeliveredOnce s := by
  have hrun : (run step (init : State Bool Nat Nat) reusedBelow).map
      (fun s => (s.shared.writes 1, s.shared.returned)) = some (5, [⟨0, 5⟩, ⟨2, 8⟩]) := rfl
  have hcond : Along step NotReused (init : State Bool Nat Nat) reusedBelow := by
    decide
  obtain ⟨s, hs, heq⟩ := Option.map_eq_some_iff.mp hrun
  simp only [Prod.mk.injEq] at heq
  obtain ⟨hwrites, hreturned⟩ := heq
  obtain ⟨hinstalls, hdelivered, hhanded⟩ := aba_free_of_notReused hcond hs
  refine ⟨s, hs, hwrites, ?_, hinstalls, hdelivered⟩
  rw [hhanded, hreturned]
  rfl

/-- Thread `true` loads head and next of a stack of two nodes; then thread `false` pops both
    and pushes again, and the allocator hands out the address that was the head. -/
def reusedHead : List (Bool × Act Nat Nat) :=
  [(false, .call (.push 5)), (false, .alloc 2), (false, .step), (false, .step), (false, .step),
    (false, .call (.push 6)), (false, .alloc 1), (false, .step), (false, .step), (false, .step),
    (true, .call .pop), (true, .step), (true, .step),
    (false, .call .pop), (false, .step), (false, .step), (false, .step), (false, .step),
    (false, .call .pop), (false, .step), (false, .step), (false, .step), (false, .step),
    (false, .call (.push 7)), (false, .alloc 1), (false, .step), (false, .step), (false, .step),
    (true, .step), (true, .step)]

/-- The released node becomes the head, and its item is on the stack a second time. -/
theorem reused_head_returns :
    ¬ (∀ (as : List (Bool × Act Nat Nat)) (s : State Bool Nat Nat), run step init as = some s →
      Along step InstallsCurrentNext (init : State Bool Nat Nat) as ∧ DeliveredOnce s) := by
  intro h
  have hrun : (run step (init : State Bool Nat Nat) reusedHead).map (fun s =>
      (s.loc false, s.loc true, s.shared.head, s.shared.next 2, s.shared.item 2,
        s.shared.returned)) =
        some (.idle, .idle, some 2, some none, some ⟨0, 5⟩, [⟨1, 6⟩, ⟨0, 5⟩, ⟨2, 7⟩]) := rfl
  rcases Option.map_eq_some_iff.mp hrun with ⟨s, hs, heq⟩
  simp only [Prod.mk.injEq] at heq
  rcases heq with ⟨hfalse, htrue, hhead, hnext, hitem, hreturned⟩
  rcases (h reusedHead s hs).2.kept (fun t => by cases t; exacts [hfalse, htrue])
    with ⟨as, hchain, items, hitems, _, hnodup⟩
  rw [hhead] at hchain
  have has : as = [2] := hchain.unique ⟨rfl, none, hnext, rfl⟩
  rw [has, List.map_singleton, hitem] at hitems
  have hmem : some (⟨0, 5⟩ : Item Nat) ∈ items.map some := by
    rw [← hitems]
    exact List.mem_singleton_self _
  rcases List.mem_map.mp hmem with ⟨x, hx, hxeq⟩
  cases hxeq
  rw [hreturned] at hnodup
  exact (List.nodup_append.mp hnodup).2.2 _ hx _ (by decide) rfl

end VelocityX.LockFreeStack.Threads
