import Mathlib.Control.Monad.Basic
import VelocityX.Map.DuringResizeInvariant

/-!
# A lookup or a removal during a resize

One thread resizes the table for its own insert, and another calls `get` or `remove` once,
for a key that nobody else writes.  The call loads the capacity, from which it computes the
bucket index, and the table at different times, and the resize stores the two separately.
-/

namespace VelocityX.Map.DuringResize

open Transition

variable {K V : Type*}

inductive Party where
  | resizer
  | caller
deriving DecidableEq, Repr

abbrev partyStep [DecidableEq K] (h : K → UInt64) (cap : Nat) (s : State Party K V) (p : Party) :
    Option (State Party K V) := step h cap s (p, .step)

/-- The caller is at the start of its call and the resizer of its resize. -/
def meet (t : Table K V) (cap size : Nat) (key : K) (value : V) (call : Call K V) :
    State Party K V where
  shared := .start t cap size
  loc
    | .resizer => .insert key value .resize
    | .caller => call.start

/-- The call scans or writes the bucket in which its key is, and does not find the resize state. -/
def CallInPlace (h : K → UInt64) (cap : Nat) (s : State Party K V) (p : Party) : Prop :=
  p = .caller → NoHelp s.shared (s.loc p) ∧ ReadsRight h cap s.shared (s.loc p) ∧
    WritesRight h cap s.shared (s.loc p)

instance (h : K → UInt64) (cap : Nat) (s : State Party K V) (p : Party) :
    Decidable (CallInPlace h cap s p) :=
  inferInstanceAs (Decidable (p = .caller → NoHelp s.shared (s.loc p) ∧
    ReadsRight h cap s.shared (s.loc p) ∧ WritesRight h cap s.shared (s.loc p)))

/-! ### Locks and the steps that are left -/

/-- The stripe lock that a thread holds. -/
def Local.stripe (h : K → UInt64) : Local K V → Option Nat
  | .insert _ _ .resize => none
  | .insert _ _ .lock => none
  | .insert key _ _ => some (stripeIndex (h key) 0)
  | .remove _ .loadCapacity => none
  | .remove _ (.lock _) => none
  | .remove key _ => some (stripeIndex (h key) 0)
  | _ => none

def Work.left (cap : Nat) : Work → Nat
  | .storeState => cap + 8
  | .migrate i => cap - i + 7
  | .storeTable => 6
  | .storeCapacity => 5
  | .storeNull => 4
  | .dealloc => 3
  | .dropState => 2
  | .finished => 0

/-- The steps that are left to a call, apart from pieces of the resize. -/
def Local.left : Local K V → Nat
  | .insert _ _ .resize => 8
  | .insert _ _ .lock => 7
  | .insert _ _ .loadCapacity => 6
  | .insert _ _ (.loadTable _) => 5
  | .insert _ _ (.write _ _) => 4
  | .insert _ _ .addSize => 3
  | .insert _ _ (.unlock _) => 2
  | .get _ .loadCapacity => 6
  | .get _ (.loadState _) => 5
  | .get _ (.loadTable _) => 4
  | .get _ (.scan _ _) => 3
  | .remove _ .loadCapacity => 7
  | .remove _ (.lock _) => 6
  | .remove _ (.loadTable _) => 5
  | .remove _ (.write _ _) => 4
  | .remove _ (.subSize _) => 3
  | .remove _ (.unlock _) => 2
  | _ => 0

section Facts

variable {h : K → UInt64} {cap : Nat} {sh sh' : Shared K V} {l l' : Local K V} {key : K} {value : V}

theorem left_advance (hwork : sh.work ≠ .finished) :
    (sh.advance cap).work.left cap < sh.work.left cap := by
  rw [Shared.advance]
  cases hw : sh.work with
  | finished => exact absurd hw hwork
  | migrate i =>
    by_cases hi : i < cap
    · simp only [if_pos hi, Work.left]
      omega
    · simp only [if_neg hi, Work.left]
      omega
  | _ => simp only [Work.left]; omega

theorem advance_frame (sh : Shared K V) (cap : Nat) :
    (sh.advance cap).writes = sh.writes ∧ (sh.advance cap).locked = sh.locked := by
  rw [Shared.advance]
  split
  · exact ⟨rfl, rfl⟩
  · split <;> exact ⟨rfl, rfl⟩
  all_goals exact ⟨rfl, rfl⟩

/-- What a step of a call does apart from the tables: it may do a piece of the resize, write its
    own key, take its lock or release it. -/
structure Facts (h : K → UInt64) (cap : Nat) (sh sh' : Shared K V) (l l' : Local K V)
    (key : K) : Prop where
  work : sh'.work = sh.work ∨ sh.work ≠ .finished
  writes : sh'.writes = sh.writes ∨
    ∃ w, sh'.writes = sh.writes ++ [w] ∧ ∀ k, k ≠ key → ¬ w.Touches h k
  locks : ∀ stripe, sh'.locked stripe = true →
    l'.stripe h = some stripe ∨ sh.locked stripe = true ∧ l.stripe h ≠ some stripe
  left : sh'.work.left cap + l'.left < sh.work.left cap + l.left

/-- A step that does not touch the locks. -/
theorem locks_same (hlocked : sh'.locked = sh.locked) (hstripe : l'.stripe h = l.stripe h)
    (stripe : Nat) (hheld : sh'.locked stripe = true) :
    l'.stripe h = some stripe ∨ sh.locked stripe = true ∧ l.stripe h ≠ some stripe := by
  rw [hlocked] at hheld
  by_cases hl : l.stripe h = some stripe
  · exact .inl (hstripe.trans hl)
  · exact .inr ⟨hheld, hl⟩

theorem locks_take {r : Nat} (hlocked : sh'.locked = Function.update sh.locked r true)
    (hstripe : l'.stripe h = some r) (hfree : l.stripe h = none) (stripe : Nat)
    (hheld : sh'.locked stripe = true) :
    l'.stripe h = some stripe ∨ sh.locked stripe = true ∧ l.stripe h ≠ some stripe := by
  by_cases hr : stripe = r
  · exact .inl (hr ▸ hstripe)
  · rw [hlocked, Function.update_of_ne hr] at hheld
    exact .inr ⟨hheld, by rw [hfree]; exact nofun⟩

theorem locks_release {r : Nat} (hlocked : sh'.locked = Function.update sh.locked r false)
    (hstripe : l.stripe h = some r) (stripe : Nat) (hheld : sh'.locked stripe = true) :
    l'.stripe h = some stripe ∨ sh.locked stripe = true ∧ l.stripe h ≠ some stripe := by
  by_cases hr : stripe = r
  · rw [hlocked, hr, Function.update_self] at hheld
    cases hheld
  · rw [hlocked, Function.update_of_ne hr] at hheld
    refine .inr ⟨hheld, ?_⟩
    rw [hstripe]
    exact fun heq => hr (Option.some.inj heq).symm

theorem log_frame (sh : Shared K V) (side : Side) (t : Table K V) (w : Write K V) :
    ((sh.storeTableAt t side).log w).writes = sh.writes ++ [w] ∧
      ((sh.storeTableAt t side).log w).locked = sh.locked ∧
      ((sh.storeTableAt t side).log w).work = sh.work := by
  cases side <;> exact ⟨rfl, rfl, rfl⟩

/-- A piece of the resize. -/
theorem facts_advance (hwork : sh.work ≠ .finished) (hstripe : l'.stripe h = l.stripe h)
    (hleft : l'.left ≤ l.left) :
    Facts h cap sh (sh.advance cap) l l' key :=
  ⟨.inr hwork, .inl (advance_frame sh cap).1, locks_same (advance_frame sh cap).2 hstripe,
    Nat.add_lt_add_of_lt_of_le (left_advance hwork) hleft⟩

/-- A step that leaves the writes and the locks as they are. -/
theorem facts_quiet (hwork : sh'.work = sh.work) (hwrites : sh'.writes = sh.writes)
    (hlocked : sh'.locked = sh.locked) (hstripe : l'.stripe h = l.stripe h)
    (hleft : l'.left < l.left) : Facts h cap sh sh' l l' key := by
  refine ⟨.inl hwork, .inl hwrites, locks_same hlocked hstripe, ?_⟩
  rw [hwork]
  exact Nat.add_lt_add_left hleft _

/-- A write of the key. -/
theorem facts_log {side : Side} {t : Table K V} {w : Write K V}
    (hw : ∀ k, k ≠ key → ¬ w.Touches h k) (hstripe : l'.stripe h = l.stripe h)
    (hleft : l'.left < l.left) :
    Facts h cap sh ((sh.storeTableAt t side).log w) l l' key := by
  obtain ⟨hwrites, hlocked, hwork⟩ := log_frame sh side t w
  refine ⟨.inl hwork, .inr ⟨w, hwrites, hw⟩, locks_same hlocked hstripe, ?_⟩
  rw [hwork]
  exact Nat.add_lt_add_left hleft _

variable [DecidableEq K]

theorem insertStep_facts {pc : InsertPc V} {next : Next (InsertPc V) (Result V)}
    (hstep : insertStep cap key value (h key) sh pc = some (sh', next)) :
    Facts h cap sh sh' (.insert key value pc) (.after (.insert key value) next) key := by
  cases pc with
  | resize =>
    simp only [insertStep] at hstep
    split at hstep
    · next hwork =>
      cases hstep
      exact facts_quiet rfl rfl rfl rfl (by simp [Local.after, Local.left])
    · next hwork =>
      cases hstep
      exact facts_advance hwork rfl (Nat.le_refl 8)
  | lock =>
    simp only [insertStep] at hstep
    split at hstep <;> cases hstep
    exact ⟨.inl rfl, .inl rfl, locks_take (r := stripeIndex (h key) 0) rfl rfl rfl,
      Nat.add_lt_add_left (by simp [Local.after, Local.left]) _⟩
  | loadCapacity =>
    cases hstep
    exact facts_quiet rfl rfl rfl rfl (by simp [Local.after, Local.left])
  | loadTable capacity =>
    cases hstep
    exact facts_quiet rfl rfl rfl rfl (by simp [Local.after, Local.left])
  | write capacity side =>
    have hothers : ∀ k, k ≠ key → ¬ (Write.insert key value).Touches h k :=
      fun k hk => Ne.symm hk
    simp only [insertStep] at hstep
    split at hstep <;> cases hstep
    · exact facts_log hothers rfl (by simp [Local.after, Local.left])
    · exact facts_log hothers rfl (by simp [Local.after, Local.left])
    · have hframe : ∀ t : Table K V, (sh.storeTableAt t side).work = sh.work ∧
          (sh.storeTableAt t side).writes = sh.writes ∧
          (sh.storeTableAt t side).locked = sh.locked := by
        intro t
        cases side <;> exact ⟨rfl, rfl, rfl⟩
      obtain ⟨hwork, hwrites, hlocked⟩ := hframe _
      exact facts_quiet hwork hwrites hlocked rfl (by simp [Local.after, Local.left])
  | addSize =>
    cases hstep
    exact facts_quiet rfl rfl rfl rfl (by simp [Local.after, Local.left])
  | unlock result =>
    cases hstep
    exact ⟨.inl rfl, .inl rfl, locks_release (r := stripeIndex (h key) 0) rfl rfl,
      Nat.add_lt_add_left (by simp [Local.after, Local.left]) _⟩

theorem removeStep_facts {pc : RemovePc V} {next : Next (RemovePc V) (Result V)}
    (hstep : removeStep key (h key) sh pc = some (sh', next)) :
    Facts h cap sh sh' (.remove key pc) (.after (.remove key) next) key := by
  cases pc with
  | loadCapacity =>
    cases hstep
    exact facts_quiet rfl rfl rfl rfl (by simp [Local.after, Local.left])
  | lock capacity =>
    simp only [removeStep] at hstep
    split at hstep <;> cases hstep
    exact ⟨.inl rfl, .inl rfl, locks_take (r := stripeIndex (h key) 0) rfl rfl rfl,
      Nat.add_lt_add_left (by simp [Local.after, Local.left]) _⟩
  | loadTable capacity =>
    cases hstep
    exact facts_quiet rfl rfl rfl rfl (by simp [Local.after, Local.left])
  | write capacity side =>
    have hothers : ∀ k, k ≠ key → ¬ (Write.remove key : Write K V).Touches h k :=
      fun k hk => Ne.symm hk
    simp only [removeStep] at hstep
    split at hstep <;> cases hstep
    · exact facts_log hothers rfl (by simp [Local.after, Local.left])
    · exact facts_log hothers rfl (by simp [Local.after, Local.left])
  | subSize value =>
    cases hstep
    exact facts_quiet rfl rfl rfl rfl (by simp [Local.after, Local.left])
  | unlock result =>
    cases hstep
    exact ⟨.inl rfl, .inl rfl, locks_release (r := stripeIndex (h key) 0) rfl rfl,
      Nat.add_lt_add_left (by simp [Local.after, Local.left]) _⟩

theorem getStep_facts {pc : GetPc} {next : Next GetPc (Result V)}
    (hhelp : NoHelp sh (.get key pc : Local K V))
    (hstep : getStep key (h key) sh pc = some (sh', next)) :
    Facts h cap sh sh' (.get key pc) (.after (.get key) next) key := by
  cases pc with
  | loadCapacity =>
    cases hstep
    exact facts_quiet rfl rfl rfl rfl (by simp [Local.after, Local.left])
  | loadState capacity =>
    have hidle : sh.resizing = false := hhelp
    simp only [getStep, hidle, Bool.false_eq_true, if_false] at hstep
    cases hstep
    exact facts_quiet rfl rfl rfl rfl (by simp [Local.after, Local.left])
  | help => cases hstep
  | loadTable capacity =>
    cases hstep
    exact facts_quiet rfl rfl rfl rfl (by simp [Local.after, Local.left])
  | scan capacity side =>
    cases hstep
    exact facts_quiet rfl rfl rfl rfl (by simp [Local.after, Local.left])

end Facts

/-! ### The two parties -/

section Parties

variable {h : K → UInt64} {cap : Nat} {f₀ : K → Option V} {sh sh' : Shared K V} {l l' : Local K V}
variable {k : K} {v : V} {call : Call K V}

def InsertPc.AfterResize (cap : Nat) (work : Work) : InsertPc V → Prop
  | .resize => True
  | .loadTable capacity => work = .finished ∧ capacity = cap * 2
  | .write capacity side => work = .finished ∧ capacity = cap * 2 ∧ side = .new
  | _ => work = .finished

/-- The resizer inserts another key, after the resize is finished. -/
def ResizerInv (cap : Nat) (k : K) (work : Work) : Local K V → Prop
  | .insert key _ pc => key ≠ k ∧ pc.AfterResize cap work
  | .ready _ => True
  | _ => False

theorem InsertPc.AfterResize.mono {pc : InsertPc V} (hpc : pc.AfterResize cap sh.work)
    (hwork : sh'.work = sh.work ∨ sh.work ≠ .finished) : pc.AfterResize cap sh'.work := by
  rcases hwork with heq | hne
  · rwa [heq]
  · cases pc with
    | resize => trivial
    | loadTable capacity => exact absurd hpc.1 hne
    | write capacity side => exact absurd hpc.1 hne
    | _ => exact absurd hpc hne

theorem ResizerInv.mono (hR : ResizerInv cap k sh.work l)
    (hwork : sh'.work = sh.work ∨ sh.work ≠ .finished) : ResizerInv cap k sh'.work l := by
  cases l with
  | insert key value pc => exact ⟨hR.1, hR.2.mono hwork⟩
  | _ => exact hR

/-- The insert of the resizer goes to the new table with the new capacity. -/
theorem ResizerInv.writesRight (hR : ResizerInv cap k sh.work l) : WritesRight h cap sh l := by
  intro access haccess
  cases l with
  | insert key value pc =>
    cases pc with
    | write capacity side =>
      cases haccess
      obtain ⟨_, _, rfl, rfl⟩ := hR
      exact rfl
    | _ => cases haccess
  | ready last => cases haccess
  | _ => exact hR.elim

variable [DecidableEq K]

theorem ResizerInv.step (hI : Inv h cap f₀ sh) (hR : ResizerInv cap k sh.work l)
    (hstep : program h cap Party.resizer sh l .step = some (sh', l')) :
    ∃ key, key ≠ k ∧ Facts h cap sh sh' l l' key ∧ ResizerInv cap k sh'.work l' := by
  cases l with
  | insert key value pc =>
    obtain ⟨⟨sh₁, next⟩, hinsert, heq⟩ := Option.map_eq_some_iff.mp hstep
    cases heq
    have hfacts := insertStep_facts hinsert
    refine ⟨key, hR.1, hfacts, ?_⟩
    -- once the resize is finished it stays finished
    have hfinished : sh.work = .finished → sh₁.work = .finished := fun hwork =>
      (hfacts.work.resolve_right (absurd hwork)).trans hwork
    cases pc with
    | resize =>
      simp only [insertStep] at hinsert
      split at hinsert
      · next hwork =>
        cases hinsert
        exact ⟨hR.1, hwork⟩
      · cases hinsert
        exact ⟨hR.1, trivial⟩
    | lock =>
      simp only [insertStep] at hinsert
      split at hinsert <;> cases hinsert
      exact ⟨hR.1, hR.2⟩
    | loadCapacity =>
      cases hinsert
      have hwork : sh.work = .finished := hR.2
      exact ⟨hR.1, hwork, by rw [hI.capacity, hwork]; rfl⟩
    | loadTable capacity =>
      cases hinsert
      obtain ⟨hkey, hwork, hcapacity⟩ := hR
      exact ⟨hkey, hwork, hcapacity, by rw [hI.table, hwork]; rfl⟩
    | write capacity side =>
      have hwork := hfinished hR.2.1
      simp only [insertStep] at hinsert
      split at hinsert <;> cases hinsert <;> exact ⟨hR.1, hwork⟩
    | addSize =>
      cases hinsert
      exact ⟨hR.1, hR.2⟩
    | unlock result =>
      cases hinsert
      trivial
  | ready last => cases hstep
  | _ => exact hR.elim

/-- Nobody has written the key before the write of a `remove`, which leaves it absent. -/
def CallerInv (h : K → UInt64) (f₀ : K → Option V) (k : K) (v : V) (call : Call K V)
    (writes : List (Write K V)) : Local K V → Prop
  | .get key pc => key = k ∧ pc ≠ .help ∧ call = .get k ∧ ∀ w ∈ writes, ¬ w.Touches h k
  | .remove key (.subSize value) => key = k ∧ value = v ∧ Write.after h f₀ writes k = none
  | .remove key (.unlock result) =>
      key = k ∧ result = .ok (some v) ∧ Write.after h f₀ writes k = none
  | .remove key _ => key = k ∧ ∀ w ∈ writes, ¬ w.Touches h k
  | .ready last =>
      last = some (.ok (some v)) ∧ (call = .remove k → Write.after h f₀ writes k = none)
  | _ => False

/-- Writes of other keys. -/
theorem CallerInv.log {ws : List (Write K V)} {w : Write K V} (hC : CallerInv h f₀ k v call ws l)
    (hw : ¬ w.Touches h k) : CallerInv h f₀ k v call (ws ++ [w]) l := by
  have huntouched : (∀ w ∈ ws, ¬ w.Touches h k) → ∀ w' ∈ ws ++ [w], ¬ w'.Touches h k := by
    intro hws w' hw'
    rcases List.mem_append.mp hw' with hold | hnew
    · exact hws w' hold
    · rwa [List.mem_singleton.mp hnew]
  have habsent : Write.after h f₀ ws k = none → Write.after h f₀ (ws ++ [w]) k = none := by
    intro hnone
    rw [Write.after_append]
    exact (Write.apply_of_not_touches hw).trans hnone
  cases l with
  | ready last => exact ⟨hC.1, fun hcall => habsent (hC.2 hcall)⟩
  | get key pc => exact ⟨hC.1, hC.2.1, hC.2.2.1, huntouched hC.2.2.2⟩
  | remove key pc =>
    cases pc with
    | subSize value => exact ⟨hC.1, hC.2.1, habsent hC.2.2⟩
    | unlock result => exact ⟨hC.1, hC.2.1, habsent hC.2.2⟩
    | _ => exact ⟨hC.1, huntouched hC.2⟩
  | _ => exact hC.elim

/-- Before the old table is deallocated its buckets answer for a key that nobody has written, and
    afterwards the bucket of the key in the new table. -/
theorem Inv.getLocked (hI : Inv h cap f₀ sh) {capacity : Nat} {side : Side}
    (hchosen : Chosen cap sh capacity side) (hright : Readable h cap sh (.key k capacity side))
    (huntouched : ∀ w ∈ sh.writes, ¬ w.Touches h k) :
    (sh.tableAt side).getLocked k (h k) capacity = .ok (f₀ k) := by
  cases side with
  | old =>
    obtain rfl : capacity = cap := hchosen
    obtain ⟨pre, post, hwrites, hcontent, _⟩ := hI.old
    rw [Shared.tableAt, hcontent.getLocked, Write.after_of_not_touches]
    intro w hw
    refine huntouched w ?_
    rw [hwrites]
    exact List.mem_append_left post hw
  | new =>
    have hside : sh.work.side = .new := hchosen
    have hsame : bucketIndex (h k) capacity = bucketIndex (h k) (cap * 2) := hright
    have hcontent := (hI.new hside).getLocked k
    rw [Write.after_of_not_touches huntouched] at hcontent
    rw [← hcontent]
    simp only [Table.getLocked, Shared.tableAt, hsame]

theorem CallerInv.step_get {pc : GetPc} {next : Next GetPc (Result V)} (hI : Inv h cap f₀ sh)
    (hL : LocalInv cap sh (.get k pc)) (hhelp : NoHelp sh (.get k pc : Local K V))
    (hright : ReadsRight h cap sh (.get k pc)) (hk : f₀ k = some v) (hcall : call = .get k)
    (huntouched : ∀ w ∈ sh.writes, ¬ w.Touches h k)
    (hstep : getStep k (h k) sh pc = some (sh', next)) :
    CallerInv h f₀ k v call sh'.writes (.after (.get k) next) := by
  cases pc with
  | loadCapacity =>
    cases hstep
    exact ⟨rfl, by simp, hcall, huntouched⟩
  | loadState capacity =>
    have hidle : sh.resizing = false := hhelp
    simp only [getStep, hidle, Bool.false_eq_true, if_false] at hstep
    cases hstep
    exact ⟨rfl, by simp, hcall, huntouched⟩
  | help => cases hstep
  | loadTable capacity =>
    cases hstep
    exact ⟨rfl, by simp, hcall, huntouched⟩
  | scan capacity side =>
    cases hstep
    have hfound := hI.getLocked hL (hright _ rfl) huntouched
    rw [hk] at hfound
    refine ⟨congrArg some hfound, fun hremove => ?_⟩
    rw [hcall] at hremove
    cases hremove

theorem CallerInv.step_remove {pc : RemovePc V} {next : Next (RemovePc V) (Result V)}
    (hI : Inv h cap f₀ sh) (hL : LocalInv cap sh (.remove k pc))
    (hright : WritesRight h cap sh (.remove k pc)) (hk : f₀ k = some v)
    (hC : CallerInv h f₀ k v call sh.writes (.remove k pc))
    (hstep : removeStep k (h k) sh pc = some (sh', next)) :
    CallerInv h f₀ k v call sh'.writes (.after (.remove k) next) := by
  cases pc with
  | loadCapacity =>
    cases hstep
    exact hC
  | lock capacity =>
    simp only [removeStep] at hstep
    split at hstep <;> cases hstep
    exact hC
  | loadTable capacity =>
    cases hstep
    exact hC
  | write capacity side =>
    cases hremove : (sh.tableAt side).removeLocked k (h k) capacity with
    | mk t result =>
      obtain ⟨hresult, _⟩ := hI.removeLocked hL (hright _ rfl) hremove
      rw [Write.after_of_not_touches hC.2, hk] at hresult
      simp only [removeStep, hremove, hresult] at hstep
      cases hstep
      refine ⟨rfl, rfl, ?_⟩
      rw [(log_frame sh side t (.remove k)).1, Write.after_append]
      exact Function.update_self ..
  | subSize value =>
    cases hstep
    obtain ⟨_, rfl, habsent⟩ := hC
    exact ⟨rfl, rfl, habsent⟩
  | unlock result =>
    cases hstep
    obtain ⟨_, rfl, habsent⟩ := hC
    exact ⟨rfl, fun _ => habsent⟩

theorem CallerInv.step (hI : Inv h cap f₀ sh) (hL : LocalInv cap sh l) (hhelp : NoHelp sh l)
    (hreads : ReadsRight h cap sh l) (hwrites : WritesRight h cap sh l) (hk : f₀ k = some v)
    (hC : CallerInv h f₀ k v call sh.writes l)
    (hstep : program h cap Party.caller sh l .step = some (sh', l')) :
    Facts h cap sh sh' l l' k ∧ CallerInv h f₀ k v call sh'.writes l' := by
  cases l with
  | get key pc =>
    obtain ⟨rfl, _, hcall, huntouched⟩ := hC
    obtain ⟨⟨sh₁, next⟩, hget, heq⟩ := Option.map_eq_some_iff.mp hstep
    cases heq
    exact ⟨getStep_facts hhelp hget, .step_get hI hL hhelp hreads hk hcall huntouched hget⟩
  | remove key pc =>
    obtain rfl : key = k := by
      cases pc <;> exact hC.1
    obtain ⟨⟨sh₁, next⟩, hremove, heq⟩ := Option.map_eq_some_iff.mp hstep
    cases heq
    exact ⟨removeStep_facts hremove, .step_remove hI hL hwrites hk hC hremove⟩
  | ready last => cases hstep
  | _ => exact hC.elim

end Parties

/-! ### Their runs -/

section Runs

variable [DecidableEq K] {h : K → UInt64} {cap : Nat} {f₀ : K → Option V} {k : K} {v : V}
variable {call : Call K V} {s s' : State Party K V} {p : Party}

structure MeetInv (h : K → UInt64) (cap : Nat) (f₀ : K → Option V) (k : K) (v : V)
    (call : Call K V) (s : State Party K V) : Prop where
  system : SystemInv h cap f₀ s
  resizer : ResizerInv cap k s.shared.work (s.loc .resizer)
  caller : CallerInv h f₀ k v call s.shared.writes (s.loc .caller)
  locks : ∀ stripe, s.shared.locked stripe = true → Held (Local.stripe h) s.loc stripe

/-- The steps that are left to the two parties and to the resize. -/
def stepsLeft (cap : Nat) (s : State Party K V) : Nat :=
  s.shared.work.left cap + (s.loc .resizer).left + (s.loc .caller).left

theorem meetInv_meet {t : Table K V} {size : Nat} {key : K} {value : V}
    (ht : Table.Content h t cap f₀) (hkey : key ≠ k) (hcall : call = .get k ∨ call = .remove k) :
    MeetInv h cap f₀ k v call (meet t cap size key value call) ∧
      stepsLeft cap (meet t cap size key value call) ≤ cap + 23 := by
  rcases hcall with rfl | rfl
  · refine ⟨⟨⟨inv_start size ht, fun p => ?_⟩, ⟨hkey, trivial⟩, ⟨rfl, nofun, rfl, nofun⟩,
      nofun⟩, ?_⟩
    · cases p <;> trivial
    · exact Nat.le_succ (cap + 22)
  · refine ⟨⟨⟨inv_start size ht, fun p => ?_⟩, ⟨hkey, trivial⟩, ⟨rfl, nofun⟩, nofun⟩, ?_⟩
    · cases p <;> trivial
    · exact Nat.le_refl (cap + 23)

theorem MeetInv.writesRight (hM : MeetInv h cap f₀ k v call s) (hplace : CallInPlace h cap s p) :
    WritesRight h cap s.shared (s.loc p) := by
  cases p with
  | resizer => exact hM.resizer.writesRight
  | caller => exact (hplace rfl).2.2

omit [DecidableEq K] in
theorem Facts.locks_update {l' : Local K V} {sh' : Shared K V} {key : K}
    (hfacts : Facts h cap s.shared sh' (s.loc p) l' key)
    (hlocks : ∀ stripe, s.shared.locked stripe = true → Held (Local.stripe h) s.loc stripe)
    (stripe : Nat) (hheld : sh'.locked stripe = true) :
    Held (Local.stripe h) (Function.update s.loc p l') stripe := by
  rcases hfacts.locks stripe hheld with htaken | ⟨hold, hother⟩
  · exact held_update_self htaken
  · exact (hlocks stripe hold).update (absurd · hother)

theorem meetInv_step (hk : f₀ k = some v) (hM : MeetInv h cap f₀ k v call s)
    (hplace : CallInPlace h cap s p) (hstep : partyStep h cap s p = some s') :
    MeetInv h cap f₀ k v call s' ∧ stepsLeft cap s' + 1 ≤ stepsLeft cap s := by
  have hsystem := systemInv_step hM.system (hM.writesRight hplace) hstep
  obtain ⟨sh', l', hprog, rfl⟩ := interleave_eq_some.mp hstep
  cases p with
  | resizer =>
    obtain ⟨key, hkey, hfacts, hresizer⟩ := hM.resizer.step hM.system.shared hprog
    refine ⟨⟨hsystem, hresizer, ?_, hfacts.locks_update hM.locks⟩, ?_⟩
    · show CallerInv h f₀ k v call sh'.writes (s.loc .caller)
      rcases hfacts.writes with hsame | ⟨w, hlog, hw⟩
      · rw [hsame]
        exact hM.caller
      · rw [hlog]
        exact hM.caller.log (hw k hkey.symm)
    · show sh'.work.left cap + l'.left + (s.loc .caller).left + 1 ≤ _
      have hless := hfacts.left
      rw [stepsLeft]
      omega
  | caller =>
    obtain ⟨hhelp, hreads, hwrites⟩ := hplace rfl
    obtain ⟨hfacts, hcaller⟩ :=
      hM.caller.step hM.system.shared (hM.system.locals .caller) hhelp hreads hwrites hk hprog
    refine ⟨⟨hsystem, hM.resizer.mono hfacts.work, hcaller, hfacts.locks_update hM.locks⟩, ?_⟩
    show sh'.work.left cap + (s.loc .resizer).left + l'.left + 1 ≤ _
    have hless := hfacts.left
    rw [stepsLeft]
    omega

/-- A resizer that holds a stripe lock can take its next step. -/
theorem ResizerInv.exists_step {l : Local K V} {stripe : Nat} (sh : Shared K V)
    (hR : ResizerInv cap k sh.work l) (hheld : l.stripe h = some stripe) :
    ∃ r, program h cap Party.resizer sh l .step = some r := by
  cases l with
  | insert key value pc =>
    suffices hinsert : ∃ r, insertStep cap key value (h key) sh pc = some r by
      obtain ⟨r, hr⟩ := hinsert
      exact ⟨_, congrArg (Option.map _) hr⟩
    cases pc with
    | resize => cases hheld
    | lock => cases hheld
    | write capacity side =>
      simp only [insertStep]
      split <;> exact ⟨_, rfl⟩
    | _ => exact ⟨_, rfl⟩
  | ready last => cases hheld
  | _ => exact hR.elim

/-- Only its lock stops the caller. -/
theorem CallerInv.exists_step {l : Local K V} (cap : Nat) (sh : Shared K V)
    (hC : CallerInv h f₀ k v call sh.writes l) :
    l.returned ≠ none ∨ (∃ r, program h cap Party.caller sh l .step = some r) ∨
      ∃ capacity, l = .remove k (.lock capacity) ∧
        sh.locked (stripeIndex (h k) capacity) = true := by
  cases l with
  | ready last =>
    left
    rw [hC.1]
    exact nofun
  | get key pc =>
    refine .inr (.inl ?_)
    suffices hget : ∃ r, getStep key (h key) sh pc = some r by
      obtain ⟨r, hr⟩ := hget
      exact ⟨_, congrArg (Option.map _) hr⟩
    cases pc with
    | help => exact absurd rfl hC.2.1
    | _ => exact ⟨_, rfl⟩
  | remove key pc =>
    obtain rfl : key = k := by
      cases pc <;> exact hC.1
    by_cases hlock : ∃ capacity, pc = .lock capacity ∧
        sh.locked (stripeIndex (h key) capacity) = true
    · obtain ⟨capacity, rfl, hlocked⟩ := hlock
      exact .inr (.inr ⟨capacity, rfl, hlocked⟩)
    · refine .inr (.inl ?_)
      suffices hremove : ∃ r, removeStep key (h key) sh pc = some r by
        obtain ⟨r, hr⟩ := hremove
        exact ⟨_, congrArg (Option.map _) hr⟩
      cases pc with
      | lock capacity =>
        simp only [removeStep]
        rw [if_neg fun hlocked => hlock ⟨capacity, rfl, hlocked⟩]
        exact ⟨_, rfl⟩
      | write capacity side =>
        simp only [removeStep]
        split <;> exact ⟨_, rfl⟩
      | _ => exact ⟨_, rfl⟩
  | _ => exact hC.elim

/-- There is no deadlock: a lock that the caller waits for is held by the resizer. -/
theorem MeetInv.progress (hM : MeetInv h cap f₀ k v call s) :
    (s.loc .caller).returned ≠ none ∨ ∃ p s', partyStep h cap s p = some s' := by
  have hparty : ∀ p, (∃ r, program h cap p s.shared (s.loc p) .step = some r) →
      ∃ p s', partyStep h cap s p = some s' := by
    rintro p ⟨r, hr⟩
    exact ⟨p, _, congrArg (Option.map _) hr⟩
  rcases hM.caller.exists_step cap s.shared with hreturned | hstep | ⟨capacity, hloc, hlocked⟩
  · exact .inl hreturned
  · exact .inr (hparty .caller hstep)
  · obtain ⟨p, hp⟩ := hM.locks _ hlocked
    cases p with
    | resizer => exact .inr (hparty .resizer (hM.resizer.exists_step s.shared hp))
    | caller =>
      rw [hloc] at hp
      cases hp

/-- **When a lookup or a removal survives a resize.**  If the call does not find the resize state,
    scans a bucket that answers for its key and writes one that is not about to be replaced, then
    it returns the value of the key after boundedly many steps, and a removed key is absent. -/
theorem lookup_survives_resize {t : Table K V} {size : Nat} {key : K} {value : V}
    {sched : List Party} (ht : Table.Content h t cap f₀) (hk : f₀ k = some v) (hkey : key ≠ k)
    (hcall : call = .get k ∨ call = .remove k)
    (hplace : Along (partyStep h cap) (CallInPlace h cap) (meet t cap size key value call) sched)
    (hrun : run (partyStep h cap) (meet t cap size key value call) sched = some s) :
    sched.length ≤ cap + 23 ∧
      ((s.loc .caller).returned ≠ none ∨ ∃ p s', partyStep h cap s p = some s') ∧
      ∀ result, (s.loc .caller).returned = some result → result = .ok (some v) ∧
        (call = .remove k → s.shared.resizing = false → s.shared.get h k = .ok none) := by
  obtain ⟨hmeet, hleft⟩ := meetInv_meet (v := v) ht hkey hcall
  have hM : MeetInv h cap f₀ k v call s :=
    run_invariant_along (fun _ _ _ hI hC hs => (meetInv_step hk hI hC hs).1) hmeet hplace hrun
  have hcount := run_countP_le (p := fun _ => true) (μ := stepsLeft cap)
    (fun _ _ _ hI hC hs => meetInv_step hk hI hC hs) hmeet hplace hrun
  rw [List.countP_true] at hcount
  refine ⟨by omega, hM.progress, fun result hreturned => ?_⟩
  have hcaller := hM.caller
  cases hloc : s.loc .caller with
  | ready last =>
    rw [hloc] at hcaller hreturned
    obtain ⟨hlast, habsent⟩ := hcaller
    have hresult : some result = some (.ok (some v)) := hreturned.symm.trans hlast
    refine ⟨Option.some.inj hresult, fun hremove hidle => ?_⟩
    rw [hM.system.shared.get_eq hidle, habsent hremove]
  | _ =>
    rw [hloc] at hreturned
    cases hreturned

end Runs

/-- A table of one bucket with one key. -/
def oneKey : Table Nat Nat := ((allocateTable 1).insertLocked 1 1 7 (Nat.toUInt64 1)).1

theorem content_oneKey :
    Table.Content Nat.toUInt64 oneKey 1 (Function.update (fun _ => none) 1 (some 7)) := by
  have hempty : Table.Content Nat.toUInt64 (allocateTable 1 : Table Nat Nat) 1 fun _ => none :=
    Table.content_allocate ⟨0, rfl⟩
  have hinsert : (allocateTable 1 : Table Nat Nat).insertLocked 1 1 7 (Nat.toUInt64 1) =
      (oneKey, ((allocateTable 1 : Table Nat Nat).insertLocked 1 1 7 (Nat.toUInt64 1)).2) := rfl
  rcases hempty.insertLocked hinsert with ⟨_, hcontent⟩ | ⟨hpanic, _⟩
  · exact hcontent
  · cases hpanic

/-- A removal that loads the capacity before the resize and is done before its bucket is
    migrated. -/
def removeEarly : List Party :=
  Party.caller :: Party.resizer :: List.replicate 5 Party.caller ++ List.replicate 8 Party.resizer

/-- A lookup that loads the old table and scans it after the new one has been stored. -/
def getFromOld : List Party :=
  List.replicate 3 Party.caller ++ List.replicate 5 Party.resizer ++
    Party.caller :: List.replicate 4 Party.resizer

theorem lookup_survives_resize_early :
    (∃ s : State Party Nat Nat,
      run (partyStep Nat.toUInt64 1) (meet oneKey 1 1 9 9 (.remove 1)) removeEarly = some s ∧
      (s.loc .caller).returned = some (.ok (some 7)) ∧ s.shared.work = .finished ∧
      s.shared.get Nat.toUInt64 1 = .ok none) ∧
    ∃ s : State Party Nat Nat,
      run (partyStep Nat.toUInt64 1) (meet oneKey 1 1 9 9 (.get 1)) getFromOld = some s ∧
      (s.loc .caller).returned = some (.ok (some 7)) ∧ s.shared.work = .finished := by
  constructor
  · have hrun : (run (partyStep Nat.toUInt64 1) (meet oneKey 1 1 9 9 (.remove 1))
        removeEarly).map (fun s => ((s.loc .caller).returned.isSome, s.shared.work,
          s.shared.resizing)) = some (true, .finished, false) := by
      decide +kernel
    obtain ⟨s, hs, heq⟩ := Option.map_eq_some_iff.mp hrun
    simp only [Prod.mk.injEq] at heq
    obtain ⟨hreturned, hwork, hidle⟩ := heq
    obtain ⟨result, hresult⟩ := Option.isSome_iff_exists.mp hreturned
    have hplace : Along (partyStep Nat.toUInt64 1) (CallInPlace Nat.toUInt64 1)
        (meet oneKey 1 1 9 9 (.remove 1)) removeEarly := by
      decide +kernel
    obtain ⟨_, _, hright⟩ := lookup_survives_resize content_oneKey (Function.update_self ..)
      (by decide) (.inr rfl) hplace hs
    obtain ⟨rfl, habsent⟩ := hright result hresult
    exact ⟨s, hs, hresult, hwork, habsent rfl hidle⟩
  · have hrun : (run (partyStep Nat.toUInt64 1) (meet oneKey 1 1 9 9 (.get 1))
        getFromOld).map (fun s => ((s.loc .caller).returned.isSome, s.shared.work)) =
          some (true, .finished) := by
      decide +kernel
    obtain ⟨s, hs, heq⟩ := Option.map_eq_some_iff.mp hrun
    simp only [Prod.mk.injEq] at heq
    obtain ⟨hreturned, hwork⟩ := heq
    obtain ⟨result, hresult⟩ := Option.isSome_iff_exists.mp hreturned
    have hplace : Along (partyStep Nat.toUInt64 1) (CallInPlace Nat.toUInt64 1)
        (meet oneKey 1 1 9 9 (.get 1)) getFromOld := by
      decide +kernel
    obtain ⟨_, _, hright⟩ := lookup_survives_resize content_oneKey (Function.update_self ..)
      (by decide) (.inl rfl) hplace hs
    obtain ⟨rfl, _⟩ := hright result hresult
    exact ⟨s, hs, hresult, hwork⟩

/-- A lookup that loads the capacity and the resize state before the resize and the table after
    it. -/
def getAcross : List Party :=
  List.replicate 2 Party.caller ++ List.replicate 9 Party.resizer ++ List.replicate 2 Party.caller

/-- A removal that loads the capacity before the resize and the table after it. -/
def removeAcross : List Party :=
  Party.caller :: List.replicate 9 Party.resizer ++ List.replicate 4 Party.caller

/-- Both look into the bucket of the old capacity in the new table. -/
theorem key_missed_in_resize :
    oneKey.getLocked 1 1 1 = .ok (some 7) ∧
    (∃ s : State Party Nat Nat,
      run (partyStep Nat.toUInt64 1) (meet oneKey 1 1 9 9 (.get 1)) getAcross = some s ∧
      (s.loc .caller).returned = some (.ok none)) ∧
    ∃ s : State Party Nat Nat,
      run (partyStep Nat.toUInt64 1) (meet oneKey 1 1 9 9 (.remove 1)) removeAcross = some s ∧
      (s.loc .caller).returned = some (.ok none) ∧ s.shared.work = .finished ∧
      s.shared.get Nat.toUInt64 1 = .ok (some 7) := by
  have hget : (run (partyStep Nat.toUInt64 1) (meet oneKey 1 1 9 9 (.get 1))
      getAcross).map (fun s => (s.loc .caller).returned) = some (some (.ok none)) := by
    decide +kernel
  have hremove : (run (partyStep Nat.toUInt64 1) (meet oneKey 1 1 9 9 (.remove 1))
      removeAcross).map (fun s => ((s.loc .caller).returned, s.shared.work,
        s.shared.get Nat.toUInt64 1)) = some (some (.ok none), .finished, .ok (some 7)) := by
    decide +kernel
  obtain ⟨s, hs, heq⟩ := Option.map_eq_some_iff.mp hremove
  simp only [Prod.mk.injEq] at heq
  exact ⟨by decide +kernel, Option.map_eq_some_iff.mp hget, s, hs, heq⟩

end VelocityX.Map.DuringResize
