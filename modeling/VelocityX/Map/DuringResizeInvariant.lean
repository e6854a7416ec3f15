import VelocityX.Map.Content
import VelocityX.Map.DuringResize

/-!
# What a resize and the writes during it keep

Until the new table is stored the old one answers as the writes say, and the buckets that
have been migrated are in the new one; from then on the new table answers as the writes say.
Both rest on every write going to the right bucket.
-/

namespace VelocityX.Map.DuringResize

open Transition

variable {ι K V : Type*}

/-! ### What the writes say -/

namespace Write

def Touches (h : K → UInt64) (key : K) : Write K V → Prop
  | .insert key' _ => key' = key
  | .remove key' => key' = key
  | .wipe capacity i => bucketIndex (h key) capacity = i

variable [DecidableEq K]

def apply (h : K → UInt64) (f : K → Option V) : Write K V → K → Option V
  | .insert key value => Function.update f key (some value)
  | .remove key => Function.update f key none
  | .wipe capacity i => fun key => if bucketIndex (h key) capacity = i then none else f key

variable {h : K → UInt64} {f : K → Option V} {key : K} {w : Write K V} {ws : List (Write K V)}

theorem apply_of_not_touches (hw : ¬ w.Touches h key) : w.apply h f key = f key := by
  cases w with
  | insert key' value => exact Function.update_of_ne (Ne.symm hw) _ _
  | remove key' => exact Function.update_of_ne (Ne.symm hw) _ _
  | wipe capacity i => exact if_neg hw

/-- The answers after a list of writes. -/
def after (h : K → UInt64) (f : K → Option V) (ws : List (Write K V)) : K → Option V :=
  ws.foldl (apply h) f

theorem after_append (ws ws' : List (Write K V)) :
    after h f (ws ++ ws') = after h (after h f ws) ws' := List.foldl_append

theorem after_of_not_touches (hws : ∀ w ∈ ws, ¬ w.Touches h key) : after h f ws key = f key := by
  induction ws generalizing f with
  | nil => rfl
  | cons w ws ih =>
    have hrest := ih (f := w.apply h f) fun w' hw' => hws w' (List.mem_cons_of_mem _ hw')
    exact hrest.trans (apply_of_not_touches (hws w List.mem_cons_self))

end Write

/-! ### The phases of the resize -/

namespace Work

/-- The table that calls use. -/
def side : Work → Side
  | .storeState => .old
  | .migrate _ => .old
  | .storeTable => .old
  | _ => .new

def capacity (cap : Nat) : Work → Nat
  | .storeState => cap
  | .migrate _ => cap
  | .storeTable => cap
  | .storeCapacity => cap
  | _ => cap * 2

def resizing : Work → Bool
  | .migrate _ => true
  | .storeTable => true
  | .storeCapacity => true
  | .storeNull => true
  | _ => false

def freed : Work → Bool
  | .dropState => true
  | .finished => true
  | _ => false

/-- The number of buckets that have been migrated. -/
def count (cap : Nat) : Work → Nat
  | .storeState => 0
  | .migrate n => n
  | _ => cap

theorem side_of_not_migrated {work : Work} {i : Nat} (cap : Nat) (hnot : ¬ work.Migrated i) :
    work.side = .old ∧ work.count cap ≤ i := by
  cases work with
  | storeState => exact ⟨rfl, Nat.zero_le i⟩
  | migrate n => exact ⟨rfl, Nat.le_of_not_lt hnot⟩
  | _ => exact absurd trivial hnot

end Work

section Invariant

variable [DecidableEq K] {h : K → UInt64} {cap : Nat} {f₀ : K → Option V} {sh sh' : Shared K V}
variable {side : Side} {t : Table K V} {w : Write K V}

structure Inv (h : K → UInt64) (cap : Nat) (f₀ : K → Option V) (sh : Shared K V) : Prop where
  table : sh.table = sh.work.side
  capacity : sh.capacity = sh.work.capacity cap
  resizing : sh.resizing = sh.work.resizing
  freed : sh.freed = sh.work.freed
  count_le : sh.work.count cap ≤ cap
  old : ∃ pre post, sh.writes = pre ++ post ∧ Table.Content h sh.old cap (Write.after h f₀ pre) ∧
    (sh.work.side = .old → post = [])
  migrated : sh.work.side = .old → sh.old.Migrated sh.new cap (sh.work.count cap)
  new : sh.work.side = .new → Table.Content h sh.new (cap * 2) (Write.after h f₀ sh.writes)

theorem inv_start (size : Nat) (ht : Table.Content h t cap f₀) :
    Inv h cap f₀ (Shared.start t cap size) :=
  ⟨rfl, rfl, rfl, rfl, Nat.zero_le cap, ⟨[], [], rfl, ht, fun _ => rfl⟩,
    fun _ => Table.migrated_allocate t cap, nofun⟩

/-- The size and the locks do not matter. -/
theorem Inv.quiet (hI : Inv h cap f₀ sh) (size : Nat) (locked : Nat → Bool) :
    Inv h cap f₀ { sh with size := size, locked := locked } :=
  ⟨hI.table, hI.capacity, hI.resizing, hI.freed, hI.count_le, hI.old, hI.migrated, hI.new⟩

/-- While calls use the old table it answers as all writes say. -/
theorem Inv.old_content (hI : Inv h cap f₀ sh) (hside : sh.work.side = .old) :
    Table.Content h sh.old cap (Write.after h f₀ sh.writes) := by
  obtain ⟨pre, post, hwrites, hcontent, hpost⟩ := hI.old
  rw [hwrites, hpost hside, List.append_nil]
  exact hcontent

theorem Inv.advance (hI : Inv h cap f₀ sh) : Inv h cap f₀ (sh.advance cap) := by
  obtain ⟨htable, hcapacity, hresizing, hfreed, hcount, hold, hmigrated, hnew⟩ := id hI
  cases hwork : sh.work with
  | storeState =>
    rw [hwork] at htable hcapacity hfreed hmigrated hold
    simp only [Shared.advance, hwork]
    exact ⟨htable, hcapacity, rfl, hfreed, Nat.zero_le cap, hold, hmigrated, nofun⟩
  | migrate n =>
    rw [hwork] at htable hcapacity hresizing hfreed hmigrated hold hcount
    simp only [Shared.advance, hwork]
    by_cases hn : n < cap
    · rw [if_pos hn]
      have hvalid := (hI.old_content (by rw [hwork]; rfl)).valid
      exact ⟨htable, hcapacity, hresizing, hfreed, hn, hold,
        fun _ => (hmigrated rfl).step hvalid hn, nofun⟩
    · rw [if_neg hn]
      have heq : n = cap := Nat.le_antisymm hcount (Nat.le_of_not_lt hn)
      subst heq
      exact ⟨htable, hcapacity, hresizing, hfreed, Nat.le_refl _, hold, hmigrated, nofun⟩
  | storeTable =>
    have hcontent := hI.old_content (by rw [hwork]; rfl)
    rw [hwork] at hcapacity hresizing hfreed hmigrated hold
    obtain ⟨pre, post, hwrites, hpre, _⟩ := hold
    simp only [Shared.advance, hwork]
    exact ⟨rfl, hcapacity, hresizing, hfreed, Nat.le_refl _, ⟨pre, post, hwrites, hpre, nofun⟩,
      nofun, fun _ => hcontent.migrated (hmigrated rfl)⟩
  | storeCapacity =>
    rw [hwork] at htable hresizing hfreed hold hnew
    simp only [Shared.advance, hwork]
    exact ⟨htable, rfl, hresizing, hfreed, Nat.le_refl _, hold, nofun, hnew⟩
  | storeNull =>
    rw [hwork] at htable hcapacity hfreed hold hnew
    simp only [Shared.advance, hwork]
    exact ⟨htable, hcapacity, rfl, hfreed, Nat.le_refl _, hold, nofun, hnew⟩
  | dealloc =>
    rw [hwork] at htable hcapacity hresizing hold hnew
    simp only [Shared.advance, hwork]
    exact ⟨htable, hcapacity, hresizing, rfl, Nat.le_refl _, hold, nofun, hnew⟩
  | dropState =>
    rw [hwork] at htable hcapacity hresizing hfreed hold hnew
    simp only [Shared.advance, hwork]
    exact ⟨htable, hcapacity, hresizing, hfreed, Nat.le_refl _, hold, nofun, hnew⟩
  | finished =>
    rw [Shared.advance, hwork]
    exact hI

omit [DecidableEq K] in
/-- Once the new table has been stored it stays. -/
theorem side_advance (hside : sh.work.side = .new) : (sh.advance cap).work.side = .new := by
  revert hside
  rw [Shared.advance]
  cases hwork : sh.work with
  | storeState => exact nofun
  | migrate n => exact nofun
  | storeTable => exact nofun
  | finished => simp [hwork]
  | _ => exact fun _ => rfl

theorem after_log (w : Write K V) :
    Write.after h f₀ (sh.log w).writes = w.apply h (Write.after h f₀ sh.writes) :=
  Write.after_append _ _

/-- A write of a bucket of the old table that has not been migrated. -/
theorem Inv.write_old (hI : Inv h cap f₀ sh) {i : Nat} {b : Bucket K V}
    (hside : sh.work.side = .old) (hi : sh.work.count cap ≤ i)
    (hcontent : ∀ f, Table.Content h sh.old cap f →
      Table.Content h (Function.update sh.old i b) cap (w.apply h f)) :
    Inv h cap f₀ ((sh.storeTableAt (Function.update sh.old i b) .old).log w) := by
  refine ⟨hI.table, hI.capacity, hI.resizing, hI.freed, hI.count_le,
    ⟨sh.writes ++ [w], [], (List.append_nil _).symm, ?_, fun _ => rfl⟩,
    fun _ => (hI.migrated hside).update hi b, fun hnew => ?_⟩
  · have hold := hcontent _ (hI.old_content hside)
    rwa [← after_log] at hold
  · exact absurd (hside.symm.trans hnew) Side.noConfusion

/-- A write of the new table, once the calls use it. -/
theorem Inv.write_new (hI : Inv h cap f₀ sh) (hside : sh.work.side = .new)
    (hcontent : ∀ f, Table.Content h sh.new (cap * 2) f →
      Table.Content h t (cap * 2) (w.apply h f)) :
    Inv h cap f₀ ((sh.storeTableAt t .new).log w) := by
  obtain ⟨pre, post, hwrites, hpre, _⟩ := hI.old
  have hnot : sh.work.side ≠ .old := by
    rw [hside]
    exact Side.noConfusion
  refine ⟨hI.table, hI.capacity, hI.resizing, hI.freed, hI.count_le,
    ⟨pre, post ++ [w], ?_, hpre, fun hold => absurd hold hnot⟩, fun hold => absurd hold hnot,
    fun _ => ?_⟩
  · show sh.writes ++ [w] = _
    rw [hwrites, List.append_assoc]
  · have hnew := hcontent _ (hI.new hside)
    rwa [← after_log] at hnew

/-! ### What a call has loaded -/

/-- A capacity that a call has loaded; the new one is stored after the new table. -/
def Loaded (cap : Nat) (sh : Shared K V) (capacity : Nat) : Prop :=
  capacity = cap ∨ capacity = cap * 2 ∧ sh.work.side = .new

/-- A capacity and the table that a call has loaded after it. -/
def Chosen (cap : Nat) (sh : Shared K V) (capacity : Nat) : Side → Prop
  | .old => capacity = cap
  | .new => sh.work.side = .new

theorem Inv.loaded (hI : Inv h cap f₀ sh) : Loaded cap sh sh.capacity := by
  rw [hI.capacity, Loaded]
  cases sh.work with
  | storeState => exact .inl rfl
  | migrate n => exact .inl rfl
  | storeTable => exact .inl rfl
  | storeCapacity => exact .inl rfl
  | _ => exact .inr ⟨rfl, rfl⟩

theorem Inv.chosen (hI : Inv h cap f₀ sh) {capacity : Nat} (hL : Loaded cap sh capacity) :
    Chosen cap sh capacity sh.table := by
  rw [hI.table]
  cases hside : sh.work.side with
  | old =>
    rcases hL with hcap | ⟨_, hnew⟩
    · exact hcap
    · exact absurd (hside.symm.trans hnew) nofun
  | new => exact hside

omit [DecidableEq K] in
theorem Loaded.mono {capacity : Nat} (hL : Loaded cap sh capacity)
    (hmono : sh.work.side = .new → sh'.work.side = .new) : Loaded cap sh' capacity :=
  hL.imp id fun h => ⟨h.1, hmono h.2⟩

omit [DecidableEq K] in
theorem Chosen.mono {capacity : Nat} (hL : Chosen cap sh capacity side)
    (hmono : sh.work.side = .new → sh'.work.side = .new) : Chosen cap sh' capacity side := by
  cases side with
  | old => exact hL
  | new => exact hmono hL

def LocalInv (cap : Nat) (sh : Shared K V) : Local K V → Prop
  | .insert _ _ (.loadTable capacity) => Loaded cap sh capacity
  | .insert _ _ (.write capacity side) => Chosen cap sh capacity side
  | .get _ (.loadState capacity) => Loaded cap sh capacity
  | .get _ (.loadTable capacity) => Loaded cap sh capacity
  | .get _ (.scan capacity side) => Chosen cap sh capacity side
  | .remove _ (.lock capacity) => Loaded cap sh capacity
  | .remove _ (.loadTable capacity) => Loaded cap sh capacity
  | .remove _ (.write capacity side) => Chosen cap sh capacity side
  | .clear (.loadTable capacity) => Loaded cap sh capacity
  | .clear (.wipe capacity side _) => Chosen cap sh capacity side
  | _ => True

omit [DecidableEq K] in
theorem LocalInv.mono {l : Local K V} (hL : LocalInv cap sh l)
    (hmono : sh.work.side = .new → sh'.work.side = .new) : LocalInv cap sh' l := by
  unfold LocalInv at hL ⊢
  split at hL
  all_goals first
    | exact Loaded.mono hL hmono
    | exact Chosen.mono hL hmono
    | trivial

/-! ### The writes of the calls -/

section Writes

variable {key : K} {value : V} {capacity i : Nat} {result : Result V}

theorem Inv.insertLocked (hI : Inv h cap f₀ sh) (hchosen : Chosen cap sh capacity side)
    (hright : InPlace h cap sh (.key key capacity side))
    (hinsert : (sh.tableAt side).insertLocked capacity key value (h key) = (t, result)) :
    (∃ old, result = .ok old) ∧ Inv h cap f₀ ((sh.storeTableAt t side).log (.insert key value)) ∨
      result = .error .bucketOverflow ∧ sh.storeTableAt t side = sh := by
  cases side with
  | old =>
    obtain rfl : capacity = cap := hchosen
    obtain ⟨hside, hcount⟩ := Work.side_of_not_migrated capacity hright
    rcases (hI.old_content hside).insertLocked hinsert with ⟨rfl, _⟩ | ⟨rfl, rfl⟩
    · obtain rfl := (Prod.mk.inj hinsert).1
      exact .inl ⟨⟨_, rfl⟩, hI.write_old hside hcount fun f hf => hf.insertLocked_ok hinsert⟩
    · exact .inr ⟨rfl, rfl⟩
  | new =>
    have hside : sh.work.side = .new := hchosen
    have hsame : bucketIndex (h key) capacity = bucketIndex (h key) (cap * 2) := hright
    have hinsert' : sh.new.insertLocked (cap * 2) key value (h key) = (t, result) := by
      rw [← hinsert]
      simp only [Table.insertLocked, Shared.tableAt, hsame]
    rcases (hI.new hside).insertLocked hinsert' with ⟨rfl, _⟩ | ⟨rfl, rfl⟩
    · exact .inl ⟨⟨_, rfl⟩, hI.write_new hside fun f hf => hf.insertLocked_ok hinsert'⟩
    · exact .inr ⟨rfl, rfl⟩

/-- A removal in place returns what the key is associated with. -/
theorem Inv.removeLocked (hI : Inv h cap f₀ sh) (hchosen : Chosen cap sh capacity side)
    (hright : InPlace h cap sh (.key key capacity side))
    (hremove : (sh.tableAt side).removeLocked key (h key) capacity = (t, result)) :
    result = .ok (Write.after h f₀ sh.writes key) ∧
      Inv h cap f₀ ((sh.storeTableAt t side).log (.remove key)) := by
  cases side with
  | old =>
    obtain rfl : capacity = cap := hchosen
    obtain ⟨hside, hcount⟩ := Work.side_of_not_migrated capacity hright
    refine ⟨((hI.old_content hside).removeLocked hremove).1, ?_⟩
    obtain rfl := (Prod.mk.inj hremove).1
    exact hI.write_old hside hcount fun f hf => (hf.removeLocked hremove).2
  | new =>
    have hside : sh.work.side = .new := hchosen
    have hsame : bucketIndex (h key) capacity = bucketIndex (h key) (cap * 2) := hright
    have hremove' : sh.new.removeLocked key (h key) (cap * 2) = (t, result) := by
      rw [← hremove]
      simp only [Table.removeLocked, Shared.tableAt, hsame]
    exact ⟨((hI.new hside).removeLocked hremove').1,
      hI.write_new hside fun f hf => (hf.removeLocked hremove').2⟩

theorem Inv.wipe (hI : Inv h cap f₀ sh) (hchosen : Chosen cap sh capacity side) (hi : i < capacity)
    (hright : InPlace h cap sh (.bucket capacity i side)) :
    Inv h cap f₀ ((sh.storeTableAt (Function.update (sh.tableAt side) i .empty) side).log
      (.wipe capacity i)) := by
  cases side with
  | old =>
    obtain rfl : capacity = cap := hchosen
    obtain ⟨hside, hcount⟩ := Work.side_of_not_migrated capacity hright
    exact hI.write_old hside hcount fun f hf => hf.wipe hi
  | new =>
    obtain rfl : capacity = cap * 2 := hright
    exact hI.write_new hchosen fun f hf => hf.wipe hi

omit [DecidableEq K] in
theorem work_log (t : Table K V) (w : Write K V) :
    ((sh.storeTableAt t side).log w).work = sh.work := by
  cases side <;> rfl

end Writes

/-! ### One step of a thread -/

/-- What a step leaves true of the shared state and of its thread. -/
def Keeps (h : K → UInt64) (cap : Nat) (f₀ : K → Option V) (sh sh' : Shared K V)
    (l' : Local K V) : Prop :=
  Inv h cap f₀ sh' ∧ LocalInv cap sh' l' ∧ (sh.work.side = .new → sh'.work.side = .new)

section Steps

variable {key : K} {value : V}

theorem Inv.keep (hI : Inv h cap f₀ sh) {l : Local K V} (hl : LocalInv cap sh l) :
    Keeps h cap f₀ sh sh l := ⟨hI, hl, id⟩

theorem Inv.keep_quiet (hI : Inv h cap f₀ sh) (size : Nat) (locked : Nat → Bool) {l : Local K V}
    (hl : LocalInv cap sh l) :
    Keeps h cap f₀ sh { sh with size := size, locked := locked } l :=
  ⟨hI.quiet size locked, hl.mono id, id⟩

theorem Inv.keep_advance (hI : Inv h cap f₀ sh) {l : Local K V}
    (hl : LocalInv cap (sh.advance cap) l) :
    Keeps h cap f₀ sh (sh.advance cap) l := ⟨hI.advance, hl, side_advance⟩

theorem Inv.keep_write (hI : Inv h cap f₀ ((sh.storeTableAt t side).log w)) {l : Local K V}
    (hl : LocalInv cap sh l) : Keeps h cap f₀ sh ((sh.storeTableAt t side).log w) l := by
  have hmono : sh.work.side = .new → ((sh.storeTableAt t side).log w).work.side = .new := by
    rw [work_log]
    exact id
  exact ⟨hI, hl.mono hmono, hmono⟩

theorem insertStep_keeps {pc : InsertPc V} {next : Next (InsertPc V) (Result V)}
    (hI : Inv h cap f₀ sh) (hL : LocalInv cap sh (.insert key value pc))
    (hright : WritesRight h cap sh (.insert key value pc))
    (hstep : insertStep cap key value (h key) sh pc = some (sh', next)) :
    Keeps h cap f₀ sh sh' (.after (.insert key value) next) := by
  cases pc with
  | resize =>
    simp only [insertStep] at hstep
    split at hstep <;> cases hstep
    · exact hI.keep trivial
    · exact hI.keep_advance trivial
  | lock =>
    simp only [insertStep] at hstep
    split at hstep <;> cases hstep
    exact hI.keep_quiet _ _ (l := .insert key value .loadCapacity) trivial
  | loadCapacity =>
    cases hstep
    exact hI.keep hI.loaded
  | loadTable capacity =>
    cases hstep
    exact hI.keep (hI.chosen hL)
  | write capacity side =>
    cases hinsert : (sh.tableAt side).insertLocked capacity key value (h key) with
    | mk t result =>
      simp only [insertStep, hinsert] at hstep
      rcases hI.insertLocked hL (hright _ rfl) hinsert with ⟨⟨old, rfl⟩, hI'⟩ | ⟨rfl, hsame⟩
      · cases old <;> cases hstep
        · exact hI'.keep_write trivial
        · exact hI'.keep_write trivial
      · cases hstep
        rw [hsame]
        exact hI.keep trivial
  | addSize =>
    cases hstep
    exact hI.keep_quiet (Word.add 64 sh.size 1) sh.locked trivial
  | unlock result =>
    cases hstep
    exact hI.keep_quiet sh.size _ trivial

theorem getStep_keeps {pc : GetPc} {next : Next GetPc (Result V)} (hI : Inv h cap f₀ sh)
    (hL : LocalInv cap sh (.get key pc))
    (hstep : getStep key (h key) sh pc = some (sh', next)) :
    Keeps h cap f₀ sh sh' (.after (.get key) next) := by
  cases pc with
  | loadCapacity =>
    cases hstep
    exact hI.keep hI.loaded
  | loadState capacity =>
    simp only [getStep] at hstep
    cases hstep
    cases sh.resizing with
    | true => exact hI.keep trivial
    | false => exact hI.keep hL
  | help => cases hstep
  | loadTable capacity =>
    cases hstep
    exact hI.keep (hI.chosen hL)
  | scan capacity side =>
    cases hstep
    exact hI.keep trivial

theorem removeStep_keeps {pc : RemovePc V} {next : Next (RemovePc V) (Result V)}
    (hI : Inv h cap f₀ sh) (hL : LocalInv cap sh (.remove key pc))
    (hright : WritesRight h cap sh (.remove key pc))
    (hstep : removeStep key (h key) sh pc = some (sh', next)) :
    Keeps h cap f₀ sh sh' (.after (.remove key) next) := by
  cases pc with
  | loadCapacity =>
    cases hstep
    exact hI.keep hI.loaded
  | lock capacity =>
    simp only [removeStep] at hstep
    split at hstep <;> cases hstep
    exact hI.keep_quiet sh.size _ (l := .remove key (.loadTable capacity)) hL
  | loadTable capacity =>
    cases hstep
    exact hI.keep (hI.chosen hL)
  | write capacity side =>
    cases hremove : (sh.tableAt side).removeLocked key (h key) capacity with
    | mk t result =>
      simp only [removeStep, hremove] at hstep
      obtain ⟨rfl, hI'⟩ := hI.removeLocked hL (hright _ rfl) hremove
      cases hfound : Write.after h f₀ sh.writes key with
      | none =>
        simp only [hfound] at hstep
        cases hstep
        exact hI'.keep_write trivial
      | some value =>
        simp only [hfound] at hstep
        cases hstep
        exact hI'.keep_write trivial
  | subSize value =>
    cases hstep
    exact hI.keep_quiet (Word.sub 64 sh.size 1) sh.locked trivial
  | unlock result =>
    cases hstep
    exact hI.keep_quiet sh.size _ trivial

theorem clearStep_keeps {pc : ClearPc} {next : Next ClearPc (Result V)} (hI : Inv h cap f₀ sh)
    (hL : LocalInv cap sh (.clear pc)) (hright : WritesRight h cap sh (.clear pc))
    (hstep : clearStep sh pc = some (sh', next)) : Keeps h cap f₀ sh sh' (.after .clear next) := by
  cases pc with
  | lock i =>
    simp only [clearStep] at hstep
    split at hstep
    · split at hstep <;> cases hstep
      exact hI.keep_quiet sh.size _ trivial
    · cases hstep
      exact hI.keep trivial
  | loadCapacity =>
    cases hstep
    exact hI.keep hI.loaded
  | loadTable capacity =>
    cases hstep
    exact hI.keep (hI.chosen hL)
  | wipe capacity side i =>
    simp only [clearStep] at hstep
    split at hstep <;> cases hstep
    · next hi => exact (hI.wipe hL hi (hright _ (if_pos hi))).keep_write hL
    · exact hI.keep trivial
  | resetSize =>
    cases hstep
    exact hI.keep_quiet 0 sh.locked trivial
  | unlock i =>
    simp only [clearStep] at hstep
    split at hstep <;> cases hstep
    · exact hI.keep_quiet sh.size _ trivial
    · exact hI.keep trivial

theorem program_keeps {u : ι} {l l' : Local K V} {a : Act K V} (hI : Inv h cap f₀ sh)
    (hL : LocalInv cap sh l) (hright : WritesRight h cap sh l)
    (hstep : program h cap u sh l a = some (sh', l')) : Keeps h cap f₀ sh sh' l' := by
  cases a with
  | call call =>
    cases l with
    | ready last =>
      cases hstep
      cases call <;> exact hI.keep trivial
    | _ => cases hstep
  | step =>
    cases l with
    | ready last => cases hstep
    | insert key value pc =>
      obtain ⟨r, hr, heq⟩ := Option.map_eq_some_iff.mp hstep
      cases heq
      exact insertStep_keeps hI hL hright hr
    | get key pc =>
      obtain ⟨r, hr, heq⟩ := Option.map_eq_some_iff.mp hstep
      cases heq
      exact getStep_keeps hI hL hr
    | remove key pc =>
      obtain ⟨r, hr, heq⟩ := Option.map_eq_some_iff.mp hstep
      cases heq
      exact removeStep_keeps hI hL hright hr
    | clear pc =>
      obtain ⟨r, hr, heq⟩ := Option.map_eq_some_iff.mp hstep
      cases heq
      exact clearStep_keeps hI hL hright hr

end Steps

/-! ### Runs -/

/-- The invariant of the whole system. -/
structure SystemInv (h : K → UInt64) (cap : Nat) (f₀ : K → Option V) (s : State ι K V) : Prop where
  shared : Inv h cap f₀ s.shared
  locals : ∀ t, LocalInv cap s.shared (s.loc t)

theorem systemInv_step [DecidableEq ι] {s s' : State ι K V} {a : ι × Act K V}
    (hI : SystemInv h cap f₀ s) (hright : WritesRight h cap s.shared (s.loc a.1))
    (hstep : step h cap s a = some s') : SystemInv h cap f₀ s' := by
  obtain ⟨t, act⟩ := a
  obtain ⟨sh, l, hprog, rfl⟩ := interleave_eq_some.mp hstep
  obtain ⟨hI', hl, hmono⟩ := program_keeps hI.shared (hI.locals t) hright hprog
  exact ⟨hI', (Function.forall_update_iff s.loc fun _ l => LocalInv cap sh l).mpr
    ⟨hl, fun u _ => (hI.locals u).mono hmono⟩⟩

/-- While no resize is running a `get` answers as the writes say. -/
theorem Inv.get_eq (hI : Inv h cap f₀ sh) (hidle : sh.resizing = false) (key : K) :
    sh.get h key = .ok (Write.after h f₀ sh.writes key) := by
  have hresizing := hI.resizing.symm.trans hidle
  rw [Shared.get, hI.table, hI.capacity]
  cases hwork : sh.work with
  | storeState => exact (hI.old_content (by rw [hwork]; rfl)).getLocked key
  | dealloc => exact (hI.new (by rw [hwork]; rfl)).getLocked key
  | dropState => exact (hI.new (by rw [hwork]; rfl)).getLocked key
  | finished => exact (hI.new (by rw [hwork]; rfl)).getLocked key
  | _ =>
    rw [hwork] at hresizing
    cases hresizing

end Invariant

end VelocityX.Map.DuringResize
