import ShenRc.Probing.Shift
import ShenRc.Runtime.Heap

/-! # The side table of plans

Evaluator plans hang off pairs in a table with linear probing, keyed by the pair, and the flag
`has_plan` of a pair says whether to look there at all. `Represents` says that the table is the map
from pairs to plans and numbers of calls that its operations mean; every operation keeps that, so it
holds after any sequence of them (`run_represents`), and this is why the runtime's heap has the entry
of a pair as a field of the pair. -/

namespace ShenRc.Runtime

open ShenRc.Probing

/-- `struct RcPlanEntry` with a key. -/
structure RcPlanEntry where
  key : ℕ
  plan : Ref
  calls : ℕ
  deriving DecidableEq

/-- The part of the context that the table is made of. A slot without a key is `none`. -/
structure PlanTable where
  capacity : ℕ := 0
  slots : ℕ → Option RcPlanEntry := fun _ => none
  count : ℕ := 0
  hasPlan : ℕ → Bool := fun _ => false
  graphSlots : ℤ := 0

namespace PlanTable

section Table

variable (address : ℕ → BitVec 64)

/-- The product in `plan_hash`, shifted; `address` is where the pairs lie. -/
def planHashWord (key : ℕ) : ℕ := ((address key * 0x9e3779b97f4a7c15) >>> 17).toNat

/-- `plan_hash`. -/
def planHash (key capacity : ℕ) : ℕ := planHashWord address key &&& (capacity - 1)

/-- `plan_entry`: the slot of the pair's entry. A search that does not end has no result. -/
def planEntry (t : PlanTable) (pair : ℕ) : Option (Option ℕ) :=
  if !t.hasPlan pair || t.capacity == 0 then some none
  else
    (findSlot (fun e => e.key == pair) t.capacity t.slots (planHashWord address pair)).map fun i =>
      (t.slots i).map fun _ => i

/-- `plan_grow`; `ok` says whether `calloc` has room. -/
def planGrow (t : PlanTable) (ok : Bool) : Option (PlanTable × Bool) :=
  let capacity := if t.capacity = 0 then 64 else t.capacity * 2
  if ok then
    (rehash (fun e => planHashWord address e.key) capacity (entries t.capacity t.slots)
      fun _ => none).map fun slots =>
      ({ t with slots, capacity }, true)
  else some (t, false)

/-- `plan_insert`: the table, and the slot of the pair's entry unless there is no room. -/
def planInsert (t : PlanTable) (pair : ℕ) (ok : Bool) : Option (PlanTable × Option ℕ) := do
  match ← planEntry address t pair with
  | some i => some (t, some i)
  | none =>
    let (t, grown) ← if t.capacity < (t.count + 1) * 2 then planGrow address t ok else some (t, true)
    if grown then
      let i ← openSlot t.capacity t.slots (planHashWord address pair)
      some ({ t with
        slots := Function.update t.slots i (some ⟨pair, .null, 0⟩)
        count := t.count + 1
        hasPlan := Function.update t.hasPlan pair true }, some i)
    else some (t, none)

/-- The loop of `plan_remove` from slot `j` on, with the slot `i` that the last move has left. -/
def shiftLoop (capacity : ℕ) : ℕ → ℕ → ℕ → (ℕ → Option RcPlanEntry) →
    Option ((ℕ → Option RcPlanEntry) × ℕ)
  | 0, _, _, _ => none
  | fuel + 1, i, j, slots =>
    match slots j with
    | none => some (slots, i)
    | some e =>
      let home := planHash address e.key capacity
      if (j + capacity - i) &&& (capacity - 1) ≤ (j + capacity - home) &&& (capacity - 1) then
        shiftLoop capacity fuel j (nextSlot capacity j) (Function.update slots i (some e))
      else shiftLoop capacity fuel i (nextSlot capacity j) slots

/-- `plan_remove`: the table without the pair's entry, and its plan, if any. -/
def planRemove (t : PlanTable) (pair : ℕ) : Option (PlanTable × Ref) := do
  let entry ← planEntry address t pair
  let t := { t with hasPlan := Function.update t.hasPlan pair false }
  match entry with
  | none => some (t, .null)
  | some i =>
    let plan := ((t.slots i).map RcPlanEntry.plan).getD .null
    let (slots, i) ← shiftLoop address t.capacity t.capacity i (nextSlot t.capacity i) t.slots
    some ({ t with
      slots := Function.update slots i none
      count := t.count - 1
      graphSlots := if plan = .null then t.graphSlots else t.graphSlots - 1 }, plan)

/-- The entry in a slot is changed. -/
def modify (t : PlanTable) (i : ℕ) (f : RcPlanEntry → RcPlanEntry) : PlanTable :=
  { t with slots := Function.update t.slots i ((t.slots i).map f) }

/-- `rc_eval_plan_heat`: whether a plan is to be tried now. -/
def planHeat (t : PlanTable) (pair : ℕ) (ok : Bool) : Option (PlanTable × Bool) := do
  match ← planInsert address t pair ok with
  | (t, none) => some (t, false)
  | (t, some i) =>
    let calls := ((t.slots i).map RcPlanEntry.calls).getD 0
    if calls = sizeMax then some (t, false)
    else
      some (t.modify i fun e => { e with calls := calls + 1 },
        decide (32 ≤ calls + 1 ∧ (calls + 1) &&& calls = 0))

/-- `rc_eval_plan_set`: whether the plan has been stored. -/
def planSet (t : PlanTable) (pair : ℕ) (plan : Ref) (ok : Bool) : Option (PlanTable × Bool) := do
  match ← planInsert address t pair ok with
  | (t, none) => some (t, false)
  | (t, some i) =>
    let old := ((t.slots i).map RcPlanEntry.plan).getD .null
    let t := t.modify i fun e => { e with plan }
    some ({ t with
      graphSlots := t.graphSlots + (if plan = .null then 0 else 1) - if old = .null then 0 else 1 },
      true)

/-! ### Runs -/

/-- What is done to the table; the flags say whether a growth finds room. -/
inductive Op
  | grow (ok : Bool)
  | insert (pair : ℕ) (ok : Bool)
  | heat (pair : ℕ) (ok : Bool)
  | set (pair : ℕ) (plan : Ref) (ok : Bool)
  | remove (pair : ℕ)

/-- The operation, and whether it found room. -/
def step (t : PlanTable) : Op → Option (PlanTable × Bool)
  | .grow ok => planGrow address t ok
  | .insert pair ok => (planInsert address t pair ok).map fun r => (r.1, r.2.isSome)
  | .heat pair ok => do
    let room ← (planInsert address t pair ok).map fun r => r.2.isSome
    let r ← planHeat address t pair ok
    some (r.1, room)
  | .set pair plan ok => planSet address t pair plan ok
  | .remove pair => (planRemove address t pair).map fun r => (r.1, true)

/-- The plan and the number of calls of every pair that has been inserted. -/
abbrev Plans := ℕ → Option (Ref × ℕ)

/-- What an operation that finds room means. -/
def Op.mean (m : Plans) : Op → Plans
  | .grow _ => m
  | .insert pair _ => Function.update m pair (some ((m pair).getD (.null, 0)))
  | .heat pair _ =>
    let e := (m pair).getD (.null, 0)
    Function.update m pair (some (e.1, if e.2 = sizeMax then e.2 else e.2 + 1))
  | .set pair plan _ => Function.update m pair (some (plan, ((m pair).getD (.null, 0)).2))
  | .remove pair => Function.update m pair none

/-- Whether a growth in the operation would find room. -/
def Op.room : Op → Bool
  | .grow ok | .insert _ ok | .heat _ ok | .set _ _ ok => ok
  | .remove _ => true

/-- An operation that finds no room changes nothing. -/
def Op.apply (o : Op) (room : Bool) (m : Plans) : Plans := if room then o.mean m else m

/-- A sequence of operations on a table, and what it means. -/
def run : List Op → PlanTable × Plans → Option (PlanTable × Plans)
  | [], r => some r
  | o :: os, (t, m) => (step address t o).bind fun r => run os (r.1, o.apply r.2 m)

end Table

/-! ### The table is a map -/

section

variable {address : ℕ → BitVec 64} {t : PlanTable} {m : Plans}

/-- **The table represents the map.** -/
structure Represents (address : ℕ → BitVec 64) (t : PlanTable) (m : Plans) : Prop where
  capacity : t.capacity = 0 ∨ ∃ k, t.capacity = 2 ^ k
  linked : Linked (fun e : RcPlanEntry => some e.key) (planHashWord address) t.capacity t.slots
  count : t.count = used t.capacity t.slots
  half : 2 * t.count ≤ t.capacity
  content : ∀ pair plan calls,
    (∃ i < t.capacity, t.slots i = some ⟨pair, plan, calls⟩) ↔ m pair = some (plan, calls)
  flag : ∀ pair, t.hasPlan pair = (m pair).isSome

theorem represents_empty (address : ℕ → BitVec 64) : Represents address {} fun _ => none where
  capacity := Or.inl rfl
  linked := .empty _ _ _
  count := by simp
  half := Nat.le_refl 0
  content pair plan calls := by simp
  flag _ := rfl

/-! ### The loops -/

theorem planHash_eq (pair k : ℕ) :
    planHash address pair (2 ^ k) = planHashWord address pair % 2 ^ k := by
  rw [planHash, Nat.and_two_pow_sub_one_eq_mod]

theorem shiftLoop_eq (k fuel i j : ℕ) (slots : ℕ → Option RcPlanEntry) :
    shiftLoop address (2 ^ k) fuel i j slots =
      shiftBack (fun e => planHashWord address e.key) (2 ^ k) fuel i j slots := by
  induction fuel generalizing i j slots with
  | zero => rfl
  | succ fuel ih =>
    simp only [shiftLoop, shiftBack, back, nextSlot_eq, planHash_eq,
      Nat.and_two_pow_sub_one_eq_mod, ih]
    rcases slots j with _ | e
    · rfl
    · rfl

/-- The slot of a pair's entry, or one to be made its slot, is written. -/
theorem content_update {capacity : ℕ} {slots : ℕ → Option RcPlanEntry}
    (hcontent : ∀ q plan calls,
      (∃ i < capacity, slots i = some ⟨q, plan, calls⟩) ↔ m q = some (plan, calls))
    {i : ℕ} (hi : i < capacity) {pair : ℕ} (hkey : ∀ e, slots i = some e → e.key = pair)
    (honly : ∀ j < capacity, ∀ e, slots j = some e → e.key = pair → j = i) (plan' : Ref)
    (calls' : ℕ) (q : ℕ) (plan : Ref) (calls : ℕ) :
    (∃ j < capacity, Function.update slots i (some ⟨pair, plan', calls'⟩) j =
      some ⟨q, plan, calls⟩) ↔
      Function.update m pair (some (plan', calls')) q = some (plan, calls) := by
  rcases eq_or_ne q pair with rfl | hne
  · rw [Function.update_self]
    refine ⟨fun ⟨j, hj, hslot⟩ => ?_, fun heq => ⟨i, hi, ?_⟩⟩
    · rcases eq_or_ne j i with rfl | hji
      · rw [Function.update_self] at hslot
        cases hslot
        rfl
      · rw [Function.update_of_ne hji] at hslot
        exact absurd (honly j hj _ hslot rfl) hji
    · cases heq
      exact Function.update_self ..
  · rw [Function.update_of_ne hne, ← hcontent]
    refine exists_congr fun j => and_congr_right fun _ => ?_
    rcases eq_or_ne j i with rfl | hji
    · rw [Function.update_self]
      refine ⟨fun heq => ?_, fun heq => absurd (hkey _ heq) hne⟩
      cases heq
      exact absurd rfl hne
    · rw [Function.update_of_ne hji]

namespace Represents

theorem half' (h : Represents address t m) : 2 * used t.capacity t.slots ≤ t.capacity :=
  h.count ▸ h.half

/-- **A search ends**, and finds the pair's entry if it has one. -/
theorem planEntry (h : Represents address t m) (pair : ℕ) :
    (m pair = none ∧ planEntry address t pair = some none) ∨
      ∃ plan calls, m pair = some (plan, calls) ∧ ∃ i < t.capacity,
        planEntry address t pair = some (some i) ∧ t.slots i = some ⟨pair, plan, calls⟩ := by
  rcases hm : m pair with _ | ⟨plan, calls⟩
  · refine Or.inl ⟨rfl, ?_⟩
    rw [PlanTable.planEntry, h.flag, hm]
    rfl
  · right
    obtain ⟨i, hi, hslot⟩ := (h.content pair plan calls).mpr hm
    refine ⟨plan, calls, rfl, i, hi, ?_, hslot⟩
    obtain hzero | ⟨k, hk⟩ := h.capacity
    · omega
    have hhalf := h.half'
    have hfind := h.linked.find_held (exists_free (by omega)) hi hslot rfl
    have hflag : (!t.hasPlan pair || t.capacity == 0) = false := by
      rw [h.flag, hm, Bool.or_eq_false_iff]
      exact ⟨rfl, beq_eq_false_iff_ne.mpr (by omega)⟩
    have hstop : (fun e : RcPlanEntry => e.key == pair) = fun e => some e.key == some pair := rfl
    rw [hk, ← findSlot_eq, ← hk] at hfind
    rw [PlanTable.planEntry, hflag, if_neg Bool.false_ne_true, hstop, hfind, Option.map_some, hslot]
    rfl

/-- The keys of a table that has not been filled further are those of the map. -/
theorem holds_iff (h : Represents address t m) (pair : ℕ) :
    Holds (fun e : RcPlanEntry => some e.key) t.capacity t.slots pair ↔ m pair ≠ none := by
  refine ⟨fun ⟨i, hi, e, he, hk⟩ => ?_, fun hm => ?_⟩
  · cases hk
    have := (h.content e.key e.plan e.calls).mp ⟨i, hi, he⟩
    rw [this]
    exact Option.some_ne_none _
  · obtain ⟨⟨plan, calls⟩, hm⟩ := Option.ne_none_iff_exists'.mp hm
    obtain ⟨i, hi, hslot⟩ := (h.content pair plan calls).mpr hm
    exact ⟨i, hi, _, hslot, rfl⟩

/-- **Growing** keeps the map and makes room. -/
theorem planGrow (h : Represents address t m) :
    ∃ t', PlanTable.planGrow address t true = some (t', true) ∧ Represents address t' m ∧
      2 * (t'.count + 1) ≤ t'.capacity := by
  obtain ⟨k, hk, hle, hlt⟩ : ∃ k, (if t.capacity = 0 then 64 else t.capacity * 2) = 2 ^ k ∧
      t.capacity * 2 ≤ 2 ^ k ∧ 2 * (t.count + 1) ≤ 2 ^ k := by
    have hhalf := h.half
    obtain hzero | ⟨k, hk⟩ := h.capacity
    · exact ⟨6, by simp [hzero], by simp [hzero], by rw [hzero] at hhalf; omega⟩
    · have hpos : 0 < 2 ^ k := Nat.two_pow_pos k
      refine ⟨k + 1, by rw [if_neg (by omega), hk, pow_succ], by rw [hk, pow_succ], ?_⟩
      rw [pow_succ, ← hk]
      rcases Nat.lt_or_ge t.count 1 with hcount | hcount
      · omega
      · omega
  have hcount := h.count
  obtain ⟨slots', hfill, hlinked, hused, hmem⟩ := fill_spec
    (fun e : RcPlanEntry => planHashWord address e.key) (entries t.capacity t.slots)
    (Linked.empty (fun e : RcPlanEntry => some e.key) (planHashWord address) (2 ^ k))
    (by rw [used_empty, length_entries, ← hcount]; omega)
    (fun e _ => ⟨e.key, rfl, rfl, by rintro ⟨i, -, a, ha, -⟩; cases ha⟩)
    (entries_distinct h.linked.unique fun i _ a _ => Option.some_ne_none a.key)
  rw [used_empty, length_entries, Nat.zero_add] at hused
  refine ⟨{ t with slots := slots', capacity := 2 ^ k }, ?_, ?_, hlt⟩
  · rw [PlanTable.planGrow]
    simp only [hk, if_true, rehash_eq, hfill, Option.map_some]
  · refine ⟨Or.inr ⟨k, rfl⟩, hlinked, hcount.trans hused.symm, ?_, fun pair plan calls => ?_, h.flag⟩
    · have hhalf := h.half
      change 2 * t.count ≤ 2 ^ k
      omega
    · rw [← h.content, hmem, mem_entries]
      simp

/-- A new entry in a table with room for it. -/
theorem place (h : Represents address t m) (hroom : 2 * (t.count + 1) ≤ t.capacity) {pair : ℕ}
    (hm : m pair = none) :
    ∃ i < t.capacity, openSlot t.capacity t.slots (planHashWord address pair) = some i ∧
      Represents address { t with
        slots := Function.update t.slots i (some ⟨pair, .null, 0⟩)
        count := t.count + 1
        hasPlan := Function.update t.hasPlan pair true } (Function.update m pair (some (.null, 0))) := by
  obtain hzero | ⟨k, hk⟩ := h.capacity
  · omega
  have hcount := h.count
  have hfree : ∃ i < t.capacity, t.slots i = none := exists_free (by omega)
  obtain ⟨d, hd, hopen, hfree, hbefore⟩ := freeSlot_spec hfree (planHashWord address pair)
  have hi : (planHashWord address pair + d) % t.capacity < t.capacity := Nat.mod_lt _ (by omega)
  have hnew : ¬Holds (fun e : RcPlanEntry => some e.key) t.capacity t.slots pair := by
    rw [h.holds_iff, hm]
    exact fun hne => hne rfl
  refine ⟨_, hi, ?_, Or.inr ⟨k, hk⟩, ?_, ?_, hroom, ?_, fun q => ?_⟩
  · rw [hk, openSlot_eq, ← hk]
    exact hopen
  · exact h.linked.insert (a := ⟨pair, .null, 0⟩) rfl hnew hd hbefore
  · rw [used_update_free hi hfree, ← hcount]
  · refine content_update h.content hi (fun e he => ?_) (fun j hj e he hkey => ?_) .null 0
    · rw [hfree] at he
      cases he
    · exact absurd ⟨j, hj, e, he, congrArg some hkey⟩ hnew
  · change Function.update t.hasPlan pair true q = _
    rcases eq_or_ne q pair with rfl | hne
    · rw [Function.update_self, Function.update_self]
      rfl
    · rw [Function.update_of_ne hne, Function.update_of_ne hne, h.flag]

/-- **Inserting** finds the pair's entry or makes an empty one; without room nothing is done. -/
theorem planInsert (h : Represents address t m) (pair : ℕ) (ok : Bool) :
    (ok = false ∧ PlanTable.planInsert address t pair ok = some (t, none)) ∨
      ∃ t' i, PlanTable.planInsert address t pair ok = some (t', some i) ∧ i < t'.capacity ∧
        t'.slots i = some ⟨pair, ((m pair).getD (.null, 0)).1, ((m pair).getD (.null, 0)).2⟩ ∧
        Represents address t' (Function.update m pair (some ((m pair).getD (.null, 0)))) := by
  obtain ⟨hm, hentry⟩ | ⟨plan, calls, hm, i, hi, hentry, hslot⟩ := h.planEntry pair
  · rw [hm, Option.getD_none]
    rcases Nat.lt_or_ge t.capacity ((t.count + 1) * 2) with hfull | hroom
    · rcases ok with _ | _
      · left
        rw [PlanTable.planInsert, hentry]
        simp [hfull, PlanTable.planGrow]
      · right
        obtain ⟨t', hgrow, h', hroom⟩ := h.planGrow
        obtain ⟨i, hi, hopen, hrep⟩ := h'.place hroom hm
        refine ⟨{ t' with
          slots := Function.update t'.slots i (some ⟨pair, .null, 0⟩)
          count := t'.count + 1
          hasPlan := Function.update t'.hasPlan pair true }, i, ?_, hi, Function.update_self .., hrep⟩
        rw [PlanTable.planInsert, hentry]
        simp [hfull, hgrow, hopen]
    · right
      obtain ⟨i, hi, hopen, hrep⟩ := h.place (by omega) hm
      refine ⟨{ t with
        slots := Function.update t.slots i (some ⟨pair, .null, 0⟩)
        count := t.count + 1
        hasPlan := Function.update t.hasPlan pair true }, i, ?_, hi, Function.update_self .., hrep⟩
      rw [PlanTable.planInsert, hentry]
      simp [Nat.not_lt.mpr hroom, hopen]
  · right
    refine ⟨t, i, ?_, hi, by rw [hslot, hm]; rfl, ?_⟩
    · rw [PlanTable.planInsert, hentry]
      rfl
    · rw [hm, Option.getD_some, ← hm, Function.update_eq_self]
      exact h

/-- **The entry of a pair is changed**, its key is not. -/
theorem modify (h : Represents address t m) {i : ℕ} (hi : i < t.capacity) {pair : ℕ} {plan : Ref}
    {calls : ℕ} (hslot : t.slots i = some ⟨pair, plan, calls⟩) {f : RcPlanEntry → RcPlanEntry}
    {plan' : Ref} {calls' : ℕ} (hf : f ⟨pair, plan, calls⟩ = ⟨pair, plan', calls'⟩) :
    Represents address (t.modify i f) (Function.update m pair (some (plan', calls'))) := by
  have hmap : (t.slots i).map f = some ⟨pair, plan', calls'⟩ := by rw [hslot, Option.map_some, hf]
  have hm := (h.content pair plan calls).mp ⟨i, hi, hslot⟩
  refine ⟨h.capacity, ?_, ?_, h.half, ?_, fun q => ?_⟩
  · change Linked _ _ _ (Function.update t.slots i ((t.slots i).map f))
    rw [hmap]
    exact h.linked.replace hslot fun k hk => hk
  · change t.count = used _ (Function.update t.slots i ((t.slots i).map f))
    rw [hmap, used_update_taken (by rw [hslot]; exact Option.some_ne_none _)]
    exact h.count
  · rw [PlanTable.modify, hmap]
    refine content_update h.content hi (fun e he => ?_) (fun j hj e he hkey => ?_) plan' calls'
    · rw [hslot] at he
      cases he
      rfl
    · exact h.linked.unique j hj i hi e _ pair he hslot (congrArg some hkey) rfl
  · change t.hasPlan q = _
    rw [h.flag]
    rcases eq_or_ne q pair with rfl | hne
    · rw [Function.update_self, hm]
      rfl
    · rw [Function.update_of_ne hne]

/-- **Removing** takes the pair's entry out and returns its plan. -/
theorem planRemove (h : Represents address t m) (pair : ℕ) :
    ∃ t', PlanTable.planRemove address t pair = some (t', ((m pair).map Prod.fst).getD .null) ∧
      Represents address t' (Function.update m pair none) := by
  have hflag : ∀ q, Function.update t.hasPlan pair false q =
      (Function.update m pair none q).isSome := by
    intro q
    rcases eq_or_ne q pair with rfl | hne
    · rw [Function.update_self, Function.update_self]
      rfl
    · rw [Function.update_of_ne hne, Function.update_of_ne hne, h.flag]
  obtain ⟨hm, hentry⟩ | ⟨plan, calls, hm, i, hi, hentry, hslot⟩ := h.planEntry pair
  · refine ⟨{ t with hasPlan := Function.update t.hasPlan pair false }, ?_, ?_⟩
    · rw [PlanTable.planRemove, hentry, hm]
      rfl
    · have hself : Function.update m pair none = m := by rw [← hm, Function.update_eq_self]
      exact ⟨h.capacity, h.linked, h.count, h.half, by rw [hself]; exact h.content, hflag⟩
  · obtain hzero | ⟨k, hk⟩ := h.capacity
    · omega
    have hcount := h.count
    have hhalf := h.half
    have hkeyed : Keyed (fun e : RcPlanEntry => some e.key) (planHashWord address)
        (fun e => planHashWord address e.key) t.capacity t.slots :=
      fun j _ e _ => ⟨e.key, rfl, rfl⟩
    have hne : t.slots i ≠ none := by rw [hslot]; exact Option.some_ne_none _
    obtain ⟨slots', herase, hlinked, -, hused, hmem⟩ :=
      erase_spec h.linked hkeyed (exists_free (by omega)) hi hne
    obtain ⟨⟨slots, hole⟩, hshift, rfl⟩ := Option.map_eq_some_iff.mp herase
    refine ⟨{ t with
      slots := Function.update slots hole none
      hasPlan := Function.update t.hasPlan pair false
      count := t.count - 1
      graphSlots := if plan = .null then t.graphSlots else t.graphSlots - 1 }, ?_,
      Or.inr ⟨k, hk⟩, hlinked, ?_, ?_, fun q plan' calls' => ?_, hflag⟩
    · have hnext : (i + 1) % 2 ^ k = nextSlot (2 ^ k) i := by rw [nextSlot_eq]
      rw [hk, ← shiftLoop_eq, hnext, ← hk] at hshift
      rw [PlanTable.planRemove, hentry, hm]
      simp [hslot, hshift]
    · change t.count - 1 = used t.capacity (Function.update slots hole none)
      rw [hcount, ← hused, Nat.add_sub_cancel]
    · change 2 * (t.count - 1) ≤ t.capacity
      omega
    · refine (hmem _).trans ?_
      rcases eq_or_ne q pair with rfl | hq
      · rw [Function.update_self]
        refine ⟨fun ⟨j, hj, hji, hjslot⟩ => ?_, fun heq => by cases heq⟩
        exact absurd (h.linked.unique j hj i hi _ _ q hjslot hslot rfl rfl) hji
      · rw [Function.update_of_ne hq, ← h.content]
        refine exists_congr fun j => and_congr_right fun _ => and_iff_right_of_imp fun hjslot => ?_
        rintro rfl
        rw [hslot] at hjslot
        cases hjslot
        exact hq rfl

/-- **Counting a call.** -/
theorem planHeat (h : Represents address t m) (pair : ℕ) (ok : Bool) :
    (ok = false ∧ PlanTable.planInsert address t pair ok = some (t, none) ∧
      PlanTable.planHeat address t pair ok = some (t, false)) ∨
      ∃ t' i hot, PlanTable.planInsert address t pair ok = some (t', some i) ∧
        ∃ t'', PlanTable.planHeat address t pair ok = some (t'', hot) ∧
        Represents address t'' ((Op.heat pair ok).mean m) := by
  obtain ⟨hok, hins⟩ | ⟨t', i, hins, hi, hslot, h'⟩ := h.planInsert pair ok
  · refine Or.inl ⟨hok, hins, ?_⟩
    rw [PlanTable.planHeat, hins]
    rfl
  · right
    by_cases hmax : ((m pair).getD (.null, 0)).2 = sizeMax
    · refine ⟨t', i, false, hins, t', ?_, ?_⟩
      · rw [PlanTable.planHeat, hins]
        simp [hslot, hmax]
      · have hsame : (((m pair).getD (.null, 0)).1, sizeMax) = (m pair).getD (.null, 0) :=
          Prod.ext rfl hmax.symm
        rw [Op.mean, hmax, if_pos rfl, hsame]
        exact h'
    · have hrun : PlanTable.planHeat address t pair ok =
          some (t'.modify i fun e => { e with calls := ((m pair).getD (.null, 0)).2 + 1 },
            decide (32 ≤ ((m pair).getD (.null, 0)).2 + 1 ∧
              (((m pair).getD (.null, 0)).2 + 1) &&& ((m pair).getD (.null, 0)).2 = 0)) := by
        rw [PlanTable.planHeat, hins]
        simp [hslot, hmax]
      refine ⟨t', i, _, hins, _, hrun, ?_⟩
      have hmod := h'.modify hi hslot
        (f := fun e => { e with calls := ((m pair).getD (.null, 0)).2 + 1 }) rfl
      rw [Function.update_idem] at hmod
      simpa only [Op.mean, hmax, if_false] using hmod

/-- **Storing a plan.** -/
theorem planSet (h : Represents address t m) (pair : ℕ) (plan : Ref) (ok : Bool) :
    (ok = false ∧ PlanTable.planSet address t pair plan ok = some (t, false)) ∨
      ∃ t', PlanTable.planSet address t pair plan ok = some (t', true) ∧
        Represents address t' ((Op.set pair plan ok).mean m) := by
  obtain ⟨hok, hins⟩ | ⟨t', i, hins, hi, hslot, h'⟩ := h.planInsert pair ok
  · refine Or.inl ⟨hok, ?_⟩
    rw [PlanTable.planSet, hins]
    rfl
  · right
    have hmod := h'.modify hi hslot (f := fun e => { e with plan }) rfl
    rw [Function.update_idem] at hmod
    refine ⟨_, by rw [PlanTable.planSet, hins]; rfl, ?_⟩
    exact ⟨hmod.capacity, hmod.linked, hmod.count, hmod.half, hmod.content, hmod.flag⟩

/-- **One operation**: it ends, it keeps the table in step with its meaning, it fails only when a
growth finds no room, and then the table is as it was. -/
theorem step (h : Represents address t m) (o : Op) :
    ∃ t' room, PlanTable.step address t o = some (t', room) ∧ Represents address t' (o.apply room m) ∧
      (room = false → o.room = false ∧ t' = t) := by
  rcases o with ok | ⟨pair, ok⟩ | ⟨pair, ok⟩ | ⟨pair, plan, ok⟩ | pair
  · rcases ok with _ | _
    · exact ⟨t, false, rfl, h, fun _ => ⟨rfl, rfl⟩⟩
    · obtain ⟨t', hgrow, h', -⟩ := h.planGrow
      exact ⟨t', true, hgrow, h', fun hf => by cases hf⟩
  · obtain ⟨hok, hins⟩ | ⟨t', i, hins, -, -, h'⟩ := h.planInsert pair ok
    · exact ⟨t, false, by rw [PlanTable.step, hins]; rfl, h, fun _ => ⟨hok, rfl⟩⟩
    · exact ⟨t', true, by rw [PlanTable.step, hins]; rfl, h', fun hf => by cases hf⟩
  · obtain ⟨hok, hins, hheat⟩ | ⟨t', i, hot, hins, t'', hheat, h''⟩ := h.planHeat pair ok
    · exact ⟨t, false, by rw [PlanTable.step, hins, hheat]; rfl, h, fun _ => ⟨hok, rfl⟩⟩
    · exact ⟨t'', true, by rw [PlanTable.step, hins, hheat]; rfl, h'', fun hf => by cases hf⟩
  · obtain ⟨hok, hset⟩ | ⟨t', hset, h'⟩ := h.planSet pair plan ok
    · exact ⟨t, false, hset, h, fun _ => ⟨hok, rfl⟩⟩
    · exact ⟨t', true, hset, h', fun hf => by cases hf⟩
  · obtain ⟨t', hremove, h'⟩ := h.planRemove pair
    exact ⟨t', true, by rw [PlanTable.step, hremove]; rfl, h', fun hf => by cases hf⟩

end Represents

/-- **A run** ends and keeps the table in step with its meaning. -/
theorem run_represents (h : Represents address t m) (os : List Op) :
    ∃ t' m', run address os (t, m) = some (t', m') ∧ Represents address t' m' := by
  induction os generalizing t m with
  | nil => exact ⟨t, m, rfl, h⟩
  | cons o os ih =>
    obtain ⟨t', room, hstep, h', -⟩ := h.step o
    obtain ⟨t'', m'', hrun, h''⟩ := ih h'
    exact ⟨t'', m'', by rw [run, hstep]; exact hrun, h''⟩

/-- **The table is a map**: after any sequence of operations a lookup ends and finds the entry of a
pair that was inserted and not removed since, with its plan and its calls; no key occurs twice and at
most half of the slots are used. The next operation ends, too, and one that fails is a growth without
room, which leaves the table as it was. -/
theorem is_map (address : ℕ → BitVec 64) (os : List Op) :
    ∃ t m, run address os ({}, fun _ => none) = some (t, m) ∧
      (∀ pair, m pair = none ∧ planEntry address t pair = some none ∨
        ∃ plan calls, m pair = some (plan, calls) ∧ ∃ i < t.capacity,
          planEntry address t pair = some (some i) ∧ t.slots i = some ⟨pair, plan, calls⟩) ∧
      (∀ i < t.capacity, ∀ j < t.capacity, ∀ a b, t.slots i = some a → t.slots j = some b →
        a.key = b.key → i = j) ∧
      2 * used t.capacity t.slots ≤ t.capacity ∧
      ∀ o, ∃ t' room, step address t o = some (t', room) ∧
        (room = false → o.room = false ∧ t' = t) := by
  obtain ⟨t, m, hrun, h⟩ := run_represents (represents_empty address) os
  refine ⟨t, m, hrun, h.planEntry, fun i hi j hj a b ha hb hab => ?_, h.half', fun o => ?_⟩
  · exact h.linked.unique i hi j hj a b a.key ha hb rfl (congrArg some hab.symm)
  · obtain ⟨t', room, hstep, -, hfail⟩ := h.step o
    exact ⟨t', room, hstep, hfail⟩

end

end PlanTable

end ShenRc.Runtime
