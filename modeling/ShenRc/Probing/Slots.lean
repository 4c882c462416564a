import ShenRc.Graph.Probing
import Mathlib.Data.Finset.Card
import Mathlib.Data.Finset.Range
import Mathlib.Data.Nat.Bitwise
import Mathlib.Data.Nat.ModEq
import Mathlib.Logic.Function.Basic

/-! # Tables with linear probing

A table of `m` slots. A slot is free, or it holds an entry; an entry without a key is a tombstone.
`Linked` says that on the way from its home to an entry no slot is free, and that no key occurs twice:
as long as one slot is free, a search ends at the entry of its key or, if there is none, at a free
slot (`Linked.find`). An entry goes in at the first free slot or tombstone (`Linked.insert`), an
entry may be replaced by one of its key or a tombstone (`Linked.replace`), and the entries of one
table can be moved to another (`fill_spec`). Code that keeps the number of slots a power of two takes a
mask in place of the remainder (`findSlot`, `rehash`). -/

namespace ShenRc.Probing

open ShenRc.Graph (probe probe_stops exists_steps)

/-! ### Steps around the table -/

theorem steps_inj {m h d e : ℕ} (hd : d < m) (he : e < m) (heq : (h + d) % m = (h + e) % m) :
    d = e := by
  have hmod : Nat.ModEq m d e := Nat.ModEq.add_left_cancel' h heq
  rwa [Nat.ModEq, Nat.mod_eq_of_lt hd, Nat.mod_eq_of_lt he] at hmod

/-- The number of steps from one slot to another. -/
def back (m j i : ℕ) : ℕ := (j + m - i) % m

theorem back_steps {m h d : ℕ} (hd : d < m) : back m ((h + d) % m) (h % m) = d := by
  have hm : 0 < m := by omega
  have hlt := Nat.mod_lt h hm
  have hsum : (h + d) % m = (h % m + d) % m := by rw [Nat.mod_add_mod]
  rw [back, hsum]
  rcases Nat.lt_or_ge (h % m + d) m with hle | hge
  · have hcancel : h % m + d + m - h % m = d + m := by omega
    rw [Nat.mod_eq_of_lt hle, hcancel, Nat.add_mod_right, Nat.mod_eq_of_lt hd]
  · have hwrap : (h % m + d) % m = h % m + d - m := by
      rw [Nat.mod_eq_sub_mod hge, Nat.mod_eq_of_lt (by omega)]
    have hcancel : h % m + d - m + m - h % m = d := by omega
    rw [hwrap, hcancel, Nat.mod_eq_of_lt hd]

variable {κ α : Type*} {key : α → Option κ} {hash : κ → ℕ} {m : ℕ} {slots : ℕ → Option α}

/-- The slots that are not free. -/
def used (m : ℕ) (slots : ℕ → Option α) : ℕ :=
  ((Finset.range m).filter fun i => (slots i).isSome).card

theorem used_le : used m slots ≤ m := by
  simpa [used] using Finset.card_filter_le (Finset.range m) fun i => (slots i).isSome

theorem exists_free (h : used m slots < m) : ∃ i < m, slots i = none := by
  by_contra hn
  push Not at hn
  have hall : ((Finset.range m).filter fun i => (slots i).isSome) = Finset.range m := by
    refine Finset.filter_true_of_mem fun i hi => ?_
    exact Option.isSome_iff_ne_none.mpr (hn i (Finset.mem_range.mp hi))
  rw [used, hall, Finset.card_range] at h
  omega

theorem used_update_free {i : ℕ} (hi : i < m) (h : slots i = none) (a : α) :
    used m (Function.update slots i (some a)) = used m slots + 1 := by
  have hset : ((Finset.range m).filter fun j => (Function.update slots i (some a) j).isSome) =
      insert i ((Finset.range m).filter fun j => (slots j).isSome) := by
    ext j
    simp only [Finset.mem_filter, Finset.mem_insert, Finset.mem_range]
    rcases eq_or_ne j i with rfl | hj
    · simp [hi]
    · simp [hj]
  rw [used, hset, Finset.card_insert_of_notMem (by simp [h]), used]

theorem used_mono {β : Type*} {slots' : ℕ → Option β}
    (h : ∀ i < m, slots i ≠ none → slots' i ≠ none) : used m slots ≤ used m slots' := by
  refine Finset.card_le_card fun i hi => ?_
  rw [Finset.mem_filter, Finset.mem_range, Option.isSome_iff_ne_none] at hi ⊢
  exact ⟨hi.1, h i hi.1 hi.2⟩

theorem used_succ : used (m + 1) slots = used m slots + (slots m).isSome.toNat := by
  rw [used, used, Finset.range_add_one, Finset.filter_insert]
  rcases hslot : slots m with _ | a
  · simp
  · simp

theorem used_lt {i : ℕ} (hi : i < m) (h : slots i ≠ none) : used i slots < used m slots := by
  induction m with
  | zero => omega
  | succ m ih =>
    rw [used_succ]
    rcases Nat.lt_or_ge i m with hlt | hge
    · have := ih hlt
      omega
    · have him : i = m := by omega
      rw [him] at h ⊢
      rw [Option.isSome_iff_ne_none.mpr h]
      exact Nat.lt_succ_self _

theorem used_full (h : ∀ i < m, slots i ≠ none) : used m slots = m := by
  rcases Nat.lt_or_ge (used m slots) m with hlt | hge
  · obtain ⟨i, hi, hnone⟩ := exists_free hlt
    exact absurd hnone (h i hi)
  · exact le_antisymm used_le hge

theorem used_update_taken {i : ℕ} (h : slots i ≠ none) (a : α) :
    used m (Function.update slots i (some a)) = used m slots := by
  have hset : ∀ j, (Function.update slots i (some a) j).isSome = (slots j).isSome := by
    intro j
    rcases eq_or_ne j i with rfl | hj
    · rw [Function.update_self, Option.isSome_some, Option.isSome_iff_ne_none.mpr h]
    · rw [Function.update_of_ne hj]
  simp only [used, hset]

theorem used_update_none {i : ℕ} (hi : i < m) (h : slots i ≠ none) :
    used m (Function.update slots i none) + 1 = used m slots := by
  obtain ⟨a, ha⟩ := Option.ne_none_iff_exists'.mp h
  have hself : Function.update (Function.update slots i none) i (some a) = slots := by
    rw [Function.update_idem, ← ha, Function.update_eq_self]
  rw [← used_update_free hi (Function.update_self i none slots) a, hself]

@[simp] theorem used_empty : used m (fun _ => (none : Option α)) = 0 := by simp [used]

/-- **What makes searches work.** -/
structure Linked (key : α → Option κ) (hash : κ → ℕ) (m : ℕ) (slots : ℕ → Option α) : Prop where
  path : ∀ i < m, ∀ a k, slots i = some a → key a = some k →
    ∃ d < m, (hash k + d) % m = i ∧ ∀ e < d, slots ((hash k + e) % m) ≠ none
  unique : ∀ i < m, ∀ j < m, ∀ a b k, slots i = some a → slots j = some b →
    key a = some k → key b = some k → i = j

theorem Linked.empty (key : α → Option κ) (hash : κ → ℕ) (m : ℕ) :
    Linked key hash m (fun _ => none) where
  path _ _ _ _ h := by cases h
  unique _ _ _ _ _ _ _ h := by cases h

/-- Only the keys of its entries matter for a table. -/
theorem Linked.congr {key' : α → Option κ} (h : Linked key hash m slots)
    (heq : ∀ i < m, ∀ a, slots i = some a → key' a = key a) : Linked key' hash m slots where
  path i hi a k ha hk := h.path i hi a k ha ((heq i hi a ha).symm.trans hk)
  unique i hi j hj a b k ha hb hka hkb := h.unique i hi j hj a b k ha hb
    ((heq i hi a ha).symm.trans hka) ((heq j hj b hb).symm.trans hkb)

/-- The key is that of an entry. -/
def Holds (key : α → Option κ) (m : ℕ) (slots : ℕ → Option α) (k : κ) : Prop :=
  ∃ i < m, ∃ a, slots i = some a ∧ key a = some k

/-! ### Searching -/

section Find

variable [DecidableEq κ]

/-- The search for a key: it ends at a free slot and at an entry of the key. -/
def find (key : α → Option κ) (hash : κ → ℕ) (m : ℕ) (slots : ℕ → Option α) (k : κ) : Option ℕ :=
  probe (fun i => (slots i).elim true fun a => key a == some k) (fun i => (i + 1) % m) m (hash k % m)

/-- **A search ends**, at the entry of the key or at a free slot. -/
theorem Linked.find (h : Linked key hash m slots) (hfree : ∃ i < m, slots i = none) (k : κ) :
    ∃ i < m, Probing.find key hash m slots k = some i ∧
      ((∃ a, slots i = some a ∧ key a = some k) ∨
        slots i = none ∧ ¬Holds key m slots k ∧
          ∃ d < m, (hash k + d) % m = i ∧ ∀ e < d, slots ((hash k + e) % m) ≠ none) := by
  obtain ⟨z, hz, hzero⟩ := hfree
  obtain ⟨d, hd, hdz⟩ := exists_steps (hash k) hz
  obtain ⟨e, he, hp, hs, hn⟩ := probe_stops
    (fun i => (slots i).elim true fun a => key a == some k) m (hash k) d hd
    (by rw [hdz, hzero]; rfl)
  have hm : 0 < m := by omega
  have hbefore : ∀ i < e, ∃ a, slots ((hash k + i) % m) = some a ∧ key a ≠ some k := by
    intro i hi
    have hi' := hn i hi
    rcases hslot : slots ((hash k + i) % m) with _ | a
    · rw [hslot] at hi'
      cases hi'
    · rw [hslot, Option.elim_some, beq_eq_false_iff_ne] at hi'
      exact ⟨a, rfl, hi'⟩
  refine ⟨(hash k + e) % m, Nat.mod_lt _ hm, hp, ?_⟩
  rcases hslot : slots ((hash k + e) % m) with _ | a
  · refine Or.inr ⟨rfl, ?_, e, by omega, rfl, fun i hi => ?_⟩
    · rintro ⟨j, hj, a, ha, hk⟩
      obtain ⟨d', hd', hj', hpath⟩ := h.path j hj a k ha hk
      rcases Nat.lt_trichotomy d' e with hlt | rfl | hgt
      · obtain ⟨b, hb, hne⟩ := hbefore d' hlt
        rw [hj', ha] at hb
        exact hne (Option.some.inj hb ▸ hk)
      · rw [hj', ha] at hslot
        cases hslot
      · exact hpath e hgt hslot
    · obtain ⟨a, ha, -⟩ := hbefore i hi
      rw [ha]
      exact Option.some_ne_none a
  · rw [hslot, Option.elim_some, beq_iff_eq] at hs
    exact Or.inl ⟨a, rfl, hs⟩

/-- The search for a key that is held ends at its entry. -/
theorem Linked.find_held (h : Linked key hash m slots) (hfree : ∃ i < m, slots i = none) {k : κ}
    {i : ℕ} {a : α} (hi : i < m) (ha : slots i = some a) (hk : key a = some k) :
    Probing.find key hash m slots k = some i := by
  obtain ⟨j, hj, hf, ⟨b, hb, hkb⟩ | ⟨-, hn, -⟩⟩ := h.find hfree k
  · rw [hf, h.unique j hj i hi b a k hb ha hkb hk]
  · exact absurd ⟨i, hi, a, ha, hk⟩ hn

end Find

/-! ### Changing a slot -/

/-- **A new entry** goes into a slot that no free slot is before. -/
theorem Linked.insert (h : Linked key hash m slots) {a : α} {k : κ} (hk : key a = some k)
    (hnew : ¬Holds key m slots k) {d : ℕ} (hd : d < m)
    (hbefore : ∀ e < d, slots ((hash k + e) % m) ≠ none) :
    Linked key hash m (Function.update slots ((hash k + d) % m) (some a)) := by
  have htaken : ∀ i, slots i ≠ none → Function.update slots ((hash k + d) % m) (some a) i ≠ none := by
    intro i hi
    rcases eq_or_ne i ((hash k + d) % m) with rfl | hne
    · rw [Function.update_self]
      exact Option.some_ne_none a
    · rwa [Function.update_of_ne hne]
  refine ⟨fun i hi b l hb hl => ?_, fun i hi j hj b c l hb hc hbl hcl => ?_⟩
  · rcases eq_or_ne i ((hash k + d) % m) with rfl | hne
    · rw [Function.update_self] at hb
      cases hb
      rw [hk] at hl
      cases hl
      exact ⟨d, hd, rfl, fun e he => htaken _ (hbefore e he)⟩
    · rw [Function.update_of_ne hne] at hb
      obtain ⟨d', hd', hi', hpath⟩ := h.path i hi b l hb hl
      exact ⟨d', hd', hi', fun e he => htaken _ (hpath e he)⟩
  · have hold : ∀ x < m, ∀ c, Function.update slots ((hash k + d) % m) (some a) x = some c →
        key c = some l → x = (hash k + d) % m ∧ l = k ∨ slots x = some c := by
      intro x hx c hc hcl
      rcases eq_or_ne x ((hash k + d) % m) with rfl | hne
      · rw [Function.update_self] at hc
        cases hc
        rw [hk] at hcl
        exact Or.inl ⟨rfl, (Option.some.inj hcl).symm⟩
      · rw [Function.update_of_ne hne] at hc
        exact Or.inr hc
    rcases hold i hi b hb hbl with ⟨hi', hlk⟩ | hb'
    · rcases hold j hj c hc hcl with ⟨hj', -⟩ | hc'
      · rw [hi', hj']
      · exact absurd ⟨j, hj, c, hc', hlk ▸ hcl⟩ hnew
    · rcases hold j hj c hc hcl with ⟨-, hlk⟩ | hc'
      · exact absurd ⟨i, hi, b, hb', hlk ▸ hbl⟩ hnew
      · exact h.unique i hi j hj b c l hb' hc' hbl hcl

/-- **An entry is replaced** by one of its key, or by a tombstone. -/
theorem Linked.replace (h : Linked key hash m slots) {i : ℕ} {a b : α} (ha : slots i = some a)
    (hk : ∀ k, key b = some k → key a = some k) :
    Linked key hash m (Function.update slots i (some b)) := by
  have hold : ∀ x c k, Function.update slots i (some b) x = some c → key c = some k →
      ∃ c', slots x = some c' ∧ key c' = some k := by
    intro x c k hc hck
    rcases eq_or_ne x i with rfl | hne
    · rw [Function.update_self] at hc
      cases hc
      exact ⟨a, ha, hk k hck⟩
    · rw [Function.update_of_ne hne] at hc
      exact ⟨c, hc, hck⟩
  have htaken : ∀ x, slots x ≠ none → Function.update slots i (some b) x ≠ none := by
    intro x hx
    rcases eq_or_ne x i with rfl | hne
    · rw [Function.update_self]
      exact Option.some_ne_none b
    · rwa [Function.update_of_ne hne]
  refine ⟨fun x hx c k hc hck => ?_, fun x hx y hy c d k hc hd hck hdk => ?_⟩
  · obtain ⟨c', hc', hck'⟩ := hold x c k hc hck
    obtain ⟨e, he, hxe, hpath⟩ := h.path x hx c' k hc' hck'
    exact ⟨e, he, hxe, fun j hj => htaken _ (hpath j hj)⟩
  · obtain ⟨c', hc', hck'⟩ := hold x c k hc hck
    obtain ⟨d', hd', hdk'⟩ := hold y d k hd hdk
    exact h.unique x hx y hy c' d' k hc' hd' hck' hdk'

/-! ### Moving entries to another table -/

/-- The loop that looks for a free slot from a home on. -/
def freeSlot (m : ℕ) (slots : ℕ → Option α) (home : ℕ) : Option ℕ :=
  probe (fun i => (slots i).isNone) (fun i => (i + 1) % m) m (home % m)

theorem freeSlot_spec (hfree : ∃ i < m, slots i = none) (home : ℕ) :
    ∃ d < m, freeSlot m slots home = some ((home + d) % m) ∧ slots ((home + d) % m) = none ∧
      ∀ e < d, slots ((home + e) % m) ≠ none := by
  obtain ⟨z, hz, hzero⟩ := hfree
  obtain ⟨d, hd, hdz⟩ := exists_steps home hz
  obtain ⟨e, he, hp, hs, hn⟩ := probe_stops (fun i => (slots i).isNone) m home d hd
    (by rw [hdz, hzero]; rfl)
  refine ⟨e, by omega, hp, Option.isNone_iff_eq_none.mp hs, fun i hi => ?_⟩
  exact Option.isSome_iff_ne_none.mp (Option.isNone_eq_false_iff.mp (hn i hi))

/-- Every entry goes to the first free slot from its home on. -/
def fill (home : α → ℕ) (m : ℕ) : List α → (ℕ → Option α) → Option (ℕ → Option α)
  | [], slots => some slots
  | a :: as, slots =>
    (freeSlot m slots (home a)).bind fun i => fill home m as (Function.update slots i (some a))

/-- **The entries of a table in another one.** -/
theorem fill_spec (home : α → ℕ) (as : List α) (h : Linked key hash m slots)
    (hroom : used m slots + as.length ≤ m)
    (hkey : ∀ a ∈ as, ∃ k, key a = some k ∧ home a = hash k ∧ ¬Holds key m slots k)
    (hdistinct : as.Pairwise fun a b => key a ≠ key b) :
    ∃ slots', fill home m as slots = some slots' ∧ Linked key hash m slots' ∧
      used m slots' = used m slots + as.length ∧
      ∀ a, (∃ i < m, slots' i = some a) ↔ a ∈ as ∨ ∃ i < m, slots i = some a := by
  induction as generalizing slots with
  | nil => exact ⟨slots, rfl, h, rfl, by simp⟩
  | cons a as ih =>
    rw [List.length_cons] at hroom
    rw [List.pairwise_cons] at hdistinct
    obtain ⟨k, hk, hhome, hnew⟩ := hkey a List.mem_cons_self
    have hlt : used m slots < m := by omega
    obtain ⟨d, hd, hslot, hfree, hbefore⟩ := freeSlot_spec (exists_free hlt) (home a)
    rw [hhome] at hslot hfree hbefore
    have hi : (hash k + d) % m < m := Nat.mod_lt _ (by omega)
    have hins := h.insert hk hnew hd hbefore
    have hused := used_update_free hi hfree a
    have hmem : ∀ b, (∃ i < m, Function.update slots ((hash k + d) % m) (some a) i = some b) ↔
        b = a ∨ ∃ i < m, slots i = some b := by
      intro b
      refine ⟨fun ⟨i, him, hib⟩ => ?_, ?_⟩
      · rcases eq_or_ne i ((hash k + d) % m) with rfl | hne
        · rw [Function.update_self] at hib
          exact Or.inl (Option.some.inj hib).symm
        · rw [Function.update_of_ne hne] at hib
          exact Or.inr ⟨i, him, hib⟩
      · rintro (rfl | ⟨i, him, hib⟩)
        · exact ⟨_, hi, Function.update_self ..⟩
        · refine ⟨i, him, ?_⟩
          rwa [Function.update_of_ne]
          rintro rfl
          rw [hfree] at hib
          cases hib
    obtain ⟨slots', hfill, hlinked, hused', hmem'⟩ := ih hins (by omega) (fun b hb => by
      obtain ⟨l, hl, hhome', hnew'⟩ := hkey b (List.mem_cons_of_mem a hb)
      refine ⟨l, hl, hhome', ?_⟩
      rintro ⟨i, him, c, hc, hcl⟩
      rcases (hmem c).mp ⟨i, him, hc⟩ with rfl | ⟨j, hj, hjc⟩
      · exact hdistinct.1 b hb (hcl.trans hl.symm)
      · exact hnew' ⟨j, hj, c, hjc, hcl⟩) hdistinct.2
    refine ⟨slots', ?_, hlinked, by rw [hused', hused, List.length_cons]; omega, fun b => ?_⟩
    · rw [fill, hhome, hslot]
      exact hfill
    · rw [hmem', hmem, List.mem_cons]
      tauto

/-- The entries of a table, in the order of the slots. -/
def entries (m : ℕ) (slots : ℕ → Option α) : List α := (List.range m).filterMap slots

theorem mem_entries {a : α} : a ∈ entries m slots ↔ ∃ i < m, slots i = some a := by
  simp [entries]

theorem length_entries : (entries m slots).length = used m slots := by
  induction m with
  | zero => rfl
  | succ m ih =>
    rw [entries, List.range_succ, List.filterMap_append, List.length_append, ← entries, ih, used_succ]
    rcases hslot : slots m with _ | a
    · simp [hslot]
    · simp [hslot]

/-- The entries have different keys if no key occurs twice. -/
theorem entries_distinct (hunique : ∀ i < m, ∀ j < m, ∀ a b k, slots i = some a →
    slots j = some b → key a = some k → key b = some k → i = j)
    (hkeys : ∀ i < m, ∀ a, slots i = some a → key a ≠ none) :
    (entries m slots).Pairwise fun a b => key a ≠ key b := by
  rw [entries, List.pairwise_filterMap]
  have hrange : (List.range m).Pairwise (· < ·) := List.pairwise_lt_range
  refine hrange.imp_of_mem fun {i j} hi hj hlt a ha b hb hab => ?_
  rw [List.mem_range] at hi hj
  obtain ⟨k, hk⟩ := Option.ne_none_iff_exists'.mp (hkeys i hi a ha)
  have := hunique i hi j hj a b k ha hb hk (hab ▸ hk)
  omega

/-! ### Tables whose size is a power of two -/

/-- The next slot. -/
def nextSlot (m i : ℕ) : ℕ := (i + 1) &&& (m - 1)

/-- The search for a slot that is free or whose entry is looked for. As there are `m` slots, a search
that takes more steps never ends and has no result. -/
def findSlot (stop : α → Bool) (m : ℕ) (slots : ℕ → Option α) (hash : ℕ) : Option ℕ :=
  probe (fun i => (slots i).elim true stop) (nextSlot m) m (hash &&& (m - 1))

/-- The search for a free slot. -/
def openSlot (m : ℕ) (slots : ℕ → Option α) (hash : ℕ) : Option ℕ :=
  probe (fun i => (slots i).isNone) (nextSlot m) m (hash &&& (m - 1))

/-- The loop that moves entries to a table. -/
def rehash (home : α → ℕ) (m : ℕ) : List α → (ℕ → Option α) → Option (ℕ → Option α)
  | [], slots => some slots
  | a :: as, slots =>
    (openSlot m slots (home a)).bind fun i => rehash home m as (Function.update slots i (some a))

theorem nextSlot_eq (k : ℕ) : nextSlot (2 ^ k) = fun i => (i + 1) % 2 ^ k := by
  funext i
  rw [nextSlot, Nat.and_two_pow_sub_one_eq_mod]

theorem openSlot_eq (k : ℕ) (slots : ℕ → Option α) (hash : ℕ) :
    openSlot (2 ^ k) slots hash = freeSlot (2 ^ k) slots hash := by
  rw [openSlot, nextSlot_eq, Nat.and_two_pow_sub_one_eq_mod, freeSlot]

theorem rehash_eq (home : α → ℕ) (k : ℕ) (as : List α) (slots : ℕ → Option α) :
    rehash home (2 ^ k) as slots = fill home (2 ^ k) as slots := by
  induction as generalizing slots with
  | nil => rfl
  | cons a as ih => simp only [rehash, fill, openSlot_eq, ih]

theorem findSlot_eq [DecidableEq κ] {key : α → Option κ} {hash : κ → ℕ} (k : ℕ)
    (slots : ℕ → Option α) (l : κ) :
    findSlot (fun a => key a == some l) (2 ^ k) slots (hash l) = find key hash (2 ^ k) slots l := by
  rw [findSlot, nextSlot_eq, Nat.and_two_pow_sub_one_eq_mod, find]

end ShenRc.Probing
