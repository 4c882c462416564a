import ShenRc.Tier.Registry

/-! # The registry stays consistent

`Indexed` says that the table finds exactly the entries in use and that it is never full; it looks at
the closures of the entries and at the slots only. `Queued` says that the pending entries are listed,
each once, as long as the tier is enabled. Every operation keeps both (`Registry.Step.keeps`). -/

namespace ShenRc.Tier.Registry

open Probing

variable {address : ℕ → BitVec 64} {t t' : Registry}

/-- **The table and the entries.** -/
structure Indexed (address : ℕ → BitVec 64) (t : Registry) : Prop where
  capacity : t.slotCap = 0 ∨ ∃ k, t.slotCap = 2 ^ k
  linked : Linked t.fnOf (hashWord address) t.slotCap t.slots
  entry : ∀ i < t.slotCap, ∀ e, t.slots i = some (.entry e) →
    e < t.nentries ∧ (t.entries e).fn ≠ none
  slot : ∀ e < t.nentries, (t.entries e).fn ≠ none → ∃ i < t.slotCap, t.slots i = some (.entry e)
  used : t.slotUsed = used t.slotCap t.slots
  liveSlots : t.live = Probing.used t.slotCap (liveSlots t.slots)
  liveEntries : t.live = Probing.used t.nentries fun e => (t.entries e).fn
  load : 4 * t.slotUsed ≤ 3 * t.slotCap
  room : t.nentries ≤ t.entryCap

/-- **The list of pending entries.** -/
structure Queued (t : Registry) : Prop where
  nodup : t.pending.Nodup
  listed : ∀ e ∈ t.pending, e < t.nentries ∧ ((t.entries e).fn ≠ none → (t.entries e).state = .pending)
  room : t.pending.length ≤ t.pendingCap
  all : t.disabled = false → ∀ e < t.nentries, (t.entries e).fn ≠ none →
    (t.entries e).state = .pending → e ∈ t.pending

/-- Two registries with the same table, whose entries have the same closures. -/
structure SameIndex (t t' : Registry) : Prop where
  fn : ∀ e, (t'.entries e).fn = (t.entries e).fn
  nentries : t'.nentries = t.nentries
  entryCap : t'.entryCap = t.entryCap
  live : t'.live = t.live
  slots : t'.slots = t.slots
  slotCap : t'.slotCap = t.slotCap
  slotUsed : t'.slotUsed = t.slotUsed

theorem SameIndex.fnOf (h : SameIndex t t') : t'.fnOf = t.fnOf := by
  funext s
  rcases s with _ | e
  · rfl
  · exact h.fn e

theorem SameIndex.refl (t : Registry) : SameIndex t t := ⟨fun _ => rfl, rfl, rfl, rfl, rfl, rfl, rfl⟩

theorem SameIndex.trans {t'' : Registry} (h : SameIndex t t') (h' : SameIndex t' t'') :
    SameIndex t t'' :=
  ⟨fun e => (h'.fn e).trans (h.fn e), h'.nentries.trans h.nentries, h'.entryCap.trans h.entryCap,
    h'.live.trans h.live, h'.slots.trans h.slots, h'.slotCap.trans h.slotCap,
    h'.slotUsed.trans h.slotUsed⟩

theorem Fresh.congr {fn : ℕ} (h : t.Fresh fn) (hs : SameIndex t t') : t'.Fresh fn := fun e he => by
  rw [hs.fn]
  exact h e (hs.nentries ▸ he)

theorem Fresh.placeEntry {fn : ℕ} (h : t.Fresh fn) (entry : Entry) (hne : entry.fn ≠ some fn) (j : ℕ) :
    (t.placeEntry entry j).Fresh fn := fun e he => by
  change e < t.nentries + 1 at he
  change (Function.update t.entries t.nentries entry e).fn ≠ some fn
  rcases eq_or_ne e t.nentries with rfl | hlast
  · rwa [Function.update_self]
  · rw [Function.update_of_ne hlast]
    exact h e (by omega)

/-- **States, calls and the list do not matter** for the table. -/
theorem Indexed.congr (h : Indexed address t) (hs : SameIndex t t') : Indexed address t' where
  capacity := by rw [hs.slotCap]; exact h.capacity
  linked := by rw [hs.fnOf, hs.slotCap, hs.slots]; exact h.linked
  entry := by
    simp only [hs.slotCap, hs.slots, hs.nentries, hs.fn]
    exact h.entry
  slot := by
    simp only [hs.slotCap, hs.slots, hs.nentries, hs.fn]
    exact h.slot
  used := by rw [hs.slotUsed, hs.slotCap, hs.slots]; exact h.used
  liveSlots := by rw [hs.live, hs.slotCap, hs.slots]; exact h.liveSlots
  liveEntries := by
    simp only [hs.live, hs.nentries, hs.fn]
    exact h.liveEntries
  load := by rw [hs.slotUsed, hs.slotCap]; exact h.load
  room := by rw [hs.nentries, hs.entryCap]; exact h.room

/-- The new registry. -/
theorem indexed_start (address : ℕ → BitVec 64) (threshold : ℕ) (countOnly disabled : Bool) :
    Indexed address { threshold, countOnly, disabled } where
  capacity := Or.inl rfl
  linked := .empty _ _ _
  entry i hi := absurd hi (Nat.not_lt_zero i)
  slot e he := absurd he (Nat.not_lt_zero e)
  used := rfl
  liveSlots := rfl
  liveEntries := rfl
  load := Nat.le_refl 0
  room := Nat.le_refl 0

theorem queued_start (threshold : ℕ) (countOnly disabled : Bool) :
    Queued { threshold, countOnly, disabled } where
  nodup := List.nodup_nil
  listed e he := by cases he
  room := Nat.le_refl 0
  all _ e he := absurd he (Nat.not_lt_zero e)

/-- The loop that doubles a size ends at a power of two that is large enough. -/
theorem doubled_spec (target k : ℕ) : ∃ n, doubled target (2 ^ k) = 2 ^ n ∧ target ≤ 2 ^ n := by
  have hpos := Nat.two_pow_pos k
  rw [doubled]
  by_cases hlt : 0 < 2 ^ k ∧ 2 ^ k < target
  · rw [if_pos hlt, ← pow_succ]
    exact doubled_spec target (k + 1)
  · rw [if_neg hlt]
    exact ⟨k, rfl, by omega⟩
termination_by target - 2 ^ k
decreasing_by
  have := hlt.2
  rw [pow_succ]
  omega

/-! ### The slots -/

theorem liveSlots_eq {slots : ℕ → Option Slot} {i : ℕ} {s : Slot} :
    Tier.liveSlots slots i = some s ↔ ∃ e, s = .entry e ∧ slots i = some (.entry e) := by
  rw [Tier.liveSlots, Option.filter_eq_some_iff]
  rcases s with _ | e
  · simp [Slot.isEntry]
  · simp [Slot.isEntry]

theorem liveSlots_update (slots : ℕ → Option Slot) (i : ℕ) (s : Slot) :
    Tier.liveSlots (Function.update slots i (some s)) =
      Function.update (Tier.liveSlots slots) i (if s.isEntry then some s else none) := by
  funext j
  rcases eq_or_ne j i with rfl | hne
  · rw [Tier.liveSlots, Function.update_self, Function.update_self, Option.filter_some]
  · rw [Tier.liveSlots, Function.update_of_ne hne, Function.update_of_ne hne, Tier.liveSlots]

namespace Indexed

theorem live_le (h : Indexed address t) : t.live ≤ t.slotUsed := by
  rw [h.liveSlots, h.used]
  refine used_mono fun i _ hi hnone => hi ?_
  rw [Tier.liveSlots, hnone]
  rfl

/-- **An empty slot** always exists. -/
theorem exists_empty (h : Indexed address t) (hpos : 0 < t.slotCap) :
    ∃ i < t.slotCap, t.slots i = none := by
  have hused := h.used
  have hload := h.load
  exact exists_free (by omega)

/-- The entries in use have different closures. -/
theorem fn_inj (h : Indexed address t) {d e fn : ℕ} (hd : d < t.nentries) (he : e < t.nentries)
    (hdf : (t.entries d).fn = some fn) (hef : (t.entries e).fn = some fn) : d = e := by
  obtain ⟨i, hi, hid⟩ := h.slot d hd (by rw [hdf]; exact Option.some_ne_none fn)
  obtain ⟨j, hj, hje⟩ := h.slot e he (by rw [hef]; exact Option.some_ne_none fn)
  have hij := h.linked.unique i hi j hj _ _ fn hid hje hdf hef
  rw [hij, hje] at hid
  exact (Slot.entry.inj (Option.some.inj hid)).symm

/-- An entry has one slot. -/
theorem slot_inj (h : Indexed address t) {i j e : ℕ} (hi : i < t.slotCap) (hj : j < t.slotCap)
    (hie : t.slots i = some (.entry e)) (hje : t.slots j = some (.entry e)) : i = j := by
  obtain ⟨fn, hfn⟩ := Option.ne_none_iff_exists'.mp (h.entry i hi e hie).2
  exact h.linked.unique i hi j hj _ _ fn hie hje hfn hfn

/-- **A search ends**: it finds the slot of the closure's entry, or the closure has none. -/
theorem findSlot (h : Indexed address t) (fn : ℕ) :
    (∃ e < t.nentries, (t.entries e).fn = some fn ∧ ∃ i < t.slotCap,
        t.slots i = some (.entry e) ∧ t.findSlot address fn = some (some i)) ∨
      t.Fresh fn ∧ t.findSlot address fn = some none := by
  rcases Nat.eq_zero_or_pos t.slotCap with hzero | hpos
  · right
    refine ⟨fun e he hfn => ?_, by rw [Registry.findSlot, if_pos hzero]⟩
    obtain ⟨i, hi, -⟩ := h.slot e he (by rw [hfn]; exact Option.some_ne_none fn)
    omega
  obtain hzero | ⟨k, hk⟩ := h.capacity
  · omega
  obtain ⟨i, hi, hfind, hrest⟩ := h.linked.find (h.exists_empty hpos) fn
  have hrun : t.findSlot address fn = some ((t.slots i).map fun _ => i) := by
    rw [hk, ← findSlot_eq, ← hk] at hfind
    rw [Registry.findSlot, if_neg (Nat.pos_iff_ne_zero.mp hpos), hfind]
    rfl
  obtain ⟨s, hs, hfn⟩ | ⟨hempty, hnot, -⟩ := hrest
  · left
    rcases s with _ | e
    · cases hfn
    · exact ⟨e, (h.entry i hi e hs).1, hfn, i, hi, hs, by rw [hrun, hs]; rfl⟩
  · right
    refine ⟨fun e he hfn => ?_, by rw [hrun, hempty]; rfl⟩
    obtain ⟨j, hj, hje⟩ := h.slot e he (by rw [hfn]; exact Option.some_ne_none fn)
    exact hnot ⟨j, hj, _, hje, hfn⟩

/-- **Retiring** an entry. -/
theorem retire (h : Indexed address t) {i e : ℕ} (hi : i < t.slotCap)
    (hie : t.slots i = some (.entry e)) : Indexed address (t.retire i) := by
  obtain ⟨he, hfn⟩ := h.entry i hi e hie
  have heq : t.retire i = { t with
      entries := Function.update t.entries e {}
      slots := Function.update t.slots i (some .tombstone)
      live := t.live - 1 } := by
    rw [Registry.retire, hie]
  have hne : t.slots i ≠ none := by rw [hie]; exact Option.some_ne_none _
  have hother : ∀ j < t.slotCap, ∀ d, Function.update t.slots i (some .tombstone) j = some (.entry d) →
      t.slots j = some (.entry d) ∧ d ≠ e := by
    intro j hj d hjd
    rcases eq_or_ne j i with rfl | hji
    · rw [Function.update_self] at hjd
      cases hjd
    · rw [Function.update_of_ne hji] at hjd
      refine ⟨hjd, ?_⟩
      rintro rfl
      exact hji (h.slot_inj hj hi hjd hie)
  have hlinked : Linked t.fnOf (hashWord address) t.slotCap
      (Function.update t.slots i (some .tombstone)) :=
    h.linked.replace hie fun k hk => by cases hk
  rw [heq]
  refine ⟨h.capacity, hlinked.congr fun j hj s hs => ?_, fun j hj d hd => ?_, fun d hd hdf => ?_,
    ?_, ?_, ?_, h.load, h.room⟩
  · rcases s with _ | d
    · rfl
    · change (Function.update t.entries e {} d).fn = (t.entries d).fn
      rw [Function.update_of_ne (hother j hj d hs).2]
  · obtain ⟨hjd, hde⟩ := hother j hj d hd
    change d < t.nentries ∧ (Function.update t.entries e {} d).fn ≠ none
    rw [Function.update_of_ne hde]
    exact h.entry j hj d hjd
  · change d < t.nentries at hd
    change (Function.update t.entries e {} d).fn ≠ none at hdf
    rcases eq_or_ne d e with rfl | hde
    · rw [Function.update_self] at hdf
      exact absurd rfl hdf
    · rw [Function.update_of_ne hde] at hdf
      obtain ⟨j, hj, hjd⟩ := h.slot d hd hdf
      refine ⟨j, hj, ?_⟩
      change Function.update t.slots i (some .tombstone) j = some (.entry d)
      rw [Function.update_of_ne]
      · exact hjd
      · rintro rfl
        rw [hie] at hjd
        exact hde (Slot.entry.inj (Option.some.inj hjd)).symm
  · change t.slotUsed = Probing.used t.slotCap (Function.update t.slots i (some .tombstone))
    rw [used_update_taken hne]
    exact h.used
  · change t.live - 1 = Probing.used t.slotCap
      (Tier.liveSlots (Function.update t.slots i (some .tombstone)))
    have hlive : Tier.liveSlots t.slots i ≠ none := by
      rw [liveSlots_eq.mpr ⟨e, rfl, hie⟩]
      exact Option.some_ne_none _
    have hless := used_update_none hi hlive
    rw [liveSlots_update, h.liveSlots, ← hless]
    rfl
  · change t.live - 1 = Probing.used t.nentries fun d => (Function.update t.entries e {} d).fn
    have hless : Probing.used t.nentries (Function.update (fun d => (t.entries d).fn) e none) + 1 =
        Probing.used t.nentries fun d => (t.entries d).fn := used_update_none he hfn
    have hfns : (fun d => (Function.update t.entries e {} d).fn) =
        Function.update (fun d => (t.entries d).fn) e none := by
      funext d
      rcases eq_or_ne d e with rfl | hde
      · rw [Function.update_self, Function.update_self]
      · rw [Function.update_of_ne hde, Function.update_of_ne hde]
    rw [hfns, h.liveEntries, ← hless]
    rfl

/-- **A new table** for the entries in use. -/
theorem rebuild (address : ℕ → BitVec 64) (t : Registry) (ss : List Slot) {m : ℕ} (hm : ∃ k, m = 2 ^ k)
    (hfn : ∀ s ∈ ss, ∃ e < t.nentries, s = .entry e ∧ (t.entries e).fn ≠ none)
    (hall : ∀ e < t.nentries, (t.entries e).fn ≠ none → .entry e ∈ ss)
    (hdistinct : ss.Pairwise fun a b => t.fnOf a ≠ t.fnOf b) (hlen : ss.length ≤ m) :
    ∃ slots', rehash (t.home address) m ss (fun _ => none) = some slots' ∧
      Linked t.fnOf (hashWord address) m slots' ∧ Probing.used m slots' = ss.length ∧
      Probing.used m (Tier.liveSlots slots') = ss.length ∧
      (∀ i < m, ∀ e, slots' i = some (.entry e) → e < t.nentries ∧ (t.entries e).fn ≠ none) ∧
      ∀ e < t.nentries, (t.entries e).fn ≠ none → ∃ i < m, slots' i = some (.entry e) := by
  obtain ⟨k, rfl⟩ := hm
  obtain ⟨slots', hfill, hlinked, hused, hmem⟩ := fill_spec (t.home address) ss
    (Linked.empty t.fnOf (hashWord address) (2 ^ k)) (by rw [used_empty]; omega)
    (fun s hs => by
      obtain ⟨e, -, rfl, he⟩ := hfn s hs
      obtain ⟨fn, hfne⟩ := Option.ne_none_iff_exists'.mp he
      have hkey : t.fnOf (.entry e) = some fn := hfne
      exact ⟨fn, hkey, by rw [home, hkey, Option.map_some, Option.getD_some], by rintro ⟨j, -, b, hb, -⟩; cases hb⟩)
    hdistinct
  rw [used_empty, Nat.zero_add] at hused
  have hfrom : ∀ i < 2 ^ k, ∀ s, slots' i = some s → s ∈ ss := by
    intro i hi s hs
    obtain hin | ⟨j, -, hj⟩ := (hmem s).mp ⟨i, hi, hs⟩
    · exact hin
    · cases hj
  refine ⟨slots', by rw [rehash_eq, hfill], hlinked, hused, ?_, fun i hi e hie => ?_,
    fun e he hne => (hmem _).mpr (Or.inl (hall e he hne))⟩
  · rw [← hused]
    refine le_antisymm (used_mono fun i _ hi hnone => hi ?_) (used_mono fun i hi hne => ?_)
    · rw [Tier.liveSlots, hnone]
      rfl
    · obtain ⟨s, hs⟩ := Option.ne_none_iff_exists'.mp hne
      obtain ⟨e, -, rfl, -⟩ := hfn s (hfrom i hi s hs)
      rw [liveSlots_eq.mpr ⟨e, rfl, hs⟩]
      exact Option.some_ne_none _
  · obtain ⟨d, hd, heq, hne⟩ := hfn _ (hfrom i hi _ hie)
    cases heq
    exact ⟨hd, hne⟩

/-- **Growing the table** drops the tombstones. -/
theorem growSlots (h : Indexed address t) (room : Bool) :
    ∃ t', t.growSlots address room = some (t', room) ∧ Indexed address t' ∧
      (room = true → 4 * (t'.slotUsed + 1) ≤ 3 * t'.slotCap) ∧ t'.entries = t.entries ∧
      t'.nentries = t.nentries ∧ t'.pending = t.pending ∧ t'.pendingCap = t.pendingCap ∧
      t'.disabled = t.disabled := by
  rcases room with _ | _
  · exact ⟨t, rfl, h, by simp, rfl, rfl, rfl, rfl, rfl⟩
  obtain ⟨k, hk, hle⟩ : ∃ k, t.grownCap = 2 ^ k ∧ 4 * (t.live + 1) ≤ 2 ^ k := by
    obtain hzero | ⟨k, hk⟩ := h.capacity
    · rw [grownCap, if_pos hzero]
      exact doubled_spec _ 10
    · have hpos := Nat.two_pow_pos k
      rw [grownCap, if_neg (by omega), hk, ← pow_succ]
      exact doubled_spec _ (k + 1)
  have hmem : ∀ s, s ∈ Probing.entries t.slotCap (Tier.liveSlots t.slots) ↔
      ∃ i < t.slotCap, ∃ e, s = .entry e ∧ t.slots i = some (.entry e) := by
    intro s
    rw [mem_entries]
    simp only [liveSlots_eq]
  have hlive := h.liveSlots
  obtain ⟨slots', hrun, hlinked, hused, hlive', hentry, hslot⟩ := rebuild address t
    (Probing.entries t.slotCap (Tier.liveSlots t.slots)) ⟨k, hk⟩
    (fun s hs => by
      obtain ⟨i, hi, e, rfl, hie⟩ := (hmem s).mp hs
      obtain ⟨he, hne⟩ := h.entry i hi e hie
      exact ⟨e, he, rfl, hne⟩)
    (fun e he hne => by
      obtain ⟨i, hi, hie⟩ := h.slot e he hne
      exact (hmem _).mpr ⟨i, hi, e, rfl, hie⟩)
    (entries_distinct (fun i hi j hj a b fn ha hb hka hkb => by
        obtain ⟨d, rfl, hid⟩ := liveSlots_eq.mp ha
        obtain ⟨e, rfl, hje⟩ := liveSlots_eq.mp hb
        exact h.linked.unique i hi j hj _ _ fn hid hje hka hkb)
      (fun i hi s hs => by
        obtain ⟨e, rfl, hie⟩ := liveSlots_eq.mp hs
        exact (h.entry i hi e hie).2))
    (by rw [length_entries, ← hlive, hk]; omega)
  rw [length_entries, ← hlive] at hused hlive'
  refine ⟨{ t with slots := slots', slotCap := t.grownCap, slotUsed := t.live }, ?_,
    ⟨Or.inr ⟨k, hk⟩, hlinked, hentry, hslot, hused.symm, hlive'.symm, h.liveEntries, ?_, h.room⟩,
    fun _ => ?_, rfl, rfl, rfl, rfl, rfl⟩
  · rw [Registry.growSlots, if_pos rfl, hrun]
    rfl
  · change 4 * t.live ≤ 3 * t.grownCap
    omega
  · change 4 * (t.live + 1) ≤ 3 * t.grownCap
    omega

/-- **A new entry** in a slot that is empty or a tombstone. -/
theorem placeEntry (h : Indexed address t) (hload : 4 * (t.slotUsed + 1) ≤ 3 * t.slotCap)
    (hcap : t.nentries < t.entryCap) {entry : Entry} {fn : ℕ} (hentry : entry.fn = some fn)
    (hfn : t.Fresh fn) {d j : ℕ} (hd : d < t.slotCap) (hdj : (hashWord address fn + d) % t.slotCap = j)
    (hfree : Tier.liveSlots t.slots j = none)
    (hbefore : ∀ e < d, t.slots ((hashWord address fn + e) % t.slotCap) ≠ none) :
    Indexed address (t.placeEntry entry j) := by
  obtain ⟨es, hes⟩ : ∃ es, es = Function.update t.entries t.nentries entry := ⟨_, rfl⟩
  have hself : (es t.nentries).fn = some fn := by rw [hes, Function.update_self, hentry]
  have hold : ∀ e < t.nentries, es e = t.entries e := fun e he => by
    rw [hes, Function.update_of_ne (by omega)]
  have hj : j < t.slotCap := hdj ▸ Nat.mod_lt _ (by omega)
  have hnotlive : ∀ e, t.slots j ≠ some (.entry e) := by
    intro e he
    rw [liveSlots_eq.mpr ⟨e, rfl, he⟩] at hfree
    cases hfree
  have hkeys : ∀ i < t.slotCap, ∀ s, t.slots i = some s →
      fnOf { t with entries := es } s = t.fnOf s := by
    intro i hi s hs
    rcases s with _ | e
    · rfl
    · exact congrArg Entry.fn (hold e (h.entry i hi e hs).1)
  have hnew : ¬Holds (fnOf { t with entries := es }) t.slotCap t.slots fn := by
    rintro ⟨i, hi, s, hs, hkey⟩
    rw [hkeys i hi s hs] at hkey
    rcases s with _ | e
    · cases hkey
    · exact hfn e (h.entry i hi e hs).1 hkey
  have hlinked := (h.linked.congr hkeys).insert (a := .entry t.nentries) hself hnew hd hbefore
  rw [hdj] at hlinked
  rw [Registry.placeEntry, ← hes]
  refine ⟨h.capacity, hlinked, fun i hi e hie => ?_, fun e he hne => ?_, ?_, ?_, ?_, ?_, hcap⟩
  · change Function.update t.slots j (some (.entry t.nentries)) i = some (.entry e) at hie
    change e < t.nentries + 1 ∧ (es e).fn ≠ none
    rcases eq_or_ne i j with rfl | hij
    · rw [Function.update_self] at hie
      cases hie
      exact ⟨Nat.lt_succ_self _, by rw [hself]; exact Option.some_ne_none fn⟩
    · rw [Function.update_of_ne hij] at hie
      obtain ⟨he, hne⟩ := h.entry i hi e hie
      exact ⟨by omega, by rw [hold e he]; exact hne⟩
  · change e < t.nentries + 1 at he
    change (es e).fn ≠ none at hne
    rcases eq_or_ne e t.nentries with rfl | hlt
    · exact ⟨j, hj, Function.update_self ..⟩
    · have he' : e < t.nentries := by omega
      rw [hold e he'] at hne
      obtain ⟨i, hi, hie⟩ := h.slot e he' hne
      refine ⟨i, hi, ?_⟩
      change Function.update t.slots j (some (.entry t.nentries)) i = some (.entry e)
      rw [Function.update_of_ne]
      · exact hie
      · rintro rfl
        exact hnotlive e hie
  · change (if (t.slots j).isNone then t.slotUsed + 1 else t.slotUsed) =
      Probing.used t.slotCap (Function.update t.slots j (some (.entry t.nentries)))
    rcases hslot : t.slots j with _ | s
    · rw [used_update_free hj hslot, ← h.used]
      rfl
    · rw [used_update_taken (by rw [hslot]; exact Option.some_ne_none s), ← h.used]
      rfl
  · change t.live + 1 = Probing.used t.slotCap
      (Tier.liveSlots (Function.update t.slots j (some (.entry t.nentries))))
    rw [liveSlots_update, h.liveSlots]
    exact (used_update_free hj hfree _).symm
  · change t.live + 1 = Probing.used (t.nentries + 1) fun e => (es e).fn
    rw [used_succ, hself, h.liveEntries]
    congr 1
    refine le_antisymm (used_mono fun e he hne => ?_) (used_mono fun e he hne => ?_)
    · rwa [hold e he]
    · rwa [hold e he] at hne
  · change 4 * (if (t.slots j).isNone then t.slotUsed + 1 else t.slotUsed) ≤ 3 * t.slotCap
    split_ifs
    · exact hload
    · omega

/-- **The search for a slot ends**, as there is room. -/
theorem addEntry (h : Indexed address t) (hload : 4 * (t.slotUsed + 1) ≤ 3 * t.slotCap)
    (hcap : t.nentries < t.entryCap) (name definition : ℕ) {fn : ℕ} (hfn : t.Fresh fn) :
    ∃ j, t.addEntry address name definition fn =
        some (t.placeEntry ⟨some fn, name, definition, 0, .cold⟩ j) ∧
      Indexed address (t.placeEntry ⟨some fn, name, definition, 0, .cold⟩ j) := by
  obtain hzero | ⟨k, hk⟩ := h.capacity
  · omega
  have hlive := h.live_le
  have hfree : ∃ i < t.slotCap, Tier.liveSlots t.slots i = none := by
    have hused := h.liveSlots
    exact exists_free (by omega)
  obtain ⟨d, hd, hopen, hfree, hbefore⟩ := freeSlot_spec hfree (hashWord address fn)
  rw [hk, ← openSlot_eq, ← hk] at hopen
  refine ⟨_, by rw [Registry.addEntry, hopen, Option.map_some], ?_⟩
  refine h.placeEntry hload hcap rfl hfn hd rfl hfree fun e he hnone => hbefore e he ?_
  rw [Tier.liveSlots, hnone]
  rfl

/-! ### Compaction -/

/-- The closures of an array of entries. -/
def fns (entries : ℕ → Entry) : ℕ → Option ℕ := fun e => (entries e).fn

theorem together_spec (entries : ℕ → Entry) (n : ℕ) :
    (together entries n).1 = Probing.used n (fns entries) ∧
      (∀ e, n ≤ e → (together entries n).2 e = entries e) ∧
      (∀ e < n, (entries e).fn ≠ none →
        (together entries n).2 (Probing.used e (fns entries)) = entries e) ∧
      ∀ j < (together entries n).1, ∃ e < n, (entries e).fn ≠ none ∧
        Probing.used e (fns entries) = j := by
  induction n with
  | zero => exact ⟨rfl, fun _ _ => rfl, by simp, by simp [together]⟩
  | succ n ih =>
    obtain ⟨hcount, hrest, hrank, hsurj⟩ := ih
    have hle : (together entries n).1 ≤ n := by rw [hcount]; exact used_le
    have hself := hrest n (Nat.le_refl n)
    rw [together, used_succ]
    simp only [hself]
    rcases hfn : (entries n).fn with _ | fn
    · have hnone : fns entries n = none := hfn
      simp only [hnone, Option.isSome_none, Bool.false_eq_true, if_false, Bool.toNat_false, Nat.add_zero]
      refine ⟨hcount, fun e he => hrest e (by omega), fun e he hne => ?_, fun j hj => ?_⟩
      · refine hrank e ?_ hne
        rcases eq_or_ne e n with rfl | hen
        · exact absurd hfn hne
        · omega
      · obtain ⟨e, he, hne, hej⟩ := hsurj j hj
        exact ⟨e, by omega, hne, hej⟩
    · have hsome : fns entries n = some fn := hfn
      have hnlive : (entries n).fn ≠ none := by rw [hfn]; exact Option.some_ne_none fn
      simp only [hsome, Option.isSome_some, if_true, Bool.toNat_true]
      refine ⟨by rw [hcount], fun e he => ?_, fun e he hne => ?_, fun j hj => ?_⟩
      · rw [Function.update_of_ne (by omega)]
        exact hrest e (by omega)
      · rcases eq_or_ne e n with rfl | hen
        · rw [← hcount, Function.update_self]
        · have hlt : Probing.used e (fns entries) < Probing.used n (fns entries) :=
            used_lt (by omega) hne
          rw [Function.update_of_ne (by omega)]
          exact hrank e (by omega) hne
      · rcases Nat.lt_or_ge j (together entries n).1 with hlt | hge
        · obtain ⟨e, he, hne, hej⟩ := hsurj j hlt
          exact ⟨e, by omega, hne, hej⟩
        · exact ⟨n, Nat.lt_succ_self n, hnlive, by omega⟩

/-- Where nothing is retired, nothing moves. -/
theorem together_self {entries : ℕ → Entry} {n : ℕ} (h : (together entries n).1 = n) :
    (together entries n).2 = entries := by
  induction n with
  | zero => rfl
  | succ n ih =>
    have hle : (together entries n).1 ≤ n := by rw [(together_spec entries n).1]; exact used_le
    rw [together] at h ⊢
    split_ifs at h ⊢ with hlive
    · have hn : (together entries n).1 = n := Nat.succ.inj h
      dsimp only
      rw [hn, ih hn, Function.update_eq_self]
    · omega

/-- **Listing the pending entries again** lists all of them if the list has room for them. -/
theorem relist_spec (room : ℕ → Bool) (is : List ℕ) (hroom : t.pending.length ≤ t.pendingCap) :
    ∃ L c, relist room is t = { t with pending := t.pending ++ L, pendingCap := c } ∧
      L.Sublist (is.filter fun e => (t.entries e).state = .pending) ∧ (t.pending ++ L).length ≤ c ∧
      (t.pending.length + (is.filter fun e => (t.entries e).state = .pending).length ≤ t.pendingCap →
        L = is.filter fun e => (t.entries e).state = .pending) := by
  induction is generalizing t with
  | nil => exact ⟨[], t.pendingCap, by simp [relist], by simp, by simpa using hroom, by simp⟩
  | cons i is ih =>
    by_cases hp : (t.entries i).state = .pending
    · have hself : Function.update t.entries i { t.entries i with state := .pending } = t.entries := by
        rw [← hp, Function.update_eq_self]
      rw [List.filter_cons_of_pos (by simpa using hp)]
      by_cases hfull : t.pending.length = t.pendingCap ∧ room i = false
      · obtain ⟨L, c, heq, hsub, hlen, -⟩ := ih hroom
        refine ⟨L, c, ?_, hsub.trans (List.sublist_cons_self _ _), hlen, fun hle => ?_⟩
        · rw [relist, List.foldl_cons, if_pos hp, pushPending, if_pos hfull]
          exact heq
        · rw [List.length_cons] at hle
          omega
      · obtain ⟨c₁, hc₁⟩ : ∃ c₁, c₁ = if t.pending.length = t.pendingCap then
            if t.pendingCap = 0 then 256 else t.pendingCap * 2 else t.pendingCap := ⟨_, rfl⟩
        have hstep : t.pushPending i (room i) =
            { t with pending := t.pending ++ [i], pendingCap := c₁ } := by
          rw [pushPending, if_neg hfull, hself, hc₁]
        have hroom₁ : (t.pending ++ [i]).length ≤ c₁ := by
          rw [List.length_append, List.length_singleton, hc₁]
          split_ifs
          · omega
          · omega
          · omega
        obtain ⟨L, c, heq, hsub, hlen, hall⟩ := ih
          (t := { t with pending := t.pending ++ [i], pendingCap := c₁ }) hroom₁
        refine ⟨i :: L, c, ?_, hsub.cons_cons i, by simpa using hlen, fun hle => ?_⟩
        · rw [relist, List.foldl_cons, if_pos hp, hstep]
          refine Eq.trans heq ?_
          rw [List.append_assoc]
          rfl
        · have hle₁ : (t.pending ++ [i]).length +
              (is.filter fun e => (t.entries e).state = .pending).length ≤ c₁ := by
            rw [List.length_cons] at hle
            rw [List.length_append, List.length_singleton, hc₁, if_neg (by omega)]
            omega
          rw [hall hle₁]
    · rw [List.filter_cons_of_neg (by simpa using hp)]
      obtain ⟨L, c, heq, hrest⟩ := ih hroom
      refine ⟨L, c, ?_, hrest⟩
      rw [relist, List.foldl_cons, if_neg hp]
      exact heq

/-- **Compaction** keeps the entries in use, and the list if the tier is enabled. -/
theorem compact (h : Indexed address t) (hq : Queued t)
    (hload : 4 * (t.slotUsed + 1) ≤ 3 * t.slotCap) (room : ℕ → Bool) :
    ∃ t', t.compact address room = some t' ∧ Indexed address t' ∧ Queued t' ∧
      4 * (t'.slotUsed + 1) ≤ 3 * t'.slotCap ∧ (∀ fn, t.Fresh fn → t'.Fresh fn) := by
  obtain ⟨hcount, -, hrank, hsurj⟩ := together_spec t.entries t.nentries
  rw [Registry.compact]
  dsimp only
  by_cases hall : (together t.entries t.nentries).1 = t.nentries
  · rw [if_pos hall, together_self hall]
    exact ⟨t, rfl, h, hq, hload, fun fn hfn => hfn⟩
  rw [if_neg hall]
  obtain ⟨keep, hkeep⟩ : ∃ keep, keep = (together t.entries t.nentries).1 := ⟨_, rfl⟩
  obtain ⟨es, hes⟩ : ∃ es, es = (together t.entries t.nentries).2 := ⟨_, rfl⟩
  rw [← hkeep] at hcount hsurj
  rw [← hes] at hrank
  rw [← hkeep, ← hes]
  have hlive : t.live = keep := h.liveEntries.trans hcount.symm
  have hle : keep ≤ t.nentries := by rw [hcount]; exact used_le
  -- The entry `j` of the new array is an entry in use of the old one.
  have hmoved : ∀ j < keep, ∃ e < t.nentries, (t.entries e).fn ≠ none ∧ es j = t.entries e ∧
      Probing.used e (fns t.entries) = j := by
    intro j hj
    obtain ⟨e, he, hne, hej⟩ := hsurj j hj
    exact ⟨e, he, hne, by rw [← hej, hrank e he hne], hej⟩
  obtain ⟨L, c, hlist, hsub, hlen, hlisted⟩ := relist_spec
    (t := { t with entries := es, nentries := keep, pending := [] }) room (List.range keep)
    (Nat.zero_le _)
  dsimp only at hsub hlisted
  rw [List.nil_append] at hlist hlen
  have hrelist : relist room (List.range keep)
      { t with entries := es, nentries := keep, pending := [] } =
      { t with entries := es, nentries := keep, pending := L, pendingCap := c } := hlist
  obtain ⟨k, hk⟩ : ∃ k, t.slotCap = 2 ^ k := by
    obtain hzero | hk := h.capacity
    · omega
    · exact hk
  have hused := h.live_le
  obtain ⟨slots', hrun, hlinked, hused', hlive', hentry, hslot⟩ := rebuild address
    { t with entries := es, nentries := keep, pending := L, pendingCap := c }
    ((List.range keep).map Slot.entry) ⟨k, hk⟩
    (fun s hs => by
      obtain ⟨j, hj, rfl⟩ := List.mem_map.mp hs
      obtain ⟨e, he, hne, hej, -⟩ := hmoved j (List.mem_range.mp hj)
      refine ⟨j, List.mem_range.mp hj, rfl, ?_⟩
      change (es j).fn ≠ none
      rw [hej]
      exact hne)
    (fun e he _ => List.mem_map.mpr ⟨e, List.mem_range.mpr he, rfl⟩)
    (by
      rw [List.pairwise_map]
      refine List.nodup_range.imp_of_mem fun {i j} hi hj hij heq => hij ?_
      obtain ⟨d, hd, hdne, hdi, hdrank⟩ := hmoved i (List.mem_range.mp hi)
      obtain ⟨e, he, hene, hej, herank⟩ := hmoved j (List.mem_range.mp hj)
      obtain ⟨fn, hfn⟩ := Option.ne_none_iff_exists'.mp hdne
      have hfn' : (t.entries e).fn = some fn := by
        rw [← hfn, ← hdi, ← hej]
        exact heq.symm
      rw [← hdrank, ← herank, h.fn_inj hd he hfn hfn'])
    (by
      rw [List.length_map, List.length_range]
      omega)
  rw [List.length_map, List.length_range] at hused' hlive'
  refine ⟨{ t with
      entries := es
      nentries := keep
      pending := L
      pendingCap := c
      slots := slots'
      slotUsed := keep }, by rw [hrelist, hrun]; rfl, ⟨Or.inr ⟨k, hk⟩, hlinked, hentry, hslot, hused'.symm,
    hlive.trans hlive'.symm, hlive.trans (used_full fun j hj => ?_).symm, ?_, hle.trans h.room⟩, ?_, ?_,
    fun fn hfn j hj => ?_⟩
  · obtain ⟨e, -, hne, hej, -⟩ := hmoved j hj
    change (es j).fn ≠ none
    rw [hej]
    exact hne
  · change 4 * keep ≤ 3 * t.slotCap
    omega
  · have hin : ∀ j ∈ L, j < keep ∧ (es j).state = .pending := by
      intro j hj
      have hfilter := List.mem_filter.mp (hsub.subset hj)
      exact ⟨List.mem_range.mp hfilter.1, of_decide_eq_true hfilter.2⟩
    refine ⟨hsub.nodup (List.nodup_range.filter _), fun j hj => ⟨(hin j hj).1, fun _ => (hin j hj).2⟩,
      hlen, fun henabled j hj _ hstate => ?_⟩
    -- The pending entries of the old array are listed, so there is room for those of the new one.
    have hsubset : ((List.range keep).filter fun j => decide ((es j).state = .pending)) ⊆
        t.pending.map fun e => Probing.used e (fns t.entries) := by
      intro j hj
      obtain ⟨hj, hstate⟩ := List.mem_filter.mp hj
      obtain ⟨e, he, hne, hej, hrank⟩ := hmoved j (List.mem_range.mp hj)
      rw [hej] at hstate
      exact List.mem_map.mpr ⟨e, hq.all henabled e he hne (of_decide_eq_true hstate), hrank⟩
    have hfits := ((List.nodup_range.filter _).subperm hsubset).length_le
    rw [List.length_map] at hfits
    have hL := hlisted (by rw [List.length_nil, Nat.zero_add]; exact hfits.trans hq.room)
    change j ∈ L
    rw [hL, List.mem_filter]
    exact ⟨List.mem_range.mpr hj, decide_eq_true hstate⟩
  · change 4 * (keep + 1) ≤ 3 * t.slotCap
    omega
  · obtain ⟨e, he, -, hej, -⟩ := hmoved j hj
    change (es j).fn ≠ some fn
    rw [hej]
    exact hfn e he

end Indexed

/-! ### Listing an entry -/

theorem sameIndex_pushPending (t : Registry) (e : ℕ) (room : Bool) :
    SameIndex t (t.pushPending e room) := by
  rw [pushPending]
  by_cases hfull : t.pending.length = t.pendingCap ∧ room = false
  · rw [if_pos hfull]
    exact SameIndex.refl t
  · rw [if_neg hfull]
    refine ⟨fun d => ?_, rfl, rfl, rfl, rfl, rfl, rfl⟩
    change (Function.update t.entries e { t.entries e with state := .pending } d).fn = (t.entries d).fn
    rcases eq_or_ne d e with rfl | hne
    · rw [Function.update_self]
    · rw [Function.update_of_ne hne]

namespace Queued

/-- Calls and the table do not matter for the list. -/
theorem congr (h : Queued t) (hfn : ∀ e, (t'.entries e).fn = (t.entries e).fn)
    (hstate : ∀ e, (t'.entries e).state = (t.entries e).state) (hn : t'.nentries = t.nentries)
    (hp : t'.pending = t.pending) (hc : t'.pendingCap = t.pendingCap)
    (hd : t'.disabled = t.disabled) : Queued t' where
  nodup := hp ▸ h.nodup
  listed := by
    simp only [hp, hn, hfn, hstate]
    exact h.listed
  room := by rw [hp, hc]; exact h.room
  all := by
    simp only [hp, hn, hfn, hstate, hd]
    exact h.all

/-- **An entry is listed** that was not. -/
theorem pushPending (h : Queued t) {e : ℕ} (he : e < t.nentries) (hnew : e ∉ t.pending)
    (room : Bool) : Queued (t.pushPending e room) := by
  rw [Registry.pushPending]
  by_cases hfull : t.pending.length = t.pendingCap ∧ room = false
  · rw [if_pos hfull]
    exact h
  rw [if_neg hfull]
  have hroom := h.room
  have hnodup : (t.pending ++ [e]).Nodup := by
    rw [← List.concat_eq_append]
    exact List.Nodup.concat hnew h.nodup
  refine ⟨hnodup, fun d hd => ?_, ?_, fun henabled d hd hne hstate => ?_⟩
  · change d < t.nentries ∧ ((Function.update t.entries e { t.entries e with state := .pending } d).fn ≠
      none → (Function.update t.entries e { t.entries e with state := .pending } d).state = .pending)
    rcases eq_or_ne d e with rfl | hde
    · rw [Function.update_self]
      exact ⟨he, fun _ => rfl⟩
    · rw [Function.update_of_ne hde]
      rcases List.mem_append.mp hd with hd | hd
      · exact h.listed d hd
      · exact absurd (List.mem_singleton.mp hd) hde
  · change (t.pending ++ [e]).length ≤ if t.pending.length = t.pendingCap then
      if t.pendingCap = 0 then 256 else t.pendingCap * 2 else t.pendingCap
    rw [List.length_append, List.length_singleton]
    split_ifs
    · omega
    · omega
    · omega
  · change (Function.update t.entries e { t.entries e with state := .pending } d).fn ≠ none at hne
    change (Function.update t.entries e { t.entries e with state := .pending } d).state = .pending
      at hstate
    rcases eq_or_ne d e with rfl | hde
    · exact List.mem_append_right t.pending List.mem_cons_self
    · rw [Function.update_of_ne hde] at hne hstate
      exact List.mem_append_left [e] (h.all henabled d hd hne hstate)

/-- **A retired entry** is skipped. -/
theorem retire (h : Queued t) {i e : ℕ} (hie : t.slots i = some (.entry e)) :
    Queued (t.retire i) := by
  rw [Registry.retire, hie]
  refine ⟨h.nodup, fun d hd => ?_, h.room, fun henabled d hd hne hstate => ?_⟩
  · refine ⟨(h.listed d hd).1, fun hne => ?_⟩
    change (Function.update t.entries e {} d).fn ≠ none at hne
    change (Function.update t.entries e {} d).state = .pending
    rcases eq_or_ne d e with rfl | hde
    · rw [Function.update_self] at hne
      exact absurd rfl hne
    · rw [Function.update_of_ne hde] at hne ⊢
      exact (h.listed d hd).2 hne
  · change (Function.update t.entries e {} d).fn ≠ none at hne
    change (Function.update t.entries e {} d).state = .pending at hstate
    rcases eq_or_ne d e with rfl | hde
    · rw [Function.update_self] at hne
      exact absurd rfl hne
    · rw [Function.update_of_ne hde] at hne hstate
      exact h.all henabled d hd hne hstate

/-- **A new entry** is cold. -/
theorem placeEntry (h : Queued t) (entry : Entry) (hcold : entry.state = .cold) (j : ℕ) :
    Queued (t.placeEntry entry j) := by
  rw [Registry.placeEntry]
  refine ⟨h.nodup, fun d hd => ?_, h.room, fun henabled d hd hne hstate => ?_⟩
  · have hlt := (h.listed d hd).1
    refine ⟨Nat.lt_succ_of_lt hlt, ?_⟩
    change (Function.update t.entries t.nentries entry d).fn ≠ none →
      (Function.update t.entries t.nentries entry d).state = .pending
    rw [Function.update_of_ne (by omega)]
    exact (h.listed d hd).2
  · change d < t.nentries + 1 at hd
    change (Function.update t.entries t.nentries entry d).fn ≠ none at hne
    change (Function.update t.entries t.nentries entry d).state = .pending at hstate
    rcases eq_or_ne d t.nentries with rfl | hlt
    · rw [Function.update_self, hcold] at hstate
      cases hstate
    · rw [Function.update_of_ne hlt] at hne hstate
      exact h.all henabled d (by omega) hne hstate

end Queued

/-! ### Definitions and calls -/

/-- What every operation keeps. -/
def Consistent (address : ℕ → BitVec 64) (t : Registry) : Prop := Indexed address t ∧ Queued t

namespace Consistent

/-- **The start of a definition** retires the entry of the old function. -/
theorem forget (h : Consistent address t) (old : Option ℕ) :
    ∃ t', t.forget address old = some t' ∧ Consistent address t' ∧
      ∀ fn, t.Fresh fn ∨ old = some fn → t'.Fresh fn := by
  rcases old with _ | old
  · exact ⟨t, rfl, h, fun fn hfn => hfn.resolve_right (by simp)⟩
  · obtain ⟨e, he, hfn, i, hi, hie, hfind⟩ | ⟨hfresh, hfind⟩ := h.1.findSlot old
    · refine ⟨t.retire i, by rw [Registry.forget, hfind]; rfl, ⟨h.1.retire hi hie, h.2.retire hie⟩,
        fun fn hfresh d hd => ?_⟩
      rw [Registry.retire, hie] at hd ⊢
      change (Function.update t.entries e {} d).fn ≠ some fn
      rcases eq_or_ne d e with rfl | hde
      · rw [Function.update_self]
        exact fun hf => by cases hf
      · rw [Function.update_of_ne hde]
        rcases hfresh with hfresh | hold
        · exact hfresh d hd
        · obtain rfl := Option.some.inj hold
          exact fun hdf => hde (h.1.fn_inj hd he hdf hfn)
    · refine ⟨t, by rw [Registry.forget, hfind]; rfl, h, fun fn hfn => ?_⟩
      rcases hfn with hfn | hold
      · exact hfn
      · exact Option.some.inj hold ▸ hfresh

/-- **Room in the table** for one more entry. -/
theorem roomForSlot (h : Consistent address t) (room : Room) :
    ∃ t' ok, t.roomForSlot address room = some (t', ok) ∧ Consistent address t' ∧
      (ok = true → 4 * (t'.slotUsed + 1) ≤ 3 * t'.slotCap) ∧ ∀ fn, t.Fresh fn → t'.Fresh fn := by
  rw [Registry.roomForSlot]
  by_cases hdue : 3 * t.slotCap < 4 * (t.slotUsed + 1)
  · rw [if_pos hdue]
    obtain ⟨t', hgrow, h', hload, hentries, hn, hp, hc, hd⟩ := h.1.growSlots room.slots
    refine ⟨t', room.slots, hgrow, ⟨h', h.2.congr ?_ ?_ hn hp hc hd⟩, hload, fun fn hfn e he => ?_⟩
    · exact fun e => by rw [hentries]
    · exact fun e => by rw [hentries]
    · rw [hentries]
      exact hfn e (hn ▸ he)
  · rw [if_neg hdue]
    exact ⟨t, true, rfl, h, fun _ => Nat.not_lt.mp hdue, fun fn hfn => hfn⟩

/-- **Room in the array** for one more entry. -/
theorem roomForEntry (h : Consistent address t) (hload : 4 * (t.slotUsed + 1) ≤ 3 * t.slotCap)
    (room : Room) :
    ∃ t' ok, t.roomForEntry address room = some (t', ok) ∧ Consistent address t' ∧
      4 * (t'.slotUsed + 1) ≤ 3 * t'.slotCap ∧ (ok = true → t'.nentries < t'.entryCap) ∧
      ∀ fn, t.Fresh fn → t'.Fresh fn := by
  rw [Registry.roomForEntry]
  have hroom := h.1.room
  by_cases hfull : t.nentries = t.entryCap
  · rw [if_pos hfull]
    obtain ⟨t₁, hcompact, h₁, hq₁, hload₁, hfresh₁⟩ := h.1.compact h.2 hload room.compact
    rw [hcompact, Option.map_some]
    have hroom₁ := h₁.room
    by_cases hfull₁ : t₁.nentries = t₁.entryCap
    · rw [if_pos hfull₁]
      rcases room.entries with _ | _
      · exact ⟨t₁, false, rfl, ⟨h₁, hq₁⟩, hload₁, by simp, hfresh₁⟩
      · have hgrown : t₁.nentries <
            if t₁.entryCap = 0 then 1024 else t₁.entryCap * 2 := by
          split_ifs
          · omega
          · omega
        refine ⟨_, true, rfl, ⟨⟨h₁.capacity, h₁.linked, h₁.entry, h₁.slot, h₁.used, h₁.liveSlots,
          h₁.liveEntries, h₁.load, hgrown.le⟩, ?_⟩, hload₁, fun _ => hgrown, hfresh₁⟩
        exact hq₁.congr (fun _ => rfl) (fun _ => rfl) rfl rfl rfl rfl
    · rw [if_neg hfull₁]
      exact ⟨t₁, true, rfl, ⟨h₁, hq₁⟩, hload₁, fun _ => by omega, hfresh₁⟩
  · rw [if_neg hfull]
    exact ⟨t, true, rfl, h, hload, fun _ => by omega, fun fn hfn => hfn⟩

/-- **A definition** keeps the registry, whatever requests find room. -/
theorem onDefun (h : Consistent address t) (name definition : ℕ) {fn : ℕ} (hfn : t.Fresh fn)
    (old : Option ℕ) (room : Room) :
    ∃ t', t.onDefun address name definition fn old room = some t' ∧ Consistent address t' ∧
      ∀ a, a ≠ fn → t.Fresh a ∨ old = some a → t'.Fresh a := by
  obtain ⟨t₀, hforget, h₀, hfresh₀⟩ := h.forget old
  rw [Registry.onDefun, hforget, Option.bind_some]
  by_cases hoff : (t₀.disabled && !t₀.countOnly) = true
  · rw [if_pos hoff]
    exact ⟨t₀, rfl, h₀, fun a _ => hfresh₀ a⟩
  rw [if_neg hoff, register]
  obtain ⟨t₁, ok₁, hslot, h₁, hload₁, hfresh₁⟩ := h₀.roomForSlot room
  rw [hslot, Option.bind_some]
  rcases ok₁ with _ | _
  · exact ⟨t₁, rfl, h₁, fun a _ ha => hfresh₁ a (hfresh₀ a ha)⟩
  obtain ⟨t₂, ok₂, hentry, h₂, hload₂, hcap₂, hfresh₂⟩ := h₁.roomForEntry (hload₁ rfl) room
  dsimp only
  rw [if_pos rfl, hentry, Option.bind_some]
  rcases ok₂ with _ | _
  · exact ⟨t₂, rfl, h₂, fun a _ ha => hfresh₂ a (hfresh₁ a (hfresh₀ a ha))⟩
  have hfn₂ := hfresh₂ fn (hfresh₁ fn (hfresh₀ fn (.inl hfn)))
  obtain ⟨j, hadd, h₃⟩ := h₂.1.addEntry hload₂ (hcap₂ rfl) name definition hfn₂
  have hq₃ := h₂.2.placeEntry ⟨some fn, name, definition, 0, .cold⟩ rfl j
  dsimp only
  rw [if_pos rfl, hadd, Option.map_some]
  have hfresh₃ : ∀ a, a ≠ fn → t.Fresh a ∨ old = some a →
      (t₂.placeEntry ⟨some fn, name, definition, 0, .cold⟩ j).Fresh a := fun a hne ha =>
    (hfresh₂ a (hfresh₁ a (hfresh₀ a ha))).placeEntry _ (fun hf => hne (Option.some.inj hf).symm) j
  refine ⟨_, rfl, ?_⟩
  split_ifs
  · have hlast : t₂.nentries < (t₂.placeEntry ⟨some fn, name, definition, 0, .cold⟩ j).nentries :=
      Nat.lt_succ_self _
    have hnew : t₂.nentries ∉ t₂.pending := fun hin =>
      Nat.lt_irrefl _ (h₂.2.listed _ hin).1
    have hsame := sameIndex_pushPending (t₂.placeEntry ⟨some fn, name, definition, 0, .cold⟩ j)
      t₂.nentries room.pending
    exact ⟨⟨h₃.congr hsame, hq₃.pushPending hlast hnew room.pending⟩,
      fun a hne ha => (hfresh₃ a hne ha).congr hsame⟩
  · exact ⟨⟨h₃, hq₃⟩, hfresh₃⟩

/-- **A call** keeps the registry. -/
theorem onCall (h : Consistent address t) (self : ℕ) (room : Bool) :
    ∃ t', t.onCall address self room = some t' ∧ Consistent address t' := by
  obtain ⟨e, he, hfn, i, hi, hie, hfind⟩ | ⟨-, hfind⟩ := h.1.findSlot self
  · rw [Registry.onCall, hfind, Option.map_some, Option.bind_some, hie]
    refine ⟨_, rfl, ?_⟩
    obtain ⟨calls, hcalls⟩ : ∃ calls, calls = ((t.entries e).calls + 1) % 2 ^ 64 := ⟨_, rfl⟩
    dsimp only
    rw [← hcalls]
    have hsame : ∀ d, (Function.update t.entries e { t.entries e with calls } d).fn = (t.entries d).fn ∧
        (Function.update t.entries e { t.entries e with calls } d).state = (t.entries d).state := by
      intro d
      rcases eq_or_ne d e with rfl | hde
      · rw [Function.update_self]
        exact ⟨rfl, rfl⟩
      · rw [Function.update_of_ne hde]
        exact ⟨rfl, rfl⟩
    have h₁ : Indexed address
        { t with entries := Function.update t.entries e { t.entries e with calls } } :=
      h.1.congr ⟨fun d => (hsame d).1, rfl, rfl, rfl, rfl, rfl, rfl⟩
    have hq₁ : Queued { t with entries := Function.update t.entries e { t.entries e with calls } } :=
      h.2.congr (fun d => (hsame d).1) (fun d => (hsame d).2) rfl rfl rfl rfl
    split_ifs with hhot
    · refine ⟨h₁.congr (sameIndex_pushPending _ _ _), hq₁.pushPending he (fun hin => ?_) room⟩
      have hpending := (hq₁.listed e hin).2 (by
        rw [(hsame e).1, hfn]
        exact Option.some_ne_none self)
      rw [hhot.2.1] at hpending
      cases hpending
    · exact ⟨h₁, hq₁⟩
  · refine ⟨t, ?_, h⟩
    rw [Registry.onCall, hfind]
    rfl

end Consistent

/-! ### The safepoint -/

/-- The entries in state pending are among these. -/
def PendingIn (S : List ℕ) (t : Registry) : Prop :=
  ∀ e < t.nentries, (t.entries e).fn ≠ none → (t.entries e).state = .pending → e ∈ S

/-- The promotion changes states only; what was not pending is not pending afterwards. -/
structure Promotes (S : List ℕ) (t t' : Registry) : Prop where
  index : SameIndex t t'
  pending : t'.pending = t.pending
  pendingCap : t'.pendingCap = t.pendingCap
  states : PendingIn S t → PendingIn S t'

theorem Promotes.refl (S : List ℕ) (t : Registry) : Promotes S t t := ⟨.refl t, rfl, rfl, id⟩

theorem Promotes.trans {S : List ℕ} {t'' : Registry} (h : Promotes S t t') (h' : Promotes S t' t'') :
    Promotes S t t'' :=
  ⟨h.index.trans h'.index, h'.pending.trans h.pending, h'.pendingCap.trans h.pendingCap,
    h'.states ∘ h.states⟩

theorem sameIndex_setState (t : Registry) (i : ℕ) (state : EntryState) :
    SameIndex t (t.setState i state) := by
  refine ⟨fun e => ?_, rfl, rfl, rfl, rfl, rfl, rfl⟩
  rcases eq_or_ne e i with rfl | hei
  · rw [setState_self]
  · rw [setState_ne t hei]

/-- An entry that is set to another state is not pending. -/
theorem PendingIn.setState {S : List ℕ} {i : ℕ} {state : EntryState} (h : PendingIn S t)
    (hstate : state ≠ .pending) {e : ℕ} (he : e < (t.setState i state).nentries)
    (hne : ((t.setState i state).entries e).fn ≠ none)
    (hp : ((t.setState i state).entries e).state = .pending) : e ∈ S ∧ e ≠ i := by
  rcases eq_or_ne e i with rfl | hei
  · rw [setState_self] at hp
    exact absurd hp hstate
  · rw [setState_ne t hei] at hne hp
    exact ⟨h e he hne hp, hei⟩

/-- **The batch** is made of what is to do, and so is the rest. -/
theorem gather_spec (functionSlot : ℕ → Option ℕ) (S is : List ℕ) (n : ℕ) (t : Registry) :
    Promotes S t (gather functionSlot is n t).1 ∧ (gather functionSlot is n t).2.1 ⊆ is ∧
      (gather functionSlot is n t).2.2 ⊆ is := by
  induction is generalizing n t with
  | nil => exact ⟨.refl S t, List.Subset.refl _, List.Subset.refl _⟩
  | cons i is ih =>
    rw [gather]
    split_ifs
    · exact ⟨.refl S t, List.nil_subset _, List.Subset.refl _⟩
    · obtain ⟨hp, hbatch, hrest⟩ := ih n t
      exact ⟨hp, List.subset_cons_of_subset i hbatch, List.subset_cons_of_subset i hrest⟩
    · obtain ⟨hp, hbatch, hrest⟩ := ih n (t.setState i .stale)
      have hstale : Promotes S t (t.setState i .stale) := ⟨sameIndex_setState t i .stale, rfl, rfl,
        fun hin e he hne hstate => (hin.setState (by decide) he hne hstate).1⟩
      exact ⟨hstale.trans hp, List.subset_cons_of_subset i hbatch, List.subset_cons_of_subset i hrest⟩
    · obtain ⟨hp, hbatch, hrest⟩ := ih (n - 1) t
      exact ⟨hp, List.cons_subset_cons i hbatch, List.subset_cons_of_subset i hrest⟩

theorem promote_spec (S : List ℕ) (t : Registry) (outcome : ℕ → Outcome) (noCompiler : Bool)
    {batch : List ℕ} (hbatch : batch ⊆ S) : Promotes S t (t.promote outcome noCompiler batch) := by
  rw [promote]
  by_cases hempty : batch = []
  · rw [if_pos hempty]
    exact .refl S t
  rw [if_neg hempty]
  refine ⟨⟨fun e => ?_, rfl, rfl, rfl, rfl, rfl, rfl⟩, rfl, rfl, fun hin e he hne hstate => ?_⟩
  · by_cases hmem : e ∈ batch
    · simp only [if_pos hmem]
    · simp only [if_neg hmem]
  · dsimp only at hne hstate
    by_cases hmem : e ∈ batch
    · exact hbatch hmem
    · rw [if_neg hmem] at hne hstate
      exact hin e he hne hstate

/-- **The outer loop** offers what is to do. -/
theorem offer_spec (w : World) (S : List ℕ) (b : ℕ) (todo : List ℕ) (t : Registry)
    (hsub : todo ⊆ S) : Promotes S t (offer w b todo t) := by
  induction b, todo, t using offer.induct w with
  | case1 b t =>
    rw [offer]
    exact .refl S t
  | case2 b i is t hdisabled =>
    rw [offer, if_pos hdisabled]
    exact .refl S t
  | case3 b i is t hdisabled r ih =>
    obtain ⟨hp, hbatch, hrest⟩ := gather_spec (w.functionSlot b) S (i :: is) batchLimit t
    rw [offer, if_neg hdisabled]
    have hoffered := promote_spec S (gather (w.functionSlot b) (i :: is) batchLimit t).1 (w.outcome b)
      (w.noCompiler b) (List.Subset.trans hbatch hsub)
    exact (hp.trans hoffered).trans (ih (List.Subset.trans hrest hsub))

/-- **The last loop** leaves nothing pending. -/
theorem sweep_spec {todo : List ℕ} (h : Indexed address t) (hpending : t.pending = [])
    (hin : PendingIn todo t) :
    ∃ t', sweep address todo t = some t' ∧ Indexed address t' ∧ t'.pending = [] ∧ PendingIn [] t' := by
  induction todo generalizing t with
  | nil => exact ⟨t, rfl, h, hpending, hin⟩
  | cons i is ih =>
    have hskip : ((t.entries i).fn ≠ none → (t.entries i).state ≠ .pending) → PendingIn is t := by
      intro hnot e he hne hstate
      rcases List.mem_cons.mp (hin e he hne hstate) with rfl | hmem
      · exact absurd hstate (hnot hne)
      · exact hmem
    rcases hfn : (t.entries i).fn with _ | fn
    · simp only [sweep, hfn]
      exact ih h hpending (hskip fun hne => absurd hfn hne)
    by_cases hdone : (t.entries i).state = .promoted ∨ (t.entries i).state = .stale
    · have hnot : (t.entries i).state ≠ .pending := by
        rintro hp
        rw [hp] at hdone
        rcases hdone with hd | hd
        · cases hd
        · cases hd
      have hrest := hskip fun _ => hnot
      simp only [sweep, hfn, if_pos hdone]
      obtain ⟨e, he, -, j, hj, hje, hfind⟩ | ⟨-, hfind⟩ := h.findSlot fn
      · rw [hfind, Option.bind_some]
        refine ih (h.retire hj hje) ?_ fun d hd hne hstate => ?_
        · rw [Option.elim_some, Registry.retire, hje]
          exact hpending
        · rw [Option.elim_some, Registry.retire, hje] at hd hne hstate
          change (Function.update t.entries e {} d).fn ≠ none at hne
          change (Function.update t.entries e {} d).state = .pending at hstate
          rcases eq_or_ne d e with rfl | hde
          · rw [Function.update_self] at hne
            exact absurd rfl hne
          · rw [Function.update_of_ne hde] at hne hstate
            exact hrest d hd hne hstate
      · rw [hfind, Option.bind_some]
        exact ih h hpending hrest
    by_cases hp : (t.entries i).state = .pending
    · simp only [sweep, hfn, if_neg hdone, if_pos hp]
      refine ih (h.congr (sameIndex_setState t i .failed)) hpending fun e he hne hstate => ?_
      obtain ⟨hmem, hei⟩ := hin.setState (by decide) he hne hstate
      exact (List.mem_cons.mp hmem).resolve_left hei
    · simp only [sweep, hfn, if_neg hdone, if_neg hp]
      exact ih h hpending (hskip fun _ => hp)

namespace Consistent

/-- **A safepoint** keeps the registry. -/
theorem onSafepoint (h : Consistent address t) (w : World) :
    ∃ t', t.onSafepoint address w = some t' ∧ Consistent address t' := by
  rw [Registry.onSafepoint]
  by_cases hidle : t.pending = [] ∨ t.busy = true
  · rw [if_pos hidle]
    exact ⟨t, rfl, h⟩
  rw [if_neg hidle]
  by_cases hdisabled : t.disabled = true
  · rw [if_pos hdisabled]
    refine ⟨{ t with pending := [] }, rfl,
      h.1.congr ⟨fun _ => rfl, rfl, rfl, rfl, rfl, rfl, rfl⟩, List.nodup_nil, ?_, Nat.zero_le _, ?_⟩
    · intro e he
      cases he
    · intro henabled
      cases hdisabled.symm.trans henabled
  rw [if_neg hdisabled]
  have hstart : Indexed address { t with busy := true, pending := [], pendingCap := 0 } :=
    h.1.congr ⟨fun _ => rfl, rfl, rfl, rfl, rfl, rfl, rfl⟩
  have hoffer := offer_spec w t.pending 0 t.pending
    { t with busy := true, pending := [], pendingCap := 0 } (List.Subset.refl _)
  obtain ⟨t', hsweep, h', hp', hnone⟩ := sweep_spec (hstart.congr hoffer.index) hoffer.pending
    (hoffer.states (h.2.all (Bool.eq_false_iff.mpr hdisabled)))
  have hempty : Queued t' := by
    refine ⟨?_, fun e he => ?_, ?_, fun _ e he hne hstate => ?_⟩
    · rw [hp']
      exact List.nodup_nil
    · rw [hp'] at he
      cases he
    · rw [hp']
      exact Nat.zero_le _
    · cases hnone e he hne hstate
  exact ⟨{ t' with busy := false }, by rw [hsweep, Option.map_some],
    h'.congr ⟨fun _ => rfl, rfl, rfl, rfl, rfl, rfl, rfl⟩,
    hempty.congr (fun _ => rfl) (fun _ => rfl) rfl rfl rfl rfl⟩

/-- **Every step** keeps the registry. -/
theorem step (h : Consistent address t) (hs : Step address t t') : Consistent address t' := by
  cases hs with
  | defun name definition fn old room hfn hrun =>
    obtain ⟨t₁, hrun₁, h₁, -⟩ := h.onDefun name definition hfn old room
    rw [hrun] at hrun₁
    exact Option.some.inj hrun₁ ▸ h₁
  | call self room hrun =>
    obtain ⟨t₁, hrun₁, h₁⟩ := h.onCall self room
    rw [hrun] at hrun₁
    exact Option.some.inj hrun₁ ▸ h₁
  | safepoint w hrun =>
    obtain ⟨t₁, hrun₁, h₁⟩ := h.onSafepoint w
    rw [hrun] at hrun₁
    exact Option.some.inj hrun₁ ▸ h₁

end Consistent

theorem Reachable.consistent (h : Reachable address t) : Consistent address t := by
  obtain ⟨threshold, countOnly, disabled, hsteps⟩ := h
  induction hsteps with
  | refl => exact ⟨indexed_start address threshold countOnly disabled,
      queued_start threshold countOnly disabled⟩
  | tail _ hstep ih => exact ih.step hstep

/-- What the index and the list say of the entries. -/
structure Sound (address : ℕ → BitVec 64) (t : Registry) : Prop where
  /-- An entry in use has one slot, and it is the one that is found. -/
  found : ∀ e < t.nentries, ∀ fn, (t.entries e).fn = some fn → ∃ i < t.slotCap,
    t.slots i = some (.entry e) ∧ t.findSlot address fn = some (some i) ∧
      ∀ j < t.slotCap, t.slots j = some (.entry e) → j = i
  /-- A closure that has no entry in use is not found. -/
  notFound : ∀ fn, t.Fresh fn → t.findSlot address fn = some none
  empty : 0 < t.slotCap → ∃ i < t.slotCap, t.slots i = none
  /-- While the tier is enabled, a pending entry is listed once. -/
  pending : t.disabled = false → ∀ e < t.nentries, (t.entries e).fn ≠ none →
    (t.entries e).state = .pending → t.pending.count e = 1
  /-- Anything else that is listed is skipped. -/
  listed : ∀ e ∈ t.pending, e < t.nentries ∧
    ((t.entries e).fn = none ∨ (t.entries e).state = .pending)

theorem Consistent.sound (h : Consistent address t) : Sound address t where
  found e he fn hfn := by
    obtain ⟨d, hd, hdfn, i, hi, hid, hfind⟩ | ⟨hfresh, -⟩ := h.1.findSlot fn
    · have hde := h.1.fn_inj hd he hdfn hfn
      subst hde
      exact ⟨i, hi, hid, hfind, fun j hj hjd => h.1.slot_inj hj hi hjd hid⟩
    · exact absurd hfn (hfresh e he)
  notFound fn hfresh := by
    obtain ⟨d, hd, hdfn, -⟩ | ⟨-, hfind⟩ := h.1.findSlot fn
    · exact absurd hdfn (hfresh d hd)
    · exact hfind
  empty := h.1.exists_empty
  pending henabled e he hne hstate :=
    List.count_eq_one_of_mem h.2.nodup (h.2.all henabled e he hne hstate)
  listed e he := by
    obtain ⟨hlt, hstate⟩ := h.2.listed e he
    exact ⟨hlt, or_iff_not_imp_left.mpr hstate⟩

/-- **A closure that has been replaced is no longer found.** -/
theorem onDefun_replaced (h : Reachable address t) {name definition fn old : ℕ} {room : Room}
    (hfn : t.Fresh fn) (hne : old ≠ fn)
    (hrun : t.onDefun address name definition fn (some old) room = some t') :
    t'.findSlot address old = some none := by
  obtain ⟨t₁, hrun₁, h₁, hfresh⟩ := h.consistent.onDefun name definition hfn (some old) room
  obtain rfl := Option.some.inj (hrun.symm.trans hrun₁)
  exact h₁.sound.notFound old (hfresh old hne (.inr rfl))

/-- **The registry stays consistent** in every run, and every operation ends, whatever requests to the
allocator find room. -/
theorem reachable_sound (h : Reachable address t) :
    Sound address t ∧
      (∀ name definition fn old room, t.Fresh fn →
        ∃ t', t.onDefun address name definition fn old room = some t') ∧
      (∀ self room, ∃ t', t.onCall address self room = some t') ∧
      ∀ w, ∃ t', t.onSafepoint address w = some t' := by
  have hc := h.consistent
  refine ⟨hc.sound, fun name definition fn old room hfn => ?_, fun self room => ?_, fun w => ?_⟩
  · obtain ⟨t', hrun, -⟩ := hc.onDefun name definition hfn old room
    exact ⟨t', hrun⟩
  · obtain ⟨t', hrun, -⟩ := hc.onCall self room
    exact ⟨t', hrun⟩
  · obtain ⟨t', hrun, -⟩ := hc.onSafepoint w
    exact ⟨t', hrun⟩

/-- The registry after one definition. -/
def oneEntry : Registry where
  entries := Function.update (fun _ => {}) 0 ⟨some 7, 5, 6, 0, .cold⟩
  nentries := 1
  entryCap := 1024
  live := 1
  slots := Function.update (fun _ => none) 0 (some (.entry 0))
  slotCap := 1024
  slotUsed := 1
  threshold := 1
  countOnly := false
  disabled := false

theorem onDefun_oneEntry :
    onDefun (fun _ => 0) { threshold := 1, countOnly := false, disabled := false } 5 6 7 none
      ⟨true, true, true, fun _ => true⟩ = some oneEntry := by
  have hgrow : growSlots (fun _ => 0) { threshold := 1, countOnly := false, disabled := false } true =
      some ({ threshold := 1, countOnly := false, disabled := false, slotCap := 1024 }, true) := by
    have hcap : grownCap { threshold := 1, countOnly := false, disabled := false } = 1024 := by
      rw [grownCap, doubled]
      rfl
    rw [growSlots, hcap]
    rfl
  have hadd : addEntry (fun _ => 0)
      { threshold := 1
        countOnly := false
        disabled := false
        slotCap := 1024
        entryCap := 1024 } 5 6 7 = some oneEntry := by
    have hhash : hashWord (fun _ => 0) 7 = 0 := by decide
    rw [addEntry, hhash]
    rfl
  have hentry : roomForEntry (fun _ => 0)
      { threshold := 1
        countOnly := false
        disabled := false
        slotCap := 1024 } ⟨true, true, true, fun _ => true⟩ =
      some ({ threshold := 1
              countOnly := false
              disabled := false
              slotCap := 1024
              entryCap := 1024 }, true) := rfl
  rw [onDefun, forget, Option.bind_some, if_neg (by decide), register, roomForSlot,
    if_pos (by decide), hgrow, Option.bind_some, if_pos rfl, hentry, Option.bind_some, if_pos rfl,
    hadd]
  rfl

/-- A function is defined, called once and thereby pending. -/
theorem reachable_sound_pending : ∃ t, oneEntry.onCall (fun _ => 0) 7 true = some t ∧
    t.pending = [0] ∧ Sound (fun _ => 0) t := by
  have hcall : oneEntry.onCall (fun _ => 0) 7 true = some ({ oneEntry with
      entries := Function.update oneEntry.entries 0 ⟨some 7, 5, 6, 1, .cold⟩ }.pushPending 0 true) := by
    have hhash : hashWord (fun _ => 0) 7 = 0 := by decide
    have hfind : oneEntry.findSlot (fun _ => 0) 7 = some (some 0) := by
      rw [Registry.findSlot, hhash]
      rfl
    rw [onCall, hfind]
    rfl
  refine ⟨_, hcall, rfl, (reachable_sound ⟨1, false, false, ?_⟩).1⟩
  exact (Relation.ReflTransGen.single (.defun 5 6 7 none _ (fun e he => by cases he)
    onDefun_oneEntry)).tail (.call 7 true hcall)

end ShenRc.Tier.Registry
