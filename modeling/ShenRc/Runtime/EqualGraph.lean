import ShenRc.Runtime.Bisimilar
import Mathlib.Data.Finset.Prod
import Mathlib.Data.List.Infix

/-! # The comparison of graphs

`graph_equal` works through an array of pairs that only grows. `Fits` is what holds of the array and
its table throughout: every pair is there once, and the table finds exactly the pairs of the array
(`searchSlot_spec`), also after it has been made anew (`rebuild_spec`). A turn of the inner loop adds
what is not yet settled (`visitChild_spec`). At the end of the array all the obligations of its pairs
are in it, so the two values are bisimilar (`graphLoop_spec`). There are finitely many pairs of
cells, so the loop comes to its end. -/

namespace ShenRc.Runtime

open ShenRc.Graph

/-- One turn leads to the rest of the computation. -/
theorem Returns.step {α : Type*} {f g : ℕ → Option α} {r : α} (hg : Returns g r)
    (hf : ∀ fuel, f (fuel + 1) = g fuel) : Returns f r := by
  obtain ⟨n, hn⟩ := hg
  refine ⟨n + 1, fun fuel hfuel => ?_⟩
  obtain ⟨fuel, rfl⟩ := Nat.exists_eq_add_of_le' (show 1 ≤ fuel by omega)
  rw [hf]
  exact hn fuel (by omega)

/-- One turn is enough. -/
theorem Returns.now {α : Type*} {f : ℕ → Option α} {r : α} (hf : ∀ fuel, f (fuel + 1) = some r) :
    Returns f r := Returns.step (g := fun _ => some r) ⟨0, fun _ _ => rfl⟩ hf

namespace Ctx

/-- The hash of a pair as a number. -/
abbrev pairHash (address : Ref → BitVec 64) (p : EqualPair) : ℕ := (equalHash address p).toNat

/-- What holds of the array and of the table. -/
structure Fits (s : Ctx) (address : Ref → BitVec 64) (c : Comparison) : Prop where
  nodup : c.pairs.Nodup
  children : ∀ p ∈ c.pairs, p.1 ≠ p.2 ∧ s.comparable p = true
  room : c.pairs.length ≤ c.capacity
  power : ∃ j, c.capacity = 2 ^ j
  table : ∀ seen, c.seen = some seen →
    Table (pairHash address) (c.capacity * 2) c.pairs seen

/-- The report that the sizes are too large, in a heap in which there may be as many pairs. -/
def Overflow (s : Ctx) (message : String) : Prop :=
  message = "comparison size overflow" ∧ sizeMax / 32 < s.size * s.size

variable {s : Ctx} {address : Ref → BitVec 64} {c : Comparison}

theorem structural_live {r : Ref} (h : s.structural r = true) : ∃ a, r = .cell a ∧ s.live a := by
  cases r with
  | cell a =>
    refine ⟨a, rfl, fun hn => ?_⟩
    simp [structural, rcType, hn] at h
  | _ => cases h

/-- **There are finitely many pairs to meet.** -/
theorem Fits.length_le (h : Fits s address c) (hb : ∀ a, s.live a → a < s.size) :
    c.pairs.length ≤ s.size * s.size := by
  let cells := Finset.range s.size ×ˢ Finset.range s.size
  have hsub : c.pairs.toFinset ⊆ cells.image fun p => (Ref.cell p.1, Ref.cell p.2) := by
    rintro ⟨x, y⟩ hp
    have hc := (h.children _ (List.mem_toFinset.mp hp)).2
    simp only [comparable, Bool.and_eq_true] at hc
    obtain ⟨a, rfl, ha⟩ := structural_live hc.1.1
    obtain ⟨b, rfl, hb'⟩ := structural_live hc.1.2
    refine Finset.mem_image.mpr ⟨(a, b), ?_, rfl⟩
    exact Finset.mem_product.mpr ⟨Finset.mem_range.mpr (hb a ha), Finset.mem_range.mpr (hb b hb')⟩
  calc c.pairs.length = c.pairs.toFinset.card := (List.toFinset_card_of_nodup h.nodup).symm
    _ ≤ cells.card := (Finset.card_le_card hsub).trans Finset.card_image_le
    _ = s.size * s.size := by rw [Finset.card_product, Finset.card_range]

/-! ### The table -/

variable {capacity : ℕ} {keys pairs : List EqualPair} {seen : List ℕ}

/-- The mask takes a number modulo the number of slots. -/
theorem mask_eq (hpow : ∃ j, capacity = 2 ^ j) (n : ℕ) :
    n &&& (capacity * 2 - 1) = n % (capacity * 2) := by
  obtain ⟨j, rfl⟩ := hpow
  exact Nat.and_two_pow_sub_one_eq_mod n (j + 1)

/-- **A search in the table ends**, at the pair or at a free slot. -/
theorem searchSlot_spec (hpow : ∃ j, capacity = 2 ^ j)
    (h : Table (pairHash address) (capacity * 2) keys seen) (hlt : keys.length < capacity * 2)
    (pairs : List EqualPair) (known : Bool) (p : EqualPair) :
    ∃ d < capacity * 2,
      searchSlot address pairs seen capacity known p =
        some ((pairHash address p + d) % (capacity * 2)) ∧
      (seen.getD ((pairHash address p + d) % (capacity * 2)) 0 = 0 ∨
        (known && pairs[seen.getD ((pairHash address p + d) % (capacity * 2)) 0 - 1]? == some p) =
          true) ∧
      ∀ e < d, seen.getD ((pairHash address p + e) % (capacity * 2)) 0 ≠ 0 ∧
        (known && pairs[seen.getD ((pairHash address p + e) % (capacity * 2)) 0 - 1]? == some p) =
          false := by
  have hnext : nextSlot capacity = fun slot => (slot + 1) % (capacity * 2) :=
    funext fun slot => mask_eq hpow (slot + 1)
  have hfirst : firstSlot address capacity p = pairHash address p % (capacity * 2) :=
    mask_eq hpow _
  obtain ⟨d, hd, hprobe, hstop, hbefore⟩ := h.probe hlt p fun slot =>
    known && pairs[seen.getD slot 0 - 1]? == some p
  refine ⟨d, hd, ?_, hstop, hbefore⟩
  rw [searchSlot, hnext, hfirst]
  exact hprobe

/-- The search for a free slot ends at one that may take the pair. -/
theorem searchSlot_insert (hpow : ∃ j, capacity = 2 ^ j)
    (h : Table (pairHash address) (capacity * 2) keys seen) (hlt : keys.length < capacity * 2)
    (pairs : List EqualPair) (p : EqualPair) :
    ∃ slot, searchSlot address pairs seen capacity false p = some slot ∧
      Table (pairHash address) (capacity * 2) (keys ++ [p]) (seen.set slot (keys.length + 1)) := by
  obtain ⟨d, hd, hprobe, hstop, hbefore⟩ := searchSlot_spec hpow h hlt pairs false p
  refine ⟨_, hprobe, h.insert hd ?_ fun e he => (hbefore e he).1⟩
  simpa using hstop

/-- **The table made anew holds the pairs.** -/
theorem rebuild_spec (hpow : ∃ j, capacity = 2 ^ j) (hroom : pairs.length < capacity * 2) (k : ℕ)
    (hk : k ≤ pairs.length) : ∃ seen, rebuild address pairs capacity k = some seen ∧
      Table (pairHash address) (capacity * 2) (pairs.take k) seen := by
  induction k with
  | zero => exact ⟨_, rfl, by simpa using Table.empty (pairHash address) (capacity * 2)⟩
  | succ k ih =>
    obtain ⟨seen, hseen, htable⟩ := ih (by omega)
    have hget : pairs[k]? = some pairs[k] := List.getElem?_eq_getElem (by omega)
    have hlen : (pairs.take k).length = k := by
      rw [List.length_take]
      omega
    obtain ⟨slot, hslot, hinsert⟩ :=
      searchSlot_insert hpow htable (by omega) pairs pairs[k]
    refine ⟨seen.set slot (k + 1), ?_, ?_⟩
    · rw [rebuild, hseen]
      simp only [Option.bind_eq_bind, Option.bind_some, hget, hslot]
    · rw [List.take_succ_eq_append_getElem (by omega)]
      rwa [hlen] at hinsert

/-! ### A pair that has not been met -/

/-- The array with one more pair, once the table has taken it. -/
theorem Fits.store (h : Fits s address c) {p : EqualPair} {slot : ℕ} (hne : p.1 ≠ p.2)
    (hc : s.comparable p = true) (hnew : p ∉ c.pairs) (hlt : c.pairs.length < c.capacity)
    (hslot : ∀ seen, c.seen = some seen → Table (pairHash address) (c.capacity * 2)
      (c.pairs ++ [p]) (seen.set slot (c.pairs.length + 1))) :
    Fits s address (Ctx.store c p slot) where
  nodup := by
    refine List.nodup_append.mpr ⟨h.nodup, List.nodup_singleton p, fun q hq r hr => ?_⟩
    rw [List.mem_singleton] at hr
    rintro rfl
    exact hnew (hr ▸ hq)
  children q hq := by
    rcases List.mem_append.mp hq with hq | hq
    · exact h.children q hq
    · rw [List.mem_singleton] at hq
      subst hq
      exact ⟨hne, hc⟩
  room := by
    change (c.pairs ++ [p]).length ≤ c.capacity
    rw [List.length_append, List.length_singleton]
    omega
  power := h.power
  table seen hseen := by
    obtain ⟨seen', hseen', rfl⟩ := Option.map_eq_some_iff.mp hseen
    exact hslot seen' hseen'

/-- **Growing doubles the room**, or the sizes are too large. -/
theorem grow_spec (h : Fits s address c) (hroomy : ∀ k, s.scratch k = true)
    (hb : ∀ a, s.live a → a < s.size) (hfull : c.pairs.length = c.capacity) :
    (∃ m, s.grow address c = some (.error (.error m)) ∧ s.Overflow m) ∨
    ∃ c', s.grow address c = some (.ok c') ∧ Fits s address c' ∧ c'.pairs = c.pairs ∧
      c.capacity < c'.capacity ∧ ∃ seen, c'.seen = some seen := by
  have hle := h.length_le hb
  have hpos : 0 < c.capacity := by
    obtain ⟨j, hj⟩ := h.power
    rw [hj]
    exact Nat.two_pow_pos j
  have hpow : ∃ j, c.capacity * 2 = 2 ^ j := by
    obtain ⟨j, hj⟩ := h.power
    exact ⟨j + 1, by rw [hj, pow_succ]⟩
  unfold grow
  by_cases hsize : sizeMax / 4 / 8 < c.capacity ∨ sizeMax / 2 / 16 < c.capacity
  · rw [if_pos hsize]
    refine Or.inl ⟨_, rfl, rfl, ?_⟩
    simp only [sizeMax] at hsize ⊢
    omega
  · have hgranted : ¬ (!(s.scratch c.tick && s.scratch (c.tick + 1))) = true := by
      rw [hroomy, hroomy]
      decide
    obtain ⟨seen, hseen, htable⟩ := rebuild_spec hpow
      (show c.pairs.length < c.capacity * 2 * 2 by omega) c.pairs.length le_rfl
    rw [if_neg hsize, if_neg hgranted, hseen]
    refine Or.inr ⟨_, rfl, ⟨h.nodup, h.children, ?_, hpow, ?_⟩, rfl, ?_, seen, rfl⟩
    · change c.pairs.length ≤ c.capacity * 2
      omega
    · intro seen' hseen'
      obtain rfl := Option.some.inj hseen'
      rwa [List.take_length] at htable
    · change c.capacity < c.capacity * 2
      omega

/-- **A new pair is stored**, or the sizes are too large. -/
theorem addPair_spec (h : Fits s address c) (hroomy : ∀ k, s.scratch k = true)
    (hb : ∀ a, s.live a → a < s.size) {p : EqualPair} {slot : ℕ} (hne : p.1 ≠ p.2)
    (hc : s.comparable p = true) (hnew : p ∉ c.pairs)
    (hslot : ∀ seen, c.seen = some seen → Table (pairHash address) (c.capacity * 2)
      (c.pairs ++ [p]) (seen.set slot (c.pairs.length + 1))) :
    (∃ m, s.addPair address c p slot = some (.error (.error m)) ∧ s.Overflow m) ∨
    ∃ c', s.addPair address c p slot = some (.ok c') ∧ Fits s address c' ∧
      c'.pairs = c.pairs ++ [p] := by
  have hroom := h.room
  unfold addPair
  by_cases hfull : c.pairs.length = c.capacity
  · rw [if_pos hfull]
    rcases grow_spec h hroomy hb hfull with ⟨m, hm, ho⟩ | ⟨c1, hc1, h1, hpairs, hcap, seen, hseen⟩
    · rw [hm]
      exact Or.inl ⟨m, rfl, ho⟩
    · have hlt : c1.pairs.length < c1.capacity := by
        rw [hpairs]
        omega
      obtain ⟨slot', hslot', hinsert⟩ :=
        searchSlot_insert h1.power (h1.table seen hseen) (by omega) c1.pairs p
      refine Or.inr ⟨Ctx.store c1 p slot', ?_, h1.store hne hc (hpairs ▸ hnew) hlt ?_, ?_⟩
      · rw [hc1]
        simp only [Option.bind_eq_bind, Option.bind_some, hseen, Option.getD_some, hslot']
      · intro seen' hseen'
        obtain rfl := Option.some.inj (hseen.symm.trans hseen')
        exact hinsert
      · change c1.pairs ++ [p] = _
        rw [hpairs]
  · rw [if_neg hfull]
    exact Or.inr ⟨_, rfl, h.store hne hc hnew (by omega) hslot, rfl⟩

/-! ### The inner loop -/

/-- What visiting the pairs `ps` makes of a comparison: those that are not settled at once are in
the array, and nothing else is new there. -/
structure Extends (s : Ctx) (address : Ref → BitVec 64) (c c' : Comparison) (ps : List EqualPair) :
    Prop where
  fits : Fits s address c'
  keeps : c.pairs <+: c'.pairs
  only : ∀ q ∈ c'.pairs, q ∈ c.pairs ∨ q ∈ ps
  settled : ∀ q ∈ ps, q ∈ c'.pairs ∨ s.obligations q = some []

/-- The outcome of visiting pairs. -/
inductive Visited (s : Ctx) (address : Ref → BitVec 64) (c : Comparison) (ps : List EqualPair) :
    Except Halt Comparison → Prop
  | ok {c' : Comparison} (h : Extends s address c c' ps) : Visited s address c ps (.ok c')
  | different {p : EqualPair} (hp : p ∈ ps) (h : s.obligations p = none) :
    Visited s address c ps (.error .different)
  | overflow {m : String} (h : s.Overflow m) : Visited s address c ps (.error (.error m))

/-- A pair that is settled or has been met changes nothing. -/
theorem Visited.same (h : Fits s address c) {p : EqualPair}
    (hp : p ∈ c.pairs ∨ s.obligations p = some []) : Visited s address c [p] (.ok c) := by
  refine .ok ⟨h, List.prefix_refl _, fun q hq => Or.inl hq, fun q hq => ?_⟩
  rw [List.mem_singleton] at hq
  subst hq
  exact hp

theorem addPair_visited (h : Fits s address c) (hroomy : ∀ k, s.scratch k = true)
    (hb : ∀ a, s.live a → a < s.size) {p : EqualPair} {slot : ℕ} (hne : p.1 ≠ p.2)
    (hc : s.comparable p = true) (hnew : p ∉ c.pairs)
    (hslot : ∀ seen, c.seen = some seen → Table (pairHash address) (c.capacity * 2)
      (c.pairs ++ [p]) (seen.set slot (c.pairs.length + 1))) :
    ∃ r, s.addPair address c p slot = some r ∧ Visited s address c [p] r := by
  rcases addPair_spec h hroomy hb hne hc hnew hslot with ⟨m, hm, ho⟩ | ⟨c', hc', h', hpairs⟩
  · exact ⟨_, hm, .overflow ho⟩
  · refine ⟨_, hc', .ok ⟨h', hpairs ▸ List.prefix_append _ _, fun q hq => ?_, fun q hq => ?_⟩⟩
    · rwa [hpairs, List.mem_append] at hq
    · rw [hpairs]
      exact Or.inl (List.mem_append_right _ hq)

/-- **One pair of children**: it is settled at once, it has been met, or it is new. -/
theorem visitChild_spec (h : Fits s address c) (hroomy : ∀ k, s.scratch k = true)
    (hb : ∀ a, s.live a → a < s.size) (p : EqualPair) :
    ∃ r, s.visitChild address c p = some r ∧ Visited s address c [p] r := by
  unfold visitChild
  by_cases hne : p.1 = p.2
  · rw [if_pos hne]
    exact ⟨_, rfl, .same h (Or.inr (if_pos hne))⟩
  rw [if_neg hne]
  by_cases hc : s.comparable p = true
  swap
  · rw [Bool.not_eq_true] at hc
    rw [if_pos (by rw [hc]; rfl)]
    have ho := obligations_scalar hne hc
    by_cases hs : s.scalarEqual p.1 p.2 = true
    · rw [if_pos hs] at ho ⊢
      exact ⟨_, rfl, .same h (Or.inr ho)⟩
    · rw [if_neg hs] at ho ⊢
      exact ⟨_, rfl, .different (List.mem_singleton_self p) ho⟩
  rw [if_neg (by rw [hc]; decide)]
  cases hseen : c.seen with
  | none =>
    by_cases hmem : p ∈ c.pairs
    · simp only [if_pos hmem]
      exact ⟨_, rfl, .same h (Or.inl hmem)⟩
    · simp only [if_neg hmem]
      exact addPair_visited h hroomy hb hne hc hmem fun seen hs => by
        rw [hseen] at hs
        cases hs
  | some seen =>
    have htable := h.table seen hseen
    have hroom := h.room
    have hpos : 0 < c.capacity := by
      obtain ⟨j, hj⟩ := h.power
      rw [hj]
      exact Nat.two_pow_pos j
    obtain ⟨d, hd, hprobe, hstop, hbefore⟩ :=
      searchSlot_spec h.power htable (by omega) c.pairs true p
    simp only [hprobe, Option.bind_eq_bind, Option.bind_some]
    by_cases h0 : seen.getD ((pairHash address p + d) % (c.capacity * 2)) 0 = 0
    · -- A free slot: the pair has not been met, since its own search would have found it.
      have hmem : p ∉ c.pairs := by
        intro hmem
        obtain ⟨k, hk, hkp⟩ := List.getElem_of_mem hmem
        have hget : c.pairs[k]? = some p := by rw [List.getElem?_eq_getElem hk, hkp]
        refine htable.found hget (fun slot => true && c.pairs[seen.getD slot 0 - 1]? == some p)
          (fun slot hslot => ?_) hbefore h0
        simp only [hslot, Nat.add_sub_cancel, hget, beq_self_eq_true, Bool.and_self]
      simp only [h0, ne_eq, not_true_eq_false, if_false]
      refine addPair_visited h hroomy hb hne hc hmem fun seen' hs => ?_
      obtain rfl := Option.some.inj (hseen.symm.trans hs)
      exact htable.insert hd h0 fun e he => (hbefore e he).1
    · simp only [ne_eq, h0, not_false_eq_true, if_true]
      have hfound := hstop.resolve_left h0
      rw [Bool.true_and, beq_iff_eq] at hfound
      exact ⟨_, rfl, .same h (Or.inl (List.mem_of_getElem? hfound))⟩

/-- **All pairs of children.** -/
theorem visitChildren_spec (hroomy : ∀ k, s.scratch k = true) (hb : ∀ a, s.live a → a < s.size)
    (ps : List EqualPair) (c : Comparison) (h : Fits s address c) :
    ∃ r, s.visitChildren address ps c = some r ∧ Visited s address c ps r := by
  induction ps generalizing c with
  | nil => exact ⟨_, rfl, .ok ⟨h, List.prefix_refl _, fun q hq => Or.inl hq, by simp⟩⟩
  | cons p ps ih =>
    obtain ⟨r, hr, hv⟩ := visitChild_spec h hroomy hb p
    rw [visitChildren, hr]
    cases hv with
    | overflow ho => exact ⟨_, rfl, .overflow ho⟩
    | different hp ho =>
      rw [List.mem_singleton] at hp
      exact ⟨_, rfl, .different (hp ▸ List.mem_cons_self ..) ho⟩
    | @ok c1 h1 =>
      obtain ⟨r, hr, hv⟩ := ih c1 h1.fits
      refine ⟨r, hr, ?_⟩
      cases hv with
      | overflow ho => exact .overflow ho
      | different hp ho => exact .different (List.mem_cons_of_mem _ hp) ho
      | @ok c2 h2 =>
        refine .ok ⟨h2.fits, h1.keeps.trans h2.keeps, fun q hq => ?_, fun q hq => ?_⟩
        · rcases h2.only q hq with hq | hq
          · rcases h1.only q hq with hq | hq
            · exact Or.inl hq
            · rw [List.mem_singleton] at hq
              exact Or.inr (hq ▸ List.mem_cons_self ..)
          · exact Or.inr (List.mem_cons_of_mem _ hq)
        · rcases List.mem_cons.mp hq with rfl | hq
          · exact (h1.settled q (List.mem_singleton_self q)).imp_left fun hm => h2.keeps.subset hm
          · exact h2.settled q hq

/-! ### The outer loop -/

/-- What a comparison of two values may answer. -/
inductive Answers (s : Ctx) (p : EqualPair) : Except String Bool → Prop
  | ok {b : Bool} (h : b = true ↔ Holds s.obligations p) : Answers s p (.ok b)
  | overflow {m : String} (h : s.Overflow m) : Answers s p (.error m)

/-- The pairs before `cursor` have their obligations in the array, and the values to be compared ask
for all that is there. -/
structure Explores (s : Ctx) (address : Ref → BitVec 64) (root : EqualPair) (cursor : ℕ)
    (c : Comparison) : Prop where
  fits : Fits s address c
  start : root ∈ c.pairs
  needed : Holds s.obligations root → ∀ p ∈ c.pairs, Holds s.obligations p
  done : ∀ p ∈ c.pairs.take cursor, ∃ l, s.obligations p = some l ∧
    ∀ q ∈ l, q ∈ c.pairs ∨ s.obligations q = some []
  cursor : cursor ≤ c.pairs.length

theorem holds_of_settled {q : EqualPair} (h : s.obligations q = some []) :
    Holds s.obligations q := (holds_iff_of_eq h).mpr (by simp)

/-- At the end of the array the values are bisimilar. -/
theorem Explores.holds {root : EqualPair} {cursor : ℕ} (h : Explores s address root cursor c)
    (hend : c.pairs[cursor]? = none) : Holds s.obligations root := by
  rw [List.getElem?_eq_none_iff] at hend
  have hdone := h.done
  rw [List.take_of_length_le hend] at hdone
  refine Holds.of_closed (S := {p | p ∈ c.pairs}) (fun p hp => ?_) h.start
  obtain ⟨l, hl, hq⟩ := hdone p hp
  exact ⟨l, hl, fun q hql => (hq q hql).imp_right holds_of_settled⟩

/-- One more pair is done. -/
theorem Explores.next {root p : EqualPair} {cursor : ℕ} {c' : Comparison} {l : List EqualPair}
    (h : Explores s address root cursor c) (hp : c.pairs[cursor]? = some p)
    (hl : s.obligations p = some l) (hext : Extends s address c c' l) :
    Explores s address root (cursor + 1) c' := by
  obtain ⟨hlt, hget⟩ := List.getElem?_eq_some_iff.mp hp
  have hmem : p ∈ c.pairs := hget ▸ List.getElem_mem hlt
  have hsub := hext.keeps.subset
  refine ⟨hext.fits, hsub h.start, fun hroot q hq => ?_, fun q hq => ?_, ?_⟩
  · rcases hext.only q hq with hq | hq
    · exact h.needed hroot q hq
    · exact (holds_iff_of_eq hl).mp (h.needed hroot p hmem) q hq
  · obtain ⟨more, hmore⟩ := hext.keeps
    rw [← hmore, List.take_append_of_le_length hlt, List.take_succ_eq_append_getElem hlt,
      List.mem_append, List.mem_singleton, hget] at hq
    rcases hq with hq | rfl
    · obtain ⟨l', hl', hq'⟩ := h.done q hq
      exact ⟨l', hl', fun r hr => (hq' r hr).imp_left fun hm => hsub hm⟩
    · exact ⟨l, hl, hext.settled⟩
  · have := hext.keeps.length_le
    omega

/-- **The loop comes to its end and answers correctly.** -/
theorem graphLoop_spec (hroomy : ∀ k, s.scratch k = true) (hb : ∀ a, s.live a → a < s.size)
    {root : EqualPair} (left cursor : ℕ) (c : Comparison) (h : Explores s address root cursor c)
    (hleft : s.size * s.size < cursor + left) :
    ∃ r, Returns (fun fuel => s.graphLoop address fuel cursor c) r ∧ Answers s root r := by
  -- Not more than `left` pairs are still to be done.
  induction left generalizing cursor c with
  | zero =>
    have h1 := h.fits.length_le hb
    have h2 := h.cursor
    omega
  | succ left ih =>
    cases hp : c.pairs[cursor]? with
    | none =>
      refine ⟨.ok true, .now fun fuel => ?_, .ok (iff_of_true rfl (h.holds hp))⟩
      simp only [graphLoop, hp]
    | some p =>
      have hmem : p ∈ c.pairs := List.mem_of_getElem? hp
      obtain ⟨hne, hc⟩ := h.fits.children p hmem
      have ho := obligations_children hne hc
      cases hl : s.childPairs p with
      | none =>
        refine ⟨.ok false, .now fun fuel => ?_, .ok (iff_of_false Bool.false_ne_true fun hroot => ?_)⟩
        · simp only [graphLoop, hp, hl]
        · exact not_holds (ho.trans hl) (h.needed hroot p hmem)
      | some l =>
        obtain ⟨r, hr, hv⟩ := visitChildren_spec hroomy hb l c h.fits
        cases hv with
        | @overflow m hov =>
          refine ⟨.error m, .now fun fuel => ?_, .overflow hov⟩
          simp only [graphLoop, hp, hl, hr, Option.bind_eq_bind, Option.bind_some]
        | @different q hq hnone =>
          refine ⟨.ok false, .now fun fuel => ?_, .ok (iff_of_false Bool.false_ne_true fun hroot => ?_)⟩
          · simp only [graphLoop, hp, hl, hr, Option.bind_eq_bind, Option.bind_some]
          · exact not_holds hnone
              ((holds_iff_of_eq (ho.trans hl)).mp (h.needed hroot p hmem) q hq)
        | @ok c' hext =>
          obtain ⟨r, hret, hans⟩ := ih (cursor + 1) c' (h.next hp (ho.trans hl) hext) (by omega)
          refine ⟨r, hret.step fun fuel => ?_, hans⟩
          simp only [graphLoop, hp, hl, hr, Option.bind_eq_bind, Option.bind_some]

/-- **`graph_equal` decides bisimilarity.** -/
theorem graphEqual_spec (hroomy : ∀ k, s.scratch k = true) (hb : ∀ a, s.live a → a < s.size)
    {left right : Ref} (hne : left ≠ right) (hc : s.comparable (left, right) = true) :
    ∃ r, Returns (fun fuel => s.graphEqual address fuel left right) r ∧
      Answers s (left, right) r := by
  refine graphLoop_spec hroomy hb (s.size * s.size + 1) 0 _
    ⟨⟨?_, ?_, ?_, ⟨5, rfl⟩, ?_⟩, ?_, ?_, ?_, ?_⟩ (by omega)
  · exact List.nodup_singleton _
  · intro p hp
    rw [List.mem_singleton] at hp
    subst hp
    exact ⟨hne, hc⟩
  · change 1 ≤ 32
    omega
  · intro seen hseen
    cases hseen
  · exact List.mem_singleton_self _
  · intro hroot p hp
    rw [List.mem_singleton] at hp
    exact hp ▸ hroot
  · intro p hp
    rw [List.take_zero] at hp
    cases hp
  · exact Nat.zero_le _

end Ctx

end ShenRc.Runtime
