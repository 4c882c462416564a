import Mathlib.Data.List.Count
import Mathlib.Data.List.GetD

/-! # Linear probing

A table of `m` slots over a list of keys: a slot is free (`0`) or holds the place of a key in the
list, counted from one. A key is looked for from the slot of its hash on, slot by slot and around
the end. `Table` says that each key is found before a free slot (`path`). As long as there are fewer
keys than slots every search ends (`probe_lookup`), it finds a key exactly if it is in the list, and
a new key may go into the free slot where its search ended (`Table.insert`). -/

namespace ShenRc.Graph

/-- The loop of a search: on to the next slot until one of them ends it. -/
def probe (stop : ℕ → Bool) (next : ℕ → ℕ) : ℕ → ℕ → Option ℕ
  | 0, _ => none
  | fuel + 1, slot => if stop slot then some slot else probe stop next fuel (next slot)

/-- A search that meets a slot that ends it stops at the first such slot. -/
theorem probe_stops (stop : ℕ → Bool) {m : ℕ} (fuel start d : ℕ) (hd : d < fuel)
    (h : stop ((start + d) % m) = true) :
    ∃ e ≤ d, probe stop (fun slot => (slot + 1) % m) fuel (start % m) = some ((start + e) % m) ∧
      stop ((start + e) % m) = true ∧ ∀ i < e, stop ((start + i) % m) = false := by
  induction fuel generalizing start d with
  | zero => omega
  | succ fuel ih =>
    by_cases h0 : stop (start % m) = true
    · refine ⟨0, Nat.zero_le d, ?_, h0, fun i hi => absurd hi (Nat.not_lt_zero i)⟩
      rw [probe, if_pos h0, Nat.add_zero]
    · obtain ⟨d, rfl⟩ : ∃ k, d = k + 1 := by
        refine Nat.exists_eq_add_one_of_ne_zero ?_
        rintro rfl
        exact h0 h
      have hshift : ∀ i, start + 1 + i = start + (i + 1) := fun i => by omega
      obtain ⟨e, he, hp, hs, hn⟩ := ih (start + 1) d (by omega) (by rwa [hshift])
      rw [hshift] at hp hs
      refine ⟨e + 1, by omega, ?_, hs, fun i hi => ?_⟩
      · rw [probe, if_neg h0, Nat.mod_add_mod, hp]
      · rcases Nat.eq_zero_or_pos i with rfl | hpos
        · simpa using h0
        · have := hn (i - 1) (by omega)
          rwa [hshift, Nat.sub_add_cancel hpos] at this

/-- Every slot is some steps on. -/
theorem exists_steps {m i : ℕ} (start : ℕ) (hi : i < m) : ∃ d < m, (start + d) % m = i := by
  have hs : start % m < m := Nat.mod_lt _ (by omega)
  refine ⟨(i + (m - start % m)) % m, Nat.mod_lt _ (by omega), ?_⟩
  rw [Nat.add_mod_mod, ← Nat.mod_add_mod]
  have hsum : start % m + (i + (m - start % m)) = i + m := by omega
  rw [hsum, Nat.add_mod_right, Nat.mod_eq_of_lt hi]

variable {κ : Type*} {hash : κ → ℕ} {m : ℕ} {keys : List κ} {seen : List ℕ}

/-- The table holds the keys. -/
structure Table (hash : κ → ℕ) (m : ℕ) (keys : List κ) (seen : List ℕ) : Prop where
  length : seen.length = m
  free : seen.count 0 + keys.length = m
  path : ∀ k key, keys[k]? = some key → ∃ d < m,
    seen.getD ((hash key + d) % m) 0 = k + 1 ∧ ∀ e < d, seen.getD ((hash key + e) % m) 0 ≠ 0

theorem Table.empty (hash : κ → ℕ) (m : ℕ) : Table hash m [] (List.replicate m 0) where
  length := List.length_replicate
  free := by simp
  path k key h := by simp at h

/-- There is a free slot. -/
theorem Table.exists_free (h : Table hash m keys seen) (hlt : keys.length < m) :
    ∃ i < m, seen.getD i 0 = 0 := by
  have hfree := h.free
  have hmem : 0 ∈ seen := List.count_pos_iff.mp (by omega)
  obtain ⟨i, hi, h0⟩ := List.getElem_of_mem hmem
  exact ⟨i, h.length ▸ hi, by rw [List.getD_eq_getElem _ _ hi, h0]⟩

/-- **A free slot where a search for the key has come to takes the key.** -/
theorem Table.insert (h : Table hash m keys seen) {key : κ} {d : ℕ} (hd : d < m)
    (h0 : seen.getD ((hash key + d) % m) 0 = 0)
    (hbefore : ∀ e < d, seen.getD ((hash key + e) % m) 0 ≠ 0) :
    Table hash m (keys ++ [key]) (seen.set ((hash key + d) % m) (keys.length + 1)) := by
  have hm : 0 < m := by omega
  have hslot : (hash key + d) % m < seen.length := by
    rw [h.length]
    exact Nat.mod_lt _ hm
  have hset : ∀ i, (seen.set ((hash key + d) % m) (keys.length + 1)).getD i 0 =
      if (hash key + d) % m = i then keys.length + 1 else seen.getD i 0 := by
    intro i
    rw [List.getD_eq_getElem?_getD, List.getElem?_set, List.getD_eq_getElem?_getD]
    by_cases hi : (hash key + d) % m = i
    · rw [if_pos hi, if_pos hi, if_pos (hi ▸ hslot)]
      rfl
    · rw [if_neg hi, if_neg hi]
  -- A slot that holds a key keeps it.
  have hkeep : ∀ i, seen.getD i 0 ≠ 0 →
      (seen.set ((hash key + d) % m) (keys.length + 1)).getD i 0 = seen.getD i 0 := by
    intro i hi
    rw [hset, if_neg]
    rintro rfl
    exact hi h0
  refine ⟨by rw [List.length_set, h.length], ?_, fun k key' hk => ?_⟩
  · have hget : seen[(hash key + d) % m] = 0 := by rwa [List.getD_eq_getElem _ _ hslot] at h0
    have hpos : 0 < seen.count 0 := List.count_pos_iff.mpr (hget ▸ List.getElem_mem hslot)
    have hfree := h.free
    rw [List.count_set hslot, List.length_append, List.length_singleton, hget]
    simp only [beq_self_eq_true, if_true, Nat.add_one_ne_zero, beq_eq_false_iff_ne.mpr, ne_eq,
      not_false_eq_true, Bool.false_eq_true, if_false]
    omega
  · rcases Nat.lt_or_ge k keys.length with hlt | hge
    · rw [List.getElem?_append_left hlt] at hk
      obtain ⟨e, he, hseen, hbefore'⟩ := h.path k key' hk
      refine ⟨e, he, ?_, fun i hi => ?_⟩
      · rw [hkeep _ (by omega), hseen]
      · rw [hkeep _ (hbefore' i hi)]
        exact hbefore' i hi
    · rw [List.getElem?_append_right hge, List.getElem?_singleton] at hk
      split_ifs at hk with hk0
      obtain rfl := Option.some.inj hk
      refine ⟨d, hd, ?_, fun i hi => ?_⟩
      · rw [hset, if_pos rfl]
        omega
      · rw [hkeep _ (hbefore i hi)]
        exact hbefore i hi

/-- **A search ends, and it finds the key or a free slot for it**, whatever ends it besides a free
slot. It ends at the key if it is one of those that end it. -/
theorem Table.probe (h : Table hash m keys seen) (hlt : keys.length < m) (key : κ)
    (hit : ℕ → Bool) :
    ∃ d < m, Graph.probe (fun slot => seen.getD slot 0 == 0 || hit slot) (fun slot => (slot + 1) % m) m
        (hash key % m) = some ((hash key + d) % m) ∧
      (seen.getD ((hash key + d) % m) 0 = 0 ∨ hit ((hash key + d) % m) = true) ∧
      ∀ e < d, seen.getD ((hash key + e) % m) 0 ≠ 0 ∧ hit ((hash key + e) % m) = false := by
  obtain ⟨i, him, hi⟩ := h.exists_free hlt
  obtain ⟨d, hd, hdi⟩ := exists_steps (hash key) him
  obtain ⟨e, he, hp, hs, hn⟩ := probe_stops (fun slot => seen.getD slot 0 == 0 || hit slot)
    m (hash key) d hd (by rw [hdi, hi]; rfl)
  refine ⟨e, by omega, hp, ?_, fun j hj => ?_⟩
  · simpa only [Bool.or_eq_true, beq_iff_eq] using hs
  · simpa only [Bool.or_eq_false_iff, beq_eq_false_iff_ne] using hn j hj

/-- A search for a key of the list that is stopped by the key does not come to a free slot. -/
theorem Table.found (h : Table hash m keys seen) {key : κ} {k d : ℕ} (hk : keys[k]? = some key)
    (hit : ℕ → Bool) (hhit : ∀ slot, seen.getD slot 0 = k + 1 → hit slot = true)
    (hbefore : ∀ e < d, seen.getD ((hash key + e) % m) 0 ≠ 0 ∧ hit ((hash key + e) % m) = false) :
    seen.getD ((hash key + d) % m) 0 ≠ 0 := by
  obtain ⟨d', -, hseen, hbefore'⟩ := h.path k key hk
  rcases Nat.lt_trichotomy d d' with hlt | rfl | hgt
  · exact hbefore' d hlt
  · omega
  · have := (hbefore d' hgt).2
    rw [hhit _ hseen] at this
    cases this

end ShenRc.Graph
