import Mathlib.Algebra.BigOperators.Group.Finset.Basic
import Mathlib.Algebra.Order.BigOperators.Group.Finset
import Mathlib.Algebra.Order.Ring.Int
import Mathlib.Tactic.Ring

/-! # Taking a census of a table

A table has slots, some of which are occupied. `total f t n` adds up what the entries in the first `n`
slots are worth, `part f t D` what the entries in the listed slots are worth. A counter that is kept
up to date is compared with a total; these lemmas say how the totals move with the table. -/

namespace ShenRc.Census

variable {β : Type*} {f g : β → ℤ} {t : ℕ → Option β} {n a : ℕ} {D : List ℕ}

/-- What the entry of a slot is worth, nothing for a free slot. -/
def value (f : β → ℤ) (x : Option β) : ℤ := (x.map f).getD 0

@[simp] theorem value_none : value f none = 0 := rfl

@[simp] theorem value_some (x : β) : value f (some x) = f x := rfl

theorem value_nonneg (hf : ∀ x, 0 ≤ f x) (x : Option β) : 0 ≤ value f x := by
  rcases x with _ | x
  · exact le_rfl
  · exact hf x

/-- What the entries of the first `n` slots are worth. -/
def total (f : β → ℤ) (t : ℕ → Option β) (n : ℕ) : ℤ := ∑ a ∈ Finset.range n, value f (t a)

/-- What the entries of the listed slots are worth. -/
def part (f : β → ℤ) (t : ℕ → Option β) (D : List ℕ) : ℤ := (D.map fun a => value f (t a)).sum

@[simp] theorem part_nil : part f t [] = 0 := rfl

@[simp] theorem part_cons : part f t (a :: D) = value f (t a) + part f t D := rfl

/-- **A total moves with the one slot that changes.** -/
theorem total_update (ha : a < n) (x : Option β) :
    total f (Function.update t a x) n + value f (t a) = total f t n + value f x := by
  have hmem := Finset.mem_range.mpr ha
  have hrest : ∑ b ∈ (Finset.range n).erase a, value f (Function.update t a x b) =
      ∑ b ∈ (Finset.range n).erase a, value f (t b) :=
    Finset.sum_congr rfl fun b hb => by rw [Function.update_of_ne (Finset.ne_of_mem_erase hb)]
  unfold total
  rw [← Finset.add_sum_erase _ _ hmem, ← Finset.add_sum_erase _ (fun b => value f (t b)) hmem, hrest,
    Function.update_self]
  ring

/-- A new slot that is free is worth nothing. -/
theorem total_succ (h : t n = none) : total f t (n + 1) = total f t n := by
  unfold total
  rw [Finset.sum_range_succ, h, value_none, add_zero]

theorem part_update (ha : a ∉ D) (x : Option β) :
    part f (Function.update t a x) D = part f t D := by
  unfold part
  congr 1
  refine List.map_congr_left fun b hb => ?_
  have hne : b ≠ a := fun h => ha (h ▸ hb)
  rw [Function.update_of_ne hne]

/-- **A part is worth no more than the whole.** -/
theorem part_le_total (hfg : ∀ x, f x ≤ g x) (hg : ∀ x, 0 ≤ g x) (hD : D.Nodup)
    (hn : ∀ a ∈ D, a < n) : part f t D ≤ total g t n := by
  have hsum : part f t D = ∑ a ∈ D.toFinset, value f (t a) := (List.sum_toFinset _ hD).symm
  have hsub : D.toFinset ⊆ Finset.range n := fun a ha =>
    Finset.mem_range.mpr (hn a (List.mem_toFinset.mp ha))
  have hle : ∀ x : Option β, value f x ≤ value g x := fun x => by
    rcases x with _ | x
    · exact le_rfl
    · exact hfg x
  calc part f t D = ∑ a ∈ D.toFinset, value f (t a) := hsum
    _ ≤ ∑ a ∈ D.toFinset, value g (t a) := Finset.sum_le_sum fun a _ => hle (t a)
    _ ≤ total g t n :=
      Finset.sum_le_sum_of_subset_of_nonneg hsub fun a _ _ => value_nonneg hg (t a)

/-- A total is the sum over the entries. -/
theorem total_eq_sum (f : β → ℤ) (t : ℕ → Option β) (n : ℕ) :
    total f t n = (((List.range n).filterMap t).map f).sum := by
  induction n with
  | zero => rfl
  | succ n ih =>
    have hsucc : total f t (n + 1) = total f t n + value f (t n) := Finset.sum_range_succ ..
    rw [hsucc, ih, List.range_succ, List.filterMap_append, List.map_append, List.sum_append]
    rcases hn : t n with _ | x
    · simp [hn]
    · simp [hn]

end ShenRc.Census
