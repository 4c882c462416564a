import Mathlib.Logic.Relation
import Mathlib.Order.WellFounded
import Mathlib.Data.Set.Finite.Lattice
import Mathlib.Data.Fintype.EquivFin
import Mathlib.Order.RelClasses

/-! # Acyclic relations

A relation is acyclic if no chain of one or more steps leads from a point back to it. The lemmas say
which changes of a relation keep that: a point nothing leads to may change its successors
(`Acyclic.of_no_in`), an edge may be added whose end does not lead to its start
(`Acyclic.add_edges`), and a point on no cycle may come back (`Acyclic.restore`). In an acyclic
relation a finite set whose members all have a predecessor in the set is empty (`Acyclic.eq_empty`),
and following the relation comes to an end (`Acyclic.wellFounded`). -/

namespace ShenRc.Graph

open Relation

variable {α : Type*} {R R' : α → α → Prop}

/-- No chain of one or more steps leads back to where it starts. -/
def Acyclic (R : α → α → Prop) : Prop := ∀ x, ¬ TransGen R x x

theorem Acyclic.mono (h : Acyclic R) (hsub : ∀ x y, R' x y → R x y) : Acyclic R' :=
  fun x hx => h x (TransGen.mono hsub _ _ hx)

/-- A chain back to `x` starts and ends with a step. -/
theorem exists_last {x y : α} (h : TransGen R x y) : ∃ z, R z y := by
  rcases TransGen.tail'_iff.mp h with ⟨z, -, hz⟩
  exact ⟨z, hz⟩

/-- A chain that avoids the start points of the new edges is a chain of the old relation. -/
theorem transGen_of_no_in {a : α} (hin : ∀ x, ¬ R' x a) (hold : ∀ x y, x ≠ a → R' x y → R x y)
    {x y : α} (h : TransGen R' x y) (hx : x ≠ a) : TransGen R x y := by
  induction h with
  | single h => exact .single (hold _ _ hx h)
  | @tail b c hb hc ih =>
    have hba : b ≠ a := by
      rintro rfl
      obtain ⟨z, hz⟩ := exists_last hb
      exact hin z hz
    exact ih.tail (hold _ _ hba hc)

/-- **A point nothing leads to may change its successors.** -/
theorem Acyclic.of_no_in (h : Acyclic R) {a : α} (hin : ∀ x, ¬ R' x a)
    (hold : ∀ x y, x ≠ a → R' x y → R x y) : Acyclic R' := by
  intro x hx
  have hxa : x ≠ a := by
    rintro rfl
    obtain ⟨z, hz⟩ := exists_last hx
    exact hin z hz
  exact h x (transGen_of_no_in hin hold hx hxa)

/-- **Edges may be added out of `u` whose ends do not lead to `u`.** -/
theorem Acyclic.add_edges (h : Acyclic R) {u : α} {T : α → Prop}
    (hnew : ∀ x y, R' x y → R x y ∨ (x = u ∧ T y)) (hT : ∀ y, T y → ¬ ReflTransGen R y u) :
    Acyclic R' := by
  have key : ∀ {x y}, TransGen R' x y →
      TransGen R x y ∨ (ReflTransGen R x u ∧ ∃ z, T z ∧ ReflTransGen R z y) := by
    intro x y hxy
    induction hxy with
    | single hs =>
      rcases hnew _ _ hs with hs | ⟨rfl, hs⟩
      · exact Or.inl (.single hs)
      · exact Or.inr ⟨.refl, _, hs, .refl⟩
    | tail _ hs ih =>
      rcases hnew _ _ hs with hs | ⟨rfl, hs⟩
      · rcases ih with ih | ⟨ih, z, hz, hzb⟩
        · exact Or.inl (ih.tail hs)
        · exact Or.inr ⟨ih, z, hz, hzb.tail hs⟩
      · rcases ih with ih | ⟨-, z, hz, hzb⟩
        · exact Or.inr ⟨ih.to_reflTransGen, _, hs, .refl⟩
        · exact absurd hzb (hT z hz)
  intro x hx
  rcases key hx with hx | ⟨hxu, z, hz, hzx⟩
  · exact h x hx
  · exact hT z hz (hzx.trans hxu)

/-- **A point on no cycle may come back.** -/
theorem Acyclic.restore (h : Acyclic R) {v : α} (hv : ¬ TransGen R' v v)
    (hold : ∀ x y, x ≠ v → y ≠ v → R' x y → R x y) : Acyclic R' := by
  have key : ∀ {x y}, TransGen R' x y → x ≠ v → y ≠ v →
      TransGen R x y ∨ (TransGen R' x v ∧ TransGen R' v y) := by
    intro x y hxy hx
    induction hxy with
    | single hs => exact fun hy => Or.inl (.single (hold _ _ hx hy hs))
    | @tail b c hb hs ih =>
      intro hc
      by_cases hbv : b = v
      · subst hbv
        exact Or.inr ⟨hb, .single hs⟩
      · rcases ih hbv with ih | ⟨h1, h2⟩
        · exact Or.inl (ih.tail (hold _ _ hbv hc hs))
        · exact Or.inr ⟨h1, h2.tail hs⟩
  intro x hxx
  by_cases hx : x = v
  · subst hx; exact hv hxx
  · rcases key hxx hx hx with hR | ⟨h1, h2⟩
    · exact h x hR
    · exact hv (h2.trans h1)

/-- **Backward chains end.** In an acyclic relation a finite set whose members all have a
predecessor in the set is empty. -/
theorem Acyclic.eq_empty (h : Acyclic R) {P : Set α} (hfin : P.Finite)
    (hpred : ∀ y ∈ P, ∃ x ∈ P, R x y) : P = ∅ := by
  by_contra hne
  have : Finite P := hfin
  let S : P → P → Prop := fun x y => TransGen R x.1 y.1
  have hirr : Std.Irrefl S := ⟨fun x => h x.1⟩
  have htr : IsTrans P S := ⟨fun _ _ _ => TransGen.trans⟩
  have hwf : WellFounded S := Finite.wellFounded_of_trans_of_irrefl S
  obtain ⟨x, hx⟩ := Set.nonempty_iff_ne_empty.mpr hne
  obtain ⟨m, -, hm⟩ := hwf.has_min Set.univ ⟨⟨x, hx⟩, trivial⟩
  obtain ⟨z, hz, hzm⟩ := hpred m.1 m.2
  exact hm ⟨z, hz⟩ trivial (.single hzm)

/-- **Forward chains end**, where finitely many points have successors. -/
theorem Acyclic.wellFounded (h : Acyclic R) (hfin : {x | ∃ y, R x y}.Finite) :
    WellFounded (Function.swap R) := by
  have hswap : Acyclic (Function.swap R) := fun x hx => h x (transGen_swap.mp hx)
  have hstep : ∀ x, ¬ Acc (Function.swap R) x → ∃ y, R x y ∧ ¬ Acc (Function.swap R) y := by
    intro x hx
    by_contra hn
    push Not at hn
    exact hx ⟨x, fun y hy => hn y hy⟩
  have hempty := hswap.eq_empty (P := {x | ¬ Acc (Function.swap R) x})
    (hfin.subset fun x hx => (hstep x hx).imp fun y hy => hy.1)
    fun x hx => (hstep x hx).imp fun y hy => ⟨hy.2, hy.1⟩
  refine ⟨fun x => ?_⟩
  by_contra hx
  exact (Set.eq_empty_iff_forall_notMem.mp hempty x) hx

/-- **In a finite set whose members all have predecessors in it, each member is led to by a cycle.** -/
theorem exists_cycle {P : Set α} (hfin : P.Finite) (hpred : ∀ y ∈ P, ∃ x ∈ P, R x y) {a : α}
    (ha : a ∈ P) : ∃ c, TransGen R c c ∧ ReflTransGen R c a := by
  by_contra hn
  push Not at hn
  -- Off the cycles nothing above `a` could be there.
  have hac : Acyclic fun x y => R x y ∧ ReflTransGen R y a := by
    intro x hx
    obtain ⟨z, -, -, hxa⟩ := TransGen.tail'_iff.mp hx
    exact hn x (TransGen.mono (fun _ _ h => h.1) _ _ hx) hxa
  have hempty := hac.eq_empty (P := {y | y ∈ P ∧ ReflTransGen R y a}) (hfin.subset fun y hy => hy.1)
    fun y hy => by
      obtain ⟨x, hx, hxy⟩ := hpred y hy.1
      exact ⟨x, ⟨hx, .head hxy hy.2⟩, hxy, hy.2⟩
  have hmem : a ∈ {y | y ∈ P ∧ ReflTransGen R y a} := ⟨ha, .refl⟩
  rw [hempty] at hmem
  exact hmem

end ShenRc.Graph
