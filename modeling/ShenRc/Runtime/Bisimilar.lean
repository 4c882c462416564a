import ShenRc.Runtime.Equal
import ShenRc.Graph.Worklist
import Mathlib.Data.List.Forall2
import Mathlib.Tactic.SplitIfs

/-! # Bisimilarity by obligations

What `rc_equal` checks of two values is what bisimilarity asks of them, one level deep
(`obligations`): two pairs or two vectors are bisimilar if their children are, all else if
`scalar_equal` says so (`bisimilar_iff`). -/

namespace ShenRc.Runtime

open ShenRc.Graph

namespace Ctx

variable {s : Ctx}

theorem rcType_of_payload {a : Ref} {b : Payload} (h : s.payload? a = some b) :
    s.rcType a = b.type := by
  cases a with
  | imm n => cases h; rfl
  | cell a =>
    simp only [payload?, Option.map_eq_some_iff] at h
    obtain ⟨o, ho, rfl⟩ := h
    simp [rcType, ho]
  | _ => cases h

/-! ### Pairs and vectors -/

theorem structural_iff {a : Ref} : s.structural a = true ↔
    (∃ h t, s.payload? a = some (.pair h t)) ∨ ∃ xs, s.payload? a = some (.vector xs) := by
  cases a with
  | cell a =>
    simp only [structural, rcType, payload?, Bool.or_eq_true, beq_iff_eq]
    cases s.heap a with
    | none => simp
    | some o =>
      cases hb : o.body <;> simp [hb, Payload.type]
  | _ => simp [structural, payload?]

/-- Two values that are compared by their children are two pairs or two vectors. -/
theorem comparable_iff {p : EqualPair} : s.comparable p = true ↔
    (∃ h t k u, s.payload? p.1 = some (.pair h t) ∧ s.payload? p.2 = some (.pair k u)) ∨
    ∃ xs ys, s.payload? p.1 = some (.vector xs) ∧ s.payload? p.2 = some (.vector ys) := by
  simp only [comparable, Bool.and_eq_true, beq_iff_eq, structural_iff]
  constructor
  · rintro ⟨⟨⟨h, t, h1⟩ | ⟨xs, h1⟩, ⟨k, u, h2⟩ | ⟨ys, h2⟩⟩, he⟩
    · exact Or.inl ⟨h, t, k, u, h1, h2⟩
    · rw [rcType_of_payload h1, rcType_of_payload h2] at he
      cases he
    · rw [rcType_of_payload h1, rcType_of_payload h2] at he
      cases he
    · exact Or.inr ⟨xs, ys, h1, h2⟩
  · rintro (⟨h, t, k, u, h1, h2⟩ | ⟨xs, ys, h1, h2⟩)
    · exact ⟨⟨Or.inl ⟨h, t, h1⟩, Or.inl ⟨k, u, h2⟩⟩,
        by rw [rcType_of_payload h1, rcType_of_payload h2]; rfl⟩
    · exact ⟨⟨Or.inr ⟨xs, h1⟩, Or.inr ⟨ys, h2⟩⟩,
        by rw [rcType_of_payload h1, rcType_of_payload h2]; rfl⟩

theorem childPairs_pair {a b h t k u : Ref} (h1 : s.payload? a = some (.pair h t))
    (h2 : s.payload? b = some (.pair k u)) : s.childPairs (a, b) = some [(h, k), (t, u)] := by
  simp only [childPairs, h1, h2]

theorem childPairs_vector {a b : Ref} {xs ys : List Ref} (h1 : s.payload? a = some (.vector xs))
    (h2 : s.payload? b = some (.vector ys)) :
    s.childPairs (a, b) = if xs.length = ys.length then some (xs.zip ys) else none := by
  simp only [childPairs, h1, h2]

/-! ### Scalars -/

/-- **Different values compare equal as scalars if and only if they are equal scalars.** -/
theorem scalarEqual_iff {a b : Ref} (hne : a ≠ b) :
    s.scalarEqual a b = true ↔ SameScalar s a b := by
  rw [scalarEqual, if_neg hne]
  constructor
  · intro h
    split_ifs at h with hnull himm htype
    split at h
    · next m n ha hb => exact .number ha hb h
    · next t u ha hb =>
      simp only [Bool.and_eq_true, beq_iff_eq] at h
      obtain ⟨-, rfl⟩ := h
      exact .string ha hb
    · cases h
  · intro h
    have hnull : ¬ (a = .null ∨ b = .null) := by
      rintro (rfl | rfl)
      · cases h with
        | number ha hb => cases ha
        | string ha hb => cases ha
      · cases h with
        | number ha hb => cases hb
        | string ha hb => cases hb
    have himm : ¬ (a.isImmediate && b.isImmediate) = true := by
      intro hi
      rw [Bool.and_eq_true] at hi
      cases a with
      | imm m =>
        cases b with
        | imm n =>
          cases h with
          | number ha hb he =>
            cases ha
            cases hb
            exact hne (congrArg Ref.imm (by simpa [Num.equal] using he))
          | string ha hb => cases ha
        | _ => exact absurd hi.2 (by simp [Ref.isImmediate])
      | _ => exact absurd hi.1 (by simp [Ref.isImmediate])
    rw [if_neg hnull, if_neg himm]
    cases h with
    | number ha hb he =>
      rw [if_neg (by rw [rcType_of_payload ha, rcType_of_payload hb]; simp [Payload.type])]
      simp only [ha, hb, he]
    | string ha hb =>
      rw [if_neg (by rw [rcType_of_payload ha, rcType_of_payload hb]; simp [Payload.type])]
      simp only [ha, hb, beq_self_eq_true, Bool.and_self]

theorem SameScalar.not_comparable {a b : Ref} (hs : SameScalar s a b) :
    s.comparable (a, b) = false := by
  rw [Bool.eq_false_iff, Ne, comparable_iff]
  rintro (⟨h, t, k, u, h1, -⟩ | ⟨xs, ys, h1, -⟩)
  all_goals
    cases hs with
    | number ha hb => rw [ha] at h1; cases h1
    | string ha hb => rw [ha] at h1; cases h1

/-! ### Obligations -/

/-- What has to be bisimilar for two values to be; `none` if they are not. -/
def obligations (s : Ctx) (p : EqualPair) : Option (List EqualPair) :=
  if p.1 = p.2 then some []
  else if s.comparable p then s.childPairs p
  else if s.scalarEqual p.1 p.2 then some []
  else none

theorem obligations_self (a : Ref) : s.obligations (a, a) = some [] := if_pos rfl

theorem obligations_children {p : EqualPair} (hne : p.1 ≠ p.2) (hc : s.comparable p = true) :
    s.obligations p = s.childPairs p := by rw [obligations, if_neg hne, if_pos hc]

theorem obligations_scalar {p : EqualPair} (hne : p.1 ≠ p.2) (hc : s.comparable p = false) :
    s.obligations p = if s.scalarEqual p.1 p.2 then some [] else none := by
  rw [obligations, if_neg hne, hc, if_neg Bool.false_ne_true]

/-- **Bisimilarity is what the obligations ask for.** -/
theorem bisimilar_iff {a b : Ref} : s.Bisimilar a b ↔ Holds s.obligations (a, b) := by
  constructor
  · rintro ⟨R, hR, hab⟩
    refine ⟨{p | R p.1 p.2}, hab, fun p hp => ?_⟩
    by_cases hne : p.1 = p.2
    · exact ⟨[], if_pos hne, by simp⟩
    rcases hR p.1 p.2 hp with he | hs | ⟨h, t, k, u, h1, h2, hh, ht⟩ | ⟨xs, ys, h1, h2, hall⟩
    · exact absurd he hne
    · exact ⟨[], by rw [obligations_scalar hne hs.not_comparable, (scalarEqual_iff hne).mpr hs]; rfl,
        by simp⟩
    · refine ⟨[(h, k), (t, u)], ?_, ?_⟩
      · rw [obligations_children hne (comparable_iff.mpr (Or.inl ⟨h, t, k, u, h1, h2⟩))]
        exact childPairs_pair h1 h2
      · intro q hq
        simp only [List.mem_cons, List.not_mem_nil, or_false] at hq
        rcases hq with rfl | rfl
        · exact hh
        · exact ht
    · rw [List.forall₂_iff_zip] at hall
      refine ⟨xs.zip ys, ?_, fun q hq => hall.2 hq⟩
      rw [obligations_children hne (comparable_iff.mpr (Or.inr ⟨xs, ys, h1, h2⟩))]
      exact (childPairs_vector h1 h2).trans (if_pos hall.1)
  · intro h
    refine ⟨fun x y => Holds s.obligations (x, y), fun x y hxy => ?_, h⟩
    by_cases hne : x = y
    · exact Or.inl hne
    obtain ⟨l, hl, hq⟩ := hxy.expand_eq
    by_cases hc : s.comparable (x, y) = true
    · rw [obligations_children hne hc] at hl
      rcases comparable_iff.mp hc with ⟨h, t, k, u, h1, h2⟩ | ⟨xs, ys, h1, h2⟩
      · rw [childPairs_pair h1 h2] at hl
        cases hl
        exact Or.inr (Or.inr (Or.inl ⟨h, t, k, u, h1, h2, hq _ (by simp), hq _ (by simp)⟩))
      · rw [childPairs_vector h1 h2] at hl
        split_ifs at hl with hlen
        cases hl
        exact Or.inr (Or.inr (Or.inr ⟨xs, ys, h1, h2,
          List.forall₂_iff_zip.mpr ⟨hlen, fun hm => hq _ hm⟩⟩))
    · rw [obligations_scalar hne (by simpa using hc)] at hl
      split_ifs at hl with hs
      exact Or.inr (Or.inl ((scalarEqual_iff hne).mp hs))

/-! ### The obligations of what the walk meets -/

theorem holds_self (a : Ref) : Holds s.obligations (a, a) :=
  (holds_iff_of_eq (obligations_self a)).mpr (by simp)

/-- Two values that are not compared by their children. -/
theorem holds_scalar {a b : Ref} (hc : s.comparable (a, b) = false) :
    Holds s.obligations (a, b) ↔ s.scalarEqual a b = true := by
  by_cases hne : a = b
  · subst hne
    simp only [holds_self, scalarEqual, if_true]
  · have ho := obligations_scalar (p := (a, b)) hne hc
    by_cases hs : s.scalarEqual a b = true
    · rw [if_pos hs] at ho
      exact iff_of_true ((holds_iff_of_eq ho).mpr (by simp)) hs
    · rw [if_neg hs] at ho
      exact iff_of_false (not_holds ho) hs

/-- **Two pairs are bisimilar if and only if their heads and their tails are.** -/
theorem holds_pair {a b h t k u : Ref} (h1 : s.payload? a = some (.pair h t))
    (h2 : s.payload? b = some (.pair k u)) (hne : a ≠ b) :
    Holds s.obligations (a, b) ↔ Holds s.obligations (h, k) ∧ Holds s.obligations (t, u) := by
  have ho : s.obligations (a, b) = some [(h, k), (t, u)] :=
    (obligations_children hne (comparable_iff.mpr (Or.inl ⟨h, t, k, u, h1, h2⟩))).trans
      (childPairs_pair h1 h2)
  rw [holds_iff_of_eq ho]
  simp only [List.forall_mem_cons, List.not_mem_nil, false_imp_iff, implies_true, and_true]

end Ctx

end ShenRc.Runtime
