import ShenRc.Runtime.Handles

/-! # Pairs and vectors keep the invariant

Each operation is followed through its change of the heap. The lemmas have one form: if C code owns
`B` and what the operation takes over, then after the operation it owns `B` and what the operation
returns. An early exit on an error is a case of the same statement.

A pair is rewritten only while C code holds its one reference (`Inv.rewritePair`). A vector is
written while anybody holds it; then the vector is a source, or the new item does not lead back to
it (`Inv.setItem`). -/

namespace ShenRc.Runtime

open Relation ShenRc.Graph

namespace Ctx

variable {π : Policy} {s s' : Ctx} {O B : Own} {work : List ℕ} {P : Set Ref}

/-! ### Pairs -/

theorem rcCons_inv (h : Inv π s O [] P) (hO : NonNeg O) {head tail : Ref} (hh : s.Handle P head)
    (ht : s.Handle P tail) : Inv π (s.rcCons head tail).1 (O + own (s.rcCons head tail).2) [] P := by
  unfold rcCons
  split_ifs with hb
  swap
  · exact h.fail _
  rcases h.alloc hO (.pair head tail) (s.mayReachVector head || s.mayReachVector tail) 0 h.bytes
      (fun v hv => by
        rcases List.mem_cons.mp hv with rfl | hv
        · exact ⟨hh, fun hr => by rw [hr]; rfl⟩
        · rw [List.mem_singleton] at hv
          subst hv
          exact ⟨ht, fun hr => by rw [hr, Bool.or_true]⟩)
      (by simp) (by simp) with ⟨s1, e, hs⟩ | ⟨a, s1, e, hp, hi⟩
  · rw [e]; exact (h.same hs).null
  · rw [e]
    simp only
    have h1 := rcRetain_inv hi (hh.mono hp.live).2 hh.1
    have h2 := rcRetain_inv h1 (v := tail) (fun b hb => by
      rw [live, rcRetain_heap]
      exact hp.live b (ht.2 b hb)) ht.1
    refine h2.eq ?_
    change O - owns [head, tail] + own (.cell a) + own head + own tail = O + own (.cell a)
    rw [owns_cons, owns_singleton]
    abel

theorem rcConsOwned_inv {head tail : Ref} (h : Inv π s (B + owns [head, tail]) [] P) (hB : NonNeg B)
    (hh : s.Handle P head) (ht : s.Handle P tail) :
    Inv π (s.rcConsOwned head tail).1 (B + own (s.rcConsOwned head tail).2) [] P := by
  have e2 : B + owns [head, tail] = B + own tail + own head := by
    rw [owns_cons, owns_singleton]; abel
  have hrel : ∀ {s1 : Ctx}, Same s s1 → Inv π ((s1.rcRelease head).rcRelease tail) B [] P := by
    intro s1 hs
    have h1 := (e2 ▸ h.same hs).release (hB.add (nonNeg_own tail)) hh.1
    exact h1.release hB ht.1
  unfold rcConsOwned
  split_ifs with hb
  swap
  · exact (hrel (Same.refl s)).fail _
  rcases h.alloc (hB.add (nonNeg_owns _)) (.pair head tail)
      (s.mayReachVector head || s.mayReachVector tail) 0 h.bytes
      (fun v hv => by
        rcases List.mem_cons.mp hv with rfl | hv
        · exact ⟨hh, fun hr => by rw [hr]; rfl⟩
        · rw [List.mem_singleton] at hv
          subst hv
          exact ⟨ht, fun hr => by rw [hr, Bool.or_true]⟩)
      (by simp) (by simp) with ⟨s1, e, hs⟩ | ⟨a, s1, e, hp, hi⟩
  · rw [e]; exact (hrel hs).null
  · rw [e]
    refine hi.eq ?_
    change B + owns [head, tail] - owns [head, tail] + own (.cell a) = B + own (.cell a)
    rw [add_sub_cancel_right]

theorem asPair_some {v : Ref} {a : ℕ} {o : Obj} {h t : Ref} (e : s.asPair v = some (a, o, h, t)) :
    v = .cell a ∧ s.heap a = some o ∧ o.body = .pair h t := by
  unfold asPair at e
  split at e
  · split at e
    · split at e
      · simp only [Option.some.injEq, Prod.mk.injEq] at e
        obtain ⟨rfl, rfl, rfl, rfl⟩ := e
        exact ⟨rfl, ‹_›, ‹_›⟩
      · exact absurd e (by simp)
    · exact absurd e (by simp)
  · exact absurd e (by simp)

/-- The plan that hangs off a pair, `null` if there is none. -/
def pairPlan (o : Obj) : Ref := (o.plan.map PlanEntry.plan).getD .null

theorem owns_pair_edges {o : Obj} {h t : Ref} (hb : o.body = .pair h t) {r : Ref} (hr : r.isHeap) :
    owns o.edges r = (own h + own t + own (pairPlan o)) r := by
  unfold Obj.edges pairPlan
  rw [hb]
  cases o.plan with
  | none =>
    simp only [owns_cons, owns_nil, Pi.add_apply, Option.map_none, Option.getD_none, own_null hr,
      add_zero]
  | some e =>
    simp only [Option.map_some, Option.getD_some]
    split_ifs with he
    · simp only [owns_cons, owns_nil, Pi.add_apply, he, own_null hr, add_zero]
    · simp only [owns_cons, owns_nil, Pi.add_apply, Pi.zero_apply]
      ring

theorem pair_edges {o : Obj} {h t : Ref} (hb : o.body = .pair h t) :
    h ∈ o.edges ∧ t ∈ o.edges ∧ (pairPlan o ≠ .null → pairPlan o ∈ o.edges) := by
  unfold Obj.edges pairPlan
  rw [hb]
  cases o.plan with
  | none => simp
  | some e =>
    simp only [Option.map_some, Option.getD_some]
    split_ifs with he
    · simp [he]
    · simp

/-- The fields and the plan of a pair are handles. -/
theorem Inv.handle_pair (h : Inv π s O work P) (hO : NonNeg O) {a : ℕ} {o : Obj} {hd tl : Ref}
    (ho : s.heap a = some o) (hb : o.body = .pair hd tl) :
    s.Handle P hd ∧ s.Handle P tl ∧ s.Handle P (pairPlan o) := by
  obtain ⟨h1, h2, h3⟩ := pair_edges hb
  rw [← edges_of_some ho] at h1 h2 h3
  refine ⟨h.handle_edge hO h1, h.handle_edge hO h2, ?_⟩
  by_cases hn : pairPlan o = .null
  · rw [hn]
    refine ⟨fun hp => ?_, fun b hb => by cases hb⟩
    obtain ⟨-, -, b, -, -, -, hb, -⟩ := h.priv _ hp
    cases hb
  · exact h.handle_edge hO (h3 hn)

/-- **A pair that only C code holds may be rewritten.** -/
theorem Inv.rewritePair (h : Inv π s O [] P) (hO : NonNeg O) {a : ℕ} {o : Obj} {hd tl : Ref}
    (ho : s.heap a = some o) (hb : o.body = .pair hd tl) (h0 : s.held (.cell a) = 0)
    (hpa : Ref.cell a ∉ P) (hd' tl' : Ref) (r : Bool)
    (hne : hd' ≠ .cell a ∧ tl' ≠ .cell a) (hh : hd' ∉ P ∧ tl' ∉ P)
    (hr : s.mayReachVector hd' = true ∨ s.mayReachVector tl' = true → r = true)
    (hs : s'.toStore = { s.toStore with
      heap := Function.update s.heap a
        (some { o with body := .pair hd' tl', reachesVector := r, plan := none }) }) :
    Inv π s' (O + own hd + own tl + own (pairPlan o) - own hd' - own tl') [] P := by
  have hin := h.no_edge h0
  have hedges : ({ o with body := .pair hd' tl', reachesVector := r, plan := none } : Obj).edges =
      [hd', tl'] := rfl
  have hself : Ref.cell a ∉ [hd', tl'] := by
    simp only [List.mem_cons, List.not_mem_nil, or_false, not_or]
    exact ⟨fun e => hne.1 e.symm, fun e => hne.2 e.symm⟩
  have key := h.rewrite ho hs (fun _ => Or.inr hin)
    (fun w _ hw hm => by
      rw [hedges] at hw
      simp only [List.mem_cons, List.not_mem_nil, or_false] at hw
      refine hr ?_
      rcases hw with hw | hw
      · exact Or.inl (hw ▸ hm)
      · exact Or.inr (hw ▸ hm))
    (fun items hi => by simp at hi)
    (fun hsrc => by
      obtain ⟨o', items, ho', hb'⟩ := h.srcVec a hsrc
      rw [ho] at ho'
      cases ho'
      rw [hb] at hb'
      cases hb')
    (fun t g f hi => by simp at hi)
    (by have := h.bytes; simp only [extraBytes, hb]; omega)
    (h.acyc_unique hs hin hself)
    (h.plans_unique hO (by rw [hs]) hin fun _ => rfl) hpa
    (fun v hv => by
      rcases hv with hv | hv
      · rw [hedges] at hv
        simp only [List.mem_cons, List.not_mem_nil, or_false] at hv
        rcases hv with rfl | rfl
        · exact hh.1
        · exact hh.2
      · simp [Obj.slots] at hv)
  refine key.congr fun v hv => ?_
  have e1 : o.slots = [] := by simp [Obj.slots, hb]
  have e2 : ({ o with body := .pair hd' tl', reachesVector := r, plan := none } : Obj).slots = [] :=
    rfl
  rw [hedges, e1, e2]
  simp only [Pi.add_apply, Pi.sub_apply, owns_pair_edges hb hv, owns_cons, owns_nil, Pi.zero_apply]
  ring

theorem setPair_toStore {a : ℕ} {o : Obj} (ho : s.heap a = some o) (hd tl : Ref) (r : Bool) :
    (s.setPair a hd tl r).toStore = { s.toStore with
      heap := Function.update s.heap a (some { o with body := .pair hd tl, reachesVector := r }) } := by
  unfold setPair modify
  rw [ho]
  rfl

theorem planRemove_spec {a : ℕ} {o : Obj} (ho : s.heap a = some o) :
    (s.planRemove a).2 = pairPlan o ∧ (s.planRemove a).1.toStore = { s.toStore with
      heap := Function.update s.heap a (some { o with plan := none }) } := by
  unfold planRemove pairPlan
  rw [ho]
  simp only
  cases hp : o.plan with
  | none =>
    refine ⟨rfl, ?_⟩
    have : ({ o with plan := none } : Obj) = o := by cases o; simp_all
    rw [this, ← ho, Function.update_eq_self]
  | some e => exact ⟨rfl, rfl⟩

/-- The flags after `plan_remove`. -/
theorem planRemove_reach {a : ℕ} {o : Obj} (ho : s.heap a = some o) (v : Ref) :
    (s.planRemove a).1.mayReachVector v = s.mayReachVector v := by
  have e : (s.planRemove a).1.heap = Function.update s.heap a (some { o with plan := none }) :=
    congrArg Store.heap (planRemove_spec ho).2
  cases v with
  | cell b =>
    simp only [mayReachVector, e]
    by_cases hb : b = a
    · subst hb; simp [ho]
    · simp [hb]
  | _ => rfl

theorem planRemove_setPair {a : ℕ} {o : Obj} (ho : s.heap a = some o) (hd tl : Ref) (r : Bool) :
    ((s.planRemove a).1.setPair a hd tl r).toStore = { s.toStore with
      heap := Function.update s.heap a
        (some { o with body := .pair hd tl, reachesVector := r, plan := none }) } := by
  have h1 := (planRemove_spec ho).2
  have h2 : (s.planRemove a).1.heap a = some { o with plan := none } := by rw [h1]; simp
  rw [setPair_toStore h2, h1]
  simp

/-- Releasing three values that C code owns beside `B`. -/
theorem Inv.release3 {u v w : Ref} (h : Inv π s (B + own u + own v + own w) [] P) (hB : NonNeg B)
    (hu : u ∉ P) (hv : v ∉ P) (hw : w ∉ P) :
    Inv π (((s.rcRelease u).rcRelease v).rcRelease w) B [] P := by
  have e1 : B + own u + own v + own w = B + own w + own v + own u := by abel
  have h1 := (h.eq e1).release ((hB.add (nonNeg_own w)).add (nonNeg_own v)) hu
  have h2 := h1.release (hB.add (nonNeg_own w)) hv
  exact h2.release hB hw

/-- The common part of the two reuse operations: the candidate is rewritten in place. -/
theorem Inv.reuse {a : ℕ} {o : Obj} {oldHead oldTail head tail : Ref}
    (h : Inv π s (B + own (.cell a) + own head + own tail) [] P) (hB : NonNeg B)
    (ho : s.heap a = some o) (hb : o.body = .pair oldHead oldTail) (h1 : s.refs (.cell a) = 1 ∨
      s.held (.cell a) = 0) (hpa : Ref.cell a ∉ P)
    (hh : s.Handle P head ∧ head ≠ .cell a) (ht : s.Handle P tail ∧ tail ≠ .cell a) :
    let r := s.planRemove a
    let s1 := r.1.setPair a head tail (r.1.mayReachVector head || r.1.mayReachVector tail)
    Inv π (((s1.rcRelease oldHead).rcRelease oldTail).rcRelease r.2) (B + own (.cell a)) [] P := by
  intro r s1
  have hBa := hB.add (nonNeg_own (.cell a))
  have hO : NonNeg (B + own (.cell a) + own head + own tail) :=
    (hBa.add (nonNeg_own head)).add (nonNeg_own tail)
  have h0 : s.held (.cell a) = 0 := by
    rcases h1 with h1 | h1
    · refine (h.unique h1 ?_).1
      have e1 := hB (.cell a) trivial
      have e2 := nonNeg_own head (.cell a) trivial
      have e3 := nonNeg_own tail (.cell a) trivial
      simp only [Pi.add_apply, own_self]
      omega
    · exact h1
  have hr : Inv π s1 _ [] P := h.rewritePair hO ho hb h0 hpa head tail
    (r.1.mayReachVector head || r.1.mayReachVector tail) ⟨hh.2, ht.2⟩ ⟨hh.1.1, ht.1.1⟩
    (by
      rw [planRemove_reach ho, planRemove_reach ho]
      rintro (e | e) <;> simp [e])
    (planRemove_setPair ho _ _ _)
  obtain ⟨k1, k2, k3⟩ := h.handle_pair hO ho hb
  have e : r.2 = pairPlan o := (planRemove_spec ho).1
  rw [e]
  refine (hr.eq ?_).release3 hBa k1.1 k2.1 k3.1
  abel

theorem rcConsReuse_inv {candidate head tail : Ref} (h : Inv π s (B + own candidate) [] P)
    (hB : NonNeg B) (hc : s.Handle P candidate) (hh : s.Handle P head) (ht : s.Handle P tail) :
    Inv π (s.rcConsReuse candidate head tail).1 (B + own (s.rcConsReuse candidate head tail).2)
      [] P := by
  have hO : NonNeg (B + own candidate) := hB.add (nonNeg_own _)
  have miss : Inv π ((s.rcCons head tail).1.rcRelease candidate) (B + own (s.rcCons head tail).2)
      [] P := by
    have h1 := rcCons_inv h hO hh ht
    refine Inv.release (h1.eq ?_) (hB.add (nonNeg_own _)) hc.1
    abel
  unfold rcConsReuse
  split
  · exact (h.release hB hc.1).fail _
  · split
    · rename_i a o oldHead oldTail e
      obtain ⟨rfl, ho, hb⟩ := asPair_some e
      split_ifs with h2
      · obtain ⟨h3, h4, h5⟩ := h2
        have k1 := rcRetain_inv h hh.2 hh.1
        have k2 := rcRetain_inv k1 (v := tail) (fun b hb => by
          rw [live, rcRetain_heap]
          exact ht.2 b hb) ht.1
        have hheap : ((s.rcRetain head).rcRetain tail).heap = s.heap := by
          rw [rcRetain_heap, rcRetain_heap]
        have hl : ∀ b, s.live b → ((s.rcRetain head).rcRetain tail).live b := fun b hb => by
          rwa [live, hheap]
        have h0 := (h.unique h3 (by
          have := hB (.cell a) trivial
          rw [Pi.add_apply, own_self]
          omega)).1
        have h0' : ((s.rcRetain head).rcRetain tail).held (.cell a) = 0 := by
          rw [← h0]
          have hst : ∀ (s : Ctx) (v : Ref), (s.rcRetain v).size = s.size ∧
              (s.rcRetain v).roots = s.roots := fun s v => by
            unfold rcRetain; split_ifs <;> exact ⟨rfl, rfl⟩
          refine held_congr ?_ ?_ fun b _ => ?_
          · rw [(hst _ _).1, (hst _ _).1]
          · rw [(hst _ _).2, (hst _ _).2]
          · unfold heldBy edges slots; rw [hheap]
        exact k2.reuse hB (by rw [hheap]; exact ho) hb (Or.inr h0') hc.1
          ⟨hh.mono hl, fun e => h4 e.symm⟩ ⟨ht.mono hl, fun e => h5 e.symm⟩
      · exact miss
    · exact miss

theorem rcConsReuseOwned_inv {candidate head tail : Ref}
    (h : Inv π s (B + owns [candidate, head, tail]) [] P) (hB : NonNeg B)
    (hc : s.Handle P candidate) (hh : s.Handle P head) (ht : s.Handle P tail) :
    Inv π (s.rcConsReuseOwned candidate head tail).1
      (B + own (s.rcConsReuseOwned candidate head tail).2) [] P := by
  have miss : Inv π ((s.rcConsOwned head tail).1.rcRelease candidate)
      (B + own (s.rcConsOwned head tail).2) [] P := by
    have e : B + owns [candidate, head, tail] = B + own candidate + owns [head, tail] := by
      rw [owns_cons candidate, add_assoc]
    have h1 := rcConsOwned_inv (h.eq e) (hB.add (nonNeg_own _)) hh ht
    refine Inv.release (h1.eq ?_) (hB.add (nonNeg_own _)) hc.1
    abel
  unfold rcConsReuseOwned
  split
  · rename_i a o oldHead oldTail e
    obtain ⟨rfl, ho, hb⟩ := asPair_some e
    split_ifs with h2
    · obtain ⟨h3, h4, h5, -, -⟩ := h2
      refine Inv.reuse (h.eq ?_) hB ho hb (Or.inl h3) hc.1 ⟨hh, fun e => h4 e.symm⟩
        ⟨ht, fun e => h5 e.symm⟩
      rw [owns_cons, owns_cons, owns_singleton]
      abel
    · exact miss
  · exact miss

/-- A pair that no cell holds, without a plan, gets new fields. -/
theorem Inv.setPair {a : ℕ} {o : Obj} {hd tl : Ref} (h : Inv π s O [] P)
    (hO : NonNeg O) (ho : s.heap a = some o) (hb : o.body = .pair hd tl) (hn : o.plan = none)
    (h1 : s.refs (.cell a) = 1) (h2 : 1 ≤ O (.cell a)) (hpa : Ref.cell a ∉ P)
    (hd' tl' : Ref) (r : Bool)
    (hne : hd' ≠ .cell a ∧ tl' ≠ .cell a) (hh : hd' ∉ P ∧ tl' ∉ P)
    (hr : s.mayReachVector hd' = true ∨ s.mayReachVector tl' = true → r = true) :
    Inv π (s.setPair a hd' tl' r) (O + own hd + own tl - own hd' - own tl') [] P := by
  have e : ({ o with body := .pair hd' tl', reachesVector := r, plan := none } : Obj) =
      { o with body := .pair hd' tl', reachesVector := r } := by rw [← hn]
  have : Inv π (s.setPair a hd' tl' r) _ [] P :=
    h.rewritePair hO ho hb (h.unique h1 h2).1 hpa hd' tl' r hne hh hr
      (by rw [e]; exact setPair_toStore ho _ _ _)
  refine this.congr fun v hv => ?_
  have : pairPlan o = .null := by simp [pairPlan, hn]
  simp only [Pi.add_apply, Pi.sub_apply, this, own_null hv]
  ring

theorem nil_not_priv (h : Inv π s O work P) : Ref.nil ∉ P := by
  intro hp
  obtain ⟨-, -, b, -, -, -, hb, -⟩ := h.priv _ hp
  cases hb

/-- A pair does not hold itself. -/
theorem Inv.field_ne (h : Inv π s O work P) {a : ℕ} (h0 : s.held (.cell a) = 0) {r : Ref} {u : ℕ}
    (hr : r ∈ s.edges u) : r ≠ .cell a := by
  rintro rfl
  exact h.no_edge h0 u hr

theorem rcPairTakeUnique_inv {pair : Ref} (h : Inv π s O [] P) (hO : NonNeg O)
    (hp : s.Handle P pair) (hown : pair.isHeap → 1 ≤ O pair) (first : Bool) :
    Inv π (s.rcPairTakeUnique pair first).1 (O + own (s.rcPairTakeUnique pair first).2) [] P := by
  unfold rcPairTakeUnique
  split
  swap
  · exact h.null
  rename_i a o hd tl e
  obtain ⟨rfl, ho, hb⟩ := asPair_some e
  simp only
  split
  · exact h.null
  rename_i hc
  simp only [not_or, ne_eq, Decidable.not_not, Option.not_isSome_iff_eq_none] at hc
  obtain ⟨h1, hn, -, -⟩ := hc
  have h2 : 1 ≤ O (.cell a) := hown trivial
  have h0 := (h.unique h1 h2).1
  obtain ⟨m1, m2, -⟩ := pair_edges hb
  rw [← edges_of_some ho] at m1 m2
  have hflag : ∀ v, v ∈ s.edges a → s.mayReachVector v = true → o.reachesVector = true := by
    intro v hv hr
    cases v with
    | cell w =>
      have := h.flags a w hv hr
      simpa [mayReachVector, ho] using this
    | _ => simp [mayReachVector] at hr
  cases first with
  | true =>
    refine (h.setPair hO ho hb hn h1 h2 hp.1 .nil tl o.reachesVector
      ⟨by simp, h.field_ne h0 m2⟩ ⟨nil_not_priv h, (h.handle_edge hO m2).1⟩ ?_).congr fun r hr => ?_
    · rintro (hr | hr)
      · simp [mayReachVector] at hr
      · exact hflag tl m2 hr
    · simp only [Pi.add_apply, Pi.sub_apply, own_nil hr, pick, if_true]
      ring
  | false =>
    refine (h.setPair hO ho hb hn h1 h2 hp.1 hd .nil o.reachesVector
      ⟨h.field_ne h0 m1, by simp⟩ ⟨(h.handle_edge hO m1).1, nil_not_priv h⟩ ?_).congr fun r hr => ?_
    · rintro (hr | hr)
      · exact hflag hd m1 hr
      · simp [mayReachVector] at hr
    · simp only [Pi.add_apply, Pi.sub_apply, own_nil hr, pick, Bool.false_eq_true, if_false]
      ring

theorem rcPairTakeLast_inv {pair : Ref} (h : Inv π s (B + own pair) [] P) (hB : NonNeg B)
    (hp : s.Handle P pair) (first : Bool) :
    Inv π (s.rcPairTakeLast pair first).1
      (B + own (s.rcPairTakeLast pair first).2.1 + own (s.rcPairTakeLast pair first).2.2) [] P := by
  have hO : NonNeg (B + own pair) := hB.add (nonNeg_own _)
  have same : Inv π s (B + own .null + own pair) [] P := by
    refine h.congr fun r hr => ?_
    simp only [Pi.add_apply, own_null hr]
    ring
  unfold rcPairTakeLast
  split
  swap
  · exact same
  rename_i a o hd tl e
  obtain ⟨rfl, ho, hb⟩ := asPair_some e
  obtain ⟨k1, k2, -⟩ := h.handle_pair hO ho hb
  simp only
  split
  · exact same
  split
  · rename_i hc
    obtain ⟨h1, hn⟩ := hc
    have h2 : 1 ≤ (B + own (.cell a)) (.cell a) := by
      have := hB (.cell a) trivial
      rw [Pi.add_apply, own_self]
      omega
    have hset := h.setPair hO ho hb (Option.isNone_iff_eq_none.mp hn) h1 h2 hp.1 .nil .nil false
      ⟨by simp, by simp⟩ ⟨nil_not_priv h, nil_not_priv h⟩ (by simp [mayReachVector])
    cases first with
    | true =>
      have h3 : Inv π (s.setPair a .nil .nil false) (B + own hd + own (.cell a) + own tl) [] P := by
        refine hset.congr fun r hr => ?_
        simp only [Pi.add_apply, Pi.sub_apply, own_nil hr]
        ring
      exact h3.release ((hB.add (nonNeg_own _)).add (nonNeg_own _)) k2.1
    | false =>
      have h3 : Inv π (s.setPair a .nil .nil false) (B + own tl + own (.cell a) + own hd) [] P := by
        refine hset.congr fun r hr => ?_
        simp only [Pi.add_apply, Pi.sub_apply, own_nil hr]
        ring
      exact h3.release ((hB.add (nonNeg_own _)).add (nonNeg_own _)) k1.1
  · have hv : s.Handle P (pick first hd tl) := by
      cases first
      · exact k2
      · exact k1
    have h3 := rcRetain_inv h hv.2 hv.1
    have e1 : B + own (.cell a) + own (pick first hd tl) =
        B + own (pick first hd tl) + own (.cell a) := by abel
    exact ((h3.eq e1).release (hB.add (nonNeg_own _)) hp.1).null

theorem rcPairTakeTailReuse_inv {candidate : Ref} (h : Inv π s (B + own candidate) [] P)
    (hB : NonNeg B) (hc : s.Handle P candidate) :
    Inv π (s.rcPairTakeTailReuse candidate).1
      (B + own (s.rcPairTakeTailReuse candidate).2.1 + own (s.rcPairTakeTailReuse candidate).2.2)
      [] P := by
  have hO : NonNeg (B + own candidate) := hB.add (nonNeg_own _)
  unfold rcPairTakeTailReuse
  split
  swap
  · exact (((h.release hB hc.1).same (same_rcError _ _)).null).null
  rename_i a o hd tl e
  obtain ⟨rfl, ho, hb⟩ := asPair_some e
  obtain ⟨k1, k2, k3⟩ := h.handle_pair hO ho hb
  split
  · rename_i h1
    have h0 := (h.unique h1 (by
      have := hB (.cell a) trivial
      rw [Pi.add_apply, own_self]
      omega)).1
    have hset : Inv π ((s.planRemove a).1.setPair a .nil .nil false) _ [] P :=
      h.rewritePair hO ho hb h0 hc.1 .nil .nil false ⟨by simp, by simp⟩
        ⟨nil_not_priv h, nil_not_priv h⟩ (by simp [mayReachVector]) (planRemove_setPair ho _ _ _)
    have hBt := (hB.add (nonNeg_own tl)).add (nonNeg_own (.cell a))
    have h3 : Inv π ((s.planRemove a).1.setPair a .nil .nil false)
        (B + own tl + own (.cell a) + own (pairPlan o) + own hd) [] P := by
      refine hset.congr fun r hr => ?_
      simp only [Pi.add_apply, Pi.sub_apply, own_nil hr]
      ring
    have h4 := h3.release (hBt.add (nonNeg_own _)) k1.1
    have e : (s.planRemove a).2 = pairPlan o := (planRemove_spec ho).1
    simp only [e]
    exact h4.release hBt k3.1
  · refine (rcRetain_inv h k2.2 k2.1).eq ?_
    simp only
    abel

theorem rcHead_inv (h : Inv π s O [] P) (hO : NonNeg O) (v : Ref) :
    Inv π (s.rcHead v).1 (O + own (s.rcHead v).2) [] P := by
  unfold rcHead
  split
  · rename_i a o hd tl e
    obtain ⟨rfl, ho, hb⟩ := asPair_some e
    obtain ⟨k1, -, -⟩ := h.handle_pair hO ho hb
    exact rcRetain_inv h k1.2 k1.1
  · exact h.fail _

theorem rcTail_inv (h : Inv π s O [] P) (hO : NonNeg O) (v : Ref) :
    Inv π (s.rcTail v).1 (O + own (s.rcTail v).2) [] P := by
  unfold rcTail
  split
  · rename_i a o hd tl e
    obtain ⟨rfl, ho, hb⟩ := asPair_some e
    obtain ⟨-, k2, -⟩ := h.handle_pair hO ho hb
    exact rcRetain_inv h k2.2 k2.1
  · exact h.fail _

/-! ### Vectors -/

theorem owns_replicate_nil (n : ℕ) {r : Ref} (hr : r.isHeap) : owns (List.replicate n .nil) r = 0 := by
  refine owns_zero fun hm => ?_
  rw [List.eq_of_mem_replicate hm] at hr
  exact hr

theorem rcVector_inv (h : Inv π s O [] P) (hO : NonNeg O) (n : ℕ) :
    Inv π (s.rcVector n).1 (O + own (s.rcVector n).2) [] P := by
  have h1 := h.same (same_mallocPayload s (n * ptrBytes))
  unfold rcVector
  split
  · exact h.fail _
  simp only
  split
  swap
  · exact h1.fail _
  rename_i hm
  have hkids : (Ctx.fresh (.vector (List.replicate n .nil)) true).edges = List.replicate n .nil := rfl
  rcases h1.alloc hO (.vector (List.replicate n .nil)) true (n * ptrBytes)
      (by simpa [extraBytes] using mallocPayload_fits h hm)
      (fun v hv => by
        rw [hkids] at hv
        rw [List.eq_of_mem_replicate hv]
        exact ⟨⟨nil_not_priv h, fun b hb => by cases hb⟩, fun _ => rfl⟩)
      (by simp) (fun _ _ => rfl) with ⟨s2, e, hs2⟩ | ⟨a, s2, e, -, hi⟩
  · rw [e]; exact (h1.same hs2).null
  · rw [e]
    refine hi.congr fun r hr => ?_
    rw [hkids]
    simp only [Pi.add_apply, Pi.sub_apply, owns_replicate_nil n hr]
    ring

theorem asVector_some {v : Ref} {a : ℕ} {items : List Ref} (e : s.asVector v = some (a, items)) :
    v = .cell a ∧ ∃ o, s.heap a = some o ∧ o.body = .vector items := by
  unfold asVector at e
  split at e
  · split at e
    · split at e
      · simp only [Option.some.injEq, Prod.mk.injEq] at e
        obtain ⟨rfl, rfl⟩ := e
        exact ⟨rfl, _, ‹_›, ‹_›⟩
      · exact absurd e (by simp)
    · exact absurd e (by simp)
  · exact absurd e (by simp)

theorem vector_edges {o : Obj} {items : List Ref} (hb : o.body = .vector items) :
    o.edges = items := by simp [Obj.edges, hb]

theorem rcVectorGet_inv (h : Inv π s O [] P) (hO : NonNeg O) (v : Ref) (i : ℕ) :
    Inv π (s.rcVectorGet v i).1 (O + own (s.rcVectorGet v i).2) [] P := by
  unfold rcVectorGet
  split
  · rename_i a items e
    obtain ⟨rfl, o, ho, hb⟩ := asVector_some e
    split
    · rename_i item hi
      have hm : item ∈ s.edges a := by
        rw [edges_of_some ho, vector_edges hb]
        exact List.mem_of_getElem? hi
      have hk := h.handle_edge hO hm
      exact rcRetain_inv h hk.2 hk.1
    · exact h.fail _
  · exact h.fail _

/-- Replacing an entry of a list. -/
theorem owns_set {items : List Ref} {i : ℕ} {old : Ref} (item : Ref) (hi : items[i]? = some old) :
    owns (items.set i item) + own old = owns items + own item := by
  induction items generalizing i with
  | nil => simp at hi
  | cons x xs ih =>
    cases i with
    | zero =>
      simp only [List.getElem?_cons_zero, Option.some.injEq] at hi
      subst hi
      rw [List.set_cons_zero, owns_cons, owns_cons]
      abel
    | succ i =>
      rw [List.getElem?_cons_succ] at hi
      rw [List.set_cons_succ, owns_cons, owns_cons, add_assoc, ih hi, add_assoc]

/-- **Writing an item of a vector.** Either the vector is a source, or the item does not lead back
to it. -/
theorem Inv.setItem (h : Inv π s O [] P) (hO : NonNeg O) {a i : ℕ} {o : Obj} {items : List Ref}
    {old item : Ref} (ho : s.heap a = some o) (hb : o.body = .vector items)
    (hi : items[i]? = some old) (hpa : Ref.cell a ∉ P) (hk : s.Handle P item)
    (hsafe : a ∈ s.sources ∨ ∀ w, item = .cell w → ¬ ReflTransGen s.FreeEdge w a) :
    Inv π (s.modify a fun o => { o with body := .vector (items.set i item) })
      (O + own old - own item) [] P := by
  have hs : (s.modify a fun o => { o with body := .vector (items.set i item) }).toStore =
      { s.toStore with
        heap := Function.update s.heap a
          (some { o with body := .vector (items.set i item) }) } := by
    unfold modify; rw [ho]; rfl
  generalize (s.modify a fun o => { o with body := .vector (items.set i item) }) = s' at hs ⊢
  have hv := h.vec a o items ho hb
  have hedges : ({ o with body := .vector (items.set i item) } : Obj).edges = items.set i item := rfl
  have hmem : ∀ {r}, r ∈ items.set i item → r = item ∨ r ∈ items := fun {r} hr =>
    (List.mem_or_eq_of_mem_set hr).symm
  have hacyc : Acyclic s'.FreeEdge := by
    rcases hsafe with hsrc | hsafe
    · exact h.acyc_source hs hsrc
    · have hsources : s'.sources = s.sources := by rw [hs]
      have hheap : s'.heap = Function.update s.heap a
        (some { o with body := .vector (items.set i item) }) := by rw [hs]
      refine h.acyc.add_edges (u := a) (T := fun w => item = .cell w) (fun x y hf => ?_) hsafe
      obtain ⟨he, hx, hy⟩ := hf
      rw [hsources] at hx hy
      rcases edge_of_update hheap he with ⟨rfl, hm⟩ | ⟨-, he⟩
      · rw [hedges] at hm
        rcases hmem hm with hm | hm
        · exact Or.inr ⟨rfl, hm.symm⟩
        · refine Or.inl ⟨?_, hx, hy⟩
          rw [Edge, edges_of_some ho, vector_edges hb]
          exact hm
      · exact Or.inl ⟨he, hx, hy⟩
  have hkeep : o.Keeps { o with body := .vector (items.set i item) } :=
    ⟨rfl, fun hd tl hp => absurd (hb.symm.trans hp) (by simp),
      fun _ hr => absurd (hv.symm.trans hr) (by simp)⟩
  have hnop : s.NoPlan a := by
    intro p op e hop hpair he hq
    obtain ⟨oq, c, hoq, hbq, -⟩ := h.plans p a op e hop hpair he hq
    rw [ho] at hoq
    cases hoq
    rw [hb] at hbq
    cases hbq
  have key := h.rewrite ho hs (fun _ => Or.inl hv)
    (fun w _ _ _ => hv) (fun _ _ => hv) (fun _ => ⟨_, rfl⟩) (fun t g f hi => by simp at hi)
    (by have := h.bytes; simp only [extraBytes, hb, List.length_set]; omega)
    hacyc
    (h.plans_keep hO ho (by rw [hs]) hkeep (Or.inr hnop) fun q e hp _ _ => by
      obtain ⟨hd, tl, hp⟩ := hp
      cases hp)
    hpa
    (fun r hr => by
      rcases hr with hr | hr
      · rw [hedges] at hr
        rcases hmem hr with rfl | hr
        · exact hk.1
        · refine h.not_priv (u := a) (Or.inl ?_)
          rw [edges_of_some ho, vector_edges hb]
          exact hr
      · simp [Obj.slots] at hr)
  refine key.eq ?_
  have e1 : o.slots = [] := by simp [Obj.slots, hb]
  have e2 : ({ o with body := .vector (items.set i item) } : Obj).slots = [] := rfl
  rw [hedges, vector_edges hb, e1, e2, owns_nil, add_zero, sub_zero]
  have e3 := owns_set item hi
  have e4 : owns (items.set i item) = owns items + own item - own old := by rw [← e3]; abel
  rw [e4]
  abel

/-- Writing an item and releasing the one it replaces. -/
theorem Inv.writeItem (h : Inv π s O [] P) (hO : NonNeg O) {a i : ℕ} {o : Obj} {items : List Ref}
    {old item : Ref} (ho : s.heap a = some o) (hb : o.body = .vector items)
    (hi : items[i]? = some old) (hpa : Ref.cell a ∉ P) (hk : s.Handle P item)
    (hsafe : a ∈ s.sources ∨ ∀ w, item = .cell w → ¬ ReflTransGen s.Edge w a) :
    Inv π (((s.rcRetain item).modify a fun o =>
      { o with body := .vector (items.set i item) }).rcRelease old) O [] P := by
  have hold : s.Handle P old := h.handle_edge hO (u := a) (by
    rw [edges_of_some ho, vector_edges hb]
    exact List.mem_of_getElem? hi)
  have h1 := rcRetain_inv h hk.2 hk.1
  have hst : (s.rcRetain item).heap = s.heap ∧ (s.rcRetain item).sources = s.sources := by
    unfold rcRetain; split <;> exact ⟨rfl, rfl⟩
  have hedge : ∀ u w, (s.rcRetain item).FreeEdge u w → s.Edge u w := fun u w hf => by
    have := hf.1
    rwa [Edge, edges, hst.1] at this
  have h2 := h1.setItem (hO.add (nonNeg_own _)) (by rw [hst.1]; exact ho) hb hi hpa
    (hk.mono fun b hb => by rw [live, hst.1]; exact hb) (by
      rw [hst.2]
      refine hsafe.imp id fun hs w hw hp => hs w hw ?_
      exact ReflTransGen.mono hedge _ _ hp)
  refine Inv.release (h2.eq ?_) hO hold.1
  abel

theorem rcVectorSet_inv (h : Inv π s O [] P) (hO : NonNeg O) {v item : Ref} (i : ℕ)
    (hv : s.Handle P v) (hk : s.Handle P item) : Inv π (s.rcVectorSet v i item).1 O [] P := by
  unfold rcVectorSet
  split
  swap
  · exact h.same (same_rcError _ _)
  rename_i a items e
  obtain ⟨rfl, o, ho, hb⟩ := asVector_some e
  split
  swap
  · exact h.same (same_rcError _ _)
  rename_i old hi
  split
  · exact h.same (same_rcError _ _)
  have hreach : s.mayReachVector (.cell a) = true := by
    simp [mayReachVector, ho, h.vec a o items ho hb]
  simp only
  by_cases hc : (s.mayReachVector item && (s.acyclic || decide (a ∉ s.sources))) = true
  swap
  · -- The item reaches no vector, or the vector is a source already.
    rw [if_neg hc]
    simp only [Bool.false_and, Bool.false_eq_true, if_false]
    refine h.writeItem hO ho hb hi hv.1 hk ?_
    by_cases hr : s.mayReachVector item = true
    · left
      simp only [hr, Bool.true_and, Bool.or_eq_true, not_or] at hc
      simpa using hc.2
    · right
      rintro w rfl hp
      exact hr (h.hot_of_path hp hreach)
  rw [if_pos hc]
  have hs := reaches_same h.calm hO a item (if s.acyclic = true then sizeMax else 256) false
    hk.2
  have h1 := h.same hs
  unfold wouldCreateCycle
  generalize hr : s.reaches a item (if s.acyclic = true then sizeMax else 256) false = r at hs h1 ⊢
  have hheap : r.1.heap = s.heap := congrArg Store.heap hs
  have hsrc : r.1.sources = s.sources := congrArg Store.sources hs
  have hac : r.1.acyclic = s.acyclic := congrArg Store.acyclic hs
  have ho1 : r.1.heap a = some o := by rw [hheap]; exact ho
  by_cases hyes : r.2 = true
  · by_cases hcyc : s.acyclic = true
    · rw [if_pos (by rw [hyes, hcyc]; rfl)]
      exact h1.same (same_rcError _ _)
    · rw [if_neg (by simp [hcyc]), if_pos hyes]
      have hns : a ∉ r.1.sources := by
        rw [hsrc]
        simp only [hcyc, Bool.false_or, Bool.and_eq_true, decide_eq_true_eq] at hc
        exact hc.2
      have h2 := h1.link ho1 hb hns (by rw [hac]; simpa using hcyc)
      have hk' : (r.1.sourceLink a).Handle P item := hk.mono fun b hb => by
        change r.1.heap b ≠ none
        rw [hheap]
        exact hb
      exact h2.writeItem hO ho1 hb hi hv.1 hk' (Or.inl (List.mem_cons_self ..))
  · rw [if_neg (by simp [hyes]), if_neg hyes]
    refine h1.writeItem hO ho1 hb hi hv.1 (hk.same hs) (Or.inr ?_)
    rintro w rfl hp
    have hno := (reaches_sound h.calm hO a w
      (if s.acyclic = true then sizeMax else 256) false (hk.2 w rfl) hreach
      (by rw [hr]; simpa using hyes)).1 rfl
    refine hno (ReflTransGen.mono (fun x y he => ?_) _ _ hp)
    rwa [Edge, edges, hheap] at he

end Ctx

end ShenRc.Runtime
