import ShenRc.Runtime.BindingOps

/-! # Prepared plans keep the invariant

A plan hangs off the body it was prepared for by an edge that no constructor has made, and a promoted
closure is rewritten although other cells hold it. Neither closes a cycle: a plan captures only
leaves and cells strictly below its body (`PlanOf`), so that nothing it captures leads back to the
body (`Inv.plan_below`). -/

namespace ShenRc.Runtime

open Relation ShenRc.Graph

namespace Ctx

variable {π : Policy} {s s' : Ctx} {O B : Own} {work : List ℕ} {P : Set Ref}

/-! ### What a plan leads to -/

theorem pair_not_source (h : Inv π s O work P) {a : ℕ} {o : Obj} {hd tl : Ref}
    (ho : s.heap a = some o) (hb : o.body = .pair hd tl) : a ∉ s.sources := by
  intro hm
  obtain ⟨o1, items, ho1, hb1⟩ := h.srcVec a hm
  rw [ho] at ho1
  cases ho1
  rw [hb] at hb1
  cases hb1

theorem PairField.not_source (h : Inv π s O work P) {u w : ℕ} (hf : s.PairField u w) :
    u ∉ s.sources := by
  obtain ⟨o, hd, tl, ho, hb, -⟩ := hf
  exact pair_not_source h ho hb

/-- A path of pairs that ends outside the sources avoids them. -/
theorem freePath_of_fields (h : Inv π s O work P) {p l : ℕ} (hp : TransGen s.PairField p l)
    (hl : l ∉ s.sources) : TransGen s.FreeEdge p l := by
  induction hp using TransGen.head_induction_on with
  | single hf => exact .single ⟨hf.edge, hf.not_source h, hl⟩
  | head hf hrest ih =>
    obtain ⟨w, hw, -⟩ := TransGen.head'_iff.mp hrest
    exact ih.head ⟨hf.edge, hf.not_source h, hw.not_source h⟩

/-- **Nothing strictly below a pair leads back to it off the sources.** -/
theorem Inv.not_back (h : Inv π s O work P) {p l : ℕ} (hp : TransGen s.PairField p l) :
    ¬ ReflTransGen s.FreeEdge l p := by
  intro hback
  have hl : l ∉ s.sources := by
    rcases ReflTransGen.cases_head hback with rfl | ⟨w, hw, -⟩
    · obtain ⟨w, hw, -⟩ := TransGen.head'_iff.mp hp
      exact hw.not_source h
    · exact hw.2.1
  exact h.acyc p ((freePath_of_fields h hp hl).trans_left hback)

/-- **A plan does not lead to a cell that reaches its body in one step.** -/
theorem PlanOf.not_back (hpq : s.PlanOf p q) (h : Inv π s O work P) {a : ℕ}
    (ha : a = p ∨ s.FreeEdge a p) (haq : a ≠ q) (hkids : s.edges a ≠ []) :
    ¬ ReflTransGen s.FreeEdge q a := by
  obtain ⟨o, c, ho, hb, hbound, -, hcap⟩ := hpq
  intro hback
  rcases ReflTransGen.cases_head hback with e | ⟨l, hl, hla⟩
  · exact haq e.symm
  have hm : Ref.cell l ∈ c.captures := by
    have := hl.1
    rw [Edge, edges_of_some ho, closure_edges hb, hbound, List.append_nil] at this
    exact this
  rcases hcap _ hm with hlf | ⟨l', e, hbelow⟩
  · rcases ReflTransGen.cases_head hla with rfl | ⟨w, hw, -⟩
    · exact hkids hlf.2.1
    · have h1 := hw.1
      rw [Edge, hlf.2.1] at h1
      simp at h1
  · cases e
    refine h.not_back hbelow ?_
    rcases ha with rfl | ha
    · exact hla
    · exact hla.tail ha

/-- A plan is no pair, and differs from what captures its body. -/
theorem PlanOf.ne_body (hpq : s.PlanOf p q) {o : Obj} {hd tl : Ref} (ho : s.heap p = some o)
    (hb : o.body = .pair hd tl) : p ≠ q := by
  rintro rfl
  obtain ⟨o1, c, ho1, hb1, -⟩ := hpq
  rw [ho] at ho1
  cases ho1
  rw [hb] at hb1
  cases hb1

theorem pair_edge_exists {p : ℕ} {o : Obj} {hd tl : Ref} (ho : s.heap p = some o)
    (hb : o.body = .pair hd tl) : s.edges p ≠ [] := by
  have := (pair_edges hb).1
  rw [← edges_of_some ho] at this
  intro hn
  rw [hn] at this
  simp at this

theorem PlanOf.not_captures (hpq : s.PlanOf p q) (h : Inv π s O work P) {o : Obj} {hd tl : Ref}
    (ho : s.heap p = some o) (hb : o.body = .pair hd tl) : ¬ s.Edge q p := by
  intro he
  obtain ⟨oq, c, hoq, hbq, hbound, -, hcap⟩ := hpq
  have hm : Ref.cell p ∈ c.captures := by
    rw [Edge, edges_of_some hoq, closure_edges hbq, hbound, List.append_nil] at he
    exact he
  rcases hcap _ hm with hlf | ⟨l', e, hbelow⟩
  · exact pair_edge_exists ho hb hlf.2.1
  · cases e
    exact h.not_back hbelow .refl

/-- A plan reaches a vector only if its body does. -/
theorem PlanOf.reach (hpq : s.PlanOf p q) (h : Inv π s O work P)
    (hr : s.mayReachVector (.cell q) = true) : s.mayReachVector (.cell p) = true := by
  obtain ⟨o, c, ho, -, -, hflag, hcap⟩ := hpq
  obtain ⟨r, hm, hv⟩ := hflag (by simpa [mayReachVector, ho] using hr)
  rcases hcap r hm with hlf | ⟨l, rfl, hbelow⟩
  · cases r with
    | cell a => rw [hlf.2.2] at hv; exact absurd hv (by simp)
    | _ => simp [mayReachVector] at hv
  · refine h.hot_of_path ?_ hv
    exact ReflTransGen.mono (fun _ _ hf => hf.edge) _ _ hbelow.to_reflTransGen

theorem PlanOf.congr (hpq : s.PlanOf p q) (hheap : s'.heap = s.heap) : s'.PlanOf p q := by
  unfold PlanOf Leaf live edges mayReachVector PairField at hpq ⊢
  rw [hheap]
  exact hpq

/-! ### The side table -/

/-- `plan_insert` makes an entry without a plan, or leaves the cell alone. -/
theorem planInsert_spec (h : Inv π s O work P) (hO : NonNeg O) {a : ℕ} {o : Obj}
    (ho : s.heap a = some o) (hp : Ref.cell a ∉ P) :
    ∃ o', (s.planInsert a).1.toStore =
        { s.toStore with heap := Function.update s.heap a (some o') } ∧
      Inv π (s.planInsert a).1 O work P ∧ o'.body = o.body ∧
      o'.reachesVector = o.reachesVector ∧ pairPlan o' = pairPlan o ∧
      ((s.planInsert a).2 = true → ∃ e, o'.plan = some e) := by
  have hsame : s.toStore = { s.toStore with heap := Function.update s.heap a (some o) } := by
    rw [← ho, Function.update_eq_self]
  unfold planInsert
  rw [ho]
  simp only
  split
  · rename_i hs
    exact ⟨o, hsame, h, rfl, rfl, rfl, fun _ => Option.isSome_iff_exists.mp hs⟩
  rename_i hn
  have hplan : o.plan = none := by simpa using hn
  have hgrow : Same s (if s.planCapacity < (s.planCount + 1) * 2 then
      if s.malloc.1 then
        (({ s.malloc.2 with
          planCapacity := if s.planCapacity = 0 then 64 else s.planCapacity * 2 } : Ctx), true)
      else (s.malloc.2, false)
    else (s, true)).1 := by
    split
    · split <;> rfl
    · rfl
  generalize (if s.planCapacity < (s.planCount + 1) * 2 then
      if s.malloc.1 then
        (({ s.malloc.2 with
          planCapacity := if s.planCapacity = 0 then 64 else s.planCapacity * 2 } : Ctx), true)
      else (s.malloc.2, false)
    else (s, true)) = r at hgrow ⊢
  have h1 := h.same hgrow
  have ho1 : r.1.heap a = some o := by
    rw [show r.1.heap = s.heap from congrArg Store.heap hgrow]; exact ho
  split
  swap
  · exact ⟨o, (show r.1.toStore = s.toStore from hgrow).trans hsame, h1, rfl, rfl, rfl,
      fun hf => absurd hf (by simp)⟩
  have hpp : pairPlan { o with plan := some { plan := .null, calls := 0 } } = pairPlan o := by
    simp [pairPlan, hplan]
  have h2 := h1.touch hO (f := fun o => { o with plan := some { plan := .null, calls := 0 } }) ho1 hp
    (Or.inl rfl) rfl hpp
  refine ⟨{ o with plan := some { plan := .null, calls := 0 } }, ?_, ?_, rfl, rfl, hpp,
    fun _ => ⟨_, rfl⟩⟩
  · have : r.1.toStore = s.toStore := hgrow
    simp only [put]
    rw [this]
  · refine h2.same ?_
    rw [Same, modify_toStore ho1]
    rfl

theorem rcEvalPlanHeat_inv (h : Inv π s O [] P) (hO : NonNeg O) {expression : Ref}
    (hv : s.Handle P expression) : Inv π (s.rcEvalPlanHeat expression).1 O [] P := by
  unfold rcEvalPlanHeat
  split
  swap
  · exact h
  rename_i a o hd tl e
  obtain ⟨rfl, ho, hb⟩ := asPair_some e
  obtain ⟨o', hs, h1, hb', hr, hpp, -⟩ := planInsert_spec h hO ho hv.1
  have ho' : (s.planInsert a).1.heap a = some o' := by rw [hs]; simp
  simp only
  split
  swap
  · exact h1
  split
  · exact h1
  refine h1.touch hO ho' hv.1 (Or.inl rfl) rfl ?_
  unfold pairPlan
  cases o'.plan <;> rfl

theorem rcRetain_toStore (v : Ref) {f : ℕ → Option Obj}
    (hs : s'.toStore = { s.toStore with heap := f }) :
    (s'.rcRetain v).toStore = { (s.rcRetain v).toStore with heap := f } := by
  have hr : s'.refs = s.refs := by rw [hs]
  have hc : s'.isCounted v = s.isCounted v := by cases v <;> simp [isCounted, hr]
  unfold rcRetain
  rw [hc, hr]
  split
  · simp only [Ctx.setRefs]
    rw [hs]
  · exact hs

/-- **`rc_eval_plan_set`.** -/
theorem rcEvalPlanSet_inv (h : Inv π s O [] P) (hO : NonNeg O) {p q : ℕ} {o : Obj} {hd tl : Ref}
    (ho : s.heap p = some o) (hb : o.body = .pair hd tl) (hpq : s.PlanOf p q)
    (hv : s.Handle P (.cell p)) (hk : s.Handle P (.cell q)) :
    Inv π (s.rcEvalPlanSet (.cell p) (.cell q)) O [] P := by
  have e : s.asPair (.cell p) = some (p, o, hd, tl) := by simp [asPair, ho, hb]
  obtain ⟨o1, hs1, hi1, hb1, hr1, hpp1, hsome⟩ := planInsert_spec h hO ho hv.1
  unfold rcEvalPlanSet
  rw [e]
  simp only
  split
  swap
  · exact hi1
  rename_i hins
  obtain ⟨en, hen⟩ := hsome hins
  have ho1 : (s.planInsert p).1.heap p = some o1 := by rw [hs1]; simp
  have hold : ((((s.planInsert p).1.heap p).bind Obj.plan).map PlanEntry.plan).getD .null =
      pairPlan o := by rw [ho1, ← hpp1]; rfl
  rw [hold]
  have hret := rcRetain_toStore (.cell q) hs1
  generalize (s.planInsert p).1 = s1 at hret ⊢
  -- Insertion, retain and write together rewrite the cell of the body.
  have h0 := rcRetain_inv h hk.2 hk.1
  have hheap0 : (s.rcRetain (.cell q)).heap = s.heap := rcRetain_heap _ _
  have ho0 : (s.rcRetain (.cell q)).heap p = some o := by rw [hheap0]; exact ho
  have hret1 : (s1.rcRetain (.cell q)).heap p = some o1 := by rw [hret]; simp
  let o2 : Obj := { o1 with plan := o1.plan.map fun e => { e with plan := .cell q } }
  have hplan2 : o2.plan = some { en with plan := .cell q } := by simp [o2, hen]
  have hb2 : o2.body = o.body := hb1
  have hr2 : o2.reachesVector = o.reachesVector := hr1
  have hs2 : ((s1.rcRetain (.cell q)).modify p fun o =>
      { o with plan := o.plan.map fun e => { e with plan := .cell q } }).toStore =
      { (s.rcRetain (.cell q)).toStore with
        heap := Function.update (s.rcRetain (.cell q)).heap p (some o2) } := by
    rw [modify_toStore hret1, hret]
    simp only [Function.update_idem, hheap0]
    rfl
  generalize ((s1.rcRetain (.cell q)).modify p fun o =>
      { o with plan := o.plan.map fun e => { e with plan := .cell q } }) = s2 at hs2 ⊢
  have hpq0 : (s.rcRetain (.cell q)).PlanOf p q := hpq.congr hheap0
  have hO0 := hO.add (nonNeg_own (.cell q))
  generalize s.rcRetain (.cell q) = s0 at h0 hheap0 ho0 hs2 hpq0
  have hb0 : o2.body = .pair hd tl := hb2.trans hb
  have hne := hpq0.ne_body ho0 hb
  have hp2 : pairPlan o2 = .cell q := by simp [pairPlan, hplan2]
  have hedges2 : ∀ r, r ∈ o2.edges → r = .cell q ∨ r ∈ s0.edges p := by
    intro r hr
    rw [pair_edges_eq hb0, hp2] at hr
    have h1 := pair_edges hb
    rw [← edges_of_some ho0] at h1
    simp only [reduceCtorEq, if_false, List.mem_cons, List.not_mem_nil, or_false] at hr
    rcases hr with rfl | rfl | rfl
    · exact Or.inr h1.1
    · exact Or.inr h1.2.1
    · exact Or.inl rfl
  have hsrc2 : s2.sources = s0.sources := by rw [hs2]
  have hheap2 : s2.heap = Function.update s0.heap p (some o2) := by rw [hs2]
  have hacyc : Acyclic s2.FreeEdge := by
    refine h0.acyc.add_edges (u := p) (T := fun w => w = q) (fun x y hf => ?_) fun y hy => ?_
    · obtain ⟨he, hx, hy⟩ := hf
      rw [hsrc2] at hx hy
      rcases edge_of_update hheap2 he with ⟨rfl, hm⟩ | ⟨-, he⟩
      · rcases hedges2 _ hm with hm | hm
        · cases hm
          exact Or.inr ⟨rfl, rfl⟩
        · exact Or.inl ⟨hm, hx, hy⟩
      · exact Or.inl ⟨he, hx, hy⟩
    · subst hy
      exact hpq0.not_back h0 (Or.inl rfl) hne (pair_edge_exists ho0 hb)
  have key := h0.rewrite ho0 hs2 (fun hr => Or.inl (hr2 ▸ hr))
    (fun w _ hw hm => by
      rw [hr2]
      have : s0.mayReachVector (.cell p) = true := by
        rcases hedges2 _ hw with e | hw
        · cases e
          exact hpq0.reach h0 hm
        · exact h0.flags p w hw hm
      simpa [mayReachVector, ho0] using this)
    (fun items hi => by rw [hb0] at hi; cases hi)
    (fun hm => absurd hm (pair_not_source h0 ho0 hb))
    (fun t g f hi => by rw [hb0] at hi; cases hi)
    (by have := h0.bytes; rw [hb2]; omega)
    hacyc
    (h0.plans_keep hO0 ho0 hheap2
      ⟨hr2, fun _ _ hp => hb2.trans hp, fun hn _ => absurd ((edges_of_some ho0).trans hn)
        (pair_edge_exists ho0 hb)⟩ (Or.inl hb2)
      fun q' e' _ he' hq' => by
        rw [hplan2] at he'
        cases he'
        cases hq'
        exact ⟨hpq0, hne.symm⟩)
    hv.1
    (fun r hr => by
      rcases hr with hr | hr
      · rcases hedges2 r hr with rfl | hr
        · exact hk.1
        · exact h0.not_priv (Or.inl hr)
      · simp [Obj.slots, hb0] at hr)
  have hslot : o.slots = [] ∧ o2.slots = [] := by simp [Obj.slots, hb0, hb]
  have h3 : Inv π s2 (O + own (pairPlan o)) [] P := by
    refine key.congr fun r hr => ?_
    have e1 := owns_pair_edges hb hr
    have e2 := owns_pair_edges hb0 hr
    rw [hp2] at e2
    rw [hslot.1, hslot.2, owns_nil]
    simp only [Pi.add_apply, Pi.sub_apply, Pi.zero_apply] at e1 e2 ⊢
    rw [e1, e2]
    ring
  have h4 : Inv π { s2 with
      stats := { s2.stats with
        graphSlots := s2.stats.graphSlots + (if Ref.cell q = Ref.null then 0 else 1) -
          (if pairPlan o = Ref.null then 0 else 1) } } _ [] P := h3.same rfl
  exact h4.release hO (h.handle_pair hO ho hb).2.2.1

/-- **`rc_eval_plan_promote`.** -/
theorem rcEvalPlanPromote_inv (h : Inv π s O [] P) (hO : NonNeg O) {a p q : ℕ} {rest : List Ref}
    {o : Obj} {c : Closure} (ho : s.heap a = some o) (hb : o.body = .closure c)
    (hc : c.captures = .cell p :: rest) (hpair : ∃ o h t, s.heap p = some o ∧ o.body = .pair h t)
    (hpq : s.PlanOf p q) (hno : s.NoPlan a) (hv : s.Handle P (.cell a))
    (hk : s.Handle P (.cell q)) (prepared : ℕ) :
    Inv π (s.rcEvalPlanPromote (.cell a) prepared (.cell q)) O [] P := by
  have e : s.asClosure (.cell a) = some (a, o, c) := by simp [asClosure, ho, hb]
  unfold rcEvalPlanPromote
  rw [e]
  simp only [hc]
  obtain ⟨op, hd, tl, hop, hbp⟩ := hpair
  have h0 := rcRetain_inv h hk.2 hk.1
  have hheap0 : (s.rcRetain (.cell q)).heap = s.heap := rcRetain_heap _ _
  have hO0 := hO.add (nonNeg_own (.cell q))
  have hpq0 : (s.rcRetain (.cell q)).PlanOf p q := hpq.congr hheap0
  have hno0 : (s.rcRetain (.cell q)).NoPlan a := by
    unfold NoPlan at hno ⊢
    rw [hheap0]
    exact hno
  rw [← hheap0] at ho hop
  have hpne := (h.handle_closure hO (hheap0 ▸ ho) hb).1 (.cell p) (by rw [hc]; simp)
  generalize s.rcRetain (.cell q) = s0 at h0 ho hop hpq0 hno0 ⊢
  have hs2 := modify_toStore ho fun o => { o with
    body := .closure { c with native := some prepared, captures := .cell q :: rest } }
  generalize (s0.modify a fun o => { o with
    body := .closure { c with native := some prepared, captures := .cell q :: rest } }) = s2 at hs2 ⊢
  have hedges : s0.edges a = .cell p :: rest ++ c.bound := by
    rw [edges_of_some ho, closure_edges hb, hc]
  have hap : s0.Edge a p := by rw [Edge, hedges]; simp
  have hedges2 : ({ o with
      body := .closure { c with native := some prepared, captures := .cell q :: rest } } :
      Obj).edges = .cell q :: rest ++ c.bound := rfl
  have hsub : ∀ r, r ∈ Ref.cell q :: rest ++ c.bound → r = .cell q ∨ r ∈ s0.edges a := by
    intro r hr
    rw [hedges]
    simp only [List.cons_append, List.mem_cons, List.mem_append] at hr ⊢
    tauto
  have hna : a ∉ s0.sources := by
    intro hm
    obtain ⟨o1, items, ho1, hb1⟩ := h0.srcVec a hm
    rw [ho] at ho1
    cases ho1
    rw [hb] at hb1
    cases hb1
  have hne : a ≠ q := by
    rintro rfl
    exact hpq0.not_captures h0 hop hbp hap
  have hacyc : Acyclic s2.FreeEdge := by
    have hsrc2 : s2.sources = s0.sources := by rw [hs2]
    have hheap2 := congrArg Store.heap hs2
    refine h0.acyc.add_edges (u := a) (T := fun w => w = q) (fun x y hf => ?_) fun y hy => ?_
    · obtain ⟨he, hx, hy⟩ := hf
      rw [hsrc2] at hx hy
      rcases edge_of_update hheap2 he with ⟨rfl, hm⟩ | ⟨-, he⟩
      · rcases hsub _ hm with hm | hm
        · cases hm
          exact Or.inr ⟨rfl, rfl⟩
        · exact Or.inl ⟨hm, hx, hy⟩
      · exact Or.inl ⟨he, hx, hy⟩
    · subst hy
      exact hpq0.not_back h0 (Or.inr ⟨hap, hna, pair_not_source h0 hop hbp⟩) hne (by rw [hedges]; simp)
  have hflag : o.reachesVector = s0.mayReachVector (.cell a) := by simp [mayReachVector, ho]
  have key := h0.rewrite ho hs2 Or.inl
    (fun w _ hw hm => by
      change o.reachesVector = true
      rw [hflag]
      rcases hsub _ hw with e | hw
      · cases e
        exact h0.flags a p hap (hpq0.reach h0 hm)
      · exact h0.flags a w hw hm)
    (fun items hi => by simp at hi) (fun hm => absurd hm hna) (fun t g f hi => by simp at hi)
    (by have := h0.bytes; simp only [extraBytes, hb, hc, List.length_cons]; omega)
    hacyc
    (h0.plans_keep hO0 ho (congrArg Store.heap hs2)
      ⟨rfl, fun _ _ hp => absurd (hb.symm.trans hp) (by simp), fun hn _ => by
        rw [← edges_of_some ho, hedges] at hn
        simp at hn⟩ (Or.inr hno0) fun q' e' hp' _ _ => by
        obtain ⟨hd', tl', hp'⟩ := hp'
        cases hp')
    hv.1
    (fun r hr => by
      rcases hr with hr | hr
      · rcases hsub r hr with rfl | hr
        · exact hk.1
        · exact h0.not_priv (Or.inl hr)
      · simp [Obj.slots] at hr)
  have e1 : o.slots = [] := by simp [Obj.slots, hb]
  have e2 : ({ o with
      body := .closure { c with native := some prepared, captures := .cell q :: rest } } :
      Obj).slots = [] := rfl
  refine Inv.release (key.eq ?_) hO hpne.1
  rw [hedges2, e1, e2, closure_edges hb, hc, owns_nil, add_zero, sub_zero, List.cons_append,
    List.cons_append, owns_cons, owns_cons]
  abel

end Ctx

end ShenRc.Runtime
