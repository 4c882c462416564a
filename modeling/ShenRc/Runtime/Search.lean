import ShenRc.Runtime.Change
import ShenRc.Graph.Worklist

/-! # The cycle search answers correctly

A search in which the work array never fails to grow leaves the graph as it was, and if its answer
is no then no path leads to the target (`reaches_same`, `reaches_sound`). The array holds only cells
of the heap, each once, so its size stays within what can be addressed. -/

namespace ShenRc.Runtime

open Relation ShenRc.Graph

namespace Ctx

variable {π : Policy} {s s' : Ctx} {O O' : Own} {work : List ℕ} {P : Set Ref}

/-- The state as it is when the collector does not run. The walks do not look at the flag. -/
abbrev calm (s : Ctx) : Ctx := { s with collecting := false }

theorem Inv.calm (h : Inv π s O work P) : Inv π s.calm O work P :=
  h.same (show { s.toStore with collecting := false } = s.toStore by rw [← h.idle])

theorem Same.calm (h : Same s s') : Same s.calm s'.calm := by
  have hs : s'.toStore = s.toStore := h
  change ({ s'.toStore with collecting := false } : Store) = { s.toStore with collecting := false }
  rw [hs]

/-- An edge to a value that may reach a vector. The walks follow only these. -/
def HotEdge (s : Ctx) (u w : ℕ) : Prop := s.Edge u w ∧ s.mayReachVector (.cell w) = true

/-- Every cell on a path to a vector may reach a vector. -/
theorem Inv.hot_of_path (h : Inv π s O work P) {x y : ℕ} (hxy : ReflTransGen s.Edge x y)
    (hy : s.mayReachVector (.cell y) = true) : s.mayReachVector (.cell x) = true := by
  induction hxy using ReflTransGen.head_induction_on with
  | refl => exact hy
  | head he _ ih => exact h.flags _ _ he ih

theorem Inv.hotPath (h : Inv π s O work P) {x y : ℕ} (hxy : ReflTransGen s.Edge x y)
    (hy : s.mayReachVector (.cell y) = true) : ReflTransGen s.HotEdge x y := by
  induction hxy using ReflTransGen.head_induction_on with
  | refl => exact .refl
  | head he hp ih => exact .head ⟨he, h.hot_of_path hp hy⟩ ih

theorem HotEdge.toEdge {x y : ℕ} (h : ReflTransGen s.HotEdge x y) : ReflTransGen s.Edge x y :=
  ReflTransGen.mono (fun _ _ he => he.1) _ _ h

/-- A list of cells in use, each once, is no longer than there are cells. -/
theorem Inv.length_le (h : Inv π s O work P) {nodes : List ℕ} (hn : nodes.Nodup)
    (hl : ∀ a ∈ nodes, s.live a) : nodes.length ≤ s.size := by
  rw [← List.toFinset_card_of_nodup hn, ← Finset.card_range s.size]
  refine Finset.card_le_card fun a ha => ?_
  exact Finset.mem_range.mpr (h.bound a (hl a (List.mem_toFinset.mp ha)))

/-- The work array can grow to the number of cells. -/
theorem walkPush_ok {s : Ctx} {n : ℕ} (hscr : ∀ k, s.scratch k = true) (hn : n ≤ addressCells) :
    (s.walkPush n).2 = true ∧ (s.walkPush n).1.toStore = s.toStore := by
  unfold walkPush
  by_cases h : n = s.walkCapacity
  · have hcap : ¬ sizeMax / ptrBytes < if s.walkCapacity = 0 then 256 else s.walkCapacity * 2 := by
      simp only [addressCells, sizeMax, ptrBytes] at hn ⊢
      split_ifs <;> omega
    have hm : (s.mallocScratch s.scratch).1 = true := hscr _
    rw [if_pos h]
    simp only [if_neg hcap, if_pos hm]
    exact ⟨trivial, rfl⟩
  · rw [if_neg h]
    exact ⟨rfl, rfl⟩

/-- The state of a search from `s`: only the bits `visited` have changed, and they say what is in
the work array. -/
structure Searching (s : Ctx) (target : ℕ) (st : Ctx × Search) : Prop where
  graph : st.1.toStore = { s.toStore with visited := st.1.visited }
  visited : ∀ a, st.1.visited a = true ↔ s.visited a = true ∨ a ∈ st.2.nodes
  nodup : st.2.nodes.Nodup
  nodes : ∀ a ∈ st.2.nodes, s.live a ∧ a ≠ target
  failed : st.2.failed = false

theorem Searching.edges {target : ℕ} {st : Ctx × Search} (h : Searching s target st) (a : ℕ) :
    st.1.edges a = s.edges a := by unfold Ctx.edges; rw [h.graph]

theorem Searching.reach {target : ℕ} {st : Ctx × Search} (h : Searching s target st) (v : Ref) :
    st.1.mayReachVector v = s.mayReachVector v := by
  cases v <;> simp only [mayReachVector]
  rw [h.graph]

/-- **Following an edge.** The search goes on, and its end is the target or in the work array. -/
theorem cycleSearchEdge_spec (h : Inv π s.calm O work P) {target : ℕ}
    {st : Ctx × Search} (hst : Searching s target st) {v : Ref} (hv : ∀ a, v = .cell a → s.live a) :
    let st' := cycleSearchEdge target st v
    Searching s target st' ∧ st.2.nodes <+: st'.2.nodes ∧
      (st.2.found = true → st'.2.found = true) ∧
      (∀ a, v = .cell a → s.mayReachVector v = true → st'.2.found = true ∨ a ∈ st'.2.nodes) := by
  cases v with
  | cell a =>
    simp only [cycleSearchEdge, hst.reach]
    by_cases hr : s.mayReachVector (.cell a) = true
    swap
    · rw [if_neg hr]
      refine ⟨hst, List.prefix_refl _, id, fun b hb hrb => ?_⟩
      cases hb
      exact absurd hrb hr
    rw [if_pos hr]
    by_cases hat : a = target
    · rw [if_pos hat]
      exact ⟨⟨hst.graph, hst.visited, hst.nodup, hst.nodes, hst.failed⟩,
        List.prefix_refl _, fun _ => rfl, fun _ _ _ => Or.inl rfl⟩
    rw [if_neg hat]
    by_cases hvis : st.1.visited a = true
    · rw [if_pos hvis]
      refine ⟨hst, List.prefix_refl _, id, fun b hb _ => Or.inr ?_⟩
      cases hb
      rcases (hst.visited a).mp hvis with hv' | hm
      · rw [h.unvisited a (hv a rfl)] at hv'
        exact absurd hv' (by simp)
      · exact hm
    rw [if_neg hvis]
    have hnm : a ∉ st.2.nodes := fun hm => hvis ((hst.visited a).mpr (Or.inr hm))
    have hlen : st.2.nodes.length ≤ addressCells :=
      (h.length_le hst.nodup fun b hb => (hst.nodes b hb).1).trans h.space
    obtain ⟨h1, h2⟩ := walkPush_ok (s := st.1.setVisited a true) (n := st.2.nodes.length)
      (fun k => by rw [setVisited, hst.graph]; exact h.roomy k) hlen
    simp only [h1, if_true]
    refine ⟨⟨?_, fun b => ?_, ?_, fun b hb => ?_, hst.failed⟩, List.prefix_append _ _, id,
      fun b hb _ => Or.inr ?_⟩
    · rw [h2]
      simp only [setVisited]
      rw [hst.graph]
    · have e : ((st.1.setVisited a true).walkPush st.2.nodes.length).1.visited =
          (st.1.setVisited a true).visited := congrArg Store.visited h2
      rw [e]
      simp only [setVisited, List.mem_append, List.mem_singleton]
      by_cases hb : b = a
      · simp [hb]
      · simp [hb, hst.visited b]
    · refine List.nodup_append.mpr ⟨hst.nodup, List.nodup_singleton a, fun x hx y hy => ?_⟩
      rw [List.mem_singleton] at hy
      rintro rfl
      exact hnm (hy ▸ hx)
    · rcases List.mem_append.mp hb with hb | hb
      · exact hst.nodes b hb
      · rw [List.mem_singleton] at hb
        subst hb
        exact ⟨hv b rfl, hat⟩
    · cases hb
      simp
  | _ => exact ⟨hst, List.prefix_refl _, id, fun b hb => by cases hb⟩

/-- Following the edges of a list. -/
theorem cycleSearchEdges_spec (h : Inv π s.calm O work P) {target : ℕ}
    (vs : List Ref) {st : Ctx × Search} (hst : Searching s target st)
    (hv : ∀ a, .cell a ∈ vs → s.live a) :
    let st' := vs.foldl (cycleSearchEdge target) st
    Searching s target st' ∧ st.2.nodes <+: st'.2.nodes ∧
      (st.2.found = true → st'.2.found = true) ∧
      (∀ a, .cell a ∈ vs → s.mayReachVector (.cell a) = true →
        st'.2.found = true ∨ a ∈ st'.2.nodes) := by
  induction vs generalizing st with
  | nil => exact ⟨hst, List.prefix_refl _, id, fun a ha => absurd ha (by simp)⟩
  | cons v vs ih =>
    obtain ⟨h1, h2, h3, h4⟩ := cycleSearchEdge_spec h hst (v := v) fun a ha =>
      hv a (ha ▸ List.mem_cons_self ..)
    obtain ⟨k1, k2, k3, k4⟩ := ih h1 fun a ha => hv a (List.mem_cons_of_mem _ ha)
    refine ⟨k1, h2.trans k2, fun hf => k3 (h3 hf), fun a ha hr => ?_⟩
    rcases List.mem_cons.mp ha with rfl | ha
    · rcases h4 a rfl hr with hf | hm
      · exact Or.inl (k3 hf)
      · exact Or.inr (k2.subset hm)
    · exact k4 a ha hr

/-- **The loop.** If the budget lasts and the target is not met, the work array is closed. -/
theorem searchLoop_spec (h : Inv π s.calm O work P) (hO : NonNeg O)
    {target : ℕ} : ∀ (fuel i budget : ℕ) {st : Ctx × Search}, Searching s target st →
      (st.2.found = true ∨ Done s.HotEdge st.2.nodes i) →
      let r := searchLoop target fuel i st budget
      Searching s target r.1 ∧ st.2.nodes <+: r.1.2.nodes ∧
        (r.2 = false → r.1.2.found = false →
          st.2.found = false ∧ ∀ a ∈ r.1.2.nodes, ∀ w, s.HotEdge a w → w ∈ r.1.2.nodes)
  | 0, _, _, _, hst, _ => ⟨hst, List.prefix_refl _, fun hr => absurd hr (by simp [searchLoop])⟩
  | fuel + 1, i, budget, st, hst, hd => by
    simp only [searchLoop, hst.failed, Bool.or_false]
    by_cases hf : st.2.found = true
    · rw [if_pos hf]
      exact ⟨hst, List.prefix_refl _, fun _ hf' => absurd (hf.symm.trans hf') (by simp)⟩
    rw [if_neg hf]
    have hd' : Done s.HotEdge st.2.nodes i := hd.resolve_left hf
    cases hi : st.2.nodes[i]? with
    | none =>
      exact ⟨hst, List.prefix_refl _, fun _ hf' => ⟨hf', hd'.closed hi⟩⟩
    | some a =>
      simp only
      split_ifs with hb
      · exact ⟨hst, List.prefix_refl _, fun hr => absurd hr (by simp)⟩
      · have ha : a ∈ st.2.nodes := List.mem_of_getElem? hi
        obtain ⟨h1, h2, h3, h4⟩ := cycleSearchEdges_spec h (st.1.edges a) hst fun w hw => by
          rw [hst.edges] at hw
          exact h.edge_live hO hw
        have hdone : (cycleSearchEdge target |> fun f => (st.1.edges a).foldl f st).2.found = true ∨
            Done s.HotEdge ((st.1.edges a).foldl (cycleSearchEdge target) st).2.nodes (i + 1) := by
          by_cases hfound : ((st.1.edges a).foldl (cycleSearchEdge target) st).2.found = true
          · exact Or.inl hfound
          · refine Or.inr (hd'.succ hi h2 fun w hw => ?_)
            exact (h4 w (by rw [hst.edges]; exact hw.1) hw.2).resolve_left hfound
        obtain ⟨k1, k2, k3⟩ := searchLoop_spec h hO fuel (i + 1)
          (budget - (((st.1.heap a).map searchWidth).getD 0 + 1)) h1 hdone
        refine ⟨k1, h2.trans k2, fun hr hf' => ⟨?_, (k3 hr hf').2⟩⟩
        simpa using hf

theorem clearVisited_toStore (nodes : List ℕ) : ∀ s : Ctx, (s.clearVisited nodes).toStore =
    { s.toStore with visited := fun a => if a ∈ nodes then false else s.visited a } := by
  induction nodes with
  | nil => intro s; simp [clearVisited]
  | cons a nodes ih =>
    intro s
    rw [clearVisited, List.foldl_cons]
    change ((s.setVisited a false).clearVisited nodes).toStore = _
    rw [ih]
    simp only [setVisited, Store.mk.injEq, true_and, and_true]
    funext b
    by_cases hb : b = a <;> by_cases hm : b ∈ nodes <;> simp [hb, hm]

/-- Clearing the bits of the work array undoes a walk. -/
theorem clearVisited_same {m : Ctx} {nodes : List ℕ}
    (hg : m.toStore = { s.toStore with visited := m.visited })
    (hv : ∀ a, m.visited a = true ↔ s.visited a = true ∨ a ∈ nodes)
    (hn : ∀ a ∈ nodes, s.visited a = false) : Same s (m.clearVisited nodes) := by
  rw [Same, clearVisited_toStore, hg]
  have : (fun a => if a ∈ nodes then false else m.visited a) = s.visited := by
    funext a
    by_cases hm : a ∈ nodes
    · rw [if_pos hm, hn a hm]
    · rw [if_neg hm]
      have := hv a
      simp only [hm, or_false] at this
      exact Bool.eq_iff_iff.mpr this
  rw [this]

/-- The state in which the loop of `reaches` starts. -/
theorem reaches_start (h : Inv π s.calm O work P) (hO : NonNeg O)
    (target : ℕ) (item : Ref) (fromChildren : Bool) (hitem : ∀ a, item = .cell a → s.live a) :
    let st := s.searchStart target item fromChildren
    Searching s target st ∧ (∀ a, item = .cell a →
      (fromChildren = false → s.mayReachVector (.cell a) = true →
        st.2.found = true ∨ a ∈ st.2.nodes) ∧
      (fromChildren = true → ∀ w, s.HotEdge a w → st.2.found = true ∨ w ∈ st.2.nodes)) := by
  have h0 : Searching s target (s, { nodes := [], found := false, failed := false }) :=
    ⟨rfl, fun a => by simp, List.nodup_nil, fun a ha => absurd ha (by simp), rfl⟩
  cases fromChildren with
  | false =>
    obtain ⟨h1, -, -, h4⟩ := cycleSearchEdge_spec h h0 hitem
    exact ⟨h1, fun a ha => ⟨fun _ hr => h4 a ha (ha ▸ hr), fun hc => absurd hc (by simp)⟩⟩
  | true =>
    cases item with
    | cell a =>
      obtain ⟨h1, -, -, h4⟩ := cycleSearchEdges_spec h (s.edges a) h0 fun w hw =>
        h.edge_live hO hw
      refine ⟨h1, fun b hb => ⟨fun hc => absurd hc (by simp), fun _ w hw => ?_⟩⟩
      cases hb
      exact h4 w hw.1 hw.2
    | _ => exact ⟨h0, fun a ha => by cases ha⟩

/-- **A search leaves the graph as it was.** -/
theorem reaches_same (h : Inv π s.calm O work P) (hO : NonNeg O)
    (target : ℕ) (item : Ref) (budget : ℕ) (fromChildren : Bool)
    (hitem : ∀ a, item = .cell a → s.live a) :
    Same s (s.reaches target item budget fromChildren).1 := by
  obtain ⟨h1, -⟩ := reaches_start h hO target item fromChildren hitem
  obtain ⟨k1, -, -⟩ := searchLoop_spec h hO (s.size + 1) 0 budget h1 (Or.inr (Done.zero _))
  unfold reaches
  generalize searchLoop target (s.size + 1) 0 (s.searchStart target item fromChildren) budget = r
    at k1 ⊢
  exact clearVisited_same k1.graph k1.visited fun a ha => h.unvisited a (k1.nodes a ha).1

/-- **A search that answers no is right.** -/
theorem reaches_sound (h : Inv π s.calm O work P) (hO : NonNeg O)
    (target a : ℕ) (budget : ℕ) (fromChildren : Bool) (ha : s.live a)
    (ht : s.mayReachVector (.cell target) = true)
    (hno : (s.reaches target (.cell a) budget fromChildren).2 = false) :
    (fromChildren = false → ¬ ReflTransGen s.Edge a target) ∧
      (fromChildren = true → ¬ TransGen s.Edge a target) := by
  obtain ⟨h1, h2⟩ := reaches_start h hO target (.cell a) fromChildren
    fun b hb => by cases hb; exact ha
  obtain ⟨k1, k2, k3⟩ := searchLoop_spec h hO (s.size + 1) 0 budget h1 (Or.inr (Done.zero _))
  unfold reaches at hno
  generalize searchLoop target (s.size + 1) 0 (s.searchStart target (.cell a) fromChildren) budget
    = r at k1 k2 k3 hno
  simp only [Bool.or_eq_false_iff] at hno
  obtain ⟨hf, hclosed⟩ := k3 hno.1.1 hno.1.2
  have hstop : ∀ x ∈ r.1.2.nodes, ¬ ReflTransGen s.Edge x target := fun x hx hp =>
    (k1.nodes target (mem_of_reach hclosed hx (h.hotPath hp ht))).2 rfl
  obtain ⟨hc1, hc2⟩ := h2 a rfl
  refine ⟨fun hc hp => ?_, fun hc hp => ?_⟩
  · have hm := (hc1 hc (h.hot_of_path hp ht)).resolve_left (by rw [hf]; simp)
    exact hstop a (k2.subset hm) hp
  · obtain ⟨w, he, hp⟩ := TransGen.head'_iff.mp hp
    have hm := (hc2 hc w ⟨he, h.hot_of_path hp ht⟩).resolve_left (by rw [hf]; simp)
    exact hstop w (k2.subset hm) hp

end Ctx

end ShenRc.Runtime
