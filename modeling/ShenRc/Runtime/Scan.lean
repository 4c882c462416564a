import ShenRc.Runtime.Search
import Mathlib.Algebra.BigOperators.Group.List.Lemmas
import Mathlib.Algebra.BigOperators.Ring.Finset

/-! # The three walks of the collector

Discovery lists the cells that the recorded sources lead to along edges to values that may reach a
vector (`discover_spec`). Subtraction takes from the count of each of them the edges that come from
the list, so that what is left counts the references from elsewhere (`subtract_spec`). Marking marks
what the cells with something left lead to (`mark_spec`). None of them changes the graph. -/

namespace ShenRc.Runtime

open Relation ShenRc.Graph

namespace Ctx

variable {π : Policy} {s s' : Ctx} {O O' : Own} {work : List ℕ} {P : Set Ref}

/-- The work array of the collector has room for twice the number of cells. -/
theorem gcPush_ok {s : Ctx} {ok : ℕ → Bool} {n : ℕ} (hok : ∀ k, ok k = true)
    (hn : n < 2 * addressCells) : (s.gcPush ok n).2 = true := by
  unfold gcPush
  by_cases h : n = s.gcCapacity
  · have hcap : ¬ sizeMax / ptrBytes < if s.gcCapacity = 0 then 1024 else s.gcCapacity * 2 := by
      simp only [addressCells, sizeMax, ptrBytes] at hn ⊢
      split_ifs <;> omega
    have hm : (s.mallocScratch ok).1 = true := hok _
    rw [if_pos h]
    simp only [if_neg hcap, if_pos hm]
  · rw [if_neg h]

theorem gcPush_keeps (s : Ctx) (ok : ℕ → Bool) (n : ℕ) :
    (s.gcPush ok n).1.toStore = s.toStore ∧ (s.gcPush ok n).1.marked = s.marked ∧
      (s.gcPush ok n).1.trial = s.trial := by
  unfold gcPush
  generalize (if s.gcCapacity = 0 then 1024 else s.gcCapacity * 2) = capacity
  simp only
  split
  · split
    · exact ⟨rfl, rfl, rfl⟩
    · split <;> exact ⟨rfl, rfl, rfl⟩
  · exact ⟨rfl, rfl, rfl⟩

/-! ### Discovery -/

/-- The count trial deletion starts from. -/
def startTrial (s : Ctx) (a : ℕ) : ℕ :=
  if s.refs (.cell a) = immortal then sizeMax else s.refs (.cell a)

/-- The state of discovery from `s`: the bits `visited` say what is in the work array. -/
structure Discovering (s : Ctx) (st : Ctx × GcScan) : Prop where
  graph : st.1.toStore = { s.toStore with visited := st.1.visited }
  visited : ∀ a, st.1.visited a = true ↔ s.visited a = true ∨ a ∈ st.2.nodes
  nodup : st.2.nodes.Nodup
  nodes : ∀ a ∈ st.2.nodes, s.live a ∧ s.mayReachVector (.cell a) = true
  fresh : ∀ a ∈ st.2.nodes, st.1.marked a = false ∧ st.1.trial a = s.startTrial a
  failed : st.2.failed = false

theorem Discovering.edges {st : Ctx × GcScan} (h : Discovering s st) (a : ℕ) :
    st.1.edges a = s.edges a := by unfold Ctx.edges; rw [h.graph]

theorem Discovering.reach {st : Ctx × GcScan} (h : Discovering s st) (v : Ref) :
    st.1.mayReachVector v = s.mayReachVector v := by
  cases v <;> simp only [mayReachVector]
  rw [h.graph]

theorem Discovering.length_le (h : Inv π s.calm O work P) {st : Ctx × GcScan} (hst : Discovering s st) :
    st.2.nodes.length ≤ s.size := h.length_le hst.nodup fun a ha => (hst.nodes a ha).1

/-- **Discovering an edge.** Its end is in the work array if it may reach a vector. -/
theorem gcDiscoverEdge_spec (h : Inv π s.calm O work P) {st : Ctx × GcScan} (hst : Discovering s st)
    {v : Ref} (hv : ∀ a, v = .cell a → s.live a) :
    let st' := gcDiscoverEdge st v
    Discovering s st' ∧ st.2.nodes <+: st'.2.nodes ∧
      ∀ a, v = .cell a → s.mayReachVector v = true → a ∈ st'.2.nodes := by
  cases v with
  | cell a =>
    simp only [gcDiscoverEdge, hst.reach]
    split
    swap
    · rename_i hc
      refine ⟨hst, List.prefix_refl _, fun b hb hrb => ?_⟩
      cases hb
      have hvis : st.1.visited a = true := by
        simp only [hrb, Bool.true_and, Bool.not_eq_true'] at hc
        simpa using hc
      rcases (hst.visited a).mp hvis with hv' | hm
      · rw [h.unvisited a (hv a rfl)] at hv'
        exact absurd hv' (by simp)
      · exact hm
    rename_i hc
    simp only [Bool.and_eq_true, Bool.not_eq_true'] at hc
    obtain ⟨hr, hvis⟩ := hc
    have hnm : a ∉ st.2.nodes := fun hm => by
      rw [(hst.visited a).mpr (Or.inr hm)] at hvis
      exact absurd hvis (by simp)
    have hlen : st.2.nodes.length < 2 * addressCells := by
      have h1 := hst.length_le h
      have h2 := h.space
      simp only [addressCells] at h2 ⊢
      omega
    have hok : ∀ k, st.1.scratch k = true := fun k => by rw [hst.graph]; exact h.roomy k
    have h1 := fun t : Ctx => gcPush_ok (s := t) hok hlen
    simp only [setVisited, h1, if_true]
    have hk := fun t : Ctx => gcPush_keeps t st.1.scratch st.2.nodes.length
    refine ⟨⟨?_, fun b => ?_, ?_, fun b hb => ?_, fun b hb => ?_, hst.failed⟩,
      List.prefix_append _ _, fun b hb _ => ?_⟩
    · simp only [(hk _).1]
      rw [hst.graph]
    · simp only [(hk _).1, List.mem_append, List.mem_singleton]
      by_cases hb : b = a
      · simp [hb]
      · simp [hb, hst.visited b]
    · refine List.nodup_append.mpr ⟨hst.nodup, List.nodup_singleton a, fun x hx y hy => ?_⟩
      rw [List.mem_singleton] at hy
      rintro rfl
      exact hnm (hy ▸ hx)
    · rcases List.mem_append.mp hb with hb | hb
      · exact hst.nodes b hb
      · rw [List.mem_singleton] at hb
        subst hb
        exact ⟨hv b rfl, hr⟩
    · simp only [(hk _).2.1, (hk _).2.2]
      have hrefs : st.1.refs = s.refs := by rw [hst.graph]
      rcases List.mem_append.mp hb with hb | hb
      · have hba : b ≠ a := fun e => hnm (e ▸ hb)
        simp only [Function.update_of_ne hba]
        exact hst.fresh b hb
      · rw [List.mem_singleton] at hb
        subst hb
        simp only [Function.update_self, hrefs]
        exact ⟨trivial, rfl⟩
    · cases hb
      simp
  | _ => exact ⟨hst, List.prefix_refl _, fun b hb => (by cases hb)⟩

theorem gcDiscoverEdges_spec (h : Inv π s.calm O work P) (vs : List Ref) {st : Ctx × GcScan}
    (hst : Discovering s st) (hv : ∀ a, .cell a ∈ vs → s.live a) :
    let st' := vs.foldl gcDiscoverEdge st
    Discovering s st' ∧ st.2.nodes <+: st'.2.nodes ∧
      ∀ a, .cell a ∈ vs → s.mayReachVector (.cell a) = true → a ∈ st'.2.nodes := by
  induction vs generalizing st with
  | nil => exact ⟨hst, List.prefix_refl _, fun a ha => absurd ha (by simp)⟩
  | cons v vs ih =>
    obtain ⟨h1, h2, h3⟩ := gcDiscoverEdge_spec h hst (v := v) fun a ha =>
      hv a (ha ▸ List.mem_cons_self ..)
    obtain ⟨k1, k2, k3⟩ := ih h1 fun a ha => hv a (List.mem_cons_of_mem _ ha)
    refine ⟨k1, h2.trans k2, fun a ha hr => ?_⟩
    rcases List.mem_cons.mp ha with rfl | ha
    · exact k2.subset (h3 a rfl hr)
    · exact k3 a ha hr

theorem discoverSources_spec (h : Inv π s.calm O work P) (sources : List ℕ) {st : Ctx × GcScan}
    (hst : Discovering s st)
    (hv : ∀ a ∈ sources, s.live a ∧ s.mayReachVector (.cell a) = true) :
    let st' := discoverSources st sources
    Discovering s st' ∧ st.2.nodes <+: st'.2.nodes ∧ ∀ a ∈ sources, a ∈ st'.2.nodes := by
  unfold discoverSources
  induction sources generalizing st with
  | nil => exact ⟨hst, List.prefix_refl _, fun a ha => absurd ha (by simp)⟩
  | cons a sources ih =>
    obtain ⟨hl, hr⟩ := hv a (List.mem_cons_self ..)
    rw [List.foldl_cons]
    simp only [hst.failed, Bool.false_eq_true, if_false]
    obtain ⟨h1, h2, h3⟩ := gcDiscoverEdge_spec h hst (v := .cell a) fun b hb => by
      cases hb
      exact hl
    obtain ⟨k1, k2, k3⟩ := ih h1 fun b hb => hv b (List.mem_cons_of_mem _ hb)
    refine ⟨k1, h2.trans k2, fun b hb => ?_⟩
    rcases List.mem_cons.mp hb with rfl | hb
    · exact k2.subset (h3 b rfl hr)
    · exact k3 b hb

theorem discoverLoop_spec (h : Inv π s.calm O work P) (hO : NonNeg O) : ∀ (fuel i : ℕ)
    {st : Ctx × GcScan}, Discovering s st → Done s.HotEdge st.2.nodes i → i ≤ st.2.nodes.length →
      s.size < i + fuel →
      let st' := discoverLoop fuel i st
      Discovering s st' ∧ st.2.nodes <+: st'.2.nodes ∧
        ∀ a ∈ st'.2.nodes, ∀ w, s.HotEdge a w → w ∈ st'.2.nodes
  | 0, i, st, hst, _, hi, hf => by
    have := hst.length_le h
    omega
  | fuel + 1, i, st, hst, hd, hi, hf => by
    simp only [discoverLoop, hst.failed, Bool.false_eq_true, if_false]
    cases hn : st.2.nodes[i]? with
    | none => exact ⟨hst, List.prefix_refl _, hd.closed hn⟩
    | some a =>
      have hlt := (List.getElem?_eq_some_iff.mp hn).1
      obtain ⟨h1, h2, h3⟩ := gcDiscoverEdges_spec h (st.1.edges a) hst fun w hw => by
        rw [hst.edges] at hw
        exact h.edge_live hO hw
      have hd' := hd.succ hn h2 fun w hw => h3 w (by rw [hst.edges]; exact hw.1) hw.2
      obtain ⟨k1, k2, k3⟩ := discoverLoop_spec h hO fuel (i + 1) h1 hd'
        (hlt.trans_le h2.length_le) (by omega)
      exact ⟨k1, h2.trans k2, k3⟩

/-- The first walk of a collection. -/
def discovery (s : Ctx) : Ctx × GcScan :=
  discoverLoop (s.size + 1) 0 (discoverSources (s, { nodes := [], failed := false }) s.sources)

theorem Inv.source_live (h : Inv π s.calm O work P) {a : ℕ} (ha : a ∈ s.sources) :
    s.live a ∧ s.mayReachVector (.cell a) = true := by
  obtain ⟨o, items, ho, hb⟩ := h.srcVec a ha
  have ho' : s.heap a = some o := ho
  refine ⟨by rw [live, ho']; simp, ?_⟩
  simp only [mayReachVector, ho', Option.map_some, Option.getD_some]
  exact h.vec a o items ho hb

/-- **Discovery** lists the recorded sources and is closed under edges to what may reach a vector. -/
theorem discover_spec (h : Inv π s.calm O work P) (hO : NonNeg O) :
    Discovering s s.discovery ∧ (∀ a ∈ s.sources, a ∈ s.discovery.2.nodes) ∧
      ∀ a ∈ s.discovery.2.nodes, ∀ w, s.HotEdge a w → w ∈ s.discovery.2.nodes := by
  have h0 : Discovering s (s, { nodes := [], failed := false }) :=
    ⟨rfl, fun a => by simp, List.nodup_nil, fun a ha => absurd ha (by simp),
      fun a ha => absurd ha (by simp), rfl⟩
  obtain ⟨h1, -, h2⟩ := discoverSources_spec h s.sources h0 fun a ha => h.source_live ha
  obtain ⟨h3, h4, h5⟩ := discoverLoop_spec h hO (s.size + 1) 0 h1 (Done.zero _) (Nat.zero_le _)
    (by omega)
  exact ⟨h3, fun a ha => h4.subset (h2 a ha), h5⟩

/-! ### Subtraction -/

/-- The edges from the cells of a list to a cell. -/
def inside (s : Ctx) (nodes : List ℕ) (a : ℕ) : ℕ := (nodes.flatMap s.edges).count (.cell a)

/-- Only the counts of trial deletion differ. -/
structure Trial (s s' : Ctx) : Prop where
  graph : s'.toStore = s.toStore
  marked : s'.marked = s.marked

theorem Trial.edges (h : Trial s s') (a : ℕ) : s'.edges a = s.edges a := by
  unfold Ctx.edges; rw [h.graph]

/-- Subtracting a list of edges, each of which is counted. -/
theorem gcSubtractEdges_spec (vs : List Ref) : ∀ {s : Ctx},
    (∀ a, s.mayReachVector (.cell a) = true → s.visited a = true →
      vs.count (.cell a) ≤ s.trial a) →
    Trial s (vs.foldl gcSubtractEdge s) ∧
      ∀ a, s.mayReachVector (.cell a) = true → s.visited a = true →
        (vs.foldl gcSubtractEdge s).trial a + vs.count (.cell a) = s.trial a := by
  induction vs with
  | nil => exact fun _ => ⟨⟨rfl, rfl⟩, fun a _ _ => rfl⟩
  | cons v vs ih =>
    intro s hle
    rw [List.foldl_cons]
    have skip : gcSubtractEdge s v = s →
        (∀ a, s.mayReachVector (.cell a) = true → s.visited a = true → v ≠ .cell a) →
        Trial s (vs.foldl gcSubtractEdge (gcSubtractEdge s v)) ∧
          ∀ a, s.mayReachVector (.cell a) = true → s.visited a = true →
            (vs.foldl gcSubtractEdge (gcSubtractEdge s v)).trial a + (v :: vs).count (.cell a) =
              s.trial a := by
      intro he hne
      have hcount : ∀ a, s.mayReachVector (.cell a) = true → s.visited a = true →
          (v :: vs).count (.cell a) = vs.count (.cell a) := fun a hr hv =>
        List.count_cons_of_ne (hne a hr hv)
      rw [he]
      obtain ⟨h1, h2⟩ := ih (s := s) fun a hr hv => by
        rw [← hcount a hr hv]; exact hle a hr hv
      exact ⟨h1, fun a hr hv => by rw [hcount a hr hv]; exact h2 a hr hv⟩
    cases v with
    | cell a =>
      by_cases hc : (s.mayReachVector (.cell a) && s.visited a) = true
      swap
      · refine skip (by rw [gcSubtractEdge, if_neg hc]) fun b hr hv => ?_
        rintro ⟨⟩
        exact hc (by rw [hr, hv]; rfl)
      obtain ⟨hr, hv⟩ := (Bool.and_eq_true _ _).mp hc
      have hpos := hle a hr hv
      rw [List.count_cons_self] at hpos
      have e : gcSubtractEdge s (.cell a) =
          { s with trial := Function.update s.trial a (s.trial a - 1) } := by
        rw [gcSubtractEdge, if_pos hc, if_neg (by omega)]
      rw [e]
      obtain ⟨h1, h2⟩ := ih (s := { s with trial := Function.update s.trial a (s.trial a - 1) })
        fun b hrb hvb => by
          have := hle b hrb hvb
          by_cases hb : b = a
          · subst hb
            rw [List.count_cons_self] at this
            simp only [Function.update_self]
            omega
          · have hne : Ref.cell a ≠ .cell b := by simpa using Ne.symm hb
            rw [List.count_cons_of_ne hne] at this
            simpa only [Function.update_of_ne hb] using this
      refine ⟨⟨h1.graph, h1.marked⟩, fun b hrb hvb => ?_⟩
      have := h2 b hrb hvb
      by_cases hb : b = a
      · subst hb
        rw [List.count_cons_self]
        simp only [Function.update_self] at this
        omega
      · have hne : Ref.cell a ≠ .cell b := by simpa using Ne.symm hb
        rw [List.count_cons_of_ne hne]
        simpa only [Function.update_of_ne hb] using this
    | _ => exact skip rfl fun b _ _ => by simp

/-- The loop over the cells subtracts all their edges. -/
theorem subtract_eq (nodes : List ℕ) : ∀ {s t : Ctx}, Trial s t →
    (∀ a, t.mayReachVector (.cell a) = true → t.visited a = true →
      s.inside nodes a ≤ t.trial a) →
    Trial s (nodes.foldl (fun s a => (s.edges a).foldl gcSubtractEdge s) t) ∧
      ∀ a, t.mayReachVector (.cell a) = true → t.visited a = true →
        (nodes.foldl (fun s a => (s.edges a).foldl gcSubtractEdge s) t).trial a +
          s.inside nodes a = t.trial a := by
  induction nodes with
  | nil => exact fun ht _ => ⟨ht, fun a _ _ => rfl⟩
  | cons n nodes ih =>
    intro s t ht hle
    rw [List.foldl_cons]
    have hsplit : ∀ a, s.inside (n :: nodes) a =
        (s.edges n).count (.cell a) + s.inside nodes a := fun a => by
      unfold inside
      rw [List.flatMap_cons, List.count_append]
    obtain ⟨h1, h2⟩ := gcSubtractEdges_spec (t.edges n) (s := t) fun a hr hv => by
      have := hle a hr hv
      rw [hsplit] at this
      rw [ht.edges]
      omega
    have ht' : Trial s ((t.edges n).foldl gcSubtractEdge t) :=
      ⟨h1.graph.trans ht.graph, h1.marked.trans ht.marked⟩
    have hr' : ∀ a, ((t.edges n).foldl gcSubtractEdge t).mayReachVector (.cell a) =
        t.mayReachVector (.cell a) := fun a => by
      simp only [mayReachVector]; rw [h1.graph]
    have hv' : ((t.edges n).foldl gcSubtractEdge t).visited = t.visited := by rw [h1.graph]
    obtain ⟨k1, k2⟩ := ih ht' fun a hr hv => by
      rw [hr'] at hr
      rw [hv'] at hv
      have e1 := h2 a hr hv
      have e2 := hle a hr hv
      rw [hsplit] at e2
      rw [ht.edges] at e1 ⊢
      omega
    refine ⟨k1, fun a hr hv => ?_⟩
    have e1 := h2 a hr hv
    have e2 := k2 a (by rw [hr']; exact hr) (by rw [hv']; exact hv)
    rw [hsplit]
    rw [ht.edges] at e1 e2 ⊢
    omega

/-- The edges of a cell, against the bytes it takes. -/
theorem edges_length_le (o : Obj) : o.edges.length * ptrBytes ≤ extraBytes o.body + 4 * ptrBytes := by
  unfold Obj.edges extraBytes
  cases o.body with
  | pair h t =>
    cases o.plan with
    | none => simp
    | some e => simp only; split_ifs <;> simp
  | env p ks vs k => simp only [List.length_cons, ptrBytes]; split_ifs <;> omega
  | closure c => simp only [List.length_append]; omega
  | tail f args g => simp only [List.length_cons, ptrBytes]; split_ifs <;> omega
  | _ => simp

/-- Fewer edges leave the cells of a list than fit into a `size_t`. -/
theorem Inv.inside_lt (h : Inv π s O work P) {nodes : List ℕ} (hn : nodes.Nodup)
    (hl : ∀ a ∈ nodes, s.live a) (a : ℕ) : s.inside nodes a < sizeMax := by
  have h1 : s.inside nodes a ≤ (nodes.map fun b => (s.edges b).length).sum := by
    unfold inside
    refine List.count_le_length.trans ?_
    rw [List.length_flatMap]
  have h2 : (nodes.map fun b => (s.edges b).length).sum =
      ∑ b ∈ nodes.toFinset, (s.edges b).length := (List.sum_toFinset _ hn).symm
  have h3 : ∑ b ∈ nodes.toFinset, (s.edges b).length ≤
      ∑ b ∈ Finset.range s.size, (s.edges b).length :=
    Finset.sum_le_sum_of_subset fun b hb =>
      Finset.mem_range.mpr (h.bound b (hl b (List.mem_toFinset.mp hb)))
  have h4 : (∑ b ∈ Finset.range s.size, (s.edges b).length) * ptrBytes ≤
      s.payloadBytes + s.size * (4 * ptrBytes) := by
    rw [Finset.sum_mul]
    unfold payloadBytes
    have e : s.size * (4 * ptrBytes) = ∑ b ∈ Finset.range s.size, 4 * ptrBytes := by simp
    rw [e, ← Finset.sum_add_distrib]
    refine Finset.sum_le_sum fun b _ => ?_
    cases hb : s.heap b with
    | none => simp [edges_of_none hb]
    | some o =>
      rw [edges_of_some hb]
      exact edges_length_le o
  have h5 := h.bytes
  have h6 := h.space
  simp only [addressBytes, addressCells, sizeMax, ptrBytes] at h4 h5 h6 ⊢
  omega

/-- The edges that a list of cells has to `a` are references `a` has. -/
theorem Inv.inside_le_held (h : Inv π s O work P) (nodes : List ℕ) (hn : nodes.Nodup)
    (hl : ∀ a ∈ nodes, s.live a) (a : ℕ) :
    (s.inside nodes a : ℤ) ≤ ∑ b ∈ Finset.range s.size, ((s.edges b).count (.cell a) : ℤ) := by
  have h1 : s.inside nodes a = ∑ b ∈ nodes.toFinset, (s.edges b).count (.cell a) := by
    unfold inside
    rw [List.count_flatMap, ← List.sum_toFinset _ hn]
    rfl
  have h2 : ∑ b ∈ nodes.toFinset, (s.edges b).count (.cell a) ≤
      ∑ b ∈ Finset.range s.size, (s.edges b).count (.cell a) :=
    Finset.sum_le_sum_of_subset fun b hb =>
      Finset.mem_range.mpr (h.bound b (hl b (List.mem_toFinset.mp hb)))
  rw [h1]
  exact_mod_cast h2

/-! ### Marking -/

/-- What marking relies on: the cells listed are those the bit `visited` tells, they are closed, and
the work array may have room for them twice. -/
structure Listed (b : Ctx) (nodes : List ℕ) : Prop where
  nodup : nodes.Nodup
  reach : ∀ a ∈ nodes, b.mayReachVector (.cell a) = true
  visited : ∀ a ∈ nodes, b.visited a = true
  closed : ∀ a ∈ nodes, ∀ w, b.HotEdge a w → w ∈ nodes
  room : nodes.length ≤ addressCells

/-- A cell with something left leads to `a`. -/
def Residual (b : Ctx) (nodes : List ℕ) (a : ℕ) : Prop :=
  ∃ r ∈ nodes, b.trial r ≠ 0 ∧ ReflTransGen b.HotEdge r a

/-- The state of marking from `b`: only marks have changed, and the stack holds marked cells. -/
structure Marking (b : Ctx) (nodes : List ℕ) (st : Ctx × GcScan) : Prop where
  graph : st.1.toStore = b.toStore
  trial : st.1.trial = b.trial
  stack : ∀ a ∈ st.2.nodes, a ∈ nodes ∧ st.1.marked a = true
  nodup : st.2.nodes.Nodup
  granted : (∀ k, b.marking k = true) → st.2.failed = false
  sound : ∀ a ∈ nodes, st.1.marked a = true → Residual b nodes a

variable {b : Ctx} {nodes : List ℕ}

/-- The cells that are not marked yet. -/
def unmarked (nodes : List ℕ) (s : Ctx) : Finset ℕ :=
  nodes.toFinset.filter fun a => s.marked a = false

/-- What is left to do: the stack and the cells that are not marked. -/
def marksLeft (nodes : List ℕ) (st : Ctx × GcScan) : ℕ :=
  st.2.nodes.length + (unmarked nodes st.1).card

theorem Marking.edges {st : Ctx × GcScan} (h : Marking b nodes st) (a : ℕ) :
    st.1.edges a = b.edges a := by unfold Ctx.edges; rw [h.graph]

/-- Mark a cell and put it on the stack. -/
def markPush (n : ℕ) (st : Ctx × GcScan) (a : ℕ) : Ctx × GcScan :=
  let r := { st.1 with marked := Function.update st.1.marked a true }.gcPush st.1.marking
    (n + st.2.nodes.length)
  if r.2 then (r.1, { st.2 with nodes := a :: st.2.nodes }) else (r.1, { st.2 with failed := true })

/-- **Marking a cell and putting it on the stack.** Where there is no room for it the walk has
failed. -/
theorem Marking.push (hl : Listed b nodes) {st : Ctx × GcScan} (h : Marking b nodes st) {a : ℕ}
    (ha : a ∈ nodes) (hm : st.1.marked a = false) (hs : Residual b nodes a) :
    let st' := markPush nodes.length st a
    Marking b nodes st' ∧ st'.1.marked = Function.update st.1.marked a true ∧
      marksLeft nodes st' ≤ marksLeft nodes st ∧ (∀ x ∈ st.2.nodes, x ∈ st'.2.nodes) ∧
      (st'.2.failed = false → st.2.failed = false ∧ st'.2.nodes = a :: st.2.nodes) := by
  intro st'
  have hnot : a ∉ st.2.nodes := fun hin => by
    rw [(h.stack a hin).2] at hm
    exact absurd hm (by simp)
  have hlen : (a :: st.2.nodes).length ≤ nodes.length := by
    refine ((List.nodup_cons.mpr ⟨hnot, h.nodup⟩).subperm fun x hx => ?_).length_le
    rcases List.mem_cons.mp hx with rfl | hx
    · exact ha
    · exact (h.stack x hx).1
  have hroom := hl.room
  rw [List.length_cons] at hlen
  have h1 := fun hok => @gcPush_ok { st.1 with marked := Function.update st.1.marked a true }
    st.1.marking (nodes.length + st.2.nodes.length) hok (by simp only [addressCells] at hroom ⊢; omega)
  obtain ⟨h2, h3, h4⟩ := gcPush_keeps { st.1 with marked := Function.update st.1.marked a true }
    st.1.marking (nodes.length + st.2.nodes.length)
  have e : st' = markPush nodes.length st a := rfl
  unfold markPush at e
  simp only at e
  generalize ({ st.1 with marked := Function.update st.1.marked a true }.gcPush st.1.marking
    (nodes.length + st.2.nodes.length)) = r at h1 h2 h3 h4 e
  have hmark : r.1.marked = Function.update st.1.marked a true := h3
  have hsound : ∀ x ∈ nodes, r.1.marked x = true → Residual b nodes x := fun x hx hxm => by
    by_cases hxa : x = a
    · exact hxa ▸ hs
    · rw [hmark, Function.update_of_ne hxa] at hxm
      exact h.sound x hx hxm
  have hstack : ∀ x ∈ st.2.nodes, x ∈ nodes ∧ r.1.marked x = true := fun x hx => by
    refine ⟨(h.stack x hx).1, ?_⟩
    have hxa : x ≠ a := fun e => hnot (e ▸ hx)
    rw [hmark, Function.update_of_ne hxa]
    exact (h.stack x hx).2
  have hcard : (unmarked nodes r.1).card + 1 = (unmarked nodes st.1).card := by
    have e : unmarked nodes r.1 = (unmarked nodes st.1).erase a := by
      ext x
      simp only [unmarked, Finset.mem_filter, Finset.mem_erase, hmark]
      by_cases hxa : x = a
      · simp [hxa]
      · simp [hxa]
    have hin : a ∈ unmarked nodes st.1 :=
      Finset.mem_filter.mpr ⟨List.mem_toFinset.mpr ha, hm⟩
    rw [e, Finset.card_erase_of_mem hin]
    have := Finset.card_pos.mpr ⟨a, hin⟩
    omega
  cases hr : r.2 with
  | true =>
    rw [hr, if_pos rfl] at e
    rw [e]
    refine ⟨⟨h2.trans h.graph, h4.trans h.trial, fun x hx => ?_,
      List.nodup_cons.mpr ⟨hnot, h.nodup⟩, h.granted, hsound⟩, hmark, ?_,
      fun x hx => List.mem_cons_of_mem _ hx, fun hf => ⟨hf, rfl⟩⟩
    · rcases List.mem_cons.mp hx with rfl | hx
      · exact ⟨ha, by rw [hmark]; simp⟩
      · exact hstack x hx
    · simp only [marksLeft, List.length_cons]
      omega
  | false =>
    rw [hr, if_neg (by simp)] at e
    rw [e]
    refine ⟨⟨h2.trans h.graph, h4.trans h.trial, hstack, h.nodup, fun hok => ?_, hsound⟩, hmark, ?_,
      fun x hx => hx, fun hf => absurd hf (by simp)⟩
    · have := h1 fun k => by rw [h.graph]; exact hok k
      rw [hr] at this
      exact absurd this (by simp)
    · simp only [marksLeft]
      omega

/-- **Marking the ends of edges.** If there is room, each of them is marked then, and what is newly
marked is on the stack. -/
theorem gcMarkEdges_spec (hl : Listed b nodes) (vs : List Ref) : ∀ {st : Ctx × GcScan},
    Marking b nodes st →
    (∀ w, .cell w ∈ vs → b.mayReachVector (.cell w) = true → w ∈ nodes ∧ Residual b nodes w) →
    let st' := vs.foldl (gcMarkEdge nodes.length) st
    Marking b nodes st' ∧ (∀ a, st.1.marked a = true → st'.1.marked a = true) ∧
      (∀ a ∈ st.2.nodes, a ∈ st'.2.nodes) ∧
      (∀ w, .cell w ∈ vs → b.mayReachVector (.cell w) = true → st'.1.marked w = true) ∧
      marksLeft nodes st' ≤ marksLeft nodes st ∧
      (st'.2.failed = false → st.2.failed = false ∧
        ∀ a, st'.1.marked a = true → st.1.marked a = true ∨ a ∈ st'.2.nodes) := by
  induction vs with
  | nil =>
    intro st h _
    exact ⟨h, fun _ => id, fun _ => id, fun w hw => absurd hw (by simp), le_rfl,
      fun hf => ⟨hf, fun _ => Or.inl⟩⟩
  | cons v vs ih =>
    intro st h hgood
    rw [List.foldl_cons]
    have ih' := fun {st1 : Ctx × GcScan} (h1 : Marking b nodes st1) =>
      ih h1 fun w hw => hgood w (List.mem_cons_of_mem _ hw)
    have hreach : ∀ r, st.1.mayReachVector r = b.mayReachVector r := fun r => by
      cases r <;> simp only [mayReachVector]
      rw [h.graph]
    by_cases hstep : ∃ a, v = .cell a ∧ b.mayReachVector (.cell a) = true ∧
        st.1.marked a = false
    · obtain ⟨a, rfl, hr, hm⟩ := hstep
      obtain ⟨hin, hres⟩ := hgood a (List.mem_cons_self ..) hr
      have hv : st.1.visited a = true := by rw [h.graph]; exact hl.visited a hin
      obtain ⟨k1, k2, k3, k4, k5⟩ := h.push hl hin hm hres
      have e : gcMarkEdge nodes.length st (.cell a) = markPush nodes.length st a := by
        simp only [gcMarkEdge, hreach, hr, hv, hm, Bool.not_false, Bool.and_self, if_true]
        rfl
      rw [e]
      generalize markPush nodes.length st a = st1 at k1 k2 k3 k4 k5
      obtain ⟨j1, j2, j3, j4, j5, j6⟩ := ih' k1
      have hup : ∀ x, st.1.marked x = true → st1.1.marked x = true := fun x hx => by
        rw [k2]
        by_cases hxa : x = a
        · simp [hxa]
        · rw [Function.update_of_ne hxa]; exact hx
      refine ⟨j1, fun x hx => j2 x (hup x hx), fun x hx => j3 x (k4 x hx), fun w hw hrw => ?_,
        j5.trans k3, fun hf => ?_⟩
      · rcases List.mem_cons.mp hw with hwa | hw
        · cases hwa
          exact j2 a (by rw [k2]; simp)
        · exact j4 w hw hrw
      · obtain ⟨hf1, hnew⟩ := j6 hf
        obtain ⟨hf0, hst1⟩ := k5 hf1
        refine ⟨hf0, fun x hx => ?_⟩
        rcases hnew x hx with hx | hx
        · by_cases hxa : x = a
          · exact Or.inr (j3 x (by rw [hst1, hxa]; exact List.mem_cons_self ..))
          · left
            rw [k2, Function.update_of_ne hxa] at hx
            exact hx
        · exact Or.inr hx
    · have e : gcMarkEdge nodes.length st v = st := by
        cases v with
        | cell a =>
          simp only [gcMarkEdge, hreach]
          refine if_neg fun hc => hstep ⟨a, rfl, ?_⟩
          simp only [Bool.and_eq_true, Bool.not_eq_true'] at hc
          exact ⟨hc.1.1, hc.2⟩
        | _ => rfl
      rw [e]
      obtain ⟨j1, j2, j3, j4, j5, j6⟩ := ih' h
      refine ⟨j1, j2, j3, fun w hw hrw => ?_, j5, j6⟩
      rcases List.mem_cons.mp hw with hwa | hw
      · cases hwa
        refine j2 w ?_
        by_contra hm
        exact hstep ⟨w, rfl, hrw, by simpa using hm⟩
      · exact j4 w hw hrw

/-- The marks are closed, up to the cells on the stack. -/
def ClosedMarks (b : Ctx) (nodes : List ℕ) (st : Ctx × GcScan) : Prop :=
  ∀ a ∈ nodes, st.1.marked a = true →
    a ∈ st.2.nodes ∨ ∀ w, b.HotEdge a w → st.1.marked w = true

/-- **Emptying the stack.** -/
theorem markLoop_spec (hl : Listed b nodes) : ∀ (fuel : ℕ) {st : Ctx × GcScan},
    Marking b nodes st → (st.2.failed = false → ClosedMarks b nodes st) →
    marksLeft nodes st < fuel →
    let st' := markLoop nodes.length fuel st
    Marking b nodes st' ∧ (∀ a, st.1.marked a = true → st'.1.marked a = true) ∧
      marksLeft nodes st' ≤ marksLeft nodes st ∧
      (st'.2.failed = false → st.2.failed = false ∧ ClosedMarks b nodes st' ∧ st'.2.nodes = [])
  | 0, st, _, _, hf => absurd hf (by omega)
  | fuel + 1, st, h, hc, hf => by
    simp only [markLoop]
    by_cases hfail : st.2.failed = true
    · rw [if_pos hfail]
      exact ⟨h, fun _ => id, le_rfl, fun hf => absurd (hfail.symm.trans hf) (by simp)⟩
    rw [if_neg hfail]
    rw [Bool.not_eq_true] at hfail
    cases hst : st.2.nodes with
    | nil => exact ⟨h, fun _ => id, le_rfl, fun _ => ⟨hfail, hc hfail, hst⟩⟩
    | cons a rest =>
      simp only
      have hnd := h.nodup
      rw [hst] at hnd
      obtain ⟨hnot, hrest⟩ := List.nodup_cons.mp hnd
      have ha := h.stack a (by rw [hst]; exact List.mem_cons_self ..)
      have hres := h.sound a ha.1 ha.2
      have h1 : Marking b nodes (st.1, { st.2 with nodes := rest }) :=
        ⟨h.graph, h.trial, fun x hx => h.stack x (by rw [hst]; exact List.mem_cons_of_mem _ hx),
          hrest, h.granted, h.sound⟩
      have hleft : marksLeft nodes (st.1, { st.2 with nodes := rest }) + 1 = marksLeft nodes st := by
        simp only [marksLeft, hst, List.length_cons]
        omega
      obtain ⟨k1, k2, k3, k4, k5, k6⟩ := gcMarkEdges_spec hl (st.1.edges a) h1 fun w hw hr => by
        rw [h.edges] at hw
        obtain ⟨r, hr1, hr2, hr3⟩ := hres
        exact ⟨hl.closed a ha.1 w ⟨hw, hr⟩, r, hr1, hr2, hr3.tail ⟨hw, hr⟩⟩
      generalize hst1 : (st.1.edges a).foldl (gcMarkEdge nodes.length)
        (st.1, { st.2 with nodes := rest }) = st1 at k1 k2 k3 k4 k5 k6
      have hclosed : st1.2.failed = false → ClosedMarks b nodes st1 := by
        intro hf1 x hx hxm
        rcases (k6 hf1).2 x hxm with hxm | hin
        · rcases hc hfail x hx hxm with hin | hall
          · rw [hst] at hin
            rcases List.mem_cons.mp hin with rfl | hin
            · exact Or.inr fun w hw => k4 w (by rw [h.edges]; exact hw.1) hw.2
            · exact Or.inl (k3 x hin)
          · exact Or.inr fun w hw => k2 w (hall w hw)
        · exact Or.inl hin
      obtain ⟨j1, j2, j3, j4⟩ := markLoop_spec hl fuel k1 hclosed (by omega)
      exact ⟨j1, fun x hx => j2 x (k2 x hx), by omega, fun hf2 => ⟨hfail, (j4 hf2).2⟩⟩

/-- The state of the loop over the work array: unless the walk has failed, the marks are closed. -/
structure MarkState (b : Ctx) (nodes : List ℕ) (st : (Ctx × GcScan) × Bool) : Prop where
  inv : Marking b nodes st.1
  left : st.2 = true → st.1.2.failed = true
  few : marksLeft nodes st.1 ≤ nodes.length
  done : st.1.2.failed = false → ClosedMarks b nodes st.1 ∧ st.1.2.nodes = []

/-- **One turn of the loop over the work array** marks a cell with something left. -/
theorem markNode_spec (hl : Listed b nodes) (hsize : nodes.length ≤ b.size)
    {st : (Ctx × GcScan) × Bool} (h : MarkState b nodes st) {a : ℕ} (ha : a ∈ nodes) :
    let st' := markNode nodes.length st a
    MarkState b nodes st' ∧ (∀ x, st.1.1.marked x = true → st'.1.1.marked x = true) ∧
      (st'.1.2.failed = false → st.1.2.failed = false ∧
        (b.trial a ≠ 0 → st'.1.1.marked a = true)) := by
  obtain ⟨st, left⟩ := st
  cases left with
  | true =>
    exact ⟨h, fun _ => id, fun hf => absurd ((h.left rfl).symm.trans hf) (by simp)⟩
  | false =>
  have hinv : Marking b nodes st := h.inv
  have hfew : marksLeft nodes st ≤ nodes.length := h.few
  by_cases hstep : b.trial a ≠ 0 ∧ st.1.marked a = false
  · obtain ⟨k1, k2, k3, k4, k5⟩ := hinv.push hl ha hstep.2 ⟨a, ha, hstep.1, .refl⟩
    have hcond : (decide (st.1.trial a ≠ 0) && !st.1.marked a) = true := by
      rw [hinv.trial, hstep.2]
      simp [hstep.1]
    have hup : ∀ x, st.1.marked x = true → (markPush nodes.length st a).1.marked x = true :=
      fun x hx => by
        rw [k2]
        by_cases hxa : x = a
        · simp [hxa]
        · rw [Function.update_of_ne hxa]; exact hx
    have hma : (markPush nodes.length st a).1.marked a = true := by rw [k2]; simp
    have e : markNode nodes.length (st, false) a =
        if ({ st.1 with marked := Function.update st.1.marked a true }.gcPush st.1.marking
            (nodes.length + st.2.nodes.length)).2 then
          (markLoop nodes.length (st.1.size + 1) (markPush nodes.length st a), false)
        else (markPush nodes.length st a, true) := by
      simp only [markNode, Bool.false_eq_true, if_false, hcond, if_true, markPush]
      split <;> rfl
    have hfail : ({ st.1 with marked := Function.update st.1.marked a true }.gcPush st.1.marking
        (nodes.length + st.2.nodes.length)).2 = false →
        (markPush nodes.length st a).2.failed = true := fun hr => by
      simp only [markPush, hr, Bool.false_eq_true, if_false]
    rw [e]
    split
    · have hclosed : (markPush nodes.length st a).2.failed = false →
          ClosedMarks b nodes (markPush nodes.length st a) := by
        intro hf x hx hxm
        obtain ⟨hf0, hst1⟩ := k5 hf
        obtain ⟨hc, hs⟩ := h.done hf0
        rw [k2] at hxm
        by_cases hxa : x = a
        · exact Or.inl (by rw [hst1, hxa]; exact List.mem_cons_self ..)
        · rw [Function.update_of_ne hxa] at hxm
          exact (hc x hx hxm).imp (fun hin => k4 x hin) fun hall w hw => hup w (hall w hw)
      have hsz : st.1.size = b.size := by rw [hinv.graph]
      obtain ⟨j1, j2, j3, j4⟩ := markLoop_spec hl (st.1.size + 1) k1 hclosed (by omega)
      refine ⟨⟨j1, fun hf => absurd hf (by simp), ?_, fun hf => (j4 hf).2⟩,
        fun x hx => j2 x (hup x hx), fun hf => ⟨(k5 (j4 hf).1).1, fun _ => j2 a hma⟩⟩
      simp only
      omega
    · rename_i hr
      have hf := hfail (by simpa using hr)
      refine ⟨⟨k1, fun _ => hf, k3.trans hfew, fun hf' => ?_⟩, hup, fun hf' => ?_⟩ <;>
        exact absurd (hf.symm.trans hf') (by simp)
  · have e : markNode nodes.length (st, false) a = (st, false) := by
      have hcond : ¬ (decide (st.1.trial a ≠ 0) && !st.1.marked a) = true := fun hcd => by
        simp only [Bool.and_eq_true, decide_eq_true_eq, Bool.not_eq_true', hinv.trial] at hcd
        exact hstep hcd
      simp only [markNode, Bool.false_eq_true, if_false]
      rw [if_neg hcond]
    rw [e]
    refine ⟨h, fun _ => id, fun hf => ⟨hf, fun ht => ?_⟩⟩
    by_contra hm
    exact hstep ⟨ht, by simpa using hm⟩

/-- **Marking.** It changes only marks. If its work array could grow it has not failed, and if it has
not failed it has marked exactly what cells with something left lead to. -/
theorem mark_spec (hl : Listed b nodes) (hsize : nodes.length ≤ b.size)
    (hfresh : ∀ a ∈ nodes, b.marked a = false) :
    let st := nodes.foldl (markNode nodes.length) ((b, { nodes := [], failed := false }), false)
    st.1.1.toStore = b.toStore ∧ ((∀ k, b.marking k = true) → st.1.2.failed = false) ∧
      (st.1.2.failed = false → ∀ a ∈ nodes, st.1.1.marked a = true ↔ Residual b nodes a) := by
  have key : ∀ (todo : List ℕ), (∀ a ∈ todo, a ∈ nodes) → ∀ {st : (Ctx × GcScan) × Bool},
      MarkState b nodes st →
      let st' := todo.foldl (markNode nodes.length) st
      MarkState b nodes st' ∧ (∀ a, st.1.1.marked a = true → st'.1.1.marked a = true) ∧
        (st'.1.2.failed = false → st.1.2.failed = false ∧
          ∀ a ∈ todo, b.trial a ≠ 0 → st'.1.1.marked a = true) := by
    intro todo
    induction todo with
    | nil => exact fun _ {st} h => ⟨h, fun _ => id, fun hf => ⟨hf, fun a ha => absurd ha (by simp)⟩⟩
    | cons a todo ih =>
      intro hsub st h
      rw [List.foldl_cons]
      obtain ⟨k1, k2, k3⟩ := markNode_spec hl hsize h (hsub a (List.mem_cons_self ..))
      obtain ⟨i1, i2, i3⟩ := ih (fun x hx => hsub x (List.mem_cons_of_mem _ hx)) k1
      refine ⟨i1, fun x hx => i2 x (k2 x hx), fun hf => ?_⟩
      obtain ⟨hf1, hall⟩ := i3 hf
      obtain ⟨hf0, hone⟩ := k3 hf1
      refine ⟨hf0, fun x hx hxt => ?_⟩
      rcases List.mem_cons.mp hx with rfl | hx
      · exact i2 x (hone hxt)
      · exact hall x hx hxt
  have h0 : MarkState b nodes ((b, { nodes := [], failed := false }), false) := by
    refine ⟨⟨rfl, rfl, fun a ha => absurd ha (by simp), List.nodup_nil, fun _ => rfl,
      fun a ha hm => absurd (hfresh a ha ▸ hm) (by simp)⟩, fun hf => absurd hf (by simp), ?_,
      fun _ => ⟨fun a ha hm => absurd (hfresh a ha ▸ hm) (by simp), rfl⟩⟩
    simp only [marksLeft, List.length_nil, Nat.zero_add]
    exact (Finset.card_filter_le _ _).trans (List.toFinset_card_le nodes)
  obtain ⟨h1, -, h3⟩ := key nodes (fun _ => id) h0
  refine ⟨h1.inv.graph, h1.inv.granted, fun hf a ha => ⟨h1.inv.sound a ha, ?_⟩⟩
  obtain ⟨hc, hs⟩ := h1.done hf
  rintro ⟨r, hr, ht, hp⟩
  have hm := (h3 hf).2 r hr ht
  have hboth : a ∈ nodes ∧ (nodes.foldl (markNode nodes.length)
      ((b, { nodes := [], failed := false }), false)).1.1.marked a = true := by
    clear ha
    induction hp with
    | refl => exact ⟨hr, hm⟩
    | tail _ he ih =>
      refine ⟨hl.closed _ ih.1 _ he, ?_⟩
      rcases hc _ ih.1 ih.2 with hin | hall
      · rw [hs] at hin
        exact absurd hin (by simp)
      · exact hall _ he
  exact hboth.2

/-- Trial deletion on what discovery has listed. -/
def trialDeletion (st : Ctx × GcScan) : Ctx :=
  st.2.nodes.foldl (fun s a => (s.edges a).foldl gcSubtractEdge s) st.1

/-- The marking of what discovery has listed, after the trial deletion. -/
def markingWalk (st : Ctx × GcScan) : Ctx × GcScan :=
  (st.2.nodes.foldl (markNode st.2.nodes.length)
    ((trialDeletion st, { nodes := [], failed := false }), false)).1

end Ctx

end ShenRc.Runtime
