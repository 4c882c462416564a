import ShenRc.Runtime.Garbage

/-! # Collection

`rcCollect_inv`: the collector keeps the invariant. What it sweeps is garbage (`Traced.garbage`): a
cell it has not marked has no reference but those of the cells it has not marked either. Conversely
every source that is left is reached from outside (`collectFromSources_inv`), so in the end every
cell in use is (`rcCollect_exact`): a cell that is not reached has a predecessor that is not, and off
the sources the graph has no cycles. -/

namespace ShenRc.Runtime

open Relation ShenRc.Graph

namespace Ctx

variable {π : Policy} {s s' : Ctx} {O B : Own} {P : Set Ref}

/-! ### Reachability from outside -/

/-- A cell referred to from outside the graph: by C code, by the context, by the slot of a symbol, or
because it is immortal. -/
def Root (s : Ctx) (O : Own) (a : ℕ) : Prop :=
  s.refs (.cell a) = immortal ∨ 1 ≤ O (.cell a) ∨ .cell a ∈ s.roots ∨ ∃ u, .cell a ∈ s.slots u

/-- A cell reached from outside the graph. -/
def Reached (s : Ctx) (O : Own) (a : ℕ) : Prop := ∃ r, s.Root O r ∧ ReflTransGen s.Edge r a

theorem Reached.edge {u w : ℕ} (h : s.Reached O u) (he : s.Edge u w) : s.Reached O w := by
  obtain ⟨r, hr, hp⟩ := h
  exact ⟨r, hr, hp.tail he⟩

theorem Root.reached {a : ℕ} (h : s.Root O a) : s.Reached O a := ⟨a, h, .refl⟩

/-- The references held, by kind. -/
theorem held_eq (s : Ctx) (r : Ref) : s.held r =
    ∑ a ∈ Finset.range s.size, ((s.edges a).count r : ℤ) +
      ∑ a ∈ Finset.range s.size, ((s.slots a).count r : ℤ) + (s.roots.count r : ℤ) := by
  unfold held heldBy
  rw [Finset.sum_add_distrib]

theorem slot_live {u : ℕ} {r : Ref} (h : r ∈ s.slots u) : s.live u := by
  intro hn
  rw [slots_of_none hn] at h
  simp at h

/-- A cell that is no root has only the references that edges are. -/
theorem Inv.refs_of_not_root (h : Inv π s O [] P) (hO : NonNeg O) {a : ℕ} (hn : ¬ s.Root O a) :
    s.isCounted (.cell a) = true ∧
      (s.refs (.cell a) : ℤ) = ∑ b ∈ Finset.range s.size, ((s.edges b).count (.cell a) : ℤ) := by
  unfold Root at hn
  push Not at hn
  obtain ⟨h1, h2, h3, h4⟩ := hn
  have hc : s.isCounted (.cell a) = true := by simp [isCounted, h1]
  have h5 := hO (.cell a) trivial
  refine ⟨hc, ?_⟩
  rw [h.bal _ hc, held_eq, List.count_eq_zero.mpr h3,
    Finset.sum_eq_zero (f := fun b => ((s.slots b).count (.cell a) : ℤ)) fun b _ => by
      rw [List.count_eq_zero.mpr (h4 b)]; rfl]
  push_cast
  omega

/-- **A cell in use that is not reached has a predecessor that is not.** -/
theorem Inv.pred_of_unreached (h : Inv π s O [] P) (hO : NonNeg O) {a : ℕ} (hl : s.live a)
    (hn : ¬ s.Reached O a) : ∃ u, s.Edge u a ∧ ¬ s.Reached O u := by
  obtain ⟨-, h1⟩ := h.refs_of_not_root hO (a := a) fun hr => hn hr.reached
  have h2 : s.refs (.cell a) ≠ 0 := fun hz => by
    have := (h.zero a hl).mp hz
    simp at this
  have h3 : ∃ b ∈ Finset.range s.size, ((s.edges b).count (.cell a) : ℤ) ≠ 0 := by
    by_contra hall
    push Not at hall
    rw [Finset.sum_eq_zero hall] at h1
    exact h2 (by exact_mod_cast h1)
  obtain ⟨b, -, hb⟩ := h3
  have he : s.Edge b a := List.count_pos_iff.mp (by omega)
  exact ⟨b, he, fun hr => hn (hr.edge he)⟩

/-- **Every cell in use is reached if the sources are**, and a set of cells is closed under
predecessors that are not reached. -/
theorem Inv.reached_of_sources (h : Inv π s O [] P) (hO : NonNeg O) {X : ℕ → Prop}
    (hpred : ∀ u w, s.Edge u w → X w → X u) (hsrc : ∀ a ∈ s.sources, X a → s.Reached O a) {a : ℕ}
    (hl : s.live a) (ha : X a) : s.Reached O a := by
  by_contra hn
  have hfin : {y | s.live y ∧ X y ∧ ¬ s.Reached O y}.Finite :=
    (Finset.finite_toSet (Finset.range s.size)).subset fun y hy =>
      Finset.mem_coe.mpr (Finset.mem_range.mpr (h.bound y hy.1))
  have hempty := h.acyc.eq_empty hfin fun y hy => by
    obtain ⟨hly, hxy, hny⟩ := hy
    obtain ⟨u, he, hnu⟩ := h.pred_of_unreached hO hly hny
    exact ⟨u, ⟨he.live, hpred u y he hxy, hnu⟩, he, fun hm => hnu (hsrc u hm (hpred u y he hxy)),
      fun hm => hny (hsrc y hm hxy)⟩
  have hmem : a ∈ {y | s.live y ∧ X y ∧ ¬ s.Reached O y} := ⟨hl, ha, hn⟩
  rw [hempty] at hmem
  exact hmem

/-! ### What the walks have found -/

/-- What the three walks of the collector leave behind. -/
structure Traced (s : Ctx) (nodes : List ℕ) (m : Ctx) : Prop where
  graph : m.toStore = { s.toStore with visited := m.visited }
  visited : ∀ a, m.visited a = true ↔ s.visited a = true ∨ a ∈ nodes
  nodup : nodes.Nodup
  inUse : ∀ a ∈ nodes, s.live a ∧ s.mayReachVector (.cell a) = true
  sources : ∀ a ∈ s.sources, a ∈ nodes
  closed : ∀ a ∈ nodes, ∀ w, s.HotEdge a w → w ∈ nodes
  marked : ∀ a ∈ nodes, m.marked a = true ↔
    ∃ r ∈ nodes, s.inside nodes r < s.startTrial r ∧ ReflTransGen s.HotEdge r a

/-- The counts trial deletion starts from are large enough. -/
theorem inside_le_start (h : Inv π s.calm O [] P) (hO : NonNeg O) {nodes : List ℕ} (hn : nodes.Nodup)
    (hl : ∀ a ∈ nodes, s.live a) (a : ℕ) : s.inside nodes a ≤ s.startTrial a := by
  unfold startTrial
  split
  · exact (h.inside_lt hn hl a).le
  · rename_i hne
    have hc : s.calm.isCounted (.cell a) = true := by simp [isCounted, hne]
    have h1 := h.bal _ hc
    have h2 := h.inside_le_held nodes hn hl a
    have h3 := held_eq s.calm (.cell a)
    have h4 := hO (.cell a) trivial
    have h5 : 0 ≤ ∑ b ∈ Finset.range s.calm.size, ((s.calm.slots b).count (.cell a) : ℤ) :=
      Finset.sum_nonneg fun b _ => by positivity
    have h6 : s.calm.inside nodes a = s.inside nodes a := rfl
    have h7 : s.calm.refs (.cell a) = s.refs (.cell a) := rfl
    omega

/-- **Trial deletion** leaves of each count what does not come from the list. -/
theorem trialDeletion_spec (h : Inv π s.calm O [] P) (hO : NonNeg O) {st : Ctx × GcScan}
    (hst : Discovering s st) : Trial st.1 (trialDeletion st) ∧
      ∀ a ∈ st.2.nodes, (trialDeletion st).trial a + s.inside st.2.nodes a = s.startTrial a := by
  have hlive : ∀ a ∈ st.2.nodes, s.live a := fun a ha => (hst.nodes a ha).1
  have hreach : ∀ a, st.1.mayReachVector (.cell a) = s.mayReachVector (.cell a) :=
    fun a => hst.reach _
  -- A cell with the bit set that may reach a vector is in the list.
  have hvis : ∀ a, s.live a → st.1.visited a = true → a ∈ st.2.nodes := by
    intro a hl hv
    rcases (hst.visited a).mp hv with hv | hm
    · have := h.unvisited a hl
      rw [show s.calm.visited a = s.visited a from rfl, hv] at this
      exact absurd this (by simp)
    · exact hm
  have hinside : ∀ a, st.1.inside st.2.nodes a = s.inside st.2.nodes a := fun a => by
    unfold inside
    have e : st.1.edges = s.edges := funext hst.edges
    rw [e]
  obtain ⟨k1, k2⟩ := subtract_eq st.2.nodes (s := st.1) (t := st.1) ⟨rfl, rfl⟩ fun a hr hv => by
    rw [hreach] at hr
    have hl : s.live a := by
      intro hn
      simp [mayReachVector, hn] at hr
    rw [hinside, (hst.fresh a (hvis a hl hv)).2]
    exact inside_le_start h hO hst.nodup hlive a
  refine ⟨k1, fun a ha => ?_⟩
  have := k2 a (by rw [hreach]; exact (hst.nodes a ha).2) ((hst.visited a).mpr (Or.inr ha))
  rw [hinside, (hst.fresh a ha).2] at this
  exact this

/-- **The walks.** Discovery finds room for its work array. If marking does too, what it leaves is
`Traced`, and else clearing the bits `visited` undoes the walks. -/
theorem trace_spec (h : Inv π s.calm O [] P) (hO : NonNeg O) :
    s.discovery.2.failed = false ∧
      Same s ((markingWalk s.discovery).1.clearVisited s.discovery.2.nodes) ∧
      ((∀ k, s.marking k = true) → (markingWalk s.discovery).2.failed = false) ∧
      ((markingWalk s.discovery).2.failed = false →
        Traced s s.discovery.2.nodes (markingWalk s.discovery).1) := by
  obtain ⟨h1, h2, h3⟩ := discover_spec h hO
  obtain ⟨k1, ht⟩ := trialDeletion_spec h hO h1
  unfold markingWalk
  generalize s.discovery = st at h1 h2 h3 k1 ht ⊢
  generalize trialDeletion st = t at k1 ht ⊢
  have hlive : ∀ a ∈ st.2.nodes, s.live a := fun a ha => (h1.nodes a ha).1
  have hgraph : t.toStore = { s.toStore with visited := st.1.visited } := k1.graph.trans h1.graph
  have hhot : ∀ u w, t.HotEdge u w ↔ s.HotEdge u w := by
    intro u w
    have e1 : t.edges u = s.edges u := by unfold Ctx.edges; rw [hgraph]
    have e2 : t.mayReachVector (.cell w) = s.mayReachVector (.cell w) := by
      simp only [mayReachVector]; rw [hgraph]
    unfold HotEdge Edge
    rw [e1, e2]
  have hpath : ∀ u w, ReflTransGen t.HotEdge u w ↔ ReflTransGen s.HotEdge u w := fun u w =>
    ⟨fun hp => ReflTransGen.mono (fun _ _ => (hhot _ _).mp) _ _ hp,
      fun hp => ReflTransGen.mono (fun _ _ => (hhot _ _).mpr) _ _ hp⟩
  have hlisted : Listed t st.2.nodes :=
    { nodup := h1.nodup
      reach := fun a ha => by
        have e2 : t.mayReachVector (.cell a) = s.mayReachVector (.cell a) := by
          simp only [mayReachVector]; rw [hgraph]
        rw [e2]
        exact (h1.nodes a ha).2
      visited := fun a ha => by rw [hgraph]; exact (h1.visited a).mpr (Or.inr ha)
      closed := fun a ha w hw => h3 a ha w ((hhot a w).mp hw)
      room := (h1.length_le h).trans h.space }
  obtain ⟨j1, j3, j4⟩ := mark_spec hlisted
    (by rw [hgraph]; exact h1.length_le h)
    (fun a ha => by rw [k1.marked]; exact (h1.fresh a ha).1)
  generalize (st.2.nodes.foldl (markNode st.2.nodes.length)
    ((t, { nodes := [], failed := false }), false)).1 = m at j1 j3 j4 ⊢
  have hm1 : m.1.toStore = { s.toStore with visited := m.1.visited } := by rw [j1, hgraph]
  have hm2 : ∀ a, m.1.visited a = true ↔ s.visited a = true ∨ a ∈ st.2.nodes := fun a => by
    rw [j1, hgraph]
    exact h1.visited a
  refine ⟨h1.failed, clearVisited_same hm1 hm2 fun a ha => h.unvisited a (hlive a ha),
    fun hok => j3 (by rw [hgraph]; exact hok),
    fun hf => ⟨hm1, hm2, h1.nodup, h1.nodes, h2, h3, fun a ha => ?_⟩⟩
  rw [j4 hf a ha]
  unfold Residual
  constructor
  · rintro ⟨r, hr, htr, hp⟩
    exact ⟨r, hr, by have := ht r hr; omega, (hpath r a).mp hp⟩
  · rintro ⟨r, hr, htr, hp⟩
    exact ⟨r, hr, by have := ht r hr; omega, (hpath r a).mpr hp⟩

/-- **What is not marked is garbage.** -/
theorem Traced.garbage {nodes : List ℕ} {m : Ctx} (ht : Traced s nodes m) (h : Inv π s.calm O [] P)
    (hO : NonNeg O) {D : List ℕ} (hnd : D.Nodup)
    (hD : ∀ a, a ∈ D ↔ a ∈ nodes ∧ m.marked a = false) : Garbage s.calm O D := by
  have hlive : ∀ a ∈ nodes, s.live a := fun a ha => (ht.inUse a ha).1
  -- The count of a cell that is not marked is the number of edges from the list to it.
  have hrefs : ∀ a ∈ D, s.startTrial a = s.inside nodes a := by
    intro a ha
    obtain ⟨hn, hm⟩ := (hD a).mp ha
    have h1 := inside_le_start h hO ht.nodup hlive a
    by_contra hne
    have : m.marked a = true := (ht.marked a hn).mpr ⟨a, hn, by omega, .refl⟩
    rw [hm] at this
    exact absurd this (by simp)
  have hcount : ∀ a ∈ D, s.calm.isCounted (.cell a) = true ∧
      s.refs (.cell a) = s.inside nodes a := by
    intro a ha
    have h1 := hrefs a ha
    have h2 := h.inside_lt ht.nodup hlive a
    unfold startTrial at h1
    split at h1
    · have : s.calm.inside nodes a = s.inside nodes a := rfl
      omega
    · rename_i hne
      exact ⟨by simp [isCounted, hne], h1⟩
  have hzero : ∀ a ∈ D, (∑ b ∈ Finset.range s.size, ((s.edges b).count (.cell a) : ℤ)) =
        s.inside nodes a ∧ (∀ u, .cell a ∉ s.slots u) ∧ .cell a ∉ s.roots ∧ O (.cell a) = 0 := by
    intro a ha
    obtain ⟨hc, he⟩ := hcount a ha
    have h1 := h.bal _ hc
    have h2 := held_eq s.calm (.cell a)
    have h3 := h.inside_le_held nodes ht.nodup hlive a
    have h4 := hO (.cell a) trivial
    have h5 : ∀ u, s.live u → ((s.slots u).count (.cell a) : ℤ) ≤
        ∑ b ∈ Finset.range s.size, ((s.slots b).count (.cell a) : ℤ) := fun u hu =>
      Finset.single_le_sum (f := fun b => ((s.slots b).count (.cell a) : ℤ))
        (fun b _ => by positivity) (Finset.mem_range.mpr (h.bound u hu))
    have h6 : 0 ≤ ∑ b ∈ Finset.range s.size, ((s.slots b).count (.cell a) : ℤ) :=
      Finset.sum_nonneg fun b _ => by positivity
    change (s.refs (.cell a) : ℤ) = _ at h1
    change _ = ∑ b ∈ Finset.range s.size, ((s.edges b).count (.cell a) : ℤ) +
      ∑ b ∈ Finset.range s.size, ((s.slots b).count (.cell a) : ℤ) + (s.roots.count (.cell a) : ℤ)
      at h2
    change (s.inside nodes a : ℤ) ≤ ∑ b ∈ Finset.range s.size, ((s.edges b).count (.cell a) : ℤ)
      at h3
    refine ⟨by omega, fun u hm => ?_, fun hm => ?_, by omega⟩
    · have h7 := h5 u (slot_live hm)
      have h8 := List.count_pos_iff.mpr hm
      omega
    · have h8 := List.count_pos_iff.mpr hm
      omega
  refine ⟨hnd, fun a ha => hlive a ((hD a).mp ha).1, fun a ha => (hcount a ha).1,
    fun u a ha he => ?_, fun a ha => (hzero a ha).2.2.2, fun u a ha => (hzero a ha).2.1 u,
    fun a ha => (hzero a ha).2.2.1⟩
  obtain ⟨hn, hm⟩ := (hD a).mp ha
  have hu : u ∈ nodes := by
    by_contra hu
    have h1 := h.inside_le_held (u :: nodes) (List.nodup_cons.mpr ⟨hu, ht.nodup⟩)
      (fun b hb => by
        rcases List.mem_cons.mp hb with rfl | hb
        · exact he.live
        · exact hlive b hb) a
    have h2 : s.calm.inside (u :: nodes) a = (s.edges u).count (.cell a) + s.inside nodes a := by
      unfold inside
      rw [List.flatMap_cons, List.count_append]
      rfl
    have h3 : 0 < (s.edges u).count (.cell a) := List.count_pos_iff.mpr he
    have h4 := (hzero a ha).1
    change (s.calm.inside (u :: nodes) a : ℤ) ≤
      ∑ b ∈ Finset.range s.size, ((s.edges b).count (.cell a) : ℤ) at h1
    omega
  refine (hD u).mpr ⟨hu, ?_⟩
  by_contra hmu
  obtain ⟨r, hr, hlt, hp⟩ := (ht.marked u hu).mp (by simpa using hmu)
  have := (ht.marked a hn).mpr ⟨r, hr, hlt, hp.tail ⟨he, (ht.inUse a hn).2⟩⟩
  rw [hm] at this
  exact absurd this (by simp)

/-- **What is marked is reached from outside.** -/
theorem Traced.reached {nodes : List ℕ} {m : Ctx} (ht : Traced s nodes m) (h : Inv π s.calm O [] P)
    (hO : NonNeg O) {a : ℕ} (ha : a ∈ nodes) (hm : m.marked a = true) : s.calm.Reached O a := by
  have hlive : ∀ a ∈ nodes, s.live a := fun a ha => (ht.inUse a ha).1
  -- What reaches a vector and is not listed is reached: no source is among it.
  have hout : ∀ u, s.live u → s.mayReachVector (.cell u) = true ∧ u ∉ nodes →
      s.calm.Reached O u := fun u hl hu =>
    h.reached_of_sources hO (X := fun u => s.mayReachVector (.cell u) = true ∧ u ∉ nodes)
      (fun u w he hw => ⟨h.flags u w he hw.1, fun hn => hw.2 (ht.closed u hn w ⟨he, hw.1⟩)⟩)
      (fun a ha hx => absurd (ht.sources a ha) hx.2) hl hu
  obtain ⟨r, hr, hlt, hp⟩ := (ht.marked a ha).mp hm
  have hreached : s.calm.Reached O r := by
    by_contra hn
    obtain ⟨hc, h1⟩ := h.refs_of_not_root hO (a := r) fun hroot => hn hroot.reached
    have hstart : s.startTrial r = s.refs (.cell r) := by
      unfold startTrial
      rw [if_neg]
      intro hi
      simp [isCounted, hi] at hc
    have h2 : ∀ u, s.Edge u r → u ∈ nodes := by
      intro u he
      by_contra hu
      exact hn ((hout u he.live ⟨h.flags u r he (ht.inUse r hr).2, hu⟩).edge he)
    have h3 : (∑ b ∈ Finset.range s.size, ((s.edges b).count (.cell r) : ℤ)) =
        s.inside nodes r := by
      have e1 : s.inside nodes r = ∑ b ∈ nodes.toFinset, (s.edges b).count (.cell r) := by
        unfold inside
        rw [List.count_flatMap, ← List.sum_toFinset _ ht.nodup]
        rfl
      rw [e1]
      push_cast
      refine (Finset.sum_subset (fun b hb => ?_) fun b _ hb => ?_).symm
      · exact Finset.mem_range.mpr (h.bound b (hlive b (List.mem_toFinset.mp hb)))
      · rw [List.count_eq_zero.mpr fun he => hb (List.mem_toFinset.mpr (h2 b he))]
        rfl
    change (s.refs (.cell r) : ℤ) =
      ∑ b ∈ Finset.range s.size, ((s.edges b).count (.cell r) : ℤ) at h1
    omega
  obtain ⟨x, hx, hxr⟩ := hreached
  exact ⟨x, hx, hxr.trans (HotEdge.toEdge hp)⟩

/-! ### The sweep -/

/-- The sweep has passed the cells of `done`. -/
structure Swept (m : Ctx) (done : List ℕ) (st : Ctx × List ℕ) : Prop where
  graph : st.1.toStore = { m.toStore with
    visited := st.1.visited, sources := st.1.sources, cycleSources := st.1.cycleSources }
  marked : st.1.marked = m.marked
  visited : ∀ a, st.1.visited a = (m.visited a && !(decide (a ∈ done) && m.marked a))
  dead : ∀ a, a ∈ st.2 ↔ a ∈ done ∧ m.marked a = false
  deadNodup : st.2.Nodup
  sources : ∀ a, a ∈ st.1.sources ↔ a ∈ m.sources ∧ a ∉ st.2
  srcNodup : st.1.sources.Nodup
  srcCount : st.1.cycleSources = st.1.sources.length

theorem sweepNode_spec {m : Ctx} {done : List ℕ} {st : Ctx × List ℕ} (h : Swept m done st) {a : ℕ}
    (ha : a ∉ done) (hl : m.live a) : Swept m (done ++ [a]) (sweepNode st a) := by
  unfold sweepNode
  rw [h.marked]
  by_cases hm : m.marked a = true
  · rw [if_pos hm]
    refine ⟨?_, h.marked, fun b => ?_, fun b => ?_, h.deadNodup, h.sources, h.srcNodup, h.srcCount⟩
    · simp only [setVisited]
      rw [h.graph]
    · by_cases hb : b = a
      · subst hb; simp [setVisited, hm]
      · simp [setVisited, hb, h.visited b]
    · rw [h.dead b, List.mem_append, List.mem_singleton]
      by_cases hb : b = a
      · subst hb; simp [hm, ha]
      · simp [hb]
  · rw [if_neg hm]
    have hm' : m.marked a = false := by simpa using hm
    obtain ⟨o, ho⟩ := Option.ne_none_iff_exists'.mp hl
    have ho' : st.1.heap a = some o := by rw [h.graph]; exact ho
    have hs := unlinkObject_toStore ho'
    have hk : (st.1.unlinkObject a).marked = st.1.marked := by
      unfold unlinkObject
      rw [ho']
      simp only
      split <;> rfl
    have hnot : a ∉ st.2 := fun hin => ha ((h.dead a).mp hin).1
    generalize st.1.unlinkObject a = s1 at hs hk ⊢
    have hv : s1.visited = st.1.visited := by rw [hs]
    have hsrc : s1.sources = st.1.sources.erase a := by rw [hs]
    refine ⟨?_, hk.trans h.marked, fun b => ?_, fun b => ?_, List.nodup_cons.mpr ⟨hnot, h.deadNodup⟩,
      fun b => ?_, ?_, ?_⟩
    · rw [hs, h.graph]
    · simp only [hv, h.visited b, List.mem_append, List.mem_singleton]
      by_cases hb : b = a
      · subst hb; simp [hm', ha]
      · simp [hb]
    · rw [List.mem_cons, h.dead b, List.mem_append, List.mem_singleton]
      by_cases hb : b = a
      · subst hb; simp [hm']
      · simp [hb]
    · rw [hsrc, h.srcNodup.mem_erase_iff, h.sources b, List.mem_cons]
      tauto
    · rw [hsrc]; exact h.srcNodup.erase _
    · have e : s1.cycleSources =
          if a ∈ st.1.sources then st.1.cycleSources - 1 else st.1.cycleSources := by rw [hs]
      rw [e, hsrc, h.srcCount, List.length_erase]
      split_ifs with hin
      · have := List.length_pos_of_mem hin
        omega
      · rfl

theorem sweep_spec {m : Ctx} (todo : List ℕ) : ∀ (done : List ℕ) (st : Ctx × List ℕ),
    Swept m done st → (done ++ todo).Nodup → (∀ a ∈ todo, m.live a) →
    Swept m (done ++ todo) (todo.foldl sweepNode st) := by
  induction todo with
  | nil => exact fun _ _ h _ _ => by rw [List.append_nil]; exact h
  | cons a todo ih =>
    intro done st h hn hl
    have e : done ++ a :: todo = done ++ [a] ++ todo := by simp
    have ha : a ∉ done := fun hm => by
      have := List.nodup_append.mp hn
      exact this.2.2 a hm a (List.mem_cons_self ..) rfl
    rw [List.foldl_cons, e]
    exact ih _ _ (sweepNode_spec h ha (hl a (List.mem_cons_self ..))) (e ▸ hn)
      fun b hb => hl b (List.mem_cons_of_mem _ hb)

/-! ### Sources that lie on no cycle -/

theorem uncheckSource_inv (h : Inv π s.calm O [] P) (hO : NonNeg O) {a : ℕ} (ha : a ∈ s.sources) :
    Inv π (s.uncheckSource a).calm O [] P ∧
      ((s.uncheckSource a).sources = s.sources ∨ (s.uncheckSource a).sources = s.sources.erase a) ∧
      (s.uncheckSource a).toStore = { s.toStore with
        sources := (s.uncheckSource a).sources, cycleSources := (s.uncheckSource a).cycleSources } := by
  obtain ⟨o, items, ho, hb⟩ := h.srcVec a ha
  have hl : s.live a := fun hn => by
    rw [show s.calm.heap a = s.heap a from rfl, hn] at ho
    exact absurd ho (by simp)
  have hs := reaches_same h hO a (.cell a) sizeMax true fun b hb => by cases hb; exact hl
  have hv : s.mayReachVector (.cell a) = true := by
    simp only [mayReachVector, show s.heap a = some o from ho, Option.map_some, Option.getD_some]
    exact h.vec a o items ho hb
  have hsound := reaches_sound h hO a a sizeMax true hl hv
  unfold uncheckSource onCycle
  simp only
  generalize s.reaches a (.cell a) sizeMax true = r at hs hsound ⊢
  have hstore : r.1.toStore = s.toStore := hs
  have hcalm : Same s.calm r.1.calm := by
    change { r.1.toStore with collecting := false } = { s.toStore with collecting := false }
    rw [hstore]
  split
  · exact ⟨h.same hcalm, Or.inl (by rw [hstore]), by rw [hstore]⟩
  · rename_i hno
    have hcyc := (hsound (by simpa using hno)).2 rfl
    refine ⟨?_, Or.inr ?_, ?_⟩
    · refine Inv.same (h.unlink ha hcyc) ?_
      change { r.1.toStore with
        sources := r.1.sources.erase a, cycleSources := r.1.cycleSources - 1, collecting := false } =
        { s.toStore with
          sources := s.sources.erase a, cycleSources := s.cycleSources - 1, collecting := false }
      rw [hstore]
    · change r.1.sources.erase a = _
      rw [hstore]
    · simp only [sourceUnlink]
      rw [hstore]

theorem uncheckSources_inv (todo : List ℕ) : ∀ {s : Ctx}, Inv π s.calm O [] P → NonNeg O →
    todo.Nodup → (∀ a ∈ todo, a ∈ s.sources) →
    let s' := todo.foldl uncheckSource s
    Inv π s'.calm O [] P ∧ (∀ a ∈ s'.sources, a ∈ s.sources) ∧
      s'.toStore = { s.toStore with sources := s'.sources, cycleSources := s'.cycleSources } := by
  induction todo with
  | nil => exact fun h _ _ _ => ⟨h, fun _ => id, rfl⟩
  | cons a todo ih =>
    intro s h hO hn hm
    rw [List.foldl_cons]
    obtain ⟨hna, hn'⟩ := List.nodup_cons.mp hn
    obtain ⟨h1, h2, h3⟩ := uncheckSource_inv h hO (hm a (List.mem_cons_self ..))
    have hsub : ∀ b ∈ (s.uncheckSource a).sources, b ∈ s.sources := by
      intro b hb
      rcases h2 with e | e
      · exact e ▸ hb
      · rw [e] at hb; exact List.mem_of_mem_erase hb
    obtain ⟨k1, k2, k3⟩ := ih h1 hO hn' fun b hb => by
      have hbs := hm b (List.mem_cons_of_mem _ hb)
      rcases h2 with e | e
      · rw [e]; exact hbs
      · rw [e]
        refine (List.mem_erase_of_ne ?_).mpr hbs
        rintro rfl
        exact hna hb
    exact ⟨k1, fun b hb => hsub b (k2 b hb), by rw [k3, h3]⟩

/-! ### The whole -/

/-- What a collection leaves: cells stay as they are or go, and no count that is not kept changes. -/
structure Collected (s s' : Ctx) : Prop where
  heap : ∀ a, s'.heap a = s.heap a ∨ s'.heap a = none
  refs : ∀ r, s.isCounted r = false → s'.refs r = s.refs r
  refs_le : ∀ r, s'.refs r ≤ s.refs r
  roots : s'.roots = s.roots
  size : s'.size = s.size

theorem Collected.of_same (h : Same s s') : Collected s s' := by
  have hs : s'.toStore = s.toStore := h
  refine ⟨fun a => Or.inl ?_, fun r _ => ?_, fun r => ?_, ?_, ?_⟩
  · rw [hs]
  · rw [hs]
  · rw [hs]
  · unfold Ctx.roots; rw [hs]
  · rw [hs]

theorem Collected.refl (s : Ctx) : Collected s s := .of_same (Same.refl s)

/-- The work arrays of a collection that has found room: its garbage is released, and freed. -/
def freeDead (st : Ctx × List ℕ) : Ctx :=
  st.2.foldl rawFree (st.2.foldl (fun s a => (s.edges a).foldl gcReleaseEdge s) st.1)

/-- The counter of what the collection has freed. -/
def countFreed (s : Ctx) (frees : ℤ) : Ctx :=
  { s with
    stats := { s.stats with
      cycleObjectsFreed := s.stats.cycleObjectsFreed + (s.stats.totalFrees - frees) } }

/-- The stages of a collection that has found room for its work arrays. -/
theorem collectFromSources_eq (hd : s.discovery.2.failed = false)
    (hm : (markingWalk s.discovery).2.failed = false) :
    s.collectFromSources =
      let m := (markingWalk s.discovery).1
      let s' := (freeDead (s.discovery.2.nodes.foldl sweepNode (m, []))).countFreed m.stats.totalFrees
      (s'.sources.take 64).foldl uncheckSource s' := by
  unfold collectFromSources
  change (if s.discovery.2.failed = true then _ else
    if (markingWalk s.discovery).2.failed = true then _ else _) = _
  rw [if_neg (by rw [hd]; simp), if_neg (by rw [hm]; simp)]
  rfl

theorem collectFromSources_discovery (h : s.discovery.2.failed = true) :
    s.collectFromSources = s.discovery.1.clearVisited s.discovery.2.nodes := if_pos h

theorem collectFromSources_marking (hd : s.discovery.2.failed = false)
    (hm : (markingWalk s.discovery).2.failed = true) :
    s.collectFromSources = (markingWalk s.discovery).1.clearVisited s.discovery.2.nodes := by
  unfold collectFromSources
  change (if s.discovery.2.failed = true then _ else
    if (markingWalk s.discovery).2.failed = true then _ else _) = _
  rw [if_neg (by rw [hd]; simp), if_pos hm]
  rfl

section

variable {nodes : List ℕ} {m : Ctx} {st : Ctx × List ℕ} (ht : Traced s nodes m)
include ht

theorem Traced.swept (h : Inv π s.calm O [] P) :
    Swept m nodes (nodes.foldl sweepNode (m, [])) := by
  have hmlive : ∀ a ∈ nodes, m.live a := fun a ha => by
    rw [live, ht.graph]
    exact (ht.inUse a ha).1
  have hsources : m.sources = s.sources := by rw [ht.graph]
  have hcount : m.cycleSources = s.cycleSources := by rw [ht.graph]
  have hsw := sweep_spec nodes [] (m, [])
    ⟨rfl, rfl, fun a => by simp, fun a => by simp, List.nodup_nil, fun a => by simp,
      hsources ▸ h.srcNodup, by rw [hcount, hsources]; exact h.srcCount⟩
    (by simpa using ht.nodup) hmlive
  rwa [List.nil_append] at hsw

theorem Traced.swept_store (hsw : Swept m nodes st) : st.1.toStore = { s.calm.toStore with
    visited := st.1.visited, sources := st.1.sources, cycleSources := st.1.cycleSources
    collecting := st.1.collecting } := by
  rw [hsw.graph, ht.graph]

/-- After the sweep the bit `visited` says what is garbage. -/
theorem Traced.swept_visited (h : Inv π s.calm O [] P) (hsw : Swept m nodes st) {a : ℕ}
    (hl : s.live a) : st.1.visited a = decide (a ∈ st.2) := by
  rw [hsw.visited a]
  have hclear : s.visited a = false := h.unvisited a hl
  have hvisited := ht.visited a
  have hdead := hsw.dead a
  rw [hclear] at hvisited
  by_cases hn : a ∈ nodes
  · have hv : m.visited a = true := hvisited.mpr (Or.inr hn)
    cases hm : m.marked a <;> simp [hv, hn, hm, hdead]
  · have hv : m.visited a = false := by
      by_contra hc
      have := hvisited.mp (by simpa using hc)
      simp [hn] at this
    simp [hv, hdead, hn]

/-- **Releasing what the garbage holds**, while the garbage is hidden. -/
theorem Traced.releaseGarbage (h : Inv π s.calm O [] P) (hO : NonNeg O) (hsw : Swept m nodes st) :
    let s' := st.2.foldl (fun s a => (s.edges a).foldl gcReleaseEdge s) st.1
    Inv π (hide st.2 s') O [] P ∧ Spares st.2 st.1 s' ∧ Frees (hide st.2 st.1) (hide st.2 s') := by
  have hstore := ht.swept_store hsw
  have hedges : ∀ a, st.1.edges a = s.calm.edges a := fun a => by
    unfold edges; rw [hstore]
  have hsources : m.sources = s.sources := by rw [ht.graph]
  have hhide := h.hide hO (ht.garbage h hO hsw.deadNodup hsw.dead) hstore
    (fun a ha hl => by rw [ht.swept_visited h hsw hl]; simpa using ha)
    (fun a => by rw [hsw.sources a, hsources]) hsw.srcNodup hsw.srcCount
  refine releaseGarbage_spec st.2 (fun _ => id) (fun a _ => hedges a) hhide hO (fun v hv => ?_)
    fun a ha => ?_
  · obtain ⟨a, -, hva⟩ := List.mem_flatMap.mp hv
    exact h.not_priv (Or.inl hva)
  · obtain ⟨d, hd, hda⟩ := List.mem_flatMap.mp ha
    have hl : s.live a := h.edge_live hO hda
    rw [ht.swept_visited h hsw hl, hsw.marked]
    by_cases hm : a ∈ st.2
    · have hu : m.marked a = false := ((hsw.dead a).mp hm).2
      simp [hm, hu]
    · simp [hm]

/-- The heap in which the garbage has been freed is the one in which it was hidden. -/
theorem Traced.freeDead_store (h : Inv π s.calm O [] P) (hO : NonNeg O) (hsw : Swept m nodes st) :
    let s' := st.2.foldl (fun s a => (s.edges a).foldl gcReleaseEdge s) st.1
    ∃ fp fv, (freeDead st).toStore = { (hide st.2 s').toStore with
        freePairs := fp, freeValues := fv, collecting := s'.collecting } ∧
      (fp ++ fv).Nodup ∧ ∀ a ∈ fp ++ fv, a ∈ st.2 ∨ a ∈ s'.freePairs ++ s'.freeValues := by
  obtain ⟨k1, k2, k3⟩ := ht.releaseGarbage h hO hsw
  have hg := ht.garbage h hO hsw.deadNodup hsw.dead
  have hstore := ht.swept_store hsw
  unfold freeDead
  generalize st.2.foldl (fun s a => (s.edges a).foldl gcReleaseEdge s) st.1 = s' at k1 k2 k3 ⊢
  obtain ⟨fp, fv, j1, j2, j3⟩ := rawFrees_spec (s := s') st.2 hsw.deadNodup
    (fun a ha => by
      rw [live, k2.heap a ha, hstore]
      exact hg.live a ha)
    (fun a ha hm => by
      have := k2.free a ha hm
      rw [hstore] at this
      exact (h.freeDead a this).1 (hg.live a ha)) k1.freeNodup
  exact ⟨fp, fv, j1, j2, j3⟩

/-- **Freeing the garbage** keeps the invariant. -/
theorem Traced.freeDead_inv (h : Inv π s.calm O [] P) (hO : NonNeg O) (hsw : Swept m nodes st) :
    Inv π (freeDead st).calm O [] P := by
  obtain ⟨k1, k2, k3⟩ := ht.releaseGarbage h hO hsw
  obtain ⟨fp, fv, j1, j2, j3⟩ := ht.freeDead_store h hO hsw
  have hg := ht.garbage h hO hsw.deadNodup hsw.dead
  have hstore := ht.swept_store hsw
  generalize st.2.foldl (fun s a => (s.edges a).foldl gcReleaseEdge s) st.1 = s' at k1 k2 k3 j1 j3
  have hsize : s'.size = s.size := by
    have := k3.size
    change s'.size = st.1.size at this
    rw [this, hstore]
  have hfreed : Inv π { (hide st.2 s') with freePairs := fp, freeValues := fv } O [] P := by
    refine { k1 with freeDead := fun a ha => ?_, freeNodup := j2 }
    rcases j3 a ha with hd | hf
    · refine ⟨hide_dead hd, ?_⟩
      change a < s'.size
      rw [hsize]
      exact h.bound a (hg.live a hd)
    · exact k1.freeDead a hf
  refine hfreed.same ?_
  change { (freeDead st).toStore with collecting := false } = _
  rw [j1]
  rfl

/-- Freeing the garbage changes nothing else. -/
theorem Traced.freeDead_collected (h : Inv π s.calm O [] P) (hO : NonNeg O)
    (hsw : Swept m nodes st) : Collected s (freeDead st) := by
  obtain ⟨-, -, k3⟩ := ht.releaseGarbage h hO hsw
  obtain ⟨fp, fv, j1, -, -⟩ := ht.freeDead_store h hO hsw
  have hg := ht.garbage h hO hsw.deadNodup hsw.dead
  have hstore := ht.swept_store hsw
  generalize st.2.foldl (fun s a => (s.edges a).foldl gcReleaseEdge s) st.1 = s' at k3 j1
  refine ⟨fun a => ?_, fun r hr => ?_, fun r => ?_, ?_, ?_⟩
  · rw [j1]
    by_cases hm : a ∈ st.2
    · exact Or.inr (if_pos hm)
    · have hkept := k3.heap a
      rw [hide_heap (s := st.1) hm, hstore] at hkept
      exact hkept
  · have hm : r ∉ st.2.map Ref.cell := fun hm => by
      obtain ⟨a, ha, rfl⟩ := List.mem_map.mp hm
      have := hg.counted a ha
      rw [show s.calm.isCounted (.cell a) = s.isCounted (.cell a) from rfl, hr] at this
      exact absurd this (by simp)
    have hcounted : st.1.isCounted r = s.isCounted r := by
      have : st.1.refs = s.refs := by rw [hstore]
      cases r <;> simp [isCounted, this]
    have hkept := k3.refs r (by rw [hide_isCounted hm, hcounted, hr])
    rw [hide_refs (s := st.1) hm, hstore] at hkept
    rw [j1]
    exact hkept
  · rw [j1]
    by_cases hm : r ∈ st.2.map Ref.cell
    · rw [show (hide st.2 s').refs r = 0 from if_pos hm]
      exact Nat.zero_le _
    · have hle := k3.refs_le r
      rw [hide_refs (s := st.1) hm, hstore] at hle
      exact hle
  · have hrest := k3.rest
    have hroots : s'.builtinRoots = st.1.builtinRoots ∧ s'.retired = st.1.retired :=
      ⟨show (hide st.2 s').builtinRoots = _ by rw [hrest]; rfl,
        show (hide st.2 s').retired = _ by rw [hrest]; rfl⟩
    unfold Ctx.roots
    rw [j1]
    change List.ofFn s'.builtinRoots ++ s'.retired = _
    rw [hroots.1, hroots.2, hstore]
  · have hsize := k3.size
    change s'.size = st.1.size at hsize
    rw [j1]
    change s'.size = _
    rw [hsize, hstore]

/-- The sources that are left when the garbage has gone are reached from outside. -/
theorem Traced.freeDead_sources (h : Inv π s.calm O [] P) (hO : NonNeg O) (hsw : Swept m nodes st)
    {a : ℕ} (ha : a ∈ (freeDead st).sources) : s.calm.Reached O a := by
  obtain ⟨-, -, k3⟩ := ht.releaseGarbage h hO hsw
  obtain ⟨fp, fv, j1, -, -⟩ := ht.freeDead_store h hO hsw
  rw [j1] at ha
  obtain ⟨hm, hd⟩ := (hsw.sources a).mp (k3.sources a ha)
  rw [ht.graph] at hm
  have hn := ht.sources a hm
  refine ht.reached h hO hn ?_
  by_contra hu
  exact hd ((hsw.dead a).mpr ⟨hn, by simpa using hu⟩)

end

/-- **`collect_from_sources`** keeps the invariant. If marking found room, the sources it leaves are
reached from outside. -/
theorem collectFromSources_inv (h : Inv π s.calm O [] P) (hO : NonNeg O) :
    Inv π s.collectFromSources.calm O [] P ∧ Collected s s.collectFromSources ∧
      ((∀ k, s.marking k = true) →
        ∀ a ∈ s.collectFromSources.sources, s.calm.Reached O a) := by
  obtain ⟨hd, hsame, hok, htraced⟩ := trace_spec h hO
  by_cases hf : (markingWalk s.discovery).2.failed = true
  · rw [collectFromSources_marking hd hf]
    refine ⟨h.same hsame.calm, Collected.of_same hsame, fun hroom => ?_⟩
    rw [hok hroom] at hf
    exact absurd hf (by simp)
  have ht := htraced (by simpa using hf)
  rw [collectFromSources_eq hd (by simpa using hf)]
  simp only
  have hsw := ht.swept h
  have hinv := ht.freeDead_inv h hO hsw
  have hcol := ht.freeDead_collected h hO hsw
  have hsources : ∀ a, _ → _ := fun a => ht.freeDead_sources h hO hsw (a := a)
  generalize freeDead (s.discovery.2.nodes.foldl sweepNode _) = s₁ at hinv hcol hsources ⊢
  generalize hs₂ : s₁.countFreed (markingWalk s.discovery).1.stats.totalFrees = s₂
  have hstore : s₂.toStore = s₁.toStore := by rw [← hs₂]; rfl
  have hinv₂ : Inv π s₂.calm O [] P := hinv.same (by
    change { s₂.toStore with collecting := false } = { s₁.toStore with collecting := false }
    rw [hstore])
  obtain ⟨i1, i2, i3⟩ := uncheckSources_inv (s₂.sources.take 64) hinv₂ hO
    (hinv₂.srcNodup.sublist (List.take_sublist _ _)) fun a ha => List.mem_of_mem_take ha
  have hleft : s₂.sources = s₁.sources := by rw [hstore]
  refine ⟨i1, ⟨fun a => ?_, fun r hr => ?_, fun r => ?_, ?_, ?_⟩,
    fun _ a ha => hsources a (hleft ▸ i2 a ha)⟩
  · rw [i3, hstore]; exact hcol.heap a
  · rw [i3, hstore]; exact hcol.refs r hr
  · rw [i3, hstore]; exact hcol.refs_le r
  · rw [← hcol.roots]
    unfold Ctx.roots
    rw [i3, hstore]
  · rw [i3, hstore]; exact hcol.size

end Ctx

end ShenRc.Runtime
