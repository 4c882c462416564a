import ShenRc.Runtime.Runs

/-! # The acyclic policy

A context made with the acyclic policy records no cycle source, so its graph has no cycle at all, and
`rc_vector_set` refuses an item exactly if it reaches the vector. That a search answers no only if there
is no path is `reaches_sound`; here is the other half: whatever the search meets lies on a path from
the item, its budget is larger than the cost of all cells together, and it changes nothing but the
work array.

Both halves rest on clear bits `visited`. A growth of the work array that is refused leaves one set,
the next search takes that cell for one it has met, and a cycle is let in (`stale_bit_closes_cycle`). -/

namespace ShenRc.Runtime

open Relation ShenRc.Graph

namespace Ctx

variable {π : Policy} {s : Ctx} {O : Own} {work : List ℕ} {P : Set Ref}

/-! ### The budget lasts -/

/-- What the search pays for a cell. -/
def searchCost (s : Ctx) (a : ℕ) : ℕ := ((s.heap a).map searchWidth).getD 0 + 1

theorem searchWidth_le (o : Obj) : 8 * (searchWidth o + 1) ≤ 40 + extraBytes o.body := by
  unfold searchWidth extraBytes
  cases o.body <;> simp only [ptrBytes] <;> (try split_ifs) <;> omega

theorem searchCost_le (s : Ctx) (a : ℕ) :
    8 * s.searchCost a ≤ 40 + ((s.heap a).map fun o => extraBytes o.body).getD 0 := by
  unfold searchCost
  cases s.heap a with
  | none => simp
  | some o => exact searchWidth_le o

/-- **All cells together cost less than the budget of a check in an acyclic context.** -/
theorem Inv.cost_le (h : Inv π s O work P) {nodes : List ℕ} (hn : nodes.Nodup)
    (hl : ∀ a ∈ nodes, s.live a) : (nodes.map s.searchCost).sum ≤ sizeMax := by
  have hsub : nodes.toFinset ⊆ Finset.range s.size := fun a ha =>
    Finset.mem_range.mpr (h.bound a (hl a (List.mem_toFinset.mp ha)))
  have hsum : 8 * (nodes.map s.searchCost).sum ≤ 40 * s.size + s.payloadBytes := by
    calc 8 * (nodes.map s.searchCost).sum
        = 8 * ∑ a ∈ nodes.toFinset, s.searchCost a := by rw [List.sum_toFinset _ hn]
      _ ≤ 8 * ∑ a ∈ Finset.range s.size, s.searchCost a :=
          Nat.mul_le_mul_left 8 (Finset.sum_le_sum_of_subset hsub)
      _ = ∑ a ∈ Finset.range s.size, 8 * s.searchCost a := Finset.mul_sum ..
      _ ≤ ∑ a ∈ Finset.range s.size,
            (40 + ((s.heap a).map fun o => extraBytes o.body).getD 0) :=
          Finset.sum_le_sum fun a _ => s.searchCost_le a
      _ = 40 * s.size + s.payloadBytes := by
          simp [Finset.sum_add_distrib, payloadBytes, mul_comm]
  have hspace := h.space
  have hbytes := h.bytes
  simp only [addressCells, addressBytes, sizeMax] at *
  omega

/-! ### What the search meets lies on a path -/

/-- The target, once found, and the cells of the work array have the property. -/
def Met (p : ℕ → Prop) (target : ℕ) (st : Search) : Prop :=
  (st.found = true → p target) ∧ ∀ a ∈ st.nodes, p a

theorem cycleSearchEdge_met {p : ℕ → Prop} {target : ℕ} {st : Ctx × Search} {v : Ref}
    (hst : Met p target st.2) (hv : ∀ a, v = .cell a → p a) :
    Met p target (cycleSearchEdge target st v).2 := by
  cases v with
  | cell a =>
    simp only [cycleSearchEdge]
    split_ifs with hr ht hvis hpush
    · exact ⟨fun _ => ht ▸ hv a rfl, hst.2⟩
    · exact hst
    · refine ⟨hst.1, fun b hb => ?_⟩
      rcases List.mem_append.mp hb with hb | hb
      · exact hst.2 b hb
      · exact (List.mem_singleton.mp hb) ▸ hv a rfl
    · exact hst
    · exact hst
  | _ => exact hst

theorem cycleSearchEdges_met {p : ℕ → Prop} {target : ℕ} (vs : List Ref) {st : Ctx × Search}
    (hst : Met p target st.2) (hv : ∀ a, .cell a ∈ vs → p a) :
    Met p target (vs.foldl (cycleSearchEdge target) st).2 := by
  induction vs generalizing st with
  | nil => exact hst
  | cons v vs ih =>
    exact ih (cycleSearchEdge_met hst fun a ha => hv a (ha ▸ List.mem_cons_self ..))
      fun a ha => hv a (List.mem_cons_of_mem _ ha)

/-- **The loop runs to its end.** It neither runs out of budget nor fails, and what it meets keeps a
property that edges keep. -/
theorem searchLoop_met (h : Inv π s.calm O work P) (hO : NonNeg O) {target : ℕ} {p : ℕ → Prop}
    (hp : ∀ u w, p u → s.Edge u w → p w) : ∀ (fuel i budget : ℕ) {st : Ctx × Search},
      Searching s target st → Met p target st.2 → i ≤ st.2.nodes.length → s.size < i + fuel →
      ((st.2.nodes.take i).map s.searchCost).sum + budget = sizeMax →
      let r := searchLoop target fuel i st budget
      r.2 = false ∧ r.1.2.failed = false ∧ Met p target r.1.2
  | 0, i, _, st, hst, _, hi, hfuel, _ => by
    have := h.length_le hst.nodup fun a ha => (hst.nodes a ha).1
    change st.2.nodes.length ≤ s.size at this
    omega
  | fuel + 1, i, budget, st, hst, hmet, hi, hfuel, hbudget => by
    simp only [searchLoop, hst.failed, Bool.or_false]
    by_cases hf : st.2.found = true
    · rw [if_pos hf]
      exact ⟨rfl, hst.failed, hmet⟩
    rw [if_neg hf]
    cases hget : st.2.nodes[i]? with
    | none => exact ⟨rfl, hst.failed, hmet⟩
    | some a =>
      have ha : a ∈ st.2.nodes := List.mem_of_getElem? hget
      obtain ⟨hlt, hia⟩ := List.getElem?_eq_some_iff.mp hget
      have hheap : st.1.heap = s.heap := by rw [hst.graph]
      have htake : st.2.nodes.take (i + 1) = st.2.nodes.take i ++ [a] := by
        rw [List.take_add_one, hget]
        rfl
      have hcost : ((st.2.nodes.take (i + 1)).map s.searchCost).sum ≤ sizeMax :=
        h.cost_le (hst.nodup.sublist (List.take_sublist ..)) fun b hb =>
          (hst.nodes b (List.mem_of_mem_take hb)).1
      have hstep : ((st.2.nodes.take (i + 1)).map s.searchCost).sum =
          ((st.2.nodes.take i).map s.searchCost).sum + s.searchCost a := by
        rw [htake, List.map_append, List.sum_append]
        simp
      have hwidth : ((st.1.heap a).map searchWidth).getD 0 + 1 = s.searchCost a := by
        rw [hheap]
        rfl
      simp only
      rw [if_neg (by omega)]
      have hlive : ∀ w, .cell w ∈ st.1.edges a → s.live w := fun w hw => by
        rw [hst.edges] at hw
        exact h.edge_live hO hw
      obtain ⟨h1, h2, -, -⟩ := cycleSearchEdges_spec h (st.1.edges a) hst hlive
      have hmet' := cycleSearchEdges_met (st.1.edges a) hmet fun w hw => by
        rw [hst.edges] at hw
        exact hp a w (hmet.2 a ha) hw
      have hlen := h2.length_le
      refine searchLoop_met h hO hp fuel (i + 1) _ h1 hmet' (by omega) (by omega) ?_
      have hsame : ((st.1.edges a).foldl (cycleSearchEdge target) st).2.nodes.take (i + 1) =
          st.2.nodes.take (i + 1) := by
        obtain ⟨more, hmore⟩ := h2
        rw [← hmore, List.take_append_of_le_length (by omega)]
      rw [hsame]
      omega

/-- **A search that answers yes is right** when it has the budget of an acyclic context. -/
theorem reaches_complete (h : Inv π s.calm O work P) (hO : NonNeg O) (target a : ℕ)
    (ha : s.live a) (hyes : (s.reaches target (.cell a) sizeMax false).2 = true) :
    ReflTransGen s.Edge a target := by
  obtain ⟨h1, -⟩ := reaches_start h hO target (.cell a) false fun b hb => by cases hb; exact ha
  have hempty : Met (ReflTransGen s.Edge a) target ⟨[], false, false⟩ := by simp [Met]
  have hmet : Met (ReflTransGen s.Edge a) target (s.searchStart target (.cell a) false).2 := by
    have hstart : Met (ReflTransGen s.Edge a) target (s, (⟨[], false, false⟩ : Search)).2 := hempty
    show Met _ target (cycleSearchEdge target (s, ⟨[], false, false⟩) (.cell a)).2
    refine cycleSearchEdge_met hstart fun b hb => ?_
    cases hb
    exact .refl
  obtain ⟨k1, k2, k3⟩ := searchLoop_met h hO (fun u w hu he => hu.tail he) (s.size + 1) 0 sizeMax
    h1 hmet (Nat.zero_le _) (by omega) (by simp)
  unfold reaches at hyes
  simp only [k1, k2, Bool.false_or, Bool.or_false] at hyes
  exact k3.1 hyes

/-! ### What the search changes -/

/-- Only bits `visited`, the size of the work array and the number of requests differ. -/
def Walked (s m : Ctx) : Prop :=
  ∃ visited capacity tick, m = { s with visited, walkCapacity := capacity, tick }

theorem Walked.refl (s : Ctx) : Walked s s := ⟨s.visited, s.walkCapacity, s.tick, rfl⟩

theorem Walked.setVisited {m : Ctx} (h : Walked s m) (a : ℕ) (b : Bool) :
    Walked s (m.setVisited a b) := by
  obtain ⟨visited, capacity, tick, rfl⟩ := h
  exact ⟨_, capacity, tick, rfl⟩

theorem Walked.walkPush {m : Ctx} (h : Walked s m) (n : ℕ) : Walked s (m.walkPush n).1 := by
  obtain ⟨visited, capacity, tick, rfl⟩ := h
  simp only [Ctx.walkPush, mallocScratch]
  split_ifs <;> exact ⟨visited, _, _, rfl⟩

theorem Walked.edge {st : Ctx × Search} (h : Walked s st.1) (target : ℕ) (v : Ref) :
    Walked s (cycleSearchEdge target st v).1 := by
  cases v with
  | cell a =>
    simp only [cycleSearchEdge]
    split_ifs <;> first | exact h | exact (h.setVisited a true).walkPush _
  | _ => exact h

theorem Walked.edges {target : ℕ} (vs : List Ref) {st : Ctx × Search} (h : Walked s st.1) :
    Walked s (vs.foldl (cycleSearchEdge target) st).1 := by
  induction vs generalizing st with
  | nil => exact h
  | cons v vs ih => exact ih (h.edge target v)

theorem Walked.loop {target : ℕ} : ∀ (fuel i budget : ℕ) {st : Ctx × Search}, Walked s st.1 →
    Walked s (searchLoop target fuel i st budget).1.1
  | 0, _, _, _, h => h
  | fuel + 1, i, budget, st, h => by
    simp only [searchLoop]
    split_ifs
    · exact h
    · split
      · exact h
      · split_ifs
        · exact h
        · exact Walked.loop fuel (i + 1) _ (h.edges _)

theorem Walked.clear {m : Ctx} (h : Walked s m) (nodes : List ℕ) :
    Walked s (m.clearVisited nodes) := by
  induction nodes generalizing m with
  | nil => exact h
  | cons a nodes ih => exact ih (h.setVisited a false)

/-- **A search from an item changes nothing but its work array.** -/
theorem reaches_walked (h : Inv π s.calm O work P) (hO : NonNeg O) (target : ℕ) (item : Ref)
    (budget : ℕ) (hitem : ∀ a, item = .cell a → s.live a) :
    ∃ capacity tick, (s.reaches target item budget false).1 =
      { s with walkCapacity := capacity, tick } := by
  have hs := reaches_same h hO target item budget false hitem
  have hstart : Walked s (s.searchStart target item false).1 :=
    Walked.edge (show Walked s (s, (⟨[], false, false⟩ : Search)).1 from Walked.refl s) target item
  obtain ⟨visited, capacity, tick, he⟩ : Walked s (s.reaches target item budget false).1 :=
    (Walked.loop (s.size + 1) 0 budget hstart).clear _
  refine ⟨capacity, tick, ?_⟩
  rw [he] at hs ⊢
  have hv : visited = s.visited := congrArg Store.visited hs
  rw [hv]

/-! ### `rc_vector_set` -/

/-- The item is a cell from which a path leads to the vector. -/
def Leads (s : Ctx) (item : Ref) (a : ℕ) : Prop := ∃ b, item = .cell b ∧ ReflTransGen s.Edge b a

/-- **In an acyclic context an item is refused exactly if it leads to the vector**, and a refusal
changes nothing but the error. -/
theorem rcVectorSet_acyclic (h : Inv π s O [] P) (hO : NonNeg O) (hac : s.acyclic = true) {a i : ℕ}
    {items : List Ref} {item : Ref} (hv : s.asVector (.cell a) = some (a, items))
    (hi : i < items.length) (hb : belongs item = true) (hl : ∀ b, item = .cell b → s.live b) :
    ((s.rcVectorSet (.cell a) i item).2 = false ↔ s.Leads item a) ∧
      ((s.rcVectorSet (.cell a) i item).2 = false → ∃ capacity tick,
        (s.rcVectorSet (.cell a) i item).1 =
          { s with
            walkCapacity := capacity
            tick
            errorActive := true
            error := "acyclic mode rejects vector assignment that would create a cycle" }) := by
  obtain ⟨-, o, ho, hbody⟩ := asVector_some hv
  have hreach : s.mayReachVector (.cell a) = true := by
    simp [mayReachVector, ho, h.vec a o items ho hbody]
  have hget : items[i]? = some items[i] := List.getElem?_eq_getElem hi
  unfold rcVectorSet
  simp only [hv, hget, hb, hac, Bool.true_or, Bool.and_true, if_true,
    Bool.true_eq_false, if_false]
  by_cases hr : s.mayReachVector item = true
  · obtain ⟨b, rfl⟩ : ∃ b, item = .cell b := by
      cases item <;> first | exact ⟨_, rfl⟩ | exact absurd hr (by simp [mayReachVector])
    have hlb := hl b rfl
    rw [if_pos hr]
    unfold wouldCreateCycle
    have hyes := reaches_complete h.calm hO a b hlb
    have hno := fun he => (reaches_sound h.calm hO a b sizeMax false hlb hreach he).1 rfl
    obtain ⟨capacity, tick, hw⟩ := reaches_walked h.calm hO a (.cell b) sizeMax hl
    cases hres : (s.reaches a (.cell b) sizeMax false).2 with
    | true =>
      simp only [if_true]
      refine ⟨iff_of_true trivial ⟨b, rfl, hyes hres⟩, fun _ => ⟨capacity, tick, ?_⟩⟩
      rw [hw]
      rfl
    | false =>
      simp only [Bool.false_eq_true, if_false]
      refine ⟨iff_of_false (by simp) ?_, fun hf => absurd hf (by simp)⟩
      rintro ⟨b', hb', hpath⟩
      cases hb'
      exact hno hres hpath
  · rw [if_neg hr]
    simp only [Bool.false_eq_true, if_false]
    refine ⟨iff_of_false (by simp) ?_, fun hf => absurd hf (by simp)⟩
    rintro ⟨b, rfl, hpath⟩
    exact hr (h.hot_of_path hpath hreach)

/-- Without sources the invariant leaves no cycle. -/
theorem Inv.no_cycle (h : Inv π s O work P) (hac : s.acyclic = true) (a : ℕ) :
    ¬ TransGen s.Edge a a := fun ha => by
  have hs := h.acyclicSrc hac
  refine h.acyc a (TransGen.mono (fun u w he => ⟨he, ?_, ?_⟩) _ _ ha) <;> rw [hs] <;> simp

end Ctx

namespace Config

/-- **What the acyclic policy promises**: there is no cycle; a valid assignment is refused exactly if
the item leads to the vector; and a refusal changes nothing but the error and the work array. -/
structure KeepsPolicy (c : Config) : Prop where
  acyclic : ∀ a, ¬ TransGen c.ctx.Edge a a
  refuses : ∀ (a i : ℕ) (items : List Ref) (item : Ref),
    c.ctx.asVector (.cell a) = some (a, items) → i < items.length → belongs item = true →
    (∀ b, item = .cell b → c.ctx.live b) →
    ((c.ctx.rcVectorSet (.cell a) i item).2 = false ↔ c.ctx.Leads item a)
  unchanged : ∀ (a i : ℕ) (items : List Ref) (item : Ref),
    c.ctx.asVector (.cell a) = some (a, items) → i < items.length → belongs item = true →
    (∀ b, item = .cell b → c.ctx.live b) → (c.ctx.rcVectorSet (.cell a) i item).2 = false →
    ∃ capacity tick, (c.ctx.rcVectorSet (.cell a) i item).1 =
      { c.ctx with
        walkCapacity := capacity
        tick
        errorActive := true
        error := "acyclic mode rejects vector assignment that would create a cycle" }

/-- **The acyclic policy holds in every run** in which the work arrays of searches can grow. -/
theorem reachable_keepsPolicy {mem scratch marking : ℕ → Bool} (hsc : ∀ k, scratch k = true)
    {c : Config} (h : Reachable true mem scratch marking c) : c.KeepsPolicy := by
  have hok := reachable_ok hsc h
  have hac : c.ctx.acyclic = true := congrArg Policy.acyclic hok.inv.policy
  have hO := hok.frames.sum
  exact ⟨hok.inv.no_cycle hac,
    fun a i items item hv hi hb hl => (Ctx.rcVectorSet_acyclic hok.inv hO hac hv hi hb hl).1,
    fun a i items item hv hi hb hl => (Ctx.rcVectorSet_acyclic hok.inv hO hac hv hi hb hl).2⟩

/-- A host that chains three vectors, closes no cycle with them, and is refused when it tries to. -/
def chain : List Op :=
  [.vector 1, .vector 1, .vector 1, .vectorSet (.cell 1) 0 (.cell 2),
    .vectorSet (.cell 2) 0 (.cell 0), .vectorSet (.cell 0) 0 (.cell 1)]

/-- The host after `chain`, when every request to the allocator is granted. -/
theorem reachable_keepsPolicy_chain :
    (⟨(perform (rcContextNew true (fun _ => true) (fun _ => true) (fun _ => true)) [] chain).1,
      [.client (owns (perform (rcContextNew true (fun _ => true) (fun _ => true) (fun _ => true)) []
        chain).2)]⟩ : Config).KeepsPolicy :=
  reachable_keepsPolicy (fun _ => rfl) (host_reachable chain (by decide +kernel))

/-- The same, but the assignment to the first vector of the chain is tried once before, and then the
request to grow the work array is refused. -/
def staleChain : List Op :=
  [.vector 1, .vector 1, .vector 1, .vectorSet (.cell 1) 0 (.cell 2),
    .vectorSet (.cell 1) 0 (.cell 2), .vectorSet (.cell 2) 0 (.cell 0),
    .vectorSet (.cell 0) 0 (.cell 1)]

def staleChainConfig : Config :=
  ⟨(perform (rcContextNew true (fun _ => true) (· != 6) (fun _ => true)) [] staleChain).1,
    [.client (owns [.cell 0, .cell 1, .cell 2])]⟩

/-- **A bit `visited` that is left set lets a cycle in**: the refused growth leaves the bit of the last
vector of the chain set, so the search from the second vector does not follow it to the first. -/
theorem stale_bit_closes_cycle :
    Reachable true (fun _ => true) (· != 6) (fun _ => true) staleChainConfig ∧
      TransGen staleChainConfig.ctx.Edge 0 0 ∧ ¬ staleChainConfig.KeepsPolicy := by
  have hown : (perform (rcContextNew true (fun _ => true) (· != 6) (fun _ => true)) []
      staleChain).2 = [.cell 0, .cell 1, .cell 2] := by decide +kernel
  have hreach := @host_reachable true (fun _ => true) (· != 6) (fun _ => true) staleChain
    (by decide +kernel)
  simp only [hown] at hreach
  have h01 : staleChainConfig.ctx.Edge 0 1 := by
    unfold Ctx.Edge
    decide +kernel
  have h12 : staleChainConfig.ctx.Edge 1 2 := by
    unfold Ctx.Edge
    decide +kernel
  have h20 : staleChainConfig.ctx.Edge 2 0 := by
    unfold Ctx.Edge
    decide +kernel
  have hcycle : TransGen staleChainConfig.ctx.Edge 0 0 := ((TransGen.single h01).tail h12).tail h20
  exact ⟨hreach, hcycle, fun h => h.acyclic 0 hcycle⟩

end Config

end ShenRc.Runtime
