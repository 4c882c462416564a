import ShenRc.Runtime.Runs

/-! # What runs guarantee

In every run in which the work arrays of searches and of discovery can grow, every count is the
number of references there are (`reachable_accounts`). A refused request for such an array leaves the
bit `visited` of one cell set for good, and a later collection then frees a cell without giving up
its reference to that one (`stale_bit_unbalances`). A collection that can grow its work array frees
exactly what is not reached from outside (`reachable_collectsExactly`). -/

namespace ShenRc.Runtime

open Relation ShenRc.Graph

namespace Ctx

variable {π : Policy} {s : Ctx} {O : Own} {P : Set Ref}

/-- What is referred to from outside the graph is in use. -/
theorem Inv.root_live (h : Inv π s O [] P) (hO : NonNeg O) {a : ℕ} (hr : s.Root O a) : s.live a := by
  rcases hr with hi | ho | hm | ⟨u, hu⟩
  · by_contra hn
    rw [h.dead a hn] at hi
    exact absurd hi (by decide)
  · exact h.live_of_own ho
  · exact h.live_of_held hO (held_pos_of_root hm)
  · exact h.live_of_held hO (held_pos_of_slot (h.bound u (slot_live hu)) hu)

/-- **What is reached from outside is in use.** -/
theorem Inv.reached_live (h : Inv π s O [] P) (hO : NonNeg O) {a : ℕ} (hr : s.Reached O a) :
    s.live a := by
  obtain ⟨r, hroot, hp⟩ := hr
  rcases ReflTransGen.cases_tail hp with rfl | ⟨u, -, he⟩
  · exact h.root_live hO hroot
  · exact h.edge_live hO he

/-- **What is in use has a reference.** -/
theorem Inv.live_iff (h : Inv π s O [] P) {a : ℕ} (hc : s.isCounted (.cell a) = true) :
    s.live a ↔ 0 < s.held (.cell a) + O (.cell a) := by
  have h1 := h.bal _ hc
  constructor
  · intro hl
    have h2 : s.refs (.cell a) ≠ 0 := fun hz => by
      have := (h.zero a hl).mp hz
      simp at this
    omega
  · intro hpos
    by_contra hn
    have := h.dead a hn
    omega

/-- **What no cycle leads to is reached from outside**: only cycles keep cells that nobody uses. -/
theorem Inv.reached_of_no_cycle (h : Inv π s O [] P) (hO : NonNeg O) {a : ℕ} (hl : s.live a)
    (hn : ∀ b, TransGen s.Edge b b → ¬ ReflTransGen s.Edge b a) : s.Reached O a := by
  by_contra hr
  have hfin : {y | s.live y ∧ ¬ s.Reached O y}.Finite :=
    (Finset.finite_toSet (Finset.range s.size)).subset fun y hy =>
      Finset.mem_coe.mpr (Finset.mem_range.mpr (h.bound y hy.1))
  obtain ⟨c, hc, hca⟩ := exists_cycle hfin (fun y hy => by
    obtain ⟨u, he, hu⟩ := h.pred_of_unreached hO hy.1 hy.2
    exact ⟨u, ⟨he.live, hu⟩, he⟩) (show a ∈ {y | s.live y ∧ ¬ s.Reached O y} from ⟨hl, hr⟩)
  exact hn c hc hca

end Ctx

namespace Config

/-- The count of every value that is counted is the number of references to it. -/
def Balanced (c : Config) : Prop :=
  ∀ r, c.ctx.isCounted r = true → (c.ctx.refs r : ℤ) = c.ctx.held r + c.own r

/-- **What the counts promise**: they are balanced, what an owner reaches is in use, a counted cell is
in use exactly as long as there is a reference to it, and, unless a cycle leads to it, exactly as long
as an owner reaches it. -/
structure Accounts (c : Config) : Prop where
  balanced : c.Balanced
  safe : ∀ a, c.ctx.Reached c.own a → c.ctx.live a
  prompt : ∀ a, c.ctx.isCounted (.cell a) = true →
    (c.ctx.live a ↔ 0 < c.ctx.held (.cell a) + c.own (.cell a))
  tight : ∀ a, (∀ b, TransGen c.ctx.Edge b b → ¬ ReflTransGen c.ctx.Edge b a) →
    (c.ctx.live a ↔ c.ctx.Reached c.own a)

theorem Ok.accounts {π : Policy} {c : Config} (h : c.Ok π) : c.Accounts :=
  ⟨h.inv.bal, fun _ => h.inv.reached_live h.frames.sum, fun _ => h.inv.live_iff,
    fun _ hn => ⟨fun hl => h.inv.reached_of_no_cycle h.frames.sum hl hn,
      h.inv.reached_live h.frames.sum⟩⟩

/-- **The counts of every run are balanced**, on all paths and after all failures but one: the work
arrays of searches and of discovery can grow. -/
theorem reachable_accounts {acyclic : Bool} {mem scratch marking : ℕ → Bool}
    (hsc : ∀ k, scratch k = true) {c : Config} (h : Reachable acyclic mem scratch marking c) :
    c.Accounts := (reachable_ok hsc h).accounts

/-- A host that builds a cyclic vector, drops it and runs out of memory. -/
def dropCycle : List Op :=
  [.vector 2, .vectorSet (.cell 0) 0 (.cell 0), .string [104, 105], .release (.cell 0),
    .cons .nil .nil]

/-- The host after `dropCycle`, when the allocator grants two requests and no more. -/
theorem reachable_accounts_dropCycle :
    (⟨(perform (rcContextNew false (· < 2) (fun _ => true) (fun _ => false)) [] dropCycle).1,
      [.client (owns (perform (rcContextNew false (· < 2) (fun _ => true) (fun _ => false)) []
        dropCycle).2)]⟩ : Config).Accounts :=
  reachable_accounts (fun _ => rfl) (host_reachable dropCycle (by decide +kernel))

/-- A host that builds a cyclic vector, has a collection fail to discover it, and drops another
cyclic vector that refers to it. -/
def staleBit : List Op :=
  [.vector 1, .vectorSet (.cell 0) 0 (.cell 0), .collect, .vector 2,
    .vectorSet (.cell 1) 0 (.cell 1), .vectorSet (.cell 1) 1 (.cell 0), .release (.cell 1), .collect]

/-- The host after `staleBit`, when the third request to the allocator, the first one to grow the
work array of the collector, is refused. -/
def staleConfig : Config :=
  ⟨(perform (rcContextNew false (fun _ => true) (· != 2) (fun _ => true)) [] staleBit).1,
    [.client (owns [.cell 0])]⟩

/-- **A bit `visited` that is left set unbalances a count**: the vector that is left has count 3, but
only itself and the host refer to it. -/
theorem stale_bit_unbalances : Reachable false (fun _ => true) (· != 2) (fun _ => true) staleConfig ∧
    staleConfig.ctx.isCounted (.cell 0) = true ∧ staleConfig.ctx.refs (.cell 0) = 3 ∧
    staleConfig.ctx.held (.cell 0) + staleConfig.own (.cell 0) = 2 ∧ ¬ staleConfig.Accounts := by
  have hown : (perform (rcContextNew false (fun _ => true) (· != 2) (fun _ => true)) [] staleBit).2 =
      [.cell 0] := by decide +kernel
  have hreach := @host_reachable false (fun _ => true) (· != 2) (fun _ => true) staleBit
    (by decide +kernel)
  simp only [hown] at hreach
  have hcounted : staleConfig.ctx.isCounted (.cell 0) = true := by decide +kernel
  have hrefs : staleConfig.ctx.refs (.cell 0) = 3 := by decide +kernel
  have hheld : staleConfig.ctx.held (.cell 0) = 1 := by decide +kernel
  have howned : staleConfig.own (.cell 0) = 1 := by decide +kernel
  refine ⟨hreach, hcounted, hrefs, by rw [hheld, howned]; rfl, fun h => ?_⟩
  have := h.balanced _ hcounted
  rw [hrefs, hheld, howned] at this
  exact absurd this (by decide)

/-! ### Collection -/

/-- **What a collection promises** where C code owns `O`: it frees exactly what is not reached from
outside; what is left keeps its contents, and its count but for the references from what has been
freed; and the recorded sources it starts from meet every cycle. -/
structure CollectsExactly (s : Ctx) (O : Own) : Prop where
  exact_live : ∀ a, s.rcCollect.live a ↔ s.live a ∧ s.Reached O a
  keeps : ∀ a, s.rcCollect.live a → s.rcCollect.heap a = s.heap a
  counts : ∀ r, s.isCounted r = true → (s.rcCollect.refs r : ℤ) = s.refs r -
    ∑ a ∈ (Finset.range s.size).filter (fun a => ¬ s.rcCollect.live a),
      ((s.edges a).count r : ℤ)
  saturated : ∀ r, s.isCounted r = false → s.rcCollect.refs r = s.refs r
  cycles : ∀ (X : Set ℕ) (a : ℕ), TransGen (fun u w => s.Edge u w ∧ u ∈ X ∧ w ∈ X) a a →
    ∃ v ∈ X, v ∈ s.sources ∧ ∃ o items, s.heap v = some o ∧ o.body = .vector items

theorem collectsExactly_of_inv {π : Policy} {s : Ctx} {O : Own} {P : Set Ref}
    (h : Ctx.Inv π s O [] P) (hO : NonNeg O) (hac : s.acyclic = false)
    (hroom : ∀ k, s.marking k = true) : CollectsExactly s O := by
  obtain ⟨-, hc⟩ := Ctx.rcCollect_inv h hO
  refine ⟨Ctx.rcCollect_exact h hO hac hroom, fun a ha => (hc.heap a).resolve_right ha,
    fun r => Ctx.rcCollect_refs h hO, hc.refs, fun X a ha => ?_⟩
  by_contra hn
  push Not at hn
  refine h.acyc a (TransGen.mono (fun u w he => ⟨he.1, fun hu => ?_, fun hw => ?_⟩) _ _ ha)
  · obtain ⟨o, items, ho, hb⟩ := h.srcVec u hu
    exact hn u he.2.1 hu o items ho hb
  · obtain ⟨o, items, ho, hb⟩ := h.srcVec w hw
    exact hn w he.2.2 hw o items ho hb

/-- **Collection is exact** in every run in an unrestricted context, as long as the work arrays can
grow. -/
theorem reachable_collectsExactly {mem scratch marking : ℕ → Bool} (hsc : ∀ k, scratch k = true)
    (hm : ∀ k, marking k = true) {c : Config} (h : Reachable false mem scratch marking c) :
    CollectsExactly c.ctx c.own := by
  have hok := reachable_ok hsc h
  refine collectsExactly_of_inv hok.inv hok.frames.sum (congrArg Policy.acyclic hok.inv.policy)
    fun k => ?_
  rw [show c.ctx.marking = marking from congrArg Policy.marking hok.inv.policy]
  exact hm k

/-- The host after it has dropped a vector that lies on a cycle with a pair and refers to a string it
still uses. -/
def droppedConfig : Config :=
  let r := perform (rcContextNew false (fun _ => true) (fun _ => true) (fun _ => true)) []
    [.vector 2, .cons (.cell 0) .nil, .vectorSet (.cell 0) 0 (.cell 1), .string [104, 105],
      .vectorSet (.cell 0) 1 (.cell 2), .release (.cell 0), .release (.cell 1)]
  ⟨r.1, [.client (owns r.2)]⟩

theorem reachable_collectsExactly_dropped : CollectsExactly droppedConfig.ctx droppedConfig.own :=
  reachable_collectsExactly (fun _ => rfl) (fun _ => rfl) (host_reachable _ (by decide +kernel))

example : (List.range 3).map (fun a => decide (droppedConfig.ctx.live a)) = [true, true, true] ∧
    (List.range 3).map (fun a => decide (droppedConfig.ctx.rcCollect.live a)) =
      [false, false, true] := by
  decide +kernel

end Config

end ShenRc.Runtime
