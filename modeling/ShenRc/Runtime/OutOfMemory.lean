import ShenRc.Runtime.Ring

/-! # Walks that run out of memory

A search before a store, or a collection, that cannot grow its work array answers safely and changes
no more than bits `visited` (`reachable_leavesNoTrace_iff`). Marking clears them all again. The search and
discovery do not: the cell they lost keeps its bit, and the next collection aborts
(`lost_mark_aborts`). -/

namespace ShenRc.Runtime

namespace Config

open Ctx

/-- **A walk leaves no trace**: the bits are clear, the contents and counts of all cells, the recorded
sources and the policy are what they were, and a later collection with enough memory is exact and does not
abort. -/
structure LeavesNoTrace (s s' : Ctx) (O : Own) : Prop where
  clear : ∀ a, s'.live a → s'.visited a = false
  contents : s'.heap = s.heap
  counts : s'.refs = s.refs
  sources : s'.sources = s.sources
  policy : s'.acyclic = s.acyclic
  collects : s.acyclic = false → CollectsExactly s'.enough O ∧ s'.enough.rcCollect.stuck = false

/-- The state of a run, for a walk under another allocator, perhaps in a collection. -/
def walkState (c : Config) (scratch marking : ℕ → Bool) (collecting : Bool) : Ctx :=
  { c.ctx with scratch, marking, collecting }

section

variable {acyclic : Bool} {mem marking : ℕ → Bool} {c : Config}
  (h : Reachable acyclic mem (fun _ => true) marking c) (scratch' marking' : ℕ → Bool)
  (collecting : Bool)
include h

theorem walkState_inv :
    Inv ⟨acyclic, marking'⟩ (c.walkState scratch' marking' collecting).roomy.calm c.own [] c.hidden ∧
      NonNeg c.own := by
  obtain ⟨hinv, hframes, -⟩ := reachable_ok (fun _ => rfl) h
  have hac : c.ctx.acyclic = acyclic := congrArg Policy.acyclic hinv.policy
  refine ⟨⟨hinv.bal, hinv.dead, hinv.zero, hinv.workLive, hinv.workNodup, hinv.bound, hinv.space,
    hinv.bytes, hinv.freeDead, hinv.freeNodup, hinv.flags, hinv.vec, hinv.srcVec, hinv.srcNodup,
    hinv.srcCount, hinv.acyc, hinv.acyclicSrc, hinv.unvisited, hinv.sym, hinv.static, hinv.plans,
    hinv.priv, hinv.ok, rfl, fun _ => rfl, ?_, hinv.word⟩, hframes.sum⟩
  rw [← hac]
  rfl

theorem walkState_clean : Clean (c.walkState scratch' marking' collecting) := by
  obtain ⟨hinv, -⟩ := walkState_inv h scratch' marking' collecting
  exact ⟨hinv.bound, hinv.space, hinv.unvisited⟩

/-- A walk that would have left the state as it was under an allocator that refuses nothing. -/
theorem leavesNoTrace_of_same {s' : Ctx}
    (hsame : Same (c.walkState scratch' marking' collecting).roomy s'.roomy) :
    LeavesNoTrace (c.walkState scratch' marking' collecting) s' c.own := by
  obtain ⟨hinv, hO⟩ := walkState_inv h scratch' (fun _ => true) collecting
  have hfield : ∀ {α : Type} (f : Store → α), f s'.roomy.toStore =
      f (c.walkState scratch' marking' collecting).roomy.toStore := fun f => congrArg f hsame
  have hvisited : s'.visited = c.ctx.visited := hfield Store.visited
  have hheap : s'.heap = c.ctx.heap := hfield Store.heap
  have hac : s'.acyclic = c.ctx.acyclic := hfield Store.acyclic
  have hlater : s'.enough.toStore =
      (c.walkState scratch' (fun _ => true) collecting).roomy.calm.toStore :=
    hfield fun t => { t with marking := fun _ => true, collecting := false }
  have hinv' := hinv.same (show Same _ s'.enough from hlater)
  refine ⟨fun a ha => ?_, hheap, hfield Store.refs, hfield Store.sources, hac, fun hac' =>
    ⟨collectsExactly_of_inv hinv' hO (hac.trans hac') fun _ => rfl, (rcCollect_inv hinv' hO).1.ok⟩⟩
  rw [hvisited]
  rw [live, hheap] at ha
  exact hinv.unvisited a ha

/-- **Marking leaves no trace** where it runs out of memory. -/
theorem marking_leavesNoTrace
    (hout : (c.walkState scratch' marking' collecting).RunsOut .marking) :
    LeavesNoTrace (c.walkState scratch' marking' collecting)
      (c.walkState scratch' marking' collecting).collectFromSources c.own := by
  obtain ⟨hd, hm⟩ := hout
  obtain ⟨hinv, hO⟩ := walkState_inv h scratch' marking' collecting
  have hsame : ∀ {s'}, _ → LeavesNoTrace _ s' _ :=
    leavesNoTrace_of_same h scratch' marking' collecting
  generalize c.walkState scratch' marking' collecting = s at hinv hsame hd hm ⊢
  have htrace := (trace_spec hinv hO).2.1
  change Same s.roomy
    ((markingWalk s.roomy.discovery).1.clearVisited s.roomy.discovery.2.nodes) at htrace
  have hwalk : markingWalk s.roomy.discovery =
      ((markingWalk s.discovery).1.roomy, (markingWalk s.discovery).2) := by
    rw [discovery_roomy hd]
    exact markingWalk_roomy s.discovery
  rw [hwalk, discovery_roomy hd, clearVisited_roomy, ← collectFromSources_marking hd hm] at htrace
  exact hsame htrace

/-- **A walk that runs out of memory leaves no trace exactly if it is the marking of a collection**,
wherever it runs out. What it changes is no more than bits `visited`, and its answer is safe. -/
theorem reachable_leavesNoTrace_iff (w : GraphWalk)
    (hout : (c.walkState scratch' marking' collecting).RunsOut w) :
    (LeavesNoTrace (c.walkState scratch' marking' collecting)
        ((c.walkState scratch' marking' collecting).afterWalk w) c.own ↔ w = .marking) ∧
      SameGraph (c.walkState scratch' marking' collecting)
        ((c.walkState scratch' marking' collecting).afterWalk w) ∧
      (c.walkState scratch' marking' collecting).Conservative w := by
  have hclean := walkState_clean h scratch' marking' collecting
  have hmarking := marking_leavesNoTrace h scratch' marking' collecting
  generalize c.walkState scratch' marking' collecting = s at hclean hmarking hout ⊢
  refine ⟨⟨fun hl => ?_, ?_⟩, sameGraph_of_runsOut hout fun hw => ?_, conservative_of_runsOut hout⟩
  · cases w with
    | store vector slot item =>
      have hf := (wouldCreateCycle_clear_iff hclean vector item s.storeBudget).mp hl.clear
      rw [hout.2] at hf
      cases hf
    | discovery =>
      have hclear := hl.clear
      rw [afterWalk, collectFromSources_discovery hout] at hclear
      have hf := (discovery_clear_iff hclean).mp hclear
      rw [hout] at hf
      cases hf
    | marking => rfl
  · rintro rfl
    exact hmarking hout
  · obtain rfl := hw
    have hl := hmarking hout
    exact ⟨hl.contents, hl.counts, hl.sources, hl.policy⟩

end

/-- A host with two vectors. -/
def twoVectors : Config :=
  let r := perform (rcContextNew false (fun _ => true) (fun _ => true) (fun _ => true)) []
    [.vector 1, .vector 1]
  ⟨r.1, [.client (owns r.2)]⟩

theorem twoVectors_reachable :
    Reachable false (fun _ => true) (fun _ => true) (fun _ => true) twoVectors :=
  host_reachable _ (by decide +kernel)

/-- The marking of a ring that fills the work array runs out of memory if it may not grow. -/
theorem ringHost_runsOut {n : ℕ} (hn : n + 1 = firstArray) :
    ((ringHost n).walkState (fun _ => true) (fun _ => false) true).RunsOut .marking := by
  have hsmall : n < addressCells := by
    simp only [firstArray, addressCells] at hn ⊢
    omega
  obtain ⟨hreach, hring, hown⟩ := ringHost_reachable n hsmall
  obtain ⟨hinv, hO⟩ := walkState_inv hreach (fun _ => true) (fun _ => false) true
  have hring' : Ring n (.cell n) ((ringHost n).walkState (fun _ => true) (fun _ => false) true) :=
    hring.congr rfl rfl rfl rfl rfl rfl rfl
  exact hring'.marking_fails hinv hO hn hown fun _ => rfl

/-- The three walks: the search of a store between two vectors, the discovery of a vector that holds
itself, and the marking of a ring of 1024 cells. -/
theorem reachable_leavesNoTrace_iff_ring :
    ¬LeavesNoTrace (twoVectors.walkState (fun _ => false) (fun _ => true) false)
        ((twoVectors.walkState (fun _ => false) (fun _ => true) false).afterWalk
          (.store 0 0 (.cell 1))) twoVectors.own ∧
      ¬LeavesNoTrace ((ringHost 0).walkState (fun _ => false) (fun _ => true) true)
        (((ringHost 0).walkState (fun _ => false) (fun _ => true) true).afterWalk .discovery)
        (ringHost 0).own ∧
      LeavesNoTrace ((ringHost 1023).walkState (fun _ => true) (fun _ => false) true)
        (((ringHost 1023).walkState (fun _ => true) (fun _ => false) true).afterWalk .marking)
        (ringHost 1023).own := by
  have hstore := reachable_leavesNoTrace_iff twoVectors_reachable (fun _ => false) (fun _ => true) false
    (.store 0 0 (.cell 1))
    ⟨⟨⟨[.nil], by decide +kernel, by decide⟩, by decide, by decide +kernel, by decide +kernel⟩,
      by decide +kernel⟩
  have hdiscovery := reachable_leavesNoTrace_iff (ringHost_reachable 0 (by decide)).1
    (fun _ => false) (fun _ => true) true .discovery (by
      change ((ringHost 0).walkState (fun _ => false) (fun _ => true) true).discovery.2.failed = true
      decide +kernel)
  have hmarking := reachable_leavesNoTrace_iff (ringHost_reachable 1023 (by decide)).1
    (fun _ => true) (fun _ => false) true .marking (ringHost_runsOut rfl)
  exact ⟨fun h => (nomatch hstore.1.mp h), fun h => (nomatch hdiscovery.1.mp h), hmarking.1.mpr rfl⟩

/-- **A refused request leaves a vector marked, and the next collection aborts**: the host stores the
second vector in the first while the work array of searches cannot be had, and then collects with
enough memory. -/
theorem lost_mark_aborts :
    let s := twoVectors.walkState (fun _ => false) (fun _ => true) false
    ¬LeavesNoTrace s (s.wouldCreateCycle 0 (.cell 1) 256).1 twoVectors.own ∧
      (s.wouldCreateCycle 0 (.cell 1) 256).1.visited 1 = true ∧
      (s.rcVectorSet (.cell 0) 0 (.cell 1)).1.stuck = false ∧
      (s.rcVectorSet (.cell 0) 0 (.cell 1)).1.enough.rcCollect.stuck = true := by
  have hmarked : ((twoVectors.walkState (fun _ => false) (fun _ => true) false).wouldCreateCycle 0
      (.cell 1) 256).1.visited 1 = true := by decide +kernel
  refine ⟨fun h => ?_, hmarked, by decide +kernel, by decide +kernel⟩
  have hclear := h.clear 1 (by decide +kernel)
  rw [hmarked] at hclear
  cases hclear

end Config

end ShenRc.Runtime
