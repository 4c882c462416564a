import ShenRc.Runtime.Balance

/-! # What a walk leaves behind when it runs out of memory

A search, and the discovery of a collection, mark a cell before they record it. If the work array
cannot grow, the cell stays marked for good (`Recorded`), so such a walk always leaves a trace if it runs
out of memory. The marking of a collection never does: all its cells are recorded by then. What a walk
that runs out of memory answers is safe all the same. -/

namespace ShenRc.Runtime

open Relation ShenRc.Graph

namespace Ctx

variable {s : Ctx}

/-- The same state, with an allocator that lets the work arrays of searches and discovery grow. -/
def roomy (s : Ctx) : Ctx := { s with scratch := fun _ => true }

/-- The same state outside of a collection, with an allocator that lets every work array grow. -/
def enough (s : Ctx) : Ctx :=
  { s with scratch := fun _ => true, marking := fun _ => true, collecting := false }

/-- The requests of discovery. -/
def scanAsker : Asker (Ctx × GcScan) where
  failed x := x.2.failed
  grant x := (x.1.roomy, x.2)

/-! ### Recorded cells and lost ones -/

/-- A heap in which no walk is under way. -/
structure Clean (s : Ctx) : Prop where
  bound : ∀ a, s.live a → a < s.size
  space : s.size ≤ addressCells
  unvisited : ∀ a, s.live a → s.visited a = false

/-- The cells, their contents, counts and flags, the recorded sources and the policy are what they
were. -/
structure SameGraph (s m : Ctx) : Prop where
  heap : m.heap = s.heap
  refs : m.refs = s.refs
  sources : m.sources = s.sources
  acyclic : m.acyclic = s.acyclic

theorem SameGraph.refl (s : Ctx) : SameGraph s s := ⟨rfl, rfl, rfl, rfl⟩

theorem SameGraph.trans {m m' : Ctx} (h : SameGraph s m) (h' : SameGraph m m') : SameGraph s m' :=
  ⟨h'.heap.trans h.heap, h'.refs.trans h.refs, h'.sources.trans h.sources,
    h'.acyclic.trans h.acyclic⟩

theorem sameGraph_clearVisited (s : Ctx) (nodes : List ℕ) : SameGraph s (s.clearVisited nodes) := by
  have hfield : ∀ {α : Type} (f : Store → α), f (s.clearVisited nodes).toStore = _ :=
    fun f => congrArg f (clearVisited_toStore nodes s)
  exact ⟨hfield Store.heap, hfield Store.refs, hfield Store.sources, hfield Store.acyclic⟩

/-- In a walk from `s`, the cells with the bit `visited` are those in the work array and those that
were lost because it could not grow. -/
structure Recorded (s m : Ctx) (nodes lost : List ℕ) (failed : Bool) : Prop where
  graph : SameGraph s m
  visited : ∀ a, m.visited a = true ↔ s.visited a = true ∨ a ∈ nodes ∨ a ∈ lost
  nodup : nodes.Nodup
  live : ∀ a ∈ nodes ++ lost, s.live a
  disjoint : ∀ a ∈ lost, a ∉ nodes
  failed : failed = true ↔ lost ≠ []

theorem Recorded.start (s : Ctx) : Recorded s s [] [] false where
  graph := .refl s
  visited a := by simp
  nodup := List.nodup_nil
  live a ha := by simp at ha
  disjoint a ha := by simp at ha
  failed := by simp

theorem Recorded.live_of_reach {m : Ctx} {nodes lost : List ℕ} {failed : Bool}
    (h : Recorded s m nodes lost failed) {a : ℕ} (hr : m.mayReachVector (.cell a) = true) :
    s.live a := by
  intro hn
  rw [mayReachVector, h.graph.heap, hn] at hr
  cases hr

/-- A cell that has just been marked is recorded. -/
theorem Recorded.push {m m' : Ctx} {nodes lost : List ℕ} {failed : Bool}
    (h : Recorded s m nodes lost failed) {a : ℕ} (hr : m.mayReachVector (.cell a) = true)
    (hv : m.visited a = false) (hgraph : SameGraph m m')
    (hvisited : m'.visited = Function.update m.visited a true) :
    Recorded s m' (nodes ++ [a]) lost failed := by
  have hnew : ¬(s.visited a = true ∨ a ∈ nodes ∨ a ∈ lost) := by
    rw [← h.visited, hv]
    simp
  push Not at hnew
  refine ⟨h.graph.trans hgraph, fun b => ?_, ?_, fun b hb => ?_, fun b hb hm => ?_, h.failed⟩
  · rw [hvisited]
    by_cases hb : b = a
    · simp [hb]
    · simp [hb, h.visited b]
  · exact List.nodup_append.mpr ⟨h.nodup, List.nodup_singleton a, fun x hx y hy hxy =>
      hnew.2.1 (List.mem_singleton.mp hy ▸ hxy ▸ hx)⟩
  · rw [List.append_assoc, List.mem_append, List.mem_append, List.mem_singleton] at hb
    rcases hb with hb | rfl | hb
    · exact h.live b (List.mem_append_left _ hb)
    · exact h.live_of_reach hr
    · exact h.live b (List.mem_append_right _ hb)
  · rcases List.mem_append.mp hm with hm | hm
    · exact h.disjoint b hb hm
    · exact hnew.2.2 (List.mem_singleton.mp hm ▸ hb)

/-- A cell that has just been marked is lost. -/
theorem Recorded.lose {m m' : Ctx} {nodes lost : List ℕ} {failed : Bool}
    (h : Recorded s m nodes lost failed) {a : ℕ} (hr : m.mayReachVector (.cell a) = true)
    (hv : m.visited a = false) (hgraph : SameGraph m m')
    (hvisited : m'.visited = Function.update m.visited a true) :
    Recorded s m' nodes (a :: lost) true := by
  have hnew : ¬(s.visited a = true ∨ a ∈ nodes ∨ a ∈ lost) := by
    rw [← h.visited, hv]
    simp
  push Not at hnew
  refine ⟨h.graph.trans hgraph, fun b => ?_, h.nodup, fun b hb => ?_, fun b hb hm => ?_, by simp⟩
  · rw [hvisited]
    by_cases hb : b = a
    · simp [hb]
    · simp [hb, h.visited b]
  · rw [List.mem_append, List.mem_cons] at hb
    rcases hb with hb | rfl | hb
    · exact h.live b (List.mem_append_left _ hb)
    · exact h.live_of_reach hr
    · exact h.live b (List.mem_append_right _ hb)
  · rcases List.mem_cons.mp hb with rfl | hb
    · exact hnew.2.1 hm
    · exact h.disjoint b hb hm

/-- **Once the bits of the work array are cleared, the lost cells are what is still marked.** -/
theorem Recorded.clear_iff {m : Ctx} {nodes lost : List ℕ} {failed : Bool} (hs : Clean s)
    (h : Recorded s m nodes lost failed) :
    (∀ a, (m.clearVisited nodes).live a → (m.clearVisited nodes).visited a = false) ↔
      failed = false := by
  have hstore := clearVisited_toStore nodes m
  have hheap := (h.graph.trans (sameGraph_clearVisited m nodes)).heap
  have hlive : ∀ a, (m.clearVisited nodes).live a ↔ s.live a := fun a => by
    rw [Ctx.live, hheap, Ctx.live]
  have hvis : ∀ a, (m.clearVisited nodes).visited a = if a ∈ nodes then false else m.visited a :=
    fun a => congrFun (congrArg Store.visited hstore) a
  constructor
  · intro hc
    by_contra hf
    obtain ⟨a, rest, hl⟩ := List.exists_cons_of_ne_nil (h.failed.mp (by simpa using hf))
    have ha : a ∈ lost := hl ▸ List.mem_cons_self ..
    have hm := (h.visited a).mpr (Or.inr (Or.inr ha))
    have hcl := hc a ((hlive a).mpr (h.live a (List.mem_append_right _ ha)))
    rw [hvis, if_neg (h.disjoint a ha), hm] at hcl
    cases hcl
  · intro hf a ha
    have hlost : lost = [] := by
      by_contra hne
      rw [h.failed.mpr hne] at hf
      cases hf
    rw [hvis]
    split
    · rfl
    next hn =>
      have hu := hs.unvisited a ((hlive a).mp ha)
      have hiff := h.visited a
      rw [hu, hlost] at hiff
      simpa [hn] using hiff

/-! ### Growing the work arrays -/

/-- If the work array of the collector finds room, it does so whatever is refused to others. -/
theorem gcPush_granted {s : Ctx} {n : ℕ} (h : (s.gcPush s.scratch n).2 = true) :
    s.roomy.gcPush s.roomy.scratch n = ((s.gcPush s.scratch n).1.roomy, true) := by
  unfold gcPush at h ⊢
  rw [show s.roomy.gcCapacity = s.gcCapacity from rfl]
  by_cases hn : n = s.gcCapacity
  swap
  · rw [if_neg hn, if_neg hn]
  rw [if_pos hn] at h ⊢
  rw [if_pos hn]
  generalize (if s.gcCapacity = 0 then 1024 else s.gcCapacity * 2) = capacity at h ⊢
  dsimp only at h ⊢
  by_cases hcap : sizeMax / ptrBytes < capacity
  · rw [if_pos hcap] at h
    cases h
  rw [if_neg hcap] at h ⊢
  rw [if_neg hcap]
  by_cases hok : (s.mallocScratch s.scratch).1 = true
  · rw [if_pos hok]
    rfl
  · rw [if_neg hok] at h
    cases h

theorem walkPush_sameGraph (s : Ctx) (n : ℕ) :
    SameGraph s (s.walkPush n).1 ∧ (s.walkPush n).1.visited = s.visited := by
  simp only [walkPush, mallocScratch]
  split_ifs <;> exact ⟨⟨rfl, rfl, rfl, rfl⟩, rfl⟩

theorem gcPush_sameGraph (s : Ctx) (ok : ℕ → Bool) (n : ℕ) :
    SameGraph s (s.gcPush ok n).1 ∧ (s.gcPush ok n).1.visited = s.visited := by
  simp only [gcPush, mallocScratch]
  split_ifs <;> exact ⟨⟨rfl, rfl, rfl, rfl⟩, rfl⟩

/-! ### The search -/

/-- A search from `s` is under way. -/
def Searched (s : Ctx) (x : Ctx × Search) : Prop :=
  ∃ lost, Recorded s x.1 x.2.nodes lost x.2.failed

/-- Following an edge in a search. -/
theorem Searched.edge {x : Ctx × Search} (h : Searched s x) (target : ℕ) (v : Ref) :
    Searched s (cycleSearchEdge target x v) := by
  obtain ⟨lost, hrec⟩ := h
  cases v with
  | cell a =>
    unfold cycleSearchEdge
    dsimp only
    by_cases hr : x.1.mayReachVector (.cell a) = true
    swap
    · rw [if_neg hr]
      exact ⟨lost, hrec⟩
    rw [if_pos hr]
    by_cases ht : a = target
    · rw [if_pos ht]
      exact ⟨lost, hrec⟩
    rw [if_neg ht]
    by_cases hv : x.1.visited a = true
    · rw [if_pos hv]
      exact ⟨lost, hrec⟩
    rw [if_neg hv, Bool.not_eq_true] at *
    obtain ⟨hgraph, hvis⟩ := walkPush_sameGraph (x.1.setVisited a true) x.2.nodes.length
    have hgraph : SameGraph x.1 _ := ⟨hgraph.heap, hgraph.refs, hgraph.sources, hgraph.acyclic⟩
    split
    · exact ⟨lost, hrec.push hr hv hgraph hvis⟩
    · exact ⟨a :: lost, hrec.lose hr hv hgraph hvis⟩
  | _ => exact ⟨lost, hrec⟩

theorem Searched.edges (target : ℕ) (vs : List Ref) : ∀ {x : Ctx × Search}, Searched s x →
    Searched s (vs.foldl (cycleSearchEdge target) x) := by
  induction vs with
  | nil => exact fun h => h
  | cons v vs ih => exact fun h => ih (h.edge target v)

theorem Searched.loop (target fuel : ℕ) : ∀ (i budget : ℕ) {x : Ctx × Search}, Searched s x →
    Searched s (searchLoop target fuel i x budget).1 := by
  induction fuel with
  | zero => exact fun _ _ _ h => h
  | succ fuel ih =>
    intro i budget x h
    unfold searchLoop
    split
    · exact h
    · split
      · exact h
      · dsimp only
        split
        · exact h
        · exact ih _ _ (h.edges target _)

/-- The search of `would_create_cycle` up to the clearing of the bits. -/
def search (s : Ctx) (target : ℕ) (item : Ref) (budget : ℕ) : (Ctx × Search) × Bool :=
  searchLoop target (s.size + 1) 0 (s.searchStart target item false) budget

theorem wouldCreateCycle_eq (s : Ctx) (target : ℕ) (item : Ref) (budget : ℕ) :
    s.wouldCreateCycle target item budget =
      ((s.search target item budget).1.1.clearVisited (s.search target item budget).1.2.nodes,
        (s.search target item budget).2 || (s.search target item budget).1.2.found ||
          (s.search target item budget).1.2.failed) := rfl

theorem search_searched (s : Ctx) (target : ℕ) (item : Ref) (budget : ℕ) :
    Searched s (s.search target item budget).1 :=
  Searched.loop target _ 0 budget (Searched.edge ⟨[], .start s⟩ target item)

/-- **A search leaves every bit clear exactly if it does not run out of memory.** -/
theorem wouldCreateCycle_clear_iff (hs : Clean s) (target : ℕ) (item : Ref) (budget : ℕ) :
    (∀ a, (s.wouldCreateCycle target item budget).1.live a →
        (s.wouldCreateCycle target item budget).1.visited a = false) ↔
      (s.search target item budget).1.2.failed = false := by
  obtain ⟨lost, h⟩ := search_searched s target item budget
  exact h.clear_iff hs

theorem wouldCreateCycle_sameGraph (s : Ctx) (target : ℕ) (item : Ref) (budget : ℕ) :
    SameGraph s (s.wouldCreateCycle target item budget).1 := by
  obtain ⟨lost, h⟩ := search_searched s target item budget
  exact h.graph.trans (sameGraph_clearVisited _ _)

theorem clearVisited_roomy (nodes : List ℕ) : ∀ s : Ctx,
    s.roomy.clearVisited nodes = (s.clearVisited nodes).roomy := by
  induction nodes with
  | nil => exact fun _ => rfl
  | cons a nodes ih => exact fun s => ih (s.setVisited a false)

/-! ### Discovery -/

/-- Discovery from `s` is under way. -/
def Scanned (s : Ctx) (x : Ctx × GcScan) : Prop :=
  ∃ lost, Recorded s x.1 x.2.nodes lost x.2.failed

/-- The mark, the trial count and the cleared mark of liveness that `gc_discover_edge` gives a cell. -/
def discovered (m : Ctx) (a : ℕ) : Ctx :=
  { m.setVisited a true with
    trial := Function.update m.trial a
      (if m.refs (.cell a) = immortal then sizeMax else m.refs (.cell a))
    marked := Function.update m.marked a false }

/-- The cell goes into the work array if there is room. -/
def listIf (r : Ctx × Bool) (scan : GcScan) (a : ℕ) : Ctx × GcScan :=
  if r.2 then (r.1, { scan with nodes := scan.nodes ++ [a] }) else (r.1, { scan with failed := true })

theorem listIf_true {r : Ctx × Bool} (h : r.2 = true) (scan : GcScan) (a : ℕ) :
    listIf r scan a = (r.1, { scan with nodes := scan.nodes ++ [a] }) := if_pos h

theorem listIf_false {r : Ctx × Bool} (h : ¬r.2 = true) (scan : GcScan) (a : ℕ) :
    listIf r scan a = (r.1, { scan with failed := true }) := if_neg h

/-- `gc_discover_edge`, where it marks a cell. -/
def scanPush (a : ℕ) (x : Ctx × GcScan) : Ctx × GcScan :=
  listIf ((x.1.discovered a).gcPush (x.1.discovered a).scratch x.2.nodes.length) x.2 a

theorem scanPush_locked (a : ℕ) :
    Locked scanAsker
      (fun x => Scanned s x ∧ x.1.mayReachVector (.cell a) = true ∧ x.1.visited a = false)
      (Scanned s) (scanPush a) where
  keeps := by
    rintro x ⟨⟨lost, hrec⟩, hr, hv⟩
    obtain ⟨hgraph, hvis⟩ := gcPush_sameGraph (x.1.discovered a) x.1.scratch x.2.nodes.length
    have hgraph : SameGraph x.1 _ := ⟨hgraph.heap, hgraph.refs, hgraph.sources, hgraph.acyclic⟩
    unfold scanPush listIf
    split
    · exact ⟨lost, hrec.push hr hv hgraph hvis⟩
    · exact ⟨a :: lost, hrec.lose hr hv hgraph hvis⟩
  sticky x hx := by
    unfold scanPush listIf
    split
    · exact hx
    · rfl
  granted x _ hf := by
    have hroom : ((x.1.discovered a).gcPush (x.1.discovered a).scratch x.2.nodes.length).2 = true := by
      by_contra hn
      rw [scanPush, listIf_false hn] at hf
      cases hf
    have hroomy := gcPush_granted hroom
    change listIf ((x.1.discovered a).roomy.gcPush (x.1.discovered a).roomy.scratch
      x.2.nodes.length) x.2 a = _
    rw [hroomy, scanPush, listIf_true hroom]
    rfl

theorem gcDiscoverEdge_locked (v : Ref) :
    Locked scanAsker (Scanned s) (Scanned s) fun x => gcDiscoverEdge x v := by
  cases v with
  | cell a =>
    refine .ite (p := fun x : Ctx × GcScan =>
      (x.1.mayReachVector (.cell a) && !x.1.visited a) = true) (fun _ => Iff.rfl) ?_
      (.skip fun _ h => h.1)
    refine (Locked.skip fun x h => ⟨h.1, ?_⟩).comp (scanPush_locked a)
    simpa using h.2
  | _ => exact .skip fun _ h => h

theorem discoverSources_locked (sources : List ℕ) :
    Locked scanAsker (Scanned s) (Scanned s) fun x => discoverSources x sources :=
  .foldl (fun a => .ite (p := fun x : Ctx × GcScan => x.2.failed = true) (fun _ => Iff.rfl)
    (.skip fun _ h => h.1)
    ((Locked.skip fun _ h => h.1).comp (gcDiscoverEdge_locked (.cell a)))) sources

theorem discoverLoop_succ (fuel i : ℕ) (x : Ctx × GcScan) :
    discoverLoop (fuel + 1) i x =
      if x.2.failed = true then x
      else x.2.nodes[i]?.elim x fun a =>
        discoverLoop fuel (i + 1) ((x.1.edges a).foldl gcDiscoverEdge x) := by
  rw [discoverLoop]
  split_ifs
  · rfl
  · cases x.2.nodes[i]? <;> rfl

theorem discoverLoop_locked (fuel : ℕ) : ∀ i,
    Locked scanAsker (Scanned s) (Scanned s) fun x => discoverLoop fuel i x := by
  induction fuel with
  | zero =>
    exact fun _ => .of_quiet
      (fun x ⟨lost, h⟩ => ⟨lost, ⟨h.graph.heap, h.graph.refs, h.graph.sources, h.graph.acyclic⟩,
        h.visited, h.nodup, h.live, h.disjoint, h.failed⟩) (fun _ => rfl) fun _ => rfl
  | succ fuel ih =>
    intro i
    simp only [discoverLoop_succ]
    refine .ite (p := fun x : Ctx × GcScan => x.2.failed = true) (fun _ => Iff.rfl)
      (.skip fun _ h => h.1) ?_
    refine .choose (c := fun x : Ctx × GcScan => x.2.nodes[i]?) (F := fun d x => d.elim x fun a =>
      discoverLoop fuel (i + 1) ((x.1.edges a).foldl gcDiscoverEdge x)) (fun _ => rfl) fun d => ?_
    cases d with
    | none => exact .skip fun _ h => h.1.1
    | some a =>
      refine .choose (c := fun x : Ctx × GcScan => x.1.edges a)
        (F := fun vs x => discoverLoop fuel (i + 1) (vs.foldl gcDiscoverEdge x)) (fun _ => rfl)
        fun vs => ?_
      exact ((Locked.skip fun _ h => h.1.1.1).comp
        (.foldl (fun v => gcDiscoverEdge_locked v) vs)).comp (ih (i + 1))

theorem discovery_locked (size : ℕ) (sources : List ℕ) :
    Locked scanAsker (Scanned s) (Scanned s) fun x =>
      discoverLoop (size + 1) 0 (discoverSources x sources) :=
  (discoverSources_locked sources).comp (discoverLoop_locked (size + 1) 0)

/-- If discovery does not run out of memory, it goes as if it could not. -/
theorem discovery_roomy (hd : s.discovery.2.failed = false) :
    s.roomy.discovery = (s.discovery.1.roomy, s.discovery.2) :=
  (discovery_locked s.size s.sources).granted (s, { nodes := [], failed := false }) ⟨[], .start s⟩ hd

theorem discovery_scanned (s : Ctx) : Scanned s s.discovery :=
  (discovery_locked s.size s.sources).keeps (s, { nodes := [], failed := false }) ⟨[], .start s⟩

/-- A collection that runs out of memory in discovery leaves a bit set. -/
theorem discovery_clear_iff (hs : Clean s) :
    (∀ a, (s.discovery.1.clearVisited s.discovery.2.nodes).live a →
        (s.discovery.1.clearVisited s.discovery.2.nodes).visited a = false) ↔
      s.discovery.2.failed = false := by
  obtain ⟨lost, h⟩ := discovery_scanned s
  exact h.clear_iff hs

theorem discovery_sameGraph (s : Ctx) :
    SameGraph s (s.discovery.1.clearVisited s.discovery.2.nodes) := by
  obtain ⟨lost, h⟩ := discovery_scanned s
  exact h.graph.trans (sameGraph_clearVisited _ _)

/-! ### Marking asks another oracle -/

theorem gcPush_eq (s : Ctx) (ok : ℕ → Bool) (n : ℕ) : s.gcPush ok n =
    if n = s.gcCapacity then
      if sizeMax / ptrBytes < if s.gcCapacity = 0 then 1024 else s.gcCapacity * 2 then (s, false)
      else if ok s.tick then
        ({ s with
            tick := s.tick + 1
            gcCapacity := if s.gcCapacity = 0 then 1024 else s.gcCapacity * 2 }, true)
      else ({ s with tick := s.tick + 1 }, false)
    else (s, true) := rfl

theorem gcPush_roomy (s : Ctx) (ok : ℕ → Bool) (n : ℕ) :
    s.roomy.gcPush ok n = ((s.gcPush ok n).1.roomy, (s.gcPush ok n).2) := by
  rw [gcPush_eq, gcPush_eq, show s.roomy.gcCapacity = s.gcCapacity from rfl,
    show s.roomy.tick = s.tick from rfl]
  split_ifs <;> rfl

theorem gcSubtractEdge_roomy (s : Ctx) (v : Ref) :
    s.roomy.gcSubtractEdge v = (s.gcSubtractEdge v).roomy := by
  cases v with
  | cell a =>
    change (if (s.mayReachVector (.cell a) && s.visited a) = true then
        if s.trial a = 0 then s.roomy.abort
        else { s.roomy with trial := Function.update s.trial a (s.trial a - 1) }
      else s.roomy) = _
    unfold gcSubtractEdge
    dsimp only
    split_ifs <;> rfl
  | _ => rfl

theorem gcMarkEdge_roomy (n : ℕ) (st : Ctx × GcScan) (v : Ref) :
    gcMarkEdge n (scanAsker.grant st) v = scanAsker.grant (gcMarkEdge n st v) := by
  cases v with
  | cell a =>
    have hpush := gcPush_roomy { st.1 with marked := Function.update st.1.marked a true }
      st.1.marking (n + st.2.nodes.length)
    change (if (st.1.mayReachVector (.cell a) && st.1.visited a && !st.1.marked a) = true then
        let r := (roomy { st.1 with marked := Function.update st.1.marked a true }).gcPush
          st.1.marking (n + st.2.nodes.length)
        if r.2 then (r.1, { st.2 with nodes := a :: st.2.nodes })
        else (r.1, { st.2 with failed := true })
      else scanAsker.grant st) = _
    rw [hpush]
    unfold gcMarkEdge
    dsimp only
    split_ifs <;> rfl
  | _ => rfl

theorem markLoop_roomy (n fuel : ℕ) : ∀ st : Ctx × GcScan,
    markLoop n fuel (scanAsker.grant st) = scanAsker.grant (markLoop n fuel st) := by
  induction fuel with
  | zero => exact fun _ => rfl
  | succ fuel ih =>
    rintro ⟨m, nodes, failed⟩
    cases failed with
    | true => rfl
    | false =>
      cases nodes with
      | nil => rfl
      | cons a rest =>
        have hfold := @List.foldl_hom _ _ _ scanAsker.grant _ _ (m.edges a) (m, ⟨rest, false⟩)
          (gcMarkEdge_roomy n)
        have hstep : ∀ m', markLoop n (fuel + 1) (m', ⟨a :: rest, false⟩) =
          markLoop n fuel ((m'.edges a).foldl (gcMarkEdge n) (m', ⟨rest, false⟩)) := fun _ => rfl
        change markLoop n (fuel + 1) (m.roomy, ⟨a :: rest, false⟩) = _
        rw [hstep, hstep, ← ih, ← hfold]
        rfl

/-- What marking a root asks of the allocator. -/
def rootPush (n : ℕ) (m : Ctx) (st : GcScan) (a : ℕ) : Ctx × Bool :=
  { m with marked := Function.update m.marked a true }.gcPush m.marking (n + st.nodes.length)

theorem rootPush_roomy (n : ℕ) (m : Ctx) (st : GcScan) (a : ℕ) :
    rootPush n m.roomy st a = ((rootPush n m st a).1.roomy, (rootPush n m st a).2) :=
  gcPush_roomy { m with marked := Function.update m.marked a true } m.marking
    (n + st.nodes.length)

theorem markNode_false (n : ℕ) (m : Ctx) (st : GcScan) (a : ℕ) : markNode n ((m, st), false) a =
    if (m.trial a ≠ 0 && !m.marked a) = true then
      if (rootPush n m st a).2 = true then
        (markLoop n (m.size + 1) ((rootPush n m st a).1, ⟨a :: st.nodes, st.failed⟩), false)
      else (((rootPush n m st a).1, ⟨st.nodes, true⟩), true)
    else ((m, st), false) := rfl

theorem markNode_roomy (n : ℕ) (st : (Ctx × GcScan) × Bool) (a : ℕ) :
    markNode n (scanAsker.grant st.1, st.2) a =
      (scanAsker.grant (markNode n st a).1, (markNode n st a).2) := by
  obtain ⟨⟨m, scan⟩, left⟩ := st
  cases left with
  | true => rfl
  | false =>
    have h1 := markNode_false n m.roomy scan a
    rw [rootPush_roomy] at h1
    change markNode n ((m.roomy, scan), false) a = _
    rw [h1, markNode_false]
    generalize rootPush n m scan a = r
    change (if (m.trial a ≠ 0 && !m.marked a) = true then if r.2 = true then _ else _ else _) = _
    dsimp only
    split_ifs
    · exact Prod.ext (markLoop_roomy n (m.size + 1) (r.1, ⟨a :: scan.nodes, scan.failed⟩)) rfl
    all_goals rfl

/-- **Marking does not depend on the oracle of searches.** -/
theorem markingWalk_roomy (st : Ctx × GcScan) :
    markingWalk (scanAsker.grant st) = scanAsker.grant (markingWalk st) := by
  have hsub : ∀ m : Ctx, st.2.nodes.foldl (fun s a => (s.edges a).foldl gcSubtractEdge s) m.roomy =
      (st.2.nodes.foldl (fun s a => (s.edges a).foldl gcSubtractEdge s) m).roomy := fun m =>
    List.foldl_hom roomy fun m a =>
      @List.foldl_hom _ _ _ roomy _ _ (m.edges a) m gcSubtractEdge_roomy
  unfold markingWalk
  change (st.2.nodes.foldl _ ((st.2.nodes.foldl _ st.1.roomy, _), false)).1 = _
  rw [hsub]
  have hmark := @List.foldl_hom _ _ _
    (fun x : (Ctx × GcScan) × Bool => (scanAsker.grant x.1, x.2)) _ _ st.2.nodes
    ((st.2.nodes.foldl (fun s a => (s.edges a).foldl gcSubtractEdge s) st.1,
      (⟨[], false⟩ : GcScan)), false)
    (markNode_roomy st.2.nodes.length)
  exact congrArg Prod.fst hmark

/-! ### The walks that may run out of memory -/

/-- The walks whose work array may fail to grow: the search before `rc_vector_set` stores a value in a
slot of the vector at a cell, and the two phases of a collection. -/
inductive GraphWalk
  | store (vector slot : ℕ) (item : Ref)
  | discovery
  | marking

/-- The budget of the search before a store. -/
def storeBudget (s : Ctx) : ℕ := if s.acyclic then sizeMax else 256

/-- `rc_vector_set` makes this store, and searches first. -/
structure Searches (s : Ctx) (vector slot : ℕ) (item : Ref) : Prop where
  room : ∃ items, s.asVector (.cell vector) = some (vector, items) ∧ slot < items.length
  belongs : belongs item = true
  reach : s.mayReachVector item = true
  unmarked : s.acyclic = true ∨ vector ∉ s.sources

/-- Growing the work array fails in the walk. -/
def RunsOut (s : Ctx) : GraphWalk → Prop
  | .store vector slot item =>
    s.Searches vector slot item ∧ (s.search vector item s.storeBudget).1.2.failed = true
  | .discovery => s.discovery.2.failed = true
  | .marking => s.discovery.2.failed = false ∧ (markingWalk s.discovery).2.failed = true

/-- The state in which a walk that has run out of memory returns. -/
def afterWalk (s : Ctx) : GraphWalk → Ctx
  | .store vector _ item => (s.wouldCreateCycle vector item s.storeBudget).1
  | .discovery => s.collectFromSources
  | .marking => s.collectFromSources

/-- `rc_vector_set` after a search that has said yes. -/
def storeAfterYes (s : Ctx) (vector slot : ℕ) (items : List Ref) (item : Ref) : Ctx × Bool :=
  if s.acyclic then
    (s.rcError "acyclic mode rejects vector assignment that would create a cycle", false)
  else
    ((((s.sourceLink vector).rcRetain item).modify vector fun o =>
      { o with body := .vector (items.set slot item) }).rcRelease (items[slot]?.getD .null), true)

/-- **The answer of a walk that has run out of memory is the safe one**: the store goes on as after the
answer yes, so the acyclic policy rejects it and otherwise the vector is recorded as a source. A
collection has nothing to go on with. -/
def Conservative (s : Ctx) : GraphWalk → Prop
  | .store vector slot item => ∃ items, s.asVector (.cell vector) = some (vector, items) ∧
    s.rcVectorSet (.cell vector) slot item =
      (s.afterWalk (.store vector slot item)).storeAfterYes vector slot items item
  | _ => True

theorem conservative_of_runsOut {w : GraphWalk} (h : s.RunsOut w) : s.Conservative w := by
  cases w with
  | store vector slot item =>
    obtain ⟨⟨⟨items, hitems, hslot⟩, hbelongs, hreach, hunmarked⟩, hfailed⟩ := h
    refine ⟨items, hitems, ?_⟩
    have hwalk : (s.mayReachVector item && (s.acyclic || decide (vector ∉ s.sources))) = true := by
      simpa [hreach] using hunmarked
    have hyes : (s.wouldCreateCycle vector item s.storeBudget).2 = true := by
      rw [wouldCreateCycle_eq, hfailed, Bool.or_true]
    have hacyclic : (s.afterWalk (.store vector slot item)).acyclic = s.acyclic :=
      (wouldCreateCycle_sameGraph s vector item s.storeBudget).acyclic
    unfold storeBudget at hyes
    unfold rcVectorSet storeAfterYes
    rw [hitems, hacyclic]
    simp only [List.getElem?_eq_getElem hslot, hbelongs, Bool.true_eq_false, if_false, if_pos hwalk,
      Option.getD_some, hyes, Bool.true_and, if_true]
    rfl
  | _ => trivial

theorem sameGraph_of_runsOut {w : GraphWalk} (h : s.RunsOut w)
    (hm : w = .marking → SameGraph s s.collectFromSources) : SameGraph s (s.afterWalk w) := by
  cases w with
  | store vector slot item => exact wouldCreateCycle_sameGraph s vector item _
  | discovery =>
    rw [afterWalk, collectFromSources_discovery h]
    exact discovery_sameGraph s
  | marking => exact hm rfl

end Ctx

end ShenRc.Runtime
