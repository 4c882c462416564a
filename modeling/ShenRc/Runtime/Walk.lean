import ShenRc.Runtime.Memory

/-! # Graph walks

`reaches` decides whether a path leads from a value to a vector. It follows only edges to values
that may reach a vector, notes the cells it has met in the work array `walk_nodes` and with the bit
`visited`, and gives up with the answer yes when the budget of an unrestricted check is spent or
the work array cannot grow. `rcCollect` is the cycle collector: trial deletion on the cells that the
recorded cycle sources reach. -/

namespace ShenRc.Runtime

namespace Ctx

/-! ### The cycle search -/

/-- `walk_push`, up to storing the entry: whether the work array has room for entry `n`. -/
def walkPush (s : Ctx) (n : ℕ) : Ctx × Bool :=
  if n = s.walkCapacity then
    let capacity := if s.walkCapacity = 0 then 256 else s.walkCapacity * 2
    if sizeMax / ptrBytes < capacity then (s, false)
    else
      let r := s.mallocScratch s.scratch
      if r.1 then ({ r.2 with walkCapacity := capacity }, true) else (r.2, false)
  else (s, true)

/-- Set or clear the bit `visited` of a cell. -/
def setVisited (s : Ctx) (a : ℕ) (b : Bool) : Ctx :=
  { s with visited := Function.update s.visited a b }

/-- Clear the bit `visited` of the cells of a work array. -/
def clearVisited (s : Ctx) (nodes : List ℕ) : Ctx :=
  nodes.foldl (fun s a => s.setVisited a false) s

/-- `CycleSearch`. -/
structure Search where
  nodes : List ℕ
  found : Bool
  failed : Bool

/-- `cycle_search_edge`. -/
def cycleSearchEdge (target : ℕ) (st : Ctx × Search) (v : Ref) : Ctx × Search :=
  match v with
  | .cell a =>
    if st.1.mayReachVector (.cell a) then
      if a = target then (st.1, { st.2 with found := true })
      else if st.1.visited a then st
      else
        let r := (st.1.setVisited a true).walkPush st.2.nodes.length
        if r.2 then (r.1, { st.2 with nodes := st.2.nodes ++ [a] })
        else (r.1, { st.2 with failed := true })
    else st
  | _ => st

/-- The cost of a cell in the budgeted search. -/
def searchWidth (o : Obj) : ℕ :=
  match o.body with
  | .pair _ _ => 2 + if o.plan.isSome then 1 else 0
  | .vector items => items.length
  | .closure c => c.captures.length + c.bound.length
  | .env _ _ values _ => 1 + values.length
  | .tail _ args _ => 1 + args.length
  | _ => 0

/-- The loop of `reaches` over the work array, from entry `i` on. The last component says that the
budget ran out. -/
def searchLoop (target : ℕ) : ℕ → ℕ → Ctx × Search → ℕ → (Ctx × Search) × Bool
  | 0, _, st, _ => (st, true)
  | fuel + 1, i, st, budget =>
    if st.2.found || st.2.failed then (st, false)
    else
      match st.2.nodes[i]? with
      | none => (st, false)
      | some a =>
        let width := ((st.1.heap a).map searchWidth).getD 0
        if budget = 0 ∨ budget - 1 < width then (st, true)
        else
          searchLoop target fuel (i + 1) ((st.1.edges a).foldl (cycleSearchEdge target) st)
            (budget - (width + 1))

/-- The search before its loop: from the item, or from its children. -/
def searchStart (s : Ctx) (target : ℕ) (item : Ref) (fromChildren : Bool) : Ctx × Search :=
  let start : Ctx × Search := (s, { nodes := [], found := false, failed := false })
  if fromChildren then
    match item with
    | .cell a => (s.edges a).foldl (cycleSearchEdge target) start
    | _ => start
  else cycleSearchEdge target start item

/-- `reaches`. -/
def reaches (s : Ctx) (target : ℕ) (item : Ref) (budget : ℕ) (fromChildren : Bool) : Ctx × Bool :=
  let r := searchLoop target (s.size + 1) 0 (s.searchStart target item fromChildren) budget
  (r.1.1.clearVisited r.1.2.nodes, r.2 || r.1.2.found || r.1.2.failed)

/-- `would_create_cycle`. -/
def wouldCreateCycle (s : Ctx) (target : ℕ) (item : Ref) (budget : ℕ) : Ctx × Bool :=
  s.reaches target item budget false

/-- `on_cycle`: whether a path of one or more edges leads from the source back to itself. -/
def onCycle (s : Ctx) (source : ℕ) : Ctx × Bool :=
  s.reaches source (.cell source) sizeMax true

/-! ### The collector -/

/-- `gc_push`, up to storing the entry: whether the work array has room for entry `n`. -/
def gcPush (s : Ctx) (ok : ℕ → Bool) (n : ℕ) : Ctx × Bool :=
  if n = s.gcCapacity then
    let capacity := if s.gcCapacity = 0 then 1024 else s.gcCapacity * 2
    if sizeMax / ptrBytes < capacity then (s, false)
    else
      let r := s.mallocScratch ok
      if r.1 then ({ r.2 with gcCapacity := capacity }, true) else (r.2, false)
  else (s, true)

/-- `GcScan`: the work array, or the part of it that is in use as a stack. -/
structure GcScan where
  nodes : List ℕ
  failed : Bool

/-- `gc_discover_edge`. -/
def gcDiscoverEdge (st : Ctx × GcScan) (v : Ref) : Ctx × GcScan :=
  match v with
  | .cell a =>
    if st.1.mayReachVector (.cell a) && !st.1.visited a then
      let s := st.1.setVisited a true
      let s := { s with
        trial := Function.update s.trial a
          (if s.refs (.cell a) = immortal then sizeMax else s.refs (.cell a))
        marked := Function.update s.marked a false }
      let r := s.gcPush s.scratch st.2.nodes.length
      if r.2 then (r.1, { st.2 with nodes := st.2.nodes ++ [a] })
      else (r.1, { st.2 with failed := true })
    else st
  | _ => st

/-- Discovery from the recorded sources; it stops at the first failure. -/
def discoverSources (st : Ctx × GcScan) (sources : List ℕ) : Ctx × GcScan :=
  sources.foldl (fun st a => if st.2.failed then st else gcDiscoverEdge st (.cell a)) st

/-- Discovery from the cells of the work array, from entry `i` on. -/
def discoverLoop : ℕ → ℕ → Ctx × GcScan → Ctx × GcScan
  | 0, _, st => (st.1.abort, st.2)
  | fuel + 1, i, st =>
    if st.2.failed then st
    else
      match st.2.nodes[i]? with
      | none => st
      | some a => discoverLoop fuel (i + 1) ((st.1.edges a).foldl gcDiscoverEdge st)

/-- `gc_subtract_edge`. -/
def gcSubtractEdge (s : Ctx) (v : Ref) : Ctx :=
  match v with
  | .cell a =>
    if s.mayReachVector (.cell a) && s.visited a then
      if s.trial a = 0 then s.abort
      else { s with trial := Function.update s.trial a (s.trial a - 1) }
    else s
  | _ => s

/-- `gc_mark_edge`. The stack lies in the work array past its first `n` entries. -/
def gcMarkEdge (n : ℕ) (st : Ctx × GcScan) (v : Ref) : Ctx × GcScan :=
  match v with
  | .cell a =>
    if st.1.mayReachVector (.cell a) && st.1.visited a && !st.1.marked a then
      let r := { st.1 with marked := Function.update st.1.marked a true }.gcPush st.1.marking
        (n + st.2.nodes.length)
      if r.2 then (r.1, { st.2 with nodes := a :: st.2.nodes })
      else (r.1, { st.2 with failed := true })
    else st
  | _ => st

/-- Marking from the cells of the stack, until it is empty. -/
def markLoop (n : ℕ) : ℕ → Ctx × GcScan → Ctx × GcScan
  | 0, st => (st.1.abort, st.2)
  | fuel + 1, st =>
    if st.2.failed then st
    else
      match st.2.nodes with
      | [] => st
      | a :: rest =>
        markLoop n fuel ((st.1.edges a).foldl (gcMarkEdge n) (st.1, { st.2 with nodes := rest }))

/-- One turn of the loop over the work array that marks: a cell with a residual count is marked and
put on the stack, and the stack is emptied. The last component says that the loop has been left. -/
def markNode (n : ℕ) (st : (Ctx × GcScan) × Bool) (a : ℕ) : (Ctx × GcScan) × Bool :=
  if st.2 then st
  else if st.1.1.trial a ≠ 0 && !st.1.1.marked a then
    let r := { st.1.1 with marked := Function.update st.1.1.marked a true }.gcPush st.1.1.marking
      (n + st.1.2.nodes.length)
    if r.2 then
      (markLoop n (st.1.1.size + 1) (r.1, { st.1.2 with nodes := a :: st.1.2.nodes }), false)
    else ((r.1, { st.1.2 with failed := true }), true)
  else st

/-- The sweep of the work array: unmarked cells are unaccounted and collected, in reverse order. -/
def sweepNode (st : Ctx × List ℕ) (a : ℕ) : Ctx × List ℕ :=
  if st.1.marked a then (st.1.setVisited a false, st.2)
  else (st.1.unlinkObject a, a :: st.2)

/-- `gc_release_edge`. -/
def gcReleaseEdge (s : Ctx) (v : Ref) : Ctx :=
  match v with
  | .cell a => if s.visited a && !s.marked a then s else s.rcRelease (.cell a)
  | .foreign t k => s.rcRelease (.foreign t k)
  | _ => s

/-- A source that no longer lies on a cycle drops its mark. -/
def uncheckSource (s : Ctx) (a : ℕ) : Ctx :=
  let r := s.onCycle a
  if r.2 then r.1 else r.1.sourceUnlink a

/-- `collect_from_sources`. -/
def collectFromSources (s : Ctx) : Ctx :=
  let st := discoverSources (s, { nodes := [], failed := false }) s.sources
  let st := discoverLoop (s.size + 1) 0 st
  let nodes := st.2.nodes
  if st.2.failed then st.1.clearVisited nodes
  else
    let s := nodes.foldl (fun s a => (s.edges a).foldl gcSubtractEdge s) st.1
    let st := (nodes.foldl (markNode nodes.length) ((s, { nodes := [], failed := false }), false)).1
    if st.2.failed then st.1.clearVisited nodes
    else
      let frees := st.1.stats.totalFrees
      let st := nodes.foldl sweepNode (st.1, [])
      let s := st.2.foldl (fun s a => (s.edges a).foldl gcReleaseEdge s) st.1
      let s := st.2.foldl rawFree s
      let s := { s with
        stats := { s.stats with
          cycleObjectsFreed := s.stats.cycleObjectsFreed + (s.stats.totalFrees - frees) } }
      (s.sources.take 64).foldl uncheckSource s

/-- The next collection budget, from the survivors. -/
def adaptInterval (s : Ctx) : Ctx :=
  if s.adaptiveCollection then
    let work := min (s.stats.liveObjects + s.stats.graphSlots) sizeMax
    let budget := if sizeMax / 4 < work then (sizeMax : ℤ) else work * 4
    { s with collectionInterval := if budget < 4096 then 4096 else budget.toNat }
  else s

/-- `rc_collect`. -/
def rcCollect (s : Ctx) : Ctx :=
  if s.acyclic || s.collecting then s
  else
    let s := { s with
      collecting := true
      stats := { s.stats with collections := s.stats.collections + 1 }
      sinceCollection := 0 }
    let s :=
      if s.cycleSources = 0 then
        { s with stats := { s.stats with acyclicCollections := s.stats.acyclicCollections + 1 } }
      else s.collectFromSources
    { s.adaptInterval with collecting := false }

/-- `rc_safepoint`. -/
def rcSafepoint (s : Ctx) : Ctx :=
  if !s.acyclic && s.collectionInterval ≠ 0 && s.collectionInterval ≤ s.sinceCollection then
    s.rcCollect
  else s

end Ctx

end ShenRc.Runtime
