import ShenRc.Runtime.Heap

/-! # Allocation, retain and release

`allocate` hands out a cell with count one, taken from the free list of its class or new; the
constructors pass what the cell is to contain. `rcRelease` runs the release cascade of the source:
a count that drops to zero puts the cell on the work list, and the loop unaccounts a cell of the
list, drops the counts of its children and frees it. -/

namespace ShenRc.Runtime

namespace Ctx

/-- The cell sizes of the two classes. -/
def cellBytes : RcType → ℕ
  | .pair => pairCell
  | _ => valueCell

/-- The payload bytes beyond the cell. -/
def extraBytes : Payload → ℕ
  | .string t => t.length + 1
  | .symbol t _ _ => t.length + 1
  | .vector items => items.length * ptrBytes
  | .env _ _ values _ => if values.length > 1 then 2 * values.length * ptrBytes else 0
  | .closure c => (c.captures.length + c.bound.length) * ptrBytes
  | .tail _ args _ => if args.length > 3 then args.length * ptrBytes else 0
  | _ => 0

/-- The bytes that the payloads of all cells take. -/
def payloadBytes (s : Ctx) : ℕ :=
  ∑ a ∈ Finset.range s.size, ((s.heap a).map fun o => extraBytes o.body).getD 0

/-- The size of a 64-bit address space. -/
abbrev addressBytes : ℕ := 2 ^ 64

/-- A request for the payload of a cell: it fails if the payload does not fit into the address
space. -/
def mallocBytes (s : Ctx) (bytes : ℕ) : Bool × Ctx :=
  (s.malloc.1 && s.payloadBytes + bytes ≤ addressBytes, s.malloc.2)

/-- The number of cells a 64-bit address space has room for: two cells are at least `pairCell` bytes
apart. -/
abbrev addressCells : ℕ := 2 ^ 59

/-- A cell of the class of `t`: the first of its free list, or a new one. A new cell may need a
page from the system. -/
def takeCell (s : Ctx) (t : RcType) : Option ℕ × Ctx :=
  match (if t = .pair then s.freePairs else s.freeValues) with
  | a :: rest =>
    (some a,
      { s with
        freePairs := if t = .pair then rest else s.freePairs
        freeValues := if t = .pair then s.freeValues else rest
        stats := { s.stats with freeBytes := s.stats.freeBytes - cellBytes t } })
  | [] =>
    if s.malloc.1 && s.size < addressCells then
      (some s.size, { s.malloc.2 with size := s.size + 1 })
    else (none, s.malloc.2)

/-- The counters `allocate` updates; `extra` is the number of payload bytes. -/
def accountNew (st : Stats) (t : RcType) (extra : ℕ) : Stats :=
  { st with
    liveObjects := st.liveObjects + 1
    liveBytes := st.liveBytes + cellBytes t + extra
    totalAllocations := st.totalAllocations + 1
    liveCaptureEdges := st.liveCaptureEdges + if t = .closure then (extra / ptrBytes : ℕ) else 0
    graphSlots := st.graphSlots +
      match t with
      | .pair => 2
      | .vector => (extra / ptrBytes : ℕ)
      | .closure => (extra / ptrBytes : ℕ)
      | .tail => 1
      | _ => 0 }

/-- A fresh cell record. -/
def fresh (body : Payload) (reaches : Bool) : Obj where
  body := body
  reachesVector := reaches
  plan := none
  builtinSlot := 0
  returnsSecond := false

/-- The state after the cell `a` has been handed out for `body`. -/
def place (s : Ctx) (a : ℕ) (body : Payload) (reaches : Bool) (extra : ℕ) : Ctx :=
  { s with
    heap := Function.update s.heap a (some (fresh body reaches))
    refs := Function.update s.refs (.cell a) 1
    visited := Function.update s.visited a false
    marked := Function.update s.marked a false
    stats := accountNew s.stats body.type extra
    sinceCollection := s.sinceCollection + 1 }

/-- `allocate`, with the payload its caller writes into the new cell. -/
def allocate (s : Ctx) (body : Payload) (reaches : Bool) (extra : ℕ) : Ctx × Ref :=
  if sizeMax - valueCell < extra then (s.rcError "allocation size overflow", .null)
  else
    match s.takeCell body.type with
    | (none, s) => (s.rcError "out of memory", .null)
    | (some a, s) => (s.place a body reaches extra, .cell a)

/-- `rc_retain`. -/
def rcRetain (s : Ctx) (v : Ref) : Ctx :=
  if s.isCounted v then s.setRefs v (s.refs v + 1) else s

/-- `rc_retain` of several values, in order. -/
def retainAll (s : Ctx) (vs : List Ref) : Ctx := vs.foldl rcRetain s

/-- `source_link`. -/
def sourceLink (s : Ctx) (a : ℕ) : Ctx :=
  { s with
    sources := a :: s.sources
    cycleSources := s.cycleSources + 1 }

/-- `source_unlink`. -/
def sourceUnlink (s : Ctx) (a : ℕ) : Ctx :=
  { s with
    sources := s.sources.erase a
    cycleSources := s.cycleSources - 1 }

/-- The graph slots a cell counts for, its plan apart. -/
def graphWidth : Payload → ℤ
  | .pair _ _ => 2
  | .vector items => items.length
  | .env _ _ values _ => 1 + values.length
  | .closure c => c.captures.length + c.bound.length
  | .tail _ args _ => 1 + args.length
  | _ => 0

/-- The counters `unlink_object` updates. -/
def accountDead (st : Stats) (body : Payload) : Stats :=
  { st with
    liveObjects := st.liveObjects - 1
    liveBytes := st.liveBytes - (cellBytes body.type + extraBytes body : ℕ)
    totalFrees := st.totalFrees + 1
    graphSlots := st.graphSlots - graphWidth body
    liveCaptureEdges := st.liveCaptureEdges -
      match body with
      | .closure c => (c.captures.length : ℤ)
      | _ => 0 }

/-- `unlink_object`: unaccount a dying value. -/
def unlinkObject (s : Ctx) (a : ℕ) : Ctx :=
  match s.heap a with
  | none => s.abort
  | some o =>
    let s := { s with stats := accountDead s.stats o.body }
    if a ∈ s.sources then s.sourceUnlink a else s

/-- `plan_remove`, on the counters: the entry goes, and with it the plan's edge. -/
def accountPlanRemoved (st : Stats) (o : Obj) : Stats :=
  match o.plan with
  | some e => if e.plan = .null then st else { st with graphSlots := st.graphSlots - 1 }
  | none => st

/-- The number of side entries left when that of `o`, if any, goes. -/
def planCountWithout (n : ℕ) (o : Obj) : ℕ := if o.plan.isSome then n - 1 else n

/-- `raw_free`: drop the side entry of a pair and put the cell on its free list. The count of a free
cell means nothing until the cell is handed out again; here it reads zero. -/
def rawFree (s : Ctx) (a : ℕ) : Ctx :=
  match s.heap a with
  | none => s.abort
  | some o =>
    let st := accountPlanRemoved s.stats o
    { s with
      heap := Function.update s.heap a none
      refs := Function.update s.refs (.cell a) 0
      freePairs := if o.body.type = .pair then a :: s.freePairs else s.freePairs
      freeValues := if o.body.type = .pair then s.freeValues else a :: s.freeValues
      planCount := planCountWithout s.planCount o
      stats := { st with freeBytes := st.freeBytes + cellBytes o.body.type } }

/-- `release_edge`: drop one count; a cell whose count is then zero goes on the work list. -/
def releaseEdge (st : Ctx × List ℕ) (v : Ref) : Ctx × List ℕ :=
  if st.1.isCounted v then
    if st.1.refs v = 0 then (st.1.abort, st.2)
    else
      (st.1.setRefs v (st.1.refs v - 1),
        match v with
        | .cell a => if st.1.refs v = 1 then a :: st.2 else st.2
        | _ => st.2)
  else st

/-- One turn of the loop of `rc_release`. -/
def releaseStep (s : Ctx) (dead : ℕ) (work : List ℕ) : Ctx × List ℕ :=
  let kids := s.edges dead
  let st := kids.foldl releaseEdge (s.unlinkObject dead, work)
  (st.1.rawFree dead, st.2)

/-- The loop of `rc_release`. Every turn frees a cell, so `fuel` above the number of cells
suffices. -/
def releaseLoop : ℕ → Ctx × List ℕ → Ctx
  | 0, st => st.1.abort
  | _ + 1, (s, []) => s
  | fuel + 1, (s, dead :: work) => releaseLoop fuel (s.releaseStep dead work)

/-- `rc_release`. -/
def rcRelease (s : Ctx) (v : Ref) : Ctx := releaseLoop (s.size + 1) (releaseEdge (s, []) v)

/-- `rc_release` of several values, in order. -/
def releaseAll (s : Ctx) (vs : List Ref) : Ctx := vs.foldl rcRelease s

end Ctx

end ShenRc.Runtime
