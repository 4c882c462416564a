import Mathlib.Data.List.OfFn
import Mathlib.Algebra.BigOperators.Group.Finset.Basic
import Mathlib.Logic.Function.Basic

/-! # The heap of the reference-counted runtime

A context owns cells, each reached by a handle `RcValue *`. A `Ref` is such a handle: the null
pointer, the nil singleton, an immediate integer, a cell of this context, or a heap value of another
context (which the operations reject, but may have to release).

A cell of the source is one record. Here the record is split by field: `heap` holds what the cell
contains (`none` for a cell that is not in use), `refs` its count, and `visited`, `marked`, `trial`
the bits and the word that only a graph walk uses. The evaluator's side table of plans is the field
`plan` of the pair it is keyed by, and the flag `cycle_source` of a vector is membership in
`sources`, the list the flag is kept together with. -/

namespace ShenRc.Runtime

/-- The tag of a value. -/
inductive RcType
  | nil | number | string | symbol | pair | vector | closure | stream | tail | env
  deriving DecidableEq, Repr

/-- A handle. -/
inductive Ref
  | null
  | nil
  | imm (n : ℤ)
  | cell (a : ℕ)
  | foreign (t : RcType) (k : ℕ)
  deriving DecidableEq, Repr

/-- `RC_IMMORTAL`, the sentinel count of a cell that is never freed. -/
abbrev immortal : ℕ := 4294967295

abbrev sizeMax : ℕ := 18446744073709551615

/-- `sizeof(RcValue *)`, `RC_PAIR_CELL` and `sizeof(RcValue)` on a 64-bit target. -/
abbrev ptrBytes : ℕ := 8
abbrev pairCell : ℕ := 32
abbrev valueCell : ℕ := 72

/-- A number: exact, or the bits of a double. -/
inductive Num
  | exact (n : ℤ)
  | real (bits : UInt64)
  deriving DecidableEq, Repr

/-- The fields of a closure; a callback is named by a number. -/
structure Closure where
  native : Option ℕ
  ownedNative : Option ℕ
  arity : ℕ
  captures : List Ref
  bound : List Ref
  deriving DecidableEq, Repr

/-- What a cell contains. A stream has no payload of its own: to the counts, the walks and the collector
it is a leaf of the same size as a number, and what it has besides, a `FILE *` that is closed when the
cell is freed, none of them looks at. -/
inductive Payload
  | number (n : Num)
  | string (text : List UInt8)
  | symbol (text : List UInt8) (global function : Ref)
  | pair (head tail : Ref)
  | vector (items : List Ref)
  | env (parent : Ref) (keys values : List Ref) (keyClasses : ℕ)
  | closure (c : Closure)
  | tail (function : Ref) (argv : List Ref) (guards : ℕ)
  deriving DecidableEq, Repr

def Payload.type : Payload → RcType
  | .number _ => .number
  | .string _ => .string
  | .symbol _ _ _ => .symbol
  | .pair _ _ => .pair
  | .vector _ => .vector
  | .env _ _ _ _ => .env
  | .closure _ => .closure
  | .tail _ _ _ => .tail

/-- An entry of the evaluator's side table: the plan, `null` while there is none, and the number of
calls. -/
structure PlanEntry where
  plan : Ref
  calls : ℕ
  deriving DecidableEq, Repr

/-- A cell in use. -/
structure Obj where
  body : Payload
  reachesVector : Bool
  plan : Option PlanEntry
  builtinSlot : ℕ
  returnsSecond : Bool
  deriving DecidableEq, Repr

/-- `edges`: the children of a cell, in the order of the source. -/
def Obj.edges (o : Obj) : List Ref :=
  match o.body with
  | .pair h t =>
    match o.plan with
    | some e => if e.plan = .null then [h, t] else [h, t, e.plan]
    | none => [h, t]
  | .vector items => items
  | .env parent _ values _ => parent :: values
  | .closure c => c.captures ++ c.bound
  | .tail f args _ => f :: args
  | _ => []

/-- The slots of a symbol. They are roots of the context, not edges of the graph. -/
def Obj.slots (o : Obj) : List Ref :=
  match o.body with
  | .symbol _ g f => [g, f]
  | _ => []

/-- The counters of the context that the operations keep up to date. -/
structure Stats where
  liveObjects : ℤ := 0
  liveBytes : ℤ := 0
  totalAllocations : ℤ := 0
  totalFrees : ℤ := 0
  collections : ℤ := 0
  cycleObjectsFreed : ℤ := 0
  acyclicCollections : ℤ := 0
  liveCaptureEdges : ℤ := 0
  graphSlots : ℤ := 0
  freeBytes : ℤ := 0
  deriving DecidableEq, Repr

/-- The number of canonical builtins, `RC_BUILTIN_COUNT`. -/
abbrev builtinCount : ℕ := 15

/-- The part of a context that the graph is made of: the cells and their counts, the free lists, the
recorded cycle sources and their number, the references the context itself holds and the shared
immortal closures. `scratch k` says whether the `k`-th request to the system allocator succeeds if it
grows the work array of a graph walk, and `marking k` if the walk is the marking of the collector.
`stuck` is set where the source calls `abort`. -/
structure Store where
  heap : ℕ → Option Obj
  refs : Ref → ℕ
  size : ℕ
  freePairs : List ℕ
  freeValues : List ℕ
  visited : ℕ → Bool
  sources : List ℕ
  cycleSources : ℤ
  builtinRoots : Fin builtinCount → Ref
  retired : List Ref
  staticClosures : List ℕ
  acyclic : Bool
  collecting : Bool
  scratch : ℕ → Bool
  marking : ℕ → Bool
  stuck : Bool

/-- A context. `mem k` says whether the `k`-th request to the system allocator succeeds if it is no
request for a work array, and `tick` counts the requests. -/
structure Ctx extends Store where
  marked : ℕ → Bool
  trial : ℕ → ℕ
  symbols : List ℕ
  symbolCapacity : ℕ
  trueSymbol : Ref
  falseSymbol : Ref
  staticCapacity : ℕ
  planCount : ℕ
  planCapacity : ℕ
  retiredCapacity : ℕ
  callDepth : ℕ
  functionGeneration : ℕ
  walkCapacity : ℕ
  gcCapacity : ℕ
  sinceCollection : ℕ
  collectionInterval : ℕ
  adaptiveCollection : Bool
  stats : Stats
  errorActive : Bool
  error : String
  mem : ℕ → Bool
  tick : ℕ

/-- `rc_context_new_with_policy`. -/
def rcContextNew (acyclic : Bool) (mem scratch marking : ℕ → Bool) : Ctx where
  heap := fun _ => none
  refs := fun _ => 0
  size := 0
  freePairs := []
  freeValues := []
  visited := fun _ => false
  marked := fun _ => false
  trial := fun _ => 0
  sources := []
  cycleSources := 0
  symbols := []
  symbolCapacity := 0
  trueSymbol := .null
  falseSymbol := .null
  builtinRoots := fun _ => .null
  staticClosures := []
  staticCapacity := 0
  planCount := 0
  planCapacity := 0
  retired := []
  retiredCapacity := 0
  callDepth := 0
  functionGeneration := 0
  walkCapacity := 0
  gcCapacity := 0
  acyclic := acyclic
  collecting := false
  sinceCollection := 0
  collectionInterval := 4096
  adaptiveCollection := true
  stats := {}
  errorActive := false
  error := ""
  mem := mem
  scratch := scratch
  marking := marking
  tick := 0
  stuck := false

namespace Ctx

variable (s : Ctx)

/-- The cell is in use. -/
def live (a : ℕ) : Prop := s.heap a ≠ none

instance (a : ℕ) : Decidable (s.live a) := inferInstanceAs (Decidable (s.heap a ≠ none))

/-- The children of a cell. -/
def edges (a : ℕ) : List Ref := ((s.heap a).map Obj.edges).getD []

/-- The slots of a symbol cell. -/
def slots (a : ℕ) : List Ref := ((s.heap a).map Obj.slots).getD []

/-- The references the context itself holds: the canonical builtins and the replaced function
bindings that wait for the outermost call to return. -/
def roots : List Ref := List.ofFn s.builtinRoots ++ s.retired

/-- One request to the system allocator. -/
def malloc : Bool × Ctx := (s.mem s.tick, { s with tick := s.tick + 1 })

/-- One request to grow the work array of a graph walk; `ok` says which succeed. -/
def mallocScratch (ok : ℕ → Bool) : Bool × Ctx := (ok s.tick, { s with tick := s.tick + 1 })

/-- `rc_error`. -/
def rcError (message : String) : Ctx := { s with errorActive := true, error := message }

/-- `rc_clear_error`. -/
def rcClearError : Ctx := { s with errorActive := false, error := "" }

/-- The source calls `abort`. -/
def abort : Ctx := { s with stuck := true }

/-- `rc_type`. -/
def rcType : Ref → RcType
  | .null => .nil
  | .nil => .nil
  | .imm _ => .number
  | .cell a => ((s.heap a).map fun o => o.body.type).getD .nil
  | .foreign t _ => t

/-- `may_reach_vector`. -/
def mayReachVector : Ref → Bool
  | .cell a => ((s.heap a).map Obj.reachesVector).getD false
  | _ => false

/-- `is_counted`. -/
def isCounted : Ref → Bool
  | .cell a => s.refs (.cell a) != immortal
  | .foreign t k => s.refs (.foreign t k) != immortal
  | _ => false

/-- Overwrite the contents of a cell. -/
def put (a : ℕ) (o : Obj) : Ctx := { s with heap := Function.update s.heap a (some o) }

/-- Write a count. -/
def setRefs (r : Ref) (n : ℕ) : Ctx := { s with refs := Function.update s.refs r n }

end Ctx

/-- `belongs`: the handle is not null and is no heap value of another context. -/
def belongs : Ref → Bool
  | .null => false
  | .foreign _ _ => false
  | _ => true

end ShenRc.Runtime
