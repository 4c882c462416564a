import ShenRc.Runtime.Walk

/-! # The constructors and the operations on cells

Every operation returns the new context and the handle the source returns, `null` for `NULL`. A
handle is borrowed or given away as the source has it: `rcCons` retains its fields, `rcConsOwned`
takes them over. -/

namespace ShenRc.Runtime

namespace Ctx

/-- `n ? malloc(n) : NULL`: only a payload that is not empty needs memory. -/
def mallocPayload (s : Ctx) (bytes : ℕ) : Bool × Ctx :=
  if bytes = 0 then (true, s) else s.mallocBytes bytes

/-- Change the contents of a cell. -/
def modify (s : Ctx) (a : ℕ) (f : Obj → Obj) : Ctx :=
  match s.heap a with
  | some o => s.put a (f o)
  | none => s

/-- `rc_error`, which returns `NULL`. -/
def fail (s : Ctx) (message : String) : Ctx × Ref := (s.rcError message, .null)

/-! ### Numbers, strings and symbols -/

/-- `rc_number`. -/
def rcNumber (s : Ctx) (bits : UInt64) : Ctx × Ref := s.allocate (.number (.real bits)) false 0

/-- `rc_integer`, with immediate integers. -/
def rcInteger (s : Ctx) (n : ℤ) : Ctx × Ref :=
  if -4611686018427387904 ≤ n ∧ n ≤ 4611686018427387903 then (s, .imm n)
  else s.allocate (.number (.exact n)) false 0

/-- `text_value`. -/
def textValue (s : Ctx) (body : Payload) (n : ℕ) : Ctx × Ref :=
  if n = sizeMax then s.fail "invalid text length"
  else if (s.mallocBytes (n + 1)).1 then (s.mallocBytes (n + 1)).2.allocate body false (n + 1)
  else (s.mallocBytes (n + 1)).2.fail "out of memory"

/-- `rc_string_n`. -/
def rcString (s : Ctx) (text : List UInt8) : Ctx × Ref :=
  s.textValue (.string text) text.length

/-- The interned symbol of that name. -/
def findSymbol (s : Ctx) (name : List UInt8) : Option ℕ :=
  s.symbols.find? fun a =>
    match s.heap a with
    | some o =>
      match o.body with
      | .symbol t _ _ => t == name
      | _ => false
    | none => false

/-- `resize_symbols`, up to rehashing the chains. -/
def resizeSymbols (s : Ctx) (capacity : ℕ) : Ctx × Bool :=
  if sizeMax / ptrBytes < capacity then (s.rcError "symbol table size overflow", false)
  else if s.malloc.1 then ({ s.malloc.2 with symbolCapacity := capacity }, true)
  else (s.malloc.2.rcError "out of memory", false)

/-- The bytes of `true` and `false`. -/
def trueName : List UInt8 := [116, 114, 117, 101]
def falseName : List UInt8 := [102, 97, 108, 115, 101]

/-- `rc_symbol`. The symbol is immortal, so the handle returned needs no count. -/
def rcSymbol (s : Ctx) (name : List UInt8) : Ctx × Ref :=
  match s.findSymbol name with
  | some a => (s, .cell a)
  | none =>
    let r :=
      if s.symbolCapacity = 0 ∨ s.symbolCapacity - s.symbolCapacity / 4 ≤ s.symbols.length then
        s.resizeSymbols (if s.symbolCapacity = 0 then 64 else s.symbolCapacity * 2)
      else (s, true)
    if r.2 then
      match r.1.textValue (.symbol name .null .null) name.length with
      | (s, .cell a) =>
        let s := s.setRefs (.cell a) immortal
        ({ s with
          symbols := a :: s.symbols
          trueSymbol := if name = trueName then .cell a else s.trueSymbol
          falseSymbol := if name = falseName then .cell a else s.falseSymbol },
          .cell a)
      | r => r
    else (r.1, .null)

/-- `rc_is_boolean`. -/
def rcIsBoolean (s : Ctx) (v : Ref) : Bool :=
  s.rcType v == .symbol && (v == s.trueSymbol || v == s.falseSymbol)

/-! ### Pairs -/

/-- The cell, the contents and the fields of a pair of this context. -/
def asPair (s : Ctx) (v : Ref) : Option (ℕ × Obj × Ref × Ref) :=
  match v with
  | .cell a =>
    match s.heap a with
    | some o =>
      match o.body with
      | .pair h t => some (a, o, h, t)
      | _ => none
    | none => none
  | _ => none

/-- `rc_cons`. -/
def rcCons (s : Ctx) (head tail : Ref) : Ctx × Ref :=
  if belongs head && belongs tail then
    match s.allocate (.pair head tail) (s.mayReachVector head || s.mayReachVector tail) 0 with
    | (s, .null) => (s, .null)
    | (s, v) => ((s.rcRetain head).rcRetain tail, v)
  else s.fail "invalid cons value/context"

/-- `rc_cons_owned`. -/
def rcConsOwned (s : Ctx) (head tail : Ref) : Ctx × Ref :=
  if belongs head && belongs tail then
    match s.allocate (.pair head tail) (s.mayReachVector head || s.mayReachVector tail) 0 with
    | (s, .null) => ((s.rcRelease head).rcRelease tail, .null)
    | (s, v) => (s, v)
  else ((s.rcRelease head).rcRelease tail).fail "invalid owned cons value/context"

/-- `plan_remove`, with the cell of the pair: the plan that hung off it, if any. -/
def planRemove (s : Ctx) (a : ℕ) : Ctx × Ref :=
  match s.heap a with
  | some o =>
    match o.plan with
    | some e =>
      ({ s.put a { o with plan := none } with
          planCount := s.planCount - 1
          stats := accountPlanRemoved s.stats o }, e.plan)
    | none => (s, .null)
  | none => (s, .null)

/-- Write both fields and the flag of a pair. -/
def setPair (s : Ctx) (a : ℕ) (head tail : Ref) (reaches : Bool) : Ctx :=
  s.modify a fun o => { o with body := .pair head tail, reachesVector := reaches }

/-- `rc_cons_reuse`. -/
def rcConsReuse (s : Ctx) (candidate head tail : Ref) : Ctx × Ref :=
  if !belongs head || !belongs tail || (candidate ≠ .null && !belongs candidate) then
    (s.rcRelease candidate).fail "invalid cons reuse value/context"
  else
    match s.asPair candidate with
    | some (a, _, oldHead, oldTail) =>
      if s.refs candidate = 1 ∧ candidate ≠ head ∧ candidate ≠ tail then
        let s := (s.rcRetain head).rcRetain tail
        let r := s.planRemove a
        let s := r.1.setPair a head tail (r.1.mayReachVector head || r.1.mayReachVector tail)
        (((s.rcRelease oldHead).rcRelease oldTail).rcRelease r.2, candidate)
      else
        let r := s.rcCons head tail
        (r.1.rcRelease candidate, r.2)
    | none =>
      let r := s.rcCons head tail
      (r.1.rcRelease candidate, r.2)

/-- `rc_cons_reuse_owned`. -/
def rcConsReuseOwned (s : Ctx) (candidate head tail : Ref) : Ctx × Ref :=
  match s.asPair candidate with
  | some (a, _, oldHead, oldTail) =>
    if s.refs candidate = 1 ∧ candidate ≠ head ∧ candidate ≠ tail ∧ belongs head ∧ belongs tail then
      let r := s.planRemove a
      let s := r.1.setPair a head tail (r.1.mayReachVector head || r.1.mayReachVector tail)
      (((s.rcRelease oldHead).rcRelease oldTail).rcRelease r.2, candidate)
    else
      let r := s.rcConsOwned head tail
      (r.1.rcRelease candidate, r.2)
  | none =>
    let r := s.rcConsOwned head tail
    (r.1.rcRelease candidate, r.2)

/-- The head or the tail. -/
def pick (head : Bool) (h t : Ref) : Ref := if head then h else t

/-- `rc_pair_take_unique`. -/
def rcPairTakeUnique (s : Ctx) (pair : Ref) (head : Bool) : Ctx × Ref :=
  match s.asPair pair with
  | some (a, o, h, t) =>
    let value := pick head h t
    if s.refs pair ≠ 1 ∨ o.plan.isSome ∨ belongs value = false ∨ s.rcType value = .tail then
      (s, .null)
    else
      (s.setPair a (pick head .nil h) (pick head t .nil) o.reachesVector, value)
  | none => (s, .null)

/-- `rc_pair_take_last`, with the new value of the slot. -/
def rcPairTakeLast (s : Ctx) (pair : Ref) (head : Bool) : Ctx × Ref × Ref :=
  match s.asPair pair with
  | some (a, o, h, t) =>
    let value := pick head h t
    let other := pick head t h
    if belongs value = false ∨ s.rcType value = .tail then (s, .null, pair)
    else if s.refs pair = 1 ∧ o.plan.isNone then
      ((s.setPair a .nil .nil false).rcRelease other, value, pair)
    else ((s.rcRetain value).rcRelease pair, value, .null)
  | none => (s, .null, pair)

/-- `rc_pair_take_tail_reuse`, with the value of the output slot. -/
def rcPairTakeTailReuse (s : Ctx) (candidate : Ref) : Ctx × Ref × Ref :=
  match s.asPair candidate with
  | some (a, _, h, t) =>
    if s.refs candidate = 1 then
      let r := s.planRemove a
      (((r.1.setPair a .nil .nil false).rcRelease h).rcRelease r.2, t, candidate)
    else (s.rcRetain t, t, candidate)
  | none =>
    ((s.rcRelease candidate).rcError "tail reuse projection expects a pair and output slot",
      .null, .null)

/-- `rc_head`. -/
def rcHead (s : Ctx) (v : Ref) : Ctx × Ref :=
  match s.asPair v with
  | some (_, _, h, _) => (s.rcRetain h, h)
  | none => s.fail "hd expects a nonempty list"

/-- `rc_tail`. -/
def rcTail (s : Ctx) (v : Ref) : Ctx × Ref :=
  match s.asPair v with
  | some (_, _, _, t) => (s.rcRetain t, t)
  | none => s.fail "tl expects a nonempty list"

/-! ### Vectors -/

/-- The cell and the items of a vector of this context. -/
def asVector (s : Ctx) (v : Ref) : Option (ℕ × List Ref) :=
  match v with
  | .cell a =>
    match s.heap a with
    | some o =>
      match o.body with
      | .vector items => some (a, items)
      | _ => none
    | none => none
  | _ => none

/-- `rc_vector`. -/
def rcVector (s : Ctx) (length : ℕ) : Ctx × Ref :=
  if sizeMax / ptrBytes < length then s.fail "vector size overflow"
  else
    let r := s.mallocPayload (length * ptrBytes)
    if r.1 then
      r.2.allocate (.vector (List.replicate length .nil)) true (length * ptrBytes)
    else r.2.fail "out of memory"

/-- `rc_vector_get`. -/
def rcVectorGet (s : Ctx) (v : Ref) (i : ℕ) : Ctx × Ref :=
  match s.asVector v with
  | some (_, items) =>
    match items[i]? with
    | some item => (s.rcRetain item, item)
    | none => s.fail "absvector index out of bounds"
  | none => s.fail "absvector index out of bounds"

/-- `rc_vector_set`. -/
def rcVectorSet (s : Ctx) (v : Ref) (i : ℕ) (item : Ref) : Ctx × Bool :=
  match s.asVector v with
  | some (a, items) =>
    match items[i]? with
    | some old =>
      if belongs item = false then (s.rcError "invalid absvector assignment", false)
      else
        let r :=
          if s.mayReachVector item && (s.acyclic || a ∉ s.sources) then
            s.wouldCreateCycle a item (if s.acyclic then sizeMax else 256)
          else (s, false)
        if r.2 && s.acyclic then
          (r.1.rcError "acyclic mode rejects vector assignment that would create a cycle", false)
        else
          let s := if r.2 then r.1.sourceLink a else r.1
          let s := s.rcRetain item
          let s := s.modify a fun o => { o with body := .vector (items.set i item) }
          (s.rcRelease old, true)
    | none => (s.rcError "invalid absvector assignment", false)
  | none => (s.rcError "invalid absvector assignment", false)

/-! ### Closures -/

/-- The entries of a list whose bit is set, and the others. -/
def movedRefs (captures : List Ref) (moved : BitVec 32) : List Ref :=
  (captures.zipIdx.filter fun p => moved.getLsbD p.2).map Prod.fst

def keptRefs (captures : List Ref) (moved : BitVec 32) : List Ref :=
  (captures.zipIdx.filter fun p => !moved.getLsbD p.2).map Prod.fst

/-- `closure_create_moved`. Bit `i` of `moved` transfers the caller's reference to capture `i`. -/
def closureCreateMoved (s : Ctx) (arity : ℕ) (native ownedNative : Option ℕ) (captures : List Ref)
    (moved : BitVec 32) : Ctx × Ref :=
  if (native = none ∧ ownedNative = none) ∨ sizeMax / ptrBytes < captures.length then
    (s.releaseAll (movedRefs captures moved)).fail "invalid closure"
  else if !captures.all belongs then
    (s.releaseAll (movedRefs captures moved)).fail "invalid closure capture/context"
  else
    let r := s.mallocPayload (captures.length * ptrBytes)
    if r.1 then
      match r.2.allocate (.closure { native, ownedNative, arity, captures, bound := [] })
        (captures.any r.2.mayReachVector) (captures.length * ptrBytes) with
      | (s, .null) => (s.releaseAll (movedRefs captures moved), .null)
      | (s, v) => (s.retainAll (keptRefs captures moved), v)
    else (r.2.releaseAll (movedRefs captures moved)).fail "out of memory"

/-- `closure_create`. -/
def closureCreate (s : Ctx) (arity : ℕ) (native ownedNative : Option ℕ) (captures : List Ref) :
    Ctx × Ref := s.closureCreateMoved arity native ownedNative captures 0

/-- `rc_closure_moved`, `rc_closure` and `rc_closure_owned`. -/
def rcClosureMoved (s : Ctx) (arity native : ℕ) (captures : List Ref) (moved : BitVec 32) :
    Ctx × Ref := s.closureCreateMoved arity none (some native) captures moved

def rcClosure (s : Ctx) (arity native : ℕ) (captures : List Ref) : Ctx × Ref :=
  s.closureCreate arity (some native) none captures

def rcClosureOwned (s : Ctx) (arity native : ℕ) (captures : List Ref) : Ctx × Ref :=
  s.closureCreate arity none (some native) captures

/-- Mark a new closure as one that returns its second argument. -/
def certify (r : Ctx × Ref) : Ctx × Ref :=
  match r with
  | (s, .cell a) => (s.modify a fun o => { o with returnsSecond := true }, .cell a)
  | r => r

/-- `rc_closure_return_second` and `rc_closure_return_second_owned`. -/
def rcClosureReturnSecond (s : Ctx) (native : ℕ) (captures : List Ref) : Ctx × Ref :=
  certify (s.closureCreate 2 (some native) none captures)

def rcClosureReturnSecondOwned (s : Ctx) (native : ℕ) (captures : List Ref) : Ctx × Ref :=
  certify (s.closureCreate 2 none (some native) captures)

/-- The cell, the contents and the fields of a closure of this context. -/
def asClosure (s : Ctx) (v : Ref) : Option (ℕ × Obj × Closure) :=
  match v with
  | .cell a =>
    match s.heap a with
    | some o =>
      match o.body with
      | .closure c => some (a, o, c)
      | _ => none
    | none => none
  | _ => none

/-- `static_closure_same`. -/
def staticClosureSame (s : Ctx) (b a : ℕ) (o : Obj) (c : Closure) : Bool :=
  match s.asClosure (.cell a) with
  | some (_, o', c') =>
    b != a && c'.native == c.native && c'.ownedNative == c.ownedNative && c'.arity == c.arity &&
      o'.returnsSecond == o.returnsSecond && c'.captures == c.captures
  | none => false

/-- `grow_static_closures`, up to rehashing. -/
def growStaticClosures (s : Ctx) : Ctx × Bool :=
  let capacity := if s.staticCapacity = 0 then 256 else s.staticCapacity * 2
  if sizeMax / ptrBytes < capacity then (s, false)
  else if s.malloc.1 then ({ s.malloc.2 with staticCapacity := capacity }, true)
  else (s.malloc.2, false)

/-- `rc_closure_static`. -/
def rcClosureStatic (s : Ctx) (v : Ref) : Ctx × Ref :=
  match s.asClosure v with
  | some (a, o, c) =>
    if !s.isCounted v || c.bound.length ≠ 0 || c.captures.any s.isCounted then (s, v)
    else
      let r :=
        if s.staticCapacity / 2 ≤ s.staticClosures.length then s.growStaticClosures else (s, true)
      if r.2 then
        match r.1.staticClosures.find? fun b => r.1.staticClosureSame a b o c with
        | some b => (r.1.rcRelease v, .cell b)
        | none => ({ r.1 with staticClosures := a :: r.1.staticClosures }.setRefs v immortal, v)
      else (r.1, v)
  | none => (s, v)

/-- `partial`: a copy of the closure with more bound arguments. -/
def partialApply (s : Ctx) (c : Closure) (argv : List Ref) : Ctx × Ref :=
  let n := c.bound.length + argv.length
  if sizeMax / ptrBytes < n then s.fail "partial application size overflow"
  else
    let r := s.mallocPayload (n * ptrBytes)
    if r.1 then
      match r.2.closureCreate c.arity c.native c.ownedNative c.captures with
      | (s, .cell a) =>
        let bound := c.bound ++ argv
        let s := s.retainAll bound
        let s := s.modify a fun o =>
          { o with
            body := .closure { c with bound }
            reachesVector := o.reachesVector || bound.any s.mayReachVector }
        ({ s with
          stats := { s.stats with
            liveBytes := s.stats.liveBytes + (n * ptrBytes : ℕ)
            graphSlots := s.stats.graphSlots + n } }, .cell a)
      | r => r
    else r.2.fail "out of memory"

/-! ### Evaluator frames -/

/-- `env_key_class`. -/
def envKeyClass (s : Ctx) (key : Ref) : ℕ :=
  match key with
  | .cell a =>
    match s.heap a with
    | some o =>
      match o.body with
      | .symbol (c :: _) _ _ => if 65 ≤ c ∧ c ≤ 90 then 1 else if 97 ≤ c ∧ c ≤ 122 then 2 else 4
      | _ => 4
    | none => 4
  | _ => 4

/-- The classes of the keys a frame and its parents bind. -/
def envKeyClasses (s : Ctx) (parent : Ref) : ℕ :=
  match parent with
  | .cell a =>
    match s.heap a with
    | some o =>
      match o.body with
      | .env _ _ _ k => k
      | _ => 0
    | none => 0
  | _ => 0

/-- `env_frame_construct`. -/
def envFrameConstruct (s : Ctx) (parent : Ref) (keys values : List Ref) (bytes : ℕ) : Ctx × Ref :=
  if values.length = 0 then (s.rcRetain parent, parent)
  else
    let r := s.mallocPayload bytes
    if r.1 then
      let classes := keys.foldl (fun k key => k ||| r.2.envKeyClass key) (r.2.envKeyClasses parent)
      match r.2.allocate (.env parent keys values classes)
        (r.2.mayReachVector parent || values.any r.2.mayReachVector) bytes with
      | (s, .null) => (s, .null)
      | (s, v) =>
        let s := (s.rcRetain parent).retainAll values
        ({ s with stats := { s.stats with graphSlots := s.stats.graphSlots + 1 + values.length } },
          v)
    else r.2.fail "out of memory constructing evaluator frame"

/-- `rc_env_frame`. -/
def rcEnvFrame (s : Ctx) (parent : Ref) (bindings : List (Ref × Ref)) : Ctx × Ref :=
  let keys := bindings.map Prod.fst
  let values := bindings.map Prod.snd
  if !belongs parent || (parent ≠ .nil && s.rcType parent ≠ .env) then
    s.fail "invalid evaluator frame"
  else if sizeMax / 2 / ptrBytes < values.length then s.fail "evaluator frame size overflow"
  else if !bindings.all fun b => belongs b.1 && s.rcType b.1 == .symbol && belongs b.2 then
    s.fail "invalid evaluator frame binding/context"
  else
    s.envFrameConstruct parent keys values
      (if values.length > 1 then 2 * values.length * ptrBytes else 0)

/-- `rc_eval_env_frame`: the frame of a call of an interpreted closure, whose captures are its body,
its environment and its parameters. The caller passes as many arguments as the closure has
parameters. -/
def rcEvalEnvFrame (s : Ctx) (self : Ref) (callback : ℕ) (argv : List Ref) : Ctx × Ref :=
  match s.asClosure self with
  | some (_, _, c) =>
    match c.captures with
    | _ :: env :: params =>
      if c.native ≠ some callback ∨ c.ownedNative ≠ none ∨ c.arity ≠ argv.length ∨
          params.length ≠ argv.length then
        s.fail "eval-kl: invalid interpreted closure captures"
      else if sizeMax / 2 / ptrBytes < argv.length then s.fail "evaluator frame size overflow"
      else
        s.envFrameConstruct env params argv
          (if argv.length > 1 then 2 * argv.length * ptrBytes else 0)
    | _ => s.fail "eval-kl: invalid interpreted closure captures"
  | none => s.fail "eval-kl: invalid interpreted closure captures"

/-! ### Plans -/

/-- `plan_insert`: make sure that the pair has a side entry. -/
def planInsert (s : Ctx) (a : ℕ) : Ctx × Bool :=
  match s.heap a with
  | some o =>
    if o.plan.isSome then (s, true)
    else
      let r :=
        if s.planCapacity < (s.planCount + 1) * 2 then
          if s.malloc.1 then
            ({ s.malloc.2 with
              planCapacity := if s.planCapacity = 0 then 64 else s.planCapacity * 2 }, true)
          else (s.malloc.2, false)
        else (s, true)
      if r.2 then
        ({ r.1 with planCount := r.1.planCount + 1 }.put a
          { o with plan := some { plan := .null, calls := 0 } }, true)
      else (r.1, false)
  | none => (s, false)

/-- `rc_eval_plan_heat`: count a call; the result says whether to prepare a plan now. -/
def rcEvalPlanHeat (s : Ctx) (expression : Ref) : Ctx × Bool :=
  match s.asPair expression with
  | some (a, _, _, _) =>
    let r := s.planInsert a
    if r.2 then
      let calls := (((r.1.heap a).bind Obj.plan).map PlanEntry.calls).getD 0
      if calls = sizeMax then (r.1, false)
      else
        (r.1.modify a fun o => { o with plan := o.plan.map fun e => { e with calls := calls + 1 } },
          decide (32 ≤ calls + 1 ∧ (calls + 1) &&& calls = 0))
    else (r.1, false)
  | none => (s, false)

/-- `rc_eval_plan_set`. -/
def rcEvalPlanSet (s : Ctx) (expression plan : Ref) : Ctx :=
  match s.asPair expression with
  | some (a, _, _, _) =>
    let r := s.planInsert a
    if r.2 then
      let s := r.1
      let old := (((s.heap a).bind Obj.plan).map PlanEntry.plan).getD .null
      let s := s.rcRetain plan
      let s := s.modify a fun o => { o with plan := o.plan.map fun e => { e with plan } }
      let s := { s with
        stats := { s.stats with
          graphSlots := s.stats.graphSlots + (if plan = Ref.null then 0 else 1) -
            (if old = Ref.null then 0 else 1) } }
      s.rcRelease old
    else r.1
  | none => s

/-- `rc_eval_plan_promote`: an interpreted closure runs the plan instead of its body. -/
def rcEvalPlanPromote (s : Ctx) (self : Ref) (prepared : ℕ) (plan : Ref) : Ctx :=
  match s.asClosure self with
  | some (a, _, c) =>
    match c.captures with
    | old :: rest =>
      let s := s.rcRetain plan
      let s := s.modify a fun o =>
        { o with body := .closure { c with native := some prepared, captures := plan :: rest } }
      s.rcRelease old
    | [] => s
  | none => s

/-! ### Tail requests -/

/-- `rc_tailcall`. -/
def rcTailcall (s : Ctx) (fn : Ref) (argv : List Ref) : Ctx × Ref :=
  if !belongs fn || sizeMax / ptrBytes < argv.length then s.fail "invalid application"
  else if !argv.all belongs then s.fail "invalid argument/context"
  else
    let bytes := if argv.length > 3 then argv.length * ptrBytes else 0
    let r := s.mallocPayload bytes
    if r.1 then
      match r.2.allocate (.tail fn argv 0) (r.2.mayReachVector fn || argv.any r.2.mayReachVector)
        bytes with
      | (s, .null) => (s, .null)
      | (s, v) =>
        let s := (s.rcRetain fn).retainAll argv
        ({ s with stats := { s.stats with graphSlots := s.stats.graphSlots + argv.length } }, v)
    else r.2.fail "out of memory"

/-- `rc_tailcall_owned_args`. -/
def rcTailcallOwnedArgs (s : Ctx) (fn : Ref) (argv : List Ref) : Ctx × Ref :=
  if !belongs fn || sizeMax / ptrBytes < argv.length then
    (s.releaseAll argv).fail "invalid owned application"
  else if !argv.all belongs then (s.releaseAll argv).fail "invalid owned argument/context"
  else
    let bytes := if argv.length > 3 then argv.length * ptrBytes else 0
    let r := s.mallocPayload bytes
    if r.1 then
      match r.2.allocate (.tail fn argv 0) (r.2.mayReachVector fn || argv.any r.2.mayReachVector)
        bytes with
      | (s, .null) => (s.releaseAll argv, .null)
      | (s, v) =>
        let s := s.rcRetain fn
        ({ s with stats := { s.stats with graphSlots := s.stats.graphSlots + argv.length } }, v)
    else (r.2.releaseAll argv).fail "out of memory"

/-- `GUARD_BOOLEAN`, `GUARD_CONTEXT` and `compose_guards`. -/
abbrev guardBoolean : ℕ := 1
abbrev guardContext : ℕ := 2

def composeGuards (first after : ℕ) : ℕ :=
  if first = 0 then after else if first = guardContext then first ||| after else first

/-- The cell and the fields of a tail request of this context. -/
def asTail (s : Ctx) (v : Ref) : Option (ℕ × Ref × List Ref × ℕ) :=
  match v with
  | .cell a =>
    match s.heap a with
    | some o =>
      match o.body with
      | .tail f args g => some (a, f, args, g)
      | _ => none
    | none => none
  | _ => none

/-- Write the guards of a tail request. -/
def setGuards (s : Ctx) (a : ℕ) (guards : ℕ) : Ctx :=
  s.modify a fun o =>
    match o.body with
    | .tail f args _ => { o with body := .tail f args guards }
    | _ => o

/-- `require_guard`. -/
def requireGuard (s : Ctx) (value : Ref) (guard : ℕ) : Ctx × Ref :=
  let message :=
    if guard = guardBoolean then "boolean expected" else "invalid owned argument/context"
  match value with
  | .null =>
    if s.errorActive then (s, .null)
    else
      s.fail (if guard = guardBoolean then "missing boolean result"
        else "invalid owned argument/context")
  | value =>
    match s.asTail value with
    | some (a, f, args, before) =>
      let after := composeGuards before guard
      if 1 < s.refs value ∧ after ≠ before then
        let r := s.rcTailcall f args
        let s := r.1.rcRelease value
        match r.2 with
        | .cell b => (s.setGuards b after, .cell b)
        | _ => (s, .null)
      else (s.setGuards a after, value)
    | none =>
      if belongs value && (guard == guardContext || s.rcIsBoolean value) then (s, value)
      else (s.rcRelease value).fail message

/-- `rc_require_boolean` and `rc_eval_require_argument_context`. -/
def rcRequireBoolean (s : Ctx) (value : Ref) : Ctx × Ref := s.requireGuard value guardBoolean

def rcEvalRequireArgumentContext (s : Ctx) (value : Ref) : Ctx × Ref :=
  s.requireGuard value guardContext

/-! ### Bindings -/

/-- The cell and the slots of a symbol of this context. -/
def asSymbol (s : Ctx) (v : Ref) : Option (ℕ × List UInt8 × Ref × Ref) :=
  match v with
  | .cell a =>
    match s.heap a with
    | some o =>
      match o.body with
      | .symbol t g f => some (a, t, g, f)
      | _ => none
    | none => none
  | _ => none

/-- `set_symbol_slot`. -/
def setSymbolSlot (s : Ctx) (symbol value : Ref) (function : Bool) : Ctx × Bool :=
  match s.asSymbol symbol with
  | some (a, text, g, f) =>
    if belongs value = false then (s.rcError "invalid binding/context", false)
    else
      let s :=
        if function ∧ s.functionGeneration < sizeMax then
          { s with functionGeneration := s.functionGeneration + 1 }
        else s
      let old := if function then f else g
      let s := s.rcRetain value
      let s := s.modify a fun o =>
        { o with
          body := .symbol text (if function then g else value) (if function then value else f) }
      if function && s.callDepth ≠ 0 && s.isCounted old && old ≠ value then
        if s.retired.length = s.retiredCapacity then
          if s.malloc.1 then
            ({ s.malloc.2 with
              retiredCapacity := if s.retiredCapacity = 0 then 64 else s.retiredCapacity * 2
              retired := s.retired ++ [old] }, true)
          else (s.malloc.2.setRefs old immortal, true)
        else ({ s with retired := s.retired ++ [old] }, true)
      else (s.rcRelease old, true)
  | none => (s.rcError "invalid binding/context", false)

/-- `rc_global_set`. -/
def rcGlobalSet (s : Ctx) (symbol value : Ref) : Ctx × Bool := s.setSymbolSlot symbol value false

/-- `rc_function_set`. -/
def rcFunctionSet (s : Ctx) (symbol fn : Ref) : Ctx × Bool :=
  if s.rcType fn = .closure then s.setSymbolSlot symbol fn true
  else (s.rcError "function binding expects a closure", false)

/-- The text of a symbol, as its error messages show it. -/
def showText (text : List UInt8) : String := String.ofList (text.map fun c => Char.ofNat c.toNat)

/-- `rc_global_get`. -/
def rcGlobalGet (s : Ctx) (symbol : Ref) : Ctx × Ref :=
  match s.asSymbol symbol with
  | some (_, text, g, _) =>
    if g = .null then s.fail ("variable " ++ showText text ++ " has no value")
    else (s.rcRetain g, g)
  | none => s.fail "value expects a symbol"

/-- `rc_function_lookup`. -/
def rcFunctionLookup (s : Ctx) (symbol : Ref) : Ctx × Ref :=
  match s.asSymbol symbol with
  | some (_, _, _, f) => (s.rcRetain f, f)
  | none => (s, .null)

/-- The name `rc_function_get` puts into its message. -/
def functionName (s : Ctx) (symbol : Ref) : String :=
  match s.asSymbol symbol with
  | some (_, text, _, _) => showText text
  | none => "<non-symbol>"

/-- `rc_function_get`. -/
def rcFunctionGet (s : Ctx) (symbol : Ref) : Ctx × Ref :=
  match s.rcFunctionLookup symbol with
  | (s, .null) => s.fail ("undefined function " ++ s.functionName symbol)
  | r => r

/-- `rc_builtin_cache_set`. -/
def rcBuiltinCacheSet (s : Ctx) (slot : ℕ) (fn : Ref) : Ctx :=
  match s.asClosure fn with
  | some (a, _, _) =>
    if h : slot < builtinCount then
      let old := s.builtinRoots ⟨slot, h⟩
      let s := s.rcRetain fn
      let s := { s with builtinRoots := Function.update s.builtinRoots ⟨slot, h⟩ fn }
      let s := s.modify a fun o => { o with builtinSlot := slot + 1 }
      s.rcRelease old
    else s.abort
  | none => s.abort

/-- `rc_call_enter`. -/
def rcCallEnter (s : Ctx) : Ctx :=
  { s with callDepth := if s.callDepth = sizeMax then 0 else s.callDepth + 1 }

/-- `rc_call_leave`. -/
def rcCallLeave (s : Ctx) : Ctx :=
  let s := { s with callDepth := if s.callDepth = 0 then sizeMax else s.callDepth - 1 }
  if s.callDepth ≠ 0 ∨ s.retired = [] then s
  else { s with retired := [] }.releaseAll s.retired

end Ctx

end ShenRc.Runtime
