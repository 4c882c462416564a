import ShenRc.Runtime.Objects

/-! # Application

`apply_request` runs a tail request until no request is left. It calls back into code the runtime
does not know, so its loop is cut at the callback: `applyTurn` is one turn up to the callback, and
`applyAfter` the rest of the turn. `Wait` is what the C frame of a running call holds while the
callback runs. -/

namespace ShenRc.Runtime

/-- `ApplyPending`: excess arguments that wait in a request, or a normalized completion guard. -/
inductive Pending
  | args (request : Ref)
  | guards (g : ℕ)
  deriving DecidableEq, Repr

/-- What a call into the runtime holds while a callback runs. -/
inductive Wait
  /-- In `apply_request`. -/
  | request (resolved request : Ref) (pending : List Pending)
  /-- In `apply_small`: the rooted callee, and the arguments a borrowed callback reads. -/
  | small (target : Ref) (args : List Ref)
  /-- In `rc_apply_rooted_owned_args` or `rc_call_mixed`: the arguments to consume afterwards. -/
  | direct (args : List Ref)
  deriving DecidableEq, Repr

/-- How a stretch of runtime code ends: with a result, at the head of the loop of `apply_request`,
or at a callback. -/
inductive Turn
  | done (s : Ctx) (result : Ref)
  | again (s : Ctx) (request : Ref) (pending : List Pending)
  | call (s : Ctx) (fn : Ref) (args : List Ref) (owned : Bool) (wait : Wait)

namespace Ctx

/-- The record of one pending entry. -/
def releasePending (s : Ctx) : Pending → Ctx
  | .args request => s.rcRelease request
  | .guards _ => s

/-- The exit `fail` of `apply_request`. -/
def applyFail (s : Ctx) (request result : Ref) (pending : List Pending) : Turn :=
  .done (pending.foldl releasePending ((s.rcRelease request).rcRelease result)) .null

/-- The guards of a request go on top of the pending list, merged with the guards there. -/
def pushGuards (s : Ctx) (guards : ℕ) (pending : List Pending) : Ctx × Option (List Pending) :=
  if guards = 0 then (s, some pending)
  else
    match pending with
    | .guards g :: rest => (s, some (.guards (composeGuards guards g) :: rest))
    | _ =>
      if s.malloc.1 then (s.malloc.2, some (.guards guards :: pending))
      else (s.malloc.2.rcError "out of memory", none)

/-- Run the guards on top of the pending list, until one fails or excess arguments are on top. -/
def completeGuards (s : Ctx) (result : Ref) : List Pending → Ctx × Ref × List Pending
  | .guards g :: rest =>
    let r := if g &&& guardContext ≠ 0 then s.rcEvalRequireArgumentContext result else (s, result)
    let r := if r.2 ≠ .null ∧ g &&& guardBoolean ≠ 0 then r.1.rcRequireBoolean r.2 else r
    if r.2 = .null then (r.1, .null, rest) else r.1.completeGuards r.2 rest
  | pending => (s, result, pending)

/-- Write the function of a request, where `nil` stood. -/
def setTailFunction (s : Ctx) (a : ℕ) (fn : Ref) : Ctx :=
  s.modify a fun o =>
    match o.body with
    | .tail _ args g =>
      { o with body := .tail fn args g, reachesVector := o.reachesVector || s.mayReachVector fn }
    | _ => o

/-- The arguments moved out of a request leave `nil` behind. -/
def emptyTailArgs (s : Ctx) (a : ℕ) (n : ℕ) : Ctx :=
  s.modify a fun o =>
    match o.body with
    | .tail fn args g => { o with body := .tail fn (List.replicate n .nil ++ args.drop n) g }
    | _ => o

/-- The turn of the loop of `apply_request` from the callback on. -/
def applyAfter (s : Ctx) (resolved request result : Ref) (pending : List Pending) : Turn :=
  let s := (s.rcRelease resolved).rcRelease request
  if result = .null then s.applyFail .null .null pending
  else if s.errorActive then (s.rcRelease result).applyFail .null .null pending
  else
    let s := s.rcSafepoint
    if s.rcType result = .tail then .again s result pending
    else
      match s.completeGuards result pending with
      | (s, .null, pending) => s.applyFail .null .null pending
      | (s, result, []) => .done s result
      | (s, result, .args (.cell a) :: pending) =>
        .again (s.setTailFunction a result) (.cell a) pending
      | (s, result, _) => .done s.abort result

/-- The callee of a request, after the retained function binding if a symbol stood for it. -/
def resolveTarget (s : Ctx) (target : Ref) : Ctx × Option (Ref × Ref) :=
  if s.rcType target = .symbol then
    match s.rcFunctionGet target with
    | (s, .null) => (s, none)
    | (s, resolved) => (s, some (resolved, resolved))
  else (s, some (.null, target))

/-- The excess arguments wait until all tail bounces complete. -/
def pushExcess (s : Ctx) (excess : List Ref) (pending : List Pending) :
    Ctx × Option (List Pending) :=
  if excess = [] then (s, some pending)
  else if s.malloc.1 then
    match s.malloc.2.rcTailcall .nil excess with
    | (s, .null) => (s, none)
    | (s, p) => (s, some (.args p :: pending))
  else (s.malloc.2.rcError "out of memory", none)

/-- The turn of the loop of `apply_request` from the resolved callee to the callback. -/
def applyExact (s : Ctx) (a : ℕ) (target resolved : Ref) (c : Closure) (argv : List Ref)
    (pending : List Pending) : Turn :=
  let n := c.arity
  let needed := c.arity - c.bound.length
  if sizeMax / ptrBytes < n then
    ((s.rcError "call size overflow").rcRelease resolved).applyFail (.cell a) .null pending
  else if c.ownedNative.isNone ∧ c.bound = [] then
    .call s target (argv.take n) false (.request resolved (.cell a) pending)
  else
    let r := if n ≤ 8 then (true, s) else s.malloc
    if r.1 then
      let s := r.2
      let args := argv.take needed
      if c.ownedNative.isSome then
        let s := s.retainAll c.bound
        let s := if s.refs (.cell a) = 1 then s.emptyTailArgs a needed else s.retainAll args
        .call s target (c.bound ++ args) true (.request resolved (.cell a) pending)
      else .call s target (c.bound ++ args) false (.request resolved (.cell a) pending)
    else
      ((r.2.rcError "out of memory").rcRelease resolved).applyFail (.cell a) .null pending

/-- One turn of the loop of `apply_request`, up to the callback if there is one. -/
def applyTurn (s : Ctx) (request : Ref) (pending : List Pending) : Turn :=
  match s.asTail request with
  | none => .done s.abort .null
  | some (a, target, argv, guards) =>
    match s.pushGuards guards pending with
    | (s, none) => s.applyFail request .null pending
    | (s, some pending) =>
      match s.resolveTarget target with
      | (s, none) => s.applyFail request .null pending
      | (s, some (resolved, target)) =>
        match s.asClosure target with
        | none =>
          ((s.rcError "attempt to apply a non-function").rcRelease resolved).applyFail request .null
            pending
        | some (_, _, c) =>
          let needed := c.arity - c.bound.length
          if argv.length < needed then
            let r := s.partialApply c argv
            r.1.applyAfter resolved request r.2 pending
          else
            match s.pushExcess (argv.drop needed) pending with
            | (s, none) => (s.rcRelease resolved).applyFail request .null pending
            | (s, some pending) => s.applyExact a target resolved c argv pending

/-- `rc_compiled_call_complete` after the arguments are consumed. -/
def callComplete (s : Ctx) (result : Ref) : Turn :=
  if result = .null then .done s .null
  else if s.errorActive then .done (s.rcRelease result) .null
  else
    let s := s.rcSafepoint
    if s.rcType result = .tail then .again s result [] else .done s result

/-- The callee and the closure of a small exact call. -/
def smallTarget (s : Ctx) (fn : Ref) (argv : List Ref) : Option (Ref × Closure) :=
  if argv.length > 8 ∨ !belongs fn ∨ !argv.all belongs then none
  else
    let target :=
      match s.asSymbol fn with
      | some (_, _, _, f) => f
      | none => fn
    match s.asClosure target with
    | some (_, _, c) => if c.bound = [] ∧ argv.length = c.arity then some (target, c) else none
    | none => none

/-- A request that has been made is run, one that could not be made has failed. -/
def runRequest (r : Ctx × Ref) : Turn :=
  match r with
  | (s, .null) => .done s .null
  | (s, request) => .again s request []

/-- `rc_apply` and `rc_apply_owned_args`, up to the first callback. -/
def applyStart (s : Ctx) (fn : Ref) (argv : List Ref) (owned : Bool) : Turn :=
  let s := s.rcCallEnter
  match s.smallTarget fn argv with
  | some (target, c) =>
    let s := s.rcRetain target
    let s := if owned then s else s.retainAll argv
    if c.ownedNative.isSome then .call s target argv true (.small target [])
    else .call s target argv false (.small target argv)
  | none => runRequest (if owned then s.rcTailcallOwnedArgs fn argv else s.rcTailcall fn argv)

/-- The closure of a direct call: exact, unbound, and every handle of this context. -/
def directTarget (s : Ctx) (fn : Ref) (argv : List Ref) : Option Closure :=
  if !belongs fn || !argv.all belongs then none
  else
    match s.asClosure fn with
    | some (_, _, c) => if c.bound = [] ∧ c.arity = argv.length then some c else none
    | none => none

/-- `rc_apply_rooted_owned_args`, up to the first callback. -/
def applyRootedOwnedArgs (s : Ctx) (fn : Ref) (argv : List Ref) : Turn :=
  match s.directTarget fn argv with
  | some c =>
    let s := s.rcCallEnter
    if c.ownedNative.isSome then .call s fn argv true (.direct [])
    else .call s fn argv false (.direct argv)
  | none => s.applyStart fn argv true

/-- `rc_call_mixed` on the direct path, up to the first callback. Bit `i` of `borrowed` says that
argument `i` is borrowed. -/
def callMixed (s : Ctx) (fn : Ref) (argv : List Ref) (borrowed : BitVec 32) : Option Turn :=
  match s.directTarget fn argv with
  | some c =>
    if c.ownedNative.isSome then
      some (.call (s.retainAll (movedRefs argv borrowed)) fn argv true (.direct []))
    else some (.call s fn argv false (.direct (keptRefs argv borrowed)))
  | none => none

/-- `rc_call_mixed` on the general path: retain the borrowed arguments, then apply. -/
def callMixedGeneral (s : Ctx) (fn : Ref) (argv : List Ref) (borrowed : BitVec 32) : Turn :=
  (s.retainAll (movedRefs argv borrowed)).applyStart fn argv true

/-- The callback has returned; `left` are the argument slots it did not empty. -/
def afterCallback (s : Ctx) (wait : Wait) (result : Ref) (left : List Ref) : Turn :=
  match wait with
  | .request resolved request pending =>
    (s.releaseAll left).applyAfter resolved request result pending
  | .small target args => ((s.releaseAll (left ++ args)).rcRelease target).callComplete result
  | .direct args => (s.releaseAll (left ++ args)).callComplete result

end Ctx

end ShenRc.Runtime
