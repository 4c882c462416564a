import ShenRc.Runtime.Apply
import ShenRc.Runtime.Release

/-! # Runs of the runtime

A configuration is a context and the stack of the calls in progress. Client code (a host, a
callback, compiled code) owns references and issues operations, one step each; the runtime's own
calls wait on the stack while a callback runs. `Step` is any step that keeps the ownership contract
of the interface: a handle that is used is that of a value in use, and a handle that is given away
is owned. Within that contract client code is free, so a run covers every order of operations, every
nesting of callbacks and, through the allocator of the context, every allocation failure. -/

namespace ShenRc.Runtime

/-- The operations that call no client code. -/
inductive Op
  | retain (v : Ref)
  | release (v : Ref)
  | number (bits : UInt64)
  | integer (n : ℤ)
  | string (text : List UInt8)
  | symbol (name : List UInt8)
  | cons (head tail : Ref)
  | consOwned (head tail : Ref)
  | consReuse (candidate head tail : Ref)
  | consReuseOwned (candidate head tail : Ref)
  | pairTakeUnique (pair : Ref) (head : Bool)
  | pairTakeLast (pair : Ref) (head : Bool)
  | pairTakeTailReuse (candidate : Ref)
  | head (v : Ref)
  | tail (v : Ref)
  | vector (length : ℕ)
  | vectorGet (v : Ref) (i : ℕ)
  | vectorSet (v : Ref) (i : ℕ) (item : Ref)
  | closure (arity native : ℕ) (captures : List Ref)
  | closureOwned (arity native : ℕ) (captures : List Ref)
  | closureMoved (arity native : ℕ) (captures : List Ref) (moved : BitVec 32)
  | closureReturnSecond (native : ℕ) (captures : List Ref)
  | closureReturnSecondOwned (native : ℕ) (captures : List Ref)
  | closureStatic (v : Ref)
  | tailcall (fn : Ref) (argv : List Ref)
  | tailcallOwnedArgs (fn : Ref) (argv : List Ref)
  | requireBoolean (v : Ref)
  | requireArgumentContext (v : Ref)
  | envFrame (parent : Ref) (bindings : List (Ref × Ref))
  | evalEnvFrame (self : Ref) (callback : ℕ) (argv : List Ref)
  | planHeat (expression : Ref)
  | planSet (expression plan : Ref)
  | planPromote (self : Ref) (prepared : ℕ) (plan : Ref)
  | globalSet (symbol value : Ref)
  | functionSet (symbol fn : Ref)
  | globalGet (symbol : Ref)
  | functionGet (symbol : Ref)
  | functionLookup (symbol : Ref)
  | builtinCacheSet (slot : ℕ) (fn : Ref)
  | callEnter
  | callLeave
  | error (message : String)
  | clearError
  | setCollectionInterval (n : ℕ)
  | safepoint
  | collect
  deriving DecidableEq, Repr

/-- A handle of another context. -/
def Ref.isForeign : Ref → Bool
  | .foreign _ _ => true
  | _ => false

/-- A pending request of another context. -/
def Ref.isForeignTail : Ref → Bool
  | .foreign .tail _ => true
  | _ => false

namespace Op

/-- The handles an operation borrows. -/
def uses : Op → List Ref
  | .retain v => [v]
  | .cons h t => [h, t]
  | .consReuse _ h t => [h, t]
  | .pairTakeUnique p _ => [p]
  | .head v => [v]
  | .tail v => [v]
  | .vectorGet v _ => [v]
  | .vectorSet v _ item => [v, item]
  | .closure _ _ captures => captures
  | .closureOwned _ _ captures => captures
  | .closureMoved _ _ captures moved => Ctx.keptRefs captures moved
  | .closureReturnSecond _ captures => captures
  | .closureReturnSecondOwned _ captures => captures
  | .tailcall fn argv => fn :: argv
  | .tailcallOwnedArgs fn _ => [fn]
  | .envFrame parent bindings => parent :: (bindings.map Prod.fst ++ bindings.map Prod.snd)
  | .evalEnvFrame self _ argv => self :: argv
  | .planHeat e => [e]
  | .planSet e plan => [e, plan]
  | .planPromote self _ plan => [self, plan]
  | .globalSet x v => [x, v]
  | .functionSet x f => [x, f]
  | .globalGet x => [x]
  | .functionGet x => [x]
  | .functionLookup x => [x]
  | .builtinCacheSet _ fn => [fn]
  | _ => []

/-- The handles an operation takes over. -/
def takes : Op → List Ref
  | .release v => [v]
  | .consOwned h t => [h, t]
  | .consReuse c _ _ => [c]
  | .consReuseOwned c h t => [c, h, t]
  | .pairTakeLast p _ => [p]
  | .pairTakeTailReuse c => [c]
  | .closureMoved _ _ captures moved => Ctx.movedRefs captures moved
  | .closureStatic v => [v]
  | .tailcallOwnedArgs _ argv => argv
  | .requireBoolean v => [v]
  | .requireArgumentContext v => [v]
  | _ => []

/-- Run an operation: the new context and the handles it gives to the caller. -/
def exec (s : Ctx) : Op → Ctx × List Ref
  | .retain v => (s.rcRetain v, [v])
  | .release v => (s.rcRelease v, [])
  | .number bits => one (s.rcNumber bits)
  | .integer n => one (s.rcInteger n)
  | .string text => one (s.rcString text)
  | .symbol name => one (s.rcSymbol name)
  | .cons h t => one (s.rcCons h t)
  | .consOwned h t => one (s.rcConsOwned h t)
  | .consReuse c h t => one (s.rcConsReuse c h t)
  | .consReuseOwned c h t => one (s.rcConsReuseOwned c h t)
  | .pairTakeUnique p first => one (s.rcPairTakeUnique p first)
  | .pairTakeLast p first => two (s.rcPairTakeLast p first)
  | .pairTakeTailReuse c => two (s.rcPairTakeTailReuse c)
  | .head v => one (s.rcHead v)
  | .tail v => one (s.rcTail v)
  | .vector n => one (s.rcVector n)
  | .vectorGet v i => one (s.rcVectorGet v i)
  | .vectorSet v i item => ((s.rcVectorSet v i item).1, [])
  | .closure arity native captures => one (s.rcClosure arity native captures)
  | .closureOwned arity native captures => one (s.rcClosureOwned arity native captures)
  | .closureMoved arity native captures moved => one (s.rcClosureMoved arity native captures moved)
  | .closureReturnSecond native captures => one (s.rcClosureReturnSecond native captures)
  | .closureReturnSecondOwned native captures => one (s.rcClosureReturnSecondOwned native captures)
  | .closureStatic v => one (s.rcClosureStatic v)
  | .tailcall fn argv => one (s.rcTailcall fn argv)
  | .tailcallOwnedArgs fn argv => one (s.rcTailcallOwnedArgs fn argv)
  | .requireBoolean v => one (s.rcRequireBoolean v)
  | .requireArgumentContext v => one (s.rcEvalRequireArgumentContext v)
  | .envFrame parent bindings => one (s.rcEnvFrame parent bindings)
  | .evalEnvFrame self callback argv => one (s.rcEvalEnvFrame self callback argv)
  | .planHeat e => ((s.rcEvalPlanHeat e).1, [])
  | .planSet e plan => (s.rcEvalPlanSet e plan, [])
  | .planPromote self prepared plan => (s.rcEvalPlanPromote self prepared plan, [])
  | .globalSet x v => ((s.rcGlobalSet x v).1, [])
  | .functionSet x f => ((s.rcFunctionSet x f).1, [])
  | .globalGet x => one (s.rcGlobalGet x)
  | .functionGet x => one (s.rcFunctionGet x)
  | .functionLookup x => one (s.rcFunctionLookup x)
  | .builtinCacheSet slot fn => (s.rcBuiltinCacheSet slot fn, [])
  | .callEnter => (s.rcCallEnter, [])
  | .callLeave => (s.rcCallLeave, [])
  | .error message => (s.rcError message, [])
  | .clearError => (s.rcClearError, [])
  | .setCollectionInterval n =>
    ({ s with collectionInterval := n, adaptiveCollection := false }, [])
  | .safepoint => (s.rcSafepoint, [])
  | .collect => (s.rcCollect, [])
where
  one (r : Ctx × Ref) : Ctx × List Ref := (r.1, [r.2])
  two (r : Ctx × Ref × Ref) : Ctx × List Ref := (r.1, [r.2.1, r.2.2])

/-- What the interface asks of the caller beyond ownership. The projections and `rc_closure_static`
are not for values of another context (which the model does not look into), `rc_pair_take_unique` is
for the owner of the pair, an interpreted closure binds its parameters in its environment, and the
plan operations are private to the evaluator: a plan belongs to the body it was prepared for, and only
a closure that is no plan is promoted, from the body to a plan of that body. -/
def Allowed (s : Ctx) (O : Own) : Op → Prop
  | .pairTakeUnique p _ => p.isHeap → 1 ≤ O p
  | .head v => v.isForeign = false
  | .tail v => v.isForeign = false
  | .vectorGet v _ => v.isForeign = false
  | .closureStatic v => v.isForeign = false
  | .planSet e plan => ∃ p q, e = .cell p ∧ plan = .cell q ∧
      (∃ o h t, s.heap p = some o ∧ o.body = .pair h t) ∧ s.PlanOf p q
  | .planPromote self _ plan => ∃ a p q rest, self = .cell a ∧ plan = .cell q ∧
      (∃ o c, s.heap a = some o ∧ o.body = .closure c ∧ c.captures = .cell p :: rest) ∧
      (∃ o h t, s.heap p = some o ∧ o.body = .pair h t) ∧ s.PlanOf p q ∧
      s.NoPlan a
  | .builtinCacheSet slot fn => slot < builtinCount ∧ ∃ a o c, fn = .cell a ∧
      s.heap a = some o ∧ o.body = .closure c
  | _ => True

end Op

/-- The references a pending entry owns. -/
def Pending.owned : Pending → List Ref
  | .args r => [r]
  | .guards _ => []

/-- The requests with excess arguments in a pending list. -/
def pendingOwned (pending : List Pending) : List Ref := pending.flatMap Pending.owned

/-- The references a waiting call owns, pending requests apart. -/
def Wait.owned : Wait → List Ref
  | .request resolved r _ => [resolved, r]
  | .small target args => target :: args
  | .direct args => args

/-- The pending requests of a waiting call. -/
def Wait.pending : Wait → List Pending
  | .request _ _ pending => pending
  | _ => []

/-- A frame of the C stack: client code and what it owns, the head of the loop of `apply_request`,
or a call that waits for a callback. `leave` says that the call ends with `rc_call_leave`. -/
inductive Frame
  | client (owned : Own)
  | apply (request : Ref) (pending : List Pending) (leave : Bool)
  | wait (w : Wait) (leave : Bool)

def Frame.own : Frame → Own
  | .client O => O
  | .apply request pending _ => owns (request :: pendingOwned pending)
  | .wait w _ => owns (w.owned ++ pendingOwned w.pending)

/-- The pending requests of a frame. No other code can name them. -/
def Frame.hidden : Frame → List Ref
  | .client _ => []
  | .apply _ pending _ => pendingOwned pending
  | .wait w _ => pendingOwned w.pending

structure Config where
  ctx : Ctx
  stack : List Frame

namespace Config

/-- All references that C code owns. -/
def own (c : Config) : Own := (c.stack.map Frame.own).sum

/-- The pending requests of all calls. -/
def hidden (c : Config) : Set Ref := {r | r ∈ c.stack.flatMap Frame.hidden}

/-- The configuration after a stretch of runtime code of a call that belongs to `rest`. -/
def after (leave : Bool) (rest : List Frame) : Turn → Config
  | .done s result =>
    ⟨if leave then s.rcCallLeave else s,
      match rest with
      | .client O :: rest => .client (O + Runtime.own result) :: rest
      | rest => rest⟩
  | .again s request pending => ⟨s, .apply request pending leave :: rest⟩
  | .call s _ args owned w => ⟨s, .client (if owned then owns args else 0) :: .wait w leave :: rest⟩

/-- The handles may be used: they are handles of values in use that client code can name. -/
def Usable (s : Ctx) (P : Set Ref) (vs : List Ref) : Prop :=
  ∀ v ∈ vs, v ∉ P ∧ ∀ a, v = .cell a → s.live a

/-- The client owns the handles. -/
def Owned (O : Own) (vs : List Ref) : Prop := ∀ r : Ref, r.isHeap → owns vs r ≤ O r

/-- **One step of a run.** -/
inductive Step : Config → Config → Prop
  | op (s O rest) (o : Op)
      (hu : Usable s (hidden ⟨s, .client O :: rest⟩) (o.uses ++ o.takes))
      (ht : Owned O o.takes) (ha : o.Allowed s O) :
      Step ⟨s, .client O :: rest⟩
        ⟨(o.exec s).1, .client (O - owns o.takes + owns (o.exec s).2) :: rest⟩
  | apply (s O rest) (fn : Ref) (argv : List Ref)
      (hu : Usable s (hidden ⟨s, .client O :: rest⟩) (fn :: argv)) :
      Step ⟨s, .client O :: rest⟩ (after true (.client O :: rest) (s.applyStart fn argv false))
  | applyOwnedArgs (s O rest) (fn : Ref) (argv : List Ref)
      (hu : Usable s (hidden ⟨s, .client O :: rest⟩) (fn :: argv)) (ht : Owned O argv) :
      Step ⟨s, .client O :: rest⟩
        (after true (.client (O - owns argv) :: rest) (s.applyStart fn argv true))
  | applyRootedOwnedArgs (s O rest) (fn : Ref) (argv : List Ref)
      (hu : Usable s (hidden ⟨s, .client O :: rest⟩) (fn :: argv)) (ht : Owned O argv) :
      Step ⟨s, .client O :: rest⟩
        (after true (.client (O - owns argv) :: rest) (s.applyRootedOwnedArgs fn argv))
  | callMixed (s O rest) (fn : Ref) (argv : List Ref) (borrowed : BitVec 32) (t : Turn)
      (hu : Usable s (hidden ⟨s, .client O :: rest⟩) (fn :: argv))
      (ht : Owned O (Ctx.keptRefs argv borrowed)) (hm : s.callMixed fn argv borrowed = some t) :
      Step ⟨s, .client O :: rest⟩
        (after false (.client (O - owns (Ctx.keptRefs argv borrowed)) :: rest) t)
  | callMixedGeneral (s O rest) (fn : Ref) (argv : List Ref) (borrowed : BitVec 32)
      (hu : Usable s (hidden ⟨s, .client O :: rest⟩) (fn :: argv))
      (ht : Owned O (Ctx.keptRefs argv borrowed)) (hm : s.callMixed fn argv borrowed = none) :
      Step ⟨s, .client O :: rest⟩
        (after true (.client (O - owns (Ctx.keptRefs argv borrowed)) :: rest)
          (s.callMixedGeneral fn argv borrowed))
  | compiledCallComplete (s O rest) (result : Ref) (argv : List Ref)
      (hu : Usable s (hidden ⟨s, .client O :: rest⟩) (result :: argv))
      (ht : Owned O (result :: argv)) (hf : result.isForeignTail = false) :
      Step ⟨s, .client O :: rest⟩
        (after false (.client (O - owns (result :: argv)) :: rest)
          ((s.releaseAll argv).callComplete result))
  | turn (s rest) (request : Ref) (pending : List Pending) (leave : Bool) :
      Step ⟨s, .apply request pending leave :: rest⟩ (after leave rest (s.applyTurn request pending))
  | ret (s O rest) (w : Wait) (leave : Bool) (result : Ref) (left : List Ref)
      (hu : Usable s (hidden ⟨s, .client O :: .wait w leave :: rest⟩) (result :: left))
      (ht : ∀ r : Ref, r.isHeap → O r = owns (result :: left) r)
      (hf : result.isForeignTail = false) :
      Step ⟨s, .client O :: .wait w leave :: rest⟩
        (after leave rest (s.afterCallback w result left))

/-- The initial configuration: a new context and a host that owns nothing. -/
def start (acyclic : Bool) (mem scratch marking : ℕ → Bool) : Config :=
  ⟨rcContextNew acyclic mem scratch marking, [.client 0]⟩

/-- The configurations of the runs in a new context. -/
def Reachable (acyclic : Bool) (mem scratch marking : ℕ → Bool) (c : Config) : Prop :=
  Relation.ReflTransGen Step (start acyclic mem scratch marking) c

end Config

end ShenRc.Runtime
