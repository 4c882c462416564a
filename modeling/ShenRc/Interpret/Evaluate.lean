import ShenRc.Eval.Plan

/-! # The evaluator

`evaluate` interprets a KL expression. The rest of the runtime is a parameter, a `Host` over any monad
of effects with errors: a `NULL` result is an error of the monad, so an error skips what follows it.
Reference counts are no part of it. `plan_evaluate` runs a prepared body over the same host; it makes
the frames of its bindings only for an expression that is left to `evaluate`, and so it also counts the
frames that are there. -/

namespace ShenRc.Interpret

open Numeral Eval

variable {m : Type → Type} {V : Type}

/-- The bindings in force, the innermost first. -/
abbrev Env (V : Type) := List (Text × V)

/-- `env_key_class`. -/
def keyClass (name : Text) : ℕ :=
  match name with
  | [] => 4
  | first :: _ => if 65 ≤ first ∧ first ≤ 90 then 1 else if 97 ≤ first ∧ first ≤ 122 then 2 else 4

/-- The field `key_classes` of the frames. -/
def keyClasses (env : Env V) : ℕ := env.foldr (fun p classes => classes ||| keyClass p.1) 0

/-- `rc_env_lookup`. No key is compared where no frame has one of the class. -/
def envLookup (env : Env V) (name : Text) : Option V :=
  if keyClasses env &&& keyClass name = 0 then none
  else (env.find? fun p => p.1 = name).map (·.2)

/-- `rc_env_frame`: within a frame the last key is compared first. -/
def envFrame (parent : Env V) (keys : List Text) (values : List V) : Env V :=
  (keys.zip values).reverse ++ parent

/-! ### Closures -/

/-- `parameters`: the names, if they are distinct symbols. -/
def parameterNames : List Expr → Except Text (List Text)
  | [] => .ok []
  | .symbol name :: rest =>
    if (rest.map Expr.handle).contains (.symbol name) then
      .error (ascii "eval-kl: duplicate parameter " ++ name.takeWhile (· ≠ 0))
    else (parameterNames rest).map (name :: ·)
  | _ => .error (ascii "eval-kl: parameter must be a symbol")

/-- **Parameters that pass the check are distinct symbols.** -/
theorem parameterNames_ok {xs : List Expr} {names : List Text} (h : parameterNames xs = .ok names) :
    xs.map Expr.handle = names.map Handle.symbol ∧ names.Nodup := by
  induction xs generalizing names with
  | nil =>
    obtain rfl := Except.ok.inj h
    exact ⟨rfl, List.nodup_nil⟩
  | cons x xs ih =>
    rcases x with _ | name | a | ⟨a, x, y⟩
    · exact absurd h (by simp [parameterNames])
    · rw [parameterNames] at h
      split_ifs at h with hdup
      rcases hrest : parameterNames xs with message | ys
      · rw [hrest] at h
        exact absurd h (by simp [Except.map])
      · rw [hrest] at h
        obtain rfl := Except.ok.inj h
        obtain ⟨hhandles, hnodup⟩ := ih hrest
        refine ⟨by rw [List.map_cons, List.map_cons, hhandles]; rfl,
          List.nodup_cons.mpr ⟨fun hmem => hdup ?_, hnodup⟩⟩
        rw [List.contains_iff_mem, hhandles]
        exact List.mem_map_of_mem hmem
    · exact absurd h (by simp [parameterNames])
    · exact absurd h (by simp [parameterNames])

/-- What `make_function` captures. -/
structure Closure (V : Type) where
  params : List Text
  body : Expr
  env : Env V
  distinct : params.Nodup

/-- What the evaluator asks of the rest of the runtime. -/
structure Host (m : Type → Type) (V : Type) where
  /-- An expression as a value. -/
  datum : Handle → V
  /-- The name of a value of type `RC_SYMBOL`. -/
  symbolName : V → Option Text
  symbolName_datum : ∀ name, symbolName (datum (.symbol name)) = some name
  isBoolean : V → Bool
  isTrue : V → Bool
  error : Text → m V
  /-- `NULL`, where the error is already recorded. -/
  null : m V
  hasError : m Bool
  functionGet : Text → m V
  returnsSecond : V → m Bool
  /-- The value is one of the context. -/
  belongs : V → Bool
  /-- The memory of a frame with that many bindings, none for no binding. -/
  newFrame : ℕ → m Unit
  /-- `rc_call_values_belong` of a function and its first argument. -/
  valuesBelong : V → V → Bool
  /-- `rc_primitive_call_rooted_owned`. -/
  dispatch : V → List V → Bool → m V
  requireArgumentContext : V → m V
  requireBoolean : V → m V
  safepoint : m Unit
  /-- Go on with the message of an error, which is cleared. -/
  trap : m V → (V → m V) → m V
  tailcall : V → V → m V
  apply : V → V → m V
  closure : Closure V → m V
  /-- `rc_function_set`, and the hook of the tier. -/
  define : Text → Expr → V → m Unit

variable (H : Host m V)

/-! ### Errors -/

def improperList : Text := ascii "eval-kl: improper expression list"

/-- `count_is`. -/
def wrongCount (form : Text) (expected received : ℕ) : Text :=
  ascii "eval-kl: " ++ form ++ ascii (" expects " ++ toString expected ++ " arguments, received " ++
    toString received)

/-! ### Application -/

/-- The text of a symbol, as its error messages show it. -/
def symbolText : Expr → Text
  | .symbol name => name.takeWhile (· ≠ 0)
  | _ => []

/-- The value of a symbol that is bound. -/
def lexicalHead (head : Expr) (env : Env V) : Option V :=
  match head with
  | .symbol name => envLookup env name
  | _ => none

/-- `atomic_value`. -/
def atomicValue (e : Expr) (env : Env V) : V := (lexicalHead e env).getD (H.datum e.handle)

section Effects

/-! What a prepared body evaluates goes on in a monad above that of the host. -/

variable {n : Type → Type} [Monad n] [MonadLiftT m n]

/-- The call of a closure that returns its second argument: no call is made unless the first argument
is of another context. -/
def callSecond (function : V) (left right : Bool → n V) : n V := do
  let ignored ← left false
  let validFirst := H.valuesBelong function ignored
  let result ← right validFirst
  if validFirst then
    if ← H.hasError then H.null
    else
      let result ← H.requireArgumentContext result
      H.safepoint
      pure result
  else H.dispatch function [ignored, result] true

/-- `application` from the resolved function on, and `plan_application` alike. An argument is evaluated
when its turn comes. -/
def application (function : V) (args : List (Bool → n V)) (tail : Bool) : n V := do
  let second ← if tail && args.length == 2 then liftM (H.returnsSecond function) else pure false
  match second, args with
  | true, [left, right] => callSecond H function left right
  | _, args => H.dispatch function (← args.mapM fun arg => arg false) tail

/-- The cases of a `cond`, each a test and a body. -/
def firstTrue : List (n V × n V) → n V
  | [] => H.error (ascii "eval-kl: no true cond case")
  | (test, body) :: rest => do
    let value ← test
    if H.isBoolean value then if H.isTrue value then body else firstTrue rest
    else H.error (ascii "eval-kl: cond test must be boolean")

/-- `and` and `or`, once the first operand has been evaluated. -/
def logicRest (isAnd : Bool) (first : V) (second : n V) : n V :=
  if H.isBoolean first then
    if H.isTrue first ≠ isAnd then pure first
    else do
      let value ← second
      H.requireBoolean value
  else H.error (ascii "eval-kl: boolean arguments required")

/-- `if`, once the test has been evaluated. -/
def branch (test : V) (yes no : n V) : n V :=
  if H.isBoolean test then if H.isTrue test then yes else no
  else H.error (ascii "eval-kl: if test must be boolean")

end Effects

variable [Monad m]

/-- A function position may evaluate to a symbol. -/
def resolve (function : V) : m V :=
  match H.symbolName function with
  | some name => H.functionGet name
  | none => pure function

/-- `rc_env_frame`. -/
def makeFrame (parent : Env V) (keys : List Text) (values : List V) : m (Env V) :=
  if values.all H.belongs then do
    H.newFrame keys.length
    pure (envFrame parent keys values)
  else do
    let _ ← H.error (ascii "invalid evaluator frame binding/context")
    pure parent

/-- `make_function`. -/
def makeFunction (params body : Expr) (env : Env V) : m V :=
  match params.list? with
  | none => H.error improperList
  | some xs =>
    match h : parameterNames xs with
    | .error message => H.error message
    | .ok names => H.closure ⟨names, body, env, (parameterNames_ok h).2⟩

/-! ### Evaluation -/

mutual

/-- `evaluate`. Where the source goes on with another expression in its loop, this calls itself with
the same `tail`. -/
def evaluate : Expr → Env V → Bool → m V
  | .pair address head args, env, tail =>
    match args.list? with
    | none => H.error improperList
    | some xs =>
      match lexicalHead head env with
      | some function => do application H (← resolve H function) (arguments args env) tail
      | none =>
        match formOf head with
        | .if_ =>
          match args with
          | .pair _ x (.pair _ y (.pair _ z .nil)) => do
            branch H (← evaluate x env false) (evaluate y env tail) (evaluate z env tail)
          | _ => H.error (wrongCount (ascii "if") 3 xs.length)
        | .let_ =>
          match args with
          | .pair _ (.symbol name) (.pair _ value (.pair _ body .nil)) => do
            let bound ← evaluate value env false
            let inner ← makeFrame H env [name] [bound]
            evaluate body inner tail
          | .pair _ _ (.pair _ _ (.pair _ _ .nil)) =>
            H.error (ascii "eval-kl: let binder must be a symbol")
          | _ => H.error (wrongCount (ascii "let") 3 xs.length)
        | .cond => evaluateCases args env tail
        | .and =>
          match args with
          | .pair _ x (.pair _ y .nil) => do
            logicRest H true (← evaluate x env false) (evaluate y env tail)
          | _ => H.error (wrongCount (ascii "and") 2 xs.length)
        | .or =>
          match args with
          | .pair _ x (.pair _ y .nil) => do
            logicRest H false (← evaluate x env false) (evaluate y env tail)
          | _ => H.error (wrongCount (ascii "or") 2 xs.length)
        | .lambda =>
          match args with
          | .pair _ (.symbol param) (.pair _ body .nil) =>
            H.closure ⟨[param], body, env, List.nodup_singleton param⟩
          | .pair _ _ (.pair _ _ .nil) => H.error (ascii "eval-kl: lambda binder must be a symbol")
          | _ => H.error (wrongCount (ascii "lambda") 2 xs.length)
        | .freeze =>
          match args with
          | .pair _ body .nil => H.closure ⟨[], body, env, List.nodup_nil⟩
          | _ => H.error (wrongCount (ascii "freeze") 1 xs.length)
        | .defun =>
          match args with
          | .pair _ (.symbol name) (.pair _ params (.pair _ body .nil)) => do
            let function ← makeFunction H params body []
            H.define name (.pair address head args) function
            pure (H.datum (.symbol name))
          | .pair _ _ (.pair _ _ (.pair _ _ .nil)) =>
            H.error (ascii "eval-kl: defun name must be a symbol")
          | _ => H.error (wrongCount (ascii "defun") 3 xs.length)
        | .trap =>
          match args with
          | .pair _ x (.pair _ handler .nil) =>
            H.trap (evaluate x env false) fun message => do
              let function ← evaluate handler env false
              if tail then H.tailcall function message else H.apply function message
          | _ => H.error (wrongCount (ascii "trap-error") 2 xs.length)
        | .type =>
          match args with
          | .pair _ x (.pair _ _ .nil) => evaluate x env tail
          | _ => H.error (wrongCount (ascii "type") 2 xs.length)
        | .quote =>
          match args with
          | .pair _ x .nil => pure (H.datum x.handle)
          | _ => H.error (wrongCount (symbolText head) 1 xs.length)
        | .call =>
          match head with
          | .symbol name => do application H (← H.functionGet name) (arguments args env) tail
          | head => do
            let function ← evaluate head env false
            application H (← resolve H function) (arguments args env) tail
  | e, env, _ => pure (atomicValue H e env)

/-- The arguments of an application. -/
def arguments : Expr → Env V → List (Bool → m V)
  | .pair _ x rest, env => (fun tail => evaluate x env tail) :: arguments rest env
  | _, _ => []

/-- The loop over the clauses of a `cond`. The shape of a clause is looked at when its turn comes. -/
def evaluateCases : Expr → Env V → Bool → m V
  | .pair _ (.pair _ test (.pair _ body .nil)) rest, env, tail => do
    let value ← evaluate test env false
    if H.isBoolean value then
      if H.isTrue value then evaluate body env tail else evaluateCases rest env tail
    else H.error (ascii "eval-kl: cond test must be boolean")
  | .pair _ clause _, _, _ =>
    match clause.list? with
    | none => H.error improperList
    | some xs => H.error (wrongCount (ascii "cond clause") 2 xs.length)
  | _, _, _ => H.error (ascii "eval-kl: no true cond case")

end

/-! ### Prepared bodies -/

/-- `PlanRun`: a plan with what its closure and its call provide. `memory` is what the captured
expressions are. -/
structure PlanRun (V : Type) where
  plan : PlanBuild
  memory : Handle → Expr
  parent : Env V
  params : List Text
  argv : List V

namespace PlanRun

variable (run : PlanRun V)

def literal (i : ℕ) : Handle := run.plan.literals.getD i .nil

/-- The frames of the bindings that the plan has made. -/
def environment (env : Env V) : Env V := env ++ envFrame run.parent run.params run.argv

end PlanRun

/-- The name of a binder. -/
def literalName : Handle → Text
  | .symbol name => name
  | _ => []

/-- `plan_value`. `env` are the bindings the plan has made. -/
def planValue (run : PlanRun V) (node : PlanNode) (env : Env V) : V :=
  let literal := run.literal node.a
  match node.op with
  | .local_ =>
    match env.drop node.a with
    | p :: _ => p.2
    | [] => run.argv.getD node.b (H.datum .nil)
  | .nonlocal =>
    match literal with
    | .symbol name => (envLookup run.parent name).getD (H.datum literal)
    | _ => H.datum literal
  | _ => H.datum literal

/-- `plan_environment`: the frames that a generic evaluation gets. The state is how many are there, that
of the call first and then those of the bindings from the outermost on; they are made once. -/
def planFrames (run : PlanRun V) : Env V → StateT ℕ m (Env V)
  | [] => do
    if (← get) = 0 then
      let frame ← liftM (makeFrame H run.parent run.params run.argv)
      set 1
      pure frame
    else pure (run.environment [])
  | (name, value) :: env => do
    if (← get) < env.length + 2 then
      let parent ← planFrames run env
      let frame ← liftM (makeFrame H parent [name] [value])
      set (env.length + 2)
      pure frame
    else pure (run.environment ((name, value) :: env))

/-- `plan_evaluate`, with `plan_argument` and `plan_application` in it. The first argument bounds the
depth of the calls. -/
def planEvaluate (run : PlanRun V) : ℕ → ℕ → Env V → Bool → StateT ℕ m V
  | 0, _, _, _ => H.null
  | fuel + 1, pc, env, tail =>
    let node := run.plan.nodes pc
    match node.op with
    | .const => pure (planValue H run node env)
    | .local_ => pure (planValue H run node env)
    | .nonlocal => pure (planValue H run node env)
    | .call => do
      let function ← liftM (resolve H (planValue H run (run.plan.nodes node.a) env))
      application H function ((List.range node.n).map fun i tail =>
        planEvaluate run fuel (run.plan.aux (node.b + i)) env tail) tail
    | .callExpr => do
      let function ← planEvaluate run fuel node.a env false
      application H (← liftM (resolve H function)) ((List.range node.n).map fun i tail =>
        planEvaluate run fuel (run.plan.aux (node.b + i)) env tail) tail
    | .if_ => do
      branch H (← planEvaluate run fuel node.a env false) (planEvaluate run fuel node.b env tail)
        (planEvaluate run fuel node.c env tail)
    | .let_ => do
      let value ← planEvaluate run fuel node.b env false
      let result ← planEvaluate run fuel node.c ((literalName (run.literal node.a), value) :: env) tail
      -- The frame of the binding goes with it, if it was made.
      modify (min (env.length + 1))
      pure result
    | .cond =>
      firstTrue H ((List.range node.n).map fun i =>
        (planEvaluate run fuel (run.plan.aux (node.a + 2 * i)) env false,
          planEvaluate run fuel (run.plan.aux (node.a + 2 * i + 1)) env tail))
    | .and => do
      logicRest H true (← planEvaluate run fuel node.a env false) (planEvaluate run fuel node.b env tail)
    | .or => do
      logicRest H false (← planEvaluate run fuel node.a env false)
        (planEvaluate run fuel node.b env tail)
    | .type => planEvaluate run fuel node.a env tail
    | .fallback => do
      let frame ← planFrames H run env
      liftM (evaluate H (run.memory (run.literal node.a)) frame tail)

/-- `rc_eval_plan_environment`: no name that is bound outside begins with a small letter. -/
def planEnvironment (parent : Env V) : Bool := keyClasses parent &&& 2 = 0

/-! ### Calls of closures -/

/-- `prepared_call`, with a plan and its root. -/
def preparedCall (memory : Handle → Expr) (closure : Closure V) (plan : PlanBuild × ℕ)
    (argv : List V) : m V :=
  (planEvaluate H ⟨plan.1, memory, closure.env, closure.params, argv⟩ planDepth plan.2 [] true).run' 0

/-- `dynamic_call`. `heat` is what `rc_eval_plan_heat` says, whether the body has been called often
enough to be prepared. -/
def dynamicCall (memory : Handle → Expr) (heat : Bool) (closure : Closure V) (argv : List V) : m V :=
  if argv.length = closure.params.length then
    match if planEnvironment closure.env && heat then planPrepare closure.params closure.body
      else none with
    | some plan => preparedCall H memory closure plan argv
    | none => do
      H.newFrame argv.length
      evaluate H closure.body (envFrame closure.env closure.params argv) true
  else H.error (ascii "eval-kl: invalid interpreted closure captures")

end ShenRc.Interpret
