import Mathlib.Data.List.Infix
import ShenRc.Eval.Plan

/-! # Eta templates and ordinary evaluation

The machine evaluates in two ways: `interpret` is the evaluator's, and `eval` is that of the native
compiler, which makes a template closure of an expression that `eta_template` matches; other
expressions it leaves to the evaluator here. All other code is a parameter: a program (`Prog`) of
requests, lookups, definitions and effects on the rest of the state. A program sees a closure as a
handle only.

The runtime calls itself without a bound, so a request has a fuel. Memory does not run out here. -/

namespace ShenRc.Eta

open Numeral Eval

/-! ### Programs -/

/-- A value: data, which may be code, or a closure. -/
inductive Val
  | datum (e : Expr)
  | closure (handle : ℕ)

/-- The frames of an environment, the innermost first. -/
abbrev Env := List (Text × Val)

/-- `rc_env_lookup`. -/
def envLookup (env : Env) (name : Text) : Option Val :=
  (env.find? fun p => p.1 = name).map (·.2)

inductive Request
  | apply (f : Val) (args : List Val)
  | eval (e : Expr)
  | interpret (e : Expr)

/-- A result, or the message of an error. -/
abbrev Outcome := Except Text Val

/-- What code does, step by step; `σ` is the part of the state that the machine does not know. -/
inductive Prog (σ : Type)
  | done (v : Val)
  | fail (message : Text)
  | tail (r : Request)
  | request (r : Request) (k : Outcome → Prog σ)
  | lookup (name : Text) (k : Option ℕ → Prog σ)
  | define (name : Text) (handle : ℕ) (k : Prog σ)
  | native (n : ℕ) (captures : List Val) (k : Val → Prog σ)
  | lambda (param : Text) (body : Expr) (env : Env) (k : Val → Prog σ)
  | observe (k : σ → Prog σ)
  | update (f : σ → σ) (k : Prog σ)

/-- Go on with the result; a tail request becomes a nested one. -/
def Prog.bind {σ : Type} : Prog σ → (Val → Prog σ) → Prog σ
  | done v, k => k v
  | fail message, _ => fail message
  | tail r, k =>
    request r fun o =>
      match o with
      | .ok v => k v
      | .error message => fail message
  | request r k', k => request r fun o => (k' o).bind k
  | lookup name k', k => lookup name fun h => (k' h).bind k
  | define name handle k', k => define name handle (k'.bind k)
  | native n captures k', k => native n captures fun v => (k' v).bind k
  | lambda param body env k', k => lambda param body env fun v => (k' v).bind k
  | observe k', k => observe fun s => (k' s).bind k
  | update f k', k => update f (k'.bind k)

/-- The rest of the program: the native functions with their arities, and the special forms other than
`lambda`. -/
structure Host (σ : Type) where
  arity : ℕ → ℕ
  native : ℕ → List Val → List Val → Prog σ
  special : Form → Expr → Env → Prog σ

variable {σ : Type} (host : Host σ)

/-! ### Ordinary evaluation -/

def undefined (name : Text) : Text := ascii "undefined function " ++ name

/-- `rc_function_get`, and the error if there is none. -/
def functionGet (name : Text) (k : Val → Prog σ) : Prog σ :=
  .lookup name fun h =>
    match h with
    | none => .fail (undefined name)
    | some h => k (.closure h)

/-- A function position may evaluate to a symbol. -/
def resolveSymbol (f : Val) (k : Val → Prog σ) : Prog σ :=
  match f with
  | .datum (.symbol name) => functionGet name k
  | f => k f

/-- The value of a symbol that is bound. -/
def lexicalHead (head : Expr) (env : Env) : Option Val :=
  match head with
  | .symbol name => envLookup env name
  | _ => none

/-- `atomic_value`. -/
def atomicValue (e : Expr) (env : Env) : Val := (lexicalHead e env).getD (.datum e)

/-- The special form `lambda`. -/
def lambdaForm (args : List Expr) (env : Env) : Prog σ :=
  match args with
  | [.symbol param, body] => .lambda param body env .done
  | [_, _] => .fail (ascii "eval-kl: lambda binder must be a symbol")
  | _ =>
    .fail (ascii "eval-kl: lambda expects 2 arguments, received " ++ ascii (toString args.length))

mutual

/-- `evaluate`, with `application` in it: the function is looked up before the arguments are
evaluated. -/
def evaluate : Expr → Env → Prog σ
  | .pair a head args, env =>
    match args.list? with
    | none => .fail (ascii "eval-kl: improper expression list")
    | some xs =>
      match lexicalHead head env, formOf head with
      | some f, _ =>
        resolveSymbol f fun f => evaluateArgs args env fun vs => .tail (.apply f vs)
      | none, .lambda => lambdaForm xs env
      | none, .call =>
        match head with
        | .symbol name =>
          functionGet name fun f => evaluateArgs args env fun vs => .tail (.apply f vs)
        | head =>
          (evaluate head env).bind fun f =>
            resolveSymbol f fun f => evaluateArgs args env fun vs => .tail (.apply f vs)
      | none, form => host.special form (.pair a head args) env
  | e, env => .done (atomicValue e env)

/-- The arguments, from left to right. -/
def evaluateArgs : Expr → Env → (List Val → Prog σ) → Prog σ
  | .pair _ x rest, env, k =>
    (evaluate x env).bind fun v => evaluateArgs rest env fun vs => k (v :: vs)
  | _, _, k => k []

end

/-! ### The template -/

/-- `ETA_LIMIT`. -/
def etaLimit : ℕ := 16

/-- `list_width`. -/
def listWidth (e : Expr) (width : ℕ) : Bool := e.list?.any fun xs => xs.length == width

/-- The names that `eta_template` takes for no function. -/
def etaSpecial : List String :=
  ["if", "cond", "let", "lambda", "freeze", "defun", "trap-error", "type", "quote", "c-quote", "and",
    "or"]

/-- The loop of `eta_template` over the nested lambdas: the parameters and the body. -/
def etaParameters : Expr → List Text → Option (List Text × Expr)
  | .pair a head (.pair b (.symbol param) (.pair c inner rest)), params =>
    if head.named "lambda" then
      if params.length = etaLimit
          || !listWidth (.pair a head (.pair b (.symbol param) (.pair c inner rest))) 3 then none
      else if params.contains param then none
      else etaParameters inner (params ++ [param])
    else some (params, .pair a head (.pair b (.symbol param) (.pair c inner rest)))
  | .pair a head args, params =>
    if head.named "lambda" then none else some (params, .pair a head args)
  | e, params => some (params, e)

/-- `eta_template`: the target and the arity of the closure. -/
def etaTemplate (e : Expr) : Option (Text × ℕ) :=
  match etaParameters e [] with
  | some (params, .pair a (.symbol target) args) =>
    if params.isEmpty || !listWidth (.pair a (.symbol target) args) (params.length + 1) then none
    else if params.contains target then none
    else if etaSpecial.any fun s => (Expr.symbol target).named s then none
    else if args.list?.any fun xs => xs.map Expr.handle == params.map Handle.symbol then
      some (target, params.length)
    else none
  | _ => none

/-! ### The machine -/

/-- The code of a closure with what it captures: `eta_call` with the target, the vector of the bound
arguments and the arity, `dynamic_call` for a lambda, or a function of the host. -/
inductive Code
  | eta (target : Text) (vector arity : ℕ)
  | lambda (param : Text) (body : Expr) (env : Env)
  | native (n : ℕ) (captures : List Val)

/-- The vector of bound arguments. -/
def Code.vector? : Code → Option ℕ
  | eta _ vector _ => some vector
  | _ => none

/-- A closure, with the arguments of a partial application. -/
structure Closure where
  code : Code
  bound : List Val := []

/-- The state. The vectors are those of the template closures, which nothing else can reach. -/
structure World (σ : Type) where
  closures : List Closure
  vectors : List (List Val)
  functions : Text → Option ℕ
  rest : σ
  live : ∀ c ∈ closures, ∀ b ∈ c.code.vector?, b < vectors.length

namespace World

variable (w : World σ)

/-- A new closure; its handle is the number of closures before. -/
def addClosure (c : Closure) (h : ∀ b ∈ c.code.vector?, b < w.vectors.length) : World σ :=
  { w with
    closures := w.closures ++ [c]
    live := by
      intro d hd b hb
      rcases List.mem_append.mp hd with hd | hd
      · exact w.live d hd b hb
      · rw [List.mem_singleton] at hd
        exact h b (hd ▸ hb) }

/-- A new closure with the vector of its bound arguments. -/
def addEta (target : Text) (bound : List Val) (arity : ℕ) : World σ :=
  { w with
    closures := w.closures ++ [⟨.eta target w.vectors.length arity, []⟩]
    vectors := w.vectors ++ [bound]
    live := by
      intro d hd b hb
      rw [List.length_append, List.length_singleton]
      rcases List.mem_append.mp hd with hd | hd
      · exact Nat.lt_succ_of_lt (w.live d hd b hb)
      · rw [List.mem_singleton] at hd
        subst hd
        obtain rfl := Option.some.inj hb
        exact Nat.lt_succ_self _ }

end World

/-- `eta_call`. -/
def etaCall (target : Text) (vector arity : ℕ) (args : List Val) (w : World σ) :
    Prog σ × World σ :=
  let bound := w.vectors.getD vector []
  match args with
  | [arg] =>
    if arity = 0 || etaLimit < arity || arity ≤ bound.length then
      (.fail (ascii "invalid native eta closure"), w)
    else if bound.length + 1 < arity then
      (.done (.closure w.closures.length), w.addEta target (bound ++ [arg]) arity)
    else (functionGet target fun f => .tail (.apply f (bound ++ [arg])), w)
  | _ => (.fail (ascii "invalid native eta closure"), w)

/-- The call of a closure that has all its arguments. -/
def enter (code : Code) (args : List Val) (w : World σ) : Prog σ × World σ :=
  match code with
  | .eta target vector arity => etaCall target vector arity args w
  | .lambda param body env =>
    (evaluate host body ((param, args.headD (.datum .nil)) :: env), w)
  | .native n captures => (host.native n captures args, w)

def codeArity : Code → ℕ
  | .native n _ => host.arity n
  | _ => 1

/-- Run a program; `perform` answers its requests. -/
def exec (perform : Request → World σ → Option (Outcome × World σ)) :
    Prog σ → World σ → Option (Outcome × World σ)
  | .done v, w => some (.ok v, w)
  | .fail message, w => some (.error message, w)
  | .tail r, w => perform r w
  | .request r k, w => (perform r w).bind fun o => exec perform (k o.1) o.2
  | .lookup name k, w => exec perform (k (w.functions name)) w
  | .define name handle k, w =>
    exec perform k { w with functions := Function.update w.functions name (some handle) }
  | .native n captures k, w =>
    exec perform (k (.closure w.closures.length))
      (w.addClosure ⟨.native n captures, []⟩ fun _ h => absurd h (by simp [Code.vector?]))
  | .lambda param body env k, w =>
    exec perform (k (.closure w.closures.length))
      (w.addClosure ⟨.lambda param body env, []⟩ fun _ h => absurd h (by simp [Code.vector?]))
  | .observe k, w => exec perform (k w.rest) w
  | .update f k, w => exec perform k { w with rest := f w.rest }

/-- The closure that is applied. -/
def resolve (f : Val) (w : World σ) : Except Text ℕ :=
  match f with
  | .closure h => .ok h
  | .datum (.symbol name) =>
    match w.functions name with
    | some h => .ok h
    | none => .error (undefined name)
  | .datum _ => .error (ascii "attempt to apply a non-function")

/-- What `apply_request` does with the result of a call: the excess arguments are for it. -/
def applyExcess (perform : Request → World σ → Option (Outcome × World σ)) (excess : List Val)
    (o : Outcome × World σ) : Option (Outcome × World σ) :=
  match o.1 with
  | .error _ => some o
  | .ok v => if excess.isEmpty then some o else perform (.apply v excess) o.2

/-- `apply_request`. -/
def applyRequest (perform : Request → World σ → Option (Outcome × World σ)) (f : Val)
    (args : List Val) (w : World σ) : Option (Outcome × World σ) :=
  match resolve f w with
  | .error message => some (.error message, w)
  | .ok h =>
    match hc : w.closures[h]? with
    | none => some (.error (ascii "attempt to apply a non-function"), w)
    | some c =>
      let needed := codeArity host c.code - c.bound.length
      if args.length < needed then
        some (.ok (.closure w.closures.length),
          w.addClosure { c with bound := c.bound ++ args } (w.live c (List.mem_of_getElem? hc)))
      else
        let entered := enter host c.code (c.bound ++ args.take needed) w
        (exec perform entered.1 entered.2).bind (applyExcess perform (args.drop needed))

/-- Answer a request. -/
def perform : ℕ → Request → World σ → Option (Outcome × World σ)
  | 0, _, _ => none
  | fuel + 1, .apply f args, w => applyRequest host (perform fuel) f args w
  | fuel + 1, .interpret e, w => exec (perform fuel) (evaluate host e []) w
  | fuel + 1, .eval e, w =>
    match etaTemplate e with
    | some (target, arity) =>
      some (.ok (.closure w.closures.length), w.addEta target [] arity)
    | none => exec (perform fuel) (evaluate host e []) w

end ShenRc.Eta
