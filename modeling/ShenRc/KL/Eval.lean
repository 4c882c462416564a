import ShenRc.KL.Value

/-! # Evaluation of KL

The part of KL that has no state of its own: the special forms but `defun`, functions over the bindings
of a context, and the primitives that the kernel's hash uses. Bindings and globals are read, never written. A
result `none` is a run that is out of fuel or leaves this part, such as a `defun`, a partial
application, the sum of two doubles or the identity of two closures.

`Evaluates` and `Applies` say that a result comes with all fuel from some bound on. Their lemmas are
the rules of evaluation, one for each form, so that nothing after this module mentions fuel. -/

namespace ShenRc.KL

open Numeral

/-! ### Values at run time -/

/-- The primitives of the kernel's hash and of the printing of lists. -/
inductive Op where
  | pos | tlstr | cn | str | string | strn | error | cons | hd | tl | consp | eq | vectorp
  | add | sub | mul | gt | number | value
  deriving DecidableEq

inductive Datum where
  | nil
  | number (n : Number)
  | string (s : Text)
  | symbol (s : Text)
  | pair (head tail : Datum)
  | closure (params : List Text) (body : Value) (env : List (Text × Datum))
  | other (type : OtherType) (address : ℕ)

abbrev Env := List (Text × Datum)

/-- What a closure does that is not made by `lambda` or `freeze`. -/
inductive Function where
  | primitive (op : Op)
  | definition (params : List Text) (body : Value)
  | numericHashkey (target : ℕ) (captures : List ℕ)
  | foreign

/-- The closures of a context by address, the function bindings, the global variables, and `printf`'s
`%.15g`. -/
structure Context where
  code : ℕ → Function
  slot : Text → Option ℕ
  global : Text → Option Datum
  formatG15 : Double → Text

/-- The outcome of a run, if it has one in this model: a value or the text of an error. -/
abbrev Result := Option (Except Text Datum)

def fail (message : String) : Result := some (.error (ascii message))

def Result.andThen (r : Result) (k : Datum → Result) : Result :=
  match r with
  | some (.ok v) => k v
  | some (.error e) => some (.error e)
  | none => none

namespace Datum

def sym (s : String) : Datum := .symbol (ascii s)

def truth (b : Bool) : Datum := if b then sym "true" else sym "false"

/-- `rc_is_boolean`, and which of the two it is. -/
def boolean? (v : Datum) : Option Bool :=
  match v with
  | .symbol s => if s = ascii "true" then some true else if s = ascii "false" then some false else none
  | _ => none

def int (k : Int) (h : IsInt64 k) : Datum := .number (.exact ⟨k, h⟩)

/-- `rc_equal`, but not of two closures or two vectors. -/
def equal : Datum → Datum → Option Bool
  | .nil, .nil => some true
  | .number m, .number n => some (m.equal n)
  | .string s, .string t => some (s == t)
  | .symbol s, .symbol t => some (s == t)
  | .pair a b, .pair c d =>
    match equal a c with
    | some true => equal b d
    | r => r
  | .closure _ _ _, .closure _ _ _ => none
  | .other .vector a, .other .vector b => if a = b then some true else none
  | .other s a, .other t b => some (s == t && a == b)
  | _, _ => some false

/-- A form as a value. -/
def ofValue : Value → Datum
  | .nil => .nil
  | .number n => .number n
  | .string s => .string s
  | .symbol s => .symbol s
  | .pair h t => .pair (ofValue h) (ofValue t)
  | .other type address => .other type address

def ofList : List Datum → Datum
  | [] => .nil
  | v :: vs => .pair v (ofList vs)

end Datum

/-! ### Primitives -/

/-- The text of a number: a finite double has a point or an exponent in it. -/
def numberText (formatG15 : Double → Text) : Number → Text
  | .exact k => decimalInt k.val
  | .real d =>
    let t := formatG15 d
    if !t.contains 46 && !t.contains 101 && d.isFinite then t ++ ascii ".0" else t

/-- `atom_string`, but not of a closure or a stream, whose text holds an address. -/
def atomString (ctx : Context) : Datum → Result
  | .symbol s => some (.ok (.string s))
  | .string s => some (.ok (.string (34 :: s ++ [34])))
  | .number n => some (.ok (.string (numberText ctx.formatG15 n)))
  | .closure _ _ _ => none
  | .other .closure _ => none
  | .other .stream _ => none
  | _ => fail "Parameter is not an atom, closure, or stream"

/-- An integer result of `numeric`. -/
def checked (k : Int) : Result :=
  if h : IsInt64 k then some (.ok (.int k h)) else fail "Integer overflow"

/-- `numeric`, but not on doubles. -/
def numeric (op : Int → Int → Result) : Datum → Datum → Result
  | .number (.exact i), .number (.exact j) => op i.val j.val
  | .number _, .number _ => none
  | _, _ => fail "Arithmetic requires numbers"

/-- `rc_head`, `rc_tail`. -/
def projection (f : Datum → Datum → Datum) (name : String) : Datum → Result
  | .pair h t => some (.ok (f h t))
  | _ => fail (name ++ " expects a nonempty list")

/-- What `%s` prints of a string. -/
def untilNul (s : Text) : Text := s.takeWhile (· ≠ 0)

/-- A primitive on as many arguments as it takes. -/
def primitive (ctx : Context) : Op → List Datum → Result
  | .pos, [.string s, .number (.exact i)] =>
    if h : 0 ≤ i.val ∧ i.val.toNat < s.length then some (.ok (.string [s[i.val.toNat]]))
    else fail "String position out of range"
  | .pos, [_, _] => fail "String position out of range"
  | .tlstr, [.string (_ :: s)] => some (.ok (.string s))
  | .tlstr, [_] => fail "tlstr requires nonempty string"
  | .cn, [.string s, .string t] => some (.ok (.string (s ++ t)))
  | .cn, [_, _] => fail "cn requires strings"
  | .str, [v] => atomString ctx v
  | .string, [.string _] => some (.ok (.truth true))
  | .string, [_] => some (.ok (.truth false))
  | .strn, [.string (c :: _)] => checked c.toNat
  | .strn, [_] => fail "string->n requires nonempty string"
  | .error, [.string s] => some (.error (untilNul s))
  | .error, [_] => fail "simple-error requires string"
  | .cons, [a, b] => some (.ok (.pair a b))
  | .hd, [a] => projection (fun h _ => h) "hd" a
  | .tl, [a] => projection (fun _ t => t) "tl" a
  | .consp, [.pair _ _] => some (.ok (.truth true))
  | .consp, [_] => some (.ok (.truth false))
  | .eq, [a, b] => (a.equal b).map fun e => .ok (.truth e)
  | .vectorp, [.other .vector _] => some (.ok (.truth true))
  | .vectorp, [_] => some (.ok (.truth false))
  | .add, [a, b] => numeric (fun i j => checked (i + j)) a b
  | .sub, [a, b] => numeric (fun i j => checked (i - j)) a b
  | .mul, [a, b] => numeric (fun i j => checked (i * j)) a b
  | .gt, [a, b] => numeric (fun i j => some (.ok (.truth (j < i)))) a b
  | .number, [.number _] => some (.ok (.truth true))
  | .number, [_] => some (.ok (.truth false))
  | .value, [.symbol s] =>
    match ctx.global s with
    | some v => some (.ok v)
    | none => some (.error (ascii "variable " ++ s ++ ascii " has no value"))
  | .value, [_] => fail "value expects a symbol"
  | _, _ => none

/-! ### Forms -/

/-- The special forms. -/
inductive Form where
  | call | ifForm | letForm | condForm | andForm | orForm | lambdaForm | freezeForm | defunForm
  | trapForm | typeForm | quoteForm
  deriving DecidableEq

def formOf (head : Value) : Form :=
  if head = .sym "if" then .ifForm
  else if head = .sym "let" then .letForm
  else if head = .sym "lambda" then .lambdaForm
  else if head = .sym "cond" then .condForm
  else if head = .sym "and" then .andForm
  else if head = .sym "or" then .orForm
  else if head = .sym "freeze" then .freezeForm
  else if head = .sym "defun" then .defunForm
  else if head = .sym "trap-error" then .trapForm
  else if head = .sym "type" then .typeForm
  else if head = .sym "quote" ∨ head = .sym "c-quote" then .quoteForm
  else .call

/-- The items of a proper list. -/
def items : Value → Option (List Value)
  | .nil => some []
  | .pair v vs => (items vs).map (v :: ·)
  | _ => none

def lookup (env : Env) (s : Text) : Option Datum := (env.find? fun b => b.1 == s).map Prod.snd

/-- The variable that the head of a list is, if it is one. -/
def lexicalHead (env : Env) : Value → Option Datum
  | .symbol s => lookup env s
  | _ => none

def atomicValue (env : Env) : Value → Datum
  | .symbol s => (lookup env s).getD (.symbol s)
  | v => .ofValue v

/-- `rc_function_get`. -/
def functionGet (ctx : Context) (s : Text) : Result :=
  match ctx.slot s with
  | some a => some (.ok (.other .closure a))
  | none => some (.error (ascii "undefined function " ++ s))

/-- A value in function position: a symbol stands for its function. -/
def resolveFunction (ctx : Context) : Datum → Result
  | .symbol s => functionGet ctx s
  | f => some (.ok f)

def numericNames : List Text :=
  [ascii "number?", ascii "explode", ascii "shen.app", ascii "str", ascii "map", ascii "string->n",
    ascii "shen.prodbutzero"]

/-- The first captured function is the primitive `number?`. -/
def builtinNumber (ctx : Context) : List ℕ → Bool
  | a :: _ =>
    match ctx.code a with
    | .primitive op => op == .number
    | _ => false
  | [] => false

/-- The key that `numeric_hashkey_wrapper` hands on: an integer in place of a double of its value, as
long as the functions are bound as they were. -/
def numericKey (ctx : Context) (captures : List ℕ) : Datum → Datum
  | .number (.real d) =>
    if numericNames.map ctx.slot == captures.map some && builtinNumber ctx captures then
      .number (Number.real d).canonical
    else .number (.real d)
  | v => v

def countError (form : String) (expected received : ℕ) : Result :=
  some (.error (ascii ("eval-kl: " ++ form ++ " expects ") ++ (decimal expected ++
    (ascii " arguments, received " ++ decimal received))))

/-- A `cond` clause: a test and a result. -/
def clause (v : Value) : Except Text (Value × Value) :=
  match items v with
  | some [test, result] => .ok (test, result)
  | some xs =>
    .error (ascii "eval-kl: cond clause expects 2 arguments, received " ++ decimal xs.length)
  | none => .error (ascii "eval-kl: improper expression list")

mutual

def eval (ctx : Context) : ℕ → Env → Value → Result
  | 0, _, _ => none
  | fuel + 1, env, .pair head args =>
    match items args with
    | none => fail "eval-kl: improper expression list"
    | some xs =>
      match lexicalHead env head with
      | some f => (resolveFunction ctx f).andThen fun f => applyEvaluated ctx fuel env f xs []
      | none =>
        match formOf head, xs with
        | .ifForm, [test, yes, no] =>
          (eval ctx fuel env test).andThen fun v =>
            match v.boolean? with
            | some b => eval ctx fuel env (if b then yes else no)
            | none => fail "eval-kl: if test must be boolean"
        | .ifForm, xs => countError "if" 3 xs.length
        | .letForm, [.symbol x, v, body] =>
          (eval ctx fuel env v).andThen fun v => eval ctx fuel ((x, v) :: env) body
        | .letForm, [_, _, _] => fail "eval-kl: let binder must be a symbol"
        | .letForm, xs => countError "let" 3 xs.length
        | .condForm, clauses => evalCond ctx fuel env clauses
        | .andForm, [a, b] =>
          (eval ctx fuel env a).andThen fun v =>
            match v.boolean? with
            | some true => evalBoolean ctx fuel env b
            | some false => some (.ok v)
            | none => fail "eval-kl: boolean arguments required"
        | .andForm, xs => countError "and" 2 xs.length
        | .orForm, [a, b] =>
          (eval ctx fuel env a).andThen fun v =>
            match v.boolean? with
            | some true => some (.ok v)
            | some false => evalBoolean ctx fuel env b
            | none => fail "eval-kl: boolean arguments required"
        | .orForm, xs => countError "or" 2 xs.length
        | .lambdaForm, [.symbol x, body] => some (.ok (.closure [x] body env))
        | .lambdaForm, [_, _] => fail "eval-kl: lambda binder must be a symbol"
        | .lambdaForm, xs => countError "lambda" 2 xs.length
        | .freezeForm, [body] => some (.ok (.closure [] body env))
        | .freezeForm, xs => countError "freeze" 1 xs.length
        | .trapForm, [body, handler] =>
          match eval ctx fuel env body with
          | some (.error e) =>
            (eval ctx fuel env handler).andThen fun f => apply ctx fuel f [.string e]
          | r => r
        | .trapForm, xs => countError "trap-error" 2 xs.length
        | .typeForm, [v, _] => eval ctx fuel env v
        | .typeForm, xs => countError "type" 2 xs.length
        | .quoteForm, [v] => some (.ok (.ofValue v))
        | .quoteForm, _ => none
        | .defunForm, _ => none
        | .call, xs =>
          match head with
          | .symbol s => (functionGet ctx s).andThen fun f => applyEvaluated ctx fuel env f xs []
          | head =>
            ((eval ctx fuel env head).andThen (resolveFunction ctx)).andThen fun f =>
              applyEvaluated ctx fuel env f xs []
  | _ + 1, env, v => some (.ok (atomicValue env v))

def evalBoolean (ctx : Context) : ℕ → Env → Value → Result
  | 0, _, _ => none
  | fuel + 1, env, e =>
    (eval ctx fuel env e).andThen fun v =>
      if v.boolean?.isSome then some (.ok v) else fail "boolean expected"

def evalCond (ctx : Context) : ℕ → Env → List Value → Result
  | 0, _, _ => none
  | _ + 1, _, [] => fail "eval-kl: no true cond case"
  | fuel + 1, env, c :: clauses =>
    match clause c with
    | .error e => some (.error e)
    | .ok (test, result) =>
      (eval ctx fuel env test).andThen fun v =>
        match v.boolean? with
        | some true => eval ctx fuel env result
        | some false => evalCond ctx fuel env clauses
        | none => fail "eval-kl: cond test must be boolean"

/-- The call of a function once its operands are evaluated; `values` holds those of the operands
before, the last first. -/
def applyEvaluated (ctx : Context) : ℕ → Env → Datum → List Value → List Datum → Result
  | 0, _, _, _, _ => none
  | fuel + 1, _, f, [], values => apply ctx fuel f values.reverse
  | fuel + 1, env, f, e :: es, values =>
    (eval ctx fuel env e).andThen fun v => applyEvaluated ctx fuel env f es (v :: values)

/-- `rc_apply`. -/
def apply (ctx : Context) : ℕ → Datum → List Datum → Result
  | 0, _, _ => none
  | fuel + 1, .closure params body env, values =>
    if params.length = values.length then eval ctx fuel (params.zip values ++ env) body else none
  | fuel + 1, .other .closure a, values =>
    match ctx.code a with
    | .primitive op => primitive ctx op values
    | .definition params body =>
      if params.length = values.length then eval ctx fuel (params.zip values) body else none
    | .numericHashkey target captures =>
      match values with
      | [key] => apply ctx fuel (.other .closure target) [numericKey ctx captures key]
      | _ => none
    | .foreign => none
  | _ + 1, _, _ => fail "attempt to apply a non-function"

end

end ShenRc.KL
