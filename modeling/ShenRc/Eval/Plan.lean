import ShenRc.Numeral.Decimal

/-! # Evaluation plans

`plan_compile` prepares the body of an interpreted closure: it lays the body out in three tables of
`PLAN_LIMIT` entries, the nodes, the argument slots (`aux`) and the literals. Here the tables are
functions with a count of the entries in use. A write at an index that a table does not have is
recorded in `fault`, and a subtraction for the remaining capacity that wraps in `wrapped`. -/

namespace ShenRc.Eval

open Numeral

/-! ### Expressions -/

/-- A KL expression with the addresses that pointer comparison sees. Symbols are interned. -/
inductive Expr
  | nil
  | symbol (name : Text)
  | atom (address : ℕ)
  | pair (address : ℕ) (head tail : Expr)

/-- What a pointer comparison compares. -/
inductive Handle
  | nil
  | symbol (name : Text)
  | cell (address : ℕ)
  deriving DecidableEq

namespace Expr

def handle : Expr → Handle
  | nil => .nil
  | symbol name => .symbol name
  | atom address => .cell address
  | pair address _ _ => .cell address

/-- The elements, if `rc_list_length_cached` finds a proper list. -/
def list? : Expr → Option (List Expr)
  | nil => some []
  | pair _ head tail => tail.list?.map (head :: ·)
  | _ => none

def isSymbol : Expr → Bool
  | symbol _ => true
  | _ => false

/-- A symbol with this name, compared as a C string. -/
def named (e : Expr) (s : String) : Bool :=
  match e with
  | symbol name => name.takeWhile (· ≠ 0) == ascii s
  | _ => false

end Expr

/-- The forms of the evaluator. -/
inductive Form
  | if_ | let_ | lambda | cond | quote | and | or | freeze | defun | trap | type | call
  deriving DecidableEq

/-- `form_of`. The text is compared as a C string. -/
def formOf : Expr → Form
  | .symbol name =>
    let s := name.takeWhile (· ≠ 0)
    if s = ascii "if" then .if_
    else if s = ascii "let" then .let_
    else if s = ascii "lambda" then .lambda
    else if s = ascii "cond" then .cond
    else if s = ascii "c-quote" ∨ s = ascii "quote" then .quote
    else if s = ascii "and" then .and
    else if s = ascii "or" then .or
    else if s = ascii "freeze" then .freeze
    else if s = ascii "defun" then .defun
    else if s = ascii "trap-error" then .trap
    else if s = ascii "type" then .type
    else .call
  | _ => .call

/-! ### The tables -/

/-- `PLAN_LIMIT` and `PLAN_DEPTH`. -/
def planLimit : ℕ := 4096
def planDepth : ℕ := 128

/-- `PlanOp`. -/
inductive PlanOp
  | const | local_ | nonlocal | call | callExpr | if_ | let_ | cond | and | or | type | fallback
  deriving DecidableEq

/-- What is stored in a field of type `uint16_t`. -/
def u16 (n : ℕ) : ℕ := n % 2 ^ 16

/-- `PlanNode`. -/
structure PlanNode where
  op : PlanOp
  a : ℕ := 0
  b : ℕ := 0
  c : ℕ := 0
  n : ℕ := 0

/-- How much of the tables is in use. -/
structure Usage where
  nn : ℕ := 0
  na : ℕ := 0
  literals : List Handle := []
  failed : Bool := false

namespace Usage

variable (u : Usage)

def fail : Usage := { u with failed := true }

/-- `plan_literal`. -/
def literal (v : Handle) : Usage × ℕ :=
  if v ∈ u.literals then (u, u.literals.idxOf v)
  else if u.literals.length = planLimit then (u.fail, 0)
  else ({ u with literals := u.literals ++ [v] }, u.literals.length)

end Usage

/-- `PlanBuild`. -/
structure PlanBuild extends Usage where
  nodes : ℕ → PlanNode := fun _ => { op := .const }
  aux : ℕ → ℕ := fun _ => 0
  fault : Bool := false
  wrapped : Bool := false

namespace PlanBuild

variable (b : PlanBuild)

def fail : PlanBuild := { b with failed := true }

/-- `b->nodes[i] = node`. -/
def setNode (i : ℕ) (node : PlanNode) : PlanBuild :=
  { b with
    nodes := Function.update b.nodes i node
    fault := b.fault || planLimit ≤ i }

/-- `b->aux[i] = v`. -/
def setAux (i v : ℕ) : PlanBuild :=
  { b with
    aux := Function.update b.aux i (u16 v)
    fault := b.fault || planLimit ≤ i }

/-- A new node. -/
def newNode : PlanBuild := { b with nn := b.nn + 1 }.setNode b.nn { op := .const }

/-- `plan_literal`, which writes at the index `nl` unless the literal is known or `nl` is
`PLAN_LIMIT`. -/
def literal (v : Handle) : PlanBuild × ℕ :=
  ({ b with
      toUsage := (b.toUsage.literal v).1
      fault := b.fault || (v ∉ b.literals && planLimit < b.literals.length) },
    (b.toUsage.literal v).2)

/-- `PLAN_LIMIT - b->na`, in `size_t`. -/
def room : ℕ := (planLimit + 2 ^ 64 - b.na) % 2 ^ 64

def checkRoom : PlanBuild := { b with wrapped := b.wrapped || planLimit < b.na }

/-- `b->na += n`. -/
def reserve (n : ℕ) : PlanBuild := { b with na := b.na + n }

end PlanBuild

/-! ### Preparation -/

/-- The lexical binders around an expression, the innermost first, each with its depth. -/
abbrev Scope := List (Text × ℕ)

/-- `plan_local`: the number of frames to go up and the slot. -/
def planLocal (params : List Text) (name : Text) (scope : Scope) (depth : ℕ) : Option (ℕ × ℕ) :=
  match scope.find? fun p => p.1 = name with
  | some p => some (u16 (depth - p.2), 0)
  | none =>
    if name ∈ params then some (u16 depth, u16 (params.idxOf name)) else none

/-- What `plan_compile` takes an expression for. -/
inductive Shape
  | literal
  | local_ (up slot : ℕ)
  | nonlocal
  | if_ (x y z : Expr)
  | let_ (name : Text) (value body : Expr)
  | cond (count : ℕ) (clauses : Option (List Expr))
  | logic (op : PlanOp) (x y : Expr)
  | type (x : Expr)
  | quote (x : Expr)
  | call (head : Expr) (args : List Expr)
  | fallback

/-- The tests and the bodies of the clauses of a `cond`, if each clause has both. -/
def clauses? : List Expr → Option (List Expr)
  | [] => some []
  | clause :: rest =>
    match clause.list? with
    | some [test, body] => (clauses? rest).map fun xs => test :: body :: xs
    | _ => none

/-- The form of an application: a lexical head is no special form. -/
def headForm (params : List Text) (scope : Scope) (depth : ℕ) : Expr → Form
  | .symbol name =>
    if (planLocal params name scope depth).isSome then .call else formOf (.symbol name)
  | head => formOf head

/-- The tests of `plan_compile` that do not look at the tables. -/
def shape (params : List Text) (scope : Scope) (depth : ℕ) : Expr → Shape
  | .symbol name =>
    match planLocal params name scope depth with
    | some (up, slot) => .local_ up slot
    | none => .nonlocal
  | .pair _ head tail =>
    match tail.list? with
    | none => .fallback
    | some args =>
      if planLimit < args.length then .fallback
      else
        match headForm params scope depth head, args with
        | .if_, [x, y, z] => .if_ x y z
        | .let_, [.symbol name, value, body] => .let_ name value body
        | .cond, args => .cond args.length (clauses? args)
        | .and, [x, y] => .logic .and x y
        | .or, [x, y] => .logic .or x y
        | .type, [x, _] => .type x
        | .quote, [x] => .quote x
        | .call, args => .call head args
        | _, _ => .fallback
  | _ => .literal

/-- Compile expressions into consecutive slots from `i` on. -/
def planArgs (compile : PlanBuild → Expr → PlanBuild × ℕ) :
    PlanBuild → ℕ → List Expr → PlanBuild
  | b, _, [] => b
  | b, i, x :: xs =>
    let r := compile b x
    planArgs compile (r.1.setAux i r.2) (i + 1) xs

/-- The label `fallback` of `plan_compile`. -/
def planFallback (b : PlanBuild) (id : ℕ) (e : Expr) : PlanBuild × ℕ :=
  let r := b.literal e.handle
  (r.1.setNode id { op := .fallback, a := u16 r.2 }, id)

/-- `plan_compile`. The first argument is what is left of `PLAN_DEPTH`. -/
def planCompile (params : List Text) : ℕ → PlanBuild → Expr → Scope → ℕ → PlanBuild × ℕ
  | 0, b, _, _, _ => (b.fail, 0)
  | fuel + 1, b, e, scope, depth =>
    if b.failed = true ∨ b.nn = planLimit then (b.fail, 0)
    else
      let id := b.nn
      let b := b.newNode
      match shape params scope depth e with
      | .literal =>
        let r := b.literal e.handle
        (r.1.setNode id { op := .const, a := u16 r.2 }, id)
      | .local_ up slot => (b.setNode id { op := .local_, a := up, b := slot }, id)
      | .nonlocal =>
        let r := b.literal e.handle
        (r.1.setNode id { op := .nonlocal, a := u16 r.2 }, id)
      | .if_ x y z =>
        let r := planCompile params fuel b x scope depth
        let s := planCompile params fuel r.1 y scope depth
        let t := planCompile params fuel s.1 z scope depth
        (t.1.setNode id { op := .if_, a := u16 r.2, b := u16 s.2, c := u16 t.2 }, id)
      | .let_ name value body =>
        let l := b.literal (.symbol name)
        let r := planCompile params fuel l.1 value scope depth
        let s := planCompile params fuel r.1 body ((name, depth + 1) :: scope) (depth + 1)
        (s.1.setNode id { op := .let_, a := u16 l.2, b := u16 r.2, c := u16 s.2 }, id)
      | .cond count clauses =>
        let b := b.checkRoom
        if b.room / 2 < count then planFallback b id e
        else
          match clauses with
          | none => planFallback b id e
          | some xs =>
            let base := u16 b.na
            let b := (b.setNode id { op := .cond, a := base, n := u16 count }).reserve (2 * count)
            (planArgs (fun b x => planCompile params fuel b x scope depth) b base xs, id)
      | .logic op x y =>
        let r := planCompile params fuel b x scope depth
        let s := planCompile params fuel r.1 y scope depth
        (s.1.setNode id { op := op, a := u16 r.2, b := u16 s.2 }, id)
      | .type x =>
        let r := planCompile params fuel b x scope depth
        (r.1.setNode id { op := .type, a := u16 r.2 }, id)
      | .quote x =>
        let r := b.literal x.handle
        (r.1.setNode id { op := .const, a := u16 r.2 }, id)
      | .call head args =>
        let b := b.checkRoom
        if b.room < args.length then planFallback b id e
        else
          let h := planCompile params fuel b head scope depth
          let base := u16 h.1.na
          let op := if head.isSymbol then .call else .callExpr
          let b := (h.1.setNode id
            { op := op, a := u16 h.2, b := base, n := u16 args.length }).reserve args.length
          (planArgs (fun b x => planCompile params fuel b x scope depth) b base args, id)
      | .fallback => planFallback b id e

/-- `plan_prepare`, where a new plan is made: the plan and its root, or no plan. -/
def planPrepare (params : List Text) : Expr → Option (PlanBuild × ℕ)
  | .pair address head tail =>
    if planLimit < params.length then none
    else if formOf head ∈ [.lambda, .freeze, .defun, .trap] then none
    else
      let r := planCompile params planDepth {} (.pair address head tail) [] 0
      if r.1.failed = true ∨ (r.1.nodes r.2).op = .fallback then none else some r
  | _ => none

end ShenRc.Eval
