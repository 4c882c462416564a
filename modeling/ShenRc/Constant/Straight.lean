import ShenRc.Constant.Machine

/-! # Straight-line code for constant trees

What `expr` and `literal_node` write for the same trees where no table is made: one statement for
each node, over slots that are all different. A module for one expression (`expression_entry`) has its
numbers and strings in a literal vector instead of in the C text. Each statement is followed by the
test that leaves the function when it failed. -/

namespace ShenRc.Constant

open Numeral KL

variable {O W : Type}

/-! ### Statements -/

/-- What an atom is loaded from. -/
inductive Load
  | nil
  | symbol (index : ℕ)
  | string (text : List UInt8) (length : ℕ)
  | integer (k : {k : ℤ // IsInt64 k})
  | real (d : Double)
  | literalString (s : Text)
  | literalNumber (n : Number)

/-- An operand of a call: a slot, or a value that something else keeps alive. -/
inductive Operand
  | slot (t : ℕ)
  | load (e : Load)

inductive Stmt
  /-- `t[slot]=e;` -/
  | load (slot : ℕ) (e : Load)
  /-- `t[slot]=rc_function_get_borrowed(ctx,symbols[index]);` -/
  | functionGetBorrowed (slot index : ℕ)
  /-- `t[slot]=rc_primitive_cons_owned(ctx,t[fn],a,false);` for `cons`, and
  `t[slot]=rc_module_call_%zu(ctx,t[fn],argc,a,mask);` for any other function. -/
  | call (slot fn : ℕ) (f : Text) (args : List Operand)
  /-- `t[slot]=rc_cons(ctx,t[head],t[tail]);` and the release of the two. -/
  | cons (slot head tail : ℕ)

/-- The slots; `none` is `NULL`. -/
abbrev Frame (O : Type) := ℕ → Option (Datum O)

section Exec

variable (H : Host O W) (table : List Text) (defs : Text → List ModuleDef)

/-- The code of a load, if its symbol exists. -/
def Load.code : Load → Option (Run W (Datum O))
  | nil => some (.pure .nil)
  | symbol i => table[i]?.map fun s => .pure (.symbol s)
  | string text length => some (H.rcStringN text length)
  | integer k => some (H.rcInteger k)
  | real d => some (H.rcNumber d)
  | literalString s => some (.pure (.string s))
  | literalNumber n => some (.pure (.number n))

def Operand.code (frame : Frame O) : Operand → Option (Run W (Datum O))
  | slot t => (frame t).map .pure
  | load e => e.code H table

/-- `a[0]=...; a[1]=...;` -/
def operandsCode (frame : Frame O) : List Operand → Option (Run W (List (Datum O)))
  | [] => some (.pure [])
  | op :: ops =>
    match op.code H table frame, operandsCode frame ops with
    | some code, some codes =>
      some (code.andThen fun a => codes.andThen fun args => .pure (a :: args))
    | _, _ => none

/-- A call in compiled code of the constructor named `f`. -/
def compiledCall (f : Text) (fn : Datum O) : List (Datum O) → Run W (Datum O)
  | [a, b] => if f = consName then H.primitiveConsOwned fn a b else H.rcModuleCall (defs f) fn [a, b]
  | args => H.rcModuleCall (defs f) fn args

/-- The right-hand side of a statement, if everything it reads is there. -/
def Stmt.code (frame : Frame O) : Stmt → Option (Run W (Datum O))
  | load _ e => e.code H table
  | functionGetBorrowed _ i => table[i]?.map H.rcFunctionGetBorrowed
  | call _ fn f args =>
    match frame fn, operandsCode H table frame args with
    | some fn, some codes => some (codes.andThen (compiledCall H defs f fn))
    | _, _ => none
  | cons _ head tail =>
    match frame head, frame tail with
    | some a, some b => some (H.rcCons a b)
    | _, _ => none

/-- The slots that a statement moves out of or releases. -/
def Stmt.clears : Stmt → List ℕ
  | load _ _ => []
  | functionGetBorrowed _ _ => []
  | call _ _ _ args => args.filterMap fun
    | .slot t => some t
    | .load _ => none
  | cons _ head tail => [head, tail]

def Stmt.slot : Stmt → ℕ
  | load t _ => t
  | functionGetBorrowed t _ => t
  | call t _ _ _ => t
  | cons t _ _ => t

def Stmt.write (s : Stmt) (frame : Frame O) (v : Datum O) : Frame O := fun t =>
  if t = s.slot then some v else if t ∈ s.clears then none else frame t

/-- Statements one after the other: the frame at the end, or none after a jump to the cleanup. There
is no outcome where a statement reads what is not there. -/
def exec : List Stmt → Frame O → W → Option (Option (Frame O) × W)
  | [], frame, w => some (some frame, w)
  | s :: code, frame, w =>
    match s.code H table defs frame with
    | none => none
    | some run =>
      match run w with
      | (some v, w) => exec code (s.write frame v) w
      | (none, w) => some (none, w)

end Exec

/-! ### What is emitted -/

/-- The slots in use, and the symbols of the module. -/
structure Emit where
  slots : ℕ
  symbols : List Text

/-- The load of an atom in `atom`; `entry` says whether the module is one for an expression. -/
def atomLoad (entry : Bool) (symbols : List Text) : Value → Option (Load × List Text)
  | .nil => some (.nil, symbols)
  | .symbol s => some (.symbol (symbolIndex symbols s).1, (symbolIndex symbols s).2)
  | .string s =>
    some (if entry then .literalString s else .string (Emit.quotedN s) s.length, symbols)
  | .number (.exact k) => some (if entry then .literalNumber (.exact k) else .integer k, symbols)
  | .number (.real d) =>
    some (if entry then .literalNumber (.real d) else .real (writtenReal d), symbols)
  | _ => none

/-- `borrowed_atom`: an operand that needs no slot. -/
def borrowedAtom (entry immediate : Bool) (symbols : List Text) : Value → Option (Load × List Text)
  | .nil => some (.nil, symbols)
  | .symbol s => some (.symbol (symbolIndex symbols s).1, (symbolIndex symbols s).2)
  | .string s => if entry then some (.literalString s, symbols) else none
  | .number (.exact k) =>
    if entry then some (.literalNumber (.exact k), symbols)
    else if immediate && decide (-2 ^ 62 ≤ k.val ∧ k.val < 2 ^ 62) then some (.integer k, symbols)
    else none
  | .number (.real d) => if entry then some (.literalNumber (.real d), symbols) else none
  | _ => none

/-- `atom`. -/
def atom (entry : Bool) (x : Value) (e : Emit) : Option (List Stmt × ℕ × Emit) :=
  (atomLoad entry e.symbols x).map fun r => ([.load e.slots r.1], e.slots, ⟨e.slots + 1, r.2⟩)

mutual

/-- `expr` of a call of a constructor or an atom, not in tail position: the statements, the slot of
the value and what is in use then. -/
def expr (entry immediate : Bool) : Value → Emit → Option (List Stmt × ℕ × Emit)
  | .pair head tail, e =>
    match head with
    | .symbol f =>
      -- `function_head` has the callee in a slot of its own before any operand
      let i := symbolIndex e.symbols f
      (exprOperands entry immediate (f ≠ consName) tail ⟨e.slots + 1, i.2⟩).map fun r =>
        (.functionGetBorrowed e.slots i.1 :: r.1 ++ [.call r.2.2.slots e.slots f r.2.1],
          r.2.2.slots, ⟨r.2.2.slots + 1, r.2.2.symbols⟩)
    | _ => none
  | x, e => atom entry x e

/-- The operands from left to right; `borrow` says whether the call is one that borrows
(`borrow_args`). -/
def exprOperands (entry immediate borrow : Bool) :
    Value → Emit → Option (List Stmt × List Operand × Emit)
  | .pair x rest, e =>
    match if borrow then borrowedAtom entry immediate e.symbols x else none with
    | some a =>
      (exprOperands entry immediate borrow rest ⟨e.slots, a.2⟩).map fun r =>
        (r.1, .load a.1 :: r.2.1, r.2.2)
    | none =>
      (expr entry immediate x e).bind fun a =>
      (exprOperands entry immediate borrow rest a.2.2).map fun r =>
        (a.1 ++ r.1, .slot a.2.1 :: r.2.1, r.2.2)
  | _, e => some ([], [], e)

end

/-- `literal_node`. -/
def literalNode (entry : Bool) : Value → Emit → Option (List Stmt × ℕ × Emit)
  | .pair head tail, e =>
    (literalNode entry head e).bind fun a =>
    (literalNode entry tail a.2.2).map fun b =>
      (a.1 ++ b.1 ++ [.cons b.2.2.slots a.2.1 b.2.1], b.2.2.slots,
        ⟨b.2.2.slots + 1, b.2.2.symbols⟩)
  | x, e => atom entry x e

/-- The straight-line code of a tree, in a function that has no slots yet. -/
def straightLine (entry immediate raw : Bool) (x : Value) (symbols : List Text) :
    Option (List Stmt × ℕ × Emit) :=
  if raw then literalNode entry x ⟨0, symbols⟩ else expr entry immediate x ⟨0, symbols⟩

/-- The value that code leaves in a slot, or none. -/
def runStraight (H : Host O W) (table : List Text) (defs : Text → List ModuleDef)
    (code : List Stmt) (slot : ℕ) (w : W) : Option (Option (Datum O) × W) :=
  (exec H table defs code (fun _ => none) w).map fun r => (r.1.bind (· slot), r.2)

/-! ### What it does -/

/-- A constant in straight-line code. -/
def lineAtom (H : Host O W) (entry : Bool) : Value → Run W (Datum O)
  | .string s => if entry then .pure (.string s) else H.rcStringN (Emit.quotedN s) s.length
  | .number (.exact k) => if entry then .pure (.number (.exact k)) else H.rcInteger k
  | .number (.real d) => if entry then .pure (.number (.real d)) else H.rcNumber (writtenReal d)
  | .symbol s => .pure (.symbol s)
  | _ => .pure .nil

end ShenRc.Constant
