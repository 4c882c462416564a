import ShenRc.Constant.Host

/-! # Constant tables

`constant_nodes` says which trees become a table, and `const_node` writes the table: a word for each
node, in the order in which straight-line code would run, with the strings and numbers in pools beside
it. The emitter counts how the words move the stack pointer (`sp`) and how far it gets (`depth`). -/

namespace ShenRc.Constant

open Numeral KL

def consName : Text := ascii "cons"
def protectName : Text := ascii "protect"

/-- The number of operands of the constructors. -/
def constructorArity (f : Text) : ℕ := if f = consName then 2 else if f = protectName then 1 else 0

/-! ### Which trees are accepted -/

mutual

/-- `constant_nodes`: the number of nodes, for a tree that is eligible. `bound` are the lexical names. -/
def constantNodes (bound : Text → Bool) (raw : Bool) : Value → Option ℕ
  | .nil => some 1
  | .number _ => some 1
  | .string _ => some 1
  | .symbol s => if raw || !bound s then some 1 else none
  | .other _ _ => none
  | .pair head tail =>
    if raw then
      match constantNodes bound raw head, constantNodes bound raw tail with
      | some h, some t => some (1 + h + t)
      | _, _ => none
    else
      match head with
      | .symbol f =>
        if constructorArity f = 0 ∨ bound f then none
        else (constantOperands bound raw tail (constructorArity f)).map (1 + ·)
      | _ => none

/-- The loop over `argc` operands, after which the list has to end. -/
def constantOperands (bound : Text → Bool) (raw : Bool) : Value → ℕ → Option ℕ
  | .nil, 0 => some 0
  | .pair x rest, argc + 1 =>
    match constantNodes bound raw x, constantOperands bound raw rest argc with
    | some k, some n => some (k + n)
    | _, _ => none
  | _, _ => none

end

/-! ### The table -/

/-- The operations of the table. -/
inductive ConstOp
  | nil | symbol | string | integer | real | function | cons | call1 | pair
  deriving DecidableEq, Repr

namespace ConstOp

def code : ConstOp → ℕ
  | nil => 0
  | symbol => 1
  | string => 2
  | integer => 3
  | real => 4
  | function => 5
  | cons => 6
  | call1 => 7
  | pair => 8

def ofCode : ℕ → Option ConstOp
  | 0 => some nil
  | 1 => some symbol
  | 2 => some string
  | 3 => some integer
  | 4 => some real
  | 5 => some function
  | 6 => some cons
  | 7 => some call1
  | 8 => some pair
  | _ => none

theorem code_lt (op : ConstOp) : op.code < 16 := by cases op <;> decide

@[simp] theorem ofCode_code (op : ConstOp) : ofCode op.code = some op := by cases op <;> rfl

end ConstOp

/-- `(uint32_t)(op|(uint32_t)operand<<4)`. -/
def constCode (op : ConstOp) (operand : ℕ) : UInt32 :=
  UInt32.ofNat op.code ||| UInt32.ofNat operand <<< 4

def codeOp (w : UInt32) : Option ConstOp := ConstOp.ofCode (w &&& 15).toNat
def codeOperand (w : UInt32) : ℕ := (w >>> 4).toNat

/-- The largest operand, `UINT32_MAX>>4`. -/
def maxOperand : ℕ := 2 ^ 28 - 1

theorem constCode_toNat {op : ConstOp} {operand : ℕ} (h : operand ≤ maxOperand) :
    (constCode op operand).toNat = operand * 16 + op.code := by
  have hop := op.code_lt
  unfold maxOperand at h
  have hor := Nat.shiftLeft_add_eq_or_of_lt (b := op.code) (i := 4) (by simpa using hop) operand
  rw [Nat.shiftLeft_eq] at hor
  have hshift : (UInt32.ofNat operand <<< 4).toNat = operand * 16 := by
    rw [UInt32.toNat_shiftLeft, UInt32.toNat_ofNat_of_lt' (by simp [UInt32.size]; omega)]
    simp [Nat.shiftLeft_eq]
    omega
  rw [constCode, UInt32.toNat_or, hshift,
    UInt32.toNat_ofNat_of_lt' (by simp [UInt32.size]; omega), Nat.or_comm]
  exact hor.symm

/-- **The operation and the operand of a word are what was packed into it.** -/
theorem codeOp_constCode {op : ConstOp} {operand : ℕ} (h : operand ≤ maxOperand) :
    codeOp (constCode op operand) = some op := by
  have hop := op.code_lt
  have hcode : (constCode op operand &&& 15).toNat = op.code := by
    rw [UInt32.toNat_and, constCode_toNat h]
    change (operand * 16 + op.code) &&& (2 ^ 4 - 1) = _
    rw [Nat.and_two_pow_sub_one_eq_mod]
    omega
  rw [codeOp, hcode, ConstOp.ofCode_code]

theorem codeOperand_constCode {op : ConstOp} {operand : ℕ} (h : operand ≤ maxOperand) :
    codeOperand (constCode op operand) = operand := by
  have hop := op.code_lt
  rw [codeOperand, UInt32.toNat_shiftRight, constCode_toNat h]
  simp [Nat.shiftRight_eq_div_pow]
  omega

/-- `ConstTable`; the number of words or of entries of a pool is its length. -/
structure ConstTable where
  code : List UInt32 := []
  /-- The text of a literal, and the length of the string. -/
  strings : List (List UInt8 × ℕ) := []
  integers : List {k : ℤ // IsInt64 k} := []
  reals : List Double := []
  sp : ℕ := 0
  depth : ℕ := 0
  symbols : Bool := false

/-- `const_word`, or nothing where the operand does not fit. -/
def constWord (c : ConstTable) (op : ConstOp) (operand : ℕ) (effect : ℤ) : Option ConstTable :=
  if maxOperand < operand then none
  else
    some { c with
      code := c.code ++ [constCode op operand]
      sp := (c.sp + effect).toNat
      depth := max c.depth (c.sp + effect).toNat }

/-- `symbol_index`, with the module's symbols after it. -/
def symbolIndex (symbols : List Text) (s : Text) : ℕ × List Text :=
  match symbols.findIdx? (· == s) with
  | some i => (i, symbols)
  | none => (symbols.length, symbols ++ [s])

/-- `const_symbol`. -/
def constSymbol (symbols : List Text) (c : ConstTable) (op : ConstOp) (s : Text) :
    Option (List Text × ConstTable) :=
  (constWord { c with symbols := true } op (symbolIndex symbols s).1 1).map
    ((symbolIndex symbols s).2, ·)

/-- A double as it is written: `NAN` has no sign, `INFINITY` and `%a` are exact. -/
def writtenReal : Double → Double
  | .nan _ => .nan false
  | d => d

mutual

/-- `const_node`. -/
def constNode (raw : Bool) : Value → List Text → ConstTable → Option (List Text × ConstTable)
  | .nil, p, c => (constWord c .nil 0 1).map (p, ·)
  | .number (.exact k), p, c =>
    (constWord { c with integers := c.integers ++ [k] } .integer c.integers.length 1).map (p, ·)
  | .number (.real d), p, c =>
    (constWord { c with reals := c.reals ++ [writtenReal d] } .real c.reals.length 1).map (p, ·)
  | .string s, p, c =>
    (constWord { c with strings := c.strings ++ [(Emit.quotedN s, s.length)] } .string
      c.strings.length 1).map (p, ·)
  | .symbol s, p, c => constSymbol p c .symbol s
  | .other _ _, _, _ => none
  | .pair head tail, p, c =>
    if raw then
      (constNode raw head p c).bind fun r =>
      (constNode raw tail r.1 r.2).bind fun r =>
      (constWord r.2 .pair 0 (-1)).map (r.1, ·)
    else
      match head with
      | .symbol f =>
        (constSymbol p c .function f).bind fun r =>
        (constOperands raw tail r.1 r.2).bind fun r =>
        (if f = consName then constWord r.2 .cons 0 (-2) else constWord r.2 .call1 0 (-1)).map
          (r.1, ·)
      | _ => none

/-- The nodes of the operands, from left to right. -/
def constOperands (raw : Bool) : Value → List Text → ConstTable → Option (List Text × ConstTable)
  | .pair x rest, p, c => (constNode raw x p c).bind fun r => constOperands raw rest r.1 r.2
  | _, p, c => some (p, c)

end

/-- `constant_data`: the table of a tree, unless it is too large or the stack pointer does not end at
one. -/
def constantData (raw : Bool) (x : Value) (symbols : List Text) : Option (List Text × ConstTable) :=
  (constNode raw x symbols {}).bind fun r => if r.2.sp = 1 then some r else none

end ShenRc.Constant
