import ShenRc.KL.Value
import ShenRc.Emit.Quoted

/-! # The runtime under emitted code

Emitted code runs over some state `W` of its context: the function bindings, the error, the memory
and whatever user code can reach. A `Host` is what the runtime and the user's functions do to that
state, any behaviour at all; the interface functions that emitted constants call are written over it
as the runtime writes them. Values are known by their content, and count nothing here: the references
of the constant tables are accounted for in `Machine`. Every value belongs to the context. -/

namespace ShenRc.Constant

open Numeral KL StringLiteral

/-- A value; closures, vectors and the like are the `other` ones. -/
inductive Datum (O : Type) where
  | nil
  | symbol (s : Text)
  | string (s : Text)
  | number (n : Number)
  | pair (head tail : Datum O)
  | other (o : O)
  deriving DecidableEq

/-- Code that ends with a value or, the error being set, with none. -/
abbrev Run (W α : Type) := W → Option α × W

namespace Run

variable {W α β : Type}

def pure (a : α) : Run W α := fun w => (some a, w)

/-- What follows is skipped after a failure. -/
def andThen (m : Run W α) (k : α → Run W β) : Run W β := fun w =>
  match m w with
  | (some a, w) => k a w
  | (none, w) => (none, w)

theorem andThen_some {m : Run W α} {w w' : W} {a : α} (h : m w = (some a, w')) (k : α → Run W β) :
    m.andThen k w = k a w' := by simp only [andThen, h]

theorem andThen_none {m : Run W α} {w w' : W} (h : m w = (none, w')) (k : α → Run W β) :
    m.andThen k w = (none, w') := by simp only [andThen, h]

@[simp] theorem pure_andThen (a : α) (k : α → Run W β) : (pure a).andThen k = k a := rfl

end Run

/-- The native function of a closure, by the convention it is called with. -/
inductive Native
  | owned (id : ℕ)
  | borrowed (id : ℕ)
  deriving DecidableEq

structure Closure where
  native : Native
  arity : ℕ
  bound : ℕ
  captures : ℕ
  deriving DecidableEq

/-- A definition of the emitted module. -/
structure ModuleDef where
  id : ℕ
  arity : ℕ
  deriving DecidableEq

structure Host (O W : Type) where
  /-- The build has `SHEN_RC_IMMEDIATE_INTEGERS`. -/
  immediate : Bool
  /-- The memory of a new value, or the error `out of memory`. -/
  allocate : W → Bool × W
  /-- The function binding of a symbol. -/
  binding : Text → Run W (Datum O)
  /-- `rc_error`. -/
  error : Text → W → W
  /-- The closure that a value is. -/
  closure : Datum O → Option Closure
  /-- A call of a native function: user code, or a primitive. -/
  callback : Native → Datum O → List (Datum O) → Run W (Datum O)
  /-- `rc_compiled_call_complete`. -/
  complete : Option (Datum O) → Run W (Datum O)
  /-- `rc_apply_owned_args`. -/
  applyOwnedArgs : Datum O → List (Datum O) → Run W (Datum O)
  /-- `rc_primitive_cons_owned` with `tail` false: the canonical `cons`, or a call of what stands in
  its place. -/
  primitiveConsOwned : Datum O → Datum O → Datum O → Run W (Datum O)
  /-- `rc_string_n` where it reads beyond the literal, or the literal is none. -/
  undefined : List UInt8 → ℕ → Run W (Datum O)

namespace Host

variable {O W : Type} (H : Host O W)

/-- `allocate` and the initialization of the value. -/
def alloc (v : Datum O) : Run W (Datum O) := fun w =>
  match H.allocate w with
  | (true, w) => (some v, w)
  | (false, w) => (none, w)

/-- A value with memory to hold it is always had, and having it shows nowhere. -/
def Roomy : Prop := ∀ w, H.allocate w = (true, w)

def isImmediate (k : ℤ) : Bool := H.immediate && decide (-2 ^ 62 ≤ k ∧ k < 2 ^ 62)

/-- `rc_integer`. -/
def rcInteger (k : {k : ℤ // IsInt64 k}) : Run W (Datum O) :=
  if H.isImmediate k then .pure (.number (.exact k)) else H.alloc (.number (.exact k))

/-- `rc_number`. -/
def rcNumber (d : Double) : Run W (Datum O) := H.alloc (.number (.real d))

/-- `rc_string_n` of a C string literal, which is an array with a zero byte at its end. -/
def rcStringN (text : List UInt8) (length : ℕ) : Run W (Datum O) :=
  match StringLiteral.literal text with
  | some bytes =>
    if length ≤ bytes.length + 1 then H.alloc (.string ((bytes ++ [0]).take length))
    else H.undefined text length
  | none => H.undefined text length

/-- `rc_cons`, and `rc_cons_owned`, which takes over the references. -/
def rcCons (head tail : Datum O) : Run W (Datum O) := H.alloc (.pair head tail)
def rcConsOwned (head tail : Datum O) : Run W (Datum O) := H.alloc (.pair head tail)

/-- `rc_function_get_borrowed`, and `rc_function_get`, which retains the closure. -/
def rcFunctionGetBorrowed (s : Text) : Run W (Datum O) := fun w =>
  match H.binding s w with
  | (some fn, w) => (some fn, w)
  | (none, w) => (none, H.error (ascii "undefined function " ++ s) w)

def rcFunctionGet (s : Text) : Run W (Datum O) := fun w =>
  match H.binding s w with
  | (some fn, w) => (some fn, w)
  | (none, w) => (none, H.error (ascii "undefined function " ++ s) w)

/-- A call of the native function of a closure, and its completion. -/
def call (c : Closure) (fn : Datum O) (args : List (Datum O)) : Run W (Datum O) := fun w =>
  match H.callback c.native fn args w with
  | (r, w) => H.complete r w

/-- `rc_apply_rooted_owned_args`. -/
def rcApplyRootedOwnedArgs (fn : Datum O) (args : List (Datum O)) : Run W (Datum O) :=
  match H.closure fn with
  | none => H.applyOwnedArgs fn args
  | some c =>
    if c.bound ≠ 0 ∨ c.arity ≠ args.length then H.applyOwnedArgs fn args else H.call c fn args

/-- `rc_call_mixed`. -/
def rcCallMixed (fn : Datum O) (args : List (Datum O)) : Run W (Datum O) :=
  match H.closure fn with
  | none => H.applyOwnedArgs fn args
  | some c =>
    if c.bound ≠ 0 ∨ c.arity ≠ args.length then H.applyOwnedArgs fn args else H.call c fn args

/-- `rc_compiled_call_matches`. -/
def rcCompiledCallMatches (fn : Datum O) (d : ModuleDef) : Bool :=
  match H.closure fn with
  | none => false
  | some c => c.native = .owned d.id && c.arity = d.arity && c.bound = 0 && c.captures = 0

/-- `rc_module_call_%zu` for a name the module defines as `defs`: a definition's own body is called
directly. -/
def rcModuleCall (defs : List ModuleDef) (fn : Datum O) (args : List (Datum O)) : Run W (Datum O) :=
  match defs.find? fun d => args.length == d.arity && H.rcCompiledCallMatches fn d with
  | some d => fun w =>
    match H.callback (.owned d.id) fn args w with
    | (r, w) => H.complete r w
  | none => H.rcCallMixed fn args

/-- **The module's call of a function is the runtime's.** -/
theorem rcModuleCall_eq (defs : List ModuleDef) (fn : Datum O) (args : List (Datum O)) :
    H.rcModuleCall defs fn args = H.rcApplyRootedOwnedArgs fn args := by
  unfold rcModuleCall
  rcases hfind : defs.find? _ with _ | d
  · rfl
  have hd := List.find?_some hfind
  rw [Bool.and_eq_true, beq_iff_eq] at hd
  obtain ⟨hlength, hmatch⟩ := hd
  unfold rcCompiledCallMatches at hmatch
  rcases hc : H.closure fn with _ | c
  · rw [hc] at hmatch
    exact absurd hmatch Bool.false_ne_true
  · simp only [hc, Bool.and_eq_true, decide_eq_true_eq] at hmatch
    obtain ⟨⟨⟨hnative, harity⟩, hbound⟩, -⟩ := hmatch
    have hexact : ¬(c.bound ≠ 0 ∨ c.arity ≠ args.length) := by omega
    simp only [rcApplyRootedOwnedArgs, hc, if_neg hexact]
    rw [← hnative]
    rfl

end Host

end ShenRc.Constant
