import ShenRc.Numeral.Double

/-! # KL values as trees

A KL value is a tree of pairs over the empty list, numbers, strings and symbols; a vector, closure,
stream, tail request or environment is a leaf that is known by its address only. A number is an exact
64-bit integer or a double, and the two kinds may have the same value. -/

namespace ShenRc.KL

open Numeral

def IsInt64 (k : Int) : Prop := -2 ^ 63 ≤ k ∧ k < 2 ^ 63

instance (k : Int) : Decidable (IsInt64 k) := inferInstanceAs (Decidable (_ ∧ _))

/-- An integer that stands as a literal in the code. -/
class Int64Literal (k : Int) : Prop where
  isInt64 : IsInt64 k

instance : Int64Literal 0 := ⟨by decide⟩
instance : Int64Literal 1 := ⟨by decide⟩
instance : Int64Literal 2 := ⟨by decide⟩
instance : Int64Literal 34 := ⟨by decide⟩
instance : Int64Literal 10000000000 := ⟨by decide⟩
instance : Int64Literal (-2 ^ 63) := ⟨by decide⟩

inductive Number where
  | exact (k : {k : Int // IsInt64 k})
  | real (d : Double)
  deriving DecidableEq

/-- The types whose values are not KL syntax. -/
inductive OtherType where
  | vector | closure | stream | tail | env
  deriving DecidableEq

inductive Value where
  | nil
  | number (n : Number)
  | string (s : Text)
  | symbol (s : Text)
  | pair (head tail : Value)
  | other (type : OtherType) (address : Nat)
  deriving DecidableEq

namespace Number

/-- `rc_number_is_int64` and, where it holds, `rc_integer_value`: also a double may have an integer
value in range. -/
def int64Value : Number → Option Int
  | exact k => some k.val
  | real d => d.toInt?.filter fun k => decide (IsInt64 k)

/-- The exact integer of the same value, for a double in range that has one. -/
def canonical : Number → Number
  | exact k => exact k
  | real d =>
    match d.toInt? with
    | some k => if h : IsInt64 k then exact ⟨k, h⟩ else real d
    | none => real d

/-- `rc_equal` of two numbers. -/
def equal : Number → Number → Bool
  | exact j, exact k => j == k
  | exact j, real d => (real d).int64Value == some j.val
  | real d, exact k => (real d).int64Value == some k.val
  | real d, real e => d.eq e

theorem equal_exact (n : Number) (k : {k : Int // IsInt64 k}) :
    n.equal (.exact k) = true ↔ n.canonical = .exact k := by
  cases n with
  | exact j => simp [equal, canonical, Subtype.ext_iff]
  | real d =>
    simp only [equal, canonical, int64Value, beq_iff_eq]
    cases d.toInt? with
    | none => simp
    | some j =>
      by_cases h : IsInt64 j
      · simp [Option.filter, h, Subtype.ext_iff]
      · simp [Option.filter, h]

theorem canonical_of_int64Value {n : Number} {k : {k : Int // IsInt64 k}}
    (h : n.int64Value = some k.val) : n.canonical = .exact k := by
  cases n with
  | exact j =>
    have hjk : j = k := Subtype.ext (Option.some.inj h)
    rw [hjk]
    rfl
  | real d =>
    simp only [int64Value, Option.filter_eq_some_iff, decide_eq_true_eq] at h
    simp only [canonical, h.1, dif_pos k.2]

/-- A double that is no integer in range is its own canonical number. -/
theorem canonical_real {n : Number} {d : Double} (h : n.canonical = .real d) : n = .real d := by
  cases n with
  | exact k => cases h
  | real e =>
    simp only [canonical] at h
    split at h
    · split at h
      · cases h
      · exact h
    · exact h

end Number

namespace Value

def sym (s : String) : Value := .symbol (ascii s)

def int (k : Int) [Int64Literal k] : Value := .number (.exact ⟨k, Int64Literal.isInt64⟩)

def isSymbol : Value → Bool
  | .symbol _ => true
  | _ => false

theorem isSymbol_iff {v : Value} : v.isSymbol = true ↔ ∃ s, v = .symbol s := by
  cases v <;> simp [isSymbol]

/-- A proper list. -/
def ofList : List Value → Value
  | [] => .nil
  | v :: vs => .pair v (ofList vs)

/-- `rc_equal` of two values that are no pairs. Two vectors, closures or streams count as equal only if
they are the same. -/
def atomEqual : Value → Value → Bool
  | .nil, .nil => true
  | .number m, .number n => m.equal n
  | .string s, .string t => s == t
  | .symbol s, .symbol t => s == t
  | .other t a, .other t' a' => t == t' && a == a'
  | _, _ => false

end Value

end ShenRc.KL
