import ShenRc.Runtime.Heap
import ShenRc.Numeral.Double
import ShenRc.Graph.Probing

/-! # Structural equality

`rcEqual` compares two values. It walks pairs that reach no vector with a stack of at most 32 pairs
and gives up after 256 branchings; `graphEqual` then compares the two graphs from the start, with an
array of the pairs of cells met so far that a hash table is kept over once it holds more than 32. A
comparison that runs out of memory reports an error, and its answer does not count.

Of a value of another context nothing but its handle is known. The cells of a context hold none. -/

namespace ShenRc.Runtime

open Numeral ShenRc.Graph

/-- The comparison of two numbers in `scalar_equal`. -/
def Num.equal : Num → Num → Bool
  | .exact m, .exact n => m == n
  | .exact n, .real d => realEqual d n
  | .real d, .exact n => realEqual d n
  | .real c, .real d => (Double.ofBits c).eq (Double.ofBits d)
where
  /-- The double is the integer, and in the range of `int64_t`. -/
  realEqual (d : UInt64) (n : ℤ) : Bool :=
    match (Double.ofBits d).toInt? with
    | some k => -2 ^ 63 ≤ k && k < 2 ^ 63 && k == n
    | none => false

/-- `is_immediate`. -/
def Ref.isImmediate : Ref → Bool
  | .imm _ => true
  | _ => false

/-- Two values to be compared. -/
abbrev EqualPair := Ref × Ref

/-- The computation ends with the result, whatever fuel it gets from some bound on. -/
def Returns {α : Type*} (f : ℕ → Option α) (r : α) : Prop := ∃ n, ∀ fuel, n ≤ fuel → f fuel = some r

namespace Ctx

variable (s : Ctx)

/-- What a value contains. -/
def payload? : Ref → Option Payload
  | .imm n => some (.number (.exact n))
  | .cell a => (s.heap a).map Obj.body
  | _ => none

/-- `scalar_equal`, for values of one context, where different symbols have different names. -/
def scalarEqual (a b : Ref) : Bool :=
  if a = b then true
  else if a = .null ∨ b = .null then false
  else if a.isImmediate && b.isImmediate then false
  else if s.rcType a ≠ s.rcType b then false
  else
    match s.payload? a, s.payload? b with
    | some (.number m), some (.number n) => m.equal n
    | some (.string t), some (.string u) => t.length == u.length && t == u
    | _, _ => false

/-- `structural`. -/
def structural : Ref → Bool
  | .cell a => s.rcType (.cell a) == .pair || s.rcType (.cell a) == .vector
  | _ => false

/-- The two values are pairs or are vectors, and compared by their children. -/
def comparable (p : EqualPair) : Bool :=
  s.structural p.1 && s.structural p.2 && s.rcType p.1 == s.rcType p.2

/-- The children of two pairs or two vectors, side by side; `none` if their numbers differ. -/
def childPairs (p : EqualPair) : Option (List EqualPair) :=
  match s.payload? p.1, s.payload? p.2 with
  | some (.pair h t), some (.pair k u) => some [(h, k), (t, u)]
  | some (.vector xs), some (.vector ys) => if xs.length = ys.length then some (xs.zip ys) else none
  | _, _ => none

/-! ### The comparison of graphs -/

variable (address : Ref → BitVec 64)

/-- `equal_hash`; `address` is where the cells lie. -/
def equalHash (pair : EqualPair) : BitVec 64 :=
  let a := address pair.1 >>> 3
  let b := address pair.2 >>> 3
  let a := a ^^^ (a >>> 17)
  let b := b ^^^ (b >>> 13)
  (a * 0x9e3779b97f4a7c15) ^^^ (b * 0xbf58476d1ce4e5b9)

/-- What `graph_equal` works with: the pairs met so far, the table over them (`none` while there is
none), the capacity of the array and the number of requests to the system so far. -/
structure Comparison where
  pairs : List EqualPair
  seen : Option (List ℕ)
  capacity : ℕ
  tick : ℕ

/-- Why a comparison ends early: the values differ, or an error is reported. -/
inductive Halt
  | different
  | error (message : String)

/-- The next slot of a table for `capacity` pairs. -/
def nextSlot (capacity slot : ℕ) : ℕ := (slot + 1) &&& (capacity * 2 - 1)

/-- The slot where the search for a pair starts. -/
def firstSlot (capacity : ℕ) (p : EqualPair) : ℕ :=
  (equalHash address p).toNat &&& (capacity * 2 - 1)

/-- The search in the table: it ends at a free slot, and at the pair itself if `known` is set. As
there are `capacity * 2` slots, a search that takes more steps never ends. -/
def searchSlot (pairs : List EqualPair) (seen : List ℕ) (capacity : ℕ) (known : Bool)
    (p : EqualPair) : Option ℕ :=
  probe
    (fun slot => seen.getD slot 0 == 0 || (known && pairs[seen.getD slot 0 - 1]? == some p))
    (nextSlot capacity) (capacity * 2) (firstSlot address capacity p)

/-- The table over the first pairs of the array, made anew: pair `k` is stored as `k + 1`. -/
def rebuild (pairs : List EqualPair) (capacity : ℕ) : ℕ → Option (List ℕ)
  | 0 => some (List.replicate (capacity * 2) 0)
  | k + 1 => do
    let seen ← rebuild pairs capacity k
    match pairs[k]? with
    | none => some seen
    | some p =>
      let slot ← searchSlot address pairs seen capacity false p
      some (seen.set slot (k + 1))

/-- Twice the room: the sizes are checked, two requests go to the system, the table is rebuilt. -/
def grow (c : Comparison) : Option (Except Halt Comparison) :=
  if sizeMax / 4 / 8 < c.capacity ∨ sizeMax / 2 / 16 < c.capacity then
    some (.error (.error "comparison size overflow"))
  else if !(s.scratch c.tick && s.scratch (c.tick + 1)) then
    some (.error (.error "out of memory comparing values"))
  else do
    let seen ← rebuild address c.pairs (c.capacity * 2) c.pairs.length
    some (.ok
      { c with seen := some seen, capacity := c.capacity * 2, tick := c.tick + 2 })

/-- The pair goes to the end of the array, and into the slot of the table. -/
def store (c : Comparison) (p : EqualPair) (slot : ℕ) : Comparison :=
  { c with
    pairs := c.pairs ++ [p]
    seen := c.seen.map fun seen => seen.set slot (c.pairs.length + 1) }

/-- A pair that has not been met. -/
def addPair (c : Comparison) (p : EqualPair) (slot : ℕ) : Option (Except Halt Comparison) :=
  if c.pairs.length = c.capacity then do
    match ← s.grow address c with
    | .error e => some (.error e)
    | .ok c =>
      let slot ← searchSlot address c.pairs (c.seen.getD []) c.capacity false p
      some (.ok (store c p slot))
  else some (.ok (store c p slot))

/-- The turn of the inner loop of `graph_equal` for one pair of children. -/
def visitChild (c : Comparison) (p : EqualPair) : Option (Except Halt Comparison) :=
  if p.1 = p.2 then some (.ok c)
  else if !s.comparable p then
    some (if s.scalarEqual p.1 p.2 then .ok c else .error .different)
  else
    match c.seen with
    | none => if p ∈ c.pairs then some (.ok c) else s.addPair address c p 0
    | some seen => do
      let slot ← searchSlot address c.pairs seen c.capacity true p
      if seen.getD slot 0 ≠ 0 then some (.ok c) else s.addPair address c p slot

/-- The inner loop. -/
def visitChildren : List EqualPair → Comparison → Option (Except Halt Comparison)
  | [], c => some (.ok c)
  | p :: ps, c => do
    match ← s.visitChild address c p with
    | .error e => some (.error e)
    | .ok c => visitChildren ps c

/-- The outer loop, from pair `cursor` on. -/
def graphLoop : ℕ → ℕ → Comparison → Option (Except String Bool)
  | 0, _, _ => none
  | fuel + 1, cursor, c =>
    match c.pairs[cursor]? with
    | none => some (.ok true)
    | some p =>
      match s.childPairs p with
      | none => some (.ok false)
      | some children => do
        match ← s.visitChildren address children c with
        | .error .different => some (.ok false)
        | .error (.error message) => some (.error message)
        | .ok c => graphLoop fuel (cursor + 1) c

/-- `graph_equal`. -/
def graphEqual (fuel : ℕ) (left right : Ref) : Option (Except String Bool) :=
  s.graphLoop address fuel 0 ⟨[(left, right)], none, 32, s.tick⟩

/-! ### The walk -/

/-- The loop of `rc_equal` at a pair of values, with the pairs that are pending, the last one first,
and the number of branchings so far. -/
def walk (left right : Ref) : ℕ → EqualPair → List EqualPair → ℕ → Option (Except String Bool)
  | 0, _, _, _ => none
  | fuel + 1, p, pending, branches =>
    if p.1 = p.2 ∨ !s.comparable p ∧ s.scalarEqual p.1 p.2 then
      match pending with
      | [] => some (.ok true)
      | next :: pending => walk left right fuel next pending branches
    else if !s.comparable p then some (.ok false)
    else
      match s.payload? p.1, s.payload? p.2 with
      | some (.pair h t), some (.pair k u) =>
        if s.mayReachVector p.1 || s.mayReachVector p.2 then
          s.graphEqual address fuel left right
        else if h = k then walk left right fuel (t, u) pending branches
        else if s.comparable (h, k) then
          if h = t ∧ k = u then walk left right fuel (h, k) pending branches
          else if pending.length = 32 ∨ branches + 1 = 256 then
            s.graphEqual address fuel left right
          else walk left right fuel (h, k) ((t, u) :: pending) (branches + 1)
        else if s.scalarEqual h k then walk left right fuel (t, u) pending branches
        else some (.ok false)
      | _, _ => s.graphEqual address fuel left right

/-- `rc_equal`. The result is `none` if `fuel` turns are not enough. -/
def rcEqual (fuel : ℕ) (left right : Ref) : Option (Except String Bool) :=
  if left = right then some (.ok true)
  else if left = .null ∨ right = .null then some (.ok false)
  else if s.rcType left ≠ .pair ∧ s.rcType left ≠ .vector then
    some (.ok (s.scalarEqual left right))
  else if s.rcType left ≠ s.rcType right then some (.ok false)
  else s.walk address left right fuel (left, right) [] 0

/-! ### Bisimilarity -/

/-- Two scalars of one type are equal. -/
inductive SameScalar (s : Ctx) : Ref → Ref → Prop
  | number {a b : Ref} {m n : Num} (ha : s.payload? a = some (.number m))
      (hb : s.payload? b = some (.number n)) (h : m.equal n = true) : SameScalar s a b
  | string {a b : Ref} {t : List UInt8} (ha : s.payload? a = some (.string t))
      (hb : s.payload? b = some (.string t)) : SameScalar s a b

/-- `R` relates values that look alike: different pairs with related heads and tails, different
vectors of one length with related elements, and else only equal values. -/
def Bisimulation (s : Ctx) (R : Ref → Ref → Prop) : Prop :=
  ∀ a b, R a b →
    a = b ∨ SameScalar s a b ∨
    (∃ h t k u, s.payload? a = some (.pair h t) ∧ s.payload? b = some (.pair k u) ∧
      R h k ∧ R t u) ∨
    (∃ xs ys, s.payload? a = some (.vector xs) ∧ s.payload? b = some (.vector ys) ∧
      List.Forall₂ R xs ys)

/-- Some bisimulation relates the values. -/
def Bisimilar (s : Ctx) (a b : Ref) : Prop := ∃ R, Bisimulation s R ∧ R a b

end Ctx

end ShenRc.Runtime
