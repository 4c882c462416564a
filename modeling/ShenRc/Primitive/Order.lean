import ShenRc.Numeral.Rounding
import ShenRc.Runtime.Equal
import ShenRc.Runtime.Objects

/-! # The order of numbers

The comparisons `>`, `<`, `>=`, `<=` and the equality `=` of the builtin primitives, in each of the
forms that generic and compiled code call. Two exact integers are compared exactly, any other two
numbers as doubles, and equality is exact. So the order and the equality do not agree on an exact
integer that is not a double and the double it is converted to (`order_iff`). -/

namespace ShenRc.Primitive

open ShenRc.Runtime Numeral

/-- The order operations of `enum Op`. -/
inductive OrderOp
  | gt | lt | ge | le
  deriving DecidableEq

namespace OrderOp

/-- The operator of C on `int64_t`. -/
def ints : OrderOp → ℤ → ℤ → Bool
  | gt, i, j => j < i
  | lt, i, j => i < j
  | ge, i, j => j ≤ i
  | le, i, j => i ≤ j

/-- The operator of C on `double`. -/
def reals : OrderOp → Double → Double → Bool
  | gt, x, y => y.lt x
  | lt, x, y => x.lt y
  | ge, x, y => y.le x
  | le, x, y => x.le y

end OrderOp

/-- The builtins that compare two values. -/
inductive CompareOp
  | eq
  | order (op : OrderOp)
  deriving DecidableEq

section Forms

variable (s : Ctx) (address : Ref → BitVec 64)

/-- `rc_number_is_exact_integer` and, if it holds, `rc_integer_value`. -/
def exactInteger? (v : Ref) : Option ℤ :=
  match s.payload? v with
  | some (.number (.exact n)) => some n
  | _ => none

/-- `rc_number_value`. A boxed exact integer keeps its conversion in the field `real`. -/
def rcNumberValue (v : Ref) : Double :=
  match s.payload? v with
  | some (.number (.exact n)) => Double.ofInt n
  | some (.number (.real bits)) => Double.ofBits bits
  | _ => .nan false

/-- The comparisons of `numeric`. -/
def numeric (op : OrderOp) (a b : Ref) : Except String Bool :=
  if s.rcType a ≠ .number ∨ s.rcType b ≠ .number then .error "Arithmetic requires numbers"
  else
    match exactInteger? s a, exactInteger? s b with
    | some i, some j => .ok (op.ints i j)
    | _, _ => .ok (op.reals (rcNumberValue s a) (rcNumberValue s b))

/-- The comparisons of `primitive_op`. -/
def primitiveOp (fuel : ℕ) : CompareOp → Ref → Ref → Option (Except String Bool)
  | .eq, a, b => s.rcEqual address fuel a b
  | .order op, a, b => some (numeric s op a b)

/-- The forms that a builtin is called in: by `rc_apply`, with owned or borrowed operands, and as the
condition of a branch with owned or borrowed operands. -/
inductive Form
  | generic | owned | borrowed | conditionOwned | conditionBorrowed
  deriving DecidableEq

/-- `rc_primitive_eq_owned_validated` and the functions of `BINARY_NUMERIC_LEAF` for the canonical
closure of a slot; `rc_primitive_eq_borrowed` and those of `BINARY_LEAF_B` do the same. -/
def leafValidated (fuel : ℕ) : CompareOp → Ref → Ref → Option (Except String Bool)
  | .eq, a, b => s.rcEqual address fuel a b
  | .order op, a, b => some (numeric s op a b)

/-- `condition_gt_value` and the other functions of `NUMERIC_CONDITION`. -/
def conditionValue (op : OrderOp) (a b : Ref) : Except String Bool :=
  if s.rcType a ≠ .number ∨ s.rcType b ≠ .number then .error "Arithmetic requires numbers"
  else
    match exactInteger? s a, exactInteger? s b with
    | some i, some j => .ok (op.ints i j)
    | _, _ => .ok (op.reals (rcNumberValue s a) (rcNumberValue s b))

/-- The conditions of a canonical closure: `rc_condition_eq_owned` and those over
`conditionValue`. -/
def conditionValidated (fuel : ℕ) : CompareOp → Ref → Ref → Option (Except String Bool)
  | .eq, a, b => s.rcEqual address fuel a b
  | .order op, a, b => some (conditionValue s op a b)

/-- A call of a builtin in some form. `canonical` is the answer of `rc_builtin_call_matches`; without
it, every form gets to `primitive_op` in the end, by `primitive_call_owned_slow` or `rc_apply`. -/
def Form.call (form : Form) (canonical : Bool) (fuel : ℕ) (op : CompareOp) (a b : Ref) :
    Option (Except String Bool) :=
  if canonical then
    match form with
    | generic => primitiveOp s address fuel op a b
    | owned => leafValidated s address fuel op a b
    | borrowed => leafValidated s address fuel op a b
    | conditionOwned => conditionValidated s address fuel op a b
    | conditionBorrowed => conditionValidated s address fuel op a b
  else primitiveOp s address fuel op a b

end Forms

/-! ### The answers -/

/-- A number the laws of order are about: an exact `int64_t` or a finite double. -/
def Finite : Runtime.Num → Prop
  | .exact n => -2 ^ 63 ≤ n ∧ n < 2 ^ 63
  | .real bits => (Double.ofBits bits).isFinite = true

instance : ∀ m, Decidable (Finite m)
  | .exact n => inferInstanceAs (Decidable (-2 ^ 63 ≤ n ∧ n < 2 ^ 63))
  | .real bits => inferInstanceAs (Decidable ((Double.ofBits bits).isFinite = true))

/-- The conversion to a double, if it is not one already. -/
def toDouble : Runtime.Num → Double
  | .exact n => Double.ofInt n
  | .real bits => Double.ofBits bits

/-- What a comparison of two numbers answers. -/
def answer : CompareOp → Runtime.Num → Runtime.Num → Bool
  | .eq, m, n => m.equal n
  | .order op, .exact i, .exact j => op.ints i j
  | .order op, m, n => op.reals (toDouble m) (toDouble n)

/-- Every form answers the same on numbers of the heap. -/
def Answers (s : Ctx) (address : Ref → BitVec 64) (a b : Ref) (r : CompareOp → Bool) : Prop :=
  ∀ (form : Form) (canonical : Bool) (fuel : ℕ) (op : CompareOp),
    form.call s address canonical fuel op a b = some (.ok (r op))

/-- **The laws of a total order**, for the answers on two numbers. -/
structure TotalOrder (r : CompareOp → Bool) : Prop where
  trichotomy : (r (.order .lt)).toNat + (r .eq).toNat + (r (.order .gt)).toNat = 1
  ge : r (.order .ge) = !r (.order .lt)
  le : r (.order .le) = !r (.order .gt)
  both : (r (.order .le) && r (.order .ge)) = r .eq

/-- An exact integer is converted to a double that it does not equal. -/
def Collide : Runtime.Num → Runtime.Num → Prop
  | .exact i, .real d => Collides i (Double.ofBits d)
  | .real d, .exact i => Collides i (Double.ofBits d)
  | _, _ => False
where
  Collides (i : ℤ) (d : Double) : Prop := (Double.ofInt i).toRat = d.toRat ∧ d.toRat ≠ i

/-! ### Every form gives the answer -/

theorem exactInteger?_exact {s : Ctx} {a : Ref} {i : ℤ}
    (h : s.payload? a = some (.number (.exact i))) : exactInteger? s a = some i := by
  rw [exactInteger?, h]

theorem exactInteger?_real {s : Ctx} {a : Ref} {d : UInt64}
    (h : s.payload? a = some (.number (.real d))) : exactInteger? s a = none := by
  rw [exactInteger?, h]

theorem rcNumberValue_eq {s : Ctx} {a : Ref} {m : Runtime.Num}
    (h : s.payload? a = some (.number m)) :
    rcNumberValue s a = toDouble m := by
  rw [rcNumberValue, h]
  cases m <;> rfl

theorem rcType_number {s : Ctx} {a : Ref} {m : Runtime.Num}
    (h : s.payload? a = some (.number m)) :
    s.rcType a = .number := by
  cases a with
  | imm n => rfl
  | cell k =>
    simp only [Ctx.payload?, Option.map_eq_some_iff] at h
    obtain ⟨o, ho, hb⟩ := h
    simp [Ctx.rcType, ho, hb, Payload.type]
  | _ => cases h

theorem numeric_eq {s : Ctx} {a b : Ref} {m n : Runtime.Num} (ha : s.payload? a = some (.number m))
    (hb : s.payload? b = some (.number n)) (op : OrderOp) :
    numeric s op a b = .ok (answer (.order op) m n) := by
  rw [numeric, if_neg (by simp [rcType_number ha, rcType_number hb])]
  cases m with
  | exact i =>
    cases n with
    | exact j => rw [exactInteger?_exact ha, exactInteger?_exact hb, answer]
    | real e =>
      rw [exactInteger?_exact ha, exactInteger?_real hb, rcNumberValue_eq ha, rcNumberValue_eq hb]
      rfl
  | real d =>
    rw [exactInteger?_real ha, rcNumberValue_eq ha, rcNumberValue_eq hb]
    rfl

theorem conditionValue_eq (s : Ctx) (op : OrderOp) (a b : Ref) :
    conditionValue s op a b = numeric s op a b := rfl

theorem equal_self {m : Runtime.Num} (h : Finite m) : m.equal m = true := by
  cases m with
  | exact i => exact beq_self_eq_true i
  | real d => exact (Double.position_inj h h).mp rfl

theorem scalarEqual_eq {s : Ctx} {a b : Ref} {m n : Runtime.Num} (ha : s.payload? a = some (.number m))
    (hb : s.payload? b = some (.number n)) (hab : a ≠ b) : s.scalarEqual a b = m.equal n := by
  have hna : a ≠ .null := fun h => by rw [h] at ha; cases ha
  have hnb : b ≠ .null := fun h => by rw [h] at hb; cases hb
  rw [Ctx.scalarEqual, if_neg hab, if_neg (not_or.mpr ⟨hna, hnb⟩)]
  split_ifs with himm htype
  · cases a with
    | imm i =>
      cases b with
      | imm j =>
        cases ha
        cases hb
        refine (beq_eq_false_iff_ne.mpr fun h => hab ?_).symm
        rw [h]
      | _ => cases himm
    | _ => cases himm
  · exact absurd ((rcType_number ha).trans (rcType_number hb).symm) htype
  · rw [ha, hb]

theorem rcEqual_number {s : Ctx} {a b : Ref} {m n : Runtime.Num} (ha : s.payload? a = some (.number m))
    (hb : s.payload? b = some (.number n)) (hm : Finite m) (address : Ref → BitVec 64) (fuel : ℕ) :
    s.rcEqual address fuel a b = some (.ok (m.equal n)) := by
  unfold Ctx.rcEqual
  split_ifs with hab hnull htype htypes
  · obtain rfl : m = n := by
      rw [hab, hb] at ha
      simpa using ha.symm
    rw [equal_self hm]
  · rcases hnull with rfl | rfl
    · cases ha
    · cases hb
  · rw [scalarEqual_eq ha hb hab]
  · exact absurd ((rcType_number ha).trans (rcType_number hb).symm) htypes
  · simp [rcType_number ha] at htype

/-- **Every form of a builtin gives the answer on numbers.** -/
theorem answers {s : Ctx} {a b : Ref} {m n : Runtime.Num} (ha : s.payload? a = some (.number m))
    (hb : s.payload? b = some (.number n)) (hm : Finite m) (address : Ref → BitVec 64) :
    Answers s address a b fun op => answer op m n := by
  have heq := rcEqual_number ha hb hm address
  have hop : ∀ fuel op, primitiveOp s address fuel op a b = some (.ok (answer op m n)) := by
    intro fuel op
    cases op with
    | eq => exact heq fuel
    | order op => rw [primitiveOp, numeric_eq ha hb]
  intro form canonical fuel op
  unfold Form.call
  split_ifs
  · cases op with
    | eq => cases form <;> exact heq fuel
    | order op =>
      cases form
      case conditionOwned | conditionBorrowed =>
        rw [conditionValidated, conditionValue_eq, numeric_eq ha hb]
      all_goals exact hop fuel (.order op)
  · exact hop fuel op

/-! ### The laws -/

theorem lt_iff {x y : Double} (hx : x.isFinite = true) (hy : y.isFinite = true) :
    x.lt y = decide (x.position < y.position) := by
  rw [Double.lt, Double.isNan_of_isFinite hx, Double.isNan_of_isFinite hy]
  rfl

theorem le_iff {x y : Double} (hx : x.isFinite = true) (hy : y.isFinite = true) :
    x.le y = decide (x.position ≤ y.position) := by
  rw [Double.le, Double.isNan_of_isFinite hx, Double.isNan_of_isFinite hy]
  rfl

theorem toDouble_isFinite {m : Runtime.Num} (h : Finite m) : (toDouble m).isFinite = true := by
  cases m with
  | exact i => exact Double.ofInt_isFinite h.1 h.2
  | real d => exact h

/-- Where two numbers are compared: integers on their own line, others on that of doubles. -/
def place : Runtime.Num → Runtime.Num → ℤ × ℤ
  | .exact i, .exact j => (i, j)
  | m, n => ((toDouble m).position, (toDouble n).position)

theorem answer_order {m n : Runtime.Num} (hm : Finite m) (hn : Finite n) (op : OrderOp) :
    answer (.order op) m n = op.ints (place m n).1 (place m n).2 := by
  have hx := toDouble_isFinite hm
  have hy := toDouble_isFinite hn
  have hreals : op.reals (toDouble m) (toDouble n) =
      op.ints (toDouble m).position (toDouble n).position := by
    cases op
    · exact lt_iff hy hx
    · exact lt_iff hx hy
    · exact le_iff hy hx
    · exact le_iff hx hy
  cases m <;> cases n <;> first | rfl | exact hreals

/-- The laws hold where the equality is that of the places that are compared. -/
theorem totalOrder_iff {m n : Runtime.Num} (hm : Finite m) (hn : Finite n) :
    TotalOrder (fun op => answer op m n) ↔ (m.equal n = true ↔ (place m n).1 = (place m n).2) := by
  have hop := answer_order hm hn
  have heq : answer .eq m n = m.equal n := rfl
  generalize (place m n).1 = p at hop ⊢
  generalize (place m n).2 = q at hop ⊢
  have hlt : answer (.order .lt) m n = decide (p < q) := hop .lt
  have hgt : answer (.order .gt) m n = decide (q < p) := hop .gt
  have hge : answer (.order .ge) m n = decide (q ≤ p) := hop .ge
  have hle : answer (.order .le) m n = decide (p ≤ q) := hop .le
  constructor
  · intro h
    have hboth := h.both
    simp only [hle, hge, heq] at hboth
    rw [← hboth, Bool.and_eq_true, decide_eq_true_iff, decide_eq_true_iff]
    omega
  · intro h
    have hequal : m.equal n = decide (p = q) := by
      rw [Bool.eq_iff_iff, h, decide_eq_true_iff]
    constructor <;> simp only [hlt, hgt, hge, hle, heq, hequal]
    · rcases lt_trichotomy p q with hpq | rfl | hpq
      · simp [hpq, hpq.ne, hpq.not_gt]
      · simp
      · simp [hpq, hpq.ne', hpq.not_gt]
    · rw [← decide_not, decide_eq_decide, not_lt]
    · rw [← decide_not, decide_eq_decide, not_lt]
    · rw [← Bool.decide_and, decide_eq_decide, le_antisymm_iff]

/-! ### Equality and conversion -/

theorem realEqual_iff {bits : UInt64} {i : ℤ} (hd : (Double.ofBits bits).isFinite = true)
    (hi : -2 ^ 63 ≤ i ∧ i < 2 ^ 63) :
    Runtime.Num.equal.realEqual bits i = true ↔ (Double.ofBits bits).position = i * Double.unit := by
  rw [← Double.toInt?_eq_some hd]
  unfold Runtime.Num.equal.realEqual
  split
  next k hk =>
    rw [hk, Option.some.injEq]
    simp only [Bool.and_eq_true, decide_eq_true_iff, beq_iff_eq]
    constructor
    · exact fun h => h.2
    · rintro rfl
      exact ⟨hi, rfl⟩
  next hk => simp [hk]

/-- The exact equality is that of the positions, but for an integer that the conversion moves. -/
theorem exact_iff {bits : UInt64} {i : ℤ} (hd : (Double.ofBits bits).isFinite = true)
    (hi : -2 ^ 63 ≤ i ∧ i < 2 ^ 63) :
    (Runtime.Num.equal.realEqual bits i = true ↔
        (Double.ofInt i).position = (Double.ofBits bits).position) ↔
      ¬Collide.Collides i (Double.ofBits bits) := by
  have hexact := Double.position_ofInt_of_exact hi.1 hi.2 hd
  rw [realEqual_iff hd hi, Collide.Collides, Double.toRat_inj, Ne, Double.toRat_eq_int]
  tauto

theorem equal_place_iff {m n : Runtime.Num} (hm : Finite m) (hn : Finite n) :
    (m.equal n = true ↔ (place m n).1 = (place m n).2) ↔ ¬Collide m n := by
  cases m with
  | exact i =>
    cases n with
    | exact j => simp [Runtime.Num.equal, place, Collide]
    | real e => exact exact_iff hn hm
  | real d =>
    cases n with
    | exact j =>
      refine Iff.trans (iff_congr Iff.rfl ?_) (exact_iff hm hn)
      exact eq_comm
    | real e =>
      have := Double.position_inj hm hn
      simp [Runtime.Num.equal, place, Collide, toDouble, this]

theorem place_mono {i j : ℤ} (hi : Finite (.exact i)) (hj : Finite (.exact j)) (h : i ≤ j) :
    (toDouble (.exact i)).position ≤ (toDouble (.exact j)).position :=
  Double.ofInt_mono hi.1 hj.2 h

/-- **`<` is transitive**, over exact integers and doubles. -/
theorem lt_trans {m n k : Runtime.Num} (hm : Finite m) (hn : Finite n) (hk : Finite k)
    (h1 : answer (.order .lt) m n = true) (h2 : answer (.order .lt) n k = true) :
    answer (.order .lt) m k = true := by
  rw [answer_order hm hn] at h1
  rw [answer_order hn hk] at h2
  rw [answer_order hm hk]
  simp only [OrderOp.ints, decide_eq_true_iff] at h1 h2 ⊢
  cases m with
  | exact i =>
    cases n with
    | exact j =>
      cases k with
      | exact l => exact h1.trans h2
      | real f => exact lt_of_le_of_lt (place_mono hm hn h1.le) h2
    | real e =>
      cases k with
      | exact l =>
        by_contra hle
        exact absurd (h1.trans h2) (place_mono hk hm (not_lt.mp hle)).not_gt
      | real f => exact h1.trans h2
  | real d =>
    cases n with
    | exact j =>
      cases k with
      | exact l => exact lt_of_lt_of_le h1 (place_mono hn hk h2.le)
      | real f => exact h1.trans h2
    | real e => cases k <;> exact h1.trans h2

/-- **Order and equality agree on two finite numbers exactly when the one is not an exact integer
that is converted to the other without being equal to it.** `<` is transitive in any case. -/
theorem order_iff {s : Ctx} (address : Ref → BitVec 64) {a b : Ref} {m n : Runtime.Num}
    (ha : s.payload? a = some (.number m)) (hb : s.payload? b = some (.number n)) (hm : Finite m)
    (hn : Finite n) :
    (∃ r, Answers s address a b r ∧ (TotalOrder r ↔ ¬Collide m n)) ∧
      ∀ (c : Ref) (k : Runtime.Num), s.payload? c = some (.number k) → Finite k →
        ∃ rab rbc rac, Answers s address a b rab ∧ Answers s address b c rbc ∧
          Answers s address a c rac ∧
          (rab (.order .lt) = true → rbc (.order .lt) = true → rac (.order .lt) = true) :=
  ⟨⟨_, answers ha hb hm address, (totalOrder_iff hm hn).trans (equal_place_iff hm hn)⟩,
    fun _ _ hc hk => ⟨_, _, _, answers ha hb hm address, answers hb hc hn address,
      answers ha hc hm address, lt_trans hm hn hk⟩⟩

/-- A context with the double `2 ^ 53` in its only cell. -/
def withTwo53 : Ctx :=
  ((rcContextNew false (fun _ => true) (fun _ => true) (fun _ => true)).rcNumber
    0x4340000000000000).1

theorem order_iff_two53 :
    (∃ r, Answers withTwo53 (fun _ => 0) (.imm 9007199254740991) (.cell 0) r ∧
        (TotalOrder r ↔ ¬Collide (.exact 9007199254740991) (.real 0x4340000000000000))) ∧
      ∀ (c : Ref) (k : Runtime.Num), withTwo53.payload? c = some (.number k) → Finite k →
        ∃ rab rbc rac, Answers withTwo53 (fun _ => 0) (.imm 9007199254740991) (.cell 0) rab ∧
          Answers withTwo53 (fun _ => 0) (.cell 0) c rbc ∧
          Answers withTwo53 (fun _ => 0) (.imm 9007199254740991) c rac ∧
          (rab (.order .lt) = true → rbc (.order .lt) = true → rac (.order .lt) = true) :=
  order_iff (fun _ => 0) rfl (by decide +kernel) (by decide +kernel) (by decide +kernel)

/-- None of `<`, `=` and `>` holds between the exact integer `2 ^ 53 + 1` and the double `2 ^ 53`. -/
theorem two53_incomparable :
    ¬∃ r, Answers withTwo53 (fun _ => 0) (.imm 9007199254740993) (.cell 0) r ∧ TotalOrder r := by
  rintro ⟨r, hr, h⟩
  have hanswer : ∀ op, r op = answer op (.exact 9007199254740993) (.real 0x4340000000000000) := by
    intro op
    have h1 := answers (s := withTwo53) (a := .imm 9007199254740993) (b := .cell 0)
      (m := .exact 9007199254740993) (n := .real 0x4340000000000000) rfl (by decide +kernel)
      (by decide +kernel) (fun _ => 0) .generic true 0 op
    rw [hr .generic true 0 op] at h1
    simpa using h1
  have hsum := h.trichotomy
  simp only [hanswer] at hsum
  exact absurd hsum (by decide +kernel)

end ShenRc.Primitive
