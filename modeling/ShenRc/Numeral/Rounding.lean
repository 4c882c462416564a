import Mathlib.Data.Rat.Cast.Order
import Mathlib.Tactic.FieldSimp
import ShenRc.Numeral.Double

/-! # The order of doubles and the conversion of integers

`position` places the doubles on a line of integers, a finite one at `unit` times its value. The
comparisons of C are those of the positions. `ofInt` is the conversion of an integer to a double,
which rounds to the nearest one and, half way between two, to the one with an even significand.

* `position_inj`: finite doubles at one position compare equal.
* `ofInt_mono`: the conversion keeps the order.
* `position_ofInt_of_exact`: an integer that is the value of some double is converted to that value. -/

namespace ShenRc.Numeral

/-! ### Rounding to a multiple of a power of two -/

/-- `n / 2 ^ s`, rounded to the nearest integer, half way to the even one. -/
def roundShift (n s : ℕ) : ℕ :=
  if 2 * (n % 2 ^ s) < 2 ^ s ∨ 2 * (n % 2 ^ s) = 2 ^ s ∧ n / 2 ^ s % 2 = 0 then n / 2 ^ s
  else n / 2 ^ s + 1

theorem le_roundShift (n s : ℕ) : n / 2 ^ s ≤ roundShift n s := by
  unfold roundShift
  split_ifs <;> omega

theorem roundShift_le (n s : ℕ) : roundShift n s ≤ n / 2 ^ s + 1 := by
  unfold roundShift
  split_ifs <;> omega

theorem roundShift_mul (q s : ℕ) : roundShift (q * 2 ^ s) s = q := by
  have hpos : 0 < 2 ^ s := Nat.two_pow_pos s
  unfold roundShift
  rw [Nat.mul_mod_left, if_pos (Or.inl (by omega)), Nat.mul_div_cancel q hpos]

theorem roundShift_mono {m n s : ℕ} (h : m ≤ n) : roundShift m s ≤ roundShift n s := by
  have hq : m / 2 ^ s ≤ n / 2 ^ s := Nat.div_le_div_right h
  rcases Nat.lt_or_ge (m / 2 ^ s) (n / 2 ^ s) with hlt | hge
  · calc roundShift m s ≤ m / 2 ^ s + 1 := roundShift_le m s
      _ ≤ n / 2 ^ s := hlt
      _ ≤ roundShift n s := le_roundShift n s
  · have he : m / 2 ^ s = n / 2 ^ s := le_antisymm hq hge
    have hr : m % 2 ^ s ≤ n % 2 ^ s := by
      have hm := Nat.div_add_mod m (2 ^ s)
      have hn := Nat.div_add_mod n (2 ^ s)
      rw [he] at hm
      omega
    unfold roundShift
    rw [he]
    split_ifs <;> omega

namespace Double

/-! ### The order -/

def isNan : Double → Bool
  | nan _ => true
  | _ => false

/-- The finest grid that doubles lie on has `2 ^ gridBits` steps between zero and one. -/
def gridBits : ℕ := 1074

theorem gridBits_eq : gridBits = 1074 := rfl

def unit : ℕ := 2 ^ gridBits

theorem pow_add_unit (k : ℕ) : 2 ^ (k + gridBits) = 2 ^ k * unit := Nat.pow_add 2 k gridBits

theorem unit_pos : 0 < unit := by
  unfold unit
  positivity

/-- The power of two that the significand is multiplied with, in steps of the grid. -/
def scale (exp : Fin 2047) : ℕ := 2 ^ (max exp.val 1 - 1)

/-- Where a double lies in the grid; the infinities are beyond every finite double. -/
def position : Double → ℤ
  | nan _ => 0
  | inf neg => withSign neg (2 ^ 2098)
  | finite neg exp frac => withSign neg (mantissa exp frac * scale exp)

/-- The comparison `<` of C. -/
def lt (a b : Double) : Bool := !a.isNan && !b.isNan && decide (position a < position b)

/-- The comparison `<=` of C. -/
def le (a b : Double) : Bool := !a.isNan && !b.isNan && decide (position a ≤ position b)

/-- **The number a finite double denotes.** -/
def toRat (d : Double) : ℚ := position d / unit

theorem position_finite (neg : Bool) (exp : Fin 2047) (frac : Fin (2 ^ 52)) :
    position (finite neg exp frac) = withSign neg (mantissa exp frac * scale exp) := rfl

theorem isNan_of_isFinite {d : Double} (h : d.isFinite = true) : d.isNan = false := by
  cases d with
  | nan => cases h
  | _ => rfl

theorem toRat_inj {a b : Double} : toRat a = toRat b ↔ position a = position b := by
  unfold toRat
  rw [div_left_inj' (by exact_mod_cast unit_pos.ne'), Int.cast_inj]

theorem toRat_eq_int {d : Double} {n : ℤ} : toRat d = n ↔ position d = n * unit := by
  unfold toRat
  rw [div_eq_iff (by exact_mod_cast unit_pos.ne'), ← Int.cast_natCast unit, ← Int.cast_mul,
    Int.cast_inj]

/-! ### The position of a finite double -/

theorem mantissa_lt (exp : Fin 2047) (frac : Fin (2 ^ 52)) : mantissa exp frac < 2 ^ 53 := by
  have := frac.isLt
  unfold mantissa
  split <;> omega

theorem le_mantissa {exp : Fin 2047} (frac : Fin (2 ^ 52)) (h : exp.val ≠ 0) :
    2 ^ 52 ≤ mantissa exp frac := by
  rw [mantissa, if_neg h]
  omega

theorem scale_pos (exp : Fin 2047) : 0 < scale exp := Nat.two_pow_pos _

/-- A larger exponent field means a larger number. -/
theorem magnitude_lt {d e : Fin 2047} {f g : Fin (2 ^ 52)} (h : d.val < e.val) :
    mantissa d f * scale d < mantissa e g * scale e := by
  have he : 2 ^ 52 ≤ mantissa e g := le_mantissa g (by omega)
  have hs : scale d ≤ scale e := Nat.pow_le_pow_right (by omega) (by omega)
  rcases Nat.eq_zero_or_pos d.val with hd | hd
  · have hm : mantissa d f < 2 ^ 52 := by rw [mantissa, if_pos hd]; exact f.isLt
    calc mantissa d f * scale d < 2 ^ 52 * scale d :=
          (Nat.mul_lt_mul_right (scale_pos d)).mpr hm
      _ ≤ mantissa e g * scale e := Nat.mul_le_mul he hs
  · have h2 : 2 * scale d ≤ scale e := by
      unfold scale
      rw [← Nat.pow_succ']
      exact Nat.pow_le_pow_right (by omega) (by omega)
    calc mantissa d f * scale d < 2 ^ 53 * scale d :=
          (Nat.mul_lt_mul_right (scale_pos d)).mpr (mantissa_lt d f)
      _ = 2 ^ 52 * (2 * scale d) := by ring
      _ ≤ mantissa e g * scale e := Nat.mul_le_mul he h2

theorem magnitude_inj {d e : Fin 2047} {f g : Fin (2 ^ 52)}
    (h : mantissa d f * scale d = mantissa e g * scale e) : d = e ∧ f = g := by
  obtain hlt | heq | hgt := Nat.lt_trichotomy d.val e.val
  · exact absurd h (magnitude_lt hlt).ne
  · obtain rfl : d = e := Fin.ext heq
    have hm := Nat.eq_of_mul_eq_mul_right (scale_pos d) h
    refine ⟨rfl, Fin.ext ?_⟩
    unfold mantissa at hm
    split at hm <;> omega
  · exact absurd h (magnitude_lt hgt).ne'

theorem magnitude_eq_zero {e : Fin 2047} {f : Fin (2 ^ 52)} :
    mantissa e f * scale e = 0 ↔ e.val = 0 ∧ f.val = 0 := by
  rw [Nat.mul_eq_zero, or_iff_left (scale_pos e).ne', mantissa]
  split <;> omega

theorem withSign_eq {s t : Bool} {m n : ℕ} :
    withSign s m = withSign t n ↔ s = t ∧ m = n ∨ m = 0 ∧ n = 0 := by
  unfold withSign
  cases s <;> cases t <;> simp <;> omega

theorem isZero_iff {s : Bool} {e : Fin 2047} {f : Fin (2 ^ 52)} :
    isZero (finite s e f) = true ↔ mantissa e f * scale e = 0 := by
  rw [magnitude_eq_zero, isZero, Bool.and_eq_true, decide_eq_true_iff, decide_eq_true_iff]

/-- **Finite doubles at one position compare equal, and no others.** -/
theorem position_inj {a b : Double} (ha : a.isFinite = true) (hb : b.isFinite = true) :
    position a = position b ↔ a.eq b = true := by
  cases a with
  | finite s d f =>
    cases b with
    | finite t e g =>
      have hm : mantissa d f * scale d = mantissa e g * scale e ↔ d = e ∧ f = g :=
        ⟨magnitude_inj, fun ⟨h1, h2⟩ => by rw [h1, h2]⟩
      simp only [eq, position, withSign_eq, hm, Bool.or_eq_true, decide_eq_true_iff,
        Bool.and_eq_true, isZero_iff, finite.injEq]
    | _ => cases hb
  | _ => cases ha

/-! ### The integer that a double equals -/

theorem withSign_mul (s : Bool) (m k : ℕ) : withSign s (m * k) = withSign s m * k := by
  unfold withSign
  cases s <;> simp

theorem withSign_natAbs (n : ℤ) : withSign (n < 0) n.natAbs = n := by
  unfold withSign
  split
  next h =>
    have := of_decide_eq_true h
    omega
  next h =>
    have := of_decide_eq_false (Bool.eq_false_iff.mpr h)
    omega

theorem natAbs_withSign (s : Bool) (m : ℕ) : (withSign s m).natAbs = m := by
  unfold withSign
  cases s <;> simp

theorem scale_of_le {e : Fin 2047} (h : 1075 ≤ max e.val 1) :
    scale e = 2 ^ (max e.val 1 - 1075) * unit := by
  have hg := gridBits_eq
  unfold scale unit
  rw [← Nat.pow_add]
  congr 1
  omega

theorem scale_of_lt {e : Fin 2047} (h : ¬1075 ≤ max e.val 1) :
    2 ^ (1075 - max e.val 1) * scale e = unit := by
  have hg := gridBits_eq
  unfold scale unit
  rw [← Nat.pow_add]
  congr 1
  omega

/-- `toInt?` finds the integer that a finite double equals. -/
theorem toInt?_eq_some {d : Double} (hd : d.isFinite = true) {n : ℤ} :
    d.toInt? = some n ↔ position d = n * unit := by
  have hu : (unit : ℤ) ≠ 0 := by exact_mod_cast unit_pos.ne'
  cases d with
  | finite s e f =>
    simp only [toInt?, position]
    split_ifs with hlarge hdvd
    · rw [scale_of_le hlarge, ← Nat.mul_assoc, withSign_mul s _ unit, mul_left_inj' hu,
        Option.some.injEq]
    · obtain ⟨q, hq⟩ := hdvd
      have hm : mantissa e f * scale e = q * unit := by
        rw [hq, ← scale_of_lt hlarge]
        ring
      rw [hm, withSign_mul, mul_left_inj' hu, hq, Nat.mul_div_cancel_left q (Nat.two_pow_pos _),
        Option.some.injEq]
    · refine iff_of_false (by simp) fun h => hdvd ⟨n.natAbs, ?_⟩
      have habs : mantissa e f * scale e = n.natAbs * unit := by
        have := congrArg Int.natAbs h
        rwa [natAbs_withSign, Int.natAbs_mul, Int.natAbs_natCast] at this
      rw [← scale_of_lt hlarge] at habs
      refine Nat.eq_of_mul_eq_mul_right (scale_pos e) ?_
      rw [habs]
      ring
  | _ => cases hd

/-! ### The conversion of integers -/

/-- The significand of `n`, rounded: between `2 ^ 52` and `2 ^ 53` for a positive number. -/
def significand (n : ℕ) : ℕ :=
  if Nat.log2 n ≤ 52 then n * 2 ^ (52 - Nat.log2 n) else roundShift n (Nat.log2 n - 52)

/-- The double whose exponent and fraction fields are those of a number of 63 bits. Too large an
exponent is an infinity. -/
def ofFields (neg : Bool) (fields : ℕ) : Double :=
  if h : fields / 2 ^ 52 < 2047 then
    finite neg ⟨fields / 2 ^ 52, h⟩ ⟨fields % 2 ^ 52, Nat.mod_lt _ (Nat.two_pow_pos 52)⟩
  else inf neg

/-- **The conversion `(double)n` of C**, under the default rounding mode. A significand that is
rounded up to `2 ^ 53` carries into the exponent field. -/
def ofInt (n : ℤ) : Double :=
  if n = 0 then zero
  else ofFields (n < 0) ((1022 + Nat.log2 n.natAbs) * 2 ^ 52 + significand n.natAbs)

theorem le_significand {n : ℕ} (h : n ≠ 0) : 2 ^ 52 ≤ significand n := by
  have hl : 2 ^ Nat.log2 n ≤ n := Nat.log2_self_le h
  unfold significand
  split_ifs with hsmall
  · calc 2 ^ 52 = 2 ^ Nat.log2 n * 2 ^ (52 - Nat.log2 n) := by
          rw [← Nat.pow_add]
          congr 1
          omega
      _ ≤ n * 2 ^ (52 - Nat.log2 n) := Nat.mul_le_mul_right _ hl
  · refine le_trans ?_ (le_roundShift n _)
    rw [Nat.le_div_iff_mul_le (Nat.two_pow_pos _), ← Nat.pow_add]
    refine le_trans (Nat.pow_le_pow_right (by omega) (by omega)) hl

theorem significand_le (n : ℕ) : significand n ≤ 2 ^ 53 := by
  have hl : n < 2 ^ (Nat.log2 n + 1) := Nat.lt_log2_self
  unfold significand
  split_ifs with hsmall
  · calc n * 2 ^ (52 - Nat.log2 n) ≤ 2 ^ (Nat.log2 n + 1) * 2 ^ (52 - Nat.log2 n) :=
          Nat.mul_le_mul_right _ hl.le
      _ = 2 ^ 53 := by
          rw [← Nat.pow_add]
          congr 1
          omega
  · refine le_trans (roundShift_le n _) ?_
    rw [Nat.succ_le_iff, Nat.div_lt_iff_lt_mul (Nat.two_pow_pos _), ← Nat.pow_add]
    exact lt_of_lt_of_le hl (Nat.pow_le_pow_right (by omega) (by omega))

theorem position_of_fields_pos (neg : Bool) {fields : ℕ} (hpos : fields / 2 ^ 52 ≠ 0)
    (hlt : fields / 2 ^ 52 < 2047) :
    position (ofFields neg fields) =
      withSign neg ((2 ^ 52 + fields % 2 ^ 52) * 2 ^ (fields / 2 ^ 52 - 1)) := by
  have hmax : max (fields / 2 ^ 52) 1 = fields / 2 ^ 52 := Nat.max_eq_left (Nat.pos_of_ne_zero hpos)
  rw [ofFields, dif_pos hlt, position_finite, mantissa, if_neg hpos, scale, hmax]

theorem position_ofFields (neg : Bool) {e m : ℕ} (he : e + 2 < 2047) (hlo : 2 ^ 52 ≤ m)
    (hhi : m ≤ 2 ^ 53) : position (ofFields neg (e * 2 ^ 52 + m)) = withSign neg (m * 2 ^ e) := by
  rcases Nat.lt_or_ge m (2 ^ 53) with hlt | hge
  · have hdiv : (e * 2 ^ 52 + m) / 2 ^ 52 = e + 1 := by omega
    have hmod : 2 ^ 52 + (e * 2 ^ 52 + m) % 2 ^ 52 = m := by omega
    rw [position_of_fields_pos neg (by omega) (by omega), hmod, hdiv, Nat.add_sub_cancel]
  · -- The significand has been rounded up to the next power of two.
    have hdiv : (e * 2 ^ 52 + m) / 2 ^ 52 - 1 = e + 1 := by omega
    have hmod : 2 ^ 52 + (e * 2 ^ 52 + m) % 2 ^ 52 = 2 ^ 52 := by omega
    have hm : m = 2 ^ 52 * 2 := by omega
    rw [position_of_fields_pos neg (by omega) (by omega), hmod, hdiv, hm, pow_succ' 2 e,
      Nat.mul_assoc]

/-- How far from zero a converted integer lies. -/
def magnitude (n : ℕ) : ℕ := significand n * 2 ^ (1022 + Nat.log2 n)

theorem log2_le_63 {n : ℤ} (hlo : -2 ^ 63 ≤ n) (hhi : n < 2 ^ 63) (h0 : n ≠ 0) :
    Nat.log2 n.natAbs ≤ 63 := by
  have : Nat.log2 n.natAbs < 64 := (Nat.log2_lt (by omega)).mpr (by omega)
  omega

theorem position_ofInt {n : ℤ} (hlo : -2 ^ 63 ≤ n) (hhi : n < 2 ^ 63) (h0 : n ≠ 0) :
    position (ofInt n) = withSign (n < 0) (magnitude n.natAbs) := by
  have hl := log2_le_63 hlo hhi h0
  have he : 1022 + Nat.log2 n.natAbs + 2 < 2047 := by omega
  have hs : 2 ^ 52 ≤ significand n.natAbs := le_significand (Int.natAbs_ne_zero.mpr h0)
  rw [ofInt, if_neg h0]
  exact position_ofFields _ he hs (significand_le _)

theorem position_zero : position zero = 0 := by
  simp [zero, position, mantissa, withSign]

theorem ofFields_isFinite (neg : Bool) {fields : ℕ} (h : fields / 2 ^ 52 < 2047) :
    (ofFields neg fields).isFinite = true := by
  rw [ofFields, dif_pos h]
  rfl

theorem ofInt_isFinite {n : ℤ} (hlo : -2 ^ 63 ≤ n) (hhi : n < 2 ^ 63) :
    (ofInt n).isFinite = true := by
  unfold ofInt
  split_ifs with h0
  · rfl
  · have hl := log2_le_63 hlo hhi h0
    have hs := significand_le n.natAbs
    exact ofFields_isFinite _ (by omega)

/-! ### It keeps the order -/

theorem significand_mono {m n : ℕ} (h : m ≤ n) (hlog : Nat.log2 m = Nat.log2 n) :
    significand m ≤ significand n := by
  unfold significand
  rw [hlog]
  split_ifs
  · exact Nat.mul_le_mul_right _ h
  · exact roundShift_mono h

theorem magnitude_mono {m n : ℕ} (hm : m ≠ 0) (h : m ≤ n) : magnitude m ≤ magnitude n := by
  have hlog : Nat.log2 m ≤ Nat.log2 n := (Nat.le_log2 (by omega)).mpr ((Nat.log2_self_le hm).trans h)
  unfold magnitude
  rcases Nat.eq_or_lt_of_le hlog with heq | hlt
  · rw [heq]
    exact Nat.mul_le_mul_right _ (significand_mono h heq)
  · calc significand m * 2 ^ (1022 + Nat.log2 m) ≤ 2 ^ 53 * 2 ^ (1022 + Nat.log2 m) :=
          Nat.mul_le_mul_right _ (significand_le m)
      _ = 2 ^ 52 * 2 ^ (1022 + Nat.log2 m + 1) := by
          rw [pow_succ (2 : ℕ) (1022 + Nat.log2 m)]
          generalize 2 ^ (1022 + Nat.log2 m) = k
          omega
      _ ≤ significand n * 2 ^ (1022 + Nat.log2 n) :=
          Nat.mul_le_mul (le_significand (by omega)) (Nat.pow_le_pow_right (by omega) (by omega))

/-- **The conversion keeps the order.** -/
theorem ofInt_mono {m n : ℤ} (hm : -2 ^ 63 ≤ m) (hn : n < 2 ^ 63) (h : m ≤ n) :
    position (ofInt m) ≤ position (ofInt n) := by
  have hpos : ∀ k : ℤ, -2 ^ 63 ≤ k → k < 2 ^ 63 → 0 ≤ k → 0 ≤ position (ofInt k) := by
    intro k h1 h2 hk
    rcases eq_or_ne k 0 with rfl | h0
    · exact position_zero.ge
    · rw [position_ofInt h1 h2 h0, decide_eq_false (by omega)]
      exact Int.natCast_nonneg _
  have hneg : ∀ k : ℤ, -2 ^ 63 ≤ k → k < 2 ^ 63 → k < 0 →
      position (ofInt k) = -(magnitude k.natAbs : ℤ) := by
    intro k h1 h2 hk
    rw [position_ofInt h1 h2 (by omega), decide_eq_true hk]
    rfl
  rcases lt_or_ge m 0 with hm0 | hm0
  · rcases lt_or_ge n 0 with hn0 | hn0
    · rw [hneg m hm (by omega) hm0, hneg n (by omega) hn hn0]
      have := magnitude_mono (m := n.natAbs) (n := m.natAbs) (by omega) (by omega)
      omega
    · rw [hneg m hm (by omega) hm0]
      have := hpos n (by omega) hn hn0
      omega
  · rcases eq_or_ne m 0 with rfl | h0
    · exact (hpos n (by omega) hn h).trans' position_zero.le
    · rw [position_ofInt hm (by omega) h0, position_ofInt (by omega) hn (by omega),
        decide_eq_false (by omega), decide_eq_false (by omega)]
      exact Int.ofNat_le.mpr (magnitude_mono (by omega) (by omega))

/-! ### It is exact where it can be -/

theorem magnitude_exact {n : ℕ} (h0 : n ≠ 0) {e : Fin 2047} {f : Fin (2 ^ 52)}
    (h : mantissa e f * scale e = n * unit) : magnitude n = n * unit := by
  have hl : 2 ^ Nat.log2 n ≤ n := Nat.log2_self_le h0
  have hg := gridBits_eq
  unfold magnitude significand
  split_ifs with hsmall
  · have hexp : 52 - Nat.log2 n + (1022 + Nat.log2 n) = 0 + gridBits := by omega
    rw [Nat.mul_assoc, ← Nat.pow_add, hexp, pow_add_unit, pow_zero, Nat.one_mul]
  · -- The significand of the double leaves its scale at least `2 ^ (log2 n + 1022)`.
    have hexp : 1022 + Nat.log2 n ≤ max e.val 1 - 1 := by
      have hlt : 2 ^ (Nat.log2 n + gridBits) < 2 ^ (53 + (max e.val 1 - 1)) := by
        calc 2 ^ (Nat.log2 n + gridBits) = 2 ^ Nat.log2 n * unit := pow_add_unit _
          _ ≤ n * unit := Nat.mul_le_mul_right _ hl
          _ = mantissa e f * scale e := h.symm
          _ < 2 ^ 53 * scale e := (Nat.mul_lt_mul_right (scale_pos e)).mpr (mantissa_lt e f)
          _ = 2 ^ (53 + (max e.val 1 - 1)) := by rw [Nat.pow_add, scale]
      have := (Nat.pow_lt_pow_iff_right (by omega)).mp hlt
      omega
    have hdvd : 2 ^ (Nat.log2 n - 52) ∣ n := by
      have hscale : 2 ^ (1022 + Nat.log2 n) ∣ n * unit := by
        rw [← h]
        exact Dvd.dvd.mul_left (pow_dvd_pow 2 hexp) _
      have hsplit : 2 ^ (1022 + Nat.log2 n) = 2 ^ (Nat.log2 n - 52) * unit := by
        rw [← pow_add_unit]
        congr 1
        omega
      rw [hsplit] at hscale
      exact Nat.dvd_of_mul_dvd_mul_right unit_pos hscale
    obtain ⟨q, hq⟩ := hdvd
    have hround : roundShift n (Nat.log2 n - 52) = q := by
      generalize Nat.log2 n - 52 = k at hq
      rw [hq, Nat.mul_comm, roundShift_mul]
    calc roundShift n (Nat.log2 n - 52) * 2 ^ (1022 + Nat.log2 n)
        = q * (2 ^ (Nat.log2 n - 52) * unit) := by
          rw [hround, ← pow_add_unit]
          congr 2
          omega
      _ = n * unit := by rw [← Nat.mul_assoc, Nat.mul_comm q, ← hq]

/-- **An integer that some double equals is converted to that number.** -/
theorem position_ofInt_of_exact {n : ℤ} (hlo : -2 ^ 63 ≤ n) (hhi : n < 2 ^ 63) {d : Double}
    (hd : d.isFinite = true) (h : position d = n * unit) : position (ofInt n) = position d := by
  rw [h]
  rcases eq_or_ne n 0 with rfl | h0
  · rw [Int.zero_mul]
    exact position_zero
  · cases d with
    | finite s e f =>
      have habs : mantissa e f * scale e = n.natAbs * unit := by
        have := congrArg Int.natAbs h
        rwa [position, natAbs_withSign, Int.natAbs_mul, Int.natAbs_natCast] at this
      rw [position_ofInt hlo hhi h0, magnitude_exact (by omega) habs, withSign_mul,
        withSign_natAbs]
    | _ => cases hd

end Double

end ShenRc.Numeral
