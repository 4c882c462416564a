import ShenRc.Numeral.Decimal

/-! # Binary64 numbers as data

A double is a sign with an exponent and a fraction field; of a NaN only the sign is kept, since no
operation of a C program here reads its payload. `toInt?` is the integer a finite double equals, if
there is one, and `hexFloat` the text of `%a`, which determines the double (`hexFloat_inj`). -/

namespace ShenRc.Numeral

inductive Double where
  | nan (neg : Bool)
  | inf (neg : Bool)
  | finite (neg : Bool) (exp : Fin 2047) (frac : Fin (2 ^ 52))
  deriving DecidableEq

namespace Double

def zero : Double := .finite false 0 0

def negZero : Double := .finite true 0 0

def one : Double := .finite false 1023 0

/-- The double with a bit pattern. -/
def ofBits (bits : UInt64) : Double :=
  let neg : Bool := 2 ^ 63 ≤ bits.toNat
  let exp := bits.toNat / 2 ^ 52 % 2 ^ 11
  let frac : Fin (2 ^ 52) := ⟨bits.toNat % 2 ^ 52, Nat.mod_lt _ (by decide)⟩
  if h : exp < 2047 then .finite neg ⟨exp, h⟩ frac
  else if frac.val = 0 then .inf neg
  else .nan neg

def withSign (neg : Bool) (m : Nat) : Int := if neg then -m else m

/-- The significand as an integer: a double is `± mantissa * 2 ^ (max exp 1 - 1075)`. -/
def mantissa (exp : Fin 2047) (frac : Fin (2 ^ 52)) : Nat :=
  if exp.val = 0 then frac.val else 2 ^ 52 + frac.val

/-- **The integer a double equals**, if it is finite and has no fractional part. -/
def toInt? : Double → Option Int
  | finite neg exp frac =>
    let e := max exp.val 1
    let m := mantissa exp frac
    if 1075 ≤ e then some (withSign neg (m * 2 ^ (e - 1075)))
    else if 2 ^ (1075 - e) ∣ m then some (withSign neg (m / 2 ^ (1075 - e)))
    else none
  | _ => none

def isFinite : Double → Bool
  | finite .. => true
  | _ => false

def isZero : Double → Bool
  | finite _ exp frac => exp.val = 0 && frac.val = 0
  | _ => false

/-- The comparison `==` of C. -/
def eq (a b : Double) : Bool :=
  match a, b with
  | nan _, _ => false
  | _, nan _ => false
  | a, b => a = b || (isZero a && isZero b)

theorem toInt?_of_isZero {d : Double} (h : d.isZero = true) : d.toInt? = some 0 := by
  cases d with
  | finite neg exp frac =>
    simp only [isZero, Bool.and_eq_true, decide_eq_true_eq] at h
    have hm : mantissa exp frac = 0 := by rw [mantissa, if_pos h.1, h.2]
    have hs : ∀ k, withSign neg (0 * k) = 0 ∧ withSign neg (0 / k) = 0 := by
      intro k
      rw [Nat.zero_mul, Nat.zero_div]
      cases neg <;> exact ⟨rfl, rfl⟩
    simp only [toInt?, hm]
    split_ifs with h1 h2
    · rw [(hs _).1]
    · rw [(hs _).2]
    · exact absurd (dvd_zero _) h2
  | _ => cases h

/-- Doubles that compare equal are the same, but for the sign of zero. -/
theorem eq_cases {a b : Double} (h : a.eq b = true) :
    a = b ∨ a.isZero = true ∧ b.isZero = true := by
  unfold eq at h
  split at h
  · cases h
  · cases h
  · simpa using h

/-! ### The text of `%a` -/

def hexDigit (d : Nat) : UInt8 := if d < 10 then UInt8.ofNat (48 + d) else UInt8.ofNat (87 + d)

/-- The first `n` hexadecimal digits of a fraction below `16 ^ n`, up to the last that is not zero. -/
def hexFraction : Nat → Nat → Text
  | 0, _ => []
  | n + 1, f => if f = 0 then [] else hexDigit (f / 16 ^ n) :: hexFraction n (f % 16 ^ n)

def signText (neg : Bool) : Text := if neg then [45] else []

/-- A binary exponent with its sign. -/
def exponentText (e : Int) : Text :=
  if e < 0 then 45 :: decimal e.natAbs else 43 :: decimal e.natAbs

/-- The digits of the fraction field after the point, none for zero. -/
def fractionText (f : Nat) : Text := if f = 0 then [] else 46 :: hexFraction 13 f

/-- The digit before the point: zero for a subnormal number. -/
def leadDigit (exp : Fin 2047) : UInt8 := if exp.val = 0 then 48 else 49

/-- The binary exponent that is printed. -/
def exponent (exp : Fin 2047) (frac : Fin (2 ^ 52)) : Int :=
  if exp.val = 0 then (if frac.val = 0 then 0 else -1022) else exp.val - 1023

/-- The text after `0x`. -/
def hexBody (exp : Fin 2047) (frac : Fin (2 ^ 52)) : Text :=
  leadDigit exp :: (fractionText frac.val ++ 112 :: exponentText (exponent exp frac))

/-- **The text of `%a`.** -/
def hexFloat : Double → Text
  | nan neg => signText neg ++ [110, 97, 110]
  | inf neg => signText neg ++ [105, 110, 102]
  | finite neg exp frac => signText neg ++ 48 :: 120 :: hexBody exp frac

/-! ### It determines the double -/

theorem hexDigit_toNat {d : Nat} (h : d < 16) :
    (hexDigit d).toNat = if d < 10 then 48 + d else 87 + d := by
  unfold hexDigit
  split
  all_goals
    rw [UInt8.toNat_ofNat_of_lt']
    show _ < 256
    omega

theorem hexDigit_inj {c d : Nat} (hc : c < 16) (hd : d < 16) (h : hexDigit c = hexDigit d) :
    c = d := by
  have := congrArg UInt8.toNat h
  rw [hexDigit_toNat hc, hexDigit_toNat hd] at this
  split at this <;> split at this <;> omega

theorem hexFraction_inj (n : Nat) {f g : Nat} (hf : f < 16 ^ n) (hg : g < 16 ^ n)
    (h : hexFraction n f = hexFraction n g) : f = g := by
  induction n generalizing f g with
  | zero => omega
  | succ n ih =>
    unfold hexFraction at h
    have hpos : 0 < 16 ^ n := by positivity
    rw [pow_succ] at hf hg
    split at h <;> split at h
    · omega
    · exact absurd h (by simp)
    · exact absurd h (by simp)
    · obtain ⟨hd, ht⟩ := List.cons.inj h
      have h1 := hexDigit_inj (Nat.div_lt_of_lt_mul hf) (Nat.div_lt_of_lt_mul hg) hd
      have h2 := ih (Nat.mod_lt f hpos) (Nat.mod_lt g hpos) ht
      rw [← Nat.div_add_mod f (16 ^ n), ← Nat.div_add_mod g (16 ^ n), h1, h2]

theorem fractionText_inj {f g : Nat} (hf : f < 2 ^ 52) (hg : g < 2 ^ 52)
    (h : fractionText f = fractionText g) : f = g := by
  unfold fractionText at h
  split at h <;> split at h
  · omega
  · exact absurd h (by simp)
  · exact absurd h (by simp)
  · exact hexFraction_inj 13 hf hg (List.cons.inj h).2

theorem exponentText_inj {d e : Int} (h : exponentText d = exponentText e) : d = e := by
  unfold exponentText at h
  split at h <;> split at h
  · have := decimal_inj (List.cons.inj h).2
    omega
  · exact absurd (List.cons.inj h).1 (by decide)
  · exact absurd (List.cons.inj h).1 (by decide)
  · have := decimal_inj (List.cons.inj h).2
    omega

theorem isHexDigit_range {n f : Nat} (hf : f < 16 ^ n) :
    ∀ c ∈ hexFraction n f, (48 ≤ c.toNat ∧ c.toNat ≤ 57) ∨ (97 ≤ c.toNat ∧ c.toNat ≤ 102) := by
  induction n generalizing f with
  | zero => simp [hexFraction]
  | succ n ih =>
    intro c hc
    rw [pow_succ] at hf
    unfold hexFraction at hc
    split at hc
    · exact absurd hc (by simp)
    · rcases List.mem_cons.mp hc with rfl | hc
      · have hd : f / 16 ^ n < 16 := Nat.div_lt_of_lt_mul hf
        rw [hexDigit_toNat hd]
        generalize f / 16 ^ n = d at hd
        split <;> omega
      · exact ih (Nat.mod_lt f (by positivity)) c hc

theorem mem_fractionText {f : Nat} (hf : f < 2 ^ 52) {c : UInt8} (h : c ∈ fractionText f) :
    c.toNat ≤ 102 ∧ c.toNat ≠ 59 := by
  unfold fractionText at h
  split at h
  · exact absurd h (by simp)
  · rcases List.mem_cons.mp h with rfl | h
    · decide
    · have := isHexDigit_range (n := 13) hf c h
      omega

theorem hexBody_inj {d e : Fin 2047} {f g : Fin (2 ^ 52)} (h : hexBody d f = hexBody e g) :
    d = e ∧ f = g := by
  have hp : ∀ f : Fin (2 ^ 52), (112 : UInt8) ∉ fractionText f.val := fun f hm => by
    have := (mem_fractionText f.isLt hm).1
    exact absurd this (by decide)
  obtain ⟨hlead, ht⟩ := List.cons.inj h
  obtain ⟨hfrac, hexp⟩ := append_sep_inj (hp f) (hp g) ht
  obtain rfl : f = g := Fin.ext (fractionText_inj f.isLt g.isLt hfrac)
  refine ⟨Fin.ext ?_, rfl⟩
  have he := exponentText_inj hexp
  unfold leadDigit at hlead
  unfold exponent at he
  split at hlead
  next hd =>
    split at hlead
    · omega
    · exact absurd hlead (by decide)
  next hd =>
    split at hlead
    · exact absurd hlead (by decide)
    next h0 =>
      rw [if_neg hd, if_neg h0] at he
      omega

/-- The text after the sign. -/
def hexTail : Double → Text
  | nan _ => [110, 97, 110]
  | inf _ => [105, 110, 102]
  | finite _ exp frac => 48 :: 120 :: hexBody exp frac

def sign : Double → Bool
  | nan neg => neg
  | inf neg => neg
  | finite neg _ _ => neg

theorem hexFloat_eq (a : Double) : hexFloat a = signText (sign a) ++ hexTail a := by
  cases a <;> rfl

theorem hexTail_head (a : Double) (t : Text) : hexTail a ≠ 45 :: t := by
  cases a <;> simp [hexTail]

/-- **The text of `%a` determines the double.** -/
theorem hexFloat_inj {a b : Double} (h : hexFloat a = hexFloat b) : a = b := by
  rw [hexFloat_eq, hexFloat_eq] at h
  have hs : sign a = sign b ∧ hexTail a = hexTail b := by
    cases ha : sign a <;> cases hb : sign b <;> rw [ha, hb] at h <;>
      simp only [signText, Bool.false_eq_true, ↓reduceIte, List.nil_append, List.cons_append] at h
    · exact ⟨rfl, h⟩
    · exact absurd h (hexTail_head a _)
    · exact absurd h.symm (hexTail_head b _)
    · exact ⟨rfl, (List.cons.inj h).2⟩
  obtain ⟨hsign, htail⟩ := hs
  cases a <;> cases b <;> simp only [sign] at hsign
  case nan.nan => rw [hsign]
  case inf.inf => rw [hsign]
  case finite.finite =>
    obtain ⟨rfl, rfl⟩ := hexBody_inj (List.cons.inj (List.cons.inj htail).2).2
    rw [hsign]
  all_goals exact absurd (List.cons.inj htail).1 (by decide)

theorem semicolon_notMem_hexFloat (a : Double) : (59 : UInt8) ∉ hexFloat a := by
  have hexp : ∀ e : Int, (59 : UInt8) ∉ exponentText e := by
    intro e
    unfold exponentText
    split <;> simp only [List.mem_cons, not_or] <;>
      exact ⟨by decide, notMem_decimal (by decide) _⟩
  have hfrac : ∀ f : Fin (2 ^ 52), (59 : UInt8) ∉ fractionText f.val := fun f hm =>
    (mem_fractionText f.isLt hm).2 rfl
  rw [hexFloat_eq]
  simp only [List.mem_append, not_or]
  refine ⟨by unfold signText; split <;> decide, ?_⟩
  cases a with
  | nan => simp only [hexTail]; decide
  | inf => simp only [hexTail]; decide
  | finite neg e f =>
    simp only [hexTail, hexBody, List.mem_cons, List.mem_append, not_or]
    exact ⟨by decide, by decide, by unfold leadDigit; split <;> decide, hfrac f, by decide, hexp _⟩

end Double

end ShenRc.Numeral
