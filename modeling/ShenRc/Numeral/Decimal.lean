import Mathlib.Data.Nat.Digits.Lemmas
import Mathlib.Data.List.Basic
import Mathlib.Data.UInt

/-! # Decimal numerals as text

`decimal` is the text of `%zu`, `decimalInt` the text of `%lld`; `decimalValue` reads digits back, so
both are injective, and a numeral is delimited by any character that is not part of one. -/

namespace ShenRc.Numeral

/-- A text is a list of bytes. -/
abbrev Text := List UInt8

/-- The bytes of a string. -/
def ascii (s : String) : Text := s.toByteArray.data.toList

/-- A property of every byte, checked byte by byte. -/
theorem forall_byte {p : UInt8 → Bool} (h : ∀ n < 256, p (UInt8.ofNat n) = true) (c : UInt8) :
    p c = true := by
  simpa using h c.toNat c.toNat_lt

/-- What stands before the first separator and what stands after it. -/
theorem append_sep_inj {a b r s : Text} {c : UInt8} (ha : c ∉ a) (hb : c ∉ b)
    (h : a ++ c :: r = b ++ c :: s) : a = b ∧ r = s := by
  induction a generalizing b with
  | nil =>
    cases b with
    | nil => exact ⟨rfl, (List.cons.inj h).2⟩
    | cons d b => exact absurd (by simp [(List.cons.inj h).1]) hb
  | cons d a ih =>
    cases b with
    | nil => exact absurd (by simp [(List.cons.inj h).1]) ha
    | cons e b =>
      obtain ⟨rfl, ht⟩ := List.cons.inj h
      obtain ⟨rfl, hr⟩ := ih (fun hm => ha (by simp [hm])) (fun hm => hb (by simp [hm])) ht
      exact ⟨rfl, hr⟩

def digit (d : Nat) : UInt8 := UInt8.ofNat (48 + d)

def isDigit (c : UInt8) : Bool := 48 ≤ c && c ≤ 57

/-- **The decimal numeral of a natural number.** -/
def decimal (n : Nat) : Text := if n = 0 then [48] else (Nat.digits 10 n).reverse.map digit

/-- The decimal numeral of an integer. -/
def decimalInt : Int → Text
  | .ofNat n => decimal n
  | .negSucc n => 45 :: decimal (n + 1)

/-- The value of a row of digits. -/
def decimalValue (s : Text) : Nat := s.foldl (fun n c => n * 10 + (c.toNat - 48)) 0

theorem digit_toNat {d : Nat} (h : d < 10) : (digit d).toNat = 48 + d := by
  unfold digit
  rw [UInt8.toNat_ofNat_of_lt']
  show 48 + d < 256
  omega

theorem isDigit_iff {c : UInt8} : isDigit c = true ↔ 48 ≤ c.toNat ∧ c.toNat ≤ 57 := by
  simp [isDigit, UInt8.le_iff_toNat_le]

theorem isDigit_digit {d : Nat} (h : d < 10) : isDigit (digit d) = true := by
  rw [isDigit_iff, digit_toNat h]
  omega

theorem isDigit_decimal {n : Nat} : ∀ c ∈ decimal n, isDigit c = true := by
  intro c hc
  unfold decimal at hc
  split at hc
  · rw [List.mem_singleton.mp hc]
    decide
  · obtain ⟨d, hd, rfl⟩ := List.mem_map.mp hc
    exact isDigit_digit (Nat.digits_lt_base (by omega) (List.mem_reverse.mp hd))

theorem decimal_ne_nil (n : Nat) : decimal n ≠ [] := by
  unfold decimal
  split
  · simp
  next h => simpa using Nat.digits_ne_nil_iff_ne_zero.mpr h

theorem decimalValue_append (s : Text) (c : UInt8) :
    decimalValue (s ++ [c]) = decimalValue s * 10 + (c.toNat - 48) := by
  simp [decimalValue]

theorem decimalValue_digits {ds : List Nat} (h : ∀ d ∈ ds, d < 10) :
    decimalValue (ds.reverse.map digit) = Nat.ofDigits 10 ds := by
  induction ds with
  | nil => rfl
  | cons d ds ih =>
    rw [List.reverse_cons, List.map_append, List.map_singleton, decimalValue_append,
      ih fun e he => h e (by simp [he]), digit_toNat (h d (by simp)), Nat.ofDigits_cons]
    simp
    omega

/-- **A numeral reads back as its number.** -/
theorem decimalValue_decimal (n : Nat) : decimalValue (decimal n) = n := by
  unfold decimal
  split
  next h => rw [h]; rfl
  · rw [decimalValue_digits fun d hd => Nat.digits_lt_base (by omega) hd, Nat.ofDigits_digits]

theorem decimal_inj {m n : Nat} (h : decimal m = decimal n) : m = n := by
  rw [← decimalValue_decimal m, h, decimalValue_decimal]

theorem notMem_decimal {c : UInt8} (h : isDigit c = false) (n : Nat) : c ∉ decimal n := by
  intro hc
  rw [isDigit_decimal c hc] at h
  exact absurd h (by simp)

theorem notMem_decimalInt {c : UInt8} (h : isDigit c = false) (h45 : c ≠ 45) (k : Int) :
    c ∉ decimalInt k := by
  cases k with
  | ofNat n => exact notMem_decimal h n
  | negSucc n =>
    simp only [decimalInt, List.mem_cons, not_or]
    exact ⟨h45, notMem_decimal h _⟩

theorem decimalInt_inj {j k : Int} (h : decimalInt j = decimalInt k) : j = k := by
  have hsign : ∀ m n, decimal m ≠ 45 :: decimal n := by
    intro m n he
    exact notMem_decimal (c := 45) (by decide) m (he ▸ by simp)
  cases j with
  | ofNat m =>
    cases k with
    | ofNat n => exact congrArg _ (decimal_inj h)
    | negSucc n => exact absurd h (hsign _ _)
  | negSucc m =>
    cases k with
    | ofNat n => exact absurd h.symm (hsign _ _)
    | negSucc n =>
      have := decimal_inj (List.cons.inj h).2
      congr 1
      omega

end ShenRc.Numeral
