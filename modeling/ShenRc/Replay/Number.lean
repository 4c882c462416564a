import Mathlib.Data.List.TakeWhile
import ShenRc.Replay.Parser
import ShenRc.Numeral.Double
import ShenRc.Hash.Native

/-! # Numbers in a recording

A recording has decimal numbers up to a delimiter and hexadecimal words of sixteen digits. Reading is
`strtol` and `strtoull`, with all that they accept; what is written is read back. -/

namespace ShenRc.Replay

open Numeral Numeral.Double

/-! ### Reading -/

/-- `isspace`, in the C locale. -/
def isSpace (c : UInt8) : Bool := c = 32 || (9 ≤ c && c ≤ 13)

/-- What `strtol` and `strtoull` look at first: the blanks of a C string are skipped, then there may
be a sign. -/
def signed (buf : Text) : Bool × Text :=
  match (buf.takeWhile (· ≠ 0)).dropWhile isSpace with
  | 45 :: s => (true, s)
  | 43 :: s => (false, s)
  | s => (false, s)

/-- `strtol(buf,&end,10)`, if it gets to the end of the string. -/
def strtol (buf : Text) : Option Int64 :=
  let (neg, s) := signed buf
  if s ≠ [] ∧ s.all isDigit = true then
    let n : ℤ := if neg then -decimalValue s else decimalValue s
    some (Int64.ofInt (max (-2 ^ 63) (min n (2 ^ 63 - 1))))
  else none

def hexDigitValue (c : UInt8) : Option ℕ :=
  if isDigit c then some (c.toNat - 48)
  else if 97 ≤ c ∧ c ≤ 102 then some (c.toNat - 87)
  else if 65 ≤ c ∧ c ≤ 70 then some (c.toNat - 55)
  else none

/-- The prefix `0x` is skipped if a digit follows. -/
def unprefixed : Text → Text
  | 48 :: x :: c :: s =>
    if (x = 120 ∨ x = 88) ∧ (hexDigitValue c).isSome = true then c :: s else 48 :: x :: c :: s
  | s => s

/-- `strtoull(buf,&end,16)` of at most sixteen bytes, if it gets to the end of the string. -/
def strtoull (buf : Text) : Option UInt64 :=
  let (neg, s) := signed buf
  match (unprefixed s).mapM hexDigitValue with
  | some (d :: ds) =>
    let n := UInt64.ofNat ((d :: ds).foldl (fun n d => n * 16 + d) 0)
    some (if neg then -n else n)
  | _ => none

/-- `p_number_until`. -/
def numberUntil (stop : UInt8) : Parser UInt8 Int64 := do
  let buf ← Parser.upTo stop
  if buf.length = 0 ∨ 64 ≤ buf.length then Parser.fail else Parser.ofOption (strtol buf)

/-- `p_take` of sixteen bytes, and `strtoull`. -/
def word : Parser UInt8 UInt64 := do
  let buf ← Parser.take 16
  Parser.ofOption (strtoull buf)

theorem numberUntil_local (stop : UInt8) : (numberUntil stop).Local :=
  (Parser.Local.upTo stop).bind fun _ => .ite .fail (.ofOption _)

theorem word_local : word.Local := (Parser.Local.take 16).bind fun _ => .ofOption _

theorem numberUntil_takes (stop : UInt8) : (numberUntil stop).Takes 0 :=
  (Parser.Takes.upTo stop).bind fun _ => .ite (.fail 0) (.ofOption _)

theorem word_takes : word.Takes 0 := (Parser.Takes.take 16).bind fun _ => .ofOption _

/-! ### Decimal numbers -/

theorem takeWhile_noNul {s : Text} (h : (0 : UInt8) ∉ s) : s.takeWhile (· ≠ 0) = s := by
  refine List.takeWhile_eq_self_iff.mpr fun c hc => decide_eq_true fun h0 => ?_
  exact h (h0 ▸ hc)

theorem not_isSpace_of_isDigit {c : UInt8} (h : isDigit c = true) : isSpace c = false := by
  rw [isDigit_iff] at h
  unfold isSpace
  rw [Bool.or_eq_false_iff, Bool.and_eq_false_iff]
  have hne : c ≠ 32 := fun h32 => by
    rw [h32] at h
    exact absurd h (by decide)
  refine ⟨decide_eq_false hne, Or.inr (decide_eq_false fun hle => ?_)⟩
  have : c.toNat ≤ 13 := hle
  omega

theorem nul_notMem_decimal (n : ℕ) : (0 : UInt8) ∉ decimal n := notMem_decimal (by decide) n

/-- A row of digits has no sign. -/
theorem signed_digits {s : Text} (h : ∀ c ∈ s, isDigit c = true) (hne : s ≠ []) :
    signed s = (false, s) := by
  have hnul : (0 : UInt8) ∉ s := fun h0 => absurd (h 0 h0) (by decide)
  unfold signed
  rw [takeWhile_noNul hnul]
  rcases s with _ | ⟨c, s⟩
  · exact absurd rfl hne
  · have hc := h c List.mem_cons_self
    rw [List.dropWhile_cons, not_isSpace_of_isDigit hc]
    have h45 : c ≠ 45 := fun h => absurd (h ▸ hc) (by decide)
    have h43 : c ≠ 43 := fun h => absurd (h ▸ hc) (by decide)
    split
    · rename_i t heq
      exact absurd (List.cons.inj heq).1 h45
    · rename_i t heq
      exact absurd (List.cons.inj heq).1 h43
    · rfl

theorem signed_minus {s : Text} (h : (0 : UInt8) ∉ s) : signed (45 :: s) = (true, s) := by
  unfold signed
  rw [List.takeWhile_cons_of_pos (by decide), takeWhile_noNul h, List.dropWhile_cons_of_neg (by decide)]
  rfl

theorem all_isDigit_decimal (n : ℕ) : (decimal n).all isDigit = true :=
  List.all_eq_true.mpr isDigit_decimal

theorem strtol_decimal {n : ℕ} (h : n < 2 ^ 63) : strtol (decimal n) = some (Int64.ofNat n) := by
  unfold strtol
  rw [signed_digits isDigit_decimal (decimal_ne_nil n)]
  dsimp only
  rw [if_pos ⟨decimal_ne_nil n, all_isDigit_decimal n⟩, decimalValue_decimal]
  have hclamp : max (-2 ^ 63 : ℤ) (min (n : ℤ) (2 ^ 63 - 1)) = n := by omega
  rw [if_neg (by decide), hclamp, Int64.ofInt_eq_ofNat]

theorem strtol_decimalInt (n : Int64) : strtol (decimalInt n.toInt) = some n := by
  have hlo := n.le_toInt
  have hhi := n.toInt_lt
  rcases hn : n.toInt with k | k
  · rw [hn, Int.ofNat_eq_natCast] at hhi
    rw [decimalInt, strtol_decimal (by omega), ← Int64.ofInt_eq_ofNat]
    rw [show ((k : ℕ) : ℤ) = n.toInt from hn.symm, Int64.ofInt_toInt]
  · rw [hn] at hlo
    unfold strtol
    rw [decimalInt, signed_minus (nul_notMem_decimal _)]
    dsimp only
    rw [if_pos ⟨decimal_ne_nil _, all_isDigit_decimal _⟩, decimalValue_decimal]
    have hclamp : max (-2 ^ 63 : ℤ) (min (-((k + 1 : ℕ) : ℤ)) (2 ^ 63 - 1)) = n.toInt := by omega
    rw [if_pos rfl, hclamp, Int64.ofInt_toInt]

theorem numberUntil_reads {stop : UInt8} {buf : Text} {n : Int64} (hstop : stop ∉ buf)
    (hne : buf ≠ []) (hlen : buf.length < 64) (h : strtol buf = some n) :
    (numberUntil stop).Reads (buf ++ [stop]) n := by
  have hall := (Parser.Reads.upTo hstop).bind (t := []) (b := n) (f := fun buf =>
    if buf.length = 0 ∨ 64 ≤ buf.length then Parser.fail else Parser.ofOption (strtol buf)) (by
      rw [if_neg (by rintro (h0 | h0); exact hne (List.length_eq_zero_iff.mp h0); omega)]
      exact .ofOption h)
  rwa [List.append_nil] at hall

/-- **A count is read back.** -/
theorem numberUntil_decimal {stop : UInt8} (hstop : isDigit stop = false) {n : ℕ} (h : n < 2 ^ 63) :
    (numberUntil stop).Reads (decimal n ++ [stop]) (Int64.ofNat n) := by
  refine numberUntil_reads (notMem_decimal hstop n) (decimal_ne_nil n) ?_ (strtol_decimal h)
  have hlen := Hash.decimal_length (n := n) (k := 20) (by decide) (by omega)
  omega

/-- **A number is read back.** -/
theorem numberUntil_decimalInt {stop : UInt8} (hstop : isDigit stop = false) (hminus : stop ≠ 45)
    (n : Int64) : (numberUntil stop).Reads (decimalInt n.toInt ++ [stop]) n := by
  have hlo := n.le_toInt
  have hhi := n.toInt_lt
  refine numberUntil_reads (notMem_decimalInt hstop hminus _) ?_ ?_ (strtol_decimalInt n)
  · rcases n.toInt with k | k
    · exact decimal_ne_nil k
    · exact List.cons_ne_nil _ _
  · rcases hn : n.toInt with k | k
    · rw [hn, Int.ofNat_eq_natCast] at hhi
      have hlen := Hash.decimal_length (n := k) (k := 20) (by decide) (by omega)
      rw [decimalInt]
      omega
    · have hlen := Hash.decimal_length (n := k + 1) (k := 20) (by decide) (by omega)
      rw [decimalInt, List.length_cons]
      omega

/-! ### Hexadecimal words -/

/-- The last `n` hexadecimal digits of a number. -/
def hexText : ℕ → ℕ → Text
  | 0, _ => []
  | n + 1, v => hexText n (v / 16) ++ [hexDigit (v % 16)]

/-- `%016PRIx64`. -/
def wordText (v : UInt64) : Text := hexText 16 v.toNat

theorem hexText_length (n v : ℕ) : (hexText n v).length = n := by
  induction n generalizing v with
  | zero => rfl
  | succ n ih => rw [hexText, List.length_append, ih, List.length_singleton]

theorem hexDigitValue_hexDigit : ∀ d < 16, hexDigitValue (hexDigit d) = some d := by decide

/-- A hexadecimal digit is neither a blank nor a sign, nor NUL, nor the letter of the prefix. -/
theorem hexDigit_plain : ∀ d < 16, hexDigit d ≠ 0 ∧ isSpace (hexDigit d) = false ∧
    hexDigit d ≠ 45 ∧ hexDigit d ≠ 43 ∧ hexDigit d ≠ 120 ∧ hexDigit d ≠ 88 := by decide

theorem mem_hexText {n v : ℕ} {c : UInt8} (h : c ∈ hexText n v) : ∃ d < 16, c = hexDigit d := by
  induction n generalizing v with
  | zero => exact absurd h List.not_mem_nil
  | succ n ih =>
    rcases List.mem_append.mp h with h | h
    · exact ih h
    · exact ⟨v % 16, Nat.mod_lt _ (by decide), List.mem_singleton.mp h⟩

theorem signed_hexText (n v : ℕ) : signed (hexText n v) = (false, hexText n v) := by
  have hplain : ∀ c ∈ hexText n v, c ≠ 0 ∧ isSpace c = false ∧ c ≠ 45 ∧ c ≠ 43 := fun c hc => by
    obtain ⟨d, hd, rfl⟩ := mem_hexText hc
    obtain ⟨h1, h2, h3, h4, -, -⟩ := hexDigit_plain d hd
    exact ⟨h1, h2, h3, h4⟩
  unfold signed
  rw [takeWhile_noNul fun h0 => (hplain 0 h0).1 rfl]
  rcases hs : hexText n v with _ | ⟨c, s⟩
  · rfl
  · obtain ⟨-, hspace, h45, h43⟩ := hplain c (hs ▸ List.mem_cons_self)
    rw [List.dropWhile_cons, hspace]
    split
    · rename_i t heq
      exact absurd (List.cons.inj heq).1 h45
    · rename_i t heq
      exact absurd (List.cons.inj heq).1 h43
    · rfl

theorem unprefixed_hexText (n v : ℕ) : unprefixed (hexText n v) = hexText n v := by
  have hplain : ∀ c ∈ hexText n v, c ≠ 120 ∧ c ≠ 88 := fun c hc => by
    obtain ⟨d, hd, rfl⟩ := mem_hexText hc
    obtain ⟨-, -, -, -, h1, h2⟩ := hexDigit_plain d hd
    exact ⟨h1, h2⟩
  unfold unprefixed
  split
  · rename_i x c s heq
    obtain ⟨h120, h88⟩ := hplain x (by rw [heq]; simp)
    rw [if_neg (by rintro ⟨h | h, -⟩; exact h120 h; exact h88 h)]
    exact heq.symm
  · rfl

/-- The digits of a number, the most significant first. -/
def hexDigits : ℕ → ℕ → List ℕ
  | 0, _ => []
  | n + 1, v => hexDigits n (v / 16) ++ [v % 16]

theorem mapM_hexText (n v : ℕ) : (hexText n v).mapM hexDigitValue = some (hexDigits n v) := by
  induction n generalizing v with
  | zero => rfl
  | succ n ih =>
    rw [hexText, List.mapM_append, ih, hexDigits]
    have hd := hexDigitValue_hexDigit (v % 16) (Nat.mod_lt _ (by decide))
    simp [hd]

theorem foldl_hexDigits (n v : ℕ) (h : v < 16 ^ n) :
    (hexDigits n v).foldl (fun n d => n * 16 + d) 0 = v := by
  induction n generalizing v with
  | zero =>
    rw [pow_zero, Nat.lt_one_iff] at h
    exact h.symm
  | succ n ih =>
    rw [pow_succ] at h
    rw [hexDigits, List.foldl_append, ih _ (by omega)]
    simp only [List.foldl_cons, List.foldl_nil]
    omega

theorem strtoull_wordText (v : UInt64) : strtoull (wordText v) = some v := by
  unfold strtoull wordText
  rw [signed_hexText]
  dsimp only
  rw [unprefixed_hexText, mapM_hexText]
  have hlt : v.toNat < 16 ^ 16 := by
    have := v.toNat_lt
    omega
  have hvalue := foldl_hexDigits 16 v.toNat hlt
  rcases hs : hexDigits 16 v.toNat with _ | ⟨d, ds⟩
  · exact absurd hs (by simp [hexDigits])
  · rw [hs] at hvalue
    dsimp only
    rw [hvalue, if_neg (by decide), UInt64.ofNat_toNat]

/-- **A word is read back.** -/
theorem word_reads (v : UInt64) : word.Reads (wordText v) v := by
  have hall := (Parser.Reads.take (hexText_length 16 v.toNat)).bind
    (f := fun buf => Parser.ofOption (strtoull buf)) (.ofOption (strtoull_wordText v))
  rwa [List.append_nil] at hall

end ShenRc.Replay
