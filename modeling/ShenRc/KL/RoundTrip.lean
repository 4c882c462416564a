import ShenRc.KL.Read
import ShenRc.Numeral.Rounding
import Mathlib.Data.List.TakeWhile

/-! # Reading undoes writing

`write_kl` writes the explicit AST format that the reader's escaped form reads back: strings and quoted
symbols preserve every byte, and a symbol is quoted where its name is no token or would be read as a
number. What it writes for a form, `read_form` reads back, and the text after it is left. The proof
follows the writer: strings byte by byte, numbers and names as tokens, lists item by item. A token ends
where the next character is a space or a closing parenthesis (`Delimited`), which is what the writer
puts after every item. -/

namespace ShenRc.KL

open Numeral

/-! ### The writer -/

/-- `%02x` of a byte. -/
def hexByte (c : UInt8) : Text := [Double.hexDigit (c.toNat / 16), Double.hexDigit (c.toNat % 16)]

def stringByte (c : UInt8) : Text :=
  if c = 34 ∨ c = 92 then [92, c]
  else if c < 32 ∨ 127 ≤ c then 92 :: 120 :: hexByte c
  else [c]

def klString (s : Text) : Text := 34 :: s.flatMap stringByte ++ [34]

/-- The name can stand as it is. -/
def isToken (libc : Libc) (name : Text) : Bool :=
  let number := libc.strtod name
  name != [] && name.all isTokenChar && !(number.taken != 0 && number.taken == name.length)

/-- The text of a finite double has a decimal point or an exponent. -/
def realText (libc : Libc) (d : Double) : Text :=
  let number := libc.formatG17 d
  if 46 ∈ number ∨ 101 ∈ number ∨ 69 ∈ number then number else number ++ [46, 48]

mutual

def writeKl (libc : Libc) (depth : Nat) (form : Value) : Except Text Text :=
  if 2048 < depth then .error (ascii "compile-kl: expression nesting exceeds 2048")
  else
    match form with
    | .nil => .ok [40, 41]
    | .string s => .ok (klString s)
    | .number (.exact k) => .ok (decimalInt k.val)
    | .number (.real d) =>
      if d.isFinite then .ok (realText libc d)
      else .error (ascii "compile-kl: nonfinite numeric literal is not representable")
    | .symbol name =>
      if isToken libc name then .ok name else .ok (35 :: 115 :: 121 :: 109 :: klString name)
    | .pair head tail => do
      let h ← writeKl libc (depth + 1) head
      let t ← writeRest libc (depth + 1) tail
      .ok (40 :: h ++ t)
    | .other _ _ => .error (ascii "compile-kl: unsupported literal in compiler output")

/-- The rest of a list after an item. -/
def writeRest (libc : Libc) (depth : Nat) : Value → Except Text Text
  | .nil => .ok [41]
  | .pair head tail => do
    let h ← writeKl libc depth head
    let t ← writeRest libc depth tail
    .ok (32 :: h ++ t)
  | _ => .error (ascii "compile-kl: improper expression list")

end

/-- The forms of a file, one a line. -/
def writeForms (libc : Libc) : List Value → Except Text Text
  | [] => .ok []
  | form :: forms => do
    let t ← writeKl libc 0 form
    let rest ← writeForms libc forms
    .ok (t ++ 10 :: rest)

/-! ### What the C library promises -/

/-- What the writer and the reader rely on: `%.17g` of a finite double is a decimal numeral that
`strtod` reads back exactly; `strtod` takes every decimal numeral as a whole, gives it the same value
with `.0` after it, and finds no 64-bit integer out of range. -/
structure Libc.Conforms (libc : Libc) : Prop where
  numeral : ∀ d : Double, d.isFinite = true → decimalToken (libc.formatG17 d) = true
  readsBack : ∀ d : Double, d.isFinite = true →
    (libc.strtod (libc.formatG17 d)).value = d ∧
      (d.isZero = true → (libc.strtod (libc.formatG17 d)).erange = false)
  takes : ∀ t, decimalToken t = true → (libc.strtod t).taken = t.length
  point : ∀ t, decimalToken t = true → 46 ∉ t → 101 ∉ t → 69 ∉ t →
    (libc.strtod (t ++ [46, 48])).value = (libc.strtod t).value ∧
      (libc.strtod (t ++ [46, 48])).erange = (libc.strtod t).erange
  inRange : ∀ k : Int, IsInt64 k → (libc.strtod (decimalInt k)).erange = false

/-! ### Strings -/

theorem stringByte_cases (c : UInt8) :
    (c ≠ 34 ∧ c ≠ 92 ∧ 32 ≤ c ∧ stringByte c = [c]) ∨ (c = 34 ∧ stringByte c = [92, 34]) ∨
      (c = 92 ∧ stringByte c = [92, 92]) ∨ stringByte c = 92 :: 120 :: hexByte c := by
  unfold stringByte
  grind

/-- The digits of a byte are read back, and are no quote, no backslash, no space and no zero. -/
theorem hexByte_spec (c : UInt8) :
    ∃ a b, hexByte c = [a, b] ∧ hexDigit a = some (c / 16) ∧ hexDigit b = some (c % 16) ∧
      ∀ d ∈ [a, b], d ≠ 34 ∧ d ≠ 92 ∧ d ≠ 0 := by
  have h : ∀ c : UInt8, (hexDigit (Double.hexDigit (c.toNat / 16)) == some (c / 16)
      && hexDigit (Double.hexDigit (c.toNat % 16)) == some (c % 16)
      && [Double.hexDigit (c.toNat / 16), Double.hexDigit (c.toNat % 16)].all
        fun d => d != 34 && d != 92 && d != 0) = true :=
    forall_byte (by decide +kernel)
  have hc := h c
  simp only [Bool.and_eq_true, beq_iff_eq, List.all_eq_true, bne_iff_ne] at hc
  exact ⟨_, _, rfl, hc.1.1, hc.1.2, fun d hd => ⟨(hc.2 d hd).1.1, (hc.2 d hd).1.2, (hc.2 d hd).2⟩⟩

theorem stringEnd_plain {c : UInt8} (h34 : c ≠ 34) (h92 : c ≠ 92) (r : Text) :
    stringEnd (c :: r) = (stringEnd r).map fun p => (c :: p.1, p.2) := by
  rw [stringEnd.eq_def]
  split <;> simp_all

theorem unescape_plain {c : UInt8} (h92 : c ≠ 92) (r : Text) :
    unescape (c :: r) = (unescape r).map (c :: ·) := by
  rw [unescape.eq_def]
  split <;> simp_all

theorem stringEnd_stringByte (c : UInt8) (r : Text) :
    stringEnd (stringByte c ++ r) = (stringEnd r).map fun p => (stringByte c ++ p.1, p.2) := by
  rcases stringByte_cases c with ⟨h34, h92, -, hq⟩ | ⟨-, hq⟩ | ⟨-, hq⟩ | hq <;> rw [hq]
  · exact stringEnd_plain h34 h92 r
  · rfl
  · rfl
  · obtain ⟨a, b, hab, -, -, hne⟩ := hexByte_spec c
    rw [hab]
    have ha := hne a (by simp)
    have hb := hne b (by simp)
    show (stringEnd (a :: b :: r)).map _ = _
    rw [stringEnd_plain ha.1 ha.2.1, stringEnd_plain hb.1 hb.2.1]
    simp [Function.comp_def]

theorem unescape_stringByte (c : UInt8) (r : Text) :
    unescape (stringByte c ++ r) = (unescape r).map (c :: ·) := by
  rcases stringByte_cases c with ⟨-, h92, -, hq⟩ | ⟨rfl, hq⟩ | ⟨rfl, hq⟩ | hq <;> rw [hq]
  · exact unescape_plain h92 r
  · simp [unescape, Option.map_eq_bind]
  · simp [unescape, Option.map_eq_bind]
  · obtain ⟨a, b, hab, ha, hb, -⟩ := hexByte_spec c
    have hc : c / 16 * 16 + c % 16 = c := by
      apply UInt8.toNat_inj.mp
      simp [UInt8.toNat_add, UInt8.toNat_mul, UInt8.toNat_div, UInt8.toNat_mod]
      have := c.toNat_lt
      omega
    rw [hab]
    simp [unescape, ha, hb, hc, Option.map_eq_bind]

theorem stringEnd_flatMap (s r : Text) :
    stringEnd (s.flatMap stringByte ++ 34 :: r) = some (s.flatMap stringByte, r) := by
  induction s with
  | nil => rfl
  | cons c s ih =>
    rw [List.flatMap_cons, List.append_assoc, stringEnd_stringByte, ih]
    rfl

theorem unescape_flatMap (s : Text) : unescape (s.flatMap stringByte) = some s := by
  induction s with
  | nil => rfl
  | cons c s ih =>
    rw [List.flatMap_cons, unescape_stringByte, ih]
    rfl

/-- **A written string reads back.** -/
theorem escapedString_klString (s r : Text) (result : Text → Text → Read) :
    escapedString (s.flatMap stringByte ++ 34 :: r) result = result s r := by
  simp [escapedString, stringEnd_flatMap, unescape_flatMap]

theorem zero_notMem_klString (s : Text) : (0 : UInt8) ∉ klString s := by
  simp only [klString, List.mem_append, List.mem_cons, List.mem_flatMap, not_or]
  refine ⟨⟨by decide, ?_⟩, by decide, by simp⟩
  rintro ⟨c, -, hc⟩
  rcases stringByte_cases c with ⟨-, -, h32, hq⟩ | ⟨-, hq⟩ | ⟨-, hq⟩ | hq <;> rw [hq] at hc
  · rw [← List.mem_singleton.mp hc] at h32
    exact absurd h32 (by decide)
  · exact absurd hc (by decide)
  · exact absurd hc (by decide)
  · obtain ⟨a, b, hab, -, -, hne⟩ := hexByte_spec c
    rw [hab] at hc
    simp only [List.mem_cons, List.not_mem_nil, or_false] at hc
    rcases hc with h | h | h | h
    · exact absurd h (by decide)
    · exact absurd h (by decide)
    · exact (hne a (by simp)).2.2 h.symm
    · exact (hne b (by simp)).2.2 h.symm

/-! ### Numerals -/

/-- A character of a numeral. -/
def isNumeralChar (c : UInt8) : Bool :=
  isDigit c || c == 43 || c == 45 || c == 46 || c == 101 || c == 69

theorem isNumeralChar_of_isDigit {c : UInt8} (h : isDigit c = true) : isNumeralChar c = true := by
  simp [isNumeralChar, h]

theorem isNumeralChar_spec {c : UInt8} (h : isNumeralChar c = true) :
    isTokenChar c = true ∧ c ≠ 0 ∧ c ≠ 35 := by
  have hall : ∀ c : UInt8,
      (!isNumeralChar c || (isTokenChar c && c != 0 && c != 35)) = true :=
    forall_byte (by decide +kernel)
  have := hall c
  rw [h] at this
  simpa [and_assoc] using this

theorem mem_takeWhile_isDigit {p : Text} {c : UInt8} (h : c ∈ p.takeWhile isDigit) :
    isNumeralChar c = true := isNumeralChar_of_isDigit (List.mem_takeWhile_imp h)

theorem dropSign_cases (p : Text) :
    (∃ c, p = c :: dropSign p ∧ isNumeralChar c = true) ∨ dropSign p = p := by
  unfold dropSign
  split
  · exact Or.inl ⟨43, rfl, by decide⟩
  · exact Or.inl ⟨45, rfl, by decide⟩
  · exact Or.inr rfl

theorem mem_of_dropSign {p : Text} (h : ∀ c ∈ dropSign p, isNumeralChar c = true) :
    ∀ c ∈ p, isNumeralChar c = true := by
  rcases dropSign_cases p with ⟨d, hp, hd⟩ | hp
  · rw [hp]
    intro c hc
    rcases List.mem_cons.mp hc with rfl | hc
    · exact hd
    · exact h c hc
  · rwa [hp] at h

theorem mem_of_dropWhile {p : Text} (h : ∀ c ∈ p.dropWhile isDigit, isNumeralChar c = true) :
    ∀ c ∈ p, isNumeralChar c = true := by
  intro c hc
  rw [← List.takeWhile_append_dropWhile (p := isDigit) (l := p)] at hc
  exact (List.mem_append.mp hc).elim mem_takeWhile_isDigit (h c)

theorem mem_of_exponentEnd {p : Text} (h : exponentEnd p = true) :
    ∀ c ∈ p, isNumeralChar c = true := by
  cases p with
  | nil => simp
  | cons e r =>
    simp only [exponentEnd, Bool.and_eq_true, Bool.or_eq_true, beq_iff_eq,
      List.isEmpty_iff] at h
    intro c hc
    rcases List.mem_cons.mp hc with rfl | hc
    · rcases h.1.1 with rfl | rfl <;> decide
    · refine mem_of_dropSign (mem_of_dropWhile ?_) c hc
      rw [h.2]
      simp

theorem mem_of_fraction {p : Text} (h : ∀ c ∈ (fraction p).2, isNumeralChar c = true) :
    ∀ c ∈ p, isNumeralChar c = true := by
  unfold fraction at h
  split at h
  · intro c hc
    rcases List.mem_cons.mp hc with rfl | hc
    · decide
    · exact mem_of_dropWhile h c hc
  · exact h

/-- Every character of a decimal token is one of a numeral. -/
theorem mem_decimalToken {p : Text} (h : decimalToken p = true) :
    ∀ c ∈ p, isNumeralChar c = true := by
  simp only [decimalToken, Bool.and_eq_true] at h
  exact mem_of_dropSign (mem_of_dropWhile (mem_of_fraction (mem_of_exponentEnd h.2)))

theorem decimalToken_ne_nil {p : Text} (h : decimalToken p = true) : p ≠ [] := by
  rintro rfl
  exact absurd h (by decide)

/-- The text after the sign, for a text that starts with a digit or a minus. -/
theorem dropSign_digits {p : Text} (h : ∀ c ∈ p, isDigit c = true) : dropSign p = p := by
  unfold dropSign
  split
  · exact absurd (h 43 (by simp)) (by decide)
  · exact absurd (h 45 (by simp)) (by decide)
  · rfl

theorem takeWhile_digits {p : Text} (h : ∀ c ∈ p, isDigit c = true) :
    p.takeWhile isDigit = p := List.takeWhile_eq_self_iff.mpr h

theorem dropWhile_digits {p : Text} (h : ∀ c ∈ p, isDigit c = true) :
    p.dropWhile isDigit = [] := List.dropWhile_eq_nil_iff.mpr h

/-- Digits after an optional sign. -/
theorem decimalToken_digits {p : Text} (h : ∀ c ∈ dropSign p, isDigit c = true)
    (hne : dropSign p ≠ []) : decimalToken p = true := by
  simp [decimalToken, takeWhile_digits h, dropWhile_digits h, fraction, exponentEnd, hne]

theorem dropSign_decimalInt (k : Int) : dropSign (decimalInt k) = decimal k.natAbs := by
  cases k with
  | ofNat n => exact dropSign_digits isDigit_decimal
  | negSucc n => rfl

theorem decimalToken_decimalInt (k : Int) : decimalToken (decimalInt k) = true := by
  apply decimalToken_digits <;> rw [dropSign_decimalInt]
  · exact isDigit_decimal
  · exact decimal_ne_nil _

/-- **`strtoll` reads a written integer back.** -/
theorem strtoll_decimalInt (k : {k : Int // IsInt64 k}) :
    strtoll (decimalInt k.val) = ⟨k, (decimalInt k.val).length, false⟩ := by
  obtain ⟨k, hk⟩ := k
  have htake : (decimal k.natAbs).takeWhile isDigit = decimal k.natAbs :=
    takeWhile_digits isDigit_decimal
  have hne := decimal_ne_nil k.natAbs
  have hval : (if (decimalInt k).head? = some 45 then -(decimalValue (decimal k.natAbs) : Int)
      else decimalValue (decimal k.natAbs)) = k := by
    rw [decimalValue_decimal]
    cases k with
    | ofNat n =>
      rw [if_neg]
      · rfl
      · intro h
        have hm : (45 : UInt8) ∈ decimal n := List.mem_of_mem_head? h
        exact notMem_decimal (by decide) n hm
    | negSucc n =>
      have h45 : (decimalInt (Int.negSucc n)).head? = some 45 := rfl
      rw [if_pos h45]
      rfl
  have hlen : (decimalInt k).length - (decimal k.natAbs).length + (decimal k.natAbs).length =
      (decimalInt k).length := by
    cases k with
    | ofNat n => simp [decimalInt]
    | negSucc n =>
      show (decimal (n + 1)).length + 1 - (decimal (n + 1)).length + _ = _
      simp [decimalInt]
      omega
  simp only [strtoll, dropSign_decimalInt, htake, hval, hlen, List.isEmpty_iff, hne,
    if_false, hk, dite_true]

/-- A decimal token with no point and no exponent is digits after an optional sign. -/
theorem digits_of_decimalToken {t : Text} (h : decimalToken t = true) (h46 : 46 ∉ t)
    (h101 : 101 ∉ t) (h69 : 69 ∉ t) : (∀ c ∈ dropSign t, isDigit c = true) ∧ dropSign t ≠ [] := by
  simp only [decimalToken, Bool.and_eq_true] at h
  obtain ⟨hne, hend⟩ := h
  have hmem : ∀ c ∈ (dropSign t).dropWhile isDigit, c ∈ t := by
    intro c hc
    have := (List.dropWhile_suffix isDigit).subset hc
    rcases dropSign_cases t with ⟨d, ht, -⟩ | ht
    · rw [ht]
      exact List.mem_cons_of_mem _ this
    · rwa [ht] at this
  have hfrac : fraction ((dropSign t).dropWhile isDigit) =
      ([], (dropSign t).dropWhile isDigit) := by
    unfold fraction
    split
    next heq => exact absurd (hmem 46 (by rw [heq]; simp)) h46
    · rfl
  rw [hfrac] at hne hend
  have hnil : (dropSign t).dropWhile isDigit = [] := by
    cases hq : (dropSign t).dropWhile isDigit with
    | nil => rfl
    | cons e r =>
      rw [hq] at hend
      simp only [exponentEnd, Bool.and_eq_true, Bool.or_eq_true, beq_iff_eq] at hend
      have := hmem e (by rw [hq]; simp)
      rcases hend.1.1 with rfl | rfl
      · exact absurd this h101
      · exact absurd this h69
  constructor
  · exact List.dropWhile_eq_nil_iff.mp hnil
  · intro hd
    rw [hd] at hne
    exact absurd hne (by decide)

theorem dropSign_append {t : Text} (h : t ≠ []) (u : Text) :
    dropSign (t ++ u) = dropSign t ++ u := by
  cases t with
  | nil => exact absurd rfl h
  | cons c t =>
    simp only [List.cons_append]
    unfold dropSign
    split <;> simp_all

theorem decimalToken_point {t : Text} (h : decimalToken t = true) (h46 : 46 ∉ t)
    (h101 : 101 ∉ t) (h69 : 69 ∉ t) : decimalToken (t ++ [46, 48]) = true := by
  obtain ⟨hdig, hne⟩ := digits_of_decimalToken h h46 h101 h69
  have htake : (dropSign t ++ [46, 48]).takeWhile isDigit = dropSign t := by
    rw [List.takeWhile_append_of_pos hdig]
    simp [isDigit]
  have hdrop : (dropSign t ++ [46, 48]).dropWhile isDigit = [46, 48] := by
    rw [List.dropWhile_append_of_pos hdig]
    decide
  have hf : fraction [46, 48] = ([48], []) := by decide
  simp only [decimalToken, dropSign_append (decimalToken_ne_nil h), htake, hdrop, hf]
  simp [exponentEnd]

theorem strtoll_taken (p : Text) :
    (strtoll p).taken = 0 ∨
      (strtoll p).taken =
        p.length - (dropSign p).length + ((dropSign p).takeWhile isDigit).length := by
  unfold strtoll
  extract_lets digits taken k
  split_ifs
  · exact Or.inl rfl
  all_goals exact Or.inr rfl

/-- `strtoll` stops at a decimal point or an exponent. -/
theorem strtoll_taken_ne {t : Text} (h : 46 ∈ t ∨ 101 ∈ t ∨ 69 ∈ t) :
    (strtoll t).taken ≠ t.length := by
  have hne : t ≠ [] := by rintro rfl; simp at h
  have hpos : 0 < t.length := List.length_pos_of_ne_nil hne
  intro htaken
  have hall : ((dropSign t).takeWhile isDigit).length = (dropSign t).length := by
    have hle := (List.takeWhile_prefix (l := dropSign t) isDigit).length_le
    have hsub : (dropSign t).length ≤ t.length := by
      rcases dropSign_cases t with ⟨d, ht, -⟩ | ht
      · rw [congrArg List.length ht, List.length_cons]
        omega
      · rw [ht]
    rcases strtoll_taken t with h0 | h0 <;> omega
  have hdig : ∀ c ∈ dropSign t, isDigit c = true := by
    rw [← List.takeWhile_eq_self_iff]
    exact (List.takeWhile_prefix isDigit).eq_of_length hall
  have hno : ∀ c ∈ t, c ≠ 46 ∧ c ≠ 101 ∧ c ≠ 69 := by
    intro c hc
    have hdc : isDigit c = true → c ≠ 46 ∧ c ≠ 101 ∧ c ≠ 69 := by
      intro hd
      refine ⟨?_, ?_, ?_⟩ <;> rintro rfl <;> exact absurd hd (by decide)
    unfold dropSign at hdig
    split at hdig
    · rcases List.mem_cons.mp hc with rfl | hc
      · decide
      · exact hdc (hdig c hc)
    · rcases List.mem_cons.mp hc with rfl | hc
      · decide
      · exact hdc (hdig c hc)
    · exact hdc (hdig c hc)
  rcases h with h | h | h
  · exact (hno _ h).1 rfl
  · exact (hno _ h).2.1 rfl
  · exact (hno _ h).2.2 rfl

/-! ### Tokens -/

/-- The text goes on with a space or a closing parenthesis, or ends. -/
def Delimited (rest : Text) : Prop := ∀ c r, rest = c :: r → isSpace c = true ∨ c = 41

theorem delimited_cons {c : UInt8} {r : Text} (h : isSpace c = true ∨ c = 41) :
    Delimited (c :: r) := by
  intro d s he
  obtain ⟨rfl, -⟩ := List.cons.inj he
  exact h

theorem not_isTokenChar {c : UInt8} (h : isSpace c = true ∨ c = 41) : isTokenChar c = false := by
  rcases h with h | rfl
  · simp [isTokenChar, h]
  · decide

theorem takeWhile_token {t rest : Text} (ht : ∀ c ∈ t, isTokenChar c = true)
    (hr : Delimited rest) :
    (t ++ rest).takeWhile isTokenChar = t ∧ (t ++ rest).dropWhile isTokenChar = rest := by
  rw [List.takeWhile_append_of_pos ht, List.dropWhile_append_of_pos ht]
  cases rest with
  | nil => simp
  | cons c r =>
    have := not_isTokenChar (hr c r rfl)
    simp [this]

/-- What a token is not: it starts no list, no string and no quoted symbol. -/
theorem token_take_ne {t rest : Text} (ht : ∀ c ∈ t, isTokenChar c = true) (hr : Delimited rest) :
    (t ++ rest).take 5 ≠ [35, 115, 121, 109, 34] := by
  intro h
  obtain ⟨u, hu⟩ : [35, 115, 121, 109, 34] <+: t ++ rest := h ▸ List.take_prefix 5 _
  have h34 : (34 : UInt8) ∉ t := fun hm => absurd (ht 34 hm) (by decide)
  rcases List.append_eq_append_iff.mp hu with ⟨w, hw, -⟩ | ⟨w, hw, hw'⟩
  · exact h34 (hw ▸ by simp)
  · cases w with
    | nil => exact h34 (by rw [← List.append_nil t, ← hw]; simp)
    | cons c w =>
      have hc : c ∈ ([35, 115, 121, 109, 34] : Text) := by rw [hw]; simp
      have hd := hr c _ hw'
      simp only [List.mem_cons, List.not_mem_nil, or_false] at hc
      rcases hc with rfl | rfl | rfl | rfl | rfl <;> exact absurd hd (by decide)

/-- A form that starts at the first character, within the depth limit. -/
theorem readForm_cons (libc : Libc) {c : UInt8} {r : Text} {fuel depth : Nat}
    (hs : isSpace c = false) (hd : depth ≤ 2048) :
    readForm libc true (fuel + 1) depth (c :: r) =
      if c = 41 then .error (ascii "KLambda reader: unexpected ')'")
      else if c = 40 then readItems libc true fuel (depth + 1) r []
      else if (c :: r).take 5 = [35, 115, 121, 109, 34] then
        escapedString (r.drop 4) quotedSymbol
      else if c = 34 then escapedString r fun bytes rest => .form (.string bytes) rest
      else
        tokenValue libc ((c :: r).takeWhile isTokenChar) ((c :: r).dropWhile isTokenChar) := by
  have hw : whitespace (c :: r) = c :: r := List.dropWhile_cons_of_neg (by simp [hs])
  rw [readForm, hw]
  simp only [if_neg (show ¬ 2048 < depth by omega), Bool.true_and, beq_iff_eq, if_true]

/-- **A token is read up to its delimiter.** -/
theorem readForm_token (libc : Libc) {t rest : Text} {fuel depth : Nat}
    (ht : ∀ c ∈ t, isTokenChar c = true) (hne : t ≠ []) (hr : Delimited rest)
    (hd : depth ≤ 2048) (hf : 0 < fuel) :
    readForm libc true fuel depth (t ++ rest) = tokenValue libc t rest := by
  obtain ⟨fuel, rfl⟩ : ∃ n, fuel = n + 1 := ⟨fuel - 1, by omega⟩
  obtain ⟨c, u, rfl⟩ := List.exists_cons_of_ne_nil hne
  have hc := ht c (by simp)
  obtain ⟨htake, hdrop⟩ := takeWhile_token ht hr
  have hfive := token_take_ne ht hr
  simp only [isTokenChar, Bool.and_eq_true, bne_iff_ne, Bool.not_eq_true'] at hc
  rw [List.cons_append] at htake hdrop hfive ⊢
  rw [readForm_cons libc hc.1.1.1 hd, if_neg hc.1.2, if_neg hc.1.1.2, if_neg hfive, if_neg hc.2,
    htake, hdrop]

theorem tokenValue_integer {libc : Libc} (hl : libc.Conforms) (k : {k : Int // IsInt64 k})
    (rest : Text) : tokenValue libc (decimalInt k.val) rest = .form (.number (.exact k)) rest := by
  have hdec := decimalToken_decimalInt k.val
  have hlen : (decimalInt k.val).length ≠ 0 := by
    simpa using decimalToken_ne_nil hdec
  simp only [tokenValue, hdec, hl.takes _ hdec, hl.inRange _ k.property, strtoll_decimalInt]
  simp [hlen]

/-- The text of a real is a numeral with a point or an exponent that `strtod` reads back. -/
theorem realText_spec {libc : Libc} (hl : libc.Conforms) {d : Double} (hd : d.isFinite = true) :
    decimalToken (realText libc d) = true ∧
      (46 ∈ realText libc d ∨ 101 ∈ realText libc d ∨ 69 ∈ realText libc d) ∧
      (libc.strtod (realText libc d)).value = d ∧
      (d.isZero = true → (libc.strtod (realText libc d)).erange = false) := by
  have hnum := hl.numeral d hd
  obtain ⟨hback, hzero⟩ := hl.readsBack d hd
  unfold realText
  simp only
  split
  next hp => exact ⟨hnum, hp, hback, hzero⟩
  next hp =>
    simp only [not_or] at hp
    obtain ⟨hv, he⟩ := hl.point _ hnum hp.1 hp.2.1 hp.2.2
    refine ⟨decimalToken_point hnum hp.1 hp.2.1 hp.2.2, Or.inl (by simp), hv.trans hback, ?_⟩
    intro hz
    exact he.trans (hzero hz)

theorem tokenValue_real {libc : Libc} (hl : libc.Conforms) {d : Double} (hd : d.isFinite = true)
    (rest : Text) : tokenValue libc (realText libc d) rest = .form (.number (.real d)) rest := by
  obtain ⟨hdec, hpoint, hval, herange⟩ := realText_spec hl hd
  have hlen : (realText libc d).length ≠ 0 := by simpa using decimalToken_ne_nil hdec
  have hint := strtoll_taken_ne hpoint
  have hrange : ((libc.strtod (realText libc d)).erange && (d.isZero || !d.isFinite)) = false := by
    cases hz : d.isZero with
    | true => simp [herange hz]
    | false => simp [hd]
  simp only [tokenValue, hdec, hl.takes _ hdec, hval, hrange]
  simp [hlen, hint]

theorem tokenValue_symbol {libc : Libc} {name : Text} (h : isToken libc name = true)
    (rest : Text) : tokenValue libc name rest = .form (.symbol name) rest := by
  simp only [isToken, Bool.and_eq_true, Bool.not_eq_true'] at h
  simp [tokenValue, Bool.and_assoc, h.2]

/-! ### Forms -/

mutual

/-- The values the format is for, at a nesting depth: names without a zero byte, finite numbers, and
proper lists, no deeper than the limit. -/
def IsForm (depth : Nat) : Value → Prop
  | .nil => depth ≤ 2048
  | .string _ => depth ≤ 2048
  | .number (.exact _) => depth ≤ 2048
  | .number (.real d) => depth ≤ 2048 ∧ d.isFinite = true
  | .symbol name => depth ≤ 2048 ∧ 0 ∉ name
  | .pair head tail => depth ≤ 2048 ∧ IsForm (depth + 1) head ∧ IsList (depth + 1) tail
  | .other _ _ => False

/-- A proper list of such values. -/
def IsList (depth : Nat) : Value → Prop
  | .nil => True
  | .pair head tail => IsForm depth head ∧ IsList depth tail
  | _ => False

end

/-- A form is written as a text that starts with no space and no closing parenthesis, and reads back
before any delimiter. -/
structure FormTrip (libc : Libc) (depth : Nat) (v : Value) (t : Text) : Prop where
  written : writeKl libc depth v = .ok t
  noZero : 0 ∉ t
  start : ∃ c u, t = c :: u ∧ isSpace c = false ∧ c ≠ 41
  readsBack : ∀ rest fuel, Delimited rest → 2 * t.length ≤ fuel →
    readForm libc true fuel depth (t ++ rest) = .form v rest

/-- The rest of a list is written as a text that starts with a delimiter, and reads back behind any
items. -/
structure ListTrip (libc : Libc) (depth : Nat) (v : Value) (t : Text) : Prop where
  written : writeRest libc depth v = .ok t
  noZero : 0 ∉ t
  start : ∀ rest, Delimited (t ++ rest)
  readsBack : ∀ rest fuel items, 2 * t.length ≤ fuel →
    readItems libc true fuel depth (t ++ rest) items =
      .form (items.foldl (fun result item => .pair item result) v) rest

section Forms
variable {libc : Libc}

/-- A token with the right value is a form. -/
theorem token_trip {depth : Nat} {v : Value} {t : Text} (hw : writeKl libc depth v = .ok t)
    (hd : depth ≤ 2048) (ht : ∀ c ∈ t, isTokenChar c = true ∧ c ≠ 0) (hne : t ≠ [])
    (hv : ∀ rest, tokenValue libc t rest = .form v rest) : FormTrip libc depth v t where
  written := hw
  noZero h := (ht 0 h).2 rfl
  start := by
    obtain ⟨c, u, rfl⟩ := List.exists_cons_of_ne_nil hne
    have hc := (ht c (by simp)).1
    simp only [isTokenChar, Bool.and_eq_true, bne_iff_ne, Bool.not_eq_true'] at hc
    exact ⟨c, u, rfl, hc.1.1.1, hc.1.2⟩
  readsBack rest fuel hr hf := by
    have hpos := List.length_pos_of_ne_nil hne
    rw [readForm_token libc (fun c hc => (ht c hc).1) hne hr hd (by omega), hv]

theorem numeral_trip {depth : Nat} {v : Value} {t : Text} (hw : writeKl libc depth v = .ok t)
    (hd : depth ≤ 2048) (ht : decimalToken t = true)
    (hv : ∀ rest, tokenValue libc t rest = .form v rest) : FormTrip libc depth v t := by
  refine token_trip hw hd (fun c hc => ?_) (decimalToken_ne_nil ht) hv
  obtain ⟨htok, h0, -⟩ := isNumeralChar_spec (mem_decimalToken ht c hc)
  exact ⟨htok, h0⟩

theorem string_trip {depth : Nat} (s : Text) (hd : depth ≤ 2048) :
    FormTrip libc depth (.string s) (klString s) where
  written := by rw [writeKl, if_neg (by omega)]
  noZero := zero_notMem_klString s
  start := ⟨34, _, rfl, by decide, by decide⟩
  readsBack rest fuel _ hf := by
    obtain ⟨fuel, rfl⟩ : ∃ n, fuel = n + 1 := ⟨fuel - 1, by simp [klString] at hf; omega⟩
    have ht : klString s ++ rest = 34 :: (s.flatMap stringByte ++ 34 :: rest) := by
      simp [klString]
    rw [ht, readForm_cons libc (by decide) hd, if_neg (by decide), if_neg (by decide),
      if_neg (by simp), if_pos rfl, escapedString_klString]

theorem symbol_trip {depth : Nat} {name : Text} (hd : depth ≤ 2048) (h0 : 0 ∉ name) :
    ∃ t, FormTrip libc depth (.symbol name) t := by
  by_cases htok : isToken libc name = true
  · refine ⟨name, token_trip ?_ hd ?_ ?_ (tokenValue_symbol htok)⟩
    · rw [writeKl, if_neg (by omega)]
      simp [htok]
    · simp only [isToken, Bool.and_eq_true, List.all_eq_true] at htok
      exact fun c hc => ⟨htok.1.2 c hc, fun hz => h0 (hz ▸ hc)⟩
    · simp only [isToken, Bool.and_eq_true, bne_iff_ne] at htok
      exact htok.1.1
  · refine ⟨35 :: 115 :: 121 :: 109 :: klString name, ?_, ?_, ?_, ?_⟩
    · rw [writeKl, if_neg (by omega)]
      simp [htok]
    · simp only [List.mem_cons, not_or]
      exact ⟨by decide, by decide, by decide, by decide, zero_notMem_klString name⟩
    · exact ⟨35, _, rfl, by decide, by decide⟩
    · intro rest fuel _ hf
      obtain ⟨fuel, rfl⟩ : ∃ n, fuel = n + 1 := ⟨fuel - 1, by simp at hf; omega⟩
      have ht : 35 :: 115 :: 121 :: 109 :: klString name ++ rest =
          35 :: 115 :: 121 :: 109 :: 34 :: (name.flatMap stringByte ++ 34 :: rest) := by
        simp [klString]
      rw [ht, readForm_cons libc (by decide) hd, if_neg (by decide), if_neg (by decide),
        if_pos (by simp)]
      show escapedString (name.flatMap stringByte ++ 34 :: rest) quotedSymbol = _
      rw [escapedString_klString, quotedSymbol, if_neg h0]

theorem nil_trip {depth : Nat} (hd : depth ≤ 2048) : FormTrip libc depth .nil [40, 41] where
  written := by rw [writeKl, if_neg (by omega)]
  noZero := by decide
  start := ⟨40, _, rfl, by decide, by decide⟩
  readsBack rest fuel _ hf := by
    obtain ⟨fuel, rfl⟩ : ∃ n, fuel = n + 2 := ⟨fuel - 2, by simp at hf; omega⟩
    have ht : ([40, 41] : Text) ++ rest = 40 :: 41 :: rest := rfl
    rw [ht, readForm_cons libc (by decide) hd, if_neg (by decide), if_pos rfl]
    rfl

theorem listEnd_trip (depth : Nat) : ListTrip libc depth .nil [41] where
  written := by rw [writeRest]
  noZero := by decide
  start _ := delimited_cons (Or.inr rfl)
  readsBack rest fuel items hf := by
    obtain ⟨fuel, rfl⟩ : ∃ n, fuel = n + 1 := ⟨fuel - 1, by simp at hf; omega⟩
    rfl

/-- One item of a list, and what follows it. -/
theorem readItems_step {depth : Nat} {h t : Value} {u w rest : Text} {fuel : Nat}
    {items : List Value} (hh : FormTrip libc depth h u) (ht : ListTrip libc depth t w)
    (hu : 2 * u.length ≤ fuel) (hw : 2 * w.length ≤ fuel) {p : Text}
    (hp : whitespace p = u ++ (w ++ rest)) :
    readItems libc true (fuel + 1) depth p items =
      .form (items.foldl (fun result item => .pair item result) (.pair h t)) rest := by
  obtain ⟨c, u', rfl, -, hc⟩ := hh.start
  rw [readItems, hp, List.cons_append]
  show (if c = 41 then _ else _) = _
  rw [if_neg hc]
  have hread := hh.readsBack (w ++ rest) fuel (ht.start rest) hu
  rw [List.cons_append] at hread
  rw [hread]
  show readItems libc true fuel depth (w ++ rest) (h :: items) = _
  rw [ht.readsBack rest fuel (h :: items) hw]
  rfl

theorem pair_trip {depth : Nat} {h t : Value} {u w : Text} (hd : depth ≤ 2048)
    (hh : FormTrip libc (depth + 1) h u) (ht : ListTrip libc (depth + 1) t w) :
    FormTrip libc depth (.pair h t) (40 :: (u ++ w)) where
  written := by
    rw [writeKl, if_neg (by omega), hh.written, ht.written]
    rfl
  noZero := by
    simp only [List.mem_cons, List.mem_append, not_or]
    exact ⟨by decide, hh.noZero, ht.noZero⟩
  start := ⟨40, _, rfl, by decide, by decide⟩
  readsBack rest fuel _ hf := by
    simp only [List.length_cons, List.length_append] at hf
    obtain ⟨fuel, rfl⟩ : ∃ n, fuel = n + 2 := ⟨fuel - 2, by omega⟩
    rw [List.cons_append, readForm_cons libc (by decide) hd, if_neg (by decide), if_pos rfl]
    obtain ⟨c, u', hu, hs, -⟩ := hh.start
    have hp : whitespace (u ++ w ++ rest) = u ++ (w ++ rest) := by
      rw [List.append_assoc, hu]
      exact List.dropWhile_cons_of_neg (by simp [hs])
    exact readItems_step hh ht (by omega) (by omega) hp

theorem listItem_trip {depth : Nat} {h t : Value} {u w : Text} (hh : FormTrip libc depth h u)
    (ht : ListTrip libc depth t w) : ListTrip libc depth (.pair h t) (32 :: (u ++ w)) where
  written := by
    rw [writeRest, hh.written, ht.written]
    rfl
  noZero := by
    simp only [List.mem_cons, List.mem_append, not_or]
    exact ⟨by decide, hh.noZero, ht.noZero⟩
  start _ := delimited_cons (Or.inl (by decide))
  readsBack rest fuel items hf := by
    simp only [List.length_cons, List.length_append] at hf
    obtain ⟨fuel, rfl⟩ : ∃ n, fuel = n + 1 := ⟨fuel - 1, by omega⟩
    obtain ⟨c, u', hu, hs, -⟩ := hh.start
    have hp : whitespace (32 :: (u ++ w) ++ rest) = u ++ (w ++ rest) := by
      rw [List.cons_append, List.append_assoc, hu]
      rw [whitespace, List.dropWhile_cons_of_pos (by decide)]
      exact List.dropWhile_cons_of_neg (by simp [hs])
    exact readItems_step hh ht (by omega) (by omega) hp

/-- **Every form reads back**, and every rest of a list does. -/
theorem form_trip (hl : libc.Conforms) (v : Value) :
    (∀ depth, IsForm depth v → ∃ t, FormTrip libc depth v t) ∧
      ∀ depth, IsList depth v → ∃ t, ListTrip libc depth v t := by
  induction v with
  | nil => exact ⟨fun _ hd => ⟨_, nil_trip hd⟩, fun depth _ => ⟨_, listEnd_trip depth⟩⟩
  | number n =>
    refine ⟨fun depth hd => ?_, fun _ h => absurd h (by simp [IsList])⟩
    cases n with
    | exact k =>
      have hd : depth ≤ 2048 := by simpa [IsForm] using hd
      refine ⟨_, numeral_trip ?_ hd (decimalToken_decimalInt k.val) (tokenValue_integer hl k)⟩
      rw [writeKl, if_neg (by omega)]
    | real d =>
      obtain ⟨hd, hfin⟩ : depth ≤ 2048 ∧ d.isFinite = true := by simpa [IsForm] using hd
      refine ⟨_, numeral_trip ?_ hd (realText_spec hl hfin).1 (tokenValue_real hl hfin)⟩
      rw [writeKl, if_neg (by omega)]
      simp [hfin]
  | string s =>
    refine ⟨fun depth hd => ⟨_, string_trip s (by simpa [IsForm] using hd)⟩, ?_⟩
    exact fun _ h => absurd h (by simp [IsList])
  | symbol name =>
    refine ⟨fun depth hd => ?_, fun _ h => absurd h (by simp [IsList])⟩
    obtain ⟨hd, h0⟩ : depth ≤ 2048 ∧ 0 ∉ name := by simpa [IsForm] using hd
    exact symbol_trip hd h0
  | pair h t ihh iht =>
    constructor
    · intro depth hd
      obtain ⟨hd, hh, ht⟩ : depth ≤ 2048 ∧ IsForm (depth + 1) h ∧ IsList (depth + 1) t := by
        simpa [IsForm] using hd
      obtain ⟨u, hu⟩ := ihh.1 _ hh
      obtain ⟨w, hw⟩ := iht.2 _ ht
      exact ⟨_, pair_trip hd hu hw⟩
    · intro depth hd
      obtain ⟨hh, ht⟩ : IsForm depth h ∧ IsList depth t := by simpa [IsList] using hd
      obtain ⟨u, hu⟩ := ihh.1 _ hh
      obtain ⟨w, hw⟩ := iht.2 _ ht
      exact ⟨_, listItem_trip hu hw⟩
  | other type address =>
    exact ⟨fun _ h => absurd h (by simp [IsForm]), fun _ h => absurd h (by simp [IsList])⟩

end Forms

/-! ### A whole source -/

/-- The forms `rc_read_escaped` returns, one call after the other, up to the end of the source. -/
inductive ReadsAll (libc : Libc) : Text → List Value → Prop
  | eof {source : Text} (h : rcReadEscaped libc source = .eof) : ReadsAll libc source []
  | form {source rest : Text} {v : Value} {vs : List Value}
      (h : rcReadEscaped libc source = .form v rest) (hrest : ReadsAll libc rest vs) :
      ReadsAll libc source (v :: vs)

theorem readForm_newline (libc : Libc) (fuel depth : Nat) (p : Text) :
    readForm libc true (fuel + 1) depth (10 :: p) = readForm libc true (fuel + 1) depth p := by
  have hw : whitespace (10 :: p) = whitespace p := List.dropWhile_cons_of_pos (by decide)
  rw [readForm, readForm, hw]

/-- A line that holds a form. -/
theorem rcReadEscaped_line {libc : Libc} {v : Value} {t : Text} (ht : FormTrip libc 0 v t)
    (rest : Text) :
    rcReadEscaped libc (t ++ 10 :: rest) = .form v (10 :: rest) ∧
      rcReadEscaped libc (10 :: (t ++ 10 :: rest)) = .form v (10 :: rest) := by
  have hread := ht.readsBack (10 :: rest)
  have hdel : Delimited (10 :: rest) := delimited_cons (Or.inl (by decide))
  constructor
  · exact hread _ hdel (by simp; omega)
  · rw [rcReadEscaped, readForm_newline]
    exact hread _ hdel (by simp; omega)

theorem readsAll_writeForms {libc : Libc} (hl : libc.Conforms) {vs : List Value}
    (h : ∀ v ∈ vs, IsForm 0 v) :
    ∃ text, writeForms libc vs = .ok text ∧ 0 ∉ text ∧ ReadsAll libc text vs ∧
      ReadsAll libc (10 :: text) vs := by
  induction vs with
  | nil => exact ⟨[], rfl, by simp, .eof rfl, .eof rfl⟩
  | cons v vs ih =>
    obtain ⟨t, ht⟩ := (form_trip hl v).1 0 (h v (by simp))
    obtain ⟨text, hwritten, hzero, -, hreads⟩ := ih fun w hw => h w (by simp [hw])
    obtain ⟨hline, hline'⟩ := rcReadEscaped_line ht text
    refine ⟨t ++ 10 :: text, ?_, ?_, .form hline hreads, .form hline' hreads⟩
    · rw [writeForms, ht.written, hwritten]
      rfl
    · simp only [List.mem_append, List.mem_cons, not_or]
      exact ⟨ht.noZero, by decide, hzero⟩

/-- **Reading undoes writing**: the forms of a file are written as a text without a zero byte, and
reading it as a C string gives the same forms and then the end of the input. -/
theorem read_write {libc : Libc} (hl : libc.Conforms) {vs : List Value}
    (h : ∀ v ∈ vs, IsForm 0 v) :
    ∃ text, writeForms libc vs = .ok text ∧ 0 ∉ text ∧ ReadsAll libc text vs := by
  obtain ⟨text, hwritten, hzero, hreads, -⟩ := readsAll_writeForms hl h
  exact ⟨text, hwritten, hzero, hreads⟩

/-! ### A library that conforms -/

/-- The exponent field after `e+`, nothing for a zero. -/
def sampleExponent (exp frac : Nat) : Text :=
  if exp = 0 ∧ frac = 0 then [] else 101 :: 43 :: decimal exp

/-- A numeral for every finite double: that of the C library for the two zeros, and one that names the
fields of the double for any other. -/
def sampleFormat : Double → Text
  | .finite neg exp frac =>
    Double.signText neg ++ (decimal frac.val ++ sampleExponent exp.val frac.val)
  | _ => []

/-- The double of an integer that is written with digits only. -/
def sampleInteger (neg : Bool) (k : Nat) : Double :=
  if k = 0 then .finite neg ⟨0, by decide⟩ ⟨0, by decide⟩
  else Double.ofInt (if neg then Int.negOfNat k else Int.ofNat k)

/-- `strtod` on the texts of integers, and the double that is named on those of `sampleFormat`. -/
def sampleStrtod (t : Text) : Strtod :=
  let frac := decimalValue ((dropSign t).takeWhile isDigit)
  let tail := (fraction ((dropSign t).dropWhile isDigit)).2
  let neg := t.head? == some 45
  let exp := decimalValue (tail.drop 2)
  { value :=
      if tail = [] then sampleInteger neg frac
      else if h : exp < 2047 ∧ frac < 2 ^ 52 then .finite neg ⟨exp, h.1⟩ ⟨frac, h.2⟩
      else .nan false
    taken := if decimalToken t then t.length else 0
    erange := false }

def sampleLibc : Libc := ⟨sampleFormat, sampleStrtod⟩

theorem sampleFormat_parts (neg : Bool) (exp : Fin 2047) (frac : Fin (2 ^ 52)) :
    let t := sampleFormat (.finite neg exp frac)
    (dropSign t).takeWhile isDigit = decimal frac.val ∧
      fraction ((dropSign t).dropWhile isDigit) = ([], sampleExponent exp.val frac.val) ∧
      (t.head? == some 45) = neg := by
  intro t
  have hdig : ∀ c ∈ decimal frac.val, isDigit c = true := isDigit_decimal
  have hhead : ∀ c r, decimal frac.val ++ sampleExponent exp.val frac.val = c :: r → isDigit c = true := by
    intro c r h
    obtain ⟨d, ds, hd⟩ := List.exists_cons_of_ne_nil (decimal_ne_nil frac.val)
    rw [hd] at h
    obtain ⟨rfl, -⟩ := List.cons.inj h
    exact hdig d (by simp [hd])
  have hdrop : dropSign t = decimal frac.val ++ sampleExponent exp.val frac.val := by
    cases neg with
    | true => rfl
    | false =>
      show dropSign (decimal frac.val ++ sampleExponent exp.val frac.val) = _
      unfold dropSign
      split
      next h => exact absurd (hhead _ _ h) (by decide)
      next h => exact absurd (hhead _ _ h) (by decide)
      · rfl
  have hexp : (sampleExponent exp.val frac.val).takeWhile isDigit = [] ∧
      (sampleExponent exp.val frac.val).dropWhile isDigit = sampleExponent exp.val frac.val := by
    unfold sampleExponent
    split <;> simp [isDigit]
  refine ⟨?_, ?_, ?_⟩
  · rw [hdrop, List.takeWhile_append_of_pos hdig, hexp.1, List.append_nil]
  · rw [hdrop, List.dropWhile_append_of_pos hdig, hexp.2]
    unfold sampleExponent
    split <;> rfl
  · cases neg with
    | true => rfl
    | false =>
      show ((decimal frac.val ++ sampleExponent exp.val frac.val).head? == some 45) = false
      obtain ⟨d, ds, hd⟩ := List.exists_cons_of_ne_nil (decimal_ne_nil frac.val)
      have := hdig d (by simp [hd])
      rw [hd]
      simp only [List.cons_append, List.head?_cons, Option.some_beq_some, beq_eq_false_iff_ne]
      rintro rfl
      exact absurd this (by decide)

theorem sampleExponent_value (exp frac : Nat) :
    decimalValue ((sampleExponent exp frac).drop 2) = exp ∧
      exponentEnd (sampleExponent exp frac) = true := by
  unfold sampleExponent
  split
  next h => rw [h.1]; decide
  · refine ⟨decimalValue_decimal exp, ?_⟩
    have hdig : ∀ c ∈ decimal exp, isDigit c = true := isDigit_decimal
    show (_ && !((decimal exp).takeWhile isDigit).isEmpty
      && ((decimal exp).dropWhile isDigit).isEmpty) = true
    rw [takeWhile_digits hdig, dropWhile_digits hdig]
    simp [decimal_ne_nil]

theorem sampleLibc_conforms : sampleLibc.Conforms where
  numeral d hd := by
    cases d with
    | finite neg exp frac =>
      obtain ⟨htake, hfrac, -⟩ := sampleFormat_parts neg exp frac
      show decimalToken (sampleFormat (.finite neg exp frac)) = true
      simp only [decimalToken, htake, hfrac, (sampleExponent_value exp.val frac.val).2]
      simp [decimal_ne_nil]
    | _ => exact absurd hd (by simp [Double.isFinite])
  readsBack d hd := by
    cases d with
    | finite neg exp frac =>
      obtain ⟨htake, hfrac, hneg⟩ := sampleFormat_parts neg exp frac
      refine ⟨?_, fun _ => rfl⟩
      show (sampleStrtod (sampleFormat (.finite neg exp frac))).value = _
      simp only [sampleStrtod, htake, hfrac, hneg, (sampleExponent_value exp.val frac.val).1,
        decimalValue_decimal]
      by_cases hzero : exp.val = 0 ∧ frac.val = 0
      · have hempty : sampleExponent exp.val frac.val = [] := if_pos hzero
        rw [if_pos hempty, sampleInteger, if_pos hzero.2, Double.finite.injEq]
        exact ⟨rfl, Fin.ext hzero.1.symm, Fin.ext hzero.2.symm⟩
      · have hfield : sampleExponent exp.val frac.val = 101 :: 43 :: decimal exp.val := if_neg hzero
        have hne : sampleExponent exp.val frac.val ≠ [] := hfield ▸ List.cons_ne_nil _ _
        rw [if_neg hne, dif_pos ⟨exp.isLt, frac.isLt⟩]
    | _ => exact absurd hd (by simp [Double.isFinite])
  takes t ht := by
    show (if decimalToken t then t.length else 0) = _
    rw [if_pos ht]
  point t ht h46 h101 h69 := by
    obtain ⟨hdig, -⟩ := digits_of_decimalToken ht h46 h101 h69
    have hne := decimalToken_ne_nil ht
    refine ⟨?_, rfl⟩
    have htake : (dropSign t ++ [46, 48]).takeWhile isDigit = dropSign t := by
      rw [List.takeWhile_append_of_pos hdig]
      simp [isDigit]
    have hdrop : (dropSign t ++ [46, 48]).dropWhile isDigit = [46, 48] := by
      rw [List.dropWhile_append_of_pos hdig]
      decide
    have hhead : (t ++ [46, 48]).head? = t.head? := List.head?_append_of_ne_nil _ hne
    have hf : fraction [46, 48] = ([48], []) := by decide
    show (sampleStrtod (t ++ [46, 48])).value = (sampleStrtod t).value
    simp only [sampleStrtod, dropSign_append hne, htake, hdrop, hf, hhead, takeWhile_digits hdig,
      dropWhile_digits hdig]
    rfl
  inRange _ _ := rfl

/-- `()`, a negative zero with the least integer, and a list of a name that looks like a number, the
empty name, a name that looks quoted, and a string with a quote and a zero byte. -/
def sampleForms : List Value :=
  [.nil,
    .pair (.number (.real .negZero)) (.pair (.int (-2 ^ 63)) .nil),
    .pair (.symbol [49, 50]) (.pair (.symbol []) (.pair (.symbol [35, 115, 121, 109, 34])
      (.pair (.string [34, 0, 200]) .nil)))]

theorem read_write_sample :
    ∃ text, writeForms sampleLibc sampleForms = .ok text ∧ 0 ∉ text ∧
      ReadsAll sampleLibc text sampleForms := by
  refine read_write sampleLibc_conforms fun v hv => ?_
  simp only [sampleForms, List.mem_cons, List.not_mem_nil, or_false] at hv
  rcases hv with rfl | rfl | rfl <;>
    simp [IsForm, IsList, Double.isFinite, Double.negZero, Value.int]

end ShenRc.KL
