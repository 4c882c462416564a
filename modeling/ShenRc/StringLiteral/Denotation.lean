import Mathlib.Data.List.Infix
import Mathlib.Data.List.TakeWhile
import Mathlib.Data.UInt

/-! # What a C string literal denotes

The translation phases of the 2017 standard that decide the bytes of one string literal, over text as a
list of bytes: trigraph replacement (phase 1), line splicing (phase 2), and the scan of the literal with
its escape sequences (phases 3 and 5). `literal` is `none` on a text that is not exactly one
well-formed literal.

Every recursion is on the text itself: after an escape sequence the scan skips the characters the
sequence took. -/

namespace ShenRc.StringLiteral

/-! ### Phase 1: trigraphs -/

/-- The character that replaces `??c`. -/
def trigraph : UInt8 → Option UInt8
  | 61 => some 35   -- ??=  #
  | 47 => some 92   -- ??/  backslash
  | 39 => some 94   -- ??'  ^
  | 40 => some 91   -- ??(  [
  | 41 => some 93   -- ??)  ]
  | 33 => some 124  -- ??!  |
  | 60 => some 123  -- ??<  left brace
  | 62 => some 125  -- ??>  right brace
  | 45 => some 126  -- ??-  ~
  | _ => none

/-- **Phase 1**: every trigraph is replaced, from the left. -/
def phase1 : List UInt8 → List UInt8
  | 63 :: 63 :: c :: rest =>
    match trigraph c with
    | some d => d :: phase1 rest
    | none => 63 :: phase1 (63 :: c :: rest)
  | c :: rest => c :: phase1 rest
  | [] => []

/-- Some trigraph occurs in the text. -/
def HasTrigraph (text : List UInt8) : Prop :=
  ∃ c, (trigraph c).isSome ∧ [63, 63, c] <:+: text

/-- The trigraph the text starts with, as the replacement and the text after it. -/
def headTrigraph : List UInt8 → Option (UInt8 × List UInt8)
  | 63 :: 63 :: c :: rest => (trigraph c).map fun d => (d, rest)
  | _ => none

theorem phase1_head {text rest : List UInt8} {d : UInt8}
    (h : headTrigraph text = some (d, rest)) : phase1 text = d :: phase1 rest := by
  unfold headTrigraph at h
  split at h
  next c r =>
    obtain ⟨d', hd', he⟩ := Option.map_eq_some_iff.mp h
    obtain ⟨rfl, rfl⟩ := Prod.mk.inj he
    simp [phase1, hd']
  · exact absurd h (by simp)

theorem phase1_cons {c : UInt8} {rest : List UInt8} (h : headTrigraph (c :: rest) = none) :
    phase1 (c :: rest) = c :: phase1 rest := by
  rw [phase1.eq_def]
  split
  next c' r he =>
    rw [he] at h
    have hc : trigraph c' = none := by simpa [headTrigraph] using h
    obtain ⟨rfl, rfl⟩ := List.cons.inj he
    simp [hc]
  next he => rw [(List.cons.inj he).1, (List.cons.inj he).2]
  next he => exact absurd he (by simp)

theorem headTrigraph_of_ne {c : UInt8} (rest : List UInt8) (h : c ≠ 63) :
    headTrigraph (c :: rest) = none := by
  unfold headTrigraph
  split
  next he => exact absurd (List.cons.inj he).1 h
  · rfl

/-- Phase 1 keeps a stretch without question marks. -/
theorem phase1_append {s : List UInt8} (h : ∀ c ∈ s, c ≠ 63) (rest : List UInt8) :
    phase1 (s ++ rest) = s ++ phase1 rest := by
  induction s with
  | nil => rfl
  | cons c s ih =>
    rw [List.cons_append, phase1_cons (headTrigraph_of_ne _ (h c (by simp))),
      ih fun b hb => h b (by simp [hb]), List.cons_append]

theorem headTrigraph_eq {text rest : List UInt8} {d : UInt8}
    (h : headTrigraph text = some (d, rest)) :
    ∃ c, trigraph c = some d ∧ text = 63 :: 63 :: c :: rest := by
  unfold headTrigraph at h
  split at h
  next c r =>
    obtain ⟨d', hd', he⟩ := Option.map_eq_some_iff.mp h
    obtain ⟨rfl, rfl⟩ := Prod.mk.inj he
    exact ⟨c, hd', rfl⟩
  · exact absurd h (by simp)

/-- Every trigraph starts with a question mark, and none stands for one. -/
theorem trigraph_range {c d : UInt8} (h : trigraph c = some d) :
    (33 ≤ c ∧ c < 63 ∧ c ≠ 34) ∧
      d ∈ ([35, 92, 94, 91, 93, 124, 123, 125, 126] : List UInt8) := by
  unfold trigraph at h
  split at h <;> cases h <;> decide

@[simp] theorem hasTrigraph_nil : ¬ HasTrigraph [] := by
  rintro ⟨c, -, h⟩
  simpa using List.infix_nil.mp h

theorem hasTrigraph_cons {c : UInt8} {rest : List UInt8} :
    HasTrigraph (c :: rest) ↔ (headTrigraph (c :: rest)).isSome ∨ HasTrigraph rest := by
  constructor
  · rintro ⟨b, hb, h⟩
    rcases List.infix_cons_iff.mp h with hp | hi
    · obtain ⟨t, ht⟩ := hp
      left
      rw [← ht]
      simpa [headTrigraph] using hb
    · exact Or.inr ⟨b, hb, hi⟩
  · rintro (h | ⟨b, hb, hi⟩)
    · obtain ⟨⟨d, r⟩, hd⟩ := Option.isSome_iff_exists.mp h
      obtain ⟨b, hb, ht⟩ := headTrigraph_eq hd
      exact ⟨b, by simp [hb], ht ▸ (List.prefix_append [63, 63, b] r).isInfix⟩
    · exact ⟨b, hb, hi.trans (List.suffix_cons c rest).isInfix⟩

/-- A character after phase 1 was there before or replaces a trigraph. -/
theorem mem_phase1 {text : List UInt8} {c : UInt8} (h : c ∈ phase1 text) :
    c ∈ text ∨ ∃ b, trigraph b = some c := by
  induction text using phase1.induct with
  | case1 b rest d hd ih =>
    rw [phase1, hd] at h
    rcases List.mem_cons.mp h with rfl | h
    · exact Or.inr ⟨b, hd⟩
    · exact (ih h).imp (fun hm => by simp [hm]) id
  | case2 b rest hb ih =>
    rw [phase1, hb] at h
    rcases List.mem_cons.mp h with rfl | h
    · exact Or.inl (by simp)
    · exact (ih h).imp (fun hm => List.mem_cons_of_mem _ hm) id
  | case3 b rest hne ih =>
    rw [phase1.eq_2 _ _ hne] at h
    rcases List.mem_cons.mp h with rfl | h
    · exact Or.inl (by simp)
    · exact (ih h).imp (fun hm => List.mem_cons_of_mem _ hm) id
  | case4 => exact absurd h (by simp [phase1])

/-! ### Phase 2: line splicing -/

/-- **Phase 2**: a backslash at the end of a line is deleted together with the line break. -/
def splice : List UInt8 → List UInt8
  | 92 :: 10 :: rest => splice rest
  | c :: rest => c :: splice rest
  | [] => []

theorem splice_eq_self {text : List UInt8} (h : (10 : UInt8) ∉ text) : splice text = text := by
  induction text using splice.induct with
  | case1 rest ih => exact absurd (by simp) h
  | case2 c rest hne ih =>
    rw [splice.eq_2 _ _ hne, ih (fun hm => h (List.mem_cons_of_mem _ hm))]
  | case3 => rfl

/-! ### Phases 3 and 5: the literal and its escape sequences -/

def isOctal (c : UInt8) : Bool := 48 ≤ c && c ≤ 55

def isHex (c : UInt8) : Bool :=
  (48 ≤ c && c ≤ 57) || (65 ≤ c && c ≤ 70) || (97 ≤ c && c ≤ 102)

/-- The value of a digit of base sixteen or less. -/
def digitValue (c : UInt8) : Nat :=
  if c ≤ 57 then c.toNat - 48 else if c ≤ 70 then c.toNat - 55 else c.toNat - 87

def digitsValue (base : Nat) (digits : List UInt8) : Nat :=
  digits.foldl (fun n c => n * base + digitValue c) 0

/-- The simple escape sequences. -/
def simpleEscape : UInt8 → Option UInt8
  | 39 => some 39    -- '
  | 34 => some 34    -- "
  | 63 => some 63    -- ?
  | 92 => some 92    -- backslash
  | 97 => some 7     -- a
  | 98 => some 8     -- b
  | 102 => some 12   -- f
  | 110 => some 10   -- n
  | 114 => some 13   -- r
  | 116 => some 9    -- t
  | 118 => some 11   -- v
  | _ => none

/-- The bytes of a character in the execution character set (UTF-8). -/
def utf8 (v : Nat) : List UInt8 :=
  if v < 0x80 then [UInt8.ofNat v]
  else if v < 0x800 then [UInt8.ofNat (0xC0 + v / 64), UInt8.ofNat (0x80 + v % 64)]
  else if v < 0x10000 then
    [UInt8.ofNat (0xE0 + v / 4096), UInt8.ofNat (0x80 + v / 64 % 64), UInt8.ofNat (0x80 + v % 64)]
  else
    [UInt8.ofNat (0xF0 + v / 262144), UInt8.ofNat (0x80 + v / 4096 % 64),
      UInt8.ofNat (0x80 + v / 64 % 64), UInt8.ofNat (0x80 + v % 64)]

/-- The values a universal character name may have. -/
def allowedName (v : Nat) : Bool :=
  (0xA0 ≤ v || v == 0x24 || v == 0x40 || v == 0x60) && !(0xD800 ≤ v && v ≤ 0xDFFF)
    && v ≤ 0x10FFFF

def octalEscape (text : List UInt8) : Option (List UInt8 × Nat) :=
  let digits := (text.take 3).takeWhile isOctal
  let v := digitsValue 8 digits
  if v < 256 then some ([UInt8.ofNat v], digits.length) else none

def hexEscape (text : List UInt8) : Option (List UInt8 × Nat) :=
  let digits := text.takeWhile isHex
  let v := digitsValue 16 digits
  if digits = [] then none
  else if v < 256 then some ([UInt8.ofNat v], digits.length + 1) else none

def universalName (n : Nat) (text : List UInt8) : Option (List UInt8 × Nat) :=
  let digits := (text.take n).takeWhile isHex
  let v := digitsValue 16 digits
  if digits.length = n ∧ allowedName v = true then some (utf8 v, n + 1) else none

/-- The escape sequence after a backslash: the bytes it denotes and how many characters it takes. -/
def escape : List UInt8 → Option (List UInt8 × Nat)
  | [] => none
  | c :: rest =>
    if isOctal c then octalEscape (c :: rest)
    else if c = 120 then hexEscape rest
    else if c = 117 then universalName 4 rest
    else if c = 85 then universalName 8 rest
    else (simpleEscape c).map fun v => ([v], 1)

/-- The rest of a literal after its opening quote, the first `skip` characters belonging to an
escape sequence that is already read; the literal must end where the text does. -/
def body : Nat → List UInt8 → Option (List UInt8)
  | _, [] => none
  | skip + 1, _ :: rest => body skip rest
  | 0, c :: rest =>
    if c = 34 then (if rest = [] then some [] else none)
    else if c = 92 then
      match escape rest with
      | some (v, n) => (body n rest).map (v ++ ·)
      | none => none
    else if c = 10 then none
    else (body 0 rest).map (c :: ·)

/-- **The bytes of a string literal**: `none` unless the text is exactly one well-formed literal. -/
def literal (text : List UInt8) : Option (List UInt8) :=
  match splice (phase1 text) with
  | 34 :: rest => body 0 rest
  | _ => none

theorem body_drop (skip : Nat) (text : List UInt8) : body skip text = body 0 (text.drop skip) := by
  induction skip generalizing text with
  | zero => rfl
  | succ n ih =>
    cases text with
    | nil => simp [body]
    | cons c rest => rw [body, ih, List.drop_succ_cons]

theorem body_plain {c : UInt8} {rest : List UInt8} (h34 : c ≠ 34) (h92 : c ≠ 92) (h10 : c ≠ 10) :
    body 0 (c :: rest) = (body 0 rest).map (c :: ·) := by
  simp [body, h34, h92, h10]

theorem body_plain_append {s rest : List UInt8} (h : ∀ c ∈ s, c ≠ 34 ∧ c ≠ 92 ∧ c ≠ 10) :
    body 0 (s ++ rest) = (body 0 rest).map (s ++ ·) := by
  induction s with
  | nil => simp
  | cons c s ih =>
    obtain ⟨h34, h92, h10⟩ := h c (by simp)
    rw [List.cons_append, body_plain h34 h92 h10, ih fun b hb => h b (by simp [hb])]
    simp [Function.comp_def]

theorem body_escape {text v : List UInt8} {n : Nat} (h : escape text = some (v, n)) :
    body 0 (92 :: text) = (body 0 (text.drop n)).map (v ++ ·) := by
  simp [body, h, body_drop n]

theorem body_escape_none {text : List UInt8} (h : escape text = none) :
    body 0 (92 :: text) = none := by
  simp [body, h]

/-! ### What one escape sequence can do -/

theorem isHex_of_isOctal {c : UInt8} (h : isOctal c = true) : isHex c = true := by
  unfold isOctal at h
  unfold isHex
  grind

theorem utf8_count (v : Nat) (h : allowedName v = true) : (utf8 v).count 63 ≤ 1 := by
  have hne : ∀ m, m < 256 → m ≠ 63 → UInt8.ofNat m ≠ 63 := by
    intro m hm hne he
    have := congrArg UInt8.toNat he
    rw [UInt8.toNat_ofNat_of_lt' (by simpa using hm)] at this
    exact hne (by simpa using this)
  have hv : v ≤ 0x10FFFF := by
    simp only [allowedName, Bool.and_eq_true, decide_eq_true_eq] at h
    exact h.2
  unfold utf8
  split
  · simp [List.count_cons]; split <;> omega
  · split
    · rw [List.count_eq_zero_of_not_mem]
      · omega
      · simp only [List.mem_cons, List.not_mem_nil, or_false, not_or]
        exact ⟨(hne _ (by omega) (by omega)).symm, (hne _ (by omega) (by omega)).symm⟩
    · split
      · rw [List.count_eq_zero_of_not_mem]
        · omega
        · simp only [List.mem_cons, List.not_mem_nil, or_false, not_or]
          exact ⟨(hne _ (by omega) (by omega)).symm, (hne _ (by omega) (by omega)).symm,
            (hne _ (by omega) (by omega)).symm⟩
      · rw [List.count_eq_zero_of_not_mem]
        · omega
        · simp only [List.mem_cons, List.not_mem_nil, or_false, not_or]
          exact ⟨(hne _ (by omega) (by omega)).symm, (hne _ (by omega) (by omega)).symm,
            (hne _ (by omega) (by omega)).symm, (hne _ (by omega) (by omega)).symm⟩

theorem count_singleton_le (a b : UInt8) : [a].count b ≤ 1 := by
  simp [List.count_cons]
  split <;> omega

/-- What an escape sequence takes and gives: every character it takes after its first is a
hexadecimal digit, and at most one question mark comes out. -/
def Takes (rest v : List UInt8) (n : Nat) : Prop :=
  v.count 63 ≤ 1 ∧ ∃ m, n = m + 1 ∧ ∀ b ∈ rest.take m, isHex b = true

theorem octalEscape_takes {c : UInt8} {rest v : List UInt8} {n : Nat} (hc : isOctal c = true)
    (h : octalEscape (c :: rest) = some (v, n)) : Takes rest v n := by
  simp only [octalEscape, Option.ite_none_right_eq_some, Option.some.injEq, Prod.mk.injEq] at h
  obtain ⟨-, rfl, rfl⟩ := h
  refine ⟨count_singleton_le _ _, ((rest.take 2).takeWhile isOctal).length, by simp [hc], ?_⟩
  intro b hb
  have hp : (rest.take 2).takeWhile isOctal <+: rest :=
    (List.takeWhile_prefix _).trans (List.take_prefix _ _)
  rw [← List.prefix_iff_eq_take.mp hp] at hb
  exact isHex_of_isOctal (List.mem_takeWhile_imp hb)

theorem hexEscape_takes {rest v : List UInt8} {n : Nat}
    (h : hexEscape rest = some (v, n)) : Takes rest v n := by
  simp only [hexEscape, Option.ite_none_left_eq_some, Option.ite_none_right_eq_some,
    Option.some.injEq, Prod.mk.injEq] at h
  obtain ⟨-, -, rfl, rfl⟩ := h
  refine ⟨count_singleton_le _ _, _, rfl, fun b hb => ?_⟩
  rw [← List.prefix_iff_eq_take.mp (List.takeWhile_prefix _)] at hb
  exact List.mem_takeWhile_imp hb

theorem universalName_takes {k : Nat} {rest v : List UInt8} {n : Nat}
    (h : universalName k rest = some (v, n)) : Takes rest v n := by
  simp only [universalName, Option.ite_none_right_eq_some, Option.some.injEq,
    Prod.mk.injEq] at h
  obtain ⟨⟨hl, ha⟩, rfl, rfl⟩ := h
  refine ⟨utf8_count _ ha, k, rfl, fun b hb => ?_⟩
  have he := (List.takeWhile_prefix (l := rest.take k) isHex).eq_of_length_le (by rw [hl]; simp)
  rw [← he] at hb
  exact List.mem_takeWhile_imp hb

theorem escape_takes {c : UInt8} {rest v : List UInt8} {n : Nat}
    (h : escape (c :: rest) = some (v, n)) : Takes rest v n := by
  rw [escape] at h
  split at h
  next ho => exact octalEscape_takes ho h
  · split at h
    · exact hexEscape_takes h
    · split at h
      · exact universalName_takes h
      · split at h
        · exact universalName_takes h
        · obtain ⟨w, -, hw⟩ := Option.map_eq_some_iff.mp h
          obtain ⟨rfl, rfl⟩ := Prod.mk.inj hw
          exact ⟨count_singleton_le _ _, 0, rfl, by simp⟩

end ShenRc.StringLiteral
