import ShenRc.StringLiteral.Denotation
import ShenRc.Numeral.Decimal

/-! # String literals of the emitted C

`quotedN` writes a byte string as a C string literal; the literal is then read by a C compiler
(`StringLiteral.literal`). `T s` is the rest of the literal after its opening quote as the compiler sees
it after phase 1, and `body 0 (T s)` what it denotes.

* Where `s` has no trigraph, `T s` is the text `quotedN` wrote and every byte reads back as itself
  (`body_T_cons`).
* Where `s` has one, count the question marks: a raw `?` is the only way the text says `?`, except
  for the escape sequence that a trigraph `??/` opens, which makes at most one out of what follows.
  So two are lost for one gained, and the literal cannot denote `s` (`count_le`). -/

namespace ShenRc.Emit

open StringLiteral

/-! ### The emitter -/

/-- The three digits of `%03o`. -/
def octal3 (c : UInt8) : List UInt8 := [48 + c / 64, 48 + c / 8 % 8, 48 + c % 8]

/-- The text of one byte of a literal. -/
def quotedByte (c : UInt8) : List UInt8 :=
  if c = 34 ∨ c = 92 then [92, c]
  else if c < 32 ∨ 127 ≤ c then 92 :: octal3 c
  else [c]

def quotedN (s : List UInt8) : List UInt8 := 34 :: s.flatMap quotedByte ++ [34]

/-- The literal of `s` after its opening quote. -/
def tail (s : List UInt8) : List UInt8 := s.flatMap quotedByte ++ [34]

/-- The same text after trigraph replacement. -/
def T (s : List UInt8) : List UInt8 := phase1 (tail s)

/-- A byte that stands for itself in the literal. -/
def Raw (c : UInt8) : Prop := c ≠ 34 ∧ c ≠ 92 ∧ 32 ≤ c ∧ c < 127

theorem quotedByte_raw {c : UInt8} (h : Raw c) : quotedByte c = [c] := by
  obtain ⟨h34, h92, h32, h127⟩ := h
  unfold quotedByte
  rw [if_neg (by simp [h34, h92]), if_neg (by grind)]

theorem quotedByte_cases (c : UInt8) :
    (Raw c ∧ quotedByte c = [c]) ∨ (c = 34 ∧ quotedByte c = [92, 34]) ∨
      (c = 92 ∧ quotedByte c = [92, 92]) ∨ ((c < 32 ∨ 127 ≤ c) ∧ quotedByte c = 92 :: octal3 c) := by
  unfold quotedByte Raw
  grind

/-- The digits of an octal escape are plain characters, none of them a question mark. -/
theorem octal3_plain (c : UInt8) : ∀ d ∈ octal3 c, d ≠ 34 ∧ d ≠ 92 ∧ d ≠ 10 ∧ d ≠ 63 := by
  simp only [octal3, List.mem_cons, List.not_mem_nil, or_false]
  grind

theorem tail_cons (c : UInt8) (s : List UInt8) : tail (c :: s) = quotedByte c ++ tail s := by
  simp [tail]

theorem quotedN_eq (s : List UInt8) : quotedN s = 34 :: tail s := rfl

/-! ### Trigraphs of the literal are trigraphs of the string -/

theorem raw_of_trigraph {c d : UInt8} (h : trigraph c = some d) : Raw c := by
  obtain ⟨⟨h33, h63, h34⟩, -⟩ := trigraph_range h
  unfold Raw
  grind

/-- The text of a byte string starts with a raw character only where the string does. -/
theorem tail_head {s t : List UInt8} {c : UInt8} (h : tail s = c :: t) (h34 : c ≠ 34)
    (h92 : c ≠ 92) : ∃ r, s = c :: r ∧ t = tail r := by
  cases s with
  | nil => exact absurd (List.cons.inj h).1.symm h34
  | cons b r =>
    rw [tail_cons] at h
    rcases quotedByte_cases b with ⟨-, hq⟩ | ⟨-, hq⟩ | ⟨-, hq⟩ | ⟨-, hq⟩ <;> rw [hq] at h <;>
      obtain ⟨rfl, rfl⟩ := List.cons.inj h
    · exact ⟨r, rfl, rfl⟩
    all_goals exact absurd rfl h92

theorem headTrigraph_tail (s : List UInt8) :
    headTrigraph (tail s) = (headTrigraph s).map fun p => (p.1, tail p.2) := by
  cases hs : headTrigraph s with
  | some p =>
    obtain ⟨c, hc, rfl⟩ := headTrigraph_eq hs
    have h63 : Raw 63 := by unfold Raw; decide
    simp only [tail_cons, quotedByte_raw h63, quotedByte_raw (raw_of_trigraph hc)]
    simp [headTrigraph, hc]
  | none =>
    cases ht : headTrigraph (tail s) with
    | none => rfl
    | some p =>
      obtain ⟨c, hc, he⟩ := headTrigraph_eq ht
      obtain ⟨r, rfl, h1⟩ := tail_head he (by decide) (by decide)
      obtain ⟨r', rfl, h2⟩ := tail_head h1.symm (by decide) (by decide)
      have hraw := raw_of_trigraph hc
      obtain ⟨r'', rfl, -⟩ := tail_head h2.symm hraw.1 hraw.2.1
      simp [headTrigraph, hc] at hs

theorem T_nil : T [] = [34] := by decide

theorem T_head {s r : List UInt8} {d : UInt8} (h : headTrigraph s = some (d, r)) :
    T s = d :: T r := by
  apply phase1_head
  rw [headTrigraph_tail, h]
  rfl

/-- Phase 1 keeps what is written for a byte that starts no trigraph. -/
theorem T_cons {c : UInt8} {s : List UInt8} (h : headTrigraph (c :: s) = none) :
    T (c :: s) = quotedByte c ++ T s := by
  unfold T
  have ht : headTrigraph (tail (c :: s)) = none := by rw [headTrigraph_tail, h]; rfl
  have hkeep : ∀ {b : UInt8} (t : List UInt8), b ≠ 63 → phase1 (b :: t) = b :: phase1 t :=
    fun t hb => phase1_cons (headTrigraph_of_ne t hb)
  rw [tail_cons] at ht ⊢
  rcases quotedByte_cases c with ⟨-, hq⟩ | ⟨-, hq⟩ | ⟨-, hq⟩ | ⟨-, hq⟩ <;> rw [hq] at ht ⊢
  · exact phase1_cons ht
  · rw [List.cons_append, hkeep _ (by decide), List.cons_append, hkeep _ (by decide)]
    rfl
  · rw [List.cons_append, hkeep _ (by decide), List.cons_append, hkeep _ (by decide)]
    rfl
  · have hne : ∀ d ∈ octal3 c, d ≠ 63 := fun d hd => (octal3_plain c d hd).2.2.2
    rw [List.cons_append, hkeep _ (by decide), phase1_append hne]
    rfl

/-! ### Without trigraphs every byte reads back -/

theorem octal3_escape (c : UInt8) (t : List UInt8) :
    escape (octal3 c ++ t) = some ([c], 3) := by
  have hd : ∀ c : UInt8, (isOctal (48 + c / 64) && isOctal (48 + c / 8 % 8) && isOctal (48 + c % 8)
      && digitsValue 8 (octal3 c) == c.toNat) = true :=
    Numeral.forall_byte (by decide +kernel)
  have h := hd c
  simp only [Bool.and_eq_true, beq_iff_eq] at h
  obtain ⟨⟨⟨h1, h2⟩, h3⟩, hv⟩ := h
  have ht : ((octal3 c ++ t).take 3).takeWhile isOctal = octal3 c := by
    simp [octal3, h1, h2, h3]
  have hstart : escape (octal3 c ++ t) = octalEscape (octal3 c ++ t) := by
    simp [octal3, escape, h1]
  rw [hstart]
  simp only [octalEscape, ht, hv]
  rw [if_pos c.toNat_lt]
  simp [octal3]

/-- **One byte of the literal reads back as itself.** -/
theorem body_quotedByte (c : UInt8) (t : List UInt8) :
    body 0 (quotedByte c ++ t) = (body 0 t).map (c :: ·) := by
  rcases quotedByte_cases c with ⟨hr, hq⟩ | ⟨rfl, hq⟩ | ⟨rfl, hq⟩ | ⟨-, hq⟩ <;> rw [hq]
  · exact body_plain hr.1 hr.2.1 (by have := hr.2.2.1; grind)
  · exact body_escape (v := [34]) (n := 1) (by rfl)
  · exact body_escape (v := [92]) (n := 1) (by rfl)
  · rw [List.cons_append, body_escape (octal3_escape c t)]
    simp [octal3]

theorem body_T_cons {c : UInt8} {s : List UInt8} (h : headTrigraph (c :: s) = none) :
    body 0 (T (c :: s)) = (body 0 (T s)).map (c :: ·) := by
  rw [T_cons h, body_quotedByte]

theorem body_T_nil : body 0 (T []) = some [] := by decide

/-! ### A trigraph loses question marks -/

/-- Hexadecimal digits of the literal are raw characters, and no trigraph makes one. -/
theorem T_drop {s : List UInt8} {m : Nat} (h : ∀ b ∈ (T s).take m, isHex b = true) :
    (T s).drop m = T (s.drop m) := by
  induction m generalizing s with
  | zero => rfl
  | succ m ih =>
    cases s with
    | nil =>
      have := h 34 (by simp [T_nil])
      exact absurd this (by decide)
    | cons c r =>
      cases ht : headTrigraph (c :: r) with
      | some p =>
        obtain ⟨b, hb, -⟩ := headTrigraph_eq ht
        have hd := h p.1 (by simp [T_head ht])
        have := (trigraph_range hb).2
        simp only [List.mem_cons, List.not_mem_nil, or_false] at this
        rcases this with he | he | he | he | he | he | he | he | he <;> rw [he] at hd <;>
          exact absurd hd (by decide)
      | none =>
        rw [T_cons ht] at h ⊢
        rcases quotedByte_cases c with ⟨-, hq⟩ | ⟨-, hq⟩ | ⟨-, hq⟩ | ⟨-, hq⟩ <;> rw [hq] at h ⊢
        · exact ih fun b hb => h b (by simp [hb])
        all_goals exact absurd (h 92 (by simp)) (by decide)

/-- A trigraph stands for a backslash or for a character that means itself and escapes nothing. -/
theorem trigraph_cases {c d : UInt8} (h : trigraph c = some d) :
    d = 92 ∨ ((d ≠ 34 ∧ d ≠ 92 ∧ d ≠ 10 ∧ d ≠ 63) ∧ ∀ t, escape (d :: t) = none) := by
  have hd := (trigraph_range h).2
  simp only [List.mem_cons, List.not_mem_nil, or_false] at hd
  rcases hd with rfl | rfl | rfl | rfl | rfl | rfl | rfl | rfl | rfl
  · exact Or.inr ⟨by decide, fun t => rfl⟩
  · exact Or.inl rfl
  all_goals exact Or.inr ⟨by decide, fun t => rfl⟩

theorem T_ne_nil (s : List UInt8) : T s ≠ [] := by
  cases ht : headTrigraph s with
  | some p => rw [T_head ht]; simp
  | none =>
    cases s with
    | nil => decide
    | cons c r =>
      rw [T_cons ht]
      rcases quotedByte_cases c with ⟨-, hq⟩ | ⟨-, hq⟩ | ⟨-, hq⟩ | ⟨-, hq⟩ <;> simp [hq]

theorem count_headTrigraph {s r : List UInt8} {d : UInt8} (h : headTrigraph s = some (d, r)) :
    s.count 63 = r.count 63 + 2 ∧ r.length < s.length := by
  obtain ⟨c, hc, rfl⟩ := headTrigraph_eq h
  have hne : c ≠ 63 := by have := (trigraph_range hc).1.2.1; grind
  constructor
  · simp [hne]
  · simp
    omega

/-- The bound for a literal, from the bounds for shorter strings. -/
theorem count_le_body {s w : List UInt8} (h : body 0 (T s) = some w)
    (ih : ∀ r : List UInt8, r.length < s.length → ∀ w,
      (body 0 (T r) = some w → w.count 63 ≤ r.count 63) ∧
        (body 0 (92 :: T r) = some w → w.count 63 ≤ r.count 63 + 1)) :
    w.count 63 ≤ s.count 63 := by
  cases ht : headTrigraph s with
  | some p =>
    obtain ⟨hcount, hlt⟩ := count_headTrigraph ht
    obtain ⟨c, hc, -⟩ := headTrigraph_eq ht
    rw [T_head ht] at h
    rcases trigraph_cases hc with hd | ⟨⟨h34, h92, h10, h63⟩, -⟩
    · rw [hd] at h
      have := (ih _ hlt w).2 h
      omega
    · rw [body_plain h34 h92 h10] at h
      obtain ⟨w', hw', rfl⟩ := Option.map_eq_some_iff.mp h
      have := (ih _ hlt w').1 hw'
      rw [List.count_cons_of_ne h63]
      omega
  | none =>
    cases s with
    | nil => cases Option.some.inj (body_T_nil.symm.trans h); rfl
    | cons c r =>
      rw [body_T_cons ht] at h
      obtain ⟨w', hw', rfl⟩ := Option.map_eq_some_iff.mp h
      have := (ih r (by simp) w').1 hw'
      simp only [List.count_cons]
      omega

/-- The bound for a literal after a stray backslash, from the bounds for shorter strings. -/
theorem count_le_escape {s w : List UInt8} (h : body 0 (92 :: T s) = some w)
    (ih : ∀ r : List UInt8, r.length < s.length → ∀ w,
      (body 0 (T r) = some w → w.count 63 ≤ r.count 63) ∧
        (body 0 (92 :: T r) = some w → w.count 63 ≤ r.count 63 + 1)) :
    w.count 63 ≤ s.count 63 + 1 := by
  -- a backslash follows the stray one, and `t` the pair
  have hpair : ∀ t w, body 0 (92 :: 92 :: t) = some w → ∃ w', body 0 t = some w' ∧ w = 92 :: w' := by
    intro t w h
    rw [body_escape (v := [92]) (n := 1) (by rfl)] at h
    obtain ⟨w', hw', rfl⟩ := Option.map_eq_some_iff.mp h
    exact ⟨w', hw', rfl⟩
  cases ht : headTrigraph s with
  | some p =>
    obtain ⟨hcount, hlt⟩ := count_headTrigraph ht
    obtain ⟨c, hc, -⟩ := headTrigraph_eq ht
    rw [T_head ht] at h
    rcases trigraph_cases hc with hd | ⟨-, hesc⟩
    · rw [hd] at h
      obtain ⟨w', hw', rfl⟩ := hpair _ _ h
      have := (ih _ hlt w').1 hw'
      rw [List.count_cons_of_ne (by decide)]
      omega
    · exact absurd h (by simp [body_escape_none (hesc _)])
  | none =>
    cases s with
    | nil =>
      have hnone : body 0 (92 :: T []) = none := by decide
      exact absurd (hnone.symm.trans h) (by simp)
    | cons c r =>
      have hr : r.length < (c :: r).length := by simp
      rw [T_cons ht] at h
      simp only [List.count_cons]
      rcases quotedByte_cases c with ⟨-, hq⟩ | ⟨-, hq⟩ | ⟨-, hq⟩ | ⟨-, hq⟩ <;> rw [hq] at h
      · -- the character `c` itself is escaped
        cases he : escape (c :: T r) with
        | none => exact absurd h (by simp [body_escape_none he])
        | some p =>
          obtain ⟨v, n⟩ := p
          obtain ⟨hv, m, rfl, hm⟩ := escape_takes he
          have hb := body_escape he
          rw [List.drop_succ_cons, T_drop hm] at hb
          rw [List.cons_append, List.nil_append, hb] at h
          obtain ⟨w', hw', rfl⟩ := Option.map_eq_some_iff.mp h
          have := (ih (r.drop m) (by rw [List.length_drop, List.length_cons]; omega) w').1 hw'
          have := (List.drop_sublist m r).count_le 63
          rw [List.count_append]
          omega
      · -- the closing quote comes before the end
        obtain ⟨w', hw', -⟩ := hpair _ _ h
        exact absurd hw' (by simp [body, T_ne_nil])
      · obtain ⟨w', hw', rfl⟩ := hpair _ _ h
        have := (ih r hr w').2 hw'
        rw [List.count_cons_of_ne (by decide)]
        omega
      · obtain ⟨w', hw', rfl⟩ := hpair _ _ h
        have hoct := octal3_plain c
        have hw' : body 0 (octal3 c ++ T r) = some w' := hw'
        rw [body_plain_append fun d hd => ⟨(hoct d hd).1, (hoct d hd).2.1, (hoct d hd).2.2.1⟩] at hw'
        obtain ⟨w'', hw'', rfl⟩ := Option.map_eq_some_iff.mp hw'
        have := (ih r hr w'').1 hw''
        rw [List.count_cons_of_ne (by decide), List.count_append,
          List.count_eq_zero.mpr fun hm => (hoct 63 hm).2.2.2 rfl]
        omega

/-- **The two bounds on the question marks that come out**: of a literal, and of one whose text a
stray backslash precedes. -/
theorem count_le (s w : List UInt8) :
    (body 0 (T s) = some w → w.count 63 ≤ s.count 63) ∧
      (body 0 (92 :: T s) = some w → w.count 63 ≤ s.count 63 + 1) := by
  induction hn : s.length using Nat.strong_induction_on generalizing s w with
  | _ n ih =>
    subst hn
    have ih' := fun r hr w => ih _ hr r w rfl
    exact ⟨fun h => count_le_body h ih', fun h => count_le_escape h ih'⟩

/-- **A trigraph loses a question mark.** -/
theorem count_lt {s w : List UInt8} (hs : HasTrigraph s) (h : body 0 (T s) = some w) :
    w.count 63 < s.count 63 := by
  induction s generalizing w with
  | nil => exact absurd hs hasTrigraph_nil
  | cons c r ih =>
    cases ht : headTrigraph (c :: r) with
    | none =>
      rw [hasTrigraph_cons, ht] at hs
      rw [body_T_cons ht] at h
      obtain ⟨w', hw', rfl⟩ := Option.map_eq_some_iff.mp h
      have := ih (by simpa using hs) hw'
      simp only [List.count_cons]
      omega
    | some p =>
      obtain ⟨hcount, -⟩ := count_headTrigraph ht
      obtain ⟨b, hb, -⟩ := headTrigraph_eq ht
      rw [T_head ht] at h
      rcases trigraph_cases hb with hd | ⟨⟨h34, h92, h10, h63⟩, -⟩
      · rw [hd] at h
        have := (count_le _ _).2 h
        omega
      · rw [body_plain h34 h92 h10] at h
        obtain ⟨w', hw', rfl⟩ := Option.map_eq_some_iff.mp h
        have := (count_le _ _).1 hw'
        rw [List.count_cons_of_ne h63]
        omega

/-- A literal that denotes its string has no trigraph. -/
theorem not_hasTrigraph {s : List UInt8} (h : body 0 (T s) = some s) : ¬ HasTrigraph s :=
  fun hs => absurd (count_lt hs h) (lt_irrefl _)

/-- **The literal denotes the string where it has no trigraph.** -/
theorem body_T_self {s : List UInt8} (h : ¬ HasTrigraph s) : body 0 (T s) = some s := by
  induction s with
  | nil => exact body_T_nil
  | cons c r ih =>
    rw [hasTrigraph_cons, not_or] at h
    have ht : headTrigraph (c :: r) = none := by simpa using h.1
    rw [body_T_cons ht, ih h.2]
    rfl

/-! ### The literal as the compiler reads it -/

theorem newline_notMem (s : List UInt8) : (10 : UInt8) ∉ 34 :: T s := by
  intro h
  rcases List.mem_cons.mp h with h | h
  · exact absurd h (by decide)
  · rcases mem_phase1 h with h | ⟨c, hc⟩
    · rcases List.mem_append.mp h with h | h
      · obtain ⟨c, -, hc⟩ := List.mem_flatMap.mp h
        rcases quotedByte_cases c with ⟨hr, hq⟩ | ⟨-, hq⟩ | ⟨-, hq⟩ | ⟨-, hq⟩ <;> rw [hq] at hc
        · have := hr.2.2.1
          rw [← List.mem_singleton.mp hc] at this
          exact absurd this (by decide)
        · exact absurd hc (by decide)
        · exact absurd hc (by decide)
        · rcases List.mem_cons.mp hc with hc | hc
          · exact absurd hc (by decide)
          · exact (octal3_plain c 10 hc).2.2.1 rfl
      · exact absurd h (by decide)
    · have := (trigraph_range hc).2
      exact absurd this (by decide)

theorem literal_quotedN (s : List UInt8) : StringLiteral.literal (quotedN s) = body 0 (T s) := by
  have h34 : phase1 (34 :: tail s) = 34 :: T s :=
    phase1_cons (headTrigraph_of_ne _ (by decide))
  rw [StringLiteral.literal, quotedN_eq, h34, splice_eq_self (newline_notMem s)]
  rfl

/-- **A quoted string denotes its bytes exactly when it has no trigraph.** -/
theorem literal_quotedN_iff (s : List UInt8) :
    StringLiteral.literal (quotedN s) = some s ↔ ¬ HasTrigraph s := by
  rw [literal_quotedN]
  exact ⟨not_hasTrigraph, body_T_self⟩

/-- `??=` is written as it stands and read as a number sign. -/
theorem quotedN_trigraph_lost :
    StringLiteral.literal (quotedN [63, 63, 61]) = some [35] ∧
      ¬ ∀ s : List UInt8, StringLiteral.literal (quotedN s) = some s := by
  have h : StringLiteral.literal (quotedN [63, 63, 61]) = some [35] := by decide
  exact ⟨h, fun hall => absurd ((hall _).symm.trans h) (by decide)⟩

end ShenRc.Emit
