import ShenRc.KL.Value

/-! # The cache key of a batch

`serialize` writes a KL value with a tag and a terminator or a length for every leaf, so a text can be
read back piece by piece: two values with texts that agree so far are alike, and what follows the texts
agrees too (`serialize_alike`). Alike is not the same: the tag of a number is chosen by its value, so
an exact integer and a double of the same value get one text, and so do the two zeros. -/

namespace ShenRc.Tier

open Numeral KL

/-! ### The writer -/

/-- The text of a number. -/
def numberText (n : Number) : Text :=
  match n.int64Value with
  | some k => 73 :: decimalInt k ++ [59]
  | none =>
    match n with
    | .exact _ => []
    | .real d => 82 :: d.hexFloat ++ [59]

/-- The text of a name or a string, with its length. -/
def framed (tag : UInt8) (s : Text) : Text := tag :: decimal s.length ++ 58 :: s

/-- **The tagged text of a KL value**; a value that is not syntax has none. -/
def serialize : Value → Option Text
  | .nil => some [78]
  | .number n => some (numberText n)
  | .symbol s => some (framed 83 s)
  | .string s => some (framed 84 s)
  | .pair head tail => do
    let h ← serialize head
    let t ← serialize tail
    some (40 :: h ++ t)
  | .other _ _ => none

/-- One line for each definition of a batch. -/
def serializeLines : List Value → Option Text
  | [] => some []
  | form :: forms => do
    let t ← serialize form
    let lines ← serializeLines forms
    some (t ++ 10 :: lines)

/-- **The key text of a batch**: the digest of the build, then the definitions. -/
def serializeForms (abi : Text) (forms : List Value) : Option Text :=
  (serializeLines forms).map fun lines => abi ++ 10 :: lines

/-! ### Values with one text -/

/-- Two values of the same structure, names, bytes and non-integral numbers, in which numbers of
64-bit integer value agree in that value only. -/
inductive Alike : Value → Value → Prop
  | nil : Alike .nil .nil
  | number (n : Number) : Alike (.number n) (.number n)
  | integral {m n : Number} {k : Int} (hm : m.int64Value = some k) (hn : n.int64Value = some k) :
      Alike (.number m) (.number n)
  | symbol (s : Text) : Alike (.symbol s) (.symbol s)
  | string (s : Text) : Alike (.string s) (.string s)
  | pair {h h' t t' : Value} : Alike h h' → Alike t t' → Alike (.pair h t) (.pair h' t')

theorem numberText_int {n : Number} {k : Int} (h : n.int64Value = some k) :
    numberText n = 73 :: decimalInt k ++ [59] := by
  simp [numberText, h]

theorem numberText_real {d : Double} (h : (Number.real d).int64Value = none) :
    numberText (.real d) = 82 :: d.hexFloat ++ [59] := by
  simp [numberText, h]

/-- A number is written as an integer or, being a double without such a value, in full. -/
theorem number_cases (n : Number) :
    (∃ k, n.int64Value = some k) ∨ ∃ d, n = .real d ∧ (Number.real d).int64Value = none := by
  cases n with
  | exact k => exact Or.inl ⟨k.val, rfl⟩
  | real d =>
    cases h : (Number.real d).int64Value with
    | none => exact Or.inr ⟨d, rfl, h⟩
    | some k => exact Or.inl ⟨k, rfl⟩

theorem numberText_alike {m n : Number} {r s : Text}
    (h : numberText m ++ r = numberText n ++ s) : Alike (.number m) (.number n) ∧ r = s := by
  have hint : ∀ k : Int, (59 : UInt8) ∉ decimalInt k := notMem_decimalInt (by decide) (by decide)
  rcases number_cases m with ⟨j, hj⟩ | ⟨d, rfl, hd⟩ <;>
    rcases number_cases n with ⟨k, hk⟩ | ⟨e, rfl, he⟩
  · rw [numberText_int hj, numberText_int hk] at h
    simp only [List.cons_append, List.append_assoc, List.nil_append, List.cons.injEq,
      true_and] at h
    obtain ⟨hjk, hr⟩ := append_sep_inj (hint j) (hint k) h
    obtain rfl := decimalInt_inj hjk
    exact ⟨.integral hj hk, hr⟩
  · rw [numberText_int hj, numberText_real he] at h
    exact absurd (List.cons.inj h).1 (by decide)
  · rw [numberText_real hd, numberText_int hk] at h
    exact absurd (List.cons.inj h).1 (by decide)
  · rw [numberText_real hd, numberText_real he] at h
    simp only [List.cons_append, List.append_assoc, List.nil_append, List.cons.injEq,
      true_and] at h
    obtain ⟨hde, hr⟩ := append_sep_inj (Double.semicolon_notMem_hexFloat d)
      (Double.semicolon_notMem_hexFloat e) h
    obtain rfl := Double.hexFloat_inj hde
    exact ⟨.number _, hr⟩

theorem framed_inj {tag : UInt8} {a b r s : Text}
    (h : framed tag a ++ r = framed tag b ++ s) : a = b ∧ r = s := by
  simp only [framed, List.cons_append, List.append_assoc, List.cons.injEq, true_and] at h
  have hcolon : ∀ n, (58 : UInt8) ∉ decimal n := notMem_decimal (by decide)
  obtain ⟨hlen, ht⟩ := append_sep_inj (hcolon _) (hcolon _) h
  exact List.append_inj ht (decimal_inj hlen)

/-- The tag a text starts with. -/
def tag : Value → List UInt8
  | .nil => [78]
  | .number _ => [73, 82]
  | .symbol _ => [83]
  | .string _ => [84]
  | .pair _ _ => [40]
  | .other _ _ => []

theorem serialize_tag {x : Value} {t : Text} (h : serialize x = some t) :
    ∃ c u, t = c :: u ∧ c ∈ tag x := by
  cases x with
  | nil => cases h; exact ⟨_, _, rfl, by decide⟩
  | number n =>
    cases h
    rcases number_cases n with ⟨j, hj⟩ | ⟨d, rfl, hd⟩
    · exact ⟨73, _, numberText_int hj, by simp [tag]⟩
    · exact ⟨82, _, numberText_real hd, by simp [tag]⟩
  | symbol s => cases h; exact ⟨_, _, rfl, by simp [tag]⟩
  | string s => cases h; exact ⟨_, _, rfl, by simp [tag]⟩
  | pair a b =>
    simp only [serialize, Option.bind_eq_bind, Option.bind_eq_some_iff] at h
    obtain ⟨_, -, _, -, he⟩ := h
    exact ⟨40, _, (Option.some.inj he).symm, by simp [tag]⟩
  | other => cases h

/-- Values with texts that start alike are of one kind. -/
theorem same_tag {x y : Value} {t u r s : Text} (hx : serialize x = some t)
    (hy : serialize y = some u) (h : t ++ r = u ++ s) : ∃ c ∈ tag x, c ∈ tag y := by
  obtain ⟨c, t', rfl, hc⟩ := serialize_tag hx
  obtain ⟨d, u', rfl, hd⟩ := serialize_tag hy
  obtain rfl := (List.cons.inj h).1
  exact ⟨c, hc, hd⟩

/-- **Texts read back**: where two texts agree as far as they go, the values are alike and what
follows the texts agrees too. -/
theorem serialize_alike {x y : Value} {t u r s : Text} (hx : serialize x = some t)
    (hy : serialize y = some u) (h : t ++ r = u ++ s) : Alike x y ∧ r = s := by
  induction x generalizing y t u r s with
  | pair a b iha ihb =>
    have htag := same_tag hx hy h
    cases y with
    | pair a' b' =>
      simp only [serialize, Option.bind_eq_bind, Option.bind_eq_some_iff, Option.some.injEq] at hx hy
      obtain ⟨ta, hta, tb, htb, rfl⟩ := hx
      obtain ⟨ua, hua, ub, hub, rfl⟩ := hy
      simp only [List.cons_append, List.append_assoc, List.cons.injEq, true_and] at h
      obtain ⟨halike, hrest⟩ := iha hta hua h
      obtain ⟨hblike, hrs⟩ := ihb htb hub hrest
      exact ⟨.pair halike hblike, hrs⟩
    | _ => simp [tag] at htag
  | nil =>
    have htag := same_tag hx hy h
    cases y with
    | nil =>
      cases hx
      cases hy
      exact ⟨.nil, (List.cons.inj h).2⟩
    | _ => simp [tag] at htag
  | number m =>
    have htag := same_tag hx hy h
    cases y with
    | number n =>
      cases hx
      cases hy
      exact numberText_alike h
    | _ => simp [tag] at htag
  | symbol a =>
    have htag := same_tag hx hy h
    cases y with
    | symbol b =>
      cases hx
      cases hy
      obtain ⟨rfl, hrs⟩ := framed_inj h
      exact ⟨.symbol a, hrs⟩
    | _ => simp [tag] at htag
  | string a =>
    have htag := same_tag hx hy h
    cases y with
    | string b =>
      cases hx
      cases hy
      obtain ⟨rfl, hrs⟩ := framed_inj h
      exact ⟨.string a, hrs⟩
    | _ => simp [tag] at htag
  | other => cases hx

/-- Alike values have one text. -/
theorem Alike.serialize_eq {x y : Value} (h : Alike x y) :
    ∃ t, serialize x = some t ∧ serialize y = some t := by
  induction h with
  | nil => exact ⟨_, rfl, rfl⟩
  | number n => exact ⟨_, rfl, rfl⟩
  | integral hm hn =>
    refine ⟨_, rfl, ?_⟩
    rw [serialize, numberText_int hm, numberText_int hn]
  | symbol s => exact ⟨_, rfl, rfl⟩
  | string s => exact ⟨_, rfl, rfl⟩
  | pair _ _ iha ihb =>
    obtain ⟨a, ha, ha'⟩ := iha
    obtain ⟨b, hb, hb'⟩ := ihb
    exact ⟨40 :: a ++ b, by simp [serialize, ha, hb], by simp [serialize, ha', hb']⟩

/-- **Two values have one text exactly when they are alike.** -/
theorem serialize_eq_iff (x y : Value) :
    (∃ t, serialize x = some t ∧ serialize y = some t) ↔ Alike x y := by
  constructor
  · rintro ⟨t, hx, hy⟩
    exact (serialize_alike (r := []) (s := []) hx hy rfl).1
  · exact Alike.serialize_eq

/-! ### Batches -/

theorem serializeLines_alike {xs ys : List Value} {t : Text} (hx : serializeLines xs = some t)
    (hy : serializeLines ys = some t) : List.Forall₂ Alike xs ys := by
  induction xs generalizing ys t with
  | nil =>
    obtain rfl := Option.some.inj hx
    cases ys with
    | nil => exact .nil
    | cons y ys =>
      simp [serializeLines, Option.bind_eq_some_iff] at hy
  | cons x xs ih =>
    simp only [serializeLines, Option.bind_eq_bind, Option.bind_eq_some_iff,
      Option.some.injEq] at hx
    obtain ⟨a, ha, l, hl, rfl⟩ := hx
    cases ys with
    | nil => simp [serializeLines] at hy
    | cons y ys =>
      simp only [serializeLines, Option.bind_eq_bind, Option.bind_eq_some_iff,
        Option.some.injEq] at hy
      obtain ⟨b, hb, m, hm, he⟩ := hy
      obtain ⟨halike, hrest⟩ := serialize_alike ha hb he.symm
      obtain rfl := (List.cons.inj hrest).2
      exact .cons halike (ih hl hm)

theorem serializeLines_eq {xs ys : List Value} (h : List.Forall₂ Alike xs ys) :
    ∃ t, serializeLines xs = some t ∧ serializeLines ys = some t := by
  induction h with
  | nil => exact ⟨_, rfl, rfl⟩
  | cons hxy _ ih =>
    obtain ⟨a, ha, ha'⟩ := hxy.serialize_eq
    obtain ⟨l, hl, hl'⟩ := ih
    exact ⟨a ++ 10 :: l, by simp [serializeLines, ha, hl], by simp [serializeLines, ha', hl']⟩

theorem serializeForms_eq_iff (abi : Text) (xs ys : List Value) :
    (∃ t, serializeForms abi xs = some t ∧ serializeForms abi ys = some t) ↔
      List.Forall₂ Alike xs ys := by
  constructor
  · rintro ⟨t, hx, hy⟩
    obtain ⟨l, hl, rfl⟩ := Option.map_eq_some_iff.mp hx
    obtain ⟨m, hm, he⟩ := Option.map_eq_some_iff.mp hy
    obtain rfl := (List.cons.inj (List.append_cancel_left he)).2
    exact serializeLines_alike hl hm
  · intro h
    obtain ⟨l, hl, hl'⟩ := serializeLines_eq h
    exact ⟨abi ++ 10 :: l, by simp [serializeForms, hl], by simp [serializeForms, hl']⟩

/-! ### What a key identifies -/

/-- **Texts identify values and batches except where alike ones differ.** -/
theorem serialize_identifies (abi : Text) :
    (∀ x y, (∀ t, serialize x = some t → serialize y = some t → x = y) ↔ ¬ (x ≠ y ∧ Alike x y)) ∧
      ∀ xs ys, (∀ t, serializeForms abi xs = some t → serializeForms abi ys = some t → xs = ys) ↔
        ¬ (xs ≠ ys ∧ List.Forall₂ Alike xs ys) := by
  constructor
  · intro x y
    rw [← serialize_eq_iff]
    constructor
    · rintro h ⟨hne, t, hx, hy⟩
      exact hne (h t hx hy)
    · intro h t hx hy
      by_contra hne
      exact h ⟨hne, t, hx, hy⟩
  · intro xs ys
    rw [← serializeForms_eq_iff abi]
    constructor
    · rintro h ⟨hne, t, hx, hy⟩
      exact hne (h t hx hy)
    · intro h t hx hy
      by_contra hne
      exact h ⟨hne, t, hx, hy⟩

/-- The double `1.0`. -/
def realOne : Value := .number (.real .one)

def exactOne : Value := .int 1

/-- An exact one and a real one have the text `I1;`. -/
theorem serialize_one_collides :
    serialize realOne = some [73, 49, 59] ∧ serialize exactOne = some [73, 49, 59] ∧
      ¬ ∀ x y t, serialize x = some t → serialize y = some t → x = y := by
  have hreal : serialize realOne = some [73, 49, 59] := by decide +kernel
  have hexact : serialize exactOne = some [73, 49, 59] := by decide +kernel
  refine ⟨hreal, hexact, fun h => ?_⟩
  exact absurd (h _ _ _ hreal hexact) (by decide)

end ShenRc.Tier
