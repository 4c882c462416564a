import ShenRc.Replay.Number

/-! # The lines of an emitted function

`frame_code` tells the lines it understands by `sscanf`. A blank in a format stands for any blanks of
the line, `%d` for a number with blanks and a sign before it. A line that is a label is none of them
(`recognise_label`). -/

namespace ShenRc.Emit

open Numeral Replay

/-! ### Formats -/

/-- A blank of a format. -/
def blanks : Parser UInt8 Unit := fun s => some ((), s.dropWhile isSpace)

/-- The other characters of a format. -/
def literal (t : Text) : Parser UInt8 Unit := fun s =>
  if t.isPrefixOf s then some ((), s.drop t.length) else none

/-- Blanks and a sign are taken off. -/
def unsigned (s : Text) : Bool × Text :=
  match s.dropWhile isSpace with
  | 45 :: s => (true, s)
  | 43 :: s => (false, s)
  | s => (false, s)

/-- `%d`. -/
def integer : Parser UInt8 ℤ := fun s =>
  let digits := (unsigned s).2.takeWhile isDigit
  if digits = [] then none
  else some (if (unsigned s).1 then -decimalValue digits else decimalValue digits,
    (unsigned s).2.drop digits.length)

/-- `%[...]`, at most so many characters. -/
def set (limit : ℕ) (inSet : UInt8 → Bool) : Parser UInt8 Text := fun s =>
  let t := (s.take limit).takeWhile inSet
  if t = [] then none else some (t, s.drop t.length)

/-- `c_ident`. -/
def cIdent (c : UInt8) : Bool :=
  (97 ≤ c && c ≤ 122) || (65 ≤ c && c ≤ 90) || (48 ≤ c && c ≤ 57) || c == 95

def releaseLine : Parser UInt8 (ℤ × ℤ × ℤ) := do
  blanks
  literal (ascii "if(t[")
  let a ← integer
  literal (ascii "])")
  blanks
  literal (ascii "rc_release(t[")
  let b ← integer
  literal (ascii "]);")
  blanks
  literal (ascii "t[")
  let c ← integer
  literal (ascii "]=NULL;")
  pure (a, b, c)

def rangeLine : Parser UInt8 (ℤ × ℤ) := do
  blanks
  literal (ascii "rc_drop_range(t,")
  let a ← integer
  literal (ascii ",")
  let b ← integer
  literal (ascii ");")
  pure (a, b)

def clearLine : Parser UInt8 ℤ := do
  blanks
  literal (ascii "t[")
  let a ← integer
  literal (ascii "]=NULL;")
  pure a

def moveLine : Parser UInt8 (ℤ × ℤ × ℤ) := do
  blanks
  literal (ascii "t[")
  let a ← integer
  literal (ascii "]=t[")
  let b ← integer
  literal (ascii "];")
  blanks
  literal (ascii "t[")
  let c ← integer
  literal (ascii "]=NULL;")
  pure (a, b, c)

def argumentLine : Parser UInt8 (ℤ × ℤ) := do
  blanks
  literal (ascii "a[")
  let a ← integer
  literal (ascii "]=t[")
  let b ← integer
  literal (ascii "];")
  pure (a, b)

/-- The beginning of an assignment to a row of the function. -/
def target (row : Text) : Parser UInt8 ℤ := do
  blanks
  literal row
  let a ← integer
  literal (ascii "]=")
  pure a

def testLine : Parser UInt8 Unit := do
  blanks
  literal (ascii "if(!t[")
  let _ ← integer
  literal (ascii "])")
  blanks
  literal (ascii "goto")
  blanks
  let _ ← fun s => set s.length (· ≠ 59) s
  literal (ascii ";")
  pure ()

def borrowTestLine : Parser UInt8 Unit := do
  blanks
  literal (ascii "if(!bf[")
  let _ ← integer
  literal (ascii "])")
  blanks
  literal (ascii "goto")
  blanks
  let _ ← set 63 cIdent
  literal (ascii ";")
  pure ()

/-- The format takes the whole line. -/
def whole {α : Type} (p : Parser UInt8 α) (line : Text) : Option α :=
  match p line with
  | some (a, []) => some a
  | _ => none

/-! ### Lines -/

/-- A line that `frame_code` understands. `scratch` are the lines that leave the frame alone. -/
inductive Line
  | release (a : ℕ)
  | dropRange (a b : ℕ)
  | clear (a : ℕ)
  | move (a b : ℕ)
  | scratch
  | test
  | assign (a : ℕ)
  | other
  deriving DecidableEq

/-- One statement that takes no address and opens no block. -/
def simple (line : Text) : Bool :=
  (line.idxOf 59 == line.length - 1 && line.contains 59) &&
    !(line.contains 123 || line.contains 38 || line.contains 34)

/-- The rest of an assignment is one expression. `quote` is the quotation mark that is open. -/
def oneValue : Option UInt8 → ℕ → Text → Bool
  | none, n, [] => n == 1
  | some _, _, [] => false
  | some quote, n, [c] => c == quote && c != 92 && n == 1
  | some quote, n, c :: d :: rest =>
    if c = 92 then oneValue (some quote) n rest
    else if c = quote then oneValue none n (d :: rest)
    else oneValue (some quote) n (d :: rest)
  | none, n, c :: rest =>
    if c = 34 ∨ c = 39 then oneValue (some c) n rest
    else if c = 59 then oneValue none (n + 1) rest
    else if c = 123 ∨ c = 125 ∨ c = 58 ∨ c = 38 then false
    else oneValue none n rest

/-- The slot is in the frame. -/
def inFrame (slots : ℕ) (a : ℤ) : Bool := 0 ≤ a && a < slots

def releaseForm (slots : ℕ) (line : Text) : Option Line := do
  let (a, b, c) ← whole releaseLine line
  if a = b ∧ b = c ∧ inFrame slots a then some (.release a.toNat) else none

def rangeForm (slots : ℕ) (line : Text) : Option Line := do
  let (a, b) ← whole rangeLine line
  if 0 ≤ a ∧ a ≤ b ∧ b ≤ slots then some (.dropRange a.toNat b.toNat) else none

def clearForm (slots : ℕ) (line : Text) : Option Line := do
  let a ← whole clearLine line
  if inFrame slots a then some (.clear a.toNat) else none

def moveForm (slots : ℕ) (line : Text) : Option Line := do
  let (a, b, c) ← whole moveLine line
  if b = c ∧ inFrame slots a ∧ inFrame slots b then some (.move a.toNat b.toNat) else none

def argumentForm (line : Text) : Option Line := (whole argumentLine line).map fun _ => .scratch

/-- An assignment to the arguments, or to the borrowed callees. -/
def scratchForm (row line : Text) : Option Line := do
  let _ ← target row line
  if simple line then some .scratch else none

def testForm (p : Parser UInt8 Unit) (line : Text) : Option Line :=
  (whole p line).map fun _ => .test

def assignForm (slots : ℕ) (line : Text) : Option Line := do
  let (a, rest) ← target (ascii "t[") line
  if inFrame slots a ∧ oneValue none 0 rest then some (.assign a.toNat) else none

/-- The conditions of `frame_code` on a line, in their order. -/
def forms (slots : ℕ) : List (Text → Option Line) :=
  [releaseForm slots, rangeForm slots, clearForm slots, moveForm slots, argumentForm,
    scratchForm (ascii "a["), testForm testLine, scratchForm (ascii "bf["), testForm borrowTestLine,
    assignForm slots]

def recognise (slots : ℕ) (line : Text) : Line :=
  ((forms slots).findSome? fun form => form line).getD .other

/-! ### Where control comes in -/

/-- A label, or a line that opens or closes a block. -/
def boundary (line : Text) : Bool :=
  line == line.takeWhile cIdent ++ ascii ":;" || line.getLast? == some 123 || line.getLast? == some 125

theorem recognise_other {slots : ℕ} {line : Text} (h : ∀ form ∈ forms slots, form line = none) :
    recognise slots line = .other := by
  unfold recognise
  rw [List.findSome?_eq_none_iff.mpr h]
  rfl

theorem mem_of_literal {α : Type} {t s : Text} {f : Unit → Parser UInt8 α} {r : α × Text}
    (h : (blanks >>= fun _ => literal t >>= f) s = some r) {c : UInt8} (hc : c ∈ t) : c ∈ s := by
  rw [Parser.bind_apply] at h
  obtain ⟨r', hblanks, h⟩ := Option.bind_eq_some_iff.mp h
  obtain rfl := Option.some.inj hblanks
  rw [Parser.bind_apply] at h
  obtain ⟨r', hliteral, -⟩ := Option.bind_eq_some_iff.mp h
  unfold literal at hliteral
  split_ifs at hliteral with hpre
  exact (List.dropWhile_sublist _).subset ((List.isPrefixOf_iff_prefix.mp hpre).subset hc)

theorem whole_eq_none {α : Type} {p : Parser UInt8 α} {line : Text} (h : p line = none) :
    whole p line = none := by
  unfold whole
  rw [h]

/-- A line without brackets is none of the lines. -/
theorem forms_eq_none {slots : ℕ} {line : Text} (hsquare : (91 : UInt8) ∉ line)
    (hround : (40 : UInt8) ∉ line) : ∀ form ∈ forms slots, form line = none := by
  have hnone : ∀ {α : Type} {t : Text} {f : Unit → Parser UInt8 α},
      (91 ∈ t ∨ 40 ∈ t) → (blanks >>= fun _ => literal t >>= f) line = none := by
    intro α t f ht
    rcases hr : (blanks >>= fun _ => literal t >>= f) line with _ | r
    · rfl
    · rcases ht with ht | ht
      · exact absurd (mem_of_literal hr ht) hsquare
      · exact absurd (mem_of_literal hr ht) hround
  have h1 : releaseLine line = none := hnone (by decide)
  have h2 : rangeLine line = none := hnone (by decide)
  have h3 : clearLine line = none := hnone (by decide)
  have h4 : moveLine line = none := hnone (by decide)
  have h5 : argumentLine line = none := hnone (by decide)
  have h6 : target (ascii "a[") line = none := hnone (by decide)
  have h7 : testLine line = none := hnone (by decide)
  have h8 : target (ascii "bf[") line = none := hnone (by decide)
  have h9 : borrowTestLine line = none := hnone (by decide)
  have h10 : target (ascii "t[") line = none := hnone (by decide)
  simp only [forms, List.forall_mem_cons, releaseForm, rangeForm, clearForm, moveForm, argumentForm,
    scratchForm, testForm, assignForm, whole_eq_none h1, whole_eq_none h2, whole_eq_none h3,
    whole_eq_none h4, whole_eq_none h5, h6, whole_eq_none h7, h8, whole_eq_none h9, h10]
  exact ⟨rfl, rfl, rfl, rfl, rfl, rfl, rfl, rfl, rfl, rfl, fun _ h => absurd h List.not_mem_nil⟩

/-! ### The end of a line -/

/-- What is left is the end of what was there. -/
def Splits {α : Type} (p : Parser UInt8 α) : Prop := ∀ s a rest, p s = some (a, rest) → rest <:+ s

/-- The last character that is taken is `c`. -/
def Closes {α : Type} (c : UInt8) (p : Parser UInt8 α) : Prop :=
  ∀ s a rest, p s = some (a, rest) → c :: rest <:+ s

theorem Splits.bind {α β : Type} {p : Parser UInt8 α} {f : α → Parser UInt8 β} (hp : Splits p)
    (hf : ∀ a, Splits (f a)) : Splits (p >>= f) := by
  intro s b rest h
  rw [Parser.bind_apply] at h
  obtain ⟨⟨a, s'⟩, hfirst, h⟩ := Option.bind_eq_some_iff.mp h
  exact (hf a s' b rest h).trans (hp s a s' hfirst)

theorem Closes.bind {α β : Type} {c : UInt8} {p : Parser UInt8 α} {f : α → Parser UInt8 β}
    (hp : Splits p) (hf : ∀ a, Closes c (f a)) : Closes c (p >>= f) := by
  intro s b rest h
  rw [Parser.bind_apply] at h
  obtain ⟨⟨a, s'⟩, hfirst, h⟩ := Option.bind_eq_some_iff.mp h
  exact (hf a s' b rest h).trans (hp s a s' hfirst)

theorem splits_pure {α : Type} (a : α) : Splits (pure a) := by
  intro s b rest h
  obtain ⟨-, rfl⟩ := Prod.mk.inj (Option.some.inj h)
  exact List.suffix_refl s

theorem splits_blanks : Splits blanks := by
  intro s a rest h
  obtain ⟨-, rfl⟩ := Prod.mk.inj (Option.some.inj h)
  exact List.dropWhile_suffix _

theorem splits_literal (t : Text) : Splits (literal t) := by
  intro s a rest h
  unfold literal at h
  split_ifs at h with hpre
  obtain ⟨-, rfl⟩ := Prod.mk.inj (Option.some.inj h)
  exact List.drop_suffix _ _

theorem splits_integer : Splits integer := by
  have hsign : ∀ s : Text, (unsigned s).2 <:+ s := fun s => by
    unfold unsigned
    split
    · rename_i rest h
      exact (List.suffix_cons _ _).trans (h ▸ List.dropWhile_suffix _)
    · rename_i rest h
      exact (List.suffix_cons _ _).trans (h ▸ List.dropWhile_suffix _)
    · exact List.dropWhile_suffix _
  intro s a rest h
  unfold integer at h
  dsimp only at h
  by_cases hdigits : (unsigned s).2.takeWhile isDigit = []
  · rw [if_pos hdigits] at h
    exact absurd h (by simp)
  · rw [if_neg hdigits] at h
    obtain ⟨-, rfl⟩ := Prod.mk.inj (Option.some.inj h)
    exact (List.drop_suffix _ _).trans (hsign s)

theorem splits_set (limit : ℕ) (inSet : UInt8 → Bool) : Splits (set limit inSet) := by
  intro s a rest h
  unfold set at h
  dsimp only at h
  split_ifs at h with hempty
  obtain ⟨-, rfl⟩ := Prod.mk.inj (Option.some.inj h)
  exact List.drop_suffix _ _

theorem closes_literal {α : Type} (t : Text) (c : UInt8) (a : α) :
    Closes c (literal (t ++ [c]) >>= fun _ => pure a) := by
  intro s b rest h
  rw [Parser.bind_apply] at h
  obtain ⟨⟨u, s'⟩, hliteral, h⟩ := Option.bind_eq_some_iff.mp h
  obtain ⟨-, rfl⟩ := Prod.mk.inj (Option.some.inj h)
  unfold literal at hliteral
  split_ifs at hliteral with hpre
  obtain ⟨-, rfl⟩ := Prod.mk.inj (Option.some.inj hliteral)
  obtain ⟨more, rfl⟩ := List.isPrefixOf_iff_prefix.mp hpre
  rw [List.drop_left]
  exact ⟨t, by rw [List.append_assoc]; rfl⟩

theorem last_of_whole {α : Type} {c : UInt8} {p : Parser UInt8 α} (hp : Closes c p) {line : Text}
    {a : α} (h : whole p line = some a) : line.getLast? = some c := by
  unfold whole at h
  split at h
  · rename_i b hb
    obtain ⟨t, rfl⟩ := hp line b [] hb
    exact List.getLast?_concat
  · exact absurd h (by simp)

theorem closes_releaseLine : Closes 59 releaseLine :=
  .bind splits_blanks fun _ => .bind (splits_literal _) fun _ => .bind splits_integer fun _ =>
    .bind (splits_literal _) fun _ => .bind splits_blanks fun _ => .bind (splits_literal _) fun _ =>
    .bind splits_integer fun _ => .bind (splits_literal _) fun _ => .bind splits_blanks fun _ =>
    .bind (splits_literal _) fun _ => .bind splits_integer fun _ => closes_literal (ascii "]=NULL") 59 _

theorem closes_rangeLine : Closes 59 rangeLine :=
  .bind splits_blanks fun _ => .bind (splits_literal _) fun _ => .bind splits_integer fun _ =>
    .bind (splits_literal _) fun _ => .bind splits_integer fun _ => closes_literal (ascii ")") 59 _

theorem closes_clearLine : Closes 59 clearLine :=
  .bind splits_blanks fun _ => .bind (splits_literal _) fun _ => .bind splits_integer fun _ =>
    closes_literal (ascii "]=NULL") 59 _

theorem closes_moveLine : Closes 59 moveLine :=
  .bind splits_blanks fun _ => .bind (splits_literal _) fun _ => .bind splits_integer fun _ =>
    .bind (splits_literal _) fun _ => .bind splits_integer fun _ => .bind (splits_literal _) fun _ =>
    .bind splits_blanks fun _ => .bind (splits_literal _) fun _ => .bind splits_integer fun _ =>
    closes_literal (ascii "]=NULL") 59 _

theorem closes_argumentLine : Closes 59 argumentLine :=
  .bind splits_blanks fun _ => .bind (splits_literal _) fun _ => .bind splits_integer fun _ =>
    .bind (splits_literal _) fun _ => .bind splits_integer fun _ => closes_literal (ascii "]") 59 _

theorem closes_testLine : Closes 59 testLine :=
  .bind splits_blanks fun _ => .bind (splits_literal _) fun _ => .bind splits_integer fun _ =>
    .bind (splits_literal _) fun _ => .bind splits_blanks fun _ => .bind (splits_literal _) fun _ =>
    .bind splits_blanks fun _ => .bind (fun s => splits_set s.length _ s) fun _ =>
    closes_literal [] 59 _

theorem closes_borrowTestLine : Closes 59 borrowTestLine :=
  .bind splits_blanks fun _ => .bind (splits_literal _) fun _ => .bind splits_integer fun _ =>
    .bind (splits_literal _) fun _ => .bind splits_blanks fun _ => .bind (splits_literal _) fun _ =>
    .bind splits_blanks fun _ => .bind (splits_set _ _) fun _ => closes_literal [] 59 _

theorem last_of_simple {line : Text} (h : simple line = true) : line.getLast? = some 59 := by
  unfold simple at h
  simp only [Bool.and_eq_true, beq_iff_eq, List.contains_iff_mem] at h
  obtain ⟨⟨hidx, hmem⟩, -⟩ := h
  rw [List.getLast?_eq_getElem?, ← hidx, List.getElem?_eq_getElem (List.idxOf_lt_length_of_mem hmem),
    List.getElem_idxOf]

/-- The text does not end with a brace. -/
def Unbraced (t : Text) : Prop := t.getLast? ≠ some 123 ∧ t.getLast? ≠ some 125

theorem Unbraced.cons {c : UInt8} {t : Text} (hc : c ≠ 123 ∧ c ≠ 125) (h : Unbraced t) :
    Unbraced (c :: t) := by
  rcases t with _ | ⟨d, t⟩
  · exact ⟨fun hlast => hc.1 (Option.some.inj hlast), fun hlast => hc.2 (Option.some.inj hlast)⟩
  · unfold Unbraced
    rw [List.getLast?_cons_cons]
    exact h

theorem Unbraced.cons_cons {c d : UInt8} {t : Text} (h : Unbraced (d :: t)) : Unbraced (c :: d :: t) := by
  unfold Unbraced
  rw [List.getLast?_cons_cons]
  exact h

/-- No brace ends a value. The quotation mark that is open is one of two. -/
theorem oneValue_unbraced (q : Option UInt8) (n : ℕ) (t : Text)
    (hq : ∀ quote, q = some quote → quote = 34 ∨ quote = 39) (h : oneValue q n t = true) :
    Unbraced t := by
  have hmark : ∀ c : UInt8, c = 34 ∨ c = 39 → c ≠ 123 ∧ c ≠ 125 := fun c hc => by
    rcases hc with rfl | rfl
    · exact ⟨by decide, by decide⟩
    · exact ⟨by decide, by decide⟩
  fun_induction oneValue q n t with
  | case1 n => exact ⟨by simp, by simp⟩
  | case2 n quote => exact absurd h (by simp)
  | case3 n quote c =>
    simp only [Bool.and_eq_true, beq_iff_eq] at h
    obtain ⟨⟨rfl, -⟩, -⟩ := h
    exact Unbraced.cons (hmark c (hq c rfl)) ⟨by simp, by simp⟩
  | case4 quote n d rest ih =>
    rcases rest with _ | ⟨e, rest⟩
    · exact absurd h (by simp [oneValue])
    · exact (ih hq h).cons_cons.cons_cons
  | case5 n c d rest _ ih => exact (ih (fun _ h => absurd h (by simp)) h).cons_cons
  | case6 quote n c d rest _ _ ih => exact (ih hq h).cons_cons
  | case7 n c rest hc ih =>
    exact (ih (fun quote hquote => Option.some.inj hquote ▸ hc) h).cons (hmark c hc)
  | case8 n rest _ ih => exact (ih hq h).cons ⟨by decide, by decide⟩
  | case9 n c rest _ _ _ => exact absurd h (by simp)
  | case10 n c rest _ _ hc ih =>
    exact (ih hq h).cons ⟨fun h => hc (Or.inl h), fun h => hc (Or.inr (Or.inl h))⟩

theorem unbraced_of_last {line : Text} (h : line.getLast? = some 59) : Unbraced line := by
  unfold Unbraced
  rw [h]
  exact ⟨by decide, by decide⟩

theorem unbraced_of_suffix {t line : Text} (ht : t ≠ []) (h : t <:+ line) (hlast : Unbraced t) :
    Unbraced line := by
  obtain ⟨start, rfl⟩ := h
  unfold Unbraced
  rwa [List.getLast?_append_of_ne_nil _ ht]

theorem splits_target (row : Text) : Splits (target row) :=
  .bind splits_blanks fun _ => .bind (splits_literal _) fun _ => .bind splits_integer fun _ =>
    .bind (splits_literal _) fun _ => splits_pure _

/-- No form is for a line that ends with a brace. -/
theorem unbraced_of_form {slots : ℕ} {line : Text} {form : Text → Option Line} {l : Line}
    (hform : form ∈ forms slots) (h : form line = some l) : Unbraced line := by
  have hscratch : ∀ row, scratchForm row line = some l → Unbraced line := fun row h => by
    obtain ⟨r, -, h⟩ := Option.bind_eq_some_iff.mp h
    split_ifs at h with hsimple
    exact unbraced_of_last (last_of_simple hsimple)
  have htest : ∀ p : Parser UInt8 Unit, Closes 59 p → testForm p line = some l → Unbraced line :=
    fun p hp h => by
      obtain ⟨r, hr, -⟩ := Option.map_eq_some_iff.mp h
      exact unbraced_of_last (last_of_whole hp hr)
  have hclosed : ∀ {α : Type} {p : Parser UInt8 α} {f : α → Option Line}, Closes 59 p →
      (whole p line >>= f) = some l → Unbraced line := fun hp h => by
    obtain ⟨r, hr, -⟩ := Option.bind_eq_some_iff.mp h
    exact unbraced_of_last (last_of_whole hp hr)
  simp only [forms, List.mem_cons, List.not_mem_nil, or_false] at hform
  rcases hform with rfl | rfl | rfl | rfl | rfl | rfl | rfl | rfl | rfl | rfl
  · exact hclosed closes_releaseLine h
  · exact hclosed closes_rangeLine h
  · exact hclosed closes_clearLine h
  · exact hclosed closes_moveLine h
  · obtain ⟨r, hr, -⟩ := Option.map_eq_some_iff.mp h
    exact unbraced_of_last (last_of_whole closes_argumentLine hr)
  · exact hscratch _ h
  · exact htest _ closes_testLine h
  · exact hscratch _ h
  · exact htest _ closes_borrowTestLine h
  · obtain ⟨⟨a, rest⟩, htarget, h⟩ := Option.bind_eq_some_iff.mp h
    dsimp only at h
    split_ifs at h with hvalue
    refine unbraced_of_suffix (fun hnil => ?_) (splits_target _ line a rest htarget)
      (oneValue_unbraced none 0 rest (fun _ h => absurd h (by simp)) hvalue.2)
    rw [hnil] at hvalue
    exact absurd hvalue.2 (by decide)

/-- **`frame_code` does not understand a line where control comes in.** -/
theorem recognise_boundary {slots : ℕ} {line : Text} (h : boundary line = true) :
    recognise slots line = .other := by
  refine recognise_other ?_
  unfold boundary at h
  rcases Bool.or_eq_true_iff.mp h with h | h
  · rcases Bool.or_eq_true_iff.mp h with h | h
    · have hmem : ∀ c ∈ line, cIdent c = true ∨ c ∈ ascii ":;" := fun c hc => by
        rw [eq_of_beq h] at hc
        exact (List.mem_append.mp hc).imp_left List.mem_takeWhile_imp
      refine forms_eq_none (fun hc => ?_) fun hc => ?_
      · exact absurd (hmem _ hc) (by decide)
      · exact absurd (hmem _ hc) (by decide)
    · intro form hform
      rcases hl : form line with _ | l
      · rfl
      · exact absurd (eq_of_beq h) (unbraced_of_form hform hl).1
  · intro form hform
    rcases hl : form line with _ | l
    · rfl
    · exact absurd (eq_of_beq h) (unbraced_of_form hform hl).2

end ShenRc.Emit
