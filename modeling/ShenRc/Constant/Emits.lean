import ShenRc.Constant.Table

/-! # What the emitter appends to a constant table

A table only grows, so an index into a pool and a position in the code stay what they are
(`ConstTable.Extends`), and the words of a tree leave one more entry on the stack than they found
(`constNode_emits`). -/

namespace ShenRc.Constant

open Numeral KL

/-- The table `c'` was `c` once. -/
structure ConstTable.Extends (c c' : ConstTable) : Prop where
  code : c.code <+: c'.code
  strings : c.strings <+: c'.strings
  integers : c.integers <+: c'.integers
  reals : c.reals <+: c'.reals
  depth : c.depth ≤ c'.depth
  symbols : c.symbols = true → c'.symbols = true

namespace ConstTable.Extends

variable {c c' c'' : ConstTable}

theorem refl (c : ConstTable) : c.Extends c :=
  ⟨List.prefix_rfl, List.prefix_rfl, List.prefix_rfl, List.prefix_rfl, le_rfl, id⟩

theorem trans (h : c.Extends c') (h' : c'.Extends c'') : c.Extends c'' :=
  ⟨h.code.trans h'.code, h.strings.trans h'.strings, h.integers.trans h'.integers,
    h.reals.trans h'.reals, h.depth.trans h'.depth, h'.symbols ∘ h.symbols⟩

end ConstTable.Extends

/-- **What `const_word` does.** -/
structure Appends (c : ConstTable) (op : ConstOp) (operand : ℕ) (effect : ℤ) (c' : ConstTable) :
    Prop where
  fits : operand ≤ maxOperand
  code : c'.code = c.code ++ [constCode op operand]
  strings : c'.strings = c.strings
  integers : c'.integers = c.integers
  reals : c'.reals = c.reals
  symbols : c'.symbols = c.symbols
  sp : c'.sp = (c.sp + effect).toNat
  depth : c'.depth = max c.depth c'.sp

theorem constWord_appends {c c' : ConstTable} {op : ConstOp} {operand : ℕ} {effect : ℤ}
    (h : constWord c op operand effect = some c') : Appends c op operand effect c' := by
  unfold constWord at h
  split at h
  · cases h
  · rename_i hfits
    cases h
    exact ⟨not_lt.mp hfits, rfl, rfl, rfl, rfl, rfl, rfl, rfl⟩

namespace Appends

variable {c c' F : ConstTable} {op : ConstOp} {operand : ℕ} {effect : ℤ}

theorem grows (h : Appends c op operand effect c') : c.Extends c' where
  code := by rw [h.code]; exact List.prefix_append _ _
  strings := by rw [h.strings]
  integers := by rw [h.integers]
  reals := by rw [h.reals]
  depth := by rw [h.depth]; exact le_max_left _ _
  symbols := by rw [h.symbols]; exact id

theorem sp_le (h : Appends c op operand effect c') (hF : c'.Extends F) : c'.sp ≤ F.depth := by
  refine le_trans ?_ hF.depth
  rw [h.depth]
  exact le_max_right _ _

end Appends

theorem symbolIndex_spec (symbols : List Text) (s : Text) :
    symbols <+: (symbolIndex symbols s).2 ∧
      (symbolIndex symbols s).2[(symbolIndex symbols s).1]? = some s := by
  unfold symbolIndex
  rcases hfind : symbols.findIdx? (· == s) with _ | i
  · exact ⟨List.prefix_append _ _, by simp⟩
  · obtain ⟨hlt, heq, -⟩ := List.findIdx?_eq_some_iff_getElem.mp hfind
    refine ⟨List.prefix_rfl, ?_⟩
    rw [List.getElem?_eq_getElem hlt, eq_of_beq heq]

/-- The emitter at one point and at a later one: `n` more entries on the stack. -/
structure Emits (n : ℕ) (p : List Text) (c : ConstTable) (p' : List Text) (c' : ConstTable) :
    Prop where
  symbols : p <+: p'
  table : c.Extends c'
  sp : c'.sp = c.sp + n

namespace Emits

variable {p p' p'' : List Text} {c c' c'' : ConstTable} {n n' : ℕ}

theorem refl (p : List Text) (c : ConstTable) : Emits 0 p c p c :=
  ⟨List.prefix_rfl, .refl c, rfl⟩

theorem trans (h : Emits n p c p' c') (h' : Emits n' p' c' p'' c'') :
    Emits (n + n') p c p'' c'' :=
  ⟨h.symbols.trans h'.symbols, h.table.trans h'.table, by rw [h'.sp, h.sp, add_assoc]⟩

/-- A word that takes `k` of the entries off and pushes its result. -/
theorem word {op : ConstOp} {operand k : ℕ} {effect : ℤ} (h : Emits (n + k) p c p' c')
    (ha : Appends c' op operand effect c'') (he : effect = 1 - (k : ℤ)) :
    Emits (n + 1) p c p' c'' := by
  refine ⟨h.symbols, h.table.trans ha.grows, ?_⟩
  rw [ha.sp, h.sp, he]
  push_cast
  omega

end Emits

/-- An entry was put into a pool and its index into a word. -/
theorem emits_pool {p : List Text} {c d c' : ConstTable} {op : ConstOp} {operand : ℕ}
    (h : constWord d op operand 1 = some c') (hd : c.Extends d) (hsp : d.sp = c.sp) :
    Emits 1 p c p c' := by
  have hemits : Emits 0 p c p d := ⟨List.prefix_rfl, hd, hsp⟩
  exact hemits.word (k := 0) (constWord_appends h) (by norm_num)

theorem constSymbol_emits {p p' : List Text} {c c' : ConstTable} {op : ConstOp} {s : Text}
    (h : constSymbol p c op s = some (p', c')) : Emits 1 p c p' c' := by
  obtain ⟨d, hd, he⟩ := Option.map_eq_some_iff.mp h
  cases he
  have hpool : Emits 1 p c p c' := emits_pool hd
    ⟨List.prefix_rfl, List.prefix_rfl, List.prefix_rfl, List.prefix_rfl, le_rfl, fun _ => rfl⟩ rfl
  exact ⟨(symbolIndex_spec p s).1, hpool.table, hpool.sp⟩

/-- The two halves of an accepted pair of reader data. -/
theorem constantNodes_raw {bound : Text → Bool} {head tail : Value} {n : ℕ}
    (h : constantNodes bound true (.pair head tail) = some n) :
    ∃ a b, constantNodes bound true head = some a ∧ constantNodes bound true tail = some b ∧
      n = 1 + a + b := by
  simp only [constantNodes, if_true] at h
  split at h
  · rename_i a b ha hb
    exact ⟨a, b, ha, hb, (Option.some.inj h).symm⟩
  · cases h

/-- An accepted pair of an expression is a call of a constructor. -/
theorem constantNodes_call {bound : Text → Bool} {head tail : Value} {n : ℕ}
    (h : constantNodes bound false (.pair head tail) = some n) :
    ∃ f k, head = .symbol f ∧ bound f = false ∧ constructorArity f ≠ 0 ∧
      constantOperands bound false tail (constructorArity f) = some k ∧ n = 1 + k := by
  simp only [constantNodes, Bool.false_eq_true, if_false] at h
  split at h
  · rename_i f
    split at h
    · cases h
    · rename_i hf
      rw [not_or, Bool.not_eq_true] at hf
      obtain ⟨k, hk, hn⟩ := Option.map_eq_some_iff.mp h
      exact ⟨f, k, rfl, hf.2, hf.1, hk, hn.symm⟩
  · cases h

theorem constantOperands_pair {bound : Text → Bool} {raw : Bool} {x rest : Value} {argc n : ℕ}
    (h : constantOperands bound raw (.pair x rest) argc = some n) :
    ∃ m a b, argc = m + 1 ∧ constantNodes bound raw x = some a ∧
      constantOperands bound raw rest m = some b ∧ n = a + b := by
  cases argc with
  | zero => cases h
  | succ m =>
    simp only [constantOperands] at h
    split at h
    · rename_i a b ha hb
      exact ⟨m, a, b, rfl, ha, hb, (Option.some.inj h).symm⟩
    · cases h

theorem constructorArity_cases {f : Text} (h : constructorArity f ≠ 0) :
    (f = consName ∧ constructorArity f = 2) ∨ (f ≠ consName ∧ f = protectName ∧
      constructorArity f = 1) := by
  unfold constructorArity at h ⊢
  split_ifs at h ⊢ with hc hp
  · exact Or.inl ⟨hc, rfl⟩
  · exact Or.inr ⟨hc, hp, rfl⟩
  · exact absurd rfl h

/-- The word of a call takes the callee and the operands off the stack. -/
theorem call_appends {f : Text} {c c' : ConstTable} (hf : constructorArity f ≠ 0)
    (h : (if f = consName then constWord c .cons 0 (-2) else constWord c .call1 0 (-1)) = some c') :
    Appends c (if f = consName then .cons else .call1) 0 (1 - ((constructorArity f + 1 : ℕ) : ℤ))
      c' := by
  rcases constructorArity_cases hf with ⟨hc, ha⟩ | ⟨hc, -, ha⟩
  · rw [if_pos hc] at h ⊢
    rw [ha]
    exact constWord_appends h
  · rw [if_neg hc] at h ⊢
    rw [ha]
    exact constWord_appends h

theorem constNode_emits (bound : Text → Bool) (raw : Bool) (x : Value) :
    (∀ {n p c p' c'}, constantNodes bound raw x = some n → constNode raw x p c = some (p', c') →
      Emits 1 p c p' c') ∧
    (∀ {argc n p c p' c'}, constantOperands bound raw x argc = some n →
      constOperands raw x p c = some (p', c') → Emits argc p c p' c') := by
  induction x with
  | nil =>
    refine ⟨fun _ h => ?_, fun {argc _ _ _ _ _} hn h => ?_⟩
    · obtain ⟨d, hd, he⟩ := Option.map_eq_some_iff.mp h
      cases he
      exact emits_pool hd (.refl _) rfl
    · cases argc with
      | zero =>
        cases h
        exact .refl _ _
      | succ m => cases hn
  | number k =>
    refine ⟨fun _ h => ?_, fun {argc _ _ _ _ _} hn h => by cases argc <;> cases hn⟩
    cases k with
    | exact k =>
      obtain ⟨d, hd, he⟩ := Option.map_eq_some_iff.mp h
      cases he
      exact emits_pool hd ⟨List.prefix_rfl, List.prefix_rfl, List.prefix_append _ _,
        List.prefix_rfl, le_rfl, id⟩ rfl
    | real k =>
      obtain ⟨d, hd, he⟩ := Option.map_eq_some_iff.mp h
      cases he
      exact emits_pool hd ⟨List.prefix_rfl, List.prefix_rfl, List.prefix_rfl,
        List.prefix_append _ _, le_rfl, id⟩ rfl
  | string s =>
    refine ⟨fun _ h => ?_, fun {argc _ _ _ _ _} hn h => by cases argc <;> cases hn⟩
    obtain ⟨d, hd, he⟩ := Option.map_eq_some_iff.mp h
    cases he
    exact emits_pool hd ⟨List.prefix_rfl, List.prefix_append _ _, List.prefix_rfl,
      List.prefix_rfl, le_rfl, id⟩ rfl
  | symbol s =>
    refine ⟨fun _ h => constSymbol_emits h, fun {argc _ _ _ _ _} hn h => ?_⟩
    cases argc <;> cases hn
  | other t a =>
    refine ⟨fun hn _ => ?_, fun {argc _ _ _ _ _} hn h => ?_⟩
    · cases hn
    · cases argc <;> cases hn
  | pair head tail ihh iht =>
    refine ⟨fun hn h => ?_, fun hn h => ?_⟩
    · cases raw with
      | true =>
        obtain ⟨_, _, hh, ht, -⟩ := constantNodes_raw hn
        simp only [constNode, if_true] at h
        obtain ⟨⟨p1, c1⟩, h1, h⟩ := Option.bind_eq_some_iff.mp h
        obtain ⟨⟨p2, c2⟩, h2, h⟩ := Option.bind_eq_some_iff.mp h
        obtain ⟨c3, h3, he⟩ := Option.map_eq_some_iff.mp h
        cases he
        have hboth := (ihh.1 hh h1).trans (iht.1 ht h2)
        exact Emits.word (n := 0) (k := 2) hboth (constWord_appends h3) (by norm_num)
      | false =>
        obtain ⟨f, _, rfl, -, hf, ht, -⟩ := constantNodes_call hn
        simp only [constNode, Bool.false_eq_true, if_false] at h
        obtain ⟨⟨p1, c1⟩, h1, h⟩ := Option.bind_eq_some_iff.mp h
        obtain ⟨⟨p2, c2⟩, h2, h⟩ := Option.bind_eq_some_iff.mp h
        obtain ⟨c3, h3, he⟩ := Option.map_eq_some_iff.mp h
        cases he
        have hboth := (constSymbol_emits h1).trans (iht.2 ht h2)
        rw [Nat.add_comm] at hboth
        exact Emits.word (n := 0) (k := constructorArity f + 1) (by rwa [Nat.zero_add])
          (call_appends hf h3) rfl
    · obtain ⟨m, _, _, rfl, hx, hr, -⟩ := constantOperands_pair hn
      obtain ⟨⟨p1, c1⟩, h1, h⟩ := Option.bind_eq_some_iff.mp h
      have hboth := (ihh.1 hx h1).trans (iht.2 hr h)
      rwa [Nat.add_comm] at hboth

/-! ### Which tables are emitted -/

/-- With `k` more nodes no operand gets too large. -/
structure Fits (k : ℕ) (p : List Text) (c : ConstTable) : Prop where
  symbols : p.length + k ≤ maxOperand
  strings : c.strings.length + k ≤ maxOperand
  integers : c.integers.length + k ≤ maxOperand
  reals : c.reals.length + k ≤ maxOperand

theorem Fits.mono {k k' : ℕ} {p : List Text} {c : ConstTable} (h : Fits k p c) (hk : k' ≤ k) :
    Fits k' p c :=
  ⟨(Nat.add_le_add_left hk _).trans h.symbols, (Nat.add_le_add_left hk _).trans h.strings,
    (Nat.add_le_add_left hk _).trans h.integers, (Nat.add_le_add_left hk _).trans h.reals⟩

theorem constWord_some {c : ConstTable} {op : ConstOp} {operand : ℕ} {effect : ℤ}
    (h : operand ≤ maxOperand) : ∃ c', constWord c op operand effect = some c' := by
  rw [constWord, if_neg (not_lt.mpr h)]
  exact ⟨_, rfl⟩

theorem symbolIndex_le (p : List Text) (s : Text) :
    (symbolIndex p s).1 ≤ p.length ∧ (symbolIndex p s).2.length ≤ p.length + 1 := by
  unfold symbolIndex
  rcases hfind : p.findIdx? (· == s) with _ | i
  · simp
  · obtain ⟨hlt, -⟩ := List.findIdx?_eq_some_iff_getElem.mp hfind
    exact ⟨hlt.le, Nat.le_succ _⟩

theorem constSymbol_some {p : List Text} {c : ConstTable} {op : ConstOp} {s : Text} {k : ℕ}
    (h : Fits (k + 1) p c) : ∃ p' c', constSymbol p c op s = some (p', c') ∧ Fits k p' c' := by
  obtain ⟨hindex, hlength⟩ := symbolIndex_le p s
  have hp := h.symbols
  obtain ⟨c', hc'⟩ := @constWord_some { c with symbols := true } op (symbolIndex p s).1 1 (by omega)
  have ha := constWord_appends hc'
  refine ⟨(symbolIndex p s).2, c', by rw [constSymbol, hc']; rfl, by omega, ?_, ?_, ?_⟩
  · rw [ha.strings]
    exact (h.mono (Nat.le_succ k)).strings
  · rw [ha.integers]
    exact (h.mono (Nat.le_succ k)).integers
  · rw [ha.reals]
    exact (h.mono (Nat.le_succ k)).reals

/-- An entry more in one of the pools. -/
theorem Fits.pool {k : ℕ} {p : List Text} {c d : ConstTable} (h : Fits (k + 1) p c)
    (hs : d.strings.length ≤ c.strings.length + 1) (hi : d.integers.length ≤ c.integers.length + 1)
    (hr : d.reals.length ≤ c.reals.length + 1) : Fits k p d := by
  obtain ⟨h1, h2, h3, h4⟩ := h
  exact ⟨by omega, by omega, by omega, by omega⟩

/-- A word on a new entry of a pool, or on none. -/
theorem constWord_fits {p : List Text} {d : ConstTable} {op : ConstOp} {operand k : ℕ} {effect : ℤ}
    (h : Fits k p d) (hoperand : operand ≤ maxOperand) :
    ∃ c', constWord d op operand effect = some c' ∧ Fits k p c' := by
  obtain ⟨c', hc'⟩ := @constWord_some d op operand effect hoperand
  have ha := constWord_appends hc'
  refine ⟨c', hc', h.symbols, ?_, ?_, ?_⟩
  · rw [ha.strings]
    exact h.strings
  · rw [ha.integers]
    exact h.integers
  · rw [ha.reals]
    exact h.reals

theorem constNode_some (bound : Text → Bool) (raw : Bool) (x : Value) :
    (∀ {n k p c}, constantNodes bound raw x = some n → Fits (n + k) p c →
      ∃ p' c', constNode raw x p c = some (p', c') ∧ Fits k p' c') ∧
    (∀ {argc n k p c}, constantOperands bound raw x argc = some n → Fits (n + k) p c →
      ∃ p' c', constOperands raw x p c = some (p', c') ∧ Fits k p' c') := by
  induction x with
  | nil =>
    refine ⟨fun {n k p c} hn h => ?_, fun {argc n k p c} hn h => ?_⟩
    · obtain ⟨c', hc', hfits⟩ := @constWord_fits p c .nil 0 k 1 (h.mono (Nat.le_add_left k n))
        (Nat.zero_le _)
      exact ⟨p, c', by rw [constNode, hc']; rfl, hfits⟩
    · exact ⟨p, c, rfl, h.mono (Nat.le_add_left k n)⟩
  | number x =>
    refine ⟨fun {n k p c} hn h => ?_, fun {argc _ _ _ _} hn _ => ?_⟩
    · cases hn
      rw [Nat.add_comm] at h
      cases x with
      | exact x =>
        obtain ⟨c', hc', hfits⟩ := @constWord_fits p { c with integers := c.integers ++ [x] }
          .integer c.integers.length k 1 (h.pool (by simp) (by simp) (by simp))
          ((Nat.le_add_right _ _).trans h.integers)
        exact ⟨p, c', by rw [constNode, hc']; rfl, hfits⟩
      | real x =>
        obtain ⟨c', hc', hfits⟩ := @constWord_fits p
          { c with reals := c.reals ++ [writtenReal x] } .real c.reals.length k 1
          (h.pool (by simp) (by simp) (by simp)) ((Nat.le_add_right _ _).trans h.reals)
        exact ⟨p, c', by rw [constNode, hc']; rfl, hfits⟩
    · cases argc <;> cases hn
  | string s =>
    refine ⟨fun {n k p c} hn h => ?_, fun {argc _ _ _ _} hn _ => ?_⟩
    · cases hn
      rw [Nat.add_comm] at h
      obtain ⟨c', hc', hfits⟩ := @constWord_fits p
        { c with strings := c.strings ++ [(Emit.quotedN s, s.length)] } .string c.strings.length k 1
        (h.pool (by simp) (by simp) (by simp)) ((Nat.le_add_right _ _).trans h.strings)
      exact ⟨p, c', by rw [constNode, hc']; rfl, hfits⟩
    · cases argc <;> cases hn
  | symbol s =>
    refine ⟨fun {n k p c} hn h => ?_, fun {argc _ _ _ _} hn _ => ?_⟩
    · simp only [constantNodes] at hn
      split_ifs at hn
      cases hn
      exact constSymbol_some (h.mono (by omega))
    · cases argc <;> cases hn
  | other t a =>
    refine ⟨fun hn _ => ?_, fun {argc _ _ _ _} hn _ => ?_⟩
    · cases hn
    · cases argc <;> cases hn
  | pair head tail ihh iht =>
    refine ⟨fun {n k p c} hn h => ?_, fun {argc n k p c} hn h => ?_⟩
    · cases raw with
      | true =>
        obtain ⟨a, b, hh, ht, rfl⟩ := constantNodes_raw hn
        have h1 : Fits (a + (b + k)) p c := h.mono (by omega)
        obtain ⟨p1, c1, hc1, h2⟩ := ihh.1 hh h1
        obtain ⟨p2, c2, hc2, h3⟩ := iht.1 ht h2
        obtain ⟨c3, hc3, h4⟩ := @constWord_fits p2 c2 .pair 0 k (-1) h3 (Nat.zero_le _)
        exact ⟨p2, c3, by simp [constNode, hc1, hc2, hc3], h4⟩
      | false =>
        obtain ⟨f, m, rfl, -, -, ht, rfl⟩ := constantNodes_call hn
        have h1 : Fits (m + k + 1) p c := h.mono (by omega)
        obtain ⟨p1, c1, hc1, h2⟩ := @constSymbol_some p c .function f (m + k) h1
        obtain ⟨p2, c2, hc2, h3⟩ := iht.2 ht h2
        obtain ⟨c3, hc3, h4⟩ : ∃ c3, (if f = consName then constWord c2 .cons 0 (-2)
            else constWord c2 .call1 0 (-1)) = some c3 ∧ Fits k p2 c3 := by
          split_ifs <;> exact constWord_fits h3 (Nat.zero_le _)
        exact ⟨p2, c3, by simp [constNode, hc1, hc2, hc3], h4⟩
    · obtain ⟨m, a, b, rfl, hx, hr, rfl⟩ := constantOperands_pair hn
      have h1 : Fits (a + (b + k)) p c := h.mono (by omega)
      obtain ⟨p1, c1, hc1, h2⟩ := ihh.1 hx h1
      obtain ⟨p2, c2, hc2, h3⟩ := iht.2 hr h2
      exact ⟨p2, c2, by simp [constOperands, hc1, hc2], h3⟩

/-- **Every accepted tree has a table**, if its nodes and the symbols of the module number less than
`2 ^ 28`; the emitter's stack pointer does end at one. -/
theorem constantData_some {bound : Text → Bool} {raw : Bool} {x : Value} {n : ℕ} {p : List Text}
    (hn : constantNodes bound raw x = some n) (hsize : p.length + n ≤ maxOperand) :
    ∃ p' c, constantData raw x p = some (p', c) := by
  have hpool : 0 + (n + 0) ≤ maxOperand := by omega
  have hfits : Fits (n + 0) p {} := ⟨hsize, hpool, hpool, hpool⟩
  obtain ⟨p', c, hc, -⟩ := (constNode_some bound raw x).1 hn hfits
  have hsp := ((constNode_emits bound raw x).1 hn hc).sp
  exact ⟨p', c, by rw [constantData, hc, Option.bind_some, if_pos hsp]⟩

end ShenRc.Constant
