import ShenRc.Constant.Emits
import ShenRc.Constant.Machine

/-! # The table of a tree does what the tree means

The emitter's count of the stack pointer is the length of the stack (`Machine.At`), so no word finds
the stack too short or the array too small. `Delivers` relates the words between two states of the
emitter to the code they stand for: where that yields values, the words push them, and where it
fails, the machine ends there and every reference has been released or given away. -/

namespace ShenRc.Constant

open Numeral KL

variable {O W : Type}

/-- The machine stands where the emitter stood at `c`. -/
structure Machine.At (m : Machine O W) (c : ConstTable) : Prop where
  sp : m.stack.length = c.sp
  ledger : m.ledger.Accounts m.held

section Run

variable (H : Host O W) (table : List Text) (F : ConstTable)

/-- The symbols are passed to the table if it has any. -/
def tableSymbols : Option (List Text) := if F.symbols then some table else none

/-- The run of the finished table `F` from the position where the emitter stood at `c`. -/
def runFrom (c : ConstTable) (m : Machine O W) : Option (Outcome O W) :=
  runCode H (tableSymbols table F) F (F.code.drop c.code.length) m

/-- The words from `c` to `c'` do what `code` does, and leave its values over `base`. -/
structure Delivers {α : Type} (base : List (ℕ × Datum O)) (c c' : ConstTable) (code : Run W α)
    (values : α → List (Datum O)) (m : Machine O W) : Prop where
  value : ∀ {a w}, code m.world = (some a, w) → ∃ (vs : List (ℕ × Datum O)) (l : Ledger),
    vs.map Prod.snd = values a ∧ (⟨w, l, vs.reverse ++ base⟩ : Machine O W).At c' ∧
      runFrom H table F c m = runFrom H table F c' ⟨w, l, vs.reverse ++ base⟩
  failure : ∀ {w}, code m.world = (none, w) → ∃ l : Ledger,
    l.Accounts [] ∧ runFrom H table F c m = some (none, w, l)

end Run

section

variable {H : Host O W} {table : List Text} {F c c' c'' : ConstTable} {α β : Type}
  {base : List (ℕ × Datum O)} {m : Machine O W}

namespace Delivers

theorem pure {a : α} {values : α → List (Datum O)} {vs : List (ℕ × Datum O)}
    (hvs : vs.map Prod.snd = values a) (hm : m.At c) (hstack : m.stack = vs.reverse ++ base) :
    Delivers H table F base c c (Run.pure a) values m := by
  refine ⟨fun h => ?_, fun h => by cases h⟩
  cases h
  refine ⟨vs, m.ledger, hvs, ?_, ?_⟩ <;> rw [← hstack]
  exact hm

/-- **One stretch of words after the other.** -/
theorem andThen {code : Run W α} {k : α → Run W β} {values : α → List (Datum O)}
    {values' : β → List (Datum O)} (h : Delivers H table F m.stack c c' code values m)
    (hk : ∀ {a w} {vs : List (ℕ × Datum O)} {l : Ledger}, code m.world = (some a, w) →
      vs.map Prod.snd = values a →
      (⟨w, l, vs.reverse ++ m.stack⟩ : Machine O W).At c' →
      Delivers H table F base c' c'' (k a) values' ⟨w, l, vs.reverse ++ m.stack⟩) :
    Delivers H table F base c c'' (code.andThen k) values' m := by
  rcases hcode : code m.world with ⟨_ | a, w⟩
  · obtain ⟨l, hl, hrun⟩ := h.failure hcode
    have hfail : code.andThen k m.world = (none, w) := Run.andThen_none hcode k
    refine ⟨fun he => ?_, fun he => ?_⟩ <;> rw [hfail] at he <;> cases he
    exact ⟨l, hl, hrun⟩
  · obtain ⟨vs, l, hvs, hat, hrun⟩ := h.value hcode
    have hnext := hk hcode hvs hat
    have hsome : code.andThen k m.world = k a w := Run.andThen_some hcode k
    refine ⟨fun he => ?_, fun he => ?_⟩ <;> rw [hsome] at he
    · obtain ⟨vs', l', hvs', hat', hrun'⟩ := hnext.value he
      exact ⟨vs', l', hvs', hat', hrun.trans hrun'⟩
    · obtain ⟨l', hl', hrun'⟩ := hnext.failure he
      exact ⟨l', hl', hrun.trans hrun'⟩

/-- **One word**: its operation takes some entries off and its result goes on the stack. -/
theorem word {op : ConstOp} {operand : ℕ} {effect : ℤ} {code : Run W (Datum O)} {l : Ledger}
    (ha : Appends c op operand effect c') (hF : c'.Extends F)
    (hstep : step H (tableSymbols table F) F (constCode op operand) m =
      finish F.depth l base (code m.world))
    (hl : l.Accounts (base.map Prod.fst)) (hsp : base.length + 1 = c'.sp) :
    Delivers H table F base c c' code (fun v => [v]) m := by
  have hword : F.code.drop c.code.length = constCode op operand :: F.code.drop c'.code.length := by
    obtain ⟨rest, hrest⟩ := hF.code
    rw [← hrest, ha.code]
    simp
  have hroom : base.length < F.depth := by
    have := ha.sp_le hF
    omega
  have hrun : runFrom H table F c m = runCode H (tableSymbols table F) F
      (constCode op operand :: F.code.drop c'.code.length) m := by
    rw [runFrom, hword]
  refine ⟨fun {v w} h => ?_, fun {w} h => ?_⟩
  · refine ⟨[(l.issued, v)], l.issue, rfl, ⟨?_, hl.issue⟩, ?_⟩
    · simpa using hsp
    · rw [hrun, runCode, hstep, h, finish, if_pos hroom]
      rfl
  · refine ⟨l.releaseAll (base.map Prod.fst), hl.releaseAll, ?_⟩
    rw [hrun, runCode, hstep, h]
    rfl

/-- A word that takes nothing off. -/
theorem push {d : ConstTable} {op : ConstOp} {operand : ℕ} {code : Run W (Datum O)}
    (h : constWord d op operand 1 = some c') (hcode : d.code = c.code) (hsp : d.sp = c.sp)
    (hm : m.At c) (hF : c'.Extends F)
    (hstep : step H (tableSymbols table F) F (constCode op operand) m =
      finish F.depth m.ledger m.stack (code m.world)) :
    Delivers H table F m.stack c c' code (fun v => [v]) m := by
  have ha := constWord_appends h
  have hd : Delivers H table F m.stack d c' code (fun v => [v]) m := by
    refine .word ha hF hstep hm.ledger ?_
    rw [ha.sp, hsp, hm.sp]
    omega
  have hfrom : runFrom H table F c m = runFrom H table F d m := by
    rw [runFrom, runFrom, hcode]
  refine ⟨fun h => ?_, fun h => ?_⟩
  · obtain ⟨vs, l, hvs, hat, hrun⟩ := hd.value h
    exact ⟨vs, l, hvs, hat, hfrom.trans hrun⟩
  · obtain ⟨l, hl, hrun⟩ := hd.failure h
    exact ⟨l, hl, hfrom.trans hrun⟩

end Delivers

/-! ### The words of a tree -/

/-- An entry of a pool that was appended stays where it is. -/
theorem pool_getElem {γ : Type} {pool pool' : List γ} {a : γ} (h : pool ++ [a] <+: pool') :
    pool'[pool.length]? = some a := by
  obtain ⟨rest, rfl⟩ := h
  simp

theorem symbolAt_spec {p p' : List Text} {op : ConstOp} {s : Text}
    (h : constSymbol p c op s = some (p', c')) (hF : c'.Extends F) (htable : p' <+: table) :
    symbolAt (tableSymbols table F) (symbolIndex p s).1 = some s := by
  obtain ⟨d, hd, he⟩ := Option.map_eq_some_iff.mp h
  cases he
  have hsymbols : F.symbols = true := hF.symbols (by rw [(constWord_appends hd).symbols])
  obtain ⟨rest, rfl⟩ := htable
  have hget := (symbolIndex_spec p s).2
  obtain ⟨hlt, -⟩ := List.getElem?_eq_some_iff.mp hget
  rw [symbolAt, tableSymbols, if_pos hsymbols, Option.bind_some, List.getElem?_append_left hlt, hget]

/-- A word on a symbol. -/
theorem constSymbol_delivers {p p' : List Text} {op : ConstOp} {s : Text} {code : Run W (Datum O)}
    (hm : m.At c) (h : constSymbol p c op s = some (p', c')) (hF : c'.Extends F)
    (htable : p' <+: table)
    (hstep : ∀ i ≤ maxOperand, symbolAt (tableSymbols table F) i = some s →
      step H (tableSymbols table F) F (constCode op i) m =
        finish F.depth m.ledger m.stack (code m.world)) :
    Delivers H table F m.stack c c' code (fun v => [v]) m := by
  have hat := symbolAt_spec h hF htable
  obtain ⟨d, hd, he⟩ := Option.map_eq_some_iff.mp h
  cases he
  exact .push hd rfl rfl hm hF (hstep _ (constWord_appends hd).fits hat)

/-- Operands that ran number as many as were counted. -/
theorem evalOperands_length {bound : Text → Bool} {raw : Bool} {atom : Value → Run W (Datum O)}
    (x : Value) {argc n : ℕ} {args : List (Datum O)} {w w' : W}
    (hn : constantOperands bound raw x argc = some n)
    (h : evalOperands H atom raw x w = (some args, w')) : args.length = argc := by
  induction x generalizing argc n args w with
  | pair x rest _ ih =>
    obtain ⟨k, _, _, rfl, -, hr, -⟩ := constantOperands_pair hn
    rw [evalOperands] at h
    rcases hx : eval H atom raw x w with ⟨_ | a, w1⟩
    · rw [Run.andThen_none hx] at h
      cases h
    rw [Run.andThen_some hx] at h
    rcases hrest : evalOperands H atom raw rest w1 with ⟨_ | as, w2⟩
    · rw [Run.andThen_none hrest] at h
      cases h
    rw [Run.andThen_some hrest] at h
    cases h
    rw [List.length_cons, ih hr hrest]
  | nil => cases argc <;> cases hn; cases h; rfl
  | number _ => cases argc <;> cases hn
  | string _ => cases argc <;> cases hn
  | symbol _ => cases argc <;> cases hn
  | other _ _ => cases argc <;> cases hn

theorem map_snd_singleton {vs : List (ℕ × Datum O)} {a : Datum O} (h : vs.map Prod.snd = [a]) :
    ∃ r, vs = [(r, a)] := by
  obtain ⟨⟨r, b⟩, rfl, he⟩ := List.map_eq_singleton_iff.mp h
  cases he
  exact ⟨r, rfl⟩

/-- The word of a call, with the callee and its operands on the stack. -/
theorem call_delivers {f : Text} {fn : Datum O} {rf : ℕ} {args : List (Datum O)}
    {vs base : List (ℕ × Datum O)} {w : W} {l : Ledger} (hf : constructorArity f ≠ 0)
    (ha : Appends c (if f = consName then .cons else .call1) 0
      (1 - ((constructorArity f + 1 : ℕ) : ℤ)) c') (hF : c'.Extends F)
    (hvs : vs.map Prod.snd = args) (hlength : args.length = constructorArity f)
    (hat : (⟨w, l, vs.reverse ++ ([(rf, fn)].reverse ++ base)⟩ : Machine O W).At c) :
    Delivers H table F base c c' (construct H f fn args) (fun v => [v])
      ⟨w, l, vs.reverse ++ ([(rf, fn)].reverse ++ base)⟩ := by
  subst hvs
  have hsp := ha.sp
  have hat_sp := hat.sp
  rw [List.length_map] at hlength
  simp only [List.length_append, List.length_reverse, List.length_cons, List.length_nil]
    at hat_sp
  have hbase : base.length + 1 = c'.sp := by omega
  rcases constructorArity_cases hf with ⟨hc, hk⟩ | ⟨hc, -, hk⟩
  · rw [hk] at hlength
    obtain ⟨⟨ra, a⟩, ⟨rb, b⟩, rfl⟩ := List.length_eq_two.mp hlength
    rw [if_pos hc] at ha
    refine .word ha hF ?_ hat.ledger.give.give.release hbase
    simp only [step, codeOp_constCode ha.fits, List.reverse_cons, List.reverse_nil,
      List.nil_append, List.cons_append, List.map_cons, List.map_nil, construct, if_pos hc]
  · rw [hk] at hlength
    obtain ⟨⟨ra, a⟩, rfl⟩ := List.length_eq_one_iff.mp hlength
    rw [if_neg hc] at ha
    refine .word ha hF ?_ hat.ledger.give.release hbase
    simp only [step, codeOp_constCode ha.fits, List.reverse_cons, List.reverse_nil,
      List.nil_append, List.cons_append, List.map_cons, List.map_nil, construct]

/-- The word of an atom. -/
theorem atom_delivers {bound : Text → Bool} {raw : Bool} {x : Value} {n : ℕ} {p p' : List Text}
    (hx : ∀ a b, x ≠ .pair a b) (hn : constantNodes bound raw x = some n)
    (h : constNode raw x p c = some (p', c')) (hF : c'.Extends F) (htable : p' <+: table)
    (hm : m.At c) :
    Delivers H table F m.stack c c' (eval H (writtenAtom H) raw x) (fun v => [v]) m := by
  cases x with
  | nil =>
    obtain ⟨d, hd, he⟩ := Option.map_eq_some_iff.mp h
    cases he
    refine .push hd rfl rfl hm hF ?_
    simp only [step, codeOp_constCode (constWord_appends hd).fits, eval, writtenAtom, Run.pure]
  | number k =>
    cases k with
    | exact k =>
      obtain ⟨d, hd, he⟩ := Option.map_eq_some_iff.mp h
      cases he
      have ha := constWord_appends hd
      have hpool : _ <+: F.integers := ha.integers ▸ hF.integers
      refine .push hd rfl rfl hm hF ?_
      simp only [step, codeOp_constCode ha.fits, codeOperand_constCode ha.fits,
        pool_getElem hpool, access, eval, writtenAtom]
    | real k =>
      obtain ⟨d, hd, he⟩ := Option.map_eq_some_iff.mp h
      cases he
      have ha := constWord_appends hd
      have hpool : _ <+: F.reals := ha.reals ▸ hF.reals
      refine .push hd rfl rfl hm hF ?_
      simp only [step, codeOp_constCode ha.fits, codeOperand_constCode ha.fits,
        pool_getElem hpool, access, eval, writtenAtom]
  | string s =>
    obtain ⟨d, hd, he⟩ := Option.map_eq_some_iff.mp h
    cases he
    have ha := constWord_appends hd
    have hpool : _ <+: F.strings := ha.strings ▸ hF.strings
    refine .push hd rfl rfl hm hF ?_
    simp only [step, codeOp_constCode ha.fits, codeOperand_constCode ha.fits,
      pool_getElem hpool, access, eval, writtenAtom]
  | symbol s =>
    refine constSymbol_delivers hm h hF htable fun i hi hat => ?_
    simp only [step, codeOp_constCode hi, codeOperand_constCode hi, hat, access, eval,
      writtenAtom, Run.pure]
  | other t a => cases hn
  | pair a b => exact absurd rfl (hx a b)

/-- No operands are left at an atom. -/
theorem atom_operands {bound : Text → Bool} {raw : Bool} {x : Value} {argc n : ℕ}
    {p p' : List Text} (hx : ∀ a b, x ≠ .pair a b)
    (hn : constantOperands bound raw x argc = some n)
    (h : constOperands raw x p c = some (p', c')) (hm : m.At c) :
    Delivers H table F m.stack c c' (evalOperands H (writtenAtom H) raw x) id m := by
  cases x with
  | nil =>
    cases argc with
    | zero =>
      cases h
      have hnil : ∀ base : List (ℕ × Datum O), base = [].reverse ++ base := fun _ => rfl
      exact .pure rfl hm (hnil _)
    | succ k => cases hn
  | pair a b => exact absurd rfl (hx a b)
  | number _ => cases argc <;> cases hn
  | string _ => cases argc <;> cases hn
  | symbol _ => cases argc <;> cases hn
  | other _ _ => cases argc <;> cases hn

/-- What is proved of the words of a tree, as a node and as a list of operands. -/
abbrev NodeDelivers (H : Host O W) (table : List Text) (F : ConstTable) (bound : Text → Bool)
    (raw : Bool) (x : Value) : Prop :=
  ∀ {n p c p' c'} {m : Machine O W}, constantNodes bound raw x = some n →
    constNode raw x p c = some (p', c') → c'.Extends F → p' <+: table → m.At c →
    Delivers H table F m.stack c c' (eval H (writtenAtom H) raw x) (fun v => [v]) m

abbrev OperandsDeliver (H : Host O W) (table : List Text) (F : ConstTable) (bound : Text → Bool)
    (raw : Bool) (x : Value) : Prop :=
  ∀ {argc n p c p' c'} {m : Machine O W}, constantOperands bound raw x argc = some n →
    constOperands raw x p c = some (p', c') → c'.Extends F → p' <+: table → m.At c →
    Delivers H table F m.stack c c' (evalOperands H (writtenAtom H) raw x) id m

/-- A pair of data: its parts and the word that joins them. -/
theorem rawPair_delivers {bound : Text → Bool} {head tail : Value}
    (hhead : NodeDelivers H table F bound true head)
    (htail : NodeDelivers H table F bound true tail) :
    NodeDelivers H table F bound true (.pair head tail) := by
  intro n p c p' c' m hn h hF htable hm
  obtain ⟨_, _, hh, ht, -⟩ := constantNodes_raw hn
  simp only [constNode, if_true] at h
  obtain ⟨⟨p1, c1⟩, h1, h⟩ := Option.bind_eq_some_iff.mp h
  obtain ⟨⟨p2, c2⟩, h2, h⟩ := Option.bind_eq_some_iff.mp h
  obtain ⟨c3, h3, he⟩ := Option.map_eq_some_iff.mp h
  cases he
  dsimp only at h2 h3 htable
  have ha := constWord_appends h3
  have e2 := (constNode_emits bound true tail).1 ht h2
  have hF2 := ha.grows.trans hF
  simp only [eval, if_true]
  refine (hhead hh h1 (e2.table.trans hF2) (e2.symbols.trans htable) hm).andThen
    fun _ hvs hat => ?_
  refine (htail ht h2 hF2 htable hat).andThen fun _ hvs' hat' => ?_
  obtain ⟨ra, rfl⟩ := map_snd_singleton hvs
  obtain ⟨rb, rfl⟩ := map_snd_singleton hvs'
  refine .word ha hF ?_ hat'.ledger.give.give ?_
  · simp only [step, codeOp_constCode ha.fits, List.reverse_cons, List.reverse_nil,
      List.nil_append, List.cons_append]
  · have := hat'.sp
    simp only [List.reverse_cons, List.reverse_nil, List.nil_append, List.cons_append,
      List.length_cons] at this
    rw [ha.sp]
    omega

/-- The call of a constructor: the callee, the operands and the word of the call. -/
theorem constructor_delivers {bound : Text → Bool} {head tail : Value}
    (htail : OperandsDeliver H table F bound false tail) :
    NodeDelivers H table F bound false (.pair head tail) := by
  intro n p c p' c' m hn h hF htable hm
  obtain ⟨f, _, rfl, -, hf, ht, -⟩ := constantNodes_call hn
  simp only [constNode, Bool.false_eq_true, if_false] at h
  obtain ⟨⟨p1, c1⟩, h1, h⟩ := Option.bind_eq_some_iff.mp h
  obtain ⟨⟨p2, c2⟩, h2, h⟩ := Option.bind_eq_some_iff.mp h
  obtain ⟨c3, h3, he⟩ := Option.map_eq_some_iff.mp h
  cases he
  dsimp only at h2 h3 htable
  have ha := call_appends hf h3
  have e2 := (constNode_emits bound false tail).2 ht h2
  have hF2 := ha.grows.trans hF
  have hcallee : Delivers H table F _ _ c1 (H.rcFunctionGet f) (fun v => [v]) _ :=
    constSymbol_delivers hm h1 (e2.table.trans hF2) (e2.symbols.trans htable)
      fun i hi hat => by
        simp only [step, codeOp_constCode hi, codeOperand_constCode hi, hat, access]
  simp only [eval, Bool.false_eq_true, if_false]
  refine hcallee.andThen fun _ hvs hat => ?_
  refine (htail ht h2 hF2 htable hat).andThen fun hargs hvs' hat' => ?_
  obtain ⟨rf, rfl⟩ := map_snd_singleton hvs
  exact call_delivers hf ha hF hvs' (evalOperands_length tail ht hargs) hat'

/-- Operands: the first one, then the others. -/
theorem operands_deliver {bound : Text → Bool} {raw : Bool} {head tail : Value}
    (hhead : NodeDelivers H table F bound raw head)
    (htail : OperandsDeliver H table F bound raw tail) :
    OperandsDeliver H table F bound raw (.pair head tail) := by
  intro argc n p c p' c' m hn h hF htable hm
  obtain ⟨k, _, _, rfl, hx, hr, -⟩ := constantOperands_pair hn
  obtain ⟨⟨p1, c1⟩, h1, h⟩ := Option.bind_eq_some_iff.mp h
  have e2 := (constNode_emits bound raw tail).2 hr h
  simp only [evalOperands]
  refine (hhead hx h1 (e2.table.trans hF) (e2.symbols.trans htable) hm).andThen
    fun {a _ _ _} _ hvs hat => ?_
  refine (htail hr h hF htable hat).andThen fun {args _ vs _} _ hvs' hat' => ?_
  obtain ⟨r, rfl⟩ := map_snd_singleton hvs
  have hvalues : ((r, a) :: vs).map Prod.snd = id (a :: args) := by
    rw [List.map_cons, hvs']
    rfl
  exact .pure hvalues hat' (by simp)

/-- **The words of a tree do what the tree means.** -/
theorem constNode_delivers (bound : Text → Bool) (raw : Bool) (x : Value) :
    NodeDelivers H table F bound raw x ∧ OperandsDeliver H table F bound raw x := by
  induction x with
  | pair head tail ihh iht =>
    refine ⟨?_, operands_deliver ihh.1 iht.2⟩
    cases raw with
    | true => exact rawPair_delivers ihh.1 iht.1
    | false => exact constructor_delivers iht.2
  | _ =>
    exact ⟨fun hn h hF htable hm => atom_delivers (fun _ _ => nofun) hn h hF htable hm,
      fun hn h _ _ hm => atom_operands (fun _ _ => nofun) hn h hm⟩

end

end ShenRc.Constant
