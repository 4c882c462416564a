import ShenRc.Constant.Emits
import ShenRc.Constant.Straight

/-! # Straight-line code does what the tree means

Code for a tree writes only slots that are fresh, so what stands in older slots stays
(`Frame.Keeps`), the callee and the operands that are already there included. -/

namespace ShenRc.Constant

open Numeral KL

variable {O W : Type}

/-- The slots below `n` are as they were. -/
def Frame.Keeps (n : ℕ) (frame frame' : Frame O) : Prop := ∀ t < n, frame' t = frame t

theorem Frame.Keeps.trans {n n' : ℕ} {f f' f'' : Frame O} (h : f.Keeps n f') (hle : n ≤ n')
    (h' : f'.Keeps n' f'') : f.Keeps n f'' :=
  fun t ht => (h' t (lt_of_lt_of_le ht hle)).trans (h t ht)

section

variable (H : Host O W) (table : List Text) (defs : Text → List ModuleDef)

/-- The statements do what `code` does, and leave a frame for its value as `post` says. -/
structure Executes {α : Type} (stmts : List Stmt) (code : Run W α) (frame : Frame O)
    (post : α → Frame O → Prop) (w : W) : Prop where
  value : ∀ {a w'}, code w = (some a, w') → ∃ frame', post a frame' ∧
    ∀ rest, exec H table defs (stmts ++ rest) frame w = exec H table defs rest frame' w'
  failure : ∀ {w'}, code w = (none, w') →
    ∀ rest, exec H table defs (stmts ++ rest) frame w = some (none, w')

end

variable {H : Host O W} {table : List Text} {defs : Text → List ModuleDef} {α β : Type}
  {frame : Frame O} {w : W}

namespace Executes

theorem nil {a : α} {post : α → Frame O → Prop} (h : post a frame) :
    Executes H table defs [] (.pure a) frame post w := by
  refine ⟨fun he => ?_, fun he => by cases he⟩
  cases he
  exact ⟨frame, h, fun _ => rfl⟩

theorem weaken {stmts : List Stmt} {code : Run W α} {post post' : α → Frame O → Prop}
    (h : Executes H table defs stmts code frame post w) (hpost : ∀ a f, post a f → post' a f) :
    Executes H table defs stmts code frame post' w := by
  refine ⟨fun he => ?_, h.failure⟩
  obtain ⟨f, hf, hexec⟩ := h.value he
  exact ⟨f, hpost _ _ hf, hexec⟩

/-- **One stretch of statements after the other.** -/
theorem andThen {stmts stmts' : List Stmt} {code : Run W α} {k : α → Run W β}
    {post : α → Frame O → Prop} {post' : β → Frame O → Prop}
    (h : Executes H table defs stmts code frame post w)
    (hk : ∀ {a frame' w'}, code w = (some a, w') → post a frame' →
      Executes H table defs stmts' (k a) frame' post' w') :
    Executes H table defs (stmts ++ stmts') (code.andThen k) frame post' w := by
  rcases hcode : code w with ⟨_ | a, w1⟩
  · have hfail : code.andThen k w = (none, w1) := Run.andThen_none hcode k
    refine ⟨fun he => ?_, fun he rest => ?_⟩ <;> rw [hfail] at he <;> cases he
    rw [List.append_assoc, h.failure hcode]
  · obtain ⟨f, hf, hexec⟩ := h.value hcode
    have hnext := hk hcode hf
    have hsome : code.andThen k w = k a w1 := Run.andThen_some hcode k
    refine ⟨fun he => ?_, fun he rest => ?_⟩ <;> rw [hsome] at he
    · obtain ⟨f', hf', hexec'⟩ := hnext.value he
      exact ⟨f', hf', fun rest => by rw [List.append_assoc, hexec, hexec']⟩
    · rw [List.append_assoc, hexec, hnext.failure he]

/-- The value is only put in another form. -/
theorem map {stmts : List Stmt} {code : Run W α} {post : α → Frame O → Prop}
    {post' : β → Frame O → Prop} (h : Executes H table defs stmts code frame post w) (g : α → β)
    (hpost : ∀ a f, post a f → post' (g a) f) :
    Executes H table defs stmts (code.andThen fun a => .pure (g a)) frame post' w := by
  have hnil := h.andThen (k := fun a => .pure (g a)) fun {a f _} _ hf => nil (hpost a f hf)
  rwa [List.append_nil] at hnil

/-- **One statement.** -/
theorem stmt {s : Stmt} {code : Run W (Datum O)} (h : s.code H table defs frame = some code) :
    Executes H table defs [s] code frame (fun v f => f = s.write frame v) w := by
  refine ⟨fun he => ⟨_, rfl, fun rest => ?_⟩, fun he rest => ?_⟩ <;>
    simp only [List.cons_append, List.nil_append, exec, h, he]

end Executes

/-! ### Fresh slots -/

theorem Stmt.write_slot (s : Stmt) (v : Datum O) : s.write frame v s.slot = some v := if_pos rfl

/-- A statement that writes a fresh slot and moves out of younger ones only. -/
theorem Stmt.write_keeps {s : Stmt} {n : ℕ} (v : Datum O) (hslot : n ≤ s.slot)
    (hclears : ∀ t ∈ s.clears, n ≤ t) : frame.Keeps n (s.write frame v) := by
  intro t ht
  have hne : t ≠ s.slot := by omega
  have hclear : t ∉ s.clears := fun h => by
    have := hclears t h
    omega
  rw [Stmt.write, if_neg hne, if_neg hclear]

/-- What an emission leaves: more slots and symbols, the value in a fresh slot. -/
structure Emit.Grows (e : Emit) (r : ℕ) (e' : Emit) : Prop where
  le : e.slots ≤ r
  lt : r < e'.slots
  symbols : e.symbols <+: e'.symbols

/-- The same for operands: those in slots are fresh. -/
structure Emit.GrowsAll (e : Emit) (ops : List Operand) (e' : Emit) : Prop where
  slots : e.slots ≤ e'.slots
  symbols : e.symbols <+: e'.symbols
  fresh : ∀ t, Operand.slot t ∈ ops → e.slots ≤ t ∧ t < e'.slots

theorem atomLoad_prefix {entry : Bool} {p p' : List Text} {x : Value} {ld : Load}
    (h : atomLoad entry p x = some (ld, p')) : p <+: p' := by
  rcases x with _ | ⟨_ | _⟩ | _ | s | _ | _ <;> cases h
  case symbol => exact (symbolIndex_spec p s).1
  all_goals exact List.prefix_rfl

theorem borrowedAtom_prefix {entry immediate : Bool} {p p' : List Text} {x : Value} {ld : Load}
    (h : borrowedAtom entry immediate p x = some (ld, p')) : p <+: p' := by
  cases x with
  | nil =>
    cases h
    exact List.prefix_rfl
  | symbol s =>
    cases h
    exact (symbolIndex_spec p s).1
  | string s =>
    cases entry <;> cases h
    exact List.prefix_rfl
  | number n =>
    cases n with
    | exact k =>
      simp only [borrowedAtom] at h
      split_ifs at h <;> cases h <;> exact List.prefix_rfl
    | real d =>
      cases entry <;> cases h
      exact List.prefix_rfl
  | other _ _ => cases h
  | pair _ _ => cases h

theorem atom_grows {entry : Bool} {x : Value} {e e' : Emit} {code : List Stmt} {r : ℕ}
    (h : atom entry x e = some (code, r, e')) : e.Grows r e' := by
  obtain ⟨⟨ld, p⟩, hld, he⟩ := Option.map_eq_some_iff.mp h
  cases he
  exact ⟨le_rfl, Nat.lt_succ_self _, atomLoad_prefix hld⟩

theorem atom_exists {entry : Bool} {x : Value} (e : Emit)
    (h : ∃ r, atomLoad entry e.symbols x = some r) :
    ∃ code r e', atom entry x e = some (code, r, e') ∧ e.Grows r e' := by
  obtain ⟨r, hr⟩ := h
  have hx : atom entry x e = some ([.load e.slots r.1], e.slots, ⟨e.slots + 1, r.2⟩) := by
    rw [atom, hr]
    rfl
  exact ⟨_, _, _, hx, atom_grows hx⟩

/-- **Every accepted tree has straight-line code.** -/
theorem expr_grows (bound : Text → Bool) (entry immediate : Bool) (x : Value) :
    (∀ {n} (e : Emit), constantNodes bound false x = some n →
      ∃ code r e', expr entry immediate x e = some (code, r, e') ∧ e.Grows r e') ∧
    (∀ {argc n} (borrow : Bool) (e : Emit), constantOperands bound false x argc = some n →
      ∃ code ops e', exprOperands entry immediate borrow x e = some (code, ops, e') ∧
        e.GrowsAll ops e') := by
  induction x with
  | nil =>
    refine ⟨fun e _ => atom_exists e ⟨_, rfl⟩, fun {argc _} borrow e hn => ?_⟩
    exact ⟨[], [], e, rfl, le_rfl, List.prefix_rfl, fun t h => absurd h List.not_mem_nil⟩
  | number k =>
    refine ⟨fun e _ => ?_, fun {argc _} _ _ hn => ?_⟩
    · cases k <;> exact atom_exists e ⟨_, rfl⟩
    · cases argc <;> cases hn
  | string s =>
    refine ⟨fun e _ => atom_exists e ⟨_, rfl⟩, fun {argc _} _ _ hn => ?_⟩
    cases argc <;> cases hn
  | symbol s =>
    refine ⟨fun e _ => atom_exists e ⟨_, rfl⟩, fun {argc _} _ _ hn => ?_⟩
    cases argc <;> cases hn
  | other t a =>
    refine ⟨fun e hn => ?_, fun {argc _} _ _ hn => ?_⟩
    · cases hn
    · cases argc <;> cases hn
  | pair head tail ihh iht =>
    refine ⟨fun e hn => ?_, fun borrow e hn => ?_⟩
    · obtain ⟨f, _, rfl, -, -, ht, -⟩ := constantNodes_call hn
      obtain ⟨code, ops, e', hcode, hgrows⟩ := iht.2 (f ≠ consName)
        ⟨e.slots + 1, (symbolIndex e.symbols f).2⟩ ht
      have hslots := hgrows.slots
      refine ⟨.functionGetBorrowed e.slots (symbolIndex e.symbols f).1 :: code ++
        [.call e'.slots e.slots f ops], e'.slots, ⟨e'.slots + 1, e'.symbols⟩, ?_, ?_⟩
      · simp only [expr, hcode, Option.map_some]
      · dsimp only at hslots
        exact ⟨by omega, Nat.lt_succ_self _,
          (symbolIndex_spec e.symbols f).1.trans hgrows.symbols⟩
    · obtain ⟨k, _, _, rfl, hx, hr, -⟩ := constantOperands_pair hn
      rcases hb : (if borrow then borrowedAtom entry immediate e.symbols head else none) with _ | a
      · obtain ⟨code, r, e1, hcode, h1⟩ := ihh.1 e hx
        obtain ⟨code', ops, e2, hcode', h2⟩ := iht.2 borrow e1 hr
        refine ⟨code ++ code', .slot r :: ops, e2, ?_, ?_⟩
        · simp only [exprOperands, hb, hcode, hcode', Option.bind_some, Option.map_some]
        · have hle := h1.le
          have hlt := h1.lt
          have hslots := h2.slots
          refine ⟨by omega, h1.symbols.trans h2.symbols, fun t ht => ?_⟩
          rcases List.mem_cons.mp ht with ht | ht
          · cases ht
            omega
          · have := h2.fresh t ht
            omega
      · obtain ⟨code', ops, e2, hcode', h2⟩ := iht.2 borrow ⟨e.slots, a.2⟩ hr
        have hprefix : e.symbols <+: a.2 := by
          cases borrow with
          | true =>
            have hatom : borrowedAtom entry immediate e.symbols head = some (a.1, a.2) := hb
            exact borrowedAtom_prefix hatom
          | false => cases hb
        refine ⟨code', .load a.1 :: ops, e2, ?_, ?_⟩
        · simp only [exprOperands, hb, hcode', Option.map_some]
        · refine ⟨h2.slots, hprefix.trans h2.symbols, fun t ht => ?_⟩
          rcases List.mem_cons.mp ht with ht | ht
          · cases ht
          · exact h2.fresh t ht

/-! ### What the code does -/

/-- The symbol whose index was emitted. -/
theorem symbol_getElem {p : List Text} {s : Text} (h : (symbolIndex p s).2 <+: table) :
    table[(symbolIndex p s).1]? = some s := by
  obtain ⟨rest, rfl⟩ := h
  have hget := (symbolIndex_spec p s).2
  obtain ⟨hlt, -⟩ := List.getElem?_eq_some_iff.mp hget
  rw [List.getElem?_append_left hlt, hget]

theorem atomLoad_code {entry : Bool} {p p' : List Text} {x : Value} {ld : Load}
    (h : atomLoad entry p x = some (ld, p')) (htable : p' <+: table) :
    ld.code H table = some (lineAtom H entry x) := by
  cases x with
  | nil => cases h; rfl
  | symbol s =>
    cases h
    rw [Load.code, symbol_getElem htable]
    rfl
  | string s => cases entry <;> cases h <;> rfl
  | number n => cases n <;> cases entry <;> cases h <;> rfl
  | other _ _ => cases h
  | pair _ _ => cases h

/-- An operand that needs no slot is a value at once. -/
theorem borrowedAtom_code {entry : Bool} {p p' : List Text} {x : Value} {ld : Load}
    (h : borrowedAtom entry H.immediate p x = some (ld, p')) (htable : p' <+: table) :
    ∃ v, eval H (lineAtom H entry) false x = .pure v ∧ ld.code H table = some (.pure v) := by
  cases x with
  | nil => cases h; exact ⟨_, rfl, rfl⟩
  | symbol s =>
    cases h
    refine ⟨.symbol s, rfl, ?_⟩
    rw [Load.code, symbol_getElem htable]
    rfl
  | string s =>
    cases entry <;> cases h
    exact ⟨_, rfl, rfl⟩
  | number n =>
    cases n with
    | exact k =>
      cases entry with
      | true => cases h; exact ⟨_, rfl, rfl⟩
      | false =>
        simp only [borrowedAtom, Bool.false_eq_true, if_false] at h
        split_ifs at h with himm
        cases h
        have hint : H.rcInteger k = .pure (.number (.exact k)) := if_pos himm
        refine ⟨_, hint, ?_⟩
        rw [Load.code, hint]
    | real d =>
      cases entry <;> cases h
      exact ⟨_, rfl, rfl⟩
  | other _ _ => cases h
  | pair _ _ => cases h

theorem compiledCall_eq (f : Text) (fn : Datum O) (args : List (Datum O)) :
    compiledCall H defs f fn args = construct H f fn args := by
  unfold compiledCall construct
  split <;> simp only [Host.rcModuleCall_eq]

theorem atom_executes {entry : Bool} {x : Value} {e e' : Emit} {code : List Stmt} {r : ℕ}
    (h : atom entry x e = some (code, r, e')) (htable : e'.symbols <+: table) :
    Executes H table defs code (lineAtom H entry x) frame
      (fun v f => frame.Keeps e.slots f ∧ f r = some v) w := by
  obtain ⟨⟨ld, p⟩, hld, he⟩ := Option.map_eq_some_iff.mp h
  cases he
  have hcode : (Stmt.load e.slots ld).code H table defs frame = some (lineAtom H entry x) :=
    atomLoad_code hld htable
  refine (Executes.stmt hcode).weaken fun v f hf => ?_
  subst hf
  exact ⟨Stmt.write_keeps v le_rfl fun t ht => absurd ht List.not_mem_nil, Stmt.write_slot _ v⟩

/-- **The code of an expression does what its tree means.** -/
theorem expr_executes (bound : Text → Bool) (entry : Bool) (x : Value) :
    (∀ {n e code r e'} {frame : Frame O} {w : W}, constantNodes bound false x = some n →
      expr entry H.immediate x e = some (code, r, e') → e'.symbols <+: table →
      Executes H table defs code (eval H (lineAtom H entry) false x) frame
        (fun v f => frame.Keeps e.slots f ∧ f r = some v) w) ∧
    (∀ {argc n borrow e code ops e'} {frame : Frame O} {w : W},
      constantOperands bound false x argc = some n →
      exprOperands entry H.immediate borrow x e = some (code, ops, e') → e'.symbols <+: table →
      Executes H table defs code (evalOperands H (lineAtom H entry) false x) frame
        (fun args f => frame.Keeps e.slots f ∧
          operandsCode H table f ops = some (.pure args)) w) := by
  induction x with
  | nil =>
    refine ⟨fun _ h htable => atom_executes h htable, fun {argc _ _ _ _ _ _ _ _} _ h _ => ?_⟩
    cases h
    exact .nil ⟨fun _ _ => rfl, rfl⟩
  | number k =>
    refine ⟨fun _ h htable => atom_executes h htable, fun {argc _ _ _ _ _ _ _ _} hn _ _ => ?_⟩
    cases argc <;> cases hn
  | string s =>
    refine ⟨fun _ h htable => atom_executes h htable, fun {argc _ _ _ _ _ _ _ _} hn _ _ => ?_⟩
    cases argc <;> cases hn
  | symbol s =>
    refine ⟨fun _ h htable => atom_executes h htable, fun {argc _ _ _ _ _ _ _ _} hn _ _ => ?_⟩
    cases argc <;> cases hn
  | other t a =>
    refine ⟨fun hn => ?_, fun {argc _ _ _ _ _ _ _ _} hn _ _ => ?_⟩
    · cases hn
    · cases argc <;> cases hn
  | pair head tail ihh iht =>
    refine ⟨fun {_ e _ _ _ frame w} hn h htable => ?_,
      fun {_ _ borrow e _ _ _ frame w} hn h htable => ?_⟩
    · obtain ⟨f, _, rfl, -, -, ht, -⟩ := constantNodes_call hn
      obtain ⟨⟨code, ops, e1⟩, h1, he⟩ := Option.map_eq_some_iff.mp h
      cases he
      obtain ⟨code', ops', e1', h1', hgrows⟩ := (expr_grows bound entry H.immediate tail).2
        (f ≠ consName) ⟨e.slots + 1, (symbolIndex e.symbols f).2⟩ ht
      cases h1.symm.trans h1'
      have hhead : (Stmt.functionGetBorrowed e.slots (symbolIndex e.symbols f).1).code H table
          defs frame = some (H.rcFunctionGet f) := by
        rw [Stmt.code, symbol_getElem (hgrows.symbols.trans htable)]
        rfl
      simp only [eval, Bool.false_eq_true, if_false]
      refine (Executes.stmt hhead).andThen fun {fn f1 _} _ hf1 => ?_
      refine (iht.2 ht h1 htable).andThen fun {args f2 _} _ hf2 => ?_
      have hfn : f2 e.slots = some fn := by
        rw [hf2.1 e.slots (Nat.lt_succ_self _), hf1]
        exact Stmt.write_slot _ fn
      have hcall : (Stmt.call e1.slots e.slots f ops).code H table defs f2 =
          some (construct H f fn args) := by
        simp only [Stmt.code, hfn, hf2.2, Run.pure_andThen, compiledCall_eq]
      refine (Executes.stmt hcall).weaken fun v f3 hf3 => ?_
      subst hf3
      refine ⟨?_, Stmt.write_slot _ v⟩
      have hslots := hgrows.slots
      dsimp only at hslots
      have hkeeps : f2.Keeps e.slots (Stmt.write (.call e1.slots e.slots f ops) f2 v) := by
        refine Stmt.write_keeps v (by simp only [Stmt.slot]; omega) fun t ht => ?_
        have := hgrows.fresh t (by
          obtain ⟨op, hop, hopt⟩ := List.mem_filterMap.mp ht
          cases op <;> cases hopt
          exact hop)
        dsimp only at this
        omega
      have h01 : frame.Keeps e.slots f1 := by
        rw [hf1]
        exact Stmt.write_keeps fn le_rfl fun t ht => absurd ht List.not_mem_nil
      exact (h01.trans (Nat.le_succ _) hf2.1).trans le_rfl hkeeps
    · obtain ⟨k, _, _, rfl, hx, hr, -⟩ := constantOperands_pair hn
      simp only [exprOperands] at h
      simp only [evalOperands]
      rcases hb : (if borrow then borrowedAtom entry H.immediate e.symbols head else none) with _ | a
      · rw [hb] at h
        obtain ⟨⟨code, r, e1⟩, h1, h⟩ := Option.bind_eq_some_iff.mp h
        obtain ⟨⟨code', ops, e2⟩, h2, he⟩ := Option.map_eq_some_iff.mp h
        cases he
        obtain ⟨_, _, _, h1', hgrows⟩ := (expr_grows bound entry H.immediate head).1 e hx
        cases h1.symm.trans h1'
        obtain ⟨_, _, _, h2', hgrows'⟩ := (expr_grows bound entry H.immediate tail).2 borrow e1 hr
        cases h2.symm.trans h2'
        have hle : e.slots ≤ e1.slots := hgrows.le.trans hgrows.lt.le
        refine (ihh.1 hx h1 (hgrows'.symbols.trans htable)).andThen fun {a f1 _} _ hf1 => ?_
        refine (iht.2 hr h2 htable).map (a :: ·) fun args f2 hf2 => ⟨hf1.1.trans hle hf2.1, ?_⟩
        have hslot : f2 r = some a := (hf2.1 r hgrows.lt).trans hf1.2
        simp only [operandsCode, Operand.code, hslot, hf2.2, Option.map_some, Run.pure_andThen]
      · rw [hb] at h
        obtain ⟨⟨code', ops, e2⟩, h2, he⟩ := Option.map_eq_some_iff.mp h
        cases he
        obtain ⟨_, _, _, h2', hgrows⟩ := (expr_grows bound entry H.immediate tail).2 borrow
          ⟨e.slots, a.2⟩ hr
        cases h2.symm.trans h2'
        have hatom : borrowedAtom entry H.immediate e.symbols head = some (a.1, a.2) := by
          cases borrow with
          | true => exact hb
          | false => cases hb
        obtain ⟨v, hv, hcode⟩ := borrowedAtom_code hatom (hgrows.symbols.trans htable)
        rw [hv, Run.pure_andThen]
        refine (iht.2 hr h2 htable).map (v :: ·) fun args f2 hf2 => ⟨hf2.1, ?_⟩
        simp only [operandsCode, Operand.code, hcode, hf2.2, Run.pure_andThen]

/-! ### Reader data -/

theorem literalNode_grows (bound : Text → Bool) (entry : Bool) (x : Value) {n : ℕ} (e : Emit)
    (hn : constantNodes bound true x = some n) :
    ∃ code r e', literalNode entry x e = some (code, r, e') ∧ e.Grows r e' := by
  induction x generalizing n e with
  | nil => exact atom_exists e ⟨_, rfl⟩
  | number k => cases k <;> exact atom_exists e ⟨_, rfl⟩
  | string s => exact atom_exists e ⟨_, rfl⟩
  | symbol s => exact atom_exists e ⟨_, rfl⟩
  | other t a => cases hn
  | pair head tail ihh iht =>
    obtain ⟨_, _, hh, ht, -⟩ := constantNodes_raw hn
    obtain ⟨code, r, e1, h1, hgrows⟩ := ihh e hh
    obtain ⟨code', r', e2, h2, hgrows'⟩ := iht e1 ht
    refine ⟨code ++ code' ++ [.cons e2.slots r r'], e2.slots, ⟨e2.slots + 1, e2.symbols⟩, ?_, ?_⟩
    · simp only [literalNode, h1, h2, Option.bind_some, Option.map_some]
    · have h01 := hgrows.le.trans hgrows.lt.le
      have h12 := hgrows'.le.trans hgrows'.lt.le
      exact ⟨h01.trans h12, Nat.lt_succ_self _, hgrows.symbols.trans hgrows'.symbols⟩

/-- **The code of reader data does what its tree means.** -/
theorem literalNode_executes (bound : Text → Bool) (entry : Bool) (x : Value) {n : ℕ}
    {e e' : Emit} {code : List Stmt} {r : ℕ} (hn : constantNodes bound true x = some n)
    (h : literalNode entry x e = some (code, r, e')) (htable : e'.symbols <+: table) :
    Executes H table defs code (eval H (lineAtom H entry) true x) frame
      (fun v f => frame.Keeps e.slots f ∧ f r = some v) w := by
  induction x generalizing n e e' code r frame w with
  | nil => exact atom_executes h htable
  | number k => exact atom_executes h htable
  | string s => exact atom_executes h htable
  | symbol s => exact atom_executes h htable
  | other t a => cases hn
  | pair head tail ihh iht =>
    obtain ⟨_, _, hh, ht, -⟩ := constantNodes_raw hn
    obtain ⟨⟨code, r, e1⟩, h1, h⟩ := Option.bind_eq_some_iff.mp h
    obtain ⟨⟨code', r', e2⟩, h2, he⟩ := Option.map_eq_some_iff.mp h
    cases he
    obtain ⟨_, _, _, h1', hgrows⟩ := literalNode_grows bound entry head e hh
    cases h1.symm.trans h1'
    obtain ⟨_, _, _, h2', hgrows'⟩ := literalNode_grows bound entry tail e1 ht
    cases h2.symm.trans h2'
    have h01 := hgrows.le.trans hgrows.lt.le
    have h12 := hgrows'.le.trans hgrows'.lt.le
    simp only [eval, if_true]
    rw [List.append_assoc]
    refine (ihh hh h1 (hgrows'.symbols.trans htable)).andThen fun {a f1 _} _ hf1 => ?_
    refine (iht ht h2 htable).andThen fun {b f2 _} _ hf2 => ?_
    have ha : f2 r = some a := (hf2.1 r hgrows.lt).trans hf1.2
    have hcons : (Stmt.cons e2.slots r r').code H table defs f2 = some (H.rcConsOwned a b) := by
      simp only [Stmt.code, ha, hf2.2]
      rfl
    refine (Executes.stmt hcons).weaken fun v f3 hf3 => ?_
    subst hf3
    refine ⟨(hf1.1.trans h01 hf2.1).trans le_rfl (Stmt.write_keeps v (h01.trans h12) ?_),
      Stmt.write_slot _ v⟩
    intro t htc
    have hle := hgrows.le
    have hle' := hgrows'.le
    rcases List.mem_cons.mp htc with rfl | htc
    · exact hle
    · cases List.mem_singleton.mp htc
      exact h01.trans hle'

end ShenRc.Constant
