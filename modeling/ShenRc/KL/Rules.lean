import ShenRc.KL.Eval

/-! # Rules of evaluation

`Evaluates` and `Applies` say that a result comes with all fuel from some bound on. Forms are written
as `Code`, where a variable is the number of binders between it and its own; `Code.render` is the form
under given names. A rule for each construct then gives the result of a form from those of its parts
(`Runs`), and nothing after this module mentions fuel or compares names. -/

namespace ShenRc.KL

open Numeral

/-- The form has the result, whatever fuel it gets from some bound on. -/
def Evaluates (ctx : Context) (env : Env) (e : Value) (r : Except Text Datum) : Prop :=
  ∃ n, ∀ fuel, n ≤ fuel → eval ctx fuel env e = some r

def Applies (ctx : Context) (f : Datum) (vs : List Datum) (r : Except Text Datum) : Prop :=
  ∃ n, ∀ fuel, n ≤ fuel → apply ctx fuel f vs = some r

theorem Applies.unique {ctx : Context} {f : Datum} {vs : List Datum} {r r' : Except Text Datum}
    (h : Applies ctx f vs r) (h' : Applies ctx f vs r') : r = r' := by
  obtain ⟨n, hn⟩ := h
  obtain ⟨m, hm⟩ := h'
  have := (hn (max n m) (by omega)).symm.trans (hm (max n m) (by omega))
  exact Option.some.inj this

theorem Evaluates.step {ctx : Context} {env : Env} {e : Value} {r : Except Text Datum} (n : ℕ)
    (h : ∀ fuel, n ≤ fuel → eval ctx (fuel + 1) env e = some r) : Evaluates ctx env e r := by
  refine ⟨n + 1, fun fuel hf => ?_⟩
  obtain ⟨fuel, rfl⟩ := Nat.exists_eq_add_of_le' (show 1 ≤ fuel by omega)
  exact h fuel (by omega)

theorem Applies.step {ctx : Context} {f : Datum} {vs : List Datum} {r : Except Text Datum} (n : ℕ)
    (h : ∀ fuel, n ≤ fuel → apply ctx (fuel + 1) f vs = some r) : Applies ctx f vs r := by
  refine ⟨n + 1, fun fuel hf => ?_⟩
  obtain ⟨fuel, rfl⟩ := Nat.exists_eq_add_of_le' (show 1 ≤ fuel by omega)
  exact h fuel (by omega)

/-! ### Fuel -/

/-- What the one run returns, the other returns too. -/
def Result.le (r r' : Result) : Prop := ∀ v, r = some v → r' = some v

theorem Result.le.refl {r : Result} : r.le r := fun _ h => h

theorem Result.none_le (r : Result) : Result.le none r := fun _ h => by cases h

theorem Result.le.andThen {r r' : Result} {k k' : Datum → Result} (h : r.le r')
    (hk : ∀ v, (k v).le (k' v)) : (r.andThen k).le (r'.andThen k') := by
  cases r with
  | none => exact none_le _
  | some a =>
    rw [h a rfl]
    cases a with
    | error e => exact .refl
    | ok v => exact hk v

/-- One more unit of fuel changes no result. -/
theorem fuel_step (ctx : Context) (fuel : ℕ) :
    (∀ env e, (eval ctx fuel env e).le (eval ctx (fuel + 1) env e)) ∧
    (∀ env e, (evalBoolean ctx fuel env e).le (evalBoolean ctx (fuel + 1) env e)) ∧
    (∀ env cs, (evalCond ctx fuel env cs).le (evalCond ctx (fuel + 1) env cs)) ∧
    (∀ env f es vs, (applyEvaluated ctx fuel env f es vs).le
      (applyEvaluated ctx (fuel + 1) env f es vs)) ∧
    (∀ f vs, (apply ctx fuel f vs).le (apply ctx (fuel + 1) f vs)) := by
  induction fuel with
  | zero =>
    refine ⟨fun _ _ => ?_, fun _ _ => ?_, fun _ _ => ?_, fun _ _ _ _ => ?_, fun _ _ => ?_⟩
    all_goals exact Result.none_le _
  | succ fuel ih =>
    obtain ⟨heval, hbool, hcond, hargs, happ⟩ := ih
    refine ⟨fun env e => ?_, fun env e => ?_, fun env cs => ?_, fun env f es vs => ?_, fun f vs => ?_⟩
    · cases e with
      | pair head args =>
        rw [eval, eval]
        split
        · exact .refl
        · split
          · exact .andThen .refl fun f => hargs _ _ _ _
          · split <;> try exact .refl
            -- if, let, cond, and, or, trap-error, type, a call
            · refine .andThen (heval _ _) fun v => ?_
              split
              · exact heval _ _
              · exact .refl
            · exact .andThen (heval _ _) fun v => heval _ _
            · exact hcond _ _
            · refine .andThen (heval _ _) fun v => ?_
              split
              · exact hbool _ _
              · exact .refl
              · exact .refl
            · refine .andThen (heval _ _) fun v => ?_
              split
              · exact .refl
              · exact hbool _ _
              · exact .refl
            · next body handler _ _ =>
              intro r h
              cases hb : eval ctx fuel env body with
              | none => simp [hb] at h
              | some a =>
                rw [heval env body a hb]
                rw [hb] at h
                cases a with
                | error e => exact Result.le.andThen (heval _ _) (fun f => happ f [.string e]) r h
                | ok v => exact h
            · exact heval _ _
            · split
              · exact .andThen .refl fun f => hargs _ _ _ _
              · exact .andThen (.andThen (heval _ _) fun _ => .refl) fun f => hargs _ _ _ _
      | _ => exact .refl
    · exact .andThen (heval _ _) fun v => .refl
    · cases cs with
      | nil => exact .refl
      | cons c cs =>
        rw [evalCond, evalCond]
        split
        · exact .refl
        · refine .andThen (heval _ _) fun v => ?_
          split
          · exact heval _ _
          · exact hcond _ _
          · exact .refl
    · cases es with
      | nil => exact happ _ _
      | cons e es => exact .andThen (heval _ _) fun v => hargs _ _ _ _
    · cases f with
      | closure params body env =>
        rw [apply, apply]
        split
        · exact heval _ _
        · exact .refl
      | other type a =>
        cases type with
        | closure =>
          rw [apply, apply]
          split
          · exact .refl
          · split
            · exact heval _ _
            · exact .refl
          · split
            · exact happ _ _
            · exact .refl
          · exact .refl
        | _ => exact .refl
      | _ => exact .refl

theorem apply_mono {ctx : Context} {n m : ℕ} {f : Datum} {vs : List Datum} {r : Except Text Datum}
    (h : apply ctx n f vs = some r) (hm : n ≤ m) : apply ctx m f vs = some r := by
  induction hm with
  | refl => exact h
  | step _ ih => exact (fuel_step ctx _).2.2.2.2 f vs r ih

/-- One run with a result is enough. -/
theorem Applies.of_apply {ctx : Context} {n : ℕ} {f : Datum} {vs : List Datum}
    {r : Except Text Datum} (h : apply ctx n f vs = some r) : Applies ctx f vs r :=
  ⟨n, fun _ hm => apply_mono h hm⟩

/-! ### Forms without names -/

inductive Code where
  | const (v : Value)
  | var (i : ℕ)
  | call (name : String) (args : List Code)
  | callVar (i : ℕ) (args : List Code)
  | ite (test yes no : Code)
  | bind (name : String) (value body : Code)
  | cond (clauses : List (Code × Code))
  | and (a b : Code)
  | or (a b : Code)
  | lambda (name : String) (body : Code)
  | trap (body handler : Code)

namespace Code

def sym (s : String) : Code := .const (.sym s)

def str (s : String) : Code := .const (.string (ascii s))

def int (k : Int) [Int64Literal k] : Code := .const (.int k)

def nil : Code := .const .nil

mutual

/-- The form under the binders `names`, the innermost first. -/
def render (names : List Text) : Code → Value
  | const v => v
  | var i => .symbol (names.getD i [])
  | call f args => .pair (.sym f) (renderAll names args)
  | callVar i args => .pair (.symbol (names.getD i [])) (renderAll names args)
  | ite test yes no => .ofList [.sym "if", render names test, render names yes, render names no]
  | bind x v body =>
    .ofList [.sym "let", .symbol (ascii x), render names v, render (ascii x :: names) body]
  | cond clauses => .pair (.sym "cond") (renderClauses names clauses)
  | and a b => .ofList [.sym "and", render names a, render names b]
  | or a b => .ofList [.sym "or", render names a, render names b]
  | lambda x body => .ofList [.sym "lambda", .symbol (ascii x), render (ascii x :: names) body]
  | trap body handler => .ofList [.sym "trap-error", render names body, render names handler]

def renderAll (names : List Text) : List Code → Value
  | [] => .nil
  | c :: cs => .pair (render names c) (renderAll names cs)

def renderClauses (names : List Text) : List (Code × Code) → Value
  | [] => .nil
  | (test, result) :: cs =>
    .pair (.ofList [render names test, render names result]) (renderClauses names cs)

end

/-- An atom that is no variable. -/
def constant (names : List Text) : Value → Bool
  | .pair _ _ => false
  | .symbol s => !names.contains s
  | _ => true

/-- The name is no variable. -/
def free (names : List Text) (s : String) : Bool := !names.contains (ascii s)

mutual

/-- The names are different and none of them hides a name that the form uses for something else. -/
def wellScoped (names : List Text) : Code → Bool
  | const v => constant names v
  | var i => decide (i < names.length)
  | call f args => free names f && formOf (.sym f) == .call && wellScopedAll names args
  | callVar i args => decide (i < names.length) && wellScopedAll names args
  | ite test yes no =>
    free names "if" && wellScoped names test && wellScoped names yes && wellScoped names no
  | bind x v body =>
    free names "let" && free names x && wellScoped names v && wellScoped (ascii x :: names) body
  | cond clauses => free names "cond" && wellScopedClauses names clauses
  | and a b => free names "and" && wellScoped names a && wellScoped names b
  | or a b => free names "or" && wellScoped names a && wellScoped names b
  | lambda x body => free names "lambda" && free names x && wellScoped (ascii x :: names) body
  | trap body handler => free names "trap-error" && wellScoped names body && wellScoped names handler

def wellScopedAll (names : List Text) : List Code → Bool
  | [] => true
  | c :: cs => wellScoped names c && wellScopedAll names cs

def wellScopedClauses (names : List Text) : List (Code × Code) → Bool
  | [] => true
  | (test, result) :: cs => wellScoped names test && wellScoped names result && wellScopedClauses names cs

end

end Code

/-! ### Environments -/

/-- Different names for the values. -/
structure Frame (names : List Text) (values : List Datum) : Prop where
  nodup : names.Nodup
  length : names.length = values.length

theorem Frame.cons {names : List Text} {values : List Datum} (h : Frame names values) {x : Text}
    (hx : names.contains x = false) (v : Datum) : Frame (x :: names) (v :: values) where
  nodup := List.nodup_cons.2 ⟨by simpa using hx, h.nodup⟩
  length := by simp [h.length]

theorem lookup_cons (x : Text) (v : Datum) (env : Env) (s : Text) :
    lookup ((x, v) :: env) s = if x = s then some v else lookup env s := by
  unfold lookup
  rw [List.find?_cons]
  by_cases h : x = s
  · simp [h]
  · simp [beq_eq_false_iff_ne.2 h, h]

theorem lookup_free {names : List Text} {values : List Datum} {s : Text}
    (h : names.contains s = false) : lookup (names.zip values) s = none := by
  simp only [lookup, Option.map_eq_none_iff, List.find?_eq_none]
  rintro ⟨x, v⟩ hx
  have := (List.of_mem_zip hx).1
  simp only [beq_iff_eq]
  rintro rfl
  simp [this] at h

theorem lookup_var {names : List Text} {values : List Datum} (h : Frame names values) {i : ℕ}
    {v : Datum} (hv : values[i]? = some v) :
    lookup (names.zip values) (names.getD i []) = some v := by
  obtain ⟨hnodup, hlen⟩ := h
  induction names generalizing values i with
  | nil =>
    rw [List.length_nil, eq_comm, List.length_eq_zero_iff] at hlen
    subst hlen
    cases hv
  | cons x names ih =>
    cases values with
    | nil => cases hlen
    | cons w values =>
      rw [List.nodup_cons] at hnodup
      rw [List.zip_cons_cons, lookup_cons]
      cases i with
      | zero => simpa using hv
      | succ i =>
        have hi : i < names.length := by
          have := (List.getElem?_eq_some_iff.1 hv).1
          simp only [List.length_cons, Nat.add_right_cancel_iff] at hlen this
          omega
        have hne : x ≠ names.getD i [] := by
          rintro rfl
          exact hnodup.1 (by simp [List.getD, hi])
        have hlen' : names.length = values.length := by simpa using hlen
        rw [List.getD_cons_succ, if_neg hne]
        exact ih (by simpa using hv) hnodup.2 hlen'

/-! ### Rules -/

/-- The code has the result, under the names and values of its variables. -/
def Runs (ctx : Context) (names : List Text) (values : List Datum) (c : Code)
    (r : Except Text Datum) : Prop :=
  Frame names values → c.wellScoped names = true →
    Evaluates ctx (names.zip values) (c.render names) r

section Rules

variable {ctx : Context} {names : List Text} {values : List Datum}

attribute [local simp] Code.render Code.wellScoped Value.ofList eval items lexicalHead
  Result.andThen

theorem items_ofList (vs : List Value) : items (.ofList vs) = some vs := by
  induction vs with
  | nil => rfl
  | cons v vs ih => simp [Value.ofList, items, ih]

theorem free_iff {s : String} : Code.free names s = true ↔ names.contains (ascii s) = false := by
  simp [Code.free]

theorem lexicalHead_free {s : String} (h : Code.free names s = true) :
    lexicalHead (names.zip values) (.sym s) = none := lookup_free (free_iff.1 h)

theorem boolean?_truth (b : Bool) : (Datum.truth b).boolean? = some b := by
  cases b <;> decide +kernel

theorem formOf_sym : formOf (.sym "if") = .ifForm ∧ formOf (.sym "let") = .letForm ∧
    formOf (.sym "lambda") = .lambdaForm ∧ formOf (.sym "cond") = .condForm ∧
    formOf (.sym "and") = .andForm ∧ formOf (.sym "or") = .orForm ∧
    formOf (.sym "trap-error") = .trapForm := by
  decide +kernel

theorem Runs.const (v : Value) : Runs ctx names values (.const v) (.ok (.ofValue v)) := by
  intro _ hs
  refine .step 0 fun fuel _ => ?_
  cases v with
  | pair h t => cases hs
  | symbol s =>
    have hfree : names.contains s = false := by simpa [Code.wellScoped, Code.constant] using hs
    simp [Code.render, eval, atomicValue, lookup_free hfree, Datum.ofValue]
  | _ => rfl

theorem Runs.var {i : ℕ} {v : Datum} (hv : values[i]? = some v) :
    Runs ctx names values (.var i) (.ok v) := by
  intro hframe _
  refine .step 0 fun fuel _ => ?_
  simp only [Code.render, eval, atomicValue, lookup_var hframe hv, Option.getD_some]

theorem Runs.ite {test yes no : Code} {b : Bool} {r : Except Text Datum}
    (htest : Runs ctx names values test (.ok (.truth b)))
    (h : Runs ctx names values (if b then yes else no) r) :
    Runs ctx names values (.ite test yes no) r := by
  intro hframe hs
  simp only [Code.wellScoped, Bool.and_eq_true] at hs
  obtain ⟨n, hn⟩ := htest hframe hs.1.1.2
  obtain ⟨m, hm⟩ := h hframe (by cases b <;> simp [hs])
  refine .step (max n m) fun fuel hf => ?_
  simp only [Code.render, Value.ofList, eval, items, Option.map_some, lexicalHead_free hs.1.1.1,
    formOf_sym, hn fuel (by omega), Result.andThen, boolean?_truth]
  rw [← hm fuel (by omega)]
  cases b <;> rfl

theorem Runs.bind {x : String} {value body : Code} {v : Datum} {r : Except Text Datum}
    (hvalue : Runs ctx names values value (.ok v))
    (h : Runs ctx (ascii x :: names) (v :: values) body r) :
    Runs ctx names values (.bind x value body) r := by
  intro hframe hs
  simp only [Code.wellScoped, Bool.and_eq_true] at hs
  obtain ⟨n, hn⟩ := hvalue hframe hs.1.2
  obtain ⟨m, hm⟩ := h (hframe.cons (free_iff.1 hs.1.1.2) v) hs.2
  refine .step (max n m) fun fuel hf => ?_
  simp only [Code.render, Value.ofList, eval, items, Option.map_some, lexicalHead_free hs.1.1.1,
    formOf_sym, hn fuel (by omega), Result.andThen]
  exact hm fuel (by omega)

theorem Runs.and {a b : Code} {x y : Bool} (ha : Runs ctx names values a (.ok (.truth x)))
    (hb : x = true → Runs ctx names values b (.ok (.truth y))) :
    Runs ctx names values (.and a b) (.ok (.truth (x && y))) := by
  intro hframe hs
  simp only [Code.wellScoped, Bool.and_eq_true] at hs
  obtain ⟨n, hn⟩ := ha hframe hs.1.2
  cases x with
  | false =>
    refine .step n fun fuel hf => ?_
    simp only [Code.render, Value.ofList, eval, items, Option.map_some, lexicalHead_free hs.1.1,
      formOf_sym, hn fuel hf, Result.andThen, boolean?_truth, Bool.false_and]
  | true =>
    obtain ⟨m, hm⟩ := hb rfl hframe hs.2
    refine .step (max n m + 1) fun fuel hf => ?_
    obtain ⟨fuel, rfl⟩ := Nat.exists_eq_add_of_le' (show 1 ≤ fuel by omega)
    simp only [Code.render, Value.ofList, eval, items, Option.map_some, lexicalHead_free hs.1.1,
      formOf_sym, hn (fuel + 1) (by omega), Result.andThen, boolean?_truth, evalBoolean,
      hm fuel (by omega), Option.isSome_some, if_true, Bool.true_and]

theorem Runs.or {a b : Code} {x y : Bool} (ha : Runs ctx names values a (.ok (.truth x)))
    (hb : x = false → Runs ctx names values b (.ok (.truth y))) :
    Runs ctx names values (.or a b) (.ok (.truth (x || y))) := by
  intro hframe hs
  simp only [Code.wellScoped, Bool.and_eq_true] at hs
  obtain ⟨n, hn⟩ := ha hframe hs.1.2
  cases x with
  | true =>
    refine .step n fun fuel hf => ?_
    simp only [Code.render, Value.ofList, eval, items, Option.map_some, lexicalHead_free hs.1.1,
      formOf_sym, hn fuel hf, Result.andThen, boolean?_truth, Bool.true_or]
  | false =>
    obtain ⟨m, hm⟩ := hb rfl hframe hs.2
    refine .step (max n m + 1) fun fuel hf => ?_
    obtain ⟨fuel, rfl⟩ := Nat.exists_eq_add_of_le' (show 1 ≤ fuel by omega)
    simp only [Code.render, Value.ofList, eval, items, Option.map_some, lexicalHead_free hs.1.1,
      formOf_sym, hn (fuel + 1) (by omega), Result.andThen, boolean?_truth, evalBoolean,
      hm fuel (by omega), Option.isSome_some, if_true, Bool.false_or]

theorem Runs.lambda {x : String} {body : Code} :
    Runs ctx names values (.lambda x body)
      (.ok (.closure [ascii x] (body.render (ascii x :: names)) (names.zip values))) := by
  intro hframe hs
  simp only [Code.wellScoped, Bool.and_eq_true] at hs
  refine .step 0 fun fuel _ => ?_
  simp only [Code.render, Value.ofList, eval, items, Option.map_some, lexicalHead_free hs.1.1,
    formOf_sym]

theorem Runs.trap {body handler : Code} {v : Datum} (h : Runs ctx names values body (.ok v)) :
    Runs ctx names values (.trap body handler) (.ok v) := by
  intro hframe hs
  simp only [Code.wellScoped, Bool.and_eq_true] at hs
  obtain ⟨n, hn⟩ := h hframe hs.1.2
  refine .step n fun fuel hf => ?_
  simp only [Code.render, Value.ofList, eval, items, Option.map_some, lexicalHead_free hs.1.1,
    formOf_sym, hn fuel hf]

/-! ### Conditionals -/

def clauseForm (names : List Text) (c : Code × Code) : Value :=
  .ofList [c.1.render names, c.2.render names]

theorem items_renderClauses (cs : List (Code × Code)) :
    items (Code.renderClauses names cs) = some (cs.map (clauseForm names)) := by
  induction cs with
  | nil => rfl
  | cons c cs ih => simp [Code.renderClauses, items, ih, clauseForm]

/-- The first clause that applies has the result. -/
def RunsCond (ctx : Context) (names : List Text) (values : List Datum) (cs : List (Code × Code))
    (r : Except Text Datum) : Prop :=
  Frame names values → Code.wellScopedClauses names cs = true →
    ∃ n, ∀ fuel, n ≤ fuel →
      evalCond ctx fuel (names.zip values) (cs.map (clauseForm names)) = some r

theorem Runs.cond {cs : List (Code × Code)} {r : Except Text Datum}
    (h : RunsCond ctx names values cs r) : Runs ctx names values (.cond cs) r := by
  intro hframe hs
  simp only [Code.wellScoped, Bool.and_eq_true] at hs
  obtain ⟨n, hn⟩ := h hframe hs.2
  refine .step n fun fuel hf => ?_
  simp only [Code.render, eval, items_renderClauses, lexicalHead_free hs.1, formOf_sym, hn fuel hf]

theorem clause_clauseForm (test result : Code) :
    clause (clauseForm names (test, result)) = .ok (test.render names, result.render names) := by
  simp only [clause, clauseForm, items_ofList]

theorem RunsCond.yes {test result : Code} {cs : List (Code × Code)} {r : Except Text Datum}
    (htest : Runs ctx names values test (.ok (.truth true))) (h : Runs ctx names values result r) :
    RunsCond ctx names values ((test, result) :: cs) r := by
  intro hframe hs
  simp only [Code.wellScopedClauses, Bool.and_eq_true] at hs
  obtain ⟨n, hn⟩ := htest hframe hs.1.1
  obtain ⟨m, hm⟩ := h hframe hs.1.2
  refine ⟨max n m + 1, fun fuel hf => ?_⟩
  obtain ⟨fuel, rfl⟩ := Nat.exists_eq_add_of_le' (show 1 ≤ fuel by omega)
  simp only [List.map_cons, evalCond, clause_clauseForm, hn fuel (by omega), Result.andThen,
    boolean?_truth, hm fuel (by omega)]

theorem RunsCond.no {test result : Code} {cs : List (Code × Code)} {r : Except Text Datum}
    (htest : Runs ctx names values test (.ok (.truth false)))
    (h : RunsCond ctx names values cs r) :
    RunsCond ctx names values ((test, result) :: cs) r := by
  intro hframe hs
  simp only [Code.wellScopedClauses, Bool.and_eq_true] at hs
  obtain ⟨n, hn⟩ := htest hframe hs.1.1
  obtain ⟨m, hm⟩ := h hframe hs.2
  refine ⟨max n m + 1, fun fuel hf => ?_⟩
  obtain ⟨fuel, rfl⟩ := Nat.exists_eq_add_of_le' (show 1 ≤ fuel by omega)
  simp only [List.map_cons, evalCond, clause_clauseForm, hn fuel (by omega), Result.andThen,
    boolean?_truth, hm fuel (by omega)]

/-! ### Calls -/

/-- The operands have the values. -/
def RunsAll (ctx : Context) (names : List Text) (values : List Datum) : List Code → List Datum → Prop :=
  List.Forall₂ fun c v => Runs ctx names values c (.ok v)

theorem items_renderAll (cs : List Code) :
    items (Code.renderAll names cs) = some (cs.map (Code.render names)) := by
  induction cs with
  | nil => rfl
  | cons c cs ih => simp [Code.renderAll, items, ih]

theorem applyEvaluated_of {f : Datum} {cs : List Code} {vs : List Datum} {r : Except Text Datum}
    (hframe : Frame names values) (hs : Code.wellScopedAll names cs = true)
    (hargs : RunsAll ctx names values cs vs) (done : List Datum)
    (h : Applies ctx f (done.reverse ++ vs) r) :
    ∃ n, ∀ fuel, n ≤ fuel →
      applyEvaluated ctx fuel (names.zip values) f (cs.map (Code.render names)) done = some r := by
  induction hargs generalizing done with
  | nil =>
    obtain ⟨n, hn⟩ := h
    refine ⟨n + 1, fun fuel hf => ?_⟩
    obtain ⟨fuel, rfl⟩ := Nat.exists_eq_add_of_le' (show 1 ≤ fuel by omega)
    rw [List.append_nil] at hn
    exact hn fuel (by omega)
  | @cons c v cs vs hc _ ih =>
    simp only [Code.wellScopedAll, Bool.and_eq_true] at hs
    obtain ⟨n, hn⟩ := hc hframe hs.1
    obtain ⟨m, hm⟩ := ih hs.2 (v :: done) (by simpa using h)
    refine ⟨max n m + 1, fun fuel hf => ?_⟩
    obtain ⟨fuel, rfl⟩ := Nat.exists_eq_add_of_le' (show 1 ≤ fuel by omega)
    simp only [List.map_cons, applyEvaluated, hn fuel (by omega), Result.andThen]
    exact hm fuel (by omega)

theorem Runs.call {f : String} {a : ℕ} {cs : List Code} {vs : List Datum} {r : Except Text Datum}
    (hslot : ctx.slot (ascii f) = some a) (hargs : RunsAll ctx names values cs vs)
    (h : Applies ctx (.other .closure a) vs r) : Runs ctx names values (.call f cs) r := by
  intro hframe hs
  simp only [Code.wellScoped, Bool.and_eq_true, beq_iff_eq] at hs
  obtain ⟨n, hn⟩ := applyEvaluated_of hframe hs.2 hargs [] h
  refine .step n fun fuel hf => ?_
  simp only [Code.render, eval, items_renderAll, lexicalHead_free hs.1.1, hs.1.2]
  simp only [Value.sym, functionGet, hslot, Result.andThen]
  exact hn fuel hf

theorem Runs.callVar {i : ℕ} {params : List Text} {body : Value} {env : Env}
    {cs : List Code} {vs : List Datum} {r : Except Text Datum}
    (hv : values[i]? = some (.closure params body env)) (hargs : RunsAll ctx names values cs vs)
    (h : Applies ctx (.closure params body env) vs r) : Runs ctx names values (.callVar i cs) r := by
  intro hframe hs
  simp only [Code.wellScoped, Bool.and_eq_true] at hs
  obtain ⟨n, hn⟩ := applyEvaluated_of hframe hs.2 hargs [] h
  refine .step n fun fuel hf => ?_
  simp only [Code.render, eval, items_renderAll, lexicalHead, lookup_var hframe hv, resolveFunction,
    Result.andThen]
  exact hn fuel hf

theorem Applies.primitive {a : ℕ} {op : Op} {vs : List Datum} {r : Except Text Datum}
    (hcode : ctx.code a = .primitive op) (h : KL.primitive ctx op vs = some r) :
    Applies ctx (.other .closure a) vs r := by
  refine .step 0 fun fuel _ => ?_
  simp only [apply, hcode, h]

theorem Applies.definition {a : ℕ} {c : Code} {vs : List Datum} {r : Except Text Datum}
    (hcode : ctx.code a = .definition names (c.render names)) (hframe : Frame names vs)
    (hs : c.wellScoped names = true) (h : Runs ctx names vs c r) :
    Applies ctx (.other .closure a) vs r := by
  obtain ⟨n, hn⟩ := h hframe hs
  refine .step n fun fuel hf => ?_
  simp only [apply, hcode, hframe.length, if_true]
  exact hn fuel hf

theorem Applies.closure {x : Text} {c : Code} {v : Datum} {r : Except Text Datum}
    (hframe : Frame names values) (hx : names.contains x = false)
    (hs : c.wellScoped (x :: names) = true) (h : Runs ctx (x :: names) (v :: values) c r) :
    Applies ctx (.closure [x] (c.render (x :: names)) (names.zip values)) [v] r := by
  obtain ⟨n, hn⟩ := h (hframe.cons hx v) hs
  refine .step n fun fuel hf => ?_
  simp only [apply, List.length_singleton, if_true]
  exact hn fuel hf

theorem Applies.numericHashkey {a target : ℕ} {captures : List ℕ} {key : Datum}
    {r : Except Text Datum} (hcode : ctx.code a = .numericHashkey target captures)
    (h : Applies ctx (.other .closure target) [numericKey ctx captures key] r) :
    Applies ctx (.other .closure a) [key] r := by
  obtain ⟨n, hn⟩ := h
  refine .step n fun fuel hf => ?_
  simp only [apply, hcode]
  exact hn fuel hf

/-! ### Forms that do not tell two lists of values apart -/

/-- The form comes to the same under both lists of values, with any fuel. -/
def Agrees (ctx : Context) (names : List Text) (values values' : List Datum) (c : Code) : Prop :=
  Frame names values → Frame names values' → c.wellScoped names = true → ∀ fuel,
    eval ctx fuel (names.zip values) (c.render names) =
      eval ctx fuel (names.zip values') (c.render names)

variable {values' : List Datum}

theorem Agrees.const (v : Value) : Agrees ctx names values values' (.const v) := by
  intro hframe hframe' hs fuel
  cases fuel with
  | zero => rfl
  | succ fuel =>
    cases v with
    | pair h t => cases hs
    | symbol s =>
      have hfree : names.contains s = false := by simpa [Code.wellScoped, Code.constant] using hs
      simp [Code.render, eval, atomicValue, lookup_free hfree]
    | _ => rfl

theorem Agrees.var {i : ℕ} {v : Datum} (hv : values[i]? = some v) (hv' : values'[i]? = some v) :
    Agrees ctx names values values' (.var i) := by
  intro hframe hframe' _ fuel
  cases fuel with
  | zero => rfl
  | succ fuel => simp only [Code.render, eval, atomicValue, lookup_var hframe hv, lookup_var hframe' hv']

theorem Agrees.ite {test yes no : Code} (htest : Agrees ctx names values values' test)
    (hyes : Agrees ctx names values values' yes) (hno : Agrees ctx names values values' no) :
    Agrees ctx names values values' (.ite test yes no) := by
  intro hframe hframe' hs fuel
  simp only [Code.wellScoped, Bool.and_eq_true] at hs
  cases fuel with
  | zero => rfl
  | succ fuel =>
    simp only [Code.render, Value.ofList, eval, items, Option.map_some, lexicalHead_free hs.1.1.1,
      formOf_sym, htest hframe hframe' hs.1.1.2 fuel]
    congr 1
    funext v
    split
    · next b _ =>
      cases b with
      | false => exact hno hframe hframe' hs.2 fuel
      | true => exact hyes hframe hframe' hs.1.2 fuel
    · rfl

theorem Agrees.bind {x : String} {value body : Code} (hvalue : Agrees ctx names values values' value)
    (h : ∀ v, Agrees ctx (ascii x :: names) (v :: values) (v :: values') body) :
    Agrees ctx names values values' (.bind x value body) := by
  intro hframe hframe' hs fuel
  simp only [Code.wellScoped, Bool.and_eq_true] at hs
  cases fuel with
  | zero => rfl
  | succ fuel =>
    simp only [Code.render, Value.ofList, eval, items, Option.map_some, lexicalHead_free hs.1.1.1,
      formOf_sym, hvalue hframe hframe' hs.1.2 fuel]
    congr 1
    funext v
    have hx := free_iff.1 hs.1.1.2
    exact h v (hframe.cons hx v) (hframe'.cons hx v) hs.2 fuel

theorem applyEvaluated_agrees (hframe : Frame names values) (hframe' : Frame names values')
    {cs : List Code} (hs : Code.wellScopedAll names cs = true)
    (h : ∀ c ∈ cs, Agrees ctx names values values' c) (f : Datum) : ∀ (fuel : ℕ) (done : List Datum),
    applyEvaluated ctx fuel (names.zip values) f (cs.map (Code.render names)) done =
      applyEvaluated ctx fuel (names.zip values') f (cs.map (Code.render names)) done := by
  induction cs with
  | nil =>
    intro fuel done
    cases fuel with
    | zero => rfl
    | succ fuel => rfl
  | cons c cs ih =>
    intro fuel done
    simp only [Code.wellScopedAll, Bool.and_eq_true] at hs
    cases fuel with
    | zero => rfl
    | succ fuel =>
      simp only [List.map_cons, applyEvaluated,
        h c (List.mem_cons_self ..) hframe hframe' hs.1 fuel]
      congr 1
      funext v
      exact ih hs.2 (fun c hc => h c (List.mem_cons_of_mem _ hc)) fuel (v :: done)

theorem Agrees.call {f : String} {cs : List Code} (h : ∀ c ∈ cs, Agrees ctx names values values' c) :
    Agrees ctx names values values' (.call f cs) := by
  intro hframe hframe' hs fuel
  simp only [Code.wellScoped, Bool.and_eq_true, beq_iff_eq] at hs
  cases fuel with
  | zero => rfl
  | succ fuel =>
    simp only [Code.render, eval, items_renderAll, lexicalHead_free hs.1.1, hs.1.2]
    simp only [Value.sym]
    congr 1
    funext g
    exact applyEvaluated_agrees hframe hframe' hs.2 h g fuel []

/-- A function that does not tell the two values of a variable apart. -/
theorem Agrees.callSame {f : String} {i a : ℕ} {v v' : Datum} (hslot : ctx.slot (ascii f) = some a)
    (hv : values[i]? = some v) (hv' : values'[i]? = some v')
    (happ : ∀ fuel, apply ctx fuel (.other .closure a) [v] = apply ctx fuel (.other .closure a) [v']) :
    Agrees ctx names values values' (.call f [.var i]) := by
  intro hframe hframe' hs fuel
  simp only [Code.wellScoped, Bool.and_eq_true, beq_iff_eq] at hs
  have hargs : ∀ (fuel : ℕ),
      applyEvaluated ctx fuel (names.zip values) (.other .closure a) [(Code.var i).render names] [] =
        applyEvaluated ctx fuel (names.zip values') (.other .closure a) [(Code.var i).render names]
          [] := by
    intro fuel
    obtain _ | _ | fuel := fuel
    · rfl
    · rfl
    · simp only [Code.render, applyEvaluated, eval, atomicValue, lookup_var hframe hv,
        lookup_var hframe' hv', Option.getD_some, Result.andThen, List.reverse_singleton]
      exact happ fuel
  cases fuel with
  | zero => rfl
  | succ fuel =>
    simp only [Code.render, eval, items_renderAll, lexicalHead_free hs.1.1, hs.1.2, List.map_cons,
      List.map_nil]
    simp only [Value.sym, functionGet, hslot, Result.andThen]
    exact hargs fuel

theorem apply_definition_agrees {a : ℕ} {c : Code} {vs vs' : List Datum}
    (hcode : ctx.code a = .definition names (c.render names)) (hframe : Frame names vs)
    (hframe' : Frame names vs') (hs : c.wellScoped names = true) (h : Agrees ctx names vs vs' c)
    (fuel : ℕ) : apply ctx fuel (.other .closure a) vs = apply ctx fuel (.other .closure a) vs' := by
  cases fuel with
  | zero => rfl
  | succ fuel =>
    have hlen : vs.length = vs'.length := hframe.length.symm.trans hframe'.length
    simp only [apply, hcode, hframe.length, hlen, if_true]
    exact h hframe hframe' hs fuel

end Rules

end ShenRc.KL
