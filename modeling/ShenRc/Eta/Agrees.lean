import Mathlib.Data.List.Forall2
import ShenRc.Eta.Evaluate

/-! # When the template agrees with the evaluator

The two machines are in lockstep: a template closure with the first `k` arguments stands against the
closure of the lambda `k` levels down, in the environment of these arguments, and everything else is
the same on both sides (`Agree`). A step from one lambda to the next needs that the word `lambda` in
it is not one of the names bound around it (`shadows`). -/

namespace ShenRc.Eta

open Numeral Eval

variable {σ : Type} {host : Host σ}

/-! ### Names -/

theorem formOf_lambda {name : Text} (h : (Expr.symbol name).named "lambda" = true) :
    formOf (.symbol name) = .lambda := by
  rw [Expr.named, beq_iff_eq] at h
  rw [formOf, h]
  rfl

theorem formOf_target {target : Text}
    (h : ¬ (etaSpecial.any fun s => (Expr.symbol target).named s) = true) :
    formOf (.symbol target) = .call := by
  simp only [etaSpecial, Expr.named, List.any_cons, List.any_nil, Bool.or_false, Bool.or_eq_true,
    beq_iff_eq, not_or] at h
  obtain ⟨h1, h2, h3, h4, h5, h6, h7, h8, h9, h10, h11, h12⟩ := h
  simp only [formOf, h1, h2, h3, h4, h5, h6, h7, h8, h9, h10, h11, h12, or_self, if_false]

theorem list?_eq_nil {e : Expr} (h : e.list? = some []) : e = .nil := by
  rcases e with _ | _ | _ | ⟨a, head, tail⟩
  · rfl
  · exact absurd h (by simp [Expr.list?])
  · exact absurd h (by simp [Expr.list?])
  · rw [Expr.list?, Option.map_eq_some_iff] at h
    obtain ⟨xs, -, hx⟩ := h
    exact absurd hx (by simp)

theorem listWidth_three {a b c : ℕ} {x y z rest : Expr}
    (h : listWidth (.pair a x (.pair b y (.pair c z rest))) 3 = true) : rest = .nil := by
  refine list?_eq_nil ?_
  unfold listWidth Expr.list? Expr.list? Expr.list? at h
  rcases hr : rest.list? with _ | xs
  · rw [hr] at h
    exact absurd h (by simp)
  · rw [hr] at h
    have hlen : xs.length = 0 := by simpa using h
    rw [List.length_eq_zero_iff.mp hlen]

theorem symbols_of_handles {xs : List Expr} {names : List Text}
    (h : xs.map Expr.handle = names.map Handle.symbol) : xs = names.map .symbol := by
  induction xs generalizing names with
  | nil =>
    rcases names with _ | ⟨name, names⟩
    · rfl
    · exact absurd h (by simp)
  | cons x xs ih =>
    rcases names with _ | ⟨name, names⟩
    · exact absurd h (by simp)
    · rw [List.map_cons, List.map_cons, List.cons.injEq] at h
      rw [List.map_cons, ih h.2]
      rcases x with _ | _ | _ | _
      · exact absurd h.1 (by simp [Expr.handle])
      · rw [Handle.symbol.inj h.1]
      · exact absurd h.1 (by simp [Expr.handle])
      · exact absurd h.1 (by simp [Expr.handle])

/-! ### Environments -/

theorem envLookup_cons (q : Text) (v : Val) (env : Env) (name : Text) :
    envLookup ((q, v) :: env) name = if q = name then some v else envLookup env name := by
  unfold envLookup
  by_cases h : q = name
  · simp [h]
  · simp [h]

/-- The frames that bind names to values one after the other. -/
def frames (names : List Text) (vals : List Val) : Env := (names.zip vals).reverse

theorem frames_snoc {names : List Text} {vals : List Val} (h : names.length = vals.length)
    (q : Text) (v : Val) : frames (names ++ [q]) (vals ++ [v]) = (q, v) :: frames names vals := by
  rw [frames, List.zip_append h, List.reverse_append]
  rfl

theorem envLookup_frames_none {names : List Text} {vals : List Val} {name : Text}
    (h : name ∉ names) : envLookup (frames names vals) name = none := by
  rw [envLookup, Option.map_eq_none_iff, List.find?_eq_none]
  intro p hp
  have hmem : p.1 ∈ names := (List.of_mem_zip (List.mem_reverse.mp hp)).1
  simp only [decide_eq_true_eq]
  rintro rfl
  exact h hmem

/-- In the frames of distinct names each name has its value. -/
theorem envLookup_frames {names : List Text} {vals : List Val} (hlen : names.length = vals.length)
    (hnodup : names.Nodup) :
    List.Forall₂ (fun name v => envLookup (frames names vals) name = some v) names vals := by
  induction names using List.reverseRecOn generalizing vals with
  | nil =>
    rw [List.length_eq_zero_iff.mp hlen.symm]
    exact .nil
  | append_singleton names q ih =>
    rcases List.eq_nil_or_concat vals with rfl | ⟨vals, v, rfl⟩
    · simp at hlen
    have hlen' : names.length = vals.length := by simpa using hlen
    rw [List.nodup_append] at hnodup
    obtain ⟨hnames, -, hnew⟩ := hnodup
    rw [List.concat_eq_append, frames_snoc hlen']
    have hne : ∀ name ∈ names, name ≠ q := fun name hname h =>
      hnew name hname q (List.mem_singleton_self q) h
    have hold := (List.forall₂_and_left _ _).mpr ⟨hne, ih hlen' hnames⟩
    refine List.rel_append (hold.imp fun name u hu => ?_) (.cons ?_ .nil)
    · rw [envLookup_cons, if_neg (Ne.symm hu.1)]
      exact hu.2
    · rw [envLookup_cons, if_pos rfl]

/-- Arguments that are bound names evaluate to what they are bound to. -/
theorem evaluateArgs_symbols {names : List Text} {vals : List Val} {env : Env}
    (h : List.Forall₂ (fun name v => envLookup env name = some v) names vals) {args : Expr}
    (hargs : args.list? = some (names.map .symbol)) (k : List Val → Prog σ) :
    evaluateArgs host args env k = k vals := by
  induction h generalizing args k with
  | nil =>
    rw [list?_eq_nil hargs]
    rfl
  | @cons name v names vals hname _ ih =>
    rcases args with _ | _ | _ | ⟨a, x, rest⟩
    · exact absurd hargs (by simp [Expr.list?])
    · exact absurd hargs (by simp [Expr.list?])
    · exact absurd hargs (by simp [Expr.list?])
    · rw [Expr.list?, Option.map_eq_some_iff] at hargs
      obtain ⟨xs, hxs, hcons⟩ := hargs
      rw [List.map_cons, List.cons.injEq] at hcons
      obtain ⟨rfl, rfl⟩ := hcons
      rw [evaluateArgs, evaluate]
      · simp only [Prog.bind, atomicValue, lexicalHead, hname, Option.getD_some]
        exact ih hxs _
      · exact fun _ _ _ h => Expr.noConfusion h

/-! ### Nested lambdas -/

/-- Nested lambdas with the parameters `qs` around `core`, inside binders of `names`. -/
inductive Nested (core : Expr) : List Text → List Text → Expr → Prop
  | core {names : List Text} : Nested core names [] core
  | lambda {names qs : List Text} {name q : Text} {a b c : ℕ} {inner : Expr}
      (hlambda : (Expr.symbol name).named "lambda" = true) (hq : q ∉ names)
      (h : Nested core (names ++ [q]) qs inner) :
      Nested core names (q :: qs) (.pair a (.symbol name) (.pair b (.symbol q) (.pair c inner .nil)))

/-- The expression has a nested lambda whose word `lambda` is a parameter of a lambda around it. -/
def shadows : List Text → Expr → Bool
  | names, .pair _ head (.pair _ (.symbol q) (.pair _ inner _)) =>
    head.named "lambda" &&
      (names.any (fun name => head.handle == .symbol name) || shadows (names ++ [q]) inner)
  | _, _ => false

theorem shadows_lambda {names : List Text} {name q : Text} {a b c : ℕ} {inner rest : Expr}
    (hlambda : (Expr.symbol name).named "lambda" = true) :
    shadows names (.pair a (.symbol name) (.pair b (.symbol q) (.pair c inner rest))) =
      (decide (name ∈ names) || shadows (names ++ [q]) inner) := by
  rw [shadows, hlambda, Bool.true_and]
  congr 1
  rw [Bool.eq_iff_iff, List.any_eq_true, decide_eq_true_eq]
  constructor
  · rintro ⟨x, hx, h⟩
    rw [beq_iff_eq] at h
    rw [Handle.symbol.inj h]
    exact hx
  · exact fun h => ⟨name, h, beq_self_eq_true _⟩

theorem Nested.nodup {core e : Expr} {names qs : List Text} (h : Nested core names qs e)
    (hn : names.Nodup) : (names ++ qs).Nodup := by
  induction h with
  | core => rwa [List.append_nil]
  | @lambda names qs _ q _ _ _ _ _ hq h ih =>
    have hnext : (names ++ [q]).Nodup := by
      rw [List.nodup_append]
      refine ⟨hn, List.nodup_singleton q, fun x hx y hy hxy => hq ?_⟩
      rw [← List.mem_singleton.mp hy, ← hxy]
      exact hx
    rw [← List.append_cons] at ih
    exact ih hnext

theorem symbol_of_lambda {head : Expr} (h : head.named "lambda" = true) :
    ∃ name, head = .symbol name := by
  rcases head with _ | name | _ | _
  · exact absurd h (by simp [Expr.named])
  · exact ⟨name, rfl⟩
  · exact absurd h (by simp [Expr.named])
  · exact absurd h (by simp [Expr.named])

/-- **What the loop finds.** -/
theorem nested_of_parameters {e body : Expr} {names params : List Text}
    (h : etaParameters e names = some (params, body)) (hl : names.length ≤ etaLimit) :
    ∃ qs, params = names ++ qs ∧ params.length ≤ etaLimit ∧ Nested body names qs e := by
  have hstop : ∀ {e : Expr} {names : List Text}, names.length ≤ etaLimit →
      some (names, e) = some (params, body) →
      ∃ qs, params = names ++ qs ∧ params.length ≤ etaLimit ∧ Nested body names qs e := by
    rintro e names hl h
    obtain ⟨rfl, rfl⟩ := Prod.mk.inj (Option.some.inj h)
    exact ⟨[], (List.append_nil _).symm, hl, .core⟩
  fun_induction etaParameters e names with
  | case1 => exact absurd h (by simp)
  | case2 => exact absurd h (by simp)
  | case3 a head b q c inner rest names hlambda hwidth hq ih =>
    rw [Bool.or_eq_true, not_or, decide_eq_true_eq] at hwidth
    obtain ⟨hlt, hwidth⟩ := hwidth
    have hrest : rest = .nil := listWidth_three (by simpa using hwidth)
    obtain ⟨name, rfl⟩ := symbol_of_lambda hlambda
    obtain ⟨qs, hparams, hlen, hnested⟩ := ih h (by
      rw [List.length_append, List.length_singleton]
      omega)
    refine ⟨q :: qs, by rw [hparams, List.append_assoc]; rfl, hlen, ?_⟩
    rw [hrest]
    exact .lambda hlambda (fun hin => hq (List.contains_iff_mem.mpr hin)) hnested
  | case4 => exact hstop hl h
  | case5 => exact absurd h (by simp)
  | case6 => exact hstop hl h
  | case7 => exact hstop hl h

/-- The call inside the lambdas that the template matches. -/
structure Target (target : Text) (params : List Text) (core : Expr) : Prop where
  call : ∃ a args, core = .pair a (.symbol target) args ∧ args.list? = some (params.map .symbol)
  form : formOf (.symbol target) = .call
  notParam : target ∉ params

/-- **What `eta_template` matches.** -/
theorem etaTemplate_spec {e : Expr} {target : Text} {n : ℕ} (h : etaTemplate e = some (target, n)) :
    ∃ params core, Nested core [] params e ∧ Target target params core ∧ params.length = n ∧
      params ≠ [] ∧ n ≤ etaLimit := by
  unfold etaTemplate at h
  split at h
  · rename_i params a t args hparams
    split_ifs at h with hwidth hparam hspecial hargs
    obtain ⟨rfl, rfl⟩ := Prod.mk.inj (Option.some.inj h)
    obtain ⟨qs, hqs, hlen, hnested⟩ := nested_of_parameters hparams (Nat.zero_le _)
    rw [List.nil_append] at hqs
    subst hqs
    obtain ⟨xs, hxs, hx⟩ := (Option.any_eq_true _ _).mp hargs
    rw [Bool.or_eq_true, not_or, List.isEmpty_iff] at hwidth
    exact ⟨params, _, hnested,
      ⟨⟨a, args, rfl, by rw [hxs, symbols_of_handles (beq_iff_eq.mp hx)]⟩, formOf_target hspecial,
        fun hin => hparam (List.contains_iff_mem.mpr hin)⟩, rfl, hwidth.1, hlen⟩
  · exact absurd h (by simp)

/-! ### The evaluator on the nested lambdas -/

theorem evaluate_lambda {env : Env} {name q : Text} {a b c : ℕ} {inner : Expr}
    (hfree : envLookup env name = none) (hlambda : (Expr.symbol name).named "lambda" = true) :
    evaluate host (.pair a (.symbol name) (.pair b (.symbol q) (.pair c inner .nil))) env =
      .lambda q inner env .done := by
  rw [evaluate]
  simp only [Expr.list?, Option.map_some, lexicalHead, hfree, formOf_lambda hlambda]
  rfl

theorem evaluate_core {target : Text} {params : List Text} {core : Expr} {vals : List Val}
    (h : Target target params core) (hn : params.Nodup) (hlen : params.length = vals.length) :
    evaluate host core (frames params vals) =
      functionGet target fun f => .tail (.apply f vals) := by
  obtain ⟨a, args, rfl, hargs⟩ := h.call
  rw [evaluate]
  simp only [hargs, lexicalHead, envLookup_frames_none h.notParam, h.form]
  congr 1
  funext f
  exact evaluateArgs_symbols (envLookup_frames hlen hn) hargs _

/-! ### Lockstep -/

/-- Closures that stand against each other, with the vectors of the two machines. -/
inductive ClosureAgree (vs vs' : List (List Val)) : Closure → Closure → Prop
  | same {c : Closure} (h : c.code.vector? = none) : ClosureAgree vs vs' c c
  | eta {target : Text} {b b' arity : ℕ} {vals bound : List Val} (h : vs[b]? = some vals)
      (h' : vs'[b']? = some vals) :
      ClosureAgree vs vs' ⟨.eta target b arity, bound⟩ ⟨.eta target b' arity, bound⟩
  | lambda {target q : Text} {b : ℕ} {vals : List Val} {names qs : List Text} {core body : Expr}
      (h : vs[b]? = some vals) (hlen : names.length = vals.length)
      (hn : (names ++ q :: qs).Nodup) (hlimit : (names ++ q :: qs).length ≤ etaLimit)
      (hcore : Target target (names ++ q :: qs) core)
      (hbody : Nested core (names ++ [q]) qs body) (hs : shadows (names ++ [q]) body = false) :
      ClosureAgree vs vs' ⟨.eta target b (names ++ q :: qs).length, []⟩
        ⟨.lambda q body (frames names vals), []⟩

theorem ClosureAgree.mono {vs vs' us us' : List (List Val)} {c c' : Closure}
    (h : ClosureAgree vs vs' c c') (hv : vs <+: us) (hv' : vs' <+: us') :
    ClosureAgree us us' c c' := by
  have hget : ∀ {vs us : List (List Val)} {b : ℕ} {vals : List Val}, vs <+: us →
      vs[b]? = some vals → us[b]? = some vals := by
    rintro vs us b vals ⟨more, rfl⟩ h
    obtain ⟨hlt, -⟩ := List.getElem?_eq_some_iff.mp h
    rw [List.getElem?_append_left hlt]
    exact h
  cases h with
  | same h => exact .same h
  | eta h h' => exact .eta (hget hv h) (hget hv' h')
  | lambda h hlen hn hlimit hcore hbody hs => exact .lambda (hget hv h) hlen hn hlimit hcore hbody hs

/-- The two machines. -/
structure Agree (w w' : World σ) : Prop where
  closures : List.Forall₂ (ClosureAgree w.vectors w'.vectors) w.closures w'.closures
  functions : w.functions = w'.functions
  rest : w.rest = w'.rest

theorem Agree.refl (w : World σ) : Agree w w := by
  refine ⟨List.forall₂_same.mpr fun c hc => ?_, rfl, rfl⟩
  rcases hv : c.code.vector? with _ | b
  · exact .same hv
  · rcases c with ⟨_ | _ | _, bound⟩
    · have hlt := w.live _ hc _ rfl
      exact .eta (List.getElem?_eq_getElem hlt) (List.getElem?_eq_getElem hlt)
    · exact absurd hv (by simp [Code.vector?])
    · exact absurd hv (by simp [Code.vector?])

/-- The machines after a step have the same result. -/
abbrev SameResult : Option (Outcome × World σ) → Option (Outcome × World σ) → Prop :=
  Option.Rel fun o o' => o.1 = o'.1 ∧ Agree o.2 o'.2

theorem SameResult.of_agree {w w' : World σ} (h : Agree w w') (o : Outcome) :
    SameResult (some (o, w)) (some (o, w')) := .some ⟨rfl, h⟩

theorem SameResult.bind {r r' : Option (Outcome × World σ)} (h : SameResult r r')
    {k k' : Outcome × World σ → Option (Outcome × World σ)}
    (hk : ∀ o w w', Agree w w' → SameResult (k (o, w)) (k' (o, w'))) :
    SameResult (r.bind k) (r'.bind k') := by
  cases h with
  | none => exact .none
  | @some o o' ho =>
    obtain ⟨o, w⟩ := o
    obtain ⟨o', w'⟩ := o'
    obtain ⟨rfl, hw⟩ := ho
    exact hk o w w' hw

theorem Agree.length {w w' : World σ} (h : Agree w w') :
    w.closures.length = w'.closures.length := h.closures.length_eq

theorem Agree.addClosure {w w' : World σ} (h : Agree w w') {c c' : Closure}
    (hc : ∀ b ∈ c.code.vector?, b < w.vectors.length)
    (hc' : ∀ b ∈ c'.code.vector?, b < w'.vectors.length)
    (hcc : ClosureAgree w.vectors w'.vectors c c') :
    Agree (w.addClosure c hc) (w'.addClosure c' hc') :=
  ⟨List.rel_append h.closures (.cons hcc .nil), h.functions, h.rest⟩

/-- **A program** does the same in both machines if its requests do. -/
theorem exec_agree {perform perform' : Request → World σ → Option (Outcome × World σ)}
    (hp : ∀ r w w', Agree w w' → SameResult (perform r w) (perform' r w')) (p : Prog σ)
    {w w' : World σ} (h : Agree w w') : SameResult (exec perform p w) (exec perform' p w') := by
  induction p generalizing w w' with
  | done v => exact .of_agree h _
  | fail message => exact .of_agree h _
  | tail r => exact hp r w w' h
  | request r k ih => exact (hp r w w' h).bind fun o w w' hw => ih o hw
  | lookup name k ih =>
    rw [exec, exec, h.functions]
    exact ih _ h
  | define name handle k ih => exact ih ⟨h.closures, by rw [h.functions], h.rest⟩
  | native n captures k ih =>
    rw [exec, exec, h.length]
    exact ih _ (h.addClosure _ _ (.same rfl))
  | lambda param body env k ih =>
    rw [exec, exec, h.length]
    exact ih _ (h.addClosure _ _ (.same rfl))
  | observe k ih =>
    rw [exec, exec, h.rest]
    exact ih _ h
  | update f k ih => exact ih ⟨h.closures, h.functions, by rw [h.rest]⟩

/-! ### Calls -/

theorem Agree.grow {w w' : World σ} (h : Agree w w') (more more' : List (List Val)) :
    List.Forall₂ (ClosureAgree (w.vectors ++ more) (w'.vectors ++ more')) w.closures w'.closures :=
  h.closures.imp fun _ _ hc => hc.mono (List.prefix_append _ _) (List.prefix_append _ _)

theorem Agree.addEta {w w' : World σ} (h : Agree w w') (target : Text) (bound : List Val)
    (arity : ℕ) : Agree (w.addEta target bound arity) (w'.addEta target bound arity) := by
  have hnew : (w.vectors ++ [bound])[w.vectors.length]? = some bound := by simp
  have hnew' : (w'.vectors ++ [bound])[w'.vectors.length]? = some bound := by simp
  exact ⟨List.rel_append (h.grow [bound] [bound]) (.cons (.eta hnew hnew') .nil), h.functions,
    h.rest⟩

/-- A template closure against the closure of a lambda. -/
theorem Agree.addLambda {w w' : World σ} (h : Agree w w') {target q : Text} {vals : List Val}
    {names qs : List Text} {core body : Expr} (hlen : names.length = vals.length)
    (hn : (names ++ q :: qs).Nodup) (hlimit : (names ++ q :: qs).length ≤ etaLimit)
    (hcore : Target target (names ++ q :: qs) core) (hbody : Nested core (names ++ [q]) qs body)
    (hs : shadows (names ++ [q]) body = false)
    (hc : ∀ b ∈ (Code.lambda q body (frames names vals)).vector?, b < w'.vectors.length) :
    Agree (w.addEta target vals (names ++ q :: qs).length)
      (w'.addClosure ⟨.lambda q body (frames names vals), []⟩ hc) := by
  have hgrow := h.grow [vals] []
  rw [List.append_nil] at hgrow
  refine ⟨List.rel_append hgrow (.cons (.lambda ?_ hlen hn hlimit hcore hbody hs) .nil),
    h.functions, h.rest⟩
  simp

section Perform

variable {perform perform' : Request → World σ → Option (Outcome × World σ)}

theorem etaCall_agree (hp : ∀ r w w', Agree w w' → SameResult (perform r w) (perform' r w'))
    {w w' : World σ} (h : Agree w w') {b b' : ℕ} {vals : List Val} (hv : w.vectors[b]? = some vals)
    (hv' : w'.vectors[b']? = some vals) (target : Text) (arity : ℕ) (args : List Val) :
    SameResult (exec perform (etaCall target b arity args w).1 (etaCall target b arity args w).2)
      (exec perform' (etaCall target b' arity args w').1 (etaCall target b' arity args w').2) := by
  have hb : w.vectors.getD b [] = vals := by rw [List.getD_eq_getElem?_getD, hv]; rfl
  have hb' : w'.vectors.getD b' [] = vals := by rw [List.getD_eq_getElem?_getD, hv']; rfl
  unfold etaCall
  rw [hb, hb']
  split
  · dsimp only
    split_ifs
    · exact exec_agree hp _ h
    · rw [h.length]
      exact exec_agree hp _ (h.addEta target _ arity)
    · exact exec_agree hp _ h
  · exact exec_agree hp _ h

/-- **The next argument** of a template closure and of a lambda. -/
theorem lambda_agree (hp : ∀ r w w', Agree w w' → SameResult (perform r w) (perform' r w'))
    {w w' : World σ} (h : Agree w w') {target q : Text} {b : ℕ} {vals : List Val}
    {names qs : List Text} {core body : Expr} (hv : w.vectors[b]? = some vals)
    (hlen : names.length = vals.length) (hn : (names ++ q :: qs).Nodup)
    (hlimit : (names ++ q :: qs).length ≤ etaLimit)
    (hcore : Target target (names ++ q :: qs) core) (hbody : Nested core (names ++ [q]) qs body)
    (hs : shadows (names ++ [q]) body = false) (v : Val) :
    SameResult
      (exec perform (etaCall target b (names ++ q :: qs).length [v] w).1
        (etaCall target b (names ++ q :: qs).length [v] w).2)
      (exec perform' (evaluate host body ((q, v) :: frames names vals)) w') := by
  have hb : w.vectors.getD b [] = vals := by rw [List.getD_eq_getElem?_getD, hv]; rfl
  have harity : (names ++ q :: qs).length = vals.length + 1 + qs.length := by
    rw [List.length_append, List.length_cons, hlen]
    omega
  have hvalid : ¬ (((names ++ q :: qs).length = 0 || etaLimit < (names ++ q :: qs).length
      || (names ++ q :: qs).length ≤ vals.length) = true) := by
    simp only [Bool.or_eq_true, decide_eq_true_eq, not_or]
    omega
  have hlen' : (names ++ [q]).length = (vals ++ [v]).length := by simp [hlen]
  have happend : names ++ q :: qs = (names ++ [q]) ++ qs := List.append_cons names q qs
  unfold etaCall
  simp only [hb, if_neg hvalid]
  rw [← frames_snoc hlen]
  cases hbody with
  | core =>
    -- the last argument: both look the target up and call it
    rw [if_neg (by rw [harity, List.length_nil]; omega)]
    rw [evaluate_core hcore hn hlen']
    exact exec_agree hp _ h
  | @lambda _ qs name q' _ _ _ inner hlambda hq hinner =>
    rw [if_pos (by rw [harity, List.length_cons]; omega)]
    rw [shadows_lambda hlambda, Bool.or_eq_false_iff, decide_eq_false_iff_not] at hs
    rw [evaluate_lambda (envLookup_frames_none hs.1) hlambda, exec, exec, exec, h.length]
    rw [happend] at hn hlimit hcore ⊢
    exact .of_agree (h.addLambda hlen' hn hlimit hcore hinner hs.2 _) _

theorem applyRequest_none {w : World σ} {f : Val} {args : List Val} {k : ℕ}
    (hf : resolve f w = .ok k) (hk : w.closures[k]? = none) :
    applyRequest host perform f args w =
      some (.error (ascii "attempt to apply a non-function"), w) := by
  unfold applyRequest
  rw [hf]
  dsimp only
  split
  · rfl
  · rename_i c hc
    rw [hk] at hc
    exact absurd hc (by simp)

theorem applyRequest_some {w : World σ} {f : Val} {args : List Val} {k : ℕ} {c : Closure}
    (hf : resolve f w = .ok k) (hk : w.closures[k]? = some c) :
    applyRequest host perform f args w =
      if args.length < codeArity host c.code - c.bound.length then
        some (.ok (.closure w.closures.length), w.addClosure { c with bound := c.bound ++ args }
          (w.live c (List.mem_of_getElem? hk)))
      else
        (exec perform
          (enter host c.code (c.bound ++ args.take (codeArity host c.code - c.bound.length)) w).1
          (enter host c.code (c.bound ++ args.take (codeArity host c.code - c.bound.length)) w).2).bind
          (applyExcess perform (args.drop (codeArity host c.code - c.bound.length))) := by
  unfold applyRequest
  rw [hf]
  dsimp only
  split
  · rename_i hc
    rw [hk] at hc
    exact absurd hc (by simp)
  · rename_i d hc
    obtain rfl : c = d := Option.some.inj (hk.symm.trans hc)
    rfl

/-- **A call**, with all arguments of the closure. -/
theorem enter_agree (hp : ∀ r w w', Agree w w' → SameResult (perform r w) (perform' r w'))
    {w w' : World σ} (h : Agree w w') {c c' : Closure}
    (hc : ClosureAgree w.vectors w'.vectors c c') (args : List Val)
    (hargs : c.bound = [] → codeArity host c.code ≤ args.length) :
    SameResult
      (exec perform
        (enter host c.code (c.bound ++ args.take (codeArity host c.code - c.bound.length)) w).1
        (enter host c.code (c.bound ++ args.take (codeArity host c.code - c.bound.length)) w).2)
      (exec perform'
        (enter host c'.code (c'.bound ++ args.take (codeArity host c'.code - c'.bound.length)) w').1
        (enter host c'.code (c'.bound ++ args.take (codeArity host c'.code - c'.bound.length))
          w').2) := by
  cases hc with
  | @same c hv =>
    rcases c with ⟨_ | _ | _, bound⟩
    · exact absurd hv (by simp [Code.vector?])
    · exact exec_agree hp _ h
    · exact exec_agree hp _ h
  | eta hv hv' => exact etaCall_agree hp h hv hv' _ _ _
  | @lambda target q b vals names qs core body hv hlen hn hlimit hcore hbody hs =>
    rcases args with _ | ⟨v, rest⟩
    · exact absurd (hargs rfl) (by simp [codeArity])
    · exact lambda_agree hp h hv hlen hn hlimit hcore hbody hs v

theorem ClosureAgree.arity (host : Host σ) {vs vs' : List (List Val)} {c c' : Closure}
    (h : ClosureAgree vs vs' c c') :
    codeArity host c.code = codeArity host c'.code ∧ c.bound = c'.bound := by
  cases h with
  | same h => exact ⟨rfl, rfl⟩
  | eta h h' => exact ⟨rfl, rfl⟩
  | lambda => exact ⟨rfl, rfl⟩

/-- A partial application copies the closure. -/
theorem ClosureAgree.partial_ {vs vs' : List (List Val)} {c c' : Closure}
    (h : ClosureAgree vs vs' c c') {args : List Val}
    (hlt : args.length < codeArity host c.code - c.bound.length) :
    ClosureAgree vs vs' { c with bound := c.bound ++ args } { c' with bound := c'.bound ++ args } := by
  cases h with
  | same h => exact .same h
  | eta h h' => exact .eta h h'
  | lambda h hlen hn hlimit hcore hbody hs =>
    have hnil : args = [] := by
      rw [← List.length_eq_zero_iff]
      simp only [codeArity, List.length_nil] at hlt
      omega
    rw [hnil]
    exact .lambda h hlen hn hlimit hcore hbody hs

theorem applyRequest_agree (hp : ∀ r w w', Agree w w' → SameResult (perform r w) (perform' r w'))
    {w w' : World σ} (h : Agree w w') (f : Val) (args : List Val) :
    SameResult (applyRequest host perform f args w) (applyRequest host perform' f args w') := by
  have hresolve : resolve f w = resolve f w' := by
    unfold resolve
    rw [h.functions]
  rcases hf : resolve f w with message | k
  · unfold applyRequest
    rw [← hresolve, hf]
    exact .of_agree h _
  have hf' : resolve f w' = .ok k := hresolve ▸ hf
  rcases Nat.lt_or_ge k w.closures.length with hk | hk
  · have hk' : k < w'.closures.length := h.length ▸ hk
    have hc := h.closures.get hk hk'
    obtain ⟨harity, hbound⟩ := hc.arity host
    rw [applyRequest_some hf (List.getElem?_eq_getElem hk),
      applyRequest_some hf' (List.getElem?_eq_getElem hk')]
    simp only [List.get_eq_getElem] at hc harity hbound
    by_cases hlt : args.length <
        codeArity host w.closures[k].code - w.closures[k].bound.length
    · rw [if_pos hlt, if_pos (by rwa [← harity, ← hbound]), h.length]
      exact .of_agree (h.addClosure _ _ (hc.partial_ hlt)) _
    · rw [if_neg hlt, if_neg (by rwa [← harity, ← hbound])]
      refine (enter_agree hp h hc args fun hb => ?_).bind fun o w w' hw => ?_
      · rw [hb, List.length_nil] at hlt
        omega
      · rw [← harity, ← hbound]
        unfold applyExcess
        rcases o with _ | v
        · exact .of_agree hw _
        · dsimp only
          split_ifs
          · exact .of_agree hw _
          · exact hp _ _ _ hw
  · have hk' : w'.closures.length ≤ k := h.length ▸ hk
    rw [applyRequest_none hf (List.getElem?_eq_none hk),
      applyRequest_none hf' (List.getElem?_eq_none hk')]
    exact .of_agree h _

theorem perform_agree (fuel : ℕ) (r : Request) {w w' : World σ} (h : Agree w w') :
    SameResult (Eta.perform host fuel r w) (Eta.perform host fuel r w') := by
  induction fuel generalizing r w w' with
  | zero => exact .none
  | succ fuel ih =>
    have hp : ∀ r w w', Agree w w' →
        SameResult (Eta.perform host fuel r w) (Eta.perform host fuel r w') := fun r _ _ h => ih r h
    rcases r with ⟨f, args⟩ | e | e
    · exact applyRequest_agree hp h f args
    · rw [Eta.perform, Eta.perform]
      split
      · rw [h.length]
        exact .of_agree (h.addEta _ _ _) _
      · exact exec_agree hp _ h
    · exact exec_agree hp _ h

end Perform

end ShenRc.Eta
