import ShenRc.Eta.Agrees

/-! # The eta template

A template and the evaluator's closure cannot be told apart, by any program in any state, exactly if
none of the words `lambda` in the expression is a parameter of a lambda around it
(`eta_indistinguishable_iff`). Where one is, the evaluator takes the lambda inside for a call of the
argument, and a program that passes something that is no function sees an error (`evaluator_stuck`)
where the template waits for the next argument (`template_waits`). -/

namespace ShenRc.Eta

open Numeral Eval

/-- **The template is the evaluator's closure** for every program that goes on with it, in every state:
the results are the same, and so are the function store and the rest of the state. -/
def Indistinguishable (e : Expr) : Prop :=
  ∀ (σ : Type) (host : Host σ) (fuel : ℕ) (k : Outcome → Prog σ) (w : World σ),
    Option.Rel
      (fun o o' => o.1 = o'.1 ∧ o.2.functions = o'.2.functions ∧ o.2.rest = o'.2.rest)
      (exec (perform host fuel) (.request (.eval e) k) w)
      (exec (perform host fuel) (.request (.interpret e) k) w)

variable {σ : Type} {host : Host σ}

/-! ### Without shadowing -/

theorem SameResult.visible {r r' : Option (Outcome × World σ)} (h : SameResult r r') :
    Option.Rel (fun o o' => o.1 = o'.1 ∧ o.2.functions = o'.2.functions ∧ o.2.rest = o'.2.rest)
      r r' := by
  cases h with
  | none => exact .none
  | some ho => exact .some ⟨ho.1, ho.2.functions, ho.2.rest⟩

theorem eval_agrees {e : Expr} {target : Text} {n : ℕ} (he : etaTemplate e = some (target, n))
    (hs : shadows [] e = false) (fuel : ℕ) (w : World σ) :
    SameResult (perform host fuel (.eval e) w) (perform host fuel (.interpret e) w) := by
  obtain ⟨params, core, hnested, hcore, hlen, hne, hlimit⟩ := etaTemplate_spec he
  rcases fuel with _ | fuel
  · exact .none
  have hnodup : params.Nodup := hnested.nodup List.nodup_nil
  rw [perform, perform, he]
  subst hlen
  cases hnested with
  | core => exact absurd rfl hne
  | @lambda _ qs name q _ _ _ inner hlambda hq hinner =>
    rw [shadows_lambda hlambda, Bool.or_eq_false_iff] at hs
    rw [evaluate_lambda rfl hlambda]
    have hempty : ([] : List Text).length = ([] : List Val).length := rfl
    exact .of_agree ((Agree.refl w).addLambda hempty hnodup hlimit hcore hinner hs.2 _) _

theorem indistinguishable_of_not_shadows {e : Expr} {target : Text} {n : ℕ}
    (he : etaTemplate e = some (target, n)) (hs : shadows [] e = false) : Indistinguishable e := by
  intro σ host fuel k w
  have hk : ∀ o w w', Agree w w' →
      SameResult (exec (perform host fuel) (k o) w) (exec (perform host fuel) (k o) w') :=
    fun o w w' hw => exec_agree (fun r _ _ h => perform_agree fuel r h) (k o) hw
  have h : SameResult (exec (perform host fuel) (.request (.eval e) k) w)
      (exec (perform host fuel) (.request (.interpret e) k) w) :=
    (eval_agrees he hs fuel w).bind hk
  exact h.visible

/-! ### With shadowing -/

theorem exec_bind_ok {perform : Request → World σ → Option (Outcome × World σ)} {p : Prog σ}
    {k : Val → Prog σ} {w w' : World σ} {v : Val}
    (h : exec perform (p.bind k) w = some (.ok v, w')) :
    ∃ u w₁, exec perform (k u) w₁ = some (.ok v, w') := by
  induction p generalizing w with
  | done u => exact ⟨u, w, h⟩
  | fail message => exact absurd h (by simp [Prog.bind, exec])
  | tail r =>
    obtain ⟨⟨o, w₁⟩, -, ho⟩ := Option.bind_eq_some_iff.mp h
    rcases o with message | u
    · exact absurd ho (by simp [exec])
    · exact ⟨u, w₁, ho⟩
  | request r k' ih =>
    obtain ⟨o, -, ho⟩ := Option.bind_eq_some_iff.mp h
    exact ih o.1 ho
  | lookup name k' ih => exact ih _ h
  | define name handle k' ih => exact ih h
  | native n captures k' ih => exact ih _ h
  | lambda param body env k' ih => exact ih _ h
  | observe k' ih => exact ih _ h
  | update f k' ih => exact ih h

theorem exec_evaluateArgs_ok {perform : Request → World σ → Option (Outcome × World σ)}
    {args : Expr} {env : Env} {k : List Val → Prog σ} {w w' : World σ} {v : Val}
    (h : exec perform (evaluateArgs host args env k) w = some (.ok v, w')) :
    ∃ vs w₁, exec perform (k vs) w₁ = some (.ok v, w') := by
  induction args generalizing k w with
  | nil => exact ⟨[], w, h⟩
  | symbol => exact ⟨[], w, h⟩
  | atom => exact ⟨[], w, h⟩
  | pair a x rest _ ih =>
    rw [evaluateArgs] at h
    obtain ⟨u, w₁, h₁⟩ := exec_bind_ok h
    obtain ⟨vs, w₂, h₂⟩ := ih h₁
    exact ⟨u :: vs, w₂, h₂⟩

/-- The `d`-th lambda inside the expression is the first whose word `lambda` is one of the names bound
around it. -/
inductive ShadowAt : List Text → ℕ → Expr → Prop
  | here {names : List Text} {name q : Text} {a b c : ℕ} {inner : Expr} (h : name ∈ names) :
      ShadowAt names 0 (.pair a (.symbol name) (.pair b (.symbol q) (.pair c inner .nil)))
  | there {names : List Text} {name q : Text} {a b c d : ℕ} {inner : Expr} (hfree : name ∉ names)
      (hlambda : (Expr.symbol name).named "lambda" = true) (h : ShadowAt (names ++ [q]) d inner) :
      ShadowAt names (d + 1) (.pair a (.symbol name) (.pair b (.symbol q) (.pair c inner .nil)))

theorem shadowAt_of_nested {core e : Expr} {names qs : List Text} (h : Nested core names qs e)
    (hcore : ∀ names, shadows names core = false) (hs : shadows names e = true) :
    ∃ d < qs.length, ShadowAt names d e := by
  induction h with
  | core => exact absurd hs (by simp [hcore])
  | @lambda names qs name q _ _ _ inner hlambda hq h ih =>
    by_cases hname : name ∈ names
    · exact ⟨0, Nat.succ_pos _, .here hname⟩
    · rw [shadows_lambda hlambda, Bool.or_eq_true, decide_eq_true_eq] at hs
      obtain ⟨d, hd, hat⟩ := ih (hs.resolve_left hname)
      exact ⟨d + 1, Nat.succ_lt_succ hd, .there hname hlambda hat⟩

/-- A value that is no function. -/
def plain : Val := .datum (.atom 0)

/-- The environment binds the names to it, and nothing else. -/
def Binds (env : Env) (names : List Text) : Prop :=
  (∀ name ∈ names, envLookup env name = some plain) ∧ ∀ name ∉ names, envLookup env name = none

theorem Binds.snoc {env : Env} {names : List Text} (h : Binds env names) (q : Text) :
    Binds ((q, plain) :: env) (names ++ [q]) := by
  refine ⟨fun name hname => ?_, fun name hname => ?_⟩
  · rw [envLookup_cons]
    split_ifs with hq
    · rfl
    · exact h.1 name ((List.mem_append.mp hname).resolve_right fun hq' =>
        hq (List.mem_singleton.mp hq').symm)
  · rw [List.mem_append, not_or, List.mem_singleton] at hname
    rw [envLookup_cons, if_neg (Ne.symm hname.2), h.2 name hname.1]

theorem apply_plain (fuel : ℕ) (args : List Val) (w w' : World σ) (v : Val) :
    perform host fuel (.apply plain args) w ≠ some (.ok v, w') := by
  rcases fuel with _ | fuel
  · exact fun h => absurd h (by simp [perform])
  · exact fun h => absurd h (by simp [perform, applyRequest, resolve, plain])

/-- **The evaluator** does not get past a shadowed word. -/
theorem evaluator_stuck {names : List Text} {d : ℕ} {body : Expr} (h : ShadowAt names d body)
    {env : Env} (henv : Binds env names) (fuel fuel' : ℕ) (w w' : World σ) (v : Val) :
    (exec (perform host fuel) (evaluate host body env) w).bind
      (applyExcess (perform host fuel') (List.replicate d plain)) ≠ some (.ok v, w') := by
  induction h generalizing env fuel fuel' w with
  | @here names name q a b c inner hname =>
    intro hrun
    obtain ⟨⟨o, w₁⟩, ho, hexcess⟩ := Option.bind_eq_some_iff.mp hrun
    have hok : (o, w₁) = (.ok v, w') := by
      unfold applyExcess at hexcess
      rcases o with message | u
      · exact Option.some.inj hexcess
      · exact Option.some.inj hexcess
    rw [hok, evaluate] at ho
    simp only [Expr.list?, Option.map_some, lexicalHead, henv.1 name hname, resolveSymbol,
      plain] at ho
    obtain ⟨vs, w₂, h₂⟩ := exec_evaluateArgs_ok ho
    exact apply_plain fuel vs w₂ w' v h₂
  | @there names name q a b c d inner hfree hlambda hat ih =>
    intro hrun
    have hnone : envLookup env name = none := henv.2 name hfree
    rw [evaluate_lambda hnone hlambda, exec, exec, Option.bind_some] at hrun
    rcases fuel' with _ | fuel'
    · exact absurd hrun (by simp [applyExcess, List.replicate, perform])
    · simp only [applyExcess, List.replicate_succ, List.isEmpty_cons, Bool.false_eq_true,
        if_false] at hrun
      rw [perform, applyRequest_some rfl (List.getElem?_concat_length ..)] at hrun
      exact ih (henv.snoc q) fuel' fuel' _ hrun

/-- **The template** waits for the last argument. -/
theorem template_waits (host : Host σ) {target : Text} {arity : ℕ} (args : List Val)
    (hlimit : arity ≤ etaLimit) {w : World σ} {h b : ℕ} {vals : List Val} (hne : args ≠ [])
    (hc : w.closures[h]? = some ⟨.eta target b arity, []⟩) (hv : w.vectors[b]? = some vals)
    (hlen : vals.length + args.length < arity) :
    ∃ fuel h' w', perform host (fuel + 1) (.apply (.closure h) args) w =
      some (.ok (.closure h'), w') := by
  induction args generalizing w h b vals with
  | nil => exact absurd rfl hne
  | cons v rest ih =>
    have hb : w.vectors.getD b [] = vals := by rw [List.getD_eq_getElem?_getD, hv]; rfl
    rw [List.length_cons] at hlen
    have hstep : etaCall target b arity [v] w =
        (.done (.closure w.closures.length), w.addEta target (vals ++ [v]) arity) := by
      have hvalid : ¬ ((arity = 0 || etaLimit < arity || arity ≤ vals.length) = true) := by
        simp only [Bool.or_eq_true, decide_eq_true_eq, not_or]
        omega
      unfold etaCall
      simp only [hb, if_neg hvalid]
      rw [if_pos (by omega)]
    rcases rest with _ | ⟨u, rest⟩
    · refine ⟨0, w.closures.length, w.addEta target (vals ++ [v]) arity, ?_⟩
      rw [perform, applyRequest_some rfl hc, if_neg (by simp [codeArity])]
      change (exec _ (etaCall target b arity [v] w).1 (etaCall target b arity [v] w).2).bind _ = _
      rw [hstep]
      rfl
    · have hnew : (w.addEta target (vals ++ [v]) arity).closures[w.closures.length]? =
          some ⟨.eta target w.vectors.length arity, []⟩ := by simp [World.addEta]
      have hbound : (w.addEta target (vals ++ [v]) arity).vectors[w.vectors.length]? =
          some (vals ++ [v]) := by simp [World.addEta]
      obtain ⟨fuel, h', w', hrun⟩ := ih (List.cons_ne_nil u rest) hnew hbound
        (by rw [List.length_append, List.length_singleton]; omega)
      refine ⟨fuel + 1, h', w', ?_⟩
      rw [perform, applyRequest_some rfl hc, if_neg (by simp [codeArity])]
      change (exec _ (etaCall target b arity [v] w).1 (etaCall target b arity [v] w).2).bind _ = _
      rw [hstep]
      exact hrun

/-- A host without functions, and the state in which nothing is defined. -/
def bareHost : Host Unit := ⟨fun _ => 0, fun _ _ _ => .fail [], fun _ _ _ => .fail []⟩

def bareWorld : World Unit := ⟨[], [], fun _ => none, (), fun _ h => absurd h (by simp)⟩

/-- Apply the closure to as many plain values. -/
def probe (n : ℕ) (o : Outcome) : Prog Unit :=
  match o with
  | .ok f => .tail (.apply f (List.replicate n plain))
  | .error message => .fail message

theorem exec_probe (perform : Request → World Unit → Option (Outcome × World Unit)) (n : ℕ)
    (o : Outcome × World Unit) : exec perform (probe (n + 1) o.1) o.2 =
      applyExcess perform (List.replicate (n + 1) plain) o := by
  obtain ⟨o, w⟩ := o
  rcases o with message | f
  · rfl
  · rfl

theorem Target.not_shadows {target : Text} {params : List Text} {core : Expr}
    (h : Target target params core) (names : List Text) : shadows names core = false := by
  obtain ⟨a, args, rfl, -⟩ := h.call
  have hnamed : (Expr.symbol target).named "lambda" = false := by
    rw [Bool.eq_false_iff]
    intro hn
    have hform := formOf_lambda hn
    rw [h.form] at hform
    exact absurd hform (by simp)
  unfold shadows
  split
  · rename_i heq
    obtain ⟨rfl, rfl, -⟩ := Expr.pair.inj heq
    rw [hnamed, Bool.false_and]
  · rfl

theorem shadows_of_indistinguishable {e : Expr} {target : Text} {n : ℕ}
    (he : etaTemplate e = some (target, n)) (hi : Indistinguishable e) : shadows [] e = false := by
  rw [Bool.eq_false_iff]
  intro hs
  obtain ⟨params, core, hnested, hcore, hlen, hne, hlimit⟩ := etaTemplate_spec he
  obtain ⟨d, hd, hat⟩ := shadowAt_of_nested hnested hcore.not_shadows hs
  obtain ⟨d, rfl⟩ : ∃ d', d = d' + 1 := by
    cases hat with
    | here h => exact absurd h (by simp)
    | there => exact ⟨_, rfl⟩
  have hfirst : (bareWorld.addEta target [] n).closures[0]? = some ⟨.eta target 0 n, []⟩ := rfl
  have hempty : (bareWorld.addEta target [] n).vectors[0]? = some [] := rfl
  obtain ⟨fuel, h', w', hrun⟩ := template_waits bareHost (List.replicate (d + 1) plain) hlimit
    (by simp) hfirst hempty (by rw [List.length_replicate, List.length_nil]; omega)
  have h := hi Unit bareHost (fuel + 1) (probe (d + 1)) bareWorld
  have htemplate : exec (perform bareHost (fuel + 1)) (.request (.eval e) (probe (d + 1)))
      bareWorld = some (.ok (.closure h'), w') := by
    rw [exec, perform, he]
    exact hrun
  rw [htemplate] at h
  -- the evaluator would have to return a closure as well
  rcases hother : exec (perform bareHost (fuel + 1)) (.request (.interpret e) (probe (d + 1)))
    bareWorld with _ | ⟨o, u⟩
  · rw [hother] at h
    cases h
  · rw [hother] at h
    obtain rfl : Except.ok (Val.closure h') = o := by
      cases h with
      | some h => exact h.1
    rw [exec, perform] at hother
    simp only [exec_probe] at hother
    have hnone : Binds [] [] := ⟨fun _ h => absurd h List.not_mem_nil, fun _ _ => rfl⟩
    exact evaluator_stuck hat hnone fuel (fuel + 1) _ _ _ hother

/-- **The eta template equals ordinary evaluation** exactly if no parameter hides the word `lambda` of a
lambda inside. -/
theorem eta_indistinguishable_iff (e : Expr) (target : Text) (n : ℕ)
    (he : etaTemplate e = some (target, n)) : Indistinguishable e ↔ shadows [] e = false :=
  ⟨shadows_of_indistinguishable he, indistinguishable_of_not_shadows he⟩

/-- `(lambda X (lambda Y (f X Y)))`. -/
def twoArguments : Expr :=
  .pair 0 (.symbol (ascii "lambda")) (.pair 1 (.symbol (ascii "X")) (.pair 2
    (.pair 3 (.symbol (ascii "lambda")) (.pair 4 (.symbol (ascii "Y")) (.pair 5
      (.pair 6 (.symbol (ascii "f")) (.pair 7 (.symbol (ascii "X"))
        (.pair 8 (.symbol (ascii "Y")) .nil))) .nil))) .nil))

theorem eta_indistinguishable_iff_two : Indistinguishable twoArguments ↔
    shadows [] twoArguments = false :=
  eta_indistinguishable_iff twoArguments (ascii "f") 2 rfl

/-- `(lambda lambda (lambda X (f lambda X)))`: the second `lambda` is the parameter. -/
def hiddenLambda : Expr :=
  .pair 0 (.symbol (ascii "lambda")) (.pair 1 (.symbol (ascii "lambda")) (.pair 2
    (.pair 3 (.symbol (ascii "lambda")) (.pair 4 (.symbol (ascii "X")) (.pair 5
      (.pair 6 (.symbol (ascii "f")) (.pair 7 (.symbol (ascii "lambda"))
        (.pair 8 (.symbol (ascii "X")) .nil))) .nil))) .nil))

/-- The template matches, and it is not the closure of the evaluator. -/
theorem hiddenLambda_distinguished :
    etaTemplate hiddenLambda = some (ascii "f", 2) ∧ ¬ Indistinguishable hiddenLambda := by
  have he : etaTemplate hiddenLambda = some (ascii "f", 2) := rfl
  refine ⟨he, fun hi => ?_⟩
  have hs : shadows [] hiddenLambda = true := rfl
  rw [shadows_of_indistinguishable he hi] at hs
  exact absurd hs (by simp)

end ShenRc.Eta
