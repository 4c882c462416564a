import ShenRc.Interpret.Evaluate

/-! # What the shape of an expression means

`plan_compile` decides on the shape of an expression before anything is evaluated. `evaluate` comes to
the same decisions when it runs, as long as no name that is bound outside is that of a special form:
`evaluate_eq_meaning` gives the evaluation in terms of the shape. -/

namespace ShenRc.Interpret

open Numeral Eval

variable {m : Type → Type} {V : Type} {env parent : Env V} {params : List Text} {argv : List V}

/-! ### Classes of names -/

theorem keyClass_ne_zero (name : Text) : keyClass name ≠ 0 := by
  unfold keyClass
  split
  · decide
  · split_ifs <;> decide

theorem keyClass_of_mem {k : ℕ} (h : keyClasses env &&& k = 0) {p : Text × V} (hp : p ∈ env) :
    keyClass p.1 &&& k = 0 := by
  induction env with
  | nil => exact absurd hp List.not_mem_nil
  | cons q env ih =>
    rw [keyClasses, List.foldr_cons, Nat.and_or_distrib_right, Nat.or_eq_zero_iff] at h
    rcases List.mem_cons.mp hp with rfl | hp
    · exact h.2
    · exact ih h.1 hp

/-- **The classes hide no binding.** -/
theorem envLookup_eq (env : Env V) (name : Text) :
    envLookup env name = (env.find? fun p => p.1 = name).map (·.2) := by
  unfold envLookup
  split_ifs with h
  · symm
    rw [Option.map_eq_none_iff, List.find?_eq_none]
    intro p hp hname
    have hclass := keyClass_of_mem h hp
    rw [of_decide_eq_true hname, Nat.and_self] at hclass
    exact keyClass_ne_zero name hclass
  · rfl

/-! ### Bindings -/

/-- The scope of the preparation where these names are bound, the innermost first. -/
def scopeOf : List Text → Scope
  | [] => []
  | name :: names => (name, names.length + 1) :: scopeOf names

theorem scopeOf_find?_none {name : Text} (env : Env V)
    (h : (scopeOf (env.map Prod.fst)).find? (fun p => p.1 = name) = none) :
    env.find? (fun p => p.1 = name) = none := by
  induction env with
  | nil => rfl
  | cons p env ih =>
    rw [List.map_cons, scopeOf, List.find?_cons] at h
    rw [List.find?_cons]
    by_cases hp : p.1 = name
    · rw [decide_eq_true hp] at h
      exact absurd h (by simp)
    · rw [decide_eq_false hp] at h ⊢
      exact ih h

/-- **A binder is as many frames up as there are binders inside it.** -/
theorem scopeOf_find?_some {name : Text} {q : Text × ℕ} (env : Env V)
    (h : (scopeOf (env.map Prod.fst)).find? (fun p => p.1 = name) = some q) :
    1 ≤ q.2 ∧ q.2 ≤ env.length ∧ ∃ p rest, env.drop (env.length - q.2) = p :: rest ∧
      env.find? (fun p => p.1 = name) = some p := by
  induction env with
  | nil => exact absurd h (by simp [scopeOf])
  | cons p env ih =>
    rw [List.map_cons, scopeOf, List.find?_cons] at h
    rw [List.find?_cons, List.length_cons]
    by_cases hp : p.1 = name
    · rw [decide_eq_true hp] at h ⊢
      obtain rfl := Option.some.inj h
      rw [List.length_map]
      exact ⟨by omega, le_rfl, p, env, by simp, rfl⟩
    · rw [decide_eq_false hp] at h ⊢
      obtain ⟨h1, h2, p', rest, hdrop, hfind⟩ := ih h
      refine ⟨h1, by omega, p', rest, ?_, hfind⟩
      rw [show env.length + 1 - q.2 = env.length - q.2 + 1 by omega, List.drop_succ_cons, hdrop]

/-- The last binding of a name is the first one where the names are distinct. -/
theorem find?_reverse_of_nodup {name : Text} {ps : Env V} (h : (ps.map Prod.fst).Nodup) :
    ps.reverse.find? (fun p => p.1 = name) = ps.find? fun p => p.1 = name := by
  induction ps with
  | nil => rfl
  | cons p ps ih =>
    obtain ⟨hnot, hnodup⟩ := List.nodup_cons.mp h
    rw [List.reverse_cons, List.find?_append, ih hnodup, List.find?_cons (a := p)]
    by_cases hp : p.1 = name
    · have hnone : ps.find? (fun p => p.1 = name) = none := by
        refine List.find?_eq_none.mpr fun q hq hqn => hnot ?_
        rw [hp, ← of_decide_eq_true hqn]
        exact List.mem_map_of_mem hq
      rw [hnone, decide_eq_true hp, List.find?_cons, decide_eq_true hp]
      rfl
    · rw [decide_eq_false hp, List.find?_cons, decide_eq_false hp]
      simp

theorem zip_find? {name : Text} : ∀ {params : List Text} {argv : List V} (d : V),
    argv.length = params.length → (name ∈ params →
      ((params.zip argv).find? fun p => p.1 = name) =
        some (name, argv.getD (params.idxOf name) d)) ∧
      (name ∉ params → ((params.zip argv).find? fun p => p.1 = name) = none)
  | [], _, _, _ => ⟨fun h => absurd h List.not_mem_nil, fun _ => rfl⟩
  | param :: params, [], _, h => absurd h (by simp)
  | param :: params, v :: argv, d, h => by
    have ih := @zip_find? name params argv d (Nat.succ.inj h)
    rw [List.zip_cons_cons, List.find?_cons]
    by_cases hp : param = name
    · subst hp
      simp
    · have hidx : (param :: params).idxOf name = params.idxOf name + 1 := List.idxOf_cons_ne _ hp
      rw [decide_eq_false hp, hidx, List.getD_cons_succ]
      refine ⟨fun hm => ih.1 ((List.mem_cons.mp hm).resolve_left (Ne.symm hp)), fun hm => ih.2 ?_⟩
      exact fun hm' => hm (List.mem_cons_of_mem _ hm')

/-- What a call of a prepared closure can count on. -/
structure Fits (run : PlanRun V) : Prop where
  distinct : run.params.Nodup
  arguments : run.argv.length = run.params.length
  small : run.params.length ≤ planLimit
  plain : planEnvironment run.parent = true

namespace Fits

variable {run : PlanRun V} {name : Text} {up slot : ℕ}

theorem frame_find? (h : Fits run) (d : V) :
    (name ∈ run.params → (run.params.zip run.argv).reverse.find? (fun p => p.1 = name) =
      some (name, run.argv.getD (run.params.idxOf name) d)) ∧
    (name ∉ run.params →
      (run.params.zip run.argv).reverse.find? (fun p => p.1 = name) = none) := by
  have hkeys : ((run.params.zip run.argv).map Prod.fst) = run.params :=
    List.map_fst_zip h.arguments.ge
  rw [find?_reverse_of_nodup (by rw [hkeys]; exact h.distinct)]
  exact zip_find? d h.arguments

/-- **A local variable has the value the plan finds for it.** -/
theorem lookup_local (h : Fits run) (hd : env.length ≤ planDepth) (d : V)
    (hl : planLocal run.params name (scopeOf (env.map Prod.fst)) env.length = some (up, slot)) :
    envLookup (run.environment env) name = some (match env.drop up with
      | p :: _ => p.2
      | [] => run.argv.getD slot d) := by
  have hu16 : ∀ n ≤ planLimit, u16 n = n := fun n hn => Nat.mod_eq_of_lt (hn.trans_lt (by decide))
  unfold planLocal at hl
  rw [envLookup_eq, PlanRun.environment, envFrame, List.find?_append, List.find?_append]
  split at hl
  · rename_i q hq
    obtain ⟨h1, h2, p, rest, hdrop, hfind⟩ := scopeOf_find?_some env hq
    obtain ⟨rfl, -⟩ := Prod.mk.inj (Option.some.inj hl)
    rw [hu16 _ ((Nat.sub_le _ _).trans (hd.trans (by decide))), hdrop, hfind]
    rfl
  · rename_i hnone
    split_ifs at hl with hmem
    obtain ⟨rfl, rfl⟩ := Prod.mk.inj (Option.some.inj hl)
    rw [scopeOf_find?_none env hnone, (h.frame_find? d).1 hmem, hu16 _ (hd.trans (by decide)),
      hu16 _ (List.idxOf_le_length.trans h.small), List.drop_length]
    rfl

/-- **Any other name is looked up outside.** -/
theorem lookup_nonlocal (h : Fits run)
    (hl : planLocal run.params name (scopeOf (env.map Prod.fst)) env.length = none) :
    envLookup (run.environment env) name = envLookup run.parent name := by
  unfold planLocal at hl
  rw [envLookup_eq, PlanRun.environment, envFrame, List.find?_append, List.find?_append]
  split at hl
  · exact absurd hl (by simp)
  · rename_i hnone
    split_ifs at hl with hmem
    rw [scopeOf_find?_none env hnone]
    rcases hfind : (run.params.zip run.argv).reverse.find? (fun p => decide (p.1 = name)) with _ | p
    · rw [hfind, envLookup_eq]
      rfl
    · have hd := (h.frame_find? p.2).2 hmem
      rw [hfind] at hd
      exact absurd hd (by simp)

end Fits

/-! ### Special forms -/

theorem keyClass_of_takeWhile {p : UInt8 → Bool} {name s : Text} (h : name.takeWhile p = s)
    (hs : keyClass s = 2) : keyClass name = 2 := by
  subst h
  rcases name with _ | ⟨b, name⟩
  · exact hs
  · rw [List.takeWhile_cons] at hs
    split_ifs at hs
    · exact hs
    · exact absurd hs (by decide)

/-- **The name of a special form begins with a small letter.** -/
theorem formOf_of_keyClass {name : Text} (h : keyClass name ≠ 2) : formOf (.symbol name) = .call := by
  have hne : ∀ {s : String}, keyClass (ascii s) = 2 → name.takeWhile (· ≠ 0) ≠ ascii s :=
    fun hs he => h (keyClass_of_takeWhile he hs)
  unfold formOf
  dsimp only
  rw [if_neg (hne (by decide)), if_neg (hne (by decide)), if_neg (hne (by decide)),
    if_neg (hne (by decide)), if_neg (not_or.mpr ⟨hne (by decide), hne (by decide)⟩),
    if_neg (hne (by decide)), if_neg (hne (by decide)), if_neg (hne (by decide)),
    if_neg (hne (by decide)), if_neg (hne (by decide)), if_neg (hne (by decide))]

/-- **A special form is not bound outside.** -/
theorem lookup_special {name : Text} (hp : planEnvironment parent = true)
    (h : formOf (.symbol name) ≠ .call) : envLookup parent name = none := by
  have hclass : keyClass name = 2 := by
    by_contra hclass
    exact h (formOf_of_keyClass hclass)
  unfold envLookup
  rw [hclass, if_pos (of_decide_eq_true hp)]

/-- The head of a special form is not bound, and a head that is bound makes an application. -/
theorem headForm_spec {run : PlanRun V} (hr : Fits run) (hd : env.length ≤ planDepth) (d : V)
    (head : Expr) :
    (lexicalHead head (run.environment env) = none ∧
      formOf head = headForm run.params (scopeOf (env.map Prod.fst)) env.length head) ∨
    (∃ v, lexicalHead head (run.environment env) = some v) ∧
      headForm run.params (scopeOf (env.map Prod.fst)) env.length head = .call := by
  rcases head with _ | name | a | ⟨a, x, y⟩
  · exact Or.inl ⟨rfl, rfl⟩
  · have hhead : headForm run.params (scopeOf (env.map Prod.fst)) env.length (.symbol name) =
        if (planLocal run.params name (scopeOf (env.map Prod.fst)) env.length).isSome = true then .call
        else formOf (.symbol name) := rfl
    have hlex : lexicalHead (.symbol name) (run.environment env) =
      envLookup (run.environment env) name := rfl
    rw [hhead, hlex]
    rcases hl : planLocal run.params name (scopeOf (env.map Prod.fst)) env.length with _ | ⟨up, slot⟩
    · rw [hr.lookup_nonlocal hl, if_neg (by decide)]
      rcases hv : envLookup run.parent name with _ | v
      · exact Or.inl ⟨rfl, rfl⟩
      · refine Or.inr ⟨⟨v, rfl⟩, ?_⟩
        by_contra hform
        rw [lookup_special hr.plain hform] at hv
        exact absurd hv (by simp)
    · rw [hr.lookup_local hd d hl]
      exact Or.inr ⟨⟨_, rfl⟩, if_pos rfl⟩
  · exact Or.inl ⟨rfl, rfl⟩
  · exact Or.inl ⟨rfl, rfl⟩

/-! ### Shapes -/

variable (H : Host m V)

/-- **A symbol has the value the plan finds for it.** -/
theorem atomicValue_symbol {run : PlanRun V} (hr : Fits run) (hd : env.length ≤ planDepth)
    (name : Text) : atomicValue H (.symbol name) (run.environment env) =
      match planLocal run.params name (scopeOf (env.map Prod.fst)) env.length with
      | some (up, slot) =>
        match env.drop up with
        | p :: _ => p.2
        | [] => run.argv.getD slot (H.datum .nil)
      | none => atomicValue H (.symbol name) run.parent := by
  have hlex : ∀ e : Env V, atomicValue H (.symbol name) e =
    (envLookup e name).getD (H.datum (.symbol name)) := fun _ => rfl
  rcases hl : planLocal run.params name (scopeOf (env.map Prod.fst)) env.length with _ | ⟨up, slot⟩
  · rw [hlex, hr.lookup_nonlocal hl]
    rfl
  · rw [hlex, hr.lookup_local hd (H.datum .nil) hl]
    rfl

variable [Monad m]

/-- The operands of an application and the like, evaluated when their turn comes. -/
def operands (env : Env V) (xs : List Expr) : List (Bool → m V) :=
  xs.map fun x tail => evaluate H x env tail

/-- The clauses of a `cond`, from the tests and the bodies one after the other. -/
def caseList (env : Env V) (tail : Bool) : List Expr → List (m V × m V)
  | test :: body :: rest =>
    (evaluate H test env false, evaluate H body env tail) :: caseList env tail rest
  | _ => []

/-- What an expression means, from its shape. -/
def meaning (run : PlanRun V) (env : Env V) (tail : Bool) (e : Expr) : Shape → m V
  | .literal => pure (H.datum e.handle)
  | .local_ up slot =>
    pure (match env.drop up with
      | p :: _ => p.2
      | [] => run.argv.getD slot (H.datum .nil))
  | .nonlocal => pure (atomicValue H e run.parent)
  | .if_ x y z => do
    branch H (← evaluate H x (run.environment env) false) (evaluate H y (run.environment env) tail)
      (evaluate H z (run.environment env) tail)
  | .let_ name value body => do
    let bound ← evaluate H value (run.environment env) false
    let inner ← makeFrame H (run.environment env) [name] [bound]
    evaluate H body inner tail
  | .cond _ (some xs) => firstTrue H (caseList H (run.environment env) tail xs)
  | .logic op x y => do
    logicRest H (op = .and) (← evaluate H x (run.environment env) false)
      (evaluate H y (run.environment env) tail)
  | .type x => evaluate H x (run.environment env) tail
  | .quote x => pure (H.datum x.handle)
  | .call head args => do
    let function ← evaluate H head (run.environment env) false
    application H (← resolve H function) (operands H (run.environment env) args) tail
  | _ => evaluate H e (run.environment env) tail

theorem arguments_eq {args : Expr} {xs : List Expr} (h : args.list? = some xs) (env : Env V) :
    arguments H args env = operands H env xs := by
  induction args generalizing xs with
  | nil =>
    obtain rfl := Option.some.inj h
    rfl
  | symbol name => exact absurd h (by simp [Expr.list?])
  | atom a => exact absurd h (by simp [Expr.list?])
  | pair a x rest _ ih =>
    obtain ⟨ys, hys, rfl⟩ := Option.map_eq_some_iff.mp h
    rw [arguments, ih hys]
    rfl

theorem list?_nil {e : Expr} (h : e.list? = some []) : e = .nil := by
  rcases e with _ | name | a | ⟨a, x, y⟩
  · rfl
  · exact absurd h (by simp [Expr.list?])
  · exact absurd h (by simp [Expr.list?])
  · obtain ⟨ys, -, hys⟩ := Option.map_eq_some_iff.mp h
    exact absurd hys (by simp)

theorem list?_cons {e x : Expr} {xs : List Expr} (h : e.list? = some (x :: xs)) :
    ∃ a rest, e = .pair a x rest ∧ rest.list? = some xs := by
  rcases e with _ | name | a | ⟨a, y, rest⟩
  · exact absurd h (by simp [Expr.list?])
  · exact absurd h (by simp [Expr.list?])
  · exact absurd h (by simp [Expr.list?])
  · obtain ⟨ys, hys, he⟩ := Option.map_eq_some_iff.mp h
    obtain ⟨rfl, rfl⟩ := List.cons.inj he
    exact ⟨a, rest, rfl, hys⟩

theorem list?_one {e x : Expr} (h : e.list? = some [x]) : ∃ a, e = .pair a x .nil := by
  obtain ⟨a, rest, rfl, hr⟩ := list?_cons h
  rw [list?_nil hr]
  exact ⟨a, rfl⟩

theorem list?_two {e x y : Expr} (h : e.list? = some [x, y]) :
    ∃ a b, e = .pair a x (.pair b y .nil) := by
  obtain ⟨a, rest, rfl, hr⟩ := list?_cons h
  obtain ⟨b, rfl⟩ := list?_one hr
  exact ⟨a, b, rfl⟩

theorem list?_three {e x y z : Expr} (h : e.list? = some [x, y, z]) :
    ∃ a b c, e = .pair a x (.pair b y (.pair c z .nil)) := by
  obtain ⟨a, rest, rfl, hr⟩ := list?_cons h
  obtain ⟨b, c, rfl⟩ := list?_two hr
  exact ⟨a, b, c, rfl⟩

/-- **Clauses that are all well formed are tried one after the other.** -/
theorem evaluateCases_eq {args : Expr} {cs xs : List Expr} (h : args.list? = some cs)
    (hc : clauses? cs = some xs) (env : Env V) (tail : Bool) :
    evaluateCases H args env tail = firstTrue H (caseList H env tail xs) := by
  induction cs generalizing args xs with
  | nil =>
    obtain rfl := Option.some.inj hc
    rw [list?_nil h]
    rfl
  | cons clause cs ih =>
    obtain ⟨a, rest, rfl, hrest⟩ := list?_cons h
    unfold clauses? at hc
    split at hc
    · rename_i test body hclause
      obtain ⟨ys, hys, rfl⟩ := Option.map_eq_some_iff.mp hc
      obtain ⟨b, c, rfl⟩ := list?_two hclause
      rw [evaluateCases, ih hrest hys]
      rfl
    · exact absurd hc (by simp)

theorem evaluate_symbol (name : Text) (env : Env V) (tail : Bool) :
    evaluate H (.symbol name) env tail = pure (atomicValue H (.symbol name) env) := by
  rw [evaluate]
  exact fun _ _ _ h => Expr.noConfusion h

/-- **The shape decides as the evaluation does.** -/
theorem evaluate_eq_meaning [LawfulMonad m] {run : PlanRun V} (hr : Fits run)
    (hd : env.length ≤ planDepth) (e : Expr) (tail : Bool) :
    evaluate H e (run.environment env) tail =
      meaning H run env tail e (shape run.params (scopeOf (env.map Prod.fst)) env.length e) := by
  rcases e with _ | name | a | ⟨a, head, args⟩
  · rw [evaluate] <;> simp [shape, meaning, atomicValue, lexicalHead]
  · rw [evaluate_symbol, atomicValue_symbol H hr hd, shape]
    rcases planLocal run.params name (scopeOf (env.map Prod.fst)) env.length with _ | ⟨up, slot⟩
    · rfl
    · rfl
  · rw [evaluate] <;> simp [shape, meaning, atomicValue, lexicalHead]
  · rw [shape]
    rcases hxs : args.list? with _ | xs
    · rfl
    dsimp only
    split_ifs with hlong
    · rfl
    rcases headForm_spec hr hd (H.datum .nil) head with ⟨hnone, hform⟩ | ⟨⟨v, hv⟩, hform⟩
    · rw [← hform]
      split
      case h_1 hf =>
        obtain ⟨b, c, d, rfl⟩ := list?_three hxs
        unfold evaluate
        rw [hxs, hnone, hf]
        rfl
      case h_2 hf =>
        obtain ⟨b, c, d, rfl⟩ := list?_three hxs
        unfold evaluate
        rw [hxs, hnone, hf]
        rfl
      case h_3 xs _ _ hf =>
        rcases hc : clauses? xs with _ | ys
        · rfl
        · unfold evaluate
          rw [hxs, hnone, hf]
          exact evaluateCases_eq H hxs hc _ tail
      case h_4 hf =>
        obtain ⟨b, c, rfl⟩ := list?_two hxs
        unfold evaluate
        rw [hxs, hnone, hf]
        rfl
      case h_5 hf =>
        obtain ⟨b, c, rfl⟩ := list?_two hxs
        unfold evaluate
        rw [hxs, hnone, hf]
        rfl
      case h_6 hf =>
        obtain ⟨b, c, rfl⟩ := list?_two hxs
        unfold evaluate
        rw [hxs, hnone, hf]
        rfl
      case h_7 hf =>
        obtain ⟨b, rfl⟩ := list?_one hxs
        unfold evaluate
        rw [hxs, hnone, hf]
        rfl
      case h_8 hf =>
        unfold evaluate
        rw [hxs, hnone, hf]
        dsimp only [meaning]
        rw [arguments_eq H hxs]
        split
        · rename_i name
          have hdatum : atomicValue H (.symbol name) (run.environment env) =
              H.datum (.symbol name) := by
            rw [atomicValue, hnone]
            rfl
          rw [evaluate_symbol, pure_bind, hdatum, resolve, H.symbolName_datum]
        · rfl
      case h_9 => rfl
    · rw [hform]
      unfold evaluate
      rw [hxs]
      dsimp only [meaning]
      rw [hv, arguments_eq H hxs]
      rcases head with _ | name | b | ⟨b, x, y⟩
      · exact absurd hv (by simp [lexicalHead])
      · rw [evaluate_symbol, pure_bind, atomicValue, hv]
        rfl
      · exact absurd hv (by simp [lexicalHead])
      · exact absurd hv (by simp [lexicalHead])

end ShenRc.Interpret
