import ShenRc.Interpret.Frames
import ShenRc.Interpret.Placement

/-! # Prepared bodies mean what the evaluator means

By induction on the preparation `plan_evaluate` agrees with `evaluate` at every node
(`planCompile_evaluates`), so a call of a prepared closure agrees with the evaluation of its body
(`dynamicCall_evaluates`). -/

namespace ShenRc.Interpret

open Numeral Eval

variable {m : Type → Type} {V : Type} {b : PlanBuild}

/-! ### Nodes -/

variable (H : Host m V) {run : PlanRun V}

/-- A variable of the environment outside. -/
theorem planValue_nonlocal {i : ℕ} {e : Expr} {env : Env V} (h : run.literal i = e.handle) :
    planValue H run { op := .nonlocal, a := i } env = atomicValue H e run.parent := by
  unfold planValue
  dsimp only
  rw [h]
  rcases e with _ | name | a | ⟨a, x, y⟩
  · rfl
  · rfl
  · rfl
  · rfl

variable [Monad m]

/-! ### Parts of a node -/

/-- The arguments of a node, each as `plan_evaluate` finds it. -/
theorem operands_yield {fuel base : ℕ} {env : Env V} {xs : List Expr}
    (h : ∀ j (hj : j < xs.length) tail,
      Yields (planEvaluate H run fuel (run.plan.aux (base + j)) env tail)
        (evaluate H xs[j] (run.environment env) tail)) :
    List.Forall₂ (fun a a' => ∀ t, Yields (a t) (a' t))
      ((List.range xs.length).map fun i tail =>
        planEvaluate H run fuel (run.plan.aux (base + i)) env tail)
      (operands H (run.environment env) xs) := by
  refine List.forall₂_iff_get.2 ⟨by simp [operands], fun j h1 h2 t => ?_⟩
  rw [List.length_map, List.length_range] at h1
  simpa [operands] using h j h1 t

/-- The clauses of a node, each as `plan_evaluate` finds it. -/
theorem caseList_yields {fuel base : ℕ} {env : Env V} {tail : Bool} : ∀ {n : ℕ} {xs : List Expr},
    xs.length = 2 * n →
    (∀ j (hj : j < xs.length) tail,
      Yields (planEvaluate H run fuel (run.plan.aux (base + j)) env tail)
        (evaluate H xs[j] (run.environment env) tail)) →
    List.Forall₂ (fun p p' => Yields p.1 p'.1 ∧ Yields p.2 p'.2)
      ((List.range n).map fun i =>
        (planEvaluate H run fuel (run.plan.aux (base + 2 * i)) env false,
          planEvaluate H run fuel (run.plan.aux (base + 2 * i + 1)) env tail))
      (caseList H (run.environment env) tail xs)
  | 0, [], _, _ => .nil
  | 0, _ :: _, hn, _ => absurd hn (by simp)
  | n + 1, [], hn, _ => absurd hn (by simp)
  | n + 1, [_], hn, _ => absurd hn (by rw [List.length_singleton]; omega)
  | n + 1, test :: body :: rest, hn, h => by
    have hlater : ∀ j (hj : j < rest.length) tail,
        Yields (planEvaluate H run fuel (run.plan.aux (base + 2 + j)) env tail)
          (evaluate H rest[j] (run.environment env) tail) := fun j hj tail => by
      have := h (j + 2) (by rw [List.length_cons, List.length_cons]; omega) tail
      rw [show base + 2 + j = base + (j + 2) by omega]
      exact this
    have hlength : rest.length = 2 * n := by
      rw [List.length_cons, List.length_cons] at hn
      omega
    rw [List.range_succ_eq_map, List.map_cons, List.map_map, caseList]
    refine .cons ⟨h 0 (Nat.succ_pos _) false, h 1 (Nat.succ_lt_succ (Nat.succ_pos _)) tail⟩ ?_
    refine (congrArg (fun l => List.Forall₂ _ l _) (List.map_congr_left fun i _ => ?_)).mp
      (caseList_yields hlength hlater)
    rw [Function.comp_apply, show base + 2 * i.succ = base + 2 + 2 * i by omega]

theorem setNode_nodes (b : PlanBuild) (i : ℕ) (node : PlanNode) :
    (b.setNode i node).nodes i = node := Function.update_self ..

/-- The node of a symbol has its value at once. -/
theorem planCompile_symbol {params : List Text} {fuel : ℕ} {name : Text} {scope : Scope} {depth : ℕ}
    (hf : (planCompile params fuel b (.symbol name) scope depth).1.failed = false) :
    ∃ n, fuel = n + 1 ∧ (planCompile params fuel b (.symbol name) scope depth).2 = b.nn ∧
      (((planCompile params fuel b (.symbol name) scope depth).1.nodes b.nn).op = .local_ ∨
      ((planCompile params fuel b (.symbol name) scope depth).1.nodes b.nn).op = .nonlocal) := by
  rcases fuel with _ | fuel
  · exact absurd hf (by simp [planCompile, PlanBuild.fail])
  refine ⟨fuel, rfl, ?_⟩
  unfold planCompile at hf ⊢
  by_cases hstop : b.failed = true ∨ b.nn = planLimit
  · rw [if_pos hstop] at hf
    exact absurd hf (by simp [PlanBuild.fail])
  rw [if_neg hstop]
  unfold shape
  dsimp only
  rcases planLocal params name scope depth with _ | ⟨up, slot⟩
  · dsimp only
    exact ⟨rfl, Or.inr (by rw [setNode_nodes])⟩
  · dsimp only
    exact ⟨rfl, Or.inl (by rw [setNode_nodes])⟩

/-- A value that the plan has at once. -/
theorem planEvaluate_value {fuel pc : ℕ} {env : Env V} {tail : Bool}
    (h : (run.plan.nodes pc).op = .local_ ∨ (run.plan.nodes pc).op = .nonlocal) :
    planEvaluate H run (fuel + 1) pc env tail = pure (planValue H run (run.plan.nodes pc) env) := by
  unfold planEvaluate
  dsimp only
  rcases h with h | h
  · rw [h]
  · rw [h]

variable [LawfulMonad m]

/-- A captured expression is evaluated as it is. -/
theorem fallback_evaluates (hF : FramesSucceed H) {n : ℕ} {e : Expr} {env : Env V} {tail : Bool}
    (hl : b.literals.length ≤ planLimit) (hf : (planFallback b.newNode b.nn e).1.failed = false)
    (h : Placed b.nn b.na (planFallback b.newNode b.nn e).1 run.plan)
    (hmem : run.memory e.handle = e) :
    Yields (planEvaluate H run (n + 1) (planFallback b.newNode b.nn e).2 env tail)
      (evaluate H e (run.environment env) tail) := by
  obtain ⟨hnode, hval⟩ := leaf_placed hl hf h
  have hlit : run.literal (u16 (b.newNode.literal e.handle).2) = e.handle := hval
  have hpc : (planFallback b.newNode b.nn e).2 = b.nn := rfl
  unfold planEvaluate
  rw [hpc, hnode]
  dsimp only
  rw [hlit, hmem, ← pure_bind (run.environment env) fun frame => evaluate H e frame tail]
  exact .bind (planFrames_yields H hF env) fun frame => .lift _

/-! ### One node -/

/-- What the preparation of a node can count on, when it leads to the build `c`. -/
structure NodeReady (q : ℕ) (b c B : PlanBuild) : Prop where
  literals : b.literals.length ≤ planLimit
  slots : b.na ≤ b.nn + q
  failed : c.failed = false
  limit : c.nn + q ≤ planLimit
  placed : Placed b.nn b.na c B

/-- What a node can count on for its parts `xs`, which `compile` prepares. -/
structure Below (n : ℕ) (run : PlanRun V) (env : Env V)
    (compile : PlanBuild → Expr → PlanBuild × ℕ) (xs : List Expr) : Prop where
  more : ∀ b x, (compile b x).1.failed = false → More 1 b (compile b x).1
  kept : ∀ b x, b.literals.length ≤ planLimit → Kept b.literals (compile b x).1.literals
  prepared : ∀ b x q, (compile b x).1.failed = false → b.na ≤ b.nn + q →
    (compile b x).1.nn + q ≤ planLimit →
      Prepared run.params.length b (compile b x).1 (compile b x).2 env.length
  evaluates : ∀ b x q tail, x ∈ xs → Ready q compile b x run.plan →
    Yields (planEvaluate H run n (compile b x).2 env tail) (evaluate H x (run.environment env) tail)

variable {H} {n q : ℕ} {env : Env V} {tail : Bool} {e x y z head : Expr} {xs : List Expr}
  {compile compile' : PlanBuild → Expr → PlanBuild × ℕ} {r s u : PlanBuild × ℕ}

theorem if_evaluates (hc : Below H n run env compile [x, y, z]) (hr : compile b.newNode x = r)
    (hs : compile r.1 y = s) (hu : compile s.1 z = u)
    (h : NodeReady q b
      (u.1.setNode b.nn { op := .if_, a := u16 r.2, b := u16 s.2, c := u16 u.2 }) run.plan) :
    Yields (planEvaluate H run (n + 1) b.nn env tail) (meaning H run env tail e (.if_ x y z)) := by
  obtain ⟨hlit, hslots, hf, hlimit, hplaced⟩ := h
  subst hr hs hu
  have hpre : b.newNode.na ≤ b.newNode.nn + q := by
    change b.na ≤ b.nn + 1 + q
    omega
  have m3 := hc.more _ z hf
  have m2 := hc.more _ y m3.failed
  have l2 := m3.limit hlimit
  have l1 := m2.limit l2
  have k1 := hc.kept b.newNode x hlit
  have k2 := hc.kept _ y k1.small
  have k3 := hc.kept _ z k2.small
  have hx := hc.prepared _ x q m2.failed hpre l1
  have sx := hx.surplus
  have hy := hc.prepared _ y q m3.failed (by omega) l2
  have sy := hy.surplus
  have hz := hc.prepared _ z q hf (by omega) hlimit
  obtain ⟨hnode, p3⟩ := hplaced.filled (hx.nn.trans (hy.nn.trans hz.nn))
  obtain ⟨p2, pz⟩ := p3.last hz k3 (hx.nn.trans hy.nn) (hx.na.trans hy.na)
  obtain ⟨p1, py⟩ := p2.last hy k2 hx.nn hx.na
  have ex := fun t => hc.evaluates b.newNode x q t (by simp) ⟨hlit, m2.failed, hpre, l1, p1⟩
  have ey := fun t => hc.evaluates _ y q t (by simp) ⟨k1.small, m3.failed, by omega, l2, py⟩
  have ez := fun t => hc.evaluates _ z q t (by simp) ⟨k2.small, hf, by omega, hlimit, pz⟩
  unfold planEvaluate
  rw [hnode]
  dsimp only
  rw [index_eq hx l1, index_eq hy l2, index_eq hz hlimit]
  exact .bind (ex false) fun test => branch_yields H test (ey tail) (ez tail)

theorem logic_evaluates {op : PlanOp} (hop : op = .and ∨ op = .or)
    (hc : Below H n run env compile [x, y]) (hr : compile b.newNode x = r) (hs : compile r.1 y = s)
    (h : NodeReady q b (s.1.setNode b.nn { op := op, a := u16 r.2, b := u16 s.2 }) run.plan) :
    Yields (planEvaluate H run (n + 1) b.nn env tail) (meaning H run env tail e (.logic op x y)) := by
  obtain ⟨hlit, hslots, hf, hlimit, hplaced⟩ := h
  subst hr hs
  have hpre : b.newNode.na ≤ b.newNode.nn + q := by
    change b.na ≤ b.nn + 1 + q
    omega
  have m2 := hc.more _ y hf
  have l1 := m2.limit hlimit
  have k1 := hc.kept b.newNode x hlit
  have k2 := hc.kept _ y k1.small
  have hx := hc.prepared _ x q m2.failed hpre l1
  have sx := hx.surplus
  have hy := hc.prepared _ y q hf (by omega) hlimit
  obtain ⟨hnode, p2⟩ := hplaced.filled (hx.nn.trans hy.nn)
  obtain ⟨p1, py⟩ := p2.last hy k2 hx.nn hx.na
  have ex := fun t => hc.evaluates b.newNode x q t (by simp) ⟨hlit, m2.failed, hpre, l1, p1⟩
  have ey := fun t => hc.evaluates _ y q t (by simp) ⟨k1.small, hf, by omega, hlimit, py⟩
  unfold planEvaluate
  rw [hnode]
  dsimp only
  rw [index_eq hx l1, index_eq hy hlimit]
  rcases hop with rfl | rfl
  · exact .bind (ex false) fun first => logicRest_yields H true first (ey tail)
  · exact .bind (ex false) fun first => logicRest_yields H false first (ey tail)

omit [LawfulMonad m] in
theorem type_evaluates (hc : Below H n run env compile [x]) (hr : compile b.newNode x = r)
    (h : NodeReady q b (r.1.setNode b.nn { op := .type, a := u16 r.2 }) run.plan) :
    Yields (planEvaluate H run (n + 1) b.nn env tail) (meaning H run env tail e (.type x)) := by
  obtain ⟨hlit, hslots, hf, hlimit, hplaced⟩ := h
  subst hr
  have hpre : b.newNode.na ≤ b.newNode.nn + q := by
    change b.na ≤ b.nn + 1 + q
    omega
  have hx := hc.prepared _ x q hf hpre hlimit
  obtain ⟨hnode, p1⟩ := hplaced.filled hx.nn
  have ex := fun t => hc.evaluates b.newNode x q t (by simp) ⟨hlit, hf, hpre, hlimit, p1⟩
  unfold planEvaluate
  rw [hnode]
  dsimp only
  rw [index_eq hx hlimit]
  exact ex tail

/-- The body is prepared with the new variable in scope. -/
theorem let_evaluates (hF : FramesSucceed H) {name : Text} (hc : Below H n run env compile [x])
    (hc' : ∀ v, Below H n run ((name, v) :: env) compile' [y])
    (hr : compile (b.newNode.literal (.symbol name)).1 x = r) (hs : compile' r.1 y = s)
    (h : NodeReady q b (s.1.setNode b.nn
      { op := .let_, a := u16 (b.newNode.literal (.symbol name)).2, b := u16 r.2,
        c := u16 s.2 }) run.plan) :
    Yields (planEvaluate H run (n + 1) b.nn env tail) (meaning H run env tail e (.let_ name x y)) := by
  obtain ⟨hlit, hslots, hf, hlimit, hplaced⟩ := h
  subst hr hs
  have hany := hc' (H.datum .nil)
  have hnn : (b.newNode.literal (.symbol name)).1.nn = b.nn + 1 := literal_nn b.newNode.toUsage _
  have hna : (b.newNode.literal (.symbol name)).1.na = b.na := literal_na b.newNode.toUsage _
  have m2 := hany.more _ y hf
  have m1 := hc.more _ x m2.failed
  have l1 := m2.limit hlimit
  have k0 := literal_kept (b := b.newNode) hlit (.symbol name)
  have k1 := hc.kept _ x k0.small
  have k2 := hany.kept _ y k1.small
  have hv := hc.prepared _ x q m2.failed (by omega) l1
  have sv := hv.surplus
  have hb := hany.prepared _ y q hf (by omega) hlimit
  obtain ⟨hnode, p2⟩ := hplaced.filled (hnn.ge.trans (hv.nn.trans hb.nn))
  obtain ⟨p1, pb⟩ := p2.last hb k2 (hnn.ge.trans hv.nn) (hna.ge.trans hv.na)
  have hval : run.literal (u16 (b.newNode.literal (.symbol name)).2) = .symbol name :=
    literal_found (b := b.newNode) hlit m1.failed (k1.stay.trans p1.stay)
  have ev := fun t => hc.evaluates (b.newNode.literal (.symbol name)).1 x q t (by simp)
    ⟨k0.small, m2.failed, by omega, l1, p1.mono hnn.ge hna.ge⟩
  have eb := fun v t => (hc' v).evaluates _ y q t (by simp)
    ⟨k1.small, hf, by omega, hlimit, pb⟩
  unfold planEvaluate
  rw [hnode]
  dsimp only
  rw [index_eq hv l1, index_eq hb hlimit, hval]
  refine .bind (ev false) fun v => ?_
  rw [hF.makeFrame, pure_bind]
  exact .drop (eb v tail) _

theorem cond_evaluates {count : ℕ} (hlen : xs.length = 2 * count)
    (hc : Below H n run env compile xs) (haux : b.na ≤ planLimit)
    (hroom : ¬ b.newNode.room / 2 < count)
    (h : NodeReady q b (planArgs compile
      ((b.newNode.setNode b.nn { op := .cond, a := u16 b.newNode.na, n := u16 count }).reserve
        (2 * count)) (u16 b.newNode.na) xs) run.plan) :
    Yields (planEvaluate H run (n + 1) b.nn env tail)
      (meaning H run env tail e (.cond count (some xs))) := by
  obtain ⟨hlit, hslots, hf, hlimit, hplaced⟩ := h
  have haux' : b.newNode.na ≤ planLimit := haux
  rw [u16_eq haux'] at hf hlimit hplaced
  have hcount : u16 count = count := by
    rw [room_eq haux'] at hroom
    exact u16_eq (by omega)
  have hi : b.newNode.na + xs.length ≤ b.newNode.na + 2 * count := by omega
  have hq : b.newNode.na + 2 * count + 1 ≤ b.nn + 1 + q + xs.length := by
    change b.na + 2 * count + 1 ≤ _
    omega
  have hargs := planArgs_prepared (p := q) hc.more hc.prepared xs hf hi hq hlimit
  have hready := planArgs_ready (b := (b.newNode.setNode b.nn _).reserve (2 * count)) (p := q)
    hc.more hc.prepared hc.kept xs hlit hf hi hq hlimit (hplaced.mono (Nat.le_succ _) le_rfl)
  have hnode := (hplaced.nodes b.nn le_rfl ((Nat.lt_succ_self _).trans_le hargs.nn)).trans
    ((hargs.nodes b.nn (Nat.lt_succ_self _)).trans (setNode_nodes ..))
  unfold planEvaluate
  rw [hnode]
  dsimp only
  rw [hcount]
  refine firstTrue_yields H (caseList_yields H hlen fun j hj t => ?_)
  obtain ⟨p, c, hready', hslot⟩ := hready j hj
  rw [hslot]
  exact hc.evaluates c xs[j] p t (List.getElem_mem hj) hready'

/-- The head of an application has its function at once if it is a symbol. -/
theorem call_evaluates (hc : Below H n run env compile (head :: xs)) (hxs : xs.length ≤ planLimit)
    (hsymbol : ∀ name, head = .symbol name → (compile b.newNode head).1.failed = false →
      ∃ k, n = k + 1 ∧ (compile b.newNode head).2 = b.newNode.nn ∧
        (((compile b.newNode head).1.nodes b.newNode.nn).op = .local_ ∨
          ((compile b.newNode head).1.nodes b.newNode.nn).op = .nonlocal))
    (hr : compile b.newNode head = r)
    (h : NodeReady q b (planArgs compile ((r.1.setNode b.nn
      { op := if head.isSymbol then .call else .callExpr, a := u16 r.2, b := u16 r.1.na,
        n := u16 xs.length }).reserve xs.length) (u16 r.1.na) xs) run.plan) :
    Yields (planEvaluate H run (n + 1) b.nn env tail) (meaning H run env tail e (.call head xs)) := by
  obtain ⟨hlit, hslots, hf, hlimit, hplaced⟩ := h
  have hpre : b.newNode.na ≤ b.newNode.nn + q := by
    change b.na ≤ b.nn + 1 + q
    omega
  subst hr
  have m2 := planArgs_more hc.more xs hf
  have l1 := More.limit (b := (compile b.newNode head).1) ⟨m2.failed, m2.nodes⟩ hlimit
  have k1 := hc.kept b.newNode head hlit
  have hhead := hc.prepared _ head q m2.failed hpre l1
  have heval := fun t hp1 => hc.evaluates b.newNode head q t List.mem_cons_self
    ⟨hlit, m2.failed, hpre, l1, hp1⟩
  have hvalue := fun name hname => hsymbol name hname m2.failed
  rw [u16_eq (n := xs.length) hxs] at hf hlimit hplaced
  generalize compile b.newNode head = r at *
  have hlt := hhead.sound.lt
  have hsurplus := hhead.surplus
  have hroom : r.1.na + xs.length + 1 ≤ r.1.nn + q + xs.length := by omega
  rw [u16_eq (n := r.1.na) (by omega), u16_eq (n := r.2) (by omega)] at hf hlimit hplaced
  have hargs := planArgs_prepared (p := q) hc.more hc.prepared xs hf le_rfl hroom hlimit
  have hready := planArgs_ready (b := (r.1.setNode b.nn _).reserve xs.length) (p := q)
    hc.more hc.prepared hc.kept xs k1.small hf le_rfl hroom hlimit
    (hplaced.mono (Nat.le_of_succ_le hhead.nn) hhead.na)
  obtain ⟨hnode, hp1⟩ := head_placed hhead hargs (planArgs_kept hc.kept xs _ k1.small) hplaced
  have hoperand : ∀ j (hj : j < xs.length) t,
      Yields (planEvaluate H run n (run.plan.aux (r.1.na + j)) env t)
        (evaluate H xs[j] (run.environment env) t) := fun j hj t => by
    obtain ⟨p, c, hready', hslot⟩ := hready j hj
    rw [hslot]
    exact hc.evaluates c xs[j] p t (List.mem_cons_of_mem _ (List.getElem_mem hj)) hready'
  have hoperands := operands_yield H hoperand
  unfold planEvaluate
  rw [hnode]
  by_cases hs : head.isSymbol = true
  · rw [if_pos hs]
    dsimp only
    rcases head with _ | name | a | ⟨a, x, y⟩
    · exact absurd hs (by simp [Expr.isSymbol])
    · obtain ⟨k, rfl, hid, hop⟩ := hvalue name rfl
      have hat : planEvaluate H run (k + 1) r.2 env false =
          pure (planValue H run (run.plan.nodes r.2) env) := planEvaluate_value H (by
            rw [hid, hp1.nodes _ le_rfl (hid ▸ hlt.2)]
            exact hop)
      have hfunction := heval false hp1
      rw [hat] at hfunction
      have hcall := hfunction.bind fun function => (Yields.lift (resolve H function)).bind
        fun function => application_yields H function tail hoperands
      rwa [pure_bind] at hcall
    · exact absurd hs (by simp [Expr.isSymbol])
    · exact absurd hs (by simp [Expr.isSymbol])
  · rw [if_neg hs]
    exact (heval false hp1).bind fun function => (Yields.lift _).bind fun function =>
      application_yields H function tail hoperands

/-! ### The whole plan -/

variable (H)

/-- **A node of a plan means what its expression means.** The induction is on the depth that is left
to the preparation. -/
theorem planCompile_evaluates (hF : FramesSucceed H) (hr : Fits run) (fuel : ℕ) {b : PlanBuild}
    (e : Expr) (env : Env V) {p n : ℕ} (tail : Bool) (hs : Stored run.memory e)
    (h : Ready p (fun b e => planCompile run.params fuel b e (scopeOf (env.map Prod.fst)) env.length)
      b e run.plan) (hd : env.length + fuel ≤ planDepth) (hn : fuel ≤ n) :
    Yields (planEvaluate H run n
      (planCompile run.params fuel b e (scopeOf (env.map Prod.fst)) env.length).2 env tail)
      (evaluate H e (run.environment env) tail) := by
  induction fuel generalizing b e env p n tail with
  | zero => exact absurd h.failed (by simp [planCompile, PlanBuild.fail])
  | succ fuel ih =>
    obtain ⟨hlit, hf, hpre, hlimit, hplaced⟩ := h
    rcases n with _ | n
    · exact absurd hn (by omega)
    have hparts : ∀ x ∈ parts (shape run.params (scopeOf (env.map Prod.fst)) env.length e),
        Stored run.memory x := hs.parts
    have hmean := evaluate_eq_meaning H hr (by omega : env.length ≤ planDepth) e tail
    have hcall : ∀ head args,
        shape run.params (scopeOf (env.map Prod.fst)) env.length e = .call head args →
          args.length ≤ planLimit := fun _ _ => shape_call
    have hcond : ∀ count xs,
        shape run.params (scopeOf (env.map Prod.fst)) env.length e = .cond count (some xs) →
          xs.length = 2 * count := fun _ _ => shape_cond
    have hlogic : ∀ op x y,
        shape run.params (scopeOf (env.map Prod.fst)) env.length e = .logic op x y →
          op = .and ∨ op = .or := fun _ _ _ => shape_logic
    have hmem : shape run.params (scopeOf (env.map Prod.fst)) env.length e ≠ .literal →
        (∀ up slot, shape run.params (scopeOf (env.map Prod.fst)) env.length e ≠ .local_ up slot) →
        shape run.params (scopeOf (env.map Prod.fst)) env.length e ≠ .nonlocal →
          run.memory e.handle = e := hs.memory_handle
    have haux : b.newNode.na ≤ planLimit := by
      have htaken := (planCompile_more run.params (fuel + 1) e _ _ hf).nodes
      change b.na ≤ planLimit
      omega
    unfold planCompile at hf hlimit hplaced ⊢
    by_cases hstop : b.failed = true ∨ b.nn = planLimit
    · rw [if_pos hstop] at hf
      exact absurd hf (by simp [PlanBuild.fail])
    rw [if_neg hstop] at hf hlimit hplaced ⊢
    dsimp only at hf hlimit hplaced ⊢
    rw [checkRoom_eq haux] at hf hlimit hplaced ⊢
    generalize shape run.params (scopeOf (env.map Prod.fst)) env.length e = form at *
    have hn' : fuel ≤ n := by omega
    -- The parts of the node are prepared with less fuel, by the induction.
    have hbelow : ∀ (env' : Env V) (xs : List Expr), env'.length + fuel ≤ planDepth →
        (∀ x ∈ xs, Stored run.memory x) → Below H n run env' (fun c x =>
          planCompile run.params fuel c x (scopeOf (env'.map Prod.fst)) env'.length) xs :=
      fun env' xs hd' hstored =>
        { more := fun c x => planCompile_more run.params fuel (b := c) x _ _
          kept := fun c x => planCompile_kept run.params fuel (b := c) x _ _
          prepared := fun c x q => planCompile_prepared (b := c) run.params fuel x _ _ q
            (scopeOf_range (List.length_map _))
          evaluates := fun c x q t hx hready => ih (b := c) x env' t (hstored x hx) hready hd' hn' }
    have hd' : env.length + fuel ≤ planDepth := by omega
    rw [hmean]
    cases form with
    | literal =>
      obtain ⟨hnode, hval⟩ := leaf_placed hlit hf hplaced
      unfold planEvaluate
      rw [hnode]
      exact .of_eq (congrArg H.datum hval)
    | local_ up slot =>
      have hnode := (hplaced.filled (Nat.lt_succ_self _)).1
      unfold planEvaluate
      rw [hnode]
      exact .pure _
    | nonlocal =>
      obtain ⟨hnode, hval⟩ := leaf_placed hlit hf hplaced
      unfold planEvaluate
      rw [hnode]
      exact .of_eq (planValue_nonlocal H hval)
    | if_ x y z =>
      exact if_evaluates (hbelow env [x, y, z] hd' hparts) rfl rfl rfl
        ⟨hlit, hpre, hf, hlimit, hplaced⟩
    | let_ name value body =>
      have hbody : ∀ v, Below H n run ((name, v) :: env)
          (fun c x => planCompile run.params fuel c x
            ((name, env.length + 1) :: scopeOf (env.map Prod.fst)) (env.length + 1)) [body] := by
        intro v
        have hbody := hbelow ((name, v) :: env) [body] (by rw [List.length_cons]; omega)
          fun x hx => hparts x (List.mem_cons_of_mem _ hx)
        rw [scopeOf_cons] at hbody
        exact hbody
      have hvalue := hbelow env [value] hd' fun x hx => hparts x (by
        rw [List.mem_singleton.mp hx]
        exact List.mem_cons_self)
      exact let_evaluates hF hvalue hbody rfl rfl ⟨hlit, hpre, hf, hlimit, hplaced⟩
    | cond count clauses =>
      dsimp only at hf hlimit hplaced ⊢
      have hmem' := hmem (by simp) (by simp) (by simp)
      by_cases hfull : b.newNode.room / 2 < count
      · rw [if_pos hfull] at hf hplaced ⊢
        rw [← hmean]
        exact fallback_evaluates H hF hlit hf hplaced hmem'
      rw [if_neg hfull] at hf hlimit hplaced ⊢
      rcases clauses with _ | xs
      · exact fallback_evaluates H hF hlit hf hplaced hmem'
      · exact cond_evaluates (hcond count xs rfl) (hbelow env xs hd' hparts) haux hfull
          ⟨hlit, hpre, hf, hlimit, hplaced⟩
    | logic op x y =>
      exact logic_evaluates (hlogic op x y rfl) (hbelow env [x, y] hd' hparts) rfl rfl
        ⟨hlit, hpre, hf, hlimit, hplaced⟩
    | type x =>
      exact type_evaluates (hbelow env [x] hd' hparts) rfl ⟨hlit, hpre, hf, hlimit, hplaced⟩
    | quote x =>
      obtain ⟨hnode, hval⟩ := leaf_placed hlit hf hplaced
      unfold planEvaluate
      rw [hnode]
      exact .of_eq (congrArg H.datum hval)
    | call head args =>
      dsimp only at hf hlimit hplaced ⊢
      by_cases hfull : b.newNode.room < args.length
      · rw [if_pos hfull] at hf hplaced ⊢
        rw [← hmean]
        exact fallback_evaluates H hF hlit hf hplaced (hmem (by simp) (by simp) (by simp))
      rw [if_neg hfull] at hf hlimit hplaced ⊢
      refine call_evaluates (hbelow env (head :: args) hd' hparts) (hcall head args rfl) ?_ rfl
        ⟨hlit, hpre, hf, hlimit, hplaced⟩
      rintro name rfl hfailed
      obtain ⟨k, hk, hid, hop⟩ := planCompile_symbol hfailed
      exact ⟨n - 1, by omega, hid, hop⟩
    | fallback => exact fallback_evaluates H hF hlit hf hplaced (hmem (by simp) (by simp) (by simp))

/-- **A prepared body means what the evaluator means.** -/
theorem planPrepare_evaluates (hF : FramesSucceed H) {memory : Handle → Expr}
    {closure : Closure V} {argv : List V} {plan : PlanBuild × ℕ} {fuel : ℕ}
    (hplan : planPrepare closure.params closure.body = some plan)
    (henv : planEnvironment closure.env = true) (hargv : argv.length = closure.params.length)
    (hs : Stored memory closure.body) (hfuel : planDepth ≤ fuel) (tail : Bool) :
    Yields (planEvaluate H ⟨plan.1, memory, closure.env, closure.params, argv⟩ fuel plan.2 [] tail)
      (evaluate H closure.body (envFrame closure.env closure.params argv) tail) := by
  unfold planPrepare at hplan
  split at hplan
  swap
  · exact absurd hplan (by simp)
  rename_i a head args hbody
  split_ifs at hplan with hsmall
  dsimp only at hplan
  split_ifs at hplan with hdone
  obtain rfl := Option.some.inj hplan
  rw [not_or, Bool.not_eq_true] at hdone
  rw [hbody] at hs ⊢
  exact planCompile_evaluates H hF ⟨closure.distinct, hargv, Nat.le_of_not_lt hsmall, henv⟩ planDepth
    (.pair a head args) [] (p := 0) tail hs ⟨Nat.zero_le _, hdone.1, le_rfl,
    planCompile_nn closure.params planDepth _ [] 0 (Nat.zero_le planLimit),
    ⟨⟨le_rfl, le_rfl, le_rfl, fun _ _ _ => rfl, fun _ _ _ => rfl⟩, List.prefix_rfl⟩⟩ le_rfl hfuel

/-- A runtime without functions, where the booleans are the cells 0 and 1. -/
def bare : Host (Except Text) Handle where
  datum := id
  symbolName
    | .symbol name => some name
    | _ => none
  symbolName_datum _ := rfl
  isBoolean v := v = .cell 0 ∨ v = .cell 1
  isTrue v := v = .cell 1
  error := .error
  null := .error []
  hasError := pure false
  functionGet name := .error (ascii "undefined function: " ++ name)
  returnsSecond _ := pure false
  belongs _ := true
  newFrame _ := pure ()
  valuesBelong _ _ := true
  dispatch _ _ _ := .error (ascii "apply: not a function")
  requireArgumentContext := pure
  requireBoolean v := if v = .cell 0 ∨ v = .cell 1 then pure v
    else .error (ascii "eval-kl: boolean arguments required")
  safepoint := pure ()
  trap first handler :=
    match first with
    | .ok v => .ok v
    | .error _ => handler .nil
  tailcall _ _ := .error (ascii "apply: not a function")
  apply _ _ := .error (ascii "apply: not a function")
  closure _ := pure (.cell 2)
  define _ _ _ := pure ()

/-- `(lambda Y (if X Y (quote 7)))`, where `X` is true. -/
def choice : Closure Handle where
  params := [ascii "Y"]
  body := .pair 10 (.symbol (ascii "if")) (.pair 11 (.symbol (ascii "X"))
    (.pair 12 (.symbol (ascii "Y")) (.pair 13 (.pair 14 (.symbol (ascii "quote"))
      (.pair 15 (.atom 7) .nil)) .nil)))
  env := [(ascii "X", .cell 1)]
  distinct := List.nodup_singleton _

/-- The pair at an address, within an expression. -/
def pairAt : Expr → Handle → Expr
  | .pair a head tail, v =>
    if v = .cell a then .pair a head tail
    else
      match pairAt head v with
      | .nil => pairAt tail v
      | e => e
  | _, _ => .nil

/-- A runtime where functions return a value of another context. -/
def foreign : Host (Except Text) Handle :=
  { bare with
    functionGet := fun _ => pure (.cell 2)
    belongs := fun v => v ≠ .cell 3
    dispatch := fun _ _ _ => pure (.cell 3) }

/-- `(freeze (let X (out) 7))`. -/
def ignoring : Closure Handle where
  params := []
  body := .pair 10 (.symbol (ascii "let")) (.pair 11 (.symbol (ascii "X"))
    (.pair 12 (.pair 13 (.symbol (ascii "out")) .nil) (.pair 14 (.atom 7) .nil)))
  env := []
  distinct := List.nodup_nil

/-- A plan binds the value of another context, which no frame is made for. -/
example :
    dynamicCall foreign (pairAt ignoring.body) true ignoring [] = .ok (.cell 7) ∧
      dynamicCall foreign (pairAt ignoring.body) false ignoring [] =
        .error (ascii "invalid evaluator frame binding/context") := by
  constructor <;> rfl

end ShenRc.Interpret
