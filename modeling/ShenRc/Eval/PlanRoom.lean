import ShenRc.Eval.Plan

/-! # The room in the tables

`layout` counts what the preparation of an expression takes of the tables, without the tables, and
says whether the arguments of every application still fit once its head has been prepared. The
source tests the room for the arguments before it prepares the head. So the preparation writes beyond
a table exactly if `layout` says no (`planCompile_follows`). -/

namespace ShenRc.Eval

open Numeral

/-! ### Counting -/

/-- The usage after a list of expressions, and whether everything fits. -/
def layoutArgs (f : Usage → Expr → Usage × Bool) : Usage → List Expr → Usage × Bool
  | u, [] => (u, true)
  | u, x :: xs =>
    let r := f u x
    let s := layoutArgs f r.1 xs
    (s.1, r.2 && s.2)

/-- The usage after an expression, and whether the arguments of every application fit into the slots
that its head has left. -/
def layout (params : List Text) : ℕ → Usage → Expr → Scope → ℕ → Usage × Bool
  | 0, u, _, _, _ => (u.fail, true)
  | fuel + 1, u, e, scope, depth =>
    if u.failed = true ∨ u.nn = planLimit then (u.fail, true)
    else
      let u := { u with nn := u.nn + 1 }
      match shape params scope depth e with
      | .literal => ((u.literal e.handle).1, true)
      | .local_ _ _ => (u, true)
      | .nonlocal => ((u.literal e.handle).1, true)
      | .if_ x y z => layoutArgs (fun u x => layout params fuel u x scope depth) u [x, y, z]
      | .let_ name value body =>
        let r := layout params fuel (u.literal (.symbol name)).1 value scope depth
        let s := layout params fuel r.1 body ((name, depth + 1) :: scope) (depth + 1)
        (s.1, r.2 && s.2)
      | .cond count clauses =>
        if (planLimit - u.na) / 2 < count then ((u.literal e.handle).1, true)
        else
          match clauses with
          | none => ((u.literal e.handle).1, true)
          | some xs =>
            layoutArgs (fun u x => layout params fuel u x scope depth)
              { u with na := u.na + 2 * count } xs
      | .logic _ x y => layoutArgs (fun u x => layout params fuel u x scope depth) u [x, y]
      | .type x => layoutArgs (fun u x => layout params fuel u x scope depth) u [x]
      | .quote x => ((u.literal x.handle).1, true)
      | .call head args =>
        if planLimit - u.na < args.length then ((u.literal e.handle).1, true)
        else
          let h := layout params fuel u head scope depth
          let s := layoutArgs (fun u x => layout params fuel u x scope depth)
            { h.1 with na := h.1.na + args.length } args
          (s.1, h.2 && (decide (h.1.na + args.length ≤ planLimit) && s.2))
      | .fallback => ((u.literal e.handle).1, true)

/-- **The arguments of every application fit** into the slots that its head has left. -/
def HeadsFit (params : List Text) (e : Expr) : Prop := (layout params planDepth {} e [] 0).2 = true

instance (params : List Text) (e : Expr) : Decidable (HeadsFit params e) :=
  inferInstanceAs (Decidable (_ = true))

/-! ### Writes beyond a table stay recorded -/

theorem setNode_fault {b : PlanBuild} (i : ℕ) (node : PlanNode) (h : b.fault = true) :
    (b.setNode i node).fault = true := by
  rw [PlanBuild.setNode, h, Bool.true_or]

theorem literal_fault {b : PlanBuild} (v : Handle) (h : b.fault = true) :
    (b.literal v).1.fault = true := by
  rw [PlanBuild.literal, h, Bool.true_or]

theorem reserve_fault {b : PlanBuild} (n : ℕ) (h : b.fault = true) :
    (b.reserve n).fault = true := h

theorem planArgs_fault {compile : PlanBuild → Expr → PlanBuild × ℕ}
    (hc : ∀ b x, b.fault = true → (compile b x).1.fault = true) (xs : List Expr) {b : PlanBuild}
    (i : ℕ) (h : b.fault = true) : (planArgs compile b i xs).fault = true := by
  induction xs generalizing b i with
  | nil => exact h
  | cons x xs ih =>
    refine ih (i + 1) ?_
    rw [PlanBuild.setAux, hc b x h, Bool.true_or]

theorem planCompile_fault (params : List Text) (fuel : ℕ) {b : PlanBuild} (e : Expr)
    (scope : Scope) (depth : ℕ) (h : b.fault = true) :
    (planCompile params fuel b e scope depth).1.fault = true := by
  induction fuel generalizing b e scope depth with
  | zero => exact h
  | succ fuel ih =>
    have hnew : b.newNode.fault = true := setNode_fault _ _ h
    have hargs := fun (xs : List Expr) (b : PlanBuild) (i : ℕ) =>
      planArgs_fault (b := b) (fun c x => ih (b := c) x scope depth) xs i
    unfold planCompile
    split_ifs
    · exact h
    dsimp only
    split
    · exact setNode_fault _ _ (literal_fault _ hnew)
    · exact setNode_fault _ _ hnew
    · exact setNode_fault _ _ (literal_fault _ hnew)
    · exact setNode_fault _ _ (ih _ _ _ (ih _ _ _ (ih _ _ _ hnew)))
    · exact setNode_fault _ _ (ih _ _ _ (ih _ _ _ (literal_fault _ hnew)))
    · split_ifs
      · exact setNode_fault _ _ (literal_fault _ hnew)
      · split
        · exact setNode_fault _ _ (literal_fault _ hnew)
        · exact hargs _ _ _ (reserve_fault _ (setNode_fault _ _ hnew))
    · exact setNode_fault _ _ (ih _ _ _ (ih _ _ _ hnew))
    · exact setNode_fault _ _ (ih _ _ _ hnew)
    · exact setNode_fault _ _ (literal_fault _ hnew)
    · split
      · exact setNode_fault _ _ (literal_fault _ hnew)
      · exact hargs _ _ _ (reserve_fault _ (setNode_fault _ _ (ih _ _ _ hnew)))
    · exact setNode_fault _ _ (literal_fault _ hnew)

/-! ### The preparation takes what is counted -/

/-- What is in use is within the tables. -/
structure Within (b : PlanBuild) : Prop where
  nodes : b.nn ≤ planLimit
  aux : b.na ≤ planLimit
  literals : b.literals.length ≤ planLimit

/-- From `b` to `b'` the tables are used as counted by `l`. -/
structure Follows (b b' : PlanBuild) (l : Usage × Bool) : Prop where
  usage : l.2 = true → b'.toUsage = l.1
  fits : l.2 = true → b'.fault = b.fault ∧ b'.wrapped = b.wrapped ∧ Within b'
  overrun : l.2 = false → b'.fault = true

variable {b b' b'' : PlanBuild} {l l' : Usage × Bool}

/-- One stretch after the other. -/
theorem Follows.andThen (h : Follows b b' l) (hm : b'.fault = true → b''.fault = true)
    (h' : l.2 = true → Follows b' b'' l') : Follows b b'' (l'.1, l.2 && l'.2) := by
  cases e : l.2 with
  | false =>
    refine ⟨fun h0 => absurd h0 (by simp), fun h0 => absurd h0 (by simp), fun _ => ?_⟩
    exact hm (h.overrun e)
  | true =>
    obtain ⟨hfault, hwrapped, -⟩ := h.fits e
    have h2 := h' e
    rw [Bool.true_and]
    refine ⟨h2.usage, fun hl => ?_, h2.overrun⟩
    obtain ⟨h3, h4, h5⟩ := h2.fits hl
    exact ⟨h3.trans hfault, h4.trans hwrapped, h5⟩

/-- One stretch after the other, where the second is counted from what the first has used. -/
theorem Follows.next {g : Usage → Usage × Bool} (h : Follows b b' l)
    (hm : b'.fault = true → b''.fault = true)
    (h' : Within b' → Follows b' b'' (g b'.toUsage)) :
    Follows b b'' ((g l.1).1, l.2 && (g l.1).2) :=
  h.andThen hm fun hl => h.usage hl ▸ h' (h.fits hl).2.2

theorem Follows.setNode (h : Follows b b' l) {i : ℕ} (hi : i < planLimit) (node : PlanNode) :
    Follows b (b'.setNode i node) l := by
  have hno : decide (planLimit ≤ i) = false := decide_eq_false (by omega)
  refine ⟨h.usage, fun hl => ?_, fun hl => setNode_fault i node (h.overrun hl)⟩
  obtain ⟨h1, h2, h3⟩ := h.fits hl
  refine ⟨?_, h2, ⟨h3.nodes, h3.aux, h3.literals⟩⟩
  rw [PlanBuild.setNode, hno, Bool.or_false, h1]

/-- Nothing but the counts has changed. -/
theorem Follows.same (hu : b'.toUsage = l.1) (hf : b'.fault = b.fault)
    (hw : b'.wrapped = b.wrapped) (hb : Within b') (hl : l.2 = true) : Follows b b' l :=
  ⟨fun _ => hu, fun _ => ⟨hf, hw, hb⟩, fun h => absurd (hl.symm.trans h) (by decide)⟩

theorem literal_nn (u : Usage) (v : Handle) : (u.literal v).1.nn = u.nn := by
  unfold Usage.literal
  split_ifs <;> rfl

theorem literal_na (u : Usage) (v : Handle) : (u.literal v).1.na = u.na := by
  unfold Usage.literal
  split_ifs <;> rfl

theorem literal_length {u : Usage} (h : u.literals.length ≤ planLimit) (v : Handle) :
    (u.literal v).1.literals.length ≤ planLimit := by
  unfold Usage.literal
  split_ifs with hmem hfull
  · exact h
  · exact h
  · rw [List.length_append, List.length_singleton]
    omega

theorem Within.literal (h : Within b) (v : Handle) : Within (b.literal v).1 where
  nodes := (literal_nn b.toUsage v).trans_le h.nodes
  aux := (literal_na b.toUsage v).trans_le h.aux
  literals := literal_length h.literals v

theorem Within.literal_eq (h : Within b) (v : Handle) : (b.literal v).1.fault = b.fault := by
  have hno : decide (planLimit < b.literals.length) = false :=
    decide_eq_false (Nat.not_lt_of_le h.literals)
  rw [PlanBuild.literal, hno, Bool.and_false, Bool.or_false]

theorem literal_follows (h : Within b) (v : Handle) :
    Follows b (b.literal v).1 ((b.toUsage.literal v).1, true) :=
  .same rfl (h.literal_eq v) rfl (h.literal v) rfl

/-- A literal changes nothing but the counts. -/
theorem literal_then (hb : Within b) {v : Handle} (h : Follows (b.literal v).1 b' l) :
    Follows b b' l :=
  ⟨h.usage, fun hl => by
    obtain ⟨h1, h2, h3⟩ := h.fits hl
    exact ⟨h1.trans (hb.literal_eq v), h2, h3⟩, h.overrun⟩

theorem planFallback_follows (h : Within b) {id : ℕ} (hid : id < planLimit) (e : Expr) :
    Follows b (planFallback b id e).1 ((b.toUsage.literal e.handle).1, true) :=
  (literal_follows h e.handle).setNode hid _

theorem room_eq (h : b.na ≤ planLimit) : b.room = planLimit - b.na := by
  unfold PlanBuild.room planLimit at *
  omega

theorem checkRoom_eq (h : b.na ≤ planLimit) : b.checkRoom = b := by
  unfold PlanBuild.checkRoom
  rw [decide_eq_false (by omega), Bool.or_false]

theorem u16_eq {n : ℕ} (h : n ≤ planLimit) : u16 n = n := by
  unfold u16 planLimit at *
  omega

section Args

variable {compile : PlanBuild → Expr → PlanBuild × ℕ} {f : Usage → Expr → Usage × Bool}

/-- The slots from `i` on are in the table: the arguments are prepared as counted. -/
theorem planArgs_follows (hm : ∀ b x, b.fault = true → (compile b x).1.fault = true)
    (hc : ∀ b x, Within b → Follows b (compile b x).1 (f b.toUsage x)) (xs : List Expr)
    {b : PlanBuild} {i : ℕ} (h : Within b) (hi : i + xs.length ≤ planLimit) :
    Follows b (planArgs compile b i xs) (layoutArgs f b.toUsage xs) := by
  induction xs generalizing b i with
  | nil => exact .same rfl rfl rfl h rfl
  | cons x xs ih =>
    rw [List.length_cons] at hi
    have hno : decide (planLimit ≤ i) = false := decide_eq_false (by omega)
    have hx := hc b x h
    have hset : Follows b ((compile b x).1.setAux i (compile b x).2) (f b.toUsage x) := by
      refine ⟨hx.usage, fun hl => ?_, fun hl => ?_⟩
      · obtain ⟨h1, h2, h3⟩ := hx.fits hl
        refine ⟨?_, h2, ⟨h3.nodes, h3.aux, h3.literals⟩⟩
        rw [PlanBuild.setAux, hno, Bool.or_false, h1]
      · rw [PlanBuild.setAux, hx.overrun hl, Bool.true_or]
    refine hset.andThen (planArgs_fault hm xs (i + 1)) fun hl => ?_
    obtain ⟨-, -, hw⟩ := hset.fits hl
    have hrest := ih hw (i := i + 1) (by omega)
    rwa [hset.usage hl] at hrest

/-- Some of the slots from `i` on are beyond the table. -/
theorem planArgs_overrun (hm : ∀ b x, b.fault = true → (compile b x).1.fault = true)
    (xs : List Expr) {b : PlanBuild} {i : ℕ} (hxs : xs ≠ []) (hi : planLimit < i + xs.length) :
    (planArgs compile b i xs).fault = true := by
  induction xs generalizing b i with
  | nil => exact absurd rfl hxs
  | cons x xs ih =>
    rw [List.length_cons] at hi
    by_cases hbeyond : planLimit ≤ i
    · refine planArgs_fault hm xs (i + 1) ?_
      rw [PlanBuild.setAux, decide_eq_true hbeyond, Bool.or_true]
    · have hne : xs ≠ [] := by
        rintro rfl
        rw [List.length_nil] at hi
        omega
      exact ih hne (by omega)

end Args

/-- A new node is in the table. -/
theorem Follows.new (hb : Within b) (hnn : b.nn ≠ planLimit)
    (h : Within b.newNode → Follows b.newNode b' l) : Follows b b' l := by
  have hlt : b.nn < planLimit := lt_of_le_of_ne hb.nodes hnn
  have hno : decide (planLimit ≤ b.nn) = false := decide_eq_false (by omega)
  have hfault : b.newNode.fault = b.fault := by
    rw [PlanBuild.newNode, PlanBuild.setNode, hno, Bool.or_false]
  have h1 := h ⟨hlt, hb.aux, hb.literals⟩
  refine ⟨h1.usage, fun hl => ?_, h1.overrun⟩
  obtain ⟨h2, h3, h4⟩ := h1.fits hl
  exact ⟨h2.trans hfault, h3, h4⟩

/-- The last of a list of expressions. -/
theorem last_follows {f : Usage → Expr → Usage × Bool} {u : Usage} {x : Expr}
    (h : Follows b b' (f u x)) : Follows b b' (layoutArgs f u [x]) := by
  rw [layoutArgs, layoutArgs, Bool.and_true]
  exact h

/-- The arguments of an application, after its head: they are prepared as counted if they fit, and
written beyond the table if not. -/
theorem call_follows {compile : PlanBuild → Expr → PlanBuild × ℕ} {f : Usage → Expr → Usage × Bool}
    (hm : ∀ b x, b.fault = true → (compile b x).1.fault = true)
    (hc : ∀ b x, Within b → Follows b (compile b x).1 (f b.toUsage x)) {args : List Expr} {id : ℕ}
    (hid : id < planLimit) (node : PlanNode) (h : Within b) :
    Follows b (planArgs compile ((b.setNode id node).reserve args.length) (u16 b.na) args)
      ((layoutArgs f { b.toUsage with na := b.na + args.length } args).1,
        decide (b.na + args.length ≤ planLimit) &&
          (layoutArgs f { b.toUsage with na := b.na + args.length } args).2) := by
  have hna := h.aux
  by_cases hfit : b.na + args.length ≤ planLimit
  · have hset : Follows b ((b.setNode id node).reserve args.length)
        ({ b.toUsage with na := b.na + args.length }, true) := by
      have hself : Follows b b (b.toUsage, true) := .same rfl rfl rfl h rfl
      have h1 := hself.setNode hid node
      obtain ⟨h2, h3, h4⟩ := h1.fits rfl
      exact .same rfl h2 h3 ⟨h4.nodes, hfit, h4.literals⟩ rfl
    have hargs := planArgs_follows hm hc args (hset.fits rfl).2.2 (i := u16 b.na)
      (by rw [u16_eq h.aux]; exact hfit)
    rw [decide_eq_true hfit]
    exact hset.andThen (planArgs_fault hm args _) fun _ => hargs
  · rw [decide_eq_false hfit, Bool.false_and]
    refine ⟨fun h0 => absurd h0 (by simp), fun h0 => absurd h0 (by simp), fun _ => ?_⟩
    refine planArgs_overrun hm args ?_ (by rw [u16_eq h.aux]; omega)
    rintro rfl
    rw [List.length_nil] at hfit
    omega

theorem clauses?_length {cs xs : List Expr} (h : clauses? cs = some xs) :
    xs.length = 2 * cs.length := by
  induction cs generalizing xs with
  | nil =>
    cases h
    rfl
  | cons clause rest ih =>
    unfold clauses? at h
    split at h
    · obtain ⟨ys, hys, rfl⟩ := Option.map_eq_some_iff.mp h
      have := ih hys
      simp only [List.length_cons]
      omega
    · cases h

/-- The clauses of a `cond` take two slots each. -/
theorem shape_cond {params : List Text} {scope : Scope} {depth count : ℕ} {e : Expr}
    {xs : List Expr} (h : shape params scope depth e = .cond count (some xs)) :
    xs.length = 2 * count := by
  unfold shape at h
  split at h
  · split at h <;> cases h
  · split at h
    · cases h
    · split_ifs at h
      split at h
      case h_3 =>
        injection h with h1 h2
        rw [← h1]
        exact clauses?_length h2
      all_goals cases h
  · cases h

/-- **The preparation uses the tables as counted**, as long as the arguments of every application
fit, and writes beyond one of them otherwise. -/
theorem planCompile_follows (params : List Text) (fuel : ℕ) {b : PlanBuild} (e : Expr)
    (scope : Scope) (depth : ℕ) (h : Within b) :
    Follows b (planCompile params fuel b e scope depth).1
      (layout params fuel b.toUsage e scope depth) := by
  induction fuel generalizing b e scope depth with
  | zero => exact .same rfl rfl rfl ⟨h.nodes, h.aux, h.literals⟩ rfl
  | succ fuel ih =>
    have hm := fun (b : PlanBuild) (x : Expr) => planCompile_fault params fuel (b := b) x scope depth
    have hc := fun (b : PlanBuild) (x : Expr) => ih (b := b) x scope depth
    unfold planCompile layout
    by_cases hstop : b.failed = true ∨ b.nn = planLimit
    · rw [if_pos hstop, if_pos hstop]
      exact .same rfl rfl rfl ⟨h.nodes, h.aux, h.literals⟩ rfl
    rw [if_neg hstop, if_neg hstop]
    have hnn : b.nn ≠ planLimit := fun e => hstop (Or.inr e)
    have hid : b.nn < planLimit := lt_of_le_of_ne h.nodes hnn
    refine .new h hnn fun hw => ?_
    dsimp only
    rw [checkRoom_eq hw.aux, room_eq hw.aux]
    have hcond : ∀ count xs, shape params scope depth e = .cond count (some xs) →
        xs.length = 2 * count := fun _ _ => shape_cond
    generalize shape params scope depth e = form at hcond
    cases form with
    | literal => exact (literal_follows hw _).setNode hid _
    | local_ up slot => exact (Follows.same rfl rfl rfl hw rfl).setNode hid _
    | nonlocal => exact (literal_follows hw _).setNode hid _
    | if_ x y z =>
      refine Follows.setNode ?_ hid _
      refine (hc _ x hw).next (g := fun u => layoutArgs _ u [y, z])
        (fun hf => hm _ z (hm _ y hf)) fun hx => ?_
      refine (hc _ y hx).next (g := fun u => layoutArgs _ u [z]) (hm _ z) fun hy => ?_
      exact last_follows (hc _ z hy)
    | let_ name value body =>
      refine Follows.setNode ?_ hid _
      refine literal_then hw (v := .symbol name) ?_
      exact (hc _ value (hw.literal _)).next
        (g := fun u => layout params fuel u body ((name, depth + 1) :: scope) (depth + 1))
        (planCompile_fault _ _ _ _ _) fun hv => ih _ _ _ hv
    | cond count clauses =>
      by_cases hroom : (planLimit - b.newNode.na) / 2 < count
      · have hroom' : (planLimit - b.na) / 2 < count := hroom
        dsimp only
        rw [if_pos hroom, if_pos hroom']
        exact planFallback_follows hw hid e
      have hroom' : ¬(planLimit - b.na) / 2 < count := hroom
      dsimp only
      rw [if_neg hroom, if_neg hroom']
      cases clauses with
      | none => exact planFallback_follows hw hid e
      | some xs =>
        have hlen := hcond count xs rfl
        have hself : Follows b.newNode b.newNode (b.newNode.toUsage, true) :=
          .same rfl rfl rfl hw rfl
        have hset := hself.setNode hid { op := .cond, a := u16 b.newNode.na, n := u16 count }
        obtain ⟨h1, h2, h3⟩ := hset.fits rfl
        have hin : b.newNode.na + 2 * count ≤ planLimit := by
          have := hw.aux
          omega
        have hargs := planArgs_follows (f := fun u x => layout params fuel u x scope depth) hm hc xs
          (i := u16 b.newNode.na)
          (b := (b.newNode.setNode b.nn { op := .cond, a := u16 b.newNode.na, n := u16 count }).reserve
            (2 * count)) ⟨h3.nodes, hin, h3.literals⟩ (by rw [u16_eq hw.aux, hlen]; exact hin)
        exact ⟨hargs.usage, fun hl => by
          obtain ⟨h4, h5, h6⟩ := hargs.fits hl
          exact ⟨h4.trans h1, h5.trans h2, h6⟩, hargs.overrun⟩
    | logic op x y =>
      refine Follows.setNode ?_ hid _
      refine (hc _ x hw).next (g := fun u => layoutArgs _ u [y]) (hm _ y) fun hx => ?_
      exact last_follows (hc _ y hx)
    | type x => exact Follows.setNode (last_follows (hc _ x hw)) hid _
    | quote x => exact (literal_follows hw _).setNode hid _
    | call head args =>
      by_cases hroom : planLimit - b.newNode.na < args.length
      · have hroom' : planLimit - b.na < args.length := hroom
        dsimp only
        rw [if_pos hroom, if_pos hroom']
        exact planFallback_follows hw hid e
      have hroom' : ¬planLimit - b.na < args.length := hroom
      dsimp only
      rw [if_neg hroom, if_neg hroom']
      refine (hc _ head hw).next
        (g := fun u => ((layoutArgs _ { u with na := u.na + args.length } args).1,
          decide (u.na + args.length ≤ planLimit) &&
            (layoutArgs _ { u with na := u.na + args.length } args).2))
        (fun hf => ?_) fun hhead => call_follows hm hc hid _ hhead
      exact planArgs_fault hm args _ (reserve_fault _ (setNode_fault _ _ hf))
    | fallback => exact planFallback_follows hw hid e

end ShenRc.Eval
