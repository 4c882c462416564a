import ShenRc.Eval.PlanRoom

/-! # Finished plans

A plan that is finished names only entries of its tables (`planPrepare_sound`). The preparation of an
expression takes more nodes than argument slots, so a preparation that does not fail has kept within
every table, and the slots and the nodes it has taken are its own until it is done. With `PlanRoom`
this says when the preparation is safe (`plan_safe_iff`). -/

namespace ShenRc.Eval

open Numeral

/-! ### Plans that name only entries of the tables -/

/-- Below the node `i`, where `depth` binders of the plan are in force, every index is that of an
entry in use; the nodes are from `lo` on and the argument slots from `alo` on. -/
inductive Sound (arity : ℕ) (b : PlanBuild) (lo alo : ℕ) : ℕ → ℕ → Prop
  | literal {i depth : ℕ} (hlo : lo ≤ i) (hi : i < b.nn)
    (hop : (b.nodes i).op = .const ∨ (b.nodes i).op = .nonlocal ∨ (b.nodes i).op = .fallback)
    (ha : (b.nodes i).a < b.literals.length) : Sound arity b lo alo i depth
  | local_ {i depth : ℕ} (hlo : lo ≤ i) (hi : i < b.nn) (hop : (b.nodes i).op = .local_)
    (hup : (b.nodes i).a ≤ depth) (hslot : (b.nodes i).a = depth → (b.nodes i).b < arity) :
    Sound arity b lo alo i depth
  | if_ {i depth : ℕ} (hlo : lo ≤ i) (hi : i < b.nn) (hop : (b.nodes i).op = .if_)
    (ha : Sound arity b lo alo (b.nodes i).a depth) (hb : Sound arity b lo alo (b.nodes i).b depth)
    (hc : Sound arity b lo alo (b.nodes i).c depth) : Sound arity b lo alo i depth
  | let_ {i depth : ℕ} (hlo : lo ≤ i) (hi : i < b.nn) (hop : (b.nodes i).op = .let_)
    (ha : (b.nodes i).a < b.literals.length) (hb : Sound arity b lo alo (b.nodes i).b depth)
    (hc : Sound arity b lo alo (b.nodes i).c (depth + 1)) : Sound arity b lo alo i depth
  | cond {i depth : ℕ} (hlo : lo ≤ i) (hi : i < b.nn) (hop : (b.nodes i).op = .cond)
    (ha : alo ≤ (b.nodes i).a) (hn : (b.nodes i).a + 2 * (b.nodes i).n ≤ b.na)
    (h : ∀ j < 2 * (b.nodes i).n, Sound arity b lo alo (b.aux ((b.nodes i).a + j)) depth) :
    Sound arity b lo alo i depth
  | logic {i depth : ℕ} (hlo : lo ≤ i) (hi : i < b.nn)
    (hop : (b.nodes i).op = .and ∨ (b.nodes i).op = .or)
    (ha : Sound arity b lo alo (b.nodes i).a depth)
    (hb : Sound arity b lo alo (b.nodes i).b depth) : Sound arity b lo alo i depth
  | type {i depth : ℕ} (hlo : lo ≤ i) (hi : i < b.nn) (hop : (b.nodes i).op = .type)
    (ha : Sound arity b lo alo (b.nodes i).a depth) : Sound arity b lo alo i depth
  | call {i depth : ℕ} (hlo : lo ≤ i) (hi : i < b.nn)
    (hop : (b.nodes i).op = .call ∨ (b.nodes i).op = .callExpr)
    (ha : Sound arity b lo alo (b.nodes i).a depth) (hb : alo ≤ (b.nodes i).b)
    (hn : (b.nodes i).b + (b.nodes i).n ≤ b.na)
    (h : ∀ j < (b.nodes i).n, Sound arity b lo alo (b.aux ((b.nodes i).b + j)) depth) :
    Sound arity b lo alo i depth

variable {arity p : ℕ} {b b' : PlanBuild} {lo alo : ℕ}

theorem Sound.lt {i depth : ℕ} (h : Sound arity b lo alo i depth) : lo ≤ i ∧ i < b.nn := by
  cases h <;> exact ⟨‹_›, ‹_›⟩

/-- From `b` to `b'` nothing changes at the nodes from `lo` on and the slots from `alo` on. -/
structure Agrees (lo alo : ℕ) (b b' : PlanBuild) : Prop where
  nn : b.nn ≤ b'.nn
  na : b.na ≤ b'.na
  literals : b.literals.length ≤ b'.literals.length
  nodes : ∀ i, lo ≤ i → i < b.nn → b'.nodes i = b.nodes i
  aux : ∀ j, alo ≤ j → j < b.na → b'.aux j = b.aux j

/-- A plan stays sound while its entries stay. -/
theorem Sound.agrees {i depth : ℕ} (h : Sound arity b lo alo i depth) (ha : Agrees lo alo b b') :
    Sound arity b' lo alo i depth := by
  have hnn := ha.nn
  have hna := ha.na
  have hl := ha.literals
  induction h with
  | literal hlo hi hop h =>
    rw [← ha.nodes _ hlo hi] at hop h
    exact .literal hlo (by omega) hop (by omega)
  | local_ hlo hi hop hup hslot =>
    rw [← ha.nodes _ hlo hi] at hop hup hslot
    exact .local_ hlo (by omega) hop hup hslot
  | if_ hlo hi hop _ _ _ ih1 ih2 ih3 =>
    rw [← ha.nodes _ hlo hi] at hop ih1 ih2 ih3
    exact .if_ hlo (by omega) hop ih1 ih2 ih3
  | let_ hlo hi hop h _ _ ih1 ih2 =>
    rw [← ha.nodes _ hlo hi] at hop h ih1 ih2
    exact .let_ hlo (by omega) hop (by omega) ih1 ih2
  | cond hlo hi hop h hn _ ih =>
    rw [← ha.nodes _ hlo hi] at hop h hn ih
    exact .cond hlo (by omega) hop h (by omega) fun j hj => by
      rw [ha.aux _ (by omega) (by omega)]
      exact ih j hj
  | logic hlo hi hop _ _ ih1 ih2 =>
    rw [← ha.nodes _ hlo hi] at hop ih1 ih2
    exact .logic hlo (by omega) hop ih1 ih2
  | type hlo hi hop _ ih =>
    rw [← ha.nodes _ hlo hi] at hop ih
    exact .type hlo (by omega) hop ih
  | call hlo hi hop _ h hn _ ih1 ih2 =>
    rw [← ha.nodes _ hlo hi] at hop ih1 h hn ih2
    exact .call hlo (by omega) hop ih1 h (by omega) fun j hj => by
      rw [ha.aux _ (by omega) (by omega)]
      exact ih2 j hj

/-- A plan that is sound within narrower bounds is sound within wider ones. -/
theorem Sound.weaken {i depth lo' alo' : ℕ} (h : Sound arity b lo alo i depth) (hlo : lo' ≤ lo)
    (halo : alo' ≤ alo) : Sound arity b lo' alo' i depth := by
  induction h with
  | literal h1 h2 h3 h4 => exact .literal (by omega) h2 h3 h4
  | local_ h1 h2 h3 h4 h5 => exact .local_ (by omega) h2 h3 h4 h5
  | if_ h1 h2 h3 _ _ _ ih1 ih2 ih3 => exact .if_ (by omega) h2 h3 ih1 ih2 ih3
  | let_ h1 h2 h3 h4 _ _ ih1 ih2 => exact .let_ (by omega) h2 h3 h4 ih1 ih2
  | cond h1 h2 h3 h4 h5 _ ih => exact .cond (by omega) h2 h3 (by omega) h5 ih
  | logic h1 h2 h3 _ _ ih1 ih2 => exact .logic (by omega) h2 h3 ih1 ih2
  | type h1 h2 h3 _ ih => exact .type (by omega) h2 h3 ih
  | call h1 h2 h3 _ h5 h6 _ ih1 ih2 => exact .call (by omega) h2 h3 ih1 (by omega) h6 ih2

/-! ### A preparation keeps within the nodes -/

theorem planArgs_nn {compile : PlanBuild → Expr → PlanBuild × ℕ}
    (hc : ∀ b x, b.nn ≤ planLimit → (compile b x).1.nn ≤ planLimit) (xs : List Expr)
    {b : PlanBuild} {i : ℕ} (h : b.nn ≤ planLimit) : (planArgs compile b i xs).nn ≤ planLimit := by
  induction xs generalizing b i with
  | nil => exact h
  | cons x xs ih => exact ih (hc b x h)

theorem planCompile_nn (params : List Text) (fuel : ℕ) {b : PlanBuild} (e : Expr) (scope : Scope)
    (depth : ℕ) (h : b.nn ≤ planLimit) :
    (planCompile params fuel b e scope depth).1.nn ≤ planLimit := by
  induction fuel generalizing b e scope depth with
  | zero => exact h
  | succ fuel ih =>
    have hlit : ∀ (c : PlanBuild) (v : Handle), c.nn ≤ planLimit → (c.literal v).1.nn ≤ planLimit :=
      fun c v hc => (literal_nn c.toUsage v).trans_le hc
    unfold planCompile
    by_cases hstop : b.failed = true ∨ b.nn = planLimit
    · rw [if_pos hstop]
      exact h
    rw [if_neg hstop]
    have hnew : b.newNode.nn ≤ planLimit := by
      have hne : b.nn ≠ planLimit := fun e => hstop (Or.inr e)
      change b.nn + 1 ≤ planLimit
      omega
    dsimp only
    split
    · exact hlit _ _ hnew
    · exact hnew
    · exact hlit _ _ hnew
    · exact ih _ _ _ (ih _ _ _ (ih _ _ _ hnew))
    · exact ih _ _ _ (ih _ _ _ (hlit _ _ hnew))
    · split_ifs
      · exact hlit _ _ hnew
      · split
        · exact hlit _ _ hnew
        · exact planArgs_nn (fun c x => ih x scope depth) _ hnew
    · exact ih _ _ _ (ih _ _ _ hnew)
    · exact ih _ _ _ hnew
    · exact hlit _ _ hnew
    · split
      · exact hlit _ _ hnew
      · exact planArgs_nn (fun c x => ih x scope depth) _ (ih _ _ _ hnew)
    · exact hlit _ _ hnew

/-! ### A preparation that does not fail takes nodes -/

/-- From `b` to `b'` nothing has failed, and at least `n` nodes have been taken. -/
structure More (n : ℕ) (b b' : PlanBuild) : Prop where
  failed : b.failed = false
  nodes : b.nn + n ≤ b'.nn

theorem More.refl (h : b.failed = false) : More 0 b b := ⟨h, le_rfl⟩

/-- What a new node is followed by. -/
theorem More.new {n : ℕ} (h : More n b.newNode b') : More 1 b b' :=
  ⟨h.failed, (Nat.le_add_right _ n).trans h.nodes⟩

theorem More.next {m n : ℕ} {b'' : PlanBuild} (h : More m b b') (h' : More n b' b'') :
    More n b b'' :=
  ⟨h.failed, by
    have h1 := h.nodes
    have h2 := h'.nodes
    omega⟩

theorem More.limit {n : ℕ} (h : More n b b') (hl : b'.nn + p ≤ planLimit) :
    b.nn + p ≤ planLimit := by
  have := h.nodes
  omega

theorem More.setNode {n : ℕ} (h : More n b b') (i : ℕ) (node : PlanNode) :
    More n b (b'.setNode i node) := ⟨h.failed, h.nodes⟩

theorem More.ofCheckRoom {n : ℕ} (h : More n b.checkRoom b') : More n b b' := ⟨h.failed, h.nodes⟩

theorem literal_failed {u : Usage} {v : Handle} (h : (u.literal v).1.failed = false) :
    u.failed = false ∧ (u.literal v).2 < (u.literal v).1.literals.length ∧
      u.literals.length ≤ (u.literal v).1.literals.length := by
  unfold Usage.literal at h ⊢
  split_ifs at h ⊢ with hmem
  · exact ⟨h, List.idxOf_lt_length_of_mem hmem, le_rfl⟩
  · cases h
  · simp only [List.length_append, List.length_singleton]
    exact ⟨h, by omega, by omega⟩

theorem literal_more {v : Handle} (h : (b.literal v).1.failed = false) :
    More 0 b (b.literal v).1 :=
  ⟨(literal_failed h).1, (literal_nn b.toUsage v).ge⟩

theorem planArgs_more {compile : PlanBuild → Expr → PlanBuild × ℕ}
    (hc : ∀ b x, (compile b x).1.failed = false → More 1 b (compile b x).1) (xs : List Expr)
    {b : PlanBuild} {i : ℕ} (h : (planArgs compile b i xs).failed = false) :
    More xs.length b (planArgs compile b i xs) := by
  induction xs generalizing b i with
  | nil => exact .refl h
  | cons x xs ih =>
    have h1 := ih h
    have h2 := hc b x h1.failed
    have hx := h2.nodes
    have hxs : (compile b x).1.nn + xs.length ≤ (planArgs compile b i (x :: xs)).nn := h1.nodes
    exact ⟨h2.failed, by rw [List.length_cons]; omega⟩

theorem planCompile_more (params : List Text) (fuel : ℕ) {b : PlanBuild} (e : Expr)
    (scope : Scope) (depth : ℕ) (h : (planCompile params fuel b e scope depth).1.failed = false) :
    More 1 b (planCompile params fuel b e scope depth).1 := by
  induction fuel generalizing b e scope depth with
  | zero => cases h
  | succ fuel ih =>
    have hargs := fun (xs : List Expr) (b : PlanBuild) (i : ℕ) =>
      planArgs_more (b := b) (i := i) (fun c x => ih (b := c) x scope depth) xs
    unfold planCompile at h ⊢
    by_cases hstop : b.failed = true ∨ b.nn = planLimit
    · rw [if_pos hstop] at h
      cases h
    rw [if_neg hstop] at h ⊢
    dsimp only at h ⊢
    have hslots := fun (xs : List Expr) (c : PlanBuild) (node : PlanNode) (n i : ℕ)
        (h : (planArgs (fun b x => planCompile params fuel b x scope depth)
          ((c.setNode b.nn node).reserve n) i xs).failed = false) =>
      have hmore := hargs xs _ i h
      (⟨hmore.failed, hmore.nodes⟩ : More xs.length c _)
    generalize shape params scope depth e = form at h
    cases form with
    | literal => exact (literal_more h).new.setNode _ _
    | local_ up slot => exact (More.refl (b := b.newNode) h).new.setNode _ _
    | nonlocal => exact (literal_more h).new.setNode _ _
    | if_ x y z =>
      have h3 := ih z scope depth h
      have h2 := ih y scope depth h3.failed
      have h1 := ih x scope depth h2.failed
      exact (h1.next (h2.next h3)).new.setNode _ _
    | let_ name value body =>
      have h2 := ih body _ _ h
      have h1 := ih value scope depth h2.failed
      exact ((literal_more h1.failed).next (h1.next h2)).new.setNode _ _
    | cond count clauses =>
      dsimp only at h ⊢
      split_ifs at h ⊢
      · exact (literal_more h).ofCheckRoom.new.setNode _ _
      · cases clauses with
        | none => exact (literal_more h).ofCheckRoom.new.setNode _ _
        | some xs => exact (hslots xs _ _ _ _ h).ofCheckRoom.new
    | logic op x y =>
      have h2 := ih y scope depth h
      have h1 := ih x scope depth h2.failed
      exact (h1.next h2).new.setNode _ _
    | type x => exact (ih x scope depth h).new.setNode _ _
    | quote x => exact (literal_more h).new.setNode _ _
    | call head args =>
      dsimp only at h ⊢
      by_cases hroom : b.newNode.checkRoom.room < args.length
      · rw [if_pos hroom] at h ⊢
        exact (literal_more h).ofCheckRoom.new.setNode _ _
      · rw [if_neg hroom] at h ⊢
        have h2 := hslots args _ _ _ _ h
        have h1 := ih head scope depth h2.failed
        exact (h1.next h2).ofCheckRoom.new
    | fallback => exact (literal_more h).new.setNode _ _

/-! ### What a preparation leaves -/

/-- From `b` to `b'` the entries of `b` have stayed, and the nodes taken outnumber the slots by `n`. -/
structure Grown (n : ℕ) (b b' : PlanBuild) : Prop extends Agrees 0 0 b b' where
  surplus : b'.na + b.nn + n ≤ b'.nn + b.na

theorem Grown.refl (b : PlanBuild) : Grown 0 b b :=
  ⟨⟨le_rfl, le_rfl, le_rfl, fun _ _ _ => rfl, fun _ _ _ => rfl⟩, by omega⟩

theorem Grown.trans {m n : ℕ} {b'' : PlanBuild} (h : Grown m b b') (h' : Grown n b' b'') :
    Grown (m + n) b b'' := by
  have h1 := h.nn
  have h2 := h.na
  have h3 := h.surplus
  have h4 := h'.surplus
  refine ⟨⟨h1.trans h'.nn, h2.trans h'.na, h.literals.trans h'.literals, fun i _ hi => ?_,
    fun j _ hj => ?_⟩, by omega⟩
  · exact (h'.nodes i (Nat.zero_le i) (by omega)).trans (h.nodes i (Nat.zero_le i) hi)
  · exact (h'.aux j (Nat.zero_le j) (by omega)).trans (h.aux j (Nat.zero_le j) hj)

theorem Agrees.mono (h : Agrees 0 0 b b') : Agrees lo alo b b' :=
  ⟨h.nn, h.na, h.literals, fun i _ hi => h.nodes i (Nat.zero_le i) hi,
    fun j _ hj => h.aux j (Nat.zero_le j) hj⟩

/-- **The expression has been prepared** as the node `id`: what is below it is sound, and so is every
node taken, all within what has been taken since `b`. -/
structure Prepared (arity : ℕ) (b b' : PlanBuild) (id depth : ℕ) : Prop extends Grown 1 b b' where
  id_eq : id = b.nn
  sound : Sound arity b' b.nn b.na id depth
  all : ∀ i, b.nn ≤ i → i < b'.nn → ∃ d, Sound arity b' b.nn b.na i d

theorem u16_le (n : ℕ) : u16 n ≤ n := Nat.mod_le n _

/-- The arguments prepared into the slots from `i` on, which are reserved in `b`. -/
structure ArgsPrepared (arity : ℕ) (b b' : PlanBuild) (i len depth : ℕ) : Prop where
  nn : b.nn ≤ b'.nn
  na : b.na ≤ b'.na
  literals : b.literals.length ≤ b'.literals.length
  nodes : ∀ k < b.nn, b'.nodes k = b.nodes k
  aux : ∀ j < b.na, j < i ∨ i + len ≤ j → b'.aux j = b.aux j
  surplus : b'.na + b.nn + len ≤ b'.nn + b.na
  sound : ∀ j < len, Sound arity b' b.nn b.na (b'.aux (i + j)) depth
  all : ∀ k, b.nn ≤ k → k < b'.nn → ∃ d, Sound arity b' b.nn b.na k d

/-- **Arguments are prepared one after the other**: what belongs to one is not touched by the
next. -/
theorem planArgs_prepared {compile : PlanBuild → Expr → PlanBuild × ℕ} {depth : ℕ}
    (hmore : ∀ b x, (compile b x).1.failed = false → More 1 b (compile b x).1)
    (hc : ∀ b x p, (compile b x).1.failed = false → b.na ≤ b.nn + p →
      (compile b x).1.nn + p ≤ planLimit → Prepared arity b (compile b x).1 (compile b x).2 depth)
    (xs : List Expr) {i : ℕ} (hf : (planArgs compile b i xs).failed = false)
    (hi : i + xs.length ≤ b.na) (hpre : b.na + 1 ≤ b.nn + p + xs.length)
    (hlimit : (planArgs compile b i xs).nn + p ≤ planLimit) :
    ArgsPrepared arity b (planArgs compile b i xs) i xs.length depth := by
  induction xs generalizing b i with
  | nil =>
    exact ⟨le_rfl, le_rfl, le_rfl, fun _ _ => rfl, fun _ _ _ => rfl,
      by rw [planArgs, List.length_nil]; omega, fun j hj => absurd hj (Nat.not_lt_zero j),
      fun k h1 h2 => absurd h2 (Nat.not_lt_of_le h1)⟩
  | cons x xs ih =>
    rw [List.length_cons] at hi hpre ⊢
    have hrest := planArgs_more hmore xs hf
    have hnodes := hrest.nodes
    have hmono : (compile b x).1.nn + xs.length ≤ (planArgs compile b i (x :: xs)).nn := hnodes
    have hx := hc b x (p + xs.length) hrest.failed (by omega) (by omega)
    obtain ⟨⟨⟨hxn, hxa, hxl, hxnodes, hxaux⟩, hxs⟩, hid, hxsound, hxall⟩ := hx
    have h2 := ih (b := (compile b x).1.setAux i (compile b x).2) (i := i + 1) hf
      (by change i + 1 + xs.length ≤ (compile b x).1.na; omega)
      (by change (compile b x).1.na + 1 ≤ (compile b x).1.nn + p + xs.length; omega) hlimit
    -- The first argument lies within what the others leave alone.
    have hagree : Agrees b.nn b.na (compile b x).1 (planArgs compile b i (x :: xs)) :=
      ⟨h2.nn, h2.na, h2.literals, fun k _ hk => h2.nodes k hk, fun j h1 hj => by
        refine (h2.aux j hj (Or.inr (by omega))).trans ?_
        exact Function.update_of_ne (by omega) _ _⟩
    have hslot : (planArgs compile b i (x :: xs)).aux i = (compile b x).2 := by
      have hlt : (compile b x).2 ≤ planLimit := by omega
      refine (h2.aux i (by change i < (compile b x).1.na; omega) (Or.inl (by omega))).trans ?_
      exact (Function.update_self i _ _).trans (u16_eq hlt)
    refine ⟨hxn.trans h2.nn, hxa.trans h2.na, hxl.trans h2.literals, fun k hk => ?_,
      fun j hj hout => ?_, ?_, fun j hj => ?_, fun k h1 hk => ?_⟩
    · exact (h2.nodes k (by change k < (compile b x).1.nn; omega)).trans
        (hxnodes k (Nat.zero_le k) hk)
    · refine (h2.aux j (by change j < (compile b x).1.na; omega) (by omega)).trans ?_
      refine (Function.update_of_ne (by omega) _ _).trans (hxaux j (Nat.zero_le j) hj)
    · have h3 : (planArgs compile b i (x :: xs)).na + (compile b x).1.nn + xs.length ≤
        (planArgs compile b i (x :: xs)).nn + (compile b x).1.na := h2.surplus
      omega
    · rcases j with _ | j
      · rw [Nat.add_zero, hslot]
        exact hxsound.agrees hagree
      · have h3 := h2.sound j (by omega)
        rw [show i + (j + 1) = i + 1 + j by omega]
        exact h3.weaken hxn hxa
    · by_cases hk2 : k < (compile b x).1.nn
      · obtain ⟨d, hd⟩ := hxall k h1 hk2
        exact ⟨d, hd.agrees hagree⟩
      · obtain ⟨d, hd⟩ := h2.all k (by change (compile b x).1.nn ≤ k; omega) hk
        exact ⟨d, hd.weaken hxn hxa⟩

/-- Since `b` only sound nodes have been taken. -/
structure Below (arity : ℕ) (b b' : PlanBuild) : Prop extends Grown 0 b b' where
  all : ∀ i, b.nn ≤ i → i < b'.nn → ∃ d, Sound arity b' b.nn b.na i d

theorem Below.refl (arity : ℕ) (b : PlanBuild) : Below arity b b :=
  ⟨.refl b, fun _ h1 h2 => absurd h2 (Nat.not_lt_of_le h1)⟩

theorem literal_grown (v : Handle) (h : (b.literal v).1.failed = false) :
    Grown 0 b (b.literal v).1 := by
  have hnn : (b.literal v).1.nn = b.nn := literal_nn b.toUsage v
  have hna : (b.literal v).1.na = b.na := literal_na b.toUsage v
  exact ⟨⟨hnn.ge, hna.ge, (literal_failed h).2.2, fun _ _ _ => rfl, fun _ _ _ => rfl⟩, by omega⟩

theorem Below.literal (h : Below arity b b') (v : Handle) (hf : (b'.literal v).1.failed = false) :
    Below arity b (b'.literal v).1 := by
  have hg := literal_grown v hf
  have hnn : (b'.literal v).1.nn = b'.nn := literal_nn b'.toUsage v
  refine ⟨h.toGrown.trans hg, fun i h1 h2 => ?_⟩
  obtain ⟨d, hd⟩ := h.all i h1 (hnn ▸ h2)
  exact ⟨d, hd.agrees hg.toAgrees.mono⟩

/-- The next expression keeps what is sound. -/
theorem Below.next {b'' : PlanBuild} {id depth : ℕ} (h : Below arity b b')
    (hx : Prepared arity b' b'' id depth) :
    Below arity b b'' ∧ Sound arity b'' b.nn b.na id depth ∧
      ∀ i d, Sound arity b' b.nn b.na i d → Sound arity b'' b.nn b.na i d := by
  have hkeep : ∀ i d, Sound arity b' b.nn b.na i d → Sound arity b'' b.nn b.na i d :=
    fun i d hs => hs.agrees hx.toAgrees.mono
  have hg := h.toGrown.trans hx.toGrown
  refine ⟨⟨⟨hg.toAgrees, by have := hg.surplus; omega⟩, fun i h1 h2 => ?_⟩,
    hx.sound.weaken h.nn h.na, hkeep⟩
  by_cases hi : i < b'.nn
  · obtain ⟨d, hd⟩ := h.all i h1 hi
    exact ⟨d, hkeep i d hd⟩
  · obtain ⟨d, hd⟩ := hx.all i (by omega) h2
    exact ⟨d, hd.weaken h.nn h.na⟩

/-- A node below the bound may be rewritten. -/
theorem Sound.setNode {i depth id : ℕ} (h : Sound arity b lo alo i depth) (hid : id < lo)
    (node : PlanNode) : Sound arity (b.setNode id node) lo alo i depth :=
  h.agrees ⟨le_rfl, le_rfl, le_rfl, fun _ hk _ => Function.update_of_ne (by omega) _ _,
    fun _ _ _ => rfl⟩

/-- **The node of an expression is filled** once what is below it has been prepared. -/
theorem Below.finish {depth : ℕ} (h : Below arity b.newNode b') (node : PlanNode)
    (hs : Sound arity (b'.setNode b.nn node) b.nn b.na b.nn depth) :
    Prepared arity b (b'.setNode b.nn node) b.nn depth := by
  have hnn : b.nn + 1 ≤ b'.nn := h.nn
  have hsurplus : b'.na + (b.nn + 1) + 0 ≤ b'.nn + b.na := h.surplus
  refine ⟨⟨⟨Nat.le_of_succ_le hnn, h.na, h.literals, fun i _ hi => ?_, fun j _ hj => ?_⟩, ?_⟩,
    rfl, hs, fun i h1 h2 => ?_⟩
  · refine (Function.update_of_ne (by omega) _ _).trans ?_
    refine (h.nodes i (Nat.zero_le i) (Nat.lt_succ_of_lt hi)).trans ?_
    exact Function.update_of_ne (by omega) _ _
  · exact h.aux j (Nat.zero_le j) hj
  · change b'.na + b.nn + 1 ≤ b'.nn + b.na
    omega
  · rcases Nat.eq_or_lt_of_le h1 with rfl | hlt
    · exact ⟨depth, hs⟩
    · obtain ⟨d, hd⟩ := h.all i hlt h2
      exact ⟨d, (hd.setNode (Nat.lt_succ_self _) node).weaken (Nat.le_succ _) le_rfl⟩

/-- What is below the node of an expression, seen from the filled node. -/
theorem Sound.filled {i depth : ℕ} (h : Sound arity b' b.newNode.nn b.newNode.na i depth)
    (node : PlanNode) : Sound arity (b'.setNode b.nn node) b.nn b.na i depth :=
  (h.setNode (Nat.lt_succ_self _) node).weaken (Nat.le_succ _) le_rfl

/-- The leaves: a node that refers to a literal. -/
theorem leaf_prepared {v : Handle} {depth : ℕ} (hf : (b.newNode.literal v).1.failed = false)
    (node : PlanNode) (ha : node.a = u16 (b.newNode.literal v).2)
    (hop : node.op = .const ∨ node.op = .nonlocal ∨ node.op = .fallback) :
    Prepared arity b ((b.newNode.literal v).1.setNode b.nn node) b.nn depth := by
  have hnode : ((b.newNode.literal v).1.setNode b.nn node).nodes b.nn = node :=
    Function.update_self ..
  have hnn : (b.newNode.literal v).1.nn = b.nn + 1 := literal_nn b.newNode.toUsage v
  refine ((Below.refl arity b.newNode).literal v hf).finish node
    (.literal le_rfl ?_ (by rw [hnode]; exact hop) ?_)
  · change b.nn < (b.newNode.literal v).1.nn
    omega
  · rw [hnode, ha]
    exact (u16_le _).trans_lt (literal_failed hf).2.1

/-- **The node of an expression with argument slots is filled** before its arguments are
prepared. -/
theorem Below.finishArgs {b'' : PlanBuild} {node : PlanNode} {n depth : ℕ}
    (h : Below arity b.newNode b')
    (hargs : ArgsPrepared arity ((b'.setNode b.nn node).reserve n) b'' b'.na n depth)
    (hs : b''.nodes b.nn = node → b.nn < b''.nn → b'.na + n ≤ b''.na →
      (∀ i d, Sound arity b' b.newNode.nn b.newNode.na i d → Sound arity b'' b.nn b.na i d) →
      (∀ j < n, Sound arity b'' b.nn b.na (b''.aux (b'.na + j)) depth) →
      Sound arity b'' b.nn b.na b.nn depth) :
    Prepared arity b b'' b.nn depth := by
  have h1 : b.nn + 1 ≤ b'.nn := h.nn
  have h2 : b.na ≤ b'.na := h.na
  have h3 : b'.nn ≤ b''.nn := hargs.nn
  have h4 : b'.na + n ≤ b''.na := hargs.na
  have h5 : b'.na + (b.nn + 1) + 0 ≤ b'.nn + b.na := h.surplus
  have h6 : b''.na + b'.nn + n ≤ b''.nn + (b'.na + n) := hargs.surplus
  have hnode : ∀ i, i ≠ b.nn → i < b'.nn → b''.nodes i = b'.nodes i := fun i hne hi =>
    (hargs.nodes i hi).trans (Function.update_of_ne hne _ _)
  have haux : ∀ j < b'.na, b''.aux j = b'.aux j := fun j hj =>
    hargs.aux j (Nat.lt_of_lt_of_le hj (Nat.le_add_right _ n)) (Or.inl hj)
  have hkeep : ∀ i d, Sound arity b' b.newNode.nn b.newNode.na i d →
      Sound arity b'' b.nn b.na i d := fun i d hd => by
    refine (hd.agrees ⟨h3, by omega, hargs.literals, fun k hk hlt => ?_, fun j _ hj => haux j hj⟩).weaken
      (Nat.le_succ _) le_rfl
    have hk' : b.nn + 1 ≤ k := hk
    exact hnode k (by omega) hlt
  have hslots : ∀ j < n, Sound arity b'' b.nn b.na (b''.aux (b'.na + j)) depth := fun j hj =>
    (hargs.sound j hj).weaken (Nat.le_of_succ_le h1) (h2.trans (Nat.le_add_right _ n))
  have hhere := hs ((hargs.nodes b.nn h1).trans (Function.update_self ..)) (by omega) h4 hkeep hslots
  refine ⟨⟨⟨by omega, by omega, h.literals.trans hargs.literals, fun i _ hi => ?_, fun j _ hj => ?_⟩,
    by omega⟩, rfl, hhere, fun i hlo hi => ?_⟩
  · refine (hnode i (by omega) (by omega)).trans ?_
    refine (h.nodes i (Nat.zero_le i) (Nat.lt_succ_of_lt hi)).trans ?_
    exact Function.update_of_ne (by omega) _ _
  · exact (haux j (by omega)).trans (h.aux j (Nat.zero_le j) hj)
  · rcases Nat.eq_or_lt_of_le hlo with rfl | hlt
    · exact ⟨depth, hhere⟩
    · by_cases hi' : i < b'.nn
      · obtain ⟨d, hd⟩ := h.all i hlt hi'
        exact ⟨d, hkeep i d hd⟩
      · obtain ⟨d, hd⟩ := hargs.all i (Nat.le_of_not_lt hi') hi
        exact ⟨d, hd.weaken (Nat.le_of_succ_le h1) (h2.trans (Nat.le_add_right _ n))⟩

/-- A local variable that is found is one of a frame of the plan. -/
theorem planLocal_range {params : List Text} {name : Text} {scope : Scope} {depth up slot : ℕ}
    (hscope : ∀ q ∈ scope, 1 ≤ q.2 ∧ q.2 ≤ depth)
    (h : planLocal params name scope depth = some (up, slot)) :
    up ≤ depth ∧ (up = depth → slot < params.length) := by
  unfold planLocal at h
  split at h
  · rename_i q hq
    obtain ⟨h1, h2⟩ := hscope q (List.mem_of_find?_eq_some hq)
    simp only [Option.some.injEq, Prod.mk.injEq] at h
    obtain ⟨rfl, rfl⟩ := h
    have := u16_le (depth - q.2)
    exact ⟨by omega, fun _ => by omega⟩
  · split_ifs at h with hmem
    simp only [Option.some.injEq, Prod.mk.injEq] at h
    obtain ⟨rfl, rfl⟩ := h
    exact ⟨u16_le depth, fun _ => (u16_le _).trans_lt (List.idxOf_lt_length_of_mem hmem)⟩

/-- What the tests of an expression say about its shape. -/
theorem shape_local {params : List Text} {scope : Scope} {depth up slot : ℕ} {e : Expr}
    (h : shape params scope depth e = .local_ up slot) :
    ∃ name, planLocal params name scope depth = some (up, slot) := by
  unfold shape at h
  split at h
  · rename_i name
    split at h
    · rename_i hl
      cases h
      exact ⟨name, hl⟩
    · cases h
  · split at h
    · cases h
    · split_ifs at h
      split at h <;> cases h
  · cases h

theorem shape_logic {params : List Text} {scope : Scope} {depth : ℕ} {e x y : Expr} {op : PlanOp}
    (h : shape params scope depth e = .logic op x y) : op = .and ∨ op = .or := by
  unfold shape at h
  split at h
  · split at h <;> cases h
  · split at h
    · cases h
    · split_ifs at h
      split at h
      case h_4 =>
        cases h
        exact Or.inl rfl
      case h_5 =>
        cases h
        exact Or.inr rfl
      all_goals cases h
  · cases h

/-! ### The forms

The parts of an expression are prepared one after the other once its node has been taken. An expression
is prepared when its parts are and its node is filled. -/

/-- Slots that are reserved but not yet filled stay within the nodes to come. -/
theorem Below.room (h : Below arity b b') (hpre : b.na ≤ b.nn + p) : b'.na ≤ b'.nn + p := by
  have := h.surplus
  omega

theorem Prepared.room {id depth : ℕ} (h : Prepared arity b b' id depth) (hpre : b.na ≤ b.nn + p) :
    b'.na ≤ b'.nn + p := by
  have := h.surplus
  omega

theorem setNode_self (b : PlanBuild) (id : ℕ) (node : PlanNode) :
    (b.setNode id node).nodes id = node :=
  Function.update_self ..

/-- An operand of the filled node: its index fits the field. -/
theorem Sound.operand {i depth : ℕ} (h : Sound arity b' b.newNode.nn b.newNode.na i depth)
    (hl : b'.nn ≤ planLimit) (node : PlanNode) :
    Sound arity (b'.setNode b.nn node) b.nn b.na (u16 i) depth := by
  have := h.lt
  rw [u16_eq (by omega)]
  exact h.filled node

theorem local_prepared {up slot depth : ℕ} (hup : up ≤ depth) (hslot : up = depth → slot < arity) :
    Prepared arity b (b.newNode.setNode b.nn { op := .local_, a := up, b := slot }) b.nn depth := by
  refine (Below.refl arity b.newNode).finish _ (.local_ le_rfl (Nat.lt_succ_self _) ?_ ?_ ?_)
  all_goals rw [setNode_self]
  · exact hup
  · exact hslot

theorem if_prepared {c1 c2 c3 : PlanBuild} {x y z depth : ℕ}
    (hx : Prepared arity b.newNode c1 x depth) (hy : Prepared arity c1 c2 y depth)
    (hz : Prepared arity c2 c3 z depth) (hl : c3.nn ≤ planLimit) :
    Prepared arity b (c3.setNode b.nn { op := .if_, a := u16 x, b := u16 y, c := u16 z }) b.nn
      depth := by
  obtain ⟨hb1, hs1, -⟩ := (Below.refl arity b.newNode).next hx
  obtain ⟨hb2, hs2, hk2⟩ := hb1.next hy
  obtain ⟨hb3, hs3, hk3⟩ := hb2.next hz
  refine hb3.finish _ (.if_ le_rfl hb3.nn ?_ ?_ ?_ ?_)
  all_goals rw [setNode_self]
  · exact (hk3 _ _ (hk2 _ _ hs1)).operand hl _
  · exact (hk3 _ _ hs2).operand hl _
  · exact hs3.operand hl _

theorem let_prepared {c1 c2 : PlanBuild} {v : Handle} {value body depth : ℕ}
    (hf : (b.newNode.literal v).1.failed = false)
    (hvalue : Prepared arity (b.newNode.literal v).1 c1 value depth)
    (hbody : Prepared arity c1 c2 body (depth + 1)) (hl : c2.nn ≤ planLimit) :
    Prepared arity b (c2.setNode b.nn
      { op := .let_, a := u16 (b.newNode.literal v).2, b := u16 value, c := u16 body }) b.nn
      depth := by
  obtain ⟨hb1, hs1, -⟩ := ((Below.refl arity b.newNode).literal v hf).next hvalue
  obtain ⟨hb2, hs2, hk2⟩ := hb1.next hbody
  refine hb2.finish _ (.let_ le_rfl hb2.nn ?_ ?_ ?_ ?_)
  all_goals rw [setNode_self]
  · refine (u16_le _).trans_lt ((literal_failed hf).2.1.trans_le ?_)
    exact hvalue.literals.trans hbody.literals
  · exact (hk2 _ _ hs1).operand hl _
  · exact hs2.operand hl _

theorem logic_prepared {c1 c2 : PlanBuild} {op : PlanOp} {x y depth : ℕ} (hop : op = .and ∨ op = .or)
    (hx : Prepared arity b.newNode c1 x depth) (hy : Prepared arity c1 c2 y depth)
    (hl : c2.nn ≤ planLimit) :
    Prepared arity b (c2.setNode b.nn { op := op, a := u16 x, b := u16 y }) b.nn depth := by
  obtain ⟨hb1, hs1, -⟩ := (Below.refl arity b.newNode).next hx
  obtain ⟨hb2, hs2, hk2⟩ := hb1.next hy
  refine hb2.finish _ (.logic le_rfl hb2.nn ?_ ?_ ?_)
  all_goals rw [setNode_self]
  · exact hop
  · exact (hk2 _ _ hs1).operand hl _
  · exact hs2.operand hl _

theorem type_prepared {c : PlanBuild} {x depth : ℕ} (hx : Prepared arity b.newNode c x depth)
    (hl : c.nn ≤ planLimit) :
    Prepared arity b (c.setNode b.nn { op := .type, a := u16 x }) b.nn depth := by
  obtain ⟨hb1, hs1, -⟩ := (Below.refl arity b.newNode).next hx
  refine hb1.finish _ (.type le_rfl hb1.nn ?_ ?_)
  all_goals rw [setNode_self]
  exact hs1.operand hl _

theorem cond_prepared {c : PlanBuild} {count depth : ℕ}
    (hclauses : ArgsPrepared arity ((b.newNode.setNode b.nn
      { op := .cond, a := b.newNode.na, n := u16 count }).reserve (2 * count)) c b.newNode.na
      (2 * count) depth) :
    Prepared arity b c b.nn depth := by
  refine (Below.refl arity b.newNode).finishArgs hclauses fun hnode hlt hna _ hslots => ?_
  have hcount := u16_le count
  refine .cond le_rfl hlt ?_ ?_ ?_ fun j hj => ?_
  all_goals rw [hnode] at *
  · exact Nat.le_refl b.na
  · change b.newNode.na + 2 * u16 count ≤ _
    omega
  · have hj' : j < 2 * u16 count := hj
    exact hslots j (by omega)

theorem call_prepared {c1 c2 : PlanBuild} {op : PlanOp} {head n depth : ℕ}
    (hop : op = .call ∨ op = .callExpr) (hhead : Prepared arity b.newNode c1 head depth)
    (hargs : ArgsPrepared arity ((c1.setNode b.nn
      { op := op, a := head, b := c1.na, n := u16 n }).reserve n) c2 c1.na n depth) :
    Prepared arity b c2 b.nn depth := by
  obtain ⟨hb1, hs1, -⟩ := (Below.refl arity b.newNode).next hhead
  refine hb1.finishArgs hargs fun hnode hlt hna hkeep hslots => ?_
  have hn := u16_le n
  refine .call le_rfl hlt ?_ ?_ ?_ ?_ fun j hj => ?_
  all_goals rw [hnode] at *
  · exact hop
  · exact hkeep _ _ hs1
  · exact hb1.na
  · change c1.na + u16 n ≤ _
    omega
  · have hj' : j < u16 n := hj
    exact hslots j (by omega)

theorem scope_let {name : Text} {scope : Scope} {depth : ℕ}
    (h : ∀ q ∈ scope, 1 ≤ q.2 ∧ q.2 ≤ depth) :
    ∀ q ∈ (name, depth + 1) :: scope, 1 ≤ q.2 ∧ q.2 ≤ depth + 1 := by
  intro q hq
  rcases List.mem_cons.mp hq with rfl | hq
  · exact ⟨Nat.succ_pos depth, le_rfl⟩
  · obtain ⟨h1, h2⟩ := h q hq
    exact ⟨h1, Nat.le_succ_of_le h2⟩

/-- **A preparation that does not fail is sound**, and takes more nodes than slots. `p` is the number
of slots that are reserved but not yet filled. -/
theorem planCompile_prepared (params : List Text) (fuel : ℕ) {b : PlanBuild} (e : Expr)
    (scope : Scope) (depth p : ℕ) (hscope : ∀ q ∈ scope, 1 ≤ q.2 ∧ q.2 ≤ depth)
    (hf : (planCompile params fuel b e scope depth).1.failed = false) (hpre : b.na ≤ b.nn + p)
    (hlimit : (planCompile params fuel b e scope depth).1.nn + p ≤ planLimit) :
    Prepared params.length b (planCompile params fuel b e scope depth).1
      (planCompile params fuel b e scope depth).2 depth := by
  induction fuel generalizing b e scope depth p with
  | zero => cases hf
  | succ fuel ih =>
    have hmore := fun (b : PlanBuild) (x : Expr) =>
      planCompile_more params fuel (b := b) x scope depth
    have haux : b.newNode.na ≤ planLimit := by
      have htaken := (planCompile_more params (fuel + 1) e scope depth hf).nodes
      change b.na ≤ planLimit
      omega
    unfold planCompile at hf hlimit ⊢
    by_cases hstop : b.failed = true ∨ b.nn = planLimit
    · rw [if_pos hstop] at hf
      cases hf
    rw [if_neg hstop] at hf hlimit ⊢
    have hnew : b.newNode.na ≤ b.newNode.nn + p := by
      change b.na ≤ b.nn + 1 + p
      omega
    dsimp only at hf hlimit ⊢
    rw [checkRoom_eq haux] at hf hlimit ⊢
    have hlocal : ∀ up slot, shape params scope depth e = .local_ up slot →
        ∃ name, planLocal params name scope depth = some (up, slot) := fun _ _ => shape_local
    have hlogic : ∀ op x y, shape params scope depth e = .logic op x y → op = .and ∨ op = .or :=
      fun _ _ _ => shape_logic
    have hcond : ∀ count xs, shape params scope depth e = .cond count (some xs) →
        xs.length = 2 * count := fun _ _ => shape_cond
    generalize shape params scope depth e = form at hf hlimit hlocal hlogic hcond ⊢
    cases form with
    | literal => exact leaf_prepared hf _ rfl (Or.inl rfl)
    | local_ up slot =>
      obtain ⟨name, hname⟩ := hlocal up slot rfl
      obtain ⟨hup, hslot⟩ := planLocal_range hscope hname
      exact local_prepared hup hslot
    | nonlocal => exact leaf_prepared hf _ rfl (Or.inr (Or.inl rfl))
    | if_ x y z =>
      have m3 := hmore _ z hf
      have m2 := hmore _ y m3.failed
      have l2 := m3.limit hlimit
      have hx := ih x scope depth p hscope m2.failed hnew (m2.limit l2)
      have hy := ih y scope depth p hscope m3.failed (hx.room hnew) l2
      have hz := ih z scope depth p hscope hf (hy.room (hx.room hnew)) hlimit
      exact if_prepared hx hy hz (Nat.le_of_add_right_le hlimit)
    | let_ name value body =>
      have m2 := planCompile_more params fuel body _ _ hf
      have m1 := hmore _ value m2.failed
      have hb := (Below.refl params.length b.newNode).literal (.symbol name) m1.failed
      have hvalue := ih value scope depth p hscope m2.failed (hb.room hnew) (m2.limit hlimit)
      have hbody := ih body _ (depth + 1) p (scope_let hscope) hf (hvalue.room (hb.room hnew)) hlimit
      exact let_prepared m1.failed hvalue hbody (Nat.le_of_add_right_le hlimit)
    | cond count clauses =>
      dsimp only at hf hlimit ⊢
      by_cases hfull : b.newNode.room / 2 < count
      · rw [if_pos hfull] at hf ⊢
        exact leaf_prepared hf _ rfl (Or.inr (Or.inr rfl))
      rw [if_neg hfull] at hf hlimit ⊢
      cases clauses with
      | none => exact leaf_prepared hf _ rfl (Or.inr (Or.inr rfl))
      | some xs =>
        have hlen := hcond count xs rfl
        dsimp only at hf hlimit ⊢
        rw [u16_eq haux] at hf hlimit ⊢
        have hargs := planArgs_prepared (p := p) hmore
          (fun c x q => ih (b := c) x scope depth q hscope) xs hf
          (by change b.na + xs.length ≤ b.na + 2 * count; omega)
          (by change b.na + 2 * count + 1 ≤ b.nn + 1 + p + xs.length; omega) hlimit
        rw [hlen] at hargs
        exact cond_prepared hargs
    | logic op x y =>
      have m2 := hmore _ y hf
      have hx := ih x scope depth p hscope m2.failed hnew (m2.limit hlimit)
      have hy := ih y scope depth p hscope hf (hx.room hnew) hlimit
      exact logic_prepared (hlogic op x y rfl) hx hy (Nat.le_of_add_right_le hlimit)
    | type x =>
      exact type_prepared (ih x scope depth p hscope hf hnew hlimit)
        (Nat.le_of_add_right_le hlimit)
    | quote x => exact leaf_prepared hf _ rfl (Or.inl rfl)
    | call head args =>
      dsimp only at hf hlimit ⊢
      by_cases hfull : b.newNode.room < args.length
      · rw [if_pos hfull] at hf ⊢
        exact leaf_prepared hf _ rfl (Or.inr (Or.inr rfl))
      rw [if_neg hfull] at hf hlimit ⊢
      have m2 := planArgs_more hmore args hf
      have l1 := (More.limit (b := (planCompile params fuel b.newNode head scope depth).1)
        ⟨m2.failed, m2.nodes⟩ hlimit)
      have hhead := ih head scope depth p hscope m2.failed hnew l1
      have hid := hhead.sound.lt
      have hsurplus := hhead.surplus
      generalize planCompile params fuel b.newNode head scope depth = h1 at *
      rw [u16_eq (n := h1.1.na) (by omega), u16_eq (n := h1.2) (by omega)] at hf hlimit ⊢
      have hargs := planArgs_prepared (p := p) hmore
        (fun c x q => ih (b := c) x scope depth q hscope) args hf le_rfl
        (by
          change h1.1.na + args.length + 1 ≤ h1.1.nn + p + args.length
          omega) hlimit
      refine call_prepared ?_ hhead hargs
      by_cases hsym : head.isSymbol = true
      · exact Or.inl (if_pos hsym)
      · exact Or.inr (if_neg hsym)
    | fallback => exact leaf_prepared hf _ rfl (Or.inr (Or.inr rfl))

/-- **A finished plan names only entries of its tables**: below the root, and at every node. -/
theorem planPrepare_sound {params : List Text} {e : Expr} {plan : PlanBuild} {root : ℕ}
    (h : planPrepare params e = some (plan, root)) :
    Sound params.length plan 0 0 root 0 ∧ ∀ i < plan.nn, ∃ d, Sound params.length plan 0 0 i d := by
  unfold planPrepare at h
  split at h
  swap
  · cases h
  split_ifs at h
  dsimp only at h
  split_ifs at h with hdone
  rw [Option.some.injEq] at h
  rw [not_or, Bool.not_eq_true] at hdone
  have hprepared := planCompile_prepared params planDepth _ [] 0 0
    (fun q hq => absurd hq List.not_mem_nil) hdone.1 le_rfl
    (planCompile_nn params planDepth _ [] 0 (Nat.zero_le planLimit))
  rw [h] at hprepared
  exact ⟨hprepared.sound, fun i hi => hprepared.all i (Nat.zero_le i) hi⟩

/-- A preparation that fails makes no plan. -/
theorem planPrepare_failed {params : List Text} {e : Expr}
    (h : (planCompile params planDepth {} e [] 0).1.failed = true) : planPrepare params e = none := by
  unfold planPrepare
  split
  · split_ifs
    · rfl
    · rfl
    · exact if_pos (Or.inl h)
  · rfl

/-! ### When the preparation is safe -/

/-- **What is asked of the preparation**: it writes into the tables only, no subtraction for the room
wraps, a finished plan names only entries of its tables, and a preparation that fails makes no
plan. -/
structure Meets (params : List Text) (e : Expr) : Prop where
  inBounds : (planCompile params planDepth {} e [] 0).1.fault = false
  noWrap : (planCompile params planDepth {} e [] 0).1.wrapped = false
  inRange : ∀ plan root, planPrepare params e = some (plan, root) →
    Sound params.length plan 0 0 root 0 ∧ ∀ i < plan.nn, ∃ d, Sound params.length plan 0 0 i d
  failed : (planCompile params planDepth {} e [] 0).1.failed = true → planPrepare params e = none

theorem start_within : Within {} := ⟨Nat.zero_le _, Nat.zero_le _, Nat.zero_le _⟩

/-- Without room for the arguments of some application, a table is overrun. -/
theorem overrun_of_not_headsFit {params : List Text} {e : Expr} (h : ¬HeadsFit params e) :
    (planCompile params planDepth {} e [] 0).1.fault = true :=
  (planCompile_follows params planDepth e [] 0 start_within).overrun (Bool.not_eq_true _ ▸ h)

/-- **The preparation is safe exactly if the arguments of every application fit** into the slots that
its head has left. -/
theorem plan_safe_iff (params : List Text) (e : Expr) : Meets params e ↔ HeadsFit params e := by
  constructor
  · intro h
    by_contra hfit
    have hfault := overrun_of_not_headsFit hfit
    rw [h.inBounds] at hfault
    exact absurd hfault (by decide)
  · intro hfit
    obtain ⟨hfault, hwrapped, -⟩ :=
      (planCompile_follows params planDepth e [] 0 start_within).fits hfit
    exact ⟨hfault, hwrapped, fun _ _ => planPrepare_sound, planPrepare_failed⟩

/-! ### An application whose head fills the slots -/

/-- A list of expressions. The addresses of its pairs do not matter here. -/
def listExpr : List Expr → Expr
  | [] => .nil
  | x :: xs => .pair 0 x (listExpr xs)

theorem listExpr_list? (xs : List Expr) : (listExpr xs).list? = some xs := by
  induction xs with
  | nil => rfl
  | cons x xs ih => rw [listExpr, Expr.list?, ih, Option.map_some]

/-- The application of `f` to `n` arguments `x`. -/
def wide (n : ℕ) : Expr := listExpr (.symbol (ascii "f") :: List.replicate n (.symbol (ascii "x")))

theorem shape_listExpr {head : Expr} {args : List Expr} (hargs : args.length ≤ planLimit)
    (hform : headForm [] [] 0 head = .call) : shape [] [] 0 (listExpr (head :: args)) = .call head args := by
  rw [listExpr, shape, listExpr_list?]
  dsimp only
  rw [if_neg (Nat.not_lt_of_le hargs), hform]

/-- A symbol takes no slot. -/
theorem layout_symbol_na (params : List Text) (fuel : ℕ) (u : Usage) (name : Text) (scope : Scope)
    (depth : ℕ) : (layout params fuel u (.symbol name) scope depth).1.na = u.na := by
  cases fuel with
  | zero => rfl
  | succ fuel =>
    rw [layout, shape]
    split_ifs
    · rfl
    · cases planLocal params name scope depth with
      | none => exact literal_na { u with nn := u.nn + 1 } _
      | some r => rfl

theorem layoutArgs_symbols_na (params : List Text) (fuel n : ℕ) (u : Usage) (name : Text)
    (scope : Scope) (depth : ℕ) :
    (layoutArgs (fun u x => layout params fuel u x scope depth) u
      (List.replicate n (.symbol name))).1.na = u.na := by
  induction n generalizing u with
  | zero => rfl
  | succ n ih =>
    rw [List.replicate_succ, layoutArgs, ih]
    exact layout_symbol_na params fuel u name scope depth

theorem layout_call {fuel : ℕ} {u : Usage} {head : Expr} {args : List Expr} {h s : Usage × Bool}
    (hf : u.failed = false) (hn : u.nn ≠ planLimit) (hargs : args.length ≤ planLimit)
    (hroom : args.length ≤ planLimit - u.na) (hform : headForm [] [] 0 head = .call)
    (hh : layout [] fuel { u with nn := u.nn + 1 } head [] 0 = h)
    (hs : layoutArgs (fun u x => layout [] fuel u x [] 0)
      { h.1 with na := h.1.na + args.length } args = s) :
    layout [] (fuel + 1) u (listExpr (head :: args)) [] 0 =
      (s.1, h.2 && (decide (h.1.na + args.length ≤ planLimit) && s.2)) := by
  have hgo : ¬(u.failed = true ∨ u.nn = planLimit) := by
    rw [hf]
    rintro (h | h)
    · cases h
    · exact hn h
  rw [layout, if_neg hgo, shape_listExpr hargs hform]
  dsimp only
  rw [if_neg (Nat.not_lt_of_le hroom), hh, hs]

/-- The slots of `wide n`. -/
theorem layout_wide_na {fuel n : ℕ} {u : Usage} (hf : u.failed = false) (hn : u.nn ≠ planLimit)
    (hl : n ≤ planLimit) (hroom : n ≤ planLimit - u.na) :
    (layout [] (fuel + 1) u (wide n) [] 0).1.na = u.na + n := by
  have hlen : (List.replicate n (Expr.symbol (ascii "x"))).length = n := List.length_replicate
  rw [wide, layout_call hf hn (hlen.trans_le hl) (hlen.trans_le hroom) (by decide) rfl rfl]
  dsimp only
  rw [layoutArgs_symbols_na]
  dsimp only
  rw [layout_symbol_na, hlen]

/-- The arguments of an application do not fit when those of its head have taken their slots. -/
theorem wide_not_headsFit {n k : ℕ} (hn : n ≤ planLimit) (hk : k ≤ planLimit)
    (h : planLimit < n + k) :
    ¬HeadsFit [] (listExpr (wide n :: List.replicate k (.symbol (ascii "x")))) := by
  have hlen : (List.replicate k (Expr.symbol (ascii "x"))).length = k := List.length_replicate
  obtain ⟨head, hhead⟩ : ∃ r, layout [] 127 { ({} : Usage) with nn := ({} : Usage).nn + 1 }
    (wide n) [] 0 = r := ⟨_, rfl⟩
  have hna : head.1.na = 0 + n := hhead ▸ layout_wide_na rfl (by decide) hn hn
  have hroom : k ≤ planLimit - ({} : Usage).na := hk
  rw [HeadsFit, planDepth, layout_call rfl (by decide) (hlen.trans_le hk) (hlen.trans_le hroom) rfl
    hhead rfl]
  dsimp only
  rw [hna, hlen, decide_eq_false (by omega), Bool.false_and, Bool.and_false]
  decide

/-- The application of `wide 4090` to seven arguments. -/
def overfull : Expr := listExpr (wide 4090 :: List.replicate 7 (.symbol (ascii "x")))

/-- **Seven arguments are written behind the 4090 of their head**: the last one is beyond the
table. -/
theorem overfull_overruns : ¬Meets [] overfull := by
  intro hmeets
  have hfault := overrun_of_not_headsFit
    (wide_not_headsFit (n := 4090) (k := 7) (by decide) (by decide) (by decide))
  exact absurd (hmeets.inBounds.symm.trans hfault) (by decide)

end ShenRc.Eval
