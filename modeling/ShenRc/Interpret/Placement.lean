import ShenRc.Eval.PlanSound
import ShenRc.Interpret.Meaning

/-! # What stays of a preparation

The tables of a plan are filled while the body is walked. A literal keeps its index, a node that has
been filled and a slot that has been written are in the finished plan as they are (`Placed`), and so
every argument of an application is found there as it has been prepared (`planArgs_ready`). -/

namespace ShenRc.Interpret

open Numeral Eval

variable {V : Type} {lo alo : ℕ} {b b' B : PlanBuild}

/-! ### Literals -/

/-- The literals have stayed where they were, within the table. -/
structure Kept (l l' : List Handle) : Prop where
  stay : l <+: l'
  small : l'.length ≤ planLimit

theorem Kept.trans {l l' l'' : List Handle} (h : Kept l l') (h' : Kept l' l'') : Kept l l'' :=
  ⟨h.stay.trans h'.stay, h'.small⟩

theorem Kept.refl {l : List Handle} (h : l.length ≤ planLimit) : Kept l l := ⟨List.prefix_rfl, h⟩

theorem literal_kept (h : b.literals.length ≤ planLimit) (v : Handle) :
    Kept b.literals (b.literal v).1.literals := by
  refine ⟨?_, literal_length h v⟩
  change b.literals <+: (b.toUsage.literal v).1.literals
  unfold Usage.literal
  split_ifs
  · exact List.prefix_rfl
  · exact List.prefix_rfl
  · exact List.prefix_append _ _

theorem planArgs_kept {compile : PlanBuild → Expr → PlanBuild × ℕ}
    (hc : ∀ b x, b.literals.length ≤ planLimit → Kept b.literals (compile b x).1.literals)
    (xs : List Expr) {b : PlanBuild} (i : ℕ) (h : b.literals.length ≤ planLimit) :
    Kept b.literals (planArgs compile b i xs).literals := by
  induction xs generalizing b i with
  | nil => exact .refl h
  | cons x xs ih =>
    have hx := hc b x h
    exact hx.trans (ih (b := (compile b x).1.setAux i (compile b x).2) (i + 1) hx.small)

/-- **A literal keeps its index.** -/
theorem planCompile_kept (params : List Text) (fuel : ℕ) {b : PlanBuild} (e : Expr)
    (scope : Scope) (depth : ℕ) (h : b.literals.length ≤ planLimit) :
    Kept b.literals (planCompile params fuel b e scope depth).1.literals := by
  induction fuel generalizing b e scope depth with
  | zero => exact .refl h
  | succ fuel ih =>
    have hargs := fun (xs : List Expr) (b : PlanBuild) (i : ℕ) =>
      planArgs_kept (b := b) (fun c x => ih (b := c) x scope depth) xs i
    unfold planCompile
    split_ifs
    · exact .refl h
    dsimp only
    split
    · exact literal_kept (b := b.newNode) h _
    · exact .refl h
    · exact literal_kept (b := b.newNode) h _
    · rename_i x y z _
      have h1 := ih (b := b.newNode) x scope depth h
      have h2 := ih y scope depth h1.small
      exact h1.trans (h2.trans (ih z scope depth h2.small))
    · rename_i name value body _
      have h1 := literal_kept (b := b.newNode) h (.symbol name)
      have h2 := ih value scope depth h1.small
      exact h1.trans (h2.trans (ih body _ _ h2.small))
    · split_ifs
      · exact literal_kept (b := b.newNode.checkRoom) h _
      · split
        · exact literal_kept (b := b.newNode.checkRoom) h _
        · exact hargs _ ((b.newNode.checkRoom.setNode b.nn _).reserve _) _ h
    · rename_i op x y _
      have h1 := ih (b := b.newNode) x scope depth h
      exact h1.trans (ih y scope depth h1.small)
    · exact ih (b := b.newNode) _ scope depth h
    · exact literal_kept (b := b.newNode) h _
    · rename_i head args _
      split
      · exact literal_kept (b := b.newNode.checkRoom) h _
      · have h1 := ih (b := b.newNode.checkRoom) head scope depth h
        exact h1.trans (hargs args ((PlanBuild.setNode _ b.nn _).reserve args.length) _ h1.small)
    · exact literal_kept (b := b.newNode) h _

/-- The index of a literal is that of its entry. -/
theorem literal_getElem? {v : Handle} (h : (b.literal v).1.failed = false) :
    (b.literal v).1.literals[(b.literal v).2]? = some v := by
  change (b.toUsage.literal v).1.failed = false at h
  change (b.toUsage.literal v).1.literals[(b.toUsage.literal v).2]? = some v
  unfold Usage.literal at h ⊢
  split_ifs at h ⊢ with hmem hfull
  · exact List.getElem?_idxOf hmem
  · exact absurd h (by simp [Usage.fail])
  · exact List.getElem?_concat_length

theorem literal_found {v : Handle} (hl : b.literals.length ≤ planLimit)
    (hf : (b.literal v).1.failed = false) (hB : (b.literal v).1.literals <+: B.literals) :
    B.literals.getD (u16 (b.literal v).2) .nil = v := by
  have hfound := literal_getElem? hf
  have hlt := (List.getElem?_eq_some_iff.mp hfound).1
  have hsmall : (b.literal v).1.literals.length ≤ planLimit := literal_length hl v
  obtain ⟨rest, hrest⟩ := hB
  rw [u16_eq (by omega), List.getD_eq_getElem?_getD, ← hrest, List.getElem?_append_left hlt, hfound]
  rfl

/-! ### Entries of the finished plan -/

/-- What has been taken from `lo` and `alo` on is in `B` as it is in `b`. -/
structure Placed (lo alo : ℕ) (b B : PlanBuild) : Prop extends Agrees lo alo b B where
  stay : b.literals <+: B.literals

theorem Placed.back (h : Placed lo alo b' B) (ha : Agrees lo alo b b')
    (hl : b.literals <+: b'.literals) : Placed lo alo b B := by
  have hnn := ha.nn
  have hna := ha.na
  refine ⟨⟨hnn.trans h.nn, hna.trans h.na, ha.literals.trans h.literals, fun i h1 h2 => ?_,
    fun j h1 h2 => ?_⟩, hl.trans h.stay⟩
  · exact (h.nodes i h1 (by omega)).trans (ha.nodes i h1 h2)
  · exact (h.aux j h1 (by omega)).trans (ha.aux j h1 h2)

theorem Placed.mono {lo' alo' : ℕ} (h : Placed lo alo b B) (h1 : lo ≤ lo') (h2 : alo ≤ alo') :
    Placed lo' alo' b B :=
  ⟨⟨h.nn, h.na, h.literals, fun i hi => h.nodes i (h1.trans hi), fun j hj => h.aux j (h2.trans hj)⟩,
    h.stay⟩

/-- **A node that has been filled is in the finished plan**, with what has been prepared below it. -/
theorem Placed.filled {node : PlanNode} (h : Placed b.nn b.na (b'.setNode b.nn node) B)
    (hlt : b.nn < b'.nn) : B.nodes b.nn = node ∧ Placed b.newNode.nn b.newNode.na b' B := by
  refine ⟨(h.nodes b.nn le_rfl hlt).trans (Function.update_self ..), ?_⟩
  refine ⟨⟨h.nn, h.na, h.literals, fun i h1 h2 => ?_, h.aux⟩, h.stay⟩
  have hne : b.nn + 1 ≤ i := h1
  exact (h.nodes i (by omega) h2).trans (Function.update_of_ne (by omega) _ _)

theorem leaf_placed {v : Handle} {node : PlanNode} (hl : b.literals.length ≤ planLimit)
    (hf : (b.newNode.literal v).1.failed = false)
    (h : Placed b.nn b.na ((b.newNode.literal v).1.setNode b.nn node) B) :
    B.nodes b.nn = node ∧ B.literals.getD (u16 (b.newNode.literal v).2) .nil = v := by
  have hnn : (b.newNode.literal v).1.nn = b.nn + 1 := literal_nn b.newNode.toUsage v
  exact ⟨(h.filled (by omega)).1, literal_found (b := b.newNode) hl hf h.stay⟩

/-- The last of the expressions that have been prepared, and what was there before it. -/
theorem Placed.last {arity id depth : ℕ} (h : Placed lo alo b' B) (hx : Prepared arity b b' id depth)
    (hk : Kept b.literals b'.literals) (hlo : lo ≤ b.nn) (halo : alo ≤ b.na) :
    Placed lo alo b B ∧ Placed b.nn b.na b' B :=
  ⟨h.back hx.toAgrees.mono hk.stay, h.mono hlo halo⟩

theorem index_eq {arity id depth p : ℕ} (hx : Prepared arity b b' id depth)
    (hl : b'.nn + p ≤ planLimit) : u16 id = id := by
  have hlt := hx.sound.lt
  exact u16_eq (by omega)

/-- **The node of an application is in the finished plan**, and so is its head. -/
theorem head_placed {arity id n depth : ℕ} {node : PlanNode} {b'' : PlanBuild}
    (hhead : Prepared arity b.newNode b' id depth)
    (hargs : ArgsPrepared arity ((b'.setNode b.nn node).reserve n) b'' b'.na n depth)
    (hk : Kept ((b'.setNode b.nn node).reserve n).literals b''.literals)
    (h : Placed b.nn b.na b'' B) :
    B.nodes b.nn = node ∧ Placed b.newNode.nn b.newNode.na b' B := by
  have hlt : b.nn < b'.nn := Nat.lt_of_succ_le hhead.nn
  have hna : b'.na ≤ b'.na + n := Nat.le_add_right _ _
  constructor
  · refine (h.nodes b.nn le_rfl (hlt.trans_le hargs.nn)).trans ?_
    exact (hargs.nodes b.nn hlt).trans (Function.update_self ..)
  · refine (h.mono (Nat.le_succ _) le_rfl).back ⟨hargs.nn, hna.trans hargs.na, hargs.literals,
      fun k h1 h2 => ?_, fun j _ hj => hargs.aux j (hj.trans_le hna) (Or.inl hj)⟩ hk.stay
    have hk' : b.nn + 1 ≤ k := h1
    exact (hargs.nodes k h2).trans (Function.update_of_ne (by omega) _ _)

/-- What the preparation of one expression can count on. -/
structure Ready (q : ℕ) (compile : PlanBuild → Expr → PlanBuild × ℕ) (c : PlanBuild) (x : Expr)
    (B : PlanBuild) : Prop where
  literals : c.literals.length ≤ planLimit
  failed : (compile c x).1.failed = false
  slots : c.na ≤ c.nn + q
  limit : (compile c x).1.nn + q ≤ planLimit
  placed : Placed c.nn c.na (compile c x).1 B

/-- **Every argument has been prepared** at some point, and its slot holds its node. -/
theorem planArgs_ready {arity p : ℕ} {compile : PlanBuild → Expr → PlanBuild × ℕ} {depth : ℕ}
    (hmore : ∀ b x, (compile b x).1.failed = false → More 1 b (compile b x).1)
    (hc : ∀ b x p, (compile b x).1.failed = false → b.na ≤ b.nn + p →
      (compile b x).1.nn + p ≤ planLimit → Prepared arity b (compile b x).1 (compile b x).2 depth)
    (hkept : ∀ b x, b.literals.length ≤ planLimit → Kept b.literals (compile b x).1.literals)
    (xs : List Expr) {b : PlanBuild} {i : ℕ} (hlit : b.literals.length ≤ planLimit)
    (hf : (planArgs compile b i xs).failed = false)
    (hi : i + xs.length ≤ b.na) (hpre : b.na + 1 ≤ b.nn + p + xs.length)
    (hlimit : (planArgs compile b i xs).nn + p ≤ planLimit)
    (hB : Placed b.nn i (planArgs compile b i xs) B) :
    ∀ j (hj : j < xs.length), ∃ q c, Ready q compile c xs[j] B ∧
      B.aux (i + j) = (compile c xs[j]).2 := by
  induction xs generalizing b i with
  | nil => exact fun j hj => absurd hj (Nat.not_lt_zero j)
  | cons x xs ih =>
    rw [List.length_cons] at hi hpre
    have hrest := planArgs_more hmore xs hf
    have hmono : (compile b x).1.nn + xs.length ≤ (planArgs compile b i (x :: xs)).nn := hrest.nodes
    have hx := hc b x (p + xs.length) hrest.failed (by omega) (by omega)
    obtain ⟨⟨⟨hxn, hxa, hxl, hxnodes, hxaux⟩, hxs⟩, hid, hxsound, hxall⟩ := hx
    have hlim : (planArgs compile ((compile b x).1.setAux i (compile b x).2) (i + 1) xs).nn + p ≤
      planLimit := hlimit
    have hi' : i + 1 + xs.length ≤ ((compile b x).1.setAux i (compile b x).2).na := by
      change i + 1 + xs.length ≤ (compile b x).1.na
      omega
    have hpre' : ((compile b x).1.setAux i (compile b x).2).na + 1 ≤
        ((compile b x).1.setAux i (compile b x).2).nn + p + xs.length := by
      change (compile b x).1.na + 1 ≤ (compile b x).1.nn + p + xs.length
      omega
    have h2 := planArgs_prepared hmore hc xs hf hi' hpre' hlim
    have hk := hkept b x hlit
    intro j hj
    rcases j with _ | j
    · have hagree : Agrees b.nn b.na (compile b x).1 (planArgs compile b i (x :: xs)) :=
        ⟨h2.nn, h2.na, h2.literals, fun k _ hk => h2.nodes k hk, fun j h1 hj => by
          refine (h2.aux j hj (Or.inr (by omega))).trans ?_
          exact Function.update_of_ne (by omega) _ _⟩
      refine ⟨p + xs.length, b, ⟨hlit, hrest.failed, by omega, by simp; omega, ?_⟩, ?_⟩
      · exact (hB.mono le_rfl (by omega)).back hagree
          (planArgs_kept (b := (compile b x).1.setAux i (compile b x).2) hkept xs (i + 1) hk.small).stay
      · have hlt : (compile b x).2 ≤ planLimit := by
          have := hxsound.lt
          omega
        have hslot : i < (planArgs compile b i (x :: xs)).na :=
          (by change i < (compile b x).1.na; omega : i < ((compile b x).1.setAux i _).na).trans_le h2.na
        refine (hB.aux i le_rfl hslot).trans ?_
        refine (h2.aux i (by change i < (compile b x).1.na; omega) (Or.inl (by omega))).trans ?_
        exact (Function.update_self i _ _).trans (u16_eq hlt)
    · obtain ⟨q, c, hready, hslot⟩ := ih (b := (compile b x).1.setAux i (compile b x).2)
        hk.small hf hi' hpre' hlim (hB.mono hxn (Nat.le_succ i)) j (Nat.lt_of_succ_lt_succ hj)
      exact ⟨q, c, hready, by rw [show i + (j + 1) = i + 1 + j by omega]; exact hslot⟩

/-! ### Captured expressions -/

/-- Every pair of the expression is at its address. -/
def Stored (memory : Handle → Expr) : Expr → Prop
  | .pair a head tail =>
    memory (.cell a) = .pair a head tail ∧ Stored memory head ∧ Stored memory tail
  | _ => True

theorem Stored.elements {memory : Handle → Expr} {e : Expr} {xs : List Expr}
    (h : Stored memory e) (hxs : e.list? = some xs) : ∀ x ∈ xs, Stored memory x := by
  induction e generalizing xs with
  | nil =>
    obtain rfl := Option.some.inj hxs
    exact fun x hx => absurd hx List.not_mem_nil
  | symbol name => exact absurd hxs (by simp [Expr.list?])
  | atom a => exact absurd hxs (by simp [Expr.list?])
  | pair a head tail _ ih =>
    obtain ⟨ys, hys, rfl⟩ := Option.map_eq_some_iff.mp hxs
    intro x hx
    rcases List.mem_cons.mp hx with rfl | hx
    · exact h.2.1
    · exact ih h.2.2 hys x hx

theorem Stored.clauses {memory : Handle → Expr} {cs xs : List Expr}
    (h : ∀ c ∈ cs, Stored memory c) (hxs : clauses? cs = some xs) : ∀ x ∈ xs, Stored memory x := by
  induction cs generalizing xs with
  | nil =>
    obtain rfl := Option.some.inj hxs
    exact fun x hx => absurd hx List.not_mem_nil
  | cons c cs ih =>
    unfold clauses? at hxs
    split at hxs
    · rename_i test body hc
      obtain ⟨ys, hys, rfl⟩ := Option.map_eq_some_iff.mp hxs
      have helements := (h c List.mem_cons_self).elements hc
      intro x hx
      rcases List.mem_cons.mp hx with rfl | hx
      · exact helements x List.mem_cons_self
      rcases List.mem_cons.mp hx with rfl | hx
      · exact helements x (List.mem_cons_of_mem _ List.mem_cons_self)
      · exact ih (fun c hc => h c (List.mem_cons_of_mem _ hc)) hys x hx
    · exact absurd hxs (by simp)

/-- The expressions that are prepared for a shape. -/
def parts : Shape → List Expr
  | .if_ x y z => [x, y, z]
  | .let_ _ value body => [value, body]
  | .cond _ (some xs) => xs
  | .logic _ x y => [x, y]
  | .type x => [x]
  | .call head args => head :: args
  | _ => []

theorem Stored.parts {memory : Handle → Expr} {params : List Text} {scope : Scope} {depth : ℕ}
    {e : Expr} (h : Stored memory e) :
    ∀ x ∈ parts (shape params scope depth e), Stored memory x := by
  have hnone : ∀ x ∈ ([] : List Expr), Stored memory x := fun x hx => absurd hx List.not_mem_nil
  rcases e with _ | name | a | ⟨a, head, args⟩
  · exact hnone
  · unfold shape
    dsimp only
    rcases planLocal params name scope depth with _ | ⟨up, slot⟩
    · exact hnone
    · exact hnone
  · exact hnone
  · unfold shape
    dsimp only
    rcases hxs : args.list? with _ | xs
    · exact hnone
    have helements := h.2.2.elements hxs
    dsimp only
    split_ifs
    · exact hnone
    split
    · exact helements
    · exact fun x hx => helements x (List.mem_cons_of_mem _ hx)
    · rename_i xs _ _ _ _
      rcases hc : clauses? xs with _ | ys
      · exact hnone
      · exact Stored.clauses helements hc
    · exact helements
    · exact helements
    · intro x hx
      rw [List.mem_singleton.mp hx]
      exact helements _ List.mem_cons_self
    · exact hnone
    · intro x hx
      rcases List.mem_cons.mp hx with rfl | hx
      · exact h.2.1
      · exact helements x hx
    · exact hnone

/-- An expression that is neither a literal nor a symbol is a pair, at its address. -/
theorem Stored.memory_handle {memory : Handle → Expr} {params : List Text} {scope : Scope}
    {depth : ℕ} {e : Expr} (h : Stored memory e) (h1 : shape params scope depth e ≠ .literal)
    (h2 : ∀ up slot, shape params scope depth e ≠ .local_ up slot)
    (h3 : shape params scope depth e ≠ .nonlocal) : memory e.handle = e := by
  rcases e with _ | name | a | ⟨a, head, args⟩
  · exact absurd rfl h1
  · unfold shape at h2 h3
    dsimp only at h2 h3
    rcases hl : planLocal params name scope depth with _ | ⟨up, slot⟩
    · rw [hl] at h3
      exact absurd rfl h3
    · rw [hl] at h2
      exact absurd rfl (h2 up slot)
  · exact absurd rfl h1
  · exact h.1

theorem shape_call {params : List Text} {scope : Scope} {depth : ℕ} {e head : Expr}
    {args : List Expr} (h : shape params scope depth e = .call head args) :
    args.length ≤ planLimit := by
  unfold shape at h
  split at h
  · split at h <;> cases h
  · split at h
    · cases h
    · split_ifs at h with hlong
      split at h
      case h_8 =>
        obtain ⟨-, rfl⟩ := Shape.call.inj h
        omega
      all_goals cases h
  · cases h

theorem scopeOf_cons (name : Text) (v : V) (env : Env V) :
    scopeOf (((name, v) :: env).map Prod.fst) =
      (name, env.length + 1) :: scopeOf (env.map Prod.fst) := by
  rw [List.map_cons, scopeOf, List.length_map]

theorem scopeOf_range {names : List Text} {n : ℕ} (h : names.length = n) :
    ∀ q ∈ scopeOf names, 1 ≤ q.2 ∧ q.2 ≤ n := by
  induction names generalizing n with
  | nil => exact fun q hq => absurd hq List.not_mem_nil
  | cons name names ih =>
    rw [List.length_cons] at h
    intro q hq
    rcases List.mem_cons.mp hq with rfl | hq
    · exact ⟨Nat.succ_pos _, h.le⟩
    · obtain ⟨h1, h2⟩ := ih rfl q hq
      exact ⟨h1, by omega⟩

end ShenRc.Interpret
