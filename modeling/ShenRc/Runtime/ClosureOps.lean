import ShenRc.Runtime.PairOps

/-! # Closures, frames and requests keep the invariant

A closure, an evaluator frame or a tail request is allocated with the children it is given, which
are then retained, except those that are moved in. A partial application writes its bound arguments
into the closure it has just copied, which nothing holds yet. -/

namespace ShenRc.Runtime

open Relation ShenRc.Graph

namespace Ctx

variable {π : Policy} {s s' : Ctx} {O B : Own} {work : List ℕ} {P : Set Ref}

/-! ### Closures -/

/-- The moved captures and the others are all captures. -/
theorem owns_moved_kept (captures : List Ref) (moved : BitVec 32) :
    owns (movedRefs captures moved) + owns (keptRefs captures moved) = owns captures := by
  funext r
  have h : captures = captures.zipIdx.map Prod.fst := by simp
  have key : ∀ l : List (Ref × ℕ),
      ((l.filter fun p => moved.getLsbD p.2).map Prod.fst).count r +
        ((l.filter fun p => !moved.getLsbD p.2).map Prod.fst).count r =
      (l.map Prod.fst).count r := by
    intro l
    induction l with
    | nil => rfl
    | cons p l ih =>
      cases hb : moved.getLsbD p.2 <;> simp [hb, List.count_cons] <;> omega
  simp only [Pi.add_apply, owns, movedRefs, keptRefs]
  rw [← Nat.cast_add, key, ← h]

theorem mem_moved {captures : List Ref} {moved : BitVec 32} {v : Ref}
    (h : v ∈ movedRefs captures moved) : v ∈ captures := by
  simp only [movedRefs, List.mem_map, List.mem_filter] at h
  obtain ⟨p, ⟨hp, -⟩, rfl⟩ := h
  exact (List.mem_zipIdx' hp).2 ▸ List.getElem_mem _

theorem mem_kept {captures : List Ref} {moved : BitVec 32} {v : Ref}
    (h : v ∈ keptRefs captures moved) : v ∈ captures := by
  simp only [keptRefs, List.mem_map, List.mem_filter] at h
  obtain ⟨p, ⟨hp, -⟩, rfl⟩ := h
  exact (List.mem_zipIdx' hp).2 ▸ List.getElem_mem _

theorem retainAll_refs_ne {r : Ref} (vs : List Ref) (h : r ∉ vs) : ∀ s : Ctx,
    (s.retainAll vs).refs r = s.refs r := by
  induction vs with
  | nil => exact fun s => rfl
  | cons v vs ih =>
    intro s
    rw [List.mem_cons, not_or] at h
    change ((s.rcRetain v).retainAll vs).refs r = s.refs r
    rw [ih h.2]
    unfold rcRetain
    split
    · exact setRefs_ne s _ h.1
    · rfl

theorem retainAll_size (vs : List Ref) : ∀ s : Ctx, (s.retainAll vs).size = s.size := by
  induction vs with
  | nil => exact fun s => rfl
  | cons v vs ih =>
    intro s
    change ((s.rcRetain v).retainAll vs).size = s.size
    rw [ih]
    unfold rcRetain
    split <;> rfl

/-- The payload of a new closure. -/
abbrev newClosure (arity : ℕ) (native ownedNative : Option ℕ) (captures : List Ref) : Payload :=
  .closure { native, ownedNative, arity, captures, bound := [] }

theorem any_reach {vs : List Ref} {v : Ref} (hv : v ∈ vs) (hr : s.mayReachVector v = true) :
    vs.any s.mayReachVector = true := List.any_eq_true.mpr ⟨v, hv, hr⟩

/-- **`closure_create_moved`** returns nothing, or a new closure that only C code holds. -/
theorem closureCreateMoved_spec {captures : List Ref} {moved : BitVec 32}
    (h : Inv π s (B + owns (movedRefs captures moved)) [] P) (hB : NonNeg B)
    (hk : ∀ v ∈ captures, s.Handle P v) (arity : ℕ) (native ownedNative : Option ℕ) :
    (∃ s1, s.closureCreateMoved arity native ownedNative captures moved = (s1, .null) ∧
      Inv π s1 B [] P) ∨
    ∃ a s1, s.closureCreateMoved arity native ownedNative captures moved = (s1, .cell a) ∧
      Inv π s1 (B + own (.cell a)) [] P ∧ ¬ s.live a ∧ s1.refs (.cell a) = 1 ∧
      s1.heap = Function.update s.heap a (some (Ctx.fresh
        (newClosure arity native ownedNative captures) (captures.any s.mayReachVector))) ∧
      s1.payloadBytes = s.payloadBytes + captures.length * ptrBytes ∧
      (captures.length * ptrBytes = 0 ∨
        s.payloadBytes + captures.length * ptrBytes ≤ addressBytes) := by
  have hmoved : ∀ {s1 : Ctx}, Same s s1 → Inv π (s1.releaseAll (movedRefs captures moved)) B [] P :=
    fun {s1} hs => (releaseAll_inv _ (h.same hs) hB fun v hv => (hk v (mem_moved hv)).1).1
  unfold closureCreateMoved
  split
  · exact Or.inl ⟨_, rfl, (hmoved (Same.refl s)).same (same_rcError _ _)⟩
  split
  · exact Or.inl ⟨_, rfl, (hmoved (Same.refl s)).same (same_rcError _ _)⟩
  have hs := same_mallocPayload s (captures.length * ptrBytes)
  have hreach : ∀ v, (s.mallocPayload (captures.length * ptrBytes)).2.mayReachVector v =
      s.mayReachVector v := fun v => by
    cases v <;> simp only [mayReachVector]
    rw [show (s.mallocPayload (captures.length * ptrBytes)).2.heap = s.heap from
      congrArg Store.heap hs]
  simp only
  split
  swap
  · exact Or.inl ⟨_, rfl, (hmoved hs).same (same_rcError _ _)⟩
  rename_i hm
  have hfits := mallocPayload_fits h hm
  have hroom := mallocPayload_room hm
  generalize s.mallocPayload (captures.length * ptrBytes) = r at hs hreach hfits ⊢
  have hany : captures.any r.2.mayReachVector = captures.any s.mayReachVector := by
    congr 1; funext v; exact hreach v
  have hkids : (Ctx.fresh (newClosure arity native ownedNative captures)
      (captures.any r.2.mayReachVector)).edges = captures := List.append_nil captures
  rcases (h.same hs).alloc (hB.add (nonNeg_owns _)) (newClosure arity native ownedNative captures)
      (captures.any r.2.mayReachVector) (captures.length * ptrBytes)
      (by simpa [extraBytes] using hfits)
      (fun v hv => by
        rw [hkids] at hv
        exact ⟨(hk v hv).same hs, any_reach hv⟩)
      (by simp) (by simp) with ⟨s1, e, hs1⟩ | ⟨a, s1, e, hp, hi⟩
  · left
    rw [e]
    exact ⟨_, rfl, hmoved (hs.trans hs1)⟩
  · right
    rw [e]
    have hdead : ¬ s.live a := by
      have := hp.dead
      rwa [live, show r.2.heap = s.heap from congrArg Store.heap hs] at this
    have hne : Ref.cell a ∉ keptRefs captures moved := fun hm =>
      hdead ((hk _ (mem_kept hm)).2 a rfl)
    refine ⟨a, s1.retainAll (keptRefs captures moved), rfl, ?_, hdead, ?_, ?_, ?_, hroom⟩
    · have h1 := retainAll_inv (keptRefs captures moved) hi fun v hv =>
        ⟨(hk v (mem_kept hv)).1, fun b hb => hp.live b (((hk v (mem_kept hv)).same hs).2 b hb)⟩
      refine h1.eq ?_
      rw [hkids, ← owns_moved_kept captures moved]
      abel
    · rw [retainAll_refs_ne _ hne, hp.refs]
      simp
    · rw [retainAll_heap, hp.heap, hany, show r.2.heap = s.heap from congrArg Store.heap hs]
    · rw [payloadBytes_congr (retainAll_heap _ _) (retainAll_size _ _), hp.payload (h.same hs),
        payloadBytes_congr (congrArg Store.heap hs) (congrArg Store.size hs)]
      simp [extraBytes, Ctx.fresh]

theorem closureCreateMoved_inv {captures : List Ref} {moved : BitVec 32}
    (h : Inv π s (B + owns (movedRefs captures moved)) [] P) (hB : NonNeg B)
    (hk : ∀ v ∈ captures, s.Handle P v) (arity : ℕ) (native ownedNative : Option ℕ) :
    Inv π (s.closureCreateMoved arity native ownedNative captures moved).1
      (B + own (s.closureCreateMoved arity native ownedNative captures moved).2) [] P := by
  rcases closureCreateMoved_spec h hB hk arity native ownedNative with
    ⟨s1, e, hi⟩ | ⟨a, s1, e, hi, -⟩
  · rw [e]; exact hi.null
  · rw [e]; exact hi

theorem movedRefs_zero (captures : List Ref) : movedRefs captures 0 = [] := by
  simp [movedRefs]

/-- `closure_create` copies its captures. -/
theorem closureCreate_spec (h : Inv π s B [] P) (hB : NonNeg B) {captures : List Ref}
    (hk : ∀ v ∈ captures, s.Handle P v) (arity : ℕ) (native ownedNative : Option ℕ) :
    (∃ s1, s.closureCreate arity native ownedNative captures = (s1, .null) ∧ Inv π s1 B [] P) ∨
    ∃ a s1, s.closureCreate arity native ownedNative captures = (s1, .cell a) ∧
      Inv π s1 (B + own (.cell a)) [] P ∧ ¬ s.live a ∧ s1.refs (.cell a) = 1 ∧
      s1.heap = Function.update s.heap a (some (Ctx.fresh
        (newClosure arity native ownedNative captures) (captures.any s.mayReachVector))) ∧
      s1.payloadBytes = s.payloadBytes + captures.length * ptrBytes ∧
      (captures.length * ptrBytes = 0 ∨
        s.payloadBytes + captures.length * ptrBytes ≤ addressBytes) := by
  refine closureCreateMoved_spec ?_ hB hk arity native ownedNative
  rw [movedRefs_zero, owns_nil, add_zero]
  exact h

theorem closureCreate_inv (h : Inv π s B [] P) (hB : NonNeg B) {captures : List Ref}
    (hk : ∀ v ∈ captures, s.Handle P v) (arity : ℕ) (native ownedNative : Option ℕ) :
    Inv π (s.closureCreate arity native ownedNative captures).1
      (B + own (s.closureCreate arity native ownedNative captures).2) [] P := by
  rcases closureCreate_spec h hB hk arity native ownedNative with ⟨s1, e, hi⟩ | ⟨a, s1, e, hi, -⟩
  · rw [e]; exact hi.null
  · rw [e]; exact hi

theorem modify_toStore {a : ℕ} {o : Obj} (ho : s.heap a = some o) (f : Obj → Obj) :
    (s.modify a f).toStore =
      { s.toStore with heap := Function.update s.heap a (some (f o)) } := by
  unfold modify
  rw [ho]
  rfl

theorem modify_heap {a : ℕ} {o : Obj} (ho : s.heap a = some o) (f : Obj → Obj) :
    (s.modify a f).heap = Function.update s.heap a (some (f o)) := by
  unfold modify
  rw [ho]
  rfl

/-- Changing a cell frees none. -/
theorem modify_live {a b : ℕ} (f : Obj → Obj) : (s.modify a f).live b ↔ s.live b := by
  cases ho : s.heap a with
  | none => rw [live, live, modify, ho]
  | some o =>
    rw [live, live, modify_heap ho]
    by_cases hb : b = a
    · subst hb; simp [ho]
    · rw [Function.update_of_ne hb]

theorem pair_edges_eq {o : Obj} {hd tl : Ref} (hb : o.body = .pair hd tl) :
    o.edges = if pairPlan o = .null then [hd, tl] else [hd, tl, pairPlan o] := by
  unfold Obj.edges pairPlan
  rw [hb]
  cases o.plan <;> rfl

/-- The children depend on the contents and on the plan, not on the call count. -/
theorem edges_congr {o o' : Obj} (hb : o'.body = o.body) (hp : pairPlan o' = pairPlan o) :
    o'.edges = o.edges := by
  by_cases hpair : ∃ hd tl, o.body = .pair hd tl
  · obtain ⟨hd, tl, e⟩ := hpair
    rw [pair_edges_eq e, pair_edges_eq (hb.trans e), hp]
  · unfold Obj.edges
    rw [hb]
    cases e : o.body with
    | pair hd tl => exact absurd ⟨hd, tl, e⟩ hpair
    | _ => rfl

/-- **A change that the graph does not see**: the tags of a cell, the guards of a request and the
call count of a plan entry. -/
theorem Inv.touch (h : Inv π s O work P) (hO : NonNeg O) {a : ℕ} {o : Obj} {f : Obj → Obj}
    (ho : s.heap a = some o) (hpa : Ref.cell a ∉ P)
    (hb : (f o).body = o.body ∨
      ∃ fn args g g', o.body = .tail fn args g ∧ (f o).body = .tail fn args g')
    (hr : (f o).reachesVector = o.reachesVector) (hp : pairPlan (f o) = pairPlan o) :
    Inv π (s.modify a f) O work P := by
  have hs := modify_toStore ho f
  generalize s.modify a f = s' at hs ⊢
  generalize f o = o' at hb hr hp hs
  have hpair : ∀ hd tl, o'.body = .pair hd tl ↔ o.body = .pair hd tl := by
    intro hd tl
    rcases hb with e | ⟨fn, args, g, g', e, e'⟩
    · rw [e]
    · rw [e, e']; simp
  have hedges : o'.edges = o.edges := by
    rcases hb with e | ⟨fn, args, g, g', e, e'⟩
    · exact edges_congr e hp
    · unfold Obj.edges; rw [e, e']
  have hslots : o'.slots = o.slots := by
    rcases hb with e | ⟨fn, args, g, g', e, e'⟩
    · unfold Obj.slots; rw [e]
    · unfold Obj.slots; rw [e, e']
  have hextra : extraBytes o'.body = extraBytes o.body := by
    rcases hb with e | ⟨fn, args, g, g', e, e'⟩
    · rw [e]
    · rw [e, e']; rfl
  have hlive : s.live a := by rw [live, ho]; simp
  have hhold : ∀ r, r ∈ o'.edges ∨ r ∈ o'.slots → r ∉ P := by
    intro r hr
    rw [hedges, hslots, ← edges_of_some ho, ← slots_of_some ho] at hr
    exact h.not_priv hr
  have hkeep : o.Keeps o' := ⟨hr, fun hd tl => (hpair hd tl).mpr, fun he _ => hedges.trans he⟩
  have hbody : o'.body = o.body ∨ s.NoPlan a := by
    refine hb.imp id ?_
    rintro ⟨fn, args, g, g', e, -⟩ p op en hop hpp hen hq
    obtain ⟨oq, c, hoq, hbq, -⟩ := h.plans p a op en hop hpp hen hq
    rw [ho] at hoq
    cases hoq
    rw [e] at hbq
    cases hbq
  have key := h.rewrite ho hs (fun e => Or.inl (hr ▸ e))
    (fun w _ hw hm => by
      rw [hedges, ← edges_of_some ho] at hw
      have := h.flags a w hw hm
      rw [hr]
      simpa [mayReachVector, ho] using this)
    (fun items hi => by
      rw [hr]
      refine h.vec a o items ho ?_
      rcases hb with e | ⟨fn, args, g, g', e, e'⟩
      · rw [← e, hi]
      · rw [e'] at hi; cases hi)
    (fun hsrc => by
      obtain ⟨o1, items, ho1, hb1⟩ := h.srcVec a hsrc
      rw [ho] at ho1
      cases ho1
      rcases hb with e | ⟨fn, args, g, g', e, e'⟩
      · exact ⟨items, e.trans hb1⟩
      · rw [e] at hb1; cases hb1)
    (fun t g f hi => by
      rcases hb with e | ⟨fn, args, g, g', e, e'⟩
      · exact h.sym a o t g f ho (by rw [← e, hi])
      · rw [e'] at hi; cases hi)
    (by have := h.bytes; omega)
    (h.acyc_sub ho hs fun w hw => hedges ▸ hw)
    (h.plans_keep hO ho (by rw [hs]) hkeep hbody fun q e hpp he hq => by
      obtain ⟨hd, tl, hpp⟩ := hpp
      have hpp' := (hpair hd tl).mp hpp
      have e1 : pairPlan o = .cell q := by rw [← hp]; simp [pairPlan, he, hq]
      unfold pairPlan at e1
      cases he0 : o.plan with
      | none => simp [he0] at e1
      | some e0 =>
        simp only [he0, Option.map_some, Option.getD_some] at e1
        have hplan := h.plans a q o e0 ho ⟨hd, tl, hpp'⟩ he0 e1
        refine ⟨hplan, ?_⟩
        rintro rfl
        obtain ⟨oq, c, hoq, hbq, -⟩ := hplan
        rw [ho] at hoq
        cases hoq
        rw [hpp'] at hbq
        cases hbq)
    hpa hhold
  refine key.eq ?_
  rw [hedges, hslots]
  abel

theorem certify_inv {r : Ctx × Ref} (h : Inv π r.1 (B + own r.2) [] P) (hB : NonNeg B)
    (hp : r.2 ∉ P) : Inv π (certify r).1 (B + own (certify r).2) [] P := by
  obtain ⟨s, v⟩ := r
  unfold certify
  cases v with
  | cell a =>
    simp only
    have hl : s.live a := h.live_of_own (by
      have := hB (.cell a) trivial
      simp only [Pi.add_apply, own_self]
      omega)
    obtain ⟨o, ho⟩ := Option.ne_none_iff_exists'.mp hl
    exact h.touch (hB.add (nonNeg_own _)) ho hp (Or.inl rfl) rfl rfl
  | _ => exact h

theorem asClosure_some {v : Ref} {a : ℕ} {o : Obj} {c : Closure}
    (e : s.asClosure v = some (a, o, c)) : v = .cell a ∧ s.heap a = some o ∧ o.body = .closure c := by
  unfold asClosure at e
  split at e
  · split at e
    · split at e
      · simp only [Option.some.injEq, Prod.mk.injEq] at e
        obtain ⟨rfl, rfl, rfl⟩ := e
        exact ⟨rfl, ‹_›, ‹_›⟩
      · exact absurd e (by simp)
    · exact absurd e (by simp)
  · exact absurd e (by simp)

theorem closure_edges {o : Obj} {c : Closure} (hb : o.body = .closure c) :
    o.edges = c.captures ++ c.bound := by simp [Obj.edges, hb]

/-- The captures and the bound arguments of a closure are handles. -/
theorem Inv.handle_closure (h : Inv π s O work P) (hO : NonNeg O) {a : ℕ} {o : Obj} {c : Closure}
    (ho : s.heap a = some o) (hb : o.body = .closure c) :
    (∀ v ∈ c.captures, s.Handle P v) ∧ ∀ v ∈ c.bound, s.Handle P v := by
  have e : s.edges a = c.captures ++ c.bound := by rw [edges_of_some ho, closure_edges hb]
  exact ⟨fun v hv => h.handle_edge hO (u := a) (by rw [e]; exact List.mem_append_left _ hv),
    fun v hv => h.handle_edge hO (u := a) (by rw [e]; exact List.mem_append_right _ hv)⟩

theorem same_growStaticClosures (s : Ctx) : Same s s.growStaticClosures.1 := by
  unfold growStaticClosures
  generalize (if s.staticCapacity = 0 then 256 else s.staticCapacity * 2) = n
  simp only
  split
  · rfl
  · split <;> rfl

theorem rcClosureStatic_inv {v : Ref} (h : Inv π s (B + own v) [] P) (hB : NonNeg B)
    (hv : s.Handle P v) :
    Inv π (s.rcClosureStatic v).1 (B + own (s.rcClosureStatic v).2) [] P := by
  unfold rcClosureStatic
  split
  swap
  · exact h
  rename_i a o c e
  obtain ⟨rfl, ho, hb⟩ := asClosure_some e
  split
  · exact h
  have hgrow : Same s (if s.staticCapacity / 2 ≤ s.staticClosures.length then s.growStaticClosures
      else (s, true)).1 := by
    split
    · exact same_growStaticClosures s
    · rfl
  generalize (if s.staticCapacity / 2 ≤ s.staticClosures.length then s.growStaticClosures
      else (s, true)) = r at hgrow ⊢
  have h1 := h.same hgrow
  simp only
  split
  swap
  · exact h1
  split
  · rename_i b hfind
    have hmem := List.mem_of_find?_eq_some hfind
    have himm := h1.static b hmem
    have h2 := h1.release hB hv.1
    have hfr := h1.release_frees hB hv.1
    have himm' : (r.1.rcRelease (.cell a)).refs (.cell b) = immortal := by
      rw [hfr.refs _ (isCounted_of_immortal himm), himm]
    have hnp : Ref.cell b ∉ P := by
      intro hp
      obtain ⟨h3, h4, -⟩ := h2.priv _ hp
      obtain ⟨o', ho'⟩ : ∃ o', r.1.heap b = some o' := by
        have : r.1.live b := by
          by_contra hn
          rw [h1.dead b hn] at himm
          exact absurd himm (by simp)
        exact Option.ne_none_iff_exists'.mp this
      have hcl := List.find?_some hfind
      obtain ⟨-, -, b', ob, args, g, hbb, hob, hbody⟩ := h1.priv _ hp
      cases hbb
      simp [staticClosureSame, asClosure, hob, hbody] at hcl
    exact h2.uncounted (isCounted_of_immortal himm') hnp fun x hx => by
      rw [Pi.add_apply, own_ne hx, add_zero]
  · have h2 := h1.saturate (v := .cell a) (fun b hb => by
      cases hb
      rw [live, show r.1.heap = s.heap from congrArg Store.heap hgrow, ho]
      simp)
    refine { h2 with static := fun b hb => ?_ }
    rcases List.mem_cons.mp hb with rfl | hb
    · exact setRefs_self _ _ _
    · exact h2.static b hb

/-- The bound arguments of a closure that only C code holds are written. -/
theorem Inv.bind (h : Inv π s O [] P) (hO : NonNeg O) {a : ℕ} {o : Obj} {c : Closure}
    {bound : List Ref} (ho : s.heap a = some o) (hb : o.body = .closure c) (hnil : c.bound = [])
    (hplan : o.plan = none) (h0 : s.held (.cell a) = 0) (hpa : Ref.cell a ∉ P)
    (hk : ∀ v ∈ bound, s.Handle P v ∧ v ≠ .cell a)
    (hbytes : s.payloadBytes + bound.length * ptrBytes ≤ 2 * addressBytes) :
    Inv π (s.modify a fun o =>
      { o with
        body := .closure { c with bound }
        reachesVector := o.reachesVector || bound.any s.mayReachVector })
      (O - owns bound) [] P := by
  have hs := modify_toStore ho fun o =>
      { o with
        body := .closure { c with bound }
        reachesVector := o.reachesVector || bound.any s.mayReachVector }
  generalize s.modify a _ = s' at hs ⊢
  have hin := h.no_edge h0
  have hedges : ({ o with
        body := .closure { c with bound }
        reachesVector := o.reachesVector || bound.any s.mayReachVector } : Obj).edges =
      c.captures ++ bound := rfl
  have hcap : ∀ v ∈ c.captures, v ∈ s.edges a := fun v hv => by
    rw [edges_of_some ho, closure_edges hb]
    exact List.mem_append_left _ hv
  have hne : Ref.cell a ∉ c.captures ++ bound := by
    rw [List.mem_append, not_or]
    exact ⟨fun hm => hin a (hcap _ hm), fun hm => (hk _ hm).2 rfl⟩
  have key := h.rewrite ho hs (fun _ => Or.inr hin)
    (fun w _ hw hm => by
      rw [hedges, List.mem_append] at hw
      rw [Bool.or_eq_true]
      rcases hw with hw | hw
      · left
        have := h.flags a w (hcap _ hw) hm
        simpa [mayReachVector, ho] using this
      · exact Or.inr (any_reach hw hm))
    (fun items hi => by simp at hi)
    (fun hsrc => by
      obtain ⟨o1, items, ho1, hb1⟩ := h.srcVec a hsrc
      rw [ho] at ho1
      cases ho1
      rw [hb] at hb1
      cases hb1)
    (fun t g f hi => by simp at hi)
    (by
      simp only [extraBytes, hb, hnil, List.length_nil, add_zero]
      rw [add_mul]
      omega)
    (h.acyc_unique hs hin hne)
    (h.plans_unique hO (congrArg Store.heap hs) hin fun _ => hplan) hpa
    (fun v hv => by
      rcases hv with hv | hv
      · rw [hedges, List.mem_append] at hv
        rcases hv with hv | hv
        · exact h.not_priv (Or.inl (hcap _ hv))
        · exact (hk _ hv).1.1
      · simp [Obj.slots] at hv)
  refine key.eq ?_
  have e1 : o.slots = [] := by simp [Obj.slots, hb]
  rw [hedges, closure_edges hb, hnil, List.append_nil, e1, owns_append]
  have e2 : ({ o with
        body := .closure { c with bound }
        reachesVector := o.reachesVector || bound.any s.mayReachVector } : Obj).slots = [] := rfl
  rw [e2, owns_nil]
  abel

/-- **`partial`** copies the closure and binds more arguments. -/
theorem partialApply_inv (h : Inv π s O [] P) (hO : NonNeg O) {u : ℕ} {o : Obj} {c : Closure}
    (ho : s.heap u = some o) (hb : o.body = .closure c) {argv : List Ref}
    (hk : ∀ v ∈ argv, s.Handle P v) :
    Inv π (s.partialApply c argv).1 (O + own (s.partialApply c argv).2) [] P := by
  obtain ⟨hcap, hbound⟩ := h.handle_closure hO ho hb
  have hall : ∀ v ∈ c.bound ++ argv, s.Handle P v := fun v hv => by
    rcases List.mem_append.mp hv with hv | hv
    · exact hbound v hv
    · exact hk v hv
  unfold partialApply
  simp only
  split
  · exact h.fail _
  have hs := same_mallocPayload s ((c.bound.length + argv.length) * ptrBytes)
  split
  swap
  · exact (h.same hs).fail _
  rename_i hm
  have hroom := mallocPayload_room hm
  generalize s.mallocPayload ((c.bound.length + argv.length) * ptrBytes) = r at hs ⊢
  have h1 := h.same hs
  have hheap : r.2.heap = s.heap := congrArg Store.heap hs
  rcases closureCreate_spec h1 hO (fun v hv => (hcap v hv).same hs) c.arity c.native c.ownedNative
    with ⟨s1, e, hi⟩ | ⟨a, s1, e, hi, hdead, hrefs, hnew, hpay, hcroom⟩
  · rw [e]; exact hi.null
  rw [e]
  have hl : ∀ b, s.live b → s1.live b := fun b hb => by
    rw [live, hnew]
    by_cases hba : b = a
    · simp [hba]
    · rw [Function.update_of_ne hba, hheap]
      exact hb
  have hne : ∀ v ∈ c.bound ++ argv, v ≠ .cell a := by
    rintro v hv rfl
    refine hdead ?_
    rw [live, hheap]
    exact (hall _ hv).2 a rfl
  have h2 := retainAll_inv (c.bound ++ argv) hi fun v hv =>
    ⟨(hall v hv).1, fun b hb => hl b ((hall v hv).2 b hb)⟩
  have hOa := hO.add (nonNeg_own (.cell a))
  have hO2 := hOa.add (nonNeg_owns (c.bound ++ argv))
  have hheap2 : (s1.retainAll (c.bound ++ argv)).heap = s1.heap := retainAll_heap _ _
  have hrefs2 : (s1.retainAll (c.bound ++ argv)).refs (.cell a) = 1 := by
    rw [retainAll_refs_ne _ fun hm => hne _ hm rfl]
    exact hrefs
  have hown : 1 ≤ (O + own (.cell a) + owns (c.bound ++ argv)) (.cell a) := by
    have e1 := hO (.cell a) trivial
    have e2 := owns_nonneg (c.bound ++ argv) (.cell a)
    simp only [Pi.add_apply, own_self]
    omega
  have hpa : Ref.cell a ∉ P := by
    intro hp
    obtain ⟨-, -, b, ob, -, -, hbb, hob, -⟩ := h1.priv _ hp
    cases hbb
    exact hdead (by rw [live, hob]; simp)
  have hbytes : (s1.retainAll (c.bound ++ argv)).payloadBytes +
      (c.bound ++ argv).length * ptrBytes ≤ 2 * addressBytes := by
    have e1 := payloadBytes_congr (congrArg Store.heap hs) (congrArg Store.size hs)
    have e2 := h2.bytes
    rw [payloadBytes_congr (retainAll_heap _ _) (retainAll_size _ _)] at e2 ⊢
    rw [List.length_append]
    omega
  have h3 := h2.bind hO2 (o := Ctx.fresh (newClosure c.arity c.native c.ownedNative c.captures)
      (c.captures.any r.2.mayReachVector))
    (c := { c with bound := [] }) (by rw [hheap2, hnew]; simp) rfl rfl rfl
    (h2.unique hrefs2 hown).1 hpa
    (fun v hv => ⟨(hall v hv).mono fun b hb => by rw [live, hheap2]; exact hl b hb, hne v hv⟩)
    hbytes
  refine Inv.same (h3.eq ?_) rfl
  abel

end Ctx

end ShenRc.Runtime
