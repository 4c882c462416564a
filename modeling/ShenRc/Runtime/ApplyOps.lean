import ShenRc.Runtime.PlanOps
import ShenRc.Runtime.Exact
import ShenRc.Runtime.Machine

/-! # Application keeps the invariant

`Turn.Ok π B P t` says that a stretch of runtime code ends in a state that satisfies the invariant, where
the rest of the C stack owns `B` and keeps the requests `P` to itself: a result is owned by the
caller, a request and the pending list by the loop, and at a callback its arguments by the callback
or by the call that waits. Each function of `Apply` gives such a turn. -/

namespace ShenRc.Runtime

open Relation ShenRc.Graph

namespace Ctx

variable {π : Policy} {s s' : Ctx} {O B : Own} {P : Set Ref} {pending : List Pending}

/-! ### What C code owns -/

/-- C code owns what applications keep to themselves. -/
def Covers (B : Own) (P : Set Ref) : Prop := ∀ r ∈ P, r.isHeap → 1 ≤ B r

/-- The requests kept, with those of a pending list. -/
def keeps (P : Set Ref) (pending : List Pending) : Set Ref := P ∪ {r | r ∈ pendingOwned pending}

theorem Covers.add (h : Covers B P) (hO : NonNeg O) : Covers (B + O) P := fun r hr hh => by
  have h1 := h r hr hh
  have h2 := hO r hh
  rw [Pi.add_apply]
  omega

theorem Covers.keeps (h : Covers B P) (hB : NonNeg B) (pending : List Pending) :
    Covers (B + owns (pendingOwned pending)) (keeps P pending) := fun r hr hh => by
  rw [Pi.add_apply]
  rcases hr with hr | hr
  · have h1 := h r hr hh
    have h2 := owns_nonneg (pendingOwned pending) r
    omega
  · have h1 := hB r hh
    have h2 := owns_pos (show r ∈ pendingOwned pending from hr)
    omega

/-- What C code owns besides what applications keep is a handle. -/
theorem Inv.owned_handle {v : Ref} (h : Inv π s (B + own v) [] P) (hB : NonNeg B)
    (hc : Covers B P) : s.Handle P v := by
  refine ⟨fun hp => ?_, fun a ha => ?_⟩
  · obtain ⟨h1, -, a, -, -, -, rfl, -⟩ := h.priv v hp
    have h2 := hc _ hp trivial
    rw [Pi.add_apply, own_self] at h1
    omega
  · subst ha
    refine h.live_of_own ?_
    have := hB (.cell a) trivial
    rw [Pi.add_apply, own_self]
    omega

theorem owns_of_mem {vs : List Ref} {v : Ref} (hv : v ∈ vs) :
    owns vs = owns (vs.erase v) + own v := by
  funext r
  have := (List.perm_cons_erase hv).count_eq r
  simp only [owns, Pi.add_apply, own_apply]
  rw [this, List.count_cons]
  by_cases hr : r = v
  · subst hr; simp
  · have : ¬ v = r := fun e => hr e.symm
    simp [hr, this]

theorem Inv.owned_handles {vs : List Ref} (h : Inv π s (B + owns vs) [] P) (hB : NonNeg B)
    (hc : Covers B P) : ∀ v ∈ vs, s.Handle P v := by
  intro v hv
  refine (h.eq (Q := B + owns (vs.erase v) + own v) ?_).owned_handle
    (hB.add (nonNeg_owns _)) (hc.add (nonNeg_owns _))
  rw [owns_of_mem hv, add_assoc]

/-- Releasing values that C code owns. -/
theorem Inv.releaseOwned {vs : List Ref} (h : Inv π s (B + owns vs) [] P) (hB : NonNeg B)
    (hc : Covers B P) : Inv π (s.releaseAll vs) B [] P :=
  (releaseAll_inv vs h hB fun v hv => (h.owned_handles hB hc v hv).1).1

theorem releasePendings (pending : List Pending) : ∀ s : Ctx,
    pending.foldl releasePending s = s.releaseAll (pendingOwned pending) := by
  induction pending with
  | nil => exact fun s => rfl
  | cons p pending ih =>
    intro s
    rw [List.foldl_cons, ih]
    cases p <;> rfl

end Ctx

/-- **A stretch of runtime code keeps the invariant.** -/
def Turn.Ok (π : Policy) (B : Own) (P : Set Ref) : Turn → Prop
  | .done s result => s.Inv π (B + own result) [] P
  | .again s request pending =>
    s.Inv π (B + owns (request :: pendingOwned pending)) [] (Ctx.keeps P pending) ∧
      ∃ a f args g, s.asTail request = some (a, f, args, g)
  | .call s _ args owned w =>
    s.Inv π (B + ((if owned then owns args else 0) + owns (w.owned ++ pendingOwned w.pending))) []
      (Ctx.keeps P w.pending)

namespace Ctx

variable {π : Policy} {s s' : Ctx} {O B : Own} {P : Set Ref} {pending : List Pending}

/-! ### Failing -/

theorem applyFail_ok {request result : Ref}
    (h : Inv π s (B + owns (request :: result :: pendingOwned pending)) [] (keeps P pending))
    (hB : NonNeg B) (hc : Covers B P) : (s.applyFail request result pending).Ok π B P := by
  have h1 : Inv π s (B + owns (request :: result :: pendingOwned pending)) [] P :=
    h.reveal fun r hr => Or.inl hr
  have h2 := h1.releaseOwned hB hc
  change Inv π (pending.foldl releasePending ((s.rcRelease request).rcRelease result)) _ _ _
  rw [releasePendings]
  exact h2.null

/-- Failing when the pending list is all that is left. -/
theorem applyFail_pending (h : Inv π s (B + owns (pendingOwned pending)) [] (keeps P pending))
    (hB : NonNeg B) (hc : Covers B P) : (s.applyFail .null .null pending).Ok π B P := by
  refine applyFail_ok (h.congr fun r hr => ?_) hB hc
  rw [owns_cons, owns_cons]
  simp only [Pi.add_apply, own_null hr]
  ring

/-- Failing with the request. -/
theorem applyFail_request {request : Ref}
    (h : Inv π s (B + owns (request :: pendingOwned pending)) [] (keeps P pending)) (hB : NonNeg B)
    (hc : Covers B P) : (s.applyFail request .null pending).Ok π B P := by
  refine applyFail_ok (h.congr fun r hr => ?_) hB hc
  rw [owns_cons, owns_cons, owns_cons]
  simp only [Pi.add_apply, own_null hr]
  ring

/-- Failing with the request and the retained callee. -/
theorem applyFail_resolved {request resolved : Ref}
    (h : Inv π s (B + owns (resolved :: request :: pendingOwned pending)) [] (keeps P pending))
    (hB : NonNeg B) (hc : Covers B P) :
    ((s.rcRelease resolved).applyFail request .null pending).Ok π B P := by
  refine applyFail_request ?_ hB hc
  have h1 : Inv π s (B + owns (pendingOwned pending) + own request + own resolved) []
      (keeps P pending) := h.eq (by rw [owns_cons, owns_cons]; abel)
  have hB1 := (hB.add (nonNeg_owns (pendingOwned pending))).add (nonNeg_own request)
  have hc1 := (hc.keeps hB pending).add (nonNeg_own request)
  refine (h1.release hB1 (h1.owned_handle hB1 hc1).1).eq ?_
  rw [owns_cons]
  abel

/-! ### Guards -/

/-- Pushing guards owns nothing. -/
theorem pushGuards_spec (s : Ctx) (guards : ℕ) (pending : List Pending) :
    Same s (s.pushGuards guards pending).1 ∧
      ∀ p, (s.pushGuards guards pending).2 = some p → pendingOwned p = pendingOwned pending := by
  unfold pushGuards
  split
  · exact ⟨rfl, fun p hp => by cases hp; rfl⟩
  · split
    · exact ⟨rfl, fun p hp => by cases hp; rfl⟩
    · split
      · exact ⟨rfl, fun p hp => by cases hp; rfl⟩
      · exact ⟨rfl, fun p hp => by cases hp⟩

theorem keeps_congr {p : List Pending} (h : pendingOwned p = pendingOwned pending) :
    keeps P p = keeps P pending := by unfold keeps; rw [h]

/-- **Running the guards on top of the pending list.** Afterwards the result is null, or no guard is
on top. -/
theorem completeGuards_spec (hB : NonNeg B) (hc : Covers B P) : ∀ (pending : List Pending) {s : Ctx}
    {result : Ref},
    Inv π s (B + own result) [] P →
    let r := s.completeGuards result pending
    Inv π r.1 (B + own r.2.1) [] P ∧ pendingOwned r.2.2 = pendingOwned pending ∧
      (r.2.1 = .null ∨ r.2.2 = [] ∨ ∃ p rest, r.2.2 = .args p :: rest)
  | [], s, result, h => ⟨h, rfl, Or.inr (Or.inl rfl)⟩
  | .args p :: rest, s, result, h => ⟨h, rfl, Or.inr (Or.inr ⟨p, rest, rfl⟩)⟩
  | .guards g :: rest, s, result, h => by
    have step : ∀ {s : Ctx} {result : Ref} (guard : ℕ), Inv π s (B + own result) [] P →
        Inv π (s.requireGuard result guard).1 (B + own (s.requireGuard result guard).2) [] P :=
      fun guard h => requireGuard_inv h hB (h.owned_handle hB hc) guard
    simp only [completeGuards]
    have h1 : Inv π (if g &&& guardContext ≠ 0 then s.rcEvalRequireArgumentContext result
        else (s, result)).1 (B + own (if g &&& guardContext ≠ 0 then
          s.rcEvalRequireArgumentContext result else (s, result)).2) [] P := by
      split
      · exact step _ h
      · exact h
    generalize (if g &&& guardContext ≠ 0 then s.rcEvalRequireArgumentContext result
        else (s, result)) = r1 at h1 ⊢
    have h2 : Inv π (if r1.2 ≠ .null ∧ g &&& guardBoolean ≠ 0 then r1.1.rcRequireBoolean r1.2
        else r1).1 (B + own (if r1.2 ≠ .null ∧ g &&& guardBoolean ≠ 0 then
          r1.1.rcRequireBoolean r1.2 else r1).2) [] P := by
      split
      · exact step _ h1
      · exact h1
    generalize (if r1.2 ≠ .null ∧ g &&& guardBoolean ≠ 0 then r1.1.rcRequireBoolean r1.2
        else r1) = r2 at h2 ⊢
    split
    · rename_i hn
      rw [hn] at h2
      exact ⟨h2, rfl, Or.inl rfl⟩
    · obtain ⟨k1, k2, k3⟩ := completeGuards_spec hB hc rest h2
      exact ⟨k1, k2, k3⟩

/-! ### Resuming a request -/

/-- **A pending request takes the result as its function.** -/
theorem setTailFunction_inv {a : ℕ} {fn : Ref} (h : Inv π s (B + own (.cell a) + own fn) [] P)
    (hB : NonNeg B) {o : Obj} {args : List Ref} {g : ℕ} (ho : s.heap a = some o)
    (hb : o.body = .tail .nil args g) (h0 : s.held (.cell a) = 0)
    (h1 : (B + own (.cell a) + own fn) (.cell a) = 1) (hpa : Ref.cell a ∉ P)
    (hf : s.Handle P fn) :
    Inv π (s.setTailFunction a fn) (B + own (.cell a)) [] P ∧
      ∃ o', (s.setTailFunction a fn).heap a = some o' ∧ o'.body = .tail fn args g := by
  have hne : fn ≠ .cell a := by
    rintro rfl
    have := hB (.cell a) trivial
    simp only [Pi.add_apply, own_self] at h1
    omega
  have hO := (hB.add (nonNeg_own (.cell a))).add (nonNeg_own fn)
  have hin := h.no_edge h0
  have hs : (s.setTailFunction a fn).toStore = { s.toStore with
      heap := Function.update s.heap a (some { o with
        body := .tail fn args g, reachesVector := o.reachesVector || s.mayReachVector fn }) } := by
    rw [setTailFunction, modify_toStore ho, hb]
  generalize s.setTailFunction a fn = s' at hs ⊢
  have hedges : o.edges = .nil :: args := tail_edges hb
  have hedges' : ({ o with
      body := .tail fn args g
      reachesVector := o.reachesVector || s.mayReachVector fn } : Obj).edges = fn :: args := rfl
  have harg : ∀ {r}, r ∈ args → r ∈ s.edges a := fun hr => by
    rw [edges_of_some ho, hedges]; exact List.mem_cons_of_mem _ hr
  have hself : Ref.cell a ∉ fn :: args := by
    intro hm
    rcases List.mem_cons.mp hm with e | hm
    · exact hne e.symm
    · exact hin a (harg hm)
  have key := h.rewrite ho hs (fun _ => Or.inr hin)
    (fun w _ hw hm => by
      rw [hedges'] at hw
      rw [Bool.or_eq_true]
      rcases List.mem_cons.mp hw with e | hw
      · exact Or.inr (e ▸ hm)
      · left
        have := h.flags a w (harg hw) hm
        simpa [mayReachVector, ho] using this)
    (fun items hi => by simp at hi)
    (fun hsrc => by
      obtain ⟨o1, items, ho1, hb1⟩ := h.srcVec a hsrc
      rw [ho] at ho1
      cases ho1
      rw [hb] at hb1
      cases hb1)
    (fun t g f hi => by simp at hi)
    (by have := h.bytes; simp only [extraBytes, hb]; omega)
    (h.acyc_unique hs hin (by rw [hedges']; exact hself))
    (h.plans_unique hO (congrArg Store.heap hs) hin fun hp => by
      obtain ⟨hd, tl, hp⟩ := hp
      cases hp)
    hpa
    (fun r hr => by
      rcases hr with hr | hr
      · rw [hedges'] at hr
        rcases List.mem_cons.mp hr with rfl | hr
        · exact hf.1
        · exact h.not_priv (Or.inl (harg hr))
      · simp [Obj.slots] at hr)
  refine ⟨key.congr fun r hr => ?_, _, by rw [hs]; exact Function.update_self .., rfl⟩
  have e1 : o.slots = [] := by simp [Obj.slots, hb]
  have e2 : ({ o with
      body := .tail fn args g
      reachesVector := o.reachesVector || s.mayReachVector fn } : Obj).slots = [] := rfl
  rw [hedges, hedges', e1, e2, owns_nil, owns_cons, owns_cons]
  simp only [Pi.add_apply, Pi.sub_apply, Pi.zero_apply, own_nil hr]
  ring

theorem asTail_eq {a : ℕ} {o : Obj} {f : Ref} {args : List Ref} {g : ℕ} (ho : s.heap a = some o)
    (hb : o.body = .tail f args g) : s.asTail (.cell a) = some (a, f, args, g) := by
  simp [asTail, ho, hb]

/-- A request of this context is a tail cell. -/
theorem asTail_of_type {v : Ref} (ht : s.rcType v = .tail) (hf : v.isForeignTail = false) :
    ∃ a f args g, s.asTail v = some (a, f, args, g) := by
  cases v with
  | cell a =>
    cases ho : s.heap a with
    | none => simp [rcType, ho] at ht
    | some o =>
      simp only [rcType, ho, Option.map_some, Option.getD_some] at ht
      cases hb : o.body with
      | tail f args g => exact ⟨a, f, args, g, asTail_eq ho hb⟩
      | _ => rw [hb] at ht; cases ht
  | foreign t k =>
    simp only [rcType] at ht
    subst ht
    simp [Ref.isForeignTail] at hf
  | null => simp [rcType] at ht
  | nil => simp [rcType] at ht
  | imm n => simp [rcType] at ht

/-- **The turn from the callback on.** -/
theorem applyAfter_ok {resolved request result : Ref}
    (h : Inv π s (B + owns (resolved :: request :: result :: pendingOwned pending)) []
      (keeps P pending)) (hB : NonNeg B) (hc : Covers B P) (hf : result.isForeignTail = false) :
    (s.applyAfter resolved request result pending).Ok π B P := by
  have hB1 := hB.add (nonNeg_owns (pendingOwned pending))
  have hc1 := hc.keeps hB pending
  have hB2 := hB1.add (nonNeg_own result)
  have hc2 := hc1.add (nonNeg_own result)
  have h1 : Inv π ((s.rcRelease resolved).rcRelease request)
      (B + owns (pendingOwned pending) + own result) [] (keeps P pending) := by
    have h2 : Inv π s (B + owns (pendingOwned pending) + own result + owns [resolved, request]) []
        (keeps P pending) := h.eq (by simp only [owns_cons, owns_nil]; abel)
    exact h2.releaseOwned hB2 hc2
  unfold applyAfter
  simp only
  generalize (s.rcRelease resolved).rcRelease request = s1 at h1 ⊢
  split
  · rename_i hn
    rw [hn] at h1
    refine applyFail_pending (h1.congr fun r hr => ?_) hB hc
    rw [Pi.add_apply, own_null hr, add_zero]
  split
  · exact applyFail_pending (h1.release hB1 (h1.owned_handle hB1 hc1).1) hB hc
  have h2 := rcSafepoint_inv h1 hB2
  generalize s1.rcSafepoint = s2 at h2 ⊢
  split
  · rename_i ht
    refine ⟨h2.eq ?_, asTail_of_type ht hf⟩
    rw [owns_cons]
    abel
  obtain ⟨k1, k2, k3⟩ := completeGuards_spec hB1 hc1 pending h2
  generalize s2.completeGuards result pending = r at k1 k2 k3 ⊢
  obtain ⟨s3, result', pending'⟩ := r
  simp only at k1 k2 k3 ⊢
  rw [← k2, ← keeps_congr (P := P) k2] at k1
  by_cases hnull : result' = .null
  · subst hnull
    refine applyFail_pending (k1.congr fun r hr => ?_) hB hc
    rw [Pi.add_apply, own_null hr, add_zero]
  rcases k3 with k3 | rfl | ⟨p, rest, rfl⟩
  · exact absurd k3 hnull
  · have : Inv π s3 (B + own result') [] P := by
      refine (k1.reveal fun r hr => Or.inl hr).eq ?_
      simp [pendingOwned]
    cases result' <;> first | exact absurd rfl hnull | exact this
  · have hmem : p ∈ keeps P (.args p :: rest) := Or.inr (by simp [pendingOwned, Pending.owned])
    obtain ⟨p1, p0, a, o, args, g, rfl, ho, hb⟩ := k1.priv p hmem
    have hsplit : pendingOwned (.args (.cell a) :: rest) = .cell a :: pendingOwned rest := rfl
    have hpa : Ref.cell a ∉ keeps P rest := by
      rintro (hp | hp)
      · have e1 := hc _ hp trivial
        have e2 := owns_nonneg (pendingOwned rest) (.cell a)
        have e3 := nonNeg_own result' (.cell a) trivial
        rw [hsplit, owns_cons] at p1
        simp only [Pi.add_apply, own_self] at p1
        omega
      · have e1 := hB (.cell a) trivial
        have e2 := owns_pos (show Ref.cell a ∈ pendingOwned rest from hp)
        have e3 := nonNeg_own result' (.cell a) trivial
        rw [hsplit, owns_cons] at p1
        simp only [Pi.add_apply, own_self] at p1
        omega
    have k4 : Inv π s3 (B + owns (pendingOwned rest) + own (.cell a) + own result') []
        (keeps P rest) := by
      refine (k1.reveal fun r hr => ?_).eq ?_
      · rcases hr with hr | hr
        · exact Or.inl hr
        · refine Or.inr ?_
          change r ∈ pendingOwned _
          rw [hsplit]
          exact List.mem_cons_of_mem _ hr
      · rw [hsplit, owns_cons]
        abel
    have hB3 := hB.add (nonNeg_owns (pendingOwned rest))
    have hres := k4.owned_handle (hB3.add (nonNeg_own (.cell a)))
      ((hc.keeps hB rest).add (nonNeg_own (.cell a)))
    obtain ⟨k5, o', ho', hb'⟩ := setTailFunction_inv k4 hB3 ho hb p0 (by
      rw [hsplit, owns_cons] at p1
      simp only [Pi.add_apply] at p1 ⊢
      omega) hpa hres
    have : Turn.Ok π B P (.again (s3.setTailFunction a result') (.cell a) rest) := by
      refine ⟨k5.eq ?_, a, result', args, g, asTail_eq ho' hb'⟩
      rw [owns_cons]
      abel
    cases result' <;> first | exact absurd rfl hnull | exact this

/-! ### Up to the callback -/

theorem rcFunctionLookup_heap (s : Ctx) (v : Ref) : (s.rcFunctionLookup v).1.heap = s.heap := by
  unfold rcFunctionLookup
  split
  · exact rcRetain_heap _ _
  · rfl

/-- The callee is looked up; a symbol's function is retained. -/
theorem resolveTarget_spec (h : Inv π s O [] P) (hO : NonNeg O) (target : Ref) :
    (∃ s1, s.resolveTarget target = (s1, none) ∧ Inv π s1 O [] P) ∨
    ∃ s1 resolved callee, s.resolveTarget target = (s1, some (resolved, callee)) ∧
      Inv π s1 (O + own resolved) [] P ∧ s1.heap = s.heap := by
  unfold resolveTarget
  split
  · have h1 := rcFunctionLookup_inv h hO target
    have h2 := rcFunctionLookup_heap s target
    unfold rcFunctionGet
    generalize s.rcFunctionLookup target = r at h1 h2 ⊢
    obtain ⟨s1, f⟩ := r
    cases f with
    | null =>
      left
      refine ⟨_, rfl, ?_⟩
      refine Inv.same (h1.congr fun r hr => ?_) (same_rcError _ _)
      rw [Pi.add_apply, own_null hr, add_zero]
    | _ => exact Or.inr ⟨s1, _, _, rfl, h1, h2⟩
  · exact Or.inr ⟨s, .null, target, rfl, h.null, rfl⟩

/-- **The excess arguments wait in a request nobody else holds.** -/
theorem pushExcess_spec (h : Inv π s (B + owns (pendingOwned pending)) [] (keeps P pending))
    (hB : NonNeg B) (excess : List Ref) (hk : ∀ v ∈ excess, s.Handle (keeps P pending) v) :
    (∃ s1, s.pushExcess excess pending = (s1, none) ∧
      Inv π s1 (B + owns (pendingOwned pending)) [] (keeps P pending)) ∨
    ∃ s1 p, s.pushExcess excess pending = (s1, some p) ∧
      Inv π s1 (B + owns (pendingOwned p)) [] (keeps P p) ∧
      (∀ a, s.live a → s1.heap a = s.heap a) := by
  have hO := hB.add (nonNeg_owns (pendingOwned pending))
  unfold pushExcess
  split
  · exact Or.inr ⟨s, pending, rfl, h, fun _ _ => rfl⟩
  split
  swap
  · exact Or.inl ⟨_, rfl, h.same (same_malloc s)⟩
  have h1 := h.same (same_malloc s)
  have hnil : s.malloc.2.Handle (keeps P pending) .nil :=
    ⟨nil_not_priv h, fun b hb => by cases hb⟩
  rcases rcTailcall_spec h1 hO hnil (fun v hv => (hk v hv).same (same_malloc s)) with
    ⟨s1, e, hs⟩ | ⟨a, s1, r, e, hi, hdead, hrefs, hheap⟩
  · rw [e]
    exact Or.inl ⟨s1, rfl, h1.same hs⟩
  · rw [e]
    right
    refine ⟨s1, .args (.cell a) :: pending, rfl, ?_, fun b hb => ?_⟩
    · -- The cell was not in use, so C code owned nothing of it and nothing holds it.
      have h0 := (h1.no_refs hO (h1.dead a hdead)).2
      have hone : (B + owns (pendingOwned pending) + own (.cell a)) (.cell a) = 1 := by
        rw [Pi.add_apply _ (own (.cell a)), h0, own_self]
        rfl
      have hheld := (hi.unique hrefs hone.ge).1
      have hset : keeps P (.args (.cell a) :: pending) = insert (.cell a) (keeps P pending) := by
        ext r
        simp only [keeps, pendingOwned, List.flatMap_cons, Pending.owned, Set.mem_union,
          Set.mem_ofPred_eq, List.mem_append, List.mem_singleton, Set.mem_insert_iff]
        tauto
      have hown : owns (pendingOwned (.args (.cell a) :: pending)) =
          own (.cell a) + owns (pendingOwned pending) := by
        rw [← owns_cons]
        rfl
      rw [hset]
      refine (hi.keep hone hheld (o := Ctx.fresh (.tail .nil excess 0) r) (by rw [hheap]; simp)
        rfl).eq ?_
      rw [hown]
      abel
    · have hba : b ≠ a := by rintro rfl; exact hdead hb
      rw [hheap, Function.update_of_ne hba]
      rfl

/-- **The arguments of a request that only C code holds are moved out of it.** -/
theorem emptyTailArgs_inv (h : Inv π s O [] P) (hO : NonNeg O) {a n : ℕ} {o : Obj} {fn : Ref}
    {args : List Ref} {g : ℕ} (ho : s.heap a = some o) (hb : o.body = .tail fn args g)
    (h0 : s.held (.cell a) = 0) (hpa : Ref.cell a ∉ P) (hn : n ≤ args.length) :
    Inv π (s.emptyTailArgs a n) (O + owns (args.take n)) [] P := by
  have hin := h.no_edge h0
  have hs : (s.emptyTailArgs a n).toStore = { s.toStore with
      heap := Function.update s.heap a (some { o with
        body := .tail fn (List.replicate n .nil ++ args.drop n) g }) } := by
    rw [emptyTailArgs, modify_toStore ho, hb]
  generalize s.emptyTailArgs a n = s' at hs ⊢
  have hedges : o.edges = fn :: args := tail_edges hb
  have hedges' : ({ o with body := .tail fn (List.replicate n .nil ++ args.drop n) g } : Obj).edges =
      fn :: (List.replicate n .nil ++ args.drop n) := rfl
  have hsub : ∀ r, r ∈ fn :: (List.replicate n .nil ++ args.drop n) → r = .nil ∨ r ∈ s.edges a := by
    intro r hr
    rw [edges_of_some ho, hedges]
    rcases List.mem_cons.mp hr with rfl | hr
    · exact Or.inr (List.mem_cons_self ..)
    · rcases List.mem_append.mp hr with hr | hr
      · exact Or.inl (List.eq_of_mem_replicate hr)
      · exact Or.inr (List.mem_cons_of_mem _ (List.mem_of_mem_drop hr))
  have hcell : ∀ w, .cell w ∈ fn :: (List.replicate n .nil ++ args.drop n) → .cell w ∈ s.edges a :=
    fun w hw => (hsub _ hw).resolve_left (by simp)
  have key := h.rewrite ho hs Or.inl
    (fun w _ hw hm => by
      have := h.flags a w (hcell w (hedges' ▸ hw)) hm
      simpa [mayReachVector, ho] using this)
    (fun items hi => by simp at hi)
    (fun hsrc => by
      obtain ⟨o1, items, ho1, hb1⟩ := h.srcVec a hsrc
      rw [ho] at ho1
      cases ho1
      rw [hb] at hb1
      cases hb1)
    (fun t g f hi => by simp at hi)
    (by
      have e : (List.replicate n Ref.nil ++ args.drop n).length = args.length := by
        rw [List.length_append, List.length_replicate, List.length_drop]
        omega
      have := h.bytes
      simp only [extraBytes, hb, e]
      omega)
    (h.acyc_sub ho hs fun w hw => by
      rw [← edges_of_some ho]
      exact hcell w (hedges' ▸ hw))
    (h.plans_unique hO (congrArg Store.heap hs) hin fun hp => by
      obtain ⟨hd, tl, hp⟩ := hp
      cases hp)
    hpa
    (fun r hr => by
      rcases hr with hr | hr
      · rw [hedges'] at hr
        rcases hsub r hr with rfl | hr
        · exact nil_not_priv h
        · exact h.not_priv (Or.inl hr)
      · simp [Obj.slots] at hr)
  refine key.congr fun r hr => ?_
  have e1 : o.slots = [] := by simp [Obj.slots, hb]
  have e2 : ({ o with body := .tail fn (List.replicate n .nil ++ args.drop n) g } : Obj).slots = [] :=
    rfl
  have e3 : owns args r = owns (args.take n) r + owns (args.drop n) r := by
    rw [← Pi.add_apply, ← owns_append, List.take_append_drop]
  rw [hedges, hedges', e1, e2, owns_nil, owns_cons, owns_cons, owns_append]
  simp only [Pi.add_apply, Pi.sub_apply, Pi.zero_apply, owns_replicate_nil n hr, e3]
  ring

/-- **The turn from the resolved callee to the callback.** -/
theorem applyExact_ok {a u : ℕ} {target resolved : Ref} {o oc : Obj} {c : Closure} {f : Ref}
    {argv : List Ref} {g : ℕ}
    (h : Inv π s (B + owns (resolved :: .cell a :: pendingOwned pending)) [] (keeps P pending))
    (hB : NonNeg B) (hc : Covers B P) (ho : s.heap a = some o) (hb : o.body = .tail f argv g)
    (hu : s.heap u = some oc) (hbu : oc.body = .closure c)
    (hn : c.arity - c.bound.length ≤ argv.length) :
    (s.applyExact a target resolved c argv pending).Ok π B P := by
  have hO := hB.add (nonNeg_owns (resolved :: .cell a :: pendingOwned pending))
  have hargs := (h.handle_tail hO ho hb).2
  have hbound := (h.handle_closure hO hu hbu).2
  have hkeep : (B + ((if False then owns argv else 0) +
      owns ([resolved, .cell a] ++ pendingOwned pending))) =
      B + owns (resolved :: .cell a :: pendingOwned pending) := by
    simp
  unfold applyExact
  simp only
  split
  · exact applyFail_resolved (h.same (same_rcError _ _)) hB hc
  split
  · change Inv π s (B + (0 + owns (resolved :: .cell a :: pendingOwned pending))) [] (keeps P pending)
    rw [zero_add]
    exact h
  have hm : Same s (if c.arity ≤ 8 then (true, s) else s.malloc).2 := by
    split
    · rfl
    · exact same_malloc s
  generalize (if c.arity ≤ 8 then (true, s) else s.malloc) = r at hm ⊢
  have h1 := h.same hm
  have hheap : r.2.heap = s.heap := congrArg Store.heap hm
  split
  swap
  · exact applyFail_resolved (h1.same (same_rcError _ _)) hB hc
  split
  swap
  · change Inv π r.2 (B + (0 + owns (resolved :: .cell a :: pendingOwned pending))) [] (keeps P pending)
    rw [zero_add]
    exact h1
  -- An owned callback gets references of its own to the bound arguments, and the arguments too
  -- unless the request can give up its own.
  have h2 := retainAll_inv c.bound h1 fun v hv => ⟨(hbound v hv).1, ((hbound v hv).same hm).2⟩
  have hO2 := hO.add (nonNeg_owns c.bound)
  have hheap2 : (r.2.retainAll c.bound).heap = s.heap := (retainAll_heap _ _).trans hheap
  have hgoal : ∀ {s3 : Ctx}, Inv π s3 (B + owns (resolved :: .cell a :: pendingOwned pending) +
      owns c.bound + owns (argv.take (c.arity - c.bound.length))) [] (keeps P pending) →
      Turn.Ok π B P (.call s3 target (c.bound ++ argv.take (c.arity - c.bound.length)) true
        (.request resolved (.cell a) pending)) := by
    intro s3 h3
    change Inv π s3 (B + (owns (c.bound ++ argv.take (c.arity - c.bound.length)) +
      owns (resolved :: .cell a :: pendingOwned pending))) [] (keeps P pending)
    refine h3.eq ?_
    rw [owns_append]
    abel
  split
  · rename_i hone
    have hown : 1 ≤ (B + owns (resolved :: .cell a :: pendingOwned pending) + owns c.bound)
        (.cell a) := by
      have e1 := hB (.cell a) trivial
      have e2 := owns_pos (show Ref.cell a ∈ resolved :: .cell a :: pendingOwned pending by simp)
      have e3 := owns_nonneg c.bound (.cell a)
      simp only [Pi.add_apply]
      omega
    have hpa : Ref.cell a ∉ keeps P pending := by
      have h4 : Inv π s (B + owns (pendingOwned pending) + owns [resolved, .cell a]) []
          (keeps P pending) := h.eq (by simp only [owns_cons, owns_nil]; abel)
      exact (h4.owned_handles (hB.add (nonNeg_owns _)) (hc.keeps hB pending) (.cell a) (by simp)).1
    exact hgoal (emptyTailArgs_inv h2 hO2 (by rw [hheap2]; exact ho) hb (h2.unique hone hown).1 hpa hn)
  · refine hgoal (retainAll_inv _ h2 fun v hv => ?_)
    have := hargs v (List.mem_of_mem_take hv)
    exact ⟨this.1, fun b hb' => by rw [live, hheap2]; exact this.2 b hb'⟩

/-- A partial application is a new closure or nothing. -/
theorem partialApply_result (h : Inv π s O [] P) (hO : NonNeg O) {u : ℕ} {o : Obj} {c : Closure}
    (ho : s.heap u = some o) (hb : o.body = .closure c) (argv : List Ref) :
    (s.partialApply c argv).2.isForeignTail = false := by
  unfold partialApply
  simp only
  split
  · rfl
  split
  swap
  · rfl
  have hs := same_mallocPayload s ((c.bound.length + argv.length) * ptrBytes)
  rcases closureCreate_spec (h.same hs) hO
      (fun v hv => ((h.handle_closure hO ho hb).1 v hv).same hs) c.arity c.native c.ownedNative
    with ⟨s1, e, -⟩ | ⟨a, s1, e, -⟩
  · rw [e]; rfl
  · rw [e]; rfl

/-- **One turn of the loop of `apply_request`.** -/
theorem applyTurn_ok {request : Ref}
    (h : Inv π s (B + owns (request :: pendingOwned pending)) [] (keeps P pending)) (hB : NonNeg B)
    (hc : Covers B P) (ht : ∃ a f args g, s.asTail request = some (a, f, args, g)) :
    (s.applyTurn request pending).Ok π B P := by
  obtain ⟨a, target, argv, guards, e⟩ := ht
  obtain ⟨rfl, o, ho, hb⟩ := asTail_some e
  unfold applyTurn
  rw [e]
  simp only
  obtain ⟨hs, hpend⟩ := pushGuards_spec s guards pending
  generalize s.pushGuards guards pending = r at hs hpend ⊢
  obtain ⟨s1, p⟩ := r
  simp only at hs hpend ⊢
  have h1 := h.same hs
  cases p with
  | none => exact applyFail_request h1 hB hc
  | some p =>
  have hp := hpend p rfl
  simp only
  rw [← hp, ← keeps_congr (P := P) hp] at h1
  clear h hpend hp
  have hO := hB.add (nonNeg_owns (.cell a :: pendingOwned p))
  have hheap1 : s1.heap = s.heap := congrArg Store.heap hs
  rcases resolveTarget_spec h1 hO target with ⟨s2, e2, h2⟩ | ⟨s2, resolved, callee, e2, h2, hheap2⟩
  · rw [e2]
    exact applyFail_request h2 hB hc
  rw [e2]
  simp only
  have h2' : Inv π s2 (B + owns (resolved :: .cell a :: pendingOwned p)) [] (keeps P p) :=
    h2.eq (by rw [owns_cons resolved]; abel)
  have ho2 : s2.heap a = some o := by rw [hheap2, hheap1]; exact ho
  have hO2 := hB.add (nonNeg_owns (resolved :: .cell a :: pendingOwned p))
  cases hcl : s2.asClosure callee with
  | none => exact applyFail_resolved (h2'.same (same_rcError _ _)) hB hc
  | some q =>
  obtain ⟨u, oc, c⟩ := q
  obtain ⟨rfl, hu, hbu⟩ := asClosure_some hcl
  simp only
  have hargs := (h2'.handle_tail hO2 ho2 hb).2
  split
  · -- Too few arguments: a partial application.
    have h3 := partialApply_inv h2' hO2 hu hbu hargs
    refine applyAfter_ok (h3.eq ?_) hB hc (partialApply_result h2' hO2 hu hbu argv)
    simp only [owns_cons]
    abel
  rename_i hlen
  have hB3 := (hB.add (nonNeg_own resolved)).add (nonNeg_own (.cell a))
  have h3 : Inv π s2 (B + own resolved + own (.cell a) + owns (pendingOwned p)) [] (keeps P p) :=
    h2'.eq (by simp only [owns_cons]; abel)
  rcases pushExcess_spec h3 hB3 (argv.drop (c.arity - c.bound.length))
      (fun v hv => hargs v (List.mem_of_mem_drop hv)) with ⟨s3, e3, h4⟩ | ⟨s3, p', e3, h4, hkeep⟩
  · rw [e3]
    exact applyFail_resolved (h4.eq (by simp only [owns_cons]; abel)) hB hc
  · rw [e3]
    refine applyExact_ok (h4.eq (by simp only [owns_cons]; abel)) hB hc
      ((hkeep a (by rw [live, ho2]; simp)).trans ho2) hb
      ((hkeep u (by rw [live, hu]; simp)).trans hu) hbu (by omega)

/-! ### Calls -/

theorem keeps_nil (P : Set Ref) : keeps P [] = P := by
  ext r
  simp [keeps, pendingOwned]

/-- **`rc_compiled_call_complete`.** -/
theorem callComplete_ok {result : Ref} (h : Inv π s (B + own result) [] P) (hB : NonNeg B)
    (hc : Covers B P) (hf : result.isForeignTail = false) : (s.callComplete result).Ok π B P := by
  unfold callComplete
  split
  · rename_i hn
    rw [hn] at h
    exact h
  split
  · exact (h.release hB (h.owned_handle hB hc).1).null
  have h1 := rcSafepoint_inv h (hB.add (nonNeg_own result))
  simp only
  split
  · rename_i ht
    refine ⟨?_, asTail_of_type ht hf⟩
    rw [keeps_nil]
    refine h1.eq ?_
    simp [pendingOwned]
  · exact h1

theorem smallTarget_spec (h : Inv π s O [] P) (hO : NonNeg O) {fn : Ref} {argv : List Ref}
    (hf : s.Handle P fn) {target : Ref} {c : Closure}
    (e : s.smallTarget fn argv = some (target, c)) : s.Handle P target := by
  unfold smallTarget at e
  split at e
  · exact absurd e (by simp)
  simp only at e
  cases hsym : s.asSymbol fn with
  | none =>
    rw [hsym] at e
    simp only at e
    split at e
    · split at e
      · simp only [Option.some.injEq, Prod.mk.injEq] at e
        exact e.1 ▸ hf
      · exact absurd e (by simp)
    · exact absurd e (by simp)
  | some q =>
    obtain ⟨a, t, g, f⟩ := q
    rw [hsym] at e
    obtain ⟨rfl, o, ho, hb⟩ := asSymbol_some hsym
    have hslot := h.handle_slot hO (u := a) (r := f) (by
      rw [slots_of_some ho, (symbol_slots hb).1]; simp)
    simp only at e
    split at e
    · split at e
      · simp only [Option.some.injEq, Prod.mk.injEq] at e
        exact e.1 ▸ hslot
      · exact absurd e (by simp)
    · exact absurd e (by simp)

/-- The references a call takes over from its caller. -/
def argOwn (owned : Bool) (argv : List Ref) : Own := if owned then owns argv else 0

theorem nonNeg_argOwn (owned : Bool) (argv : List Ref) : NonNeg (argOwn owned argv) := by
  unfold argOwn
  split
  · exact nonNeg_owns argv
  · exact fun _ _ => le_refl _

/-- **`rc_apply` and `rc_apply_owned_args`.** -/
theorem applyStart_ok {fn : Ref} {argv : List Ref} (owned : Bool)
    (h : Inv π s (B + argOwn owned argv) [] P) (hB : NonNeg B) (hf : s.Handle P fn)
    (hk : ∀ v ∈ argv, s.Handle P v) : (s.applyStart fn argv owned).Ok π B P := by
  have hO := hB.add (nonNeg_argOwn owned argv)
  have h0 := rcCallEnter_inv h
  have hf0 : s.rcCallEnter.Handle P fn := hf
  have hk0 : ∀ v ∈ argv, s.rcCallEnter.Handle P v := hk
  unfold applyStart
  simp only
  generalize s.rcCallEnter = s0 at h0 hf0 hk0 ⊢
  split
  · rename_i target c e
    have ht := smallTarget_spec h0 hO hf0 e
    have h1 := rcRetain_inv h0 ht.2 ht.1
    have h2 : Inv π (if owned = true then s0.rcRetain target else (s0.rcRetain target).retainAll argv)
        (B + owns argv + own target) [] P := by
      cases owned with
      | true => exact h1
      | false =>
        refine (retainAll_inv argv h1 fun v hv => ⟨(hk0 v hv).1, fun b hb => ?_⟩).eq ?_
        · rw [live, rcRetain_heap]
          exact (hk0 v hv).2 b hb
        · simp only [argOwn, Bool.false_eq_true, if_false]
          abel
    split
    · change Inv π _ (B + (owns argv + owns ([target] ++ []))) [] (keeps P [])
      rw [keeps_nil]
      refine h2.eq ?_
      simp only [List.append_nil, owns_singleton]
      abel
    · change Inv π _ (B + (0 + owns (target :: argv ++ []))) [] (keeps P [])
      rw [keeps_nil]
      refine h2.eq ?_
      rw [List.append_nil, owns_cons]
      abel
  · have hagain : ∀ {s1 : Ctx} {a : ℕ} {o : Obj} {f : Ref} {args : List Ref} {g : ℕ},
        Inv π s1 (B + own (.cell a)) [] P → s1.heap a = some o → o.body = .tail f args g →
        Turn.Ok π B P (runRequest (s1, .cell a)) := by
      intro s1 a o f args g hi ho hb
      change Inv π s1 (B + owns (.cell a :: [])) [] (keeps P []) ∧ _
      rw [keeps_nil, owns_singleton]
      exact ⟨hi, a, f, args, g, asTail_eq ho hb⟩
    cases owned with
    | true =>
      rcases rcTailcallOwnedArgs_spec h0 hB hf0 hk0 with ⟨s1, e, hi⟩ | ⟨a, s1, r, e, hi, ho⟩
      · rw [if_pos rfl, e]
        exact hi.null
      · rw [if_pos rfl, e]
        exact hagain hi ho rfl
    | false =>
      have h1 : Inv π s0 B [] P := h0.eq (by simp [argOwn])
      rcases rcTailcall_spec h1 hB hf0 hk0 with ⟨s1, e, hs⟩ | ⟨a, s1, r, e, hi, -, -, hheap⟩
      · rw [if_neg (by simp), e]
        exact (h1.same hs).null
      · rw [if_neg (by simp), e]
        exact hagain hi (by rw [hheap]; exact Function.update_self ..) rfl

/-- **`rc_apply_rooted_owned_args`.** -/
theorem applyRootedOwnedArgs_ok {fn : Ref} {argv : List Ref} (h : Inv π s (B + owns argv) [] P)
    (hB : NonNeg B) (hf : s.Handle P fn) (hk : ∀ v ∈ argv, s.Handle P v) :
    (s.applyRootedOwnedArgs fn argv).Ok π B P := by
  unfold applyRootedOwnedArgs
  split
  · have h0 := rcCallEnter_inv h
    simp only
    split
    · change Inv π _ (B + (owns argv + owns ([] ++ []))) [] (keeps P [])
      rw [keeps_nil]
      exact h0.eq (by simp)
    · change Inv π _ (B + (0 + owns (argv ++ []))) [] (keeps P [])
      rw [keeps_nil]
      exact h0.eq (by simp)
  · exact applyStart_ok true h hB hf hk

/-- **`rc_call_mixed`** retains the arguments it borrows, if the callback takes them over. -/
theorem callMixed_ok {fn : Ref} {argv : List Ref} {borrowed : BitVec 32} {t : Turn}
    (h : Inv π s (B + owns (keptRefs argv borrowed)) [] P)
    (hk : ∀ v ∈ argv, s.Handle P v) (e : s.callMixed fn argv borrowed = some t) : t.Ok π B P := by
  unfold callMixed at e
  split at e
  · split at e
    · cases e
      have h1 := retainAll_inv (movedRefs argv borrowed) h fun v hv =>
        ⟨(hk v (mem_moved hv)).1, (hk v (mem_moved hv)).2⟩
      change Inv π _ (B + (owns argv + owns ([] ++ []))) [] (keeps P [])
      rw [keeps_nil]
      refine h1.eq ?_
      rw [← owns_moved_kept argv borrowed, List.append_nil, owns_nil]
      abel
    · cases e
      change Inv π _ (B + (0 + owns (keptRefs argv borrowed ++ []))) [] (keeps P [])
      rw [keeps_nil]
      exact h.eq (by simp)
  · exact absurd e (by simp)

theorem callMixedGeneral_ok {fn : Ref} {argv : List Ref} {borrowed : BitVec 32}
    (h : Inv π s (B + owns (keptRefs argv borrowed)) [] P) (hB : NonNeg B) (hf : s.Handle P fn)
    (hk : ∀ v ∈ argv, s.Handle P v) : (s.callMixedGeneral fn argv borrowed).Ok π B P := by
  have h1 := retainAll_inv (movedRefs argv borrowed) h fun v hv =>
    ⟨(hk v (mem_moved hv)).1, (hk v (mem_moved hv)).2⟩
  have hl : ∀ b, s.live b → (s.retainAll (movedRefs argv borrowed)).live b := fun b hb => by
    rw [live, retainAll_heap]
    exact hb
  refine applyStart_ok true (h1.eq ?_) hB (hf.mono hl) fun v hv => (hk v hv).mono hl
  rw [argOwn, if_pos rfl, ← owns_moved_kept argv borrowed]
  abel

/-- **A callback returns** with a result and the argument slots it left. -/
theorem afterCallback_ok {w : Wait} {result : Ref} {left : List Ref}
    (h : Inv π s (B + owns (result :: left) + owns (w.owned ++ pendingOwned w.pending)) []
      (keeps P w.pending)) (hB : NonNeg B) (hc : Covers B P) (hf : result.isForeignTail = false) :
    (s.afterCallback w result left).Ok π B P := by
  cases w with
  | request resolved request pending =>
    have hB1 := hB.add (nonNeg_owns (pendingOwned pending))
    have hc1 := hc.keeps hB pending
    have h1 : Inv π s (B + owns (pendingOwned pending) + owns [resolved, request, result] + owns left)
        [] (keeps P pending) := by
      refine h.eq ?_
      simp only [Wait.owned, Wait.pending, owns_append, owns_cons, owns_nil]
      abel
    refine applyAfter_ok ((h1.releaseOwned (hB1.add (nonNeg_owns _)) (hc1.add (nonNeg_owns _))).eq ?_)
      hB hc hf
    simp only [owns_cons, owns_nil]
    abel
  | small target args =>
    have h1 : Inv π s (B + own result + own target + owns (left ++ args)) [] P := by
      rw [show (Wait.small target args).pending = [] from rfl, keeps_nil] at h
      refine h.eq ?_
      simp only [Wait.owned, pendingOwned, List.flatMap_nil, List.append_nil, owns_append, owns_cons]
      abel
    have hB1 := hB.add (nonNeg_own result)
    have hc1 := hc.add (nonNeg_own result)
    have h2 := h1.releaseOwned (hB1.add (nonNeg_own target)) (hc1.add (nonNeg_own target))
    exact callComplete_ok (h2.release hB1 (h2.owned_handle hB1 hc1).1) hB hc hf
  | direct args =>
    have h1 : Inv π s (B + own result + owns (left ++ args)) [] P := by
      rw [show (Wait.direct args).pending = [] from rfl, keeps_nil] at h
      refine h.eq ?_
      simp only [Wait.owned, pendingOwned, List.flatMap_nil, List.append_nil, owns_append, owns_cons]
      abel
    exact callComplete_ok (h1.releaseOwned (hB.add (nonNeg_own result)) (hc.add (nonNeg_own result)))
      hB hc hf

end Ctx

end ShenRc.Runtime
