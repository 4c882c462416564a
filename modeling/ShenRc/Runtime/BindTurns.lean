import ShenRc.Runtime.BindOps

/-! # Applications keep symbols and immortal cells

No stretch of runtime code, from the start of an application to a callback or from a callback to the
result, writes the slots of a symbol (`Binds`). The safepoint of a turn needs the invariant of the
runtime, since a collection is right only for counts that are right; the allocations need the books. -/

namespace ShenRc.Runtime

namespace Ctx

variable {π : Policy} {s : Ctx} {B : Own} {P : Set Ref} {pending : List Pending} {a : ℕ}

/-! ### Pending requests -/

theorem binds_releasePendings (s : Ctx) (pending : List Pending) :
    Binds s (pending.foldl releasePending s) :=
  Binds.foldl id (fun s entry => by
    rcases entry with r | g
    · exact binds_rcRelease s r
    · exact .refl s) pending s

theorem binds_applyFail (s : Ctx) (request result : Ref) (pending : List Pending) :
    Binds s (s.applyFail request result pending).ctx :=
  ((binds_rcRelease s request).trans (binds_rcRelease _ result)).trans (binds_releasePendings _ pending)

theorem binds_pushGuards (s : Ctx) (guards : ℕ) (pending : List Pending) :
    Binds s (s.pushGuards guards pending).1 := by
  unfold pushGuards
  split_ifs
  · exact .refl s
  · split
    · exact .refl s
    · exact binds_malloc s
  · split
    · exact .refl s
    · exact (binds_malloc s).trans (binds_rcError _ _)

theorem Books.binds_completeGuards (pending : List Pending) : ∀ {s : Ctx} (result : Ref),
    Books 0 [] s → Binds s (s.completeGuards result pending).1 := by
  induction pending with
  | nil => exact fun result _ => .refl _
  | cons entry rest ih =>
    intro s result hb
    rcases entry with r | g
    · exact .refl s
    unfold Ctx.completeGuards
    simp only
    have hcontext : Binds s (if g &&& guardContext ≠ 0 then
          s.rcEvalRequireArgumentContext result else (s, result)).1 ∧
        Books 0 [] (if g &&& guardContext ≠ 0 then
          s.rcEvalRequireArgumentContext result else (s, result)).1 := by
      split_ifs
      · exact ⟨hb.binds_requireGuard _ _, hb.requireGuard _ _⟩
      · exact ⟨.refl s, hb⟩
    generalize (if g &&& guardContext ≠ 0 then s.rcEvalRequireArgumentContext result
      else (s, result)) = r at hcontext ⊢
    obtain ⟨hcontext, hb₁⟩ := hcontext
    have hboolean : Binds r.1 (if r.2 ≠ .null ∧ g &&& guardBoolean ≠ 0 then
          r.1.rcRequireBoolean r.2 else r).1 ∧
        Books 0 [] (if r.2 ≠ .null ∧ g &&& guardBoolean ≠ 0 then
          r.1.rcRequireBoolean r.2 else r).1 := by
      split_ifs
      · exact ⟨hb₁.binds_requireGuard _ _, hb₁.requireGuard _ _⟩
      · exact ⟨.refl _, hb₁⟩
    generalize (if r.2 ≠ .null ∧ g &&& guardBoolean ≠ 0 then r.1.rcRequireBoolean r.2 else r) = r'
      at hboolean ⊢
    obtain ⟨hboolean, hb₂⟩ := hboolean
    have hboth := hcontext.trans hboolean
    split_ifs
    · exact hboth
    · exact hboth.trans (ih _ hb₂)

/-- The fields of a request may be written. -/
theorem binds_modify_tail {f : Obj → Obj}
    (h : ∀ o, o.body.type = .tail → (f o).body.type = .tail) (hother : ∀ o, o.body.type ≠ .tail → f o = o) :
    Binds s (s.modify a f) :=
  binds_modify fun o _ => by
    by_cases ht : o.body.type = .tail
    · exact .of_type (by rw [ht]; decide) (by rw [h o ht]; decide)
    · rw [hother o ht]
      exact .refl o

theorem binds_setTailFunction (s : Ctx) (a : ℕ) (fn : Ref) : Binds s (s.setTailFunction a fn) :=
  binds_modify_tail
    (fun o ht => by
      split
      · rfl
      · exact ht)
    (fun o ht => by
      split
      · rename_i hbody
        exact absurd (by rw [hbody]; rfl) ht
      · rfl)

theorem binds_emptyTailArgs (s : Ctx) (a n : ℕ) : Binds s (s.emptyTailArgs a n) :=
  binds_modify_tail
    (fun o ht => by
      split
      · rfl
      · exact ht)
    (fun o ht => by
      split
      · rename_i hbody
        exact absurd (by rw [hbody]; rfl) ht
      · rfl)

/-! ### One turn -/

/-- The turn from the callback on. -/
theorem Books.binds_applyAfter {resolved request result : Ref} (hb : Books 0 [] s)
    (h : Inv π s (B + owns (resolved :: request :: result :: pendingOwned pending)) []
      (keeps P pending)) (hB : NonNeg B) (hc : Covers B P) :
    Binds s (s.applyAfter resolved request result pending).ctx := by
  have hB₁ := hB.add (nonNeg_owns (pendingOwned pending))
  have hB₂ := hB₁.add (nonNeg_own result)
  have hc₂ := (hc.keeps hB pending).add (nonNeg_own result)
  have h₁ : Inv π ((s.rcRelease resolved).rcRelease request)
      (B + owns (pendingOwned pending) + own result) [] (keeps P pending) := by
    have hsplit : Inv π s (B + owns (pendingOwned pending) + own result + owns [resolved, request]) []
        (keeps P pending) := h.eq (by simp only [owns_cons, owns_nil]; abel)
    exact hsplit.releaseOwned hB₂ hc₂
  have hbinds := (binds_rcRelease s resolved).trans (binds_rcRelease _ request)
  have hb₁ := (hb.rcRelease resolved).rcRelease request
  unfold Ctx.applyAfter
  simp only
  generalize (s.rcRelease resolved).rcRelease request = s₁ at h₁ hb₁ hbinds ⊢
  by_cases hnull : result = .null
  · rw [if_pos hnull]
    exact hbinds.trans (binds_applyFail _ _ _ _)
  rw [if_neg hnull]
  by_cases herror : s₁.errorActive = true
  · rw [if_pos herror]
    exact hbinds.trans ((binds_rcRelease _ _).trans (binds_applyFail _ _ _ _))
  rw [if_neg herror]
  have hsafe := hbinds.trans (h₁.binds_rcSafepoint hB₂)
  have hb₂ := hb₁.rcSafepoint
  generalize s₁.rcSafepoint = s₂ at hsafe hb₂ ⊢
  by_cases htail : s₂.rcType result = .tail
  · rw [if_pos htail]
    exact hsafe
  rw [if_neg htail]
  have hguards := hsafe.trans (Books.binds_completeGuards pending result hb₂)
  split
  · rename_i h
    rw [h] at hguards
    exact hguards.trans (binds_applyFail _ _ _ _)
  · rename_i h
    rw [h] at hguards
    exact hguards
  · rename_i h
    rw [h] at hguards
    exact hguards.trans (binds_setTailFunction _ _ _)
  · rename_i h
    rw [h] at hguards
    exact hguards.trans (binds_abort _)

theorem binds_resolveTarget (s : Ctx) (target : Ref) : Binds s (s.resolveTarget target).1 := by
  have hget := binds_rcFunctionGet s target
  unfold resolveTarget
  split_ifs
  · split
    · rename_i h
      rw [h] at hget
      exact hget
    · rename_i h
      rw [h] at hget
      exact hget
  · exact .refl s

theorem Books.binds_pushExcess (hb : Books 0 [] s) (excess : List Ref) (pending : List Pending) :
    Binds s (s.pushExcess excess pending).1 := by
  unfold Ctx.pushExcess
  split_ifs
  · exact .refl s
  · have hmade := (binds_malloc s).trans (((quiet_malloc s).books hb).binds_rcTailcall .nil excess)
    split
    · rename_i h
      rw [h] at hmade
      exact hmade
    · rename_i h
      rw [h] at hmade
      exact hmade
  · exact (binds_malloc s).trans (binds_rcError _ _)

/-- The turn from the resolved callee to the callback. -/
theorem binds_applyExact (s : Ctx) (a : ℕ) (target resolved : Ref) (c : Closure) (argv : List Ref)
    (pending : List Pending) : Binds s (s.applyExact a target resolved c argv pending).ctx := by
  have hfail : ∀ {t : Ctx} (message : String), Binds s t →
      Binds s (((t.rcError message).rcRelease resolved).applyFail (.cell a) .null pending).ctx :=
    fun message ht => ((ht.trans (binds_rcError _ _)).trans (binds_rcRelease _ _)).trans
      (binds_applyFail _ _ _ _)
  unfold Ctx.applyExact
  simp only
  by_cases hbig : sizeMax / ptrBytes < c.arity
  · rw [if_pos hbig]
    exact hfail _ (.refl s)
  rw [if_neg hbig]
  by_cases hplain : c.ownedNative.isNone = true ∧ c.bound = []
  · rw [if_pos hplain]
    exact .refl s
  rw [if_neg hplain]
  have hroom : Binds s (if c.arity ≤ 8 then (true, s) else s.malloc).2 := by
    split_ifs
    · exact .refl s
    · exact binds_malloc s
  generalize (if c.arity ≤ 8 then (true, s) else s.malloc) = r at hroom ⊢
  by_cases hr : r.1 = true
  swap
  · rw [if_neg hr]
    exact hfail _ hroom
  rw [if_pos hr]
  by_cases howned : c.ownedNative.isSome = true
  swap
  · rw [if_neg howned]
    exact hroom
  rw [if_pos howned]
  have hbound := hroom.trans (binds_retainAll r.2 c.bound)
  generalize r.2.retainAll c.bound = s₁ at hbound ⊢
  change Binds s (if s₁.refs (.cell a) = 1 then s₁.emptyTailArgs a (c.arity - c.bound.length)
    else s₁.retainAll (argv.take (c.arity - c.bound.length)))
  split_ifs
  · exact hbound.trans (binds_emptyTailArgs _ _ _)
  · exact hbound.trans (binds_retainAll _ _)

/-- One turn of the loop of `apply_request`. -/
theorem Books.binds_applyTurn {request : Ref} (hb : Books 0 [] s)
    (h : Inv π s (B + owns (request :: pendingOwned pending)) [] (keeps P pending)) (hB : NonNeg B)
    (hc : Covers B P) : Binds s (s.applyTurn request pending).ctx := by
  unfold Ctx.applyTurn
  split
  · exact binds_abort s
  rename_i a target argv guards htail
  obtain ⟨rfl, o, ho, hbody⟩ := asTail_some htail
  obtain ⟨hsame, hpend⟩ := pushGuards_spec s guards pending
  have hpush := binds_pushGuards s guards pending
  have hb₁ := (quiet_pushGuards s guards pending).books hb
  split
  · rename_i s₁ h₁
    rw [h₁] at hpush
    exact hpush.trans (binds_applyFail _ _ _ _)
  rename_i s₁ p h₁
  rw [h₁] at hpush hsame hpend hb₁
  have hp := hpend p rfl
  have hi₁ := h.same hsame
  rw [← hp, ← keeps_congr (P := P) hp] at hi₁
  have hheap₁ : s₁.heap = s.heap := congrArg Store.heap hsame
  have hO := hB.add (nonNeg_owns (.cell a :: pendingOwned p))
  have hresolve := hpush.trans (binds_resolveTarget s₁ target)
  have hb₂ := (quiet_resolveTarget s₁ target).books hb₁
  obtain ⟨s₂, h₂, -⟩ | ⟨s₂, resolved, callee, h₂, hi₂, hheap₂⟩ := resolveTarget_spec hi₁ hO target
  · rw [h₂] at hresolve ⊢
    exact hresolve.trans (binds_applyFail _ _ _ _)
  rw [h₂] at hresolve hb₂ ⊢
  dsimp only at hresolve hb₂ ⊢
  split
  · exact hresolve.trans ((binds_rcError _ _).trans ((binds_rcRelease _ _).trans (binds_applyFail _ _ _ _)))
  rename_i u oc c hcallee
  obtain ⟨rfl, hu, hbu⟩ := asClosure_some hcallee
  by_cases hfew : argv.length < c.arity - c.bound.length
  · rw [if_pos hfew]
    -- The partial application is a result, and the turn reaches its safepoint with it.
    have hi₃ : Inv π s₂ (B + owns (resolved :: .cell a :: pendingOwned p)) [] (keeps P p) :=
      hi₂.eq (by rw [owns_cons resolved]; abel)
    have hO₃ := hB.add (nonNeg_owns (resolved :: .cell a :: pendingOwned p))
    have ho₂ : s₂.heap a = some o := by rw [hheap₂, hheap₁, ho]
    have hclosure := partialApply_inv hi₃ hO₃ hu hbu (hi₃.handle_tail hO₃ ho₂ hbody).2
    refine (hresolve.trans (hb₂.binds_partialApply c argv)).trans
      ((hb₂.partialApply c argv).binds_applyAfter (hclosure.eq ?_) hB hc)
    simp only [owns_cons]
    abel
  rw [if_neg hfew]
  have hexcess := hresolve.trans (hb₂.binds_pushExcess (argv.drop (c.arity - c.bound.length)) p)
  split
  · rename_i s₃ h₃
    rw [h₃] at hexcess
    exact hexcess.trans ((binds_rcRelease _ _).trans (binds_applyFail _ _ _ _))
  · rename_i s₃ p' h₃
    rw [h₃] at hexcess
    exact hexcess.trans (binds_applyExact _ _ _ _ _ _ _)

/-! ### Calls -/

theorem Inv.binds_callComplete {result : Ref} (h : Inv π s (B + own result) [] P) (hB : NonNeg B) :
    Binds s (s.callComplete result).ctx := by
  have hsafe := h.binds_rcSafepoint (hB.add (nonNeg_own result))
  unfold callComplete
  simp only
  split_ifs
  · exact .refl s
  · exact binds_rcRelease s result
  · exact hsafe
  · exact hsafe

theorem runRequest_ctx (r : Ctx × Ref) : (runRequest r).ctx = r.1 := by
  rcases r with ⟨s, v⟩
  unfold runRequest
  split
  · rename_i h
    exact (Prod.mk.inj h).1.symm
  · rename_i h
    exact (Prod.mk.inj h).1.symm

/-- The start of an application, once the call is counted. -/
theorem Books.binds_applyStart (hb : Books 0 [] s) (fn : Ref) (argv : List Ref) (owned : Bool) :
    Binds s.rcCallEnter (s.applyStart fn argv owned).ctx := by
  have hb₀ := (quiet_rcCallEnter s).books hb
  unfold Ctx.applyStart
  simp only
  generalize s.rcCallEnter = s₀ at hb₀ ⊢
  split
  · rename_i target c _
    have hroot := binds_rcRetain s₀ target
    have hargs : Binds s₀ (if owned then s₀.rcRetain target
        else (s₀.rcRetain target).retainAll argv) := by
      split_ifs
      · exact hroot
      · exact hroot.trans (binds_retainAll _ argv)
    split_ifs at hargs ⊢
    all_goals exact hargs
  · rw [runRequest_ctx]
    split_ifs
    · exact hb₀.binds_rcTailcallOwnedArgs fn argv
    · exact hb₀.binds_rcTailcall fn argv

theorem Books.binds_applyRootedOwnedArgs (hb : Books 0 [] s) (fn : Ref) (argv : List Ref) :
    Binds s.rcCallEnter (s.applyRootedOwnedArgs fn argv).ctx := by
  unfold Ctx.applyRootedOwnedArgs
  split
  · simp only
    split_ifs
    · exact .refl _
    · exact .refl _
  · exact hb.binds_applyStart fn argv true

theorem binds_callMixed {fn : Ref} {argv : List Ref} {borrowed : BitVec 32} {t : Turn}
    (h : s.callMixed fn argv borrowed = some t) : Binds s t.ctx := by
  unfold callMixed at h
  split at h
  · split_ifs at h
    · obtain rfl := Option.some.inj h
      exact binds_retainAll s _
    · obtain rfl := Option.some.inj h
      exact .refl s
  · exact absurd h (by simp)

/-- The borrowed arguments are retained first. -/
theorem Books.binds_callMixedGeneral (hb : Books 0 [] s) (fn : Ref) (argv : List Ref)
    (borrowed : BitVec 32) : Binds s.rcCallEnter (s.callMixedGeneral fn argv borrowed).ctx := by
  have hretain := binds_retainAll s (movedRefs argv borrowed)
  have henter : Binds s.rcCallEnter (s.retainAll (movedRefs argv borrowed)).rcCallEnter :=
    ⟨⟨hretain.stuck, hretain.kept, hretain.new⟩, hretain.retired, by
      unfold rcCallEnter
      dsimp only
      rw [hretain.callDepth]⟩
  exact henter.trans (((quiet_retainAll s _).books hb).binds_applyStart fn argv true)

/-- A callback returns. -/
theorem Books.binds_afterCallback {w : Wait} {result : Ref} {left : List Ref} (hb : Books 0 [] s)
    (h : Inv π s (B + owns (result :: left) + owns (w.owned ++ pendingOwned w.pending)) []
      (keeps P w.pending)) (hB : NonNeg B) (hc : Covers B P) :
    Binds s (s.afterCallback w result left).ctx := by
  rcases w with ⟨resolved, request, pending⟩ | ⟨target, args⟩ | args
  · have hB₁ := hB.add (nonNeg_owns (pendingOwned pending))
    have hc₁ := hc.keeps hB pending
    have h₁ : Inv π s (B + owns (pendingOwned pending) + owns [resolved, request, result] + owns left)
        [] (keeps P pending) := by
      refine h.eq ?_
      simp only [Wait.owned, Wait.pending, owns_append, owns_cons, owns_nil]
      abel
    refine (binds_releaseAll s left).trans ((hb.releaseAll left).binds_applyAfter
      ((h₁.releaseOwned (hB₁.add (nonNeg_owns _)) (hc₁.add (nonNeg_owns _))).eq ?_) hB hc)
    simp only [owns_cons, owns_nil]
    abel
  · have h₁ : Inv π s (B + own result + own target + owns (left ++ args)) [] P := by
      rw [show (Wait.small target args).pending = [] from rfl, keeps_nil] at h
      refine h.eq ?_
      simp only [Wait.owned, pendingOwned, List.flatMap_nil, List.append_nil, owns_append, owns_cons]
      abel
    have hB₁ := hB.add (nonNeg_own result)
    have hc₁ := hc.add (nonNeg_own result)
    have h₂ := h₁.releaseOwned (hB₁.add (nonNeg_own target)) (hc₁.add (nonNeg_own target))
    exact ((binds_releaseAll s _).trans (binds_rcRelease _ target)).trans
      ((h₂.release hB₁ (h₂.owned_handle hB₁ hc₁).1).binds_callComplete hB)
  · have h₁ : Inv π s (B + own result + owns (left ++ args)) [] P := by
      rw [show (Wait.direct args).pending = [] from rfl, keeps_nil] at h
      refine h.eq ?_
      simp only [Wait.owned, pendingOwned, List.flatMap_nil, List.append_nil, owns_append, owns_cons]
      abel
    exact (binds_releaseAll s _).trans ((h₁.releaseOwned (hB.add (nonNeg_own result))
      (hc.add (nonNeg_own result))).binds_callComplete hB)

end Ctx

end ShenRc.Runtime
