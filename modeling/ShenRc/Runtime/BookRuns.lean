import ShenRc.Runtime.BookOps
import ShenRc.Runtime.Balance

/-! # The books through runs

Every step of a run keeps the books (`step_books`), so they are balanced in every configuration that a
run reaches, as long as the program has not been aborted: its counters are what a census of the
objects, the plans, the recorded sources and the free lists finds (`reachable_accounted`). Neither the
allocator nor client code has to behave for that. -/

namespace ShenRc.Runtime

open Relation ShenRc.Census

namespace Ctx

variable {s : Ctx} {a : ℕ}

/-! ### Operations -/

/-- **Every operation keeps the books.** -/
theorem Books.exec (hb : Books 0 [] s) (o : Op) : Books 0 [] (o.exec s).1 := by
  cases o with
  | retain v => exact (quiet_rcRetain s v).books hb
  | release v => exact hb.rcRelease v
  | number bits => exact hb.rcNumber bits
  | integer n => exact hb.rcInteger n
  | string text => exact hb.rcString text
  | symbol name => exact hb.rcSymbol name
  | cons hd tl => exact hb.rcCons hd tl
  | consOwned hd tl => exact hb.rcConsOwned hd tl
  | consReuse c hd tl => exact hb.rcConsReuse c hd tl
  | consReuseOwned c hd tl => exact hb.rcConsReuseOwned c hd tl
  | pairTakeUnique p first => exact hb.rcPairTakeUnique p first
  | pairTakeLast p first => exact hb.rcPairTakeLast p first
  | pairTakeTailReuse c => exact hb.rcPairTakeTailReuse c
  | head v => exact hb.rcHead v
  | tail v => exact hb.rcTail v
  | vector n => exact hb.rcVector n
  | vectorGet v i => exact hb.rcVectorGet v i
  | vectorSet v i item => exact hb.rcVectorSet v i item
  | closure arity native captures => exact hb.closureCreate ..
  | closureOwned arity native captures => exact hb.closureCreate ..
  | closureMoved arity native captures moved => exact (hb.closureCreateMoved ..).1
  | closureReturnSecond native captures => exact Books.certify (hb.closureCreate ..)
  | closureReturnSecondOwned native captures => exact Books.certify (hb.closureCreate ..)
  | closureStatic v => exact hb.rcClosureStatic v
  | tailcall fn argv => exact (hb.rcTailcall fn argv).1
  | tailcallOwnedArgs fn argv => exact hb.rcTailcallOwnedArgs fn argv
  | requireBoolean v => exact hb.requireGuard v _
  | requireArgumentContext v => exact hb.requireGuard v _
  | envFrame parent bindings => exact hb.rcEnvFrame parent bindings
  | evalEnvFrame self callback argv => exact hb.rcEvalEnvFrame self callback argv
  | planHeat e => exact hb.rcEvalPlanHeat e
  | planSet e plan => exact hb.rcEvalPlanSet e plan
  | planPromote self prepared plan => exact hb.rcEvalPlanPromote self prepared plan
  | globalSet x v => exact hb.setSymbolSlot x v false
  | functionSet x f => exact hb.rcFunctionSet x f
  | globalGet x => exact hb.rcGlobalGet x
  | functionGet x => exact (quiet_rcFunctionGet s x).books hb
  | functionLookup x => exact (quiet_rcFunctionLookup s x).books hb
  | builtinCacheSet slot fn => exact hb.rcBuiltinCacheSet slot fn
  | callEnter => exact (quiet_rcCallEnter s).books hb
  | callLeave => exact hb.rcCallLeave
  | error message => exact (quiet_rcError s message).books hb
  | clearError => exact Quiet.books (s := s) ⟨rfl, id⟩ hb
  | setCollectionInterval n => exact Quiet.books (s := s) ⟨rfl, id⟩ hb
  | safepoint => exact hb.rcSafepoint
  | collect => exact hb.rcCollect

end Ctx

/-! ### Applications -/

/-- The context at the end of a stretch of runtime code. -/
def Turn.ctx : Turn → Ctx
  | .done s _ => s
  | .again s _ _ => s
  | .call s _ _ _ _ => s

namespace Ctx

variable {s : Ctx} {a : ℕ}

theorem Books.releasePendings (hb : Books 0 [] s) (pending : List Pending) :
    Books 0 [] (pending.foldl releasePending s) :=
  hb.foldl (fun _ entry hb => by
    rcases entry with r | g
    · exact hb.rcRelease r
    · exact hb) pending

theorem Books.applyFail (hb : Books 0 [] s) (request result : Ref) (pending : List Pending) :
    Books 0 [] (s.applyFail request result pending).ctx :=
  ((hb.rcRelease request).rcRelease result).releasePendings pending

theorem quiet_pushGuards (s : Ctx) (guards : ℕ) (pending : List Pending) :
    Quiet s (s.pushGuards guards pending).1 := by
  unfold pushGuards
  split_ifs
  · exact Quiet.refl _
  · split
    · exact Quiet.refl _
    · exact quiet_malloc s
  · split
    · exact Quiet.refl _
    · exact (quiet_malloc s).trans (quiet_rcError _ _)

theorem Books.completeGuards (pending : List Pending) : ∀ {s : Ctx} (result : Ref), Books 0 [] s →
    Books 0 [] (s.completeGuards result pending).1 := by
  induction pending with
  | nil => exact fun result hb => hb
  | cons entry rest ih =>
    intro s result hb
    rcases entry with r | g
    · exact hb
    unfold Ctx.completeGuards
    simp only
    have hcontext : Books 0 [] (if g &&& guardContext ≠ 0 then
        s.rcEvalRequireArgumentContext result else (s, result)).1 := by
      split_ifs
      · exact hb.requireGuard _ _
      · exact hb
    generalize (if g &&& guardContext ≠ 0 then s.rcEvalRequireArgumentContext result
      else (s, result)) = r at hcontext ⊢
    have hboolean : Books 0 [] (if r.2 ≠ .null ∧ g &&& guardBoolean ≠ 0 then
        r.1.rcRequireBoolean r.2 else r).1 := by
      split_ifs
      · exact hcontext.requireGuard _ _
      · exact hcontext
    generalize (if r.2 ≠ .null ∧ g &&& guardBoolean ≠ 0 then r.1.rcRequireBoolean r.2 else r) = r'
      at hboolean ⊢
    split_ifs
    · exact hboolean
    · exact ih _ hboolean

theorem Books.setTailFunction (hb : Books 0 [] s) (fn : Ref) :
    Books 0 [] (s.setTailFunction a fn) := by
  refine hb.modify fun o _ => ?_
  split
  · rename_i hbody
    exact .tail hbody rfl rfl rfl
  · exact .of_body rfl rfl

/-- A request keeps its slots when its arguments move out. -/
theorem Books.emptyTailArgs (hb : Books 0 [] s) {n : ℕ}
    (hlen : ∀ o fn args g, s.heap a = some o → o.body = .tail fn args g → n ≤ args.length) :
    Books 0 [] (s.emptyTailArgs a n) := by
  refine hb.modify fun o ho => ?_
  split
  · rename_i fn args g hbody
    have h := hlen o fn args g ho hbody
    refine .tail hbody rfl ?_ rfl
    rw [List.length_append, List.length_replicate, List.length_drop]
    omega
  · exact .of_body rfl rfl

theorem Books.applyAfter (hb : Books 0 [] s) (resolved request result : Ref)
    (pending : List Pending) : Books 0 [] (s.applyAfter resolved request result pending).ctx := by
  have hb₁ := (hb.rcRelease resolved).rcRelease request
  unfold Ctx.applyAfter
  simp only
  generalize (s.rcRelease resolved).rcRelease request = s₁ at hb₁ ⊢
  by_cases hnull : result = .null
  · rw [if_pos hnull]
    exact hb₁.applyFail _ _ _
  rw [if_neg hnull]
  by_cases herror : s₁.errorActive = true
  · rw [if_pos herror]
    exact (hb₁.rcRelease result).applyFail _ _ _
  rw [if_neg herror]
  have hb₂ := hb₁.rcSafepoint
  generalize s₁.rcSafepoint = s₂ at hb₂ ⊢
  by_cases htail : s₂.rcType result = .tail
  · rw [if_pos htail]
    exact hb₂
  rw [if_neg htail]
  have hb₃ := Books.completeGuards pending result hb₂
  split
  · rename_i h
    rw [h] at hb₃
    exact Books.applyFail hb₃ _ _ _
  · rename_i h
    rw [h] at hb₃
    exact hb₃
  · rename_i h
    rw [h] at hb₃
    exact Books.setTailFunction hb₃ _
  · rename_i h
    rw [h] at hb₃
    exact (quiet_abort _).books hb₃

theorem quiet_resolveTarget (s : Ctx) (target : Ref) : Quiet s (s.resolveTarget target).1 := by
  have hq := quiet_rcFunctionGet s target
  unfold resolveTarget
  split_ifs
  · split
    · rename_i h
      rw [h] at hq
      exact hq
    · rename_i h
      rw [h] at hq
      exact hq
  · exact Quiet.refl _

/-- The excess arguments go into a new request; the one at hand stays as it is. -/
theorem Books.pushExcess (hb : Books 0 [] s) (excess : List Ref) (pending : List Pending) :
    Books 0 [] (s.pushExcess excess pending).1 ∧ ∀ b o, s.heap b = some o →
      (s.pushExcess excess pending).1.stuck = true ∨
        (s.pushExcess excess pending).1.heap b = some o := by
  unfold Ctx.pushExcess
  split_ifs
  · exact ⟨hb, fun _ _ ho => Or.inr ho⟩
  · have hmade := ((quiet_malloc s).books hb).rcTailcall .nil excess
    split
    · rename_i h
      rw [h] at hmade
      exact hmade
    · rename_i h
      rw [h] at hmade
      exact hmade
  · exact ⟨((quiet_malloc s).trans (quiet_rcError _ _)).books hb, fun _ _ ho => Or.inr ho⟩

theorem Books.applyExact (hb : Books 0 [] s) (target resolved : Ref) (c : Closure) (argv : List Ref)
    (pending : List Pending)
    (hlen : s.stuck = true ∨ ∀ o fn args g, s.heap a = some o → o.body = .tail fn args g →
      c.arity - c.bound.length ≤ args.length) :
    Books 0 [] (s.applyExact a target resolved c argv pending).ctx := by
  have hfail : ∀ {t : Ctx} (message : String), Quiet s t →
      Books 0 [] (((t.rcError message).rcRelease resolved).applyFail (.cell a) .null pending).ctx :=
    fun message hq => (((hq.trans (quiet_rcError _ _)).books hb).rcRelease _).applyFail _ _ _
  unfold Ctx.applyExact
  simp only
  by_cases hbig : sizeMax / ptrBytes < c.arity
  · rw [if_pos hbig]
    exact hfail _ (Quiet.refl s)
  rw [if_neg hbig]
  by_cases hplain : c.ownedNative.isNone = true ∧ c.bound = []
  · rw [if_pos hplain]
    exact hb
  rw [if_neg hplain]
  have hq : Quiet s (if c.arity ≤ 8 then (true, s) else s.malloc).2 := by
    split_ifs
    · exact Quiet.refl _
    · exact quiet_malloc s
  generalize (if c.arity ≤ 8 then (true, s) else s.malloc) = r at hq ⊢
  by_cases hroom : r.1 = true
  swap
  · rw [if_neg hroom]
    exact hfail _ hq
  rw [if_pos hroom]
  by_cases howned : c.ownedNative.isSome = true
  swap
  · rw [if_neg howned]
    exact hq.books hb
  rw [if_pos howned]
  have hq' := hq.trans (quiet_retainAll r.2 c.bound)
  generalize r.2.retainAll c.bound = s₁ at hq' ⊢
  change Books 0 [] (if s₁.refs (.cell a) = 1 then s₁.emptyTailArgs a (c.arity - c.bound.length)
    else s₁.retainAll (argv.take (c.arity - c.bound.length)))
  split_ifs
  · rcases hlen with hstop | hlen
    · refine Or.inl ?_
      have hstop₁ := hq'.stuck hstop
      unfold Ctx.emptyTailArgs Ctx.modify
      split
      · exact hstop₁
      · exact hstop₁
    · exact (hq'.books hb).emptyTailArgs fun o fn args g ho => hlen o fn args g (hq'.heap ▸ ho)
  · exact (quiet_retainAll _ _).books (hq'.books hb)

theorem Books.applyTurn (hb : Books 0 [] s) (request : Ref) (pending : List Pending) :
    Books 0 [] (s.applyTurn request pending).ctx := by
  unfold Ctx.applyTurn
  split
  · exact (quiet_abort s).books hb
  rename_i a target argv guards htail
  obtain ⟨-, o, ho, hbody⟩ := asTail_some htail
  have hq₁ := quiet_pushGuards s guards pending
  split
  · rename_i s₁ h₁
    rw [h₁] at hq₁
    exact (hq₁.books hb).applyFail _ _ _
  rename_i s₁ pending₁ h₁
  rw [h₁] at hq₁
  have hq₂ := quiet_resolveTarget s₁ target
  split
  · rename_i s₂ h₂
    rw [h₂] at hq₂
    exact ((hq₁.trans hq₂).books hb).applyFail _ _ _
  rename_i s₂ resolved callee h₂
  rw [h₂] at hq₂
  have hq := hq₁.trans hq₂
  split
  · exact ((((hq.trans (quiet_rcError _ _)).books hb)).rcRelease _).applyFail _ _ _
  rename_i c _
  simp only
  by_cases hfew : argv.length < c.arity - c.bound.length
  · rw [if_pos hfew]
    exact ((hq.books hb).partialApply c argv).applyAfter _ _ _ _
  rw [if_neg hfew]
  obtain ⟨hb₃, hkeep⟩ := (hq.books hb).pushExcess (argv.drop (c.arity - c.bound.length)) pending₁
  split
  · rename_i s₃ h₃
    rw [h₃] at hb₃
    exact (Books.rcRelease hb₃ _).applyFail _ _ _
  rename_i s₃ pending₃ h₃
  rw [h₃] at hb₃ hkeep
  refine Books.applyExact hb₃ _ _ _ _ _ ((hkeep a o (by rw [hq.heap, ho])).imp id
    fun hsame o' fn args g ho' hbody' => ?_)
  obtain rfl := Option.some.inj (hsame.symm.trans ho')
  obtain ⟨-, rfl, -⟩ := Payload.tail.inj (hbody.symm.trans hbody')
  exact Nat.le_of_not_lt hfew

theorem Books.callComplete (hb : Books 0 [] s) (result : Ref) :
    Books 0 [] (s.callComplete result).ctx := by
  unfold Ctx.callComplete
  simp only
  split_ifs
  · exact hb
  · exact hb.rcRelease _
  · exact hb.rcSafepoint
  · exact hb.rcSafepoint

theorem Books.runRequest {r : Ctx × Ref} (hb : Books 0 [] r.1) : Books 0 [] (runRequest r).ctx := by
  rcases r with ⟨s, v⟩
  unfold Ctx.runRequest
  split
  · rename_i h
    obtain ⟨rfl, -⟩ := Prod.mk.inj h
    exact hb
  · rename_i h
    obtain ⟨rfl, -⟩ := Prod.mk.inj h
    exact hb

theorem Books.applyStart (hb : Books 0 [] s) (fn : Ref) (argv : List Ref) (owned : Bool) :
    Books 0 [] (s.applyStart fn argv owned).ctx := by
  have hq := quiet_rcCallEnter s
  unfold Ctx.applyStart
  simp only
  generalize s.rcCallEnter = s₁ at hq ⊢
  split
  · rename_i target c _
    have hargs : Quiet s (if owned then s₁.rcRetain target
        else (s₁.rcRetain target).retainAll argv) := by
      split_ifs
      · exact hq.trans (quiet_rcRetain _ _)
      · exact hq.trans ((quiet_rcRetain _ _).trans (quiet_retainAll _ _))
    split_ifs at hargs ⊢
    all_goals exact hargs.books hb
  · refine Books.runRequest ?_
    split_ifs
    · exact (hq.books hb).rcTailcallOwnedArgs _ _
    · exact ((hq.books hb).rcTailcall _ _).1

theorem Books.applyRootedOwnedArgs (hb : Books 0 [] s) (fn : Ref) (argv : List Ref) :
    Books 0 [] (s.applyRootedOwnedArgs fn argv).ctx := by
  unfold Ctx.applyRootedOwnedArgs
  split
  · simp only
    split_ifs
    · exact (quiet_rcCallEnter s).books hb
    · exact (quiet_rcCallEnter s).books hb
  · exact hb.applyStart _ _ _

theorem Books.callMixed (hb : Books 0 [] s) {fn : Ref} {argv : List Ref} {borrowed : BitVec 32}
    {t : Turn} (h : s.callMixed fn argv borrowed = some t) : Books 0 [] t.ctx := by
  unfold Ctx.callMixed at h
  split at h
  · split_ifs at h
    · obtain rfl := Option.some.inj h
      exact (quiet_retainAll _ _).books hb
    · obtain rfl := Option.some.inj h
      exact hb
  · exact absurd h (by simp)

theorem Books.afterCallback (hb : Books 0 [] s) (w : Wait) (result : Ref) (left : List Ref) :
    Books 0 [] (s.afterCallback w result left).ctx := by
  rcases w with ⟨resolved, request, pending⟩ | ⟨target, args⟩ | args
  · exact (hb.releaseAll _).applyAfter _ _ _ _
  · exact ((hb.releaseAll _).rcRelease _).callComplete _
  · exact (hb.releaseAll _).callComplete _

/-! ### What the books come to -/

/-- A new context has empty books. -/
theorem books_rcContextNew (acyclic : Bool) (mem scratch marking : ℕ → Bool) :
    Books 0 [] (rcContextNew acyclic mem scratch marking) :=
  Or.inr (Or.inr
    { counters := fun k => by cases k <;> rfl
      freeBytes := rfl
      sourceCount := rfl
      sourceNodup := List.nodup_nil
      source := fun a ha => absurd ha List.not_mem_nil
      nodup := List.nodup_nil
      inUse := fun a ha => absurd ha List.not_mem_nil
      bound := fun a ha => absurd rfl ha
      free := fun a ha => absurd ha List.not_mem_nil
      freeNodup := List.nodup_nil })

/-- The objects in use. -/
def objects (s : Ctx) : List Obj := (List.range s.size).filterMap s.heap

/-- The fields of an object that lead to other objects, but for the bindings of a symbol. -/
def children (o : Obj) : List Ref := Obj.edges { o with plan := none }

/-- The plans in the plan table. -/
def plans (s : Ctx) : List Ref :=
  ((s.objects.filterMap Obj.plan).map PlanEntry.plan).filter (· ≠ .null)

/-- **The accounting is exact**: every counter is what it counts, and none is negative. -/
structure Accounted (s : Ctx) : Prop where
  complete : ∀ a, s.live a → a < s.size
  liveObjects : s.stats.liveObjects = s.objects.length
  liveBytes : s.stats.liveBytes =
    ((s.objects.map fun o => cellBytes o.body.type + extraBytes o.body).sum : ℕ)
  liveCaptureEdges : s.stats.liveCaptureEdges =
    ((s.objects.map fun o => captureCount o.body).sum : ℕ)
  graphSlots : s.stats.graphSlots =
    ((s.objects.map fun o => (children o).length).sum + s.plans.length : ℕ)
  cycleSources : s.cycleSources = s.sources.length
  sources : s.sources.Nodup ∧ ∀ a ∈ s.sources, ∃ o, s.heap a = some o ∧ o.body.type = .vector
  freeBytes : s.stats.freeBytes =
    (s.freePairs.length * pairCell + s.freeValues.length * valueCell : ℕ)
  free : (s.freePairs ++ s.freeValues).Nodup ∧
    ∀ a ∈ s.freePairs ++ s.freeValues, s.heap a = none
  counters_nonneg : ∀ k, 0 ≤ s.stats.counter k
  cycleSources_nonneg : 0 ≤ s.cycleSources
  freeBytes_nonneg : 0 ≤ s.stats.freeBytes

theorem graphWidth_eq (o : Obj) : graphWidth o.body = (children o).length := by
  rcases o with ⟨body, r, p, b, q⟩
  cases body <;> simp [graphWidth, children, Obj.edges, add_comm]

theorem sum_planned (os : List Obj) :
    (os.map planned).sum =
      (((os.filterMap Obj.plan).map PlanEntry.plan).filter (· ≠ .null)).length := by
  induction os with
  | nil => rfl
  | cons o os ih =>
    rw [List.map_cons, List.sum_cons, ih, planned]
    rcases hplan : o.plan with _ | e
    · simp [hplan]
    · by_cases he : e.plan = .null
      · simp [hplan, he]
      · simp [hplan, he]
        omega

/-- **Balanced books are exact.** -/
theorem Balanced.accounted (h : Balanced 0 [] s) : Accounted s := by
  have hsum : ∀ k, s.stats.counter k = (s.objects.map (worth k)).sum := fun k => by
    have hcount := h.counters k
    rw [part_nil, Pi.zero_apply, add_zero, add_zero, total_eq_sum] at hcount
    exact hcount
  have hplain : ∀ (k : Counter) (f : Obj → ℕ), (∀ o, worth k o = f o) →
      s.stats.counter k = ((s.objects.map f).sum : ℕ) := fun k f hf => by
    rw [hsum, Nat.cast_list_sum, List.map_map]
    exact congrArg List.sum (List.map_congr_left fun o _ => hf o)
  have hones : s.stats.counter .objects = s.objects.length := by
    simpa using hplain .objects (fun _ => 1) fun o => rfl
  refine {
    complete := h.bound
    liveObjects := hones
    liveBytes := hplain .bytes _ fun o => add_zero _
    liveCaptureEdges := hplain .captures _ fun o => add_zero _
    graphSlots := ?_
    cycleSources := h.sourceCount
    sources := ⟨h.sourceNodup, fun a ha => (h.source a ha).2⟩
    freeBytes := h.freeBytes
    free := ⟨h.freeNodup, fun a ha => (h.free a ha).1⟩
    counters_nonneg := h.counter_nonneg
    cycleSources_nonneg := by rw [h.sourceCount]; exact Int.natCast_nonneg _
    freeBytes_nonneg := by rw [h.freeBytes]; exact Int.natCast_nonneg _ }
  have hwidth : s.objects.map (worth .slots) =
      s.objects.map fun o => ((children o).length : ℤ) + planned o :=
    List.map_congr_left fun o _ => congrArg (· + planned o) (graphWidth_eq o)
  have hslots := hsum .slots
  rw [hwidth, List.sum_map_add, sum_planned] at hslots
  rw [Nat.cast_add, Nat.cast_list_sum, List.map_map]
  exact hslots

end Ctx

namespace Config

open Ctx

variable {c c' : Config} {s : Ctx}

theorem after_books {leave : Bool} {rest : List Frame} {t : Turn} (h : Books 0 [] t.ctx) :
    Books 0 [] (after leave rest t).ctx := by
  rcases t with ⟨s, result⟩ | ⟨s, request, pending⟩ | ⟨s, fn, args, owned, w⟩
  · change Books 0 [] (if leave then s.rcCallLeave else s)
    split_ifs
    · exact h.rcCallLeave
    · exact h
  · exact h
  · exact h

/-- **Every step keeps the books.** -/
theorem step_books (hstep : Step c c') (h : Books 0 [] c.ctx) : Books 0 [] c'.ctx := by
  cases hstep with
  | op s O rest o => exact h.exec o
  | apply s O rest fn argv => exact after_books (h.applyStart ..)
  | applyOwnedArgs s O rest fn argv => exact after_books (h.applyStart ..)
  | applyRootedOwnedArgs s O rest fn argv => exact after_books (h.applyRootedOwnedArgs ..)
  | callMixed s O rest fn argv borrowed t hu ht hm => exact after_books (h.callMixed hm)
  | callMixedGeneral s O rest fn argv borrowed =>
    exact after_books (((quiet_retainAll _ _).books h).applyStart ..)
  | compiledCallComplete s O rest result argv => exact after_books ((h.releaseAll _).callComplete _)
  | turn s rest request pending leave => exact after_books (h.applyTurn ..)
  | ret s O rest w leave result left => exact after_books (h.afterCallback ..)

theorem reachable_books {acyclic : Bool} {mem scratch marking : ℕ → Bool}
    (h : Reachable acyclic mem scratch marking c) : Books 0 [] c.ctx := by
  induction h with
  | refl => exact books_rcContextNew acyclic mem scratch marking
  | tail _ hstep ih => exact step_books hstep ih

/-- **The accounting of every run is exact**, on all paths and after all failures, as long as the
program runs. It is aborted only if a work array of a search or of discovery could not grow. -/
theorem reachable_accounted {acyclic : Bool} {mem scratch marking : ℕ → Bool}
    (h : Reachable acyclic mem scratch marking c) :
    (c.ctx.stuck = false → Accounted c.ctx) ∧
      ((∀ k, scratch k = true) → c.ctx.stuck = false) := by
  refine ⟨fun hruns => ?_, fun hsc => (reachable_ok hsc h).inv.ok⟩
  obtain hstop | ⟨a, ha, -⟩ | hb := reachable_books h
  · rw [hruns] at hstop
    exact absurd hstop Bool.false_ne_true
  · exact absurd ha List.not_mem_nil
  · exact hb.accounted

/-- A host that builds a cyclic vector, a frame, a closure and a request, reuses a cell, drops some of
them and collects. -/
def mixedUse : List Op :=
  [.vector 2, .vectorSet (.cell 0) 0 (.cell 0), .symbol [120], .cons .nil .nil,
    .envFrame .nil [(.cell 1, .cell 0), (.cell 1, .nil)], .consReuse (.cell 2) .nil .nil,
    .closure 2 7 [.cell 0], .tailcall (.cell 2) [.nil, .nil, .nil, .nil], .string [104, 105],
    .release (.cell 3), .release (.cell 0), .collect]

/-- The host after `mixedUse`, when the sixth request to the allocator is refused, and the host after
`staleBit`, when the work array of the collector cannot grow. -/
theorem reachable_accounted_mixedUse :
    Accounted (perform (rcContextNew false (· != 5) (fun _ => true) (fun _ => true)) [] mixedUse).1 ∧
      Accounted (perform (rcContextNew false (fun _ => true) (· != 2) (fun _ => true)) [] staleBit).1 := by
  have hmixed := @host_reachable false (· != 5) (fun _ => true) (fun _ => true) mixedUse
    (by decide +kernel)
  have hstale := @host_reachable false (fun _ => true) (· != 2) (fun _ => true) staleBit
    (by decide +kernel)
  exact ⟨(reachable_accounted hmixed).1 ((reachable_accounted hmixed).2 fun _ => rfl),
    (reachable_accounted hstale).1 (by decide +kernel)⟩

end Config

end ShenRc.Runtime
