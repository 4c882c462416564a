import ShenRc.Runtime.Binds

/-! # The operations keep symbols and immortal cells

Each operation but those on bindings keeps what is immortal, the slots of the symbols and the bindings
that wait (`Binds`), on every path. -/

namespace ShenRc.Runtime

namespace Ctx

variable {s s' : Ctx} {a : ℕ} {o o' : Obj}

/-! ### Numbers, strings and symbols -/

theorem Books.binds_textValue (hb : Books 0 [] s) (body : Payload)
    (hbody : ∀ t g f, body = .symbol t g f → g = .null ∧ f = .null) (n : ℕ) :
    Binds s (s.textValue body n).1 := by
  have hroom := binds_mallocBytes s (n + 1)
  unfold Ctx.textValue
  split_ifs
  · exact binds_fail s _
  · exact hroom.trans (((quiet_mallocBytes s (n + 1)).books hb).binds_allocate body hbody _ _)
  · exact hroom.trans (binds_fail _ _)

theorem binds_resizeSymbols (s : Ctx) (capacity : ℕ) : Binds s (s.resizeSymbols capacity).1 := by
  unfold resizeSymbols
  split_ifs
  · exact binds_rcError _ _
  · exact (binds_malloc s).trans (.still rfl rfl rfl rfl id)
  · exact (binds_malloc s).trans (binds_rcError _ _)

theorem Books.binds_rcSymbol (hb : Books 0 [] s) (name : List UInt8) : Binds s (s.rcSymbol name).1 := by
  unfold Ctx.rcSymbol
  split
  · exact .refl s
  have hroom : Binds s (if s.symbolCapacity = 0 ∨ s.symbolCapacity - s.symbolCapacity / 4 ≤
        s.symbols.length then s.resizeSymbols (if s.symbolCapacity = 0 then 64 else s.symbolCapacity * 2)
      else (s, true)).1 ∧ Books 0 [] (if s.symbolCapacity = 0 ∨
        s.symbolCapacity - s.symbolCapacity / 4 ≤ s.symbols.length then
          s.resizeSymbols (if s.symbolCapacity = 0 then 64 else s.symbolCapacity * 2)
      else (s, true)).1 := by
    generalize (if s.symbolCapacity = 0 then 64 else s.symbolCapacity * 2) = capacity
    split_ifs
    · exact ⟨binds_resizeSymbols s _, (quiet_resizeSymbols s _).books hb⟩
    · exact ⟨.refl s, hb⟩
  simp only
  generalize (if s.symbolCapacity = 0 ∨ s.symbolCapacity - s.symbolCapacity / 4 ≤ s.symbols.length then
    s.resizeSymbols (if s.symbolCapacity = 0 then 64 else s.symbolCapacity * 2) else (s, true)) = r
    at hroom ⊢
  have htext := hroom.1.trans (hroom.2.binds_textValue (.symbol name .null .null) (by simp) name.length)
  by_cases hr : r.2 = true
  · rw [if_pos hr]
    split
    · rename_i s₁ a h
      rw [h] at htext
      exact (htext.trans (binds_setRefs (Or.inr rfl))).trans (.still rfl rfl rfl rfl id)
    · exact htext
  · rw [if_neg hr]
    exact hroom.1

/-! ### Pairs -/

theorem Books.binds_rcCons (hb : Books 0 [] s) (head tail : Ref) : Binds s (s.rcCons head tail).1 := by
  unfold Ctx.rcCons
  split_ifs
  · have halloc := hb.binds_allocate (.pair head tail) (by simp)
      (s.mayReachVector head || s.mayReachVector tail) 0
    split
    · rename_i s₁ h
      rw [h] at halloc
      exact halloc
    · rename_i s₁ v _ h
      rw [h] at halloc
      exact (halloc.trans (binds_rcRetain s₁ head)).trans (binds_rcRetain _ tail)
  · exact binds_fail s _

theorem Books.binds_rcConsOwned (hb : Books 0 [] s) (head tail : Ref) :
    Binds s (s.rcConsOwned head tail).1 := by
  unfold Ctx.rcConsOwned
  split_ifs
  · have halloc := hb.binds_allocate (.pair head tail) (by simp)
      (s.mayReachVector head || s.mayReachVector tail) 0
    split
    · rename_i s₁ h
      rw [h] at halloc
      exact (halloc.trans (binds_rcRelease s₁ head)).trans (binds_rcRelease _ tail)
    · rename_i s₁ v _ h
      rw [h] at halloc
      exact halloc
  · exact ((binds_rcRelease s head).trans (binds_rcRelease _ tail)).trans (binds_fail _ _)

theorem binds_setPair {h t : Ref} (ho : s.heap a = some o) (hbody : o.body = .pair h t)
    (head tail : Ref) (reaches : Bool) : Binds s (s.setPair a head tail reaches) :=
  binds_modify fun x hx => by
    obtain rfl := Option.some.inj (ho.symm.trans hx)
    exact .of_type (by rw [hbody]; simp [Payload.type]) (by simp [Payload.type])

/-- The plan of a pair is removed; the pair stays a pair. -/
theorem binds_planRemove (ho : s.heap a = some o) : Binds s (s.planRemove a).1 ∧
    ∃ o', (s.planRemove a).1.heap a = some o' ∧ o'.body = o.body := by
  unfold Ctx.planRemove
  rw [ho]
  rcases hplan : o.plan with _ | e
  · simp only [hplan]
    exact ⟨.refl s, o, ho, rfl⟩
  · simp only [hplan]
    have hput : Binds s (s.put a { o with plan := none }) := binds_put ho (.of_body rfl)
    exact ⟨hput.trans (.still rfl rfl rfl rfl id), { o with plan := none }, Function.update_self .., rfl⟩

/-- A pair that is used again. -/
theorem binds_refill {h t : Ref} (ho : s.heap a = some o) (hbody : o.body = .pair h t)
    (head tail : Ref) (reaches : Bool) :
    Binds s ((s.planRemove a).1.setPair a head tail reaches) := by
  obtain ⟨hplan, o₁, ho₁, hbody₁⟩ := binds_planRemove ho
  exact hplan.trans (binds_setPair ho₁ (hbody₁.trans hbody) head tail reaches)

theorem Books.binds_rcConsReuse (hb : Books 0 [] s) (candidate head tail : Ref) :
    Binds s (s.rcConsReuse candidate head tail).1 := by
  have hnew := (hb.binds_rcCons head tail).trans (binds_rcRelease _ candidate)
  unfold Ctx.rcConsReuse
  by_cases hinvalid :
      (!belongs head || !belongs tail || (candidate ≠ .null && !belongs candidate)) = true
  · rw [if_pos hinvalid]
    exact (binds_rcRelease s candidate).trans (binds_fail _ _)
  rw [if_neg hinvalid]
  split
  · rename_i a o oldHead oldTail hpair
    obtain ⟨-, ho, hbody⟩ := asPair_some hpair
    have hq := (quiet_rcRetain s head).trans (quiet_rcRetain _ tail)
    have hretain := (binds_rcRetain s head).trans (binds_rcRetain _ tail)
    split_ifs
    · exact (((hretain.trans (binds_refill (hq.heap ▸ ho) hbody head tail _)).trans
        (binds_rcRelease _ _)).trans (binds_rcRelease _ _)).trans (binds_rcRelease _ _)
    · exact hnew
  · exact hnew

theorem Books.binds_rcConsReuseOwned (hb : Books 0 [] s) (candidate head tail : Ref) :
    Binds s (s.rcConsReuseOwned candidate head tail).1 := by
  have hnew := (hb.binds_rcConsOwned head tail).trans (binds_rcRelease _ candidate)
  unfold Ctx.rcConsReuseOwned
  split
  · rename_i a o oldHead oldTail hpair
    obtain ⟨-, ho, hbody⟩ := asPair_some hpair
    split_ifs
    · exact (((binds_refill ho hbody head tail _).trans (binds_rcRelease _ _)).trans
        (binds_rcRelease _ _)).trans (binds_rcRelease _ _)
    · exact hnew
  · exact hnew

theorem binds_rcPairTakeUnique (s : Ctx) (pair : Ref) (head : Bool) :
    Binds s (s.rcPairTakeUnique pair head).1 := by
  unfold Ctx.rcPairTakeUnique
  split
  · rename_i a o h t hpair
    obtain ⟨-, ho, hbody⟩ := asPair_some hpair
    simp only
    split_ifs
    · exact .refl s
    · exact binds_setPair ho hbody _ _ _
  · exact .refl s

theorem binds_rcPairTakeLast (s : Ctx) (pair : Ref) (head : Bool) :
    Binds s (s.rcPairTakeLast pair head).1 := by
  unfold Ctx.rcPairTakeLast
  split
  · rename_i a o h t hpair
    obtain ⟨-, ho, hbody⟩ := asPair_some hpair
    simp only
    split_ifs
    · exact .refl s
    · exact (binds_setPair ho hbody _ _ _).trans (binds_rcRelease _ _)
    · exact (binds_rcRetain s _).trans (binds_rcRelease _ _)
  · exact .refl s

theorem binds_rcPairTakeTailReuse (s : Ctx) (candidate : Ref) :
    Binds s (s.rcPairTakeTailReuse candidate).1 := by
  unfold Ctx.rcPairTakeTailReuse
  split
  · rename_i a o h t hpair
    obtain ⟨-, ho, hbody⟩ := asPair_some hpair
    split_ifs
    · exact ((binds_refill ho hbody _ _ _).trans (binds_rcRelease _ _)).trans (binds_rcRelease _ _)
    · exact binds_rcRetain s _
  · exact (binds_rcRelease s candidate).trans (binds_rcError _ _)

theorem binds_rcHead (s : Ctx) (v : Ref) : Binds s (s.rcHead v).1 := by
  unfold Ctx.rcHead
  split
  · exact binds_rcRetain s _
  · exact binds_fail s _

theorem binds_rcTail (s : Ctx) (v : Ref) : Binds s (s.rcTail v).1 := by
  unfold Ctx.rcTail
  split
  · exact binds_rcRetain s _
  · exact binds_fail s _

/-! ### Vectors -/

theorem Books.binds_rcVector (hb : Books 0 [] s) (length : ℕ) : Binds s (s.rcVector length).1 := by
  have hroom := binds_mallocPayload s (length * ptrBytes)
  unfold Ctx.rcVector
  simp only
  split_ifs
  · exact binds_fail s _
  · exact hroom.trans (((quiet_mallocPayload s _).books hb).binds_allocate _ (by simp) _ _)
  · exact hroom.trans (binds_fail _ _)

theorem binds_rcVectorGet (s : Ctx) (v : Ref) (i : ℕ) : Binds s (s.rcVectorGet v i).1 := by
  unfold Ctx.rcVectorGet
  split
  · split
    · exact binds_rcRetain s _
    · exact binds_fail s _
  · exact binds_fail s _

theorem binds_rcVectorSet (s : Ctx) (v : Ref) (i : ℕ) (item : Ref) :
    Binds s (s.rcVectorSet v i item).1 := by
  unfold Ctx.rcVectorSet
  split
  swap
  · exact binds_rcError s _
  rename_i a items hvector
  obtain ⟨-, o, ho, hbody⟩ := asVector_some hvector
  split
  swap
  · exact binds_rcError s _
  rename_i old hold
  by_cases hbelongs : belongs item = false
  · rw [if_pos hbelongs]
    exact binds_rcError s _
  rw [if_neg hbelongs]
  simp only
  have hsearch : Binds s (if s.mayReachVector item && (s.acyclic || decide (a ∉ s.sources)) then
        s.wouldCreateCycle a item (if s.acyclic then sizeMax else 256) else (s, false)).1 ∧
      (if s.mayReachVector item && (s.acyclic || decide (a ∉ s.sources)) then
        s.wouldCreateCycle a item (if s.acyclic then sizeMax else 256) else (s, false)).1.heap =
        s.heap := by
    generalize (if s.acyclic then sizeMax else 256) = budget
    split_ifs
    · exact ⟨binds_reaches s a item budget false, (quiet_reaches s a item budget false).heap⟩
    · exact ⟨.refl s, rfl⟩
  generalize (if s.mayReachVector item && (s.acyclic || decide (a ∉ s.sources)) then
    s.wouldCreateCycle a item (if s.acyclic then sizeMax else 256) else (s, false)) = r at hsearch ⊢
  obtain ⟨hsearch, hheap⟩ := hsearch
  by_cases hrejected : (r.2 && s.acyclic) = true
  · rw [if_pos hrejected]
    exact hsearch.trans (binds_rcError _ _)
  rw [if_neg hrejected]
  have hlink : Binds r.1 (if r.2 then r.1.sourceLink a else r.1) ∧
      (if r.2 then r.1.sourceLink a else r.1).heap a = some o := by
    have ho₁ : r.1.heap a = some o := by rw [hheap]; exact ho
    split_ifs
    · exact ⟨.still rfl rfl rfl rfl id, ho₁⟩
    · exact ⟨.refl _, ho₁⟩
  refine (((hsearch.trans hlink.1).trans (binds_rcRetain _ item)).trans
    (binds_modify fun x hx => ?_)).trans (binds_rcRelease _ old)
  rw [rcRetain_heap, hlink.2] at hx
  obtain rfl := Option.some.inj hx
  exact .of_type (by rw [hbody]; simp [Payload.type]) (by simp [Payload.type])

/-! ### Closures -/

theorem Books.binds_closureCreateMoved (hb : Books 0 [] s) (arity : ℕ) (native ownedNative : Option ℕ)
    (captures : List Ref) (moved : BitVec 32) :
    Binds s (s.closureCreateMoved arity native ownedNative captures moved).1 := by
  have hfail : ∀ (t : Ctx) (message : String), Binds s t →
      Binds s ((t.releaseAll (movedRefs captures moved)).fail message).1 := fun t message h =>
    (h.trans (binds_releaseAll t _)).trans (binds_fail _ _)
  have hroom := binds_mallocPayload s (captures.length * ptrBytes)
  unfold Ctx.closureCreateMoved
  simp only
  split_ifs
  · exact hfail s _ (.refl s)
  · exact hfail s _ (.refl s)
  · have halloc := hroom.trans (((quiet_mallocPayload s _).books hb).binds_allocate
      (.closure { native, ownedNative, arity, captures, bound := [] }) (by simp)
      (captures.any (s.mallocPayload (captures.length * ptrBytes)).2.mayReachVector)
      (captures.length * ptrBytes))
    split
    · rename_i s₁ h
      rw [h] at halloc
      exact halloc.trans (binds_releaseAll s₁ _)
    · rename_i s₁ v _ h
      rw [h] at halloc
      exact halloc.trans (binds_retainAll s₁ _)
  · exact hfail _ _ hroom

theorem Books.binds_closureCreate (hb : Books 0 [] s) (arity : ℕ) (native ownedNative : Option ℕ)
    (captures : List Ref) : Binds s (s.closureCreate arity native ownedNative captures).1 :=
  hb.binds_closureCreateMoved arity native ownedNative captures 0

theorem binds_certify (r : Ctx × Ref) : Binds r.1 (Ctx.certify r).1 := by
  unfold Ctx.certify
  split
  · exact binds_modify fun o _ => .of_body rfl
  · exact .refl _

theorem binds_growStaticClosures (s : Ctx) : Binds s s.growStaticClosures.1 := by
  unfold growStaticClosures
  simp only
  generalize (if s.staticCapacity = 0 then 256 else s.staticCapacity * 2) = capacity
  split_ifs <;> exact .still rfl rfl rfl rfl id

theorem binds_rcClosureStatic (s : Ctx) (v : Ref) : Binds s (s.rcClosureStatic v).1 := by
  unfold Ctx.rcClosureStatic
  split
  swap
  · exact .refl s
  rename_i a o c hclosure
  by_cases hplain : (!s.isCounted v || decide (c.bound.length ≠ 0) || c.captures.any s.isCounted) = true
  · rw [if_pos hplain]
    exact .refl s
  rw [if_neg hplain]
  simp only
  have hgrow : Binds s (if s.staticCapacity / 2 ≤ s.staticClosures.length then s.growStaticClosures
      else (s, true)).1 := by
    split_ifs
    · exact binds_growStaticClosures s
    · exact .refl s
  generalize (if s.staticCapacity / 2 ≤ s.staticClosures.length then s.growStaticClosures
    else (s, true)) = r at hgrow ⊢
  split_ifs
  · split
    · exact hgrow.trans (binds_rcRelease _ v)
    · have hadd : Binds r.1 { r.1 with staticClosures := a :: r.1.staticClosures } :=
        .still rfl rfl rfl rfl id
      exact (hgrow.trans hadd).trans (binds_setRefs (Or.inr rfl))
  · exact hgrow

theorem Books.binds_partialApply (hb : Books 0 [] s) (c : Closure) (argv : List Ref) :
    Binds s (s.partialApply c argv).1 := by
  unfold Ctx.partialApply
  simp only
  have hroom := binds_mallocPayload s ((c.bound.length + argv.length) * ptrBytes)
  have hb₁ := (quiet_mallocPayload s ((c.bound.length + argv.length) * ptrBytes)).books hb
  split_ifs
  · exact binds_fail s _
  swap
  · exact hroom.trans (binds_fail _ _)
  have hmade := hroom.trans (hb₁.binds_closureCreate c.arity c.native c.ownedNative c.captures)
  obtain ⟨-, hnew⟩ := hb₁.closureCreateMoved c.arity c.native c.ownedNative c.captures 0
  split
  swap
  · exact hmade
  rename_i s₁ a h
  obtain ⟨reaches, ho⟩ := hnew a (congrArg Prod.snd h)
  rw [show (Ctx.closureCreateMoved _ c.arity c.native c.ownedNative c.captures 0).1 = s₁ from
    congrArg Prod.fst h] at ho
  rw [h] at hmade
  refine ((hmade.trans (binds_retainAll s₁ (c.bound ++ argv))).trans (binds_modify fun x hx => ?_)).trans
    (.still rfl rfl rfl rfl id)
  rw [retainAll_heap, ho] at hx
  obtain rfl := Option.some.inj hx
  exact .of_type (by simp [fresh, Payload.type]) (by simp [Payload.type])

/-! ### Evaluator frames -/

theorem Books.binds_envFrameConstruct (hb : Books 0 [] s) (parent : Ref) (keys values : List Ref)
    (bytes : ℕ) : Binds s (s.envFrameConstruct parent keys values bytes).1 := by
  unfold Ctx.envFrameConstruct
  simp only
  have hroom := binds_mallocPayload s bytes
  have hb₁ := (quiet_mallocPayload s bytes).books hb
  split_ifs
  · exact binds_rcRetain s _
  swap
  · exact hroom.trans (binds_fail _ _)
  generalize (s.mallocPayload bytes).2 = s₁ at hb₁ hroom ⊢
  generalize keys.foldl (fun k key => k ||| s₁.envKeyClass key) (s₁.envKeyClasses parent) = classes
  have halloc := hroom.trans (hb₁.binds_allocate (.env parent keys values classes) (by simp)
    (s₁.mayReachVector parent || values.any s₁.mayReachVector) bytes)
  split
  · rename_i s₂ h
    rw [h] at halloc
    exact halloc
  · rename_i s₂ v _ h
    rw [h] at halloc
    exact ((halloc.trans (binds_rcRetain s₂ parent)).trans (binds_retainAll _ values)).trans
      (.still rfl rfl rfl rfl id)

theorem Books.binds_rcEnvFrame (hb : Books 0 [] s) (parent : Ref) (bindings : List (Ref × Ref)) :
    Binds s (s.rcEnvFrame parent bindings).1 := by
  unfold Ctx.rcEnvFrame
  simp only
  split_ifs
  all_goals first
    | exact binds_fail s _
    | exact hb.binds_envFrameConstruct ..

theorem Books.binds_rcEvalEnvFrame (hb : Books 0 [] s) (self : Ref) (callback : ℕ) (argv : List Ref) :
    Binds s (s.rcEvalEnvFrame self callback argv).1 := by
  unfold Ctx.rcEvalEnvFrame
  split
  swap
  · exact binds_fail s _
  split
  swap
  · exact binds_fail s _
  split_ifs
  all_goals first
    | exact binds_fail s _
    | exact hb.binds_envFrameConstruct ..

/-! ### Plans -/

theorem binds_planInsert (s : Ctx) (a : ℕ) : Binds s (s.planInsert a).1 := by
  unfold Ctx.planInsert
  split
  swap
  · exact .refl s
  rename_i o ho
  by_cases hplan : o.plan.isSome = true
  · rw [if_pos hplan]
    exact .refl s
  rw [if_neg hplan]
  have hgrow : Binds s (if s.planCapacity < (s.planCount + 1) * 2 then
        if s.malloc.1 then
          ({ s.malloc.2 with
            planCapacity := if s.planCapacity = 0 then 64 else s.planCapacity * 2 }, true)
        else (s.malloc.2, false)
      else (s, true)).1 ∧ (if s.planCapacity < (s.planCount + 1) * 2 then
        if s.malloc.1 then
          ({ s.malloc.2 with
            planCapacity := if s.planCapacity = 0 then 64 else s.planCapacity * 2 }, true)
        else (s.malloc.2, false)
      else (s, true)).1.heap = s.heap := by
    generalize (if s.planCapacity = 0 then 64 else s.planCapacity * 2) = capacity
    split_ifs
    · exact ⟨.still rfl rfl rfl rfl id, rfl⟩
    · exact ⟨binds_malloc s, rfl⟩
    · exact ⟨.refl s, rfl⟩
  simp only
  generalize (if s.planCapacity < (s.planCount + 1) * 2 then
      if s.malloc.1 then
        ({ s.malloc.2 with
          planCapacity := if s.planCapacity = 0 then 64 else s.planCapacity * 2 }, true)
      else (s.malloc.2, false)
    else (s, true)) = r at hgrow ⊢
  obtain ⟨hgrow, hheap⟩ := hgrow
  split_ifs
  · have hcount : Binds r.1 { r.1 with planCount := r.1.planCount + 1 } := .still rfl rfl rfl rfl id
    refine (hgrow.trans hcount).trans (binds_put (o := o) ?_ (.of_body rfl))
    show r.1.heap a = some o
    rw [hheap, ho]
  · exact hgrow

theorem binds_rcEvalPlanHeat (s : Ctx) (expression : Ref) : Binds s (s.rcEvalPlanHeat expression).1 := by
  unfold Ctx.rcEvalPlanHeat
  split
  swap
  · exact .refl s
  simp only
  split_ifs
  · exact binds_planInsert s _
  · exact (binds_planInsert s _).trans (binds_modify fun o _ => .of_body rfl)
  · exact binds_planInsert s _

theorem binds_rcEvalPlanSet (s : Ctx) (expression plan : Ref) :
    Binds s (s.rcEvalPlanSet expression plan) := by
  unfold Ctx.rcEvalPlanSet
  split
  swap
  · exact .refl s
  rename_i a _ _ _ _
  have hinsert := binds_planInsert s a
  simp only
  by_cases hmade : (s.planInsert a).2 = true
  swap
  · rw [if_neg hmade]
    exact hinsert
  rw [if_pos hmade]
  have hwrite : Binds s (((s.planInsert a).1.rcRetain plan).modify a fun o =>
      { o with plan := o.plan.map fun e => { e with plan } }) :=
    (hinsert.trans (binds_rcRetain _ plan)).trans (binds_modify fun o _ => .of_body rfl)
  refine Binds.trans ?_ (binds_rcRelease _ _)
  exact hwrite.trans (.still rfl rfl rfl rfl id)

theorem binds_rcEvalPlanPromote (s : Ctx) (self : Ref) (prepared : ℕ) (plan : Ref) :
    Binds s (s.rcEvalPlanPromote self prepared plan) := by
  unfold Ctx.rcEvalPlanPromote
  split
  swap
  · exact .refl s
  rename_i a o c hclosure
  obtain ⟨-, ho, hbody⟩ := asClosure_some hclosure
  split
  swap
  · exact .refl s
  refine ((binds_rcRetain s plan).trans (binds_modify fun x hx => ?_)).trans (binds_rcRelease _ _)
  rw [rcRetain_heap, ho] at hx
  obtain rfl := Option.some.inj hx
  exact .of_type (by rw [hbody]; simp [Payload.type]) (by simp [Payload.type])

/-! ### Tail requests -/

theorem Books.binds_rcTailcall (hb : Books 0 [] s) (fn : Ref) (argv : List Ref) :
    Binds s (s.rcTailcall fn argv).1 := by
  unfold Ctx.rcTailcall
  simp only
  generalize (if argv.length > 3 then argv.length * ptrBytes else 0) = bytes
  have hroom := binds_mallocPayload s bytes
  have hb₁ := (quiet_mallocPayload s bytes).books hb
  split_ifs
  · exact binds_fail s _
  · exact binds_fail s _
  · have halloc := hroom.trans (hb₁.binds_allocate (.tail fn argv 0) (by simp)
      ((s.mallocPayload bytes).2.mayReachVector fn || argv.any (s.mallocPayload bytes).2.mayReachVector)
      bytes)
    split
    · rename_i s₁ h
      rw [h] at halloc
      exact halloc
    · rename_i s₁ v _ h
      rw [h] at halloc
      exact ((halloc.trans (binds_rcRetain s₁ fn)).trans (binds_retainAll _ argv)).trans
        (.still rfl rfl rfl rfl id)
  · exact hroom.trans (binds_fail _ _)

theorem Books.binds_rcTailcallOwnedArgs (hb : Books 0 [] s) (fn : Ref) (argv : List Ref) :
    Binds s (s.rcTailcallOwnedArgs fn argv).1 := by
  unfold Ctx.rcTailcallOwnedArgs
  simp only
  generalize (if argv.length > 3 then argv.length * ptrBytes else 0) = bytes
  have hroom := binds_mallocPayload s bytes
  have hb₁ := (quiet_mallocPayload s bytes).books hb
  split_ifs
  · exact (binds_releaseAll s _).trans (binds_fail _ _)
  · exact (binds_releaseAll s _).trans (binds_fail _ _)
  · have halloc := hroom.trans (hb₁.binds_allocate (.tail fn argv 0) (by simp)
      ((s.mallocPayload bytes).2.mayReachVector fn || argv.any (s.mallocPayload bytes).2.mayReachVector)
      bytes)
    split
    · rename_i s₁ h
      rw [h] at halloc
      exact halloc.trans (binds_releaseAll s₁ _)
    · rename_i s₁ v _ h
      rw [h] at halloc
      exact (halloc.trans (binds_rcRetain s₁ fn)).trans (.still rfl rfl rfl rfl id)
  · exact (hroom.trans (binds_releaseAll _ _)).trans (binds_fail _ _)

theorem binds_setGuards (s : Ctx) (a guards : ℕ) : Binds s (s.setGuards a guards) :=
  binds_modify fun o _ => by
    split
    · rename_i hbody
      exact .of_type (by rw [hbody]; simp [Payload.type]) (by simp [Payload.type])
    · exact .refl o

theorem Books.binds_requireGuard (hb : Books 0 [] s) (value : Ref) (guard : ℕ) :
    Binds s (s.requireGuard value guard).1 := by
  unfold Ctx.requireGuard
  simp only
  split
  · split_ifs
    · exact .refl s
    · exact binds_fail s _
    · exact binds_fail s _
  split
  · rename_i b f args before _
    by_cases hshared : 1 < s.refs value ∧ composeGuards before guard ≠ before
    · rw [if_pos hshared]
      have hmade := (hb.binds_rcTailcall f args).trans (binds_rcRelease _ value)
      split
      · exact hmade.trans (binds_setGuards _ _ _)
      · exact hmade
    · rw [if_neg hshared]
      exact binds_setGuards s _ _
  · split_ifs
    · exact .refl s
    · exact (binds_rcRelease s value).trans (binds_fail _ _)
    · exact (binds_rcRelease s value).trans (binds_fail _ _)

/-! ### Bindings and calls -/

theorem binds_rcGlobalGet (s : Ctx) (symbol : Ref) : Binds s (s.rcGlobalGet symbol).1 := by
  unfold Ctx.rcGlobalGet
  split
  · split_ifs
    · exact binds_fail s _
    · exact binds_rcRetain s _
  · exact binds_fail s _

theorem binds_rcFunctionLookup (s : Ctx) (symbol : Ref) : Binds s (s.rcFunctionLookup symbol).1 := by
  unfold rcFunctionLookup
  split
  · exact binds_rcRetain s _
  · exact .refl s

theorem binds_rcFunctionGet (s : Ctx) (symbol : Ref) : Binds s (s.rcFunctionGet symbol).1 := by
  have hlookup := binds_rcFunctionLookup s symbol
  unfold rcFunctionGet
  split
  · rename_i h
    rw [h] at hlookup
    exact hlookup.trans (binds_fail _ _)
  · exact hlookup

theorem binds_rcBuiltinCacheSet (s : Ctx) (slot : ℕ) (fn : Ref) :
    Binds s (s.rcBuiltinCacheSet slot fn) := by
  unfold Ctx.rcBuiltinCacheSet
  split
  · split_ifs with hslot
    · have hroots : Binds s { s.rcRetain fn with
          builtinRoots := Function.update (s.rcRetain fn).builtinRoots ⟨slot, hslot⟩ fn } :=
        (binds_rcRetain s fn).trans (.still rfl rfl rfl rfl id)
      exact (hroots.trans (binds_modify (f := fun o => { o with builtinSlot := slot + 1 })
        fun o _ => .of_body rfl)).trans (binds_rcRelease _ _)
    · exact binds_abort s
  · exact binds_abort s

end Ctx

end ShenRc.Runtime
