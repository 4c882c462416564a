import ShenRc.Runtime.BookWalks
import ShenRc.Runtime.BindingOps

/-! # The books through the operations

Every operation keeps the books, from any state and on every path. A constructor enters what it makes
(`Books.allocate`), a change of a cell keeps its worth (`Books.modify`) or settles the difference
(`Books.exchange`), and the rest leaves the books alone or releases. -/

namespace ShenRc.Runtime

namespace Ctx

variable {s s' : Ctx} {a : ℕ} {o o' : Obj}

/-! ### What objects are worth -/

theorem owed_number (n : Num) : owed (.number n) = 0 := by funext k; cases k <;> rfl

theorem owed_string (text : List UInt8) : owed (.string text) = 0 := by
  funext k
  cases k <;> simp [owed, due, entered, accountNew, Stats.counter, captureCount, graphWidth,
    Payload.type]

theorem owed_symbol (text : List UInt8) (g f : Ref) : owed (.symbol text g f) = 0 := by
  funext k
  cases k <;> simp [owed, due, entered, accountNew, Stats.counter, captureCount, graphWidth,
    Payload.type]

theorem owed_pair (h t : Ref) : owed (.pair h t) = 0 := by
  funext k
  cases k <;> simp [owed, due, entered, accountNew, Stats.counter, captureCount, graphWidth,
    Payload.type]

theorem owed_vector (items : List Ref) : owed (.vector items) = 0 := by
  funext k
  cases k <;> simp [owed, due, entered, accountNew, Stats.counter, captureCount, graphWidth,
    Payload.type, extraBytes]

theorem owed_closure {c : Closure} (hc : c.bound = []) : owed (.closure c) = 0 := by
  funext k
  cases k <;> simp [owed, due, entered, accountNew, Stats.counter, captureCount, graphWidth,
    Payload.type, extraBytes, hc]

theorem owed_env (parent : Ref) (keys values : List Ref) (classes : ℕ) (k : Counter) :
    owed (.env parent keys values classes) k = if k = .slots then 1 + (values.length : ℤ) else 0 := by
  cases k <;> simp [owed, due, entered, accountNew, Stats.counter, captureCount, graphWidth,
    Payload.type]

theorem owed_tail (fn : Ref) (argv : List Ref) (guards : ℕ) (k : Counter) :
    owed (.tail fn argv guards) k = if k = .slots then (argv.length : ℤ) else 0 := by
  cases k <;> simp [owed, due, entered, accountNew, Stats.counter, captureCount, graphWidth,
    Payload.type]

/-- An object that takes as much as another. -/
structure Worth (o o' : Obj) : Prop where
  type : o'.body.type = o.body.type
  worth : ∀ k, worth k o' = worth k o

theorem Worth.of_due (hplan : planned o' = planned o) (htype : o'.body.type = o.body.type)
    (hdue : ∀ k, due k o'.body = due k o.body) : Worth o o' :=
  ⟨htype, fun k => by
    have hp : planDue k o' = planDue k o := by cases k <;> first | rfl | exact hplan
    rw [Ctx.worth, Ctx.worth, hp, hdue k]⟩

/-- **A cell in use is overwritten**, and the counters take note of what changes in worth. -/
theorem Books.exchange (hb : Books 0 [] s) (ho : s.heap a = some o) (o' : Obj) {t : Ctx}
    (hq : Quiet (s.put a o') { t with stats := (s.put a o').stats })
    (htype : o'.body.type = o.body.type)
    (hcount : ∀ k, t.stats.counter k = s.stats.counter k + (worth k o' - worth k o))
    (hfree : t.stats.freeBytes = s.stats.freeBytes) : Books 0 [] t := by
  obtain hstop | ⟨b, hm, -⟩ | hb := hb
  · exact Or.inl (hq.stuck hstop)
  · exact absurd hm List.not_mem_nil
  · have hput := hq.balanced (hb.put ho List.not_mem_nil htype)
    exact Or.inr (Or.inr (hput.settle t.stats (fun k => by
      have h := hcount k
      change t.stats.counter k + 0 = s.stats.counter k + (0 + (worth k o' - worth k o))
      omega) hfree))

theorem Books.put (hb : Books 0 [] s) (ho : s.heap a = some o) (h : Worth o o') :
    Books 0 [] (s.put a o') :=
  hb.exchange ho o' (Quiet.refl _) h.type (fun k => by rw [h.worth k]; simp [Ctx.put]) rfl

theorem Books.modify (hb : Books 0 [] s) {f : Obj → Obj} (h : ∀ o, s.heap a = some o → Worth o (f o)) :
    Books 0 [] (s.modify a f) := by
  unfold Ctx.modify
  rcases ho : s.heap a with _ | o
  · exact hb
  · exact hb.put ho (h o ho)

/-- A change that the books do not depend on. -/
theorem Worth.of_body (hbody : o'.body = o.body) (hplan : o'.plan = o.plan) : Worth o o' :=
  .of_due (by unfold planned; rw [hplan]) (by rw [hbody]) fun k => by rw [hbody]

/-! ### Numbers, strings and symbols -/

theorem Books.fail (hb : Books 0 [] s) (message : String) : Books 0 [] (s.fail message).1 :=
  (quiet_rcError s message).books hb

/-- An object that `allocate` enters as a whole. -/
theorem Books.allocateWhole (hb : Books 0 [] s) {body : Payload} (howed : owed body = 0)
    (reaches : Bool) {extra : ℕ} (hextra : extra = extraBytes body) :
    Books 0 [] (s.allocate body reaches extra).1 := by
  obtain ⟨s', h, hb', -⟩ | ⟨a, s', h, hb', -⟩ := hb.allocate body reaches hextra
  · rw [h]
    exact hb'
  · rw [h, ← howed]
    exact hb'

theorem Books.rcNumber (hb : Books 0 [] s) (bits : UInt64) : Books 0 [] (s.rcNumber bits).1 :=
  hb.allocateWhole (owed_number _) _ rfl

theorem Books.rcInteger (hb : Books 0 [] s) (n : ℤ) : Books 0 [] (s.rcInteger n).1 := by
  unfold Ctx.rcInteger
  split_ifs
  · exact hb
  · exact hb.allocateWhole (owed_number _) _ rfl

theorem quiet_mallocBytes (s : Ctx) (bytes : ℕ) : Quiet s (s.mallocBytes bytes).2 := quiet_malloc s

theorem Books.textValue (hb : Books 0 [] s) {body : Payload} (howed : owed body = 0) {n : ℕ}
    (hn : n + 1 = extraBytes body) : Books 0 [] (s.textValue body n).1 := by
  have hb₁ := (quiet_mallocBytes s (n + 1)).books hb
  unfold Ctx.textValue
  split_ifs
  · exact hb.fail _
  · exact hb₁.allocateWhole howed _ hn
  · exact hb₁.fail _

theorem Books.rcString (hb : Books 0 [] s) (text : List UInt8) : Books 0 [] (s.rcString text).1 :=
  hb.textValue (owed_string text) rfl

theorem quiet_resizeSymbols (s : Ctx) (capacity : ℕ) : Quiet s (s.resizeSymbols capacity).1 := by
  unfold resizeSymbols
  split_ifs
  · exact quiet_rcError _ _
  · exact ⟨rfl, id⟩
  · exact (quiet_malloc s).trans (quiet_rcError _ _)

theorem Books.rcSymbol (hb : Books 0 [] s) (name : List UInt8) : Books 0 [] (s.rcSymbol name).1 := by
  unfold Ctx.rcSymbol
  split
  · exact hb
  have hroom : Quiet s (if s.symbolCapacity = 0 ∨ s.symbolCapacity - s.symbolCapacity / 4 ≤
      s.symbols.length then s.resizeSymbols (if s.symbolCapacity = 0 then 64 else s.symbolCapacity * 2)
      else (s, true)).1 := by
    split_ifs
    · exact quiet_resizeSymbols _ _
    · exact quiet_resizeSymbols _ _
    · exact Quiet.refl _
  simp only
  generalize (if s.symbolCapacity = 0 ∨ s.symbolCapacity - s.symbolCapacity / 4 ≤ s.symbols.length then
    s.resizeSymbols (if s.symbolCapacity = 0 then 64 else s.symbolCapacity * 2) else (s, true)) = r
    at hroom ⊢
  have htext := (hroom.books hb).textValue (owed_symbol name .null .null) (n := name.length) rfl
  by_cases hr : r.2 = true
  · rw [if_pos hr]
    split
    · rename_i s₁ a h
      rw [h] at htext
      have hq : Quiet s₁ { s₁.setRefs (.cell a) immortal with
          symbols := a :: s₁.symbols
          trueSymbol := if name = trueName then .cell a else s₁.trueSymbol
          falseSymbol := if name = falseName then .cell a else s₁.falseSymbol } := ⟨rfl, id⟩
      exact hq.books htext
    · exact htext
  · rw [if_neg hr]
    exact hroom.books hb

/-! ### Pairs -/

theorem Books.rcCons (hb : Books 0 [] s) (head tail : Ref) : Books 0 [] (s.rcCons head tail).1 := by
  unfold Ctx.rcCons
  split_ifs
  · have halloc := hb.allocateWhole (owed_pair head tail)
      (s.mayReachVector head || s.mayReachVector tail) (rfl : 0 = extraBytes (.pair head tail))
    split
    · rename_i s₁ h
      rw [h] at halloc
      exact halloc
    · rename_i s₁ v _ h
      rw [h] at halloc
      exact ((quiet_rcRetain s₁ head).trans (quiet_rcRetain _ tail)).books halloc
  · exact hb.fail _

theorem Books.rcConsOwned (hb : Books 0 [] s) (head tail : Ref) :
    Books 0 [] (s.rcConsOwned head tail).1 := by
  unfold Ctx.rcConsOwned
  split_ifs
  · have halloc := hb.allocateWhole (owed_pair head tail)
      (s.mayReachVector head || s.mayReachVector tail) (rfl : 0 = extraBytes (.pair head tail))
    split
    · rename_i s₁ h
      rw [h] at halloc
      exact (halloc.rcRelease head).rcRelease tail
    · rename_i s₁ v _ h
      rw [h] at halloc
      exact halloc
  · exact ((hb.rcRelease head).rcRelease tail).fail _

/-- The worth of a pair does not depend on its fields. -/
theorem Worth.pair {h t h' t' : Ref} (hbody : o.body = .pair h t) (hbody' : o'.body = .pair h' t')
    (hplan : o'.plan = o.plan) : Worth o o' :=
  .of_due (by unfold planned; rw [hplan]) (by rw [hbody, hbody']; rfl) fun k => by
    rw [hbody, hbody']
    cases k <;> rfl

theorem Books.setPair (hb : Books 0 [] s) {h t : Ref} (ho : s.heap a = some o)
    (hbody : o.body = .pair h t) (head tail : Ref) (reaches : Bool) :
    Books 0 [] (s.setPair a head tail reaches) :=
  hb.modify fun x hx => by
    obtain rfl := Option.some.inj (ho.symm.trans hx)
    exact .pair hbody rfl rfl

/-- **`plan_remove`.** The plan's slot is given up; the pair stays a pair. -/
theorem Books.planRemove (hb : Books 0 [] s) (ho : s.heap a = some o) :
    Books 0 [] (s.planRemove a).1 ∧
      ∃ o', (s.planRemove a).1.heap a = some o' ∧ o'.body = o.body := by
  unfold Ctx.planRemove
  rw [ho]
  rcases hplan : o.plan with _ | e
  · simp only [hplan]
    exact ⟨hb, o, ho, rfl⟩
  · simp only [hplan]
    refine ⟨hb.exchange ho { o with plan := none } ⟨rfl, id⟩ rfl (fun k => ?_)
      (freeBytes_accountPlanRemoved _ _), { o with plan := none }, Function.update_self .., rfl⟩
    rw [counter_accountPlanRemoved]
    have hnone : planDue k { o with plan := none } = 0 := by cases k <;> rfl
    simp only [Ctx.worth, hnone]
    omega

/-- A pair that is used again. -/
theorem Books.refill (hb : Books 0 [] s) {h t : Ref} (ho : s.heap a = some o)
    (hbody : o.body = .pair h t) (head tail : Ref) (reaches : Bool) :
    Books 0 [] ((s.planRemove a).1.setPair a head tail reaches) := by
  obtain ⟨hb₁, o₁, ho₁, hbody₁⟩ := hb.planRemove ho
  exact hb₁.setPair ho₁ (hbody₁.trans hbody) head tail reaches

theorem Books.rcConsReuse (hb : Books 0 [] s) (candidate head tail : Ref) :
    Books 0 [] (s.rcConsReuse candidate head tail).1 := by
  have hnew := (hb.rcCons head tail).rcRelease candidate
  unfold Ctx.rcConsReuse
  by_cases hinvalid :
      (!belongs head || !belongs tail || (candidate ≠ .null && !belongs candidate)) = true
  · rw [if_pos hinvalid]
    exact (hb.rcRelease candidate).fail _
  rw [if_neg hinvalid]
  split
  · rename_i a o oldHead oldTail hpair
    obtain ⟨-, ho, hbody⟩ := asPair_some hpair
    have hq := (quiet_rcRetain s head).trans (quiet_rcRetain _ tail)
    split_ifs
    · exact ((((hq.books hb).refill (hq.heap ▸ ho) hbody head tail _).rcRelease _).rcRelease
        _).rcRelease _
    · exact hnew
  · exact hnew

theorem Books.rcConsReuseOwned (hb : Books 0 [] s) (candidate head tail : Ref) :
    Books 0 [] (s.rcConsReuseOwned candidate head tail).1 := by
  have hnew := (hb.rcConsOwned head tail).rcRelease candidate
  unfold Ctx.rcConsReuseOwned
  split
  · rename_i a o oldHead oldTail hpair
    obtain ⟨-, ho, hbody⟩ := asPair_some hpair
    split_ifs
    · exact (((hb.refill ho hbody head tail _).rcRelease _).rcRelease _).rcRelease _
    · exact hnew
  · exact hnew

theorem Books.rcPairTakeUnique (hb : Books 0 [] s) (pair : Ref) (head : Bool) :
    Books 0 [] (s.rcPairTakeUnique pair head).1 := by
  unfold Ctx.rcPairTakeUnique
  split
  · rename_i a o h t hpair
    obtain ⟨-, ho, hbody⟩ := asPair_some hpair
    simp only
    split_ifs
    · exact hb
    · exact hb.setPair ho hbody _ _ _
  · exact hb

theorem Books.rcPairTakeLast (hb : Books 0 [] s) (pair : Ref) (head : Bool) :
    Books 0 [] (s.rcPairTakeLast pair head).1 := by
  unfold Ctx.rcPairTakeLast
  split
  · rename_i a o h t hpair
    obtain ⟨-, ho, hbody⟩ := asPair_some hpair
    simp only
    split_ifs
    · exact hb
    · exact (hb.setPair ho hbody _ _ _).rcRelease _
    · exact ((quiet_rcRetain s _).books hb).rcRelease _
  · exact hb

theorem Books.rcPairTakeTailReuse (hb : Books 0 [] s) (candidate : Ref) :
    Books 0 [] (s.rcPairTakeTailReuse candidate).1 := by
  unfold Ctx.rcPairTakeTailReuse
  split
  · rename_i a o h t hpair
    obtain ⟨-, ho, hbody⟩ := asPair_some hpair
    split_ifs
    · exact ((hb.refill ho hbody _ _ _).rcRelease _).rcRelease _
    · exact (quiet_rcRetain s _).books hb
  · exact (quiet_rcError _ _).books (hb.rcRelease candidate)

theorem Books.rcHead (hb : Books 0 [] s) (v : Ref) : Books 0 [] (s.rcHead v).1 := by
  unfold Ctx.rcHead
  split
  · exact (quiet_rcRetain s _).books hb
  · exact hb.fail _

theorem Books.rcTail (hb : Books 0 [] s) (v : Ref) : Books 0 [] (s.rcTail v).1 := by
  unfold Ctx.rcTail
  split
  · exact (quiet_rcRetain s _).books hb
  · exact hb.fail _

/-! ### Vectors -/

theorem quiet_mallocPayload (s : Ctx) (bytes : ℕ) : Quiet s (s.mallocPayload bytes).2 := by
  unfold mallocPayload
  split_ifs
  · exact Quiet.refl _
  · exact quiet_mallocBytes s bytes

theorem Books.rcVector (hb : Books 0 [] s) (length : ℕ) : Books 0 [] (s.rcVector length).1 := by
  have hb₁ := (quiet_mallocPayload s (length * ptrBytes)).books hb
  unfold Ctx.rcVector
  simp only
  split_ifs
  · exact hb.fail _
  · exact hb₁.allocateWhole (owed_vector _) _ (by rw [extraBytes, List.length_replicate])
  · exact hb₁.fail _

theorem Books.rcVectorGet (hb : Books 0 [] s) (v : Ref) (i : ℕ) :
    Books 0 [] (s.rcVectorGet v i).1 := by
  unfold Ctx.rcVectorGet
  split
  · split
    · exact (quiet_rcRetain s _).books hb
    · exact hb.fail _
  · exact hb.fail _

/-- **`source_link`**: the list and its count grow by a vector that was not listed. -/
theorem Books.sourceLink (hb : Books 0 [] s) (ho : s.heap a = some o) (hv : o.body.type = .vector)
    (hnot : a ∉ s.sources) : Books 0 [] (s.sourceLink a) := by
  obtain hstop | ⟨b, hm, -⟩ | hb := hb
  · exact Or.inl hstop
  · exact absurd hm List.not_mem_nil
  refine Or.inr (Or.inr { hb with
    sourceCount := ?_
    sourceNodup := List.nodup_cons.mpr ⟨hnot, hb.sourceNodup⟩
    source := fun b hm => ?_ })
  · have h := hb.sourceCount
    change s.cycleSources + 1 = ((a :: s.sources).length : ℕ)
    rw [List.length_cons]
    omega
  · rcases List.mem_cons.mp hm with rfl | hm
    · exact ⟨List.not_mem_nil, o, ho, hv⟩
    · exact hb.source b hm

theorem Worth.vector {items items' : List Ref} (hbody : o.body = .vector items)
    (hbody' : o'.body = .vector items') (hlen : items'.length = items.length)
    (hplan : o'.plan = o.plan) : Worth o o' :=
  .of_due (by unfold planned; rw [hplan]) (by rw [hbody, hbody']; rfl) fun k => by
    rw [hbody, hbody']
    cases k <;> simp [due, extraBytes, graphWidth, captureCount, Payload.type, hlen]

theorem Books.rcVectorSet (hb : Books 0 [] s) (v : Ref) (i : ℕ) (item : Ref) :
    Books 0 [] (s.rcVectorSet v i item).1 := by
  unfold Ctx.rcVectorSet
  split
  swap
  · exact (quiet_rcError _ _).books hb
  rename_i a items hvector
  obtain ⟨-, o, ho, hbody⟩ := asVector_some hvector
  split
  swap
  · exact (quiet_rcError _ _).books hb
  rename_i old hold
  by_cases hbelongs : belongs item = false
  · rw [if_pos hbelongs]
    exact (quiet_rcError _ _).books hb
  rw [if_neg hbelongs]
  simp only
  -- The search changes nothing, and where it says yes the vector is not listed yet.
  have hsearch : Quiet s (if s.mayReachVector item && (s.acyclic || decide (a ∉ s.sources)) then
        s.wouldCreateCycle a item (if s.acyclic then sizeMax else 256) else (s, false)).1 ∧
      ((if s.mayReachVector item && (s.acyclic || decide (a ∉ s.sources)) then
        s.wouldCreateCycle a item (if s.acyclic then sizeMax else 256) else (s, false)).2 = true →
        s.acyclic = true ∨ a ∉ s.sources) := by
    by_cases hwalk : (s.mayReachVector item && (s.acyclic || decide (a ∉ s.sources))) = true
    · rw [if_pos hwalk]
      refine ⟨quiet_reaches _ _ _ _ _, fun _ => ?_⟩
      simpa using (Bool.and_eq_true_iff.mp hwalk).2
    · rw [if_neg hwalk]
      exact ⟨Quiet.refl _, fun h => absurd h (by simp)⟩
  generalize (if s.mayReachVector item && (s.acyclic || decide (a ∉ s.sources)) then
    s.wouldCreateCycle a item (if s.acyclic then sizeMax else 256) else (s, false)) = r at hsearch ⊢
  obtain ⟨hq, hyes⟩ := hsearch
  by_cases hrejected : (r.2 && s.acyclic) = true
  · rw [if_pos hrejected]
    exact (hq.trans (quiet_rcError _ _)).books hb
  rw [if_neg hrejected]
  have ho₁ : r.1.heap a = some o := by rw [hq.heap]; exact ho
  have hlink : Books 0 [] (if r.2 then r.1.sourceLink a else r.1) ∧
      (if r.2 then r.1.sourceLink a else r.1).heap a = some o := by
    by_cases hr : r.2 = true
    · have hnot : a ∉ r.1.sources := by
        rw [hq.sources]
        exact (hyes hr).resolve_left fun h => hrejected (by rw [hr, h]; rfl)
      rw [if_pos hr]
      exact ⟨(hq.books hb).sourceLink ho₁ (by rw [hbody]; rfl) hnot, ho₁⟩
    · rw [if_neg hr]
      exact ⟨hq.books hb, ho₁⟩
  have hretain := quiet_rcRetain (if r.2 then r.1.sourceLink a else r.1) item
  refine Books.rcRelease ((hretain.books hlink.1).modify fun x hx => ?_) old
  rw [hretain.heap, hlink.2] at hx
  obtain rfl := Option.some.inj hx
  exact .vector hbody rfl (List.length_set ..) rfl

/-! ### Closures -/

/-- **`closure_create_moved`.** The closure it makes is in the heap as it was asked for. -/
theorem Books.closureCreateMoved (hb : Books 0 [] s) (arity : ℕ) (native ownedNative : Option ℕ)
    (captures : List Ref) (moved : BitVec 32) :
    Books 0 [] (s.closureCreateMoved arity native ownedNative captures moved).1 ∧
      ∀ b, (s.closureCreateMoved arity native ownedNative captures moved).2 = .cell b →
        ∃ reaches, (s.closureCreateMoved arity native ownedNative captures moved).1.heap b =
          some (fresh (.closure { native, ownedNative, arity, captures, bound := [] }) reaches) := by
  have hfail : ∀ (t : Ctx) (message : String), Books 0 [] t →
      Books 0 [] ((t.releaseAll (movedRefs captures moved)).fail message).1 ∧
        ∀ b, ((t.releaseAll (movedRefs captures moved)).fail message).2 = .cell b →
          ∃ reaches, ((t.releaseAll (movedRefs captures moved)).fail message).1.heap b =
            some (fresh (.closure { native, ownedNative, arity, captures, bound := [] }) reaches) :=
    fun t message ht => ⟨(ht.releaseAll _).fail _, fun b h => absurd h (by simp [Ctx.fail])⟩
  have hb₁ := (quiet_mallocPayload s (captures.length * ptrBytes)).books hb
  unfold Ctx.closureCreateMoved
  simp only
  split_ifs
  · exact hfail s _ hb
  · exact hfail s _ hb
  · have howed : owed (.closure { native, ownedNative, arity, captures, bound := [] }) = 0 :=
      owed_closure rfl
    have hextra : captures.length * ptrBytes =
        extraBytes (.closure { native, ownedNative, arity, captures, bound := [] }) := by
      simp [extraBytes]
    obtain ⟨s', h, hb', -⟩ | ⟨a, s', h, hb', hheap, -⟩ := hb₁.allocate
      (.closure { native, ownedNative, arity, captures, bound := [] })
      (captures.any (s.mallocPayload (captures.length * ptrBytes)).2.mayReachVector) hextra
    · rw [h]
      exact ⟨hb'.releaseAll _, fun b h => absurd h (by simp)⟩
    · rw [h]
      have hq := quiet_retainAll s' (keptRefs captures moved)
      refine ⟨hq.books (howed ▸ hb'), fun b hcell => ?_⟩
      obtain rfl : a = b := Ref.cell.inj hcell
      refine ⟨captures.any (s.mallocPayload (captures.length * ptrBytes)).2.mayReachVector, ?_⟩
      change (s'.retainAll (keptRefs captures moved)).heap a = _
      rw [hq.heap, hheap, Function.update_self]
  · exact hfail _ _ hb₁

theorem Books.closureCreate (hb : Books 0 [] s) (arity : ℕ) (native ownedNative : Option ℕ)
    (captures : List Ref) : Books 0 [] (s.closureCreate arity native ownedNative captures).1 :=
  (hb.closureCreateMoved arity native ownedNative captures 0).1

theorem Books.certify {r : Ctx × Ref} (hb : Books 0 [] r.1) : Books 0 [] (Ctx.certify r).1 := by
  unfold Ctx.certify
  split
  · exact hb.modify fun o _ => .of_body rfl rfl
  · exact hb

theorem quiet_growStaticClosures (s : Ctx) : Quiet s s.growStaticClosures.1 := by
  unfold growStaticClosures
  simp only
  generalize (if s.staticCapacity = 0 then 256 else s.staticCapacity * 2) = capacity
  split_ifs <;> exact ⟨rfl, id⟩

theorem Books.rcClosureStatic (hb : Books 0 [] s) (v : Ref) :
    Books 0 [] (s.rcClosureStatic v).1 := by
  unfold Ctx.rcClosureStatic
  split
  swap
  · exact hb
  rename_i a o c hclosure
  by_cases hplain : (!s.isCounted v || decide (c.bound.length ≠ 0) || c.captures.any s.isCounted) = true
  · rw [if_pos hplain]
    exact hb
  rw [if_neg hplain]
  simp only
  have hgrow : Quiet s (if s.staticCapacity / 2 ≤ s.staticClosures.length then s.growStaticClosures
      else (s, true)).1 := by
    split_ifs
    · exact quiet_growStaticClosures s
    · exact Quiet.refl _
  generalize (if s.staticCapacity / 2 ≤ s.staticClosures.length then s.growStaticClosures
    else (s, true)) = r at hgrow ⊢
  have hb₁ := hgrow.books hb
  split_ifs
  · split
    · exact hb₁.rcRelease v
    · exact Quiet.books (s := r.1) ⟨rfl, id⟩ hb₁
  · exact hb₁

/-- **`partial`**: the bound arguments are entered by the operation itself. -/
theorem Books.partialApply (hb : Books 0 [] s) (c : Closure) (argv : List Ref) :
    Books 0 [] (s.partialApply c argv).1 := by
  unfold Ctx.partialApply
  simp only
  have hb₁ := (quiet_mallocPayload s ((c.bound.length + argv.length) * ptrBytes)).books hb
  split_ifs
  · exact hb.fail _
  swap
  · exact hb₁.fail _
  obtain ⟨hb₂, hmade⟩ := hb₁.closureCreateMoved c.arity c.native c.ownedNative c.captures 0
  change Books 0 [] (Ctx.closureCreate _ c.arity c.native c.ownedNative c.captures).1 at hb₂
  split
  swap
  · exact hb₂
  rename_i s₁ a h
  obtain ⟨reaches, ho⟩ := hmade a (congrArg Prod.snd h)
  rw [show (Ctx.closureCreateMoved _ c.arity c.native c.ownedNative c.captures 0).1 = s₁ from
    congrArg Prod.fst h] at ho
  rw [h] at hb₂
  have hq := quiet_retainAll s₁ (c.bound ++ argv)
  have ho₁ : (s₁.retainAll (c.bound ++ argv)).heap a = _ := (congrFun hq.heap a).trans ho
  unfold Ctx.modify
  rw [ho₁]
  refine (hq.books hb₂).exchange ho₁ _ ⟨rfl, id⟩ rfl (fun k => ?_) rfl
  cases k <;> simp [Stats.counter, Ctx.put, worth, due, planDue, planned, fresh, captureCount,
    graphWidth, extraBytes, Payload.type, Nat.add_mul]

/-! ### Evaluator frames -/

theorem Books.envFrameConstruct (hb : Books 0 [] s) (parent : Ref) (keys values : List Ref) {bytes : ℕ}
    (hbytes : bytes = if values.length > 1 then 2 * values.length * ptrBytes else 0) :
    Books 0 [] (s.envFrameConstruct parent keys values bytes).1 := by
  unfold Ctx.envFrameConstruct
  simp only
  have hb₁ := (quiet_mallocPayload s bytes).books hb
  split_ifs
  · exact (quiet_rcRetain s parent).books hb
  swap
  · exact hb₁.fail _
  generalize (s.mallocPayload bytes).2 = s₁ at hb₁ ⊢
  generalize keys.foldl (fun k key => k ||| s₁.envKeyClass key) (s₁.envKeyClasses parent) = classes
  obtain ⟨s', h, hb', -⟩ | ⟨a, s', h, hb', -⟩ := hb₁.allocate (.env parent keys values classes)
    (s₁.mayReachVector parent || values.any s₁.mayReachVector) hbytes
  · rw [h]
    exact hb'
  · rw [h]
    have hq := (quiet_rcRetain s' parent).trans (quiet_retainAll _ values)
    refine (hq.books hb').settle _ (fun k => ?_) rfl
    rw [owed_env]
    cases k <;> simp [Stats.counter, add_assoc]

theorem Books.rcEnvFrame (hb : Books 0 [] s) (parent : Ref) (bindings : List (Ref × Ref)) :
    Books 0 [] (s.rcEnvFrame parent bindings).1 := by
  have hmade := hb.envFrameConstruct parent (bindings.map Prod.fst) (bindings.map Prod.snd) rfl
  unfold Ctx.rcEnvFrame
  simp only
  by_cases hparent : (!belongs parent || (decide (parent ≠ .nil) && decide (s.rcType parent ≠ .env))) = true
  · rw [if_pos hparent]
    exact hb.fail _
  rw [if_neg hparent]
  by_cases hlong : sizeMax / 2 / ptrBytes < (bindings.map Prod.snd).length
  · rw [if_pos hlong]
    exact hb.fail _
  rw [if_neg hlong]
  by_cases hbad : (!bindings.all fun b => belongs b.1 && s.rcType b.1 == .symbol && belongs b.2) = true
  · rw [if_pos hbad]
    exact hb.fail _
  · rw [if_neg hbad]
    exact hmade

theorem Books.rcEvalEnvFrame (hb : Books 0 [] s) (self : Ref) (callback : ℕ) (argv : List Ref) :
    Books 0 [] (s.rcEvalEnvFrame self callback argv).1 := by
  unfold Ctx.rcEvalEnvFrame
  split
  swap
  · exact hb.fail _
  split
  swap
  · exact hb.fail _
  rename_i c _ _ _ env params _
  by_cases hbad : c.native ≠ some callback ∨ c.ownedNative ≠ none ∨ c.arity ≠ argv.length ∨
      params.length ≠ argv.length
  · rw [if_pos hbad]
    exact hb.fail _
  rw [if_neg hbad]
  by_cases hlong : sizeMax / 2 / ptrBytes < argv.length
  · rw [if_pos hlong]
    exact hb.fail _
  · rw [if_neg hlong]
    exact hb.envFrameConstruct env params argv rfl

/-! ### Plans -/

/-- **`plan_insert`**: an entry without a plan counts for nothing. -/
theorem Books.planInsert (hb : Books 0 [] s) (ho : s.heap a = some o) :
    Books 0 [] (s.planInsert a).1 ∧ ((s.planInsert a).2 = true →
      ∃ o' e, (s.planInsert a).1.heap a = some o' ∧ o'.plan = some e) := by
  unfold Ctx.planInsert
  rw [ho]
  simp only
  rcases hplan : o.plan with _ | e
  swap
  · exact ⟨hb, fun _ => ⟨o, e, ho, hplan⟩⟩
  rw [if_neg (by simp)]
  have hgrow : Quiet s (if s.planCapacity < (s.planCount + 1) * 2 then
      if s.malloc.1 then
        ({ s.malloc.2 with
          planCapacity := if s.planCapacity = 0 then 64 else s.planCapacity * 2 }, true)
      else (s.malloc.2, false)
    else (s, true)).1 := by
    by_cases hfull : s.planCapacity < (s.planCount + 1) * 2
    · rw [if_pos hfull]
      by_cases hroom : s.malloc.1 = true
      · rw [if_pos hroom]
        exact ⟨rfl, id⟩
      · rw [if_neg hroom]
        exact quiet_malloc s
    · rw [if_neg hfull]
      exact Quiet.refl _
  generalize (if s.planCapacity < (s.planCount + 1) * 2 then
      if s.malloc.1 then
        ({ s.malloc.2 with
          planCapacity := if s.planCapacity = 0 then 64 else s.planCapacity * 2 }, true)
      else (s.malloc.2, false)
    else (s, true)) = r at hgrow ⊢
  have ho₁ : r.1.heap a = some o := (congrFun hgrow.heap a).trans ho
  split_ifs
  · refine ⟨Books.put (s := { r.1 with planCount := r.1.planCount + 1 })
      (Quiet.books (s := r.1) ⟨rfl, id⟩ (hgrow.books hb)) ho₁ (.of_due ?_ rfl fun _ => rfl),
      fun _ => ⟨_, _, Function.update_self .., rfl⟩⟩
    simp [planned, hplan]
  · exact ⟨hgrow.books hb, fun h => absurd h (by simp)⟩

theorem Books.rcEvalPlanHeat (hb : Books 0 [] s) (expression : Ref) :
    Books 0 [] (s.rcEvalPlanHeat expression).1 := by
  unfold Ctx.rcEvalPlanHeat
  split
  swap
  · exact hb
  rename_i a o h t hpair
  obtain ⟨-, ho, -⟩ := asPair_some hpair
  have hb₁ := (hb.planInsert ho).1
  simp only
  split_ifs
  · exact hb₁
  · refine hb₁.modify fun x _ => .of_due ?_ rfl fun _ => rfl
    unfold planned
    rcases x.plan with _ | e
    · rfl
    · rfl
  · exact hb₁

/-- **`rc_eval_plan_set`**: the plan's slot is entered, that of the old plan given up. -/
theorem Books.rcEvalPlanSet (hb : Books 0 [] s) (expression plan : Ref) :
    Books 0 [] (s.rcEvalPlanSet expression plan) := by
  unfold Ctx.rcEvalPlanSet
  split
  swap
  · exact hb
  rename_i a o h t hpair
  obtain ⟨-, ho, -⟩ := asPair_some hpair
  obtain ⟨hb₁, hentry⟩ := hb.planInsert ho
  simp only
  by_cases hinserted : (s.planInsert a).2 = true
  swap
  · rw [if_neg hinserted]
    exact hb₁
  rw [if_pos hinserted]
  obtain ⟨o₁, e, ho₁, hplan⟩ := hentry hinserted
  generalize (s.planInsert a).1 = s₁ at hb₁ ho₁ ⊢
  have hq := quiet_rcRetain s₁ plan
  have ho₂ : (s₁.rcRetain plan).heap a = some o₁ := (congrFun hq.heap a).trans ho₁
  have hold : (((s₁.heap a).bind Obj.plan).map PlanEntry.plan).getD .null = e.plan := by
    rw [ho₁, Option.bind_some, hplan]
    rfl
  rw [hold]
  refine Books.rcRelease ?_ _
  unfold Ctx.modify
  rw [ho₂]
  refine (hq.books hb₁).exchange ho₂ _ ⟨rfl, id⟩ rfl (fun k => ?_) rfl
  cases k <;> simp only [Stats.counter, Ctx.put, worth, due, planDue, planned, hplan, Option.map_some] <;>
    omega

theorem Books.rcEvalPlanPromote (hb : Books 0 [] s) (self : Ref) (prepared : ℕ) (plan : Ref) :
    Books 0 [] (s.rcEvalPlanPromote self prepared plan) := by
  unfold Ctx.rcEvalPlanPromote
  split
  swap
  · exact hb
  rename_i a o c hclosure
  obtain ⟨-, ho, hbody⟩ := asClosure_some hclosure
  split
  swap
  · exact hb
  rename_i old rest hcaptures
  have hq := quiet_rcRetain s plan
  refine ((hq.books hb).modify fun x hx => ?_).rcRelease _
  rw [hq.heap, ho] at hx
  obtain rfl := Option.some.inj hx
  refine .of_due rfl (by rw [hbody]; rfl) fun k => ?_
  rw [hbody]
  cases k <;> simp [due, captureCount, graphWidth, extraBytes, Payload.type, hcaptures]

/-! ### Tail requests -/

/-- A new request: its slots are entered when its children are retained. No other cell changes. -/
theorem Books.allocateTail (hb : Books 0 [] s) (fn : Ref) (argv : List Ref) (reaches : Bool)
    {bytes : ℕ} (hbytes : bytes = if argv.length > 3 then argv.length * ptrBytes else 0) :
    (∃ s', s.allocate (.tail fn argv 0) reaches bytes = (s', .null) ∧ Books 0 [] s' ∧
      s'.heap = s.heap) ∨
    ∃ a s', s.allocate (.tail fn argv 0) reaches bytes = (s', .cell a) ∧
      (∀ t, Quiet s' t → Books 0 [] { t with
        stats := { t.stats with graphSlots := t.stats.graphSlots + argv.length } }) ∧
      ∀ b o, s.heap b = some o → s'.stuck = true ∨ s'.heap b = some o := by
  obtain h | ⟨a, s', h, hb', hheap, hfresh⟩ := hb.allocate (.tail fn argv 0) reaches hbytes
  · exact Or.inl h
  refine Or.inr ⟨a, s', h, fun t hq => ?_, fun b o ho => ?_⟩
  · refine (hq.books hb').settle _ (fun k => ?_) rfl
    rw [owed_tail]
    cases k <;> simp [Stats.counter]
  · rcases hfresh with hstop | hnone
    · exact Or.inl hstop
    · have hba : b ≠ a := fun h => by rw [h, hnone] at ho; exact absurd ho (by simp)
      exact Or.inr (by rw [hheap, Function.update_of_ne hba, ho])

theorem Books.rcTailcall (hb : Books 0 [] s) (fn : Ref) (argv : List Ref) :
    Books 0 [] (s.rcTailcall fn argv).1 ∧ ∀ b o, s.heap b = some o →
      (s.rcTailcall fn argv).1.stuck = true ∨ (s.rcTailcall fn argv).1.heap b = some o := by
  have hq₁ := quiet_mallocPayload s (if argv.length > 3 then argv.length * ptrBytes else 0)
  unfold Ctx.rcTailcall
  by_cases hfn : (!belongs fn || decide (sizeMax / ptrBytes < argv.length)) = true
  · rw [if_pos hfn]
    exact ⟨hb.fail _, fun _ _ ho => Or.inr ho⟩
  rw [if_neg hfn]
  by_cases hargs : (!argv.all belongs) = true
  · rw [if_pos hargs]
    exact ⟨hb.fail _, fun _ _ ho => Or.inr ho⟩
  rw [if_neg hargs]
  simp only
  generalize s.mallocPayload (if argv.length > 3 then argv.length * ptrBytes else 0) = r at hq₁ ⊢
  have hheap : ∀ b o, s.heap b = some o → r.2.heap b = some o := fun b o ho => by rw [hq₁.heap, ho]
  by_cases hroom : r.1 = true
  · rw [if_pos hroom]
    obtain ⟨s', h, hb', hsame⟩ | ⟨a, s', h, hb', hkeep⟩ := (hq₁.books hb).allocateTail fn argv
      (r.2.mayReachVector fn || argv.any r.2.mayReachVector) rfl
    · rw [h]
      exact ⟨hb', fun b o ho => Or.inr (by rw [hsame, hheap b o ho])⟩
    · rw [h]
      have hq := (quiet_rcRetain s' fn).trans (quiet_retainAll _ argv)
      refine ⟨hb' _ hq, fun b o ho => ?_⟩
      exact (hkeep b o (hheap b o ho)).imp hq.stuck fun h => (congrFun hq.heap b).trans h
  · rw [if_neg hroom]
    exact ⟨(hq₁.books hb).fail _, fun b o ho => Or.inr (hheap b o ho)⟩

theorem Books.rcTailcallOwnedArgs (hb : Books 0 [] s) (fn : Ref) (argv : List Ref) :
    Books 0 [] (s.rcTailcallOwnedArgs fn argv).1 := by
  have hq₁ := quiet_mallocPayload s (if argv.length > 3 then argv.length * ptrBytes else 0)
  unfold Ctx.rcTailcallOwnedArgs
  by_cases hfn : (!belongs fn || decide (sizeMax / ptrBytes < argv.length)) = true
  · rw [if_pos hfn]
    exact (hb.releaseAll _).fail _
  rw [if_neg hfn]
  by_cases hargs : (!argv.all belongs) = true
  · rw [if_pos hargs]
    exact (hb.releaseAll _).fail _
  rw [if_neg hargs]
  simp only
  generalize s.mallocPayload (if argv.length > 3 then argv.length * ptrBytes else 0) = r at hq₁ ⊢
  by_cases hroom : r.1 = true
  · rw [if_pos hroom]
    obtain ⟨s', h, hb', -⟩ | ⟨a, s', h, hb', -⟩ := (hq₁.books hb).allocateTail fn argv
      (r.2.mayReachVector fn || argv.any r.2.mayReachVector) rfl
    · rw [h]
      exact hb'.releaseAll _
    · rw [h]
      exact hb' _ (quiet_rcRetain s' fn)
  · rw [if_neg hroom]
    exact ((hq₁.books hb).releaseAll _).fail _

/-- A request with as many arguments. -/
theorem Worth.tail {fn fn' : Ref} {argv argv' : List Ref} {g g' : ℕ} (hbody : o.body = .tail fn argv g)
    (hbody' : o'.body = .tail fn' argv' g') (hlen : argv'.length = argv.length)
    (hplan : o'.plan = o.plan) : Worth o o' :=
  .of_due (by unfold planned; rw [hplan]) (by rw [hbody, hbody']; rfl) fun k => by
    rw [hbody, hbody']
    cases k <;> simp [due, extraBytes, graphWidth, captureCount, Payload.type, hlen]

theorem Books.setGuards (hb : Books 0 [] s) (guards : ℕ) : Books 0 [] (s.setGuards a guards) := by
  refine hb.modify fun o _ => ?_
  split
  · rename_i hbody
    exact .tail hbody rfl rfl rfl
  · exact .of_body rfl rfl

theorem Books.requireGuard (hb : Books 0 [] s) (value : Ref) (guard : ℕ) :
    Books 0 [] (s.requireGuard value guard).1 := by
  unfold Ctx.requireGuard
  simp only
  split
  · split_ifs
    · exact hb
    · exact hb.fail _
    · exact hb.fail _
  split
  · rename_i b f args before _
    by_cases hshared : 1 < s.refs value ∧ composeGuards before guard ≠ before
    · rw [if_pos hshared]
      have hb₁ := (hb.rcTailcall f args).1.rcRelease value
      split
      · exact hb₁.setGuards _
      · exact hb₁
    · rw [if_neg hshared]
      exact hb.setGuards _
  · split_ifs
    · exact hb
    · exact (hb.rcRelease value).fail _
    · exact (hb.rcRelease value).fail _

/-! ### Bindings -/

theorem Worth.symbol {t t' : List UInt8} {g f g' f' : Ref} (hbody : o.body = .symbol t g f)
    (hbody' : o'.body = .symbol t' g' f') (hlen : t'.length = t.length) (hplan : o'.plan = o.plan) :
    Worth o o' :=
  .of_due (by unfold planned; rw [hplan]) (by rw [hbody, hbody']; rfl) fun k => by
    rw [hbody, hbody']
    cases k <;> simp [due, extraBytes, graphWidth, captureCount, Payload.type, hlen]

theorem Books.setSymbolSlot (hb : Books 0 [] s) (symbol value : Ref) (function : Bool) :
    Books 0 [] (s.setSymbolSlot symbol value function).1 := by
  unfold Ctx.setSymbolSlot
  split
  swap
  · exact (quiet_rcError _ _).books hb
  rename_i a text g f hsymbol
  by_cases hbelongs : belongs value = false
  · rw [if_pos hbelongs]
    exact (quiet_rcError _ _).books hb
  rw [if_neg hbelongs]
  simp only
  have hgen : Quiet s (if function = true ∧ s.functionGeneration < sizeMax then
      { s with functionGeneration := s.functionGeneration + 1 } else s) := by
    split_ifs
    · exact ⟨rfl, id⟩
    · exact Quiet.refl _
  generalize (if function = true ∧ s.functionGeneration < sizeMax then
      { s with functionGeneration := s.functionGeneration + 1 } else s) = s₁ at hgen ⊢
  have hset : Books 0 [] ((s₁.rcRetain value).modify a fun o =>
      { o with
        body := .symbol text (if function then g else value) (if function then value else f) }) := by
    refine ((hgen.trans (quiet_rcRetain _ _)).books hb).modify fun x hx => ?_
    obtain ⟨-, o, ho, hbody⟩ := asSymbol_some hsymbol
    rw [(hgen.trans (quiet_rcRetain _ _)).heap, ho] at hx
    obtain rfl := Option.some.inj hx
    exact .symbol hbody rfl rfl rfl
  generalize ((s₁.rcRetain value).modify a fun o =>
      { o with
        body := .symbol text (if function then g else value) (if function then value else f) }) = s₂
    at hset ⊢
  by_cases hretire : (function && decide (s₂.callDepth ≠ 0) && s₂.isCounted (if function then f else g) &&
      decide ((if function then f else g) ≠ value)) = true
  · rw [if_pos hretire]
    generalize (if function = true then f else g) = old
    generalize (if s₂.retiredCapacity = 0 then 64 else s₂.retiredCapacity * 2) = capacity
    split_ifs
    · exact Quiet.books (s := s₂) ⟨rfl, id⟩ hset
    · exact ((quiet_malloc s₂).trans (quiet_setRefs _ _ _)).books hset
    · exact Quiet.books (s := s₂) ⟨rfl, id⟩ hset
  · rw [if_neg hretire]
    exact hset.rcRelease _

theorem Books.rcFunctionSet (hb : Books 0 [] s) (symbol fn : Ref) :
    Books 0 [] (s.rcFunctionSet symbol fn).1 := by
  unfold Ctx.rcFunctionSet
  split_ifs
  · exact hb.setSymbolSlot symbol fn true
  · exact (quiet_rcError _ _).books hb

theorem Books.rcGlobalGet (hb : Books 0 [] s) (symbol : Ref) :
    Books 0 [] (s.rcGlobalGet symbol).1 := by
  unfold Ctx.rcGlobalGet
  split
  · split_ifs
    · exact hb.fail _
    · exact (quiet_rcRetain s _).books hb
  · exact hb.fail _

theorem quiet_rcFunctionLookup (s : Ctx) (symbol : Ref) : Quiet s (s.rcFunctionLookup symbol).1 := by
  unfold rcFunctionLookup
  split
  · exact quiet_rcRetain s _
  · exact Quiet.refl _

theorem quiet_rcFunctionGet (s : Ctx) (symbol : Ref) : Quiet s (s.rcFunctionGet symbol).1 := by
  have hq := quiet_rcFunctionLookup s symbol
  unfold rcFunctionGet
  split
  · rename_i h
    rw [h] at hq
    exact hq.trans (quiet_rcError _ _)
  · exact hq

theorem Books.rcBuiltinCacheSet (hb : Books 0 [] s) (slot : ℕ) (fn : Ref) :
    Books 0 [] (s.rcBuiltinCacheSet slot fn) := by
  unfold Ctx.rcBuiltinCacheSet
  split
  · rename_i a o c hclosure
    split_ifs with hslot
    · have hq : Quiet s { s.rcRetain fn with
          builtinRoots := Function.update (s.rcRetain fn).builtinRoots ⟨slot, hslot⟩ fn } :=
        (quiet_rcRetain s fn).trans ⟨rfl, id⟩
      exact Books.rcRelease ((hq.books hb).modify (f := fun o => { o with builtinSlot := slot + 1 })
        fun o _ => .of_body rfl rfl) _
    · exact (quiet_abort s).books hb
  · exact (quiet_abort s).books hb

theorem quiet_rcCallEnter (s : Ctx) : Quiet s s.rcCallEnter := ⟨rfl, id⟩

theorem Books.rcCallLeave (hb : Books 0 [] s) : Books 0 [] s.rcCallLeave := by
  unfold Ctx.rcCallLeave
  simp only
  generalize (if s.callDepth = 0 then sizeMax else s.callDepth - 1) = depth
  have hq : Quiet s { s with callDepth := depth } := ⟨rfl, id⟩
  split_ifs
  · exact hq.books hb
  · exact Books.releaseAll (s := { s with callDepth := depth, retired := [] })
      (Quiet.books (s := s) ⟨rfl, id⟩ hb) _

end Ctx

end ShenRc.Runtime
