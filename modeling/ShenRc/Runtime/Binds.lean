import ShenRc.Runtime.BookRuns

/-! # What the operations do not touch

An immortal cell stays in use and stays immortal, and a symbol keeps its slots, whatever is allocated,
released or collected around it (`Binds`): a cell is freed only when its count has dropped to zero, or
when the collector has found no residual count, and a saturated count does neither. Only the operations
on bindings write the slots of a symbol and the list of the bindings that wait for the outermost call. -/

namespace ShenRc.Runtime

namespace Ctx

variable {s s' s'' : Ctx} {a : ℕ} {o o' : Obj}

/-! ### What is kept -/

/-- The one is a symbol if the other is, with the same slots. -/
def SameSymbol (o o' : Obj) : Prop := ∀ t g f, o'.body = .symbol t g f ↔ o.body = .symbol t g f

theorem SameSymbol.refl (o : Obj) : SameSymbol o o := fun _ _ _ => Iff.rfl

theorem SameSymbol.of_body (h : o'.body = o.body) : SameSymbol o o' := fun _ _ _ => by rw [h]

/-- If it is a symbol, its slots are empty. -/
def Unbound (o : Obj) : Prop := ∀ t g f, o.body = .symbol t g f → g = .null ∧ f = .null

/-- Immortal cells stay, and symbols that are new are unbound, unless the source has called `abort`. -/
structure Keeps (s s' : Ctx) : Prop where
  stuck : s.stuck = true → s'.stuck = true
  kept : s'.stuck = true ∨ ∀ a o, s.heap a = some o → s.refs (.cell a) = immortal →
    s'.refs (.cell a) = immortal ∧ ∃ o', s'.heap a = some o' ∧ SameSymbol o o'
  new : s'.stuck = true ∨ ∀ a o', s'.heap a = some o' →
    (∃ o, s.heap a = some o ∧ SameSymbol o o') ∨ Unbound o'

/-- So do the bindings that wait, and the depth of the calls. -/
structure Binds (s s' : Ctx) : Prop extends Keeps s s' where
  retired : s'.retired = s.retired
  callDepth : s'.callDepth = s.callDepth

/-- The cells and their counts are the same. -/
theorem Keeps.still (hheap : s'.heap = s.heap) (hrefs : s'.refs = s.refs)
    (hstuck : s.stuck = true → s'.stuck = true) : Keeps s s' where
  stuck := hstuck
  kept := Or.inr fun _ o ho hi => ⟨by rw [hrefs]; exact hi, o, by rw [hheap]; exact ho, .refl o⟩
  new := Or.inr fun _ o ho => Or.inl ⟨o, by rw [← hheap]; exact ho, .refl o⟩

theorem Binds.still (hheap : s'.heap = s.heap) (hrefs : s'.refs = s.refs)
    (hretired : s'.retired = s.retired) (hdepth : s'.callDepth = s.callDepth)
    (hstuck : s.stuck = true → s'.stuck = true) : Binds s s' :=
  ⟨.still hheap hrefs hstuck, hretired, hdepth⟩

theorem Binds.refl (s : Ctx) : Binds s s := .still rfl rfl rfl rfl id

theorem Keeps.trans (h : Keeps s s') (h' : Keeps s' s'') : Keeps s s'' where
  stuck hs := h'.stuck (h.stuck hs)
  kept := by
    rcases h'.kept with hs | hk'
    · exact Or.inl hs
    rcases h.kept with hs | hk
    · exact Or.inl (h'.stuck hs)
    refine Or.inr fun a o ho hi => ?_
    obtain ⟨hi', o', ho', hsame⟩ := hk a o ho hi
    obtain ⟨hi'', o'', ho'', hsame'⟩ := hk' a o' ho' hi'
    exact ⟨hi'', o'', ho'', fun t g f => (hsame' t g f).trans (hsame t g f)⟩
  new := by
    rcases h'.new with hs | hn'
    · exact Or.inl hs
    rcases h.new with hs | hn
    · exact Or.inl (h'.stuck hs)
    refine Or.inr fun a o'' ho'' => ?_
    rcases hn' a o'' ho'' with ⟨o', ho', hsame'⟩ | hunbound
    · rcases hn a o' ho' with ⟨o, ho, hsame⟩ | hunbound
      · exact Or.inl ⟨o, ho, fun t g f => (hsame' t g f).trans (hsame t g f)⟩
      · exact Or.inr fun t g f hb => hunbound t g f ((hsame' t g f).mp hb)
    · exact Or.inr hunbound

theorem Binds.trans (h : Binds s s') (h' : Binds s' s'') : Binds s s'' :=
  ⟨h.toKeeps.trans h'.toKeeps, h'.retired.trans h.retired, h'.callDepth.trans h.callDepth⟩

theorem Binds.foldl {α β : Type} (ctx : α → Ctx) {f : α → β → α}
    (hf : ∀ x y, Binds (ctx x) (ctx (f x y))) (ys : List β) (x : α) :
    Binds (ctx x) (ctx (ys.foldl f x)) := by
  induction ys generalizing x with
  | nil => exact .refl _
  | cons y ys ih => exact (hf x y).trans (ih (f x y))

/-! ### Counts -/

theorem binds_rcError (s : Ctx) (message : String) : Binds s (s.rcError message) := .still rfl rfl rfl rfl id

theorem binds_fail (s : Ctx) (message : String) : Binds s (s.fail message).1 := binds_rcError s message

theorem binds_abort (s : Ctx) : Binds s s.abort := .still rfl rfl rfl rfl fun _ => rfl

theorem binds_malloc (s : Ctx) : Binds s s.malloc.2 := .still rfl rfl rfl rfl id

theorem binds_mallocBytes (s : Ctx) (bytes : ℕ) : Binds s (s.mallocBytes bytes).2 := binds_malloc s

theorem binds_mallocPayload (s : Ctx) (bytes : ℕ) : Binds s (s.mallocPayload bytes).2 := by
  unfold mallocPayload
  split_ifs
  · exact .refl s
  · exact binds_mallocBytes s bytes

/-- Only a count that is not saturated is changed, or it is saturated. -/
theorem binds_setRefs {r : Ref} {n : ℕ} (h : s.isCounted r = true ∨ n = immortal) :
    Binds s (s.setRefs r n) := by
  refine ⟨⟨id, Or.inr fun a o ho hi => ⟨?_, o, ho, .refl o⟩,
    Or.inr fun a o ho => Or.inl ⟨o, ho, .refl o⟩⟩, rfl, rfl⟩
  by_cases hr : Ref.cell a = r
  · subst hr
    rw [setRefs_self]
    exact h.resolve_left fun hc => by rw [isCounted_of_immortal hi] at hc; exact absurd hc (by simp)
  · rw [setRefs_ne s _ hr, hi]

theorem binds_rcRetain (s : Ctx) (v : Ref) : Binds s (s.rcRetain v) := by
  unfold rcRetain
  split_ifs with hc
  · exact binds_setRefs (Or.inl hc)
  · exact .refl s

theorem binds_retainAll (s : Ctx) (vs : List Ref) : Binds s (s.retainAll vs) :=
  Binds.foldl id binds_rcRetain vs s

/-! ### Cells -/

/-- A cell is overwritten, but the slots of a symbol stay. -/
theorem binds_put (ho : s.heap a = some o) (h : SameSymbol o o') : Binds s (s.put a o') := by
  have hput : ∀ b, b ≠ a → (s.put a o').heap b = s.heap b := fun b hb => Function.update_of_ne hb ..
  have hself : (s.put a o').heap a = some o' := Function.update_self ..
  refine ⟨⟨id, Or.inr fun b x hx hi => ⟨hi, ?_⟩, Or.inr fun b x hx => Or.inl ?_⟩, rfl, rfl⟩
  · by_cases hb : b = a
    · subst hb
      obtain rfl := Option.some.inj (ho.symm.trans hx)
      exact ⟨o', hself, h⟩
    · exact ⟨x, (hput b hb).trans hx, .refl x⟩
  · by_cases hb : b = a
    · subst hb
      obtain rfl := Option.some.inj (hself.symm.trans hx)
      exact ⟨o, ho, h⟩
    · exact ⟨x, (hput b hb).symm.trans hx, .refl x⟩

theorem binds_modify {f : Obj → Obj} (h : ∀ o, s.heap a = some o → SameSymbol o (f o)) :
    Binds s (s.modify a f) := by
  unfold modify
  rcases ho : s.heap a with _ | o
  · exact .refl s
  · exact binds_put ho (h o ho)

/-- Neither content is a symbol. -/
theorem SameSymbol.of_type (h : o.body.type ≠ .symbol) (h' : o'.body.type ≠ .symbol) :
    SameSymbol o o' :=
  fun t g f => ⟨fun hb => absurd (by rw [hb]; rfl) h', fun hb => absurd (by rw [hb]; rfl) h⟩

/-- Only a cell whose count is not saturated is freed. -/
theorem binds_rawFree (h : s.refs (.cell a) ≠ immortal) : Binds s (s.rawFree a) := by
  unfold rawFree
  split
  · exact binds_abort s
  rename_i o ho
  refine ⟨⟨id, Or.inr fun b x hx hi => ?_, Or.inr fun b x hx => Or.inl ?_⟩, rfl, rfl⟩
  · have hba : b ≠ a := fun hba => h (hba ▸ hi)
    have hcell : Ref.cell b ≠ .cell a := fun hcell => hba (Ref.cell.inj hcell)
    exact ⟨(Function.update_of_ne hcell ..).trans hi, x, (Function.update_of_ne hba ..).trans hx, .refl x⟩
  · change Function.update s.heap a none b = some x at hx
    have hba : b ≠ a := fun hba => by
      rw [hba, Function.update_self] at hx
      exact absurd hx (by simp)
    exact ⟨x, (Function.update_of_ne hba ..).symm.trans hx, .refl x⟩

theorem binds_unlinkObject (s : Ctx) (a : ℕ) : Binds s (s.unlinkObject a) := by
  unfold unlinkObject
  split
  · exact binds_abort s
  · simp only
    split_ifs
    · exact .still rfl rfl rfl rfl id
    · exact .still rfl rfl rfl rfl id

/-! ### Allocation -/

theorem binds_takeCell (s : Ctx) (t : RcType) : Binds s (s.takeCell t).2 := by
  obtain h | h | ⟨b, rest, -, h⟩ := s.takeCell_lists t
  · rw [h]
    exact binds_malloc s
  · rw [h]
    exact .still rfl rfl rfl rfl id
  · rw [h]
    exact .still rfl rfl rfl rfl id

/-- A cell that is handed out was not in use. -/
theorem binds_place (h : s.stuck = true ∨ s.heap a = none) {body : Payload}
    (hbody : ∀ t g f, body = .symbol t g f → g = .null ∧ f = .null) (reaches : Bool) (extra : ℕ) :
    Binds s (s.place a body reaches extra) := by
  have hself : (s.place a body reaches extra).heap a = some (fresh body reaches) :=
    Function.update_self ..
  have hne : ∀ b, b ≠ a → (s.place a body reaches extra).heap b = s.heap b := fun b hb =>
    Function.update_of_ne hb ..
  refine ⟨⟨id, h.imp id fun hnone b x hx hi => ?_, Or.inr fun b x hx => ?_⟩, rfl, rfl⟩
  · have hba : b ≠ a := fun hba => by rw [hba, hnone] at hx; exact absurd hx (by simp)
    have hcell : Ref.cell b ≠ .cell a := fun hcell => hba (Ref.cell.inj hcell)
    exact ⟨(Function.update_of_ne hcell ..).trans hi, x, (hne b hba).trans hx, .refl x⟩
  · by_cases hba : b = a
    · subst hba
      obtain rfl := Option.some.inj (hself.symm.trans hx)
      exact Or.inr fun t g f hb => hbody t g f hb
    · exact Or.inl ⟨x, (hne b hba).symm.trans hx, .refl x⟩

theorem Books.binds_allocate (hb : Books 0 [] s) (body : Payload)
    (hbody : ∀ t g f, body = .symbol t g f → g = .null ∧ f = .null) (reaches : Bool) (extra : ℕ) :
    Binds s (s.allocate body reaches extra).1 := by
  unfold Ctx.allocate
  split_ifs
  · exact binds_rcError s _
  have htake := binds_takeCell s body.type
  rcases h : s.takeCell body.type with ⟨_ | b, s₁⟩
  · rw [h] at htake
    exact htake.trans (binds_rcError s₁ _)
  · rw [h] at htake
    refine htake.trans (binds_place ?_ hbody reaches extra)
    obtain hstop | ⟨d, hm, -⟩ | hb := hb
    · exact Or.inl (htake.stuck hstop)
    · exact absurd hm List.not_mem_nil
    · obtain ⟨-, hheap, hnone, -⟩ := hb.takeCell h
      exact Or.inr (by rw [hheap]; exact hnone)

/-! ### Releases -/

/-- The cells on the work list have no count left. -/
def Spent (st : Ctx × List ℕ) : Prop := ∀ a ∈ st.2, st.1.refs (.cell a) = 0

/-- A count of zero stays one. -/
theorem releaseEdge_zero (st : Ctx × List ℕ) (v : Ref) (h : st.1.refs (.cell a) = 0) :
    (releaseEdge st v).1.refs (.cell a) = 0 := by
  unfold releaseEdge
  by_cases hc : st.1.isCounted v = true
  swap
  · rw [if_neg hc, h]
  rw [if_pos hc]
  by_cases h0 : st.1.refs v = 0
  · rw [if_pos h0]
    exact h
  · rw [if_neg h0]
    have hne : Ref.cell a ≠ v := fun hv => h0 (hv ▸ h)
    show (st.1.setRefs v _).refs (.cell a) = 0
    rw [setRefs_ne _ _ hne, h]

theorem releaseEdge_binds (st : Ctx × List ℕ) (v : Ref) (h : Spent st) :
    Binds st.1 (releaseEdge st v).1 ∧ Spent (releaseEdge st v) := by
  have hzero : ∀ a ∈ st.2, (releaseEdge st v).1.refs (.cell a) = 0 := fun a ha =>
    releaseEdge_zero st v (h a ha)
  unfold releaseEdge at hzero ⊢
  by_cases hc : st.1.isCounted v = true
  swap
  · rw [if_neg hc]
    exact ⟨.refl _, h⟩
  rw [if_pos hc] at hzero ⊢
  by_cases h0 : st.1.refs v = 0
  · rw [if_pos h0]
    exact ⟨binds_abort _, h⟩
  rw [if_neg h0] at hzero ⊢
  refine ⟨binds_setRefs (Or.inl hc), ?_⟩
  rcases v with _ | _ | n | b | ⟨t, k⟩
  case cell =>
    by_cases hone : st.1.refs (.cell b) = 1
    · intro a ha
      dsimp only at ha
      rw [if_pos hone] at ha
      rcases List.mem_cons.mp ha with rfl | ha
      · show (st.1.setRefs (.cell a) _).refs (.cell a) = 0
        rw [setRefs_self, hone]
      · exact hzero a ha
    · intro a ha
      dsimp only at ha
      rw [if_neg hone] at ha
      exact hzero a ha
  all_goals exact hzero

theorem releaseEdges_binds (vs : List Ref) : ∀ (st : Ctx × List ℕ), Spent st →
    Binds st.1 (vs.foldl releaseEdge st).1 ∧ Spent (vs.foldl releaseEdge st) := by
  induction vs with
  | nil => exact fun st h => ⟨.refl _, h⟩
  | cons v vs ih =>
    intro st h
    obtain ⟨h₁, hspent⟩ := releaseEdge_binds st v h
    obtain ⟨h₂, hspent⟩ := ih _ hspent
    exact ⟨h₁.trans h₂, hspent⟩

theorem releaseEdges_zero (vs : List Ref) (st : Ctx × List ℕ) (h : st.1.refs (.cell a) = 0) :
    (vs.foldl releaseEdge st).1.refs (.cell a) = 0 := by
  induction vs generalizing st with
  | nil => exact h
  | cons v vs ih => exact ih _ (releaseEdge_zero st v h)

theorem rawFree_zero {b : ℕ} (h : s.refs (.cell b) = 0) : (s.rawFree a).refs (.cell b) = 0 := by
  unfold rawFree
  split
  · exact h
  · by_cases hba : Ref.cell b = .cell a
    · rw [hba]
      exact Function.update_self ..
    · exact (Function.update_of_ne hba ..).trans h

theorem unlinkObject_refs (s : Ctx) (a : ℕ) : (s.unlinkObject a).refs = s.refs := by
  unfold unlinkObject
  split
  · rfl
  · simp only
    split_ifs
    · rfl
    · rfl

/-- One turn of the loop of `rc_release` frees a cell without a count. -/
theorem releaseStep_binds {dead : ℕ} {work : List ℕ} (h : Spent (s, dead :: work)) :
    Binds s (s.releaseStep dead work).1 ∧ Spent (s.releaseStep dead work) := by
  have hrefs := s.unlinkObject_refs dead
  have hdead : (s.unlinkObject dead).refs (.cell dead) = 0 := by
    rw [hrefs]
    exact h dead List.mem_cons_self
  have hwork : Spent (s.unlinkObject dead, work) := fun a ha => by
    show (s.unlinkObject dead).refs (.cell a) = 0
    rw [hrefs]
    exact h a (List.mem_cons_of_mem _ ha)
  obtain ⟨hedges, hspent⟩ := releaseEdges_binds (s.edges dead) _ hwork
  have hzero := releaseEdges_zero (s.edges dead) (s.unlinkObject dead, work) hdead
  exact ⟨(binds_unlinkObject s dead).trans (hedges.trans (binds_rawFree (by rw [hzero]; decide))),
    fun a ha => rawFree_zero (hspent a ha)⟩

theorem releaseLoop_binds : ∀ (fuel : ℕ) (st : Ctx × List ℕ), Spent st → Binds st.1 (releaseLoop fuel st)
  | 0, st, _ => binds_abort st.1
  | _ + 1, (_, []), _ => .refl _
  | fuel + 1, (_, _ :: _), h =>
    (releaseStep_binds h).1.trans (releaseLoop_binds fuel _ (releaseStep_binds h).2)

/-- **A release keeps what is immortal.** -/
theorem binds_rcRelease (s : Ctx) (v : Ref) : Binds s (s.rcRelease v) :=
  have h := releaseEdge_binds (s, []) v fun _ ha => absurd ha List.not_mem_nil
  h.1.trans (releaseLoop_binds _ _ h.2)

theorem binds_releaseAll (s : Ctx) (vs : List Ref) : Binds s (s.releaseAll vs) :=
  Binds.foldl id binds_rcRelease vs s

/-! ### Walks and collections -/

theorem binds_setVisited (s : Ctx) (a : ℕ) (b : Bool) : Binds s (s.setVisited a b) := .still rfl rfl rfl rfl id

theorem binds_walkPush (s : Ctx) (n : ℕ) : Binds s (s.walkPush n).1 := by
  unfold walkPush
  simp only
  generalize (if s.walkCapacity = 0 then 256 else s.walkCapacity * 2) = capacity
  split_ifs <;> exact .still rfl rfl rfl rfl id

theorem binds_cycleSearchEdge (target : ℕ) (st : Ctx × Search) (v : Ref) :
    Binds st.1 (cycleSearchEdge target st v).1 := by
  unfold cycleSearchEdge
  split
  · rename_i b
    have hpush : Binds st.1 ((st.1.setVisited b true).walkPush st.2.nodes.length).1 :=
      (binds_setVisited st.1 b true).trans (binds_walkPush _ _)
    simp only
    split_ifs
    · exact .refl _
    · exact .refl _
    · exact hpush
    · exact hpush
    · exact .refl _
  · exact .refl _

theorem binds_searchLoop (target : ℕ) : ∀ (fuel i : ℕ) (st : Ctx × Search) (budget : ℕ),
    Binds st.1 (searchLoop target fuel i st budget).1.1
  | 0, _, _, _ => .refl _
  | fuel + 1, i, st, budget => by
    unfold searchLoop
    split
    · exact .refl _
    · split
      · exact .refl _
      · simp only
        split_ifs
        · exact .refl _
        · exact (Binds.foldl Prod.fst (binds_cycleSearchEdge target) _ st).trans
            (binds_searchLoop target fuel (i + 1) _ _)

theorem binds_reaches (s : Ctx) (target : ℕ) (item : Ref) (budget : ℕ) (fromChildren : Bool) :
    Binds s (s.reaches target item budget fromChildren).1 := by
  have hstart : Binds s (s.searchStart target item fromChildren).1 := by
    unfold searchStart
    simp only
    split_ifs
    · split
      · exact Binds.foldl Prod.fst (binds_cycleSearchEdge target) _ (s, _)
      · exact .refl _
    · exact binds_cycleSearchEdge target (s, _) item
  exact (hstart.trans (binds_searchLoop target _ _ _ _)).trans
    (Binds.foldl id (fun s a => binds_setVisited s a false) _ _)

/-! ### The depth of the calls in a collection -/

theorem foldl_callDepth {α β : Type} (ctx : α → Ctx) {f : α → β → α}
    (hf : ∀ x y, (ctx (f x y)).callDepth = (ctx x).callDepth) (ys : List β) (x : α) :
    (ctx (ys.foldl f x)).callDepth = (ctx x).callDepth := by
  induction ys generalizing x with
  | nil => rfl
  | cons y ys ih => exact (ih (f x y)).trans (hf x y)

theorem gcPush_callDepth (s : Ctx) (ok : ℕ → Bool) (n : ℕ) :
    (s.gcPush ok n).1.callDepth = s.callDepth := by
  unfold gcPush
  simp only
  generalize (if s.gcCapacity = 0 then 1024 else s.gcCapacity * 2) = capacity
  split_ifs <;> rfl

theorem gcDiscoverEdge_callDepth (st : Ctx × GcScan) (v : Ref) :
    (gcDiscoverEdge st v).1.callDepth = st.1.callDepth := by
  unfold gcDiscoverEdge
  split
  · rename_i a
    simp only
    generalize (if (st.1.setVisited a true).refs (.cell a) = immortal then sizeMax
      else (st.1.setVisited a true).refs (.cell a)) = trial
    split_ifs
    · exact gcPush_callDepth _ _ _
    · exact gcPush_callDepth _ _ _
    · rfl
  · rfl

theorem discoverSources_callDepth (st : Ctx × GcScan) (sources : List ℕ) :
    (discoverSources st sources).1.callDepth = st.1.callDepth :=
  foldl_callDepth Prod.fst (fun st a => by
    split_ifs
    · rfl
    · exact gcDiscoverEdge_callDepth st _) sources st

theorem discoverLoop_callDepth : ∀ (fuel i : ℕ) (st : Ctx × GcScan),
    (discoverLoop fuel i st).1.callDepth = st.1.callDepth
  | 0, _, _ => rfl
  | fuel + 1, i, st => by
    unfold discoverLoop
    split_ifs
    · rfl
    · split
      · rfl
      · exact (discoverLoop_callDepth fuel (i + 1) _).trans
          (foldl_callDepth Prod.fst gcDiscoverEdge_callDepth _ st)

theorem gcSubtractEdge_callDepth (s : Ctx) (v : Ref) : (gcSubtractEdge s v).callDepth = s.callDepth := by
  unfold gcSubtractEdge
  split
  · split_ifs
    · rfl
    · rfl
    · rfl
  · rfl

theorem gcMarkEdge_callDepth (n : ℕ) (st : Ctx × GcScan) (v : Ref) :
    (gcMarkEdge n st v).1.callDepth = st.1.callDepth := by
  unfold gcMarkEdge
  split
  · simp only
    split_ifs
    · exact gcPush_callDepth _ _ _
    · exact gcPush_callDepth _ _ _
    · rfl
  · rfl

theorem markLoop_callDepth (n : ℕ) : ∀ (fuel : ℕ) (st : Ctx × GcScan),
    (markLoop n fuel st).1.callDepth = st.1.callDepth
  | 0, _ => rfl
  | fuel + 1, st => by
    unfold markLoop
    split_ifs
    · rfl
    · split
      · rfl
      · rename_i a rest _
        exact (markLoop_callDepth n fuel _).trans (foldl_callDepth Prod.fst (gcMarkEdge_callDepth n)
          (st.1.edges a) (st.1, { st.2 with nodes := rest }))

theorem markNode_callDepth (n : ℕ) (st : (Ctx × GcScan) × Bool) (a : ℕ) :
    (markNode n st a).1.1.callDepth = st.1.1.callDepth := by
  unfold markNode
  simp only
  split_ifs
  · rfl
  · exact (markLoop_callDepth n _ _).trans (gcPush_callDepth _ _ _)
  · exact gcPush_callDepth _ _ _
  · rfl

theorem sweepNode_callDepth (st : Ctx × List ℕ) (a : ℕ) :
    (sweepNode st a).1.callDepth = st.1.callDepth := by
  unfold sweepNode
  split_ifs
  · rfl
  · exact (binds_unlinkObject st.1 a).callDepth

theorem gcReleaseEdge_callDepth (s : Ctx) (v : Ref) : (gcReleaseEdge s v).callDepth = s.callDepth := by
  unfold gcReleaseEdge
  split
  · split_ifs
    · rfl
    · exact (binds_rcRelease s _).callDepth
  · exact (binds_rcRelease s _).callDepth
  · rfl

theorem rawFree_callDepth (s : Ctx) (a : ℕ) : (s.rawFree a).callDepth = s.callDepth := by
  unfold rawFree
  split
  · rfl
  · rfl

theorem uncheckSource_callDepth (s : Ctx) (a : ℕ) : (uncheckSource s a).callDepth = s.callDepth := by
  have hcycle : (s.onCycle a).1.callDepth = s.callDepth := (binds_reaches s a _ _ _).callDepth
  unfold uncheckSource
  simp only
  split_ifs
  · exact hcycle
  · exact hcycle

theorem collectFromSources_callDepth (s : Ctx) : s.collectFromSources.callDepth = s.callDepth := by
  have hsources := discoverSources_callDepth (s, { nodes := [], failed := false }) s.sources
  have hdiscover := (discoverLoop_callDepth (s.size + 1) 0 _).trans hsources
  unfold collectFromSources
  simp only
  generalize discoverLoop (s.size + 1) 0
    (discoverSources (s, { nodes := [], failed := false }) s.sources) = st at hdiscover ⊢
  have hsubtract := (foldl_callDepth id (fun s a => foldl_callDepth id gcSubtractEdge_callDepth (s.edges a) s)
    st.2.nodes st.1).trans hdiscover
  have hmark := (foldl_callDepth (fun x : (Ctx × GcScan) × Bool => x.1.1)
    (markNode_callDepth st.2.nodes.length) st.2.nodes
    ((st.2.nodes.foldl (fun s a => (s.edges a).foldl gcSubtractEdge s) st.1,
      { nodes := [], failed := false }), false)).trans hsubtract
  generalize (st.2.nodes.foldl (markNode st.2.nodes.length)
    ((st.2.nodes.foldl (fun s a => (s.edges a).foldl gcSubtractEdge s) st.1,
      { nodes := [], failed := false }), false)) = m at hmark ⊢
  have hclear : ∀ (t : Ctx) (nodes : List ℕ), (t.clearVisited nodes).callDepth = t.callDepth :=
    fun t nodes => foldl_callDepth id (fun s a => (binds_setVisited s a false).callDepth) nodes t
  split_ifs
  · exact (hclear _ _).trans hdiscover
  · exact (hclear _ _).trans hmark
  have hsweep := (foldl_callDepth Prod.fst sweepNode_callDepth st.2.nodes (m.1.1, [])).trans hmark
  generalize st.2.nodes.foldl sweepNode (m.1.1, []) = sw at hsweep ⊢
  have hrelease := (foldl_callDepth id (fun s a => foldl_callDepth id gcReleaseEdge_callDepth (s.edges a) s)
    sw.2 sw.1).trans hsweep
  have hfree := (foldl_callDepth id rawFree_callDepth sw.2 _).trans hrelease
  exact (foldl_callDepth id uncheckSource_callDepth _ _).trans hfree

theorem rcCollect_callDepth (s : Ctx) : s.rcCollect.callDepth = s.callDepth := by
  have hadapt : ∀ s : Ctx, s.adaptInterval.callDepth = s.callDepth := fun s => by
    unfold adaptInterval
    split_ifs
    · rfl
    · rfl
  unfold rcCollect
  by_cases hidle : (s.acyclic || s.collecting) = true
  · rw [if_pos hidle]
  rw [if_neg hidle]
  simp only
  refine (hadapt _).trans ?_
  split_ifs
  · rfl
  · exact collectFromSources_callDepth _

/-- **A collection keeps what is immortal.** What it frees has no count left. -/
theorem Inv.binds_collected {π : Policy} {O : Own} {P : Set Ref} (h : Inv π s O [] P)
    (h' : Inv π s' O [] P) (hc : Collected s s') (hdepth : s'.callDepth = s.callDepth) :
    Binds s s' := by
  refine ⟨⟨fun hs => absurd (h.ok.symm.trans hs) Bool.false_ne_true, Or.inr fun a o ho hi => ?_,
    Or.inr fun a o ho => Or.inl ⟨o, ?_, .refl o⟩⟩, (List.append_inj hc.roots (by simp)).2, hdepth⟩
  · have hi' : s'.refs (.cell a) = immortal := by
      rw [hc.refs _ (isCounted_of_immortal hi), hi]
    refine ⟨hi', o, ?_, .refl o⟩
    rcases hc.heap a with hheap | hnone
    · rw [hheap, ho]
    · rw [h'.dead a (fun hl => hl hnone)] at hi'
      exact absurd hi' (by decide)
  · rcases hc.heap a with hheap | hnone
    · rw [← hheap, ho]
    · rw [hnone] at ho
      exact absurd ho (by simp)

theorem Inv.binds_rcCollect {π : Policy} {O : Own} {P : Set Ref} (h : Inv π s O [] P)
    (hO : NonNeg O) : Binds s s.rcCollect :=
  h.binds_collected (rcCollect_inv h hO).1 (rcCollect_inv h hO).2 (rcCollect_callDepth s)

theorem Inv.binds_rcSafepoint {π : Policy} {O : Own} {P : Set Ref} (h : Inv π s O [] P)
    (hO : NonNeg O) : Binds s s.rcSafepoint := by
  unfold rcSafepoint
  split_ifs
  · exact h.binds_rcCollect hO
  · exact .refl s

end Ctx

end ShenRc.Runtime
