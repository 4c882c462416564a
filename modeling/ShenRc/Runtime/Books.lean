import ShenRc.Runtime.Walk
import ShenRc.Census.Table

/-! # The books of a context

A context counts its objects, their bytes, the captures of its closures, the slots of its graph, its
recorded cycle sources and the bytes on its free lists, each one step at a time. The books are balanced
if every counter is what a census of the heap, the source list and the free lists would find
(`Balanced`). Between the two halves of an object's end, `unlink_object` and `raw_free`, the cell is
still there but no longer counted: such cells are the list `D`. Between the two halves of its making
the counters lack `δ`.

`Books` is what every piece of runtime code keeps, whatever state it starts from: the books are
balanced, or the program has been aborted. A collection that freed a swept cell twice would be aborted
at the second time; `D` then has a cell that is not in use. -/

namespace ShenRc.Runtime

open Census

/-- The counters that follow single objects. -/
inductive Counter
  | objects
  | bytes
  | captures
  | slots
  deriving DecidableEq, Repr

def Stats.counter (st : Stats) : Counter → ℤ
  | .objects => st.liveObjects
  | .bytes => st.liveBytes
  | .captures => st.liveCaptureEdges
  | .slots => st.graphSlots

namespace Ctx

/-- The captures of a closure. -/
def captureCount : Payload → ℕ
  | .closure c => c.captures.length
  | _ => 0

/-- What a counter holds for an object, its plan apart. -/
def due : Counter → Payload → ℤ
  | .objects, _ => 1
  | .bytes, body => (cellBytes body.type + extraBytes body : ℕ)
  | .captures, body => captureCount body
  | .slots, body => graphWidth body

/-- The slot a plan counts for. -/
def planned (o : Obj) : ℤ :=
  match o.plan with
  | some e => if e.plan = .null then 0 else 1
  | none => 0

def planDue : Counter → Obj → ℤ
  | .slots, o => planned o
  | _, _ => 0

/-- What a counter holds for an object. -/
def worth (k : Counter) (o : Obj) : ℤ := due k o.body + planDue k o

theorem due_nonneg (k : Counter) (body : Payload) : 0 ≤ due k body := by
  rcases k with _ | _ | _ | _
  · exact zero_le_one
  · exact Int.natCast_nonneg _
  · exact Int.natCast_nonneg _
  · cases body <;> simp only [due, graphWidth] <;> omega

theorem planDue_nonneg (k : Counter) (o : Obj) : 0 ≤ planDue k o := by
  unfold planDue planned
  split
  · split
    · split_ifs <;> omega
    · exact le_rfl
  · exact le_rfl

theorem worth_nonneg (k : Counter) (o : Obj) : 0 ≤ worth k o :=
  add_nonneg (due_nonneg k o.body) (planDue_nonneg k o)

theorem due_le_worth (k : Counter) (o : Obj) : due k o.body ≤ worth k o :=
  le_add_of_nonneg_right (planDue_nonneg k o)

/-- **The books are balanced**, but for the cells of `D`, which are no longer counted, and for `δ`,
which is not counted yet. -/
structure Balanced (δ : Counter → ℤ) (D : List ℕ) (s : Ctx) : Prop where
  counters : ∀ k, s.stats.counter k + part (fun o => due k o.body) s.heap D + δ k =
    total (worth k) s.heap s.size
  freeBytes : s.stats.freeBytes =
    (s.freePairs.length * pairCell + s.freeValues.length * valueCell : ℕ)
  sourceCount : s.cycleSources = s.sources.length
  sourceNodup : s.sources.Nodup
  source : ∀ a ∈ s.sources, a ∉ D ∧ ∃ o, s.heap a = some o ∧ o.body.type = .vector
  nodup : D.Nodup
  inUse : ∀ a ∈ D, s.live a
  bound : ∀ a, s.live a → a < s.size
  free : ∀ a ∈ s.freePairs ++ s.freeValues, s.heap a = none ∧ a < s.size
  freeNodup : (s.freePairs ++ s.freeValues).Nodup

/-- The books are balanced, or the program has been aborted, or it will be when the cells of `D` are
freed. -/
def Books (δ : Counter → ℤ) (D : List ℕ) (s : Ctx) : Prop :=
  s.stuck = true ∨ (∃ a ∈ D, s.heap a = none) ∨ Balanced δ D s

variable {δ : Counter → ℤ} {D : List ℕ} {s s' : Ctx} {a : ℕ} {o : Obj}

/-- **No counter has underflowed** where the books are balanced. -/
theorem Balanced.counter_nonneg (h : Balanced 0 D s) (k : Counter) : 0 ≤ s.stats.counter k := by
  have hcount := h.counters k
  have hle := part_le_total (t := s.heap) (due_le_worth k) (worth_nonneg k) h.nodup
    fun a ha => h.bound a (h.inUse a ha)
  rw [Pi.zero_apply, add_zero] at hcount
  omega

/-! ### Code that leaves the books alone -/

/-- What the books are about. -/
structure Sheet where
  heap : ℕ → Option Obj
  size : ℕ
  freePairs : List ℕ
  freeValues : List ℕ
  sources : List ℕ
  cycleSources : ℤ
  counters : Counter → ℤ
  freeBytes : ℤ

def sheet (s : Ctx) : Sheet where
  heap := s.heap
  size := s.size
  freePairs := s.freePairs
  freeValues := s.freeValues
  sources := s.sources
  cycleSources := s.cycleSources
  counters := s.stats.counter
  freeBytes := s.stats.freeBytes

/-- Nothing the books are about has changed. -/
structure Quiet (s s' : Ctx) : Prop where
  sheet : s'.sheet = s.sheet
  stuck : s.stuck = true → s'.stuck = true

namespace Quiet

theorem refl (s : Ctx) : Quiet s s := ⟨rfl, id⟩

theorem trans {s'' : Ctx} (h : Quiet s s') (h' : Quiet s' s'') : Quiet s s'' :=
  ⟨h'.sheet.trans h.sheet, fun hs => h'.stuck (h.stuck hs)⟩

theorem heap (h : Quiet s s') : s'.heap = s.heap := congrArg Sheet.heap h.sheet

theorem size (h : Quiet s s') : s'.size = s.size := congrArg Sheet.size h.sheet

theorem sources (h : Quiet s s') : s'.sources = s.sources := congrArg Sheet.sources h.sheet

theorem counters (h : Quiet s s') : s'.stats.counter = s.stats.counter :=
  congrArg Sheet.counters h.sheet

theorem freeBytes (h : Quiet s s') : s'.stats.freeBytes = s.stats.freeBytes :=
  congrArg Sheet.freeBytes h.sheet

theorem freePairs (h : Quiet s s') : s'.freePairs = s.freePairs := congrArg Sheet.freePairs h.sheet

theorem freeValues (h : Quiet s s') : s'.freeValues = s.freeValues :=
  congrArg Sheet.freeValues h.sheet

theorem cycleSources (h : Quiet s s') : s'.cycleSources = s.cycleSources :=
  congrArg Sheet.cycleSources h.sheet

theorem foldl {α β : Type} (ctx : α → Ctx) {f : α → β → α} (hf : ∀ x y, Quiet (ctx x) (ctx (f x y)))
    (ys : List β) (x : α) : Quiet (ctx x) (ctx (ys.foldl f x)) := by
  induction ys generalizing x with
  | nil => exact refl _
  | cons y ys ih => exact (hf x y).trans (ih _)

theorem live (h : Quiet s s') : s'.live a ↔ s.live a := by unfold Ctx.live; rw [h.heap]

theorem balanced (h : Quiet s s') (hb : Balanced δ D s) : Balanced δ D s' where
  counters k := by rw [h.counters, h.heap, h.size]; exact hb.counters k
  freeBytes := by rw [h.freeBytes, h.freePairs, h.freeValues]; exact hb.freeBytes
  sourceCount := by rw [h.cycleSources, h.sources]; exact hb.sourceCount
  sourceNodup := by rw [h.sources]; exact hb.sourceNodup
  source := by rw [h.sources, h.heap]; exact hb.source
  nodup := hb.nodup
  inUse a ha := h.live.mpr (hb.inUse a ha)
  bound a ha := by rw [h.size]; exact hb.bound a (h.live.mp ha)
  free := by rw [h.freePairs, h.freeValues, h.heap, h.size]; exact hb.free
  freeNodup := by rw [h.freePairs, h.freeValues]; exact hb.freeNodup

/-- **What leaves the books alone keeps them.** -/
theorem books (h : Quiet s s') (hb : Books δ D s) : Books δ D s' := by
  obtain hstuck | ⟨a, ha, hdead⟩ | hb := hb
  · exact Or.inl (h.stuck hstuck)
  · exact Or.inr (Or.inl ⟨a, ha, by rw [h.heap]; exact hdead⟩)
  · exact Or.inr (Or.inr (h.balanced hb))

end Quiet

theorem quiet_rcError (s : Ctx) (message : String) : Quiet s (s.rcError message) := ⟨rfl, id⟩

theorem quiet_abort (s : Ctx) : Quiet s s.abort := ⟨rfl, fun _ => rfl⟩

theorem quiet_setRefs (s : Ctx) (r : Ref) (n : ℕ) : Quiet s (s.setRefs r n) := ⟨rfl, id⟩

theorem quiet_malloc (s : Ctx) : Quiet s s.malloc.2 := ⟨rfl, id⟩

theorem quiet_rcRetain (s : Ctx) (v : Ref) : Quiet s (s.rcRetain v) := by
  unfold rcRetain
  split_ifs
  · exact quiet_setRefs _ _ _
  · exact Quiet.refl _

theorem quiet_retainAll (s : Ctx) (vs : List Ref) : Quiet s (s.retainAll vs) :=
  Quiet.foldl id quiet_rcRetain vs s

theorem quiet_releaseEdge (st : Ctx × List ℕ) (v : Ref) : Quiet st.1 (releaseEdge st v).1 := by
  unfold releaseEdge
  split_ifs
  · exact quiet_abort _
  · exact quiet_setRefs _ _ _
  · exact quiet_setRefs _ _ _
  · exact Quiet.refl _

/-! ### Changing a cell -/

/-- **A cell in use is overwritten.** The counters may follow later: what they then lack is the
difference in worth. -/
theorem Balanced.put (hb : Balanced δ D s) (ho : s.heap a = some o) (ha : a ∉ D) {o' : Obj}
    (htype : o'.body.type = o.body.type) :
    Balanced (fun k => δ k + (worth k o' - worth k o)) D (s.put a o') := by
  have hlive : s.live a := by rw [live, ho]; exact Option.some_ne_none o
  have hlt := hb.bound a hlive
  have hiff : ∀ b, (s.put a o').live b ↔ s.live b := fun b => by
    change Function.update s.heap a (some o') b ≠ none ↔ s.heap b ≠ none
    by_cases hba : b = a
    · rw [hba, Function.update_self, ho]
      exact ⟨fun _ => Option.some_ne_none o, fun _ => Option.some_ne_none o'⟩
    · rw [Function.update_of_ne hba]
  have hother : ∀ b, s.heap b = none → (s.put a o').heap b = none := fun b hn => by
    have hba : b ≠ a := fun h => by rw [h, ho] at hn; exact absurd hn (Option.some_ne_none o)
    exact (Function.update_of_ne hba _ _).trans hn
  refine { hb with counters := fun k => ?_, source := fun b hsrc => ?_, inUse := fun b hD => ?_,
                   bound := fun b hl => ?_, free := fun b hf => ?_ }
  · have htotal := total_update (f := worth k) (t := s.heap) hlt (some o')
    have hpart := part_update (f := fun o => due k o.body) (t := s.heap) ha (some o')
    have hcount := hb.counters k
    rw [ho, value_some, value_some] at htotal
    change s.stats.counter k + part _ (Function.update s.heap a (some o')) D + _ =
      total _ (Function.update s.heap a (some o')) s.size
    rw [hpart]
    omega
  · obtain ⟨hnot, x, hx, htx⟩ := hb.source b hsrc
    refine ⟨hnot, ?_⟩
    by_cases hba : b = a
    · subst hba
      rw [ho] at hx
      exact ⟨o', Function.update_self .., by rw [htype, Option.some.inj hx, htx]⟩
    · exact ⟨x, (Function.update_of_ne hba _ _).trans hx, htx⟩
  · exact (hiff b).mpr (hb.inUse b hD)
  · exact hb.bound b ((hiff b).mp hl)
  · exact ⟨hother b (hb.free b hf).1, (hb.free b hf).2⟩

/-- The counters catch up. -/
theorem Balanced.settle {δ' : Counter → ℤ} (hb : Balanced δ D s) (st : Stats)
    (hcount : ∀ k, st.counter k + δ' k = s.stats.counter k + δ k)
    (hfree : st.freeBytes = s.stats.freeBytes) : Balanced δ' D { s with stats := st } :=
  { hb with
    counters := fun k => by
      have h := hb.counters k
      have hk := hcount k
      change st.counter k + part (fun o => due k o.body) s.heap D + δ' k =
        total (worth k) s.heap s.size
      omega
    freeBytes := hfree.trans hb.freeBytes }

theorem Books.settle {δ' : Counter → ℤ} (hb : Books δ D s) (st : Stats)
    (hcount : ∀ k, st.counter k + δ' k = s.stats.counter k + δ k)
    (hfree : st.freeBytes = s.stats.freeBytes) : Books δ' D { s with stats := st } := by
  obtain hstuck | hdead | hb := hb
  · exact Or.inl hstuck
  · exact Or.inr (Or.inl hdead)
  · exact Or.inr (Or.inr (hb.settle st hcount hfree))

/-! ### Making an object -/

theorem cellBytes_eq (t : RcType) : cellBytes t = if t = .pair then pairCell else valueCell := by
  cases t <;> rfl

/-- The free list of a class. -/
theorem takeCell_lists (s : Ctx) (t : RcType) :
    s.takeCell t = (none, s.malloc.2) ∨
    s.takeCell t = (some s.size, { s.malloc.2 with size := s.size + 1 }) ∨
    ∃ a rest, (if t = .pair then s.freePairs else s.freeValues) = a :: rest ∧
      s.takeCell t = (some a, { s with
        freePairs := if t = .pair then rest else s.freePairs
        freeValues := if t = .pair then s.freeValues else rest
        stats := { s.stats with freeBytes := s.stats.freeBytes - cellBytes t } }) := by
  unfold takeCell
  rcases hlist : (if t = .pair then s.freePairs else s.freeValues) with _ | ⟨a, rest⟩
  · by_cases hroom : (s.malloc.1 && decide (s.size < addressCells)) = true
    · exact Or.inr (Or.inl (by simp only [if_pos hroom]))
    · exact Or.inl (by simp only [if_neg hroom])
  · exact Or.inr (Or.inr ⟨a, rest, rfl, rfl⟩)

/-- **A cell is handed out.** It was not in use, and it is on no free list any more. -/
theorem Balanced.takeCell {t : RcType} (hb : Balanced δ D s) (h : s.takeCell t = (some a, s')) :
    Balanced δ D s' ∧ s'.heap = s.heap ∧ s.heap a = none ∧ a < s'.size ∧
      a ∉ s'.freePairs ++ s'.freeValues := by
  obtain h₁ | h₁ | ⟨b, rest, hlist, h₁⟩ := s.takeCell_lists t
  · rw [h₁] at h
    exact absurd (Prod.mk.inj h).1 (by simp)
  · rw [h₁] at h
    obtain ⟨h₂, rfl⟩ := Prod.mk.inj h
    obtain rfl := Option.some.inj h₂
    have hnone : s.heap s.size = none := by
      by_contra hl
      exact (hb.bound s.size hl).ne rfl
    refine ⟨?_, rfl, hnone, Nat.lt_succ_self _, fun hm => (hb.free _ hm).2.ne rfl⟩
    exact { hb with
      counters := fun k => by
        rw [show total (worth k) s.malloc.2.heap (s.size + 1) = total (worth k) s.heap s.size from
          total_succ hnone]
        exact hb.counters k
      bound := fun b hl => (hb.bound b hl).trans (Nat.lt_succ_self _)
      free := fun b hm => ⟨(hb.free b hm).1, (hb.free b hm).2.trans (Nat.lt_succ_self _)⟩ }
  · rw [h₁] at h
    obtain ⟨h₂, rfl⟩ := Prod.mk.inj h
    obtain rfl := Option.some.inj h₂
    have hperm : (s.freePairs ++ s.freeValues).Perm (b ::
        ((if t = .pair then rest else s.freePairs) ++ if t = .pair then s.freeValues else rest)) := by
      split_ifs at hlist ⊢ with ht
      · rw [hlist, List.cons_append]
      · rw [hlist]
        exact List.perm_middle
    have hnodup := List.nodup_cons.mp (hperm.nodup_iff.mp hb.freeNodup)
    have hmem := hb.free b (hperm.mem_iff.mpr (List.mem_cons_self ..))
    refine ⟨?_, rfl, hmem.1, hmem.2, hnodup.1⟩
    exact { hb with
      freeBytes := by
        have hbytes := hb.freeBytes
        simp only [cellBytes_eq]
        split_ifs at hlist ⊢ with ht
        · rw [hlist, List.length_cons] at hbytes
          simp only [pairCell, valueCell] at hbytes ⊢
          omega
        · rw [hlist, List.length_cons] at hbytes
          simp only [pairCell, valueCell] at hbytes ⊢
          omega
      free := fun c hm => hb.free c (hperm.mem_iff.mpr (List.mem_cons_of_mem _ hm))
      freeNodup := hnodup.2 }

/-- What `allocate` enters for an object of this content. -/
def entered (body : Payload) (k : Counter) : ℤ :=
  (accountNew {} body.type (extraBytes body)).counter k

/-- What the constructors enter themselves, after `allocate`. -/
def owed (body : Payload) (k : Counter) : ℤ := due k body - entered body k

theorem counter_accountNew (st : Stats) (body : Payload) (k : Counter) :
    (accountNew st body.type (extraBytes body)).counter k = st.counter k + entered body k := by
  rcases k with _ | _ | _ | _ <;> simp [Stats.counter, accountNew, entered, add_assoc]

theorem Balanced.place {s₁ : Ctx} {body : Payload} (hb : Balanced 0 D s) (hfresh : s.heap a = none)
    (hlt : a < s.size) (hfree : a ∉ s.freePairs ++ s.freeValues) (reaches : Bool)
    (hs : s₁ = s.place a body reaches (extraBytes body)) : Balanced (owed body) D s₁ := by
  subst hs
  have hne : ∀ b, s.live b → b ≠ a := fun b hl h => hl (h ▸ hfresh)
  have hother : ∀ b, b ≠ a →
      (s.place a body reaches (extraBytes body)).heap b = s.heap b := fun b hba =>
    Function.update_of_ne hba _ _
  refine { hb with counters := fun k => ?_, source := fun b hsrc => ?_, inUse := fun b hD => ?_,
                   bound := fun b hl => ?_, free := fun b hf => ?_ }
  · have htotal := total_update (f := worth k) (t := s.heap) hlt (some (fresh body reaches))
    have hpart := part_update (f := fun o => due k o.body) (t := s.heap)
      (fun hD => hne a (hb.inUse a hD) rfl) (some (fresh body reaches))
    have hcount := hb.counters k
    rw [hfresh, value_none, value_some, add_zero] at htotal
    rw [Pi.zero_apply, add_zero] at hcount
    change (accountNew s.stats body.type (extraBytes body)).counter k +
      part _ (Function.update s.heap a _) D + owed body k = total _ (Function.update s.heap a _) s.size
    have hplan : planDue k (fresh body reaches) = 0 := by cases k <;> rfl
    rw [hpart, counter_accountNew, htotal, ← hcount, worth, hplan, owed]
    change _ = _ + (due k body + 0)
    omega
  · obtain ⟨hnot, x, hx, htx⟩ := hb.source b hsrc
    have hba : b ≠ a := hne b (by rw [live, hx]; exact Option.some_ne_none x)
    exact ⟨hnot, x, (hother b hba).trans hx, htx⟩
  · rw [live, hother b (hne b (hb.inUse b hD))]
    exact hb.inUse b hD
  · by_cases hba : b = a
    · exact hba ▸ hlt
    · rw [live, hother b hba] at hl
      exact hb.bound b hl
  · have hba : b ≠ a := fun h => hfree (h ▸ hf)
    exact ⟨(hother b hba).trans (hb.free b hf).1, (hb.free b hf).2⟩

theorem takeCell_stuck {t : RcType} {x : Option ℕ} (h : s.takeCell t = (x, s')) :
    s'.stuck = s.stuck := by
  obtain h₁ | h₁ | ⟨b, rest, -, h₁⟩ := s.takeCell_lists t
  · rw [h₁] at h
    obtain ⟨-, rfl⟩ := Prod.mk.inj h
    rfl
  · rw [h₁] at h
    obtain ⟨-, rfl⟩ := Prod.mk.inj h
    rfl
  · rw [h₁] at h
    obtain ⟨-, rfl⟩ := Prod.mk.inj h
    rfl

/-- **`allocate`.** The cell it hands out was not in use. -/
theorem Books.allocate (hb : Books 0 [] s) (body : Payload) (reaches : Bool) {extra : ℕ}
    (hextra : extra = extraBytes body) :
    (∃ s', s.allocate body reaches extra = (s', .null) ∧ Books 0 [] s' ∧ s'.heap = s.heap) ∨
    ∃ a s', s.allocate body reaches extra = (s', .cell a) ∧ Books (owed body) [] s' ∧
      s'.heap = Function.update s.heap a (some (fresh body reaches)) ∧
      (s'.stuck = true ∨ s.heap a = none) := by
  subst hextra
  unfold Ctx.allocate
  by_cases hbig : sizeMax - valueCell < extraBytes body
  · exact Or.inl ⟨_, by rw [if_pos hbig], (quiet_rcError _ _).books hb, rfl⟩
  rw [if_neg hbig]
  rcases htake : s.takeCell body.type with ⟨_ | a, s₁⟩
  · have hs₁ : s₁ = s.malloc.2 := by
      obtain h | h | ⟨b, rest, -, h⟩ := s.takeCell_lists body.type
      · exact (Prod.mk.inj (htake.symm.trans h)).2
      · exact absurd (Prod.mk.inj (htake.symm.trans h)).1 (by simp)
      · exact absurd (Prod.mk.inj (htake.symm.trans h)).1 (by simp)
    subst hs₁
    exact Or.inl ⟨_, rfl, ((quiet_malloc s).trans (quiet_rcError _ _)).books hb, rfl⟩
  · have hstuck := takeCell_stuck htake
    refine Or.inr ⟨a, _, rfl, ?_⟩
    obtain hstop | ⟨b, hb, -⟩ | hb := hb
    · have hheap : s₁.heap = s.heap := by
        obtain h | h | ⟨b, rest, -, h⟩ := s.takeCell_lists body.type
        · exact absurd (Prod.mk.inj (htake.symm.trans h)).1 (by simp)
        · rw [(Prod.mk.inj (htake.symm.trans h)).2]
          rfl
        · rw [(Prod.mk.inj (htake.symm.trans h)).2]
      refine ⟨Or.inl (hstuck.trans hstop), ?_, Or.inl (hstuck.trans hstop)⟩
      change Function.update s₁.heap a _ = _
      rw [hheap]
    · exact absurd hb List.not_mem_nil
    · obtain ⟨hb₁, hheap, hnone, hlt, hfree⟩ := hb.takeCell htake
      refine ⟨Or.inr (Or.inr (hb₁.place (hheap ▸ hnone) hlt hfree reaches rfl)), ?_, Or.inr hnone⟩
      change Function.update s₁.heap a _ = _
      rw [hheap]

/-! ### The end of an object -/

theorem counter_accountDead (st : Stats) (body : Payload) (k : Counter) :
    (accountDead st body).counter k = st.counter k - due k body := by
  rcases k with _ | _ | _ | _
  · rfl
  · rfl
  · cases body <;> rfl
  · rfl

theorem counter_accountPlanRemoved (st : Stats) (o : Obj) (k : Counter) :
    (accountPlanRemoved st o).counter k = st.counter k - planDue k o := by
  unfold accountPlanRemoved
  rcases hplan : o.plan with _ | e
  · cases k <;> simp [planDue, planned, hplan]
  · by_cases he : e.plan = .null
    · cases k <;> simp [planDue, planned, hplan, he]
    · cases k <;> simp [planDue, planned, hplan, he, Stats.counter]

theorem freeBytes_accountPlanRemoved (st : Stats) (o : Obj) :
    (accountPlanRemoved st o).freeBytes = st.freeBytes := by
  unfold accountPlanRemoved
  split
  · split_ifs <;> rfl
  · rfl

/-- **`unlink_object`**: the cell is no longer counted. -/
theorem Balanced.unlinkObject (hb : Balanced δ D s) (ho : s.heap a = some o) (ha : a ∉ D) :
    Balanced δ (a :: D) (s.unlinkObject a) := by
  have hlive : s.live a := by rw [live, ho]; exact Option.some_ne_none o
  have hcount : ∀ k, (accountDead s.stats o.body).counter k +
      part (fun o => due k o.body) s.heap (a :: D) + δ k = total (worth k) s.heap s.size := fun k => by
    have h := hb.counters k
    rw [counter_accountDead, part_cons, ho, value_some]
    omega
  have hnodup := List.nodup_cons.mpr ⟨ha, hb.nodup⟩
  have huse : ∀ b ∈ a :: D, s.live b := fun b hm => by
    rcases List.mem_cons.mp hm with rfl | hm
    · exact hlive
    · exact hb.inUse b hm
  unfold Ctx.unlinkObject
  rw [ho]
  by_cases hsrc : a ∈ s.sources
  · simp only [if_pos hsrc]
    exact { hb with
      counters := hcount
      sourceCount := by
        have hlen := List.length_erase_of_mem hsrc
        have hpos := List.length_pos_of_mem hsrc
        have h := hb.sourceCount
        change s.cycleSources - 1 = ((s.sources.erase a).length : ℕ)
        omega
      sourceNodup := hb.sourceNodup.erase a
      source := fun b hm => by
        obtain ⟨hne, hm⟩ := hb.sourceNodup.mem_erase_iff.mp hm
        obtain ⟨hnot, hv⟩ := hb.source b hm
        exact ⟨fun hD => (List.mem_cons.mp hD).elim hne hnot, hv⟩
      nodup := hnodup
      inUse := huse }
  · simp only [if_neg hsrc]
    exact { hb with
      counters := hcount
      source := fun b hm => by
        obtain ⟨hnot, hv⟩ := hb.source b hm
        exact ⟨fun hD => (List.mem_cons.mp hD).elim (fun h => hsrc (h ▸ hm)) hnot, hv⟩
      nodup := hnodup
      inUse := huse }

/-- **`raw_free`**: a cell that is no longer counted goes on its free list. -/
theorem Balanced.rawFree (hb : Balanced δ (a :: D) s) : Balanced δ D (s.rawFree a) := by
  obtain ⟨o, ho⟩ := Option.ne_none_iff_exists'.mp (hb.inUse a (List.mem_cons_self ..))
  obtain ⟨hnot, hnodup⟩ := List.nodup_cons.mp hb.nodup
  have hlt := hb.bound a (hb.inUse a (List.mem_cons_self ..))
  have hfree : a ∉ s.freePairs ++ s.freeValues := fun hm =>
    hb.inUse a (List.mem_cons_self ..) (hb.free a hm).1
  have hperm : ((if o.body.type = .pair then a :: s.freePairs else s.freePairs) ++
      if o.body.type = .pair then s.freeValues else a :: s.freeValues).Perm
        (a :: (s.freePairs ++ s.freeValues)) := by
    split_ifs
    · exact .refl _
    · exact List.perm_middle
  have hdead : ∀ b, s.heap b = none → Function.update s.heap a none b = none := fun b hn => by
    by_cases hba : b = a
    · rw [hba, Function.update_self]
    · rw [Function.update_of_ne hba, hn]
  unfold Ctx.rawFree
  rw [ho]
  exact {
    counters := fun k => by
      have htotal := total_update (f := worth k) (t := s.heap) hlt none
      have hpart := part_update (f := fun o => due k o.body) (t := s.heap) hnot none
      have hcount := hb.counters k
      rw [ho, value_none, value_some, worth] at htotal
      rw [part_cons, ho, value_some] at hcount
      change (accountPlanRemoved s.stats o).counter k +
        part _ (Function.update s.heap a none) D + δ k =
          total _ (Function.update s.heap a none) s.size
      rw [hpart, counter_accountPlanRemoved]
      omega
    freeBytes := by
      have hbytes := hb.freeBytes
      simp only [freeBytes_accountPlanRemoved, cellBytes_eq]
      split_ifs
      · rw [List.length_cons]
        simp only [pairCell, valueCell] at hbytes ⊢
        omega
      · rw [List.length_cons]
        simp only [pairCell, valueCell] at hbytes ⊢
        omega
    sourceCount := hb.sourceCount
    sourceNodup := hb.sourceNodup
    source := fun b hm => by
      obtain ⟨hD, x, hx, htx⟩ := hb.source b hm
      rw [List.mem_cons, not_or] at hD
      exact ⟨hD.2, x, (Function.update_of_ne hD.1 _ _).trans hx, htx⟩
    nodup := hnodup
    inUse := fun b hm => by
      have hba : b ≠ a := fun h => hnot (h ▸ hm)
      change Function.update s.heap a none b ≠ none
      rw [Function.update_of_ne hba]
      exact hb.inUse b (List.mem_cons_of_mem _ hm)
    bound := fun b hl => by
      by_cases hba : b = a
      · exact hba ▸ hlt
      · change Function.update s.heap a none b ≠ none at hl
        rw [Function.update_of_ne hba] at hl
        exact hb.bound b hl
    free := fun b hm => by
      rcases List.mem_cons.mp (hperm.mem_iff.mp hm) with rfl | hm
      · exact ⟨Function.update_self .., hlt⟩
      · exact ⟨hdead b (hb.free b hm).1, (hb.free b hm).2⟩
    freeNodup := hperm.nodup_iff.mpr (List.nodup_cons.mpr ⟨hfree, hb.freeNodup⟩) }

end Ctx

end ShenRc.Runtime
