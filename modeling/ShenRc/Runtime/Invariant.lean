import ShenRc.Runtime.Memory
import ShenRc.Graph.Acyclic
import Mathlib.Algebra.BigOperators.Group.Finset.Piecewise
import Mathlib.Algebra.BigOperators.Intervals
import Mathlib.Algebra.Order.BigOperators.Group.Finset
import Mathlib.Tactic.Linarith
import Mathlib.Tactic.Ring

/-! # The invariant of the heap

`Inv π s O work P` is what every operation keeps. `π` is the policy the context was made with. `O`
gives for each value the references that C code owns, `work` the cells of the release cascade that
wait with count zero, and `P` the argument records an application keeps to itself until it resumes.

* **Counts** (`bal`): the count of a counted value is the number of references held by cells and by
  the context, plus the references C code owns.
* **Flags** (`flags`): a cell with an edge to a cell that reaches a vector reaches a vector.
* **Sources** (`acyc`): every cycle passes through a recorded cycle source; the edges between cells
  that are no sources form an acyclic relation.
* **Plans** (`plans`): a plan that hangs off a pair captures only leaves and cells strictly below
  that pair.
* **Work arrays** (`roomy`): the requests that grow one succeed, but for those of marking. -/

namespace ShenRc.Runtime

open Relation ShenRc.Graph

/-- How many references to each value C code owns. -/
abbrev Own := Ref → ℤ

/-- One reference. -/
def own (v : Ref) : Own := fun r => if r = v then 1 else 0

/-- One reference for every entry of a list. -/
def owns (vs : List Ref) : Own := fun r => (vs.count r : ℤ)

theorem own_apply (v r : Ref) : own v r = if r = v then 1 else 0 := rfl

@[simp] theorem own_self (v : Ref) : own v v = 1 := by simp [own]

theorem own_ne {v r : Ref} (h : r ≠ v) : own v r = 0 := by simp [own, h]

@[simp] theorem owns_nil : owns [] = 0 := by funext r; simp [owns]

theorem owns_cons (v : Ref) (vs : List Ref) : owns (v :: vs) = own v + owns vs := by
  funext r
  by_cases h : r = v
  · subst h; simp [owns, own]; omega
  · have : v ≠ r := fun h' => h h'.symm
    simp [owns, own, h, this]

theorem owns_append (us vs : List Ref) : owns (us ++ vs) = owns us + owns vs := by
  funext r; simp [owns]

@[simp] theorem owns_singleton (v : Ref) : owns [v] = own v := by rw [owns_cons, owns_nil, add_zero]

theorem owns_nonneg (vs : List Ref) (r : Ref) : 0 ≤ owns vs r := by simp [owns]

theorem owns_pos {vs : List Ref} {r : Ref} (h : r ∈ vs) : 1 ≤ owns vs r := by
  have := List.count_pos_iff.mpr h
  simp only [owns]; omega

theorem owns_zero {vs : List Ref} {r : Ref} (h : r ∉ vs) : owns vs r = 0 := by
  simp [owns, List.count_eq_zero.mpr h]

/-- A heap value: only these are counted. -/
def Ref.isHeap : Ref → Prop
  | .cell _ => True
  | .foreign _ _ => True
  | _ => False

/-- C code owns no negative number of references. -/
def NonNeg (O : Own) : Prop := ∀ r : Ref, r.isHeap → 0 ≤ O r

/-- What is settled when a context is made: whether it refuses cycles, and the requests that grow a work
array while the collector marks. -/
structure Policy where
  acyclic : Bool
  marking : ℕ → Bool

/-- A change of a cell that plans do not notice: pairs keep their fields, leaves stay leaves. -/
structure Obj.Keeps (o o' : Obj) : Prop where
  reaches : o'.reachesVector = o.reachesVector
  pair : ∀ h t, o.body = .pair h t → o'.body = .pair h t
  leaf : o.edges = [] → o.reachesVector = false → o'.edges = []

theorem Obj.Keeps.refl (o : Obj) : o.Keeps o := ⟨rfl, fun _ _ h => h, fun h _ => h⟩

namespace Ctx

def policy (s : Ctx) : Policy := ⟨s.acyclic, s.marking⟩

/-- The references the cell `a` holds on `r`. -/
def heldBy (s : Ctx) (a : ℕ) (r : Ref) : ℤ := ((s.edges a).count r : ℤ) + ((s.slots a).count r : ℤ)

/-- The references that cells and the context hold on `r`. -/
def held (s : Ctx) (r : Ref) : ℤ :=
  ∑ a ∈ Finset.range s.size, s.heldBy a r + (s.roots.count r : ℤ)

/-- An edge of the graph. -/
def Edge (s : Ctx) (u w : ℕ) : Prop := Ref.cell w ∈ s.edges u

/-- An edge between cells that are no cycle sources. -/
def FreeEdge (s : Ctx) (u w : ℕ) : Prop := s.Edge u w ∧ u ∉ s.sources ∧ w ∉ s.sources

/-- The head or the tail of a pair. -/
def PairField (s : Ctx) (u w : ℕ) : Prop :=
  ∃ o h t, s.heap u = some o ∧ o.body = .pair h t ∧ (h = .cell w ∨ t = .cell w)

/-- A value without children that reaches no vector. -/
def Leaf (s : Ctx) : Ref → Prop
  | .cell a => s.live a ∧ s.edges a = [] ∧ s.mayReachVector (.cell a) = false
  | .nil => True
  | .imm _ => True
  | _ => False

/-- `q` is a plan prepared for the body `p`: it captures leaves and cells strictly below `p`, and
reaches a vector only through one of its captures. -/
def PlanOf (s : Ctx) (p q : ℕ) : Prop :=
  ∃ o c, s.heap q = some o ∧ o.body = .closure c ∧ c.bound = [] ∧
    (o.reachesVector = true → ∃ r ∈ c.captures, s.mayReachVector r = true) ∧
    ∀ r ∈ c.captures, s.Leaf r ∨ ∃ l, r = .cell l ∧ TransGen s.PairField p l

/-- No pair has the cell as its plan. -/
def NoPlan (s : Ctx) (a : ℕ) : Prop :=
  ∀ p o e, s.heap p = some o → (∃ h t, o.body = .pair h t) → o.plan = some e → e.plan ≠ .cell a

/-- **The invariant.** -/
structure Inv (π : Policy) (s : Ctx) (O : Own) (work : List ℕ) (P : Set Ref) : Prop where
  bal : ∀ r, s.isCounted r = true → (s.refs r : ℤ) = s.held r + O r
  dead : ∀ a, ¬ s.live a → s.refs (.cell a) = 0
  zero : ∀ a, s.live a → (s.refs (.cell a) = 0 ↔ a ∈ work)
  workLive : ∀ a ∈ work, s.live a
  workNodup : work.Nodup
  bound : ∀ a, s.live a → a < s.size
  space : s.size ≤ addressCells
  bytes : s.payloadBytes ≤ 2 * addressBytes
  freeDead : ∀ a ∈ s.freePairs ++ s.freeValues, ¬ s.live a ∧ a < s.size
  freeNodup : (s.freePairs ++ s.freeValues).Nodup
  flags : ∀ u w, s.Edge u w → s.mayReachVector (.cell w) = true →
    s.mayReachVector (.cell u) = true
  vec : ∀ a o items, s.heap a = some o → o.body = .vector items → o.reachesVector = true
  srcVec : ∀ a ∈ s.sources, ∃ o items, s.heap a = some o ∧ o.body = .vector items
  srcNodup : s.sources.Nodup
  srcCount : s.cycleSources = s.sources.length
  acyc : Acyclic s.FreeEdge
  acyclicSrc : s.acyclic = true → s.sources = []
  unvisited : ∀ a, s.live a → s.visited a = false
  sym : ∀ a o t g f, s.heap a = some o → o.body = .symbol t g f → s.refs (.cell a) = immortal
  static : ∀ a ∈ s.staticClosures, s.refs (.cell a) = immortal
  plans : ∀ p q o e, s.heap p = some o → (∃ h t, o.body = .pair h t) → o.plan = some e →
    e.plan = .cell q → s.PlanOf p q
  priv : ∀ r ∈ P, O r = 1 ∧ s.held r = 0 ∧
    ∃ a o args g, r = .cell a ∧ s.heap a = some o ∧ o.body = .tail .nil args g
  ok : s.stuck = false
  idle : s.collecting = false
  roomy : ∀ k, s.scratch k = true
  policy : s.policy = π
  word : ∀ r, s.refs r ≤ immortal

/-! ### References held -/

theorem edges_of_none {s : Ctx} {a : ℕ} (h : s.heap a = none) : s.edges a = [] := by
  simp [edges, h]

theorem slots_of_none {s : Ctx} {a : ℕ} (h : s.heap a = none) : s.slots a = [] := by
  simp [slots, h]

theorem edges_of_some {s : Ctx} {a : ℕ} {o : Obj} (h : s.heap a = some o) :
    s.edges a = o.edges := by simp [edges, h]

theorem slots_of_some {s : Ctx} {a : ℕ} {o : Obj} (h : s.heap a = some o) :
    s.slots a = o.slots := by simp [slots, h]

theorem Edge.live {s : Ctx} {u w : ℕ} (h : s.Edge u w) : s.live u := by
  intro hn
  rw [Edge, edges_of_none hn] at h
  simp at h

theorem PairField.edge {s : Ctx} {u w : ℕ} (h : s.PairField u w) : s.Edge u w := by
  obtain ⟨o, hd, tl, ho, hb, hw⟩ := h
  have : Ref.cell w ∈ [hd, tl] := by rcases hw with rfl | rfl <;> simp
  rw [Edge, edges_of_some ho, Obj.edges, hb]
  cases o.plan with
  | none => exact this
  | some e =>
    simp only
    split_ifs
    · exact this
    · simp only [List.mem_cons, List.not_mem_nil, or_false] at this ⊢
      tauto

theorem heldBy_nonneg (s : Ctx) (a : ℕ) (r : Ref) : 0 ≤ s.heldBy a r := by
  unfold heldBy; positivity

theorem held_nonneg (s : Ctx) (r : Ref) : 0 ≤ s.held r := by
  unfold held
  have := Finset.sum_nonneg fun a (_ : a ∈ Finset.range s.size) => s.heldBy_nonneg a r
  omega

theorem heldBy_le_held {s : Ctx} {a : ℕ} (ha : a < s.size) (r : Ref) : s.heldBy a r ≤ s.held r := by
  have := Finset.single_le_sum (f := fun a => s.heldBy a r)
    (fun a _ => s.heldBy_nonneg a r) (Finset.mem_range.mpr ha)
  unfold held
  omega

theorem held_pos_of_edge {s : Ctx} {a : ℕ} (ha : a < s.size) {r : Ref} (h : r ∈ s.edges a) :
    1 ≤ s.held r := by
  have h1 := heldBy_le_held ha r
  have h2 := List.count_pos_iff.mpr h
  unfold heldBy at h1
  omega

theorem held_pos_of_slot {s : Ctx} {a : ℕ} (ha : a < s.size) {r : Ref} (h : r ∈ s.slots a) :
    1 ≤ s.held r := by
  have h1 := heldBy_le_held ha r
  have h2 := List.count_pos_iff.mpr h
  unfold heldBy at h1
  omega

theorem held_pos_of_root {s : Ctx} {r : Ref} (h : r ∈ s.roots) : 1 ≤ s.held r := by
  have h1 := Finset.sum_nonneg fun a (_ : a ∈ Finset.range s.size) => s.heldBy_nonneg a r
  have h2 := List.count_pos_iff.mpr h
  unfold held
  omega

/-- Only the cells below `size` and the roots matter. -/
theorem held_congr {s s' : Ctx} (hsize : s'.size = s.size) (hroots : s'.roots = s.roots) {r : Ref}
    (h : ∀ a < s.size, s'.heldBy a r = s.heldBy a r) : s'.held r = s.held r := by
  unfold held
  rw [hsize, hroots]
  congr 1
  exact Finset.sum_congr rfl fun a ha => h a (Finset.mem_range.mp ha)

/-- **The references held change with the one cell that changes.** -/
theorem held_update {s t : Ctx} (hsize : t.size = s.size) (hroots : t.roots = s.roots) {a : ℕ}
    (ha : a < s.size) {r : Ref} (h : ∀ b, b ≠ a → t.heldBy b r = s.heldBy b r) :
    t.held r = s.held r - s.heldBy a r + t.heldBy a r := by
  have hmem := Finset.mem_range.mpr ha
  have e : ∀ u : Ctx, ∑ b ∈ Finset.range s.size, u.heldBy b r =
      u.heldBy a r + ∑ b ∈ (Finset.range s.size).erase a, u.heldBy b r := fun u =>
    (Finset.add_sum_erase _ _ hmem).symm
  have e' : ∑ b ∈ (Finset.range s.size).erase a, t.heldBy b r =
      ∑ b ∈ (Finset.range s.size).erase a, s.heldBy b r :=
    Finset.sum_congr rfl fun b hb => h b (Finset.ne_of_mem_erase hb)
  unfold held
  rw [hsize, hroots, e s, e t, e']
  ring

theorem payloadBytes_congr {s s' : Ctx} (hheap : s'.heap = s.heap) (hsize : s'.size = s.size) :
    s'.payloadBytes = s.payloadBytes := by unfold payloadBytes; rw [hheap, hsize]

/-- The payload bytes change with the one cell that changes. -/
theorem payloadBytes_update {s t : Ctx} {a : ℕ} {v : Option Obj} (hsize : t.size = s.size)
    (ha : a < s.size) (hheap : t.heap = Function.update s.heap a v) :
    t.payloadBytes + ((s.heap a).map fun o => extraBytes o.body).getD 0 =
      s.payloadBytes + (v.map fun o => extraBytes o.body).getD 0 := by
  have hm := Finset.mem_range.mpr ha
  unfold payloadBytes
  rw [hsize, hheap, ← Finset.add_sum_erase _ _ hm,
    ← Finset.add_sum_erase _ (fun b => ((s.heap b).map fun o => extraBytes o.body).getD 0) hm]
  have : ∑ b ∈ (Finset.range s.size).erase a,
        ((Function.update s.heap a v b).map fun o => extraBytes o.body).getD 0 =
      ∑ b ∈ (Finset.range s.size).erase a, ((s.heap b).map fun o => extraBytes o.body).getD 0 :=
    Finset.sum_congr rfl fun b hb => by rw [Function.update_of_ne (Finset.ne_of_mem_erase hb)]
  rw [this, Function.update_self]
  ring

/-! ### Heaps that differ in one cell -/

/-- The cells but `a` are the same. -/
def SameOff (a : ℕ) (s s' : Ctx) : Prop := ∀ b, b ≠ a → s'.heap b = s.heap b

section SameOff

variable {s s' : Ctx} {a b : ℕ}

theorem sameOff_update {v : Option Obj} (h : s'.heap = Function.update s.heap a v) : SameOff a s s' :=
  fun b hb => by rw [h, Function.update_of_ne hb]

theorem SameOff.edges (h : SameOff a s s') (hb : b ≠ a) : s'.edges b = s.edges b := by
  unfold Ctx.edges
  rw [h b hb]

theorem SameOff.slots (h : SameOff a s s') (hb : b ≠ a) : s'.slots b = s.slots b := by
  unfold Ctx.slots
  rw [h b hb]

theorem SameOff.heldBy (h : SameOff a s s') (hb : b ≠ a) (r : Ref) : s'.heldBy b r = s.heldBy b r := by
  unfold Ctx.heldBy
  rw [h.edges hb, h.slots hb]

theorem SameOff.reach (h : SameOff a s s') (hb : b ≠ a) :
    s'.mayReachVector (.cell b) = s.mayReachVector (.cell b) := by
  simp only [mayReachVector, h b hb]

theorem SameOff.live (h : SameOff a s s') (hb : b ≠ a) : s'.live b ↔ s.live b := by
  rw [Ctx.live, Ctx.live, h b hb]

theorem SameOff.edge (h : SameOff a s s') (hb : b ≠ a) {w : ℕ} : s'.Edge b w ↔ s.Edge b w := by
  rw [Edge, Edge, h.edges hb]

end SameOff

/-- A pair has an edge to its plan. -/
theorem edge_of_plan {s : Ctx} {p q : ℕ} {o : Obj} {e : PlanEntry} (ho : s.heap p = some o)
    (hpair : ∃ h t, o.body = .pair h t) (he : o.plan = some e) (hq : e.plan = .cell q) :
    s.Edge p q := by
  obtain ⟨hd, tl, hb⟩ := hpair
  rw [Edge, edges_of_some ho, Obj.edges, hb, he]
  simp [hq]

/-! ### Plans under change -/

/-- A value that keeps its children and its flag stays a leaf, and a path of pairs stays a path:
a plan is still one after a change that keeps every cell it can see. -/
theorem PlanOf.keep {s s' : Ctx} {p q : ℕ} (h : s.PlanOf p q)
    (hlive : ∀ {u w}, s.Edge u w → s.live w)
    (hk : ∀ u a o, (u = q ∨ ReflTransGen s.Edge p u) → s.Edge u a → s.heap a = some o →
      ∃ o', s'.heap a = some o' ∧ o.Keeps o')
    (hp : ∀ o, s.heap p = some o → ∃ o', s'.heap p = some o' ∧ o.Keeps o')
    (hq : ∀ o, s.heap q = some o →
      ∃ o', s'.heap q = some o' ∧ o'.body = o.body ∧ o'.reachesVector = o.reachesVector) :
    s'.PlanOf p q := by
  obtain ⟨o, c, ho, hb, hbound, hflag, hcap⟩ := h
  obtain ⟨o', ho', hbo, hro⟩ := hq o ho
  have hedge : ∀ r ∈ c.captures, r ∈ s.edges q := fun r hr => by
    rw [edges_of_some ho, Obj.edges, hb]
    exact List.mem_append_left _ hr
  have hreach : ∀ r ∈ c.captures, s.mayReachVector r = true → s'.mayReachVector r = true := by
    intro r hr hv
    cases r with
    | cell a =>
      obtain ⟨oa, hoa⟩ := Option.ne_none_iff_exists'.mp (hlive (hedge _ hr))
      obtain ⟨oa', hoa', hka⟩ := hk q a oa (Or.inl rfl) (hedge _ hr) hoa
      simp only [mayReachVector, hoa, hoa', Option.map_some, Option.getD_some, hka.reaches] at hv ⊢
      exact hv
    | _ => simp [mayReachVector] at hv
  have hpair : ∀ u w, ReflTransGen s.Edge p u → s.PairField u w → s'.PairField u w := by
    rintro u w hu ⟨ou, hd, tl, hou, hbu, hw⟩
    have : ∃ ou', s'.heap u = some ou' ∧ ou.Keeps ou' := by
      rcases ReflTransGen.cases_tail hu with rfl | ⟨x, hx, hxu⟩
      · exact hp ou hou
      · exact hk x u ou (Or.inr hx) hxu hou
    obtain ⟨ou', hou', hku⟩ := this
    exact ⟨ou', hd, tl, hou', hku.pair hd tl hbu, hw⟩
  have hpath : ∀ l, TransGen s.PairField p l → TransGen s'.PairField p l := by
    intro l hl
    have : TransGen s'.PairField p l ∧ ReflTransGen s.Edge p l := by
      induction hl with
      | single hs => exact ⟨.single (hpair _ _ .refl hs), .single hs.edge⟩
      | tail _ hs ih => exact ⟨ih.1.tail (hpair _ _ ih.2 hs), ih.2.tail hs.edge⟩
    exact this.1
  refine ⟨o', c, ho', hbo.trans hb, hbound, fun hv => ?_, fun r hr => ?_⟩
  · obtain ⟨r, hr, hrv⟩ := hflag (hro ▸ hv)
    exact ⟨r, hr, hreach r hr hrv⟩
  · rcases hcap r hr with hleaf | ⟨l, rfl, hl⟩
    · left
      cases r with
      | cell a =>
        obtain ⟨hla, hea, hra⟩ := hleaf
        obtain ⟨oa, hoa⟩ := Option.ne_none_iff_exists'.mp hla
        obtain ⟨oa', hoa', hka⟩ := hk q a oa (Or.inl rfl) (hedge _ hr) hoa
        rw [edges_of_some hoa] at hea
        simp only [mayReachVector, hoa, Option.map_some, Option.getD_some] at hra
        refine ⟨by rw [live, hoa']; simp, ?_, ?_⟩
        · rw [edges_of_some hoa']; exact hka.leaf hea hra
        · simp only [mayReachVector, hoa', Option.map_some, Option.getD_some, hka.reaches, hra]
      | nil => trivial
      | imm n => trivial
      | null => exact hleaf
      | foreign t k => exact hleaf
    · exact Or.inr ⟨l, rfl, hpath l hl⟩

end Ctx

end ShenRc.Runtime
