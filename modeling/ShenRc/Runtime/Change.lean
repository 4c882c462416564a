import ShenRc.Runtime.Release
import ShenRc.Runtime.Objects

/-! # The changes of the heap keep the invariant

Every operation is made of a few changes: take a reference (`rcRetain_inv`), give one up
(`rcRelease_inv`), hand out a cell (`Inv.fresh`), rewrite a cell (`Inv.rewrite`), and change what
the context itself holds (`Inv.roots`, `Inv.saturate`). The lemmas say how each moves the references
that C code owns. A cell with one reference, owned by C code, has no edge into it (`Inv.unique`);
only such a cell, a vector or the plan of a pair is ever rewritten. -/

namespace ShenRc.Runtime

open Relation ShenRc.Graph

namespace Ctx

variable {π : Policy} {s s' : Ctx} {O O' : Own} {work : List ℕ} {P : Set Ref}

/-! ### Ownership -/

/-- Only the references to heap values matter. -/
theorem Inv.congr (h : Inv π s O work P) (hO : ∀ r : Ref, r.isHeap → O r = O' r) :
    Inv π s O' work P := by
  refine { h with bal := fun r hr => ?_, priv := fun r hr => ?_ }
  · rw [h.bal r hr, hO r (isCounted_isHeap hr)]
  · obtain ⟨h1, h2, a, o, args, g, rfl, h3⟩ := h.priv r hr
    exact ⟨by rw [← hO (.cell a) trivial, h1], h2, a, o, args, g, rfl, h3⟩

/-- **A cell with one reference, owned by C code, is held by no cell and by no root.** -/
theorem Inv.unique (h : Inv π s O work P) {a : ℕ} (h1 : s.refs (.cell a) = 1)
    (hO : 1 ≤ O (.cell a)) : s.held (.cell a) = 0 ∧ O (.cell a) = 1 := by
  have hc : s.isCounted (.cell a) = true := by simp [isCounted, h1]
  have hb := h.bal _ hc
  have hh := held_nonneg s (.cell a)
  rw [h1] at hb
  push_cast at hb
  constructor <;> omega

theorem Inv.no_edge (h : Inv π s O work P) {a : ℕ} (h0 : s.held (.cell a) = 0) (u : ℕ) :
    ¬ s.Edge u a := by
  intro he
  have := held_pos_of_edge (h.bound u he.live) he
  omega

/-- A value some cell holds is no private request. -/
theorem Inv.not_priv (h : Inv π s O work P) {u : ℕ} {r : Ref} (he : r ∈ s.edges u ∨ r ∈ s.slots u) :
    r ∉ P := by
  intro hp
  have h0 := (h.priv r hp).2.1
  have hl : s.live u := by
    intro hn
    rw [edges_of_none hn, slots_of_none hn] at he
    simp at he
  rcases he with he | he
  · have := held_pos_of_edge (h.bound u hl) he
    omega
  · have := held_pos_of_slot (h.bound u hl) he
    omega

theorem Inv.root_not_priv (h : Inv π s O work P) {r : Ref} (hr : r ∈ s.roots) : r ∉ P := by
  intro hp
  have h0 := (h.priv r hp).2.1
  have := held_pos_of_root hr
  omega

/-- A value the context or a cell holds is in use. -/
theorem Inv.live_of_held (h : Inv π s O work P) (hO : NonNeg O) {a : ℕ}
    (hh : 1 ≤ s.held (.cell a)) : s.live a := by
  by_contra hn
  have := (h.no_refs hO (h.dead a hn)).1
  omega

/-! ### Taking a reference -/

/-- **`rc_retain` takes one reference.** -/
theorem rcRetain_inv (h : Inv π s O [] P) {v : Ref} (hl : ∀ a, v = .cell a → s.live a) (hp : v ∉ P) :
    Inv π (s.rcRetain v) (O + own v) [] P := by
  have hpriv : ∀ r ∈ P, (O + own v) r = 1 ∧ s.held r = 0 ∧
      ∃ a o args g, r = .cell a ∧ s.heap a = some o ∧ o.body = .tail .nil args g := by
    intro r hr
    have hne : r ≠ v := by rintro rfl; exact hp hr
    rw [Pi.add_apply, own_ne hne, add_zero]
    exact h.priv r hr
  unfold rcRetain
  by_cases hc : s.isCounted v = true
  swap
  · rw [if_neg hc]
    refine { h with bal := fun r hr => ?_, priv := hpriv }
    have hne : r ≠ v := by rintro rfl; exact hc hr
    rw [Pi.add_apply, own_ne hne, add_zero]
    exact h.bal r hr
  rw [if_pos hc]
  have hb := h.bal v hc
  have himm : ∀ a, s.refs (.cell a) = immortal →
      (s.setRefs v (s.refs v + 1)).refs (.cell a) = immortal := by
    intro a hi
    have hne : Ref.cell a ≠ v := by
      rintro rfl
      simp [isCounted, hi] at hc
    rw [setRefs_ne s _ hne, hi]
  refine { h with
    bal := fun r hr => ?_
    dead := fun a ha => ?_
    zero := fun a ha => ?_
    sym := fun a o t g f ho hbo => himm a (h.sym a o t g f ho hbo)
    static := fun a ha => himm a (h.static a ha)
    priv := hpriv
    word := fun r => ?_ }
  · by_cases hrv : r = v
    · subst hrv
      rw [setRefs_self, Pi.add_apply, own_self]
      push_cast
      have : (s.setRefs r (s.refs r + 1)).held r = s.held r := rfl
      omega
    · rw [setRefs_ne s _ hrv, Pi.add_apply, own_ne hrv, add_zero]
      rw [isCounted_setRefs_ne s _ hrv] at hr
      exact h.bal r hr
  · have hne : Ref.cell a ≠ v := by rintro rfl; exact ha (hl a rfl)
    rw [setRefs_ne s _ hne]
    exact h.dead a ha
  · by_cases hne : Ref.cell a = v
    · rw [← hne, setRefs_self]
      simp
    · rw [setRefs_ne s _ hne]
      exact h.zero a ha
  · by_cases hrv : r = v
    · have h1 := h.word v
      have h2 : s.refs v ≠ immortal := fun hi => by
        rw [isCounted_of_immortal hi] at hc
        exact absurd hc (by simp)
      rw [hrv, setRefs_self]
      omega
    · rw [setRefs_ne s _ hrv]
      exact h.word r

@[simp] theorem rcRetain_heap (s : Ctx) (v : Ref) : (s.rcRetain v).heap = s.heap := by
  unfold rcRetain; split_ifs <;> rfl

@[simp] theorem retainAll_heap (vs : List Ref) (s : Ctx) : (s.retainAll vs).heap = s.heap := by
  unfold retainAll
  induction vs generalizing s with
  | nil => rfl
  | cons v vs ih => rw [List.foldl_cons, ih, rcRetain_heap]

/-- Retaining a list takes one reference for each entry. -/
theorem retainAll_inv : ∀ (vs : List Ref) {s : Ctx} {O : Own}, Inv π s O [] P →
    (∀ v ∈ vs, v ∉ P ∧ ∀ a, v = .cell a → s.live a) →
    Inv π (s.retainAll vs) (O + owns vs) [] P
  | [], s, O, h, _ => by simpa [retainAll] using h
  | v :: vs, s, O, h, hl => by
    have hv := hl v (List.mem_cons_self ..)
    have h1 := rcRetain_inv h hv.2 hv.1
    have h2 := retainAll_inv vs h1 fun w hw => by
      refine ⟨(hl w (List.mem_cons_of_mem _ hw)).1, fun a ha => ?_⟩
      rw [live, rcRetain_heap]
      exact (hl w (List.mem_cons_of_mem _ hw)).2 a ha
    rw [owns_cons, ← add_assoc]
    exact h2

/-! ### Handing out a cell -/

/-- The cell `a`, not in use before, has been filled with `o` and has the count `n`. -/
structure Placed (s s' : Ctx) (a : ℕ) (o : Obj) (n : ℕ) : Prop where
  dead : ¬ s.live a
  heap : s'.heap = Function.update s.heap a (some o)
  refs : s'.refs = Function.update s.refs (.cell a) n
  size : s.size ≤ s'.size
  bound : a < s'.size
  space : s.size ≤ addressCells → s'.size ≤ addressCells
  free : ∀ b, b ∈ s'.freePairs ++ s'.freeValues → b ≠ a ∧ b ∈ s.freePairs ++ s.freeValues
  nodup : (s'.freePairs ++ s'.freeValues).Nodup
  visited : s'.visited = Function.update s.visited a false
  rest : s'.sources = s.sources ∧ s'.cycleSources = s.cycleSources ∧
    s'.builtinRoots = s.builtinRoots ∧ s'.retired = s.retired ∧ s'.acyclic = s.acyclic ∧
    s'.collecting = s.collecting ∧ s'.stuck = s.stuck ∧ s'.scratch = s.scratch ∧
    s'.marking = s.marking ∧ s'.staticClosures = s.staticClosures

namespace Placed

variable {a n : ℕ} {o : Obj}

theorem same (hpl : Placed s s' a o n) : SameOff a s s' := sameOff_update hpl.heap

theorem self (hpl : Placed s s' a o n) : s'.heap a = some o := by
  rw [hpl.heap]
  exact Function.update_self ..

theorem ne_of_live (hpl : Placed s s' a o n) {b : ℕ} (hb : s.live b) : b ≠ a := by
  rintro rfl
  exact hpl.dead hb

theorem refs_ne (hpl : Placed s s' a o n) {r : Ref} (hr : r ≠ .cell a) : s'.refs r = s.refs r := by
  rw [hpl.refs, Function.update_of_ne hr]

theorem isCounted_ne (hpl : Placed s s' a o n) {r : Ref} (hr : r ≠ .cell a) :
    s'.isCounted r = s.isCounted r := by
  cases r <;> simp [isCounted, hpl.refs_ne hr]

/-- The payload bytes grow by those of the new cell. -/
theorem payload (hpl : Placed s s' a o n) (h : Inv π s O work P) :
    s'.payloadBytes = s.payloadBytes + extraBytes o.body := by
  have hnone : s.heap a = none := by simpa [live] using hpl.dead
  have e : ∑ b ∈ Finset.range s'.size, ((s.heap b).map fun o => extraBytes o.body).getD 0 =
      s.payloadBytes := by
    refine (Finset.sum_subset (Finset.range_mono hpl.size) fun b _ hb => ?_).symm
    have hd : s.heap b = none := by
      by_contra hne
      exact hb (Finset.mem_range.mpr (h.bound b hne))
    rw [hd]; rfl
  have e' := payloadBytes_update (s := { s with size := s'.size }) (t := s') rfl hpl.bound hpl.heap
  simp only [hnone, Option.map_none, Option.getD_none, Option.map_some, Option.getD_some] at e'
  change s'.payloadBytes + 0 = (∑ b ∈ Finset.range s'.size,
    ((s.heap b).map fun o => extraBytes o.body).getD 0) + _ at e'
  rw [e] at e'
  omega

/-- What the new cell holds is added to the references held. -/
theorem held (hpl : Placed s s' a o n) (h : Inv π s O work P) (r : Ref) :
    s'.held r = s.held r + (o.edges.count r : ℤ) + (o.slots.count r : ℤ) := by
  have hnone : s.heap a = none := by simpa [live] using hpl.dead
  have hbefore : s.heldBy a r = 0 := by
    unfold heldBy
    rw [edges_of_none hnone, slots_of_none hnone]
    rfl
  have hafter : s'.heldBy a r = (o.edges.count r : ℤ) + (o.slots.count r : ℤ) := by
    unfold heldBy
    rw [edges_of_some hpl.self, slots_of_some hpl.self]
  have hlarger : ∑ b ∈ Finset.range s'.size, s.heldBy b r = ∑ b ∈ Finset.range s.size, s.heldBy b r := by
    refine (Finset.sum_subset (Finset.range_mono hpl.size) fun b _ hb => ?_).symm
    have hd : s.heap b = none := by
      by_contra hne
      exact hb (Finset.mem_range.mpr (h.bound b hne))
    unfold heldBy
    rw [edges_of_none hd, slots_of_none hd]
    rfl
  obtain ⟨-, -, hbuiltin, hretired, -⟩ := hpl.rest
  have hroots : s'.roots = s.roots := by
    unfold roots
    rw [hbuiltin, hretired]
  have hupdate := held_update (s := { s with size := s'.size }) (t := s') rfl hroots hpl.bound (r := r)
    fun b hb => hpl.same.heldBy hb r
  change s'.held r = (∑ b ∈ Finset.range s'.size, s.heldBy b r + (s.roots.count r : ℤ)) -
    s.heldBy a r + s'.heldBy a r at hupdate
  rw [hupdate, hlarger, hbefore, hafter]
  unfold Ctx.held
  ring

/-- No edge leads to the new cell. -/
theorem edge (hpl : Placed s s' a o n) (h : Inv π s O work P) (hO : NonNeg O)
    (hkids : ∀ w, .cell w ∈ o.edges → s.live w) {u w : ℕ} (he : s'.Edge u w) :
    w ≠ a ∧ (u ≠ a → s.Edge u w) := by
  by_cases hu : u = a
  · subst hu
    rw [Edge, edges_of_some hpl.self] at he
    exact ⟨hpl.ne_of_live (hkids w he), fun hu => absurd rfl hu⟩
  · have he' : s.Edge u w := (hpl.same.edge hu).mp he
    exact ⟨hpl.ne_of_live (h.edge_live hO he'), fun _ => he'⟩

theorem bal (hpl : Placed s s' a o n) (h : Inv π s O work P) (hO : NonNeg O)
    (hn : n = 1 ∨ n = immortal) {r : Ref} (hr : s'.isCounted r = true) : (s'.refs r : ℤ) =
      s'.held r + (O - owns o.edges - owns o.slots + own (.cell a)) r := by
  simp only [Pi.add_apply, Pi.sub_apply, owns]
  rw [hpl.held h]
  by_cases hra : r = .cell a
  · subst hra
    obtain ⟨hheld, hown⟩ := h.no_refs hO (h.dead a hpl.dead)
    rw [own_self, hheld, hown, hpl.refs]
    rcases hn with rfl | rfl
    · simp only [Function.update_self]
      push_cast
      ring
    · simp [isCounted, hpl.refs] at hr
  · rw [hpl.isCounted_ne hra] at hr
    rw [hpl.refs_ne hra, h.bal r hr, own_ne hra]
    ring

theorem flags (hpl : Placed s s' a o n) (h : Inv π s O work P) (hO : NonNeg O)
    (hkids : ∀ w, .cell w ∈ o.edges → s.live w ∧
      (s.mayReachVector (.cell w) = true → o.reachesVector = true)) {u w : ℕ} (he : s'.Edge u w)
    (hw : s'.mayReachVector (.cell w) = true) : s'.mayReachVector (.cell u) = true := by
  obtain ⟨hw', he'⟩ := hpl.edge h hO (fun w hm => (hkids w hm).1) he
  rw [hpl.same.reach hw'] at hw
  by_cases hu : u = a
  · subst hu
    rw [Edge, edges_of_some hpl.self] at he
    simp [mayReachVector, hpl.self, (hkids w he).2 hw]
  · rw [hpl.same.reach hu]
    exact h.flags u w (he' hu) hw

theorem plans (hpl : Placed s s' a o n) (h : Inv π s O work P) (hO : NonNeg O) (hplan : o.plan = none)
    {p q : ℕ} {o' : Obj} {e : PlanEntry} (ho' : s'.heap p = some o')
    (hpair : ∃ h t, o'.body = .pair h t) (he : o'.plan = some e) (hq : e.plan = .cell q) :
    s'.PlanOf p q := by
  have hp : p ≠ a := by
    rintro rfl
    obtain rfl := Option.some.inj (hpl.self.symm.trans ho')
    rw [hplan] at he
    exact absurd he (by simp)
  rw [hpl.same p hp] at ho'
  have hkeep : ∀ b o, s.heap b = some o → s'.heap b = some o := fun b o hb =>
    (hpl.same b (hpl.ne_of_live (by rw [live, hb]; simp))).trans hb
  exact (h.plans p q o' e ho' hpair he hq).keep (h.edge_live hO)
    (fun _ b o _ _ hb => ⟨o, hkeep b o hb, Obj.Keeps.refl o⟩)
    (fun o hb => ⟨o, hkeep p o hb, Obj.Keeps.refl o⟩)
    (fun o hb => ⟨o, hkeep q o hb, rfl, rfl⟩)

theorem priv (hpl : Placed s s' a o n) (h : Inv π s O work P)
    (hp : ∀ r, r ∈ o.edges ∨ r ∈ o.slots → r ∉ P) {r : Ref} (hr : r ∈ P) :
    (O - owns o.edges - owns o.slots + own (.cell a)) r = 1 ∧ s'.held r = 0 ∧
      ∃ a o args g, r = .cell a ∧ s'.heap a = some o ∧ o.body = .tail .nil args g := by
  obtain ⟨hown, hheld, b, o', args, g, rfl, ho', hb⟩ := h.priv r hr
  have hba : b ≠ a := hpl.ne_of_live (by rw [live, ho']; simp)
  have hedges : Ref.cell b ∉ o.edges := fun hm => hp _ (Or.inl hm) hr
  have hslots : Ref.cell b ∉ o.slots := fun hm => hp _ (Or.inr hm) hr
  refine ⟨?_, ?_, b, o', args, g, rfl, (hpl.same b hba).trans ho', hb⟩
  · simp only [Pi.add_apply, Pi.sub_apply]
    rw [owns_zero hedges, owns_zero hslots, own_ne (by simpa using hba), hown]
    ring
  · rw [hpl.held h, hheld, List.count_eq_zero.mpr hedges, List.count_eq_zero.mpr hslots]
    rfl

end Placed

/-- **A cell that was not in use may be filled.** What it holds is taken from C code, which gets the
reference to the cell. -/
theorem Inv.fresh (h : Inv π s O [] P) (hO : NonNeg O) {a n : ℕ} {o : Obj} (hpl : Placed s s' a o n)
    (hn : n = 1 ∨ n = immortal) (hplan : o.plan = none)
    (hbytes : s.payloadBytes + extraBytes o.body ≤ 2 * addressBytes)
    (hkids : ∀ w, .cell w ∈ o.edges → s.live w ∧
      (s.mayReachVector (.cell w) = true → o.reachesVector = true))
    (hp : ∀ r, r ∈ o.edges ∨ r ∈ o.slots → r ∉ P)
    (hvec : ∀ items, o.body = .vector items → o.reachesVector = true)
    (hsym : ∀ t g f, o.body = .symbol t g f → n = immortal) :
    Inv π s' (O - owns o.edges - owns o.slots + own (.cell a)) [] P := by
  obtain ⟨hsrc, hcyc, -, -, hac, hcol, hst, hscr, hmarking, hstat⟩ := hpl.rest
  have hsame := hpl.same
  have hself := hpl.self
  have hedge : ∀ {u w}, s'.Edge u w → w ≠ a ∧ (u ≠ a → s.Edge u w) :=
    hpl.edge h hO fun w hm => (hkids w hm).1
  refine
    { bal := fun r hr => hpl.bal h hO hn hr
      dead := fun b hb => ?_
      zero := fun b hb => ?_
      workLive := fun b hb => absurd hb (by simp)
      workNodup := List.nodup_nil
      bound := fun b hb => ?_
      space := hpl.space h.space
      bytes := (hpl.payload h).trans_le hbytes
      freeDead := fun b hb => ?_
      freeNodup := hpl.nodup
      flags := fun u w he hw => hpl.flags h hO hkids he hw
      vec := fun b o' items ho' hb => ?_
      srcVec := fun b hb => ?_
      srcNodup := hsrc ▸ h.srcNodup
      srcCount := by rw [hsrc, hcyc]; exact h.srcCount
      acyc := ?_
      acyclicSrc := fun hac' => by rw [hsrc]; exact h.acyclicSrc (hac ▸ hac')
      unvisited := fun b hb => ?_
      sym := fun b o' t g f ho' hb => ?_
      static := fun b hb => ?_
      plans := fun p q o' e ho' hp he hq => hpl.plans h hO hplan ho' hp he hq
      priv := fun r hr => hpl.priv h hp hr
      ok := hst.trans h.ok
      idle := hcol.trans h.idle
      roomy := hscr ▸ h.roomy
      policy := by rw [Ctx.policy, hac, hmarking]; exact h.policy
      word := fun r => ?_ }
  · have hba : b ≠ a := by
      rintro rfl
      exact hb (by rw [live, hself]; simp)
    rw [hpl.refs_ne (by simpa using hba)]
    exact h.dead b fun hl => hb ((hsame.live hba).mpr hl)
  · by_cases hba : b = a
    · subst hba
      rw [hpl.refs]
      rcases hn with rfl | rfl <;> simp
    · rw [hpl.refs_ne (by simpa using hba)]
      exact h.zero b ((hsame.live hba).mp hb)
  · by_cases hba : b = a
    · rw [hba]
      exact hpl.bound
    · exact lt_of_lt_of_le (h.bound b ((hsame.live hba).mp hb)) hpl.size
  · obtain ⟨hba, hm⟩ := hpl.free b hb
    obtain ⟨hdead, hlt⟩ := h.freeDead b hm
    exact ⟨fun hl => hdead ((hsame.live hba).mp hl), lt_of_lt_of_le hlt hpl.size⟩
  · by_cases hba : b = a
    · subst hba
      obtain rfl := Option.some.inj (hself.symm.trans ho')
      exact hvec items hb
    · exact h.vec b o' items (hsame b hba ▸ ho') hb
  · rw [hsrc] at hb
    obtain ⟨o', items, ho', hbo⟩ := h.srcVec b hb
    have hba : b ≠ a := hpl.ne_of_live (by rw [live, ho']; simp)
    exact ⟨o', items, (hsame b hba).trans ho', hbo⟩
  · refine h.acyc.of_no_in (a := a) (fun x hx => (hedge hx.1).1 rfl) fun x y hx he => ?_
    exact ⟨(hedge he.1).2 hx, hsrc ▸ he.2.1, hsrc ▸ he.2.2⟩
  · rw [hpl.visited]
    by_cases hba : b = a
    · simp [hba]
    · simp [hba, h.unvisited b ((hsame.live hba).mp hb)]
  · by_cases hba : b = a
    · subst hba
      obtain rfl := Option.some.inj (hself.symm.trans ho')
      rw [hpl.refs, hsym t g f hb]
      simp
    · rw [hpl.refs_ne (by simpa using hba)]
      exact h.sym b o' t g f (hsame b hba ▸ ho') hb
  · rw [hstat] at hb
    have hi := h.static b hb
    have hba : b ≠ a := by
      rintro rfl
      rw [h.dead b hpl.dead] at hi
      exact absurd hi (by simp)
    rw [hpl.refs_ne (by simpa using hba), hi]
  · rw [hpl.refs]
    by_cases hr : r = .cell a
    · rw [hr, Function.update_self]
      rcases hn with rfl | rfl <;> decide
    · rw [Function.update_of_ne hr]
      exact h.word r

/-! ### Rewriting a cell -/

section Rewritten

variable {a : ℕ} {o o' : Obj} (ho : s.heap a = some o)
  (hs : s'.toStore = { s.toStore with heap := Function.update s.heap a (some o') })

include hs

theorem rewritten_same : SameOff a s s' := sameOff_update (by rw [hs])

theorem rewritten_self : s'.heap a = some o' := by
  rw [hs]
  exact Function.update_self ..

include ho

theorem rewritten_live (b : ℕ) : s'.live b ↔ s.live b := by
  by_cases hb : b = a
  · subst hb
    rw [live, live, ho, rewritten_self hs]
    simp
  · exact (rewritten_same hs).live hb

theorem rewritten_held (hbound : a < s.size) (r : Ref) :
    s'.held r = s.held r - (o.edges.count r + o.slots.count r : ℤ) +
      (o'.edges.count r + o'.slots.count r : ℤ) := by
  have hheld := held_update (s := s) (t := s') (by rw [hs]) (by rw [roots, roots, hs]) hbound
    (r := r) fun b hb => (rewritten_same hs).heldBy hb r
  rw [hheld]
  unfold heldBy
  rw [edges_of_some ho, slots_of_some ho, edges_of_some (rewritten_self hs),
    slots_of_some (rewritten_self hs)]

theorem rewritten_flags (h : Inv π s O work P)
    (hin : o'.reachesVector = true → o.reachesVector = true ∨ ∀ u, ¬ s.Edge u a)
    (hkids : ∀ w, w ≠ a → .cell w ∈ o'.edges → s.mayReachVector (.cell w) = true →
      o'.reachesVector = true) {u w : ℕ} (he : s'.Edge u w)
    (hw : s'.mayReachVector (.cell w) = true) : s'.mayReachVector (.cell u) = true := by
  have hsame := rewritten_same hs
  have hreach : s'.mayReachVector (.cell a) = o'.reachesVector := by
    simp [mayReachVector, rewritten_self hs]
  have hreacho : s.mayReachVector (.cell a) = o.reachesVector := by simp [mayReachVector, ho]
  by_cases hu : u = a
  · subst hu
    rw [hreach]
    rw [Edge, edges_of_some (rewritten_self hs)] at he
    by_cases hwu : w = u
    · subst hwu
      rwa [hreach] at hw
    · rw [hsame.reach hwu] at hw
      exact hkids w hwu he hw
  · have he' : s.Edge u w := (hsame.edge hu).mp he
    rw [hsame.reach hu]
    by_cases hwa : w = a
    · subst hwa
      rw [hreach] at hw
      rcases hin hw with hr | hn
      · exact h.flags u w he' (by rw [hreacho, hr])
      · exact absurd he' (hn u)
    · rw [hsame.reach hwa] at hw
      exact h.flags u w he' hw

theorem rewritten_priv (h : Inv π s O work P) (hbound : a < s.size) (hpa : .cell a ∉ P)
    (hp : ∀ r, r ∈ o'.edges ∨ r ∈ o'.slots → r ∉ P) {r : Ref} (hr : r ∈ P) :
    (O + owns o.edges + owns o.slots - owns o'.edges - owns o'.slots) r = 1 ∧ s'.held r = 0 ∧
      ∃ a o args g, r = .cell a ∧ s'.heap a = some o ∧ o.body = .tail .nil args g := by
  obtain ⟨hown, hheld, b, o1, args, g, rfl, ho1, hb⟩ := h.priv r hr
  have hba : b ≠ a := by
    rintro rfl
    exact hpa hr
  have hr1 : Ref.cell b ∉ o.edges := fun hm =>
    h.not_priv (Or.inl (by rw [edges_of_some ho]; exact hm)) hr
  have hr2 : Ref.cell b ∉ o.slots := fun hm =>
    h.not_priv (Or.inr (by rw [slots_of_some ho]; exact hm)) hr
  have hr3 : Ref.cell b ∉ o'.edges := fun hm => hp _ (Or.inl hm) hr
  have hr4 : Ref.cell b ∉ o'.slots := fun hm => hp _ (Or.inr hm) hr
  refine ⟨?_, ?_, b, o1, args, g, rfl, (rewritten_same hs b hba).trans ho1, hb⟩
  · simp only [Pi.add_apply, Pi.sub_apply]
    rw [owns_zero hr1, owns_zero hr2, owns_zero hr3, owns_zero hr4, hown]
    ring
  · rw [rewritten_held ho hs hbound, hheld, List.count_eq_zero.mpr hr1, List.count_eq_zero.mpr hr2,
      List.count_eq_zero.mpr hr3, List.count_eq_zero.mpr hr4]
    rfl

end Rewritten

/-- **A cell may be rewritten.** What it held goes to C code, what it holds then is taken from C
code. The flag of a cell that other cells hold may not be set, and the edges must stay acyclic off
the sources. -/
theorem Inv.rewrite (h : Inv π s O work P) {a : ℕ} {o o' : Obj}
    (ho : s.heap a = some o)
    (hs : s'.toStore = { s.toStore with heap := Function.update s.heap a (some o') })
    (hin : o'.reachesVector = true → o.reachesVector = true ∨ ∀ u, ¬ s.Edge u a)
    (hkids : ∀ w, w ≠ a → .cell w ∈ o'.edges → s.mayReachVector (.cell w) = true →
      o'.reachesVector = true)
    (hvec : ∀ items, o'.body = .vector items → o'.reachesVector = true)
    (hsrc : a ∈ s.sources → ∃ items, o'.body = .vector items)
    (hsym : ∀ t g f, o'.body = .symbol t g f → s.refs (.cell a) = immortal)
    (hbytes : s.payloadBytes + extraBytes o'.body ≤ 2 * addressBytes + extraBytes o.body)
    (hacyc : Acyclic s'.FreeEdge)
    (hplans : ∀ p q o e, s'.heap p = some o → (∃ h t, o.body = .pair h t) → o.plan = some e →
      e.plan = .cell q → s'.PlanOf p q)
    (hpa : .cell a ∉ P) (hp : ∀ r, r ∈ o'.edges ∨ r ∈ o'.slots → r ∉ P) :
    Inv π s' (O + owns o.edges + owns o.slots - owns o'.edges - owns o'.slots) work P := by
  have hlive : s.live a := by rw [live, ho]; simp
  have hbound := h.bound a hlive
  have hrefs : s'.refs = s.refs := by rw [hs]
  have hsources : s'.sources = s.sources := by rw [hs]
  have hsize : s'.size = s.size := by rw [hs]
  have hlists : s'.freePairs ++ s'.freeValues = s.freePairs ++ s.freeValues := by rw [hs]
  have hsame := rewritten_same hs
  have hself := rewritten_self hs
  have hlv := rewritten_live ho hs
  refine
    { bal := fun r hr => ?_
      dead := fun b hb => by rw [hrefs]; exact h.dead b fun hl => hb ((hlv b).mpr hl)
      zero := fun b hb => by rw [hrefs]; exact h.zero b ((hlv b).mp hb)
      workLive := fun b hb => (hlv b).mpr (h.workLive b hb)
      workNodup := h.workNodup
      bound := fun b hb => hsize ▸ h.bound b ((hlv b).mp hb)
      space := hsize ▸ h.space
      bytes := ?_
      freeDead := fun b hb => ?_
      freeNodup := hlists ▸ h.freeNodup
      flags := fun u w he hw => rewritten_flags ho hs h hin hkids he hw
      vec := fun b o1 items ho1 hb => ?_
      srcVec := fun b hb => ?_
      srcNodup := hsources ▸ h.srcNodup
      srcCount := by
        rw [hsources, hs]
        exact h.srcCount
      acyc := hacyc
      acyclicSrc := fun hac => by
        rw [hsources]
        exact h.acyclicSrc (by rw [hs] at hac; exact hac)
      unvisited := fun b hb => by
        rw [hs]
        exact h.unvisited b ((hlv b).mp hb)
      sym := fun b o1 t g f ho1 hb => ?_
      static := fun b hb => by
        rw [hrefs]
        exact h.static b (by rw [hs] at hb; exact hb)
      plans := hplans
      priv := fun r hr => rewritten_priv ho hs h hbound hpa hp hr
      ok := by rw [hs]; exact h.ok
      idle := by rw [hs]; exact h.idle
      roomy := by rw [hs]; exact h.roomy
      policy := by rw [Ctx.policy, hs]; exact h.policy
      word := fun r => by rw [hrefs]; exact h.word r }
  · have hcnt : s'.isCounted r = s.isCounted r := by cases r <;> simp [isCounted, hrefs]
    simp only [Pi.add_apply, Pi.sub_apply, owns]
    rw [hrefs, rewritten_held ho hs hbound, h.bal r (hcnt ▸ hr)]
    ring
  · have hpay := payloadBytes_update (s := s) (t := s') hsize hbound (by rw [hs])
    simp only [ho, Option.map_some, Option.getD_some] at hpay
    omega
  · rw [hlists] at hb
    obtain ⟨hdead, hlt⟩ := h.freeDead b hb
    exact ⟨fun hl => hdead ((hlv b).mp hl), hsize ▸ hlt⟩
  · by_cases hba : b = a
    · subst hba
      obtain rfl := Option.some.inj (hself.symm.trans ho1)
      exact hvec items hb
    · exact h.vec b o1 items (hsame b hba ▸ ho1) hb
  · rw [hsources] at hb
    by_cases hba : b = a
    · subst hba
      obtain ⟨items, hi⟩ := hsrc hb
      exact ⟨o', items, hself, hi⟩
    · obtain ⟨o1, items, ho1, hbo⟩ := h.srcVec b hb
      exact ⟨o1, items, (hsame b hba).trans ho1, hbo⟩
  · rw [hrefs]
    by_cases hba : b = a
    · subst hba
      obtain rfl := Option.some.inj (hself.symm.trans ho1)
      exact hsym t g f hb
    · exact h.sym b o1 t g f (hsame b hba ▸ ho1) hb

/-- The plans after a rewrite that plans do not notice. -/
theorem Inv.plans_keep (h : Inv π s O work P) (hO : NonNeg O) {a : ℕ} {o o' : Obj}
    (ho : s.heap a = some o) (hheap : s'.heap = Function.update s.heap a (some o'))
    (hk : o.Keeps o') (hb : o'.body = o.body ∨ s.NoPlan a)
    (hnew : ∀ q e, (∃ h t, o'.body = .pair h t) → o'.plan = some e → e.plan = .cell q →
      s.PlanOf a q ∧ q ≠ a) :
    ∀ p q o e, s'.heap p = some o → (∃ h t, o.body = .pair h t) → o.plan = some e →
      e.plan = .cell q → s'.PlanOf p q := by
  have hother : ∀ b, b ≠ a → s'.heap b = s.heap b := fun b hb => by rw [hheap]; simp [hb]
  have hself : s'.heap a = some o' := by rw [hheap]; simp
  have hkeep : ∀ b ob, s.heap b = some ob → ∃ ob', s'.heap b = some ob' ∧ ob.Keeps ob' := by
    intro b ob hob
    by_cases hba : b = a
    · subst hba
      rw [ho] at hob
      cases hob
      exact ⟨o', hself, hk⟩
    · exact ⟨ob, (hother b hba).trans hob, Obj.Keeps.refl ob⟩
  have hsame : ∀ q, q ≠ a → ∀ ob, s.heap q = some ob →
      ∃ ob', s'.heap q = some ob' ∧ ob'.body = ob.body ∧ ob'.reachesVector = ob.reachesVector :=
    fun q hq ob hob => ⟨ob, (hother q hq).trans hob, rfl, rfl⟩
  intro p q op e hop hpair he hq
  by_cases hpa : p = a
  · subst hpa
    rw [hself] at hop
    cases hop
    obtain ⟨hpq, hne⟩ := hnew q e hpair he hq
    exact hpq.keep (h.edge_live hO) (fun _ b ob _ _ => hkeep b ob) (hkeep p) (hsame q hne)
  · rw [hother p hpa] at hop
    have hpq := h.plans p q op e hop hpair he hq
    refine hpq.keep (h.edge_live hO) (fun _ b ob _ _ => hkeep b ob) (hkeep p) fun ob hob => ?_
    by_cases hqa : q = a
    · subst hqa
      rcases hb with hb | hb
      · rw [ho] at hob
        cases hob
        exact ⟨o', hself, hb, hk.reaches⟩
      · exact absurd hq (hb p op e hop hpair he)
    · exact hsame q hqa ob hob

/-- The plans after a rewrite of a cell that no cell holds. -/
theorem Inv.plans_unique (h : Inv π s O work P) (hO : NonNeg O) {a : ℕ} {o' : Obj}
    (hheap : s'.heap = Function.update s.heap a (some o')) (hin : ∀ u, ¬ s.Edge u a)
    (hnone : (∃ h t, o'.body = .pair h t) → o'.plan = none) :
    ∀ p q o e, s'.heap p = some o → (∃ h t, o.body = .pair h t) → o.plan = some e →
      e.plan = .cell q → s'.PlanOf p q := by
  have hother : ∀ b, b ≠ a → s'.heap b = s.heap b := fun b hb => by rw [hheap]; simp [hb]
  have hself : s'.heap a = some o' := by rw [hheap]; simp
  intro p q op e hop hpair he hq
  have hpa : p ≠ a := by
    rintro rfl
    rw [hself] at hop
    cases hop
    rw [hnone hpair] at he
    exact absurd he (by simp)
  rw [hother p hpa] at hop
  have hpq := h.plans p q op e hop hpair he hq
  have hqa : q ≠ a := by
    rintro rfl
    obtain ⟨hd, tl, hb⟩ := hpair
    refine hin p ?_
    rw [Edge, edges_of_some hop, Obj.edges, hb, he]
    simp [hq]
  exact hpq.keep (h.edge_live hO)
    (fun u b ob _ hu hob => by
      have hba : b ≠ a := by
        rintro rfl
        exact hin u hu
      exact ⟨ob, (hother b hba).trans hob, Obj.Keeps.refl ob⟩)
    (fun ob hob => ⟨ob, (hother p hpa).trans hob, Obj.Keeps.refl ob⟩)
    (fun ob hob => ⟨ob, (hother q hqa).trans hob, rfl, rfl⟩)

/-- The edges of a rewritten cell are those of its new contents. -/
theorem edge_of_update {a : ℕ} {o' : Obj} (hheap : s'.heap = Function.update s.heap a (some o'))
    {u w : ℕ} (he : s'.Edge u w) : (u = a ∧ .cell w ∈ o'.edges) ∨ (u ≠ a ∧ s.Edge u w) := by
  by_cases hu : u = a
  · subst hu
    rw [Edge, edges_of_some (o := o') (by rw [hheap]; simp)] at he
    exact Or.inl ⟨rfl, he⟩
  · refine Or.inr ⟨hu, ?_⟩
    unfold Edge edges at he ⊢
    rw [hheap] at he
    simpa [hu] using he

/-- No new edges, no new cycles. -/
theorem Inv.acyc_sub (h : Inv π s O work P) {a : ℕ} {o o' : Obj} (ho : s.heap a = some o)
    (hs : s'.toStore = { s.toStore with heap := Function.update s.heap a (some o') })
    (hsub : ∀ w, .cell w ∈ o'.edges → .cell w ∈ o.edges) : Acyclic s'.FreeEdge := by
  have hsrc : s'.sources = s.sources := by rw [hs]
  have hheap : s'.heap = Function.update s.heap a (some o') := by rw [hs]
  refine h.acyc.mono fun u w hf => ?_
  obtain ⟨he, hu, hw⟩ := hf
  refine ⟨?_, hsrc ▸ hu, hsrc ▸ hw⟩
  rcases edge_of_update hheap he with ⟨rfl, hm⟩ | ⟨-, he⟩
  · rw [Edge, edges_of_some ho]
    exact hsub w hm
  · exact he

/-- A cell that no cell holds may get any children but itself. -/
theorem Inv.acyc_unique (h : Inv π s O work P) {a : ℕ} {o' : Obj}
    (hs : s'.toStore = { s.toStore with heap := Function.update s.heap a (some o') })
    (hin : ∀ u, ¬ s.Edge u a) (hself : .cell a ∉ o'.edges) : Acyclic s'.FreeEdge := by
  have hsrc : s'.sources = s.sources := by rw [hs]
  have hheap : s'.heap = Function.update s.heap a (some o') := by rw [hs]
  refine h.acyc.of_no_in (a := a) (fun x hf => ?_) fun x y hx hf => ?_
  · rcases edge_of_update hheap hf.1 with ⟨-, hm⟩ | ⟨-, he⟩
    · exact hself hm
    · exact hin x he
  · rcases edge_of_update hheap hf.1 with ⟨rfl, -⟩ | ⟨-, he⟩
    · exact absurd rfl hx
    · exact ⟨he, hsrc ▸ hf.2.1, hsrc ▸ hf.2.2⟩

/-- A source may get any children. -/
theorem Inv.acyc_source (h : Inv π s O work P) {a : ℕ} {o' : Obj}
    (hs : s'.toStore = { s.toStore with heap := Function.update s.heap a (some o') })
    (ha : a ∈ s.sources) : Acyclic s'.FreeEdge := by
  have hsrc : s'.sources = s.sources := by rw [hs]
  have hheap : s'.heap = Function.update s.heap a (some o') := by rw [hs]
  refine h.acyc.mono fun u w hf => ?_
  obtain ⟨he, hu, hw⟩ := hf
  rw [hsrc] at hu hw
  rcases edge_of_update hheap he with ⟨rfl, -⟩ | ⟨-, he⟩
  · exact absurd ha hu
  · exact ⟨he, hu, hw⟩

/-! ### Roots, saturation and sources -/

/-- **The context may hold other values.** What it held goes to C code, what it holds then is taken
from C code. -/
theorem Inv.roots (h : Inv π s O work P) {b : Fin builtinCount → Ref} {r : List Ref}
    (hs : s'.toStore = { s.toStore with builtinRoots := b, retired := r })
    (hp : ∀ v, v ∈ List.ofFn b ++ r → v ∉ P) :
    Inv π s' (O + owns s.roots - owns (List.ofFn b ++ r)) work P := by
  have hheld : ∀ v, s'.held v = s.held v - (s.roots.count v : ℤ) + ((List.ofFn b ++ r).count v : ℤ) := by
    intro v
    have e1 : ∀ a, s'.heldBy a v = s.heldBy a v := fun a => by
      unfold heldBy edges slots; rw [hs]
    have e2 : s'.roots = List.ofFn b ++ r := by unfold Ctx.roots; rw [hs]
    have e3 : s'.size = s.size := by rw [hs]
    unfold held
    simp only [e1, e2, e3]
    ring
  have key : Inv π { s with builtinRoots := b, retired := r } (O + owns s.roots - owns (List.ofFn b ++ r))
      work P := by
    refine { h with bal := fun v hv => ?_, priv := fun v hv => ?_ }
    · have e : ({ s with builtinRoots := b, retired := r } : Ctx).held v = s'.held v := by
        unfold held heldBy edges slots Ctx.roots
        rw [hs]
      simp only [Pi.add_apply, Pi.sub_apply, owns]
      rw [e, hheld]
      have := h.bal v hv
      omega
    · obtain ⟨h1, h2, h3⟩ := h.priv v hv
      have hr : v ∉ s.roots := fun hm => h.root_not_priv hm hv
      have hn : v ∉ List.ofFn b ++ r := fun hm => hp v hm hv
      have e : ({ s with builtinRoots := b, retired := r } : Ctx).held v = s'.held v := by
        unfold held heldBy edges slots Ctx.roots
        rw [hs]
      refine ⟨?_, ?_, h3⟩
      · simp only [Pi.add_apply, Pi.sub_apply]
        rw [owns_zero hr, owns_zero hn, h1]
        rfl
      · rw [e, hheld, h2, List.count_eq_zero.mpr hr, List.count_eq_zero.mpr hn]
        rfl
  exact key.same hs

/-- **A count may saturate.** -/
theorem Inv.saturate (h : Inv π s O [] P) {v : Ref} (hl : ∀ a, v = .cell a → s.live a) :
    Inv π (s.setRefs v immortal) O [] P := by
  have himm : ∀ a, s.refs (.cell a) = immortal →
      (s.setRefs v immortal).refs (.cell a) = immortal := by
    intro a hi
    by_cases hne : Ref.cell a = v
    · rw [← hne, setRefs_self]
    · rw [setRefs_ne s _ hne, hi]
  refine { h with
    bal := fun r hr => ?_
    dead := fun a ha => ?_
    zero := fun a ha => ?_
    sym := fun a o t g f ho hbo => himm a (h.sym a o t g f ho hbo)
    static := fun a ha => himm a (h.static a ha)
    word := fun r => ?_ }
  · by_cases hrv : r = v
    · subst hrv
      cases r <;> simp [isCounted, setRefs] at hr
    · rw [setRefs_ne s _ hrv]
      rw [isCounted_setRefs_ne s _ hrv] at hr
      exact h.bal r hr
  · have hne : Ref.cell a ≠ v := by rintro rfl; exact ha (hl a rfl)
    rw [setRefs_ne s _ hne]
    exact h.dead a ha
  · by_cases hne : Ref.cell a = v
    · rw [← hne, setRefs_self]
      simp
    · rw [setRefs_ne s _ hne]
      exact h.zero a ha
  · by_cases hrv : r = v
    · rw [hrv, setRefs_self]
    · rw [setRefs_ne s _ hrv]
      exact h.word r

/-- Owned references to a value that is not counted do not matter. -/
theorem Inv.uncounted (h : Inv π s O work P) {v : Ref} (hv : s.isCounted v = false) (hp : v ∉ P)
    (hO : ∀ r, r ≠ v → O' r = O r) : Inv π s O' work P := by
  refine { h with bal := fun r hr => ?_, priv := fun r hr => ?_ }
  · have hne : r ≠ v := by rintro rfl; rw [hv] at hr; exact absurd hr (by simp)
    rw [hO r hne]
    exact h.bal r hr
  · have hne : r ≠ v := by rintro rfl; exact hp hr
    rw [hO r hne]
    exact h.priv r hr

/-- **A vector may become a source.** -/
theorem Inv.link (h : Inv π s O work P) {a : ℕ} {o : Obj} {items : List Ref} (ho : s.heap a = some o)
    (hb : o.body = .vector items) (ha : a ∉ s.sources) (hac : s.acyclic = false) :
    Inv π (s.sourceLink a) O work P := by
  refine { h with
    srcVec := fun b hb' => ?_
    srcNodup := List.nodup_cons.mpr ⟨ha, h.srcNodup⟩
    srcCount := by
      change s.cycleSources + 1 = ((a :: s.sources).length : ℕ)
      rw [h.srcCount, List.length_cons]
      push_cast
      rfl
    acyc := h.acyc.mono fun u w hf => ?_
    acyclicSrc := fun hc => ?_ }
  · rcases List.mem_cons.mp hb' with rfl | hm
    · exact ⟨o, items, ho, hb⟩
    · exact h.srcVec b hm
  · exact ⟨hf.1, fun hm => hf.2.1 (List.mem_cons_of_mem _ hm),
      fun hm => hf.2.2 (List.mem_cons_of_mem _ hm)⟩
  · have hc' : s.acyclic = true := hc
    rw [hac] at hc'
    exact absurd hc' (by simp)

/-- **A source that lies on no cycle need not be one.** -/
theorem Inv.unlink (h : Inv π s O work P) {a : ℕ} (hm : a ∈ s.sources)
    (ha : ¬ TransGen s.Edge a a) :
    Inv π (s.sourceUnlink a) O work P := by
  have hmem : ∀ b, b ∈ (s.sourceUnlink a).sources ↔ b ≠ a ∧ b ∈ s.sources :=
    fun b => h.srcNodup.mem_erase_iff
  refine { h with
    srcVec := fun b hb => h.srcVec b ((hmem b).mp hb).2
    srcNodup := h.srcNodup.erase _
    srcCount := by
      change s.cycleSources - 1 = ((s.sources.erase a).length : ℕ)
      have := List.length_pos_of_mem hm
      rw [h.srcCount, List.length_erase_of_mem hm]
      omega
    acyc := h.acyc.restore (v := a) (fun hc => ha ?_) fun x y hx hy hf => ?_
    acyclicSrc := fun hc => ?_ }
  · exact TransGen.mono (fun x y hf => hf.1) _ _ hc
  · refine ⟨hf.1, fun hm => hf.2.1 ?_, fun hm => hf.2.2 ?_⟩
    · exact (hmem x).mpr ⟨hx, hm⟩
    · exact (hmem y).mpr ⟨hy, hm⟩
  · have : s.sources = [] := h.acyclicSrc hc
    simp [sourceUnlink, this]

/-! ### Allocation -/

theorem takeCell_cases (h : Inv π s O work P) (t : RcType) :
    (∃ s1, s.takeCell t = (none, s1) ∧ Same s s1) ∨
    ∃ a s1, s.takeCell t = (some a, s1) ∧ ¬ s.live a ∧ a < s1.size ∧
      ∃ fp fv n, s1.toStore = { s.toStore with freePairs := fp, freeValues := fv, size := n } ∧
        s.size ≤ n ∧ n ≤ max s.size addressCells ∧ (fp ++ fv).Nodup ∧
        ∀ b ∈ fp ++ fv, b ≠ a ∧ b ∈ s.freePairs ++ s.freeValues := by
  unfold takeCell
  have hfree : ∀ a rest, (if t = .pair then s.freePairs else s.freeValues) = a :: rest →
      a ∈ s.freePairs ++ s.freeValues ∧
      ((if t = .pair then rest else s.freePairs) ++ (if t = .pair then s.freeValues else rest)).Nodup ∧
      ∀ b ∈ (if t = .pair then rest else s.freePairs) ++ (if t = .pair then s.freeValues else rest),
        b ≠ a ∧ b ∈ s.freePairs ++ s.freeValues := by
    intro a rest he
    by_cases ht : t = .pair
    · rw [if_pos ht] at he
      have hn := h.freeNodup
      rw [he, List.cons_append] at hn
      obtain ⟨h1, h2⟩ := List.nodup_cons.mp hn
      simp only [if_pos ht, he]
      refine ⟨by simp, h2, fun b hb => ⟨?_, by simp only [List.mem_append, List.mem_cons] at hb ⊢; tauto⟩⟩
      rintro rfl
      exact h1 hb
    · rw [if_neg ht] at he
      have hn := h.freeNodup
      rw [he] at hn
      obtain ⟨h1, h2⟩ := List.nodup_cons.mp (List.nodup_middle.mp hn)
      simp only [if_neg ht, he]
      refine ⟨by simp, h2, fun b hb => ⟨?_, by simp only [List.mem_append, List.mem_cons] at hb ⊢; tauto⟩⟩
      rintro rfl
      exact h1 hb
  cases he : (if t = .pair then s.freePairs else s.freeValues) with
  | cons a rest =>
    obtain ⟨h1, h2, h3⟩ := hfree a rest he
    exact Or.inr ⟨a, _, rfl, (h.freeDead a h1).1, (h.freeDead a h1).2, _, _, s.size, rfl, le_refl _,
      le_max_left _ _, h2, h3⟩
  | nil =>
    simp only
    split_ifs with hm
    · right
      have hd : ¬ s.live s.size := fun hl => absurd (h.bound _ hl) (lt_irrefl _)
      refine ⟨s.size, _, rfl, hd, Nat.lt_succ_self _, s.freePairs, s.freeValues, s.size + 1, rfl,
        Nat.le_succ _, ?_, h.freeNodup, fun b hb => ⟨?_, hb⟩⟩
      · have := (Bool.and_eq_true _ _ ▸ hm).2
        exact le_max_of_le_right (of_decide_eq_true this)
      · rintro rfl
        exact absurd (h.freeDead _ hb).2 (lt_irrefl _)
    · exact Or.inl ⟨_, rfl, rfl⟩

/-- **`allocate` fails and leaves the graph alone, or hands out a cell that was not in use.** -/
theorem allocate_cases (h : Inv π s O work P) (body : Payload) (reaches : Bool) (extra : ℕ) :
    (∃ s1, s.allocate body reaches extra = (s1, .null) ∧ Same s s1) ∨
    ∃ a s1, s.allocate body reaches extra = (s1, .cell a) ∧
      Placed s s1 a (Ctx.fresh body reaches) 1 := by
  unfold allocate
  split_ifs with he
  · exact Or.inl ⟨_, rfl, rfl⟩
  rcases takeCell_cases h body.type with ⟨s1, e, hs⟩ | ⟨a, s1, e, hd, hb, fp, fv, n, hs, hn, hn', hnd, hf⟩
  · rw [e]
    exact Or.inl ⟨_, rfl, hs.trans rfl⟩
  · rw [e]
    refine Or.inr ⟨a, _, rfl, ?_⟩
    have e1 : s1.freePairs ++ s1.freeValues = fp ++ fv := by rw [hs]
    have e2 : s1.size = n := by rw [hs]
    refine ⟨hd, ?_, ?_, ?_, hb, ?_, ?_, ?_, ?_, ?_⟩
    · simp only [place]; rw [hs]
    · simp only [place]; rw [hs]
    · simp only [place]; omega
    · simp only [place]
      intro hsp
      rw [e2]
      exact hn'.trans (max_le hsp (le_refl _))
    · simp only [place]; rw [e1]; exact hf
    · simp only [place]; rw [e1]; exact hnd
    · simp only [place]; rw [hs]
    · simp only [place]; rw [hs]; simp

end Ctx

end ShenRc.Runtime
