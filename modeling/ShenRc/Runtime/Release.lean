import ShenRc.Runtime.Invariant

/-! # The release cascade keeps the invariant

Giving up one owned reference keeps `Inv` (`rcRelease_inv`). The loop is followed one turn at a
time: a cell with count zero has no reference left (`no_refs`), so it can be removed, which hands
its edges over to C code (`remove_inv`); dropping the counts of its children then gives them up
(`releaseEdges_inv`). `Frees` records what the cascade leaves alone. -/

namespace ShenRc.Runtime

open Relation ShenRc.Graph

namespace Ctx

/-! ### States that agree on the heap -/

/-- The two states agree on the graph. -/
def Same (s s' : Ctx) : Prop := s'.toStore = s.toStore

theorem Same.refl (s : Ctx) : Same s s := rfl

theorem Same.trans {s s' s'' : Ctx} (h : Same s s') (h' : Same s' s'') : Same s s'' :=
  Eq.trans h' h

theorem same_rcError (s : Ctx) (m : String) : Same s (s.rcError m) := rfl

theorem same_malloc (s : Ctx) : Same s s.malloc.2 := rfl

/-- The invariant only sees the graph. -/
theorem Inv.same {π : Policy} {s s' : Ctx} {O : Own} {work : List ℕ} {P : Set Ref} (h : Inv π s O work P)
    (hs : Same s s') : Inv π s' O work P := by
  cases s
  cases s'
  simp only [Same] at hs
  subst hs
  exact ⟨h.bal, h.dead, h.zero, h.workLive, h.workNodup, h.bound, h.space, h.bytes, h.freeDead,
    h.freeNodup, h.flags, h.vec, h.srcVec, h.srcNodup, h.srcCount, h.acyc, h.acyclicSrc, h.unvisited,
    h.sym, h.static, h.plans, h.priv, h.ok, h.idle, h.roomy, h.policy, h.word⟩

/-! ### Counts -/

theorem isCounted_isHeap {s : Ctx} {r : Ref} (h : s.isCounted r = true) : r.isHeap := by
  cases r <;> simp_all [isCounted, Ref.isHeap]

theorem isCounted_of_zero {s : Ctx} {a : ℕ} (h : s.refs (.cell a) = 0) :
    s.isCounted (.cell a) = true := by simp [isCounted, h]

theorem isCounted_of_immortal {s : Ctx} {v : Ref} (h : s.refs v = immortal) :
    s.isCounted v = false := by cases v <;> simp [isCounted, h]

theorem setRefs_self (s : Ctx) (r : Ref) (n : ℕ) : (s.setRefs r n).refs r = n := by
  simp [setRefs]

theorem setRefs_ne (s : Ctx) {r r' : Ref} (n : ℕ) (h : r' ≠ r) :
    (s.setRefs r n).refs r' = s.refs r' := by simp [setRefs, h]

theorem isCounted_setRefs_ne (s : Ctx) {r r' : Ref} (n : ℕ) (h : r' ≠ r) :
    (s.setRefs r n).isCounted r' = s.isCounted r' := by
  cases r' <;> simp [isCounted, setRefs_ne s n h]

variable {π : Policy} {s : Ctx} {O : Own} {work : List ℕ} {P : Set Ref}

/-- **A cell with count zero has no reference left.** -/
theorem Inv.no_refs (h : Inv π s O work P) (hO : NonNeg O) {a : ℕ} (hz : s.refs (.cell a) = 0) :
    s.held (.cell a) = 0 ∧ O (.cell a) = 0 := by
  have h1 := h.bal _ (isCounted_of_zero hz)
  have h2 := held_nonneg s (.cell a)
  have h3 := hO (.cell a) trivial
  rw [hz] at h1
  push_cast at h1
  constructor <;> omega

/-- An edge leads to a cell in use. -/
theorem Inv.edge_refs (h : Inv π s O work P) (hO : NonNeg O) {u w : ℕ} (he : s.Edge u w) :
    s.refs (.cell w) ≠ 0 := by
  intro hz
  have h1 := (h.no_refs hO hz).1
  have h2 := held_pos_of_edge (h.bound u he.live) he
  omega

theorem Inv.edge_live (h : Inv π s O work P) (hO : NonNeg O) {u w : ℕ} (he : s.Edge u w) :
    s.live w := by
  by_contra hn
  exact h.edge_refs hO he (h.dead w hn)

theorem Inv.live_of_own (h : Inv π s O work P) {a : ℕ} (ho : 1 ≤ O (.cell a)) : s.live a := by
  by_contra hn
  have hz := h.dead a hn
  have h1 := h.bal _ (isCounted_of_zero hz)
  have h2 := held_nonneg s (.cell a)
  rw [hz] at h1
  push_cast at h1
  omega

/-! ### Dropping a count -/

/-- **`release_edge` gives up one owned reference.** -/
theorem releaseEdge_inv (h : Inv π s O work P) {v : Ref} (hv : v.isHeap → 1 ≤ O v) (hp : v ∉ P) :
    Inv π (releaseEdge (s, work) v).1 (O - own v) (releaseEdge (s, work) v).2 P := by
  have hpriv : ∀ r ∈ P, (O - own v) r = 1 ∧ s.held r = 0 ∧
      ∃ a o args g, r = .cell a ∧ s.heap a = some o ∧ o.body = .tail .nil args g := by
    intro r hr
    have hne : r ≠ v := by rintro rfl; exact hp hr
    rw [Pi.sub_apply, own_ne hne, sub_zero]
    exact h.priv r hr
  unfold releaseEdge
  by_cases hc : s.isCounted v = true
  swap
  · rw [if_neg hc]
    refine { h with bal := fun r hr => ?_, priv := hpriv }
    have hne : r ≠ v := by rintro rfl; exact hc hr
    rw [Pi.sub_apply, own_ne hne, sub_zero]
    exact h.bal r hr
  have hb := h.bal v hc
  have hheld := held_nonneg s v
  have hone := hv (isCounted_isHeap hc)
  have hpos : s.refs v ≠ 0 := by intro hz; rw [hz] at hb; push_cast at hb; omega
  rw [if_pos hc, if_neg hpos]
  simp only
  have hbal : ∀ r, (s.setRefs v (s.refs v - 1)).isCounted r = true →
      ((s.setRefs v (s.refs v - 1)).refs r : ℤ) = s.held r + (O - own v) r := by
    intro r hr
    by_cases hrv : r = v
    · subst hrv
      rw [setRefs_self, Pi.sub_apply, own_self]
      omega
    · rw [setRefs_ne s _ hrv, Pi.sub_apply, own_ne hrv, sub_zero]
      rw [isCounted_setRefs_ne s _ hrv] at hr
      exact h.bal r hr
  have himm : ∀ a, s.refs (.cell a) = immortal →
      (s.setRefs v (s.refs v - 1)).refs (.cell a) = immortal := by
    intro a hi
    have hne : Ref.cell a ≠ v := by
      rintro rfl
      simp [isCounted, hi] at hc
    rw [setRefs_ne s _ hne, hi]
  have hsym : ∀ a o t g f, s.heap a = some o → o.body = .symbol t g f →
      (s.setRefs v (s.refs v - 1)).refs (.cell a) = immortal :=
    fun a o t g f ho hb' => himm a (h.sym a o t g f ho hb')
  have hstatic : ∀ a ∈ s.staticClosures,
      (s.setRefs v (s.refs v - 1)).refs (.cell a) = immortal := fun a ha => himm a (h.static a ha)
  have hword : ∀ r, (s.setRefs v (s.refs v - 1)).refs r ≤ immortal := by
    intro r
    by_cases hrv : r = v
    · rw [hrv, setRefs_self]
      exact (Nat.sub_le _ _).trans (h.word v)
    · rw [setRefs_ne s _ hrv]
      exact h.word r
  cases v with
  | null => simp [isCounted] at hc
  | nil => simp [isCounted] at hc
  | imm n => simp [isCounted] at hc
  | foreign t k =>
    have hr : ∀ a, (s.setRefs (.foreign t k) (s.refs (.foreign t k) - 1)).refs (.cell a) =
        s.refs (.cell a) := fun a => setRefs_ne s _ (by simp)
    exact ⟨hbal, fun a ha => (hr a).trans (h.dead a ha),
      fun a ha => by simp only [hr]; exact h.zero a ha, h.workLive, h.workNodup, h.bound, h.space,
      h.bytes, h.freeDead, h.freeNodup, h.flags, h.vec, h.srcVec, h.srcNodup, h.srcCount, h.acyc,
      h.acyclicSrc, h.unvisited, hsym, hstatic, h.plans, hpriv, h.ok, h.idle, h.roomy, h.policy, hword⟩
  | cell a =>
    have hlive : s.live a := by
      by_contra hn
      exact hpos (h.dead a hn)
    have hnot : a ∉ work := fun hm => hpos ((h.zero a hlive).mpr hm)
    have hr : ∀ b, b ≠ a → (s.setRefs (.cell a) (s.refs (.cell a) - 1)).refs (.cell b) =
        s.refs (.cell b) := fun b hb => setRefs_ne s _ (by simpa using hb)
    refine ⟨hbal, fun b hb => ?_, fun b hb => ?_, fun b hb => ?_, ?_, h.bound, h.space, h.bytes, h.freeDead,
      h.freeNodup, h.flags, h.vec, h.srcVec, h.srcNodup, h.srcCount, h.acyc, h.acyclicSrc, h.unvisited, hsym,
      hstatic, h.plans, hpriv, h.ok, h.idle, h.roomy, h.policy, hword⟩
    · have hne : b ≠ a := by rintro rfl; exact hb hlive
      rw [hr b hne]; exact h.dead b hb
    · by_cases hba : b = a
      · subst hba
        rw [setRefs_self]
        simp only
        split_ifs with h1
        · simp [h1]
        · constructor
          · intro h0; omega
          · intro hm; exact absurd hm hnot
      · rw [hr b hba, h.zero b hb]
        split_ifs
        · simp [hba]
        · rfl
    · have : b = a ∨ b ∈ work := by
        revert hb
        simp only
        split_ifs
        · simp
        · exact Or.inr
      rcases this with rfl | hm
      · exact hlive
      · exact h.workLive b hm
    · simp only
      split_ifs
      · exact List.nodup_cons.mpr ⟨hnot, h.workNodup⟩
      · exact h.workNodup

/-- Dropping the counts of a list of values gives up one owned reference for each. -/
theorem releaseEdges_inv : ∀ (vs : List Ref) {s : Ctx} {O : Own} {work : List ℕ},
    Inv π s (O + owns vs) work P → NonNeg O → (∀ v ∈ vs, v ∉ P) →
      Inv π (vs.foldl releaseEdge (s, work)).1 O (vs.foldl releaseEdge (s, work)).2 P
  | [], s, O, work, h, _, _ => by simpa using h
  | v :: vs, s, O, work, h, hO, hp => by
    rw [List.foldl_cons]
    have h1 := releaseEdge_inv h (v := v) (fun hh => by
      have h2 := hO v hh
      have h3 := owns_nonneg vs v
      rw [owns_cons, Pi.add_apply, Pi.add_apply, own_self]
      omega) (hp v (List.mem_cons_self ..))
    have e : O + owns (v :: vs) - own v = O + owns vs := by
      rw [owns_cons, add_left_comm, add_sub_cancel_left]
    rw [e] at h1
    exact releaseEdges_inv vs h1 hO fun w hw => hp w (List.mem_cons_of_mem _ hw)

/-! ### Freeing a cell -/

theorem unlinkObject_toStore {a : ℕ} {o : Obj} (ho : s.heap a = some o) :
    (s.unlinkObject a).toStore =
      { s.toStore with
        sources := s.sources.erase a
        cycleSources := if a ∈ s.sources then s.cycleSources - 1 else s.cycleSources } := by
  unfold unlinkObject
  rw [ho]
  simp only
  split_ifs with hm
  · rfl
  · rw [List.erase_of_not_mem hm]

theorem rawFree_toStore {a : ℕ} {o : Obj} (ho : s.heap a = some o) :
    (s.rawFree a).toStore =
      { s.toStore with
        heap := Function.update s.heap a none
        refs := Function.update s.refs (.cell a) 0
        freePairs := if o.body.type = .pair then a :: s.freePairs else s.freePairs
        freeValues := if o.body.type = .pair then s.freeValues else a :: s.freeValues } := by
  unfold rawFree
  rw [ho]

/-- Dropping a count does not look at the cells. -/
theorem releaseEdge_rawFree (s : Ctx) (work : List ℕ) {v : Ref} {a : ℕ} (hne : v ≠ .cell a) :
    ((releaseEdge (s, work) v).1.rawFree a, (releaseEdge (s, work) v).2) =
      releaseEdge (s.rawFree a, work) v := by
  have hr : (s.rawFree a).refs v = s.refs v := by
    unfold rawFree
    split
    · rfl
    · simp [hne]
  have hc : (s.rawFree a).isCounted v = s.isCounted v := by cases v <;> simp [isCounted, hr]
  unfold releaseEdge
  simp only [hc, hr]
  by_cases hv : s.isCounted v = true
  swap
  · rw [if_neg hv, if_neg hv]
  rw [if_pos hv, if_pos hv]
  by_cases h0 : s.refs v = 0
  · rw [if_pos h0, if_pos h0]
    unfold rawFree abort
    cases s.heap a <;> rfl
  · rw [if_neg h0, if_neg h0]
    unfold rawFree setRefs abort
    cases s.heap a with
    | none => rfl
    | some o => simp only [Function.update_comm hne]

theorem releaseEdges_rawFree {a : ℕ} : ∀ (vs : List Ref) (s : Ctx) (work : List ℕ),
    (∀ v ∈ vs, v ≠ .cell a) →
    ((vs.foldl releaseEdge (s, work)).1.rawFree a, (vs.foldl releaseEdge (s, work)).2) =
      vs.foldl releaseEdge (s.rawFree a, work)
  | [], _, _, _ => rfl
  | v :: vs, s, work, h => by
    rw [List.foldl_cons, List.foldl_cons, ← releaseEdge_rawFree s work (h v (List.mem_cons_self ..))]
    exact releaseEdges_rawFree vs _ _ fun w hw => h w (List.mem_cons_of_mem _ hw)

@[simp] theorem releaseEdge_heap (st : Ctx × List ℕ) (v : Ref) :
    (releaseEdge st v).1.heap = st.1.heap := by
  unfold releaseEdge
  split_ifs <;> rfl

@[simp] theorem releaseEdges_heap (vs : List Ref) (st : Ctx × List ℕ) :
    (vs.foldl releaseEdge st).1.heap = st.1.heap := by
  induction vs generalizing st with
  | nil => rfl
  | cons v vs ih => rw [List.foldl_cons, ih, releaseEdge_heap]

section Removed

variable {s' : Ctx} {dead : ℕ} {o : Obj} (hz : s.refs (.cell dead) = 0) (hs : s'.toStore =
  { s.toStore with
    sources := s.sources.erase dead
    cycleSources := if dead ∈ s.sources then s.cycleSources - 1 else s.cycleSources
    heap := Function.update s.heap dead none
    refs := Function.update s.refs (.cell dead) 0
    freePairs := if o.body.type = .pair then dead :: s.freePairs else s.freePairs
    freeValues := if o.body.type = .pair then s.freeValues else dead :: s.freeValues })

section

include hs

theorem removed_same : SameOff dead s s' := sameOff_update (by rw [hs])

theorem removed_none : s'.heap dead = none := by
  rw [hs]
  exact Function.update_self ..

theorem removed_ne {a : ℕ} (ha : s'.live a) : a ≠ dead := by
  rintro rfl
  exact ha (removed_none hs)

theorem removed_notDead {a : ℕ} {o' : Obj} (ho : s'.heap a = some o') : a ≠ dead :=
  removed_ne hs (by rw [live, ho]; simp)

/-- An edge that is left does not touch the cell. -/
theorem removed_edge (hin : ∀ u, ¬ s.Edge u dead) {u w : ℕ} (he : s'.Edge u w) :
    u ≠ dead ∧ w ≠ dead ∧ s.Edge u w := by
  have hu : u ≠ dead := removed_ne hs he.live
  have he' : s.Edge u w := ((removed_same hs).edge hu).mp he
  exact ⟨hu, by rintro rfl; exact hin u he', he'⟩

/-- The cell is put in front of one of the two free lists. -/
theorem removed_lists : s'.freePairs ++ s'.freeValues = dead :: (s.freePairs ++ s.freeValues) ∨
    s'.freePairs ++ s'.freeValues = s.freePairs ++ dead :: s.freeValues := by
  rw [hs]
  by_cases hp : o.body.type = .pair
  · left
    simp [hp]
  · right
    simp [hp]

theorem removed_free {a : ℕ} (ha : a ∈ s'.freePairs ++ s'.freeValues) :
    a = dead ∨ a ∈ s.freePairs ++ s.freeValues := by
  rcases removed_lists hs with e | e
  · rw [e] at ha
    simpa using ha
  · rw [e] at ha
    simp only [List.mem_append, List.mem_cons] at ha ⊢
    tauto

theorem removed_nodup (hn : (s.freePairs ++ s.freeValues).Nodup)
    (hd : dead ∉ s.freePairs ++ s.freeValues) : (s'.freePairs ++ s'.freeValues).Nodup := by
  rcases removed_lists hs with e | e
  · rw [e]
    exact List.nodup_cons.mpr ⟨hd, hn⟩
  · rw [e]
    exact List.nodup_middle.mpr (List.nodup_cons.mpr ⟨hd, hn⟩)

theorem removed_sources (hn : s.sources.Nodup) {a : ℕ} :
    a ∈ s'.sources ↔ a ≠ dead ∧ a ∈ s.sources := by
  have hsrc : s'.sources = s.sources.erase dead := by rw [hs]
  rw [hsrc]
  exact hn.mem_erase_iff

theorem removed_count (hcount : s.cycleSources = s.sources.length) :
    s'.cycleSources = s'.sources.length := by
  have hsrc : s'.sources = s.sources.erase dead := by rw [hs]
  have hcyc : s'.cycleSources = if dead ∈ s.sources then s.cycleSources - 1 else s.cycleSources := by
    rw [hs]
  rw [hcyc, hsrc, hcount, List.length_erase]
  split_ifs with hm
  · have := List.length_pos_of_mem hm
    omega
  · rfl

theorem removed_free_edge (hn : s.sources.Nodup) (hin : ∀ u, ¬ s.Edge u dead) {u w : ℕ}
    (hf : s'.FreeEdge u w) : s.FreeEdge u w := by
  obtain ⟨he, hu, hw⟩ := hf
  obtain ⟨hud, hwd, he'⟩ := removed_edge hs hin he
  exact ⟨he', fun hm => hu ((removed_sources hs hn).mpr ⟨hud, hm⟩),
    fun hm => hw ((removed_sources hs hn).mpr ⟨hwd, hm⟩)⟩

theorem removed_held (hsize : dead < s.size) (r : Ref) :
    s'.held r = s.held r - s.heldBy dead r := by
  have hheld := held_update (s := s) (t := s') (by rw [hs]) (by rw [roots, roots, hs]) hsize
    (r := r) fun b hb => (removed_same hs).heldBy hb r
  have hzero : s'.heldBy dead r = 0 := by
    unfold heldBy
    rw [edges_of_none (removed_none hs), slots_of_none (removed_none hs)]
    rfl
  rw [hheld, hzero, add_zero]

theorem removed_plans (h : Inv π s O (dead :: work) P) (hO : NonNeg O)
    (hin : ∀ u, ¬ s.Edge u dead) {p q : ℕ} {o' : Obj} {e : PlanEntry} (ho' : s'.heap p = some o')
    (hpair : ∃ h t, o'.body = .pair h t) (he : o'.plan = some e) (hq : e.plan = .cell q) :
    s'.PlanOf p q := by
  have hp := removed_notDead hs ho'
  rw [removed_same hs p hp] at ho'
  have hpq := edge_of_plan ho' hpair he hq
  have hkeep : ∀ u a o, s.Edge u a → s.heap a = some o → s'.heap a = some o := fun u a o hu ha =>
    (removed_same hs a (by rintro rfl; exact hin u hu)).trans ha
  exact (h.plans p q o' e ho' hpair he hq).keep (h.edge_live hO)
    (fun u a o _ hu ha => ⟨o, hkeep u a o hu ha, Obj.Keeps.refl o⟩)
    (fun o ha => ⟨o, (removed_same hs p hp).trans ha, Obj.Keeps.refl o⟩)
    (fun o ha => ⟨o, hkeep p q o hpq ha, rfl, rfl⟩)

end

include hz hs in
theorem removed_refs : s'.refs = s.refs := by
  rw [hs]
  change Function.update s.refs (.cell dead) 0 = s.refs
  rw [← hz, Function.update_eq_self]

include hz hs in
theorem removed_priv (h : Inv π s O (dead :: work) P) (hO : NonNeg O) (hsize : dead < s.size) {r : Ref}
    (hr : r ∈ P) : (O + owns (s.edges dead)) r = 1 ∧ s'.held r = 0 ∧
      ∃ a o args g, r = .cell a ∧ s'.heap a = some o ∧ o.body = .tail .nil args g := by
  obtain ⟨hown, hheld, a, oa, args, g, rfl, hoa, hb⟩ := h.priv r hr
  have hd : a ≠ dead := by
    rintro rfl
    have := (h.no_refs hO hz).2
    omega
  have hle := heldBy_le_held hsize (.cell a)
  have hnonneg := heldBy_nonneg s dead (.cell a)
  refine ⟨?_, ?_, a, oa, args, g, rfl, (removed_same hs a hd).trans hoa, hb⟩
  · have hnm : Ref.cell a ∉ s.edges dead := fun hm => by
      have := held_pos_of_edge hsize hm
      omega
    rw [Pi.add_apply, owns_zero hnm, hown]
    rfl
  · rw [removed_held hs hsize]
    omega

end Removed

/-- A cell without a count is no symbol. -/
theorem Inv.slots_of_dead (h : Inv π s O work P) {dead : ℕ} (hz : s.refs (.cell dead) = 0) :
    s.slots dead = [] := by
  rcases ho : s.heap dead with _ | o
  · exact slots_of_none ho
  · rw [slots_of_some ho, Obj.slots]
    cases hb : o.body with
    | symbol t g f =>
      rw [h.sym dead o t g f ho hb] at hz
      simp at hz
    | _ => rfl

/-- **A dead cell may go.** Its edges are then references that C code owns. -/
theorem Inv.remove_inv {dead : ℕ} (h : Inv π s O (dead :: work) P) (hO : NonNeg O) :
    Inv π ((s.unlinkObject dead).rawFree dead) (O + owns (s.edges dead)) work P := by
  have hlive := h.workLive dead (List.mem_cons_self ..)
  have hz := (h.zero dead hlive).mpr (List.mem_cons_self ..)
  obtain ⟨o, ho⟩ := Option.ne_none_iff_exists'.mp hlive
  have hsize := h.bound dead hlive
  obtain ⟨hnot, hnodup⟩ := List.nodup_cons.mp h.workNodup
  have hin : ∀ u, ¬ s.Edge u dead := fun u he => h.edge_refs hO he hz
  have hs : ((s.unlinkObject dead).rawFree dead).toStore = _ :=
    rawFree_toStore (s := s.unlinkObject dead) (o := o) (by rw [unlinkObject_toStore ho]; exact ho)
  rw [unlinkObject_toStore ho] at hs
  generalize (s.unlinkObject dead).rawFree dead = s' at hs ⊢
  have hsame := removed_same hs
  have hrefs := removed_refs hz hs
  have hlv : ∀ a, s'.live a → s.live a := fun a ha => (hsame.live (removed_ne hs ha)).mp ha
  refine
    { bal := fun r hr => ?_
      dead := fun a ha => ?_
      zero := fun a ha => ?_
      workLive := fun a ha => ?_
      workNodup := hnodup
      bound := fun a ha => by rw [hs]; exact h.bound a (hlv a ha)
      space := by rw [hs]; exact h.space
      bytes := by
        have hbytes := payloadBytes_update (s := s) (t := s') (by rw [hs]) hsize (by rw [hs])
        have hle := h.bytes
        simp only [Option.map_none, Option.getD_none] at hbytes
        omega
      freeDead := fun a ha => ?_
      freeNodup := removed_nodup hs h.freeNodup fun hm => (h.freeDead dead hm).1 hlive
      flags := fun u w he hw => ?_
      vec := fun a o' items ho' hb =>
        h.vec a o' items (hsame a (removed_notDead hs ho') ▸ ho') hb
      srcVec := fun a ha => ?_
      srcNodup := by rw [hs]; exact h.srcNodup.erase _
      srcCount := removed_count hs h.srcCount
      acyc := h.acyc.mono fun u w => removed_free_edge hs h.srcNodup hin
      acyclicSrc := fun ha => ?_
      unvisited := fun a ha => by rw [hs]; exact h.unvisited a (hlv a ha)
      sym := fun a o' t g f ho' hb => ?_
      static := fun a ha => by rw [hs] at ha; rw [hrefs]; exact h.static a ha
      plans := fun p q o' e ho' hp he hq => removed_plans hs h hO hin ho' hp he hq
      priv := fun r hr => removed_priv hz hs h hO hsize hr
      ok := by rw [hs]; exact h.ok
      idle := by rw [hs]; exact h.idle
      roomy := by rw [hs]; exact h.roomy
      policy := by rw [Ctx.policy, hs]; exact h.policy
      word := fun r => by rw [hrefs]; exact h.word r }
  · have hcnt : s'.isCounted r = s.isCounted r := by cases r <;> simp [isCounted, hrefs]
    rw [hrefs, removed_held hs hsize, h.bal r (hcnt ▸ hr), Pi.add_apply, heldBy, h.slots_of_dead hz, owns]
    simp only [List.count_nil]
    push_cast
    ring
  · rw [hrefs]
    by_cases hd : a = dead
    · rw [hd, hz]
    · exact h.dead a fun hl => ha ((hsame.live hd).mpr hl)
  · have hd := removed_ne hs ha
    rw [hrefs, h.zero a (hlv a ha)]
    simp [hd]
  · have hd : a ≠ dead := by
      rintro rfl
      exact hnot ha
    exact (hsame.live hd).mpr (h.workLive a (List.mem_cons_of_mem _ ha))
  · have hsz : s'.size = s.size := by rw [hs]
    rw [hsz]
    rcases removed_free hs ha with rfl | ha
    · exact ⟨fun hl => hl (removed_none hs), hsize⟩
    · obtain ⟨hdead, hlt⟩ := h.freeDead a ha
      exact ⟨fun hl => hdead (hlv a hl), hlt⟩
  · obtain ⟨hu, hw', he'⟩ := removed_edge hs hin he
    rw [hsame.reach hw'] at hw
    rw [hsame.reach hu]
    exact h.flags u w he' hw
  · obtain ⟨hd, hm⟩ := (removed_sources hs h.srcNodup).mp ha
    obtain ⟨o', items, ho', hb⟩ := h.srcVec a hm
    exact ⟨o', items, (hsame a hd).trans ho', hb⟩
  · have hnil : s.sources = [] := h.acyclicSrc (by rw [hs] at ha; exact ha)
    rw [hs]
    change s.sources.erase dead = []
    rw [hnil]
    rfl
  · have hd := removed_notDead hs ho'
    rw [hsame a hd] at ho'
    rw [hrefs]
    exact h.sym a o' t g f ho' hb

/-! ### The whole cascade -/

/-- The number of cells in use. -/
def liveCount (s : Ctx) : ℕ := ((Finset.range s.size).filter s.live).card

theorem liveCount_le (s : Ctx) : s.liveCount ≤ s.size := by
  have := Finset.card_filter_le (Finset.range s.size) s.live
  rwa [Finset.card_range] at this

theorem liveCount_lt {s s' : Ctx} {a : ℕ} (hsize : s'.size = s.size) (ha : a < s.size)
    (hl : s.live a) (hn : ¬ s'.live a) (hsub : ∀ b, s'.live b → s.live b) :
    s'.liveCount < s.liveCount := by
  unfold liveCount
  rw [hsize]
  refine Finset.card_lt_card ⟨fun b hb => ?_, fun hsub' => ?_⟩
  · rw [Finset.mem_filter] at hb ⊢
    exact ⟨hb.1, hsub b hb.2⟩
  · have hm := hsub' (Finset.mem_filter.mpr ⟨Finset.mem_range.mpr ha, hl⟩)
    exact hn (Finset.mem_filter.mp hm).2

/-- What releasing leaves alone: a cell stays as it is or goes, and a source stays one. -/
structure Frees (s s' : Ctx) : Prop where
  heap : ∀ a, s'.heap a = s.heap a ∨ s'.heap a = none
  refs : ∀ r, s.isCounted r = false → s'.refs r = s.refs r
  refs_le : ∀ r, s'.refs r ≤ s.refs r
  sources : ∀ a, a ∈ s'.sources → a ∈ s.sources
  size : s'.size = s.size
  rest : s' = { s with
    heap := s'.heap, refs := s'.refs, freePairs := s'.freePairs, freeValues := s'.freeValues
    sources := s'.sources, cycleSources := s'.cycleSources, stuck := s'.stuck
    planCount := s'.planCount, stats := s'.stats }

theorem Frees.refl (s : Ctx) : Frees s s :=
  ⟨fun _ => Or.inl rfl, fun _ _ => rfl, fun _ => le_rfl, fun _ h => h, rfl, rfl⟩

theorem Frees.isCounted {s s' : Ctx} (h : Frees s s') {r : Ref} (hr : s.isCounted r = false) :
    s'.isCounted r = false := by
  have e := h.refs r hr
  cases r <;> simp_all [Ctx.isCounted]

theorem Frees.live {s s' : Ctx} (h : Frees s s') {a : ℕ} (ha : s'.live a) :
    s'.heap a = s.heap a := (h.heap a).resolve_right ha

theorem Frees.live' {s s' : Ctx} (h : Frees s s') {a : ℕ} (ha : s'.live a) : s.live a := by
  rw [Ctx.live, ← h.live ha]
  exact ha

theorem Frees.trans {s s' s'' : Ctx} (h : Frees s s') (h' : Frees s' s'') : Frees s s'' := by
  refine ⟨fun a => ?_, fun r hr => ?_, fun r => (h'.refs_le r).trans (h.refs_le r),
    fun a ha => h.sources a (h'.sources a ha),
    h'.size.trans h.size, ?_⟩
  · rcases h'.heap a with e | e
    · rw [e]; exact h.heap a
    · exact Or.inr e
  · rw [h'.refs r (h.isCounted hr), h.refs r hr]
  · rw [h'.rest]
    conv_lhs => rw [h.rest]

theorem releaseEdge_frees (s : Ctx) (work : List ℕ) (v : Ref) :
    Frees s (releaseEdge (s, work) v).1 := by
  unfold releaseEdge
  by_cases hc : s.isCounted v = true
  swap
  · rw [if_neg hc]
    exact Frees.refl s
  rw [if_pos hc]
  by_cases h0 : s.refs v = 0
  · rw [if_pos h0]
    exact ⟨fun _ => Or.inl rfl, fun _ _ => rfl, fun _ => le_rfl, fun _ h => h, rfl, rfl⟩
  · rw [if_neg h0]
    refine ⟨fun _ => Or.inl rfl, fun r hr => setRefs_ne s _ ?_, fun r => ?_, fun _ h => h, rfl, rfl⟩
    · rintro rfl
      rw [hr] at hc
      exact absurd hc (by simp)
    · by_cases hrv : r = v
      · rw [hrv]
        exact (setRefs_self s v _).trans_le (Nat.sub_le _ _)
      · exact (setRefs_ne s _ hrv).le

theorem releaseEdges_frees (vs : List Ref) : ∀ (s : Ctx) (work : List ℕ),
    Frees s (vs.foldl releaseEdge (s, work)).1 := by
  induction vs with
  | nil => exact fun s _ => Frees.refl s
  | cons v vs ih => exact fun s work => (releaseEdge_frees s work v).trans (ih _ _)

theorem unlinkObject_frees (s : Ctx) (a : ℕ) : Frees s (s.unlinkObject a) := by
  unfold unlinkObject
  cases s.heap a with
  | none => exact ⟨fun _ => Or.inl rfl, fun _ _ => rfl, fun _ => le_rfl, fun _ h => h, rfl, rfl⟩
  | some o =>
    simp only
    split_ifs
    · exact ⟨fun _ => Or.inl rfl, fun _ _ => rfl, fun _ => le_rfl, fun _ h => List.mem_of_mem_erase h,
        rfl, rfl⟩
    · exact ⟨fun _ => Or.inl rfl, fun _ _ => rfl, fun _ => le_rfl, fun _ h => h, rfl, rfl⟩

theorem rawFree_frees {s : Ctx} {a : ℕ} (h0 : s.isCounted (.cell a) = true) :
    Frees s (s.rawFree a) := by
  unfold rawFree
  cases s.heap a with
  | none => exact ⟨fun _ => Or.inl rfl, fun _ _ => rfl, fun _ => le_rfl, fun _ h => h, rfl, rfl⟩
  | some o =>
    refine ⟨fun b => ?_, fun r hr => ?_, fun r => ?_, fun _ h => h, rfl, rfl⟩
    · by_cases hb : b = a
      · exact Or.inr (by simp [hb])
      · exact Or.inl (by simp [hb])
    · have hne : r ≠ .cell a := by rintro rfl; rw [h0] at hr; exact absurd hr (by simp)
      simp [hne]
    · by_cases hr : r = .cell a
      · simp [hr]
      · simp [hr]

/-- **One turn keeps the invariant and frees a cell.** -/
theorem releaseStep_inv {dead : ℕ} (h : Inv π s O (dead :: work) P) (hO : NonNeg O) :
    Inv π (s.releaseStep dead work).1 O (s.releaseStep dead work).2 P ∧
      Frees s (s.releaseStep dead work).1 ∧ ¬ (s.releaseStep dead work).1.live dead := by
  have hlive := h.workLive dead (List.mem_cons_self ..)
  have hz := (h.zero dead hlive).mpr (List.mem_cons_self ..)
  obtain ⟨o, ho⟩ := Option.ne_none_iff_exists'.mp hlive
  have hsize := h.bound dead hlive
  have hkid : ∀ v ∈ s.edges dead, v ≠ .cell dead := by
    rintro v hv rfl
    exact h.edge_refs hO hv hz
  have hpriv : ∀ v ∈ s.edges dead, v ∉ P := by
    intro v hv hp
    have := held_pos_of_edge hsize hv
    rw [(h.priv v hp).2.1] at this
    omega
  have e : s.releaseStep dead work =
      (s.edges dead).foldl releaseEdge ((s.unlinkObject dead).rawFree dead, work) :=
    releaseEdges_rawFree _ _ _ hkid
  have hn : ¬ ((s.unlinkObject dead).rawFree dead).live dead := by
    have := congrArg Store.heap (rawFree_toStore (s := s.unlinkObject dead) (a := dead) (o := o)
      (by rw [unlinkObject_toStore ho]; exact ho))
    rw [live, this]
    simp
  have hc : (s.unlinkObject dead).isCounted (.cell dead) = true := by
    unfold isCounted
    rw [unlinkObject_toStore ho]
    simp [hz]
  rw [e]
  refine ⟨releaseEdges_inv _ (h.remove_inv hO) hO hpriv, ?_, ?_⟩
  · exact ((unlinkObject_frees s dead).trans (rawFree_frees hc)).trans (releaseEdges_frees _ _ _)
  · rw [live, releaseEdges_heap]
    exact hn

/-- **The loop empties the work list**, given more turns than there are cells in use. -/
theorem releaseLoop_inv : ∀ (fuel : ℕ) {s : Ctx} {work : List ℕ}, Inv π s O work P → NonNeg O →
    s.liveCount < fuel → Inv π (releaseLoop fuel (s, work)) O [] P ∧
      Frees s (releaseLoop fuel (s, work))
  | 0, _, _, _, _, hf => absurd hf (Nat.not_lt_zero _)
  | _ + 1, s, [], h, _, _ => ⟨h, Frees.refl s⟩
  | fuel + 1, s, dead :: work, h, hO, hf => by
    obtain ⟨h1, h2, h3⟩ := releaseStep_inv h hO
    have hlive := h.workLive dead (List.mem_cons_self ..)
    have hlt := liveCount_lt h2.size (h.bound dead hlive) hlive h3 fun b => h2.live'
    obtain ⟨h4, h5⟩ := releaseLoop_inv fuel h1 hO (by omega)
    exact ⟨h4, h2.trans h5⟩

/-- **`rc_release` gives up one owned reference.** -/
theorem rcRelease_inv (h : Inv π s O [] P) {v : Ref} (hO : NonNeg (O - own v)) (hp : v ∉ P) :
    Inv π (s.rcRelease v) (O - own v) [] P := by
  have hv : v.isHeap → 1 ≤ O v := fun hh => by
    have := hO v hh
    rw [Pi.sub_apply, own_self] at this
    omega
  have h1 := releaseEdge_inv h hv hp
  have h2 := (releaseEdge_frees s [] v).size
  have h3 := liveCount_le (releaseEdge (s, []) v).1
  exact (releaseLoop_inv _ h1 hO (by omega)).1

theorem rcRelease_frees (h : Inv π s O [] P) {v : Ref} (hO : NonNeg (O - own v)) (hp : v ∉ P) :
    Frees s (s.rcRelease v) := by
  have hv : v.isHeap → 1 ≤ O v := fun hh => by
    have := hO v hh
    rw [Pi.sub_apply, own_self] at this
    omega
  have h1 := releaseEdge_inv h hv hp
  have h2 := releaseEdge_frees s [] v
  have h3 := liveCount_le (releaseEdge (s, []) v).1
  exact h2.trans (releaseLoop_inv _ h1 hO (by have := h2.size; omega)).2

/-- Releasing a list gives up one owned reference for each entry. -/
theorem releaseAll_inv : ∀ (vs : List Ref) {s : Ctx} {O : Own}, Inv π s (O + owns vs) [] P →
    NonNeg O → (∀ v ∈ vs, v ∉ P) → Inv π (s.releaseAll vs) O [] P ∧ Frees s (s.releaseAll vs)
  | [], s, O, h, _, _ => ⟨by simpa [releaseAll] using h, Frees.refl s⟩
  | v :: vs, s, O, h, hO, hp => by
    have e : O + owns (v :: vs) - own v = O + owns vs := by
      rw [owns_cons, add_left_comm, add_sub_cancel_left]
    have hO' : NonNeg (O + owns (v :: vs) - own v) := fun r hr => by
      rw [e, Pi.add_apply]
      exact add_nonneg (hO r hr) (owns_nonneg vs r)
    have hv := hp v (List.mem_cons_self ..)
    have h1 := rcRelease_inv h hO' hv
    rw [e] at h1
    obtain ⟨h2, h3⟩ := releaseAll_inv vs h1 hO fun w hw => hp w (List.mem_cons_of_mem _ hw)
    exact ⟨h2, (rcRelease_frees h hO' hv).trans h3⟩

end Ctx

end ShenRc.Runtime
