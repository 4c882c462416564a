import ShenRc.Runtime.Scan
import ShenRc.Runtime.Handles

/-! # Releasing garbage

While the collector releases what its garbage holds, the garbage is still in the heap, with counts
nobody looks at any more. `hide D s` is the heap as if the garbage `D` had gone already: it satisfies
the invariant if no other cell leads into `D` (`Inv.hide`), and releasing a value that is not garbage
does the same in both (`rcRelease_hide`). -/

namespace ShenRc.Runtime

open Relation ShenRc.Graph

namespace Ctx

variable {π : Policy} {s s' : Ctx} {O B : Own} {work : List ℕ} {P : Set Ref} {D : List ℕ}

/-- The heap without the cells of `D`. -/
def hide (D : List ℕ) (s : Ctx) : Ctx :=
  { s with
    heap := fun a => if a ∈ D then none else s.heap a
    refs := fun r => if r ∈ D.map Ref.cell then 0 else s.refs r
    collecting := false }

theorem mem_map_cell {a : ℕ} : Ref.cell a ∈ D.map Ref.cell ↔ a ∈ D := by simp

theorem hide_heap {a : ℕ} (ha : a ∉ D) : (hide D s).heap a = s.heap a := if_neg ha

theorem hide_dead {a : ℕ} (ha : a ∈ D) : ¬ (hide D s).live a := fun h => h (if_pos ha)

theorem hide_live {a : ℕ} : (hide D s).live a ↔ a ∉ D ∧ s.live a := by
  constructor
  · intro h
    have ha : a ∉ D := fun hm => hide_dead hm h
    exact ⟨ha, by rw [live, ← hide_heap ha]; exact h⟩
  · rintro ⟨ha, h⟩
    rw [live, hide_heap ha]
    exact h

theorem hide_edges {a : ℕ} (ha : a ∉ D) : (hide D s).edges a = s.edges a := by
  unfold edges; rw [hide_heap ha]

theorem hide_slots {a : ℕ} (ha : a ∉ D) : (hide D s).slots a = s.slots a := by
  unfold slots; rw [hide_heap ha]

theorem hide_refs {r : Ref} (hr : r ∉ D.map Ref.cell) : (hide D s).refs r = s.refs r := if_neg hr

theorem hide_isCounted {r : Ref} (hr : r ∉ D.map Ref.cell) :
    (hide D s).isCounted r = s.isCounted r := by
  cases r with
  | cell a => simp only [isCounted, hide_refs hr]
  | foreign t k => simp only [isCounted, hide_refs hr]
  | _ => rfl

/-! ### Releasing beside the garbage -/

/-- What a release beside the garbage leaves alone. -/
structure Spares (D : List ℕ) (s s' : Ctx) : Prop where
  heap : ∀ a ∈ D, s'.heap a = s.heap a
  free : ∀ a ∈ D, a ∈ s'.freePairs ++ s'.freeValues → a ∈ s.freePairs ++ s.freeValues
  marks : s'.visited = s.visited ∧ s'.marked = s.marked

theorem Spares.refl (D : List ℕ) (s : Ctx) : Spares D s s := ⟨fun _ _ => rfl, fun _ _ => id, rfl, rfl⟩

theorem Spares.trans {s'' : Ctx} (h : Spares D s s') (h' : Spares D s' s'') : Spares D s s'' :=
  ⟨fun a ha => (h'.heap a ha).trans (h.heap a ha), fun a ha hm => h.free a ha (h'.free a ha hm),
    h'.marks.1.trans h.marks.1, h'.marks.2.trans h.marks.2⟩

theorem hide_setRefs {r : Ref} (hr : r ∉ D.map Ref.cell) (n : ℕ) :
    (hide D s).setRefs r n = hide D (s.setRefs r n) := by
  have e : Function.update (fun x => if x ∈ D.map Ref.cell then 0 else s.refs x) r n =
      fun x => if x ∈ D.map Ref.cell then 0 else Function.update s.refs r n x := by
    funext x
    by_cases hx : x = r
    · subst hx; simp only [Function.update_self, if_neg hr]
    · simp only [Function.update_of_ne hx]
  unfold hide setRefs
  simp only [e]

theorem releaseEdge_hide (s : Ctx) (work : List ℕ) {v : Ref} (hv : v ∉ D.map Ref.cell) :
    releaseEdge (hide D s, work) v =
      (hide D (releaseEdge (s, work) v).1, (releaseEdge (s, work) v).2) ∧
    Spares D s (releaseEdge (s, work) v).1 := by
  unfold releaseEdge
  simp only [hide_isCounted hv, hide_refs hv, hide_setRefs hv]
  split
  · split
    · exact ⟨rfl, fun _ _ => rfl, fun _ _ => id, rfl, rfl⟩
    · exact ⟨rfl, fun _ _ => rfl, fun _ _ => id, rfl, rfl⟩
  · exact ⟨rfl, Spares.refl D s⟩

theorem releaseEdges_hide (vs : List Ref) : ∀ (s : Ctx) (work : List ℕ),
    (∀ v ∈ vs, v ∉ D.map Ref.cell) →
    vs.foldl releaseEdge (hide D s, work) =
      (hide D (vs.foldl releaseEdge (s, work)).1, (vs.foldl releaseEdge (s, work)).2) ∧
    Spares D s (vs.foldl releaseEdge (s, work)).1 := by
  induction vs with
  | nil => exact fun _ _ _ => ⟨rfl, Spares.refl D _⟩
  | cons v vs ih =>
    intro s work hv
    obtain ⟨h1, h2⟩ := releaseEdge_hide s work (hv v (List.mem_cons_self ..))
    obtain ⟨h3, h4⟩ := ih (releaseEdge (s, work) v).1 (releaseEdge (s, work) v).2
      fun w hw => hv w (List.mem_cons_of_mem _ hw)
    rw [List.foldl_cons, List.foldl_cons, h1]
    exact ⟨h3, h2.trans h4⟩

theorem unlinkObject_hide {a : ℕ} (ha : a ∉ D) :
    (hide D s).unlinkObject a = hide D (s.unlinkObject a) ∧ Spares D s (s.unlinkObject a) := by
  unfold unlinkObject
  rw [hide_heap ha]
  cases s.heap a with
  | none => exact ⟨rfl, fun _ _ => rfl, fun _ _ => id, rfl, rfl⟩
  | some o =>
    simp only
    have e : (hide D s).sources = s.sources := rfl
    rw [e]
    split <;> exact ⟨rfl, fun _ _ => rfl, fun _ _ => id, rfl, rfl⟩

theorem rawFree_hide {a : ℕ} (ha : a ∉ D) :
    (hide D s).rawFree a = hide D (s.rawFree a) ∧ Spares D s (s.rawFree a) := by
  unfold rawFree
  rw [hide_heap ha]
  cases ho : s.heap a with
  | none => exact ⟨rfl, fun _ _ => rfl, fun _ _ => id, rfl, rfl⟩
  | some o =>
    have e1 : Function.update (fun b => if b ∈ D then none else s.heap b) a none =
        fun b => if b ∈ D then none else Function.update s.heap a none b := by
      funext b
      by_cases hb : b = a
      · subst hb; simp
      · simp only [Function.update_of_ne hb]
    have e2 : Function.update (fun x => if x ∈ D.map Ref.cell then 0 else s.refs x) (.cell a) 0 =
        fun x => if x ∈ D.map Ref.cell then 0 else Function.update s.refs (.cell a) 0 x := by
      funext x
      by_cases hx : x = .cell a
      · subst hx; simp
      · simp only [Function.update_of_ne hx]
    refine ⟨?_, fun b hb => ?_, fun b hb hm => ?_, rfl, rfl⟩
    · unfold hide
      simp only [e1, e2]
    · have hba : b ≠ a := fun e => ha (e ▸ hb)
      simp only [Function.update_of_ne hba]
    · have hba : b ≠ a := fun e => ha (e ▸ hb)
      simp only at hm
      split at hm
      · simpa [hba] using hm
      · simpa [hba] using hm

theorem releaseStep_hide {dead : ℕ} (h : Inv π (hide D s) O (dead :: work) P) (hO : NonNeg O) :
    (hide D s).releaseStep dead work =
      (hide D (s.releaseStep dead work).1, (s.releaseStep dead work).2) ∧
    Spares D s (s.releaseStep dead work).1 := by
  have hdead : dead ∉ D := (hide_live.mp (h.workLive dead (List.mem_cons_self ..))).1
  have hkids : ∀ v ∈ s.edges dead, v ∉ D.map Ref.cell := by
    intro v hv hm
    obtain ⟨b, hb, rfl⟩ := List.mem_map.mp hm
    have he : (hide D s).Edge dead b := by rw [Edge, hide_edges hdead]; exact hv
    exact hide_dead hb (h.edge_live hO he)
  obtain ⟨h1, h2⟩ := unlinkObject_hide (s := s) hdead
  obtain ⟨h3, h4⟩ := releaseEdges_hide (s.edges dead) (s.unlinkObject dead) work hkids
  obtain ⟨h5, h6⟩ := rawFree_hide
    (s := ((s.edges dead).foldl releaseEdge (s.unlinkObject dead, work)).1) hdead
  refine ⟨?_, (h2.trans h4).trans h6⟩
  unfold releaseStep
  simp only [hide_edges hdead, h1, h3, h5]

theorem releaseLoop_hide : ∀ (fuel : ℕ) {s : Ctx} {work : List ℕ},
    Inv π (hide D s) O work P → NonNeg O →
    releaseLoop fuel (hide D s, work) = hide D (releaseLoop fuel (s, work)) ∧
    Spares D s (releaseLoop fuel (s, work))
  | 0, s, _, _, _ => ⟨rfl, fun _ _ => rfl, fun _ _ => id, rfl, rfl⟩
  | _ + 1, s, [], _, _ => ⟨rfl, Spares.refl D s⟩
  | fuel + 1, s, dead :: work, h, hO => by
    obtain ⟨h1, h2⟩ := releaseStep_hide h hO
    have h3 := (releaseStep_inv h hO).1
    rw [h1] at h3
    obtain ⟨h4, h5⟩ := releaseLoop_hide fuel h3 hO
    simp only [releaseLoop, h1]
    exact ⟨h4, h2.trans h5⟩

/-- **Releasing a value that is not garbage does the same with the garbage hidden.** -/
theorem rcRelease_hide {v : Ref} (h : Inv π (hide D s) (B + own v) [] P) (hB : NonNeg B)
    (hv : v ∉ D.map Ref.cell) (hp : v ∉ P) :
    (hide D s).rcRelease v = hide D (s.rcRelease v) ∧ Spares D s (s.rcRelease v) := by
  obtain ⟨h1, h2⟩ := releaseEdge_hide s [] hv
  have h3 := releaseEdge_inv h (v := v) (fun hh => by
    have := hB v hh
    rw [Pi.add_apply, own_self]
    omega) hp
  rw [h1, add_sub_cancel_right] at h3
  obtain ⟨h4, h5⟩ := releaseLoop_hide (s.size + 1) h3 hB
  unfold rcRelease
  have e : (hide D s).size = s.size := rfl
  rw [h1, e]
  exact ⟨h4, h2.trans h5⟩

/-! ### The edges that leave the garbage -/

/-- The values of a list that are not in `D`. -/
def outside (D : List ℕ) (vs : List Ref) : List Ref := vs.filter fun v => v ∉ D.map Ref.cell

theorem outside_cons {v : Ref} (hv : v ∉ D.map Ref.cell) (vs : List Ref) :
    outside D (v :: vs) = v :: outside D vs := List.filter_cons_of_pos (decide_eq_true hv)

theorem outside_skip {v : Ref} (hv : v ∈ D.map Ref.cell) (vs : List Ref) :
    outside D (v :: vs) = outside D vs :=
  List.filter_cons_of_neg fun h => of_decide_eq_true h hv

/-- **`gc_release_edge` for every edge of the garbage.** -/
theorem gcReleaseEdges_spec (vs : List Ref) : ∀ {s : Ctx},
    Inv π (hide D s) (B + owns (outside D vs)) [] P → NonNeg B → (∀ v ∈ vs, v ∉ P) →
    (∀ a, .cell a ∈ vs → (s.visited a && !s.marked a) = decide (a ∈ D)) →
    Inv π (hide D (vs.foldl gcReleaseEdge s)) B [] P ∧ Spares D s (vs.foldl gcReleaseEdge s) ∧
      Frees (hide D s) (hide D (vs.foldl gcReleaseEdge s)) := by
  induction vs with
  | nil =>
    intro s h _ _ _
    exact ⟨h.eq (by simp [outside]), Spares.refl D s, Frees.refl _⟩
  | cons v vs ih =>
    intro s h hB hp hmark
    rw [List.foldl_cons]
    have hp' := fun w hw => hp w (List.mem_cons_of_mem _ hw)
    -- A value that is released is not garbage.
    have release : gcReleaseEdge s v = s.rcRelease v → v ∉ D.map Ref.cell →
        Inv π (hide D (vs.foldl gcReleaseEdge (gcReleaseEdge s v))) B [] P ∧
          Spares D s (vs.foldl gcReleaseEdge (gcReleaseEdge s v)) ∧
          Frees (hide D s) (hide D (vs.foldl gcReleaseEdge (gcReleaseEdge s v))) := by
      intro he hv
      rw [he]
      have h1 := h.eq (Q := B + owns (outside D vs) + own v) (by
        rw [outside_cons hv, owns_cons]; abel)
      have hB1 := hB.add (nonNeg_owns (outside D vs))
      obtain ⟨h2, h3⟩ := rcRelease_hide h1 hB1 hv (hp v (List.mem_cons_self ..))
      have h4 := h1.release hB1 (hp v (List.mem_cons_self ..))
      have h5 := h1.release_frees hB1 (hp v (List.mem_cons_self ..))
      rw [h2] at h4 h5
      obtain ⟨k1, k2, k3⟩ := ih h4 hB hp' fun a ha => by
        rw [h3.marks.1, h3.marks.2]
        exact hmark a (List.mem_cons_of_mem _ ha)
      exact ⟨k1, h3.trans k2, h5.trans k3⟩
    have skip : gcReleaseEdge s v = s → (v.isHeap → v ∈ D.map Ref.cell) →
        Inv π (hide D (vs.foldl gcReleaseEdge (gcReleaseEdge s v))) B [] P ∧
          Spares D s (vs.foldl gcReleaseEdge (gcReleaseEdge s v)) ∧
          Frees (hide D s) (hide D (vs.foldl gcReleaseEdge (gcReleaseEdge s v))) := by
      intro he hv
      rw [he]
      refine ih (h.congr fun r hr => ?_) hB hp' fun a ha => hmark a (List.mem_cons_of_mem _ ha)
      by_cases hm : v ∈ D.map Ref.cell
      · rw [outside_skip hm]
      · have hne : r ≠ v := by rintro rfl; exact hm (hv hr)
        rw [outside_cons hm, owns_cons]
        simp only [Pi.add_apply, own_ne hne]
        ring
    cases v with
    | cell a =>
      have hm := hmark a (List.mem_cons_self ..)
      by_cases ha : a ∈ D
      · exact skip (by rw [gcReleaseEdge, hm, if_pos (by simpa using ha)])
          fun _ => mem_map_cell.mpr ha
      · exact release (by rw [gcReleaseEdge, hm, if_neg (by simpa using ha)])
          fun h' => ha (mem_map_cell.mp h')
    | foreign t k => exact release rfl (by simp)
    | null => exact skip rfl fun h' => h'.elim
    | nil => exact skip rfl fun h' => h'.elim
    | imm n => exact skip rfl fun h' => h'.elim

/-- The loop over the garbage releases all edges that leave it. -/
theorem releaseGarbage_spec (todo : List ℕ) (hsub : ∀ a ∈ todo, a ∈ D) {edges : ℕ → List Ref} :
    ∀ {s : Ctx}, (∀ a ∈ D, s.edges a = edges a) →
    Inv π (hide D s) (B + owns (outside D (todo.flatMap edges))) [] P → NonNeg B →
    (∀ v ∈ todo.flatMap edges, v ∉ P) →
    (∀ a, .cell a ∈ todo.flatMap edges → (s.visited a && !s.marked a) = decide (a ∈ D)) →
    let s' := todo.foldl (fun s a => (s.edges a).foldl gcReleaseEdge s) s
    Inv π (hide D s') B [] P ∧ Spares D s s' ∧ Frees (hide D s) (hide D s') := by
  induction todo with
  | nil =>
    intro s _ h _ _ _
    exact ⟨h.eq (by simp [outside]), Spares.refl D s, Frees.refl _⟩
  | cons a todo ih =>
    intro s he h hB hp hmark
    simp only [List.foldl_cons]
    rw [he a (hsub a (List.mem_cons_self ..))]
    have hsplit : outside D ((a :: todo).flatMap edges) =
        outside D (edges a) ++ outside D (todo.flatMap edges) := by
      simp [outside, List.flatMap_cons, List.filter_append]
    have hB1 := hB.add (nonNeg_owns (outside D (todo.flatMap edges)))
    have hmem : ∀ v, v ∈ edges a ∨ v ∈ todo.flatMap edges → v ∈ (a :: todo).flatMap edges := by
      intro v hv
      rw [List.flatMap_cons, List.mem_append]
      exact hv
    obtain ⟨h1, h2, h3⟩ := gcReleaseEdges_spec (edges a) (h.eq (Q := B +
        owns (outside D (todo.flatMap edges)) + owns (outside D (edges a))) (by
          rw [hsplit, owns_append]; abel)) hB1
      (fun v hv => hp v (hmem v (Or.inl hv))) (fun b hb => hmark b (hmem _ (Or.inl hb)))
    obtain ⟨k1, k2, k3⟩ := ih (fun b hb => hsub b (List.mem_cons_of_mem _ hb))
      (fun b hb => by
        rw [← he b hb]
        unfold Ctx.edges
        rw [h2.heap b hb]) h1 hB (fun v hv => hp v (hmem v (Or.inr hv)))
      (fun b hb => by rw [h2.marks.1, h2.marks.2]; exact hmark b (hmem _ (Or.inr hb)))
    exact ⟨k1, h2.trans k2, h3.trans k3⟩

/-! ### Freeing the garbage -/

/-- Freeing cells that are in use and in no free list. -/
theorem rawFrees_spec (E : List ℕ) : ∀ {s : Ctx}, E.Nodup → (∀ a ∈ E, s.live a) →
    (∀ a ∈ E, a ∉ s.freePairs ++ s.freeValues) → (s.freePairs ++ s.freeValues).Nodup →
    let s' := E.foldl rawFree s
    ∃ fp fv, s'.toStore = { s.toStore with
        heap := fun a => if a ∈ E then none else s.heap a
        refs := fun r => if r ∈ E.map Ref.cell then 0 else s.refs r
        freePairs := fp, freeValues := fv } ∧ (fp ++ fv).Nodup ∧
      ∀ a ∈ fp ++ fv, a ∈ E ∨ a ∈ s.freePairs ++ s.freeValues := by
  induction E with
  | nil =>
    intro s _ _ _ hn
    exact ⟨s.freePairs, s.freeValues, by simp, hn, fun a ha => Or.inr ha⟩
  | cons e E ih =>
    intro s hE hl hf hn
    obtain ⟨hnot, hE'⟩ := List.nodup_cons.mp hE
    obtain ⟨o, ho⟩ := Option.ne_none_iff_exists'.mp (hl e (List.mem_cons_self ..))
    have hs := rawFree_toStore ho
    have hfe := hf e (List.mem_cons_self ..)
    rw [List.foldl_cons]
    generalize s.rawFree e = s1 at hs ⊢
    have hne : ∀ a ∈ E, a ≠ e := fun a ha h' => hnot (h' ▸ ha)
    have hlists : (s1.freePairs ++ s1.freeValues).Perm (e :: (s.freePairs ++ s.freeValues)) := by
      rw [hs]
      by_cases hp : o.body.type = .pair
      · simp [hp]
      · simp only [hp, if_false]
        exact List.perm_middle
    obtain ⟨fp, fv, h1, h2, h3⟩ := ih (s := s1) hE'
      (fun a ha => by
        rw [live, hs]
        simp only [Function.update_of_ne (hne a ha)]
        exact hl a (List.mem_cons_of_mem _ ha))
      (fun a ha hm => by
        rcases List.mem_cons.mp (hlists.mem_iff.mp hm) with h' | h'
        · exact hne a ha h'
        · exact hf a (List.mem_cons_of_mem _ ha) h')
      (hlists.nodup_iff.mpr (List.nodup_cons.mpr ⟨hfe, hn⟩))
    refine ⟨fp, fv, ?_, h2, fun a ha => ?_⟩
    · rw [h1, hs]
      simp only [Store.mk.injEq, and_true]
      constructor
      · funext a
        by_cases hae : a = e
        · subst hae; simp
        · simp [hae]
      · funext r
        by_cases hre : r = .cell e
        · subst hre; simp
        · simp [hre]
    · rcases h3 a ha with ha | ha
      · exact Or.inl (List.mem_cons_of_mem _ ha)
      · rcases List.mem_cons.mp (hlists.mem_iff.mp ha) with rfl | ha
        · exact Or.inl (List.mem_cons_self ..)
        · exact Or.inr ha

/-! ### Hiding the garbage -/

/-- Cells that only cells of the list lead to, and that C code and the context do not hold. -/
structure Garbage (s : Ctx) (O : Own) (D : List ℕ) : Prop where
  nodup : D.Nodup
  live : ∀ a ∈ D, s.live a
  counted : ∀ a ∈ D, s.isCounted (.cell a) = true
  closed : ∀ u, ∀ a ∈ D, s.Edge u a → u ∈ D
  own : ∀ a ∈ D, O (.cell a) = 0
  slot : ∀ u, ∀ a ∈ D, .cell a ∉ s.slots u
  root : ∀ a ∈ D, .cell a ∉ s.roots

/-- What the references held lose with the garbage. -/
theorem hide_held (h : Inv π s O work P) (hg : Garbage s O D) (r : Ref) :
    s.held r = (hide D s).held r + ((D.flatMap s.edges).count r : ℤ) := by
  have hslots : ∀ a ∈ D, s.slots a = [] := fun a ha => by
    obtain ⟨o, ho⟩ := Option.ne_none_iff_exists'.mp (hg.live a ha)
    rw [slots_of_some ho, Obj.slots]
    cases hb : o.body with
    | symbol t g f =>
      have hc := hg.counted a ha
      rw [isCounted_of_immortal (h.sym a o t g f ho hb)] at hc
      exact absurd hc (by simp)
    | _ => rfl
  have hsub : D.toFinset ⊆ Finset.range s.size := fun a ha =>
    Finset.mem_range.mpr (h.bound a (hg.live a (List.mem_toFinset.mp ha)))
  have h1 : ((D.flatMap s.edges).count r : ℤ) = ∑ a ∈ D.toFinset, s.heldBy a r := by
    have e : (D.flatMap s.edges).count r = ∑ a ∈ D.toFinset, (s.edges a).count r := by
      rw [List.count_flatMap, ← List.sum_toFinset _ hg.nodup]
      rfl
    rw [e]
    push_cast
    refine Finset.sum_congr rfl fun a ha => ?_
    unfold heldBy
    rw [hslots a (List.mem_toFinset.mp ha)]
    simp
  have h2 : ∑ a ∈ Finset.range s.size, (hide D s).heldBy a r =
      ∑ a ∈ Finset.range s.size \ D.toFinset, s.heldBy a r := by
    rw [← Finset.sum_sdiff hsub]
    have e1 : ∑ a ∈ D.toFinset, (hide D s).heldBy a r = 0 := Finset.sum_eq_zero fun a ha => by
      have hd : (hide D s).heap a = none := if_pos (List.mem_toFinset.mp ha)
      unfold heldBy
      rw [edges_of_none hd, slots_of_none hd]
      simp
    rw [e1, add_zero]
    refine Finset.sum_congr rfl fun a ha => ?_
    have hna : a ∉ D := fun hm => (Finset.mem_sdiff.mp ha).2 (List.mem_toFinset.mpr hm)
    unfold heldBy
    rw [hide_edges hna, hide_slots hna]
  have e2 : (hide D s).size = s.size := rfl
  have e3 : (hide D s).roots = s.roots := rfl
  unfold held
  rw [e2, e3, h2, h1, ← Finset.sum_sdiff hsub]
  ring

theorem count_outside {vs : List Ref} {r : Ref} (hr : r ∉ D.map Ref.cell) :
    (outside D vs).count r = vs.count r := by
  unfold outside
  rw [List.count_filter]
  simpa using hr

theorem owns_outside {vs : List Ref} {r : Ref} (hr : r ∈ D.map Ref.cell) :
    owns (outside D vs) r = 0 := by
  refine owns_zero fun hm => ?_
  unfold outside at hm
  have := (List.mem_filter.mp hm).2
  simp only [decide_eq_true_eq] at this
  exact this hr

section Hidden

variable (hs : s'.toStore = { s.toStore with
    visited := s'.visited, sources := s'.sources, cycleSources := s'.cycleSources
    collecting := s'.collecting })
include hs

theorem hidden_heap {a : ℕ} (ha : a ∉ D) : (Ctx.hide D s').heap a = s.heap a := by
  rw [hide_heap ha, hs]

theorem hidden_live {a : ℕ} : (Ctx.hide D s').live a ↔ a ∉ D ∧ s.live a := by
  have hheap : s'.heap = s.heap := by rw [hs]
  rw [hide_live, Ctx.live, Ctx.live, hheap]

theorem hidden_notMem {a : ℕ} {o : Obj} (ho : (Ctx.hide D s').heap a = some o) : a ∉ D :=
  ((hidden_live hs).mp (by rw [live, ho]; simp)).1

theorem hidden_edges {a : ℕ} (ha : a ∉ D) : (Ctx.hide D s').edges a = s.edges a := by
  unfold edges
  rw [hidden_heap hs ha]

theorem hidden_slots {a : ℕ} (ha : a ∉ D) : (Ctx.hide D s').slots a = s.slots a := by
  unfold slots
  rw [hidden_heap hs ha]

theorem hidden_reach {a : ℕ} (ha : a ∉ D) :
    (Ctx.hide D s').mayReachVector (.cell a) = s.mayReachVector (.cell a) := by
  simp only [mayReachVector, hidden_heap hs ha]

theorem hidden_refs {r : Ref} (hr : r ∉ D.map Ref.cell) : (Ctx.hide D s').refs r = s.refs r := by
  rw [hide_refs hr, hs]

theorem hidden_refs_cell {a : ℕ} (ha : a ∉ D) : (Ctx.hide D s').refs (.cell a) = s.refs (.cell a) :=
  hidden_refs hs fun hm => ha (mem_map_cell.mp hm)

theorem hidden_isCounted {r : Ref} (hr : r ∉ D.map Ref.cell) :
    (Ctx.hide D s').isCounted r = s.isCounted r := by
  have hrefs : s'.refs = s.refs := by rw [hs]
  rw [hide_isCounted hr]
  cases r <;> simp [isCounted, hrefs]

theorem hidden_roots : (Ctx.hide D s').roots = s.roots := by
  have hbuiltin : (Ctx.hide D s').builtinRoots = s.builtinRoots := by
    change s'.builtinRoots = _
    rw [hs]
  have hretired : (Ctx.hide D s').retired = s.retired := by
    change s'.retired = _
    rw [hs]
  unfold Ctx.roots
  rw [hbuiltin, hretired]

/-- An edge that is left lies outside of the garbage. -/
theorem hidden_edge (hg : Garbage s O D) {u w : ℕ} (he : (Ctx.hide D s').Edge u w) :
    u ∉ D ∧ w ∉ D ∧ s.Edge u w := by
  have hu := ((hidden_live hs).mp he.live).1
  have he' : s.Edge u w := by
    rw [Edge, ← hidden_edges hs hu]
    exact he
  exact ⟨hu, fun hw => hu (hg.closed u w hw he'), he'⟩

theorem hidden_held (h : Inv π s O [] P) (hg : Garbage s O D) (r : Ref) :
    s.held r = (Ctx.hide D s').held r + ((D.flatMap s.edges).count r : ℤ) := by
  have hsize : (Ctx.hide D s').size = (Ctx.hide D s).size := by
    change s'.size = s.size
    rw [hs]
  rw [hide_held h hg r]
  refine congrArg (· + _) (held_congr hsize.symm (hidden_roots hs).symm fun a _ => ?_)
  by_cases ha : a ∈ D
  · have hd : ∀ t : Ctx, (Ctx.hide D t).heap a = none := fun t => if_pos ha
    unfold heldBy
    rw [edges_of_none (hd s), slots_of_none (hd s), edges_of_none (hd s'), slots_of_none (hd s')]
  · unfold heldBy
    rw [hide_edges ha, hide_slots ha, hidden_edges hs ha, hidden_slots hs ha]

/-- Every reference to a cell of the garbage is one of its own edges. -/
theorem hidden_garbage (hg : Garbage s O D) {a : ℕ} (ha : a ∈ D) :
    (Ctx.hide D s').held (.cell a) = 0 := by
  have hcells : ∑ b ∈ Finset.range (Ctx.hide D s').size, (Ctx.hide D s').heldBy b (.cell a) = 0 := by
    refine Finset.sum_eq_zero fun b _ => ?_
    unfold heldBy
    by_cases hb : b ∈ D
    · have hd : (Ctx.hide D s').heap b = none := if_pos hb
      rw [edges_of_none hd, slots_of_none hd]
      rfl
    · rw [hidden_edges hs hb, hidden_slots hs hb, List.count_eq_zero.mpr (hg.slot b a ha),
        List.count_eq_zero.mpr fun hm => hb (hg.closed b a ha hm)]
      rfl
  unfold held
  rw [hcells, hidden_roots hs, List.count_eq_zero.mpr (hg.root a ha)]
  rfl

theorem hidden_bal (h : Inv π s O [] P) (hg : Garbage s O D) {r : Ref}
    (hr : (Ctx.hide D s').isCounted r = true) : ((Ctx.hide D s').refs r : ℤ) =
      (Ctx.hide D s').held r + (O + owns (outside D (D.flatMap s.edges))) r := by
  by_cases hm : r ∈ D.map Ref.cell
  · obtain ⟨a, ha, rfl⟩ := List.mem_map.mp hm
    have hrefs : (Ctx.hide D s').refs (.cell a) = 0 := if_pos hm
    rw [hrefs, hidden_garbage hs hg ha, Pi.add_apply, owns_outside hm, hg.own a ha]
    rfl
  · rw [hidden_isCounted hs hm] at hr
    rw [hidden_refs hs hm, h.bal r hr, hidden_held hs h hg r, Pi.add_apply, owns, count_outside hm]
    ring

theorem hidden_bytes : (Ctx.hide D s').payloadBytes ≤ s.payloadBytes := by
  have hsize : (Ctx.hide D s').size = s.size := by
    change s'.size = _
    rw [hs]
  unfold payloadBytes
  rw [hsize]
  refine Finset.sum_le_sum fun a _ => ?_
  by_cases hm : a ∈ D
  · have hd : (Ctx.hide D s').heap a = none := if_pos hm
    rw [hd]
    exact Nat.zero_le _
  · rw [hidden_heap hs hm]

/-- A plan outside of the garbage sees nothing of it. -/
theorem hidden_plan (h : Inv π s O [] P) (hO : NonNeg O) (hg : Garbage s O D) {p q : ℕ} (hp : p ∉ D)
    (hq : q ∉ D) (hpq : s.PlanOf p q) : (Ctx.hide D s').PlanOf p q := by
  have hout : ∀ u, ReflTransGen s.Edge p u → u ∉ D := fun u hu => by
    induction hu with
    | refl => exact hp
    | tail _ he ih => exact fun hd => ih (hg.closed _ _ hd he)
  refine hpq.keep (h.edge_live hO) (fun u b ob hu hub hob => ?_)
    (fun ob hob => ⟨ob, (hidden_heap hs hp).trans hob, Obj.Keeps.refl ob⟩)
    (fun ob hob => ⟨ob, (hidden_heap hs hq).trans hob, rfl, rfl⟩)
  have hud : u ∉ D := by
    rcases hu with rfl | hu
    · exact hq
    · exact hout u hu
  exact ⟨ob, (hidden_heap hs fun hd => hud (hg.closed u b hd hub)).trans hob, Obj.Keeps.refl ob⟩

theorem hidden_plans (h : Inv π s O [] P) (hO : NonNeg O) (hg : Garbage s O D) {p q : ℕ} {o : Obj}
    {e : PlanEntry} (hop : (Ctx.hide D s').heap p = some o) (hpair : ∃ h t, o.body = .pair h t)
    (he : o.plan = some e) (hq : e.plan = .cell q) : (Ctx.hide D s').PlanOf p q := by
  have hp := hidden_notMem hs hop
  rw [hidden_heap hs hp] at hop
  have hedge := edge_of_plan hop hpair he hq
  exact hidden_plan hs h hO hg hp (fun hqd => hp (hg.closed p q hqd hedge))
    (h.plans p q o e hop hpair he hq)

theorem hidden_priv (h : Inv π s O [] P) (hg : Garbage s O D) {r : Ref} (hr : r ∈ P) :
    (O + owns (outside D (D.flatMap s.edges))) r = 1 ∧ (Ctx.hide D s').held r = 0 ∧
      ∃ a o args g, r = .cell a ∧ (Ctx.hide D s').heap a = some o ∧ o.body = .tail .nil args g := by
  obtain ⟨hown, hnone, b, ob, args, g, rfl, hob, hb⟩ := h.priv r hr
  have hm : b ∉ D := fun hm => by
    rw [hg.own b hm] at hown
    exact absurd hown (by simp)
  have hheld := hidden_held hs h hg (.cell b)
  have hnonneg := held_nonneg (Ctx.hide D s') (.cell b)
  refine ⟨?_, by omega, b, ob, args, g, rfl, (hidden_heap hs hm).trans hob, hb⟩
  rw [Pi.add_apply, owns, count_outside fun hm' => hm (mem_map_cell.mp hm'), hown]
  omega

end Hidden

/-- **The heap without the garbage.** The edges that leave the garbage count as owned by C code. -/
theorem Inv.hide (h : Inv π s O [] P) (hO : NonNeg O) (hg : Garbage s O D)
    (hs : s'.toStore = { s.toStore with
      visited := s'.visited, sources := s'.sources, cycleSources := s'.cycleSources
      collecting := s'.collecting })
    (hvis : ∀ a, a ∉ D → s.live a → s'.visited a = false)
    (hsrc : ∀ a, a ∈ s'.sources ↔ a ∈ s.sources ∧ a ∉ D) (hnd : s'.sources.Nodup)
    (hcnt : s'.cycleSources = s'.sources.length) :
    Inv π (Ctx.hide D s') (O + owns (outside D (D.flatMap s.edges))) [] P := by
  have hsize : (Ctx.hide D s').size = s.size := by
    change s'.size = _
    rw [hs]
  refine
    { bal := fun r hr => hidden_bal hs h hg hr
      dead := fun a ha => ?_
      zero := fun a ha => ?_
      workLive := fun a ha => absurd ha (by simp)
      workNodup := List.nodup_nil
      bound := fun a ha => hsize ▸ h.bound a ((hidden_live hs).mp ha).2
      space := hsize ▸ h.space
      bytes := (hidden_bytes hs).trans h.bytes
      freeDead := fun a ha => ?_
      freeNodup := by
        change (s'.freePairs ++ s'.freeValues).Nodup
        rw [hs]
        exact h.freeNodup
      flags := fun u w he hw => ?_
      vec := fun a o items ho hb => h.vec a o items (hidden_heap hs (hidden_notMem hs ho) ▸ ho) hb
      srcVec := fun a ha => ?_
      srcNodup := hnd
      srcCount := hcnt
      acyc := h.acyc.mono fun u w hf => ?_
      acyclicSrc := fun ha => ?_
      unvisited := fun a ha => hvis a ((hidden_live hs).mp ha).1 ((hidden_live hs).mp ha).2
      sym := fun a o t g f ho hb => ?_
      static := fun a ha => ?_
      plans := fun p q o e hop hpair he hq => hidden_plans hs h hO hg hop hpair he hq
      priv := fun r hr => hidden_priv hs h hg hr
      ok := by
        change s'.stuck = false
        rw [hs]
        exact h.ok
      idle := rfl
      roomy := by
        change ∀ k, s'.scratch k = true
        rw [hs]
        exact h.roomy
      policy := by
        change s'.policy = π
        rw [Ctx.policy, hs]
        exact h.policy
      word := fun r => ?_ }
  · by_cases hm : a ∈ D
    · exact if_pos (mem_map_cell.mpr hm)
    · rw [hidden_refs_cell hs hm]
      exact h.dead a fun hl => ha ((hidden_live hs).mpr ⟨hm, hl⟩)
  · obtain ⟨hm, hl⟩ := (hidden_live hs).mp ha
    rw [hidden_refs_cell hs hm]
    exact h.zero a hl
  · change a ∈ s'.freePairs ++ s'.freeValues at ha
    rw [hs] at ha
    obtain ⟨hdead, hlt⟩ := h.freeDead a ha
    exact ⟨fun hl => hdead ((hidden_live hs).mp hl).2, hsize ▸ hlt⟩
  · obtain ⟨hu, hw', he'⟩ := hidden_edge hs hg he
    rw [hidden_reach hs hw'] at hw
    rw [hidden_reach hs hu]
    exact h.flags u w he' hw
  · obtain ⟨hm, hd⟩ := (hsrc a).mp ha
    obtain ⟨o, items, ho, hb⟩ := h.srcVec a hm
    exact ⟨o, items, (hidden_heap hs hd).trans ho, hb⟩
  · obtain ⟨he, hu, hw⟩ := hf
    obtain ⟨hud, hwd, he'⟩ := hidden_edge hs hg he
    exact ⟨he', fun hm => hu ((hsrc u).mpr ⟨hm, hud⟩), fun hm => hw ((hsrc w).mpr ⟨hm, hwd⟩)⟩
  · change s'.acyclic = true at ha
    rw [hs] at ha
    refine List.eq_nil_iff_forall_not_mem.mpr fun a hm => ?_
    have hm' := ((hsrc a).mp hm).1
    rw [h.acyclicSrc ha] at hm'
    simp at hm'
  · have hm := hidden_notMem hs ho
    rw [hidden_heap hs hm] at ho
    rw [hidden_refs_cell hs hm]
    exact h.sym a o t g f ho hb
  · change a ∈ s'.staticClosures at ha
    rw [hs] at ha
    have hi := h.static a ha
    have hm : a ∉ D := fun hm => by
      have := hg.counted a hm
      rw [isCounted_of_immortal hi] at this
      exact absurd this (by simp)
    rw [hidden_refs_cell hs hm]
    exact hi
  · by_cases hm : r ∈ D.map Ref.cell
    · have hzero : (Ctx.hide D s').refs r = 0 := if_pos hm
      rw [hzero]
      exact Nat.zero_le _
    · rw [hidden_refs hs hm]
      exact h.word r

end Ctx

end ShenRc.Runtime
