import ShenRc.Runtime.Collect

/-! # Collection is exact

`rc_collect` and `rc_safepoint` keep the invariant. In an unrestricted context a collection frees
exactly the cells that are not reached from outside, and each survivor loses the references that came
from them (`rcCollect_exact`, `rcCollect_refs`). That it starts from the recorded sources is enough
because every cycle passes through one (`Inv.cycle_source`). -/

namespace ShenRc.Runtime

open Relation ShenRc.Graph

namespace Ctx

variable {π : Policy} {s s' : Ctx} {O : Own} {P : Set Ref}

/-- **Every cycle of the heap passes through a recorded source.** -/
theorem Inv.cycle_source {work : List ℕ} (h : Inv π s O work P) {a : ℕ} (ha : TransGen s.Edge a a) :
    ∃ v ∈ s.sources, ReflTransGen s.Edge a v ∧ ReflTransGen s.Edge v a := by
  by_contra hn
  push Not at hn
  have key : ∀ {x}, TransGen s.Edge a x → ReflTransGen s.Edge x a → TransGen s.FreeEdge a x := by
    intro x hx
    have hfree : ∀ y, ReflTransGen s.Edge a y → ReflTransGen s.Edge y a → y ∉ s.sources :=
      fun y hy hya hm => hn y hm hy hya
    induction hx with
    | single he =>
      exact fun hxa => .single ⟨he, hfree a .refl .refl, hfree _ (.single he) hxa⟩
    | @tail b c hb he ih =>
      intro hca
      have hba : ReflTransGen s.Edge b a := .head he hca
      exact (ih hba).tail ⟨he, hfree b hb.to_reflTransGen hba,
        hfree c (hb.tail he).to_reflTransGen hca⟩
  exact h.acyc a (key ha .refl)

theorem adaptInterval_toStore (s : Ctx) : s.adaptInterval.toStore = s.toStore := by
  unfold adaptInterval
  split <;> rfl

/-- The state a collection works on. -/
abbrev collecting' (s : Ctx) : Ctx :=
  { s with
    collecting := true
    stats := { s.stats with collections := s.stats.collections + 1 }
    sinceCollection := 0 }

/-- What a collection of an unrestricted context does to the graph. -/
theorem rcCollect_cases (h : Inv π s O [] P) :
    (s.acyclic = true ∧ s.rcCollect = s) ∨
    (s.sources = [] ∧ Same s s.rcCollect) ∨
    s.rcCollect.toStore = s.collecting'.collectFromSources.calm.toStore := by
  unfold rcCollect
  by_cases hac : s.acyclic = true
  · exact Or.inl ⟨hac, by rw [hac]; rfl⟩
  right
  rw [if_neg (by simp [hac, h.idle])]
  simp only
  split
  · rename_i hc
    left
    have hlen : s.sources = [] := by
      have := h.srcCount
      rw [hc] at this
      exact List.eq_nil_of_length_eq_zero (by omega)
    refine ⟨hlen, ?_⟩
    change { (Ctx.toStore (adaptInterval _)) with collecting := false } = s.toStore
    rw [adaptInterval_toStore]
    simp only
    rw [← h.idle]
  · right
    change { (Ctx.toStore (adaptInterval _)) with collecting := false } =
      { s.collecting'.collectFromSources.toStore with collecting := false }
    rw [adaptInterval_toStore]

theorem Inv.collecting' (h : Inv π s O [] P) : Inv π s.collecting'.calm O [] P :=
  h.same (show { s.toStore with collecting := false } = s.toStore by rw [← h.idle])

/-- **`rc_collect` keeps the invariant.** What it leaves is as it was. -/
theorem rcCollect_inv (h : Inv π s O [] P) (hO : NonNeg O) :
    Inv π s.rcCollect O [] P ∧ Collected s s.rcCollect := by
  rcases rcCollect_cases h with ⟨-, e⟩ | ⟨-, e⟩ | e
  · rw [e]
    exact ⟨h, Collected.refl s⟩
  · exact ⟨h.same e, Collected.of_same e⟩
  · obtain ⟨h1, h2, -⟩ := collectFromSources_inv h.collecting' hO
    refine ⟨h1.same e, fun a => ?_, fun r hr => ?_, fun r => ?_, ?_, ?_⟩
    · rw [e]; exact h2.heap a
    · rw [e]; exact h2.refs r hr
    · rw [e]; exact h2.refs_le r
    · have h3 := h2.roots
      unfold roots at h3 ⊢
      rw [e]
      exact h3
    · rw [e]; exact h2.size

theorem rcSafepoint_inv (h : Inv π s O [] P) (hO : NonNeg O) : Inv π s.rcSafepoint O [] P := by
  unfold rcSafepoint
  split
  · exact (rcCollect_inv h hO).1
  · exact h

/-- The sources that a collection leaves are reached. -/
theorem rcCollect_sources (h : Inv π s O [] P) (hO : NonNeg O) (hac : s.acyclic = false)
    (hroom : ∀ k, s.marking k = true) : ∀ a ∈ s.rcCollect.sources, s.Reached O a := by
  rcases rcCollect_cases h with ⟨hc, -⟩ | ⟨hnil, e⟩ | e
  · rw [hac] at hc
    exact absurd hc (by simp)
  · intro a ha
    rw [show s.rcCollect.sources = s.sources from congrArg Store.sources e, hnil] at ha
    simp at ha
  · intro a ha
    rw [e] at ha
    exact (collectFromSources_inv h.collecting' hO).2.2 hroom a ha

/-- A cell in use after a change that only frees keeps its children. -/
theorem Collected.edges (hc : Collected s s') {a : ℕ} (ha : s'.live a) : s'.edges a = s.edges a := by
  have := (hc.heap a).resolve_right ha
  unfold Ctx.edges
  rw [this]

theorem Collected.slots (hc : Collected s s') {a : ℕ} (ha : s'.live a) : s'.slots a = s.slots a := by
  have := (hc.heap a).resolve_right ha
  unfold Ctx.slots
  rw [this]

theorem Collected.edge (hc : Collected s s') {u w : ℕ} (he : s'.Edge u w) : s.Edge u w := by
  rw [Edge, ← hc.edges he.live]
  exact he

/-- **What is reached from outside survives.** -/
theorem Collected.survives (hc : Collected s s') (h : Inv π s O [] P) (h' : Inv π s' O [] P)
    (hO : NonNeg O) {a : ℕ} (ha : s.Reached O a) : s'.live a ∧ s'.Reached O a := by
  obtain ⟨r, hr, hp⟩ := ha
  have hroot : s'.live r ∧ s'.Root O r := by
    have himm : ∀ u, s.refs (.cell u) = immortal → s'.live u := fun u hi => by
      by_contra hn
      have h1 := h'.dead u hn
      rw [hc.refs _ (isCounted_of_immortal hi), hi] at h1
      exact absurd h1 (by decide)
    rcases hr with hi | ho | hm | ⟨u, hu⟩
    · exact ⟨himm r hi, Or.inl (by rw [hc.refs _ (isCounted_of_immortal hi), hi])⟩
    · exact ⟨h'.live_of_own ho, Or.inr (Or.inl ho)⟩
    · rw [← hc.roots] at hm
      exact ⟨h'.live_of_held hO (held_pos_of_root hm), Or.inr (Or.inr (Or.inl hm))⟩
    · obtain ⟨o, ho⟩ := Option.ne_none_iff_exists'.mp (slot_live hu)
      have hsym : s'.live u := by
        refine himm u ?_
        rw [slots_of_some ho, Obj.slots] at hu
        cases hb : o.body with
        | symbol t g f => exact h.sym u o t g f ho hb
        | _ => simp [hb] at hu
      rw [← hc.slots hsym] at hu
      exact ⟨h'.live_of_held hO (held_pos_of_slot (h'.bound u hsym) hu),
        Or.inr (Or.inr (Or.inr ⟨u, hu⟩))⟩
  induction hp with
  | refl => exact ⟨hroot.1, hroot.2.reached⟩
  | @tail b c _ he ih =>
    have he' : s'.Edge b c := by rw [Edge, hc.edges ih.1]; exact he
    exact ⟨h'.edge_live hO he', ih.2.edge he'⟩

/-- **A collection frees exactly what is not reached from outside**, if marking finds room. -/
theorem rcCollect_exact (h : Inv π s O [] P) (hO : NonNeg O) (hac : s.acyclic = false)
    (hroom : ∀ k, s.marking k = true) (a : ℕ) :
    s.rcCollect.live a ↔ s.live a ∧ s.Reached O a := by
  obtain ⟨h', hc⟩ := rcCollect_inv h hO
  constructor
  · intro ha
    have hr : s.rcCollect.Reached O a :=
      h'.reached_of_sources hO (X := fun _ => True) (fun _ _ _ _ => trivial)
        (fun b hb _ => (hc.survives h h' hO (rcCollect_sources h hO hac hroom b hb)).2) ha trivial
    refine ⟨by rw [live, ← (hc.heap a).resolve_right ha]; exact ha, ?_⟩
    obtain ⟨r, hr, hp⟩ := hr
    refine ⟨r, ?_, ReflTransGen.mono (fun _ _ he => hc.edge he) _ _ hp⟩
    rcases hr with hi | ho | hm | ⟨u, hu⟩
    · left
      have h1 := hc.refs_le (.cell r)
      have h2 := h.word (.cell r)
      omega
    · exact Or.inr (Or.inl ho)
    · exact Or.inr (Or.inr (Or.inl (hc.roots ▸ hm)))
    · exact Or.inr (Or.inr (Or.inr ⟨u, hc.slots (slot_live hu) ▸ hu⟩))
  · rintro ⟨-, hr⟩
    exact (hc.survives h h' hO hr).1

/-- **The count of a survivor** is what it was less the references that came from freed cells. -/
theorem rcCollect_refs (h : Inv π s O [] P) (hO : NonNeg O) {r : Ref} (hcnt : s.isCounted r = true) :
    (s.rcCollect.refs r : ℤ) = s.refs r -
      ∑ a ∈ (Finset.range s.size).filter (fun a => ¬ s.rcCollect.live a),
        ((s.edges a).count r : ℤ) := by
  obtain ⟨h', hc⟩ := rcCollect_inv h hO
  have hcnt' : s.rcCollect.isCounted r = true := by
    have hne : s.refs r ≠ immortal := fun hi => by
      rw [isCounted_of_immortal hi] at hcnt
      exact absurd hcnt (by simp)
    have h1 := hc.refs_le r
    have h2 := h.word r
    cases r <;> simp_all [isCounted] <;> omega
  have hsplit : ∑ a ∈ Finset.range s.size, s.heldBy a r =
      ∑ a ∈ Finset.range s.size, s.rcCollect.heldBy a r +
        ∑ a ∈ (Finset.range s.size).filter (fun a => ¬ s.rcCollect.live a),
          ((s.edges a).count r : ℤ) := by
    rw [Finset.sum_filter, ← Finset.sum_add_distrib]
    refine Finset.sum_congr rfl fun a _ => ?_
    by_cases ha : s.rcCollect.live a
    · unfold heldBy
      rw [hc.edges ha, hc.slots ha, if_neg (by simpa using ha)]
      ring
    · have hd : s.rcCollect.heap a = none := by simpa [live] using ha
      have hslots : s.slots a = [] := by
        -- A symbol is immortal, so no symbol is freed.
        cases ho : s.heap a with
        | none => exact slots_of_none ho
        | some o =>
          rw [slots_of_some ho, Obj.slots]
          cases hb : o.body with
          | symbol t g f =>
            have hi := h.sym a o t g f ho hb
            exact absurd (hc.survives h h' hO (Root.reached (Or.inl hi))).1 ha
          | _ => rfl
      unfold heldBy
      rw [edges_of_none hd, slots_of_none hd, hslots, if_pos ha]
      simp
  rw [h'.bal r hcnt', h.bal r hcnt]
  unfold held
  rw [hc.roots, hc.size, hsplit]
  ring

end Ctx

end ShenRc.Runtime
