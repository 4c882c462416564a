import ShenRc.Runtime.Search
import Mathlib.Tactic.Abel

/-! # Handles and allocation

A handle is a value that client code may name (`Handle`): it is in use, and no private request of an
application. What cells and roots hold are handles. `Inv.alloc` is the allocation of a cell that is
filled with handles; the constructors of values without children are immediate from it. -/

namespace ShenRc.Runtime

open Relation ShenRc.Graph

/-! ### Ownership without negative entries -/

theorem NonNeg.add {B O : Own} (hB : NonNeg B) (hO : NonNeg O) : NonNeg (B + O) := fun r hr =>
  add_nonneg (hB r hr) (hO r hr)

theorem nonNeg_own (v : Ref) : NonNeg (own v) := fun r _ => by
  rw [own_apply]; split_ifs <;> decide

theorem nonNeg_owns (vs : List Ref) : NonNeg (owns vs) := fun r _ => owns_nonneg vs r

theorem own_null {r : Ref} (hr : r.isHeap) : own .null r = 0 := by
  apply own_ne
  rintro rfl
  exact hr

theorem own_nil {r : Ref} (hr : r.isHeap) : own .nil r = 0 := by
  apply own_ne
  rintro rfl
  exact hr

theorem own_imm {n : ℤ} {r : Ref} (hr : r.isHeap) : own (.imm n) r = 0 := by
  apply own_ne
  rintro rfl
  exact hr

namespace Ctx

variable {π : Policy} {s s' : Ctx} {O B : Own} {work : List ℕ} {P : Set Ref}

/-- A handle that client code may use: the value is in use, and no private request. -/
def Handle (s : Ctx) (P : Set Ref) (v : Ref) : Prop := v ∉ P ∧ ∀ a, v = .cell a → s.live a

theorem Handle.mono {v : Ref} (h : s.Handle P v) (hl : ∀ a, s.live a → s'.live a) :
    s'.Handle P v := ⟨h.1, fun a ha => hl a (h.2 a ha)⟩

theorem Handle.same {v : Ref} (h : s.Handle P v) (hs : Same s s') : s'.Handle P v :=
  h.mono fun a ha => by rw [live, show s'.heap = s.heap from congrArg Store.heap hs]; exact ha

theorem Placed.live {a n : ℕ} {o : Obj} (h : Placed s s' a o n) (b : ℕ) (hb : s.live b) :
    s'.live b := by
  rw [Ctx.live, h.heap]
  by_cases hba : b = a
  · simp [hba]
  · rw [Function.update_of_ne hba]
    exact hb

/-- What cells hold are handles. -/
theorem Inv.handle_edge (h : Inv π s O work P) (hO : NonNeg O) {u : ℕ} {r : Ref}
    (hr : r ∈ s.edges u) : s.Handle P r := by
  refine ⟨h.not_priv (Or.inl hr), fun a ha => ?_⟩
  subst ha
  exact h.edge_live hO hr

theorem Inv.handle_slot (h : Inv π s O work P) (hO : NonNeg O) {u : ℕ} {r : Ref}
    (hr : r ∈ s.slots u) : s.Handle P r := by
  refine ⟨h.not_priv (Or.inr hr), fun a ha => ?_⟩
  subst ha
  have hl : s.live u := by
    intro hn
    rw [slots_of_none hn] at hr
    simp at hr
  exact h.live_of_held hO (held_pos_of_slot (h.bound u hl) hr)

theorem Inv.handle_root (h : Inv π s O work P) (hO : NonNeg O) {r : Ref} (hr : r ∈ s.roots) :
    s.Handle P r := by
  refine ⟨h.root_not_priv hr, fun a ha => ?_⟩
  subst ha
  exact h.live_of_held hO (held_pos_of_root hr)

theorem Inv.eq {Q : Own} (h : Inv π s O work P) (e : O = Q) : Inv π s Q work P := e ▸ h

/-- The null handle adds nothing. -/
theorem Inv.null (h : Inv π s O work P) : Inv π s (O + own .null) work P :=
  h.congr fun r hr => by rw [Pi.add_apply, own_null hr, add_zero]

theorem Inv.fail (h : Inv π s O [] P) (m : String) : Inv π (s.fail m).1 (O + own (s.fail m).2) [] P :=
  (h.same (same_rcError s m)).null

/-- Releasing a value that C code owns beside `B`. -/
theorem Inv.release {v : Ref} (h : Inv π s (B + own v) [] P) (hB : NonNeg B) (hp : v ∉ P) :
    Inv π (s.rcRelease v) B [] P := by
  have e : B + own v - own v = B := add_sub_cancel_right _ _
  have := rcRelease_inv h (by rw [e]; exact hB) hp
  rwa [e] at this

theorem Inv.release_frees {v : Ref} (h : Inv π s (B + own v) [] P) (hB : NonNeg B) (hp : v ∉ P) :
    Frees s (s.rcRelease v) := by
  have e : B + own v - own v = B := add_sub_cancel_right _ _
  exact rcRelease_frees h (by rw [e]; exact hB) hp

/-! ### Filling a new cell -/

/-- **Allocation.** A cell that is filled with handles takes them from C code and is owned by it. -/
theorem Inv.alloc (h : Inv π s O [] P) (hO : NonNeg O) (body : Payload) (reaches : Bool) (extra : ℕ)
    (hbytes : s.payloadBytes + extraBytes body ≤ 2 * addressBytes)
    (hkids : ∀ v ∈ (Ctx.fresh body reaches).edges,
      s.Handle P v ∧ (s.mayReachVector v = true → reaches = true))
    (hsym : ∀ t g f, body ≠ .symbol t g f)
    (hvec : ∀ items, body = .vector items → reaches = true) :
    (∃ s1, s.allocate body reaches extra = (s1, .null) ∧ Same s s1) ∨
    ∃ a s1, s.allocate body reaches extra = (s1, .cell a) ∧
      Placed s s1 a (Ctx.fresh body reaches) 1 ∧
      Inv π s1 (O - owns (Ctx.fresh body reaches).edges + own (.cell a)) [] P := by
  rcases allocate_cases h body reaches extra with h1 | ⟨a, s1, e, hp⟩
  · exact Or.inl h1
  refine Or.inr ⟨a, s1, e, hp, ?_⟩
  have hslots : (Ctx.fresh body reaches).slots = [] := by
    unfold Obj.slots Ctx.fresh
    cases body with
    | symbol t g f => exact absurd rfl (hsym t g f)
    | _ => rfl
  have := h.fresh hO hp (Or.inl rfl) rfl hbytes
    (fun w hw => ⟨(hkids _ hw).1.2 w rfl, (hkids _ hw).2⟩)
    (fun r hr => by
      rw [hslots] at hr
      rcases hr with hr | hr
      · exact (hkids r hr).1.1
      · simp at hr)
    hvec (fun t g f hb => absurd hb (hsym t g f))
  rw [hslots, owns_nil, sub_zero] at this
  exact this

/-- A cell without children. -/
theorem Inv.allocLeaf (h : Inv π s O [] P) (hO : NonNeg O) {body : Payload} {extra : ℕ}
    (hbytes : s.payloadBytes + extraBytes body ≤ 2 * addressBytes)
    (hkids : (Ctx.fresh body false).edges = []) (hsym : ∀ t g f, body ≠ .symbol t g f)
    (hvec : ∀ items, body ≠ .vector items) :
    Inv π (s.allocate body false extra).1 (O + own (s.allocate body false extra).2) [] P := by
  rcases h.alloc hO body false extra hbytes (fun v hv => by rw [hkids] at hv; simp at hv) hsym
    (fun items hi => absurd hi (hvec items)) with ⟨s1, e, hs⟩ | ⟨a, s1, e, -, hi⟩
  · rw [e]; exact (h.same hs).null
  · rw [e]
    rw [hkids, owns_nil, sub_zero] at hi
    exact hi

theorem rcNumber_inv (h : Inv π s O [] P) (hO : NonNeg O) (bits : UInt64) :
    Inv π (s.rcNumber bits).1 (O + own (s.rcNumber bits).2) [] P :=
  h.allocLeaf hO h.bytes rfl (by simp) (by simp)

theorem rcInteger_inv (h : Inv π s O [] P) (hO : NonNeg O) (n : ℤ) :
    Inv π (s.rcInteger n).1 (O + own (s.rcInteger n).2) [] P := by
  unfold rcInteger
  split_ifs
  · exact h.congr fun r hr => by rw [Pi.add_apply, own_imm hr, add_zero]
  · exact h.allocLeaf hO h.bytes rfl (by simp) (by simp)

/-- A payload that the allocator has room for fits. -/
theorem mallocBytes_fits {bytes : ℕ} (h : (s.mallocBytes bytes).1 = true) :
    s.payloadBytes + bytes ≤ addressBytes := by
  unfold mallocBytes at h
  exact of_decide_eq_true (Bool.and_eq_true _ _ ▸ h).2

theorem same_mallocBytes (s : Ctx) (bytes : ℕ) : Same s (s.mallocBytes bytes).2 := rfl

/-- A payload is allocated or the state is as it was; then it fits. -/
theorem same_mallocPayload (s : Ctx) (bytes : ℕ) : Same s (s.mallocPayload bytes).2 := by
  unfold mallocPayload
  split
  · rfl
  · rfl

theorem mallocPayload_fits (h : Inv π s O work P) {bytes : ℕ}
    (hm : (s.mallocPayload bytes).1 = true) :
    (s.mallocPayload bytes).2.payloadBytes + bytes ≤ 2 * addressBytes := by
  have hs := same_mallocPayload s bytes
  rw [payloadBytes_congr (congrArg Store.heap hs) (congrArg Store.size hs)]
  unfold mallocPayload at hm
  split at hm
  · rename_i h0
    rw [h0]
    exact h.bytes
  · have := mallocBytes_fits hm
    omega

theorem mallocPayload_room {bytes : ℕ} (hm : (s.mallocPayload bytes).1 = true) :
    bytes = 0 ∨ s.payloadBytes + bytes ≤ addressBytes := by
  unfold mallocPayload at hm
  split at hm
  · exact Or.inl ‹_›
  · exact Or.inr (mallocBytes_fits hm)

theorem rcString_inv (h : Inv π s O [] P) (hO : NonNeg O) (text : List UInt8) :
    Inv π (s.rcString text).1 (O + own (s.rcString text).2) [] P := by
  unfold rcString textValue
  split_ifs with h1 h2
  · exact h.fail _
  · have hf := mallocBytes_fits h2
    have h' := h.same (same_mallocBytes s (text.length + 1))
    refine h'.allocLeaf hO ?_ rfl (by simp) (by simp)
    have e : (s.mallocBytes (text.length + 1)).2.payloadBytes = s.payloadBytes := rfl
    rw [e, extraBytes]
    omega
  · exact (h.same (same_mallocBytes s _)).fail _

end Ctx

end ShenRc.Runtime
