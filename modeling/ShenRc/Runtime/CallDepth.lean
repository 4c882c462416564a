import ShenRc.Runtime.Bindings

/-! # The depth of the calls

`rc_call_enter` and `rc_call_leave` count the calls in progress, and what is kept for a call is given up
when the count drops to zero. Every path of the runtime that enters a call leaves it once, on success
and on failure (`step_counts`), so the counter shows the calls on the C stack and what client code
entered more often than it left, up to the width of the counter (`callDepth_counts`). -/

namespace ShenRc.Runtime

open Relation

namespace Ctx

variable {π : Policy} {s s' : Ctx} {O : Own} {P : Set Ref} {z : ℤ}

/-! ### The counter -/

/-- The counter shows `z`, up to its width. -/
def Counts (s : Ctx) (z : ℤ) : Prop := (s.callDepth : ℤ) = z % (sizeMax + 1)

theorem Counts.of_eq (h : Counts s z) (he : s'.callDepth = s.callDepth) : Counts s' z := by
  unfold Counts at *
  rw [he, h]

theorem Counts.enter (h : Counts s z) : Counts s.rcCallEnter (z + 1) := by
  unfold Counts rcCallEnter sizeMax at *
  dsimp only
  split_ifs
  · omega
  · omega

theorem rcCallLeave_callDepth (s : Ctx) :
    s.rcCallLeave.callDepth = if s.callDepth = 0 then sizeMax else s.callDepth - 1 := by
  unfold rcCallLeave
  generalize (if s.callDepth = 0 then sizeMax else s.callDepth - 1) = depth
  dsimp only
  split_ifs
  · rfl
  · exact (binds_releaseAll _ _).callDepth

theorem Counts.leave (h : Counts s z) : Counts s.rcCallLeave (z - 1) := by
  unfold Counts at *
  rw [rcCallLeave_callDepth]
  unfold sizeMax at *
  split_ifs
  · omega
  · omega

/-! ### Operations -/

theorem setSymbolSlot_callDepth (s : Ctx) (symbol value : Ref) (function : Bool) :
    (s.setSymbolSlot symbol value function).1.callDepth = s.callDepth := by
  by_cases h : (s.setSymbolSlot symbol value function).2 = true
  · obtain ⟨x, -, -, hrebinds⟩ := setSymbolSlot_rebinds h
    exact hrebinds.callDepth
  · exact (setSymbolSlot_refused (Bool.eq_false_iff.mpr h)).callDepth

/-- **No other operation changes the counter.** -/
theorem Inv.exec_callDepth (h : Inv π s O [] P) (hO : NonNeg O) (hb : Books 0 [] s) (o : Op)
    (henter : o ≠ .callEnter) (hleave : o ≠ .callLeave) : (o.exec s).1.callDepth = s.callDepth := by
  by_cases hglobal : ∃ x v, o = .globalSet x v
  · obtain ⟨x, v, rfl⟩ := hglobal
    exact setSymbolSlot_callDepth s x v false
  by_cases hfunction : ∃ x f, o = .functionSet x f
  · obtain ⟨x, f, rfl⟩ := hfunction
    show (s.rcFunctionSet x f).1.callDepth = s.callDepth
    unfold rcFunctionSet
    split_ifs
    · exact setSymbolSlot_callDepth s x f true
    · rfl
  · exact (h.binds_exec hO hb o (fun x v he => hglobal ⟨x, v, he⟩) (fun x f he => hfunction ⟨x, f, he⟩)
      henter hleave).callDepth

end Ctx

namespace Config

open Ctx

variable {π : Policy} {c c' : Config} {k : ℤ} {acyclic : Bool} {mem scratch marking : ℕ → Bool}

/-! ### Steps -/

/-- The client enters a call. -/
def Enters (c c' : Config) : Prop :=
  Step c c' ∧ ∃ s O rest, c = ⟨s, .client O :: rest⟩ ∧ c' = ⟨s.rcCallEnter, .client O :: rest⟩

/-- The client leaves a call. -/
def Leaves (c c' : Config) : Prop :=
  Step c c' ∧ ∃ s O rest, c = ⟨s, .client O :: rest⟩ ∧ c' = ⟨s.rcCallLeave, .client O :: rest⟩

/-- The client moves the counter, and no frame. -/
theorem Enters.moves (h : Enters c c') :
    c'.ctx.callDepth ≠ c.ctx.callDepth ∧ depth c'.stack = depth c.stack := by
  obtain ⟨-, s, O, rest, rfl, rfl⟩ := h
  refine ⟨?_, rfl⟩
  show s.rcCallEnter.callDepth ≠ s.callDepth
  unfold rcCallEnter sizeMax
  dsimp only
  split_ifs
  · omega
  · omega

theorem Leaves.moves (h : Leaves c c') :
    c'.ctx.callDepth ≠ c.ctx.callDepth ∧ depth c'.stack = depth c.stack := by
  obtain ⟨-, s, O, rest, rfl, rfl⟩ := h
  refine ⟨?_, rfl⟩
  show s.rcCallLeave.callDepth ≠ s.callDepth
  rw [rcCallLeave_callDepth]
  unfold sizeMax
  split_ifs
  · omega
  · omega

/-- A stretch of runtime code that has ended leaves its call. -/
theorem counts_after {leave : Bool} {rest : List Frame} {t : Turn}
    (h : Counts t.ctx (leave.toNat + depth rest + k)) :
    Counts (after leave rest t).ctx (depth (after leave rest t).stack + k) := by
  rcases t with ⟨s, result⟩ | ⟨s, request, pending⟩ | ⟨s, fn, args, owned, w⟩
  · have hstack : depth (after leave rest (.done s result)).stack = depth rest := by
      rcases rest with _ | ⟨f, rest⟩
      · rfl
      rcases f with O | ⟨request, pending, l⟩ | ⟨w, l⟩
      · show depth (.client _ :: rest) = depth (.client O :: rest)
        rw [depth_cons, depth_cons]
        rfl
      · rfl
      · rfl
    rw [hstack]
    rcases leave with _ | _
    · rw [Bool.toNat_false, Nat.cast_zero, zero_add] at h
      exact h
    · have hleave := h.leave
      rw [Bool.toNat_true, Nat.cast_one, show (1 + (depth rest : ℤ) + k) - 1 = depth rest + k by ring]
        at hleave
      exact hleave
  · show Counts s (depth (.apply request pending leave :: rest) + k)
    rw [depth_cons]
    push_cast
    exact h
  · show Counts s (depth (.client _ :: .wait w leave :: rest) + k)
    rw [depth_cons, depth_cons]
    push_cast
    rw [show (leaves (.client (if owned then owns args else 0)) : ℤ) = 0 from rfl, zero_add]
    exact h

/-- **Every path that enters a call leaves it once.** -/
theorem step_counts (hok : c.Ok π) (hb : Books 0 [] c.ctx) (hs : Step c c') (he : ¬ Enters c c')
    (hl : ¬ Leaves c c') (h : Counts c.ctx (depth c.stack + k)) :
    Counts c'.ctx (depth c'.stack + k) := by
  rcases step_cases hok hb hs with ⟨s, O, rest, o, rfl, rfl⟩ | ⟨leave, rest, t, rfl, hbinds, hdepth⟩ |
    ⟨rest, t, rfl, hbinds, hdepth⟩
  · have hsame : ∀ {s' : Ctx}, o.exec s = (s', []) → o.takes = [] →
        (⟨(o.exec s).1, .client (O - owns o.takes + owns (o.exec s).2) :: rest⟩ : Config) =
          ⟨s', .client O :: rest⟩ := fun hexec htakes => by
      rw [hexec, htakes, owns_nil, sub_zero, add_zero]
    have henter : o ≠ .callEnter := by
      rintro rfl
      exact he ⟨hs, s, O, rest, rfl, hsame rfl rfl⟩
    have hleave : o ≠ .callLeave := by
      rintro rfl
      exact hl ⟨hs, s, O, rest, rfl, hsame rfl rfl⟩
    have hdepth : depth (.client O :: rest) =
        depth (.client (O - owns o.takes + owns (o.exec s).2) :: rest) := by
      rw [depth_cons, depth_cons]
      rfl
    have hafter := h.of_eq (hok.inv.exec_callDepth hok.frames.sum hb o henter hleave)
    show Counts (o.exec s).1 (depth (.client (O - owns o.takes + owns (o.exec s).2) :: rest) + k)
    rw [← hdepth]
    exact hafter
  · have hturn := h.of_eq hbinds.callDepth
    rw [hdepth] at hturn
    push_cast at hturn
    exact counts_after hturn
  · have hturn := h.enter.of_eq hbinds.callDepth
    rw [hdepth, show ((depth rest : ℤ) + k) + 1 = (true.toNat : ℤ) + depth rest + k by
      rw [Bool.toNat_true, Nat.cast_one]
      ring] at hturn
    exact counts_after hturn

/-! ### Runs -/

/-- The runs in a new context, with what client code has entered more often than it has left. -/
inductive Entered (acyclic : Bool) (mem scratch marking : ℕ → Bool) : ℤ → Config → Prop
  | start : Entered acyclic mem scratch marking 0 (start acyclic mem scratch marking)
  | enter {k : ℤ} {c c' : Config} (h : Entered acyclic mem scratch marking k c) (hs : Enters c c') :
      Entered acyclic mem scratch marking (k + 1) c'
  | leave {k : ℤ} {c c' : Config} (h : Entered acyclic mem scratch marking k c) (hs : Leaves c c') :
      Entered acyclic mem scratch marking (k - 1) c'
  | other {k : ℤ} {c c' : Config} (h : Entered acyclic mem scratch marking k c) (hs : Step c c')
      (he : ¬ Enters c c') (hl : ¬ Leaves c c') : Entered acyclic mem scratch marking k c'

theorem Entered.reachable (h : Entered acyclic mem scratch marking k c) :
    Reachable acyclic mem scratch marking c := by
  induction h with
  | start => exact .refl
  | enter _ hs ih => exact ih.tail hs.1
  | leave _ hs ih => exact ih.tail hs.1
  | other _ hs _ _ ih => exact ih.tail hs

/-- Every run has such a number. -/
theorem reachable_entered (h : Reachable acyclic mem scratch marking c) :
    ∃ k, Entered acyclic mem scratch marking k c := by
  induction h with
  | refl => exact ⟨0, .start⟩
  | @tail c c' _ hs ih =>
    obtain ⟨k, hk⟩ := ih
    by_cases he : Enters c c'
    · exact ⟨k + 1, hk.enter he⟩
    by_cases hl : Leaves c c'
    · exact ⟨k - 1, hk.leave hl⟩
    · exact ⟨k, hk.other hs he hl⟩

/-- **The counter shows the calls in progress**: those of the runtime on the C stack, and what client
code has entered more often than it has left, modulo the range of the counter. -/
theorem callDepth_counts (hsc : ∀ k, scratch k = true)
    (h : Entered acyclic mem scratch marking k c) :
    (c.ctx.callDepth : ℤ) = (depth c.stack + k) % (sizeMax + 1) := by
  induction h with
  | start => rfl
  | enter _ hs ih =>
    obtain ⟨-, s, O, rest, rfl, rfl⟩ := hs
    have hcounts := Counts.enter ih
    rw [add_assoc] at hcounts
    exact hcounts
  | leave _ hs ih =>
    obtain ⟨-, s, O, rest, rfl, rfl⟩ := hs
    have hcounts := Counts.leave ih
    rw [add_sub_assoc] at hcounts
    exact hcounts
  | other hrun hs he hl ih =>
    exact step_counts (reachable_ok hsc hrun.reachable) (reachable_books hrun.reachable) hs he hl ih

/-- A host that has entered a call. -/
def entering : Ctx := (rcContextNew false (fun _ => true) (fun _ => true) fun _ => true).rcCallEnter

/-- The callback of a closure that the host applies runs at depth two. -/
theorem callDepth_counts_callback : ∃ c,
    Entered false (fun _ => true) (fun _ => true) (fun _ => true) 1 c ∧ depth c.stack = 1 ∧
      (c.ctx.callDepth : ℤ) = 2 := by
  have hclient : permitted (rcContextNew false (fun _ => true) (fun _ => true) fun _ => true) []
      [.callEnter] = true := by decide +kernel
  have hentered : Entered false (fun _ => true) (fun _ => true) (fun _ => true) 1
      ⟨entering, [.client 0]⟩ := by
    have hstep := host_step hclient
    rw [owns_nil] at hstep
    have hcall : Step (start false (fun _ => true) (fun _ => true) fun _ => true)
        ⟨entering, [.client (owns [])]⟩ := hstep
    rw [owns_nil] at hcall
    exact Entered.enter .start ⟨hcall, _, _, _, rfl, rfl⟩
  have hmade : permitted entering [] [.closure 1 7 []] = true := by decide +kernel
  have hclosure : Step ⟨entering, [.client 0]⟩
      ⟨(entering.rcClosure 1 7 []).1, [.client (owns [.cell 0])]⟩ := by
    have hstep := host_step hmade
    rw [owns_nil] at hstep
    exact hstep
  have hprepared := hentered.other hclosure (fun he => he.moves.1 (by decide +kernel))
    fun hl => hl.moves.1 (by decide +kernel)
  have huse : Usable (entering.rcClosure 1 7 []).1
      (hidden ⟨(entering.rcClosure 1 7 []).1, [.client (owns [.cell 0])]⟩) [.cell 0, .nil] := by
    intro v hv
    refine ⟨by simp [hidden, Frame.hidden], fun a ha => ?_⟩
    have ha' : Ref.cell a = .cell 0 := by simpa [ha] using hv
    obtain rfl := Ref.cell.inj ha'
    decide +kernel
  have happly := Step.apply _ _ [] _ _ huse
  have hcallback := hprepared.other happly
    (fun he => absurd he.moves.2 (by decide +kernel)) fun hl => absurd hl.moves.2 (by decide +kernel)
  exact ⟨_, hcallback, by decide +kernel, callDepth_counts (fun _ => rfl) hcallback⟩

end Config

end ShenRc.Runtime
