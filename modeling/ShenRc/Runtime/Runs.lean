import ShenRc.Runtime.ApplyOps

/-! # The invariant of runs

`Config.Ok` is the invariant of a configuration: the context satisfies `Inv` with what all frames of
the C stack own and with the pending requests of all calls kept private, and the frames stand in the
order in which calls nest. Every operation keeps it (`exec_inv`), every step keeps it (`step_ok`),
and so it holds in every configuration that a run reaches (`reachable_ok`). The runs of a host that
calls no client code can be computed (`host_reachable`). -/

namespace ShenRc.Runtime

open Relation ShenRc.Graph

namespace Ctx

variable {π : Policy} {s : Ctx} {O B : Own} {P : Set Ref}

/-! ### Operations -/

theorem mem_kept_or_moved {captures : List Ref} {moved : BitVec 32} {v : Ref} (hv : v ∈ captures) :
    v ∈ keptRefs captures moved ++ movedRefs captures moved := by
  have h1 := owns_pos hv
  rw [← owns_moved_kept captures moved, add_comm, ← owns_append] at h1
  by_contra hn
  rw [owns_zero hn] at h1
  omega

/-- A closure that returns its second argument. -/
theorem certified_inv (h : Inv π s B [] P) (hB : NonNeg B) {captures : List Ref}
    (hk : ∀ v ∈ captures, s.Handle P v) (native ownedNative : Option ℕ) :
    Inv π (certify (s.closureCreate 2 native ownedNative captures)).1
      (B + own (certify (s.closureCreate 2 native ownedNative captures)).2) [] P := by
  refine certify_inv (closureCreate_inv h hB hk 2 native ownedNative) hB fun hp => ?_
  rcases closureCreate_spec h hB hk 2 native ownedNative with
    ⟨s1, e, -⟩ | ⟨a, s1, e, h1, -, -, hheap, -⟩
  · rw [e] at hp
    obtain ⟨-, -, a, -, -, -, ha, -⟩ := h.priv _ hp
    cases ha
  · rw [e] at hp
    obtain ⟨-, -, b, o, args, g, hb, ho, hbody⟩ := h1.priv _ hp
    cases hb
    rw [hheap, Function.update_self] at ho
    cases ho
    cases hbody

/-- A result that an operation hands out. -/
theorem inv_one {r : Ctx × Ref} (h : Inv π r.1 (B + own r.2) [] P) :
    Inv π (Op.exec.one r).1 (B + owns (Op.exec.one r).2) [] P :=
  h.eq (by rw [Op.exec.one, owns_singleton])

theorem inv_two {r : Ctx × Ref × Ref} (h : Inv π r.1 (B + own r.2.1 + own r.2.2) [] P) :
    Inv π (Op.exec.two r).1 (B + owns (Op.exec.two r).2) [] P :=
  h.eq (by rw [Op.exec.two, owns_cons, owns_singleton, add_assoc])

/-- An operation that hands out nothing. -/
theorem inv_none {s : Ctx} (h : Inv π s B [] P) : Inv π s (B + owns []) [] P :=
  h.eq (by rw [owns_nil, add_zero])

/-- **Every operation keeps the invariant.** -/
theorem exec_inv (o : Op) (h : Inv π s (B + owns o.takes) [] P) (hB : NonNeg B)
    (hu : ∀ v ∈ o.uses ++ o.takes, s.Handle P v)
    (ha : o.Allowed s (B + owns o.takes)) : Inv π (o.exec s).1 (B + owns (o.exec s).2) [] P := by
  have h0 : o.takes = [] → Inv π s B [] P := fun e => h.eq (by rw [e, owns_nil, add_zero])
  have h1 : ∀ v, o.takes = [v] → Inv π s (B + own v) [] P := fun v e =>
    h.eq (by rw [e, owns_singleton])
  cases o with
  | retain v =>
    have hv := hu v (by simp [Op.uses])
    refine (rcRetain_inv (h0 rfl) hv.2 hv.1).eq ?_
    rw [Op.exec, owns_singleton]
  | release v => exact inv_none ((h1 v rfl).release hB (hu v (by simp [Op.takes])).1)
  | number bits => exact inv_one (rcNumber_inv (h0 rfl) hB bits)
  | integer n => exact inv_one (rcInteger_inv (h0 rfl) hB n)
  | string text => exact inv_one (rcString_inv (h0 rfl) hB text)
  | symbol name => exact inv_one (rcSymbol_inv (h0 rfl) hB name)
  | cons hd tl =>
    exact inv_one (rcCons_inv (h0 rfl) hB (hu hd (by simp [Op.uses])) (hu tl (by simp [Op.uses])))
  | consOwned hd tl =>
    exact inv_one (rcConsOwned_inv h hB (hu hd (by simp [Op.takes])) (hu tl (by simp [Op.takes])))
  | consReuse c hd tl =>
    exact inv_one (rcConsReuse_inv (h1 c rfl) hB (hu c (by simp [Op.takes]))
      (hu hd (by simp [Op.uses])) (hu tl (by simp [Op.uses])))
  | consReuseOwned c hd tl =>
    exact inv_one (rcConsReuseOwned_inv h hB (hu c (by simp [Op.takes]))
      (hu hd (by simp [Op.takes])) (hu tl (by simp [Op.takes])))
  | pairTakeUnique p first =>
    refine inv_one (rcPairTakeUnique_inv (h0 rfl) hB (hu p (by simp [Op.uses])) (fun hh => ?_) first)
    have := ha hh
    simpa [Op.takes] using this
  | pairTakeLast p first =>
    exact inv_two (rcPairTakeLast_inv (h1 p rfl) hB (hu p (by simp [Op.takes])) first)
  | pairTakeTailReuse c =>
    exact inv_two (rcPairTakeTailReuse_inv (h1 c rfl) hB (hu c (by simp [Op.takes])))
  | head v => exact inv_one (rcHead_inv (h0 rfl) hB v)
  | tail v => exact inv_one (rcTail_inv (h0 rfl) hB v)
  | vector n => exact inv_one (rcVector_inv (h0 rfl) hB n)
  | vectorGet v i => exact inv_one (rcVectorGet_inv (h0 rfl) hB v i)
  | vectorSet v i item =>
    exact inv_none (rcVectorSet_inv (h0 rfl) hB i (hu v (by simp [Op.uses]))
      (hu item (by simp [Op.uses])))
  | closure arity native captures =>
    exact inv_one (closureCreate_inv (h0 rfl) hB (fun v hv => hu v (by simp [Op.uses, hv])) ..)
  | closureOwned arity native captures =>
    exact inv_one (closureCreate_inv (h0 rfl) hB (fun v hv => hu v (by simp [Op.uses, hv])) ..)
  | closureMoved arity native captures moved =>
    refine inv_one (closureCreateMoved_inv h hB (fun v hv => hu v ?_) ..)
    exact mem_kept_or_moved hv
  | closureReturnSecond native captures =>
    exact inv_one (certified_inv (h0 rfl) hB (fun v hv => hu v (by simp [Op.uses, hv])) ..)
  | closureReturnSecondOwned native captures =>
    exact inv_one (certified_inv (h0 rfl) hB (fun v hv => hu v (by simp [Op.uses, hv])) ..)
  | closureStatic v => exact inv_one (rcClosureStatic_inv (h1 v rfl) hB (hu v (by simp [Op.takes])))
  | tailcall fn argv =>
    exact inv_one (rcTailcall_inv (h0 rfl) hB (hu fn (by simp [Op.uses]))
      fun v hv => hu v (by simp [Op.uses, hv]))
  | tailcallOwnedArgs fn argv =>
    exact inv_one (rcTailcallOwnedArgs_inv h hB (hu fn (by simp [Op.uses]))
      fun v hv => hu v (List.mem_append_right _ hv))
  | requireBoolean v => exact inv_one (requireGuard_inv (h1 v rfl) hB (hu v (by simp [Op.takes])) _)
  | requireArgumentContext v =>
    exact inv_one (requireGuard_inv (h1 v rfl) hB (hu v (by simp [Op.takes])) _)
  | envFrame parent bindings =>
    exact inv_one (rcEnvFrame_inv (h0 rfl) hB (hu parent (by simp [Op.uses]))
      fun v hv => hu v (by
        simp only [Op.uses, Op.takes, List.append_nil, List.mem_cons, List.mem_append]
        exact Or.inr (Or.inr hv)))
  | evalEnvFrame self callback argv =>
    exact inv_one (rcEvalEnvFrame_inv (h0 rfl) hB callback fun v hv => hu v (by simp [Op.uses, hv]))
  | planHeat e => exact inv_none (rcEvalPlanHeat_inv (h0 rfl) hB (hu e (by simp [Op.uses])))
  | planSet e plan =>
    obtain ⟨p, q, rfl, rfl, ⟨o, hd, tl, ho, hb⟩, hpq⟩ := ha
    exact inv_none (rcEvalPlanSet_inv (h0 rfl) hB ho hb hpq (hu _ (by simp [Op.uses]))
      (hu _ (by simp [Op.uses])))
  | planPromote self prepared plan =>
    obtain ⟨a, p, q, rest, rfl, rfl, ⟨o, c, ho, hb, hc⟩, hpair, hpq, hno⟩ := ha
    exact inv_none (rcEvalPlanPromote_inv (h0 rfl) hB ho hb hc hpair hpq hno
      (hu _ (by simp [Op.uses])) (hu _ (by simp [Op.uses])) prepared)
  | globalSet x v => exact inv_none (rcGlobalSet_inv (h0 rfl) hB (hu v (by simp [Op.uses])))
  | functionSet x f => exact inv_none (rcFunctionSet_inv (h0 rfl) hB (hu f (by simp [Op.uses])))
  | globalGet x => exact inv_one (rcGlobalGet_inv (h0 rfl) hB x)
  | functionGet x => exact inv_one (rcFunctionGet_inv (h0 rfl) hB x)
  | functionLookup x => exact inv_one (rcFunctionLookup_inv (h0 rfl) hB x)
  | builtinCacheSet slot fn =>
    exact inv_none (rcBuiltinCacheSet_inv (h0 rfl) hB ha.1 ha.2 (hu fn (by simp [Op.uses])))
  | callEnter => exact inv_none (rcCallEnter_inv (h0 rfl))
  | callLeave => exact inv_none (rcCallLeave_inv (h0 rfl) hB)
  | error message => exact inv_none ((h0 rfl).same rfl)
  | clearError => exact inv_none ((h0 rfl).same rfl)
  | setCollectionInterval n => exact inv_none ((h0 rfl).same rfl)
  | safepoint => exact inv_none (rcSafepoint_inv (h0 rfl) hB)
  | collect => exact inv_none (rcCollect_inv (h0 rfl) hB).1

/-! ### The first configuration -/

/-- **A new context satisfies the invariant.** -/
theorem rcContextNew_inv (acyclic : Bool) (mem marking : ℕ → Bool) {scratch : ℕ → Bool}
    (hsc : ∀ k, scratch k = true) :
    Inv ⟨acyclic, marking⟩ (rcContextNew acyclic mem scratch marking) 0 [] ∅ := by
  have hedge : ∀ u w, ¬ (rcContextNew acyclic mem scratch marking).Edge u w := fun u w he => he.live rfl
  refine {
    bal := fun r hr => ?_
    dead := fun a _ => rfl
    zero := fun a ha => absurd rfl ha
    workLive := by simp
    workNodup := List.nodup_nil
    bound := fun a ha => absurd rfl ha
    space := Nat.zero_le _
    bytes := Nat.zero_le _
    freeDead := by simp [rcContextNew]
    freeNodup := List.nodup_nil
    flags := fun u w he => absurd he (hedge u w)
    vec := fun a o items ho => by cases ho
    srcVec := by simp [rcContextNew]
    srcNodup := List.nodup_nil
    srcCount := rfl
    acyc := ?_
    acyclicSrc := fun _ => rfl
    unvisited := fun a _ => rfl
    sym := fun a o t g f ho => by cases ho
    static := by simp [rcContextNew]
    plans := fun p q o e ho => by cases ho
    priv := fun r hr => absurd hr (Set.notMem_empty r)
    ok := rfl
    idle := rfl
    roomy := hsc
    policy := rfl
    word := fun r => Nat.zero_le _ }
  · have hne : r ≠ .null := by rintro rfl; simp [isCounted] at hr
    have hroot : r ∉ (rcContextNew acyclic mem scratch marking).roots := by
      simp only [roots, rcContextNew, List.append_nil, List.mem_ofFn, not_exists]
      exact fun _ e => hne e.symm
    rw [held, List.count_eq_zero.mpr hroot]
    rfl
  · intro a ha
    obtain ⟨b, hb, -⟩ := TransGen.head'_iff.mp ha
    exact hedge _ _ hb.1

end Ctx

namespace Config

variable {π : Policy} {s : Ctx} {O B : Own} {fs rest : List Frame}

/-! ### The stack -/

/-- What the frames of a stack own. -/
def ownOf (fs : List Frame) : Own := (fs.map Frame.own).sum

/-- The pending requests of the frames of a stack. -/
def hiddenOf (fs : List Frame) : Set Ref := {r | r ∈ fs.flatMap Frame.hidden}

theorem ownOf_cons (f : Frame) (fs : List Frame) : ownOf (f :: fs) = f.own + ownOf fs := by
  rw [ownOf, List.map_cons, List.sum_cons, ownOf]

/-- Frames that own no negative number of references. -/
def AllNonNeg (fs : List Frame) : Prop := ∀ f ∈ fs, NonNeg f.own

theorem AllNonNeg.sum : ∀ {fs : List Frame}, AllNonNeg fs → NonNeg (ownOf fs)
  | [], _ => fun _ _ => le_rfl
  | f :: fs, h => by
    rw [ownOf_cons]
    exact NonNeg.add (h f (List.mem_cons_self ..))
      (AllNonNeg.sum fun g hg => h g (List.mem_cons_of_mem _ hg))

theorem AllNonNeg.cons {f : Frame} (hf : NonNeg f.own) (h : AllNonNeg fs) : AllNonNeg (f :: fs) := by
  intro g hg
  rcases List.mem_cons.mp hg with rfl | hg
  · exact hf
  · exact h g hg

theorem AllNonNeg.tail {f : Frame} (h : AllNonNeg (f :: fs)) : AllNonNeg fs := fun g hg =>
  h g (List.mem_cons_of_mem _ hg)

/-- A frame owns its pending requests. -/
theorem Frame.hidden_owned {f : Frame} {r : Ref} (h : r ∈ f.hidden) : 1 ≤ f.own r := by
  cases f with
  | client O => simp [Frame.hidden] at h
  | apply request pending leave => exact owns_pos (List.mem_cons_of_mem _ h)
  | wait w leave => exact owns_pos (List.mem_append_right _ h)

/-- The pending requests of a stack are owned by its frames. -/
theorem covers_stack : ∀ {fs : List Frame}, AllNonNeg fs → Ctx.Covers (ownOf fs) (hiddenOf fs)
  | [], _ => fun r hr => by simp [hiddenOf] at hr
  | f :: fs, h => fun r hr hh => by
    have h1 := h f (List.mem_cons_self ..) r hh
    have h2 := h.tail.sum r hh
    rw [ownOf_cons, Pi.add_apply]
    rcases List.mem_append.mp (show r ∈ f.hidden ++ fs.flatMap Frame.hidden from hr) with hr | hr
    · have := Frame.hidden_owned hr
      omega
    · have := covers_stack h.tail r hr hh
      omega

/-- The stack of a host that runs, or of a callback that runs inside calls. -/
inductive Nested : List Frame → Prop
  | host (O : Own) : Nested [.client O]
  | callback (O : Own) (w : Wait) (leave : Bool) {rest : List Frame} (h : Nested rest) :
      Nested (.client O :: .wait w leave :: rest)

theorem Nested.reown {O' : Own} (h : Nested (.client O :: rest)) : Nested (.client O' :: rest) := by
  cases h with
  | host => exact .host O'
  | callback _ w leave h => exact .callback O' w leave h

/-- Client code runs, or the loop of an application with a request at hand. -/
def Shaped (s : Ctx) (fs : List Frame) : Prop :=
  Nested fs ∨ ∃ request pending leave rest, fs = .apply request pending leave :: rest ∧ Nested rest ∧
    ∃ a f args g, s.asTail request = some (a, f, args, g)

/-- **The invariant of a configuration.** -/
structure Ok (π : Policy) (c : Config) : Prop where
  inv : c.ctx.Inv π c.own [] c.hidden
  frames : AllNonNeg c.stack
  shape : Shaped c.ctx c.stack

/-! ### One step -/

/-- **A stretch of runtime code leads to a configuration that satisfies the invariant.** -/
theorem after_ok {leave : Bool} {t : Turn} (hn : Nested rest) (hf : AllNonNeg rest)
    (h : t.Ok π (ownOf rest) (hiddenOf rest)) : (after leave rest t).Ok π := by
  cases t with
  | done s result =>
    have hleave : s.Inv π (ownOf rest + Runtime.own result) [] (hiddenOf rest) →
        (if leave then s.rcCallLeave else s).Inv π (ownOf rest + Runtime.own result) []
          (hiddenOf rest) := fun h => by
      split
      · exact Ctx.rcCallLeave_inv h (hf.sum.add (nonNeg_own _))
      · exact h
    have h1 := hleave h
    have key : ∀ O rest', rest = .client O :: rest' → (after leave rest (.done s result)).Ok π := by
      rintro O rest' rfl
      refine ⟨h1.eq ?_, AllNonNeg.cons ?_ hf.tail, Or.inl hn.reown⟩
      · change ownOf _ + _ = ownOf (.client (O + Runtime.own result) :: rest')
        rw [ownOf_cons, ownOf_cons]
        change O + ownOf rest' + _ = O + Runtime.own result + ownOf rest'
        abel
      · exact NonNeg.add (hf _ (List.mem_cons_self ..)) (nonNeg_own _)
    cases hn with
    | host O => exact key O [] rfl
    | callback O w l h => exact key O _ rfl
  | again s request pending =>
    obtain ⟨h1, h2⟩ := h
    refine ⟨?_, AllNonNeg.cons (nonNeg_owns _) hf, Or.inr ⟨_, _, _, _, rfl, hn, h2⟩⟩
    refine (h1.reveal fun r hr => ?_).eq ?_
    · rcases List.mem_append.mp (show r ∈ pendingOwned pending ++ rest.flatMap Frame.hidden from hr)
        with hr | hr
      · exact Or.inr hr
      · exact Or.inl hr
    · change _ = ownOf (.apply request pending leave :: rest)
      rw [ownOf_cons, add_comm]
      rfl
  | call s fn args owned w =>
    refine ⟨?_, AllNonNeg.cons ?_ (AllNonNeg.cons (nonNeg_owns _) hf),
      Or.inl (.callback _ _ _ hn)⟩
    · refine (Ctx.Inv.reveal (P := Ctx.keeps (hiddenOf rest) w.pending) h fun r hr => ?_).eq ?_
      · rcases List.mem_append.mp
          (show r ∈ pendingOwned w.pending ++ rest.flatMap Frame.hidden from hr) with hr | hr
        · exact Or.inr hr
        · exact Or.inl hr
      · change _ = ownOf (.client (if owned then owns args else 0) :: .wait w leave :: rest)
        rw [ownOf_cons, ownOf_cons]
        change ownOf rest + ((if owned then owns args else 0) + (Frame.wait w leave).own) =
          (if owned then owns args else 0) + ((Frame.wait w leave).own + ownOf rest)
        abel
    · exact Ctx.nonNeg_argOwn owned args

/-- What is left to the frames when the client gives references away. -/
theorem give {vs : List Ref} (h : s.Inv π (ownOf (.client O :: rest)) [] (hiddenOf rest)) :
    s.Inv π (ownOf (.client (O - owns vs) :: rest) + owns vs) [] (hiddenOf rest) := by
  refine h.eq ?_
  rw [ownOf_cons, ownOf_cons]
  change O + ownOf rest = O - owns vs + ownOf rest + owns vs
  abel

theorem nonNeg_give {vs : List Ref} (ht : Owned O vs) : NonNeg (O - owns vs) := fun r hr => by
  have := ht r hr
  rw [Pi.sub_apply]
  omega

/-- **Every step keeps the invariant.** -/
theorem step_ok {c c' : Config} (h : c.Ok π) (hs : Step c c') : c'.Ok π := by
  -- The client gives away what a call takes over and stays below it on the stack.
  have key : ∀ {s : Ctx} {O : Own} {rest : List Frame} (vs : List Ref),
      (⟨s, .client O :: rest⟩ : Config).Ok π → Owned O vs →
      Nested (.client (O - owns vs) :: rest) ∧ AllNonNeg (.client (O - owns vs) :: rest) ∧
        s.Inv π (ownOf (.client (O - owns vs) :: rest) + owns vs) [] (hiddenOf rest) := by
    intro s O rest vs h ht
    refine ⟨?_, AllNonNeg.cons (nonNeg_give ht) h.frames.tail, give h.inv⟩
    rcases h.shape with hn | ⟨_, _, _, _, e, -⟩
    · exact hn.reown
    · cases e
  cases hs with
  | op s O rest o hu ht ha =>
    obtain ⟨hn, hf, hi⟩ := key _ h ht
    have hle : o.Allowed s (ownOf (.client (O - owns o.takes) :: rest) + owns o.takes) := by
      cases o with
      | pairTakeUnique p first =>
        intro hh
        have h1 := ha hh
        have h2 := h.frames.tail.sum p hh
        rw [ownOf_cons]
        simp only [Frame.own, Pi.add_apply, Pi.sub_apply]
        omega
      | _ => exact ha
    have h1 := Ctx.exec_inv o hi hf.sum hu hle
    refine ⟨h1.eq ?_, AllNonNeg.cons ((nonNeg_give ht).add (nonNeg_owns _)) hf.tail,
      Or.inl hn.reown⟩
    change _ = ownOf (.client (O - owns o.takes + owns (o.exec s).2) :: rest)
    rw [ownOf_cons, ownOf_cons]
    change O - owns o.takes + ownOf rest + _ = O - owns o.takes + _ + ownOf rest
    abel
  | apply s O rest fn argv hu =>
    obtain ⟨hn, hf, hi⟩ := key [] h (fun r hr => by
      rw [owns_nil]
      exact h.frames _ (List.mem_cons_self ..) r hr)
    rw [owns_nil, sub_zero] at hn hf hi
    exact after_ok hn hf (Ctx.applyStart_ok false hi hf.sum
      (hu fn (List.mem_cons_self ..)) fun v hv => hu v (List.mem_cons_of_mem _ hv))
  | applyOwnedArgs s O rest fn argv hu ht =>
    obtain ⟨hn, hf, hi⟩ := key _ h ht
    exact after_ok hn hf (Ctx.applyStart_ok true hi hf.sum
      (hu fn (List.mem_cons_self ..)) fun v hv => hu v (List.mem_cons_of_mem _ hv))
  | applyRootedOwnedArgs s O rest fn argv hu ht =>
    obtain ⟨hn, hf, hi⟩ := key _ h ht
    exact after_ok hn hf (Ctx.applyRootedOwnedArgs_ok hi hf.sum
      (hu fn (List.mem_cons_self ..)) fun v hv => hu v (List.mem_cons_of_mem _ hv))
  | callMixed s O rest fn argv borrowed t hu ht hm =>
    obtain ⟨hn, hf, hi⟩ := key _ h ht
    exact after_ok hn hf (Ctx.callMixed_ok hi (fun v hv => hu v (List.mem_cons_of_mem _ hv)) hm)
  | callMixedGeneral s O rest fn argv borrowed hu ht hm =>
    obtain ⟨hn, hf, hi⟩ := key _ h ht
    exact after_ok hn hf (Ctx.callMixedGeneral_ok hi hf.sum
      (hu fn (List.mem_cons_self ..)) fun v hv => hu v (List.mem_cons_of_mem _ hv))
  | compiledCallComplete s O rest result argv hu ht hf' =>
    obtain ⟨hn, hf, hi⟩ := key _ h ht
    have h1 := (hi.eq (Q := _ + Runtime.own result + owns argv) (by
      rw [owns_cons, ← add_assoc])).releaseOwned (hf.sum.add (nonNeg_own _))
      ((covers_stack hf).add (nonNeg_own _))
    exact after_ok hn hf (Ctx.callComplete_ok h1 hf.sum (covers_stack hf) hf')
  | turn s rest request pending leave =>
    rcases h.shape with hn | ⟨_, _, _, _, e, hn, ht⟩
    · cases hn
    cases e
    refine after_ok hn h.frames.tail (Ctx.applyTurn_ok (Ctx.Inv.eq (h.inv.reveal fun r hr => ?_) ?_)
      h.frames.tail.sum (covers_stack h.frames.tail) ht)
    · refine List.mem_append.mpr ?_
      rcases hr with hr | hr
      · exact Or.inr hr
      · exact Or.inl hr
    · change ownOf (_ :: rest) = _
      rw [ownOf_cons, add_comm]
      rfl
  | ret s O rest w leave result left hu ht hf' =>
    have hn : Nested rest := by
      rcases h.shape with hn | ⟨_, _, _, _, e, -⟩
      · cases hn with
        | callback _ _ _ hn => exact hn
      · cases e
    have hf := h.frames.tail.tail
    refine after_ok hn hf (Ctx.afterCallback_ok (Ctx.Inv.congr (h.inv.reveal fun r hr => ?_)
      fun r hr => ?_) hf.sum (covers_stack hf) hf')
    · refine List.mem_append.mpr (Or.inr (List.mem_append.mpr ?_))
      rcases hr with hr | hr
      · exact Or.inr hr
      · exact Or.inl hr
    · change ownOf (.client O :: .wait w leave :: rest) r = _
      rw [ownOf_cons, ownOf_cons]
      simp only [Frame.own, Pi.add_apply, ht r hr]
      ring

/-- **Every configuration of a run satisfies the invariant**, as long as the work arrays of searches
and of discovery can grow. -/
theorem reachable_ok {acyclic : Bool} {mem scratch marking : ℕ → Bool}
    (hsc : ∀ k, scratch k = true) {c : Config} (h : Reachable acyclic mem scratch marking c) :
    c.Ok ⟨acyclic, marking⟩ := by
  induction h with
  | refl =>
    refine ⟨?_, ?_, Or.inl (.host 0)⟩
    · refine ((Ctx.rcContextNew_inv acyclic mem marking hsc).reveal fun r hr => ?_).eq ?_
      · simp [hidden, start, Frame.hidden] at hr
      · simp [own, start, Frame.own]
    · intro f hf
      rw [start, List.mem_singleton] at hf
      subst hf
      exact fun _ _ => le_rfl
  | tail _ hs ih => exact step_ok ih hs

/-! ### Runs of a host

A host that calls no client code performs a list of operations one after the other. What it owns is
a list of handles, so whether the interface permits the operations can be computed
(`permitted`), and a permitted list of operations is a run (`perform_reachable`). -/

/-- The operations of which the interface asks no more than ownership. -/
def unconditional : Op → Bool
  | .pairTakeUnique _ _ => false
  | .head v => !v.isForeign
  | .tail v => !v.isForeign
  | .vectorGet v _ => !v.isForeign
  | .closureStatic v => !v.isForeign
  | .planSet _ _ => false
  | .planPromote _ _ _ => false
  | .builtinCacheSet _ _ => false
  | _ => true

theorem allowed_of_unconditional {s : Ctx} {O : Own} {o : Op} (h : unconditional o = true) :
    o.Allowed s O := by
  cases o <;> simp_all [unconditional, Op.Allowed]

/-- The handle is that of a value in use. -/
def inUse (s : Ctx) : Ref → Bool
  | .cell a => decide (s.live a)
  | _ => true

/-- Perform operations one after the other, from a context and the handles that the host owns. -/
def perform (s : Ctx) (handles : List Ref) : List Op → Ctx × List Ref
  | [] => (s, handles)
  | o :: os => perform (o.exec s).1 (handles.diff o.takes ++ (o.exec s).2) os

/-- The interface permits the operations. -/
def permitted (s : Ctx) (handles : List Ref) : List Op → Bool
  | [] => true
  | o :: os => unconditional o && (o.uses ++ o.takes).all (inUse s) &&
      o.takes.isSubperm handles && permitted (o.exec s).1 (handles.diff o.takes ++ (o.exec s).2) os

theorem perform_append (os os' : List Op) : ∀ (s : Ctx) (handles : List Ref),
    perform s handles (os ++ os') =
      perform (perform s handles os).1 (perform s handles os).2 os' := by
  induction os with
  | nil => exact fun _ _ => rfl
  | cons o os ih => exact fun s handles => ih _ _

theorem permitted_append (os os' : List Op) : ∀ (s : Ctx) (handles : List Ref),
    permitted s handles (os ++ os') = (permitted s handles os &&
      permitted (perform s handles os).1 (perform s handles os).2 os') := by
  induction os with
  | nil => exact fun _ _ => rfl
  | cons o os ih =>
    intro s handles
    rw [List.cons_append, permitted, permitted, ih, ← Bool.and_assoc]
    rfl

/-- **Operations that the interface permits are a run.** -/
theorem perform_reachable {acyclic : Bool} {mem scratch marking : ℕ → Bool} (os : List Op) :
    ∀ {s : Ctx} {handles : List Ref},
      Reachable acyclic mem scratch marking ⟨s, [.client (owns handles)]⟩ →
      permitted s handles os = true →
      Reachable acyclic mem scratch marking
        ⟨(perform s handles os).1, [.client (owns (perform s handles os).2)]⟩ := by
  induction os with
  | nil => exact fun h _ => h
  | cons o os ih =>
    intro s handles h hp
    simp only [permitted, Bool.and_eq_true, List.all_eq_true] at hp
    obtain ⟨⟨⟨hfree, huse⟩, htake⟩, hrest⟩ := hp
    have hsub := List.isSubperm_iff.mp htake
    have hcount : ∀ r, (o.takes.count r : ℤ) ≤ handles.count r := fun r => by
      exact_mod_cast hsub.count_le r
    have hown : owns handles - owns o.takes + owns (o.exec s).2 =
        owns (handles.diff o.takes ++ (o.exec s).2) := by
      funext r
      have := hcount r
      simp only [owns, Pi.add_apply, Pi.sub_apply, List.count_append, List.count_diff]
      omega
    have hstep := Step.op s (owns handles) [] o
      (fun v hv => ⟨by simp [hidden, Frame.hidden], fun a ha => by
        have := huse v hv
        subst ha
        simpa [inUse] using this⟩)
      (fun r _ => hcount r) (allowed_of_unconditional hfree)
    rw [hown] at hstep
    exact ih (h.tail hstep) hrest

/-- The same from a new context. -/
theorem host_reachable {acyclic : Bool} {mem scratch marking : ℕ → Bool} (os : List Op)
    (h : permitted (rcContextNew acyclic mem scratch marking) [] os = true) :
    let r := perform (rcContextNew acyclic mem scratch marking) [] os
    Reachable acyclic mem scratch marking ⟨r.1, [.client (owns r.2)]⟩ :=
  perform_reachable os (by rw [owns_nil]; exact .refl) h

end Config

end ShenRc.Runtime
