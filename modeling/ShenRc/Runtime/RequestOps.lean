import ShenRc.Runtime.ClosureOps

/-! # Frames and requests keep the invariant

An evaluator frame and a tail request are allocated with the children they are given, which are then
retained (`Inv.allocRetain`). A new request that stands for excess arguments is held by nothing but
C code, so an application may keep it to itself (`Inv.keep`). -/

namespace ShenRc.Runtime

open Relation ShenRc.Graph

namespace Ctx

variable {π : Policy} {s s' : Ctx} {O B : Own} {work : List ℕ} {P : Set Ref}

/-- **A new cell whose children are retained.** -/
theorem Inv.allocRetain (h : Inv π s O [] P) (hO : NonNeg O) (body : Payload) (reaches : Bool)
    (extra : ℕ) (vs : List Ref) (hkids : (Ctx.fresh body reaches).edges = vs)
    (hbytes : s.payloadBytes + extraBytes body ≤ 2 * addressBytes)
    (hk : ∀ v ∈ vs, s.Handle P v ∧ (s.mayReachVector v = true → reaches = true))
    (hsym : ∀ t g f, body ≠ .symbol t g f) (hvec : ∀ items, body ≠ .vector items) :
    (∃ s1, s.allocate body reaches extra = (s1, .null) ∧ Same s s1) ∨
    ∃ a s1, s.allocate body reaches extra = (s1, .cell a) ∧
      Placed s s1 a (Ctx.fresh body reaches) 1 ∧
      Inv π (s1.retainAll vs) (O + own (.cell a)) [] P := by
  rcases h.alloc hO body reaches extra hbytes (fun v hv => hk v (hkids ▸ hv)) hsym
    (fun items hi => absurd hi (hvec items)) with h1 | ⟨a, s1, e, hp, hi⟩
  · exact Or.inl h1
  refine Or.inr ⟨a, s1, e, hp, ?_⟩
  rw [hkids] at hi
  have h2 := retainAll_inv vs hi fun v hv =>
    ⟨(hk v hv).1.1, fun b hb => hp.live b ((hk v hv).1.2 b hb)⟩
  refine h2.eq ?_
  abel

/-! ### Evaluator frames -/

theorem envFrameConstruct_inv (h : Inv π s O [] P) (hO : NonNeg O) {parent : Ref}
    {keys values : List Ref} (hp : s.Handle P parent) (hk : ∀ v ∈ values, s.Handle P v) {bytes : ℕ}
    (hbytes : bytes = if values.length > 1 then 2 * values.length * ptrBytes else 0) :
    Inv π (s.envFrameConstruct parent keys values bytes).1
      (O + own (s.envFrameConstruct parent keys values bytes).2) [] P := by
  unfold envFrameConstruct
  split
  · exact rcRetain_inv h hp.2 hp.1
  have hs := same_mallocPayload s bytes
  simp only
  split
  swap
  · exact (h.same hs).fail _
  rename_i hm
  have hfits := mallocPayload_fits h hm
  generalize s.mallocPayload bytes = r at hs hfits ⊢
  generalize keys.foldl (fun k key => k ||| r.2.envKeyClass key) (r.2.envKeyClasses parent) = classes
  rcases (h.same hs).allocRetain hO (.env parent keys values classes)
      (r.2.mayReachVector parent || values.any r.2.mayReachVector) bytes (parent :: values) rfl
      (by rw [hbytes] at hfits; exact hfits)
      (fun v hv => by
        rw [Bool.or_eq_true]
        rcases List.mem_cons.mp hv with rfl | hv
        · exact ⟨hp.same hs, Or.inl⟩
        · exact ⟨(hk v hv).same hs, fun hr => Or.inr (any_reach hv hr)⟩)
      (by simp) (by simp) with ⟨s1, e, hs1⟩ | ⟨a, s1, e, -, hi⟩
  · rw [e]; exact ((h.same hs).same hs1).null
  · rw [e]; exact hi.same rfl

theorem rcEnvFrame_inv (h : Inv π s O [] P) (hO : NonNeg O) {parent : Ref}
    {bindings : List (Ref × Ref)} (hp : s.Handle P parent)
    (hk : ∀ v ∈ bindings.map Prod.snd, s.Handle P v) :
    Inv π (s.rcEnvFrame parent bindings).1 (O + own (s.rcEnvFrame parent bindings).2) [] P := by
  unfold rcEnvFrame
  simp only
  split
  · exact h.fail _
  split
  · exact h.fail _
  split
  · exact h.fail _
  exact envFrameConstruct_inv h hO hp hk rfl

theorem rcEvalEnvFrame_inv (h : Inv π s O [] P) (hO : NonNeg O) {self : Ref} (callback : ℕ)
    {argv : List Ref} (hk : ∀ v ∈ argv, s.Handle P v) :
    Inv π (s.rcEvalEnvFrame self callback argv).1
      (O + own (s.rcEvalEnvFrame self callback argv).2) [] P := by
  unfold rcEvalEnvFrame
  split
  swap
  · exact h.fail _
  rename_i a o c e
  obtain ⟨rfl, ho, hb⟩ := asClosure_some e
  split
  swap
  · exact h.fail _
  rename_i body env params hc
  split
  · exact h.fail _
  split
  · exact h.fail _
  have henv := (h.handle_closure hO ho hb).1 env (by rw [hc]; simp)
  exact envFrameConstruct_inv h hO henv hk rfl

/-! ### Tail requests -/

/-- The payload bytes of a request. -/
theorem tail_bytes (fn : Ref) (argv : List Ref) (g : ℕ) :
    extraBytes (.tail fn argv g) = if argv.length > 3 then argv.length * ptrBytes else 0 := rfl

/-- **`rc_tailcall`** returns nothing, or a new request that only C code holds. -/
theorem rcTailcall_spec (h : Inv π s O [] P) (hO : NonNeg O) {fn : Ref} {argv : List Ref}
    (hf : s.Handle P fn) (hk : ∀ v ∈ argv, s.Handle P v) :
    (∃ s1, s.rcTailcall fn argv = (s1, .null) ∧ Same s s1) ∨
    ∃ a s1 r, s.rcTailcall fn argv = (s1, .cell a) ∧ Inv π s1 (O + own (.cell a)) [] P ∧
      ¬ s.live a ∧ s1.refs (.cell a) = 1 ∧
      s1.heap = Function.update s.heap a (some (Ctx.fresh (.tail fn argv 0) r)) := by
  unfold rcTailcall
  split
  · exact Or.inl ⟨_, rfl, rfl⟩
  split
  · exact Or.inl ⟨_, rfl, rfl⟩
  simp only
  have hx := tail_bytes fn argv 0
  generalize (if argv.length > 3 then argv.length * ptrBytes else 0) = bytes at hx ⊢
  subst hx
  have hs := same_mallocPayload s (extraBytes (.tail fn argv 0))
  split
  swap
  · exact Or.inl ⟨_, rfl, hs⟩
  rename_i hm
  have hfits := mallocPayload_fits h hm
  generalize s.mallocPayload (extraBytes (.tail fn argv 0)) = r at hs hfits ⊢
  rcases (h.same hs).allocRetain hO (.tail fn argv 0)
      (r.2.mayReachVector fn || argv.any r.2.mayReachVector) (extraBytes (.tail fn argv 0))
      (fn :: argv) rfl hfits
      (fun v hv => by
        rw [Bool.or_eq_true]
        rcases List.mem_cons.mp hv with rfl | hv
        · exact ⟨hf.same hs, Or.inl⟩
        · exact ⟨(hk v hv).same hs, fun hr => Or.inr (any_reach hv hr)⟩)
      (by simp) (by simp) with ⟨s1, e, hs1⟩ | ⟨a, s1, e, hp, hi⟩
  · left
    rw [e]
    exact ⟨_, rfl, hs.trans hs1⟩
  · right
    rw [e]
    have hheap : r.2.heap = s.heap := congrArg Store.heap hs
    refine ⟨a, _, r.2.mayReachVector fn || argv.any r.2.mayReachVector, rfl, hi.same rfl, ?_, ?_, ?_⟩
    · have := hp.dead
      rwa [live, hheap] at this
    · have hdead := hp.dead
      have hne : Ref.cell a ∉ fn :: argv := fun hm => by
        rcases List.mem_cons.mp hm with e | hm
        · exact hdead ((hf.same hs).2 a e.symm)
        · exact hdead (((hk _ hm).same hs).2 a rfl)
      change (s1.retainAll (fn :: argv)).refs (.cell a) = 1
      rw [retainAll_refs_ne _ hne, hp.refs]
      simp
    · rw [← hheap]
      exact (retainAll_heap (fn :: argv) s1).trans hp.heap

theorem rcTailcall_inv (h : Inv π s O [] P) (hO : NonNeg O) {fn : Ref} {argv : List Ref}
    (hf : s.Handle P fn) (hk : ∀ v ∈ argv, s.Handle P v) :
    Inv π (s.rcTailcall fn argv).1 (O + own (s.rcTailcall fn argv).2) [] P := by
  rcases rcTailcall_spec h hO hf hk with ⟨s1, e, hs⟩ | ⟨a, s1, r, e, hi, -⟩
  · rw [e]; exact (h.same hs).null
  · rw [e]; exact hi

/-- **`rc_tailcall_owned_args`** takes the arguments over. -/
theorem rcTailcallOwnedArgs_spec {argv : List Ref} (h : Inv π s (B + owns argv) [] P) (hB : NonNeg B)
    {fn : Ref} (hf : s.Handle P fn) (hk : ∀ v ∈ argv, s.Handle P v) :
    (∃ s1, s.rcTailcallOwnedArgs fn argv = (s1, .null) ∧ Inv π s1 B [] P) ∨
    ∃ a s1 r, s.rcTailcallOwnedArgs fn argv = (s1, .cell a) ∧ Inv π s1 (B + own (.cell a)) [] P ∧
      s1.heap a = some (Ctx.fresh (.tail fn argv 0) r) := by
  have hrel : ∀ {s1 : Ctx}, Same s s1 → Inv π (s1.releaseAll argv) B [] P := fun hs =>
    (releaseAll_inv argv (h.same hs) hB fun v hv => (hk v hv).1).1
  unfold rcTailcallOwnedArgs
  split
  · exact Or.inl ⟨_, rfl, (hrel (Same.refl s)).same (same_rcError _ _)⟩
  split
  · exact Or.inl ⟨_, rfl, (hrel (Same.refl s)).same (same_rcError _ _)⟩
  simp only
  have hx := tail_bytes fn argv 0
  generalize (if argv.length > 3 then argv.length * ptrBytes else 0) = bytes at hx ⊢
  subst hx
  have hs := same_mallocPayload s (extraBytes (.tail fn argv 0))
  split
  swap
  · exact Or.inl ⟨_, rfl, (hrel hs).same (same_rcError _ _)⟩
  rename_i hm
  have hfits := mallocPayload_fits h hm
  generalize s.mallocPayload (extraBytes (.tail fn argv 0)) = r at hs hfits ⊢
  rcases (h.same hs).alloc (hB.add (nonNeg_owns _)) (.tail fn argv 0)
      (r.2.mayReachVector fn || argv.any r.2.mayReachVector) (extraBytes (.tail fn argv 0)) hfits
      (fun v hv => by
        rw [Bool.or_eq_true]
        rcases List.mem_cons.mp (show v ∈ fn :: argv from hv) with rfl | hv
        · exact ⟨hf.same hs, Or.inl⟩
        · exact ⟨(hk v hv).same hs, fun hr => Or.inr (any_reach hv hr)⟩)
      (by simp) (by simp) with ⟨s1, e, hs1⟩ | ⟨a, s1, e, hp, hi⟩
  · rw [e]
    exact Or.inl ⟨_, rfl, hrel (hs.trans hs1)⟩
  · rw [e]
    have h1 := rcRetain_inv hi (fun b hb => hp.live b ((hf.same hs).2 b hb)) hf.1
    have e1 : (Ctx.fresh (.tail fn argv 0)
        (r.2.mayReachVector fn || argv.any r.2.mayReachVector)).edges = fn :: argv := rfl
    refine Or.inr ⟨a, _, r.2.mayReachVector fn || argv.any r.2.mayReachVector, rfl,
      Inv.same (h1.eq ?_) rfl, ?_⟩
    · rw [e1, owns_cons]
      abel
    · change (s1.rcRetain fn).heap a = _
      rw [rcRetain_heap, hp.heap]
      simp

theorem rcTailcallOwnedArgs_inv {argv : List Ref} (h : Inv π s (B + owns argv) [] P) (hB : NonNeg B)
    {fn : Ref} (hf : s.Handle P fn) (hk : ∀ v ∈ argv, s.Handle P v) :
    Inv π (s.rcTailcallOwnedArgs fn argv).1 (B + own (s.rcTailcallOwnedArgs fn argv).2) [] P := by
  rcases rcTailcallOwnedArgs_spec h hB hf hk with ⟨s1, e, hi⟩ | ⟨a, s1, r, e, hi, -⟩
  · rw [e]; exact hi.null
  · rw [e]; exact hi

theorem asTail_some {v : Ref} {a : ℕ} {f : Ref} {args : List Ref} {g : ℕ}
    (e : s.asTail v = some (a, f, args, g)) :
    v = .cell a ∧ ∃ o, s.heap a = some o ∧ o.body = .tail f args g := by
  unfold asTail at e
  split at e
  · split at e
    · split at e
      · simp only [Option.some.injEq, Prod.mk.injEq] at e
        obtain ⟨rfl, rfl, rfl, rfl⟩ := e
        exact ⟨rfl, _, ‹_›, ‹_›⟩
      · exact absurd e (by simp)
    · exact absurd e (by simp)
  · exact absurd e (by simp)

theorem tail_edges {o : Obj} {f : Ref} {args : List Ref} {g : ℕ} (hb : o.body = .tail f args g) :
    o.edges = f :: args := by simp [Obj.edges, hb]

/-- The function and the arguments of a request are handles. -/
theorem Inv.handle_tail (h : Inv π s O work P) (hO : NonNeg O) {a : ℕ} {o : Obj} {f : Ref}
    {args : List Ref} {g : ℕ} (ho : s.heap a = some o) (hb : o.body = .tail f args g) :
    s.Handle P f ∧ ∀ v ∈ args, s.Handle P v := by
  have e : s.edges a = f :: args := by rw [edges_of_some ho, tail_edges hb]
  exact ⟨h.handle_edge hO (u := a) (by rw [e]; simp),
    fun v hv => h.handle_edge hO (u := a) (by rw [e]; exact List.mem_cons_of_mem _ hv)⟩

theorem setGuards_inv (h : Inv π s O work P) (hO : NonNeg O) {a : ℕ} {o : Obj} {f : Ref}
    {args : List Ref} {g : ℕ} (ho : s.heap a = some o) (hb : o.body = .tail f args g)
    (hp : Ref.cell a ∉ P) (guards : ℕ) : Inv π (s.setGuards a guards) O work P := by
  unfold setGuards
  refine h.touch hO ho hp (Or.inr ⟨f, args, g, guards, hb, ?_⟩) ?_ ?_
  · simp [hb]
  · simp [hb]
  · simp [hb, pairPlan]

/-- **`require_guard`** takes its value over. -/
theorem requireGuard_inv {v : Ref} (h : Inv π s (B + own v) [] P) (hB : NonNeg B)
    (hv : s.Handle P v) (guard : ℕ) :
    Inv π (s.requireGuard v guard).1 (B + own (s.requireGuard v guard).2) [] P := by
  have hO := hB.add (nonNeg_own v)
  unfold requireGuard
  simp only
  split
  · split
    · exact h
    · exact h.same rfl
  split
  swap
  · split
    · exact h
    · exact (h.release hB hv.1).fail _
  rename_i a f args before e
  obtain ⟨rfl, o, ho, hb⟩ := asTail_some e
  split
  swap
  · exact setGuards_inv h hO ho hb hv.1 _
  obtain ⟨hf, hargs⟩ := h.handle_tail hO ho hb
  rcases rcTailcall_spec h hO hf hargs with ⟨s1, e1, hs⟩ | ⟨b, s1, r, e1, hi, -, -, hheap⟩
  · rw [e1]
    exact ((h.same hs).release hB hv.1).null
  · rw [e1]
    simp only
    have hnp : Ref.cell b ∉ P := by
      intro hp
      have h1 := (h.priv _ hp).1
      have h2 := (hi.priv _ hp).1
      rw [Pi.add_apply _ (own (Ref.cell b)), h1, own_self] at h2
      omega
    have h2 := (hi.eq (add_right_comm _ _ _)).release (hB.add (nonNeg_own _)) hv.1
    have hl := h2.live_of_own (a := b) (by
      have := hB (.cell b) trivial
      simp only [Pi.add_apply, own_self]
      omega)
    have hfr := (hi.eq (add_right_comm _ _ _)).release_frees (hB.add (nonNeg_own _)) hv.1
    have hob : (s1.rcRelease (.cell a)).heap b = some (Ctx.fresh (.tail f args 0) r) := by
      rw [hfr.live hl, hheap]
      simp
    exact setGuards_inv h2 (hB.add (nonNeg_own _)) hob rfl hnp _

/-- **An application may keep a new request to itself.** -/
theorem Inv.keep (h : Inv π s O work P) {a : ℕ} {o : Obj} {args : List Ref} {g : ℕ}
    (h1 : O (.cell a) = 1) (h0 : s.held (.cell a) = 0) (ho : s.heap a = some o)
    (hb : o.body = .tail .nil args g) : Inv π s O work (insert (.cell a) P) := by
  refine { h with priv := fun r hr => ?_ }
  rcases Set.mem_insert_iff.mp hr with rfl | hr
  · exact ⟨h1, h0, a, o, args, g, rfl, ho, hb⟩
  · exact h.priv r hr

/-- An application may give a request back. -/
theorem Inv.reveal {P' : Set Ref} (h : Inv π s O work P) (hP : ∀ r, r ∈ P' → r ∈ P) :
    Inv π s O work P' := { h with priv := fun r hr => h.priv r (hP r hr) }

end Ctx

end ShenRc.Runtime
