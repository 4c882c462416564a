import ShenRc.Runtime.RequestOps

/-! # Symbols and bindings keep the invariant

The slots of a symbol and the roots of the context are references the context holds. Writing a slot
moves them (`setSymbolSlot_inv`); a function binding that is replaced during a call is retired, which
makes it a root until the outermost call returns (`rcCallLeave_inv`). -/

namespace ShenRc.Runtime

open Relation ShenRc.Graph

namespace Ctx

variable {π : Policy} {s s' : Ctx} {O B : Own} {work : List ℕ} {P : Set Ref}

/-! ### Symbols -/

theorem asSymbol_some {v : Ref} {a : ℕ} {t : List UInt8} {g f : Ref}
    (e : s.asSymbol v = some (a, t, g, f)) :
    v = .cell a ∧ ∃ o, s.heap a = some o ∧ o.body = .symbol t g f := by
  unfold asSymbol at e
  split at e
  · split at e
    · split at e
      · simp only [Option.some.injEq, Prod.mk.injEq] at e
        obtain ⟨rfl, rfl, rfl, rfl⟩ := e
        exact ⟨rfl, _, ‹_›, ‹_›⟩
      · exact absurd e (by simp)
    · exact absurd e (by simp)
  · exact absurd e (by simp)

theorem symbol_slots {o : Obj} {t : List UInt8} {g f : Ref} (hb : o.body = .symbol t g f) :
    o.slots = [g, f] ∧ o.edges = [] := by simp [Obj.slots, Obj.edges, hb]

/-- A symbol is immortal, and no private request. -/
theorem Inv.symbol (h : Inv π s O work P) {a : ℕ} {o : Obj} {t : List UInt8} {g f : Ref}
    (ho : s.heap a = some o) (hb : o.body = .symbol t g f) :
    s.isCounted (.cell a) = false ∧ Ref.cell a ∉ P := by
  refine ⟨isCounted_of_immortal (h.sym a o t g f ho hb), fun hp => ?_⟩
  obtain ⟨-, -, b, ob, args, gg, hbb, hob, hbody⟩ := h.priv _ hp
  cases hbb
  rw [ho] at hob
  cases hob
  rw [hb] at hbody
  cases hbody

theorem findSymbol_some {name : List UInt8} {a : ℕ} (e : s.findSymbol name = some a) :
    ∃ o t g f, s.heap a = some o ∧ o.body = .symbol t g f := by
  have := List.find?_some e
  split at this
  · split at this
    · exact ⟨_, _, _, _, ‹_›, ‹_›⟩
    · exact absurd this (by simp)
  · exact absurd this (by simp)

theorem same_resizeSymbols (s : Ctx) (n : ℕ) : Same s (s.resizeSymbols n).1 := by
  unfold resizeSymbols
  split
  · rfl
  · split <;> rfl

theorem Placed.setRefs {a n m : ℕ} {o : Obj} (h : Placed s s' a o n) :
    Placed s (s'.setRefs (.cell a) m) a o m := by
  obtain ⟨h1, h2, h3, h4, h5, h6, h7, h8, h9, h10⟩ := h
  refine ⟨h1, h2, ?_, h4, h5, h6, h7, h8, h9, h10⟩
  simp only [Ctx.setRefs]
  rw [h3, Function.update_idem]

/-- `text_value` fails and leaves the graph alone, or fills a cell whose payload fits. -/
theorem textValue_cases (h : Inv π s O work P) (body : Payload) (n : ℕ) :
    (∃ s1, s.textValue body n = (s1, .null) ∧ Same s s1) ∨
    ∃ a s0 s1, s.textValue body n = (s1, .cell a) ∧ Same s s0 ∧
      Placed s0 s1 a (Ctx.fresh body false) 1 ∧ s.payloadBytes + (n + 1) ≤ addressBytes := by
  unfold textValue
  split
  · exact Or.inl ⟨_, rfl, rfl⟩
  have hs := same_mallocBytes s (n + 1)
  split
  swap
  · exact Or.inl ⟨_, rfl, hs.trans rfl⟩
  rename_i hm
  have hfits := mallocBytes_fits hm
  rcases allocate_cases (h.same hs) body false (n + 1) with ⟨s1, e, hs1⟩ | ⟨a, s1, e, hp⟩
  · exact Or.inl ⟨s1, e, hs.trans hs1⟩
  · exact Or.inr ⟨a, _, s1, e, hs, hp, hfits⟩

theorem rcSymbol_inv (h : Inv π s O [] P) (hO : NonNeg O) (name : List UInt8) :
    Inv π (s.rcSymbol name).1 (O + own (s.rcSymbol name).2) [] P := by
  unfold rcSymbol
  split
  · rename_i a e
    obtain ⟨o, t, g, f, ho, hb⟩ := findSymbol_some e
    obtain ⟨h1, h2⟩ := h.symbol ho hb
    exact h.uncounted h1 h2 fun r hr => by rw [Pi.add_apply, own_ne hr, add_zero]
  have hres : Same s (if s.symbolCapacity = 0 ∨
      s.symbolCapacity - s.symbolCapacity / 4 ≤ s.symbols.length then
        s.resizeSymbols (if s.symbolCapacity = 0 then 64 else s.symbolCapacity * 2)
      else (s, true)).1 := by
    generalize (if s.symbolCapacity = 0 then 64 else s.symbolCapacity * 2) = n
    split
    · exact same_resizeSymbols s n
    · rfl
  simp only
  generalize (if s.symbolCapacity = 0 ∨
      s.symbolCapacity - s.symbolCapacity / 4 ≤ s.symbols.length then
        s.resizeSymbols (if s.symbolCapacity = 0 then 64 else s.symbolCapacity * 2)
      else (s, true)) = r at hres ⊢
  have h1 := h.same hres
  split
  swap
  · exact h1.null
  rcases textValue_cases h1 (.symbol name .null .null) name.length with
    ⟨s1, e, hs⟩ | ⟨a, s0, s1, e, hs0, hp, hfits⟩
  · rw [e]
    exact (h1.same hs).null
  · rw [e]
    have h2 := h1.same hs0
    have hkids : (Ctx.fresh (.symbol name .null .null) false).edges = [] := rfl
    have hslots : (Ctx.fresh (.symbol name .null .null) false).slots = [.null, .null] := rfl
    have hnull : Ref.null ∉ P := fun hn => by
      obtain ⟨-, -, b, -, -, -, hb, -⟩ := h.priv _ hn
      cases hb
    have h3 := h2.fresh hO (hp.setRefs (m := immortal)) (Or.inr rfl) rfl
      (by
        have e1 : s0.payloadBytes = r.1.payloadBytes :=
          payloadBytes_congr (congrArg Store.heap hs0) (congrArg Store.size hs0)
        have e2 : extraBytes (Ctx.fresh (.symbol name .null .null) false).body = name.length + 1 :=
          rfl
        rw [e1, e2]
        omega)
      (fun w hw => by rw [hkids] at hw; simp at hw)
      (fun v hv => by
        rw [hkids, hslots] at hv
        rcases hv with hv | hv
        · simp at hv
        · simp only [List.mem_cons, List.not_mem_nil, or_false, or_self] at hv
          rw [hv]
          exact hnull)
      (fun items hi => by simp [Ctx.fresh] at hi) (fun _ _ _ _ => rfl)
    refine Inv.same (h3.congr fun v hv => ?_) rfl
    rw [hkids, hslots, owns_nil, sub_zero, owns_cons, owns_singleton]
    simp only [Pi.add_apply, Pi.sub_apply, own_null hv]
    ring

/-! ### Slots -/

/-- Writing the slots of a symbol. -/
theorem Inv.setSlots (h : Inv π s O [] P) (hO : NonNeg O) {a : ℕ} {o : Obj} {t : List UInt8}
    {g f g' f' : Ref} (ho : s.heap a = some o) (hb : o.body = .symbol t g f)
    (hp : g' ∉ P ∧ f' ∉ P) :
    Inv π (s.modify a fun o => { o with body := .symbol t g' f' })
      (O + owns [g, f] - owns [g', f']) [] P := by
  have hs := modify_toStore ho fun o => { o with body := .symbol t g' f' }
  generalize s.modify a (fun o => { o with body := .symbol t g' f' }) = s' at hs ⊢
  obtain ⟨hslots, hedges⟩ := symbol_slots hb
  have hkeep : o.Keeps { o with body := .symbol t g' f' } :=
    ⟨rfl, fun hd tl hp => absurd (hb.symm.trans hp) (by simp), fun _ _ => rfl⟩
  have hnop : s.NoPlan a := by
    intro p op e hop hpair he hq
    obtain ⟨oq, c, hoq, hbq, -⟩ := h.plans p a op e hop hpair he hq
    rw [ho] at hoq
    cases hoq
    rw [hb] at hbq
    cases hbq
  have key := h.rewrite ho hs Or.inl
    (fun w _ hw _ => by simp [Obj.edges] at hw) (fun items hi => by simp at hi)
    (fun hsrc => by
      obtain ⟨o1, items, ho1, hb1⟩ := h.srcVec a hsrc
      rw [ho] at ho1
      cases ho1
      rw [hb] at hb1
      cases hb1)
    (fun _ _ _ _ => h.sym a o t g f ho hb)
    (by have := h.bytes; simp only [extraBytes, hb]; omega)
    (h.acyc_sub ho hs fun w hw => by simp [Obj.edges] at hw)
    (h.plans_keep hO ho (by rw [hs]) hkeep (Or.inr hnop) fun q e hp _ _ => by
      obtain ⟨hd, tl, hp⟩ := hp
      cases hp)
    (h.symbol ho hb).2
    (fun r hr => by
      have e : ({ o with body := .symbol t g' f' } : Obj).slots = [g', f'] := rfl
      rcases hr with hr | hr
      · simp [Obj.edges] at hr
      · rw [e] at hr
        simp only [List.mem_cons, List.not_mem_nil, or_false] at hr
        rcases hr with rfl | rfl
        · exact hp.1
        · exact hp.2)
  refine key.eq ?_
  have e1 : ({ o with body := .symbol t g' f' } : Obj).slots = [g', f'] := rfl
  have e2 : ({ o with body := .symbol t g' f' } : Obj).edges = [] := rfl
  rw [hslots, hedges, e1, e2, owns_nil, add_zero, sub_zero]

/-- **`set_symbol_slot`.** The value replaced is released, or waits for the outermost call. -/
theorem setSymbolSlot_inv (h : Inv π s O [] P) (hO : NonNeg O) {symbol value : Ref} (function : Bool)
    (hv : s.Handle P value) : Inv π (s.setSymbolSlot symbol value function).1 O [] P := by
  unfold setSymbolSlot
  split
  swap
  · exact h.same (same_rcError _ _)
  rename_i a t g f e
  obtain ⟨rfl, o, ho, hb⟩ := asSymbol_some e
  split
  · exact h.same (same_rcError _ _)
  have hgen : Same s (if function ∧ s.functionGeneration < sizeMax then
      { s with functionGeneration := s.functionGeneration + 1 } else s) := by
    split <;> rfl
  simp only
  generalize (if function ∧ s.functionGeneration < sizeMax then
      { s with functionGeneration := s.functionGeneration + 1 } else s) = s0 at hgen ⊢
  have h0 := h.same hgen
  have ho0 : s0.heap a = some o := by
    rw [show s0.heap = s.heap from congrArg Store.heap hgen]; exact ho
  have hslots : s0.slots a = [g, f] := by rw [slots_of_some ho0, (symbol_slots hb).1]
  have hg := h0.handle_slot hO (u := a) (r := g) (by rw [hslots]; simp)
  have hf := h0.handle_slot hO (u := a) (r := f) (by rw [hslots]; simp)
  have hv0 := hv.same hgen
  have hp : (if function = true then g else value) ∉ P ∧
      (if function = true then value else f) ∉ P := by
    split
    · exact ⟨hg.1, hv.1⟩
    · exact ⟨hv.1, hf.1⟩
  have hmove : own value + owns [g, f] - owns [if function = true then g else value,
      if function = true then value else f] = own (if function = true then f else g) := by
    split <;> simp only [owns_cons, owns_nil] <;> abel
  have hold : s0.Handle P (if function = true then f else g) := by
    split
    · exact hf
    · exact hg
  generalize (if function = true then g else value) = g',
    (if function = true then value else f) = f',
    (if function = true then f else g) = old at hp hmove hold ⊢
  have h1 := rcRetain_inv h0 hv0.2 hv0.1
  have ho1 : (s0.rcRetain value).heap a = some o := by rw [rcRetain_heap]; exact ho0
  have h2 := h1.setSlots (hO.add (nonNeg_own value)) ho1 hb hp
  have h3 := h2.eq (Q := O + own old) (by rw [← hmove]; abel)
  have hlive : ∀ b, s0.live b →
      ((s0.rcRetain value).modify a fun o => { o with body := .symbol t g' f' }).live b :=
    fun b hb' => (modify_live _).mpr (by rw [live, rcRetain_heap]; exact hb')
  clear h2
  generalize ((s0.rcRetain value).modify a fun o => { o with body := .symbol t g' f' }) = s1
    at h3 hlive ⊢
  have hold1 := hold.mono hlive
  have hretire : ∀ {s2 : Ctx}, s2.toStore = { s1.toStore with retired := s1.retired ++ [old] } →
      Inv π s2 O [] P := by
    intro s2 hs
    have : Inv π s2 _ [] P := h3.roots (b := s1.builtinRoots) (r := s1.retired ++ [old]) hs fun v hv => by
      rw [← List.append_assoc, List.mem_append] at hv
      rcases hv with hv | hv
      · exact h3.root_not_priv hv
      · rw [List.mem_singleton] at hv
        exact hv ▸ hold.1
    refine this.eq ?_
    rw [← List.append_assoc, owns_append _ [old], owns_singleton, Ctx.roots]
    abel
  split
  · split
    · split
      · exact hretire rfl
      · -- The binding cannot be retired: its count saturates instead.
        have h4 : Inv π (s1.malloc.2.setRefs old immortal) (O + own old) [] P :=
          (h3.same (same_malloc s1)).saturate hold1.2
        exact h4.uncounted (isCounted_of_immortal (setRefs_self _ _ _)) hold.1 fun r hr => by
          rw [Pi.add_apply, own_ne hr, add_zero]
    · exact hretire rfl
  · exact h3.release hO hold.1

theorem rcGlobalSet_inv (h : Inv π s O [] P) (hO : NonNeg O) {symbol value : Ref}
    (hv : s.Handle P value) : Inv π (s.rcGlobalSet symbol value).1 O [] P :=
  setSymbolSlot_inv h hO false hv

theorem rcFunctionSet_inv (h : Inv π s O [] P) (hO : NonNeg O) {symbol fn : Ref}
    (hv : s.Handle P fn) : Inv π (s.rcFunctionSet symbol fn).1 O [] P := by
  unfold rcFunctionSet
  split
  · exact setSymbolSlot_inv h hO true hv
  · exact h.same (same_rcError _ _)

theorem rcGlobalGet_inv (h : Inv π s O [] P) (hO : NonNeg O) (symbol : Ref) :
    Inv π (s.rcGlobalGet symbol).1 (O + own (s.rcGlobalGet symbol).2) [] P := by
  unfold rcGlobalGet
  split
  swap
  · exact h.fail _
  rename_i a t g f e
  obtain ⟨rfl, o, ho, hb⟩ := asSymbol_some e
  split
  · exact h.fail _
  have hg := h.handle_slot hO (u := a) (r := g) (by
    rw [slots_of_some ho, (symbol_slots hb).1]; simp)
  exact rcRetain_inv h hg.2 hg.1

theorem rcFunctionLookup_inv (h : Inv π s O [] P) (hO : NonNeg O) (symbol : Ref) :
    Inv π (s.rcFunctionLookup symbol).1 (O + own (s.rcFunctionLookup symbol).2) [] P := by
  unfold rcFunctionLookup
  split
  swap
  · exact h.null
  rename_i a t g f e
  obtain ⟨rfl, o, ho, hb⟩ := asSymbol_some e
  have hf := h.handle_slot hO (u := a) (r := f) (by
    rw [slots_of_some ho, (symbol_slots hb).1]; simp)
  exact rcRetain_inv h hf.2 hf.1

theorem rcFunctionGet_inv (h : Inv π s O [] P) (hO : NonNeg O) (symbol : Ref) :
    Inv π (s.rcFunctionGet symbol).1 (O + own (s.rcFunctionGet symbol).2) [] P := by
  have h1 := rcFunctionLookup_inv h hO symbol
  unfold rcFunctionGet
  split
  · rename_i s1 e
    rw [e] at h1
    exact h1.same rfl
  · exact h1

/-! ### Canonical builtins and calls -/

theorem ofFn_update {n : ℕ} (b : Fin n → Ref) (i : Fin n) (v : Ref) :
    List.ofFn (Function.update b i v) = (List.ofFn b).set i v := by
  refine List.ext_getElem (by simp) fun k h1 h2 => ?_
  have hk : k < n := by simpa using h1
  rw [List.getElem_set, List.getElem_ofFn, List.getElem_ofFn]
  by_cases hik : i = ⟨k, hk⟩
  · subst hik
    simp
  · have : (i : ℕ) ≠ k := fun e => hik (Fin.ext e)
    rw [if_neg this, Function.update_of_ne (Ne.symm hik)]

theorem rcBuiltinCacheSet_inv (h : Inv π s O [] P) (hO : NonNeg O) {slot : ℕ} {fn : Ref}
    (hslot : slot < builtinCount) (hfn : ∃ a o c, fn = .cell a ∧ s.heap a = some o ∧
      o.body = .closure c) (hv : s.Handle P fn) : Inv π (s.rcBuiltinCacheSet slot fn) O [] P := by
  obtain ⟨a, o, c, rfl, ho, hb⟩ := hfn
  have e : s.asClosure (.cell a) = some (a, o, c) := by simp [asClosure, ho, hb]
  unfold rcBuiltinCacheSet
  rw [e]
  simp only
  rw [dif_pos hslot]
  have hold : s.builtinRoots ⟨slot, hslot⟩ ∈ s.roots :=
    List.mem_append_left _ (List.mem_ofFn.mpr ⟨_, rfl⟩)
  have hroots : (s.rcRetain (.cell a)).roots = s.roots := by
    unfold rcRetain; split <;> rfl
  have hbr : (s.rcRetain (.cell a)).builtinRoots = s.builtinRoots ∧
      (s.rcRetain (.cell a)).retired = s.retired := by
    unfold rcRetain; split <;> exact ⟨rfl, rfl⟩
  have h1 := rcRetain_inv h hv.2 hv.1
  have h2 : Inv π
      { s.rcRetain (.cell a) with
        builtinRoots := Function.update s.builtinRoots ⟨slot, hslot⟩ (.cell a) } _ _ _ := h1.roots
    (b := Function.update s.builtinRoots ⟨slot, hslot⟩ (.cell a)) (r := s.retired)
    (by rw [← hbr.2])
    fun v hv' => by
      rcases List.mem_append.mp hv' with hm | hm
      · obtain ⟨i, rfl⟩ := List.mem_ofFn.mp hm
        by_cases hi : i = ⟨slot, hslot⟩
        · subst hi
          rw [Function.update_self]
          exact hv.1
        · rw [Function.update_of_ne hi]
          exact h.root_not_priv (List.mem_append_left _ (List.mem_ofFn.mpr ⟨i, rfl⟩))
      · exact h.root_not_priv (List.mem_append_right _ hm)
  have hget : (List.ofFn s.builtinRoots)[slot]? = some (s.builtinRoots ⟨slot, hslot⟩) := by
    rw [List.getElem?_ofFn, dif_pos hslot]
  have hset := owns_set (Ref.cell a) hget
  rw [hbr.1]
  have h3 := h2.eq (Q := O + own (s.builtinRoots ⟨slot, hslot⟩)) (by
    rw [hroots, Ctx.roots, owns_append, owns_append, ofFn_update]
    have e4 : owns ((List.ofFn s.builtinRoots).set slot (.cell a)) =
        owns (List.ofFn s.builtinRoots) + own (.cell a) - own (s.builtinRoots ⟨slot, hslot⟩) := by
      rw [← hset]; abel
    simp only
    rw [e4]
    abel)
  have h4 := h3.touch (hO.add (nonNeg_own _)) (a := a) (o := o)
    (f := fun o => { o with builtinSlot := slot + 1 })
    (by change (s.rcRetain (.cell a)).heap a = some o; rw [rcRetain_heap]; exact ho)
    hv.1 (Or.inl rfl) rfl rfl
  exact h4.release hO (h.root_not_priv hold)

theorem rcCallEnter_inv (h : Inv π s O [] P) : Inv π s.rcCallEnter O [] P := h.same rfl

/-- The outermost call drops the replaced function bindings. -/
theorem rcCallLeave_inv (h : Inv π s O [] P) (hO : NonNeg O) : Inv π s.rcCallLeave O [] P := by
  unfold rcCallLeave
  generalize (if s.callDepth = 0 then sizeMax else s.callDepth - 1) = depth
  simp only
  split
  · exact h.same rfl
  · have h1 : Inv π { s with callDepth := depth, retired := [] } _ [] P :=
      h.roots (b := s.builtinRoots) (r := []) rfl
      fun v hv => h.root_not_priv (List.mem_append_left _ (by simpa using hv))
    refine (releaseAll_inv s.retired (h1.eq ?_) hO
      fun v hv => h.root_not_priv (List.mem_append_right _ hv)).1
    rw [Ctx.roots, owns_append, List.append_nil]
    abel

end Ctx

end ShenRc.Runtime
