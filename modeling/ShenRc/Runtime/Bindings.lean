import ShenRc.Runtime.BindTurns
import ShenRc.Runtime.Runs

/-! # Bindings over runs

Only `set_symbol_slot` writes a binding, and only the outermost `rc_call_leave` gives up the function
bindings that were replaced during calls (`step_cases`, `step_sets`). So a lookup returns what was set
last (`lookup_latest`), a function that some symbol had while a call was in progress stays in use until
the outermost call is over (`borrowed_live`), and no replaced binding waits when no call is in progress
(`retired_drained`). -/

namespace ShenRc.Runtime

open Relation

namespace Ctx

variable {π : Policy} {s s' s₀ s₁ : Ctx} {O : Own} {P : Set Ref} {x : ℕ} {function : Bool} {value : Ref}

/-! ### A binding is set -/

/-- The function slot of the symbol is written, or the global one; the other one stays. -/
def Rewritten (function : Bool) (value : Ref) (o o' : Obj) : Prop :=
  ∀ t g f, o.body = .symbol t g f →
    o'.body = .symbol t (if function then g else value) (if function then value else f)

/-- A slot of the symbol `x` is written, and what is immortal and all other symbols stay. -/
structure Writes (x : ℕ) (function : Bool) (value : Ref) (s s' : Ctx) : Prop where
  stuck : s.stuck = true → s'.stuck = true
  kept : s'.stuck = true ∨ ∀ a o, s.heap a = some o → s.refs (.cell a) = immortal →
    s'.refs (.cell a) = immortal ∧ ∃ o', s'.heap a = some o' ∧
      (a = x → Rewritten function value o o') ∧ (a ≠ x → SameSymbol o o')
  new : s'.stuck = true ∨ ∀ a o', s'.heap a = some o' →
    (∃ o, s.heap a = some o ∧ (a ≠ x → SameSymbol o o')) ∨ Unbound o'

theorem SameSymbol.rewritten {o o' o'' : Obj} (h : Rewritten function value o o')
    (h' : SameSymbol o' o'') : Rewritten function value o o'' :=
  fun t g f hb => (h' _ _ _).mpr (h t g f hb)

theorem Writes.keeps (h : Writes x function value s s₁) (h' : Keeps s₁ s') :
    Writes x function value s s' where
  stuck hs := h'.stuck (h.stuck hs)
  kept := by
    rcases h'.kept with hs | hk'
    · exact Or.inl hs
    rcases h.kept with hs | hk
    · exact Or.inl (h'.stuck hs)
    refine Or.inr fun a o ho hi => ?_
    obtain ⟨hi₁, o₁, ho₁, hx, hne⟩ := hk a o ho hi
    obtain ⟨hi₂, o₂, ho₂, hsame⟩ := hk' a o₁ ho₁ hi₁
    exact ⟨hi₂, o₂, ho₂, fun ha => hsame.rewritten (hx ha),
      fun ha t g f => (hsame t g f).trans (hne ha t g f)⟩
  new := by
    rcases h'.new with hs | hn'
    · exact Or.inl hs
    rcases h.new with hs | hn
    · exact Or.inl (h'.stuck hs)
    refine Or.inr fun a o₂ ho₂ => ?_
    rcases hn' a o₂ ho₂ with ⟨o₁, ho₁, hsame⟩ | hunbound
    · rcases hn a o₁ ho₁ with ⟨o, ho, hne⟩ | hunbound
      · exact Or.inl ⟨o, ho, fun ha t g f => (hsame t g f).trans (hne ha t g f)⟩
      · exact Or.inr fun t g f hb => hunbound t g f ((hsame t g f).mp hb)
    · exact Or.inr hunbound

/-- The write itself. -/
theorem writes_modify (hb : Binds s s₀) (hheap : s₀.heap = s.heap) {o : Obj} {t : List UInt8}
    {g f : Ref} (ho : s.heap x = some o) (hbody : o.body = .symbol t g f) :
    Writes x function value s (s₀.modify x fun o =>
      { o with body := .symbol t (if function then g else value) (if function then value else f) }) := by
  have hmodify : (s₀.modify x fun o => { o with
      body := .symbol t (if function then g else value) (if function then value else f) }) =
      s₀.put x { o with
        body := .symbol t (if function then g else value) (if function then value else f) } := by
    unfold modify
    rw [hheap, ho]
  rw [hmodify]
  generalize hnew : ({ o with
    body := .symbol t (if function then g else value) (if function then value else f) } : Obj) = o'
  have hbody' : o'.body =
      .symbol t (if function then g else value) (if function then value else f) := by
    rw [← hnew]
  have hself : (s₀.put x o').heap x = some o' := Function.update_self ..
  have hput : ∀ a, a ≠ x → (s₀.put x o').heap a = s.heap a := fun a ha => by
    rw [← hheap]
    exact Function.update_of_ne ha ..
  refine ⟨hb.stuck, hb.kept.imp id fun hk a y hy hi => ⟨(hk a y hy hi).1, ?_⟩,
    Or.inr fun a y hy => Or.inl ?_⟩
  · by_cases ha : a = x
    · subst ha
      obtain rfl := Option.some.inj (ho.symm.trans hy)
      refine ⟨o', hself, fun _ t' g' f' hb' => ?_, fun hne => absurd rfl hne⟩
      obtain ⟨rfl, rfl, rfl⟩ := Payload.symbol.inj (hbody.symm.trans hb')
      exact hbody'
    · exact ⟨y, (hput a ha).trans hy, fun hx => absurd hx ha, fun _ => .refl y⟩
  · by_cases ha : a = x
    · exact ⟨o, by rw [ha, ho], fun hne => absurd ha hne⟩
    · exact ⟨y, (hput a ha).symm.trans hy, fun _ => .refl y⟩

/-- **What setting a binding does.** The function that is replaced during a call waits for the outermost
call to end, or it is not counted. -/
structure Rebinds (x : ℕ) (function : Bool) (value : Ref) (s s' : Ctx) : Prop
    extends Writes x function value s s' where
  callDepth : s'.callDepth = s.callDepth
  retired : s'.retired = s.retired ∨ s.callDepth ≠ 0 ∧ ∃ old, s'.retired = s.retired ++ [old]
  replaced : ∀ o t g f, s.heap x = some o → o.body = .symbol t g f → function = true →
    s.callDepth ≠ 0 → f ≠ value → f ∈ s'.retired ∨ s'.isCounted f = false

/-- What follows the write: the replaced value waits, or it is given up. -/
theorem Writes.rebinds {old : Ref} (hw : Writes x function value s s₁)
    (hdepth : s₁.callDepth = s.callDepth) (hretired : s₁.retired = s.retired)
    (hold : ∀ o t g f, s.heap x = some o → o.body = .symbol t g f → function = true → f = old)
    (hk : Keeps s₁ s') (hdepth' : s'.callDepth = s₁.callDepth)
    (hretired' : s'.retired = s₁.retired ∨ s.callDepth ≠ 0 ∧ s'.retired = s₁.retired ++ [old])
    (hwaits : function = true → s.callDepth ≠ 0 → old ≠ value →
      old ∈ s'.retired ∨ s'.isCounted old = false) : Rebinds x function value s s' := by
  refine ⟨hw.keeps hk, hdepth'.trans hdepth, ?_, ?_⟩
  · rcases hretired' with hsame | ⟨hcall, hpushed⟩
    · exact Or.inl (hsame.trans hretired)
    · exact Or.inr ⟨hcall, old, by rw [hpushed, hretired]⟩
  · intro o t g f ho hbody hfunction hcall hne
    obtain rfl := hold o t g f ho hbody hfunction
    exact hwaits hfunction hcall hne

theorem modify_calls (s : Ctx) (a : ℕ) (f : Obj → Obj) :
    (s.modify a f).callDepth = s.callDepth ∧ (s.modify a f).retired = s.retired := by
  unfold modify
  split
  · exact ⟨rfl, rfl⟩
  · exact ⟨rfl, rfl⟩

theorem rcRelease_uncounted {v : Ref} (h : s.isCounted v = false) : s.rcRelease v = s := by
  have hedge : releaseEdge (s, []) v = (s, []) := by
    unfold releaseEdge
    rw [if_neg (by rw [h]; decide)]
  unfold rcRelease
  rw [hedge]
  unfold releaseLoop
  rfl

/-- The end of `set_symbol_slot`. -/
theorem Writes.replaces {old : Ref} (hw : Writes x function value s s₁)
    (hdepth : s₁.callDepth = s.callDepth) (hretired : s₁.retired = s.retired)
    (hold : ∀ o t g f, s.heap x = some o → o.body = .symbol t g f → function = true → f = old) :
    Rebinds x function value s
      (if function && s₁.callDepth ≠ 0 && s₁.isCounted old && old ≠ value then
        if s₁.retired.length = s₁.retiredCapacity then
          if s₁.malloc.1 then
            ({ s₁.malloc.2 with
              retiredCapacity := if s₁.retiredCapacity = 0 then 64 else s₁.retiredCapacity * 2
              retired := s₁.retired ++ [old] }, true)
          else (s₁.malloc.2.setRefs old immortal, true)
        else ({ s₁ with retired := s₁.retired ++ [old] }, true)
      else (s₁.rcRelease old, true)).1 := by
  by_cases hwait : (function && s₁.callDepth ≠ 0 && s₁.isCounted old && old ≠ value) = true
  swap
  · -- The replaced value is released; a function during a call only if it is not counted or stays bound.
    rw [if_neg hwait]
    have hrelease := binds_rcRelease s₁ old
    refine hw.rebinds hdepth hretired hold hrelease.toKeeps hrelease.callDepth
      (Or.inl hrelease.retired) fun hfunction hcall hne => Or.inr ?_
    have huncounted : s₁.isCounted old = false := by
      rw [← Bool.not_eq_true]
      intro hcounted
      refine hwait ?_
      simp [hfunction, hdepth, hcall, hcounted, hne]
    rw [rcRelease_uncounted huncounted]
    exact huncounted
  rw [if_pos hwait]
  simp only [Bool.and_eq_true, decide_eq_true_eq] at hwait
  obtain ⟨⟨⟨-, hcall⟩, -⟩, -⟩ := hwait
  rw [hdepth] at hcall
  have hmem : old ∈ s₁.retired ++ [old] := List.mem_append_right _ List.mem_cons_self
  by_cases hfull : s₁.retired.length = s₁.retiredCapacity
  swap
  · rw [if_neg hfull]
    exact hw.rebinds hdepth hretired hold (.still rfl rfl id) rfl (Or.inr ⟨hcall, rfl⟩)
      fun _ _ _ => Or.inl hmem
  rw [if_pos hfull]
  by_cases hgrown : s₁.malloc.1 = true
  · rw [if_pos hgrown]
    exact hw.rebinds hdepth hretired hold (.still rfl rfl id) rfl (Or.inr ⟨hcall, rfl⟩)
      fun _ _ _ => Or.inl hmem
  rw [if_neg hgrown]
  -- The list cannot grow, so the function becomes immortal.
  have hpin := (binds_malloc s₁).trans (binds_setRefs (s := s₁.malloc.2) (r := old) (Or.inr rfl))
  exact hw.rebinds hdepth hretired hold hpin.toKeeps hpin.callDepth (Or.inl hpin.retired)
    fun _ _ _ => Or.inr (isCounted_of_immortal (setRefs_self ..))

/-- **What `set_symbol_slot` does when it succeeds.** -/
theorem setSymbolSlot_rebinds {symbol : Ref} (h : (s.setSymbolSlot symbol value function).2 = true) :
    ∃ x, symbol = .cell x ∧ (∃ o t g f, s.heap x = some o ∧ o.body = .symbol t g f) ∧
      Rebinds x function value s (s.setSymbolSlot symbol value function).1 := by
  unfold setSymbolSlot at h ⊢
  rcases hsymbol : s.asSymbol symbol with _ | ⟨x, t, g, f⟩
  · rw [hsymbol] at h
    exact absurd h (by simp)
  rw [hsymbol] at h
  dsimp only at h ⊢
  obtain ⟨rfl, o, ho, hbody⟩ := asSymbol_some hsymbol
  refine ⟨x, rfl, ⟨o, t, g, f, ho, hbody⟩, ?_⟩
  by_cases hforeign : belongs value = false
  · rw [if_pos hforeign] at h
    exact absurd h (by simp)
  clear h
  rw [if_neg hforeign]
  -- The generation and the count of the new value.
  have hbump : Binds s (if function = true ∧ s.functionGeneration < sizeMax then
      { s with functionGeneration := s.functionGeneration + 1 } else s) ∧
      (if function = true ∧ s.functionGeneration < sizeMax then
        { s with functionGeneration := s.functionGeneration + 1 } else s).heap = s.heap := by
    split_ifs
    · exact ⟨.still rfl rfl rfl rfl id, rfl⟩
    · exact ⟨.refl s, rfl⟩
  generalize (if function = true ∧ s.functionGeneration < sizeMax then
    { s with functionGeneration := s.functionGeneration + 1 } else s) = sg at hbump ⊢
  obtain ⟨hbump, hheap⟩ := hbump
  have hretain := hbump.trans (binds_rcRetain sg value)
  have hwrites : Writes x function value s ((sg.rcRetain value).modify x fun o => { o with
      body := .symbol t (if function then g else value) (if function then value else f) }) :=
    writes_modify hretain ((rcRetain_heap sg value).trans hheap) ho hbody
  obtain ⟨hdepth, hretired⟩ := modify_calls (sg.rcRetain value) x fun o => { o with
    body := .symbol t (if function then g else value) (if function then value else f) }
  rw [hretain.callDepth] at hdepth
  rw [hretain.retired] at hretired
  generalize ((sg.rcRetain value).modify x fun o => { o with
    body := .symbol t (if function then g else value) (if function then value else f) }) = s₁
    at hwrites hdepth hretired ⊢
  refine hwrites.replaces hdepth hretired fun o' t' g' f' ho' hbody' hfunction => ?_
  obtain rfl := Option.some.inj (ho.symm.trans ho')
  obtain ⟨-, -, rfl⟩ := Payload.symbol.inj (hbody'.symm.trans hbody)
  rw [if_pos hfunction]

/-- A set that is refused only reports an error. -/
theorem setSymbolSlot_refused {symbol : Ref} (h : (s.setSymbolSlot symbol value function).2 = false) :
    Binds s (s.setSymbolSlot symbol value function).1 := by
  unfold setSymbolSlot at h ⊢
  rcases hsymbol : s.asSymbol symbol with _ | ⟨x, t, g, f⟩
  · exact binds_rcError s _
  rw [hsymbol] at h
  dsimp only at h ⊢
  by_cases hforeign : belongs value = false
  · rw [if_pos hforeign]
    exact binds_rcError s _
  · rw [if_neg hforeign] at h
    split_ifs at h

/-- `rc_function_get_borrowed`. -/
def rcFunctionGetBorrowed (s : Ctx) (symbol : Ref) : Ctx × Ref :=
  let v := match s.asSymbol symbol with
    | some (_, _, _, f) => f
    | none => .null
  if v = .null then s.fail ("undefined function " ++ s.functionName symbol) else (s, v)

theorem rcFunctionGetBorrowed_some {symbol : Ref} {a : ℕ}
    (h : (s.rcFunctionGetBorrowed symbol).2 = .cell a) :
    ∃ x o t g, s.heap x = some o ∧ o.body = .symbol t g (.cell a) := by
  unfold rcFunctionGetBorrowed at h
  rcases hsymbol : s.asSymbol symbol with _ | ⟨x, t, g, f⟩
  · rw [hsymbol] at h
    exact absurd h (by simp [Ctx.fail])
  rw [hsymbol] at h
  dsimp only at h
  by_cases hnull : f = .null
  · rw [if_pos hnull] at h
    exact absurd h (by simp [Ctx.fail])
  rw [if_neg hnull] at h
  obtain ⟨-, o, ho, hbody⟩ := asSymbol_some hsymbol
  exact ⟨x, o, t, g, ho, by rw [hbody, ← h]⟩

/-! ### Everything else -/

/-- What a stretch of the runtime does that sets no binding: the bindings that wait stay as long as a
call is in progress, and are given up when the outermost call is over. -/
structure Passes (s s' : Ctx) : Prop extends Keeps s s' where
  retired : s'.callDepth ≠ 0 → s'.retired = s.retired
  drained : s'.callDepth = 0 →
    s'.retired = [] ∨ s'.retired = s.retired ∧ (s.callDepth = 0 ∨ s.callDepth = sizeMax)

theorem Binds.passes (h : Binds s s') : Passes s s' :=
  ⟨h.toKeeps, fun _ => h.retired, fun hidle => Or.inr ⟨h.retired, Or.inl (by rw [← h.callDepth, hidle])⟩⟩

/-- The outermost `rc_call_leave` releases what waits. -/
theorem rcCallLeave_keeps (s : Ctx) : Keeps s s.rcCallLeave ∧
    (s.rcCallLeave.callDepth ≠ 0 → s.rcCallLeave.retired = s.retired) ∧
    (s.rcCallLeave.callDepth = 0 → s.rcCallLeave.retired = []) := by
  unfold rcCallLeave
  generalize (if s.callDepth = 0 then sizeMax else s.callDepth - 1) = depth
  dsimp only
  by_cases hstay : depth ≠ 0 ∨ s.retired = []
  · rw [if_pos hstay]
    refine ⟨.still rfl rfl id, fun _ => rfl, fun hidle => ?_⟩
    exact hstay.resolve_left fun hne => hne hidle
  rw [if_neg hstay]
  obtain ⟨hidle, -⟩ := not_or.mp hstay
  rw [not_not] at hidle
  have hall := binds_releaseAll { s with callDepth := depth, retired := [] } s.retired
  have hstill : Keeps s { s with callDepth := depth, retired := [] } := .still rfl rfl id
  exact ⟨hstill.trans hall.toKeeps, fun hne => absurd (hall.callDepth.trans hidle) hne,
    fun _ => hall.retired⟩

theorem passes_rcCallLeave (s : Ctx) : Passes s s.rcCallLeave :=
  have ⟨hkeeps, hstay, hidle⟩ := rcCallLeave_keeps s
  ⟨hkeeps, hstay, fun h => Or.inl (hidle h)⟩

/-- The depth of a call that was entered is zero only if the counter has wrapped around. -/
theorem Passes.enter (h : Passes s.rcCallEnter s')
    (hdepth : s'.callDepth = 0 → s'.retired = [] ∨ s'.callDepth = s.rcCallEnter.callDepth) :
    Passes s s' := by
  have hstill : Keeps s s.rcCallEnter := .still rfl rfl id
  refine ⟨hstill.trans h.toKeeps, h.retired, fun hidle => ?_⟩
  rcases hdepth hidle with hnil | hsame
  · exact Or.inl hnil
  rcases h.drained hidle with hnil | ⟨hretired, -⟩
  · exact Or.inl hnil
  refine Or.inr ⟨hretired, Or.inr ?_⟩
  rw [hidle] at hsame
  unfold rcCallEnter at hsame
  dsimp only at hsame
  by_contra hne
  rw [if_neg hne] at hsame
  omega

theorem Books.binds_rcInteger (hb : Books 0 [] s) (n : ℤ) : Binds s (s.rcInteger n).1 := by
  unfold Ctx.rcInteger
  split_ifs
  · exact .refl s
  · exact hb.binds_allocate _ (by simp) _ _

/-- **Every operation but those on bindings and on the depth of the calls.** -/
theorem Inv.binds_exec (h : Inv π s O [] P) (hO : NonNeg O) (hb : Books 0 [] s) (o : Op)
    (hglobal : ∀ x v, o ≠ .globalSet x v) (hfunction : ∀ x f, o ≠ .functionSet x f)
    (henter : o ≠ .callEnter) (hleave : o ≠ .callLeave) : Binds s (o.exec s).1 := by
  cases o with
  | retain v => exact binds_rcRetain s v
  | release v => exact binds_rcRelease s v
  | number bits => exact hb.binds_allocate _ (by simp) _ _
  | integer n => exact hb.binds_rcInteger n
  | string text => exact hb.binds_textValue _ (by simp) _
  | symbol name => exact hb.binds_rcSymbol name
  | cons hd tl => exact hb.binds_rcCons hd tl
  | consOwned hd tl => exact hb.binds_rcConsOwned hd tl
  | consReuse c hd tl => exact hb.binds_rcConsReuse c hd tl
  | consReuseOwned c hd tl => exact hb.binds_rcConsReuseOwned c hd tl
  | pairTakeUnique p first => exact binds_rcPairTakeUnique s p first
  | pairTakeLast p first => exact binds_rcPairTakeLast s p first
  | pairTakeTailReuse c => exact binds_rcPairTakeTailReuse s c
  | head v => exact binds_rcHead s v
  | tail v => exact binds_rcTail s v
  | vector n => exact hb.binds_rcVector n
  | vectorGet v i => exact binds_rcVectorGet s v i
  | vectorSet v i item => exact binds_rcVectorSet s v i item
  | closure arity native captures => exact hb.binds_closureCreate ..
  | closureOwned arity native captures => exact hb.binds_closureCreate ..
  | closureMoved arity native captures moved => exact hb.binds_closureCreateMoved ..
  | closureReturnSecond native captures =>
    exact (hb.binds_closureCreate ..).trans (binds_certify _)
  | closureReturnSecondOwned native captures =>
    exact (hb.binds_closureCreate ..).trans (binds_certify _)
  | closureStatic v => exact binds_rcClosureStatic s v
  | tailcall fn argv => exact hb.binds_rcTailcall fn argv
  | tailcallOwnedArgs fn argv => exact hb.binds_rcTailcallOwnedArgs fn argv
  | requireBoolean v => exact hb.binds_requireGuard v _
  | requireArgumentContext v => exact hb.binds_requireGuard v _
  | envFrame parent bindings => exact hb.binds_rcEnvFrame parent bindings
  | evalEnvFrame self callback argv => exact hb.binds_rcEvalEnvFrame self callback argv
  | planHeat e => exact binds_rcEvalPlanHeat s e
  | planSet e plan => exact binds_rcEvalPlanSet s e plan
  | planPromote self prepared plan => exact binds_rcEvalPlanPromote s self prepared plan
  | globalSet x v => exact absurd rfl (hglobal x v)
  | functionSet x f => exact absurd rfl (hfunction x f)
  | globalGet x => exact binds_rcGlobalGet s x
  | functionGet x => exact binds_rcFunctionGet s x
  | functionLookup x => exact binds_rcFunctionLookup s x
  | builtinCacheSet slot fn => exact binds_rcBuiltinCacheSet s slot fn
  | callEnter => exact absurd rfl henter
  | callLeave => exact absurd rfl hleave
  | error message => exact binds_rcError s message
  | clearError =>
    have hclear : Binds s s.rcClearError := .still rfl rfl rfl rfl id
    exact hclear
  | setCollectionInterval n =>
    have hinterval : Binds s { s with collectionInterval := n, adaptiveCollection := false } :=
      .still rfl rfl rfl rfl id
    exact hinterval
  | safepoint => exact h.binds_rcSafepoint hO
  | collect => exact h.binds_rcCollect hO

theorem Inv.passes_exec (h : Inv π s O [] P) (hO : NonNeg O) (hb : Books 0 [] s) (o : Op)
    (hglobal : ∀ x v, o ≠ .globalSet x v) (hfunction : ∀ x f, o ≠ .functionSet x f) :
    Passes s (o.exec s).1 := by
  by_cases henter : o = .callEnter
  · subst henter
    exact (Binds.refl s.rcCallEnter).passes.enter fun _ => Or.inr rfl
  by_cases hleave : o = .callLeave
  · subst hleave
    exact passes_rcCallLeave s
  · exact (h.binds_exec hO hb o hglobal hfunction henter hleave).passes

end Ctx

namespace Config

open Ctx

variable {π : Policy} {c c' : Config} {s : Ctx}

/-! ### Steps -/

/-- The end of a stretch of runtime code, with the `rc_call_leave` of a call that is over. -/
theorem passes_after {leave : Bool} {rest : List Frame} {t : Turn} (h : Binds s t.ctx) :
    Passes s (after leave rest t).ctx ∧ ((after leave rest t).ctx.callDepth = 0 →
      (after leave rest t).ctx.retired = [] ∨ (after leave rest t).ctx.callDepth = s.callDepth) := by
  have hstay : Passes s t.ctx ∧ (t.ctx.callDepth = 0 → t.ctx.retired = [] ∨ t.ctx.callDepth = s.callDepth) :=
    ⟨h.passes, fun _ => Or.inr h.callDepth⟩
  rcases t with ⟨s', result⟩ | ⟨s', request, pending⟩ | ⟨s', fn, args, owned, w⟩
  · change Passes s (if leave then s'.rcCallLeave else s') ∧
      ((if leave then s'.rcCallLeave else s').callDepth = 0 →
        (if leave then s'.rcCallLeave else s').retired = [] ∨
          (if leave then s'.rcCallLeave else s').callDepth = s.callDepth)
    split_ifs
    · obtain ⟨hkeeps, hdeep, hidle⟩ := rcCallLeave_keeps s'
      exact ⟨⟨h.toKeeps.trans hkeeps, fun hne => (hdeep hne).trans h.retired, fun h0 => Or.inl (hidle h0)⟩,
        fun h0 => Or.inl (hidle h0)⟩
    · exact hstay
  · exact hstay
  · exact hstay

theorem passes_enter_after {leave : Bool} {rest : List Frame} {t : Turn}
    (h : Binds s.rcCallEnter t.ctx) : Passes s (after leave rest t).ctx :=
  (passes_after h).1.enter (passes_after h).2

/-- A successful `rc_global_set` or `rc_function_set` on the symbol of a cell. -/
structure Binding where
  symbol : ℕ
  function : Bool
  value : Ref
  deriving DecidableEq, Repr

def Binding.set (b : Binding) (s : Ctx) : Ctx × Bool :=
  if b.function then s.rcFunctionSet (.cell b.symbol) b.value
  else s.rcGlobalSet (.cell b.symbol) b.value

/-- The step sets the binding. -/
def Sets (b : Binding) (c c' : Config) : Prop :=
  Step c c' ∧ ∃ s O rest, c = ⟨s, .client O :: rest⟩ ∧ (b.set s).2 = true ∧
    c' = ⟨(b.set s).1, .client O :: rest⟩

theorem Binding.set_rebinds {b : Binding} (h : (b.set s).2 = true) :
    (∃ o t g f, s.heap b.symbol = some o ∧ o.body = .symbol t g f) ∧
      Rebinds b.symbol b.function b.value s (b.set s).1 := by
  rcases b with ⟨x, function, value⟩
  have hslot : ∀ {r : Ctx × Bool}, r = s.setSymbolSlot (.cell x) value function → r.2 = true →
      (∃ o t g f, s.heap x = some o ∧ o.body = .symbol t g f) ∧ Rebinds x function value s r.1 := by
    rintro r rfl hr
    obtain ⟨x', hx, hsymbol, hrebinds⟩ := setSymbolSlot_rebinds hr
    obtain rfl := Ref.cell.inj hx
    exact ⟨hsymbol, hrebinds⟩
  unfold Binding.set at h ⊢
  dsimp only at h ⊢
  rcases function with _ | _
  · exact hslot rfl h
  · change (s.rcFunctionSet (.cell x) value).2 = true at h
    change _ ∧ Rebinds x true value s (s.rcFunctionSet (.cell x) value).1
    unfold rcFunctionSet at h ⊢
    by_cases hclosure : s.rcType value = .closure
    · rw [if_pos hclosure] at h ⊢
      exact hslot rfl h
    · rw [if_neg hclosure] at h
      exact absurd h (by simp)

theorem Sets.rebinds {b : Binding} (h : Sets b c c') :
    (∃ o t g f, c.ctx.heap b.symbol = some o ∧ o.body = .symbol t g f) ∧
      Rebinds b.symbol b.function b.value c.ctx c'.ctx := by
  obtain ⟨-, s, O, rest, rfl, hset, rfl⟩ := h
  exact b.set_rebinds hset

/-- An operation that sets a binding sets it or only reports an error. -/
theorem op_sets {O : Own} {rest : List Frame} {o : Op} {r : Ctx × Bool} (hexec : o.exec s = (r.1, []))
    (htakes : o.takes = []) (htrue : r.2 = true → ∃ b : Binding, b.set s = r)
    (hfalse : r.2 = false → Binds s r.1)
    (hs : Step ⟨s, .client O :: rest⟩
      ⟨(o.exec s).1, .client (O - owns o.takes + owns (o.exec s).2) :: rest⟩) :
    (∃ b, Sets b ⟨s, .client O :: rest⟩
      ⟨(o.exec s).1, .client (O - owns o.takes + owns (o.exec s).2) :: rest⟩) ∨
      Passes s (o.exec s).1 := by
  rw [hexec, htakes, owns_nil, sub_zero, add_zero] at hs ⊢
  by_cases hr : r.2 = true
  · obtain ⟨b, hset⟩ := htrue hr
    refine Or.inl ⟨b, hs, s, O, rest, rfl, by rw [hset, hr], ?_⟩
    rw [hset]
  · exact Or.inr (hfalse (Bool.eq_false_iff.mpr hr)).passes

/-- A step that is an operation. -/
theorem op_binds {O : Own} {rest : List Frame} (h : (⟨s, .client O :: rest⟩ : Config).Ok π)
    (hb : Books 0 [] s) (o : Op)
    (hs : Step ⟨s, .client O :: rest⟩
      ⟨(o.exec s).1, .client (O - owns o.takes + owns (o.exec s).2) :: rest⟩) :
    (∃ b, Sets b ⟨s, .client O :: rest⟩
      ⟨(o.exec s).1, .client (O - owns o.takes + owns (o.exec s).2) :: rest⟩) ∨
      Passes s (o.exec s).1 := by
  by_cases hglobal : ∃ x v, o = .globalSet x v
  · obtain ⟨x, v, rfl⟩ := hglobal
    refine op_sets (r := s.rcGlobalSet x v) rfl rfl (fun hr => ?_) setSymbolSlot_refused hs
    obtain ⟨a, rfl, -, -⟩ := setSymbolSlot_rebinds hr
    exact ⟨⟨a, false, v⟩, rfl⟩
  by_cases hfunction : ∃ x f, o = .functionSet x f
  · obtain ⟨x, f, rfl⟩ := hfunction
    refine op_sets (r := s.rcFunctionSet x f) rfl rfl (fun hr => ?_) (fun hr => ?_) hs
    · have hslot := hr
      unfold rcFunctionSet at hslot
      split_ifs at hslot
      obtain ⟨a, rfl, -, -⟩ := setSymbolSlot_rebinds hslot
      exact ⟨⟨a, true, f⟩, rfl⟩
    · unfold rcFunctionSet at hr ⊢
      split_ifs at hr ⊢
      · exact setSymbolSlot_refused hr
      · exact binds_rcError s _
  · exact Or.inr (h.inv.passes_exec h.frames.sum hb o (fun x v he => hglobal ⟨x, v, he⟩)
      fun x f he => hfunction ⟨x, f, he⟩)

/-- The frame of a call that ends with `rc_call_leave`. -/
def leaves : Frame → ℕ
  | .client _ => 0
  | .apply _ _ leave => leave.toNat
  | .wait _ leave => leave.toNat

/-- The calls in progress that end with `rc_call_leave`. -/
def depth (fs : List Frame) : ℕ := (fs.map leaves).sum

theorem depth_cons (f : Frame) (fs : List Frame) : depth (f :: fs) = leaves f + depth fs := by
  rw [depth, List.map_cons, List.sum_cons, depth]

/-- **What a step is**: an operation, the rest of a call that is in progress, or the start of a call. -/
theorem step_cases (h : c.Ok π) (hb : Books 0 [] c.ctx) (hs : Step c c') :
    (∃ s O rest, ∃ o : Op, c = ⟨s, .client O :: rest⟩ ∧
      c' = ⟨(o.exec s).1, .client (O - owns o.takes + owns (o.exec s).2) :: rest⟩) ∨
    (∃ leave rest t, c' = after leave rest t ∧ Binds c.ctx t.ctx ∧
      depth c.stack = leave.toNat + depth rest) ∨
    ∃ rest t, c' = after true rest t ∧ Binds c.ctx.rcCallEnter t.ctx ∧ depth c.stack = depth rest := by
  have hclient : ∀ (O O' : Own) (rest : List Frame),
      depth (.client O :: rest) = depth (.client O' :: rest) := fun O O' rest => by
    rw [depth_cons, depth_cons]
    rfl
  have hwithout : ∀ (O O' : Own) (rest : List Frame),
      depth (.client O :: rest) = false.toNat + depth (.client O' :: rest) := fun O O' rest => by
    rw [hclient O O', Bool.toNat_false, zero_add]
  cases hs with
  | op s O rest o hu ht ha => exact Or.inl ⟨s, O, rest, o, rfl, rfl⟩
  | apply s O rest fn argv hu =>
    exact Or.inr (Or.inr ⟨_, _, rfl, hb.binds_applyStart .., hclient ..⟩)
  | applyOwnedArgs s O rest fn argv hu ht =>
    exact Or.inr (Or.inr ⟨_, _, rfl, hb.binds_applyStart .., hclient ..⟩)
  | applyRootedOwnedArgs s O rest fn argv hu ht =>
    exact Or.inr (Or.inr ⟨_, _, rfl, hb.binds_applyRootedOwnedArgs .., hclient ..⟩)
  | callMixed s O rest fn argv borrowed t hu ht hm =>
    exact Or.inr (Or.inl ⟨_, _, _, rfl, binds_callMixed hm, hwithout ..⟩)
  | callMixedGeneral s O rest fn argv borrowed hu ht hm =>
    exact Or.inr (Or.inr ⟨_, _, rfl, hb.binds_callMixedGeneral .., hclient ..⟩)
  | compiledCallComplete s O rest result argv hu ht hf =>
    have hi : s.Inv π (ownOf (.client (O - owns (result :: argv)) :: rest) + owns (result :: argv)) []
        (hiddenOf rest) := give h.inv
    have hframes : AllNonNeg (.client (O - owns (result :: argv)) :: rest) :=
      AllNonNeg.cons (nonNeg_give ht) h.frames.tail
    have hreleased := (hi.eq (Q := _ + Runtime.own result + owns argv) (by
      rw [owns_cons, ← add_assoc])).releaseOwned (hframes.sum.add (nonNeg_own _))
      ((covers_stack hframes).add (nonNeg_own _))
    exact Or.inr (Or.inl ⟨_, _, _, rfl,
      (binds_releaseAll s argv).trans (hreleased.binds_callComplete hframes.sum), hwithout ..⟩)
  | turn s rest request pending leave =>
    refine Or.inr (Or.inl ⟨_, _, _, rfl, hb.binds_applyTurn
      (Ctx.Inv.eq (h.inv.reveal fun r hr => ?_) ?_) h.frames.tail.sum (covers_stack h.frames.tail),
      depth_cons ..⟩)
    · refine List.mem_append.mpr ?_
      rcases hr with hr | hr
      · exact Or.inr hr
      · exact Or.inl hr
    · change ownOf (_ :: rest) = _
      rw [ownOf_cons, add_comm]
      rfl
  | ret s O rest w leave result left hu ht hf =>
    have hframes := h.frames.tail.tail
    refine Or.inr (Or.inl ⟨_, _, _, rfl, hb.binds_afterCallback
      (Ctx.Inv.congr (h.inv.reveal fun r hr => ?_) fun r hr => ?_) hframes.sum (covers_stack hframes), ?_⟩)
    · refine List.mem_append.mpr (Or.inr (List.mem_append.mpr ?_))
      rcases hr with hr | hr
      · exact Or.inr hr
      · exact Or.inl hr
    · change ownOf (.client O :: .wait w leave :: rest) r = _
      rw [ownOf_cons, ownOf_cons]
      simp only [Frame.own, Pi.add_apply, ht r hr]
      ring
    · show depth (.client O :: .wait w leave :: rest) = _
      rw [depth_cons, depth_cons]
      exact zero_add _

/-- **Every step sets a binding or leaves the bindings alone.** -/
theorem step_sets (h : c.Ok π) (hb : Books 0 [] c.ctx) (hs : Step c c') :
    (∃ b, Sets b c c') ∨ Passes c.ctx c'.ctx := by
  rcases step_cases h hb hs with ⟨s, O, rest, o, rfl, rfl⟩ | ⟨leave, rest, t, rfl, hbinds, -⟩ |
    ⟨rest, t, rfl, hbinds, -⟩
  · exact op_binds h hb o hs
  · exact Or.inr (passes_after hbinds).1
  · exact Or.inr (passes_enter_after hbinds)

/-! ### Runs of a host -/

/-- An operation that the interface permits is a step. -/
theorem host_step {handles : List Ref} {o : Op} (h : permitted s handles [o] = true) :
    Step ⟨s, [.client (owns handles)]⟩
      ⟨(o.exec s).1, [.client (owns (handles.diff o.takes ++ (o.exec s).2))]⟩ := by
  simp only [permitted, Bool.and_eq_true, List.all_eq_true, and_true] at h
  obtain ⟨⟨hfree, huse⟩, htake⟩ := h
  have hcount : ∀ r, (o.takes.count r : ℤ) ≤ handles.count r := fun r => by
    exact_mod_cast (List.isSubperm_iff.mp htake).count_le r
  have hown : owns handles - owns o.takes + owns (o.exec s).2 =
      owns (handles.diff o.takes ++ (o.exec s).2) := by
    funext r
    have := hcount r
    simp only [owns, Pi.add_apply, Pi.sub_apply, List.count_append, List.count_diff]
    omega
  have hstep := Step.op s (owns handles) [] o
    (fun v hv => ⟨by simp [hidden, Frame.hidden], fun a ha => by
      have := huse v hv
      subst ha
      simpa [inUse] using this⟩)
    (fun r _ => hcount r) (allowed_of_unconditional hfree)
  rwa [hown] at hstep

/-- All contexts of a list of operations, but the first, satisfy a condition. -/
def along (p : Ctx → Prop) [DecidablePred p] (s : Ctx) : List Op → Bool
  | [] => true
  | o :: os => decide (p (o.exec s).1) && along p (o.exec s).1 os

theorem perform_along {p : Ctx → Prop} [DecidablePred p] (os : List Op) :
    ∀ {s : Ctx} {handles : List Ref}, permitted s handles os = true → along p s os = true →
    ReflTransGen (fun d d' => Step d d' ∧ p d'.ctx) ⟨s, [.client (owns handles)]⟩
      ⟨(perform s handles os).1, [.client (owns (perform s handles os).2)]⟩ := by
  induction os with
  | nil => exact fun _ _ => .refl
  | cons o os ih =>
    intro s handles hpermitted halong
    simp only [permitted, along, Bool.and_eq_true] at hpermitted halong
    obtain ⟨hone, hrest⟩ := hpermitted
    have hpermitted : permitted s handles [o] = true := by simp [permitted, hone]
    have hstep := host_step hpermitted
    exact (ih hrest halong.2).head ⟨hstep, of_decide_eq_true halong.1⟩

/-! ### What was set last -/

/-- The value a slot was set to last, for the log of a run with the newest binding first. -/
def latest (log : List Binding) (x : ℕ) (function : Bool) : Ref :=
  match log.find? fun b => b.symbol == x && b.function == function with
  | some b => b.value
  | none => .null

theorem latest_cons (b : Binding) (log : List Binding) (x : ℕ) (function : Bool) :
    latest (b :: log) x function =
      if b.symbol = x ∧ b.function = function then b.value else latest log x function := by
  unfold latest
  rw [List.find?_cons]
  by_cases hb : b.symbol = x ∧ b.function = function
  · rw [if_pos hb, show (b.symbol == x && b.function == function) = true by simp [hb]]
  · rw [if_neg hb, show (b.symbol == x && b.function == function) = false by simpa using hb]

theorem latest_absent {log : List Binding} {x : ℕ} (h : ∀ b ∈ log, b.symbol ≠ x) (function : Bool) :
    latest log x function = .null := by
  induction log with
  | nil => rfl
  | cons b log ih =>
    rw [latest_cons, if_neg fun hb => h b List.mem_cons_self hb.1]
    exact ih fun b' hb' => h b' (List.mem_cons_of_mem _ hb')

/-- The runs in a new context, with the bindings that were set, the newest first. -/
inductive History (acyclic : Bool) (mem scratch marking : ℕ → Bool) : List Binding → Config → Prop
  | start : History acyclic mem scratch marking [] (start acyclic mem scratch marking)
  | set {log : List Binding} {c c' : Config} {b : Binding}
      (h : History acyclic mem scratch marking log c) (hs : Sets b c c') :
      History acyclic mem scratch marking (b :: log) c'
  | other {log : List Binding} {c c' : Config} (h : History acyclic mem scratch marking log c)
      (hs : Step c c') (hn : ∀ b, ¬ Sets b c c') : History acyclic mem scratch marking log c'

theorem History.reachable {acyclic : Bool} {mem scratch marking : ℕ → Bool} {log : List Binding}
    (h : History acyclic mem scratch marking log c) : Reachable acyclic mem scratch marking c := by
  induction h with
  | start => exact .refl
  | set _ hs ih => exact ih.tail hs.1
  | other _ hs _ ih => exact ih.tail hs

/-- Every run has a log. -/
theorem reachable_history {acyclic : Bool} {mem scratch marking : ℕ → Bool}
    (h : Reachable acyclic mem scratch marking c) :
    ∃ log, History acyclic mem scratch marking log c := by
  induction h with
  | refl => exact ⟨[], .start⟩
  | @tail c c' _ hs ih =>
    obtain ⟨log, hlog⟩ := ih
    by_cases hset : ∃ b, Sets b c c'
    · obtain ⟨b, hb⟩ := hset
      exact ⟨b :: log, hlog.set hb⟩
    · exact ⟨log, hlog.other hs fun b hb => hset ⟨b, hb⟩⟩

/-- The symbols hold what the log says. -/
structure Recalls (log : List Binding) (s : Ctx) : Prop where
  known : ∀ b ∈ log, ∃ o t g f, s.heap b.symbol = some o ∧ o.body = .symbol t g f
  slots : ∀ x o t g f, s.heap x = some o → o.body = .symbol t g f →
    g = latest log x false ∧ f = latest log x true

/-- Symbols are immortal. -/
def Interned (s : Ctx) : Prop :=
  ∀ x o t g f, s.heap x = some o → o.body = .symbol t g f → s.refs (.cell x) = immortal

theorem Ok.interned (h : c.Ok π) : Interned c.ctx := fun x o t g f ho hb => h.inv.sym x o t g f ho hb

variable {log : List Binding} {s' : Ctx}

/-- The slots of a cell that stays as it is, or is new. -/
theorem Recalls.same (h : Recalls log s) {x : ℕ} {o' : Obj} {t : List UInt8} {g f : Ref}
    (hkept : ∀ o t g f, s.heap x = some o → o.body = .symbol t g f → o'.body = .symbol t g f)
    (hnew : (∃ o, s.heap x = some o ∧ SameSymbol o o') ∨ Unbound o')
    (hb : o'.body = .symbol t g f) : g = latest log x false ∧ f = latest log x true := by
  rcases hnew with ⟨o, ho, hsame⟩ | hunbound
  · exact h.slots x o t g f ho ((hsame t g f).mp hb)
  by_cases hx : ∃ b ∈ log, b.symbol = x
  · obtain ⟨b, hmem, rfl⟩ := hx
    obtain ⟨o, t', g', f', ho, hb'⟩ := h.known b hmem
    obtain ⟨-, rfl, rfl⟩ := Payload.symbol.inj (hb.symm.trans (hkept o t' g' f' ho hb'))
    exact h.slots _ o t' g f ho hb'
  · obtain ⟨rfl, rfl⟩ := hunbound t g f hb
    have habsent : ∀ b ∈ log, b.symbol ≠ x := fun b hmem hb => hx ⟨b, hmem, hb⟩
    exact ⟨(latest_absent habsent _).symm, (latest_absent habsent _).symm⟩

theorem Recalls.keeps (h : Recalls log s) (hk : Keeps s s') (hsym : Interned s)
    (hok : s'.stuck = false) : Recalls log s' := by
  have hstuck : s'.stuck ≠ true := by rw [hok]; decide
  have hkept := hk.kept.resolve_left hstuck
  have hnew := hk.new.resolve_left hstuck
  refine ⟨fun b hmem => ?_, fun x o' t g f ho' hb' => ?_⟩
  · obtain ⟨o, t, g, f, ho, hb⟩ := h.known b hmem
    obtain ⟨-, o', ho', hsame⟩ := hkept _ o ho (hsym _ o t g f ho hb)
    exact ⟨o', t, g, f, ho', (hsame t g f).mpr hb⟩
  · refine h.same (fun o t g f ho hb => ?_) (hnew x o' ho') hb'
    obtain ⟨-, o'', ho'', hsame⟩ := hkept x o ho (hsym x o t g f ho hb)
    obtain rfl := Option.some.inj (ho'.symm.trans ho'')
    exact (hsame t g f).mpr hb

theorem Recalls.writes {b : Binding} (h : Recalls log s)
    (hw : Writes b.symbol b.function b.value s s')
    (hx : ∃ o t g f, s.heap b.symbol = some o ∧ o.body = .symbol t g f) (hsym : Interned s)
    (hok : s'.stuck = false) : Recalls (b :: log) s' := by
  have hstuck : s'.stuck ≠ true := by rw [hok]; decide
  have hkept := hw.kept.resolve_left hstuck
  have hnew := hw.new.resolve_left hstuck
  -- A symbol is a symbol afterwards, the one that is written with its new slots.
  have hsymbol : ∀ x o t g f, s.heap x = some o → o.body = .symbol t g f →
      ∃ o', s'.heap x = some o' ∧ (x = b.symbol → o'.body = .symbol t
        (if b.function then g else b.value) (if b.function then b.value else f)) ∧
        (x ≠ b.symbol → o'.body = .symbol t g f) := by
    intro x o t g f ho hb
    obtain ⟨-, o', ho', hself, hne⟩ := hkept x o ho (hsym x o t g f ho hb)
    exact ⟨o', ho', fun he => hself he t g f hb, fun hxb => (hne hxb t g f).mpr hb⟩
  refine ⟨fun b' hmem => ?_, fun x o' t g f ho' hb' => ?_⟩
  · have hold : ∃ o t g f, s.heap b'.symbol = some o ∧ o.body = .symbol t g f := by
      rcases List.mem_cons.mp hmem with rfl | hmem
      · exact hx
      · exact h.known b' hmem
    obtain ⟨o, t, g, f, ho, hb⟩ := hold
    obtain ⟨o', ho', hself, hne⟩ := hsymbol _ o t g f ho hb
    by_cases he : b'.symbol = b.symbol
    · exact ⟨o', t, _, _, ho', hself he⟩
    · exact ⟨o', t, g, f, ho', hne he⟩
  rw [latest_cons, latest_cons]
  by_cases he : x = b.symbol
  · subst he
    obtain ⟨o, t₀, g₀, f₀, ho, hb⟩ := hx
    obtain ⟨o'', ho'', hself, -⟩ := hsymbol _ o t₀ g₀ f₀ ho hb
    obtain rfl := Option.some.inj (ho'.symm.trans ho'')
    obtain ⟨-, rfl, rfl⟩ := Payload.symbol.inj (hb'.symm.trans (hself rfl))
    obtain ⟨hg, hf⟩ := h.slots _ o t₀ g₀ f₀ ho hb
    rcases hfunction : b.function with _ | _
    · simp [hf]
    · simp [hg]
  · rw [if_neg fun hb => he hb.1.symm, if_neg fun hb => he hb.1.symm]
    refine h.same (fun o t g f ho hb => ?_) ((hnew x o' ho').imp ?_ id) hb'
    · obtain ⟨o'', ho'', -, hne⟩ := hsymbol x o t g f ho hb
      obtain rfl := Option.some.inj (ho'.symm.trans ho'')
      exact hne he
    · rintro ⟨o, ho, hsame⟩
      exact ⟨o, ho, hsame he⟩

theorem History.recalls {acyclic : Bool} {mem scratch marking : ℕ → Bool}
    (hsc : ∀ k, scratch k = true) (h : History acyclic mem scratch marking log c) :
    Recalls log c.ctx := by
  induction h with
  | start => exact ⟨fun b hb => absurd hb List.not_mem_nil, fun x o t g f ho => by cases ho⟩
  | set hlog hs ih =>
    obtain ⟨hx, hrebinds⟩ := hs.rebinds
    exact ih.writes hrebinds.toWrites hx (reachable_ok hsc hlog.reachable).interned
      (reachable_ok hsc (hlog.set hs).reachable).inv.ok
  | other hlog hs hn ih =>
    have hok := reachable_ok hsc hlog.reachable
    rcases step_sets hok (reachable_books hlog.reachable) hs with ⟨b, hb⟩ | hpass
    · exact absurd hb (hn b)
    · exact ih.keeps hpass.toKeeps hok.interned (step_ok hok hs).inv.ok

/-- **A lookup gives what was set last**, and nothing if nothing was set, whatever was allocated, called,
released or collected in between. -/
theorem lookup_latest {acyclic : Bool} {mem scratch marking : ℕ → Bool}
    (hsc : ∀ k, scratch k = true) (h : History acyclic mem scratch marking log c) (x : ℕ) :
    (c.ctx.rcGlobalGet (.cell x)).2 = latest log x false ∧
      (c.ctx.rcFunctionLookup (.cell x)).2 = latest log x true := by
  have hrecalls := h.recalls hsc
  unfold rcGlobalGet rcFunctionLookup
  rcases hsymbol : c.ctx.asSymbol (.cell x) with _ | ⟨a, t, g, f⟩
  · have habsent : ∀ b ∈ log, b.symbol ≠ x := by
      rintro b hmem rfl
      obtain ⟨o, t, g, f, ho, hb⟩ := hrecalls.known b hmem
      unfold asSymbol at hsymbol
      dsimp only at hsymbol
      rw [ho] at hsymbol
      dsimp only at hsymbol
      rw [hb] at hsymbol
      exact absurd hsymbol (by simp)
    exact ⟨(latest_absent habsent _).symm, (latest_absent habsent _).symm⟩
  · obtain ⟨hx, o, ho, hb⟩ := asSymbol_some hsymbol
    obtain rfl := Ref.cell.inj hx
    obtain ⟨hg, hf⟩ := hrecalls.slots x o t g f ho hb
    refine ⟨?_, hf⟩
    dsimp only
    split_ifs with hnull
    · rw [← hg, hnull]
      rfl
    · exact hg

/-- A host sets a symbol to `nil` and then to 5. -/
theorem lookup_latest_twice : ∃ log c,
    History false (fun _ => true) (fun _ => true) (fun _ => true) log c ∧ log.length = 2 ∧
      (c.ctx.rcGlobalGet (.cell 0)).2 = .imm 5 ∧ (c.ctx.rcFunctionLookup (.cell 0)).2 = .null := by
  have hsets : ∀ {s : Ctx} {v : Ref}, permitted s [.cell 0] [.globalSet (.cell 0) v] = true →
      (s.rcGlobalSet (.cell 0) v).2 = true →
      Sets ⟨0, false, v⟩ ⟨s, [.client (owns [.cell 0])]⟩
        ⟨(s.rcGlobalSet (.cell 0) v).1, [.client (owns [.cell 0])]⟩ := fun hp hset =>
    ⟨host_step hp, _, _, _, rfl, hset, rfl⟩
  have hsymbol : Step (start false (fun _ => true) (fun _ => true) (fun _ => true))
      ⟨((rcContextNew false (fun _ => true) (fun _ => true) fun _ => true).rcSymbol [120]).1,
        [.client (owns [.cell 0])]⟩ := by
    have hpermitted : permitted (rcContextNew false (fun _ => true) (fun _ => true) fun _ => true) []
        [.symbol [120]] = true := by decide +kernel
    have hstep := host_step hpermitted
    rw [owns_nil] at hstep
    exact hstep
  have hnone := History.other .start hsymbol fun b hb => by
    obtain ⟨⟨o, t, g, f, ho, -⟩, -⟩ := hb.rebinds
    cases ho
  have hnil := hnone.set (hsets (v := .nil) (by decide +kernel) (by decide +kernel))
  have hfive := hnil.set (hsets (v := .imm 5) (by decide +kernel) (by decide +kernel))
  exact ⟨_, _, hfive, rfl, lookup_latest (fun _ => rfl) hfive 0⟩

/-! ### Functions that are replaced during a call -/

/-- The cell is the function of some symbol, or it waits, or it is immortal. -/
def Anchored (s : Ctx) (a : ℕ) : Prop :=
  (∃ x o t g, s.heap x = some o ∧ o.body = .symbol t g (.cell a)) ∨ .cell a ∈ s.retired ∨
    s.live a ∧ s.refs (.cell a) = immortal

variable {O : Own} {P : Set Ref} {a : ℕ}

theorem Anchored.live (h : Anchored s a) (hi : s.Inv π O [] P) (hO : NonNeg O) : s.live a := by
  rcases h with ⟨x, o, t, g, ho, hb⟩ | hm | ⟨hlive, -⟩
  · exact (hi.handle_slot hO (u := x) (by rw [slots_of_some ho, (symbol_slots hb).1]; simp)).2 a rfl
  · exact (hi.handle_root hO (List.mem_append_right _ hm)).2 a rfl
  · exact hlive

theorem Anchored.passes (h : Anchored s a) (hp : Passes s s') (hsym : Interned s)
    (hok : s'.stuck = false) (hcall : s'.callDepth ≠ 0) : Anchored s' a := by
  have hkept := hp.kept.resolve_left (by rw [hok]; decide)
  rcases h with ⟨x, o, t, g, ho, hb⟩ | hm | ⟨hlive, hi⟩
  · obtain ⟨-, o', ho', hsame⟩ := hkept x o ho (hsym x o _ _ _ ho hb)
    exact Or.inl ⟨x, o', t, g, ho', (hsame _ _ _).mpr hb⟩
  · exact Or.inr (Or.inl (by rw [hp.retired hcall]; exact hm))
  · obtain ⟨o, ho⟩ := Option.ne_none_iff_exists'.mp hlive
    obtain ⟨hi', o', ho', -⟩ := hkept a o ho hi
    exact Or.inr (Or.inr ⟨by rw [Ctx.live, ho']; simp, hi'⟩)

theorem Anchored.rebinds {b : Binding} (h : Anchored s a)
    (hr : Rebinds b.symbol b.function b.value s s') (hsym : Interned s) (hi : s'.Inv π O [] P)
    (hcall : s.callDepth ≠ 0) : Anchored s' a := by
  have hkept := hr.kept.resolve_left (by rw [hi.ok]; decide)
  rcases h with ⟨x, o, t, g, ho, hb⟩ | hm | ⟨hlive, himm⟩
  · obtain ⟨-, o', ho', hself, hne⟩ := hkept x o ho (hsym x o _ _ _ ho hb)
    by_cases hx : x = b.symbol
    swap
    · exact Or.inl ⟨x, o', t, g, ho', (hne hx _ _ _).mpr hb⟩
    have hb' := hself hx t g (.cell a) hb
    by_cases hfunction : b.function = true
    swap
    · rw [if_neg hfunction, if_neg hfunction] at hb'
      exact Or.inl ⟨x, o', t, _, ho', hb'⟩
    by_cases hvalue : Ref.cell a = b.value
    · rw [if_pos hfunction, if_pos hfunction, ← hvalue] at hb'
      exact Or.inl ⟨x, o', t, g, ho', hb'⟩
    subst hx
    rcases hr.replaced o t g _ ho hb hfunction hcall hvalue with hm | huncounted
    · exact Or.inr (Or.inl hm)
    · have himm : s'.refs (.cell a) = immortal := by simpa [isCounted] using huncounted
      refine Or.inr (Or.inr ⟨fun hdead => ?_, himm⟩)
      rw [hi.dead a fun hl => hl hdead] at himm
      exact absurd himm (by decide)
  · rcases hr.retired with hsame | ⟨-, old, hpushed⟩
    · exact Or.inr (Or.inl (by rw [hsame]; exact hm))
    · exact Or.inr (Or.inl (by rw [hpushed]; exact List.mem_append_left _ hm))
  · obtain ⟨o, ho⟩ := Option.ne_none_iff_exists'.mp hlive
    obtain ⟨himm', o', ho', -⟩ := hkept a o ho himm
    exact Or.inr (Or.inr ⟨by rw [Ctx.live, ho']; simp, himm'⟩)

/-- **A function that was borrowed during a call stays in use until the outermost call is over**, even
when the symbol is bound anew and every other reference is given up. -/
theorem borrowed_live {acyclic : Bool} {mem scratch marking : ℕ → Bool}
    (hsc : ∀ k, scratch k = true) (h : Reachable acyclic mem scratch marking c)
    (hcall : c.ctx.callDepth ≠ 0) {symbol : Ref}
    (hget : (c.ctx.rcFunctionGetBorrowed symbol).2 = .cell a)
    (hrun : ReflTransGen (fun d d' => Step d d' ∧ d'.ctx.callDepth ≠ 0) c c') : c'.ctx.live a := by
  have hall : Reachable acyclic mem scratch marking c' ∧ c'.ctx.callDepth ≠ 0 ∧
      Anchored c'.ctx a := by
    induction hrun with
    | refl => exact ⟨h, hcall, Or.inl (rcFunctionGetBorrowed_some hget)⟩
    | tail _ hs ih =>
      obtain ⟨hreach, hcall₁, hanchored⟩ := ih
      have hok := reachable_ok hsc hreach
      have hok' := step_ok hok hs.1
      refine ⟨hreach.tail hs.1, hs.2, ?_⟩
      rcases step_sets hok (reachable_books hreach) hs.1 with ⟨b, hb⟩ | hpass
      · exact hanchored.rebinds hb.rebinds.2 hok.interned hok'.inv hcall₁
      · exact hanchored.passes hpass hok.interned hok'.inv.ok hs.2
  have hok := reachable_ok hsc hall.1
  exact hall.2.2.live hok.inv hok.frames.sum

/-- A host that enters a call, binds a symbol to a closure that only the symbol refers to, and makes
another closure. -/
def bindDuringCall : List Op :=
  [.callEnter, .symbol [102], .closure 1 0 [], .functionSet (.cell 0) (.cell 1), .release (.cell 1),
    .closure 1 1 []]

/-- The host after `bindDuringCall`. -/
def calling : Ctx × List Ref :=
  perform (rcContextNew false (fun _ => true) (fun _ => true) fun _ => true) [] bindDuringCall

/-- The host binds the symbol to the other closure. -/
theorem borrowed_live_rebound : (calling.1.rcFunctionGetBorrowed (.cell 0)).2 = .cell 1 ∧
    (calling.1.rcFunctionSet (.cell 0) (.cell 2)).1.live 1 := by
  have hreach := @host_reachable false (fun _ => true) (fun _ => true) (fun _ => true) bindDuringCall
    (by decide +kernel)
  have hget : (calling.1.rcFunctionGetBorrowed (.cell 0)).2 = .cell 1 := by decide +kernel
  have hpermitted : permitted calling.1 calling.2 [.functionSet (.cell 0) (.cell 2)] = true := by
    decide +kernel
  have hcall : along (fun s => s.callDepth ≠ 0) calling.1
      [.functionSet (.cell 0) (.cell 2)] = true := by decide +kernel
  exact ⟨hget, borrowed_live (fun _ => rfl) hreach (by decide +kernel) hget
    (perform_along _ hpermitted hcall)⟩

/-- **Nothing waits when no call is in progress**, as long as the depth of the calls does not reach the
end of its range. -/
theorem retired_drained {acyclic : Bool} {mem scratch marking : ℕ → Bool}
    (hsc : ∀ k, scratch k = true)
    (hrun : ReflTransGen (fun d d' => Step d d' ∧ d'.ctx.callDepth ≠ sizeMax)
      (start acyclic mem scratch marking) c) (hidle : c.ctx.callDepth = 0) : c.ctx.retired = [] := by
  have hall : Reachable acyclic mem scratch marking c ∧ c.ctx.callDepth ≠ sizeMax ∧
      (c.ctx.callDepth = 0 → c.ctx.retired = []) := by
    clear hidle
    induction hrun with
    | refl => exact ⟨.refl, show (0 : ℕ) ≠ sizeMax by decide, fun _ => rfl⟩
    | tail _ hs ih =>
      obtain ⟨hreach, hbound, hnil⟩ := ih
      refine ⟨hreach.tail hs.1, hs.2, fun hidle => ?_⟩
      rcases step_sets (reachable_ok hsc hreach) (reachable_books hreach) hs.1 with ⟨b, hb⟩ | hpass
      · have hr := hb.rebinds.2
        rw [hr.callDepth] at hidle
        rcases hr.retired with hsame | ⟨hcall, -⟩
        · rw [hsame, hnil hidle]
        · exact absurd hidle hcall
      · rcases hpass.drained hidle with hdone | ⟨hsame, hzero | hwrap⟩
        · exact hdone
        · rw [hsame, hnil hzero]
        · exact absurd hwrap hbound
  exact hall.2.2 hidle

/-- The host binds the symbol to the other closure and leaves the call. -/
theorem retired_drained_left :
    (perform (rcContextNew false (fun _ => true) (fun _ => true) fun _ => true) []
      (bindDuringCall ++ [.functionSet (.cell 0) (.cell 2), .callLeave])).1.retired = [] := by
  have hpermitted : permitted (rcContextNew false (fun _ => true) (fun _ => true) fun _ => true) []
      (bindDuringCall ++ [.functionSet (.cell 0) (.cell 2), .callLeave]) = true := by decide +kernel
  have hbound : along (fun s => s.callDepth ≠ sizeMax)
      (rcContextNew false (fun _ => true) (fun _ => true) fun _ => true)
      (bindDuringCall ++ [.functionSet (.cell 0) (.cell 2), .callLeave]) = true := by decide +kernel
  have hidle : (perform (rcContextNew false (fun _ => true) (fun _ => true) fun _ => true) []
      (bindDuringCall ++ [.functionSet (.cell 0) (.cell 2), .callLeave])).1.callDepth = 0 := by
    decide +kernel
  have hrun := perform_along _ hpermitted hbound
  rw [owns_nil] at hrun
  exact retired_drained (fun _ => rfl) hrun hidle

end Config

end ShenRc.Runtime
