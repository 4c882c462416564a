import ShenRc.Hash.Native
import ShenRc.Primitive.Order
import ShenRc.Runtime.BindingOps

/-! # The certificates of the dependencies

The intrinsics of the Prolog kernel and the native hash replace kernel code only while the functions
that the code calls are the ones they were written for. Both tests keep their last answer: the mask
of the Prolog guard with the generation of the bindings, the certificate of the native hash as that
generation plus one. Every publication of a function raises the generation until it is saturated, so
an answer that is taken from the cache is the one that would be computed (`reachable_coherent`).

The argument is one about any store with a version: whatever may change what is observed of the store
raises the version, until the version stands at its top and stays there. A fact that has been
established is recorded with the version of that moment, its stamp, and counts only while the version
is the stamp and below the top (`Cache.Stamped`). -/

namespace ShenRc.Cache

variable {σ : Type*} {version : σ → ℕ} {top n : ℕ} {Same : σ → σ → Prop} {P : σ → Prop} {s t : σ}

/-- What is observed stays, or the version goes up, or it stays at its top. -/
def Moves (version : σ → ℕ) (top : ℕ) (Same : σ → σ → Prop) (s t : σ) : Prop :=
  version t = version s ∧ Same s t ∨ version s < version t ∨ version s = top ∧ version t = top

/-- The fact `P` has been recorded with the stamp `n`. -/
structure Stamped (version : σ → ℕ) (top : ℕ) (P : σ → Prop) (n : ℕ) (s : σ) : Prop where
  past : n ≤ version s
  fact : version s = n → n ≠ top → P s

/-- A fact is recorded with the version of the moment. -/
theorem Stamped.now (h : P s) : Stamped version top P (version s) s := ⟨Nat.le_refl _, fun _ _ => h⟩

/-- **A recorded fact outlives every move.** -/
theorem Stamped.move (h : Stamped version top P n s) (hm : Moves version top Same s t)
    (hp : Same s t → P s → P t) : Stamped version top P n t := by
  have hpast := h.past
  rcases hm with ⟨e, hsame⟩ | hlt | ⟨es, et⟩
  · refine ⟨by omega, fun hn htop => hp hsame (h.fact (e ▸ hn) htop)⟩
  · exact ⟨by omega, fun hn _ => by omega⟩
  · exact ⟨by omega, fun hn htop => absurd (hn.symm.trans et) htop⟩

end ShenRc.Cache

namespace ShenRc.Primitive

open ShenRc.Runtime Relation

/-! ### The tests -/

/-- The codes of `absvector?` and `<-address` in `enum Op`. -/
def pVectorp : ℤ := 21
def pVget : ℤ := 20

/-- `RC_BUILTIN_EQ`. -/
def builtinEq : Fin builtinCount := 5

/-- `rc_function_slot_borrowed`. -/
def functionSlotBorrowed (s : Ctx) (symbol : Ref) : Ref :=
  match s.asSymbol symbol with
  | some (_, _, _, f) => f
  | none => .null

/-- `rc_native_call_capture`. -/
def nativeCallCapture (s : Ctx) (fn : Ref) (argc : ℕ) (argv : List Ref) (native : ℕ) : Ref :=
  match s.asClosure fn with
  | some (_, _, c) =>
    if c.native = some native ∧ c.ownedNative = none ∧ c.bound = [] ∧ c.arity = argc ∧
        (argv.take argc).all belongs then c.captures.headD .null
    else .null
  | none => .null

/-- `rc_capture`. -/
def rcCapture (s : Ctx) (v : Ref) (i : ℕ) : Ref :=
  match s.asClosure v with
  | some (_, _, c) => c.captures.getD i .null
  | none => .null

/-- `rc_builtin_identity_matches`. -/
def builtinIdentityMatches (s : Ctx) (slot : Fin builtinCount) (fn : Ref) : Bool :=
  fn ≠ .null && s.builtinRoots slot == fn

/-- The part of the context that keeps the answers: `prolog_guard_generation`, `prolog_guard_keys`,
`prolog_guard_mask` and `native_hash_generation`. -/
structure Certificates where
  guardGeneration : ℕ := 0
  guardKeys : Ref × Ref × Ref := (.null, .null, .null)
  guardMask : ℕ := 0
  nativeHashGeneration : ℕ := 0
  deriving DecidableEq

/-- A context with its certificates and the captures of the native hash, once it is installed. -/
structure State where
  ctx : Ctx
  certs : Certificates := {}
  installed : Option (List Ref) := none

namespace State

/-- `rc_prolog_guard_get`. -/
def prologGuardGet (st : State) (keys : Ref × Ref × Ref) : Option ℕ :=
  if st.ctx.functionGeneration = sizeMax ∨
      st.ctx.functionGeneration ≠ st.certs.guardGeneration ∨ st.certs.guardKeys ≠ keys then none
  else some st.certs.guardMask

/-- `rc_prolog_guard_set`. -/
def prologGuardSet (st : State) (keys : Ref × Ref × Ref) (mask : ℕ) : State :=
  { st with
    certs := { st.certs with
      guardGeneration := st.ctx.functionGeneration
      guardKeys := keys
      guardMask := mask } }

/-- `rc_native_hash_certified`. -/
def nativeHashCertified (st : State) : Bool :=
  st.ctx.functionGeneration < sizeMax &&
    st.certs.nativeHashGeneration == st.ctx.functionGeneration + 1

/-- `rc_native_hash_certify`. -/
def nativeHashCertify (st : State) : State :=
  { st with
    certs := { st.certs with
      nativeHashGeneration :=
        if st.ctx.functionGeneration < sizeMax then st.ctx.functionGeneration + 1 else 0 } }

end State

section Guard

variable (primitive : ℕ)

/-- `primitive_dependency`: the symbol is bound to the closure of the builtin `op`, whose callback is
`primitive`. -/
def primitiveDependency (s : Ctx) (symbol : Ref) (op : ℤ) (arity : ℕ) : Bool :=
  let code := nativeCallCapture s (functionSlotBorrowed s symbol) arity [.nil, .nil] primitive
  exactInteger? s code == some op

/-- The mask that `prolog_dependencies` computes. -/
def prologMask (s : Ctx) (keys : Ref × Ref × Ref) : ℕ :=
  (if primitiveDependency primitive s keys.1 pVectorp 1 then 1 else 0) |||
  (if primitiveDependency primitive s keys.2.1 pVget 2 then 2 else 0) |||
  (if builtinIdentityMatches s builtinEq (functionSlotBorrowed s keys.2.2) then 4 else 0)

/-- `prolog_dependencies`. -/
def prologDependencies (st : State) (keys : Ref × Ref × Ref) : State × ℕ :=
  match st.prologGuardGet keys with
  | some mask => (st, mask)
  | none =>
    let mask := prologMask primitive st.ctx keys
    (st.prologGuardSet keys mask, mask)

end Guard

/-- `NATIVE_HASH_DEPS`. -/
def nativeHashDepCount : ℕ := Hash.nativeHashDeps.length

/-- Every function of the snapshot is bound as it was: the captures of the native hash are the
kernel's closure, the names and their functions. -/
def Unchanged (s : Ctx) (capture : ℕ → Ref) : Prop :=
  ∀ i < nativeHashDepCount,
    functionSlotBorrowed s (capture (1 + i)) = capture (1 + nativeHashDepCount + i)

instance (s : Ctx) (capture : ℕ → Ref) : Decidable (Unchanged s capture) :=
  inferInstanceAs (Decidable (∀ i < nativeHashDepCount, _))

/-- `native_hash_deps_unchanged`. -/
def nativeHashDepsUnchanged (st : State) (self : Ref) : State × Bool :=
  if st.nativeHashCertified then (st, true)
  else if Unchanged st.ctx (rcCapture st.ctx self) then (st.nativeHashCertify, true)
  else (st, false)

/-! ### Runs -/

/-- The text of a symbol. -/
def symbolText (s : Ctx) (symbol : Ref) : Option Numeral.Text :=
  (s.asSymbol symbol).map fun r => r.2.1

/-- The closure of a builtin. -/
def builtinClosure (primitive : ℕ) (s : Ctx) (fn : Ref) : Option Closure :=
  match s.asClosure fn with
  | some (_, _, c) => if c.native = some primitive then some c else none
  | none => none

/-- What code that publishes no function leaves alone: the bindings of the symbols, the canonical
`=`, and the builtins that symbols are bound to, with the numbers these have captured. -/
structure Quiet (primitive : ℕ) (s t : Ctx) : Prop where
  generation : t.functionGeneration = s.functionGeneration
  slot : ∀ x, functionSlotBorrowed t x = functionSlotBorrowed s x
  builtin : t.builtinRoots builtinEq = s.builtinRoots builtinEq
  closure : ∀ x, builtinClosure primitive t (functionSlotBorrowed s x) =
    builtinClosure primitive s (functionSlotBorrowed s x)
  number : ∀ x c, builtinClosure primitive s (functionSlotBorrowed s x) = some c →
    exactInteger? t (c.captures.headD .null) = exactInteger? s (c.captures.headD .null)

/-- The captures that `rc_install_native_hash` gives to the native hash: the kernel's closure, the
names and what they are bound to. -/
def snapshot (s : Ctx) (original : Ref) (names : List Ref) : List Ref :=
  original :: (names ++ names.map (functionSlotBorrowed s))

/-- One step of a context in which the native hash is installed at most once: `rc_function_set`; the
installation of a builtin, which publishes it and makes it the canonical one; the installation of the
native hash; a test of the dependencies; and anything that is `Quiet`. -/
inductive Step (primitive : ℕ) : State → State → Prop
  | publish (st : State) (symbol fn : Ref) :
    Step primitive st { st with ctx := (st.ctx.rcFunctionSet symbol fn).1 }
  | reinstall (st : State) (symbol fn : Ref) (slot : ℕ)
    (hset : (st.ctx.rcFunctionSet symbol fn).2 = true) :
    Step primitive st
      { st with ctx := (st.ctx.rcFunctionSet symbol fn).1.rcBuiltinCacheSet slot fn }
  | install (st : State) (symbol wrapper original : Ref) (names : List Ref)
    (hnone : st.installed = none)
    (hnames : names.map (symbolText st.ctx) =
      Hash.nativeHashDeps.map fun name => some (Numeral.ascii name))
    (hwrapper : ∀ i, rcCapture st.ctx wrapper i = (snapshot st.ctx original names).getD i .null)
    (hset : (st.ctx.rcFunctionSet symbol wrapper).2 = true) :
    Step primitive st
      { st with
        ctx := (st.ctx.rcFunctionSet symbol wrapper).1
        installed := some (snapshot st.ctx original names) }
  | prologQuery (st : State) (keys : Ref × Ref × Ref) :
    Step primitive st (prologDependencies primitive st keys).1
  | hashQuery (st : State) (self : Ref) (captures : List Ref)
    (hinstalled : st.installed = some captures)
    (hself : ∀ i, rcCapture st.ctx self i = captures.getD i .null) :
    Step primitive st (nativeHashDepsUnchanged st self).1
  | quiet (st : State) (ctx : Ctx) (h : Quiet primitive st.ctx ctx) :
    Step primitive st { st with ctx := ctx }

/-- A new context. -/
def start (acyclic : Bool) (mem scratch marking : ℕ → Bool) : State where
  ctx := rcContextNew acyclic mem scratch marking

/-- The states of the runs in a new context. -/
def Reachable (primitive : ℕ) (acyclic : Bool) (mem scratch marking : ℕ → Bool) (st : State) : Prop :=
  ReflTransGen (Step primitive) (start acyclic mem scratch marking) st

/-! ### What a step does to the generation -/

@[simp] theorem rcRetain_generation (s : Ctx) (v : Ref) :
    (s.rcRetain v).functionGeneration = s.functionGeneration := by
  unfold Ctx.rcRetain
  split_ifs <;> rfl

@[simp] theorem modify_generation (s : Ctx) (a : ℕ) (f : Obj → Obj) :
    (s.modify a f).functionGeneration = s.functionGeneration := by
  unfold Ctx.modify
  split <;> rfl

theorem releaseEdge_generation (st : Ctx × List ℕ) (v : Ref) :
    (Ctx.releaseEdge st v).1.functionGeneration = st.1.functionGeneration := by
  unfold Ctx.releaseEdge
  split_ifs <;> rfl

theorem releaseEdges_generation (vs : List Ref) (st : Ctx × List ℕ) :
    (vs.foldl Ctx.releaseEdge st).1.functionGeneration = st.1.functionGeneration := by
  induction vs generalizing st with
  | nil => rfl
  | cons v vs ih => rw [List.foldl_cons, ih, releaseEdge_generation]

theorem unlinkObject_generation (s : Ctx) (a : ℕ) :
    (s.unlinkObject a).functionGeneration = s.functionGeneration := by
  unfold Ctx.unlinkObject
  split
  · rfl
  · dsimp only
    split_ifs <;> rfl

theorem rawFree_generation (s : Ctx) (a : ℕ) :
    (s.rawFree a).functionGeneration = s.functionGeneration := by
  unfold Ctx.rawFree
  split <;> rfl

theorem releaseStep_generation (s : Ctx) (dead : ℕ) (work : List ℕ) :
    (s.releaseStep dead work).1.functionGeneration = s.functionGeneration := by
  unfold Ctx.releaseStep
  rw [rawFree_generation, releaseEdges_generation, unlinkObject_generation]

theorem releaseLoop_generation (fuel : ℕ) (st : Ctx × List ℕ) :
    (Ctx.releaseLoop fuel st).functionGeneration = st.1.functionGeneration := by
  induction fuel generalizing st with
  | zero => rfl
  | succ fuel ih =>
    obtain ⟨s, work⟩ := st
    cases work with
    | nil => rfl
    | cons dead work => rw [Ctx.releaseLoop, ih, releaseStep_generation]

@[simp] theorem rcRelease_generation (s : Ctx) (v : Ref) :
    (s.rcRelease v).functionGeneration = s.functionGeneration := by
  rw [Ctx.rcRelease, releaseLoop_generation, releaseEdge_generation]

/-- **A publication raises the generation** until it is saturated; one that is refused leaves only
the error. -/
theorem rcFunctionSet_generation (s : Ctx) (symbol fn : Ref) :
    (s.rcFunctionSet symbol fn).2 = true ∧
      (s.rcFunctionSet symbol fn).1.functionGeneration =
        (if s.functionGeneration < sizeMax then s.functionGeneration + 1
          else s.functionGeneration) ∨
    (s.rcFunctionSet symbol fn).2 = false ∧
      ∃ message, (s.rcFunctionSet symbol fn).1 = s.rcError message := by
  unfold Ctx.rcFunctionSet
  split
  swap
  · exact Or.inr ⟨rfl, _, rfl⟩
  unfold Ctx.setSymbolSlot
  split
  swap
  · exact Or.inr ⟨rfl, _, rfl⟩
  dsimp only
  split
  · exact Or.inr ⟨rfl, _, rfl⟩
  left
  rename_i a text g f _ _
  simp only [true_and, if_true, Bool.true_and]
  generalize hr : (if s.functionGeneration < sizeMax then
    { s with functionGeneration := s.functionGeneration + 1 } else s) = r
  have hgen : r.functionGeneration = if s.functionGeneration < sizeMax
      then s.functionGeneration + 1 else s.functionGeneration := by
    rw [← hr]
    split_ifs <;> rfl
  have ht : ((r.rcRetain fn).modify a fun o =>
      { o with body := .symbol text g fn }).functionGeneration = r.functionGeneration := by
    rw [modify_generation, rcRetain_generation]
  generalize ((r.rcRetain fn).modify a fun o => { o with body := .symbol text g fn }) = t at ht ⊢
  rw [← hgen, ← ht]
  split_ifs
  · exact ⟨rfl, rfl⟩
  · exact ⟨rfl, rfl⟩
  · exact ⟨rfl, rfl⟩
  · exact ⟨rfl, rfl⟩
  · exact ⟨rfl, rcRelease_generation t f⟩

@[simp] theorem rcBuiltinCacheSet_generation (s : Ctx) (slot : ℕ) (fn : Ref) :
    (s.rcBuiltinCacheSet slot fn).functionGeneration = s.functionGeneration := by
  unfold Ctx.rcBuiltinCacheSet
  split
  · dsimp only
    split_ifs
    · rw [rcRelease_generation, modify_generation]
      exact rcRetain_generation s fn
    · rfl
  · rfl

variable {primitive : ℕ} {s t : Ctx} {st st' : State}

/-! ### What the tests read -/

theorem Quiet.of_rcError (s : Ctx) (message : String) : Quiet primitive s (s.rcError message) :=
  ⟨rfl, fun _ => rfl, rfl, fun _ => rfl, fun _ _ _ => rfl⟩

theorem nativeCallCapture_eq (s : Ctx) (fn : Ref) (argc : ℕ) (argv : List Ref) :
    nativeCallCapture s fn argc argv primitive =
      (builtinClosure primitive s fn).elim .null fun c =>
        if c.ownedNative = none ∧ c.bound = [] ∧ c.arity = argc ∧ (argv.take argc).all belongs
        then c.captures.headD .null else .null := by
  unfold nativeCallCapture builtinClosure
  cases s.asClosure fn with
  | none => rfl
  | some r =>
    obtain ⟨a, o, c⟩ := r
    by_cases hn : c.native = some primitive
    · simp only [hn, true_and, if_true, Option.elim_some]
    · simp only [hn, false_and, if_false, Option.elim_none]

theorem Quiet.primitiveDependency_eq (h : Quiet primitive s t) (x : Ref) (op : ℤ) (arity : ℕ) :
    primitiveDependency primitive t x op arity = primitiveDependency primitive s x op arity := by
  have hclosure := h.closure x
  have hnumber := h.number x
  unfold primitiveDependency
  rw [h.slot, nativeCallCapture_eq, nativeCallCapture_eq, hclosure]
  cases hc : builtinClosure primitive s (functionSlotBorrowed s x) with
  | none => rfl
  | some c =>
    dsimp only [Option.elim_some]
    split_ifs
    · rw [hnumber c hc]
    · rfl

theorem Quiet.prologMask_eq (h : Quiet primitive s t) (keys : Ref × Ref × Ref) :
    prologMask primitive t keys = prologMask primitive s keys := by
  unfold prologMask builtinIdentityMatches
  rw [h.primitiveDependency_eq, h.primitiveDependency_eq, h.builtin, h.slot]

theorem Quiet.unchanged (h : Quiet primitive s t) {capture : ℕ → Ref}
    (hu : Unchanged s capture) : Unchanged t capture := fun i hi =>
  (h.slot _).trans (hu i hi)

/-! ### The invariant -/

/-- How the bindings move from one step to the next. -/
abbrev Moves (primitive : ℕ) : Ctx → Ctx → Prop :=
  Cache.Moves Ctx.functionGeneration sizeMax (Quiet primitive)

/-- A fact about the bindings, stamped with their generation. -/
abbrev Stamped : (Ctx → Prop) → ℕ → Ctx → Prop := Cache.Stamped Ctx.functionGeneration sizeMax

/-- **The certificates are coherent with the bindings.** -/
structure Coherent (primitive : ℕ) (st : State) : Prop where
  bounded : st.ctx.functionGeneration ≤ sizeMax
  guard : Stamped (fun s => st.certs.guardMask = prologMask primitive s st.certs.guardKeys)
    st.certs.guardGeneration st.ctx
  hash : st.certs.nativeHashGeneration = 0 ∨ ∃ n captures,
    st.certs.nativeHashGeneration = n + 1 ∧ st.installed = some captures ∧
      Stamped (fun s => Unchanged s fun i => captures.getD i .null) n st.ctx

theorem moves_of_generation (hs : s.functionGeneration ≤ sizeMax)
    (ht : t.functionGeneration =
      if s.functionGeneration < sizeMax then s.functionGeneration + 1 else s.functionGeneration) :
    Moves primitive s t ∧ t.functionGeneration ≤ sizeMax := by
  split_ifs at ht with hlt
  · exact ⟨Or.inr (Or.inl (by omega)), by omega⟩
  · exact ⟨Or.inr (Or.inr (by omega)), by omega⟩

theorem rcFunctionSet_moves (hs : s.functionGeneration ≤ sizeMax) (symbol fn : Ref) :
    Moves primitive s (s.rcFunctionSet symbol fn).1 ∧
      (s.rcFunctionSet symbol fn).1.functionGeneration ≤ sizeMax := by
  rcases rcFunctionSet_generation s symbol fn with ⟨-, h⟩ | ⟨-, message, h⟩
  · exact moves_of_generation hs h
  · rw [h]
    exact ⟨Or.inl ⟨rfl, Quiet.of_rcError s message⟩, hs⟩

/-- The installation of a builtin changes what is canonical, but publishes the builtin first. -/
theorem reinstall_moves (hs : s.functionGeneration ≤ sizeMax) {symbol fn : Ref} (slot : ℕ)
    (hset : (s.rcFunctionSet symbol fn).2 = true) :
    Moves primitive s ((s.rcFunctionSet symbol fn).1.rcBuiltinCacheSet slot fn) ∧
      ((s.rcFunctionSet symbol fn).1.rcBuiltinCacheSet slot fn).functionGeneration ≤ sizeMax := by
  rcases rcFunctionSet_generation s symbol fn with ⟨-, h⟩ | ⟨hfail, -⟩
  · exact moves_of_generation hs ((rcBuiltinCacheSet_generation _ slot fn).trans h)
  · rw [hset] at hfail
    exact absurd hfail (by decide)

/-- A move of the bindings keeps the certificates coherent. -/
theorem Coherent.move (h : Coherent primitive st)
    (hm : Moves primitive st.ctx t ∧ t.functionGeneration ≤ sizeMax) :
    Coherent primitive { st with ctx := t } where
  bounded := hm.2
  guard := h.guard.move hm.1 fun hq hp => hp.trans (hq.prologMask_eq _).symm
  hash := h.hash.imp id fun ⟨n, captures, hn, hi, hst⟩ =>
    ⟨n, captures, hn, hi, hst.move hm.1 fun hq hu => hq.unchanged hu⟩

theorem prologDependencies_coherent (h : Coherent primitive st) (keys : Ref × Ref × Ref) :
    Coherent primitive (prologDependencies primitive st keys).1 := by
  unfold prologDependencies
  split
  · exact h
  · exact { h with guard := .now rfl }

theorem nativeHashDepsUnchanged_coherent (h : Coherent primitive st) {self : Ref}
    {captures : List Ref} (hi : st.installed = some captures)
    (hself : ∀ i, rcCapture st.ctx self i = captures.getD i .null) :
    Coherent primitive (nativeHashDepsUnchanged st self).1 := by
  unfold nativeHashDepsUnchanged
  split_ifs with hc hu
  · exact h
  · rw [funext hself] at hu
    refine { h with hash := ?_ }
    unfold State.nativeHashCertify
    dsimp only
    split_ifs
    · exact Or.inr ⟨_, captures, rfl, hi, .now hu⟩
    · exact Or.inl rfl
  · exact h

/-- **A step keeps the certificates coherent.** -/
theorem step_coherent (h : Coherent primitive st) (hs : Step primitive st st') :
    Coherent primitive st' := by
  cases hs with
  | publish symbol fn => exact h.move (rcFunctionSet_moves h.bounded symbol fn)
  | reinstall symbol fn slot hset => exact h.move (reinstall_moves h.bounded slot hset)
  | install symbol wrapper original names hnone =>
    have hmove := h.move (rcFunctionSet_moves h.bounded symbol wrapper)
    refine { hmove with hash := Or.inl ?_ }
    rcases hmove.hash with hz | ⟨n, captures, -, hi, -⟩
    · exact hz
    · exact absurd (hnone.symm.trans hi) (by simp)
  | prologQuery keys => exact prologDependencies_coherent h keys
  | hashQuery self captures hi hself => exact nativeHashDepsUnchanged_coherent h hi hself
  | quiet ctx hq => exact h.move ⟨Or.inl ⟨hq.generation, hq⟩, hq.generation ▸ h.bounded⟩

/-- The mask for null keys is zero, whatever the bindings: a null handle is no symbol. -/
theorem prologMask_null (s : Ctx) : prologMask primitive s (.null, .null, .null) = 0 := by
  have hcode : ∀ op arity, primitiveDependency primitive s .null op arity = false :=
    fun _ _ => rfl
  have heq : builtinIdentityMatches s builtinEq (functionSlotBorrowed s .null) = false := rfl
  simp only [prologMask, hcode, heq]
  rfl

theorem start_coherent (acyclic : Bool) (mem scratch marking : ℕ → Bool) :
    Coherent primitive (start acyclic mem scratch marking) :=
  ⟨Nat.zero_le _, ⟨le_rfl, fun _ _ => (prologMask_null _).symm⟩, Or.inl rfl⟩

theorem reachable_certificates {acyclic : Bool} {mem scratch marking : ℕ → Bool}
    (h : Reachable primitive acyclic mem scratch marking st) : Coherent primitive st := by
  induction h with
  | refl => exact start_coherent acyclic mem scratch marking
  | tail _ hs ih => exact step_coherent ih hs

/-! ### The answers from the cache -/

theorem Coherent.guard_answer (h : Coherent primitive st) {keys : Ref × Ref × Ref} {mask : ℕ}
    (hg : st.prologGuardGet keys = some mask) : mask = prologMask primitive st.ctx keys := by
  unfold State.prologGuardGet at hg
  split_ifs at hg with hc
  simp only [not_or, not_not, Option.some.injEq] at hc hg
  obtain ⟨htop, hgen, hkeys⟩ := hc
  rw [← hg, ← hkeys]
  exact h.guard.fact hgen (hgen ▸ htop)

theorem Coherent.hash_answer (h : Coherent primitive st) (hc : st.nativeHashCertified = true) :
    ∃ captures, st.installed = some captures ∧
      Unchanged st.ctx fun i => captures.getD i .null := by
  unfold State.nativeHashCertified at hc
  simp only [Bool.and_eq_true, decide_eq_true_eq, beq_iff_eq] at hc
  obtain ⟨hlt, hgen⟩ := hc
  rcases h.hash with hz | ⟨n, captures, hn, hi, hst⟩
  · omega
  · have hgn : st.ctx.functionGeneration = n := by omega
    exact ⟨captures, hi, hst.fact hgn (by omega)⟩

/-- The mask that the guard keeps is answered at its own generation only. -/
theorem prologGuardSet_generation {keys keys' : Ref × Ref × Ref} {mask mask' : ℕ}
    (hcerts : st'.certs = (st.prologGuardSet keys mask).certs)
    (hg : st'.prologGuardGet keys' = some mask') :
    st'.ctx.functionGeneration = st.ctx.functionGeneration := by
  unfold State.prologGuardGet at hg
  split_ifs at hg with hc
  simp only [not_or, not_not] at hc
  rw [hcerts] at hc
  exact hc.2.1

/-- A certificate of the native hash is accepted at its own generation only. -/
theorem nativeHashCertify_generation (hcerts : st'.certs = st.nativeHashCertify.certs)
    (hc : st'.nativeHashCertified = true) :
    st'.ctx.functionGeneration = st.ctx.functionGeneration := by
  unfold State.nativeHashCertified at hc
  rw [hcerts] at hc
  unfold State.nativeHashCertify at hc
  simp only [Bool.and_eq_true, decide_eq_true_eq, beq_iff_eq] at hc
  obtain ⟨hlt, hgen⟩ := hc
  split_ifs at hgen
  omega

/-- **What the cache answers is what would be computed**, in every state of every run. -/
theorem reachable_coherent {acyclic : Bool} {mem scratch marking : ℕ → Bool}
    (h : Reachable primitive acyclic mem scratch marking st) :
    (∀ keys mask, st.prologGuardGet keys = some mask →
      mask = prologMask primitive st.ctx keys) ∧
    (st.nativeHashCertified = true → ∃ captures, st.installed = some captures ∧
      Unchanged st.ctx fun i => captures.getD i .null) ∧
    ∀ before : State,
      (∀ keys mask keys' mask', st.certs = (before.prologGuardSet keys mask).certs →
        st.prologGuardGet keys' = some mask' →
        st.ctx.functionGeneration = before.ctx.functionGeneration) ∧
      (st.certs = before.nativeHashCertify.certs → st.nativeHashCertified = true →
        st.ctx.functionGeneration = before.ctx.functionGeneration) := by
  have hcoherent := reachable_certificates h
  exact ⟨fun _ _ => hcoherent.guard_answer, hcoherent.hash_answer, fun before =>
    ⟨fun _ _ _ _ => prologGuardSet_generation, nativeHashCertify_generation⟩⟩

/-! ### A run -/

/-- The names of the Prolog guard, not bound yet, the builtins they are to be bound to and another
closure for `=`. -/
def kernelCells : List Obj :=
  let cell (body : Payload) : Obj := Ctx.fresh body false
  let closure (native arity : ℕ) (captures : List Ref) : Obj :=
    cell (.closure ⟨some native, none, arity, captures, []⟩)
  [cell (.symbol (Numeral.ascii "absvector?") .null .null),
    cell (.symbol (Numeral.ascii "<-address") .null .null),
    cell (.symbol (Numeral.ascii "=") .null .null),
    closure 0 1 [.imm pVectorp], closure 0 2 [.imm pVget], closure 0 2 [.imm 16], closure 1 2 []]

/-- A new context in which these have been made. -/
def kernelContext : Ctx :=
  { rcContextNew false (fun _ => true) (fun _ => true) (fun _ => true) with
    heap := fun a => kernelCells[a]?
    refs := fun r => match r with
      | .cell a => if a < 6 then immortal else if a = 6 then 1 else 0
      | _ => 0
    size := 7 }

def prologKeys : Ref × Ref × Ref := (.cell 0, .cell 1, .cell 2)

/-- The builtins have been installed and the guard asked. -/
def guarded : State :=
  let s := (kernelContext.rcFunctionSet (.cell 0) (.cell 3)).1
  let s := (s.rcFunctionSet (.cell 1) (.cell 4)).1
  let s := (s.rcFunctionSet (.cell 2) (.cell 5)).1.rcBuiltinCacheSet 5 (.cell 5)
  (prologDependencies 0 { ctx := s } prologKeys).1

/-- The user has replaced `=`, and the guard has been asked again. -/
def replaced : State :=
  (prologDependencies 0 { guarded with ctx := (guarded.ctx.rcFunctionSet (.cell 2) (.cell 6)).1 }
    prologKeys).1

theorem kernelContext_slot (x : Ref) : functionSlotBorrowed kernelContext x = .null := by
  have hcells : ∀ o ∈ kernelCells, ∀ t g f, o.body = .symbol t g f → f = .null := by
    simp [kernelCells, Ctx.fresh]
  unfold functionSlotBorrowed
  split
  · rename_i a t g f e
    obtain ⟨rfl, o, ho, hb⟩ := Ctx.asSymbol_some e
    exact hcells o (List.mem_of_getElem? ho) t g f hb
  · rfl

theorem replaced_reachable :
    Reachable 0 false (fun _ => true) (fun _ => true) (fun _ => true) replaced := by
  have hstart : ∀ x, functionSlotBorrowed
      (start false (fun _ => true) (fun _ => true) (fun _ => true)).ctx x = .null := by
    rintro (_ | _ | _ | _ | _) <;> rfl
  have hquiet : Quiet 0 (start false (fun _ => true) (fun _ => true) (fun _ => true)).ctx
      kernelContext :=
    { generation := rfl
      slot := fun x => (kernelContext_slot x).trans (hstart x).symm
      builtin := rfl
      closure := fun x => by rw [hstart]; rfl
      number := fun x c hc => by rw [hstart] at hc; cases hc }
  refine (((((ReflTransGen.single (.quiet _ _ hquiet)).tail (.publish _ (.cell 0) (.cell 3))).tail
    (.publish _ (.cell 1) (.cell 4))).tail (.reinstall _ (.cell 2) (.cell 5) 5 ?_)).tail
      (.prologQuery _ prologKeys)).tail (.publish _ (.cell 2) (.cell 6)) |>.tail
        (.prologQuery _ prologKeys)
  decide +kernel

/-- The guard answered 7 while the builtins stood, and 3 once `=` had been replaced. -/
theorem reachable_coherent_replaced :
    guarded.prologGuardGet prologKeys = some 7 ∧ replaced.prologGuardGet prologKeys = some 3 ∧
      3 = prologMask 0 replaced.ctx prologKeys :=
  have h3 : replaced.prologGuardGet prologKeys = some 3 := by decide +kernel
  ⟨by decide +kernel, h3, (reachable_coherent replaced_reachable).1 _ _ h3⟩

end ShenRc.Primitive
