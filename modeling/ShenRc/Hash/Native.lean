import ShenRc.Hash.Calls
import Mathlib.Logic.Relation

/-! # The native hash

`native_hash` over the bindings of a context. It answers itself if every function it stands for is
still bound to the closure captured when it was installed; the result of that test holds until the next
publication of a function, which the context counts. In every state that is reached after the
installation it returns what the kernel's closure returns there (`nativeHash_eq_kernel`). -/

namespace ShenRc.Hash

open Numeral KL

/-! ### The state -/

def sizeMax : ℕ := 2 ^ 64 - 1

/-- A context with its count of publications and the count, plus one, at which the dependencies of the
native hash were last checked. -/
structure HashState where
  ctx : Context
  functionGeneration : ℕ
  nativeHashGeneration : ℕ

def nativeHashCertified (s : HashState) : Bool :=
  s.functionGeneration < sizeMax && s.nativeHashGeneration == s.functionGeneration + 1

def nativeHashCertify (s : HashState) : HashState :=
  { s with
    nativeHashGeneration := if s.functionGeneration < sizeMax then s.functionGeneration + 1 else 0 }

/-- The publication of a function; the count stops at its maximum. -/
def functionSet (s : HashState) (name : Text) (address : ℕ) : HashState :=
  { s with
    ctx := { s.ctx with slot := fun f => if f = name then some address else s.ctx.slot f }
    functionGeneration :=
      if s.functionGeneration < sizeMax then s.functionGeneration + 1 else s.functionGeneration }

/-! ### The native hash -/

def nativeHashDeps : List String :=
  ["shen.mod", "shen.modh", "shen.multiples", "shen.hashkey", "shen.prodbutzero",
    "map", "shen.map-h", "reverse", "shen.reverse-help", "string->n", "explode",
    "shen.explode-h", "shen.app", "shen.arg->str", "fail", "shen.list?", "empty?",
    "shen.str->str", "shen.atom->str", "shen.+string?", "hdstr", "pos", "tlstr", "str", "cn",
    "cons?", "string?", "absvector?", "number?", "cons", "hd", "tl", "=", "+", "-", "*", ">"]

/-- The captures of the native hash: the kernel's closure and the function of each dependency. -/
structure Captures where
  original : ℕ
  deps : List ℕ

/-- Every dependency is bound as it was. -/
def depsUnchanged (c : Captures) (ctx : Context) : Bool :=
  (nativeHashDeps.zip c.deps).all fun p => ctx.slot (ascii p.1) == some p.2

/-- `native_hash_deps_unchanged`. -/
def nativeHashDepsUnchanged (c : Captures) (s : HashState) : HashState × Bool :=
  if nativeHashCertified s then (s, true)
  else if depsUnchanged c s.ctx then (nativeHashCertify s, true)
  else (s, false)

/-- An exact integer argument. -/
def integerArg : Datum → Option Int
  | .number (.exact k) => some k.val
  | _ => none

/-- The bytes that are hashed, for the keys that are not left to the kernel. -/
def keyBytes : Datum → Option Text
  | .symbol s => some (if s = ascii "shen.fail!" then ascii "..." else s)
  | .string s => some s
  | .number (.exact k) => some (decimalInt k.val)
  | _ => none

/-- One round of the loop over the bytes; `none` is an overflow. -/
def keyHashStep (p : Int) (c : UInt8) : Option Int :=
  if c = 0 then some p
  else
    let q := if 10000000000 < p then p + c.toNat else p * c.toNat
    if IsInt64 q then some q else none

def keyHash (bytes : Text) : Option Int := bytes.foldlM keyHashStep 1

/-- The outcome of a call: a value, or what the kernel's closure returns for the same arguments, or an
overflow. -/
inductive Answer where
  | value (v : Datum)
  | kernel
  | overflow

/-- **`native_hash`.** -/
def nativeHash (c : Captures) (s : HashState) (args : List Datum) : HashState × Answer :=
  match args with
  | [key, modulus] =>
    match integerArg modulus with
    | none => (s, .kernel)
    | some m =>
      if m ≤ 0 then (s, .kernel)
      else
        match nativeHashDepsUnchanged c s with
        | (s, false) => (s, .kernel)
        | (s, true) =>
          match keyBytes key with
          | none => (s, .kernel)
          | some bytes =>
            match keyHash bytes with
            | none => (s, .overflow)
            | some k =>
              let r := k.tmod m
              (s, .value (ofInt (if r ≠ 0 then r else 1)))
  | _ => (s, .kernel)

/-! ### The state after the installation -/

/-- The function that a dependency is pinned to: a primitive, a function of the templates or the
numeric hash over the kernel's. -/
def kernelCode (target : ℕ) (captures : List ℕ) (name : String) : Option Function :=
  match kernelPrimitives.lookup name with
  | some op => some (.primitive op)
  | none =>
    if name = "shen.hashkey" then some (.numericHashkey target captures)
    else (kernelFunctions.find? fun k => k.name == name).map KernelFunction.function

/-- The code of the captured closures, `target` being the closure that the numeric hash wraps. -/
structure CapturesKernel (c : Captures) (target : ℕ) (captures : List ℕ) (ctx : Context) : Prop where
  length : c.deps.length = nativeHashDeps.length
  deps : ∀ p ∈ nativeHashDeps.zip c.deps, some (ctx.code p.2) = kernelCode target captures p.1
  original : ctx.code c.original = hash.function
  target : ctx.code target = hashkey.function

/-- The state in which `rc_install_native_hash` leaves a context with the kernel's bindings: the
bindings are those it captured, and they have not been checked yet. -/
structure Installed (c : Captures) (target : ℕ) (captures : List ℕ) (s : HashState) : Prop where
  kernel : CapturesKernel c target captures s.ctx
  unchanged : depsUnchanged c s.ctx = true
  unchecked : s.nativeHashGeneration = 0

/-- What happens to the state later: a function is published, closures are made or freed other than
those that are captured, or the native hash is called. -/
inductive HashStep (c : Captures) (target : ℕ) : HashState → HashState → Prop where
  | publish (s : HashState) (name : Text) (address : ℕ) :
    HashStep c target s (functionSet s name address)
  | closures (s : HashState) (code : ℕ → Function)
    (h : ∀ a, a ∈ c.deps ∨ a = c.original ∨ a = target → code a = s.ctx.code a) :
    HashStep c target s { s with ctx := { s.ctx with code := code } }
  | call (s : HashState) (args : List Datum) : HashStep c target s (nativeHash c s args).1

/-- The certificate of the last check still holds. -/
structure HashInvariant (c : Captures) (target : ℕ) (captures : List ℕ) (s : HashState) : Prop where
  kernel : CapturesKernel c target captures s.ctx
  bound : s.nativeHashGeneration ≤ s.functionGeneration + 1
  certified : nativeHashCertified s = true → depsUnchanged c s.ctx = true

/-! ### What the dependencies are bound to -/

theorem kernelCode_primitive (target : ℕ) (captures : List ℕ) :
    ∀ p ∈ kernelPrimitives, p.1 ∈ nativeHashDeps ∧
      kernelCode target captures p.1 = some (.primitive p.2) := by
  intro p hp
  simp only [kernelPrimitives, List.mem_cons, List.not_mem_nil, or_false] at hp
  rcases hp with rfl | rfl | rfl | rfl | rfl | rfl | rfl | rfl | rfl | rfl | rfl | rfl | rfl | rfl |
    rfl | rfl | rfl <;> exact ⟨by decide, rfl⟩

theorem kernelCode_defined (target : ℕ) (captures : List ℕ) :
    ∀ k ∈ kernelFunctions, k.name ≠ "hash" → k.name ∈ nativeHashDeps ∧
      kernelCode target captures k.name = some k.function := by
  intro k hk hname
  simp only [kernelFunctions, List.mem_cons, List.not_mem_nil, or_false] at hk
  rcases hk with rfl | rfl | rfl | rfl | rfl | rfl | rfl | rfl | rfl | rfl | rfl | rfl | rfl | rfl |
    rfl | rfl | rfl | rfl | rfl | rfl
  · exact absurd rfl hname
  all_goals exact ⟨by decide, rfl⟩

/-- A dependency is bound to the pinned function as long as its binding is the captured one. -/
theorem slot_of_unchanged {c : Captures} {target : ℕ} {captures : List ℕ} {ctx : Context}
    (h : CapturesKernel c target captures ctx) (hu : depsUnchanged c ctx = true) {name : String}
    (hname : name ∈ nativeHashDeps) :
    ∃ a, ctx.slot (ascii name) = some a ∧ some (ctx.code a) = kernelCode target captures name := by
  obtain ⟨i, hi, rfl⟩ := List.getElem_of_mem hname
  have hlen : i < c.deps.length := h.length ▸ hi
  have hmem : (nativeHashDeps[i], c.deps[i]) ∈ nativeHashDeps.zip c.deps := by
    rw [← List.getElem_zip (h := by rw [List.length_zip]; omega)]
    exact List.getElem_mem _
  refine ⟨c.deps[i], ?_, h.deps _ hmem⟩
  simpa using List.all_eq_true.1 hu _ hmem

theorem bindsKernel {c : Captures} {target : ℕ} {captures : List ℕ} {ctx : Context}
    (h : CapturesKernel c target captures ctx) (hu : depsUnchanged c ctx = true) :
    BindsKernel ctx where
  primitive p hp := by
    obtain ⟨hdep, hcode⟩ := kernelCode_primitive target captures p hp
    obtain ⟨a, hslot, ha⟩ := slot_of_unchanged h hu hdep
    exact ⟨a, hslot, Option.some.inj (ha.trans hcode)⟩
  defined k hk hname := by
    obtain ⟨hdep, hcode⟩ := kernelCode_defined target captures k hk hname
    obtain ⟨a, hslot, ha⟩ := slot_of_unchanged h hu hdep
    exact ⟨a, hslot, Option.some.inj (ha.trans hcode)⟩
  hashkey := by
    have hdep : "shen.hashkey" ∈ nativeHashDeps := by decide
    obtain ⟨a, hslot, ha⟩ := slot_of_unchanged h hu hdep
    exact ⟨a, target, captures, hslot, Option.some.inj ha, h.target⟩

/-! ### The certificate -/

theorem Installed.invariant {c : Captures} {target : ℕ} {captures : List ℕ} {s : HashState}
    (h : Installed c target captures s) : HashInvariant c target captures s where
  kernel := h.kernel
  bound := by rw [h.unchecked]; omega
  certified _ := h.unchanged

theorem depsUnchanged_checked {c : Captures} {target : ℕ} {captures : List ℕ} {s : HashState}
    (h : HashInvariant c target captures s) :
    (nativeHashDepsUnchanged c s).2 = depsUnchanged c s.ctx ∧
      (nativeHashDepsUnchanged c s).1.ctx = s.ctx ∧
      HashInvariant c target captures (nativeHashDepsUnchanged c s).1 := by
  unfold nativeHashDepsUnchanged
  split_ifs with hc hu
  · exact ⟨(h.certified hc).symm, rfl, h⟩
  · refine ⟨hu.symm, rfl, h.kernel, ?_, fun _ => hu⟩
    simp only [nativeHashCertify]
    split_ifs <;> omega
  · exact ⟨by simpa using hu, rfl, h⟩

theorem nativeHash_state (c : Captures) (s : HashState) (args : List Datum) :
    (nativeHash c s args).1 = s ∨ (nativeHash c s args).1 = (nativeHashDepsUnchanged c s).1 := by
  unfold nativeHash
  split
  · split
    · exact .inl rfl
    · split
      · exact .inl rfl
      · split
        · next h => exact .inr (by rw [h])
        · next h =>
          refine .inr ?_
          rw [h]
          split
          · rfl
          · split <;> rfl
  · exact .inl rfl

/-- A step keeps the certificate good: a publication moves the count past it. -/
theorem HashInvariant.step {c : Captures} {target : ℕ} {captures : List ℕ} {s s' : HashState}
    (h : HashInvariant c target captures s) (hs : HashStep c target s s') :
    HashInvariant c target captures s' := by
  cases hs with
  | publish name address =>
    refine ⟨⟨h.kernel.length, h.kernel.deps, h.kernel.original, h.kernel.target⟩, ?_, fun hc => ?_⟩
    · have := h.bound
      simp only [functionSet]
      split_ifs <;> omega
    · have hbound := h.bound
      obtain ⟨hlt, heq⟩ := (Bool.and_eq_true _ _).mp hc
      have hlt := of_decide_eq_true hlt
      have heq := eq_of_beq heq
      simp only [functionSet] at hlt heq
      split_ifs at hlt heq <;> omega
  | closures code hcode =>
    refine ⟨⟨h.kernel.length, fun p hp => ?_, ?_, ?_⟩, h.bound, h.certified⟩
    · have hsame : code p.2 = s.ctx.code p.2 := hcode _ (.inl (List.of_mem_zip hp).2)
      exact (congrArg some hsame).trans (h.kernel.deps p hp)
    · exact (hcode _ (.inr (.inl rfl))).trans h.kernel.original
    · exact (hcode _ (.inr (.inr rfl))).trans h.kernel.target
  | call args =>
    rcases nativeHash_state c s args with hs | hs
    · rw [hs]
      exact h
    · rw [hs]
      exact (depsUnchanged_checked h).2.2

theorem HashInvariant.run {c : Captures} {target : ℕ} {captures : List ℕ} {s s' : HashState}
    (h : HashInvariant c target captures s) (hs : Relation.ReflTransGen (HashStep c target) s s') :
    HashInvariant c target captures s' := by
  induction hs with
  | refl => exact h
  | tail _ hstep ih => exact ih.step hstep

/-! ### The answer -/

theorem keyHashStep_eq {p : Int} {n : ℕ} (c : UInt8) (hp : 0 < p)
    (hb : p ≤ 2550000000000 + 255 * n) (hn : n + 1 < 2 ^ 54) :
    keyHashStep p c = some (prodStep p c) := by
  obtain ⟨hpos, hbound⟩ := prodStep_bound c hp hb
  have h64 := (isInt64_of_bound hpos hbound hn).1
  unfold keyHashStep
  unfold prodStep at h64 ⊢
  split_ifs at h64 ⊢ with h0 h1
  · rfl
  · simp only [h64, if_true]
  · simp only [h64, if_true]

/-- The loop does not overflow for fewer than `2 ^ 54` bytes. -/
theorem keyHash_foldlM (s : Text) {p : Int} {n : ℕ} (hp : 0 < p)
    (hb : p ≤ 2550000000000 + 255 * n) (hn : n + s.length < 2 ^ 54) :
    s.foldlM keyHashStep p = some (prodButZero s p) := by
  induction s generalizing p n with
  | nil => rfl
  | cons c s ih =>
    rw [List.length_cons] at hn
    obtain ⟨hpos, hbound⟩ := prodStep_bound c hp hb
    rw [List.foldlM_cons, keyHashStep_eq c hp hb (by omega)]
    exact ih hpos hbound (by omega)

theorem keyBytes_isKey {v : Datum} {s : Text} (h : IsKey v s) : keyBytes v = some s := by
  cases h with
  | fail => simp [keyBytes, Datum.sym]
  | symbol h => simp [keyBytes, h]
  | string s => rfl
  | int k h => rfl

theorem decimal_length {n k : ℕ} (hk : 0 < k) (h : n < 10 ^ k) : (decimal n).length ≤ k := by
  unfold decimal
  split
  · exact hk
  · rw [List.length_map, List.length_reverse]
    exact (Nat.digits_length_le_iff (by omega) n).2 h

/-- The digits of an integer are few. -/
theorem decimalInt_length {k : Int} (h : IsInt64 k) : (decimalInt k).length < 2 ^ 54 := by
  unfold IsInt64 at h
  cases k with
  | ofNat n =>
    have := decimal_length (n := n) (k := 19) (by omega) (by simp at h; omega)
    simp only [decimalInt]
    omega
  | negSucc n =>
    have := decimal_length (n := n + 1) (k := 19) (by omega) (by omega)
    simp only [decimalInt, List.length_cons]
    omega

/-- The answer while no dependency has changed. -/
theorem nativeHash_value {c : Captures} {target : ℕ} {captures : List ℕ} {s : HashState}
    (h : HashInvariant c target captures s) (hu : depsUnchanged c s.ctx = true) {key : Datum}
    {bytes : Text} (hkey : IsKey key bytes) (hlen : bytes.length < 2 ^ 54) {m : Int} (hm : 0 < m)
    (hm64 : IsInt64 m) :
    (nativeHash c s [key, .int m hm64]).2 = .value (ofInt (hashOf bytes m)) := by
  obtain ⟨hpos, -⟩ := prodButZero_bound bytes (p := 1) (n := 0) (by omega) (by omega)
  have hcheck := (depsUnchanged_checked h).1
  rw [hu] at hcheck
  have hkh : keyHash bytes = some (prodButZero bytes 1) :=
    keyHash_foldlM bytes (n := 0) (by omega) (by omega) (by omega)
  have hmod : (prodButZero bytes 1).tmod m = prodButZero bytes 1 % m :=
    Int.tmod_eq_emod_of_nonneg hpos.le
  unfold nativeHash
  simp only [Datum.int, integerArg, if_neg (not_le.2 hm)]
  split
  · next heq =>
    rw [heq] at hcheck
    cases hcheck
  · simp only [keyBytes_isKey hkey, hkh, hmod, hashOf]
    by_cases h0 : prodButZero bytes 1 % m = 0 <;> simp [h0]

/-- The answer once a dependency has changed. -/
theorem nativeHash_changed {c : Captures} {target : ℕ} {captures : List ℕ} {s : HashState}
    (h : HashInvariant c target captures s) (hu : depsUnchanged c s.ctx = false)
    (args : List Datum) : (nativeHash c s args).2 = .kernel := by
  have hcheck := (depsUnchanged_checked h).1
  rw [hu] at hcheck
  unfold nativeHash
  split
  · split
    · rfl
    · split
      · rfl
      · split
        · rfl
        · next heq =>
          rw [heq] at hcheck
          cases hcheck
  · rfl

/-- Another binding of a function that is no dependency. -/
def rebind (ctx : Context) (f : Text) (address : Option ℕ) : Context :=
  { ctx with slot := fun g => if g = f then address else ctx.slot g }

theorem depsUnchanged_rebind {c : Captures} {ctx : Context} {f : Text}
    (hf : ∀ d ∈ nativeHashDeps, ascii d ≠ f) (address : Option ℕ) :
    depsUnchanged c (rebind ctx f address) = depsUnchanged c ctx := by
  unfold depsUnchanged
  rw [Bool.eq_iff_iff, List.all_eq_true, List.all_eq_true]
  refine forall₂_congr fun p hp => ?_
  have hslot : (rebind ctx f address).slot (ascii p.1) = ctx.slot (ascii p.1) :=
    if_neg (hf p.1 (List.of_mem_zip hp).1)
  rw [hslot]

theorem CapturesKernel.rebind {c : Captures} {target : ℕ} {captures : List ℕ} {ctx : Context}
    (h : CapturesKernel c target captures ctx) (f : Text) (address : Option ℕ) :
    CapturesKernel c target captures (rebind ctx f address) :=
  ⟨h.length, h.deps, h.original, h.target⟩

theorem isKey_length {key : Datum} {bytes : Text} (h : IsKey key bytes)
    (hlen : ∀ t, key = .symbol t ∨ key = .string t → t.length < 2 ^ 54) :
    bytes.length < 2 ^ 54 := by
  cases h with
  | fail => decide
  | symbol h => exact hlen bytes (.inl rfl)
  | string s => exact hlen bytes (.inr rfl)
  | int k h => exact decimalInt_length h

/-- **The native hash is the kernel's hash**, in every state reached after its installation: while the
dependencies are unchanged it answers what the kernel's closure returns, whatever any other function
is bound to, and once one of them is replaced it leaves the answer to the kernel's closure. -/
theorem nativeHash_eq_kernel {c : Captures} {target : ℕ} {captures : List ℕ} {s₀ s : HashState}
    (h₀ : Installed c target captures s₀) (hrun : Relation.ReflTransGen (HashStep c target) s₀ s)
    {key : Datum} {bytes : Text} (hkey : IsKey key bytes)
    (hlen : ∀ t, key = .symbol t ∨ key = .string t → t.length < 2 ^ 54) {m : Int} (hm : 0 < m)
    (hm64 : IsInt64 m) :
    (depsUnchanged c s.ctx = true →
      (nativeHash c s [key, .int m hm64]).2 = .value (ofInt (hashOf bytes m)) ∧
      Applies s.ctx (.other .closure c.original) [key, .int m hm64]
        (.ok (ofInt (hashOf bytes m))) ∧
      ∀ f address, (∀ d ∈ nativeHashDeps, ascii d ≠ f) →
        Applies (rebind s.ctx f address) (.other .closure c.original) [key, .int m hm64]
          (.ok (ofInt (hashOf bytes m)))) ∧
    (depsUnchanged c s.ctx = false → (nativeHash c s [key, .int m hm64]).2 = .kernel) := by
  have h := h₀.invariant.run hrun
  have hbytes := isKey_length hkey hlen
  refine ⟨fun hu => ⟨nativeHash_value h hu hkey hbytes hm hm64, ?_, fun f address hf => ?_⟩,
    fun hu => nativeHash_changed h hu _⟩
  · exact applies_hash (bindsKernel h.kernel hu) hkey hbytes hm hm64 h.kernel.original
  · have hu' : depsUnchanged c (rebind s.ctx f address) = true :=
      (depsUnchanged_rebind hf address).trans hu
    exact applies_hash (bindsKernel (h.kernel.rebind f address) hu') hkey hbytes hm hm64
      h.kernel.original

/-! ### A context with the kernel -/

/-- The numbers of the dependencies that the numeric wrapper watches. -/
def sampleNumeric : List ℕ := [28, 10, 12, 23, 5, 9, 4]

/-- Closure `i` is the dependency of number `i`; then come the kernel's hash and its hash key. -/
def sampleCode (a : ℕ) : Function :=
  match nativeHashDeps[a]? with
  | some name => (kernelCode 38 sampleNumeric name).getD .foreign
  | none => if a = 37 then hash.function else if a = 38 then hashkey.function else .foreign

def sampleContext : Context where
  code := sampleCode
  slot f := nativeHashDeps.findIdx? fun d => ascii d == f
  global _ := none
  formatG15 _ := []

def sampleCaptures : Captures := ⟨37, List.range 37⟩

theorem sample_kernel : CapturesKernel sampleCaptures 38 sampleNumeric sampleContext where
  length := rfl
  deps := by
    have hall : ∀ i (h : i < nativeHashDeps.length),
        (kernelCode 38 sampleNumeric nativeHashDeps[i]).isSome = true := by decide +kernel
    intro p hp
    obtain ⟨i, hi, rfl⟩ := List.mem_iff_getElem.1 hp
    rw [List.length_zip] at hi
    have hdep : i < nativeHashDeps.length := by omega
    obtain ⟨f, hf⟩ := Option.isSome_iff_exists.1 (hall i hdep)
    simp only [List.getElem_zip, sampleCaptures, List.getElem_range, sampleContext, sampleCode,
      List.getElem?_eq_getElem hdep, hf, Option.getD_some]
  original := rfl
  target := rfl

theorem sample_installed :
    Installed sampleCaptures 38 sampleNumeric ⟨sampleContext, 0, 0⟩ where
  kernel := sample_kernel
  unchanged := by decide +kernel
  unchecked := rfl

theorem nativeHash_eq_kernel_sample :
    (nativeHash sampleCaptures ⟨sampleContext, 0, 0⟩ [.sym "key", .int 7 (by decide)]).2 =
      .value (ofInt (hashOf (ascii "key") 7)) :=
  ((nativeHash_eq_kernel sample_installed .refl
    (IsKey.symbol (by decide +kernel : ascii "key" ≠ ascii "shen.fail!"))
    (fun t ht => by
      rcases ht with h | h
      · obtain rfl := Datum.symbol.inj h
        decide +kernel
      · cases h) (by decide) (by decide)).1 (by decide +kernel)).1

end ShenRc.Hash
