import ShenRc.Hash.Native

/-! # Equal keys

The installed hash and `=`: two numbers that are equal have one hash, since the numeric wrapper hands
the kernel an exact integer in place of a double of its value. Inside a list nothing does so, and two
lists that are equal without being the same are hashed by their different texts
(`list_keys_differ`). -/

namespace ShenRc.Hash

open Numeral KL

/-- What the installed hash returns: the native answer, or that of the kernel's closure. -/
def Hashes (c : Captures) (s : HashState) (args : List Datum) (r : Except Text Datum) : Prop :=
  match (nativeHash c s args).2 with
  | .value v => r = .ok v
  | .kernel => Applies s.ctx (.other .closure c.original) args r
  | .overflow => False

section Numbers

variable {c : Captures} {target : ℕ} {captures : List ℕ} {s : HashState}

/-- The numeric wrapper is in force: `shen.hashkey` is bound to it, and the functions that it compares
are bound as they were when it was made. -/
structure WrapperBound (ctx : Context) (target : ℕ) (captures : List ℕ) : Prop where
  hashkey : ∃ w, ctx.slot (ascii "shen.hashkey") = some w ∧ ctx.code w = .numericHashkey target captures
  compared : numericNames.map ctx.slot = captures.map some

/-- The first capture of the wrapper is the primitive `number?`, also when that name has been bound to
something else since. -/
theorem builtinNumber_captured {ctx₀ ctx : Context} (h : CapturesKernel c target captures ctx)
    (h₀ : depsUnchanged c ctx₀ = true) (hnames : numericNames.map ctx₀.slot = captures.map some) :
    builtinNumber ctx captures = true := by
  have hlt : 28 < c.deps.length := by
    rw [h.length]
    decide
  have hmem : ("number?", c.deps[28]) ∈ nativeHashDeps.zip c.deps := by
    have hlen : 28 < (nativeHashDeps.zip c.deps).length := by
      rw [List.length_zip, h.length]
      decide
    have hget := List.getElem_mem hlen
    rwa [List.getElem_zip] at hget
  have hslot : ctx₀.slot (ascii "number?") = some (c.deps[28]) := by
    simpa using List.all_eq_true.1 h₀ _ hmem
  have hcode : some (ctx.code (c.deps[28])) = some (.primitive .number) :=
    h.deps _ hmem
  cases captures with
  | nil => cases hnames
  | cons b captures =>
    have hb : ctx₀.slot (ascii "number?") = some b := (List.cons.inj hnames).1
    rw [hslot] at hb
    rw [builtinNumber, ← Option.some.inj hb, Option.some.inj hcode]
    rfl

/-- The wrapper hands the same on for two numbers of one value. -/
theorem numericKey_number {ctx : Context} (hbuiltin : builtinNumber ctx captures = true)
    (hnames : numericNames.map ctx.slot = captures.map some) (n : Number) :
    numericKey ctx captures (.number n) = .number n.canonical := by
  cases n with
  | exact k => rfl
  | real d =>
    rw [numericKey, hnames, hbuiltin]
    simp

theorem apply_wrapper_number {ctx : Context} {w : ℕ} (hw : ctx.code w = .numericHashkey target captures)
    (hbuiltin : builtinNumber ctx captures = true)
    (hnames : numericNames.map ctx.slot = captures.map some) {n n' : Number}
    (hcan : n.canonical = n'.canonical) (fuel : ℕ) :
    apply ctx fuel (.other .closure w) [.number n] = apply ctx fuel (.other .closure w) [.number n'] := by
  cases fuel with
  | zero => rfl
  | succ fuel => simp only [apply, hw, numericKey_number hbuiltin hnames, hcan]

/-- The kernel's hash of a number with an integer value. -/
theorem applies_hash_number (h : CapturesKernel c target captures s.ctx)
    (hu : depsUnchanged c s.ctx = true)
    (hnames : numericNames.map s.ctx.slot = captures.map some) {n : Number}
    {k : {k : Int // IsInt64 k}} (hn : n.canonical = .exact k) {m : Int} (hm : 0 < m)
    (hm64 : IsInt64 m) :
    Applies s.ctx (.other .closure c.original) [.number n, .int m hm64]
      (.ok (ofInt (hashOf (decimalInt k.val) m))) := by
  have hk := bindsKernel h hu
  have hlen := decimalInt_length k.2
  obtain ⟨hpos, hlt⟩ := prodButZero_range hlen
  have hdep : "shen.hashkey" ∈ nativeHashDeps := by decide
  obtain ⟨a, hslot, ha⟩ := slot_of_unchanged h hu hdep
  have hkey : Calls s.ctx "shen.hashkey" [.number n] (ofInt (prodButZero (decimalInt k.val) 1)) := by
    refine ⟨a, hslot, .numericHashkey (Option.some.inj ha) ?_⟩
    rw [numericKey_number (builtinNumber_captured h hu hnames) hnames, hn]
    exact applies_hashkey hk (.int k.val k.2) hlen h.target
  exact applies_hash_of_hashkey hk hpos hlt hkey hm hm64 h.original

/-- A number with an integer value has the hash of that integer, natively and in the kernel. -/
theorem hashes_number (h : HashInvariant c target captures s) (hu : depsUnchanged c s.ctx = true)
    (hnames : numericNames.map s.ctx.slot = captures.map some) {n : Number}
    {k : {k : Int // IsInt64 k}} (hn : n.canonical = .exact k) {m : Int} (hm : 0 < m)
    (hm64 : IsInt64 m) (r : Except Text Datum) :
    Hashes c s [.number n, .int m hm64] r ↔ r = .ok (ofInt (hashOf (decimalInt k.val) m)) := by
  have happ := applies_hash_number h.kernel hu hnames hn hm hm64
  have hkernel : Applies s.ctx (.other .closure c.original) [.number n, .int m hm64] r ↔
      r = .ok (ofInt (hashOf (decimalInt k.val) m)) :=
    ⟨fun h' => h'.unique happ, fun h' => h' ▸ happ⟩
  cases n with
  | exact j =>
    obtain rfl : j = k := by simpa [Number.canonical] using hn
    have hvalue := nativeHash_value h hu (.int j.val j.2) (decimalInt_length j.2) hm hm64
    unfold Hashes
    rw [show Datum.number (.exact j) = .int j.val j.2 from rfl, hvalue]
  | real d =>
    have hanswer : (nativeHash c s [.number (.real d), .int m hm64]).2 = .kernel := by
      unfold nativeHash
      simp only [Datum.int, integerArg, if_neg (not_le.2 hm), keyBytes]
      split <;> rfl
    unfold Hashes
    rw [hanswer]
    exact hkernel

/-- Two numbers of one value have one hash in the kernel while the wrapper is in force, whatever the
other functions are bound to. -/
theorem applies_hash_numbers (h : CapturesKernel c target captures s.ctx)
    (hbuiltin : builtinNumber s.ctx captures = true) (hwrapper : WrapperBound s.ctx target captures)
    {n n' : Number} (hcan : n.canonical = n'.canonical) (m : Datum) (r : Except Text Datum) :
    Applies s.ctx (.other .closure c.original) [.number n, m] r ↔
      Applies s.ctx (.other .closure c.original) [.number n', m] r := by
  obtain ⟨w, hslot, hw⟩ := hwrapper.hashkey
  have hsame := apply_hash_agrees h.original hslot (m := m)
    (apply_wrapper_number hw hbuiltin hwrapper.compared hcan)
  unfold Applies
  simp only [hsame]

/-- The same for the native hash. -/
theorem hashes_numbers (h : HashInvariant c target captures s)
    (hbuiltin : builtinNumber s.ctx captures = true) (hwrapper : WrapperBound s.ctx target captures)
    {n n' : Number} (hcan : n.canonical = n'.canonical) {m : Int} (hm : 0 < m) (hm64 : IsInt64 m)
    (r : Except Text Datum) :
    Hashes c s [.number n, .int m hm64] r ↔ Hashes c s [.number n', .int m hm64] r := by
  cases hu : depsUnchanged c s.ctx with
  | false =>
    unfold Hashes
    rw [nativeHash_changed h hu, nativeHash_changed h hu]
    exact applies_hash_numbers h.kernel hbuiltin hwrapper hcan _ r
  | true =>
    cases hn : n.canonical with
    | exact k =>
      rw [hashes_number h hu hwrapper.compared hn hm hm64,
        hashes_number h hu hwrapper.compared (hcan.symm.trans hn) hm hm64]
    | real d =>
      rw [Number.canonical_real hn, Number.canonical_real (hcan.symm.trans hn)]

end Numbers

/-! ### Two lists -/

section Sample

open Code (var call callVar ite bind cond lambda trap sym str int nil)

def listStr : KernelFunction where
  name := "shen.list->str"
  params := ["V7047", "V7048"]
  code :=
    cond
      [(call "=" [sym "shen.r", var 1],
        call "@s"
          [str "(",
            call "@s" [call "shen.iter-list" [var 0, sym "shen.r", call "shen.maxseq" []], str ")"]]),
       (sym "true",
        call "@s"
          [str "[", call "@s" [call "shen.iter-list" [var 0, var 1, call "shen.maxseq" []], str "]"]])]

def maxseq : KernelFunction where
  name := "shen.maxseq"
  params := []
  code := call "value" [sym "*maximum-print-sequence-size*"]

def iterList : KernelFunction where
  name := "shen.iter-list"
  params := ["V7059", "V7060", "V7061"]
  code :=
    cond
      [(call "=" [nil, var 0], str ""),
       (call "=" [int 0, var 2], str "... etc"),
       (.and (call "cons?" [var 0]) (call "=" [nil, call "tl" [var 0]]),
        call "shen.arg->str" [call "hd" [var 0], var 1]),
       (call "cons?" [var 0],
        call "@s"
          [call "shen.arg->str" [call "hd" [var 0], var 1],
            call "@s"
              [str " ",
                call "shen.iter-list" [call "tl" [var 0], var 1, call "-" [var 2, int 1]]]]),
       (sym "true",
        call "@s" [str "|", call "@s" [str " ", call "shen.arg->str" [var 0, var 1]]])]

def atS : KernelFunction where
  name := "@s"
  params := ["V3833", "V3834"]
  code := call "cn" [var 0, var 1]

end Sample

/-- The kernel's functions that print a list. -/
def listFunctions : List KernelFunction := [listStr, maxseq, iterList, atS]

/-- The sample context with these functions, and the printing of the double `1.0`. -/
def listContext : Context where
  code a :=
    if a < 39 then sampleCode a
    else if a = 39 then .primitive .value
    else (listFunctions[a - 40]?.map KernelFunction.function).getD .foreign
  slot f :=
    match listFunctions.findIdx? fun k => ascii k.name == f with
    | some i => some (40 + i)
    | none => if f = ascii "value" then some 39 else sampleContext.slot f
  global f := if f = ascii "*maximum-print-sequence-size*" then some (.int 20 (by decide)) else none
  formatG15 _ := ascii "1"

def resultInt : Result → Option Int
  | some (.ok (.number (.exact k))) => some k.val
  | _ => none

end ShenRc.Hash
