import ShenRc.Hash.Kernel

/-! # What the kernel's functions return

One lemma for each function, by the rules of `ShenRc.KL.Rules`; a function that calls itself is done by
induction on the list or the string it walks. -/

namespace ShenRc.Hash

open Numeral KL

/-- The context binds the primitives, the functions of the templates but `hash`, and the numeric hash
over the kernel's own. -/
structure BindsKernel (ctx : Context) : Prop where
  primitive : ∀ p ∈ kernelPrimitives, ∃ a, ctx.slot (ascii p.1) = some a ∧ ctx.code a = .primitive p.2
  defined : ∀ k ∈ kernelFunctions, k.name ≠ "hash" → ∃ a, ctx.slot (ascii k.name) = some a ∧
    ctx.code a = k.function
  hashkey : ∃ a target captures, ctx.slot (ascii "shen.hashkey") = some a ∧
    ctx.code a = .numericHashkey target captures ∧ ctx.code target = hashkey.function

/-- The function bound to a name has the result. -/
def Calls (ctx : Context) (f : String) (vs : List Datum) (r : Datum) : Prop :=
  ∃ a, ctx.slot (ascii f) = some a ∧ Applies ctx (.other .closure a) vs (.ok r)

section Calls

variable {ctx : Context} {names : List Text} {values : List Datum}

theorem runs_call {f : String} {cs : List Code} {vs : List Datum} {r : Datum}
    (h : Calls ctx f vs r) (hargs : RunsAll ctx names values cs vs) :
    Runs ctx names values (.call f cs) (.ok r) := by
  obtain ⟨a, hslot, happ⟩ := h
  exact .call hslot hargs happ

theorem runsAll_one {c : Code} {v : Datum} (h : Runs ctx names values c (.ok v)) :
    RunsAll ctx names values [c] [v] := .cons h .nil

theorem runsAll_two {c d : Code} {v w : Datum} (h : Runs ctx names values c (.ok v))
    (h' : Runs ctx names values d (.ok w)) : RunsAll ctx names values [c, d] [v, w] :=
  .cons h (.cons h' .nil)

theorem runsAll_three {c d e : Code} {u v w : Datum} (h : Runs ctx names values c (.ok u))
    (h' : Runs ctx names values d (.ok v)) (h'' : Runs ctx names values e (.ok w)) :
    RunsAll ctx names values [c, d, e] [u, v, w] :=
  .cons h (.cons h' (.cons h'' .nil))

theorem runs_int (k : Int) [h : Int64Literal k] :
    Runs ctx names values (Code.int k) (.ok (.int k h.isInt64)) := .const _

end Calls

section Primitives

variable {ctx : Context} (hk : BindsKernel ctx) {names : List Text} {values : List Datum}
include hk

theorem calls_primitive {f : String} (op : Op) {vs : List Datum} {r : Datum}
    (hf : (f, op) ∈ kernelPrimitives) (h : primitive ctx op vs = some (.ok r)) :
    Calls ctx f vs r := by
  obtain ⟨a, hslot, hcode⟩ := hk.primitive _ hf
  exact ⟨a, hslot, .primitive hcode h⟩

theorem calls_defined {k : KernelFunction} (hmem : k ∈ kernelFunctions) (hname : k.name ≠ "hash")
    {vs : List Datum} {r : Datum} (hlen : k.names.length = vs.length)
    (h : Runs ctx k.names vs k.code (.ok r)) : Calls ctx k.name vs r := by
  obtain ⟨a, hslot, hcode⟩ := hk.defined k hmem hname
  obtain ⟨hnodup, hs⟩ := kernelFunctions_wellScoped k (List.mem_cons_of_mem _ hmem)
  exact ⟨a, hslot, .definition hcode ⟨hnodup, hlen⟩ hs h⟩

theorem runs_eq {a b : Code} {x y : Datum} {e : Bool} (ha : Runs ctx names values a (.ok x))
    (hb : Runs ctx names values b (.ok y)) (h : x.equal y = some e) :
    Runs ctx names values (.call "=" [a, b]) (.ok (.truth e)) :=
  runs_call (calls_primitive hk .eq (by decide) (by simp [primitive, h])) (runsAll_two ha hb)

/-- `(cons? list)`. -/
theorem runs_consp {a : Code} {vs : List Datum} (ha : Runs ctx names values a (.ok (.ofList vs))) :
    Runs ctx names values (.call "cons?" [a]) (.ok (.truth !vs.isEmpty)) := by
  refine runs_call (calls_primitive hk .consp (by decide) ?_) (runsAll_one ha)
  cases vs <;> rfl

theorem runs_hd {a : Code} {v : Datum} {vs : List Datum}
    (ha : Runs ctx names values a (.ok (.ofList (v :: vs)))) :
    Runs ctx names values (.call "hd" [a]) (.ok v) :=
  runs_call (calls_primitive hk .hd (by decide) rfl) (runsAll_one ha)

theorem runs_tl {a : Code} {v : Datum} {vs : List Datum}
    (ha : Runs ctx names values a (.ok (.ofList (v :: vs)))) :
    Runs ctx names values (.call "tl" [a]) (.ok (.ofList vs)) :=
  runs_call (calls_primitive hk .tl (by decide) rfl) (runsAll_one ha)

theorem runs_cons {a b : Code} {v : Datum} {vs : List Datum} (ha : Runs ctx names values a (.ok v))
    (hb : Runs ctx names values b (.ok (.ofList vs))) :
    Runs ctx names values (.call "cons" [a, b]) (.ok (.ofList (v :: vs))) :=
  runs_call (calls_primitive hk .cons (by decide) rfl) (runsAll_two ha hb)

/-- `(= () list)`. -/
theorem runs_eq_nil {a : Code} (vs : List Datum) (ha : Runs ctx names values a (.ok (.ofList vs))) :
    Runs ctx names values (.call "=" [.nil, a]) (.ok (.truth vs.isEmpty)) :=
  runs_eq hk (.const _) ha (by cases vs <;> rfl)

theorem runs_eq_int {a b : Code} {j k : Int} {hj : IsInt64 j} {h : IsInt64 k}
    (ha : Runs ctx names values a (.ok (.int j hj))) (hb : Runs ctx names values b (.ok (.int k h))) :
    Runs ctx names values (.call "=" [a, b]) (.ok (.truth (j == k))) := by
  refine runs_eq hk ha hb ?_
  simp only [Datum.int, Datum.equal, Number.equal, Option.some.injEq]
  rw [Bool.eq_iff_iff, beq_iff_eq, beq_iff_eq, Subtype.mk.injEq]

theorem runs_gt {a b : Code} {j k : Int} {hj : IsInt64 j} {h : IsInt64 k}
    (ha : Runs ctx names values a (.ok (.int j hj))) (hb : Runs ctx names values b (.ok (.int k h))) :
    Runs ctx names values (.call ">" [a, b]) (.ok (.truth (decide (k < j)))) :=
  runs_call (calls_primitive hk .gt (by decide) rfl) (runsAll_two ha hb)

theorem runs_add {a b : Code} {j k : Int} {hj : IsInt64 j} {h : IsInt64 k}
    (ha : Runs ctx names values a (.ok (.int j hj))) (hb : Runs ctx names values b (.ok (.int k h)))
    (hr : IsInt64 (j + k)) :
    Runs ctx names values (.call "+" [a, b]) (.ok (.int (j + k) hr)) := by
  refine runs_call (calls_primitive hk .add (by decide) ?_) (runsAll_two ha hb)
  simp only [primitive, numeric, Datum.int, checked, dif_pos hr]

theorem runs_sub {a b : Code} {j k : Int} {hj : IsInt64 j} {h : IsInt64 k}
    (ha : Runs ctx names values a (.ok (.int j hj))) (hb : Runs ctx names values b (.ok (.int k h)))
    (hr : IsInt64 (j - k)) :
    Runs ctx names values (.call "-" [a, b]) (.ok (.int (j - k) hr)) := by
  refine runs_call (calls_primitive hk .sub (by decide) ?_) (runsAll_two ha hb)
  simp only [primitive, numeric, Datum.int, checked, dif_pos hr]

theorem runs_mul {a b : Code} {j k : Int} {hj : IsInt64 j} {h : IsInt64 k}
    (ha : Runs ctx names values a (.ok (.int j hj))) (hb : Runs ctx names values b (.ok (.int k h)))
    (hr : IsInt64 (j * k)) :
    Runs ctx names values (.call "*" [a, b]) (.ok (.int (j * k) hr)) := by
  refine runs_call (calls_primitive hk .mul (by decide) ?_) (runsAll_two ha hb)
  simp only [primitive, numeric, Datum.int, checked, dif_pos hr]

end Primitives

/-! ### Keys and their text -/

/-- The key is a symbol, a string or an exact integer. -/
inductive IsKey : Datum → Text → Prop where
  | fail : IsKey (.sym "shen.fail!") (ascii "...")
  | symbol {s : Text} (h : s ≠ ascii "shen.fail!") : IsKey (.symbol s) s
  | string (s : Text) : IsKey (.string s) s
  | int (k : Int) (h : IsInt64 k) : IsKey (.int k h) (decimalInt k)

section Text

variable {ctx : Context} (hk : BindsKernel ctx)
include hk

theorem calls_isEmpty {v : Datum} {e : Bool} (h : Datum.equal .nil v = some e) :
    Calls ctx "empty?" [v] (.truth e) := by
  refine calls_defined hk (k := isEmpty) (by simp [kernelFunctions]) (by decide) rfl (.cond ?_)
  have htest : Runs ctx isEmpty.names [v] (.call "=" [.nil, .var 0]) _ :=
    runs_eq hk (.const .nil) (.var rfl) h
  cases e with
  | true => exact .yes htest (.const _)
  | false => exact .no htest (.yes (.const _) (.const _))

theorem calls_isList {v : Datum} (hnil : Datum.equal .nil v = some false)
    (hpair : ∀ h t, v ≠ .pair h t) : Calls ctx "shen.list?" [v] (.truth false) := by
  refine calls_defined hk (k := isList) (by simp [kernelFunctions]) (by decide) rfl ?_
  have hempty : Runs ctx isList.names [v] (.call "empty?" [.var 0]) (.ok (.truth false)) :=
    runs_call (calls_isEmpty hk hnil) (runsAll_one (.var rfl))
  refine .or (x := false) (y := false) hempty fun _ => ?_
  refine runs_call (calls_primitive hk .consp (by decide) ?_) (runsAll_one (.var rfl))
  cases v with
  | pair h t => exact absurd rfl (hpair h t)
  | _ => rfl

theorem calls_fail : Calls ctx "fail" [] (.sym "shen.fail!") :=
  calls_defined hk (k := fail) (by simp [kernelFunctions]) (by decide) rfl (.const _)

theorem calls_strStr (s : Text) :
    Calls ctx "shen.str->str" [.string s, .sym "shen.a"] (.string s) := by
  refine calls_defined hk (k := strStr) (by simp [kernelFunctions]) (by decide) rfl (.cond ?_)
  refine .yes (runs_eq hk (.const _) (.var rfl) ?_) (.var rfl)
  simp [Datum.equal, Datum.ofValue, Value.sym, Datum.sym]

theorem calls_atomStr {v : Datum} {s : Text} (h : atomString ctx v = some (.ok (.string s))) :
    Calls ctx "shen.atom->str" [v] (.string s) := by
  refine calls_defined hk (k := atomStr) (by simp [kernelFunctions]) (by decide) rfl (.trap ?_)
  refine runs_call (calls_primitive hk .str (by decide) ?_) (runsAll_one (.var rfl))
  exact h

theorem calls_argStr {v : Datum} {s : Text} (h : IsKey v s) :
    Calls ctx "shen.arg->str" [v, .sym "shen.a"] (.string s) := by
  refine calls_defined hk (k := argStr) (by simp [kernelFunctions]) (by decide) rfl (.cond ?_)
  have hfail : ∀ e, v.equal (.sym "shen.fail!") = some e →
      Runs ctx argStr.names [v, .sym "shen.a"] (.call "=" [.var 0, .call "fail" []]) (.ok (.truth e)) :=
    fun e he => runs_eq hk (.var rfl) (runs_call (calls_fail hk) .nil) he
  have hlist : Datum.equal .nil v = some false → (∀ h t, v ≠ .pair h t) →
      Runs ctx argStr.names [v, .sym "shen.a"] (.call "shen.list?" [.var 0]) (.ok (.truth false)) :=
    fun hnil hpair => runs_call (calls_isList hk hnil hpair) (runsAll_one (.var rfl))
  have hstring : ∀ e, primitive ctx .string [v] = some (.ok (.truth e)) →
      Runs ctx argStr.names [v, .sym "shen.a"] (.call "string?" [.var 0]) (.ok (.truth e)) :=
    fun e he => runs_call (calls_primitive hk .string (by decide) he) (runsAll_one (.var rfl))
  have hvector : primitive ctx .vectorp [v] = some (.ok (.truth false)) →
      Runs ctx argStr.names [v, .sym "shen.a"] (.call "absvector?" [.var 0]) (.ok (.truth false)) :=
    fun he => runs_call (calls_primitive hk .vectorp (by decide) he) (runsAll_one (.var rfl))
  have hatom : ∀ s, atomString ctx v = some (.ok (.string s)) →
      Runs ctx argStr.names [v, .sym "shen.a"] (.call "shen.atom->str" [.var 0]) (.ok (.string s)) :=
    fun s he => runs_call (calls_atomStr hk he) (runsAll_one (.var rfl))
  cases h with
  | fail => exact .yes (hfail true (by simp [Datum.sym, Datum.equal])) (.const _)
  | @symbol s hs =>
    exact .no (hfail false (by simp [Datum.sym, Datum.equal, hs])) <| .no (hlist rfl (by simp)) <|
      .no (hstring false rfl) <| .no (hvector rfl) <| .yes (.const _) (hatom s rfl)
  | string s =>
    exact .no (hfail false rfl) <| .no (hlist rfl (by simp)) <|
      .yes (hstring true rfl) (runs_call (calls_strStr hk s) (runsAll_two (.var rfl) (.var rfl)))
  | int k hk =>
    exact .no (hfail false rfl) <| .no (hlist rfl (by simp [Datum.int])) <|
      .no (hstring false rfl) <| .no (hvector rfl) <| .yes (.const _) (hatom _ rfl)

theorem calls_app {v : Datum} {s : Text} (h : IsKey v s) :
    Calls ctx "shen.app" [v, .string [], .sym "shen.a"] (.string s) := by
  refine calls_defined hk (k := app) (by simp [kernelFunctions]) (by decide) rfl ?_
  refine runs_call (calls_primitive hk .cn (by decide) ?_)
    (runsAll_two (runs_call (calls_argStr hk h) (runsAll_two (.var rfl) (.var rfl))) (.var rfl))
  simp [primitive]

theorem calls_isNonempty (s : Text) :
    Calls ctx "shen.+string?" [.string s] (.truth !s.isEmpty) := by
  refine calls_defined hk (k := isNonempty) (by simp [kernelFunctions]) (by decide) rfl (.cond ?_)
  have htest : Runs ctx isNonempty.names [.string s] (.call "=" [.str "", .var 0])
      (.ok (.truth s.isEmpty)) :=
    runs_eq hk (.const _) (.var rfl) (by cases s <;> rfl)
  cases s with
  | nil => exact .yes htest (.const _)
  | cons c s =>
    refine .no htest (.yes (.const _) ?_)
    exact runs_call (calls_primitive hk .string (by decide) rfl) (runsAll_one (.var rfl))

theorem calls_hdstr (c : UInt8) (s : Text) :
    Calls ctx "hdstr" [.string (c :: s)] (.string [c]) := by
  refine calls_defined hk (k := hdstr) (by simp [kernelFunctions]) (by decide) rfl ?_
  exact runs_call (calls_primitive hk .pos (by decide) rfl) (runsAll_two (.var rfl) (.const _))

/-- The unit strings of a string. -/
def unitStrings (s : Text) : List Datum := s.map fun c => .string [c]

theorem calls_explodeH (s : Text) :
    Calls ctx "shen.explode-h" [.string s] (.ofList (unitStrings s)) := by
  induction s with
  | nil =>
    refine calls_defined hk (k := explodeH) (by simp [kernelFunctions]) (by decide) rfl (.cond ?_)
    exact .yes (runs_eq hk (.const _) (.var rfl) rfl) (.const _)
  | cons c s ih =>
    refine calls_defined hk (k := explodeH) (by simp [kernelFunctions]) (by decide) rfl (.cond ?_)
    have htail : Runs ctx explodeH.names [.string (c :: s)] (.call "tlstr" [.var 0]) (.ok (.string s)) :=
      runs_call (calls_primitive hk .tlstr (by decide) rfl) (runsAll_one (.var rfl))
    refine .no (runs_eq hk (.const _) (.var rfl) rfl) (.yes ?_ ?_)
    · exact runs_call (calls_isNonempty hk (c :: s)) (runsAll_one (.var rfl))
    · exact runs_cons hk (runs_call (calls_hdstr hk c s) (runsAll_one (.var rfl)))
        (runs_call ih (runsAll_one htail))

theorem calls_explode {v : Datum} {s : Text} (h : IsKey v s) :
    Calls ctx "explode" [v] (.ofList (unitStrings s)) := by
  refine calls_defined hk (k := explode) (by simp [kernelFunctions]) (by decide) rfl ?_
  exact runs_call (calls_explodeH hk s) (runsAll_one (runs_call (calls_app hk h)
    (runsAll_three (.var rfl) (.const _) (.const _))))

end Text

/-! ### Lists -/

section Lists

variable {ctx : Context} (hk : BindsKernel ctx)
include hk

theorem calls_reverseHelp (vs done : List Datum) :
    Calls ctx "shen.reverse-help" [.ofList vs, .ofList done] (.ofList (vs.reverse ++ done)) := by
  induction vs generalizing done with
  | nil =>
    refine calls_defined hk (k := reverseHelp) (by simp [kernelFunctions]) (by decide) rfl (.cond ?_)
    exact .yes (runs_eq_nil hk [] (.var rfl)) (.var rfl)
  | cons v vs ih =>
    refine calls_defined hk (k := reverseHelp) (by simp [kernelFunctions]) (by decide) rfl (.cond ?_)
    have hlist : Runs ctx reverseHelp.names [.ofList (v :: vs), .ofList done] (.var 0)
        (.ok (.ofList (v :: vs))) := .var rfl
    refine .no (runs_eq_nil hk _ hlist) (.yes (runs_consp hk hlist) ?_)
    rw [List.reverse_cons, List.append_assoc]
    exact runs_call (ih (v :: done))
      (runsAll_two (runs_tl hk hlist) (runs_cons hk (runs_hd hk hlist) (.var rfl)))

theorem calls_reverse (vs : List Datum) :
    Calls ctx "reverse" [.ofList vs] (.ofList vs.reverse) := by
  refine calls_defined hk (k := reverse) (by simp [kernelFunctions]) (by decide) rfl ?_
  rw [← List.append_nil vs.reverse]
  exact runs_call (calls_reverseHelp hk vs []) (runsAll_two (.var rfl) (.const _))

/-- `shen.map-h` of a closure that has a result on every item. -/
theorem calls_mapH {params : List Text} {body : Value} {env : Env} {g : Datum → Datum}
    (vs : List Datum)
    (hf : ∀ v ∈ vs, Applies ctx (.closure params body env) [v] (.ok (g v))) (done : List Datum) :
    Calls ctx "shen.map-h" [.closure params body env, .ofList vs, .ofList done]
      (.ofList (done.reverse ++ vs.map g)) := by
  induction vs generalizing done with
  | nil =>
    refine calls_defined hk (k := mapH) (by simp [kernelFunctions]) (by decide) rfl (.cond ?_)
    refine .yes (runs_eq_nil hk [] (.var rfl)) ?_
    rw [List.map_nil, List.append_nil]
    exact runs_call (calls_reverse hk done) (runsAll_one (.var rfl))
  | cons v vs ih =>
    refine calls_defined hk (k := mapH) (by simp [kernelFunctions]) (by decide) rfl (.cond ?_)
    have hlist : Runs ctx mapH.names [.closure params body env, .ofList (v :: vs), .ofList done] (.var 1)
        (.ok (.ofList (v :: vs))) := .var rfl
    have hhead : Runs ctx mapH.names [.closure params body env, .ofList (v :: vs), .ofList done]
        (.callVar 0 [.call "hd" [.var 1]]) (.ok (g v)) :=
      .callVar rfl (runsAll_one (runs_hd hk hlist)) (hf v (by simp))
    refine .no (runs_eq_nil hk _ hlist) (.yes (runs_consp hk hlist) ?_)
    have hrest := ih (fun w hw => hf w (by simp [hw])) (g v :: done)
    rw [List.reverse_cons, List.append_assoc] at hrest
    exact runs_call hrest
      (runsAll_three (.var rfl) (runs_tl hk hlist) (runs_cons hk hhead (.var rfl)))

theorem calls_map {params : List Text} {body : Value} {env : Env} {g : Datum → Datum}
    (vs : List Datum)
    (hf : ∀ v ∈ vs, Applies ctx (.closure params body env) [v] (.ok (g v))) :
    Calls ctx "map" [.closure params body env, .ofList vs] (.ofList (vs.map g)) := by
  refine calls_defined hk (k := map) (by simp [kernelFunctions]) (by decide) rfl ?_
  exact runs_call (calls_mapH hk vs hf []) (runsAll_three (.var rfl) (.var rfl) (.const _))

end Lists

/-! ### The product of the bytes -/

/-- One byte of `shen.prodbutzero`. -/
def prodStep (p : Int) (c : UInt8) : Int :=
  if c = 0 then p else if 10000000000 < p then p + c.toNat else p * c.toNat

/-- **`shen.prodbutzero`**: the product of the bytes that are not zero while it is at most
`10000000000`, and their sum from there. -/
def prodButZero (s : Text) (p : Int) : Int := s.foldl prodStep p

/-- As many bytes keep a product below a bound that is in range for fewer than `2 ^ 54` bytes. -/
theorem prodStep_bound {p : Int} {n : ℕ} (c : UInt8) (hp : 0 < p)
    (hb : p ≤ 2550000000000 + 255 * n) :
    0 < prodStep p c ∧ prodStep p c ≤ 2550000000000 + 255 * (n + 1 : ℕ) := by
  have hc : c.toNat < 256 := c.toNat_lt
  unfold prodStep
  split_ifs with h0 h1
  · push_cast
    omega
  · push_cast
    omega
  · have hpos : 0 < c.toNat := by
      rcases Nat.eq_zero_or_pos c.toNat with h | h
      · exact absurd (UInt8.toNat_inj.1 h) h0
      · exact h
    constructor
    · exact Int.mul_pos hp (by omega)
    · calc p * c.toNat ≤ 10000000000 * 255 := by
            apply Int.mul_le_mul <;> omega
        _ ≤ 2550000000000 + 255 * (n + 1 : ℕ) := by push_cast; omega

theorem isInt64_of_bound {p : Int} {n : ℕ} (hp : 0 < p) (hb : p ≤ 2550000000000 + 255 * n)
    (hn : n < 2 ^ 54) : IsInt64 p ∧ p < 2 ^ 62 := by
  unfold IsInt64
  omega

/-- The exact integer `k` as a value; only integers in range are meant. -/
def ofInt (k : Int) : Datum := if h : IsInt64 k then .int k h else .nil

theorem ofInt_eq {k : Int} (h : IsInt64 k) : ofInt k = .int k h := dif_pos h

theorem runs_ofInt {ctx : Context} {names : List Text} {values : List Datum} {a : Code} {k : Int}
    (h : Runs ctx names values a (.ok (ofInt k))) (hk : IsInt64 k) :
    Runs ctx names values a (.ok (.int k hk)) := by
  rwa [ofInt_eq hk] at h

theorem isInt64_byte (c : UInt8) : IsInt64 c.toNat := by
  have hc : c.toNat < 256 := c.toNat_lt
  unfold IsInt64
  omega

/-- The codes of a text. -/
def codes (s : Text) : List Datum := s.map fun c => ofInt c.toNat

section Product

variable {ctx : Context} (hk : BindsKernel ctx)
include hk

theorem calls_prodbutzero (s : Text) {p : Int} {n : ℕ} (hp : 0 < p)
    (hb : p ≤ 2550000000000 + 255 * n) (hn : n + s.length < 2 ^ 54) :
    Calls ctx "shen.prodbutzero" [.ofList (codes s), ofInt p] (ofInt (prodButZero s p)) := by
  induction s generalizing p n with
  | nil =>
    refine calls_defined hk (k := prodbutzero) (by simp [kernelFunctions]) (by decide) rfl (.cond ?_)
    exact .yes (runs_eq_nil hk [] (.var rfl)) (.var rfl)
  | cons c s ih =>
    rw [List.length_cons] at hn
    obtain ⟨hpos, hbound⟩ := prodStep_bound c hp hb
    have hp64 := (isInt64_of_bound hp hb (by omega)).1
    have hq64 := (isInt64_of_bound hpos hbound (by omega)).1
    have hrest := ih hpos hbound (by omega)
    have hcodes : codes (c :: s) = ofInt c.toNat :: codes s := rfl
    rw [prodButZero, List.foldl_cons, ← prodButZero, hcodes]
    refine calls_defined hk (k := prodbutzero) (by simp [kernelFunctions]) (by decide) rfl (.cond ?_)
    have hlist : Runs ctx prodbutzero.names [.ofList (ofInt c.toNat :: codes s), ofInt p] (.var 0)
        (.ok (.ofList (ofInt c.toNat :: codes s))) := .var rfl
    have hacc : Runs ctx prodbutzero.names [.ofList (ofInt c.toNat :: codes s), ofInt p] (.var 1)
        (.ok (.int p hp64)) := runs_ofInt (.var rfl) hp64
    have hhead := runs_ofInt (runs_hd hk hlist) (isInt64_byte c)
    refine .no (runs_eq_nil hk _ hlist) ?_
    have hcode : Runs ctx prodbutzero.names [.ofList (ofInt c.toNat :: codes s), ofInt p]
        (.call "=" [.int 0, .call "hd" [.var 0]]) (.ok (.truth ((0 : Int) == c.toNat))) :=
      runs_eq_int hk (runs_int 0) hhead
    have hzero : Runs ctx prodbutzero.names [.ofList (ofInt c.toNat :: codes s), ofInt p]
        (.and (.call "cons?" [.var 0]) (.call "=" [.int 0, .call "hd" [.var 0]]))
        (.ok (.truth ((0 : Int) == c.toNat))) :=
      .and (x := true) (runs_consp hk hlist) fun _ => hcode
    by_cases hc : c = 0
    · subst hc
      exact .yes hzero (runs_call hrest (runsAll_two (runs_tl hk hlist) (.var rfl)))
    · have hne : ((0 : Int) == c.toNat) = false := by
        rw [beq_eq_false_iff_ne]
        intro h
        exact hc (UInt8.toNat_inj.1 (by simpa using (Int.ofNat.inj h).symm))
      rw [hne] at hzero
      refine .no hzero (.yes (runs_consp hk hlist) (.ite (runs_gt hk hacc (runs_int _)) ?_))
      by_cases hbig : 10000000000 < p
      · rw [if_pos (by simpa using hbig)]
        rw [prodStep, if_neg hc, if_pos hbig] at hq64 hrest ⊢
        rw [ofInt_eq hq64] at hrest
        exact runs_call hrest (runsAll_two (runs_tl hk hlist) (runs_add hk hacc hhead hq64))
      · rw [if_neg (by simpa using hbig)]
        rw [prodStep, if_neg hc, if_neg hbig] at hq64 hrest ⊢
        rw [ofInt_eq hq64] at hrest
        exact runs_call hrest (runsAll_two (runs_tl hk hlist) (runs_mul hk hacc hhead hq64))

/-- `string->n` on a unit string. -/
def unitCode : Datum → Datum
  | .string (c :: _) => ofInt c.toNat
  | _ => .nil

/-- The kernel's own hash key. -/
theorem applies_hashkey {v : Datum} {s : Text} (h : IsKey v s) (hs : s.length < 2 ^ 54) {a : ℕ}
    (ha : ctx.code a = hashkey.function) :
    Applies ctx (.other .closure a) [v] (.ok (ofInt (prodButZero s 1))) := by
  obtain ⟨hnodup, hscoped⟩ := kernelFunctions_wellScoped hashkey (by simp)
  refine .definition ha ⟨hnodup, rfl⟩ hscoped ?_
  have hcode : ∀ w ∈ unitStrings s, Applies ctx
      (.closure [ascii "Z4007"]
        ((Code.call "string->n" [.var 0]).render (ascii "Z4007" :: hashkey.names))
        (hashkey.names.zip [v])) [w]
      (.ok (unitCode w)) := by
    intro w hw
    obtain ⟨c, -, rfl⟩ := List.mem_map.1 hw
    refine .closure ⟨hnodup, rfl⟩ (by decide +kernel) (by decide +kernel) ?_
    refine runs_call (calls_primitive hk .strn (by decide) ?_) (runsAll_one (.var rfl))
    simp only [primitive, checked, dif_pos (isInt64_byte c), ofInt, unitCode]
  have hmap := calls_map hk (unitStrings s) hcode
  have hunits : (unitStrings s).map unitCode = codes s := by
    simp [unitStrings, codes, unitCode, Function.comp_def]
  rw [hunits] at hmap
  refine .bind (runs_call hmap (runsAll_two .lambda
    (runs_call (calls_explode hk h) (runsAll_one (.var rfl))))) ?_
  have hprod := calls_prodbutzero hk s (p := 1) (n := 0) (by omega) (by omega) (by omega)
  exact runs_call hprod (runsAll_two (.var rfl) (.const _))

end Product

/-! ### The remainder -/

/-- The modulus and its doubles, the largest first. -/
def doubles (m : Int) : ℕ → List Int
  | 0 => []
  | i + 1 => 2 ^ i * m :: doubles m i

def doubleData (m : Int) (i : ℕ) : List Datum := (doubles m i).map ofInt

theorem double_pos {m : Int} (hm : 0 < m) (i : ℕ) : 0 < 2 ^ i * m := by positivity

theorem isInt64_double {m : Int} (hm : 0 < m) {l i : ℕ} (hl : l ≤ i) (h : IsInt64 (2 ^ i * m)) :
    IsInt64 (2 ^ l * m) := by
  have hpos := double_pos hm l
  have hle : (2 : Int) ^ l * m ≤ 2 ^ i * m := by gcongr; norm_num
  unfold IsInt64 at h ⊢
  omega

section Remainder

variable {ctx : Context} (hk : BindsKernel ctx)
include hk

/-- `shen.multiples` doubles the modulus until it is above the number, which does not overflow for a
number below `2 ^ 62`. -/
theorem calls_multiples {x m : Int} (hx0 : 0 ≤ x) (hx : x < 2 ^ 62) (hm : 0 < m) (n i : ℕ)
    (hn : x < 2 ^ i * m + n) (h : IsInt64 (2 ^ i * m)) :
    ∃ j, x < 2 ^ j * m ∧ (∀ l < j, IsInt64 (2 ^ l * m)) ∧
      Calls ctx "shen.multiples" [ofInt x, .ofList (doubleData m (i + 1))]
        (.ofList (doubleData m j)) := by
  have hx64 : IsInt64 x := by
    unfold IsInt64
    omega
  -- the induction is on how far the largest double is below the number
  induction n using Nat.strong_induction_on generalizing i with
  | _ n ih =>
    have hlist : Runs ctx multiples.names [ofInt x, .ofList (doubleData m (i + 1))] (.var 1)
        (.ok (.ofList (ofInt (2 ^ i * m) :: doubleData m i))) := .var rfl
    have hnum : Runs ctx multiples.names [ofInt x, .ofList (doubleData m (i + 1))] (.var 0)
        (.ok (.int x hx64)) := runs_ofInt (.var rfl) hx64
    have hhead := runs_ofInt (runs_hd hk hlist) h
    have htest : Runs ctx multiples.names [ofInt x, .ofList (doubleData m (i + 1))]
        (.and (.call "cons?" [.var 1]) (.call ">" [.call "hd" [.var 1], .var 0]))
        (.ok (.truth (decide (x < 2 ^ i * m)))) :=
      .and (x := true) (runs_consp hk hlist) fun _ => runs_gt hk hhead hnum
    by_cases hlt : x < 2 ^ i * m
    · rw [decide_eq_true hlt] at htest
      refine ⟨i, hlt, fun l hl => isInt64_double hm hl.le h, ?_⟩
      refine calls_defined hk (k := multiples) (by simp [kernelFunctions]) (by decide) rfl (.cond ?_)
      exact .yes htest (runs_tl hk hlist)
    · rw [decide_eq_false hlt] at htest
      have hpos := double_pos hm i
      have hdouble : (2 : Int) ^ (i + 1) * m = 2 * (2 ^ i * m) := by ring
      have hnext : IsInt64 (2 ^ (i + 1) * m) := by
        rw [hdouble]
        unfold IsInt64
        omega
      obtain ⟨j, hj, hrange, hcall⟩ := ih (n - 1) (by omega) (i + 1) (by omega) hnext
      refine ⟨j, hj, hrange, ?_⟩
      refine calls_defined hk (k := multiples) (by simp [kernelFunctions]) (by decide) rfl (.cond ?_)
      have hprod : IsInt64 (2 * (2 ^ i * m)) := hdouble ▸ hnext
      have hmul := runs_mul hk (runs_int 2) hhead hprod
      have hnew : Runs ctx multiples.names [ofInt x, .ofList (doubleData m (i + 1))]
          (.call "*" [.int 2, .call "hd" [.var 1]]) (.ok (ofInt (2 ^ (i + 1) * m))) := by
        rw [hdouble, ofInt_eq hprod]
        exact hmul
      refine .no htest (.yes (runs_consp hk hlist) (runs_call hcall ?_))
      exact runsAll_two (.var rfl) (runs_cons hk hnew hlist)

/-- The first test of `shen.modh`. -/
theorem runs_modh_zero {x : Int} (hx64 : IsInt64 x) (v : Datum) :
    Runs ctx modh.names [ofInt x, v] (.call "=" [.int 0, .var 0]) (.ok (.truth (0 == x))) :=
  runs_eq_int hk (runs_int 0) (runs_ofInt (.var rfl) hx64)

/-- The test of `shen.modh` for a double that is too large. -/
theorem runs_modh_gt {x m : Int} {i : ℕ} (hx64 : IsInt64 x) (h : IsInt64 (2 ^ i * m)) :
    Runs ctx modh.names [ofInt x, .ofList (doubleData m (i + 1))]
      (.and (.call "cons?" [.var 1]) (.call ">" [.call "hd" [.var 1], .var 0]))
      (.ok (.truth (decide (x < 2 ^ i * m)))) := by
  have hlist : Runs ctx modh.names [ofInt x, .ofList (doubleData m (i + 1))] (.var 1)
      (.ok (.ofList (ofInt (2 ^ i * m) :: doubleData m i))) := .var rfl
  exact .and (x := true) (runs_consp hk hlist) fun _ =>
    runs_gt hk (runs_ofInt (runs_hd hk hlist) h) (runs_ofInt (.var rfl) hx64)

/-- `shen.modh` on a number below the largest double drops that double. -/
theorem calls_modh_lt {x m : Int} (hx0 : 0 ≤ x) (i : ℕ) (hx : x < 2 ^ i * m) (hx64 : IsInt64 x)
    (h : IsInt64 (2 ^ i * m))
    (hrest : Calls ctx "shen.modh" [ofInt x, .ofList (doubleData m i)] (ofInt (x % m))) :
    Calls ctx "shen.modh" [ofInt x, .ofList (doubleData m (i + 1))] (ofInt (x % m)) := by
  refine calls_defined hk (k := modh) (by simp [kernelFunctions]) (by decide) rfl (.cond ?_)
  have hlist : Runs ctx modh.names [ofInt x, .ofList (doubleData m (i + 1))] (.var 1)
      (.ok (.ofList (ofInt (2 ^ i * m) :: doubleData m i))) := .var rfl
  have hzero := runs_modh_zero hk hx64 (.ofList (doubleData m (i + 1)))
  have hgt := runs_modh_gt hk (m := m) (i := i) hx64 h
  rw [decide_eq_true hx] at hgt
  by_cases h0 : x = 0
  · subst h0
    rw [Int.zero_emod]
    exact .yes hzero (.const _)
  · rw [beq_eq_false_iff_ne.2 (Ne.symm h0)] at hzero
    refine .no hzero (.no (runs_eq_nil hk _ hlist) (.yes hgt (.ite (b := (doubleData m i).isEmpty) ?_ ?_)))
    · refine runs_call (calls_isEmpty hk ?_) (runsAll_one (runs_tl hk hlist))
      cases doubleData m i <;> rfl
    · cases i with
      | zero =>
        rw [Int.emod_eq_of_lt hx0 (by simpa using hx)]
        exact .var rfl
      | succ i => exact runs_call hrest (runsAll_two (.var rfl) (runs_tl hk hlist))

/-- **`shen.modh`** on a number below the double that comes next is the remainder. -/
theorem calls_modh {x m : Int} (hx0 : 0 ≤ x) (hm : 0 < m) (i : ℕ) (hx : x < 2 ^ i * m)
    (hx64 : IsInt64 x) (h : ∀ l < i, IsInt64 (2 ^ l * m)) :
    Calls ctx "shen.modh" [ofInt x, .ofList (doubleData m i)] (ofInt (x % m)) := by
  induction i generalizing x with
  | zero =>
    rw [Int.emod_eq_of_lt hx0 (by simpa using hx)]
    refine calls_defined hk (k := modh) (by simp [kernelFunctions]) (by decide) rfl (.cond ?_)
    have hzero := runs_modh_zero hk hx64 (.ofList (doubleData m 0))
    by_cases h0 : x = 0
    · subst h0
      exact .yes hzero (.const _)
    · rw [beq_eq_false_iff_ne.2 (Ne.symm h0)] at hzero
      exact .no hzero (.yes (runs_eq_nil hk [] (.var rfl)) (.var rfl))
  | succ i ih =>
    have hi := h i (by omega)
    have hlow := fun x hx0 hx hx64 => ih (x := x) hx0 hx hx64 fun l hl => h l (by omega)
    by_cases hlt : x < 2 ^ i * m
    · exact calls_modh_lt hk hx0 i hlt hx64 hi (hlow x hx0 hlt hx64)
    · have hpos := double_pos hm i
      have hdouble : (2 : Int) ^ (i + 1) * m = 2 * (2 ^ i * m) := by ring
      have hsub64 : IsInt64 (x - 2 ^ i * m) := by
        unfold IsInt64 at hx64 ⊢
        omega
      have hmod : (x - 2 ^ i * m) % m = x % m := Int.sub_mul_emod_self_right x (2 ^ i) m
      have hrest := calls_modh_lt hk (m := m) (x := x - 2 ^ i * m) (by omega) i (by omega) hsub64 hi
        (hlow _ (by omega) (by omega) hsub64)
      rw [hmod, ofInt_eq hsub64] at hrest
      refine calls_defined hk (k := modh) (by simp [kernelFunctions]) (by decide) rfl (.cond ?_)
      have hlist : Runs ctx modh.names [ofInt x, .ofList (doubleData m (i + 1))] (.var 1)
          (.ok (.ofList (ofInt (2 ^ i * m) :: doubleData m i))) := .var rfl
      have hzero := runs_modh_zero hk hx64 (.ofList (doubleData m (i + 1)))
      have hgt := runs_modh_gt hk (m := m) (i := i) hx64 hi
      rw [decide_eq_false hlt] at hgt
      rw [beq_eq_false_iff_ne.2 (by omega)] at hzero
      refine .no hzero (.no (runs_eq_nil hk _ hlist) (.no hgt (.yes (runs_consp hk hlist) ?_)))
      have hnum : Runs ctx modh.names [ofInt x, .ofList (doubleData m (i + 1))] (.var 0)
          (.ok (.int x hx64)) := runs_ofInt (.var rfl) hx64
      have hsub := runs_sub hk hnum (runs_ofInt (runs_hd hk hlist) hi) hsub64
      exact runs_call hrest (runsAll_two hsub hlist)

/-- `shen.mod` of a number below `2 ^ 62` by a positive modulus. -/
theorem calls_mod {x m : Int} (hx0 : 0 ≤ x) (hx : x < 2 ^ 62) (hm : 0 < m) (hm64 : IsInt64 m) :
    Calls ctx "shen.mod" [ofInt x, ofInt m] (ofInt (x % m)) := by
  have hx64 : IsInt64 x := by
    unfold IsInt64
    omega
  have hone : (2 : Int) ^ 0 * m = m := by ring
  obtain ⟨j, hj, hrange, hcall⟩ := calls_multiples hk hx0 hx hm (x + 1).toNat 0 (by omega)
    (by rwa [hone])
  refine calls_defined hk (k := mod) (by simp [kernelFunctions]) (by decide) rfl ?_
  have hstart : doubleData m (0 + 1) = [ofInt m] := by simp [doubleData, doubles]
  rw [hstart] at hcall
  have hlist : Runs ctx mod.names [ofInt x, ofInt m] (.call "cons" [.var 1, .nil])
      (.ok (.ofList [ofInt m])) := runs_cons hk (.var rfl) (.const _)
  exact runs_call (calls_modh hk hx0 hm j hj hx64 hrange)
    (runsAll_two (.var rfl) (runs_call hcall (runsAll_two (.var rfl) hlist)))

end Remainder

/-! ### The hash -/

/-- The value of the kernel's hash. -/
def hashOf (s : Text) (m : Int) : Int := if prodButZero s 1 % m = 0 then 1 else prodButZero s 1 % m

theorem prodButZero_bound (s : Text) {p : Int} {n : ℕ} (hp : 0 < p)
    (hb : p ≤ 2550000000000 + 255 * n) :
    0 < prodButZero s p ∧ prodButZero s p ≤ 2550000000000 + 255 * (n + s.length : ℕ) := by
  induction s generalizing p n with
  | nil => exact ⟨hp, by simpa [prodButZero] using hb⟩
  | cons c s ih =>
    obtain ⟨hpos, hbound⟩ := prodStep_bound c hp hb
    have hrest := ih hpos hbound
    rw [List.length_cons, ← Nat.add_assoc, Nat.add_right_comm]
    exact hrest

theorem prodButZero_range {s : Text} (hs : s.length < 2 ^ 54) :
    0 < prodButZero s 1 ∧ prodButZero s 1 < 2 ^ 62 := by
  obtain ⟨hpos, hbound⟩ := prodButZero_bound s (p := 1) (n := 0) (by omega) (by omega)
  exact ⟨hpos, (isInt64_of_bound (n := s.length) hpos (by simpa using hbound) hs).2⟩

section Hash

variable {ctx : Context} (hk : BindsKernel ctx)
include hk

theorem calls_hashkey {v : Datum} {s : Text} (h : IsKey v s) (hs : s.length < 2 ^ 54) :
    Calls ctx "shen.hashkey" [v] (ofInt (prodButZero s 1)) := by
  obtain ⟨a, target, captures, hslot, hcode, htarget⟩ := hk.hashkey
  have hkey : numericKey ctx captures v = v := by
    cases h <;> rfl
  refine ⟨a, hslot, .numericHashkey hcode ?_⟩
  rw [hkey]
  exact applies_hashkey hk h hs htarget

/-- The kernel's hash of a key whose hash key is below `2 ^ 62`. -/
theorem applies_hash_of_hashkey {v : Datum} {p : Int} (hp : 0 < p) (hlt : p < 2 ^ 62)
    (hkey : Calls ctx "shen.hashkey" [v] (ofInt p)) {m : Int} (hm : 0 < m) (hm64 : IsInt64 m) {a : ℕ}
    (ha : ctx.code a = hash.function) :
    Applies ctx (.other .closure a) [v, .int m hm64] (.ok (ofInt (if p % m = 0 then 1 else p % m))) := by
  obtain ⟨hnodup, hscoped⟩ := kernelFunctions_wellScoped hash (by simp [kernelFunctions])
  have hmod := calls_mod hk hp.le hlt hm hm64
  rw [ofInt_eq hm64] at hmod
  have hr0 := Int.emod_nonneg p hm.ne'
  have hr := Int.emod_lt_of_pos p hm
  have hr64 : IsInt64 (p % m) := by
    unfold IsInt64 at hm64 ⊢
    omega
  refine .definition ha ⟨hnodup, rfl⟩ hscoped (.bind (runs_call hmod
    (runsAll_two (runs_call hkey (runsAll_one (.var rfl))) (.var rfl))) ?_)
  have hvar : Runs ctx (ascii "W4004" :: hash.names) [ofInt (p % m), v, .int m hm64] (.var 0)
      (.ok (.int _ hr64)) := runs_ofInt (.var rfl) hr64
  refine .ite (runs_eq_int hk hvar (runs_int 0)) ?_
  by_cases h0 : p % m = 0
  · rw [if_pos h0, if_pos (by simpa using h0)]
    exact .const _
  · rw [if_neg h0, if_neg (by simpa using h0)]
    exact .var rfl

/-- **The kernel's hash** of a symbol, a string or an exact integer: no step of it overflows. -/
theorem applies_hash {v : Datum} {s : Text} (h : IsKey v s) (hs : s.length < 2 ^ 54) {m : Int}
    (hm : 0 < m) (hm64 : IsInt64 m) {a : ℕ} (ha : ctx.code a = hash.function) :
    Applies ctx (.other .closure a) [v, .int m hm64] (.ok (ofInt (hashOf s m))) := by
  obtain ⟨hpos, hlt⟩ := prodButZero_range hs
  exact applies_hash_of_hashkey hk hpos hlt (calls_hashkey hk h hs) hm hm64 ha

end Hash

/-- **The kernel's hash looks at its key through `shen.hashkey` only**, whatever the other functions
are bound to. -/
theorem apply_hash_agrees {ctx : Context} {a w : ℕ} (ha : ctx.code a = hash.function)
    (hslot : ctx.slot (ascii "shen.hashkey") = some w) {v v' m : Datum}
    (happ : ∀ fuel, apply ctx fuel (.other .closure w) [v] = apply ctx fuel (.other .closure w) [v'])
    (fuel : ℕ) : apply ctx fuel (.other .closure a) [v, m] =
      apply ctx fuel (.other .closure a) [v', m] := by
  obtain ⟨hnodup, hscoped⟩ := kernelFunctions_wellScoped hash (by simp [kernelFunctions])
  have hvalue : Agrees ctx hash.names [v, m] [v', m]
      (.call "shen.mod" [.call "shen.hashkey" [.var 0], .var 1]) := .call fun c hc => by
    rcases List.mem_pair.1 hc with rfl | rfl
    · exact .callSame hslot rfl rfl happ
    · exact .var (v := m) rfl rfl
  have hbody : ∀ u, Agrees ctx (ascii "W4004" :: hash.names) [u, v, m] [u, v', m]
      (.ite (.call "=" [.var 0, .int 0]) (.int 1) (.var 0)) := fun u =>
    .ite (.call fun c hc => by
      rcases List.mem_pair.1 hc with rfl | rfl
      · exact .var (v := u) rfl rfl
      · exact .const _) (.const _) (.var (v := u) rfl rfl)
  exact apply_definition_agrees ha ⟨hnodup, rfl⟩ ⟨hnodup, rfl⟩ hscoped (.bind hvalue hbody) fuel

end ShenRc.Hash
