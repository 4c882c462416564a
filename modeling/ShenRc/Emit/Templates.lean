import ShenRc.Emit.Alpha
import ShenRc.KL.Read

/-! # Pinned definitions

The kernel definitions that the emitter knows, as forms: what `rc_read` makes of the texts in the
source. -/

namespace ShenRc.Emit

open Numeral KL

def sym (s : String) : Value := .sym s

def str (s : String) : Value := .string (ascii s)

def int (k : Int) [Int64Literal k] : Value := .int k

def list (vs : List Value) : Value := .ofList vs

/-- `native_hash_templates`. -/
def nativeHashTemplates : List Definition :=
  [ ⟨ascii "hash", list [sym "V4002", sym "V4003"],
      list [sym "let", sym "W4004",
        list [sym "shen.mod", list [sym "shen.hashkey", sym "V4002"], sym "V4003"],
        list [sym "if", list [sym "=", sym "W4004", int 0], int 1, sym "W4004"]]⟩,
    ⟨ascii "shen.mod", list [sym "V4010", sym "V4011"],
      list [sym "shen.modh", sym "V4010",
        list [sym "shen.multiples", sym "V4010", list [sym "cons", sym "V4011", .nil]]]⟩,
    ⟨ascii "shen.modh", list [sym "V4024", sym "V4025"],
      list [sym "cond", list [list [sym "=", int 0, sym "V4024"], int 0],
        list [list [sym "=", .nil, sym "V4025"], sym "V4024"],
        list [list [sym "and", list [sym "cons?", sym "V4025"],
            list [sym ">", list [sym "hd", sym "V4025"], sym "V4024"]],
          list [sym "if", list [sym "empty?", list [sym "tl", sym "V4025"]], sym "V4024",
            list [sym "shen.modh", sym "V4024", list [sym "tl", sym "V4025"]]]],
        list [list [sym "cons?", sym "V4025"],
          list [sym "shen.modh", list [sym "-", sym "V4024", list [sym "hd", sym "V4025"]],
            sym "V4025"]],
        list [sym "true", list [sym "simple-error", str "implementation error in shen.modh"]]]⟩,
    ⟨ascii "shen.multiples", list [sym "V4016", sym "V4017"],
      list [sym "cond",
        list [list [sym "and", list [sym "cons?", sym "V4017"],
            list [sym ">", list [sym "hd", sym "V4017"], sym "V4016"]],
          list [sym "tl", sym "V4017"]],
        list [list [sym "cons?", sym "V4017"],
          list [sym "shen.multiples", sym "V4016",
            list [sym "cons", list [sym "*", int 2, list [sym "hd", sym "V4017"]], sym "V4017"]]],
        list [sym "true",
          list [sym "simple-error", str "implementation error in shen.multiples"]]]⟩,
    ⟨ascii "shen.prodbutzero", list [sym "V4008", sym "V4009"],
      list [sym "cond", list [list [sym "=", .nil, sym "V4008"], sym "V4009"],
        list [list [sym "and", list [sym "cons?", sym "V4008"],
            list [sym "=", int 0, list [sym "hd", sym "V4008"]]],
          list [sym "shen.prodbutzero", list [sym "tl", sym "V4008"], sym "V4009"]],
        list [list [sym "cons?", sym "V4008"],
          list [sym "if", list [sym ">", sym "V4009", int 10000000000],
            list [sym "shen.prodbutzero", list [sym "tl", sym "V4008"],
              list [sym "+", sym "V4009", list [sym "hd", sym "V4008"]]],
            list [sym "shen.prodbutzero", list [sym "tl", sym "V4008"],
              list [sym "*", sym "V4009", list [sym "hd", sym "V4008"]]]]],
        list [sym "true", list [sym "shen.f-error", sym "shen.prodbutzero"]]]⟩,
    ⟨ascii "map", list [sym "V4082", sym "V4083"],
      list [sym "shen.map-h", sym "V4082", sym "V4083", .nil]⟩,
    ⟨ascii "shen.map-h", list [sym "V4084", sym "V4085", sym "V4086"],
      list [sym "cond",
        list [list [sym "=", .nil, sym "V4085"], list [sym "reverse", sym "V4086"]],
        list [list [sym "cons?", sym "V4085"],
          list [sym "shen.map-h", sym "V4084", list [sym "tl", sym "V4085"],
            list [sym "cons", list [sym "V4084", list [sym "hd", sym "V4085"]], sym "V4086"]]],
        list [sym "true", list [sym "shen.f-error", sym "shen.map-h"]]]⟩,
    ⟨ascii "reverse", list [sym "V4048"], list [sym "shen.reverse-help", sym "V4048", .nil]⟩,
    ⟨ascii "shen.reverse-help", list [sym "V4053", sym "V4054"],
      list [sym "cond", list [list [sym "=", .nil, sym "V4053"], sym "V4054"],
        list [list [sym "cons?", sym "V4053"],
          list [sym "shen.reverse-help", list [sym "tl", sym "V4053"],
            list [sym "cons", list [sym "hd", sym "V4053"], sym "V4054"]]],
        list [sym "true", list [sym "simple-error", str "attempt to reverse a non-list\n"]]]⟩,
    ⟨ascii "explode", list [sym "V4074"],
      list [sym "shen.explode-h", list [sym "shen.app", sym "V4074", str "", sym "shen.a"]]⟩,
    ⟨ascii "shen.explode-h", list [sym "V4077"],
      list [sym "cond", list [list [sym "=", str "", sym "V4077"], .nil],
        list [list [sym "shen.+string?", sym "V4077"],
          list [sym "cons", list [sym "hdstr", sym "V4077"],
            list [sym "shen.explode-h", list [sym "tlstr", sym "V4077"]]]],
        list [sym "true", list [sym "simple-error", str "implementation error in explode-h"]]]⟩,
    ⟨ascii "shen.app", list [sym "V7039", sym "V7040", sym "V7041"],
      list [sym "cn", list [sym "shen.arg->str", sym "V7039", sym "V7041"], sym "V7040"]⟩,
    ⟨ascii "shen.arg->str", list [sym "V7045", sym "V7046"],
      list [sym "cond", list [list [sym "=", sym "V7045", list [sym "fail"]], str "..."],
        list [list [sym "shen.list?", sym "V7045"],
          list [sym "shen.list->str", sym "V7045", sym "V7046"]],
        list [list [sym "string?", sym "V7045"],
          list [sym "shen.str->str", sym "V7045", sym "V7046"]],
        list [list [sym "absvector?", sym "V7045"],
          list [sym "shen.vector->str", sym "V7045", sym "V7046"]],
        list [sym "true", list [sym "shen.atom->str", sym "V7045"]]]⟩,
    ⟨ascii "fail", .nil, sym "shen.fail!"⟩,
    ⟨ascii "shen.list?", list [sym "V7090"],
      list [sym "or", list [sym "empty?", sym "V7090"], list [sym "cons?", sym "V7090"]]⟩,
    ⟨ascii "empty?", list [sym "V3970"],
      list [sym "cond", list [list [sym "=", .nil, sym "V3970"], sym "true"],
        list [sym "true", sym "false"]]⟩,
    ⟨ascii "shen.str->str", list [sym "V7064", sym "V7065"],
      list [sym "cond", list [list [sym "=", sym "shen.a", sym "V7065"], sym "V7064"],
        list [sym "true",
          list [sym "@s", list [sym "n->string", int 34],
            list [sym "@s", sym "V7064", list [sym "n->string", int 34]]]]]⟩,
    ⟨ascii "shen.atom->str", list [sym "V7088"],
      list [sym "trap-error", list [sym "str", sym "V7088"],
        list [sym "lambda", sym "Z7089", list [sym "shen.funexstring"]]]⟩,
    ⟨ascii "shen.+string?", list [sym "V868"],
      list [sym "cond", list [list [sym "=", str "", sym "V868"], sym "false"],
        list [sym "true", list [sym "string?", sym "V868"]]]⟩,
    ⟨ascii "hdstr", list [sym "V4039"], list [sym "pos", sym "V4039", int 0]⟩ ]

/-- The templates of `exact_assoc` and `exact_prolog`. -/
def otherTemplates : List Definition :=
  [ ⟨ascii "assoc", list [sym "V3928", sym "V3929"],
      list [sym "cond", list [list [sym "=", .nil, sym "V3929"], .nil],
        list [list [sym "and", list [sym "cons?", sym "V3929"],
            list [sym "and", list [sym "cons?", list [sym "hd", sym "V3929"]],
              list [sym "=", sym "V3928", list [sym "hd", list [sym "hd", sym "V3929"]]]]],
          list [sym "hd", sym "V3929"]],
        list [list [sym "cons?", sym "V3929"],
          list [sym "assoc", sym "V3928", list [sym "tl", sym "V3929"]]],
        list [sym "true",
          list [sym "simple-error", str "attempt to search a non-list with assoc\n"]]]⟩,
    ⟨ascii "shen.lazyderef", list [sym "V2111", sym "V2112"],
      list [sym "if", list [sym "shen.pvar?", sym "V2111"],
        list [sym "let", sym "W2113",
          list [sym "<-address", sym "V2112", list [sym "<-address", sym "V2111", int 1]],
          list [sym "if", list [sym "=", sym "W2113", sym "shen.-null-"], sym "V2111",
            list [sym "shen.lazyderef", sym "W2113", sym "V2112"]]], sym "V2111"]⟩,
    ⟨ascii "shen.pvar?", list [sym "V2109"],
      list [sym "and", list [sym "absvector?", sym "V2109"],
        list [sym "=",
          list [sym "trap-error", list [sym "<-address", sym "V2109", int 0],
            list [sym "lambda", sym "Z2110", sym "shen.not-pvar"]], sym "shen.pvar"]]⟩ ]

def templates : List Definition := nativeHashTemplates ++ otherTemplates

theorem templates_pinned : ∀ d ∈ templates, d.pinned = true := by decide +kernel

/-- `kernel_template` against the definition `t`. -/
def Definition.accepts (t d : Definition) : Bool := kernelTemplate d.params d.body t.form

/-! ### The hash of a key -/

def reserved : List Value :=
  [sym "let", sym "lambda", sym "map", sym "explode", sym "string->n", sym "shen.prodbutzero",
    sym "shen.app", sym "str", sym "number?"]

/-- `exact_hashkey`: the body is
`(let codes (map (lambda c (string->n c)) (explode key)) (shen.prodbutzero codes 1))`. Lists that are
not proper have been refused when the body was compiled. -/
def exactHashkey (d : Definition) : Bool :=
  match d.params, d.body with
  | .pair param .nil,
    .pair head (.pair letvar (.pair (.pair map mapArgs) (.pair (.pair result resultArgs) .nil))) =>
    match mapArgs, resultArgs with
    | .pair (.pair lambda (.pair lambdaParam (.pair (.pair stringN (.pair char .nil)) .nil)))
        (.pair (.pair explode (.pair key .nil)) .nil), .pair codes (.pair one .nil) =>
      param.isSymbol && letvar.isSymbol && lambdaParam.isSymbol &&
        head == sym "let" && map == sym "map" && lambda == sym "lambda" &&
        stringN == sym "string->n" && explode == sym "explode" && result == sym "shen.prodbutzero" &&
        !reserved.contains param && !reserved.contains letvar && !reserved.contains lambdaParam &&
        lambdaParam != param && lambdaParam != letvar &&
        char == lambdaParam && key == param && codes == letvar && one == int 1
    | _, _ => false
  | _, _ => false

/-- The definition of `shen.hashkey` that is pinned. -/
def hashkey : Definition where
  name := ascii "shen.hashkey"
  params := list [sym "V"]
  body :=
    list [sym "let", sym "W",
      list [sym "map", list [sym "lambda", sym "Z", list [sym "string->n", sym "Z"]],
        list [sym "explode", sym "V"]],
      list [sym "shen.prodbutzero", sym "W", int 1]]

/-- The pinned body of `shen.hashkey` over three names. -/
structure HashkeyShape (d : Definition) (v w z : Text) : Prop where
  params : d.params = .ofList [.symbol v]
  body : d.body =
    .ofList [sym "let", .symbol w,
      .ofList [sym "map", .ofList [sym "lambda", .symbol z, .ofList [sym "string->n", .symbol z]],
        .ofList [sym "explode", .symbol v]],
      .ofList [sym "shen.prodbutzero", .symbol w, int 1]]
  unreserved : ∀ x ∈ [v, w, z], Value.symbol x ∉ reserved
  ne_param : z ≠ v
  ne_letvar : z ≠ w

def HasHashkeyShape (d : Definition) : Prop := ∃ v w z, HashkeyShape d v w z

/-- **`exact_hashkey`**, read as what it asks of the names. -/
theorem exactHashkey_iff (d : Definition) : exactHashkey d = true ↔ HasHashkeyShape d := by
  constructor
  · intro h
    unfold exactHashkey at h
    split at h
    · next param head letvar map mapArgs result resultArgs hparams hbody =>
      split at h
      · next lambda lambdaParam stringN char explode key codes one =>
        simp only [Bool.and_eq_true, beq_iff_eq, bne_iff_ne, Bool.not_eq_true', ne_eq,
          Value.isSymbol_iff] at h
        obtain ⟨⟨⟨⟨⟨⟨⟨⟨⟨⟨⟨⟨⟨⟨⟨⟨⟨⟨v, rfl⟩, w, rfl⟩, z, rfl⟩, rfl⟩, rfl⟩, rfl⟩, rfl⟩, rfl⟩, rfl⟩,
          hv⟩, hw⟩, hz⟩, hzv⟩, hzw⟩, rfl⟩, rfl⟩, rfl⟩, rfl⟩ := h
        refine ⟨v, w, z, hparams, hbody, ?_, fun h => hzv (h ▸ rfl), fun h => hzw (h ▸ rfl)⟩
        intro x hx
        simp only [List.mem_cons, List.not_mem_nil, or_false] at hx
        rcases hx with rfl | rfl | rfl
        · simpa using hv
        · simpa using hw
        · simpa using hz
      · cases h
    · cases h
  · rintro ⟨v, w, z, hparams, hbody, hres, hzv, hzw⟩
    have hv := hres v (by simp)
    have hw := hres w (by simp)
    have hz := hres z (by simp)
    simp only [exactHashkey, hparams, hbody, Value.ofList]
    simp [Value.isSymbol, hv, hw, hz, hzv, hzw]

/-- A call of a function that is no variable. -/
theorem resolve_call {names : List Text} {s : String} (h : ascii s ∉ names)
    (hs : Value.sym s ≠ .sym "let" ∧ Value.sym s ≠ .sym "lambda") (r : Value) :
    resolve false names (.pair (.sym s) r) = .pair (.free (ascii s)) (resolveItems false names r) := by
  rw [resolve_list (by simp [special, hs.1]) (by simp [special, hs.2])]
  have hfree : resolve false names (.sym s) = .free (ascii s) := by
    have hi : alphaIndex names (ascii s) = none := by
      rw [alphaIndex, List.findIdx?_eq_none_iff]
      rintro x hx
      exact beq_false_of_ne fun hxs => h (hxs ▸ hx)
    simp [Value.sym, resolve, resolveAtom, hi]
  rw [hfree]

/-- `exact_hashkey` accepts nothing but the pinned definition, up to renaming. -/
theorem HashkeyShape.nameless {d : Definition} {v w z : Text} (h : HashkeyShape d v w z) :
    d.nameless false = hashkey.nameless false := by
  have hne : ∀ x ∈ [v, w, z], ∀ s ∈ ["let", "lambda", "map", "explode", "string->n",
      "shen.prodbutzero"], ascii s ≠ x := by
    rintro x hx s hs rfl
    refine h.unreserved _ hx ?_
    clear hx
    revert s
    decide +kernel
  simp only [List.forall_mem_cons, List.not_mem_nil, false_implies, implies_true, and_true] at hne
  obtain ⟨hv, hw, hz⟩ := hne
  have hlet : special false [v] "let" (.sym "let") = true :=
    (special_false _ _ _).2 ⟨rfl, by simp [hv]⟩
  have hlambda : special false [v] "lambda" (.sym "lambda") = true :=
    (special_false _ _ _).2 ⟨rfl, by simp [hv]⟩
  have hbody : resolve false [v] d.body = .letForm
      (.pair (.free (ascii "map"))
        (.pair (.lambda (.pair (.free (ascii "string->n")) (.pair (.var 0) .nil)))
          (.pair (.pair (.free (ascii "explode")) (.pair (.var 0) .nil)) .nil)))
      (.pair (.free (ascii "shen.prodbutzero"))
        (.pair (.var 0) (.pair (.number (.exact ⟨1, by decide⟩)) .nil))) := by
    rw [h.body]
    simp only [Value.ofList, sym]
    rw [resolve_let _ _ _ hlet, resolve_call (by simp [hv]) (by decide +kernel),
      resolve_call (by simp [hv, hw]) (by decide +kernel)]
    simp only [resolveItems]
    rw [resolve_lambda _ _ hlambda, resolve_call (by simp [hv, hz]) (by decide +kernel),
      resolve_call (by simp [hv]) (by decide +kernel)]
    simp [resolve, resolveItems, resolveAtom, alphaIndex, List.findIdx?_cons, int, Value.int]
  rw [Definition.nameless, Emit.nameless, h.params]
  simp only [Value.ofList, paramNames, Option.map_some, hbody, List.length_singleton]
  decide +kernel

end ShenRc.Emit
