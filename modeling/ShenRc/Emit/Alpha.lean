import ShenRc.KL.Value

/-! # Template certification

`kernelTemplate` compares a definition with a pinned one up to renaming. What it should decide is said
by the nameless form of a definition (`nameless`): a variable is the number of binders between it and
its own, and a list is a `let` or `lambda` form if its head is that name and no variable, which is how
the emitter reads it. Two definitions are alike up to renaming if their nameless forms are equal.

The walk reads a candidate more loosely: it takes the heads `let` and `lambda` for the special forms
although a binder of the candidate has the name, and it compares constants with `rc_equal`, for which
an exact integer equals a double of its value. `nameless true` is this loose form; it is what the walk
compares (`kernelTemplate_iff`), as long as the template itself binds no such name and holds no double
(`pinned`). -/

namespace ShenRc.Emit

open Numeral KL

/-! ### The walk -/

/-- The position of a name among the binders in scope, the innermost first. -/
def alphaIndex (names : List Text) (s : Text) : Option ℕ := names.findIdx? (· == s)

/-- The binders in scope, of the candidate and of the template. -/
abbrev AlphaScope := List (Text × Text)

def alphaBinders : ℕ := 64

/-- Two values of which one is no pair. -/
def alphaAtom (scope : AlphaScope) : Value → Value → Bool
  | .symbol s, .symbol t =>
    let i := alphaIndex (scope.map Prod.fst) s
    let j := alphaIndex (scope.map Prod.snd) t
    i == j && (i.isSome || s == t)
  | .symbol _, _ => false
  | _, .symbol _ => false
  | .pair _ _, _ => false
  | _, .pair _ _ => false
  | a, b => a.atomEqual b

mutual

def alphaEqual (scope : AlphaScope) (a b : Value) : Bool :=
  match a with
  | .pair f r =>
    match b with
    | .pair f' r' =>
      if f = .sym "let" ∧ f' = .sym "let" then
        match r, r' with
        | .pair (.symbol x) (.pair v (.pair body rest)),
          .pair (.symbol x') (.pair v' (.pair body' rest')) =>
          alphaEqual scope v v' && rest == .nil && rest' == .nil && scope.length != alphaBinders &&
            alphaEqual ((x, x') :: scope) body body'
        | _, _ => false
      else if f = .sym "lambda" ∧ f' = .sym "lambda" then
        match r, r' with
        | .pair (.symbol x) (.pair body rest), .pair (.symbol x') (.pair body' rest') =>
          rest == .nil && rest' == .nil && scope.length != alphaBinders &&
            alphaEqual ((x, x') :: scope) body body'
        | _, _ => false
      else alphaEqual scope f f' && alphaItems scope r r'
    | b => alphaAtom scope (.pair f r) b
  | a => alphaAtom scope a b

/-- The items of two lists, and what ends them. -/
def alphaItems (scope : AlphaScope) (a b : Value) : Bool :=
  match a with
  | .pair h t =>
    match b with
    | .pair h' t' => alphaEqual scope h h' && alphaItems scope t t'
    | b => alphaAtom scope (.pair h t) b
  | a => alphaAtom scope a b

end

/-- The scope of the parameters; none if their numbers differ, one is no name or there are too many. -/
def paramScope (params tparams : Value) (scope : AlphaScope) : Option AlphaScope :=
  match params, tparams with
  | .nil, .nil => some scope
  | .pair (.symbol x) params, .pair (.symbol y) tparams =>
    if scope.length = alphaBinders then none else paramScope params tparams ((x, y) :: scope)
  | _, _ => none

/-- **`kernel_template`**, on the definition `(defun name params body)` that has been read from the
pinned text. -/
def kernelTemplate (params body expected : Value) : Bool :=
  match expected with
  | .pair _ (.pair _ (.pair tparams (.pair tbody _))) =>
    match paramScope params tparams [] with
    | some scope => alphaEqual scope body tbody
    | none => false
  | _ => false

/-! ### Nameless forms -/

inductive Term where
  | var (i : ℕ)
  | free (name : Text)
  | nil
  | number (n : Number)
  | string (s : Text)
  | other (type : OtherType) (address : ℕ)
  | pair (head tail : Term)
  | letForm (value body : Term)
  | lambda (body : Term)
  deriving DecidableEq

/-- The name heads a special form: always in the loose reading, else where it is no variable. -/
def special (loose : Bool) (names : List Text) (s : String) (f : Value) : Bool :=
  f = .sym s && (loose || !names.contains (ascii s))

/-- A value that is no pair. -/
def resolveAtom (loose : Bool) (names : List Text) : Value → Term
  | .symbol s =>
    match alphaIndex names s with
    | some i => .var i
    | none => .free s
  | .number n => .number (if loose then n.canonical else n)
  | .string s => .string s
  | .other type address => .other type address
  | _ => .nil

mutual

/-- The nameless form under the binders `names`, the innermost first. -/
def resolve (loose : Bool) (names : List Text) : Value → Term
  | .pair f r =>
    match special loose names "let" f, special loose names "lambda" f, r with
    | true, _, .pair (.symbol x) (.pair v (.pair body .nil)) =>
      .letForm (resolve loose names v) (resolve loose (x :: names) body)
    | _, true, .pair (.symbol x) (.pair body .nil) => .lambda (resolve loose (x :: names) body)
    | _, _, r => .pair (resolve loose names f) (resolveItems loose names r)
  | v => resolveAtom loose names v

def resolveItems (loose : Bool) (names : List Text) : Value → Term
  | .pair h t => .pair (resolve loose names h) (resolveItems loose names t)
  | v => resolveAtom loose names v

end

/-- The names of a parameter list, the last first. -/
def paramNames (params : Value) (names : List Text) : Option (List Text) :=
  match params with
  | .nil => some names
  | .pair (.symbol x) params => paramNames params (x :: names)
  | _ => none

/-- **The nameless form of a definition**: the number of its parameters and its body. -/
def nameless (loose : Bool) (params body : Value) : Option (ℕ × Term) :=
  (paramNames params []).map fun names => (names.length, resolve loose names body)

/-! ### Pinned definitions -/

/-- What follows the head of a well-formed `let`: a name, a value and a body. -/
def letShape : Value → Bool
  | .pair (.symbol _) (.pair _ (.pair _ .nil)) => true
  | _ => false

def lambdaShape : Value → Bool
  | .pair (.symbol _) (.pair _ .nil) => true
  | _ => false

/-- A binder that fits in the scope and is no special head. -/
def plainBinder (names : List Text) (x : Text) : Bool :=
  x != ascii "let" && x != ascii "lambda" && names.length < alphaBinders

/-- The call of a variable could not be read as a special form under another name of the variable. -/
def plainCall (names : List Text) (f r : Value) : Bool :=
  match f with
  | .symbol s => !names.contains s || (!letShape r && !lambdaShape r)
  | _ => true

def pinnedAtom : Value → Bool
  | .number (.real _) => false
  | .other _ _ => false
  | _ => true

mutual

/-- Under the binders `names` every special form is well formed, every binder plain, every number
exact. -/
def pinned (names : List Text) : Value → Bool
  | .pair f r =>
    if f = .sym "let" then
      match r with
      | .pair (.symbol x) (.pair v (.pair body .nil)) =>
        pinned names v && plainBinder names x && pinned (x :: names) body
      | _ => false
    else if f = .sym "lambda" then
      match r with
      | .pair (.symbol x) (.pair body .nil) => plainBinder names x && pinned (x :: names) body
      | _ => false
    else pinned names f && plainCall names f r && pinnedItems names r
  | v => pinnedAtom v

def pinnedItems (names : List Text) : Value → Bool
  | .pair h t => pinned names h && pinnedItems names t
  | v => pinnedAtom v

end

/-! ### Readings of a list -/

theorem letShape_iff {r : Value} :
    letShape r = true ↔ ∃ x v body, r = .pair (.symbol x) (.pair v (.pair body .nil)) := by
  constructor
  · unfold letShape
    split
    · exact fun _ => ⟨_, _, _, rfl⟩
    · intro h
      cases h
  · rintro ⟨x, v, body, rfl⟩
    rfl

theorem lambdaShape_iff {r : Value} :
    lambdaShape r = true ↔ ∃ x body, r = .pair (.symbol x) (.pair body .nil) := by
  constructor
  · unfold lambdaShape
    split
    · exact fun _ => ⟨_, _, rfl⟩
    · intro h
      cases h
  · rintro ⟨x, body, rfl⟩
    rfl

theorem sym_let_ne_lambda : Value.sym "let" ≠ Value.sym "lambda" := by decide +kernel

theorem resolve_let {loose : Bool} {names : List Text} {f : Value} (x : Text) (v body : Value)
    (h : special loose names "let" f = true) :
    resolve loose names (.pair f (.pair (.symbol x) (.pair v (.pair body .nil)))) =
      .letForm (resolve loose names v) (resolve loose (x :: names) body) := by
  simp [resolve, h]

theorem resolve_lambda {loose : Bool} {names : List Text} {f : Value} (x : Text) (body : Value)
    (h : special loose names "lambda" f = true) :
    resolve loose names (.pair f (.pair (.symbol x) (.pair body .nil))) =
      .lambda (resolve loose (x :: names) body) := by
  simp [resolve, h]

theorem resolve_list {loose : Bool} {names : List Text} {f r : Value}
    (hl : (special loose names "let" f && letShape r) = false)
    (hm : (special loose names "lambda" f && lambdaShape r) = false) :
    resolve loose names (.pair f r) = .pair (resolve loose names f) (resolveItems loose names r) := by
  rw [resolve]
  · rintro x v body h rfl
    simp [h, letShape] at hl
  · rintro x body h rfl
    simp [h, lambdaShape] at hm

/-- The three readings of a list. -/
theorem list_cases (loose : Bool) (names : List Text) (f r : Value) :
    (special loose names "let" f = true ∧ ∃ x v body, r = .pair (.symbol x) (.pair v (.pair body .nil))) ∨
    (special loose names "lambda" f = true ∧ ∃ x body, r = .pair (.symbol x) (.pair body .nil)) ∨
    ((special loose names "let" f && letShape r) = false ∧
      (special loose names "lambda" f && lambdaShape r) = false) := by
  by_cases hl : (special loose names "let" f && letShape r) = true
  · rw [Bool.and_eq_true] at hl
    exact .inl ⟨hl.1, letShape_iff.1 hl.2⟩
  · by_cases hm : (special loose names "lambda" f && lambdaShape r) = true
    · rw [Bool.and_eq_true] at hm
      exact .inr (.inl ⟨hm.1, lambdaShape_iff.1 hm.2⟩)
    · exact .inr (.inr ⟨by simpa using hl, by simpa using hm⟩)

/-! ### Shapes of nameless lists -/

def Term.isName : Term → Bool
  | .var _ => true
  | .free _ => true
  | _ => false

def Term.letShape : Term → Bool
  | .pair t (.pair _ (.pair _ .nil)) => t.isName
  | _ => false

def Term.lambdaShape : Term → Bool
  | .pair t (.pair _ .nil) => t.isName
  | _ => false

theorem resolveAtom_ne {loose : Bool} {names : List Text} {v : Value} (t u : Term) :
    resolveAtom loose names v ≠ .pair t u ∧ resolveAtom loose names v ≠ .letForm t u ∧
      resolveAtom loose names v ≠ .lambda u := by
  cases v with
  | symbol s =>
    simp only [resolveAtom]
    split <;> simp
  | _ => simp [resolveAtom]

theorem resolve_pair_ne_atom {loose loose' : Bool} {names names' : List Text} {f r v : Value} :
    resolve loose names (.pair f r) ≠ resolveAtom loose' names' v := by
  rcases list_cases loose names f r with ⟨h, x, v, body, rfl⟩ | ⟨h, x, body, rfl⟩ | ⟨hl, hm⟩
  · rw [resolve_let x v body h]
    exact (resolveAtom_ne _ _).2.1.symm
  · rw [resolve_lambda x body h]
    exact (resolveAtom_ne .nil _).2.2.symm
  · rw [resolve_list hl hm]
    exact (resolveAtom_ne _ _).1.symm

theorem isName_resolve {loose : Bool} {names : List Text} {v : Value} :
    (resolve loose names v).isName = true ↔ ∃ s, v = .symbol s := by
  cases v with
  | symbol s =>
    simp only [resolve, resolveAtom]
    split <;> simp [Term.isName]
  | pair f r =>
    rcases list_cases loose names f r with ⟨h, x, v, body, rfl⟩ | ⟨h, x, body, rfl⟩ | ⟨hl, hm⟩
    · simp [resolve_let x v body h, Term.isName]
    · simp [resolve_lambda x body h, Term.isName]
    · simp [resolve_list hl hm, Term.isName]
  | _ => simp [resolve, resolveAtom, Term.isName]

theorem resolveItems_eq_nil {loose : Bool} {names : List Text} {v : Value} :
    resolveItems loose names v = .nil ↔ v = .nil := by
  cases v with
  | symbol s =>
    simp only [resolveItems, resolveAtom]
    split <;> simp
  | _ => simp [resolveItems, resolveAtom]

theorem resolveItems_eq_pair {loose : Bool} {names : List Text} {v : Value} {t u : Term} :
    resolveItems loose names v = .pair t u ↔
      ∃ h r, v = .pair h r ∧ resolve loose names h = t ∧ resolveItems loose names r = u := by
  cases v with
  | symbol s =>
    simp only [resolveItems, resolveAtom]
    split <;> simp
  | pair h r => simp [resolveItems]
  | _ => simp [resolveItems, resolveAtom]

theorem letShape_resolveItems {loose : Bool} {names : List Text} {r : Value} :
    (resolveItems loose names r).letShape = letShape r := by
  rw [Bool.eq_iff_iff, letShape_iff]
  constructor
  · intro h
    unfold Term.letShape at h
    split at h
    · next t u w heq =>
      obtain ⟨g, r, rfl, hg, hr⟩ := resolveItems_eq_pair.1 heq
      obtain ⟨v, r, rfl, -, hr⟩ := resolveItems_eq_pair.1 hr
      obtain ⟨body, r, rfl, -, hr⟩ := resolveItems_eq_pair.1 hr
      obtain rfl := resolveItems_eq_nil.1 hr
      rw [← hg, isName_resolve] at h
      obtain ⟨x, rfl⟩ := h
      exact ⟨x, v, body, rfl⟩
    · cases h
  · rintro ⟨x, v, body, rfl⟩
    simp only [resolveItems, resolveAtom, Term.letShape]
    exact isName_resolve.2 ⟨x, rfl⟩

theorem lambdaShape_resolveItems {loose : Bool} {names : List Text} {r : Value} :
    (resolveItems loose names r).lambdaShape = lambdaShape r := by
  rw [Bool.eq_iff_iff, lambdaShape_iff]
  constructor
  · intro h
    unfold Term.lambdaShape at h
    split at h
    · next t u heq =>
      obtain ⟨g, r, rfl, hg, hr⟩ := resolveItems_eq_pair.1 heq
      obtain ⟨body, r, rfl, -, hr⟩ := resolveItems_eq_pair.1 hr
      obtain rfl := resolveItems_eq_nil.1 hr
      rw [← hg, isName_resolve] at h
      obtain ⟨x, rfl⟩ := h
      exact ⟨x, body, rfl⟩
    · cases h
  · rintro ⟨x, body, rfl⟩
    simp only [resolveItems, resolveAtom, Term.lambdaShape]
    exact isName_resolve.2 ⟨x, rfl⟩

/-! ### The walk is the loose reading -/

theorem alphaAtom_symbol (scope : AlphaScope) (s t : Text) :
    alphaAtom scope (.symbol s) (.symbol t) = true ↔
      resolveAtom true (scope.map Prod.fst) (.symbol s) =
        resolveAtom true (scope.map Prod.snd) (.symbol t) := by
  simp only [alphaAtom, resolveAtom]
  cases alphaIndex (scope.map Prod.fst) s <;> cases alphaIndex (scope.map Prod.snd) t <;> simp

theorem alphaAtom_iff (scope : AlphaScope) {a b : Value} (ha : ∀ f r, a ≠ .pair f r)
    (hb : ∀ f r, b ≠ .pair f r) (hp : pinnedAtom b = true) :
    alphaAtom scope a b = true ↔
      resolveAtom true (scope.map Prod.fst) a = resolveAtom true (scope.map Prod.snd) b := by
  have hname : ∀ (names : List Text) s t, resolveAtom true names (.symbol s) = t → t.isName = true := by
    rintro names s t rfl
    simp only [resolveAtom]
    split <;> rfl
  cases b with
  | pair f r => exact absurd rfl (hb f r)
  | other type address => cases hp
  | symbol t =>
    cases a with
    | pair f r => exact absurd rfl (ha f r)
    | symbol s => exact alphaAtom_symbol scope s t
    | _ =>
      simp only [alphaAtom, Bool.false_eq_true, false_iff]
      intro h
      have := hname _ _ _ h.symm
      simp [resolveAtom, Term.isName] at this
  | number n =>
    cases n with
    | real d => cases hp
    | exact k =>
      cases a with
      | pair f r => exact absurd rfl (ha f r)
      | symbol s =>
        simp only [alphaAtom, Bool.false_eq_true, false_iff]
        intro h
        have := hname _ _ _ h
        simp [resolveAtom, Term.isName] at this
      | number n =>
        simp only [alphaAtom, Value.atomEqual, resolveAtom, if_true, Term.number.injEq,
          Number.equal_exact]
        rfl
      | _ => simp [alphaAtom, Value.atomEqual, resolveAtom]
  | string t =>
    cases a with
    | pair f r => exact absurd rfl (ha f r)
    | symbol s =>
      simp only [alphaAtom, Bool.false_eq_true, false_iff]
      intro h
      have := hname _ _ _ h
      simp [resolveAtom, Term.isName] at this
    | _ => simp [alphaAtom, Value.atomEqual, resolveAtom]
  | nil =>
    cases a with
    | pair f r => exact absurd rfl (ha f r)
    | symbol s =>
      simp only [alphaAtom, Bool.false_eq_true, false_iff]
      intro h
      have := hname _ _ _ h
      simp [resolveAtom, Term.isName] at this
    | _ => simp [alphaAtom, Value.atomEqual, resolveAtom]

theorem special_true (names : List Text) (s : String) (f : Value) :
    special true names s f = true ↔ f = .sym s := by
  simp [special]

/-- A name that stands where the template calls a variable does not head a special form: the
operands do not have the shape of one. -/
theorem plainCall_shapes {loose loose' : Bool} {A B : List Text} {s : String} {f' r r' : Value}
    (hf : resolve loose A (.sym s) = resolve loose' B f') (hs : f' ≠ .sym s)
    (hr : resolveItems loose A r = resolveItems loose' B r') (hcall : plainCall B f' r' = true) :
    letShape r = false ∧ lambdaShape r = false := by
  obtain ⟨t, rfl⟩ : ∃ t, f' = .symbol t := by
    rw [← isName_resolve, ← hf]
    exact isName_resolve.2 ⟨_, rfl⟩
  have hbound : B.contains t = true := by
    by_contra hn
    have hnone : alphaIndex B t = none := by
      simp only [alphaIndex, List.findIdx?_eq_none_iff, beq_eq_false_iff_ne]
      rintro x hx rfl
      exact hn (by simpa using hx)
    simp only [resolve, resolveAtom, Value.sym, hnone] at hf
    split at hf
    · cases hf
    · cases hf
      exact hs rfl
  have hl : letShape r = letShape r' := by
    rw [← letShape_resolveItems, hr, letShape_resolveItems]
  have hm : lambdaShape r = lambdaShape r' := by
    rw [← lambdaShape_resolveItems, hr, lambdaShape_resolveItems]
  rw [hl, hm]
  rw [plainCall, hbound] at hcall
  simpa using hcall

theorem pinned_cases {names : List Text} {f r : Value} (h : pinned names (.pair f r) = true) :
    (f = .sym "let" ∧ ∃ x v body, r = .pair (.symbol x) (.pair v (.pair body .nil)) ∧
      pinned names v = true ∧ plainBinder names x = true ∧ pinned (x :: names) body = true) ∨
    (f = .sym "lambda" ∧ ∃ x body, r = .pair (.symbol x) (.pair body .nil) ∧
      plainBinder names x = true ∧ pinned (x :: names) body = true) ∨
    (f ≠ .sym "let" ∧ f ≠ .sym "lambda" ∧ pinned names f = true ∧ plainCall names f r = true ∧
      pinnedItems names r = true) := by
  rw [pinned.eq_def] at h
  dsimp only at h
  split_ifs at h with hl hm
  · split at h
    · next x v body =>
      simp only [Bool.and_eq_true] at h
      exact .inl ⟨hl, x, v, body, rfl, h.1.1, h.1.2, h.2⟩
    · cases h
  · split at h
    · next x body =>
      simp only [Bool.and_eq_true] at h
      exact .inr (.inl ⟨hm, x, body, rfl, h.1, h.2⟩)
    · cases h
  · simp only [Bool.and_eq_true] at h
    exact .inr (.inr ⟨hl, hm, h.1.1, h.1.2, h.2⟩)

theorem alphaEqual_let (scope : AlphaScope) (x x' : Text) (v v' body body' : Value) :
    alphaEqual scope
        (.pair (.sym "let") (.pair (.symbol x) (.pair v (.pair body .nil))))
        (.pair (.sym "let") (.pair (.symbol x') (.pair v' (.pair body' .nil)))) =
      (alphaEqual scope v v' && scope.length != alphaBinders &&
        alphaEqual ((x, x') :: scope) body body') := by
  simp [alphaEqual]

theorem alphaEqual_let_shapeless (scope : AlphaScope) {r r' : Value} (h : letShape r = false) :
    alphaEqual scope (.pair (.sym "let") r) (.pair (.sym "let") r') = false := by
  rw [alphaEqual.eq_def]
  dsimp only
  rw [if_pos ⟨rfl, rfl⟩]
  split
  · next x v body rest x' v' body' rest' =>
    cases rest with
    | nil => simp [letShape] at h
    | _ => simp
  · rfl

theorem alphaEqual_lambda (scope : AlphaScope) (x x' : Text) (body body' : Value) :
    alphaEqual scope (.pair (.sym "lambda") (.pair (.symbol x) (.pair body .nil)))
        (.pair (.sym "lambda") (.pair (.symbol x') (.pair body' .nil))) =
      (scope.length != alphaBinders && alphaEqual ((x, x') :: scope) body body') := by
  simp [alphaEqual, sym_let_ne_lambda.symm]

theorem alphaEqual_lambda_shapeless (scope : AlphaScope) {r r' : Value} (h : lambdaShape r = false) :
    alphaEqual scope (.pair (.sym "lambda") r) (.pair (.sym "lambda") r') = false := by
  rw [alphaEqual.eq_def]
  dsimp only
  rw [if_neg fun h => sym_let_ne_lambda h.1.symm, if_pos ⟨rfl, rfl⟩]
  split
  · next x body rest x' body' rest' =>
    cases rest with
    | nil => simp [lambdaShape] at h
    | _ => simp
  · rfl

theorem alphaEqual_list (scope : AlphaScope) {f f' : Value} (r r' : Value)
    (hl : ¬(f = .sym "let" ∧ f' = .sym "let")) (hm : ¬(f = .sym "lambda" ∧ f' = .sym "lambda")) :
    alphaEqual scope (.pair f r) (.pair f' r') =
      (alphaEqual scope f f' && alphaItems scope r r') := by
  rw [alphaEqual.eq_def]
  dsimp only
  rw [if_neg hl, if_neg hm]

/-- A free name of the template is matched by itself only. -/
theorem alphaEqual_free {scope : AlphaScope} {f : Value} {s : String}
    (hs : ascii s ∉ scope.map Prod.snd) (h : alphaEqual scope f (.sym s) = true) : f = .sym s := by
  have hnone : alphaIndex (scope.map Prod.snd) (ascii s) = none := by
    simp only [alphaIndex, List.findIdx?_eq_none_iff, beq_eq_false_iff_ne]
    rintro x hx rfl
    exact hs hx
  cases f with
  | symbol t =>
    simp only [alphaEqual, Value.sym, alphaAtom, hnone, Bool.and_eq_true, beq_iff_eq] at h
    simpa [h.1, Value.sym] using h.2
  | _ => simp [alphaEqual, Value.sym, alphaAtom] at h

def PlainNames (names : List Text) : Prop := ascii "let" ∉ names ∧ ascii "lambda" ∉ names

theorem PlainNames.cons {names : List Text} {x : Text} (h : PlainNames names)
    (hx : plainBinder names x = true) : PlainNames (x :: names) := by
  simp only [plainBinder, Bool.and_eq_true, bne_iff_ne] at hx
  simp only [PlainNames, List.mem_cons, not_or]
  exact ⟨⟨hx.1.1.symm, h.1⟩, hx.1.2.symm, h.2⟩

theorem scope_length_ne {scope : AlphaScope} {x : Text}
    (hx : plainBinder (scope.map Prod.snd) x = true) : (scope.length != alphaBinders) = true := by
  simp only [plainBinder, List.length_map, Bool.and_eq_true, decide_eq_true_eq] at hx
  simp only [bne_iff_ne]
  omega

theorem alphaAtom_pair (scope : AlphaScope) (f r : Value) {b : Value} (hb : ∀ f r, b ≠ .pair f r) :
    alphaAtom scope (.pair f r) b = false := by
  cases b with
  | pair f' r' => exact absurd rfl (hb f' r')
  | _ => rfl

theorem alphaEqual_atom (scope : AlphaScope) (a : Value) {b : Value} (hb : ∀ f r, b ≠ .pair f r)
    (hp : pinnedAtom b = true) :
    alphaEqual scope a b = true ↔
      resolve true (scope.map Prod.fst) a = resolveAtom true (scope.map Prod.snd) b := by
  cases a with
  | pair f r =>
    have hwalk : alphaEqual scope (.pair f r) b = alphaAtom scope (.pair f r) b := by
      cases b with
      | pair f' r' => exact absurd rfl (hb f' r')
      | _ => rfl
    rw [hwalk, alphaAtom_pair scope f r hb]
    simp only [Bool.false_eq_true, false_iff]
    exact resolve_pair_ne_atom
  | _ => exact alphaAtom_iff scope (by simp) hb hp

theorem alphaItems_atom (scope : AlphaScope) (a : Value) {b : Value} (hb : ∀ f r, b ≠ .pair f r)
    (hp : pinnedAtom b = true) :
    alphaItems scope a b = true ↔
      resolveItems true (scope.map Prod.fst) a = resolveAtom true (scope.map Prod.snd) b := by
  cases a with
  | pair f r =>
    have hwalk : alphaItems scope (.pair f r) b = alphaAtom scope (.pair f r) b := by
      cases b with
      | pair f' r' => exact absurd rfl (hb f' r')
      | _ => rfl
    rw [hwalk, alphaAtom_pair scope f r hb]
    simp only [Bool.false_eq_true, false_iff, resolveItems]
    exact (resolveAtom_ne _ _).1.symm
  | _ => exact alphaAtom_iff scope (by simp) hb hp

mutual

theorem alphaEqual_iff (scope : AlphaScope) (hplain : PlainNames (scope.map Prod.snd)) (a : Value) :
    ∀ b, pinned (scope.map Prod.snd) b = true →
      (alphaEqual scope a b = true ↔
        resolve true (scope.map Prod.fst) a = resolve true (scope.map Prod.snd) b)
  | .pair f' r', hb => by
    cases a with
    | pair f r =>
      rcases pinned_cases hb with ⟨rfl, x', v', body', rfl, hv, hx, hbody⟩ |
        ⟨rfl, x', body', rfl, hx, hbody⟩ | ⟨hl, hm, hf, hcall, hr⟩
      · rw [resolve_let x' v' body' (by simp [special])]
        by_cases hf : f = .sym "let"
        · subst hf
          by_cases hshape : letShape r = true
          · obtain ⟨x, v, body, rfl⟩ := letShape_iff.1 hshape
            rw [alphaEqual_let, resolve_let x v body (by simp [special]), Bool.and_eq_true,
              Bool.and_eq_true, alphaEqual_iff scope hplain v v' hv,
              alphaEqual_iff ((x, x') :: scope) (hplain.cons hx) body body' hbody]
            simp [scope_length_ne hx]
          · rw [Bool.not_eq_true] at hshape
            rw [alphaEqual_let_shapeless scope hshape,
              resolve_list (by simp [hshape]) (by simp [special, sym_let_ne_lambda])]
            simp
        · rw [alphaEqual_list scope r _ (fun h => hf h.1) fun h => sym_let_ne_lambda h.2]
          constructor
          · intro h
            rw [Bool.and_eq_true] at h
            exact absurd (alphaEqual_free hplain.1 h.1) hf
          · intro h
            rcases list_cases true (scope.map Prod.fst) f r with ⟨h', -⟩ | ⟨h', x, body, rfl⟩ | h'
            · exact absurd ((special_true _ _ _).1 h') hf
            · rw [resolve_lambda x body h'] at h
              cases h
            · rw [resolve_list h'.1 h'.2] at h
              cases h
      · rw [resolve_lambda x' body' (by simp [special])]
        by_cases hf : f = .sym "lambda"
        · subst hf
          by_cases hshape : lambdaShape r = true
          · obtain ⟨x, body, rfl⟩ := lambdaShape_iff.1 hshape
            rw [alphaEqual_lambda, resolve_lambda x body (by simp [special]), Bool.and_eq_true,
              alphaEqual_iff ((x, x') :: scope) (hplain.cons hx) body body' hbody]
            simp [scope_length_ne hx]
          · rw [Bool.not_eq_true] at hshape
            rw [alphaEqual_lambda_shapeless scope hshape,
              resolve_list (by simp [special, sym_let_ne_lambda.symm]) (by simp [hshape])]
            simp
        · rw [alphaEqual_list scope r _ (fun h => sym_let_ne_lambda h.2.symm) fun h => hf h.1]
          constructor
          · intro h
            rw [Bool.and_eq_true] at h
            exact absurd (alphaEqual_free hplain.2 h.1) hf
          · intro h
            rcases list_cases true (scope.map Prod.fst) f r with ⟨h', x, v, body, rfl⟩ | ⟨h', -⟩ | h'
            · rw [resolve_let x v body h'] at h
              cases h
            · exact absurd ((special_true _ _ _).1 h') hf
            · rw [resolve_list h'.1 h'.2] at h
              cases h
      · have hf' := alphaEqual_iff scope hplain f f' hf
        have hr' := alphaItems_iff scope hplain r r' hr
        rw [alphaEqual_list scope r r' (fun h => hl h.2) fun h => hm h.2, Bool.and_eq_true, hf', hr',
          resolve_list (f := f') (by simp [special, hl]) (by simp [special, hm])]
        rcases list_cases true (scope.map Prod.fst) f r with ⟨h, x, v, body, rfl⟩ |
          ⟨h, x, body, rfl⟩ | ⟨h, h'⟩
        · rw [resolve_let x v body h]
          obtain rfl := (special_true _ _ _).1 h
          simp only [reduceCtorEq, iff_false]
          rintro ⟨hf, hr⟩
          exact absurd (plainCall_shapes hf hl hr hcall).1 (by simp [letShape])
        · rw [resolve_lambda x body h]
          obtain rfl := (special_true _ _ _).1 h
          simp only [reduceCtorEq, iff_false]
          rintro ⟨hf, hr⟩
          exact absurd (plainCall_shapes hf hm hr hcall).2 (by simp [lambdaShape])
        · rw [resolve_list h h', Term.pair.injEq]
    | symbol s =>
      simp only [alphaEqual, alphaAtom, Bool.false_eq_true, false_iff]
      exact fun h => resolve_pair_ne_atom h.symm
    | _ =>
      simp only [alphaEqual, alphaAtom, Bool.false_eq_true, false_iff]
      exact fun h => resolve_pair_ne_atom h.symm
  | .nil, hb => alphaEqual_atom scope a (by simp) hb
  | .number n, hb => alphaEqual_atom scope a (by simp) hb
  | .string s, hb => alphaEqual_atom scope a (by simp) hb
  | .symbol s, hb => alphaEqual_atom scope a (by simp) hb
  | .other type address, hb => alphaEqual_atom scope a (by simp) hb

theorem alphaItems_iff (scope : AlphaScope) (hplain : PlainNames (scope.map Prod.snd)) (a : Value) :
    ∀ b, pinnedItems (scope.map Prod.snd) b = true →
      (alphaItems scope a b = true ↔
        resolveItems true (scope.map Prod.fst) a = resolveItems true (scope.map Prod.snd) b)
  | .pair h' t', hb => by
    cases a with
    | pair h t =>
      simp only [pinnedItems, Bool.and_eq_true] at hb
      simp only [alphaItems, resolveItems, Bool.and_eq_true, Term.pair.injEq,
        alphaEqual_iff scope hplain h h' hb.1, alphaItems_iff scope hplain t t' hb.2]
    | symbol s =>
      simp only [alphaItems, alphaAtom, resolveItems, Bool.false_eq_true, false_iff]
      exact (resolveAtom_ne _ _).1
    | _ => simp [alphaItems, alphaAtom, resolveItems, resolveAtom]
  | .nil, hb => alphaItems_atom scope a (by simp) hb
  | .number n, hb => alphaItems_atom scope a (by simp) hb
  | .string s, hb => alphaItems_atom scope a (by simp) hb
  | .symbol s, hb => alphaItems_atom scope a (by simp) hb
  | .other type address, hb => alphaItems_atom scope a (by simp) hb

end

/-! ### Where the readings agree -/

def unambiguousAtom : Value → Bool
  | .number n => n.canonical == n
  | _ => true

mutual

/-- No special form stands under a binder of its name, and no double is an integer. -/
def unambiguous (names : List Text) : Value → Bool
  | .pair f r =>
    match special true names "let" f, special true names "lambda" f, r with
    | true, _, .pair (.symbol x) (.pair v (.pair body .nil)) =>
      !names.contains (ascii "let") && unambiguous names v && unambiguous (x :: names) body
    | _, true, .pair (.symbol x) (.pair body .nil) =>
      !names.contains (ascii "lambda") && unambiguous (x :: names) body
    | _, _, r => unambiguous names f && unambiguousItems names r
  | v => unambiguousAtom v

def unambiguousItems (names : List Text) : Value → Bool
  | .pair h t => unambiguous names h && unambiguousItems names t
  | v => unambiguousAtom v

end

theorem special_false (names : List Text) (s : String) (f : Value) :
    special false names s f = true ↔ f = .sym s ∧ ascii s ∉ names := by
  simp [special]

theorem resolveAtom_agree (names : List Text) (v : Value) :
    resolveAtom false names v = resolveAtom true names v ↔ unambiguousAtom v = true := by
  cases v with
  | number n =>
    simp only [resolveAtom, unambiguousAtom, Bool.false_eq_true, if_false, if_true,
      Term.number.injEq, beq_iff_eq]
    exact eq_comm
  | _ => simp [resolveAtom, unambiguousAtom]

theorem unambiguous_list {names : List Text} {f r : Value}
    (hl : (special true names "let" f && letShape r) = false)
    (hm : (special true names "lambda" f && lambdaShape r) = false) :
    unambiguous names (.pair f r) = (unambiguous names f && unambiguousItems names r) := by
  rw [unambiguous]
  · rintro x v body h rfl
    simp [h, letShape] at hl
  · rintro x body h rfl
    simp [h, lambdaShape] at hm

theorem special_loosen {names : List Text} {s : String} {f : Value} {shape : Bool}
    (h : (special true names s f && shape) = false) : (special false names s f && shape) = false := by
  simp only [special, Bool.true_or, Bool.and_true] at h
  simp only [special]
  cases h' : (f == Value.sym s) <;> simp_all

mutual

theorem resolve_agree (names : List Text) :
    ∀ v, resolve false names v = resolve true names v ↔ unambiguous names v = true
  | .pair f r => by
    rcases list_cases true names f r with ⟨h, x, v, body, rfl⟩ | ⟨h, x, body, rfl⟩ | ⟨hl, hm⟩
    · obtain rfl := (special_true _ _ _).1 h
      rw [resolve_let x v body h]
      by_cases hmem : ascii "let" ∈ names
      · rw [resolve_list (by simp [special, hmem]) (by simp [special, sym_let_ne_lambda])]
        simp [unambiguous, h, hmem]
      · rw [resolve_let x v body ((special_false _ _ _).2 ⟨rfl, hmem⟩), Term.letForm.injEq,
          resolve_agree names v, resolve_agree (x :: names) body]
        simp [unambiguous, h, hmem]
    · obtain rfl := (special_true _ _ _).1 h
      rw [resolve_lambda x body h]
      by_cases hmem : ascii "lambda" ∈ names
      · rw [resolve_list (by simp [special, sym_let_ne_lambda.symm]) (by simp [special, hmem])]
        simp [unambiguous, h, hmem]
      · rw [resolve_lambda x body ((special_false _ _ _).2 ⟨rfl, hmem⟩), Term.lambda.injEq,
          resolve_agree (x :: names) body]
        simp [unambiguous, h, hmem]
    · rw [resolve_list hl hm, resolve_list (special_loosen hl) (special_loosen hm),
        unambiguous_list hl hm, Term.pair.injEq, resolve_agree names f, resolveItems_agree names r,
        Bool.and_eq_true]
  | .nil => resolveAtom_agree names _
  | .number _ => resolveAtom_agree names _
  | .string _ => resolveAtom_agree names _
  | .symbol _ => resolveAtom_agree names _
  | .other _ _ => resolveAtom_agree names _

theorem resolveItems_agree (names : List Text) :
    ∀ v, resolveItems false names v = resolveItems true names v ↔ unambiguousItems names v = true
  | .pair h t => by
    simp only [resolveItems, unambiguousItems, Term.pair.injEq, Bool.and_eq_true,
      resolve_agree names h, resolveItems_agree names t]
  | .nil => resolveAtom_agree names _
  | .number _ => resolveAtom_agree names _
  | .string _ => resolveAtom_agree names _
  | .symbol _ => resolveAtom_agree names _
  | .other _ _ => resolveAtom_agree names _

end

theorem pinnedAtom_unambiguous {v : Value} (h : pinnedAtom v = true) : unambiguousAtom v = true := by
  cases v with
  | number n =>
    cases n with
    | exact k => simp [unambiguousAtom, Number.canonical]
    | real d => cases h
  | _ => rfl

mutual

theorem pinned_unambiguous {names : List Text} (hplain : PlainNames names) :
    ∀ {v}, pinned names v = true → unambiguous names v = true
  | .pair f r, h => by
    rcases pinned_cases h with ⟨rfl, x, v, body, rfl, hv, hx, hbody⟩ |
      ⟨rfl, x, body, rfl, hx, hbody⟩ | ⟨hl, hm, hf, -, hr⟩
    · simp [unambiguous, special, hplain.1, pinned_unambiguous hplain hv,
        pinned_unambiguous (hplain.cons hx) hbody]
    · simp [unambiguous, special, hplain.2, pinned_unambiguous (hplain.cons hx) hbody]
    · rw [unambiguous_list (by simp [special, hl]) (by simp [special, hm]),
        pinned_unambiguous hplain hf, pinnedItems_unambiguous hplain hr]
      rfl
  | .nil, h => pinnedAtom_unambiguous h
  | .number _, h => pinnedAtom_unambiguous h
  | .string _, h => pinnedAtom_unambiguous h
  | .symbol _, h => pinnedAtom_unambiguous h
  | .other _ _, h => pinnedAtom_unambiguous h

theorem pinnedItems_unambiguous {names : List Text} (hplain : PlainNames names) :
    ∀ {v}, pinnedItems names v = true → unambiguousItems names v = true
  | .pair h t, hv => by
    simp only [pinnedItems, Bool.and_eq_true] at hv
    simp [unambiguousItems, pinned_unambiguous hplain hv.1, pinnedItems_unambiguous hplain hv.2]
  | .nil, h => pinnedAtom_unambiguous h
  | .number _, h => pinnedAtom_unambiguous h
  | .string _, h => pinnedAtom_unambiguous h
  | .symbol _, h => pinnedAtom_unambiguous h
  | .other _ _, h => pinnedAtom_unambiguous h

end

theorem resolveAtom_loosen {A B : List Text} {a b : Value} (hp : pinnedAtom b = true)
    (h : resolveAtom false A a = resolveAtom true B b) :
    resolveAtom true A a = resolveAtom true B b := by
  cases a with
  | number n =>
    cases b with
    | number m =>
      cases m with
      | exact k =>
        simp only [resolveAtom, Bool.false_eq_true, if_false, if_true, Term.number.injEq,
          Number.canonical] at h ⊢
        subst h
        rfl
      | real d => cases hp
    | symbol s =>
      cases hi : alphaIndex B s <;> simp [resolveAtom, hi] at h
    | _ => simp [resolveAtom] at h
  | _ => exact h

theorem resolve_atom_loosen {A B : List Text} (a : Value) {b : Value} (hp : pinnedAtom b = true)
    (h : resolve false A a = resolveAtom true B b) : resolve true A a = resolveAtom true B b := by
  cases a with
  | pair f r => exact absurd h resolve_pair_ne_atom
  | _ => exact resolveAtom_loosen hp h

theorem resolveItems_atom_loosen {A B : List Text} (a : Value) {b : Value}
    (hp : pinnedAtom b = true) (h : resolveItems false A a = resolveAtom true B b) :
    resolveItems true A a = resolveAtom true B b := by
  cases a with
  | pair f r => exact absurd h.symm (resolveAtom_ne _ _).1
  | _ => exact resolveAtom_loosen hp h

mutual

/-- What equals a pinned definition in the strict reading equals it in the loose one. -/
theorem resolve_loosen {A B : List Text} (hplain : PlainNames B) (a : Value) :
    ∀ b, pinned B b = true → resolve false A a = resolve true B b →
      resolve true A a = resolve true B b
  | .pair f' r', hb, h => by
    cases a with
    | pair f r =>
      rcases pinned_cases hb with ⟨rfl, x', v', body', rfl, hv, hx, hbody⟩ |
        ⟨rfl, x', body', rfl, hx, hbody⟩ | ⟨hl, hm, hf, hcall, hr⟩
      · rw [resolve_let x' v' body' (by simp [special])] at h ⊢
        rcases list_cases false A f r with ⟨hs, x, v, body, rfl⟩ | ⟨hs, x, body, rfl⟩ | ⟨hs, hs'⟩
        · obtain ⟨rfl, -⟩ := (special_false _ _ _).1 hs
          rw [resolve_let x v body hs, Term.letForm.injEq] at h
          rw [resolve_let x v body (by simp [special]), resolve_loosen hplain v v' hv h.1,
            resolve_loosen (hplain.cons hx) body body' hbody h.2]
        · rw [resolve_lambda x body hs] at h
          cases h
        · rw [resolve_list hs hs'] at h
          cases h
      · rw [resolve_lambda x' body' (by simp [special])] at h ⊢
        rcases list_cases false A f r with ⟨hs, x, v, body, rfl⟩ | ⟨hs, x, body, rfl⟩ | ⟨hs, hs'⟩
        · rw [resolve_let x v body hs] at h
          cases h
        · obtain ⟨rfl, -⟩ := (special_false _ _ _).1 hs
          rw [resolve_lambda x body hs, Term.lambda.injEq] at h
          rw [resolve_lambda x body (by simp [special]),
            resolve_loosen (hplain.cons hx) body body' hbody h]
        · rw [resolve_list hs hs'] at h
          cases h
      · rw [resolve_list (f := f') (by simp [special, hl]) (by simp [special, hm])] at h ⊢
        rcases list_cases false A f r with ⟨hs, x, v, body, rfl⟩ | ⟨hs, x, body, rfl⟩ | ⟨hs, hs'⟩
        · rw [resolve_let x v body hs] at h
          cases h
        · rw [resolve_lambda x body hs] at h
          cases h
        · rw [resolve_list hs hs', Term.pair.injEq] at h
          have hf' := resolve_loosen hplain f f' hf h.1
          have hr' := resolveItems_loosen hplain r r' hr h.2
          -- a bound head that the loose reading would take for a special form
          rcases list_cases true A f r with ⟨ht, x, v, body, rfl⟩ | ⟨ht, x, body, rfl⟩ | ⟨ht, ht'⟩
          · obtain rfl := (special_true _ _ _).1 ht
            exact absurd (plainCall_shapes hf' hl hr' hcall).1 (by simp [letShape])
          · obtain rfl := (special_true _ _ _).1 ht
            exact absurd (plainCall_shapes hf' hm hr' hcall).2 (by simp [lambdaShape])
          · rw [resolve_list ht ht', hf', hr']
    | _ => exact absurd h.symm resolve_pair_ne_atom
  | .nil, hb, h => resolve_atom_loosen a hb h
  | .number _, hb, h => resolve_atom_loosen a hb h
  | .string _, hb, h => resolve_atom_loosen a hb h
  | .symbol _, hb, h => resolve_atom_loosen a hb h
  | .other _ _, hb, h => resolve_atom_loosen a hb h

theorem resolveItems_loosen {A B : List Text} (hplain : PlainNames B) (a : Value) :
    ∀ b, pinnedItems B b = true → resolveItems false A a = resolveItems true B b →
      resolveItems true A a = resolveItems true B b
  | .pair h' t', hb, h => by
    simp only [pinnedItems, Bool.and_eq_true] at hb
    obtain ⟨f, r, rfl, hf, hr⟩ := resolveItems_eq_pair.1 h
    rw [resolveItems, resolveItems, resolve_loosen hplain f h' hb.1 hf,
      resolveItems_loosen hplain r t' hb.2 hr]
  | .nil, hb, h => resolveItems_atom_loosen a hb h
  | .number _, hb, h => resolveItems_atom_loosen a hb h
  | .string _, hb, h => resolveItems_atom_loosen a hb h
  | .symbol _, hb, h => resolveItems_atom_loosen a hb h
  | .other _ _, hb, h => resolveItems_atom_loosen a hb h

end

/-- **The strict reading.** A value equals a pinned one in the strict reading if it does in the loose
reading and the readings agree on it. -/
theorem resolve_strict {A B : List Text} (hplain : PlainNames B) {a b : Value}
    (hb : pinned B b = true) :
    resolve false A a = resolve false B b ↔
      resolve true A a = resolve true B b ∧ unambiguous A a = true := by
  rw [(resolve_agree B b).2 (pinned_unambiguous hplain hb), ← resolve_agree]
  constructor
  · intro h
    have h' := resolve_loosen hplain a b hb h
    exact ⟨h', h.trans h'.symm⟩
  · rintro ⟨h, h'⟩
    exact h'.trans h

/-! ### Definitions -/

/-- A definition, `(defun name params body)` with the parameter list as a value. -/
structure Definition where
  name : Text
  params : Value
  body : Value
  deriving DecidableEq

def Definition.form (d : Definition) : Value :=
  .ofList [.sym "defun", .symbol d.name, d.params, d.body]

def Definition.nameless (loose : Bool) (d : Definition) : Option (ℕ × Term) :=
  Emit.nameless loose d.params d.body

/-- Pinned parameters are plain and fit in the scope. -/
def Definition.pinned (d : Definition) : Bool :=
  match paramNames d.params [] with
  | some names =>
    !names.contains (ascii "let") && !names.contains (ascii "lambda") &&
      decide (names.length ≤ alphaBinders) && Emit.pinned names d.body
  | none => false

/-- The readings agree on the body, under the parameters. -/
def Definition.unambiguous (d : Definition) : Bool :=
  match paramNames d.params [] with
  | some names => Emit.unambiguous names d.body
  | none => true

theorem Definition.pinned_iff {d : Definition} (h : d.pinned = true) :
    ∃ names, paramNames d.params [] = some names ∧ PlainNames names ∧
      names.length ≤ alphaBinders ∧ Emit.pinned names d.body = true := by
  unfold Definition.pinned at h
  split at h
  · next names hnames =>
    simp only [Bool.and_eq_true, Bool.not_eq_true', decide_eq_true_eq] at h
    refine ⟨names, hnames, ⟨?_, ?_⟩, h.1.2, h.2⟩
    · simpa using h.1.1.1
    · simpa using h.1.1.2
  · cases h

theorem paramNames_length {params : Value} (names : List Text) {names' : List Text}
    (h : paramNames params names = some names') : names.length ≤ names'.length := by
  fun_induction paramNames params names with
  | case1 names =>
    cases h
    exact le_rfl
  | case2 names x params ih =>
    have := ih h
    rw [List.length_cons] at this
    omega
  | case3 => cases h

theorem scope_ext {scope scope' : AlphaScope} (hf : scope.map Prod.fst = scope'.map Prod.fst)
    (hs : scope.map Prod.snd = scope'.map Prod.snd) : scope = scope' := by
  rw [← List.zip_unzip scope, ← List.zip_unzip scope', List.unzip_eq_map, List.unzip_eq_map, hf, hs]

/-- The scope of two parameter lists of the same length holds the names of both. -/
theorem paramScope_eq_some {B : List Text} (hlen : B.length ≤ alphaBinders) (scope' : AlphaScope)
    (tparams : Value) : ∀ (params : Value) (scope : AlphaScope),
      paramNames tparams (scope.map Prod.snd) = some B →
      (paramScope params tparams scope = some scope' ↔
        paramNames params (scope.map Prod.fst) = some (scope'.map Prod.fst) ∧
          scope'.map Prod.snd = B) := by
  induction tparams with
  | nil =>
    intro params scope hB
    simp only [paramNames, Option.some.injEq] at hB
    subst hB
    cases params with
    | nil =>
      simp only [paramScope, paramNames, Option.some.injEq]
      constructor
      · rintro rfl
        exact ⟨rfl, rfl⟩
      · rintro ⟨hf, hs⟩
        exact scope_ext hf hs.symm
    | pair h t =>
      cases h with
      | symbol x =>
        simp only [paramScope, paramNames, reduceCtorEq, false_iff]
        rintro ⟨hf, hs⟩
        have hf := paramNames_length (x :: scope.map Prod.fst) hf
        have hs := congrArg List.length hs
        simp only [List.length_cons, List.length_map] at hf hs
        omega
      | _ => simp [paramScope, paramNames]
    | _ => simp [paramScope, paramNames]
  | pair h t _ ih =>
    intro params scope hB
    cases h with
    | symbol y =>
      have hroom := paramNames_length (y :: scope.map Prod.snd) hB
      simp only [List.length_cons, List.length_map] at hroom
      cases params with
      | nil =>
        simp only [paramScope, paramNames, reduceCtorEq, Option.some.injEq, false_iff]
        rintro ⟨hf, hs⟩
        have hf := congrArg List.length hf
        have hs := congrArg List.length hs
        simp only [List.length_map] at hf hs
        omega
      | pair h t =>
        cases h with
        | symbol x =>
          rw [paramScope, if_neg (by omega)]
          exact ih t ((x, y) :: scope) hB
        | _ => simp [paramScope, paramNames]
      | _ => simp [paramScope, paramNames]
    | _ => simp [paramNames] at hB
  | _ =>
    intro params scope hB
    simp [paramNames] at hB

/-- **The walk compares the loose readings.** -/
theorem kernelTemplate_iff {d : Definition} (hd : d.pinned = true) (params body : Value) :
    kernelTemplate params body d.form = true ↔
      nameless true params body = d.nameless true := by
  obtain ⟨B, hB, hplain, hlen, hbody⟩ := Definition.pinned_iff hd
  have hscope := fun scope' => paramScope_eq_some hlen scope' d.params params [] hB
  have hform : kernelTemplate params body d.form =
      match paramScope params d.params [] with
      | some scope => alphaEqual scope body d.body
      | none => false := rfl
  rw [hform, Definition.nameless, nameless, nameless, hB]
  cases hsc : paramScope params d.params [] with
  | some scope =>
    obtain ⟨hA, rfl⟩ := (hscope scope).1 hsc
    simp only [List.map_nil] at hA
    rw [hA]
    simpa using alphaEqual_iff scope hplain body d.body hbody
  | none =>
    simp only [Bool.false_eq_true, false_iff]
    cases hA : paramNames params [] with
    | none => simp
    | some A =>
      intro heq
      simp only [Option.map_some, Option.some.injEq, Prod.mk.injEq] at heq
      have hzip := (hscope (A.zip B)).2 ⟨by simpa [List.map_fst_zip (Nat.le_of_eq heq.1)] using hA,
        List.map_snd_zip (Nat.le_of_eq heq.1.symm)⟩
      rw [hsc] at hzip
      cases hzip

/-- Definitions with equal strict readings. -/
theorem nameless_strict {d : Definition} (hd : d.pinned = true) (e : Definition) :
    e.nameless false = d.nameless false ↔
      e.nameless true = d.nameless true ∧ e.unambiguous = true := by
  obtain ⟨B, hB, hplain, -, hbody⟩ := Definition.pinned_iff hd
  simp only [Definition.nameless, nameless, hB, Definition.unambiguous]
  cases paramNames e.params [] with
  | none => simp
  | some A =>
    simp only [Option.map_some, Option.some.injEq, Prod.mk.injEq, resolve_strict hplain hbody]
    tauto

end ShenRc.Emit
