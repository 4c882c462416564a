import ShenRc.Constant.Delivers
import ShenRc.Constant.Executes

/-! # Tables against straight-line code

Both do what the tree means (`rcConstantData_eval`, `runStraight_eval`) and differ only in how a
constant is had. A module for one expression keeps its strings and numbers outside the C text, while a
table writes them there: a string with a trigraph and the sign of a NaN do not survive that. So in such
a module the table of a tree does what straight-line code does just if the tree has neither
(`replays_iff`); in any other module it always does. -/

namespace ShenRc.Constant

open Numeral KL StringLiteral

/-! ### Both against the tree -/

/-- **What `rc_constant_data` does with the table of a tree.** Every reference that is not the result
has been released or given to a call, once. -/
theorem rcConstantData_eval {O W : Type} {H : Host O W} {bound : Text → Bool} {raw room : Bool}
    {x : Value} {n : ℕ} {p p' table : List Text} {c : ConstTable}
    (hn : constantNodes bound raw x = some n) (hc : constantData raw x p = some (p', c))
    (htable : p' <+: table) (hroom : c.depth ≤ 64 ∨ room = true) (w : W) :
    ∃ v w' l, rcConstantData H (tableSymbols table c) c room w = some (v, w', l) ∧
      eval H (writtenAtom H) raw x w = (v.map Prod.snd, w') ∧
      l.Accounts (v.map Prod.fst).toList := by
  obtain ⟨⟨p1, c1⟩, hnode, hsp⟩ := Option.bind_eq_some_iff.mp hc
  split_ifs at hsp with hone
  cases hsp
  have hm : (⟨w, {}, []⟩ : Machine O W).At {} := ⟨rfl, .empty⟩
  have hall := (constNode_delivers (H := H) (F := c) bound raw x).1 hn hnode (.refl c) htable hm
  have hdrop : c.code.drop c.code.length = [] := List.drop_length
  have hrun : rcConstantData H (tableSymbols table c) c room w =
      runFrom H table c {} ⟨w, {}, []⟩ := by
    rw [rcConstantData, if_pos hroom]
    rfl
  rcases heval : eval H (writtenAtom H) raw x w with ⟨_ | v, w'⟩
  · obtain ⟨l, hl, hfail⟩ := hall.failure heval
    exact ⟨none, w', l, hrun.trans hfail, rfl, hl⟩
  · obtain ⟨vs, l, hvs, hat, hend⟩ := hall.value heval
    obtain ⟨r, rfl⟩ := map_snd_singleton hvs
    refine ⟨some (r, v), w', l, ?_, rfl, hat.ledger⟩
    rw [hrun, hend, runFrom, hdrop]
    rfl

/-- **What straight-line code does.** -/
theorem runStraight_eval {O W : Type} {H : Host O W} {bound : Text → Bool} {entry raw : Bool}
    {x : Value} {n : ℕ} (hn : constantNodes bound raw x = some n) (q : List Text) :
    ∃ code r e, straightLine entry H.immediate raw x q = some (code, r, e) ∧
      ∀ {table : List Text}, e.symbols <+: table → ∀ (defs : Text → List ModuleDef) (w : W),
        runStraight H table defs code r w = some (eval H (lineAtom H entry) raw x w) := by
  have hrun : ∀ {code : List Stmt} {r : ℕ} {table : List Text} {defs : Text → List ModuleDef} {w : W},
      Executes H table defs code (eval H (lineAtom H entry) raw x) (fun _ => none)
        (fun v f => Frame.Keeps 0 (fun _ => none) f ∧ f r = some v) w →
      runStraight H table defs code r w = some (eval H (lineAtom H entry) raw x w) := by
    intro code r table defs w h
    rcases heval : eval H (lineAtom H entry) raw x w with ⟨_ | v, w'⟩
    · have := h.failure heval []
      rw [List.append_nil] at this
      rw [runStraight, this]
      rfl
    · obtain ⟨f, hf, hexec⟩ := h.value heval
      have := hexec []
      rw [List.append_nil] at this
      rw [runStraight, this, exec, Option.map_some, Option.bind_some, hf.2]
  cases raw with
  | true =>
    obtain ⟨code, r, e, hcode, -⟩ := literalNode_grows bound entry x ⟨0, q⟩ hn
    exact ⟨code, r, e, hcode, fun htable defs w =>
      hrun (literalNode_executes bound entry x hn hcode htable)⟩
  | false =>
    obtain ⟨code, r, e, hcode, -⟩ := (expr_grows bound entry H.immediate x).1 ⟨0, q⟩ hn
    exact ⟨code, r, e, hcode, fun htable defs w =>
      hrun ((expr_executes bound entry x).1 hn hcode htable)⟩

/-! ### What the C text keeps -/

/-- Every constant of the tree can be written into C text: no trigraph, and no sign of a NaN. -/
def Legible : Value → Prop
  | .string s => ¬ HasTrigraph s
  | .number (.real d) => writtenReal d = d
  | .pair head tail => Legible head ∧ Legible tail
  | _ => True

theorem writtenAtom_eq {O W : Type} (H : Host O W) : writtenAtom H = lineAtom H false := by
  funext x
  rcases x with _ | ⟨_ | _⟩ | _ | _ | _ | _ <;> rfl

theorem alloc_roomy {O W : Type} {H : Host O W} (hroomy : H.Roomy) (v : Datum O) :
    H.alloc v = .pure v := by
  funext w
  rw [Host.alloc, hroomy w]
  rfl

theorem rcInteger_roomy {O W : Type} {H : Host O W} (hroomy : H.Roomy)
    (k : {k : ℤ // IsInt64 k}) : H.rcInteger k = .pure (.number (.exact k)) := by
  rw [Host.rcInteger, alloc_roomy hroomy, ite_self]

theorem rcStringN_legible {O W : Type} {H : Host O W} (hroomy : H.Roomy) {s : Text}
    (hs : ¬ HasTrigraph s) : H.rcStringN (Emit.quotedN s) s.length = .pure (.string s) := by
  rw [Host.rcStringN, (Emit.literal_quotedN_iff s).mpr hs]
  dsimp only
  rw [if_pos (Nat.le_succ _), alloc_roomy hroomy, List.take_left]

/-- **A legible tree has the same meaning either way**, memory being available. -/
theorem eval_legible {O W : Type} {H : Host O W} (hroomy : H.Roomy) (raw : Bool) (x : Value)
    (hx : Legible x) :
    eval H (writtenAtom H) raw x = eval H (lineAtom H true) raw x ∧
      evalOperands H (writtenAtom H) raw x = evalOperands H (lineAtom H true) raw x := by
  induction x with
  | nil => exact ⟨rfl, rfl⟩
  | number n =>
    refine ⟨?_, rfl⟩
    cases n with
    | exact k => exact rcInteger_roomy hroomy k
    | real d =>
      have hd : writtenReal d = d := hx
      simp only [eval, writtenAtom, lineAtom, if_true, hd, Host.rcNumber, alloc_roomy hroomy]
  | string s => exact ⟨rcStringN_legible hroomy hx, rfl⟩
  | symbol s => exact ⟨rfl, rfl⟩
  | other t a => exact ⟨rfl, rfl⟩
  | pair head tail ihh iht =>
    obtain ⟨hh, hh'⟩ := ihh hx.1
    obtain ⟨ht, ht'⟩ := iht hx.2
    refine ⟨?_, by simp only [evalOperands, hh, ht']⟩
    cases raw with
    | true => simp only [eval, if_true, hh, ht]
    | false => simp only [eval, Bool.false_eq_true, if_false, ht']

/-! ### A tree that is not legible -/

/-- A host in which every function is bound, `cons` is canonical, `protect` returns its argument and
memory is never short; a read beyond a literal fails. -/
def plainHost : Host Unit Unit where
  immediate := false
  allocate w := (true, w)
  binding _ w := (some (.other ()), w)
  error _ w := w
  closure _ := none
  callback _ _ _ w := (none, w)
  complete r w := (r, w)
  applyOwnedArgs _ args w := (args.head?, w)
  primitiveConsOwned _ a b := .pure (.pair a b)
  undefined _ _ w := (none, w)

theorem plainHost_roomy : plainHost.Roomy := fun _ => rfl

/-- A string with a trigraph is read back as another string, or not at all. -/
theorem plainHost_string {s : Text} {w : Unit}
    (h : plainHost.rcStringN (Emit.quotedN s) s.length w = (some (.string s), w)) :
    ¬ HasTrigraph s := by
  intro hs
  rw [Host.rcStringN, Emit.literal_quotedN] at h
  rcases hbody : body 0 (Emit.T s) with _ | bytes
  · rw [hbody] at h
    cases h
  rw [hbody] at h
  dsimp only at h
  split_ifs at h with hle
  · rw [alloc_roomy plainHost_roomy] at h
    have htake : (bytes ++ [0]).take s.length = s := by
      injection h with h _
      injection h with h
      injection h
    have hcount := Emit.count_lt hs hbody
    have hsub := (List.take_sublist s.length (bytes ++ [0])).count_le 63
    rw [htake, List.count_append] at hsub
    have hzero : ([0] : List UInt8).count 63 = 0 := by decide
    omega
  · cases h

theorem plainHost_construct {f : Text} (fn : Datum Unit) {args : List (Datum Unit)}
    (hf : constructorArity f ≠ 0) (hlength : args.length = constructorArity f) :
    ∃ v, construct plainHost f fn args = .pure v ∧
      ∀ args' w, args'.length = args.length →
        construct plainHost f fn args' w = (some v, w) → args' = args := by
  rcases constructorArity_cases hf with ⟨hc, hk⟩ | ⟨hc, -, hk⟩
  · rw [hk] at hlength
    obtain ⟨a, b, rfl⟩ := List.length_eq_two.mp hlength
    refine ⟨.pair a b, by simp only [construct, if_pos hc]; rfl, fun args' w hlen h => ?_⟩
    obtain ⟨a', b', rfl⟩ := List.length_eq_two.mp (hlen.trans hlength)
    simp only [construct, if_pos hc] at h
    cases h
    rfl
  · rw [hk] at hlength
    obtain ⟨a, rfl⟩ := List.length_eq_one_iff.mp hlength
    refine ⟨a, rfl, fun args' w hlen h => ?_⟩
    obtain ⟨a', rfl⟩ := List.length_eq_one_iff.mp (hlen.trans hlength)
    cases h
    rfl

/-- **In the plain host the two meanings of an accepted tree differ unless it is legible.** -/
theorem plainHost_legible (bound : Text → Bool) (raw : Bool) (x : Value) :
    (∀ {n}, constantNodes bound raw x = some n →
      ∃ v, eval plainHost (lineAtom plainHost true) raw x = .pure v ∧
        (eval plainHost (writtenAtom plainHost) raw x () = (some v, ()) → Legible x)) ∧
    (∀ {argc n}, constantOperands bound raw x argc = some n →
      ∃ vs, evalOperands plainHost (lineAtom plainHost true) raw x = .pure vs ∧
        (evalOperands plainHost (writtenAtom plainHost) raw x () = (some vs, ()) → Legible x)) := by
  induction x with
  | nil => exact ⟨fun _ => ⟨_, rfl, fun _ => trivial⟩, fun _ => ⟨_, rfl, fun _ => trivial⟩⟩
  | symbol s => exact ⟨fun _ => ⟨_, rfl, fun _ => trivial⟩, fun _ => ⟨_, rfl, fun _ => trivial⟩⟩
  | string s =>
    refine ⟨fun _ => ⟨_, rfl, plainHost_string⟩, fun {argc _} hn => ?_⟩
    cases argc <;> cases hn
  | number n =>
    refine ⟨fun _ => ?_, fun {argc _} hn => ?_⟩
    · cases n with
      | exact k => exact ⟨_, rfl, fun _ => trivial⟩
      | real d =>
        refine ⟨_, rfl, fun h => ?_⟩
        injection h with h _
        injection h with h
        injection h with h
        injection h
    · cases argc <;> cases hn
  | other t a =>
    refine ⟨fun hn => ?_, fun {argc _} hn => ?_⟩
    · cases hn
    · cases argc <;> cases hn
  | pair head tail ihh iht =>
    refine ⟨fun hn => ?_, fun hn => ?_⟩
    · cases raw with
      | true =>
        obtain ⟨_, _, hh, ht, -⟩ := constantNodes_raw hn
        obtain ⟨a, ha, hla⟩ := ihh.1 hh
        obtain ⟨b, hb, hlb⟩ := iht.1 ht
        refine ⟨.pair a b, ?_, fun h => ?_⟩
        · simp only [eval, if_true, ha, hb, Run.pure_andThen]
          exact alloc_roomy plainHost_roomy _
        · simp only [eval, if_true] at h
          rcases hwa : eval plainHost (writtenAtom plainHost) true head () with ⟨_ | a', _⟩
          · rw [Run.andThen_none hwa] at h
            cases h
          rw [Run.andThen_some hwa] at h
          rcases hwb : eval plainHost (writtenAtom plainHost) true tail () with ⟨_ | b', _⟩
          · rw [Run.andThen_none hwb] at h
            cases h
          rw [Run.andThen_some hwb, Host.rcConsOwned, alloc_roomy plainHost_roomy] at h
          cases h
          exact ⟨hla hwa, hlb hwb⟩
      | false =>
        obtain ⟨f, _, rfl, -, hf, ht, -⟩ := constantNodes_call hn
        obtain ⟨vs, hvs, hlegible⟩ := iht.2 ht
        have hlength : vs.length = constructorArity f :=
          evalOperands_length tail ht (w := ()) (by rw [hvs]; rfl)
        obtain ⟨v, hv, hinj⟩ := plainHost_construct (.other ()) hf hlength
        refine ⟨v, ?_, fun h => ⟨trivial, hlegible ?_⟩⟩
        · simp only [eval, Bool.false_eq_true, if_false, hvs]
          exact hv
        · simp only [eval, Bool.false_eq_true, if_false] at h
          have hget : plainHost.rcFunctionGet f () = (some (.other ()), ()) := rfl
          rw [Run.andThen_some hget] at h
          rcases hw : evalOperands plainHost (writtenAtom plainHost) false tail () with ⟨_ | vs', _⟩
          · rw [Run.andThen_none hw] at h
            cases h
          rw [Run.andThen_some hw] at h
          have hlength' := evalOperands_length tail ht hw
          rw [hinj vs' () (hlength'.trans hlength.symm) h]
    · obtain ⟨k, _, _, rfl, hx, hr, -⟩ := constantOperands_pair hn
      obtain ⟨a, ha, hla⟩ := ihh.1 hx
      obtain ⟨vs, hvs, hlvs⟩ := iht.2 hr
      refine ⟨a :: vs, ?_, fun h => ?_⟩
      · simp only [evalOperands, ha, hvs, Run.pure_andThen]
      · simp only [evalOperands] at h
        rcases hwa : eval plainHost (writtenAtom plainHost) raw head () with ⟨_ | a', _⟩
        · rw [Run.andThen_none hwa] at h
          cases h
        rw [Run.andThen_some hwa] at h
        rcases hwb : evalOperands plainHost (writtenAtom plainHost) raw tail () with ⟨_ | vs', _⟩
        · rw [Run.andThen_none hwb] at h
          cases h
        rw [Run.andThen_some hwb] at h
        cases h
        exact ⟨hla hwa, hlvs hwb⟩

/-! ### The two runs -/

/-- **The table `c` of the tree does what straight-line code does**, from every state: it ends with
the same value, or none, in the same state, the error included; every reference it was given but the
result is released or given to a call, once; and it never leaves its stack, since such an access has no
outcome. The memory of the stack is there, and that of constants which straight-line code keeps
outside the C text. -/
def Replays (entry raw : Bool) (x : Value) (symbols : List Text) (c : ConstTable) : Prop :=
  ∀ (O W : Type) (H : Host O W) (table table' q : List Text) (defs : Text → List ModuleDef)
    (room : Bool) (w : W), symbols <+: table → (entry = true → H.Roomy) →
    (c.depth ≤ 64 ∨ room = true) →
    ∃ code slot e, straightLine entry H.immediate raw x q = some (code, slot, e) ∧
      (e.symbols <+: table' →
        ∃ v w' l, rcConstantData H (tableSymbols table c) c room w = some (v, w', l) ∧
          runStraight H table' defs code slot w = some (v.map Prod.snd, w') ∧
          l.Accounts (v.map Prod.fst).toList)

theorem replays_of_legible {bound : Text → Bool} {entry raw : Bool} {x : Value} {n : ℕ}
    {p p' : List Text} {c : ConstTable} (hn : constantNodes bound raw x = some n)
    (hc : constantData raw x p = some (p', c)) (hx : entry = true → Legible x) :
    Replays entry raw x p' c := by
  intro O W H table table' q defs room w htable hroomy hroom
  obtain ⟨code, slot, e, hcode, hline⟩ := @runStraight_eval _ _ H bound entry _ _ _ hn q
  refine ⟨code, slot, e, hcode, fun htable' => ?_⟩
  obtain ⟨v, w', l, hrun, heval, hl⟩ := rcConstantData_eval (H := H) hn hc htable hroom w
  refine ⟨v, w', l, hrun, ?_, hl⟩
  rw [hline htable' defs w, ← heval]
  cases entry with
  | false => rw [writtenAtom_eq]
  | true => rw [(eval_legible (hroomy rfl) raw x (hx rfl)).1]

theorem legible_of_replays {bound : Text → Bool} {raw : Bool} {x : Value} {n : ℕ}
    {p p' : List Text} {c : ConstTable} (hn : constantNodes bound raw x = some n)
    (hc : constantData raw x p = some (p', c)) (h : Replays true raw x p' c) : Legible x := by
  obtain ⟨code, slot, e, hcode, hline⟩ := @runStraight_eval _ _ plainHost bound true _ _ _ hn []
  obtain ⟨_, _, _, hcode', hsame⟩ := h Unit Unit plainHost p' e.symbols [] (fun _ => []) true ()
    List.prefix_rfl (fun _ => plainHost_roomy) (Or.inr rfl)
  cases hcode.symm.trans hcode'
  obtain ⟨v, w', l, hrun, hstraight, -⟩ := hsame List.prefix_rfl
  obtain ⟨v', w'', l', hrun', heval, -⟩ :=
    rcConstantData_eval (H := plainHost) hn hc List.prefix_rfl (Or.inr rfl) ()
  cases hrun.symm.trans hrun'
  obtain ⟨value, hvalue, hlegible⟩ := (plainHost_legible bound raw x).1 hn
  rw [hline List.prefix_rfl, hvalue] at hstraight
  refine hlegible (heval.trans ?_)
  exact (Option.some.inj hstraight).symm

/-- **The table of every accepted tree does what straight-line code does, unless the module keeps its
constants outside the C text and the tree has one that C text does not keep.** -/
theorem replays_iff {bound : Text → Bool} {entry raw : Bool} {x : Value} {n : ℕ}
    {p p' : List Text} {c : ConstTable} (hn : constantNodes bound raw x = some n)
    (hc : constantData raw x p = some (p', c)) :
    Replays entry raw x p' c ↔ (entry = true → Legible x) := by
  refine ⟨fun h he => ?_, replays_of_legible hn hc⟩
  subst he
  exact legible_of_replays hn hc h

/-- A list of zeros as an expression. -/
def zeros : ℕ → Value
  | 0 => .nil
  | k + 1 => .ofList [.symbol consName, .int 0, zeros k]

/-- `(cons "??=" (cons 0 ... ()))`, with 32 elements. -/
def trigraphList : Value := .ofList [.symbol consName, .string (ascii "??="), zeros 31]

theorem constantNodes_cons {bound : Text → Bool} {a b : Value} {m n : ℕ}
    (h : bound consName = false) (ha : constantNodes bound false a = some m)
    (hb : constantNodes bound false b = some n) :
    constantNodes bound false (.ofList [.symbol consName, a, b]) = some (1 + (m + n)) := by
  have harity : constructorArity consName = 2 := rfl
  simp [Value.ofList, constantNodes, constantOperands, harity, h, ha, hb]

theorem zeros_nodes {bound : Text → Bool} (h : bound consName = false) (k : ℕ) :
    constantNodes bound false (zeros k) = some (2 * k + 1) := by
  induction k with
  | zero => rfl
  | succ k ih =>
    rw [zeros, constantNodes_cons (m := 1) h rfl ih]
    congr 1
    omega

theorem zeros_legible (k : ℕ) : Legible (zeros k) := by
  induction k with
  | zero => trivial
  | succ k ih => exact ⟨trivial, trivial, ih, trivial⟩

theorem replays_iff_zeros :
    ∃ p' c, constantData false (zeros 40) [] = some (p', c) ∧ Replays true false (zeros 40) p' c := by
  have hn : constantNodes (fun _ => false) false (zeros 40) = some 81 := zeros_nodes rfl 40
  obtain ⟨p', c, hc⟩ := @constantData_some _ _ _ _ [] hn (by decide)
  exact ⟨p', c, hc, (replays_iff hn hc).mpr fun _ => zeros_legible 40⟩

/-- **A table for 65 nodes that does not do what straight-line code does.** -/
theorem trigraphList_differs :
    constantNodes (fun _ => false) false trigraphList = some 65 ∧
      ¬ ∀ (bound : Text → Bool) (entry raw : Bool) (x : Value) (n : ℕ) (p p' : List Text)
        (c : ConstTable), constantNodes bound raw x = some n →
        constantData raw x p = some (p', c) → Replays entry raw x p' c := by
  have hn : constantNodes (fun _ => false) false trigraphList = some 65 :=
    constantNodes_cons (m := 1) rfl rfl (zeros_nodes rfl 31)
  obtain ⟨p', c, hdata⟩ := @constantData_some _ _ _ _ [] hn (by decide)
  refine ⟨hn, fun h => ?_⟩
  have hlegible := legible_of_replays hn hdata (h _ true _ _ _ _ _ _ hn hdata)
  exact hlegible.2.1 ⟨61, rfl, [], [], by decide⟩

end ShenRc.Constant
