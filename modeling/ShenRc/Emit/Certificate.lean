import ShenRc.Hash.Native

/-! # The certificate of the native hash

`rc_emit_program` lets the bootstrap replace `hash` if the kernel defines every function the native
hash ports as its template does. It asks whether some definition of each name was accepted; what a
name is bound to is its last definition at the top level. -/

namespace ShenRc.Emit

open Numeral KL

/-! ### Definitions of a program -/

/-- What is emitted decides whether there is a bootstrap: neither an expression nor a module has one. -/
structure Options where
  conservativeOwnership : Bool
  expressionEntry : Bool
  moduleEntry : Bool

def Options.emitsBootstrap (options : Options) : Bool :=
  !options.expressionEntry && !options.moduleEntry

/-- `native_hash_dependency`. -/
def nativeHashDependency (options : Options) (kernelPhase : Bool) (d : Definition) : Bool :=
  if !kernelPhase || options.conservativeOwnership || options.expressionEntry then false
  else
    match nativeHashTemplates.find? fun t => t.name == d.name with
    | some t => t.accepts d
    | none => false

/-- A compiled definition. Two of them are different functions, whatever their texts. -/
structure Compiled where
  id : ℕ
  definition : Definition

structure ModuleDef where
  function : Compiled
  exactHashkey : Bool
  kernelPhase : Bool
  exactHashDep : Bool

def moduleDef (options : Options) (kernelPhase : Bool) (f : Compiled) : ModuleDef where
  function := f
  exactHashkey := f.definition.name == ascii "shen.hashkey" && Emit.exactHashkey f.definition
  kernelPhase := kernelPhase
  exactHashDep := nativeHashDependency options kernelPhase f.definition

/-- A form of a program: the definition it is, if it is one, and the definitions inside it in the order
in which they are compiled. -/
structure Form where
  definition : Option Definition
  nested : List Definition

def Form.definitions (f : Form) : List Definition := f.nested ++ f.definition.toList

/-- What the emitter has compiled: the next number of a definition, the definitions, the latest first,
and those that the bootstrap runs, in order. -/
structure Program where
  next : ℕ
  moduleDefs : List ModuleDef
  installs : List Compiled

/-- The definition of a name goes in front of the others when its body has been compiled. -/
def Program.compile (options : Options) (kernelPhase : Bool) (p : Program) (d : Definition) : Program :=
  { p with
    next := p.next + 1
    moduleDefs := moduleDef options kernelPhase ⟨p.next, d⟩ :: p.moduleDefs }

def Program.compileForm (options : Options) (kernelPhase : Bool) (p : Program) (f : Form) : Program :=
  f.definitions.foldl (Program.compile options kernelPhase) p

/-- A form of the kernel that is a definition is the last one it compiles. -/
def Program.compileKernelForm (options : Options) (p : Program) (f : Form) : Program :=
  { p.compileForm options true f with
    installs :=
      p.installs ++ (f.definition.map (Compiled.mk ((p.compileForm options true f).next - 1))).toList }

/-- What is compiled: the definitions among the reader events, which count as those of the kernel and
are not run by the bootstrap, then the kernel, then the program of the user. -/
structure Source where
  events : List Form
  kernel : List Form
  user : List Form

/-- The three phases of `rc_emit_program`. -/
def emitProgram (options : Options) (src : Source) : Program :=
  let p := src.events.foldl (Program.compileForm options true) ⟨0, [], []⟩
  let p := src.kernel.foldl (Program.compileKernelForm options) p
  src.user.foldl (Program.compileForm options false) p

/-! ### The bootstrap -/

def Program.certified (options : Options) (p : Program) : Bool :=
  !options.conservativeOwnership && nativeHashTemplates.all fun t =>
    p.moduleDefs.any fun m => m.kernelPhase && m.exactHashDep && m.function.definition.name == t.name

def isHashkey (m : ModuleDef) : Bool :=
  m.kernelPhase && m.function.definition.name == ascii "shen.hashkey" && m.exactHashkey

/-- What a name is bound to: a primitive, a compiled definition or the numeric wrapper around one. -/
inductive Binding where
  | primitive
  | compiled (f : Compiled)
  | numericHash (target : Compiled)

/-- The definition behind a binding. -/
def Binding.source : Binding → Option Definition
  | .primitive => none
  | .compiled f => some f.definition
  | .numericHash f => some f.definition

/-- The function bindings of a context. -/
abbrev Bindings := Text → Option Binding

def Bindings.set (b : Bindings) (name : Text) (f : Binding) : Bindings :=
  fun s => if s = name then some f else b s

def Bindings.source (b : Bindings) (name : Text) : Option Definition := (b name).bind Binding.source

def Bindings.install (b : Bindings) (names : List Text) : Bindings :=
  names.foldl (fun b s => b.set s .primitive) b

/-- The names that `rc_install_primitives` and `rc_install_eval` bind, but for the overwrites. -/
def core : List Text :=
  [ascii "intern", ascii "pos", ascii "tlstr", ascii "cn", ascii "str", ascii "string?",
    ascii "n->string", ascii "string->n", ascii "set", ascii "value", ascii "simple-error",
    ascii "error-to-string", ascii "cons", ascii "hd", ascii "tl", ascii "cons?", ascii "=",
    ascii "type", ascii "absvector", ascii "address->", ascii "<-address", ascii "absvector?",
    ascii "write-byte", ascii "read-byte", ascii "open", ascii "close", ascii "get-time", ascii "+",
    ascii "-", ascii "*", ascii "/", ascii ">", ascii "<", ascii ">=", ascii "<=", ascii "number?",
    ascii "function", ascii "exit", ascii "shen.gc", ascii "do", ascii "char-stream?",
    ascii "read-unit-string", ascii "write-string", ascii "eval-kl"]

/-- The names of `rc_install_overwrites`. -/
def overwrites : List Text :=
  [ascii "symbol?", ascii "boolean?", ascii "integer?", ascii "variable?", ascii "not",
    ascii "value/or", ascii "<-address/or", ascii "pr", ascii "read-file-as-charlist"]

/-- `rc_install_numeric_hash_owned`, and its borrowed twin: the wrapper goes around the closure that
`shen.hashkey` is bound to, if that is the function the emitter names and every function the wrapper
compares is bound; else the bindings stay. -/
def installNumericHash (p : Program) (b : Bindings) : Bindings :=
  match p.moduleDefs.find? isHashkey, b (ascii "shen.hashkey") with
  | some m, some (.compiled f) =>
    if f.id = m.function.id ∧ ∀ s ∈ numericNames, (b s).isSome = true then
      b.set (ascii "shen.hashkey") (.numericHash f)
    else b
  | _, _ => b

/-- **The bindings when the native hash is installed**: the primitives, the kernel's definitions in
order, the overwrites and the numeric hash. -/
def bootstrap (options : Options) (src : Source) : Bindings :=
  let p := emitProgram options src
  let b : Bindings := Bindings.install (fun _ => none) (core ++ overwrites)
  let b := p.installs.foldl (fun b f => b.set f.definition.name (.compiled f)) b
  installNumericHash p (b.install overwrites)

/-- The bootstrap calls `rc_install_native_hash`, and `hash` and all that the native hash captures are
bound by then. -/
def installsNativeHash (options : Options) (src : Source) : Bool :=
  let p := emitProgram options src
  let b := bootstrap options src
  options.emitsBootstrap && p.certified options && p.moduleDefs.any isHashkey &&
    (b (ascii "hash")).isSome && Hash.nativeHashDeps.all fun s => (b (ascii s)).isSome

/-! ### The certificate -/

/-- Every certified name stands for a definition that is good for it. -/
structure EveryName (source : Text → Option Definition) (good : Definition → Definition → Prop)
    (goodKey : Definition → Prop) : Prop where
  dependency : ∀ t ∈ nativeHashTemplates, ∃ d, source t.name = some d ∧ good t d
  hashkey : ∃ d, source (ascii "shen.hashkey") = some d ∧ goodKey d

/-- Every certified name is bound to what was compiled from an accepted definition. -/
def BindsAccepted (b : Bindings) : Prop :=
  EveryName b.source (fun t d => t.accepts d = true) (exactHashkey · = true)

/-- Every certified name is bound to what was compiled from its template, up to renaming. -/
def BindsTemplates (b : Bindings) : Prop :=
  EveryName b.source (fun t d => d.nameless false = t.nameless false)
    (fun d => d.nameless false = hashkey.nameless false)

/-! ### When it holds -/

/-- A definition is a template, where every `let` or `lambda` list is read as the special form and every
number by value. -/
def Resembles (t d : Definition) : Prop := d.nameless true = t.nameless true

def lastDefinition (kernel : List Form) (name : Text) : Option Definition :=
  (kernel.filterMap Form.definition).reverse.find? fun d => d.name == name

/-- There is a bootstrap with a certificate: somewhere among the events and the kernel stands a
definition of each name that resembles its template, and the names the native hash needs are those of
primitives or of definitions at the top level. -/
structure Certifies (options : Options) (src : Source) : Prop where
  optimized : options.conservativeOwnership = false
  bootstrap : options.expressionEntry = false ∧ options.moduleEntry = false
  dependency : ∀ t ∈ nativeHashTemplates,
    ∃ d ∈ (src.events ++ src.kernel).flatMap Form.definitions, d.name = t.name ∧ Resembles t d
  hashkey : ∃ d ∈ (src.events ++ src.kernel).flatMap Form.definitions,
    d.name = ascii "shen.hashkey" ∧ HasHashkeyShape d
  bound : ∀ s ∈ ascii "hash" :: Hash.nativeHashDeps.map ascii,
    s ∈ core ++ overwrites ∨ (lastDefinition src.kernel s).isSome = true

/-- The last definition of each name at the top level of the kernel resembles its template. -/
def LastResemble (src : Source) : Prop :=
  EveryName (lastDefinition src.kernel) Resembles HasHashkeyShape

/-- The last definition of each name is its template, up to renaming. -/
def LastTemplates (src : Source) : Prop :=
  EveryName (lastDefinition src.kernel) (fun t d => d.nameless false = t.nameless false)
    (fun d => d.nameless false = hashkey.nameless false)

theorem EveryName.congr {source source' : Text → Option Definition}
    {good good' : Definition → Definition → Prop} {goodKey goodKey' : Definition → Prop}
    (hs : ∀ s, (∃ t ∈ nativeHashTemplates, t.name = s) ∨ s = ascii "shen.hashkey" →
      source s = source' s)
    (hg : ∀ t ∈ nativeHashTemplates, ∀ d, good t d ↔ good' t d) (hk : ∀ d, goodKey d ↔ goodKey' d) :
    EveryName source good goodKey ↔ EveryName source' good' goodKey' := by
  constructor
  · rintro ⟨hdep, d, hd, hkey⟩
    refine ⟨fun t ht => ?_, d, (hs _ (.inr rfl)).symm.trans hd, (hk d).1 hkey⟩
    obtain ⟨e, he, hgood⟩ := hdep t ht
    exact ⟨e, (hs _ (.inl ⟨t, ht, rfl⟩)).symm.trans he, (hg t ht e).1 hgood⟩
  · rintro ⟨hdep, d, hd, hkey⟩
    refine ⟨fun t ht => ?_, d, (hs _ (.inr rfl)).trans hd, (hk d).2 hkey⟩
    obtain ⟨e, he, hgood⟩ := hdep t ht
    exact ⟨e, (hs _ (.inl ⟨t, ht, rfl⟩)).trans he, (hg t ht e).2 hgood⟩

/-! ### What is compiled -/

variable {options : Options} {q : ModuleDef → Bool} {asked : Bool → Definition → Bool}

/-- Whether some definition is as asked does not depend on their numbers. -/
theorem any_compileForm (hq : ∀ k id d, q (moduleDef options k ⟨id, d⟩) = asked k d) (k : Bool)
    (p : Program) (f : Form) :
    (p.compileForm options k f).moduleDefs.any q =
      (p.moduleDefs.any q || f.definitions.any (asked k)) := by
  unfold Program.compileForm
  generalize f.definitions = ds
  induction ds generalizing p with
  | nil => simp
  | cons d ds ih =>
    rw [List.foldl_cons, ih, Program.compile, List.any_cons, hq, List.any_cons]
    cases asked k d <;> simp

theorem any_compileForms (hq : ∀ k id d, q (moduleDef options k ⟨id, d⟩) = asked k d) (k : Bool)
    (forms : List Form) (p : Program) :
    (forms.foldl (Program.compileForm options k) p).moduleDefs.any q =
      (p.moduleDefs.any q || (forms.flatMap Form.definitions).any (asked k)) := by
  induction forms generalizing p with
  | nil => simp
  | cons f forms ih =>
    rw [List.foldl_cons, ih, any_compileForm hq, List.flatMap_cons, List.any_append, Bool.or_assoc]

theorem any_compileKernelForms (hq : ∀ k id d, q (moduleDef options k ⟨id, d⟩) = asked k d)
    (forms : List Form) (p : Program) :
    (forms.foldl (Program.compileKernelForm options) p).moduleDefs.any q =
      (p.moduleDefs.any q || (forms.flatMap Form.definitions).any (asked true)) := by
  induction forms generalizing p with
  | nil => simp
  | cons f forms ih =>
    have hf : (p.compileKernelForm options f).moduleDefs = (p.compileForm options true f).moduleDefs :=
      rfl
    rw [List.foldl_cons, ih, hf, any_compileForm hq, List.flatMap_cons, List.any_append, Bool.or_assoc]

/-- The user's definitions do not count. -/
theorem any_emitProgram (asked : Bool → Definition → Bool)
    (hq : ∀ k id d, q (moduleDef options k ⟨id, d⟩) = asked k d)
    (huser : ∀ d, asked false d = false) (src : Source) :
    (emitProgram options src).moduleDefs.any q =
      ((src.events ++ src.kernel).flatMap Form.definitions).any (asked true) := by
  have hnone : ∀ ds : List Definition, ds.any (asked false) = false := fun ds => by
    rw [List.any_eq_false]
    intro d _
    simp [huser d]
  rw [emitProgram, any_compileForms hq, any_compileKernelForms hq, any_compileForms hq, hnone,
    List.flatMap_append, List.any_append]
  simp

theorem templates_find : ∀ t ∈ nativeHashTemplates,
    (nativeHashTemplates.find? fun u => u.name == t.name) = some t := by
  decide +kernel

theorem nativeHashDependency_iff (hc : options.conservativeOwnership = false)
    (he : options.expressionEntry = false) {t d : Definition} (ht : t ∈ nativeHashTemplates)
    (hname : d.name = t.name) :
    nativeHashDependency options true d = true ↔ Resembles t d := by
  rw [nativeHashDependency, hname, templates_find t ht, hc, he]
  exact kernelTemplate_iff (templates_pinned t (List.mem_append_left _ ht)) d.params d.body

theorem certified_iff (he : options.expressionEntry = false) (src : Source) :
    (emitProgram options src).certified options = true ↔
      options.conservativeOwnership = false ∧ ∀ t ∈ nativeHashTemplates,
        ∃ d ∈ (src.events ++ src.kernel).flatMap Form.definitions,
          d.name = t.name ∧ Resembles t d := by
  rw [Program.certified, Bool.and_eq_true, Bool.not_eq_true', List.all_eq_true]
  refine and_congr_right fun hc => forall₂_congr fun t ht => ?_
  rw [any_emitProgram (fun k d => k && nativeHashDependency options k d && d.name == t.name)
    (fun _ _ _ => rfl) (fun _ => rfl), List.any_eq_true]
  refine exists_congr fun d => and_congr_right fun _ => ?_
  rw [Bool.true_and, Bool.and_eq_true, beq_iff_eq, and_comm]
  exact and_congr_right fun hname => nativeHashDependency_iff hc he ht hname

theorem any_isHashkey (src : Source) :
    (emitProgram options src).moduleDefs.any isHashkey = true ↔
      ∃ d ∈ (src.events ++ src.kernel).flatMap Form.definitions,
        d.name = ascii "shen.hashkey" ∧ HasHashkeyShape d := by
  rw [any_emitProgram (fun k d => k && d.name == ascii "shen.hashkey" &&
    (d.name == ascii "shen.hashkey" && exactHashkey d)) (fun _ _ _ => rfl) (fun _ => rfl),
    List.any_eq_true]
  refine exists_congr fun d => and_congr_right fun _ => ?_
  rw [Bool.true_and, Bool.and_eq_true, Bool.and_eq_true, beq_iff_eq, exactHashkey_iff]
  tauto

/-! ### What the names are bound to -/

@[simp] theorem moduleForms_installs (k : Bool) (forms : List Form) (p : Program) :
    (forms.foldl (Program.compileForm options k) p).installs = p.installs := by
  have hform : ∀ (ds : List Definition) (p : Program),
      (ds.foldl (Program.compile options k) p).installs = p.installs := fun ds => by
    induction ds with
    | nil => exact fun _ => rfl
    | cons d ds ih => exact fun p => ih _
  induction forms generalizing p with
  | nil => rfl
  | cons f forms ih => exact (ih _).trans (hform f.definitions p)

theorem kernelForms_installs (forms : List Form) (p : Program) :
    (forms.foldl (Program.compileKernelForm options) p).installs.map Compiled.definition =
      p.installs.map Compiled.definition ++ forms.filterMap Form.definition := by
  induction forms generalizing p with
  | nil => simp
  | cons f forms ih =>
    rw [List.foldl_cons, ih, Program.compileKernelForm, List.map_append, List.filterMap_cons]
    cases f.definition <;> simp

/-- The bootstrap runs the definitions of the kernel, in order. -/
theorem emitProgram_installs (options : Options) (src : Source) :
    (emitProgram options src).installs.map Compiled.definition =
      src.kernel.filterMap Form.definition := by
  rw [emitProgram, moduleForms_installs, kernelForms_installs, moduleForms_installs]
  rfl

theorem install_apply (b : Bindings) (names : List Text) (name : Text) :
    b.install names name = if name ∈ names then some .primitive else b name := by
  unfold Bindings.install
  induction names generalizing b with
  | nil => rfl
  | cons s names ih =>
    rw [List.foldl_cons, ih, Bindings.set]
    by_cases hs : name = s <;> simp [hs]

/-- Running definitions binds a name to the last of them. -/
theorem installs_apply (b : Bindings) (fs : List Compiled) (name : Text) :
    fs.foldl (fun b f => b.set f.definition.name (.compiled f)) b name =
      ((fs.reverse.find? fun f => f.definition.name == name).map Binding.compiled).or (b name) := by
  induction fs using List.reverseRecOn with
  | nil => rfl
  | append_singleton fs f ih =>
    rw [List.foldl_append, List.foldl_cons, List.foldl_nil, Bindings.set, List.reverse_append,
      List.reverse_singleton, List.singleton_append, List.find?_cons]
    by_cases hname : name = f.definition.name
    · simp [hname]
    · rw [if_neg hname, ih, beq_false_of_ne (Ne.symm hname)]

theorem installNumericHash_apply (p : Program) (b : Bindings) (name : Text) :
    installNumericHash p b name = b name ∨
      ∃ f, b name = some (.compiled f) ∧ installNumericHash p b name = some (.numericHash f) := by
  unfold installNumericHash
  rcases p.moduleDefs.find? isHashkey with _ | m
  · exact .inl rfl
  rcases hf : b (ascii "shen.hashkey") with _ | ⟨_ | f | _⟩
  · exact .inl rfl
  · exact .inl rfl
  · dsimp only
    split_ifs
    · by_cases hname : name = ascii "shen.hashkey"
      · exact .inr ⟨f, hname ▸ hf, if_pos hname⟩
      · exact .inl (if_neg hname)
    · exact .inl rfl
  · exact .inl rfl

/-- The numeric wrapper stands for the definition it wraps. -/
theorem installNumericHash_source (p : Program) (b : Bindings) (name : Text) :
    (installNumericHash p b).source name = b.source name := by
  rcases installNumericHash_apply p b name with h | ⟨f, hb, h⟩
  · rw [Bindings.source, h, Bindings.source]
  · rw [Bindings.source, h, Bindings.source, hb]
    rfl

theorem installNumericHash_isSome (p : Program) (b : Bindings) (name : Text) :
    (installNumericHash p b name).isSome = (b name).isSome := by
  rcases installNumericHash_apply p b name with h | ⟨f, hb, h⟩
  · rw [h]
  · rw [h, hb]
    rfl

theorem lastDefinition_eq (options : Options) (src : Source) (name : Text) :
    lastDefinition src.kernel name =
      ((emitProgram options src).installs.reverse.find? fun f => f.definition.name == name).map
        Compiled.definition := by
  rw [lastDefinition, ← emitProgram_installs options, ← List.map_reverse, List.find?_map]
  rfl

/-- A name that is not overwritten stands for its last definition. -/
theorem bootstrap_source (options : Options) (src : Source) {name : Text} (h : name ∉ overwrites) :
    (bootstrap options src).source name = lastDefinition src.kernel name := by
  rw [bootstrap, installNumericHash_source, Bindings.source, install_apply, if_neg h, installs_apply,
    install_apply, lastDefinition_eq options]
  cases (emitProgram options src).installs.reverse.find? fun f => f.definition.name == name with
  | some f => rfl
  | none =>
    rw [Option.map_none, Option.none_or]
    split_ifs <;> rfl

theorem bootstrap_isSome (options : Options) (src : Source) (name : Text) :
    (bootstrap options src name).isSome = true ↔
      name ∈ core ++ overwrites ∨ (lastDefinition src.kernel name).isSome = true := by
  rw [bootstrap, installNumericHash_isSome, install_apply, installs_apply, install_apply,
    lastDefinition_eq options]
  by_cases ho : name ∈ overwrites
  · simp [ho]
  · rw [if_neg ho]
    cases (emitProgram options src).installs.reverse.find? fun f => f.definition.name == name with
    | some f => simp
    | none =>
      by_cases hc : name ∈ core ++ overwrites <;> simp [hc]

theorem installsNativeHash_iff (options : Options) (src : Source) :
    installsNativeHash options src = true ↔ Certifies options src := by
  simp only [installsNativeHash, Bool.and_eq_true, Options.emitsBootstrap, Bool.not_eq_true',
    any_isHashkey, List.all_eq_true, bootstrap_isSome]
  constructor
  · rintro ⟨⟨⟨⟨hentry, hcert⟩, hkey⟩, hhash⟩, hdeps⟩
    obtain ⟨hc, hdep⟩ := (certified_iff hentry.1 src).1 hcert
    refine ⟨hc, hentry, hdep, hkey, List.forall_mem_cons.2 ⟨hhash, fun s hs => ?_⟩⟩
    obtain ⟨r, hr, rfl⟩ := List.mem_map.1 hs
    exact hdeps r hr
  · rintro ⟨hc, hentry, hdep, hkey, hbound⟩
    refine ⟨⟨⟨⟨hentry, (certified_iff hentry.1 src).2 ⟨hc, hdep⟩⟩, hkey⟩, ?_⟩, fun s hs => ?_⟩
    · exact hbound _ List.mem_cons_self
    · exact hbound _ (List.mem_cons_of_mem _ (List.mem_map_of_mem hs))

theorem certified_notOverwritten {s : Text}
    (h : (∃ t ∈ nativeHashTemplates, t.name = s) ∨ s = ascii "shen.hashkey") : s ∉ overwrites := by
  rcases h with ⟨t, ht, rfl⟩ | rfl
  · revert t
    decide +kernel
  · decide +kernel

/-- The bindings are as certified unless the last definition of some name is not. -/
theorem bootstrap_bindsAccepted (options : Options) (src : Source) :
    BindsAccepted (bootstrap options src) ↔ LastResemble src :=
  EveryName.congr (fun _ hs => bootstrap_source options src (certified_notOverwritten hs))
    (fun t ht _ => kernelTemplate_iff (templates_pinned t (List.mem_append_left _ ht)) _ _)
    exactHashkey_iff

theorem bootstrap_bindsTemplates (options : Options) (src : Source) :
    BindsTemplates (bootstrap options src) ↔ LastTemplates src :=
  EveryName.congr (fun _ hs => bootstrap_source options src (certified_notOverwritten hs))
    (fun _ _ _ => Iff.rfl) (fun _ => Iff.rfl)

/-- **Template certification is exact up to renaming** for a candidate whose two readings agree, and
always for `shen.hashkey`; and **the native hash stands for accepted definitions, and for the templates**,
where the kernel's last definitions are of that kind. -/
theorem certification_iff (d : Definition) (options : Options) (src : Source) :
    (∀ t ∈ templates,
      ((t.accepts d = true ↔ d.nameless false = t.nameless false) ↔
        (d.nameless true = t.nameless true → d.unambiguous = true))) ∧
    (exactHashkey d = true → d.nameless false = hashkey.nameless false) ∧
    ((installsNativeHash options src = true → BindsAccepted (bootstrap options src)) ↔
      (Certifies options src → LastResemble src)) ∧
    ((installsNativeHash options src = true → BindsTemplates (bootstrap options src)) ↔
      (Certifies options src → LastTemplates src)) := by
  refine ⟨fun t ht => ?_, fun h => ?_, ?_, ?_⟩
  · rw [Definition.accepts, kernelTemplate_iff (templates_pinned t ht),
      nameless_strict (templates_pinned t ht)]
    change (d.nameless true = t.nameless true ↔ _) ↔ _
    tauto
  · obtain ⟨v, w, z, hd⟩ := (exactHashkey_iff d).1 h
    exact hd.nameless
  · rw [installsNativeHash_iff, bootstrap_bindsAccepted]
  · rw [installsNativeHash_iff, bootstrap_bindsTemplates]

/-- Every pinned definition as it should be. -/
def kernelPinned : List Form := (nativeHashTemplates ++ [hashkey]).map fun d => ⟨some d, []⟩

theorem kernelPinned_last :
    (∀ t ∈ nativeHashTemplates, lastDefinition kernelPinned t.name = some t) ∧
      lastDefinition kernelPinned (ascii "shen.hashkey") = some hashkey := by
  decide +kernel

/-- The pinned kernel has its native hash installed, over the templates. -/
theorem certification_iff_kernelPinned :
    installsNativeHash ⟨false, false, false⟩ ⟨[], kernelPinned, []⟩ = true ∧
    BindsAccepted (bootstrap ⟨false, false, false⟩ ⟨[], kernelPinned, []⟩) ∧
    BindsTemplates (bootstrap ⟨false, false, false⟩ ⟨[], kernelPinned, []⟩) := by
  have hinstalls : installsNativeHash ⟨false, false, false⟩ ⟨[], kernelPinned, []⟩ = true := by
    decide +kernel
  obtain ⟨-, -, haccepted, htemplates⟩ :=
    certification_iff hashkey ⟨false, false, false⟩ ⟨[], kernelPinned, []⟩
  refine ⟨hinstalls, haccepted.2 (fun _ => ?_) hinstalls, htemplates.2 (fun _ => ?_) hinstalls⟩
  · exact ⟨fun t ht => ⟨t, kernelPinned_last.1 t ht, rfl⟩, hashkey, kernelPinned_last.2,
      (exactHashkey_iff hashkey).1 (by decide +kernel)⟩
  · exact ⟨fun t ht => ⟨t, kernelPinned_last.1 t ht, rfl⟩, hashkey, kernelPinned_last.2, rfl⟩

/-! ### Where it fails -/

def hdstrReal : Definition where
  name := ascii "hdstr"
  params := list [sym "V"]
  body := list [sym "pos", sym "V", .number (.real .zero)]

def hashLet : Definition where
  name := ascii "hash"
  params := list [sym "let", sym "V"]
  body :=
    list [sym "let", sym "W", list [sym "shen.mod", list [sym "shen.hashkey", sym "let"], sym "V"],
      list [sym "if", list [sym "=", sym "W", int 0], int 1, sym "W"]]

def failAgain : Definition := ⟨ascii "fail", .nil, str "..."⟩

/-- The pinned kernel, and then another definition of `fail`. -/
def kernelTwice : List Form := kernelPinned ++ [⟨some failAgain, []⟩]

/-- The walk takes `0.0` for `0`, and a `let` that is a parameter for the special form; and the
certificate is emitted for a kernel whose last definition of `fail` is another one. -/
theorem certification_fails :
    (∃ t ∈ templates, t.accepts hdstrReal = true ∧ hdstrReal.nameless false ≠ t.nameless false) ∧
    (∃ t ∈ templates, t.accepts hashLet = true ∧ hashLet.nameless false ≠ t.nameless false) ∧
    installsNativeHash ⟨false, false, false⟩ ⟨[], kernelTwice, []⟩ = true ∧
    (bootstrap ⟨false, false, false⟩ ⟨[], kernelTwice, []⟩).source (ascii "fail") = some failAgain ∧
    ∀ t ∈ nativeHashTemplates, t.accepts failAgain = false := by
  refine ⟨⟨templates.get ⟨19, by decide +kernel⟩, List.get_mem _ _, by decide +kernel⟩,
    ⟨templates.get ⟨0, by decide +kernel⟩, List.get_mem _ _, by decide +kernel⟩,
    by decide +kernel, by decide +kernel, by decide +kernel⟩

end ShenRc.Emit
