import ShenRc.Eval.Plan

/-! # Hooks around the reader

While `compile-kl` reads a source, the functions through which reading changes persistent state are
replaced by hooks: a hook calls the original, counts how deep the calls are nested that stand for all
they do, and records the successful ones that are not nested, in a vector of four slots. A session is
the list of the hooked calls, each with the hooked calls made in it; what the program under the reader
decides (whether a call fails, and so on) is part of the tree. -/

namespace ShenRc.Capture

open Numeral Eval

/-! ### Calls -/

/-- `ReaderHookKind`. -/
inductive Kind
  | call | defun | macro_ | datatype | set | put | unput | address
  deriving DecidableEq, Repr

/-- `reader_hooks`. -/
inductive Hook
  | storeArity | recordKl | recordExternal | recordInternal | evalKl | recordMacro
  | rememberDatatype | set | put | unput | address | synonyms
  deriving DecidableEq, Repr

namespace Hook

def name : Hook → String
  | storeArity => "shen.store-arity"
  | recordKl => "shen.record-kl"
  | recordExternal => "shen.record-external"
  | recordInternal => "shen.record-internal"
  | evalKl => "eval-kl"
  | recordMacro => "shen.record-macro"
  | rememberDatatype => "shen.remember-datatype"
  | set => "set"
  | put => "put"
  | unput => "unput"
  | address => "address->"
  | synonyms => "shen.synonyms-h"

def kind : Hook → Kind
  | storeArity | recordKl | recordExternal | recordInternal | synonyms => .call
  | evalKl => .defun
  | recordMacro => .macro_
  | rememberDatatype => .datatype
  | set => .set
  | put => .put
  | unput => .unput
  | address => .address

end Hook

/-- How a call goes, as far as the hook does not decide it: whether the original returns a value,
whether its evaluation has executed a definition inside the expression, what `*property-vector*` is and
what the lookup of a lambda form gives when it returns, and whether the memory was there to raise the
depth and to store the event. -/
structure Host where
  ok : Bool
  defines : Bool := false
  properties : Option Expr := none
  entry : Option Expr := none
  entered : Bool := true
  stored : Bool := true

/-- A hooked call and the hooked calls made in it, in the order in which they are made. -/
inductive Call
  | mk (hook : Hook) (argv : List Expr) (nested : List Call) (host : Host)

/-- The place of a call in the tree of a session. -/
abbrev Path := List ℕ

/-! ### Tests on arguments -/

/-- `rc_head_borrowed`; what is not there reads like nil. -/
def headOf : Expr → Expr
  | .pair _ head _ => head
  | _ => .nil

def tailOf : Expr → Expr
  | .pair _ _ tail => tail
  | _ => .nil

/-- `argv[i]`. -/
def arg (argv : List Expr) (i : ℕ) : Expr := argv.getD i .nil

/-- `contains_definition`. -/
def containsDefinition : ℕ → Expr → Bool
  | depth, .pair _ head tail =>
    2048 < depth || head.named "defun" || containsDefinition (depth + 1) head
      || containsDefinition depth tail
  | depth, _ => 2048 < depth

def rootDefinition (argv : List Expr) : Bool := (headOf (arg argv 0)).named "defun"

/-- The body of a root definition. -/
def definitionBody (argv : List Expr) : Expr := headOf (tailOf (tailOf (tailOf (arg argv 0))))

/-- Whether the hooked calls in a call are taken to be part of it. -/
def suppresses (hook : Hook) (argv : List Expr) : Bool :=
  match hook.kind with
  | .call | .macro_ | .datatype | .put | .unput => true
  | .defun => rootDefinition argv
  | .set | .address => false

/-- The vector that is written. -/
def target (hook : Hook) (argv : List Expr) : Expr :=
  match hook.kind with
  | .put => arg argv 3
  | .unput => arg argv 2
  | _ => arg argv 0

/-- Whether the vector that is written is the property vector. -/
def writesProperties (hook : Hook) (argv : List Expr) (host : Host) : Bool :=
  host.properties.any fun v => v.handle == (target hook argv).handle

/-- Whether a callback is the one that the lambda form of its name gives. -/
def standard (argv : List Expr) (host : Host) : Bool :=
  host.entry.any fun v => v.handle == (arg argv 1).handle

/-! ### Recording -/

/-- An event, with the place of the call it was recorded for. -/
structure Event where
  source : Path
  tag : String
  name : Option String := none
  args : List Expr

/-- The vector `events`: the recorded events, the last first, the depth, the reason why the state that
was read cannot be kept, and whether there was parser residue. -/
structure ReaderCapture where
  events : List Event := []
  depth : ℕ := 0
  unsupported : Option String := none
  residue : Bool := false

namespace ReaderCapture

variable (s : ReaderCapture)

/-- `unsupported_capture`. -/
def unsupportedCapture (reason : String) : ReaderCapture := { s with unsupported := some reason }

/-- What is left of `capture_reader_event` if something could not be stored. -/
def cannotCapture : ReaderCapture := s.unsupportedCapture "compile-kl: cannot capture reader state"

/-- `append_event`, and the report if it fails. -/
def appendEvent (event : Event) (stored : Bool) : ReaderCapture :=
  if stored then { s with events := event :: s.events } else s.cannotCapture

end ReaderCapture

/-- The second half of `capture_reader_event`, for a call that succeeded outside the calls that stand
for all they do. -/
def record (path : Path) (hook : Hook) (argv : List Expr) (host : Host) (s : ReaderCapture) :
    ReaderCapture :=
  match hook.kind with
  | .call => s.appendEvent ⟨path, "call", some hook.name, argv⟩ host.stored
  | .defun =>
    if rootDefinition argv then
      if containsDefinition 0 (definitionBody argv) then
        s.unsupportedCapture
          "compile-kl: nested definitions in reader-installed auxiliary functions are unsupported"
      else s.appendEvent ⟨path, "definition", none, argv.take 1⟩ host.stored
    else if containsDefinition 0 (arg argv 0) then
      s.unsupportedCapture
        "compile-kl: nested persistent definitions in reader eval-kl are unsupported"
    else s
  | .macro_ | .datatype =>
    if standard argv host then
      s.appendEvent ⟨path, if hook.kind = .macro_ then "macro" else "datatype", none, argv.take 1⟩
        host.stored
    else
      s.unsupportedCapture "compile-kl: custom macro/datatype callback persistence is unsupported"
  | .set =>
    if !(arg argv 0).isSymbol then
      s.unsupportedCapture "compile-kl: reader global name is not a symbol"
    else if (arg argv 0).named "shen.*residue*" then
      if host.stored then { s with residue := true } else s.cannotCapture
    else if (arg argv 0).named "shen.*gensym*" then s
    else s.appendEvent ⟨path, "global", none, argv.take 2⟩ host.stored
  | .put | .unput | .address =>
    if host.properties.isNone then s.cannotCapture
    else if writesProperties hook argv host then
      if hook.kind = .put then
        s.appendEvent ⟨path, "property", none, argv.take 3⟩ host.stored
      else if hook.kind = .unput then
        s.appendEvent ⟨path, "unproperty", none, argv.take 2⟩ host.stored
      else
        s.unsupportedCapture
          "compile-kl: direct reader mutation of the persistent property vector is unsupported; use put"
    else if hook.kind ≠ .address then
      s.unsupportedCapture "compile-kl: custom persistent property vectors are unsupported"
    else s

/-- The depth while the original runs. -/
def enter (hook : Hook) (argv : List Expr) (s : ReaderCapture) : ReaderCapture :=
  if suppresses hook argv then { s with depth := s.depth + 1 } else s

/-- The depth is what it was. -/
def leave (hook : Hook) (argv : List Expr) (depth : ℕ) (s : ReaderCapture) : ReaderCapture :=
  if suppresses hook argv then { s with depth := depth } else s

mutual

/-- `capture_reader_event`. -/
def captureReaderEvent (path : Path) : Call → ReaderCapture → ReaderCapture
  | .mk hook argv nested host, s =>
    if suppresses hook argv && !host.entered then s.cannotCapture
    else
      let after := leave hook argv s.depth (captureAll path 0 nested (enter hook argv s))
      if !host.ok || s.depth != 0 then after else record path hook argv host after

/-- The calls made in a call, or by the reader itself, from the `i`-th on. -/
def captureAll (path : Path) : ℕ → List Call → ReaderCapture → ReaderCapture
  | _, [], s => s
  | i, c :: cs, s => captureAll path (i + 1) cs (captureReaderEvent (path ++ [i]) c s)

end

/-- A session, from `begin_reader_capture` to `end_reader_capture`. -/
def session (cs : List Call) : ReaderCapture := captureAll [] 0 cs {}

/-! ### What the calls change -/

/-- A change of a global, of the property vector or of the function store. -/
inductive Change
  | global (name : Expr)
  | property
  | function

/-- What a call changes itself. The registrations change what they change by the calls in them. -/
def ownChanges (hook : Hook) (argv : List Expr) (host : Host) : List Change :=
  match hook.kind with
  | .call | .macro_ | .datatype => []
  | .defun =>
    if rootDefinition argv then if host.ok then [.function] else []
    else if containsDefinition 0 (arg argv 0) && host.defines then [.function] else []
  | .set => if host.ok then [.global (arg argv 0)] else []
  | .put | .unput | .address =>
    if host.ok && writesProperties hook argv host then [.property] else []

mutual

/-- The changes that take effect in a call, each with the call that makes it. -/
def changes (path : Path) : Call → List (Path × Change)
  | .mk hook argv nested host =>
    if suppresses hook argv && !host.entered then []
    else changesAll path 0 nested ++ (ownChanges hook argv host).map (path, ·)

def changesAll (path : Path) : ℕ → List Call → List (Path × Change)
  | _, [] => []
  | i, c :: cs => changes (path ++ [i]) c ++ changesAll path (i + 1) cs

end

end ShenRc.Capture
