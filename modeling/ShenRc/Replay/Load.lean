import Mathlib.Logic.Function.Basic
import ShenRc.Replay.Format

/-! # Loads with a cache of checks

Within a load the checker is wrapped: its calls are recorded, or replayed from the recording of an
earlier load in the same situation. A program is what the rest of the runtime does between the calls
of the two wrappers; `run` is the program with the wrappers, over the state of the cache. -/

namespace ShenRc.Replay

open Numeral

/-! ### State -/

/-- `TcLoadCtx`: a load in progress. -/
structure LoadCtx where
  fileHash : UInt64
  gensymStart : Int64
  gensymEndRecorded : Int64 := 0
  replay : Bool
  poisoned : Bool := false
  digest : UInt64 := fnvInit
  tc : List TcEntry := []
  cursor : ℕ := 0
  ckpt : List UInt64 := []
  ckptCursor : ℕ := 0
  tcDepth : ℕ := 0

/-- `TcState`, with the directory of recordings, the counter `shen.*gensym*` and the switch
`shen.*tc*`. The innermost load is the first of the stack. -/
structure TcState where
  chain : UInt64
  stack : List LoadCtx
  files : UInt64 → Option Text
  gensym : Int64
  tcOn : Option Bool
  hits : ℕ := 0
  misses : ℕ := 0

namespace TcState

variable (s : TcState)

/-- `pin_gensym_forward`. -/
def pin (target : Int64) : TcState := if s.gensym < target then { s with gensym := target } else s

/-- `poison_top`. -/
def poisonTop : TcState :=
  match s.stack with
  | [] => s
  | top :: rest => { s with stack := { top with poisoned := true } :: rest }

end TcState

/-- The value of a computation, unless it raises, and the state. -/
abbrev Outcome := Option Value × TcState

/-! ### Checks -/

/-- `with_depth_orig`. Outside of every load an exception is caught and lost. -/
def withDepthOrig (orig : TcState → Outcome) (s : TcState) : Outcome :=
  match s.stack with
  | [] =>
    let r := orig s
    (some (r.1.getD .null), r.2)
  | top :: rest =>
    let r := orig { s with stack := { top with tcDepth := top.tcDepth + 1 } :: rest }
    match r.2.stack with
    | [] => r
    | top :: rest =>
      (r.1, { r.2 with stack := { top with tcDepth := top.tcDepth - 1 } :: rest })

/-- The entry for a check that has given a value: `false` is not replayed. -/
def entryOf (hash : Option UInt64) (v : Value) (gensym : Int64) : TcEntry where
  hash := hash
  val := if hash.isSome && v != .bool false then some v else none
  gensymAfter := gensym

/-- `fnv_u64(&top->digest, has_hash ? arg_hash : 0)`. -/
def LoadCtx.note (c : LoadCtx) (hash : Option UInt64) : LoadCtx :=
  { c with digest := fnvU64 c.digest (hash.getD 0) }

/-- `stream_wrapper`, when the check is recorded. -/
def recordCheck (orig : TcState → Outcome) (hash : Option UInt64) (s : TcState) : Outcome :=
  let r := withDepthOrig orig s
  match r.1, r.2.stack with
  | some v, top :: rest =>
    (some v, { r.2 with
      stack := { top.note hash with tc := top.tc ++ [entryOf hash v r.2.gensym] } :: rest })
  | _, _ => r

/-- `stream_wrapper`, when the next entry of the recording is at hand. -/
def replayCheck (orig : TcState → Outcome) (hash : Option UInt64) (top : LoadCtx)
    (rest : List LoadCtx) (s : TcState) : Outcome :=
  match top.tc[top.cursor]? with
  | some e =>
    if e.hash = hash then
      let s := { s with stack := { top.note hash with cursor := top.cursor + 1 } :: rest }
      match e.val with
      | some v => (some v, s.pin e.gensymAfter)
      | none => withDepthOrig orig s
    else withDepthOrig orig s.poisonTop
  | none => withDepthOrig orig s.poisonTop

/-- `stream_wrapper`. -/
def streamWrapper (orig : TcState → Outcome) (args : List Value) (s : TcState) : Outcome :=
  match s.stack with
  | [] => withDepthOrig orig s
  | top :: rest =>
    if top.poisoned = true ∨ 0 < top.tcDepth then withDepthOrig orig s
    else if top.replay then replayCheck orig (hashArgs args) top rest s
    else recordCheck orig (hashArgs args) s

/-! ### Loads -/

/-- The situation in which a load starts. -/
def situation (s : TcState) (fileHash : UInt64) (tcOn : Bool) : Situation :=
  ⟨s.chain, s.stack.reverse.map fun c => (c.fileHash, c.digest), fileHash, tcOn, s.gensym⟩

/-- The recording that a load can use. -/
def cached (s : TcState) (key : UInt64) : Option TcRecording := (s.files key).bind readCache

/-- `native_tc_load`, up to the call of the original. -/
def beginLoad (fileHash key : UInt64) (s : TcState) : TcState :=
  match cached s key with
  | some rec =>
    let start := if rec.gensymStart < s.gensym then s.gensym else rec.gensymStart
    let ctx : LoadCtx :=
      { fileHash := fileHash
        gensymStart := start
        gensymEndRecorded := rec.gensymEnd
        replay := true
        tc := rec.tc
        ckpt := rec.ckpt }
    { s.pin rec.gensymStart with
      hits := s.hits + 1
      stack := ctx :: s.stack }
  | none =>
    { s with
      misses := s.misses + 1
      stack := { fileHash := fileHash, gensymStart := s.gensym, replay := false } :: s.stack }

/-- The load that contains another one learns of its end. -/
def noteLoad (newChain : UInt64) (s : TcState) : TcState :=
  match s.stack with
  | [] => s
  | parent :: rest =>
    let parent := { parent with digest := fnvU64 parent.digest newChain }
    if parent.replay then
      if parent.ckpt[parent.ckptCursor]? = some newChain then
        { s with stack := { parent with ckptCursor := parent.ckptCursor + 1 } :: rest }
      else { s with stack := { parent with poisoned := true } :: rest }
    else { s with stack := { parent with ckpt := parent.ckpt ++ [newChain] } :: rest }

/-- What a load that is done has recorded. -/
def LoadCtx.recording (c : LoadCtx) (gensym : Int64) : TcRecording :=
  ⟨c.gensymStart, gensym, c.tc, c.ckpt⟩

/-- The file of a load that is done. `writable` says which files `write_cache` can write. -/
def keepLoad (writable : UInt64 → Bool) (key : UInt64) (done : LoadCtx) (s : TcState) : TcState :=
  if done.replay then s.pin done.gensymEndRecorded
  else if done.poisoned = false ∧ writable key = true then
    { s with files := Function.update s.files key (some (writeCache (done.recording s.gensym))) }
  else s

/-- `native_tc_load`, from the return of the original on. -/
def finishLoad (writable : UInt64 → Bool) (fileHash key : UInt64) (tcOn : Bool) (r : Outcome) :
    Outcome :=
  match r.1, r.2.stack with
  | some v, done :: rest =>
    let newChain := chainStep r.2.chain fileHash tcOn
    let s := { r.2 with
      stack := rest
      chain := newChain }
    (some v, noteLoad newChain (keepLoad writable key done s))
  | none, _ :: rest => (none, { r.2 with stack := rest }.poisonTop)
  | _, [] => r

/-- `native_tc_load`. Without the text of the file, or the switch, nothing is recorded. -/
def nativeLoad (writable : UInt64 → Bool) (orig : TcState → Outcome) (fileHash : Option UInt64)
    (s : TcState) : Outcome :=
  match fileHash, s.tcOn with
  | some fileHash, some tcOn =>
    let key := loadKey (situation s fileHash tcOn)
    finishLoad writable fileHash key tcOn (orig (beginLoad fileHash key s))
  | _, _ => orig s.poisonTop

/-! ### Programs -/

/-- What a program does with the cache, up to its value or an exception that it raises. The rest of
the runtime decides how it goes on. `check` is a call of the checker, with what the original does;
`load` a load, with the hash of the text and what the original does. An exception of either comes back
as no value. -/
inductive Prog
  | ret (v : Value)
  | raise
  | fresh (k : Int64 → Prog)
  | setTc (tcOn : Option Bool) (k : Prog)
  | check (args : List Value) (orig : Prog) (k : Option Value → Prog)
  | load (fileHash : Option UInt64) (body : Prog) (k : Option Value → Prog)

/-- The program with the wrappers. -/
def run (writable : UInt64 → Bool) : Prog → TcState → Outcome
  | .ret v => fun s => (some v, s)
  | .raise => fun s => (none, s)
  | .fresh k => fun s =>
    if s.gensym < Int64.maxValue then
      run writable (k (s.gensym + 1)) { s with gensym := s.gensym + 1 }
    else (none, s)
  | .setTc tcOn k => fun s => run writable k { s with tcOn := tcOn }
  | .check args orig k => fun s =>
    let r := streamWrapper (run writable orig) args s
    run writable (k r.1) r.2
  | .load fileHash body k => fun s =>
    let r := nativeLoad writable (run writable body) fileHash s
    run writable (k r.1) r.2

end ShenRc.Replay
