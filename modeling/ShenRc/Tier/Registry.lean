import ShenRc.Probing.Slots
import Mathlib.Data.List.Range

/-! # The registry of the native tier

Interpreted functions are registered when they are defined and counted when they are called; the ones
that are called often enough are listed as pending and offered to the compiler at a safepoint. The
entries lie in an array, found from the closure through a table with linear probing whose slots hold
the index of an entry or a tombstone. An entry that is retired is zeroed; when the array is full,
the others move together and the table and the list are built again. -/

namespace ShenRc.Tier

open Probing

inductive EntryState
  | cold | pending | failed | promoted | stale
  deriving DecidableEq, Repr

/-- `Entry`. The closure, the name and the syntax are handles; a zeroed entry has no closure. -/
structure Entry where
  fn : Option ℕ := none
  name : ℕ := 0
  definition : ℕ := 0
  calls : ℕ := 0
  state : EntryState := .cold

/-- A slot that is not empty. -/
inductive Slot
  | tombstone
  | entry (index : ℕ)
  deriving DecidableEq

def Slot.isEntry : Slot → Bool
  | .tombstone => false
  | .entry _ => true

/-- `Tier`, diagnostics and what the compiler needs apart. -/
structure Registry where
  entries : ℕ → Entry := fun _ => {}
  nentries : ℕ := 0
  entryCap : ℕ := 0
  live : ℕ := 0
  slots : ℕ → Option Slot := fun _ => none
  slotCap : ℕ := 0
  slotUsed : ℕ := 0
  pending : List ℕ := []
  pendingCap : ℕ := 0
  threshold : ℕ
  countOnly : Bool
  disabled : Bool
  busy : Bool := false

/-- Which requests to the allocator find room. -/
structure Room where
  slots : Bool
  entries : Bool
  pending : Bool
  compact : ℕ → Bool

/-- The slots without the tombstones. -/
def liveSlots (slots : ℕ → Option Slot) : ℕ → Option Slot := fun i => (slots i).filter Slot.isEntry

/-- The loop of `grow_slots` that doubles the size up to the target. -/
def doubled (target cap : ℕ) : ℕ :=
  if 0 < cap ∧ cap < target then doubled target (cap * 2) else cap
termination_by target - cap
decreasing_by omega

namespace Registry

section

variable (address : ℕ → BitVec 64) (t : Registry)

/-- `hash_ptr` without the mask; `address` is where the closures lie. -/
def hashWord (fn : ℕ) : ℕ :=
  let x := address fn
  let x := x ^^^ x >>> 33
  let x := x * 0xff51afd7ed558ccd
  (x ^^^ x >>> 33).toNat

/-- The closure of the entry in a slot. -/
def fnOf : Slot → Option ℕ
  | .tombstone => none
  | .entry e => (t.entries e).fn

/-- `find_slot`. A search that does not end has no result. -/
def findSlot (fn : ℕ) : Option (Option ℕ) :=
  if t.slotCap = 0 then some none
  else
    (Probing.findSlot (fun s => t.fnOf s == some fn) t.slotCap t.slots (hashWord address fn)).map
      fun i => (t.slots i).map fun _ => i

/-- Where the entry in a slot belongs. -/
def home (s : Slot) : ℕ := ((t.fnOf s).map (hashWord address)).getD 0

/-- The size of the table that `grow_slots` asks for. -/
def grownCap : ℕ := doubled (4 * (t.live + 1)) (if t.slotCap = 0 then 1024 else t.slotCap * 2)

/-- `grow_slots`. -/
def growSlots (room : Bool) : Option (Registry × Bool) :=
  if room then
    (rehash (t.home address) t.grownCap (Probing.entries t.slotCap (liveSlots t.slots))
      fun _ => none).map fun slots =>
        ({ t with slots, slotCap := t.grownCap, slotUsed := t.live }, true)
  else some (t, false)

/-- `retire` the entry in a slot. -/
def retire (i : ℕ) : Registry :=
  match t.slots i with
  | some (.entry e) =>
    { t with
      entries := Function.update t.entries e {}
      slots := Function.update t.slots i (some .tombstone)
      live := t.live - 1 }
  | _ => t

/-- `push_pending`. -/
def pushPending (index : ℕ) (room : Bool) : Registry :=
  if t.pending.length = t.pendingCap ∧ room = false then t
  else
    { t with
      entries := Function.update t.entries index { t.entries index with state := .pending }
      pending := t.pending ++ [index]
      pendingCap :=
        if t.pending.length = t.pendingCap then
          if t.pendingCap = 0 then 256 else t.pendingCap * 2
        else t.pendingCap }

/-- The loop that moves the entries in use together: how many there are, and the array. -/
def together (entries : ℕ → Entry) : ℕ → ℕ × (ℕ → Entry)
  | 0 => (0, entries)
  | n + 1 =>
    let r := together entries n
    if (r.2 n).fn.isSome then (r.1 + 1, Function.update r.2 r.1 (r.2 n)) else r

/-- The loop that lists the pending entries again. -/
def relist (room : ℕ → Bool) (is : List ℕ) (t : Registry) : Registry :=
  is.foldl (fun t i =>
    if (t.entries i).state = .pending then t.pushPending i (room i) else t) t

/-- The compaction in `on_defun`. -/
def compact (room : ℕ → Bool) : Option Registry :=
  let r := together t.entries t.nentries
  if r.1 = t.nentries then some { t with entries := r.2 }
  else
    let t := relist room (List.range r.1) { t with entries := r.2, nentries := r.1, pending := [] }
    (rehash (t.home address) t.slotCap ((List.range r.1).map Slot.entry) fun _ => none).map
      fun slots => { t with slots, slotUsed := r.1 }

/-- `on_defun` makes room for one more entry. -/
def roomForEntry (room : Room) : Option (Registry × Bool) :=
  if t.nentries = t.entryCap then
    (t.compact address room.compact).map fun t =>
      if t.nentries = t.entryCap then
        if room.entries then
          ({ t with entryCap := if t.entryCap = 0 then 1024 else t.entryCap * 2 }, true)
        else (t, false)
      else (t, true)
  else some (t, true)

/-- `on_defun` makes room in the table. -/
def roomForSlot (room : Room) : Option (Registry × Bool) :=
  if 3 * t.slotCap < 4 * (t.slotUsed + 1) then t.growSlots address room.slots else some (t, true)

/-- The entry goes behind the others, its index into the slot. -/
def placeEntry (entry : Entry) (j : ℕ) : Registry :=
  { t with
    entries := Function.update t.entries t.nentries entry
    nentries := t.nentries + 1
    slots := Function.update t.slots j (some (.entry t.nentries))
    slotUsed := if (t.slots j).isNone then t.slotUsed + 1 else t.slotUsed
    live := t.live + 1 }

/-- The end of `on_defun`: the entry, in the first slot that is empty or a tombstone. -/
def addEntry (name definition fn : ℕ) : Option Registry :=
  (openSlot t.slotCap (liveSlots t.slots) (hashWord address fn)).map
    (t.placeEntry ⟨some fn, name, definition, 0, .cold⟩)

/-- The start of `on_defun`: the entry of the old function goes. -/
def forget (old : Option ℕ) : Option Registry :=
  match old with
  | none => some t
  | some old => (t.findSlot address old).map fun found => found.elim t t.retire

/-- The registration of a function in `on_defun`. -/
def register (name definition fn : ℕ) (room : Room) : Option Registry :=
  (t.roomForSlot address room).bind fun r =>
    if r.2 then
      (r.1.roomForEntry address room).bind fun r =>
        if r.2 then
          (r.1.addEntry address name definition fn).map fun t =>
            if !t.countOnly && t.threshold == 0 then t.pushPending (t.nentries - 1) room.pending
            else t
        else some r.1
    else some r.1

/-- `on_defun`. -/
def onDefun (name definition fn : ℕ) (old : Option ℕ) (room : Room) : Option Registry :=
  (t.forget address old).bind fun t =>
    if t.disabled && !t.countOnly then some t else t.register address name definition fn room

/-- `on_call`. The number of calls is a 64-bit word. -/
def onCall (self : ℕ) (room : Bool) : Option Registry :=
  (t.findSlot address self).map fun found =>
    match found.bind t.slots with
    | some (.entry e) =>
      let calls := ((t.entries e).calls + 1) % 2 ^ 64
      let t := { t with entries := Function.update t.entries e { t.entries e with calls } }
      if calls = t.threshold ∧ (t.entries e).state = .cold ∧ t.countOnly = false ∧
          t.disabled = false then
        t.pushPending e room
      else t
    | _ => t

end

/-! ### The safepoint -/

/-- What `promote` makes of an entry it is offered. -/
inductive Outcome
  | untouched | failed | promoted | stale

def Outcome.state (o : Outcome) (s : EntryState) : EntryState :=
  match o with
  | .untouched => s
  | .failed => .failed
  | .promoted => .promoted
  | .stale => .stale

/-- What a safepoint meets: for the `b`-th batch the functions of the names, what becomes of the entries
it offers, and whether there turns out to be no compiler. -/
structure World where
  functionSlot : ℕ → ℕ → Option ℕ
  outcome : ℕ → ℕ → Outcome
  noCompiler : ℕ → Bool

/-- `BATCH_LIMIT`. -/
abbrev batchLimit : ℕ := 512

/-- The state of an entry is set. -/
def setState (t : Registry) (e : ℕ) (state : EntryState) : Registry :=
  { t with entries := Function.update t.entries e { t.entries e with state } }

@[simp] theorem setState_self (t : Registry) (e : ℕ) (state : EntryState) :
    (t.setState e state).entries e = { t.entries e with state } := Function.update_self ..

@[simp] theorem setState_ne (t : Registry) {d e : ℕ} (h : d ≠ e) (state : EntryState) :
    (t.setState e state).entries d = t.entries d := Function.update_of_ne h ..

/-- The inner loop of `on_safepoint`: the batch of at most `n` entries, and what is left to do. -/
def gather (functionSlot : ℕ → Option ℕ) : List ℕ → ℕ → Registry → Registry × List ℕ × List ℕ
  | [], _, t => (t, [], [])
  | i :: is, n, t =>
    if n = 0 then (t, [], i :: is)
    else if (t.entries i).fn.isNone || (t.entries i).state != .pending then
      gather functionSlot is n t
    else if functionSlot (t.entries i).name != (t.entries i).fn then
      gather functionSlot is n (t.setState i .stale)
    else
      let r := gather functionSlot is (n - 1) t
      (r.1, i :: r.2.1, r.2.2)

theorem gather_length (functionSlot : ℕ → Option ℕ) (is : List ℕ) (n : ℕ) (t : Registry) :
    (gather functionSlot is n t).2.2.length ≤ is.length := by
  induction is generalizing n t with
  | nil => exact Nat.le_refl 0
  | cons i is ih =>
    rw [gather]
    split_ifs
    · exact Nat.le_refl _
    · exact (ih n t).trans (Nat.le_succ _)
    · exact (ih n _).trans (Nat.le_succ _)
    · exact (ih (n - 1) t).trans (Nat.le_succ _)

/-- A batch that is not empty takes an entry off what is left to do. -/
theorem gather_lt (functionSlot : ℕ → Option ℕ) (i : ℕ) (is : List ℕ) (n : ℕ) (t : Registry) :
    (gather functionSlot (i :: is) (n + 1) t).2.2.length < (i :: is).length := by
  rw [gather, if_neg (Nat.succ_ne_zero n)]
  split_ifs
  · exact Nat.lt_succ_of_le (gather_length functionSlot is (n + 1) t)
  · exact Nat.lt_succ_of_le (gather_length functionSlot is (n + 1) _)
  · exact Nat.lt_succ_of_le (gather_length functionSlot is n t)

/-- `promote`, and the entries of the batch that the module lacked. -/
def promote (t : Registry) (outcome : ℕ → Outcome) (noCompiler : Bool) (batch : List ℕ) : Registry :=
  if batch = [] then t
  else
    { t with
      entries := fun e =>
        if e ∈ batch then
          let state := (outcome e).state (t.entries e).state
          { t.entries e with state := if state = .pending then .failed else state }
        else t.entries e
      disabled := t.disabled || noCompiler }

/-- The outer loop of `on_safepoint`. -/
def offer (w : World) (b : ℕ) : List ℕ → Registry → Registry
  | [], t => t
  | i :: is, t =>
    if t.disabled then t
    else
      let r := gather (w.functionSlot b) (i :: is) batchLimit t
      offer w (b + 1) r.2.2 (r.1.promote (w.outcome b) (w.noCompiler b) r.2.1)
termination_by todo => todo.length
decreasing_by exact gather_lt _ _ _ _ _

/-- The last loop of `on_safepoint`. -/
def sweep (address : ℕ → BitVec 64) : List ℕ → Registry → Option Registry
  | [], t => some t
  | i :: is, t =>
    match (t.entries i).fn with
    | none => sweep address is t
    | some fn =>
      if (t.entries i).state = .promoted ∨ (t.entries i).state = .stale then
        (t.findSlot address fn).bind fun found => sweep address is (found.elim t t.retire)
      else if (t.entries i).state = .pending then sweep address is (t.setState i .failed)
      else sweep address is t

/-- `on_safepoint`. -/
def onSafepoint (address : ℕ → BitVec 64) (w : World) (t : Registry) : Option Registry :=
  if t.pending = [] ∨ t.busy = true then some t
  else if t.disabled then some { t with pending := [] }
  else
    (sweep address t.pending
      (offer w 0 t.pending { t with busy := true, pending := [], pendingCap := 0 })).map fun t =>
        { t with busy := false }

/-! ### Runs -/

/-- A closure that is not that of an entry. -/
def Fresh (t : Registry) (fn : ℕ) : Prop := ∀ e < t.nentries, (t.entries e).fn ≠ some fn

/-- **One step of a run.** The closure of a definition has just been made, and the registry keeps those
of its entries, so it is not one of these. -/
inductive Step (address : ℕ → BitVec 64) : Registry → Registry → Prop
  | defun {t t' : Registry} (name definition fn : ℕ) (old : Option ℕ) (room : Room)
      (hfn : t.Fresh fn) (h : t.onDefun address name definition fn old room = some t') :
      Step address t t'
  | call {t t' : Registry} (self : ℕ) (room : Bool) (h : t.onCall address self room = some t') :
      Step address t t'
  | safepoint {t t' : Registry} (w : World) (h : t.onSafepoint address w = some t') :
      Step address t t'

/-- The registries of all runs. -/
def Reachable (address : ℕ → BitVec 64) (t : Registry) : Prop :=
  ∃ threshold countOnly disabled,
    Relation.ReflTransGen (Step address) { threshold, countOnly, disabled } t

end Registry

end ShenRc.Tier
