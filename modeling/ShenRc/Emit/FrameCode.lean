import Mathlib.Logic.Function.Basic
import ShenRc.Flow.Lines
import ShenRc.Emit.FrameLines

/-! # Cleanup of empty slots

The emitter writes a cleanup wherever a slot may hold a value. `frame_code` goes over the lines of a
function once and leaves out the cleanups of slots that are empty there. A function starts with an
empty frame; control comes in from elsewhere only where nothing is known (`recognise_boundary`). So
the function returns as it did (`frameCode_returns`). -/

namespace ShenRc.Emit

open Numeral ShenRc.Flow

/-! ### The pass -/

/-- A line, and its place in the function. -/
abbrev Placed : Type := Text × ℕ

/-- Whether the line is left out, and the slots that are empty behind it. -/
def scanLine (slots : ℕ) (nulls : ℕ → Bool) (line : Text) : Bool × (ℕ → Bool) :=
  match recognise slots line with
  | .release a => (nulls a, Function.update nulls a true)
  | .dropRange a b => ((List.range' a (b - a)).all nulls, fun k => (a ≤ k && k < b) || nulls k)
  | .clear a => (false, Function.update nulls a true)
  | .move a b => (false, Function.update (Function.update nulls a (nulls b)) b true)
  | .scratch => (false, nulls)
  | .test => (false, nulls)
  | .assign a => (false, Function.update nulls a false)
  | .other => (false, fun _ => false)

def isDropRange : Line → Bool
  | .dropRange _ _ => true
  | _ => false

/-- The lines that are left, and `drop_range_emitted`. -/
def frameCode (slots : ℕ) : (ℕ → Bool) → List Placed → List Placed × Bool
  | _, [] => ([], false)
  | nulls, l :: rest =>
    let (omitted, nulls) := scanLine slots nulls l.1
    let (out, emitted) := frameCode slots nulls rest
    if omitted then (out, emitted) else (l :: out, isDropRange (recognise slots l.1) || emitted)

/-! ### What the lines do -/

variable {V W : Type}

/-- The slots of a function, and everything else. -/
structure Frame (V W : Type) where
  slot : ℕ → Option V
  world : W

/-- What the functions that are called do, and where a jump goes. A call gets values, never a slot. -/
structure Calls (V W : Type) where
  release : V → W → W
  scratch : Placed → Frame V W → W
  value : Placed → Frame V W → Option V × W
  taken : Placed → Frame V W → Option ℕ
  other : Placed → Frame V W → Frame V W × Option ℕ
  recur : ℕ
  restart : Frame V W → W

namespace Frame

def set (s : Frame V W) (a : ℕ) (v : Option V) : Frame V W := { s with slot := Function.update s.slot a v }

/-- `if(t[a]) rc_release(t[a]); t[a]=NULL;` -/
def drop (C : Calls V W) (s : Frame V W) (a : ℕ) : Frame V W :=
  match s.slot a with
  | none => s.set a none
  | some v => ⟨Function.update s.slot a none, C.release v s.world⟩

def start (w : W) : Frame V W := ⟨fun _ => none, w⟩

end Frame

namespace Calls

variable (C : Calls V W) (slots : ℕ)

def exec (l : Placed) (s : Frame V W) : Frame V W × Option ℕ :=
  match recognise slots l.1 with
  | .release a => (s.drop C a, none)
  | .dropRange a b => ((List.range' a (b - a)).foldl (Frame.drop C) s, none)
  | .clear a => (s.set a none, none)
  | .move a b => ((s.set a (s.slot b)).set b none, none)
  | .scratch => ({ s with world := C.scratch l s }, none)
  | .test => (s, C.taken l s)
  | .assign a => (⟨Function.update s.slot a (C.value l s).1, (C.value l s).2⟩, none)
  | .other => C.other l s

/-- A jump goes behind a label or a brace. -/
def machine : Machine Placed (Frame V W) ℕ where
  exec := C.exec slots
  label l := if boundary l.1 then some l.2 else none

/-- The function leaves its lines. At `recur` it empties the frame and starts again. -/
inductive Returns (code : List Placed) : W → Option ℕ × Frame V W → Prop
  | leave {w x s} : (C.machine slots).Ends code (.start w) (x, s) → x ≠ some C.recur →
      Returns code w (x, s)
  | recur {w s r} : (C.machine slots).Ends code (.start w) (some C.recur, s) →
      Returns code (C.restart s) r → Returns code w r

end Calls

/-! ### The pass is sound -/

/-- The slots that are known to be empty are. -/
def Empty (nulls : ℕ → Bool) (s : Frame V W) : Prop := ∀ a, nulls a = true → s.slot a = none

variable {C : Calls V W} {slots : ℕ} {nulls : ℕ → Bool} {s : Frame V W} {a b : ℕ}

theorem Frame.drop_empty (h : s.slot a = none) : s.drop C a = s := by
  unfold drop
  rw [h]
  show (⟨Function.update s.slot a none, s.world⟩ : Frame V W) = s
  rw [← h, Function.update_eq_self]

theorem Frame.drop_slot (s : Frame V W) (a : ℕ) :
    (s.drop C a).slot = Function.update s.slot a none := by
  unfold drop
  split
  · rfl
  · rfl

theorem Frame.drops_empty {ks : List ℕ} (h : ∀ k ∈ ks, s.slot k = none) :
    ks.foldl (drop C) s = s := by
  induction ks with
  | nil => rfl
  | cons k ks ih =>
    rw [List.foldl_cons, drop_empty (h k List.mem_cons_self)]
    exact ih fun j hj => h j (List.mem_cons_of_mem k hj)

theorem Frame.drops_slot (ks : List ℕ) (s : Frame V W) (a : ℕ) :
    (ks.foldl (drop C) s).slot a = if a ∈ ks then none else s.slot a := by
  induction ks generalizing s with
  | nil => rw [List.foldl_nil, if_neg List.not_mem_nil]
  | cons k ks ih =>
    rw [List.foldl_cons, ih, drop_slot]
    by_cases hk : a = k
    · rw [hk, Function.update_self, if_pos List.mem_cons_self, ite_self]
    · rw [Function.update_of_ne hk]
      simp only [List.mem_cons, hk, false_or]

/-- A slot gets a value, and the fact about it is set. -/
theorem Empty.update {v : Option V} {known : Bool} {w : W} (h : Empty nulls s)
    (hv : known = true → v = none) :
    Empty (Function.update nulls a known) (⟨Function.update s.slot a v, w⟩ : Frame V W) := by
  intro k hk
  show Function.update s.slot a v k = none
  by_cases hka : k = a
  · rw [hka, Function.update_self] at hk ⊢
    exact hv hk
  · rw [Function.update_of_ne hka] at hk ⊢
    exact h k hk

/-- What is left out does nothing. -/
theorem scanLine_omitted {l : Placed} (h : Empty nulls s) (homit : (scanLine slots nulls l.1).1 = true) :
    C.exec slots l s = (s, none) := by
  unfold scanLine at homit
  unfold Calls.exec
  generalize recognise slots l.1 = line at homit ⊢
  rcases line with a | ⟨a, b⟩ | a | ⟨a, b⟩ | _ | _ | a | _
  · exact congrArg (·, none) (Frame.drop_empty (h a homit))
  · exact congrArg (·, none) (Frame.drops_empty fun k hk => h k (List.all_eq_true.mp homit k hk))
  all_goals exact absurd homit (by simp)

/-- A line leaves the slots empty that are known to be empty behind it. -/
theorem scanLine_next {l : Placed} (h : Empty nulls s) :
    Empty (scanLine slots nulls l.1).2 (C.exec slots l s).1 := by
  unfold scanLine Calls.exec
  rcases recognise slots l.1 with a | ⟨a, b⟩ | a | ⟨a, b⟩ | _ | _ | a | _
  · intro k hk
    show (s.drop C a).slot k = none
    rw [Frame.drop_slot]
    exact Empty.update (w := s.world) h (fun _ => rfl) k hk
  · intro k hk
    show ((List.range' a (b - a)).foldl (Frame.drop C) s).slot k = none
    rw [Frame.drops_slot]
    split_ifs with hmem
    · rfl
    · refine h k ((Bool.or_eq_true_iff.mp hk).resolve_left fun hrange => hmem ?_)
      simp only [Bool.and_eq_true, decide_eq_true_eq] at hrange
      exact List.mem_range'_1.mpr (by omega)
  · exact h.update fun _ => rfl
  · exact (h.update (w := s.world) (h b)).update fun _ => rfl
  · exact h
  · exact h
  · exact h.update fun hfalse => absurd hfalse (by decide)
  · exact fun k hk => absurd hk Bool.false_ne_true

/-- Nothing is known where control comes in. -/
theorem scanLine_boundary {line : Text} (h : boundary line = true) :
    scanLine slots nulls line = (false, fun _ => false) := by
  unfold scanLine
  rw [recognise_boundary h]

def framePass (C : Calls V W) (slots : ℕ) : Pass (C.machine slots) (ℕ → Bool) where
  scan nulls l := scanLine slots nulls l.1
  holds := Empty
  omitted _ _ _ h homit := scanLine_omitted h homit
  next _ _ _ h _ := scanLine_next h
  label nulls l x hl := by
    have hboundary : boundary l.1 = true := by
      by_contra hb
      exact absurd hl (by simp [Calls.machine, hb])
    rw [scanLine_boundary hboundary]
    exact ⟨rfl, fun s k hk => absurd hk Bool.false_ne_true⟩

theorem frameCode_left (C : Calls V W) (slots : ℕ) (code : List Placed) (nulls : ℕ → Bool) :
    (frameCode slots nulls code).1 = (framePass C slots).left nulls code := by
  induction code generalizing nulls with
  | nil => rfl
  | cons l rest ih =>
    rw [frameCode, Pass.left]
    show _ = if (scanLine slots nulls l.1).1 then (framePass C slots).left (scanLine slots nulls l.1).2 rest
      else l :: (framePass C slots).left (scanLine slots nulls l.1).2 rest
    rcases scanLine slots nulls l.1 with ⟨_ | _, known⟩
    · exact congrArg (l :: ·) (ih known)
    · exact ih known

/-- The frame of a function is empty at its first line. -/
theorem frameCode_ends {code : List Placed} {w : W} {r : Option ℕ × Frame V W} :
    (C.machine slots).Ends (frameCode slots (fun _ => true) code).1 (.start w) r ↔
      (C.machine slots).Ends code (.start w) r := by
  rw [frameCode_left C]
  exact (framePass C slots).ends_iff fun _ _ => rfl

/-- **A function returns as before when `frame_code` has left cleanups out.** -/
theorem frameCode_returns (C : Calls V W) (slots : ℕ) (lines : List Text) (w : W)
    (r : Option ℕ × Frame V W) :
    C.Returns slots (frameCode slots (fun _ => true) lines.zipIdx).1 w r ↔
      C.Returns slots lines.zipIdx w r := by
  constructor
  · intro h
    induction h with
    | leave hends hx => exact .leave (frameCode_ends.mp hends) hx
    | recur hends _ ih => exact .recur (frameCode_ends.mp hends) ih
  · intro h
    induction h with
    | leave hends hx => exact .leave (frameCode_ends.mpr hends) hx
    | recur hends _ ih => exact .recur (frameCode_ends.mpr hends) ih

example : (frameCode 2 (fun _ => true) [(ascii "  t[0]=argv[0];", 0),
    (ascii "  if(t[1]) rc_release(t[1]); t[1]=NULL;", 1), (ascii "  rc_drop_range(t,0,2);", 2)]).1.map
    Prod.snd = [0, 2] := by decide

end ShenRc.Emit
