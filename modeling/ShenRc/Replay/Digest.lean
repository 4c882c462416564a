import ShenRc.Replay.Value

/-! # Digests

Arguments and keys are fed to FNV-1a as bytes. The bytes determine what they stand for
(`argsBytes_inj`, `keyBytes_inj`), so two checks or two loads can only be confused by the hash itself. -/

namespace ShenRc.Replay

open Numeral

/-! ### FNV -/

/-- `fnv_write`, one byte. -/
def fnvStep (h : UInt64) (b : UInt8) : UInt64 := (h ^^^ b.toUInt64) * 0x100000001b3

/-- `fnv_write`. -/
def fnvWrite (h : UInt64) (bytes : Text) : UInt64 := bytes.foldl fnvStep h

/-- The state of `fnv_init`. -/
def fnvInit : UInt64 := 0xcbf29ce484222325

/-- The last `n` bytes of a number, the least significant first. -/
def leBytes : ℕ → ℕ → Text
  | 0, _ => []
  | n + 1, v => UInt8.ofNat (v % 256) :: leBytes n (v / 256)

/-- The bytes that `fnv_u64` writes. -/
def le64 (v : UInt64) : Text := leBytes 8 v.toNat

/-- `fnv_u64`. -/
def fnvU64 (h v : UInt64) : UInt64 := fnvWrite h (le64 v)

theorem leBytes_length (n v : ℕ) : (leBytes n v).length = n := by
  induction n generalizing v with
  | zero => rfl
  | succ n ih => rw [leBytes, List.length_cons, ih]

theorem leBytes_inj {n v w : ℕ} (hv : v < 256 ^ n) (hw : w < 256 ^ n) (h : leBytes n v = leBytes n w) :
    v = w := by
  induction n generalizing v w with
  | zero =>
    rw [pow_zero, Nat.lt_one_iff] at hv hw
    rw [hv, hw]
  | succ n ih =>
    rw [pow_succ] at hv hw
    obtain ⟨hlow, hhigh⟩ := List.cons.inj h
    have hdiv := ih (by omega) (by omega) hhigh
    have hmod : v % 256 = w % 256 := by
      have hnat := congrArg UInt8.toNat hlow
      rwa [UInt8.toNat_ofNat_of_lt' (Nat.mod_lt _ (by decide)),
        UInt8.toNat_ofNat_of_lt' (Nat.mod_lt _ (by decide))] at hnat
    omega

theorem le64_inj {v w : UInt64} {x y : Text} (h : le64 v ++ x = le64 w ++ y) : v = w ∧ x = y := by
  obtain ⟨hle, hrest⟩ := List.append_inj h (by rw [le64, le64, leBytes_length, leBytes_length])
  have hv := v.toNat_lt
  have hw := w.toNat_lt
  exact ⟨UInt64.toNat_inj.mp (leBytes_inj (by omega) (by omega) hle), hrest⟩

/-! ### Arguments -/

/-- A string behind its length. -/
def sized (s : CString) : Text := le64 (UInt64.ofNat s.bytes.length) ++ s.bytes

/-- The bytes that `hash_value` writes. -/
def hashBytes : Value → Option Text
  | .cons car cdr => do
    let x ← hashBytes car
    let y ← hashBytes cdr
    some (99 :: (x ++ y))
  | .nil => some [110]
  | .bool b => some [if b then 116 else 117]
  | .long n => some (105 :: le64 n.toUInt64)
  | .double bits => some (102 :: le64 bits)
  | .symbol name => some (121 :: sized name.toCString)
  | .string s => some (115 :: sized s)
  | .null => none
  | .other _ => none

/-- The bytes that `hash_args` writes. -/
def argsBytes (args : List Value) : Option Text :=
  (args.mapM hashBytes).map fun bs => le64 (UInt64.ofNat args.length) ++ bs.flatten

/-- `hash_args`. -/
def hashArgs (args : List Value) : Option UInt64 := (argsBytes args).map (fnvWrite fnvInit)

theorem sized_inj {s t : CString} {x y : Text} (h : sized s ++ x = sized t ++ y) : s = t ∧ x = y := by
  rw [sized, sized, List.append_assoc, List.append_assoc] at h
  obtain ⟨hlen, hrest⟩ := le64_inj h
  have hs := s.small
  have ht := t.small
  have hnat := congrArg UInt64.toNat hlen
  have hsize : UInt64.size = 2 ^ 64 := rfl
  rw [UInt64.toNat_ofNat_of_lt' (by omega), UInt64.toNat_ofNat_of_lt' (by omega)] at hnat
  obtain ⟨hbytes, hxy⟩ := List.append_inj hrest hnat
  rcases s with ⟨bytes, h1, h2⟩
  exact ⟨(CString.mk.injEq ..).mpr hbytes, hxy⟩

theorem hashBytes_cons {car cdr : Value} {t : Text} (h : hashBytes (.cons car cdr) = some t) :
    ∃ x y, hashBytes car = some x ∧ hashBytes cdr = some y ∧ t = 99 :: (x ++ y) := by
  obtain ⟨x, hx, h⟩ := Option.bind_eq_some_iff.mp h
  obtain ⟨y, hy, h⟩ := Option.bind_eq_some_iff.mp h
  exact ⟨x, y, hx, hy, (Option.some.inj h).symm⟩

/-- The byte that a value starts with. -/
def tagOf : Value → UInt8
  | .cons _ _ => 99
  | .nil => 110
  | .bool b => if b then 116 else 117
  | .long _ => 105
  | .double _ => 102
  | .symbol _ => 121
  | .string _ => 115
  | .null => 0
  | .other _ => 0

theorem hashBytes_tag {v : Value} {s : Text} (h : hashBytes v = some s) : s.head? = some (tagOf v) := by
  rcases v with _ | _ | b | n | bits | name | str | ⟨car, cdr⟩ | a
  · exact absurd h (by simp [hashBytes])
  · exact Option.some.inj h ▸ rfl
  · exact Option.some.inj h ▸ rfl
  · exact Option.some.inj h ▸ rfl
  · exact Option.some.inj h ▸ rfl
  · exact Option.some.inj h ▸ rfl
  · exact Option.some.inj h ▸ rfl
  · obtain ⟨x, y, -, -, rfl⟩ := hashBytes_cons h
    rfl
  · exact absurd h (by simp [hashBytes])

/-- Values of one kind. -/
inductive SameKind : Value → Value → Prop
  | nil : SameKind .nil .nil
  | bool (b : Bool) : SameKind (.bool b) (.bool b)
  | long (m n : Int64) : SameKind (.long m) (.long n)
  | double (a b : UInt64) : SameKind (.double a) (.double b)
  | symbol (s t : SymbolName) : SameKind (.symbol s) (.symbol t)
  | string (s t : CString) : SameKind (.string s) (.string t)
  | cons (a b c d : Value) : SameKind (.cons a b) (.cons c d)

theorem sameKind_of_tagOf {v w : Value} (h : tagOf v = tagOf w) (h0 : tagOf v ≠ 0) :
    SameKind v w := by
  rcases v with _ | _ | (_ | _) | m | a | s | s | ⟨a, b⟩ | a <;>
    rcases w with _ | _ | (_ | _) | n | b | t | t | ⟨c, d⟩ | b <;>
      first
        | constructor
        | exact absurd rfl h0
        | exact absurd h (by simp [tagOf])

theorem hashBytes_kind {v w : Value} {s t x y : Text} (hv : hashBytes v = some s)
    (hw : hashBytes w = some t) (h : s ++ x = t ++ y) : SameKind v w := by
  have hhead := congrArg List.head? h
  rw [List.head?_append, List.head?_append, hashBytes_tag hv, hashBytes_tag hw] at hhead
  refine sameKind_of_tagOf (Option.some.inj hhead) fun h0 => ?_
  rcases v with _ | _ | (_ | _) | m | a | s | s | ⟨a, b⟩ | a
  case null => exact absurd hv (by simp [hashBytes])
  case other => exact absurd hv (by simp [hashBytes])
  all_goals exact absurd h0 (by simp [tagOf])

/-- **The bytes of a value determine it**, and where they end. -/
theorem hashBytes_inj {v w : Value} {s t x y : Text} (hv : hashBytes v = some s)
    (hw : hashBytes w = some t) (h : s ++ x = t ++ y) : v = w ∧ x = y := by
  induction v generalizing w s t x y with
  | null => exact absurd hv (by simp [hashBytes])
  | other a => exact absurd hv (by simp [hashBytes])
  | nil =>
    rcases hashBytes_kind hv hw h with ⟨⟩
    obtain rfl := Option.some.inj hv
    obtain rfl := Option.some.inj hw
    exact ⟨rfl, (List.cons.inj h).2⟩
  | bool b =>
    rcases hashBytes_kind hv hw h with ⟨⟩
    obtain rfl := Option.some.inj hv
    obtain rfl := Option.some.inj hw
    exact ⟨rfl, (List.cons.inj h).2⟩
  | long m =>
    rcases hashBytes_kind hv hw h with _ | _ | ⟨_, n⟩
    obtain rfl := Option.some.inj hv
    obtain rfl := Option.some.inj hw
    obtain ⟨hmn, hxy⟩ := le64_inj (List.cons.inj h).2
    exact ⟨congrArg Value.long (congrArg Int64.ofUInt64 hmn), hxy⟩
  | double a =>
    rcases hashBytes_kind hv hw h with _ | _ | _ | ⟨_, b⟩
    obtain rfl := Option.some.inj hv
    obtain rfl := Option.some.inj hw
    obtain ⟨hab, hxy⟩ := le64_inj (List.cons.inj h).2
    exact ⟨congrArg Value.double hab, hxy⟩
  | symbol name =>
    rcases hashBytes_kind hv hw h with _ | _ | _ | _ | ⟨_, name'⟩
    obtain rfl := Option.some.inj hv
    obtain rfl := Option.some.inj hw
    obtain ⟨hname, hxy⟩ := sized_inj (List.cons.inj h).2
    exact ⟨congrArg Value.symbol (SymbolName.toCString_inj hname), hxy⟩
  | string str =>
    rcases hashBytes_kind hv hw h with _ | _ | _ | _ | _ | ⟨_, str'⟩
    obtain rfl := Option.some.inj hv
    obtain rfl := Option.some.inj hw
    obtain ⟨hstr, hxy⟩ := sized_inj (List.cons.inj h).2
    exact ⟨congrArg Value.string hstr, hxy⟩
  | cons car cdr ihcar ihcdr =>
    rcases hashBytes_kind hv hw h with _ | _ | _ | _ | _ | _ | ⟨_, _, car', cdr'⟩
    obtain ⟨s1, s2, hs1, hs2, rfl⟩ := hashBytes_cons hv
    obtain ⟨t1, t2, ht1, ht2, rfl⟩ := hashBytes_cons hw
    have hrest : s1 ++ s2 ++ x = t1 ++ t2 ++ y := (List.cons.inj h).2
    rw [List.append_assoc, List.append_assoc] at hrest
    obtain ⟨rfl, hcdr⟩ := ihcar hs1 ht1 hrest
    obtain ⟨rfl, hxy⟩ := ihcdr hs2 ht2 hcdr
    exact ⟨rfl, hxy⟩

theorem hashBytes_flatten_inj {vs ws : List Value} {ss ts : List Text}
    (hv : vs.mapM hashBytes = some ss) (hw : ws.mapM hashBytes = some ts)
    (hlen : vs.length = ws.length) (h : ss.flatten = ts.flatten) : vs = ws := by
  induction vs generalizing ws ss ts with
  | nil => exact (List.length_eq_zero_iff.mp hlen.symm).symm
  | cons v vs ih =>
    rcases ws with _ | ⟨w, ws⟩
    · exact absurd hlen (by simp)
    rw [List.mapM_cons] at hv hw
    obtain ⟨s, hs, hv⟩ := Option.bind_eq_some_iff.mp hv
    obtain ⟨ss, hss, hv⟩ := Option.bind_eq_some_iff.mp hv
    obtain rfl := Option.some.inj hv
    obtain ⟨t, ht, hw⟩ := Option.bind_eq_some_iff.mp hw
    obtain ⟨ts, hts, hw⟩ := Option.bind_eq_some_iff.mp hw
    obtain rfl := Option.some.inj hw
    rw [List.flatten_cons, List.flatten_cons] at h
    obtain ⟨rfl, hrest⟩ := hashBytes_inj hs ht h
    rw [ih hss hts (Nat.succ.inj hlen) hrest]

/-- **The bytes of the arguments determine them.** There are fewer arguments than there are words of
memory. -/
theorem argsBytes_inj {vs ws : List Value} (hvlen : vs.length < 2 ^ 64) (hwlen : ws.length < 2 ^ 64)
    (hv : (argsBytes vs).isSome = true) : argsBytes vs = argsBytes ws ↔ vs = ws := by
  refine ⟨fun h => ?_, fun h => h ▸ rfl⟩
  obtain ⟨s, hs⟩ := Option.isSome_iff_exists.mp hv
  obtain ⟨ss, hss, hs'⟩ := Option.map_eq_some_iff.mp hs
  obtain ⟨ts, hts, ht⟩ := Option.map_eq_some_iff.mp (h.symm.trans hs)
  obtain ⟨hlen, hrest⟩ := le64_inj (hs'.trans ht.symm)
  have hnat := congrArg UInt64.toNat hlen
  rw [UInt64.toNat_ofNat_of_lt' hvlen, UInt64.toNat_ofNat_of_lt' hwlen] at hnat
  exact hashBytes_flatten_inj hss hts hnat hrest

/-- Two arguments are not one that holds both. -/
theorem argsBytes_inj_pair : argsBytes [.long 1, .nil] = argsBytes [.cons (.long 1) .nil] ↔
    [Value.long 1, .nil] = [.cons (.long 1) .nil] :=
  argsBytes_inj (by decide) (by decide) rfl

/-! ### Chains and keys -/

def mark (tcOn : Bool) : UInt8 := if tcOn then 43 else 45

theorem mark_inj : ∀ a b : Bool, mark a = mark b → a = b := by decide

/-- `chain_step`. -/
def chainStep (chain fileHash : UInt64) (tcOn : Bool) : UInt64 :=
  fnvWrite (fnvU64 (fnvU64 fnvInit chain) fileHash) [mark tcOn]

/-- What the key of a load depends on. `frames` are the loads in progress, the outermost first, each
with the hash of its file and its digest. -/
structure Situation where
  chain : UInt64
  frames : List (UInt64 × UInt64)
  fileHash : UInt64
  tcOn : Bool
  gensym : Int64

/-- `TC_FORMAT` and `TC_VERSION`. -/
def tcFormat : Text := ascii "shentc3-c"
def tcVersion : Text := ascii "shen-c-1"

/-- The bytes that the key of a load is the hash of. -/
def keyBytes (s : Situation) : Text :=
  tcFormat ++ tcVersion ++ (le64 s.chain ++
    (s.frames.flatMap (fun f => le64 f.1 ++ le64 f.2) ++
      (le64 s.fileHash ++ (mark s.tcOn :: le64 s.gensym.toUInt64))))

def loadKey (s : Situation) : UInt64 := fnvWrite fnvInit (keyBytes s)

theorem le64_length (v : UInt64) : (le64 v).length = 8 := leBytes_length 8 _

theorem frames_length (frames : List (UInt64 × UInt64)) :
    (frames.flatMap fun f => le64 f.1 ++ le64 f.2).length = 16 * frames.length := by
  induction frames with
  | nil => rfl
  | cons f frames ih =>
    rw [List.flatMap_cons, List.length_append, ih, List.length_append, le64_length, le64_length,
      List.length_cons]
    omega

theorem frames_inj {fs gs : List (UInt64 × UInt64)} {x y : Text} (hlen : fs.length = gs.length)
    (h : fs.flatMap (fun f => le64 f.1 ++ le64 f.2) ++ x =
      gs.flatMap (fun f => le64 f.1 ++ le64 f.2) ++ y) : fs = gs ∧ x = y := by
  induction fs generalizing gs with
  | nil =>
    obtain rfl := List.length_eq_zero_iff.mp hlen.symm
    exact ⟨rfl, h⟩
  | cons f fs ih =>
    rcases gs with _ | ⟨g, gs⟩
    · exact absurd hlen (by simp)
    rw [List.flatMap_cons, List.flatMap_cons, List.append_assoc, List.append_assoc,
      List.append_assoc, List.append_assoc] at h
    obtain ⟨h1, hrest⟩ := le64_inj h
    obtain ⟨h2, hrest⟩ := le64_inj hrest
    obtain ⟨rfl, hxy⟩ := ih (Nat.succ.inj hlen) hrest
    exact ⟨congrArg (· :: fs) (Prod.ext h1 h2), hxy⟩

/-- **The bytes of a key determine the situation of the load.** -/
theorem keyBytes_inj (s t : Situation) : keyBytes s = keyBytes t ↔ s = t := by
  refine ⟨fun h => ?_, fun h => h ▸ rfl⟩
  have hlen : s.frames.length = t.frames.length := by
    have hall := congrArg List.length h
    simp only [keyBytes, List.length_append, le64_length, frames_length, List.length_cons] at hall
    omega
  obtain ⟨hchain, hrest⟩ := le64_inj (List.append_cancel_left h)
  obtain ⟨hframes, hrest⟩ := frames_inj hlen hrest
  obtain ⟨hfile, hrest⟩ := le64_inj hrest
  obtain ⟨hmark, hgensym⟩ := List.cons.inj hrest
  have hcounter : s.gensym.toUInt64 = t.gensym.toUInt64 :=
    (le64_inj (x := []) (y := []) (by rw [hgensym])).1
  rcases s with ⟨chain, frames, fileHash, tcOn, gensym⟩
  rw [Situation.mk.injEq]
  exact ⟨hchain, hframes, hfile, mark_inj _ _ hmark, congrArg Int64.ofUInt64 hcounter⟩

end ShenRc.Replay
