import ShenRc.Replay.Number

/-! # Values in a recording

`serialize_value` writes a value, `parse_value` reads one back. The parser keeps the elements of a
list on a spine of 256 entries, so a longer list is written but not read (`parseValue_serialize`,
`parseValue_rejects`). -/

namespace ShenRc.Replay

open Numeral

/-! ### Values -/

/-- A C string in memory. -/
structure CString where
  bytes : Text
  noNul : (0 : UInt8) ∉ bytes
  small : bytes.length < 2 ^ 63
  deriving DecidableEq

/-- The name of a symbol: the reader and `intern` give the booleans for theirs. -/
structure SymbolName extends CString where
  interned : bytes ≠ ascii "true" ∧ bytes ≠ ascii "false"
  deriving DecidableEq

/-- What the checker takes and gives. A value of any other type is known by its address. -/
inductive Value
  | null
  | nil
  | bool (b : Bool)
  | long (n : Int64)
  | double (bits : UInt64)
  | symbol (name : SymbolName)
  | string (s : CString)
  | cons (car cdr : Value)
  | other (address : ℕ)
  deriving DecidableEq

theorem nul_notMem_takeWhile (s : Text) : (0 : UInt8) ∉ s.takeWhile (· ≠ 0) :=
  fun h => absurd (List.mem_takeWhile_imp h) (by decide)

/-- The C string in a buffer. -/
def CString.ofBytes (s : Text) : Option CString :=
  if h : (s.takeWhile (· ≠ 0)).length < 2 ^ 63 then some ⟨_, nul_notMem_takeWhile s, h⟩ else none

theorem CString.ofBytes_bytes (s : CString) : CString.ofBytes s.bytes = some s := by
  have hs := takeWhile_noNul s.noNul
  unfold CString.ofBytes
  rw [dif_pos (by rw [hs]; exact s.small)]
  rcases s with ⟨bytes, h1, h2⟩
  exact congrArg some ((CString.mk.injEq ..).mpr hs)

theorem SymbolName.toCString_inj {s t : SymbolName} (h : s.toCString = t.toCString) : s = t := by
  rcases s with ⟨s, _⟩
  rcases t with ⟨t, _⟩
  obtain rfl : s = t := h
  rfl

/-- `shen_intern`. -/
def shenIntern (name : CString) : Value :=
  if ht : name.bytes = ascii "true" then .bool true
  else if hf : name.bytes = ascii "false" then .bool false
  else .symbol ⟨name, ht, hf⟩

theorem shenIntern_name (name : SymbolName) : shenIntern name.toCString = .symbol name := by
  unfold shenIntern
  rw [dif_neg name.interned.1, dif_neg name.interned.2]

/-! ### Writing -/

/-- A text behind its length. -/
def counted (s : CString) : Text := decimal s.bytes.length ++ 58 :: s.bytes

/-- `serialize_value`. -/
def serialize : Value → Option Text
  | .cons car cdr => do
    let x ← serialize car
    let y ← serialize cdr
    some (99 :: (x ++ y))
  | .nil => some [110]
  | .bool b => some [if b then 116 else 117]
  | .long n => some (105 :: (decimalInt n.toInt ++ [59]))
  | .double bits => some (102 :: (wordText bits ++ [59]))
  | .symbol name => some (121 :: counted name.toCString)
  | .string s => some (115 :: counted s)
  | .null => none
  | .other _ => none

/-! ### Reading -/

/-- A length and as many bytes. -/
def readCounted : Parser UInt8 CString := do
  let len ← numberUntil 58
  if len < 0 then Parser.fail
  else do
    let s ← Parser.take len.toInt.toNat
    Parser.ofOption (CString.ofBytes s)

/-- `parse_atom`. -/
def parseAtom (tag : UInt8) : Parser UInt8 Value :=
  if tag = 110 then pure .nil
  else if tag = 116 then pure (.bool true)
  else if tag = 117 then pure (.bool false)
  else if tag = 105 then do
    let n ← numberUntil 59
    pure (.long n)
  else if tag = 102 then do
    let bits ← word
    let c ← Parser.next
    if c = 59 then pure (.double bits) else Parser.fail
  else if tag = 121 then do
    let name ← readCounted
    pure (shenIntern name)
  else if tag = 115 then do
    let s ← readCounted
    pure (.string s)
  else Parser.fail

/-- The loop of `parse_value`, with the spine from its last element on. The first argument bounds the
depth of the calls. -/
def parseSpine : ℕ → List Value → Parser UInt8 Value
  | 0, _ => Parser.fail
  | fuel + 1, spine => do
    let tag ← Parser.next
    if tag = 99 then
      if 256 ≤ spine.length then Parser.fail
      else do
        let car ← parseSpine fuel []
        parseSpine fuel (car :: spine)
    else do
      let v ← parseAtom tag
      pure (spine.foldl (fun cdr car => .cons car cdr) v)

/-- `parse_value`. -/
def parseValue : Parser UInt8 Value := fun s => parseSpine (s.length + 1) [] s

/-! ### The parser does not look ahead -/

theorem readCounted_local : readCounted.Local :=
  (numberUntil_local 58).bind fun _ => .ite .fail ((Parser.Local.take _).bind fun _ => .ofOption _)

theorem parseAtom_local (tag : UInt8) : (parseAtom tag).Local := by
  refine .ite (.pure _) (.ite (.pure _) (.ite (.pure _) (.ite ?_ (.ite ?_ (.ite ?_ (.ite ?_ .fail))))))
  · exact (numberUntil_local 59).bind fun _ => .pure _
  · exact word_local.bind fun _ => .bind .next fun _ => .ite (.pure _) .fail
  · exact readCounted_local.bind fun _ => .pure _
  · exact readCounted_local.bind fun _ => .pure _

theorem parseSpine_local (fuel : ℕ) (spine : List Value) : (parseSpine fuel spine).Local := by
  induction fuel generalizing spine with
  | zero => exact .fail
  | succ fuel ih =>
    refine .bind .next fun tag => .ite (.ite .fail ?_) ?_
    · exact (ih []).bind fun car => ih (car :: spine)
    · exact (parseAtom_local tag).bind fun v => .pure _

/-! ### The bound on the depth -/

theorem readCounted_takes : readCounted.Takes 0 :=
  (numberUntil_takes 58).bind fun _ => .ite (.fail 0) ((Parser.Takes.take _).bind fun _ => .ofOption _)

theorem parseAtom_takes (tag : UInt8) : (parseAtom tag).Takes 0 := by
  refine .ite (.pure _) (.ite (.pure _) (.ite (.pure _) (.ite ?_ (.ite ?_ (.ite ?_ (.ite ?_ (.fail 0)))))))
  · exact (numberUntil_takes 59).bind fun _ => .pure _
  · exact word_takes.bind fun _ => (Parser.Takes.next.bind fun _ => .ite (.pure _) (.fail 0)).mono
      (Nat.zero_le _)
  · exact readCounted_takes.bind fun _ => .pure _
  · exact readCounted_takes.bind fun _ => .pure _

theorem parseSpine_takes (fuel : ℕ) (spine : List Value) : (parseSpine fuel spine).Takes 1 := by
  induction fuel generalizing spine with
  | zero => exact .fail 1
  | succ fuel ih =>
    refine (Parser.Takes.next.bind (l := 0) fun tag => .ite (.ite (.fail 0) ?_) ?_)
    · exact ((ih []).bind fun car => ih (car :: spine)).mono (Nat.zero_le _)
    · exact (parseAtom_takes tag).bind fun v => .pure _

/-- **The bound on the depth does not show** where it is above the number of bytes. -/
theorem parseSpine_eq {fuel fuel' : ℕ} {s : Text} (spine : List Value) (h : s.length < fuel)
    (h' : s.length < fuel') : parseSpine fuel spine s = parseSpine fuel' spine s := by
  induction fuel generalizing fuel' s spine with
  | zero => exact absurd h (Nat.not_lt_zero _)
  | succ fuel ih =>
    obtain ⟨fuel', rfl⟩ : ∃ n, fuel' = n + 1 := ⟨fuel' - 1, by omega⟩
    rcases s with _ | ⟨tag, s⟩
    · rfl
    rw [List.length_cons] at h h'
    unfold parseSpine
    rw [Parser.next_bind, Parser.next_bind]
    by_cases htag : tag = 99
    · rw [if_pos htag, if_pos htag]
      by_cases hfull : 256 ≤ spine.length
      · rw [if_pos hfull, if_pos hfull]
      have hcar : parseSpine fuel [] s = parseSpine fuel' [] s := ih [] (by omega) (by omega)
      rw [if_neg hfull, if_neg hfull, Parser.bind_apply, Parser.bind_apply, hcar]
      refine Option.bind_congr fun r hr => ?_
      have hlen := parseSpine_takes fuel' [] s r.1 r.2 hr
      exact ih (r.1 :: spine) (by omega) (by omega)
    · rw [if_neg htag, if_neg htag]

theorem parseValue_local : parseValue.Local := by
  intro s v rest more h
  have hlen : (s ++ more).length = s.length + more.length := List.length_append
  refine parseSpine_local _ [] s v rest more ?_
  exact (parseSpine_eq [] (by omega) (Nat.lt_succ_self _)).trans h

/-! ### What is written is read back -/

/-- No list is too long for the spine, on which there are `n` elements already. -/
def fitsFrom : ℕ → Value → Bool
  | n, .cons car cdr => n < 256 && fitsFrom 0 car && fitsFrom (n + 1) cdr
  | _, _ => true

/-- No list of the value has more than 256 elements. -/
def Value.fits (v : Value) : Bool := fitsFrom 0 v

theorem readCounted_reads (s : CString) : readCounted.Reads (counted s) s := by
  have hlen : (numberUntil 58).Reads (decimal s.bytes.length ++ [58]) (Int64.ofNat s.bytes.length) :=
    numberUntil_decimal (by decide) s.small
  have hnat : (Int64.ofNat s.bytes.length).toInt.toNat = s.bytes.length := by
    rw [Int64.toInt_ofNat_of_lt s.small, Int.toNat_natCast]
  have hpos : ¬Int64.ofNat s.bytes.length < 0 := by
    rw [Int64.lt_iff_toInt_lt, Int64.toInt_ofNat_of_lt s.small]
    exact Int.not_lt.mpr (Int.natCast_nonneg _)
  have hbytes := (Parser.Reads.take (s := s.bytes) rfl).bind
    (f := fun t => Parser.ofOption (CString.ofBytes t)) (.ofOption s.ofBytes_bytes)
  rw [List.append_nil] at hbytes
  have hall := hlen.bind (f := fun len => if len < 0 then Parser.fail
    else do
      let s ← Parser.take len.toInt.toNat
      Parser.ofOption (CString.ofBytes s)) (t := s.bytes) (b := s) (by
        rw [if_neg hpos, hnat]
        exact hbytes)
  rwa [List.append_assoc] at hall

/-- An atom behind its tag. -/
theorem parseSpine_atom {fuel : ℕ} {spine : List Value} {tag : UInt8} {s : Text} {v : Value}
    (hne : tag ≠ 99) (h : (parseAtom tag).Reads s v) :
    (parseSpine (fuel + 1) spine).Reads (tag :: s) (spine.foldl (fun cdr car => .cons car cdr) v) := by
  have hrest := h.bind (f := fun v => Pure.pure (spine.foldl (fun cdr car => .cons car cdr) v)) (.pure _)
  rw [List.append_nil] at hrest
  refine (Parser.Reads.next tag).bind ?_
  rw [if_neg hne]
  exact hrest

theorem serialize_cons {car cdr : Value} {t : Text} (h : serialize (.cons car cdr) = some t) :
    ∃ x y, serialize car = some x ∧ serialize cdr = some y ∧ t = 99 :: (x ++ y) := by
  obtain ⟨x, hx, h⟩ := Option.bind_eq_some_iff.mp h
  obtain ⟨y, hy, h⟩ := Option.bind_eq_some_iff.mp h
  exact ⟨x, y, hx, hy, (Option.some.inj h).symm⟩

/-- **What has been written is read back**, where no list is too long. -/
theorem parseSpine_reads {v : Value} {t : Text} {fuel : ℕ} (spine : List Value)
    (h : serialize v = some t) (hfit : fitsFrom spine.length v = true) (hfuel : t.length < fuel) :
    (parseSpine fuel spine).Reads t (spine.foldl (fun cdr car => .cons car cdr) v) := by
  obtain ⟨fuel, rfl⟩ : ∃ n, fuel = n + 1 := ⟨fuel - 1, by omega⟩
  induction v generalizing t fuel spine with
  | null => exact absurd h (by simp [serialize])
  | other address => exact absurd h (by simp [serialize])
  | nil =>
    obtain rfl := Option.some.inj h
    exact parseSpine_atom (by decide) (.pure _)
  | bool b =>
    obtain rfl := Option.some.inj h
    rcases b with _ | _
    · exact parseSpine_atom (by decide) (.pure _)
    · exact parseSpine_atom (by decide) (.pure _)
  | long n =>
    obtain rfl := Option.some.inj h
    have hnumber : (numberUntil 59).Reads (decimalInt n.toInt ++ [59]) n :=
      numberUntil_decimalInt (by decide) (by decide) n
    have hn := hnumber.bind (f := fun n => Pure.pure (Value.long n)) (.pure _)
    rw [List.append_nil] at hn
    exact parseSpine_atom (by decide) hn
  | double bits =>
    obtain rfl := Option.some.inj h
    have hend := (Parser.Reads.next (59 : UInt8)).bind (f := fun c =>
      if c = 59 then Pure.pure (Value.double bits) else Parser.fail) (.pure _)
    exact parseSpine_atom (by decide) ((word_reads bits).bind hend)
  | symbol name =>
    obtain rfl := Option.some.inj h
    have hname := (readCounted_reads name.toCString).bind (f := fun s => Pure.pure (shenIntern s))
      (.pure _)
    rw [List.append_nil, shenIntern_name] at hname
    exact parseSpine_atom (by decide) hname
  | string s =>
    obtain rfl := Option.some.inj h
    have hs := (readCounted_reads s).bind (f := fun s => Pure.pure (Value.string s)) (.pure _)
    rw [List.append_nil] at hs
    exact parseSpine_atom (by decide) hs
  | cons car cdr ihcar ihcdr =>
    obtain ⟨x, y, hx, hy, rfl⟩ := serialize_cons h
    rw [fitsFrom, Bool.and_eq_true, Bool.and_eq_true, decide_eq_true_eq] at hfit
    obtain ⟨⟨hroom, hcar⟩, hcdr⟩ := hfit
    rw [List.length_cons, List.length_append] at hfuel
    obtain ⟨fuel, rfl⟩ : ∃ n, fuel = n + 1 := ⟨fuel - 1, by omega⟩
    refine (Parser.Reads.next 99).bind ?_
    rw [if_pos rfl, if_neg (by omega)]
    exact (ihcar [] hx hcar fuel (by omega)).bind (ihcdr (car :: spine) hy hcdr fuel (by omega))

/-- **A value with a list that is too long is not read.** -/
theorem parseSpine_rejects {v : Value} {t : Text} {fuel : ℕ} (spine : List Value)
    (h : serialize v = some t) (hfit : fitsFrom spine.length v = false) (hfuel : t.length < fuel) :
    (parseSpine fuel spine).Rejects t := by
  obtain ⟨fuel, rfl⟩ : ∃ n, fuel = n + 1 := ⟨fuel - 1, by omega⟩
  induction v generalizing t fuel spine with
  | cons car cdr ihcar ihcdr =>
    obtain ⟨x, y, hx, hy, rfl⟩ := serialize_cons h
    rw [List.length_cons, List.length_append] at hfuel
    obtain ⟨fuel, rfl⟩ : ∃ n, fuel = n + 1 := ⟨fuel - 1, by omega⟩
    refine (Parser.Reads.next 99).bind_rejects ?_
    rw [if_pos rfl]
    by_cases hroom : 256 ≤ spine.length
    · rw [if_pos hroom]
      exact .fail _
    rw [if_neg hroom]
    rw [fitsFrom, decide_eq_true (by omega), Bool.true_and, Bool.and_eq_false_iff] at hfit
    rcases hcar : fitsFrom 0 car with _ | _
    · exact (ihcar [] hx hcar fuel (by omega)).bind y
    · have hcdr : fitsFrom (spine.length + 1) cdr = false := by
        rcases hfit with hfit | hfit
        · rw [hcar] at hfit
          exact absurd hfit (by decide)
        · exact hfit
      exact (parseSpine_reads [] hx hcar (by omega)).bind_rejects
        (ihcdr (car :: spine) hy hcdr fuel (by omega))
  | _ => exact absurd hfit (by simp [fitsFrom])

/-- **A value is read back, unless one of its lists is too long.** -/
theorem parseValue_serialize {v : Value} {t : Text} (h : serialize v = some t) (hfit : v.fits = true) :
    parseValue.Reads t v := fun rest =>
  parseSpine_reads [] h hfit
    (by rw [List.length_append]; omega : t.length < (t ++ rest).length + 1) rest

theorem parseValue_rejects {v : Value} {t : Text} (h : serialize v = some t) (hfit : v.fits = false) :
    parseValue.Rejects t := fun rest =>
  parseSpine_rejects [] h hfit
    (by rw [List.length_append]; omega : t.length < (t ++ rest).length + 1) rest

end ShenRc.Replay
