import ShenRc.Replay.Digest

/-! # Recordings

`write_cache` writes what a load has recorded, `read_cache` reads it. A file that has been written
is read as the recording it is of, or not at all if one of its values has too long a list
(`readCache_writeCache`). A part of a file is not read (`readCache_torn`). -/

namespace ShenRc.Replay

open Numeral

/-! ### Writing -/

/-- `TcEntry`: a check, with the hash of its arguments and the value that can be replayed. -/
structure TcEntry where
  hash : Option UInt64
  val : Option Value
  gensymAfter : Int64

/-- `TcRecording`. -/
structure TcRecording where
  gensymStart : Int64
  gensymEnd : Int64
  tc : List TcEntry
  ckpt : List UInt64

/-- The text of the value of an entry, if it is written. -/
def TcEntry.text (e : TcEntry) : Option Text :=
  match e.hash with
  | some _ => e.val.bind serialize
  | none => none

def hashText : Option UInt64 → Text
  | some hash => 43 :: wordText hash
  | none => [45]

def valText : Option Text → Text
  | some text => 43 :: text
  | none => [45]

/-- `write_entries`, one entry. -/
def writeEntry (e : TcEntry) : Text :=
  hashText e.hash ++ (valText e.text ++ (103 :: (decimalInt e.gensymAfter.toInt ++ [59])))

/-- The header of a recording. -/
def header : Text := tcFormat ++ [32]

/-- `write_cache`. -/
def writeCache (rec : TcRecording) : Text :=
  header ++ (decimalInt rec.gensymStart.toInt ++ [32] ++ (decimalInt rec.gensymEnd.toInt ++ [32] ++
    (decimal rec.tc.length ++ [32] ++ (decimal rec.ckpt.length ++ [10] ++
      (rec.tc.flatMap writeEntry ++ rec.ckpt.flatMap wordText)))))

/-! ### Reading -/

/-- A part that is there or not. -/
def marked {α : Type} (p : Parser UInt8 α) : Parser UInt8 (Option α) := do
  let mark ← Parser.next
  if mark = 43 then do
    let a ← p
    pure (some a)
  else if mark = 45 then pure none
  else Parser.fail

/-- `parse_entry`. -/
def parseEntry : Parser UInt8 TcEntry := do
  let hash ← marked word
  let val ← marked parseValue
  if hash = none ∧ val.isSome = true then Parser.fail
  else do
    let g ← Parser.next
    if g = 103 then do
      let gensymAfter ← numberUntil 59
      pure ⟨hash, val, gensymAfter⟩
    else Parser.fail

/-- A number of entries. -/
def count (stop : UInt8) : Parser UInt8 ℕ := do
  let n ← numberUntil stop
  if n < 0 then Parser.fail else pure n.toInt.toNat

/-- `read_cache`, of the bytes of the file, where there is memory for its arrays. What follows the
recording is not looked at. -/
def parseCache : Parser UInt8 TcRecording := do
  let start ← Parser.take header.length
  if start = header then do
    let gensymStart ← numberUntil 32
    let gensymEnd ← numberUntil 32
    let ntc ← count 32
    let nckpt ← count 10
    let tc ← Parser.times parseEntry ntc
    let ckpt ← Parser.times word nckpt
    pure ⟨gensymStart, gensymEnd, tc, ckpt⟩
  else Parser.fail

def readCache (bytes : Text) : Option TcRecording := (parseCache bytes).map (·.1)

/-! ### No part looks ahead -/

theorem marked_local {α : Type} {p : Parser UInt8 α} (hp : p.Local) : (marked p).Local :=
  .bind .next fun _ => .ite (hp.bind fun _ => .pure _) (.ite (.pure _) .fail)

theorem parseEntry_local : parseEntry.Local :=
  (marked_local word_local).bind fun _ => (marked_local parseValue_local).bind fun _ =>
    .ite .fail (.bind .next fun _ => .ite ((numberUntil_local 59).bind fun _ => .pure _) .fail)

theorem count_local (stop : UInt8) : (count stop).Local :=
  (numberUntil_local stop).bind fun _ => .ite .fail (.pure _)

theorem parseCache_local : parseCache.Local :=
  (Parser.Local.take _).bind fun _ => .ite ((numberUntil_local 32).bind fun _ =>
    (numberUntil_local 32).bind fun _ => (count_local 32).bind fun _ => (count_local 10).bind fun _ =>
      (parseEntry_local.times _).bind fun _ => (word_local.times _).bind fun _ => .pure _) .fail

/-! ### Recordings are read back -/

/-- The value that comes back. -/
def TcEntry.kept (e : TcEntry) : Option Value := if e.text.isSome then e.val else none

/-- What is left of an entry in the file. -/
def TcEntry.stored (e : TcEntry) : TcEntry := ⟨e.hash, e.kept, e.gensymAfter⟩

/-- What is left of a recording in the file. -/
def TcRecording.stored (rec : TcRecording) : TcRecording :=
  ⟨rec.gensymStart, rec.gensymEnd, rec.tc.map TcEntry.stored, rec.ckpt⟩

/-- The arrays fit into memory. -/
structure TcRecording.Small (rec : TcRecording) : Prop where
  tc : rec.tc.length < 2 ^ 63
  ckpt : rec.ckpt.length < 2 ^ 63

/-- The value that is written can be read. -/
def TcEntry.readable (e : TcEntry) : Bool := e.kept.all Value.fits

theorem marked_reads {α : Type} {p : Parser UInt8 α} {s : Text} {a : α} (h : p.Reads s a) :
    (marked p).Reads (43 :: s) (some a) := by
  have hsome := h.bind (f := fun a => Pure.pure (some a)) (.pure _)
  rw [List.append_nil] at hsome
  exact (Parser.Reads.next 43).bind hsome

theorem marked_none {α : Type} (p : Parser UInt8 α) : (marked p).Reads [45] none :=
  (Parser.Reads.next (45 : UInt8)).bind (f := fun mark => if mark = 43 then do
    let a ← p
    pure (some a)
  else if mark = 45 then pure none
  else Parser.fail) (.pure _)

theorem hash_reads (hash : Option UInt64) : (marked word).Reads (hashText hash) hash := by
  rcases hash with _ | hash
  · exact marked_none word
  · exact marked_reads (word_reads hash)

/-- What is written of a value, with the value that comes back. -/
theorem text_kept (e : TcEntry) : e.text = none ∧ e.kept = none ∨
    ∃ hash v t, e.hash = some hash ∧ e.kept = some v ∧ serialize v = some t ∧ e.text = some t := by
  rcases htext : e.text with _ | t
  · refine Or.inl ⟨rfl, ?_⟩
    unfold TcEntry.kept
    rw [htext]
    rfl
  · refine Or.inr ?_
    have hkept : e.kept = e.val := by
      unfold TcEntry.kept
      rw [htext]
      rfl
    unfold TcEntry.text at htext
    rcases hhash : e.hash with _ | hash
    · rw [hhash] at htext
      exact absurd htext (by simp)
    · rw [hhash] at htext
      obtain ⟨v, hv, ht⟩ := Option.bind_eq_some_iff.mp htext
      exact ⟨hash, v, t, rfl, hkept.trans hv, ht, rfl⟩

/-- What follows the value of an entry. -/
theorem gensym_reads (hash : Option UInt64) (val : Option Value) (n : Int64) :
    Parser.Reads (do
      let g ← Parser.next
      if g = 103 then do
        let gensymAfter ← numberUntil 59
        pure (⟨hash, val, gensymAfter⟩ : TcEntry)
      else Parser.fail) (103 :: (decimalInt n.toInt ++ [59])) ⟨hash, val, n⟩ := by
  have hnumber : (numberUntil 59).Reads (decimalInt n.toInt ++ [59]) n :=
    numberUntil_decimalInt (by decide) (by decide) n
  have hn := hnumber.bind
    (f := fun n => Pure.pure (⟨hash, val, n⟩ : TcEntry)) (.pure _)
  rw [List.append_nil] at hn
  exact (Parser.Reads.next (103 : UInt8)).bind hn

/-- **An entry is read back.** -/
theorem parseEntry_reads {e : TcEntry} (h : e.readable = true) :
    parseEntry.Reads (writeEntry e) e.stored := by
  refine (hash_reads e.hash).bind ?_
  rcases text_kept e with ⟨htext, hkept⟩ | ⟨hash, v, t, hhash, hkept, hv, htext⟩
  · rw [htext, TcEntry.stored, hkept]
    refine (marked_none parseValue).bind ?_
    rw [if_neg (by simp)]
    exact gensym_reads e.hash none e.gensymAfter
  · unfold TcEntry.readable at h
    rw [hkept] at h
    rw [htext, TcEntry.stored, hkept]
    refine (marked_reads (parseValue_serialize hv h)).bind ?_
    rw [if_neg (by rw [hhash]; simp)]
    exact gensym_reads e.hash (some v) e.gensymAfter

theorem parseEntry_rejects {e : TcEntry} (h : e.readable = false) :
    parseEntry.Rejects (writeEntry e) := by
  refine (hash_reads e.hash).bind_rejects ?_
  unfold TcEntry.readable at h
  rcases text_kept e with ⟨-, hkept⟩ | ⟨hash, v, t, -, hkept, hv, htext⟩
  · rw [hkept] at h
    exact absurd h (by simp)
  · rw [hkept] at h
    rw [htext]
    have hvalue := (parseValue_rejects hv h).bind (f := fun a => Pure.pure (some a)) []
    rw [List.append_nil] at hvalue
    exact Parser.Rejects.bind ((Parser.Reads.next 43).bind_rejects hvalue) _

theorem count_reads {stop : UInt8} (hstop : isDigit stop = false) {n : ℕ} (h : n < 2 ^ 63) :
    (count stop).Reads (decimal n ++ [stop]) n := by
  have hn := (numberUntil_decimal hstop h).bind (t := []) (b := n)
    (f := fun n => if n < 0 then Parser.fail else Pure.pure n.toInt.toNat) (by
      have hpos : ¬Int64.ofNat n < 0 := by
        rw [Int64.lt_iff_toInt_lt, Int64.toInt_ofNat_of_lt h]
        exact Int.not_lt.mpr (Int.natCast_nonneg _)
      rw [if_neg hpos, Int64.toInt_ofNat_of_lt h, Int.toNat_natCast]
      exact .pure n)
  rwa [List.append_nil] at hn

/-- The words at the end of a recording. -/
theorem words_read (gensymStart gensymEnd : Int64) (tc : List TcEntry) (ckpt : List UInt64) :
    Parser.Reads (do
      let ckpt ← Parser.times word ckpt.length
      pure (⟨gensymStart, gensymEnd, tc, ckpt⟩ : TcRecording)) (ckpt.flatMap wordText)
        ⟨gensymStart, gensymEnd, tc, ckpt⟩ := by
  have hall : (Parser.times word ckpt.length).Reads (ckpt.flatMap wordText) (ckpt.map id) :=
    .times fun v _ => word_reads v
  have hwords := hall.bind
      (f := fun ckpt => Pure.pure (⟨gensymStart, gensymEnd, tc, ckpt⟩ : TcRecording)) (.pure _)
  rwa [List.append_nil, List.map_id] at hwords

/-- **What has been recorded is read back**, as far as it is kept, if every value can be read. -/
theorem parseCache_reads {rec : TcRecording} (hs : rec.Small)
    (h : ∀ e ∈ rec.tc, e.readable = true) : parseCache.Reads (writeCache rec) rec.stored := by
  refine (Parser.Reads.take rfl).bind ?_
  rw [if_pos rfl]
  refine (numberUntil_decimalInt (by decide) (by decide) rec.gensymStart).bind ?_
  refine (numberUntil_decimalInt (by decide) (by decide) rec.gensymEnd).bind ?_
  refine (count_reads (by decide) hs.tc).bind ?_
  refine (count_reads (by decide) hs.ckpt).bind ?_
  refine (Parser.Reads.times fun e he => parseEntry_reads (h e he)).bind ?_
  exact words_read rec.gensymStart rec.gensymEnd (rec.tc.map TcEntry.stored) rec.ckpt

/-- **One value with a list that is too long spoils the file.** -/
theorem parseCache_rejects {rec : TcRecording} (hs : rec.Small)
    (h : ∃ e ∈ rec.tc, e.readable = false) : parseCache.Rejects (writeCache rec) := by
  refine (Parser.Reads.take rfl).bind_rejects ?_
  rw [if_pos rfl]
  refine (numberUntil_decimalInt (by decide) (by decide) rec.gensymStart).bind_rejects ?_
  refine (numberUntil_decimalInt (by decide) (by decide) rec.gensymEnd).bind_rejects ?_
  refine (count_reads (by decide) hs.tc).bind_rejects ?_
  refine (count_reads (by decide) hs.ckpt).bind_rejects ?_
  have hentries : ∀ e ∈ rec.tc, parseEntry.Reads (writeEntry e) e.stored ∨
      parseEntry.Rejects (writeEntry e) := fun e _ => by
    rcases hread : e.readable with _ | _
    · exact Or.inr (parseEntry_rejects hread)
    · exact Or.inl (parseEntry_reads hread)
  obtain ⟨e, he, hread⟩ := h
  exact Parser.Rejects.bind (Parser.Rejects.times hentries ⟨e, he, parseEntry_rejects hread⟩) _

theorem readCache_readable {rec : TcRecording} (hs : rec.Small) (h : ∀ e ∈ rec.tc, e.readable = true) :
    readCache (writeCache rec) = some rec.stored := by
  have hread := parseCache_reads hs h []
  rw [List.append_nil] at hread
  unfold readCache
  rw [hread]
  rfl

theorem readCache_unreadable {rec : TcRecording} (hs : rec.Small)
    (h : ∃ e ∈ rec.tc, e.readable = false) : readCache (writeCache rec) = none := by
  have hrej := parseCache_rejects hs h []
  rw [List.append_nil] at hrej
  unfold readCache
  rw [hrej]
  rfl

/-- **What is read of a file that has been written** is what is left of the recording. -/
theorem eq_stored_of_readCache {rec r : TcRecording} (hs : rec.Small)
    (h : readCache (writeCache rec) = some r) : r = rec.stored := by
  by_cases hall : ∀ e ∈ rec.tc, e.readable = true
  · rw [readCache_readable hs hall] at h
    exact (Option.some.inj h).symm
  · push Not at hall
    obtain ⟨e, he, hread⟩ := hall
    rw [readCache_unreadable hs ⟨e, he, Bool.eq_false_iff.mpr hread⟩] at h
    exact absurd h (by simp)

/-- **A file is read as the recording it is of**, without the values that cannot be written; it is not
read at all if a list of one of the values has more than 256 elements. -/
theorem readCache_writeCache {rec : TcRecording} (hs : rec.Small) :
    readCache (writeCache rec) = if rec.tc.all TcEntry.readable then some rec.stored else none := by
  rcases hall : rec.tc.all TcEntry.readable with _ | _
  · have hbad : ∃ e ∈ rec.tc, e.readable = false := by
      simpa using List.all_eq_false.mp hall
    exact readCache_unreadable hs hbad
  · exact readCache_readable hs (List.all_eq_true.mp hall)

/-- A recording of two checks, one of them of a value that cannot be written. -/
def twoChecks : TcRecording where
  gensymStart := 3
  gensymEnd := 5
  tc := [⟨some 7, some (.cons (.long 1) .nil), 4⟩, ⟨some 8, some (.other 0), 5⟩]
  ckpt := [9]

theorem twoChecks_small : twoChecks.Small := ⟨by decide, by decide⟩

theorem readCache_writeCache_twoChecks : readCache (writeCache twoChecks) =
    if twoChecks.tc.all TcEntry.readable then some twoChecks.stored else none :=
  readCache_writeCache twoChecks_small

/-- **A part of a file is not read.** -/
theorem readCache_torn {rec : TcRecording} (hs : rec.Small) {n : ℕ}
    (hn : n < (writeCache rec).length) : readCache ((writeCache rec).take n) = none := by
  have hpre := List.take_prefix n (writeCache rec)
  have hne : (writeCache rec).take n ≠ writeCache rec := fun h => by
    have hlen := congrArg List.length h
    rw [List.length_take] at hlen
    omega
  unfold readCache
  rw [Option.map_eq_none_iff]
  by_cases h : ∀ e ∈ rec.tc, e.readable = true
  · exact (parseCache_reads hs h).prefix_none parseCache_local hpre hne
  · push Not at h
    obtain ⟨e, he, hread⟩ := h
    exact (parseCache_rejects hs ⟨e, he, Bool.eq_false_iff.mpr hread⟩).prefix_none parseCache_local hpre

theorem readCache_torn_twoChecks : readCache ((writeCache twoChecks).take 40) = none :=
  readCache_torn twoChecks_small (by decide +kernel)

end ShenRc.Replay
