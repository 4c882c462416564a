import ShenRc.Replay.Format

/-! # Files that are accepted

The file of a key can hold anything, also counts that there is no memory for, which `read_cache` does
not look at (`readFile`). The recordings that files are read as are those that lose nothing when they
are written, each of them is read of the file that is written of it, and only counts that are too large
are not borne (`readFile_again`). -/

namespace ShenRc.Replay

open Numeral

/-! ### Arrays -/

/-- The elements of the array that `calloc` gives for `n` elements of `size` bytes. The product is not
checked, and no block has more than `memory` bytes. -/
def arrayRoom (memory size n : ℕ) : ℕ :=
  if n * size % 2 ^ 64 ≤ memory then n * size % 2 ^ 64 / size else 0

/-- An array of `n` elements is filled. An element is written after `before`, and there is nothing where
that is past the end of the array. -/
def Parser.fill {τ α : Type} (before : Parser τ Unit) (p : Parser τ α) :
    ℕ → ℕ → Parser τ (Option (List α))
  | _, 0 => pure (some [])
  | 0, _ + 1 => do
    before
    pure none
  | room + 1, n + 1 => do
    let a ← p
    let rest ← Parser.fill before p room n
    pure (rest.map (a :: ·))

/-- What comes of a file. -/
inductive Reading
  | refused
  | recording (rec : TcRecording)
  /-- The reader has written outside of its arrays. -/
  | fault

/-- The counters and the counts of a file. -/
def parseHeader : Parser UInt8 (Int64 × Int64 × ℕ × ℕ) := do
  let start ← Parser.take header.length
  if start = header then do
    let gensymStart ← numberUntil 32
    let gensymEnd ← numberUntil 32
    let ntc ← count 32
    let nckpt ← count 10
    pure (gensymStart, gensymEnd, ntc, nckpt)
  else Parser.fail

/-- The two arrays of a file. A `TcEntry` has 40 bytes and is cleared before it is read, a word is read
before it is stored. -/
def parseArrays (memory : ℕ) (h : Int64 × Int64 × ℕ × ℕ) : Parser UInt8 (Option TcRecording) := do
  let tc ← Parser.fill (pure ()) parseEntry (arrayRoom memory 40 h.2.2.1) h.2.2.1
  match tc with
  | none => pure none
  | some tc => do
    let ckpt ← Parser.fill (do
      let _ ← Parser.take 16
      pure ()) word (arrayRoom memory 8 h.2.2.2) h.2.2.2
    pure (ckpt.map fun ckpt => ⟨h.1, h.2.1, tc, ckpt⟩)

/-- **`read_cache`**, of the bytes of the file. -/
def readFile (memory : ℕ) (bytes : Text) : Reading :=
  match (parseHeader >>= parseArrays memory) bytes with
  | none => .refused
  | some (none, _) => .fault
  | some (some rec, _) => .recording rec

/-- The counts that a file begins with. -/
def fileCounts (bytes : Text) : Option (ℕ × ℕ) := (parseHeader bytes).map (·.1.2.2)

theorem arrayRoom_eq {memory size n : ℕ} (hsize : 0 < size) (hm : memory < 2 ^ 64)
    (h : n * size ≤ memory) : arrayRoom memory size n = n := by
  rw [arrayRoom, Nat.mod_eq_of_lt (h.trans_lt hm), if_pos h, Nat.mul_div_cancel _ hsize]

/-- An array for which there is no memory is too short. -/
theorem arrayRoom_lt {memory size n : ℕ} (h : memory < n * size) :
    arrayRoom memory size n < n := by
  unfold arrayRoom
  split_ifs with hm
  · exact Nat.div_lt_of_lt_mul ((hm.trans_lt h).trans_eq (Nat.mul_comm n size))
  · exact Nat.pos_of_ne_zero fun h0 => by simp [h0] at h

section Fill

variable {τ α : Type} {before : Parser τ Unit} {p : Parser τ α} {room n : ℕ}

/-- An array with room for its elements is read as the row of them. -/
theorem fill_eq_times (h : n ≤ room) :
    Parser.fill before p room n = (do
      let as ← Parser.times p n
      pure (some as)) := by
  induction n generalizing room with
  | zero =>
    cases room <;> rfl
  | succ n ih =>
    obtain ⟨room, rfl⟩ : ∃ r, room = r + 1 := ⟨room - 1, by omega⟩
    funext s
    rw [Parser.fill, ih (by omega), Parser.times]
    simp only [Parser.bind_apply]
    rcases p s with _ | ⟨a, s⟩
    · rfl
    · dsimp only [Option.bind_some]
      rcases Parser.times p n s with _ | ⟨as, s'⟩
      · rfl
      · rfl

/-- An array that is too short is never filled. -/
theorem fill_none (h : room < n) : (Parser.fill before p room n).Finds (· = none) := by
  induction room generalizing n with
  | zero =>
    obtain ⟨n, rfl⟩ : ∃ k, n = k + 1 := ⟨n - 1, by omega⟩
    exact (Parser.Finds.any _).bind fun _ _ => .pure rfl
  | succ room ih =>
    obtain ⟨n, rfl⟩ : ∃ k, n = k + 1 := ⟨n - 1, by omega⟩
    refine (Parser.Finds.any _).bind fun a _ => (ih (by omega)).bind fun rest hrest => .pure ?_
    rw [hrest]
    rfl

end Fill

/-! ### Values -/

/-- The value can be written, and what is written can be read. -/
structure Value.Sound (v : Value) : Prop where
  text : (serialize v).isSome = true
  fits : v.fits = true

/-- The value can be written and read at the end of a list with `n` elements before it. -/
structure Value.SoundFrom (n : ℕ) (v : Value) : Prop where
  text : (serialize v).isSome = true
  fits : fitsFrom n v = true

theorem soundFrom_cons {n : ℕ} {car cdr : Value} (hn : n < 256) (hcar : car.Sound)
    (hcdr : cdr.SoundFrom (n + 1)) : (Value.cons car cdr).SoundFrom n := by
  obtain ⟨x, hx⟩ := Option.isSome_iff_exists.mp hcar.text
  obtain ⟨y, hy⟩ := Option.isSome_iff_exists.mp hcdr.text
  constructor
  · rw [serialize, hx, hy]
    rfl
  · rw [fitsFrom, decide_eq_true hn, hcdr.fits]
    exact (Bool.and_true _).trans ((Bool.true_and _).trans hcar.fits)

/-- The elements on the spine are put in front of the value. -/
theorem sound_spine {spine : List Value} {v : Value} (hlen : spine.length ≤ 256)
    (hspine : ∀ car ∈ spine, car.Sound) (hv : v.SoundFrom spine.length) :
    (spine.foldl (fun cdr car => .cons car cdr) v).Sound := by
  induction spine generalizing v with
  | nil => exact ⟨hv.text, hv.fits⟩
  | cons car spine ih =>
    rw [List.length_cons] at hlen hv
    refine ih (by omega) (fun c hc => hspine c (List.mem_cons_of_mem _ hc)) ?_
    exact soundFrom_cons (by omega) (hspine car List.mem_cons_self) hv

theorem shenIntern_sound (n : ℕ) (name : CString) : (shenIntern name).SoundFrom n := by
  unfold shenIntern
  split_ifs
  · exact ⟨rfl, rfl⟩
  · exact ⟨rfl, rfl⟩
  · exact ⟨rfl, rfl⟩

theorem parseAtom_sound (tag : UInt8) (n : ℕ) : (parseAtom tag).Finds (Value.SoundFrom n) := by
  refine .ite (fun _ => .pure ⟨rfl, rfl⟩) fun _ => .ite (fun _ => .pure ⟨rfl, rfl⟩) fun _ =>
    .ite (fun _ => .pure ⟨rfl, rfl⟩) fun _ => .ite (fun _ => ?_) fun _ => .ite (fun _ => ?_) fun _ =>
    .ite (fun _ => ?_) fun _ => .ite (fun _ => ?_) fun _ => .fail _
  · exact (Parser.Finds.any _).bind fun _ _ => .pure ⟨rfl, rfl⟩
  · exact (Parser.Finds.any _).bind fun _ _ => (Parser.Finds.any _).bind fun _ _ =>
      .ite (fun _ => .pure ⟨rfl, rfl⟩) fun _ => .fail _
  · exact (Parser.Finds.any _).bind fun name _ => .pure (shenIntern_sound n name)
  · exact (Parser.Finds.any _).bind fun _ _ => .pure ⟨rfl, rfl⟩

theorem parseSpine_sound (fuel : ℕ) {spine : List Value} (hlen : spine.length ≤ 256)
    (hspine : ∀ car ∈ spine, car.Sound) : (parseSpine fuel spine).Finds Value.Sound := by
  induction fuel generalizing spine with
  | zero => exact .fail _
  | succ fuel ih =>
    refine (Parser.Finds.any _).bind fun tag _ => .ite (fun _ => ?_) fun _ => ?_
    · refine .ite (fun _ => .fail _) fun hroom => ?_
      refine (ih (Nat.zero_le _) fun _ hc => absurd hc List.not_mem_nil).bind fun car hcar => ?_
      refine ih (by rw [List.length_cons]; omega) fun c hc => ?_
      rcases List.mem_cons.mp hc with rfl | hc
      · exact hcar
      · exact hspine c hc
    · exact (parseAtom_sound tag spine.length).bind fun v hv => .pure (sound_spine hlen hspine hv)

/-- **A value that is read can be written**, and read again. -/
theorem parseValue_sound : parseValue.Finds Value.Sound := fun s v rest h =>
  parseSpine_sound (s.length + 1) (Nat.zero_le _) (fun _ hc => absurd hc List.not_mem_nil) s v rest h

/-! ### Recordings -/

/-- Nothing of the entry is lost when it is written. -/
structure TcEntry.Sound (e : TcEntry) : Prop where
  stored : e.stored = e
  readable : e.readable = true

theorem TcEntry.sound_of_val {hash : UInt64} {v : Value} (hv : v.Sound) (n : Int64) :
    (⟨some hash, some v, n⟩ : TcEntry).Sound := by
  have hkept : (⟨some hash, some v, n⟩ : TcEntry).kept = some v := if_pos hv.text
  constructor
  · unfold TcEntry.stored
    rw [hkept]
  · unfold TcEntry.readable
    rw [hkept]
    exact hv.fits

theorem TcEntry.sound_of_none (hash : Option UInt64) (n : Int64) :
    (⟨hash, none, n⟩ : TcEntry).Sound := by
  rcases hash with _ | hash
  · exact ⟨rfl, rfl⟩
  · exact ⟨rfl, rfl⟩

theorem marked_finds {α : Type} {p : Parser UInt8 α} {P : α → Prop} (hp : p.Finds P) :
    (marked p).Finds fun o => ∀ a, o = some a → P a := by
  refine (Parser.Finds.any _).bind fun mark _ => .ite (fun _ => ?_) fun _ =>
    .ite (fun _ => .pure fun a ha => absurd ha (by simp)) fun _ => .fail _
  refine hp.bind fun a ha => .pure fun b hb => ?_
  obtain rfl := Option.some.inj hb
  exact ha

theorem parseEntry_sound : parseEntry.Finds TcEntry.Sound := by
  refine (Parser.Finds.any _).bind fun hash _ => (marked_finds parseValue_sound).bind fun val hval =>
    .ite (fun _ => .fail _) fun hboth => (Parser.Finds.any _).bind fun g _ =>
      .ite (fun _ => (Parser.Finds.any _).bind fun n _ => .pure ?_) fun _ => .fail _
  rcases val with _ | v
  · exact TcEntry.sound_of_none hash n
  · rcases hash with _ | hash
    · exact absurd ⟨rfl, rfl⟩ hboth
    · exact TcEntry.sound_of_val (hval v rfl) n

/-- Nothing of the recording is lost when it is written, and there is memory for its arrays. -/
structure TcRecording.Lossless (memory : ℕ) (rec : TcRecording) : Prop where
  tc : rec.tc.length * 40 ≤ memory
  ckpt : rec.ckpt.length * 8 ≤ memory
  entries : ∀ e ∈ rec.tc, e.Sound

theorem TcRecording.Lossless.stored {memory : ℕ} {rec : TcRecording} (h : rec.Lossless memory) :
    rec.stored = rec := by
  have htc : rec.tc.map TcEntry.stored = rec.tc :=
    (List.map_congr_left fun e he => (h.entries e he).stored).trans (List.map_id _)
  unfold TcRecording.stored
  rw [htc]

/-- The arrays of a file, where there is memory for them. -/
def parseRows (h : Int64 × Int64 × ℕ × ℕ) : Parser UInt8 TcRecording := do
  let tc ← Parser.times parseEntry h.2.2.1
  let ckpt ← Parser.times word h.2.2.2
  pure ⟨h.1, h.2.1, tc, ckpt⟩

theorem parseCache_apply (bytes : Text) :
    parseCache bytes = (parseHeader bytes).bind fun r => parseRows r.1 r.2 := by
  unfold parseCache parseHeader
  simp only [Parser.bind_apply, Option.bind_assoc]
  refine Option.bind_congr fun r _ => ?_
  split_ifs
  · simp only [Parser.bind_apply, Option.bind_assoc]
    rfl
  · rfl

theorem parseRows_finds (h : Int64 × Int64 × ℕ × ℕ) : (parseRows h).Finds fun rec =>
    rec.tc.length = h.2.2.1 ∧ rec.ckpt.length = h.2.2.2 ∧ ∀ e ∈ rec.tc, e.Sound :=
  (parseEntry_sound.times h.2.2.1).bind fun _ htc =>
    ((Parser.Finds.any word).times h.2.2.2).bind fun _ hckpt => .pure ⟨htc.1, hckpt.1, htc.2⟩

section Memory

variable {memory : ℕ} {h : Int64 × Int64 × ℕ × ℕ}

theorem parseArrays_apply (hm : memory < 2 ^ 64) (htc : h.2.2.1 * 40 ≤ memory)
    (hckpt : h.2.2.2 * 8 ≤ memory) (s : Text) :
    parseArrays memory h s = (parseRows h s).map fun r => (some r.1, r.2) := by
  unfold parseArrays parseRows
  rw [arrayRoom_eq (by decide) hm htc, arrayRoom_eq (by decide) hm hckpt, fill_eq_times le_rfl,
    fill_eq_times le_rfl]
  simp only [Parser.bind_apply, Option.bind_assoc, Option.map_bind]
  refine Option.bind_congr fun r _ => ?_
  change ((Parser.times word h.2.2.2 r.2).bind fun q => some (some q.1, q.2)).bind _ = _
  dsimp only [Function.comp_apply]
  rcases Parser.times word h.2.2.2 r.2 with _ | q
  · rfl
  · rfl

theorem parseArrays_none (hbig : memory < h.2.2.1 * 40 ∨ memory < h.2.2.2 * 8) :
    (parseArrays memory h).Finds (· = none) := by
  unfold parseArrays
  rcases hbig with htc | hckpt
  · refine (fill_none (arrayRoom_lt htc)).bind fun tc htc => ?_
    rw [htc]
    exact .pure rfl
  · refine (Parser.Finds.any _).bind fun tc _ => ?_
    rcases tc with _ | tc
    · exact .pure rfl
    · refine (fill_none (arrayRoom_lt hckpt)).bind fun ckpt hckpt => .pure ?_
      rw [hckpt]
      rfl

/-- **A file gives a recording** if it is one with its arrays in memory. -/
theorem readFile_iff (hm : memory < 2 ^ 64) {bytes : Text} {rec : TcRecording} :
    readFile memory bytes = .recording rec ↔ readCache bytes = some rec ∧
      rec.tc.length * 40 ≤ memory ∧ rec.ckpt.length * 8 ≤ memory := by
  unfold readFile readCache
  rw [Parser.bind_apply, parseCache_apply]
  rcases parseHeader bytes with _ | ⟨h, s⟩
  · simp
  dsimp only [Option.bind_some]
  by_cases hfits : h.2.2.1 * 40 ≤ memory ∧ h.2.2.2 * 8 ≤ memory
  · rw [parseArrays_apply hm hfits.1 hfits.2]
    rcases hs : parseRows h s with _ | ⟨rec', rest⟩
    · simp
    · obtain ⟨htc, hckpt, -⟩ := parseRows_finds h s rec' rest hs
      simp only [Option.map_some, Reading.recording.injEq, Option.some.injEq]
      refine ⟨?_, fun h => h.1⟩
      rintro rfl
      exact ⟨rfl, htc ▸ hfits.1, hckpt ▸ hfits.2⟩
  · constructor
    · intro hread
      have hbig : memory < h.2.2.1 * 40 ∨ memory < h.2.2.2 * 8 := by omega
      have hnone := parseArrays_none hbig s
      rcases hs : parseArrays memory h s with _ | ⟨_ | rec', rest⟩
      · rw [hs] at hread
        cases hread
      · rw [hs] at hread
        cases hread
      · exact absurd (hnone _ _ hs) (by simp)
    · rintro ⟨hread, htc, hckpt⟩
      obtain ⟨⟨rec', rest⟩, hs, rfl⟩ := Option.map_eq_some_iff.mp hread
      obtain ⟨htc', hckpt', -⟩ := parseRows_finds h s rec' rest hs
      exact absurd ⟨htc' ▸ htc, hckpt' ▸ hckpt⟩ hfits

/-- **Only counts that are too large are not borne.** -/
theorem readFile_fault (hm : memory < 2 ^ 64) {bytes : Text} (hread : readFile memory bytes = .fault) :
    ∃ ntc nckpt, fileCounts bytes = some (ntc, nckpt) ∧ (memory < ntc * 40 ∨ memory < nckpt * 8) := by
  unfold readFile at hread
  unfold fileCounts
  rw [Parser.bind_apply] at hread
  rcases hheader : parseHeader bytes with _ | ⟨h, s⟩
  · rw [hheader] at hread
    exact absurd hread (by simp)
  · refine ⟨h.2.2.1, h.2.2.2, rfl, ?_⟩
    by_contra hfits
    push Not at hfits
    rw [hheader, Option.bind_some, parseArrays_apply hm hfits.1 hfits.2] at hread
    rcases hrows : parseRows h s with _ | ⟨rec, rest⟩
    · rw [hrows] at hread
      exact absurd hread (by simp)
    · rw [hrows] at hread
      exact absurd hread (by simp)

end Memory

theorem readCache_sound {bytes : Text} {rec : TcRecording} (h : readCache bytes = some rec) :
    ∀ e ∈ rec.tc, e.Sound := by
  unfold readCache at h
  rw [parseCache_apply] at h
  obtain ⟨⟨rec', rest⟩, hread, rfl⟩ := Option.map_eq_some_iff.mp h
  obtain ⟨r, -, hrows⟩ := Option.bind_eq_some_iff.mp hread
  exact (parseRows_finds r.1 r.2 rec' rest hrows).2.2

end ShenRc.Replay
