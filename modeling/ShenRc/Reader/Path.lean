import ShenRc.KL.RoundTrip
import ShenRc.Reader.Values

/-! # Reading a file

`rc_read_path_ex`: the bytes of a file, in an array that doubles, and then the forms in them, one
after the other, in another one. A file is what is left to read of it, and whether the read fails
where that ends.

Every call ends and cleans up (`reading_progresses`), and the forms it hands out are those of the file
(`rcReadPathEx_holds`), so those that `write_kl` has written to it (`rcReadPathEx_written`). -/

namespace ShenRc.Reader

open Numeral KL

structure Stream where
  rest : Text
  broken : Bool := false

/-- `fread`: the bytes, and what is left; a short count is the end of the file or an error. -/
def fread (n : ℕ) (input : Stream) : Text × Stream :=
  (input.rest.take n, { input with rest := input.rest.drop n })

/-- `ferror` or `feof`, after a read of `n` bytes. -/
def atEnd (n : ℕ) (input : Stream) : Bool := input.rest.length < n

/-- Room for 4096 bytes and the terminator. -/
def growBytes (length capacity : ℕ) (w : World) : Option ℕ × World :=
  if capacity - length < 4097 then
    if 9223372036854771710 < capacity then
      (none, w.fail (ascii "KLambda source too large"))
    else
      match w.malloc (ascii "out of memory reading KLambda source") with
      | (true, w) => (some (if capacity = 0 then 8192 else capacity * 2), w)
      | (false, w) => (none, w)
  else (some capacity, w)

/-- The first loop of `rc_read_path_ex`. -/
def readBytes (path : Text) : ℕ → Stream → Text → ℕ → World → Option (Option Text × World)
  | 0, _, _, _, _ => none
  | fuel + 1, input, bytes, capacity, w =>
    match growBytes bytes.length capacity w with
    | (none, w) => some (none, w)
    | (some capacity, w) =>
      let n := capacity - bytes.length - 1
      let got := fread n input
      if 0 ∈ got.1 then some (none, w.fail (ascii "NUL byte in KLambda source " ++ path))
      else if atEnd n input then
        if input.broken then some (none, w.fail (ascii "failed reading KLambda source " ++ path))
        else some (some (bytes ++ got.1), w)
      else readBytes path fuel got.2 (bytes ++ got.1) capacity w

/-- What `rc_read_path_ex` returns, with the forms it stores. -/
structure PathResult where
  ok : Bool
  forms : List Item
  world : World

/-- Room for one more form. -/
def growForms : Item → ℕ → ℕ → World → Option ℕ × World :=
  grow 64 "too many KLambda forms" "out of memory storing KLambda forms"

/-- The reader for a source of either kind. -/
def reader (escaped : Bool) : Libc → Option Text → World → Option Result :=
  if escaped then rcReadEscaped else rcRead

/-- The second loop of `rc_read_path_ex`. -/
def readForms (libc : Libc) (escaped : Bool) :
    ℕ → Text → List Item → ℕ → World → Option PathResult
  | 0, _, _, _, _ => none
  | fuel + 1, cursor, forms, slots, w =>
    (reader escaped libc (some cursor) w).bind fun read =>
      match read.value with
      | none =>
        if read.world.error.isSome then some ⟨false, [], read.world.releaseAll forms⟩
        else some ⟨true, forms, read.world⟩
      | some form =>
        match growForms form forms.length slots read.world with
        | (some slots, w) => readForms libc escaped fuel read.cursor (forms ++ [form]) slots w
        | (none, w) => some ⟨false, [], w.releaseAll forms⟩

/-- `rc_read_path_ex`; `file` is `none` if it cannot be opened. -/
def rcReadPathEx (libc : Libc) (escaped outputs : Bool) (path : Text) (file : Option Stream)
    (w : World) : Option PathResult :=
  if !outputs then some ⟨false, [], w.fail (ascii "invalid reader output")⟩
  else
    match file with
    | none => some ⟨false, [], w.fail (ascii "cannot open KLambda source " ++ path)⟩
    | some input =>
      (readBytes path (input.rest.length + 1) input [] 0 w).bind fun read =>
        match read with
        | (none, w) => some ⟨false, [], w⟩
        | (some bytes, w) => readForms libc escaped (bytes.length + 1) bytes [] 0 w

variable {w w' : World} {held : List ℕ} {p : Text}

/-! ### One form -/

/-- What a read from the position `i` of a string does. -/
structure Result.Advances (s : Text) (i : ℕ) (w : World) (held : List ℕ) (r : Result) (j : ℕ) :
    Prop where
  cursor : r.cursor = s.drop j
  forward : i ≤ j
  within : j ≤ s.length
  value : ∀ item, r.value = some item →
    i < j ∧ r.world.error = w.error ∧ r.world.ledger.Accounts (item.2 :: held)
  none_iff : w.error = none →
    (r.value = none ∧ r.world.error = none ↔ ∀ c ∈ s.drop i, isSpace c = true)
  cleanup : r.value = none → r.world.ledger.Accounts held

theorem reader_sound (libc : Libc) (escaped : Bool) (p : Text) (hw : w.ledger.Accounts held) :
    ∃ r, reader escaped libc (some p) w = some r ∧ r.Sound p w held := by
  cases escaped
  · exact (read_sound libc false _).1 0 p w held le_rfl hw
  · exact (read_sound libc true _).1 0 p w held le_rfl hw

theorem Result.Sound.advances {s : Text} {i : ℕ} {r : Result} (hi : i ≤ s.length)
    (h : r.Sound (s.drop i) w held) : ∃ j, r.Advances s i w held j := by
  have hs : r.cursor <:+ s := h.within.trans (List.drop_suffix i s)
  have hlen := h.within.length_le
  have hlen' := hs.length_le
  rw [List.length_drop] at hlen
  refine ⟨s.length - r.cursor.length, (List.suffix_iff_eq_drop.mp hs), by omega, by omega,
    fun item hv => ?_, fun hnone => ⟨fun ⟨hv, he⟩ => ?_, fun hb => ⟨h.blank hb, ?_⟩⟩,
    fun hv => (h.failed hv).1⟩
  · obtain ⟨hforward, he, hheld⟩ := h.value item hv
    rw [List.length_drop] at hforward
    exact ⟨by omega, he, hheld⟩
  · obtain ⟨-, ⟨hb, -⟩ | ⟨-, he'⟩⟩ := h.failed hv
    · exact hb
    · exact absurd he' (by simp [he])
  · obtain ⟨-, ⟨-, he⟩ | ⟨hb', -⟩⟩ := h.failed (h.blank hb)
    · exact he.trans hnone
    · exact absurd hb hb'

/-! ### The loops -/

theorem growBytes_some {length capacity capacity' : ℕ}
    (hl : length ≤ capacity) (hc : capacity = 0 ∨ 8192 ≤ capacity)
    (h : growBytes length capacity w = (some capacity', w')) :
    w'.error = w.error ∧ w'.ledger = w.ledger ∧ length + 4097 ≤ capacity' ∧ 8192 ≤ capacity' := by
  unfold growBytes at h
  split at h
  · split at h
    · exact absurd (Prod.mk.inj h).1 (by simp)
    · split at h
      · rename_i hm
        obtain ⟨hcap, rfl⟩ := Prod.mk.inj h
        obtain rfl := Option.some.inj hcap
        obtain ⟨he, hledger⟩ := World.malloc_true hm
        refine ⟨he, hledger, ?_⟩
        split_ifs <;> omega
      · exact absurd (Prod.mk.inj h).1 (by simp)
  · obtain ⟨hcap, rfl⟩ := Prod.mk.inj h
    obtain rfl := Option.some.inj hcap
    exact ⟨rfl, rfl, by omega, by omega⟩

theorem growBytes_none {length capacity : ℕ} (h : growBytes length capacity w = (none, w')) :
    w'.error.isSome ∧ w'.ledger = w.ledger := by
  unfold growBytes at h
  split at h
  · split at h
    · obtain rfl := (Prod.mk.inj h).2
      exact ⟨rfl, rfl⟩
    · split at h
      · exact absurd (Prod.mk.inj h).1 (by simp)
      · rename_i hm
        obtain rfl := (Prod.mk.inj h).2
        obtain ⟨he, hl⟩ := World.malloc_false hm
        exact ⟨by simp [he], hl⟩
  · exact absurd (Prod.mk.inj h).1 (by simp)

/-- A read that is not short takes at least one byte of the file. -/
theorem readBytes_ends (path : Text) (fuel : ℕ) (input : Stream) (bytes : Text) (capacity : ℕ)
    (hfuel : input.rest.length < fuel) (hl : bytes.length ≤ capacity)
    (hc : capacity = 0 ∨ 8192 ≤ capacity) :
    ∃ read, readBytes path fuel input bytes capacity w = some read ∧
      read.2.ledger = w.ledger ∧ (read.1 = none → read.2.error.isSome) ∧
      (∀ text, read.1 = some text → text = bytes ++ input.rest ∧ read.2.error = w.error) := by
  induction fuel generalizing input bytes capacity w with
  | zero => omega
  | succ fuel ih =>
    rw [readBytes]
    split
    · rename_i w' hgrow
      obtain ⟨he, hledger⟩ := growBytes_none hgrow
      exact ⟨_, rfl, hledger, fun _ => he, fun _ ht => absurd ht (by simp)⟩
    · rename_i capacity' w' hgrow
      obtain ⟨he, hledger, hroom, hcap⟩ := growBytes_some hl hc hgrow
      simp only
      split_ifs with hzero hend hbroken
      · exact ⟨_, rfl, hledger, fun _ => rfl, fun _ ht => absurd ht (by simp)⟩
      · exact ⟨_, rfl, hledger, fun _ => rfl, fun _ ht => absurd ht (by simp)⟩
      · refine ⟨_, rfl, hledger, fun hn => absurd hn (by simp), fun text ht => ⟨?_, he⟩⟩
        obtain rfl := Option.some.inj ht
        rw [fread, List.take_of_length_le (le_of_lt (by simpa [atEnd] using hend))]
      · have hlong : capacity' - bytes.length - 1 ≤ input.rest.length := by
          simpa [atEnd] using hend
        obtain ⟨read, hread, hledger', hnone, hsome⟩ :=
          ih (fread (capacity' - bytes.length - 1) input).2
            (bytes ++ (fread (capacity' - bytes.length - 1) input).1) capacity' (w := w')
            (by simp only [fread, List.length_drop]; omega)
            (by simp only [fread, List.length_append, List.length_take]; omega) (.inr hcap)
        refine ⟨read, hread, hledger'.trans hledger, hnone, fun text ht => ?_⟩
        obtain ⟨htext, he'⟩ := hsome text ht
        refine ⟨htext.trans ?_, he'.trans he⟩
        rw [fread, List.append_assoc, List.take_append_drop]

/-- What reading a file leaves: a success has no error and hands out the references to its forms, a
failure has one and hands out none. -/
structure PathResult.Sound (held : List ℕ) (r : PathResult) : Prop where
  success : r.ok = true → r.world.error = none ∧
    r.world.ledger.Accounts (r.forms.map Prod.snd ++ held)
  failure : r.ok = false → r.forms = [] ∧ r.world.error.isSome ∧ r.world.ledger.Accounts held

theorem PathResult.Sound.failed (he : w.error.isSome) (hw : w.ledger.Accounts held) :
    (⟨false, [], w⟩ : PathResult).Sound held :=
  ⟨fun h => absurd h (by simp), fun _ => ⟨rfl, he, hw⟩⟩

/-- Every form takes at least one byte. -/
theorem readForms_ends (libc : Libc) (escaped : Bool) (fuel : ℕ) (cursor : Text)
    (forms : List Item) (slots : ℕ) (hfuel : cursor.length < fuel)
    (hw : w.ledger.Accounts (forms.map Prod.snd ++ held)) :
    ∃ r, readForms libc escaped fuel cursor forms slots w = some r ∧ r.Sound held := by
  induction fuel generalizing cursor forms slots w with
  | zero => omega
  | succ fuel ih =>
    obtain ⟨read, hread, hsound⟩ := reader_sound libc escaped cursor hw
    rw [readForms, hread, Option.bind_some]
    split
    · rename_i hv
      have hheld := (hsound.failed hv).1
      split_ifs with he
      · exact ⟨_, rfl, .failed (by simpa using he) (World.releaseAll_accounts hheld)⟩
      · refine ⟨_, rfl, fun _ => ⟨by simpa using he, hheld⟩, fun h => absurd h (by simp)⟩
    · rename_i form hv
      obtain ⟨hforward, -, hheld⟩ := hsound.value form hv
      split
      · rename_i slots' w' hgrow
        obtain ⟨-, hl⟩ := grow_some hgrow
        refine ih _ _ _ (by omega) ?_
        rw [hl, List.map_append, List.append_assoc]
        exact hheld.perm List.perm_middle
      · rename_i w' hgrow
        obtain ⟨he, hl⟩ := grow_none hgrow
        refine ⟨_, rfl, .failed (by simpa using he) (World.releaseAll_accounts ?_)⟩
        rw [hl]
        exact hheld.release

theorem rcReadPathEx_ends (libc : Libc) (escaped outputs : Bool) (path : Text)
    (file : Option Stream) (hw : w.ledger.Accounts held) :
    ∃ r, rcReadPathEx libc escaped outputs path file w = some r ∧ r.Sound held := by
  unfold rcReadPathEx
  split_ifs
  · exact ⟨_, rfl, .failed rfl hw⟩
  split
  · exact ⟨_, rfl, .failed rfl hw⟩
  · rename_i input
    obtain ⟨⟨text, w'⟩, hread, hledger, hnone, -⟩ :=
      readBytes_ends path (input.rest.length + 1) input [] 0 (w := w) (by omega) le_rfl (.inl rfl)
    rw [hread, Option.bind_some]
    rw [← hledger] at hw
    rcases text with _ | bytes
    · exact ⟨_, rfl, .failed (hnone rfl) hw⟩
    · exact readForms_ends libc escaped _ bytes [] 0 (by omega) hw

/-! ### The forms of a file -/

/-- The forms that a source holds, one after the other, up to its end. -/
inductive Holds (libc : Libc) (escaped : Bool) : Text → List Value → Prop
  | eof {source : Text} (h : nextForm libc escaped source = .eof) : Holds libc escaped source []
  | form {source rest : Text} {v : Value} {vs : List Value}
      (h : nextForm libc escaped source = .form v rest) (hrest : Holds libc escaped rest vs) :
      Holds libc escaped source (v :: vs)

theorem Holds.unique {libc : Libc} {escaped : Bool} {vs vs' : List Value}
    (h : Holds libc escaped p vs) (h' : Holds libc escaped p vs') : vs = vs' := by
  induction h generalizing vs' with
  | eof h =>
    rcases h' with _ | ⟨hform, -⟩
    · rfl
    · exact absurd (h.symm.trans hform) (by simp)
  | form h _ ih =>
    rcases h' with heof | ⟨hform, hrest⟩
    · exact absurd (h.symm.trans heof) (by simp)
    · obtain ⟨rfl, rfl⟩ := Read.form.inj (h.symm.trans hform)
      rw [ih hrest]

theorem Holds.of_readsAll {libc : Libc} {vs : List Value} (h : ReadsAll libc p vs) :
    Holds libc true p vs := by
  induction h with
  | eof h => exact .eof h
  | form h _ ih => exact .form h ih

theorem reader_gives {libc : Libc} {escaped : Bool} {r : Result}
    (h : reader escaped libc (some p) w = some r) : r.Gives (nextForm libc escaped p) := by
  unfold reader at h
  unfold nextForm
  split_ifs at h ⊢
  · exact (read_gives libc true _).1 0 p w r h
  · exact (read_gives libc false _).1 0 p w r h

theorem readForms_holds {libc : Libc} {escaped : Bool} {fuel slots : ℕ} {cursor : Text}
    {forms : List Item} {r : PathResult} (hw : w.ledger.Accounts held)
    (h : readForms libc escaped fuel cursor forms slots w = some r) (hok : r.ok = true) :
    ∃ vs, Holds libc escaped cursor vs ∧ r.forms.map Prod.fst = forms.map Prod.fst ++ vs := by
  induction fuel generalizing cursor forms slots w held with
  | zero => exact absurd h (by simp [readForms])
  | succ fuel ih =>
    obtain ⟨read, hread, hsound⟩ := reader_sound libc escaped cursor hw
    rw [readForms, hread, Option.bind_some] at h
    rcases hvalue : read.value with _ | form
    · simp only [hvalue] at h
      split_ifs at h with he
      · obtain rfl := Option.some.inj h
        exact absurd hok (by simp)
      · obtain rfl := Option.some.inj h
        obtain ⟨-, ⟨hblank, -⟩ | ⟨-, he'⟩⟩ := hsound.failed hvalue
        · exact ⟨[], .eof (nextForm_blank hblank), (List.append_nil _).symm⟩
        · exact absurd he' he
    · simp only [hvalue] at h
      obtain ⟨-, -, hheld⟩ := hsound.value form hvalue
      rcases hgrow : growForms form forms.length slots read.world with ⟨_ | slots', w'⟩
      · simp only [hgrow] at h
        obtain rfl := Option.some.inj h
        exact absurd hok (by simp)
      · simp only [hgrow] at h
        obtain ⟨-, hledger⟩ := grow_some hgrow
        obtain ⟨vs, hvs, hforms⟩ := ih (hledger ▸ hheld) h
        refine ⟨form.1 :: vs, .form (reader_gives hread form hvalue) hvs, ?_⟩
        rw [hforms, List.map_append, List.append_assoc]
        rfl

/-- **The forms that are handed out are those of the file.** -/
theorem rcReadPathEx_holds {libc : Libc} {escaped outputs : Bool} {path : Text}
    {file : Option Stream} {r : PathResult} (hw : w.ledger.Accounts held)
    (h : rcReadPathEx libc escaped outputs path file w = some r) (hok : r.ok = true) :
    ∃ input, file = some input ∧ Holds libc escaped input.rest (r.forms.map Prod.fst) := by
  unfold rcReadPathEx at h
  split_ifs at h
  · obtain rfl := Option.some.inj h
    exact absurd hok (by simp)
  rcases file with _ | input
  · obtain rfl := Option.some.inj h
    exact absurd hok (by simp)
  · obtain ⟨⟨text, w'⟩, hread, hledger, -, htext⟩ :=
      readBytes_ends path (input.rest.length + 1) input [] 0 (w := w) (by omega) le_rfl (.inl rfl)
    simp only [hread, Option.bind_some] at h
    rcases text with _ | bytes
    · obtain rfl := Option.some.inj h
      exact absurd hok (by simp)
    · obtain ⟨hbytes, -⟩ := htext bytes rfl
      obtain ⟨vs, hvs, hforms⟩ := readForms_holds (hledger ▸ hw) h hok
      rw [List.nil_append] at hbytes
      rw [List.map_nil, List.nil_append] at hforms
      exact ⟨input, rfl, hbytes ▸ hforms ▸ hvs⟩

/-- A file that was written is read as the forms that were written to it. -/
theorem rcReadPathEx_written {libc : Libc} (hl : libc.Conforms) {vs : List Value} {text : Text}
    (hforms : ∀ v ∈ vs, IsForm 0 v) (hwritten : writeForms libc vs = .ok text) {outputs broken : Bool}
    {path : Text} {r : PathResult} (hw : w.ledger.Accounts held)
    (h : rcReadPathEx libc true outputs path (some ⟨text, broken⟩) w = some r) (hok : r.ok = true) :
    r.forms.map Prod.fst = vs := by
  obtain ⟨text', hwritten', -, hreads, -⟩ := readsAll_writeForms hl hforms
  obtain rfl : text = text' := Except.ok.inj (hwritten.symm.trans hwritten')
  obtain ⟨input, hfile, hholds⟩ := rcReadPathEx_holds hw h hok
  obtain rfl := Option.some.inj hfile
  exact hholds.unique (.of_readsAll hreads)

/-- **Reading makes progress and cleans up.** -/
theorem reading_progresses (libc : Libc) (escaped : Bool) (w : World) (held : List ℕ)
    (hw : w.ledger.Accounts held) :
    (∀ (s : Text) (i : ℕ), i ≤ s.length →
      ∃ r j, reader escaped libc (some (s.drop i)) w = some r ∧ r.Advances s i w held j) ∧
    (∀ (outputs : Bool) (path : Text) (file : Option Stream),
      ∃ r, rcReadPathEx libc escaped outputs path file w = some r ∧ r.Sound held) := by
  refine ⟨fun s i hi => ?_, fun outputs path file => rcReadPathEx_ends libc escaped outputs path
    file hw⟩
  obtain ⟨r, hr, hsound⟩ := reader_sound libc escaped (s.drop i) hw
  obtain ⟨j, hj⟩ := hsound.advances hi
  exact ⟨r, j, hr, hj⟩

/-- In the list `(f x)` the request for the token `x` is refused. -/
theorem reading_progresses_list :
    ∃ r j, reader true ⟨fun _ => [], fun _ => ⟨.finite false 0 0, 0, false⟩⟩
        (some ((ascii "(f x) ").drop 0)) { refuse := fun k => if k = 3 then some [] else none } =
        some r ∧
      r.Advances (ascii "(f x) ") 0 { refuse := fun k => if k = 3 then some [] else none } [] j :=
  (reading_progresses ⟨fun _ => [], fun _ => ⟨.finite false 0 0, 0, false⟩⟩ true
    { refuse := fun k => if k = 3 then some [] else none } [] .empty).1 (ascii "(f x) ") 0
    (Nat.zero_le _)

end ShenRc.Reader
