import ShenRc.Reader.Progress

/-! # What the reader reads

The reader with its allocations refines the one of `KL.Read`: a value that a call returns is the one
that is there without them, with the same rest of the string (`Result.Gives`), and a call that returns
neither a value nor an error has met the end of the source. -/

namespace ShenRc.Reader

open Numeral KL

variable {libc : Libc} {escaped : Bool} {w : World} {p rest : Text} {v : Value} {item : Item}

/-- A value that is returned, and the cursor behind it, are those of `read`. -/
def Result.Gives (r : Result) (read : Read) : Prop :=
  ∀ item, r.value = some item → read = .form item.1 r.cursor

/-- What the next form of a source is. -/
def nextForm (libc : Libc) (escaped : Bool) (source : Text) : Read :=
  if escaped then KL.rcReadEscaped libc source else KL.rcRead libc source

/-! ### What is not a list -/

theorem World.make_value (h : (w.make v).1 = some item) : item.1 = v := by
  unfold make at h
  split at h
  · obtain rfl := Option.some.inj h
    rfl
  · exact absurd h (by simp)

namespace Result.Gives

theorem nothing (read : Read) : (⟨none, p, w⟩ : Result).Gives read :=
  fun _ h => absurd h (by simp)

theorem make (v : Value) (p : Text) (w : World) :
    (⟨(w.make v).1, p, (w.make v).2⟩ : Result).Gives (.form v p) := fun item h => by
  rw [World.make_value h]

end Result.Gives

/-- The bytes of a string that is read are those of the text up to its closing quote. -/
theorem escapedString_bytes (h : (escapedString p w).value = some item) :
    ∃ bytes, item.1 = .string bytes ∧
      ∀ result, KL.escapedString p result = result bytes (escapedString p w).cursor := by
  unfold escapedString at h ⊢
  unfold KL.escapedString
  rcases hend : stringEnd p with _ | ⟨text, rest⟩
  · simp only [hend] at h
    exact absurd h (by simp [fail])
  rcases hm : w.malloc (ascii "KLambda escaped reader: out of memory") with ⟨_ | _, w'⟩
  · simp only [hend, hm] at h
    exact absurd h (by simp)
  rcases hbytes : unescape text with _ | bytes
  · simp only [hend, hm, hbytes] at h
    exact absurd h (by simp [fail])
  · simp only [hend, hm, hbytes] at h ⊢
    exact ⟨bytes, World.make_value h, fun _ => rfl⟩

theorem escapedString_gives (p : Text) (w : World) : (escapedString p w).Gives
    (KL.escapedString p fun bytes rest => .form (.string bytes) rest) := fun item h => by
  obtain ⟨bytes, hitem, hresult⟩ := escapedString_bytes h
  rw [hresult, hitem]

theorem quotedSymbol_gives (p : Text) (w : World) :
    (quotedSymbol p w).Gives (KL.escapedString p KL.quotedSymbol) := by
  unfold quotedSymbol
  rcases htext : (escapedString p w).value with _ | text
  · simp only [htext]
    exact fun item h => absurd (htext.symm.trans h) (by simp)
  · obtain ⟨bytes, hbytes, hresult⟩ := escapedString_bytes htext
    rw [hresult, KL.quotedSymbol]
    simp only [htext, hbytes, textOf]
    split_ifs
    · exact .nothing _
    · exact fun item h => by rw [World.make_value h]

theorem rawString_gives (p : Text) (w : World) : (rawString p w).Gives (KL.rawString p) := by
  unfold rawString KL.rawString
  rcases p.dropWhile (· != 34) with _ | ⟨c, rest⟩
  · exact .nothing _
  · exact .make _ _ _

theorem token_gives (libc : Libc) (p : Text) (w : World) : (token libc p w).Gives
    (tokenValue libc (p.takeWhile isTokenChar) (p.dropWhile isTokenChar)) := by
  unfold token
  simp only
  rcases w.malloc (ascii "KLambda reader: out of memory") with ⟨_ | _, w'⟩
  · exact .nothing _
  · rcases hread : tokenValue libc (p.takeWhile isTokenChar) (p.dropWhile isTokenChar) with
      _ | message | ⟨value, rest⟩
    · exact .nothing _
    · exact .nothing _
    · obtain rfl := tokenValue_rest hread
      exact .make _ _ _

/-! ### Forms -/

/-- The items are put in front of the result. -/
theorem consItems_value {items : List Item} {result : Item}
    (h : (consItems items result w).1 = some item) :
    item.1 = (items.map Prod.fst).foldl (fun result item => .pair item result) result.1 := by
  induction items generalizing result w with
  | nil =>
    obtain rfl := Option.some.inj h
    rfl
  | cons first items ih =>
    rw [consItems] at h
    rcases hmade : (w.make (.pair first.1 result.1)).1 with _ | next
    · simp only [hmade] at h
      exact absurd h (by simp)
    · simp only [hmade] at h
      rw [ih h, World.make_value hmade]
      rfl

/-- **A value that is returned is the one that is there**, of a form and of the items of a list. -/
theorem read_gives (libc : Libc) (escaped : Bool) (fuel : ℕ) :
    (∀ depth p w r, readForm libc escaped fuel depth p w = some r →
      r.Gives (KL.readForm libc escaped fuel depth p)) ∧
    (∀ depth p items capacity w r, readItems libc escaped fuel depth p items capacity w = some r →
      r.Gives (KL.readItems libc escaped fuel depth p (items.map Prod.fst))) := by
  induction fuel with
  | zero => exact ⟨fun _ _ _ _ h => absurd h (by simp [readForm]),
      fun _ _ _ _ _ _ h => absurd h (by simp [readItems])⟩
  | succ fuel ih =>
    obtain ⟨ihForm, ihItems⟩ := ih
    constructor
    · intro depth p w r h
      rcases hp : whitespace p with _ | ⟨c, rest⟩
      · rw [readForm, hp] at h
        obtain rfl := Option.some.inj h
        exact .nothing _
      rw [readForm, hp] at h
      rw [KL.readForm, hp]
      simp only at h ⊢
      split_ifs at h ⊢ with hdepth hclose hopen hsym hquote hescaped
      · obtain rfl := Option.some.inj h
        exact .nothing _
      · obtain rfl := Option.some.inj h
        exact .nothing _
      · exact ihItems (depth + 1) rest [] 0 w r h
      · obtain rfl := Option.some.inj h
        exact quotedSymbol_gives _ _
      · obtain rfl := Option.some.inj h
        exact escapedString_gives _ _
      · obtain rfl := Option.some.inj h
        exact rawString_gives _ _
      · obtain rfl := Option.some.inj h
        exact token_gives _ _ _
    · intro depth p items capacity w r h
      rcases hp : whitespace p with _ | ⟨c, rest⟩
      · rw [readItems, hp] at h
        obtain rfl := Option.some.inj h
        exact .nothing _
      rw [readItems, hp] at h
      rw [KL.readItems, hp]
      simp only at h ⊢
      split_ifs at h ⊢ with hclose
      · obtain rfl := Option.some.inj h
        exact fun item hitem => by rw [consItems_value hitem]; rfl
      obtain ⟨read, hread, h⟩ := Option.bind_eq_some_iff.mp h
      rcases hvalue : read.value with _ | item
      · simp only [hvalue] at h
        obtain rfl := Option.some.inj h
        exact .nothing _
      · rw [ihForm _ _ _ _ hread item hvalue]
        simp only [hvalue] at h
        rcases hgrow : growItems item items.length capacity read.world with ⟨_ | capacity', w'⟩
        · simp only [hgrow] at h
          obtain rfl := Option.some.inj h
          exact .nothing _
        · simp only [hgrow] at h
          exact ihItems depth read.cursor (item :: items) capacity' w' r h

/-- Where only white space remains the source has ended. -/
theorem nextForm_blank (h : Blank p) : nextForm libc escaped p = .eof := by
  have heof : ∀ fuel, KL.readForm libc escaped (fuel + 1) 0 p = .eof := fun fuel => by
    rw [KL.readForm, blank_iff.mp h]
  unfold nextForm
  rcases escaped with _ | _
  · exact heof _
  · exact heof _

end ShenRc.Reader
