import Mathlib.Data.List.TakeWhile
import ShenRc.Reader.Forms

/-! # Progress of the reader

A call that returns a value has moved its cursor forward, a call that returns none has met the end of
the string or set an error, and in either case the cursor is at a rest of the string and the
references handed out are accounted for: the caller holds the value and what it held before. -/

namespace ShenRc.Reader

open Numeral KL

variable {w w' : World} {held : List ℕ} {p q : Text} {r : Result}

/-- Only white space remains. -/
def Blank (p : Text) : Prop := ∀ c ∈ p, isSpace c = true

/-- What a call does on a text that is not blank. -/
structure Result.Took (q : Text) (w : World) (held : List ℕ) (r : Result) : Prop where
  within : r.cursor <:+ q
  value : ∀ item, r.value = some item →
    r.world.error = w.error ∧ r.world.ledger.Accounts (item.2 :: held)
  failed : r.value = none → r.world.error.isSome ∧ r.world.ledger.Accounts held

/-- What `read_form` does. -/
structure Result.Sound (p : Text) (w : World) (held : List ℕ) (r : Result) : Prop where
  within : r.cursor <:+ p
  blank : Blank p → r.value = none
  value : ∀ item, r.value = some item → r.cursor.length < p.length ∧
    r.world.error = w.error ∧ r.world.ledger.Accounts (item.2 :: held)
  failed : r.value = none → r.world.ledger.Accounts held ∧
    (Blank p ∧ r.world.error = w.error ∨ ¬ Blank p ∧ r.world.error.isSome)

/-! ### The state -/

namespace World

@[simp] theorem fail_error (m : Text) : (w.fail m).error = some m := rfl
@[simp] theorem fail_ledger (m : Text) : (w.fail m).ledger = w.ledger := rfl
@[simp] theorem release_error (item : Item) : (w.release item).error = w.error := rfl
@[simp] theorem release_ledger (item : Item) :
    (w.release item).ledger = w.ledger.release item.2 := rfl

@[simp] theorem releaseAll_error (items : List Item) : (w.releaseAll items).error = w.error := by
  induction items generalizing w with
  | nil => rfl
  | cons item items ih => exact ih

theorem releaseAll_accounts {items : List Item}
    (h : w.ledger.Accounts (items.map Prod.snd ++ held)) :
    (w.releaseAll items).ledger.Accounts held := by
  induction items generalizing w with
  | nil => exact h
  | cons item items ih => exact ih h.release

theorem make_some {v : Value} {item : Item} (h : (w.make v).1 = some item)
    (hw : w.ledger.Accounts held) :
    (w.make v).2.error = w.error ∧ (w.make v).2.ledger.Accounts (item.2 :: held) := by
  unfold make at h ⊢
  split at h
  · obtain rfl := Option.some.inj h
    exact ⟨rfl, hw.issue⟩
  · exact absurd h (by simp)

theorem make_none {v : Value} (h : (w.make v).1 = none) :
    (w.make v).2.error.isSome ∧ (w.make v).2.ledger = w.ledger := by
  unfold make at h ⊢
  split at h
  · exact absurd h (by simp)
  · exact ⟨rfl, rfl⟩

theorem malloc_true {m : Text} (h : w.malloc m = (true, w')) :
    w'.error = w.error ∧ w'.ledger = w.ledger := by
  unfold malloc at h
  split at h
  · obtain rfl := (Prod.mk.inj h).2
    exact ⟨rfl, rfl⟩
  · exact absurd (Prod.mk.inj h).1 (by simp)

theorem malloc_false {m : Text} (h : w.malloc m = (false, w')) :
    w'.error = some m ∧ w'.ledger = w.ledger := by
  unfold malloc at h
  split at h
  · exact absurd (Prod.mk.inj h).1 (by simp)
  · obtain rfl := (Prod.mk.inj h).2
    exact ⟨rfl, rfl⟩

end World

/-! ### What is not a list -/

namespace Result.Took

theorem of_error (h : r.Took q w' held) (he : w'.error = w.error) : r.Took q w held :=
  ⟨h.within, fun item hv => (h.value item hv).imp_left fun hw => hw.trans he, h.failed⟩

theorem trans (h : r.Took q w held) (hq : q <:+ p) : r.Took p w held :=
  ⟨h.within.trans hq, h.value, h.failed⟩

theorem fail (hw : w.ledger.Accounts held) (hp : p <:+ q) (m : String) :
    (fail w m p).Took q w held :=
  ⟨hp, fun _ hv => absurd hv (by simp [Reader.fail]), fun _ => ⟨rfl, hw⟩⟩

theorem failed_of {cursor : Text} (hc : cursor <:+ q) (he : w'.error.isSome)
    (hw : w'.ledger.Accounts held) : (⟨none, cursor, w'⟩ : Result).Took q w held :=
  ⟨hc, fun _ hv => absurd hv (by simp), fun _ => ⟨he, hw⟩⟩

theorem make (hw : w.ledger.Accounts held) (hp : p <:+ q) (v : Value) :
    (⟨(w.make v).1, p, (w.make v).2⟩ : Result).Took q w held := by
  refine ⟨hp, fun item hv => World.make_some hv hw, fun hv => ?_⟩
  obtain ⟨he, hl⟩ := World.make_none hv
  exact ⟨he, hl ▸ hw⟩

end Result.Took

theorem stringEnd_suffix {p text rest : Text} (h : stringEnd p = some (text, rest)) : rest <:+ p := by
  fun_induction stringEnd p generalizing text rest with
  | case1 => exact absurd h (by simp)
  | case2 r =>
    obtain ⟨-, rfl⟩ := Prod.mk.inj (Option.some.inj h)
    exact List.suffix_cons _ _
  | case3 c r ih =>
    obtain ⟨⟨text', rest'⟩, hr, he⟩ := Option.map_eq_some_iff.mp h
    obtain ⟨-, rfl⟩ := Prod.mk.inj he
    exact ((ih hr).trans (List.suffix_cons _ _)).trans (List.suffix_cons _ _)
  | case4 c r _ _ ih =>
    obtain ⟨⟨text', rest'⟩, hr, he⟩ := Option.map_eq_some_iff.mp h
    obtain ⟨-, rfl⟩ := Prod.mk.inj he
    exact (ih hr).trans (List.suffix_cons _ _)

theorem escapedString_took (hw : w.ledger.Accounts held) : (escapedString p w).Took p w held := by
  unfold escapedString
  split
  · exact .fail hw (List.suffix_refl _) _
  · rename_i text rest hend
    have hrest : rest <:+ p := stringEnd_suffix hend
    split
    · rename_i w' hm
      obtain ⟨he, hl⟩ := World.malloc_false hm
      exact .failed_of (List.suffix_refl _) (by simp [he]) (hl ▸ hw)
    · rename_i w' hm
      obtain ⟨he, hl⟩ := World.malloc_true hm
      rw [← hl] at hw
      split
      · exact (Result.Took.fail hw hrest _).of_error he
      · exact (Result.Took.make hw hrest _).of_error he

theorem quotedSymbol_took (hw : w.ledger.Accounts held) : (quotedSymbol p w).Took p w held := by
  have htext : (escapedString p w).Took p w held := escapedString_took hw
  unfold quotedSymbol
  generalize escapedString p w = read at htext
  simp only
  split
  · exact htext
  · rename_i text hv
    obtain ⟨he, hheld⟩ := htext.value text hv
    split_ifs
    · exact .failed_of htext.within rfl hheld.release
    · refine ⟨htext.within, fun item hi => ?_, fun hn => ?_⟩
      · obtain ⟨he', hmade⟩ := World.make_some hi hheld
        exact ⟨he'.trans he, (hmade.perm (.swap _ _ _)).release⟩
      · obtain ⟨he', hl⟩ := World.make_none hn
        refine ⟨he', ?_⟩
        rw [World.release_ledger, hl]
        exact hheld.release

theorem rawString_took (hw : w.ledger.Accounts held) : (rawString p w).Took p w held := by
  have hsuffix : p.dropWhile (· != 34) <:+ p := List.dropWhile_suffix _
  unfold rawString
  split
  · exact .fail hw (List.nil_suffix) _
  · rename_i rest hd
    rw [hd] at hsuffix
    exact .make hw ((List.suffix_cons _ _).trans hsuffix) _

theorem tokenValue_rest {libc : Libc} {text rest rest' : Text} {v : Value}
    (h : tokenValue libc text rest = .form v rest') : rest' = rest := by
  unfold tokenValue at h
  simp only at h
  split_ifs at h <;> simp_all

theorem tokenValue_ne_eof {libc : Libc} {text rest : Text} :
    tokenValue libc text rest ≠ .eof := by
  unfold tokenValue
  simp only
  split_ifs <;> simp

theorem token_took {libc : Libc} {c : UInt8} (hc : isTokenChar c = true)
    (hw : w.ledger.Accounts held) : (token libc (c :: p) w).Took p w held := by
  have hrest : (c :: p).dropWhile isTokenChar <:+ p := by
    rw [List.dropWhile_cons_of_pos hc]
    exact List.dropWhile_suffix _
  unfold token
  simp only
  split
  · rename_i w' hm
    obtain ⟨he, hl⟩ := World.malloc_false hm
    exact .failed_of hrest (by simp [he]) (hl ▸ hw)
  · rename_i w' hm
    obtain ⟨he, hl⟩ := World.malloc_true hm
    rw [← hl] at hw
    split
    · exact (Result.Took.make hw hrest _).of_error he
    · exact .failed_of hrest rfl hw
    · rename_i heof
      exact absurd heof tokenValue_ne_eof

/-! ### Lists -/

theorem grow_some {first : ℕ} {large full : String} {item : Item} {count capacity capacity' : ℕ}
    (h : grow first large full item count capacity w = (some capacity', w')) :
    w'.error = w.error ∧ w'.ledger = w.ledger := by
  unfold grow at h
  split at h
  · split at h
    · exact absurd (Prod.mk.inj h).1 (by simp)
    · split at h
      · rename_i hm
        obtain rfl := (Prod.mk.inj h).2
        exact World.malloc_true hm
      · exact absurd (Prod.mk.inj h).1 (by simp)
  · obtain rfl := (Prod.mk.inj h).2
    exact ⟨rfl, rfl⟩

theorem grow_none {first : ℕ} {large full : String} {item : Item} {count capacity : ℕ}
    (h : grow first large full item count capacity w = (none, w')) :
    w'.error.isSome ∧ w'.ledger = w.ledger.release item.2 := by
  unfold grow at h
  split at h
  · split at h
    · obtain rfl := (Prod.mk.inj h).2
      exact ⟨rfl, rfl⟩
    · split at h
      · exact absurd (Prod.mk.inj h).1 (by simp)
      · rename_i hm
        obtain rfl := (Prod.mk.inj h).2
        obtain ⟨he, hl⟩ := World.malloc_false hm
        exact ⟨by simp [he], by rw [World.release_ledger, hl]⟩
  · exact absurd (Prod.mk.inj h).1 (by simp)

theorem consItems_took (items : List Item) (result : Item) (hp : p <:+ q)
    (hw : w.ledger.Accounts (result.2 :: (items.map Prod.snd ++ held))) :
    (⟨(consItems items result w).1, p, (consItems items result w).2⟩ : Result).Took q w held := by
  induction items generalizing result w with
  | nil =>
    refine ⟨hp, fun item hi => ?_, fun hn => absurd hn (by simp [consItems])⟩
    obtain rfl := Option.some.inj hi
    exact ⟨rfl, hw⟩
  | cons item items ih =>
    unfold consItems
    simp only
    -- the references to the item and to the old result are released whether or not the pair was made
    split
    · rename_i next hn
      obtain ⟨he, hmade⟩ := World.make_some hn hw
      refine (ih next ?_).of_error he
      refine Ledger.Accounts.release (Ledger.Accounts.release (hmade.perm ?_))
      exact ((List.Perm.swap _ _ _).cons _).trans (List.Perm.swap _ _ _) |>.trans
        ((List.Perm.swap _ _ _).cons _)
    · rename_i hn
      obtain ⟨he, hl⟩ := World.make_none hn
      refine .failed_of hp (by simpa using he) (World.releaseAll_accounts ?_)
      rw [World.release_ledger, World.release_ledger, hl]
      exact (hw.perm (.swap _ _ _)).release.release

/-! ### Forms -/

theorem blank_iff : Blank p ↔ whitespace p = [] := List.dropWhile_eq_nil_iff.symm

theorem whitespace_suffix : whitespace p <:+ p := List.dropWhile_suffix _

theorem not_blank {c : UInt8} {rest : Text} (h : whitespace p = c :: rest) : ¬ Blank p := by
  rw [blank_iff, h]
  exact List.cons_ne_nil _ _

theorem whitespace_head {c : UInt8} {rest : Text} (h : whitespace p = c :: rest) :
    isSpace c = false := by
  have hc := List.head?_dropWhile_not isSpace p
  rw [← whitespace, h] at hc
  simpa using hc

namespace Result.Sound

theorem of_took {c : UInt8} {rest : Text} (hp : whitespace p = c :: rest)
    (h : r.Took rest w held) : r.Sound p w held := by
  have hrest : rest <:+ p := (List.suffix_cons c rest).trans (hp ▸ whitespace_suffix)
  have hlen : (c :: rest).length ≤ p.length := (hp ▸ whitespace_suffix (p := p)).length_le
  refine ⟨h.within.trans hrest, fun hb => absurd hb (not_blank hp),
    fun item hv => ⟨?_, h.value item hv⟩, fun hn => ?_⟩
  · have hcursor := h.within.length_le
    rw [List.length_cons] at hlen
    omega
  · obtain ⟨he, hw⟩ := h.failed hn
    exact ⟨hw, .inr ⟨not_blank hp, he⟩⟩

theorem fail {c : UInt8} {rest : Text} (hp : whitespace p = c :: rest)
    (hw : w.ledger.Accounts held) (m : String) : (fail w m (c :: rest)).Sound p w held :=
  ⟨hp ▸ whitespace_suffix, fun _ => rfl, fun _ hv => absurd hv (by simp [Reader.fail]),
    fun _ => ⟨hw, .inr ⟨not_blank hp, rfl⟩⟩⟩

theorem eof (hp : whitespace p = []) (hw : w.ledger.Accounts held) :
    (⟨none, [], w⟩ : Result).Sound p w held :=
  ⟨List.nil_suffix, fun _ => rfl, fun _ hv => absurd hv (by simp),
    fun _ => ⟨hw, .inl ⟨blank_iff.mpr hp, rfl⟩⟩⟩

end Result.Sound

/-- A form on a text that has `rest` after the white space and the first character. -/
theorem readItems_item {libc : Libc} {escaped : Bool} {fuel depth capacity : ℕ} {c : UInt8}
    {rest : Text} {items : List Item} (hp : whitespace p = c :: rest) (hc : c ≠ 41) :
    readItems libc escaped (fuel + 1) depth p items capacity w =
      (readForm libc escaped fuel depth (c :: rest) w).bind fun read =>
        match read.value with
        | none => some ⟨none, read.cursor, read.world.releaseAll items⟩
        | some item =>
          match growItems item items.length capacity read.world with
          | (some capacity, w) =>
            readItems libc escaped fuel depth read.cursor (item :: items) capacity w
          | (none, w) => some ⟨none, read.cursor, w.releaseAll items⟩ := by
  rw [readItems, hp]
  exact if_neg hc

/-- With fuel for each character twice, once for the list and once for the item, a call ends and does
what it should. -/
theorem read_sound (libc : Libc) (escaped : Bool) (fuel : ℕ) :
    (∀ depth p w held, 2 * p.length + 1 ≤ fuel → w.ledger.Accounts held →
      ∃ r, readForm libc escaped fuel depth p w = some r ∧ r.Sound p w held) ∧
    (∀ depth p items capacity w held, 2 * p.length + 2 ≤ fuel →
      w.ledger.Accounts (items.map Prod.snd ++ held) →
      ∃ r, readItems libc escaped fuel depth p items capacity w = some r ∧ r.Took p w held) := by
  induction fuel with
  | zero => exact ⟨fun _ _ _ _ h => by omega, fun _ _ _ _ _ _ h => by omega⟩
  | succ fuel ih =>
    obtain ⟨ihForm, ihItems⟩ := ih
    constructor
    · intro depth p w held hfuel hw
      rw [readForm]
      rcases hp : whitespace p with _ | ⟨c, rest⟩
      · exact ⟨_, rfl, .eof hp hw⟩
      have hlen : rest.length + 1 ≤ p.length := (hp ▸ whitespace_suffix (p := p)).length_le
      simp only
      by_cases hdepth : 2048 < depth
      · exact ⟨_, if_pos hdepth, .fail hp hw _⟩
      rw [if_neg hdepth]
      by_cases hclose : c = 41
      · exact ⟨_, if_pos hclose, .fail hp hw _⟩
      rw [if_neg hclose]
      by_cases hopen : c = 40
      · rw [if_pos hopen]
        obtain ⟨r, hr, hsound⟩ := ihItems (depth + 1) rest [] 0 w held (by omega) hw
        exact ⟨r, hr, .of_took hp hsound⟩
      rw [if_neg hopen]
      split_ifs with hsym hquote
      · exact ⟨_, rfl, .of_took hp ((quotedSymbol_took hw).trans (List.drop_suffix _ _))⟩
      · exact ⟨_, rfl, .of_took hp (escapedString_took hw)⟩
      · exact ⟨_, rfl, .of_took hp (rawString_took hw)⟩
      · have hc : isTokenChar c = true := by
          simp [isTokenChar, whitespace_head hp, hclose, hopen, hquote]
        exact ⟨_, rfl, .of_took hp (token_took hc hw)⟩
    · intro depth p items capacity w held hfuel hw
      rcases hp : whitespace p with _ | ⟨c, rest⟩
      · rw [readItems, hp]
        refine ⟨_, rfl, .failed_of List.nil_suffix (by simp) (World.releaseAll_accounts hw)⟩
      have hsuffix : c :: rest <:+ p := hp ▸ whitespace_suffix
      have hlen := hsuffix.length_le
      by_cases hclose : c = 41
      · rw [readItems, hp]
        simp only [if_pos hclose]
        have hrest : rest <:+ p := (List.suffix_cons _ _).trans hsuffix
        exact ⟨_, rfl, (consItems_took items w.nil.1 hrest hw.issue).of_error rfl⟩
      rw [readItems_item hp hclose]
      obtain ⟨read, hread, hsound⟩ := ihForm depth (c :: rest) w _ (by omega) hw
      rw [hread, Option.bind_some]
      have hcursor : read.cursor <:+ p := hsound.within.trans hsuffix
      split
      · rename_i hv
        obtain ⟨hheld, ⟨hb, -⟩ | ⟨-, he⟩⟩ := hsound.failed hv
        · exact absurd (hb c List.mem_cons_self) (by simp [whitespace_head hp])
        · exact ⟨_, rfl, .failed_of hcursor (by simpa using he) (World.releaseAll_accounts hheld)⟩
      · rename_i item hv
        obtain ⟨hforward, he, hheld⟩ := hsound.value item hv
        split
        · rename_i capacity' w' hgrow
          obtain ⟨he', hl⟩ := grow_some hgrow
          rw [← hl] at hheld
          obtain ⟨r, hr, htook⟩ := ihItems depth read.cursor (item :: items) capacity' w' held
            (by omega) hheld
          exact ⟨r, hr, (htook.trans hcursor).of_error (he'.trans he)⟩
        · rename_i w' hgrow
          obtain ⟨he', hl⟩ := grow_none hgrow
          refine ⟨_, rfl, .failed_of hcursor (by simpa using he') (World.releaseAll_accounts ?_)⟩
          rw [hl]
          exact hheld.release

end ShenRc.Reader
