import Mathlib.Data.List.Basic

/-! # Parsers that read what has been written

A parser takes tokens from the front of a list. `Reads p s a` says that `p` reads the row `s` as `a`
whatever follows it, `Local p` that `p` does not look at what follows. Both are kept by sequencing and
repetition. A local parser that reads a row rejects every shorter part of it (`Reads.prefix_none`). -/

namespace ShenRc.Replay

variable {τ α β : Type}

/-- Tokens are taken from the front, unless the parser fails. -/
def Parser (τ α : Type) : Type := List τ → Option (α × List τ)

namespace Parser

instance : Monad (Parser τ) where
  pure a := fun s => some (a, s)
  bind p f := fun s => (p s).bind fun r => f r.1 r.2

def fail : Parser τ α := fun _ => none

/-- The next token. -/
def next : Parser τ τ
  | [] => none
  | t :: s => some (t, s)

/-- The next `n` tokens. -/
def take (n : ℕ) : Parser τ (List τ) := fun s =>
  if n ≤ s.length then some (s.take n, s.drop n) else none

/-- The tokens up to the first that is `stop`, which is taken too. -/
def upTo [DecidableEq τ] (stop : τ) : Parser τ (List τ)
  | [] => none
  | t :: s => if t = stop then some ([], s) else (upTo stop s).map fun r => (t :: r.1, r.2)

/-- The same `n` times. -/
def times (p : Parser τ α) : ℕ → Parser τ (List α)
  | 0 => pure []
  | n + 1 => do
    let a ← p
    let as ← times p n
    pure (a :: as)

/-- A value that must be there. -/
def ofOption : Option α → Parser τ α
  | some a => pure a
  | none => fail

theorem bind_apply (p : Parser τ α) (f : α → Parser τ β) (s : List τ) :
    (p >>= f) s = (p s).bind fun r => f r.1 r.2 := rfl

theorem next_bind (f : τ → Parser τ β) (t : τ) (s : List τ) : (next >>= f) (t :: s) = f t s := rfl

/-! ### Parsers that do not look ahead -/

/-- What the parser finds does not depend on what follows. -/
def Local (p : Parser τ α) : Prop :=
  ∀ s a rest more, p s = some (a, rest) → p (s ++ more) = some (a, rest ++ more)

theorem Local.pure (a : α) : Local (Pure.pure a : Parser τ α) := by
  intro s b rest more h
  obtain ⟨rfl, rfl⟩ := Prod.mk.inj (Option.some.inj h)
  rfl

theorem Local.fail : Local (fail : Parser τ α) := fun _ _ _ _ h => absurd h (by simp [Parser.fail])

theorem Local.bind {p : Parser τ α} {f : α → Parser τ β} (hp : Local p) (hf : ∀ a, Local (f a)) :
    Local (p >>= f) := by
  intro s b rest more h
  obtain ⟨⟨a, mid⟩, ha, hb⟩ := Option.bind_eq_some_iff.mp h
  refine Option.bind_eq_some_iff.mpr ⟨(a, mid ++ more), hp s a mid more ha, ?_⟩
  exact hf a mid b rest more hb

theorem Local.ite {c : Prop} [Decidable c] {p q : Parser τ α} (hp : Local p) (hq : Local q) :
    Local (if c then p else q) := by
  split_ifs
  · exact hp
  · exact hq

theorem Local.ofOption (o : Option α) : Local (ofOption o : Parser τ α) := by
  rcases o with _ | a
  · exact .fail
  · exact .pure a

theorem Local.next : Local (next : Parser τ τ) := by
  intro s a rest more h
  rcases s with _ | ⟨t, s⟩
  · exact absurd h (by simp [Parser.next])
  · obtain ⟨rfl, rfl⟩ := Prod.mk.inj (Option.some.inj h)
    rfl

theorem Local.take (n : ℕ) : Local (take n : Parser τ (List τ)) := by
  intro s a rest more h
  unfold Parser.take at h ⊢
  split_ifs at h with hn
  obtain ⟨rfl, rfl⟩ := Prod.mk.inj (Option.some.inj h)
  rw [if_pos (by rw [List.length_append]; omega), List.take_append_of_le_length hn,
    List.drop_append_of_le_length hn]

theorem Local.upTo [DecidableEq τ] (stop : τ) : Local (upTo stop) := by
  intro s
  induction s with
  | nil => exact fun _ _ _ h => absurd h (by simp [Parser.upTo])
  | cons t s ih =>
    intro a rest more h
    unfold Parser.upTo at h
    rw [List.cons_append, Parser.upTo]
    split_ifs at h ⊢
    · obtain ⟨rfl, rfl⟩ := Prod.mk.inj (Option.some.inj h)
      rfl
    · obtain ⟨⟨b, mid⟩, hb, heq⟩ := Option.map_eq_some_iff.mp h
      obtain ⟨rfl, rfl⟩ := Prod.mk.inj heq
      rw [ih b mid more hb]
      rfl

theorem Local.times {p : Parser τ α} (hp : Local p) (n : ℕ) : Local (times p n) := by
  induction n with
  | zero => exact .pure []
  | succ n ih => exact hp.bind fun a => ih.bind fun as => .pure (a :: as)

/-! ### Parsers that take tokens -/

/-- At least `k` tokens are taken. -/
def Takes (k : ℕ) (p : Parser τ α) : Prop :=
  ∀ s a rest, p s = some (a, rest) → rest.length + k ≤ s.length

theorem Takes.pure (a : α) : Takes 0 (Pure.pure a : Parser τ α) := by
  intro s b rest h
  obtain ⟨-, rfl⟩ := Prod.mk.inj (Option.some.inj h)
  exact Nat.le_refl _

theorem Takes.fail (k : ℕ) : Takes k (fail : Parser τ α) :=
  fun _ _ _ h => absurd h (by simp [Parser.fail])

theorem Takes.bind {p : Parser τ α} {f : α → Parser τ β} {k l : ℕ} (hp : Takes k p)
    (hf : ∀ a, Takes l (f a)) : Takes (k + l) (p >>= f) := by
  intro s b rest h
  obtain ⟨⟨a, mid⟩, ha, hb⟩ := Option.bind_eq_some_iff.mp h
  have h1 := hp s a mid ha
  have h2 := hf a mid b rest hb
  omega

theorem Takes.mono {p : Parser τ α} {k l : ℕ} (hp : Takes k p) (h : l ≤ k) : Takes l p :=
  fun s a rest hs => by
    have := hp s a rest hs
    omega

theorem Takes.ite {c : Prop} [Decidable c] {p q : Parser τ α} {k : ℕ} (hp : Takes k p)
    (hq : Takes k q) : Takes k (if c then p else q) := by
  split_ifs
  · exact hp
  · exact hq

theorem Takes.ofOption (o : Option α) : Takes 0 (ofOption o : Parser τ α) := by
  rcases o with _ | a
  · exact .fail 0
  · exact .pure a

theorem Takes.next : Takes 1 (next : Parser τ τ) := by
  intro s a rest h
  rcases s with _ | ⟨t, s⟩
  · exact absurd h (by simp [Parser.next])
  · obtain ⟨-, rfl⟩ := Prod.mk.inj (Option.some.inj h)
    exact Nat.le_refl _

theorem Takes.take (n : ℕ) : Takes 0 (take n : Parser τ (List τ)) := by
  intro s a rest h
  unfold Parser.take at h
  split_ifs at h
  obtain ⟨-, rfl⟩ := Prod.mk.inj (Option.some.inj h)
  rw [List.length_drop]
  omega

theorem Takes.upTo [DecidableEq τ] (stop : τ) : Takes 0 (upTo stop) := by
  intro s
  induction s with
  | nil => exact fun _ _ h => absurd h (by simp [Parser.upTo])
  | cons t s ih =>
    intro a rest h
    unfold Parser.upTo at h
    rw [List.length_cons]
    split_ifs at h
    · obtain ⟨-, rfl⟩ := Prod.mk.inj (Option.some.inj h)
      omega
    · obtain ⟨⟨b, mid⟩, hb, heq⟩ := Option.map_eq_some_iff.mp h
      obtain ⟨-, rfl⟩ := Prod.mk.inj heq
      have hlen := ih b mid hb
      change mid.length + 0 ≤ s.length + 1
      omega

/-! ### What is found -/

/-- What the parser finds has the property. -/
def Finds (p : Parser τ α) (P : α → Prop) : Prop := ∀ s a rest, p s = some (a, rest) → P a

theorem Finds.any (p : Parser τ α) : Finds p fun _ => True := fun _ _ _ _ => trivial

theorem Finds.pure {P : α → Prop} {a : α} (h : P a) : Finds (Pure.pure a : Parser τ α) P := by
  intro s b rest hs
  obtain ⟨rfl, -⟩ := Prod.mk.inj (Option.some.inj hs)
  exact h

theorem Finds.fail (P : α → Prop) : Finds (fail : Parser τ α) P :=
  fun _ _ _ h => absurd h (by simp [Parser.fail])

theorem Finds.bind {p : Parser τ α} {f : α → Parser τ β} {P : α → Prop} {Q : β → Prop}
    (hp : Finds p P) (hf : ∀ a, P a → Finds (f a) Q) : Finds (p >>= f) Q := by
  intro s b rest h
  obtain ⟨⟨a, mid⟩, ha, hb⟩ := Option.bind_eq_some_iff.mp h
  exact hf a (hp s a mid ha) mid b rest hb

theorem Finds.ite {c : Prop} [Decidable c] {p q : Parser τ α} {P : α → Prop} (hp : c → Finds p P)
    (hq : ¬c → Finds q P) : Finds (if c then p else q) P := by
  split_ifs with hc
  · exact hp hc
  · exact hq hc

theorem Finds.times {p : Parser τ α} {P : α → Prop} (hp : Finds p P) (n : ℕ) :
    Finds (times p n) fun as => as.length = n ∧ ∀ a ∈ as, P a := by
  induction n with
  | zero => exact .pure ⟨rfl, fun a ha => absurd ha List.not_mem_nil⟩
  | succ n ih =>
    refine hp.bind fun a ha => ih.bind fun as has => .pure ⟨congrArg (· + 1) has.1, fun b hb => ?_⟩
    rcases List.mem_cons.mp hb with rfl | hb
    · exact ha
    · exact has.2 b hb

/-! ### Rows that are read -/

/-- The parser reads the row `s` as `a`, whatever follows. -/
def Reads (p : Parser τ α) (s : List τ) (a : α) : Prop := ∀ rest, p (s ++ rest) = some (a, rest)

theorem Reads.pure (a : α) : Reads (Pure.pure a : Parser τ α) [] a := fun _ => rfl

theorem Reads.bind {p : Parser τ α} {f : α → Parser τ β} {s t : List τ} {a : α} {b : β}
    (hp : Reads p s a) (hf : Reads (f a) t b) : Reads (p >>= f) (s ++ t) b := fun rest => by
  refine Option.bind_eq_some_iff.mpr ⟨(a, t ++ rest), ?_, hf rest⟩
  rw [List.append_assoc]
  exact hp (t ++ rest)

theorem Reads.next (t : τ) : Reads (next : Parser τ τ) [t] t := fun _ => rfl

theorem Reads.take {s : List τ} {n : ℕ} (h : s.length = n) : Reads (take n) s s := fun rest => by
  unfold Parser.take
  rw [if_pos (by rw [List.length_append]; omega), List.take_left' h, List.drop_left' h]

theorem Reads.upTo [DecidableEq τ] {stop : τ} {s : List τ} (h : stop ∉ s) :
    Reads (upTo stop) (s ++ [stop]) s := fun rest => by
  induction s with
  | nil => exact if_pos rfl
  | cons t s ih =>
    obtain ⟨hne, hmem⟩ := not_or.mp (mt List.mem_cons.mpr h)
    rw [List.cons_append, List.cons_append, Parser.upTo, if_neg (Ne.symm hne), ih hmem]
    rfl

theorem Reads.ofOption {o : Option α} {a : α} (h : o = some a) :
    Reads (ofOption o : Parser τ α) [] a := by
  rw [h]
  exact .pure a

/-- A row of rows, each of which is read. -/
theorem Reads.times {p : Parser τ α} {γ : Type} {write : γ → List τ} {read : γ → α} {xs : List γ}
    (h : ∀ x ∈ xs, Reads p (write x) (read x)) :
    Reads (times p xs.length) (xs.flatMap write) (xs.map read) := by
  induction xs with
  | nil => exact .pure []
  | cons x xs ih =>
    have hrest := ih fun y hy => h y (List.mem_cons_of_mem _ hy)
    have hdone := hrest.bind (f := fun as => Pure.pure (read x :: as)) (.pure _)
    rw [List.append_nil] at hdone
    exact (h x List.mem_cons_self).bind hdone

/-- The row is not read, whatever follows. -/
def Rejects (p : Parser τ α) (s : List τ) : Prop := ∀ rest, p (s ++ rest) = none

theorem Rejects.fail (s : List τ) : Rejects (fail : Parser τ α) s := fun _ => rfl

theorem Rejects.bind {p : Parser τ α} {f : α → Parser τ β} {s : List τ} (h : Rejects p s)
    (t : List τ) : Rejects (p >>= f) (s ++ t) := fun rest => by
  refine Option.bind_eq_none_iff.mpr fun r hr => ?_
  rw [List.append_assoc, h (t ++ rest)] at hr
  exact absurd hr (by simp)

theorem Reads.bind_rejects {p : Parser τ α} {f : α → Parser τ β} {s t : List τ} {a : α}
    (hp : Reads p s a) (hf : Rejects (f a) t) : Rejects (p >>= f) (s ++ t) := fun rest => by
  refine Option.bind_eq_none_iff.mpr fun r hr => ?_
  rw [List.append_assoc, hp (t ++ rest)] at hr
  obtain rfl := Option.some.inj hr
  exact hf rest

/-- One row that is not read spoils the row of rows. -/
theorem Rejects.times {p : Parser τ α} {γ : Type} {write : γ → List τ} {read : γ → α} {xs : List γ}
    (h : ∀ x ∈ xs, Reads p (write x) (read x) ∨ Rejects p (write x))
    (hx : ∃ x ∈ xs, Rejects p (write x)) : Rejects (times p xs.length) (xs.flatMap write) := by
  induction xs with
  | nil => exact absurd hx (by simp)
  | cons x xs ih =>
    rw [List.length_cons, List.flatMap_cons]
    rcases h x List.mem_cons_self with hread | hrej
    · by_cases hrest : ∃ y ∈ xs, Rejects p (write y)
      · have hrej := ih (fun y hy => h y (List.mem_cons_of_mem _ hy)) hrest
        refine hread.bind_rejects ?_
        have hspoilt := hrej.bind (f := fun as => Pure.pure (read x :: as)) []
        rwa [List.append_nil] at hspoilt
      · obtain ⟨y, hy, hrej⟩ := hx
        rcases List.mem_cons.mp hy with rfl | hy
        · exact hrej.bind _
        · exact absurd ⟨y, hy, hrej⟩ hrest
    · exact hrej.bind _

/-! ### Torn rows -/

/-- **A local parser that reads a whole row rejects every shorter part of it.** -/
theorem Reads.prefix_none {p : Parser τ α} {s t : List τ} {a : α} (hp : Local p)
    (h : Reads p s a) (ht : t <+: s) (hne : t ≠ s) : p t = none := by
  obtain ⟨more, rfl⟩ := ht
  rcases hb : p t with _ | ⟨b, rest⟩
  · rfl
  · have hwhole := hp t b rest more hb
    have hread := h []
    rw [List.append_nil, hwhole] at hread
    obtain ⟨-, hnil⟩ := Prod.mk.inj (Option.some.inj hread)
    exact absurd (by rw [(List.append_eq_nil_iff.mp hnil).2, List.append_nil]) hne

theorem Rejects.prefix_none {p : Parser τ α} {s t : List τ} (hp : Local p) (h : Rejects p s)
    (ht : t <+: s) : p t = none := by
  obtain ⟨more, rfl⟩ := ht
  rcases hb : p t with _ | ⟨b, rest⟩
  · rfl
  · have hwhole := hp t b rest more hb
    have hrej := h []
    rw [List.append_nil, hwhole] at hrej
    exact absurd hrej (by simp)

end Parser

end ShenRc.Replay
