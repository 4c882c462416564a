import Mathlib.Data.List.Basic

/-! # Lines with jumps, and lines that are left out

Code is a list of lines. A line goes on with the next one or jumps to a label; a label that is not in
the code leaves it. A pass goes over the lines once and carries a fact from each to the next. Where
what it leaves out does nothing in a state that has the fact, and nothing is known at a label, the
code that is left ends as the code did (`Pass.ends_iff`). -/

namespace ShenRc.Flow

variable {L σ ν φ : Type}

/-- What lines do. -/
structure Machine (L σ ν : Type) where
  exec : L → σ → σ × Option ν
  label : L → Option ν

namespace Machine

variable [DecidableEq ν] (M : Machine L σ ν)

/-- The lines behind a label. -/
def behind (x : ν) : List L → Option (List L)
  | [] => none
  | l :: rest => if M.label l = some x then some rest else behind x rest

/-- A run of some lines of a code. It ends behind the last line, or at a label that is not there. -/
def run (code : List L) : ℕ → List L → σ → Option (Option ν × σ)
  | _, [], s => some (none, s)
  | 0, _ :: _, _ => none
  | n + 1, l :: rest, s =>
    match (M.exec l s).2 with
    | none => run code n rest (M.exec l s).1
    | some x =>
      match M.behind x code with
      | some target => run code n target (M.exec l s).1
      | none => some (some x, (M.exec l s).1)

/-- The code ends, at a label or behind its last line, in a state. -/
def Ends (code : List L) (s : σ) (r : Option ν × σ) : Prop := ∃ n, M.run code n code s = some r

variable {M} {code rest : List L} {l : L} {s s' : σ} {x : ν} {n : ℕ}

theorem run_next (h : M.exec l s = (s', none)) :
    M.run code (n + 1) (l :: rest) s = M.run code n rest s' := by
  rw [run, h]

theorem run_jump {target : List L} (h : M.exec l s = (s', some x))
    (hx : M.behind x code = some target) :
    M.run code (n + 1) (l :: rest) s = M.run code n target s' := by
  rw [run, h]
  dsimp only
  rw [hx]

theorem run_leave (h : M.exec l s = (s', some x)) (hx : M.behind x code = none) :
    M.run code (n + 1) (l :: rest) s = some (some x, s') := by
  rw [run, h]
  dsimp only
  rw [hx]

end Machine

/-- A pass over lines: with a fact, whether a line is left out, and the fact behind it. -/
structure Pass (M : Machine L σ ν) (φ : Type) where
  scan : φ → L → Bool × φ
  holds : φ → σ → Prop
  omitted : ∀ f l s, holds f s → (scan f l).1 = true → M.exec l s = (s, none)
  next : ∀ f l s, holds f s → (M.exec l s).2 = none → holds (scan f l).2 (M.exec l s).1
  label : ∀ f l x, M.label l = some x → (scan f l).1 = false ∧ ∀ s, holds (scan f l).2 s

namespace Pass

open Machine

variable {M : Machine L σ ν} (p : Pass M φ)

/-- The lines that are left. -/
def left (f : φ) : List L → List L
  | [] => []
  | l :: rest =>
    if (p.scan f l).1 then left (p.scan f l).2 rest else l :: left (p.scan f l).2 rest

variable {f f₀ : φ} {code rest : List L} {l : L} {s s' : σ} {x : ν} {r : Option ν × σ} {n : ℕ}

theorem left_omitted (h : (p.scan f l).1 = true) : p.left f (l :: rest) = p.left (p.scan f l).2 rest :=
  if_pos h

theorem left_kept (h : (p.scan f l).1 = false) :
    p.left f (l :: rest) = l :: p.left (p.scan f l).2 rest :=
  if_neg (by rw [h]; decide)

/-- A line that jumps is kept. -/
theorem kept_of_jump (hs : p.holds f s) (h : M.exec l s = (s', some x)) : (p.scan f l).1 = false := by
  rcases homit : (p.scan f l).1 with _ | _
  · rfl
  · rw [p.omitted f l s hs homit] at h
    exact absurd (Prod.mk.inj h).2 (by simp)

theorem holds_next (hs : p.holds f s) (h : M.exec l s = (s', none)) : p.holds (p.scan f l).2 s' := by
  have hnext := p.next f l s hs (by rw [h])
  rwa [h] at hnext

variable [DecidableEq ν]

/-- The lines behind a label are those that are left of the lines behind it, with a fact that always
holds. -/
theorem behind_left (f : φ) (code : List L) :
    (M.behind x code = none → M.behind x (p.left f code) = none) ∧
      ∀ target, M.behind x code = some target →
        ∃ g, (∀ s, p.holds g s) ∧ M.behind x (p.left f code) = some (p.left g target) := by
  induction code generalizing f with
  | nil => exact ⟨fun _ => rfl, fun target h => absurd h (by simp [behind])⟩
  | cons l rest ih =>
    obtain ⟨ihnone, ihsome⟩ := ih (p.scan f l).2
    by_cases hl : M.label l = some x
    · obtain ⟨hkept, hfact⟩ := p.label f l x hl
      rw [p.left_kept hkept, behind, behind, if_pos hl, if_pos hl]
      refine ⟨fun h => absurd h (by simp), fun target h => ?_⟩
      obtain rfl := Option.some.inj h
      exact ⟨_, hfact, rfl⟩
    · rw [behind, if_neg hl]
      rcases homit : (p.scan f l).1 with _ | _
      · rw [p.left_kept homit, behind, if_neg hl]
        exact ⟨ihnone, ihsome⟩
      · rw [p.left_omitted homit]
        exact ⟨ihnone, ihsome⟩

/-- **What is left ends as the lines do.** -/
theorem run_left (code : List L) (f₀ : φ) :
    ∀ n rest f s, p.holds f s → M.run code n rest s = some r →
      ∃ k, M.run (p.left f₀ code) k (p.left f rest) s = some r := by
  intro n
  induction n with
  | zero =>
    intro rest f s hs h
    rcases rest with _ | ⟨l, rest⟩
    · exact ⟨0, h⟩
    · exact absurd h (by simp [run])
  | succ n ih =>
    intro rest f s hs h
    rcases rest with _ | ⟨l, rest⟩
    · exact ⟨0, h⟩
    rcases hexec : M.exec l s with ⟨s', _ | x⟩
    · rw [run_next hexec] at h
      have hnext := p.holds_next hs hexec
      obtain ⟨k, hk⟩ := ih rest _ s' hnext h
      rcases homit : (p.scan f l).1 with _ | _
      · rw [p.left_kept homit]
        exact ⟨k + 1, (run_next hexec).trans hk⟩
      · rw [p.omitted f l s hs homit] at hexec
        obtain ⟨rfl, -⟩ := Prod.mk.inj hexec
        rw [p.left_omitted homit]
        exact ⟨k, hk⟩
    · obtain ⟨hnone, hsome⟩ := p.behind_left (x := x) f₀ code
      rw [p.left_kept (p.kept_of_jump hs hexec)]
      rcases hx : M.behind x code with _ | target
      · rw [run_leave hexec hx] at h
        exact ⟨1, (run_leave hexec (hnone hx)).trans h⟩
      · rw [run_jump hexec hx] at h
        obtain ⟨g, hg, hleft⟩ := hsome target hx
        obtain ⟨k, hk⟩ := ih target g s' (hg s') h
        exact ⟨k + 1, (run_jump hexec hleft).trans hk⟩

/-- **The lines end as what is left of them does.** The inner induction is on the lines, as those that
are left out take no step of the other run. -/
theorem run_of_left (code : List L) (f₀ : φ) :
    ∀ n rest f s, p.holds f s → M.run (p.left f₀ code) n (p.left f rest) s = some r →
      ∃ k, M.run code k rest s = some r := by
  intro n
  induction n with
  | zero =>
    intro rest
    induction rest with
    | nil => exact fun f s _ h => ⟨0, h⟩
    | cons l rest ihrest =>
      intro f s hs h
      rcases homit : (p.scan f l).1 with _ | _
      · rw [p.left_kept homit] at h
        exact absurd h (by simp [run])
      · have hexec := p.omitted f l s hs homit
        rw [p.left_omitted homit] at h
        obtain ⟨k, hk⟩ := ihrest _ s (p.holds_next hs hexec) h
        exact ⟨k + 1, (run_next hexec).trans hk⟩
  | succ n ih =>
    intro rest
    induction rest with
    | nil => exact fun f s _ h => ⟨0, h⟩
    | cons l rest ihrest =>
      intro f s hs h
      rcases homit : (p.scan f l).1 with _ | _
      · rw [p.left_kept homit] at h
        rcases hexec : M.exec l s with ⟨s', _ | x⟩
        · rw [run_next hexec] at h
          obtain ⟨k, hk⟩ := ih rest _ s' (p.holds_next hs hexec) h
          exact ⟨k + 1, (run_next hexec).trans hk⟩
        · obtain ⟨hnone, hsome⟩ := p.behind_left (x := x) f₀ code
          rcases hx : M.behind x code with _ | target
          · rw [run_leave hexec (hnone hx)] at h
            exact ⟨1, (run_leave hexec hx).trans h⟩
          · obtain ⟨g, hg, hleft⟩ := hsome target hx
            rw [run_jump hexec hleft] at h
            obtain ⟨k, hk⟩ := ih target g s' (hg s') h
            exact ⟨k + 1, (run_jump hexec hx).trans hk⟩
      · have hexec := p.omitted f l s hs homit
        rw [p.left_omitted homit] at h
        obtain ⟨k, hk⟩ := ihrest _ s (p.holds_next hs hexec) h
        exact ⟨k + 1, (run_next hexec).trans hk⟩

/-- **What is left of a code ends where, and in the state in which, the code does.** -/
theorem ends_iff {f : φ} (hs : p.holds f s) : M.Ends (p.left f code) s r ↔ M.Ends code s r :=
  ⟨fun ⟨n, h⟩ => p.run_of_left code f n code f s hs h, fun ⟨n, h⟩ => p.run_left code f n code f s hs h⟩

end Pass

end ShenRc.Flow
