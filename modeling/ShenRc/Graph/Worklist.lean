import Mathlib.Data.List.Infix
import Mathlib.Data.List.TakeDrop
import Mathlib.Data.Set.Basic
import Mathlib.Logic.Relation

/-! # Worklists

A worklist search keeps a list that only grows at its end, and works through it from the front.
`Done R nodes i` says that the first `i` entries have all their successors in the list. The loop
keeps it (`Done.succ`), and where it ends the list is closed (`Done.closed`), so it holds everything
its members lead to (`mem_of_reach`).

The entries may be goals, each of which clashes or asks for further goals. A goal holds if it lies in a
set of goals none of which clashes and which is closed under what they ask for; goals may ask for each
other in a circle.

The search may also make requests of an oracle, and a refusal may make it fail. `Locked A I J f` says
that the step `f`, as long as it does not fail, goes as it would go with an oracle that grants
everything. Steps that make no request are locked, a request is if it goes through as soon as it is
granted, and locked steps can be composed: so a computation of many requests that does not fail is the
run in which nothing is refused. -/

namespace ShenRc.Graph

open Relation

section Search

variable {α : Type*} {R : α → α → Prop}

/-- The first `i` entries have all their successors in the list. -/
def Done (R : α → α → Prop) (nodes : List α) (i : ℕ) : Prop :=
  ∀ a ∈ nodes.take i, ∀ w, R a w → w ∈ nodes

theorem Done.zero (nodes : List α) : Done R nodes 0 := by
  intro a ha
  simp at ha

/-- The list may grow. -/
theorem Done.extend {nodes nodes' : List α} {i : ℕ} (h : Done R nodes i) (hi : i ≤ nodes.length)
    (hp : nodes <+: nodes') : Done R nodes' i := by
  obtain ⟨more, rfl⟩ := hp
  intro a ha w hw
  rw [List.take_append_of_le_length hi] at ha
  exact List.mem_append_left _ (h a ha w hw)

/-- One more entry is done. -/
theorem Done.succ {nodes nodes' : List α} {i : ℕ} {a : α} (h : Done R nodes i)
    (ha : nodes[i]? = some a) (hp : nodes <+: nodes') (hs : ∀ w, R a w → w ∈ nodes') :
    Done R nodes' (i + 1) := by
  obtain ⟨hi, rfl⟩ := List.getElem?_eq_some_iff.mp ha
  have h' := h.extend hi.le hp
  obtain ⟨more, rfl⟩ := hp
  intro b hb w hw
  rw [List.take_append_of_le_length hi, List.take_succ_eq_append_getElem hi,
    List.mem_append] at hb
  rcases hb with hb | hb
  · refine h' b ?_ w hw
    rwa [List.take_append_of_le_length hi.le]
  · rw [List.mem_singleton] at hb
    subst hb
    exact hs w hw

/-- At the end of the list, all entries are done. -/
theorem Done.closed {nodes : List α} {i : ℕ} (h : Done R nodes i) (hi : nodes[i]? = none) :
    ∀ a ∈ nodes, ∀ w, R a w → w ∈ nodes := by
  intro a ha
  rw [List.getElem?_eq_none_iff] at hi
  exact h a (by rwa [List.take_of_length_le hi])

/-- A closed list holds everything its members lead to. -/
theorem mem_of_reach {nodes : List α} (h : ∀ a ∈ nodes, ∀ w, R a w → w ∈ nodes) {a b : α}
    (ha : a ∈ nodes) (hab : ReflTransGen R a b) : b ∈ nodes := by
  induction hab with
  | refl => exact ha
  | tail _ hs ih => exact h _ ih _ hs

end Search

/-! ### Goals -/

section Goals

variable {α : Type*} {expand : α → Option (List α)}

/-- `expand` gives the goals that a goal asks for, and `none` for a clash. -/
def Holds (expand : α → Option (List α)) (p : α) : Prop :=
  ∃ S : Set α, p ∈ S ∧ ∀ q ∈ S, ∃ l, expand q = some l ∧ ∀ r ∈ l, r ∈ S

/-- A goal in a set that is closed up to goals that hold. -/
theorem Holds.of_closed {S : Set α}
    (h : ∀ q ∈ S, ∃ l, expand q = some l ∧ ∀ r ∈ l, r ∈ S ∨ Holds expand r) {p : α} (hp : p ∈ S) :
    Holds expand p := by
  refine ⟨S ∪ {q | Holds expand q}, Or.inl hp, fun q hq => ?_⟩
  rcases hq with hq | ⟨T, hqT, hT⟩
  · obtain ⟨l, hl, hr⟩ := h q hq
    exact ⟨l, hl, hr⟩
  · obtain ⟨l, hl, hr⟩ := hT q hqT
    exact ⟨l, hl, fun r hrl => Or.inr ⟨T, hr r hrl, hT⟩⟩

theorem Holds.expand_eq {p : α} (h : Holds expand p) :
    ∃ l, expand p = some l ∧ ∀ q ∈ l, Holds expand q := by
  obtain ⟨S, hp, hS⟩ := h
  obtain ⟨l, hl, hq⟩ := hS p hp
  exact ⟨l, hl, fun q hql => ⟨S, hq q hql, hS⟩⟩

/-- **A goal holds if and only if it does not clash and what it asks for holds.** -/
theorem holds_iff_of_eq {p : α} {l : List α} (hl : expand p = some l) :
    Holds expand p ↔ ∀ q ∈ l, Holds expand q := by
  constructor
  · intro h
    obtain ⟨l', hl', hq⟩ := h.expand_eq
    obtain rfl : l = l' := Option.some.inj (hl.symm.trans hl')
    exact hq
  · intro h
    refine Holds.of_closed (S := {p}) (fun q hq => ?_) rfl
    obtain rfl : q = p := hq
    exact ⟨l, hl, fun r hr => Or.inr (h r hr)⟩

theorem not_holds {p : α} (h : expand p = none) : ¬ Holds expand p := by
  intro hp
  obtain ⟨l, hl, -⟩ := hp.expand_eq
  rw [h] at hl
  cases hl

end Goals

/-! ### Requests -/

section Requests

variable {σ δ α : Type*}

/-- How requests show in a state. `grant` replaces the oracle by one that grants everything. -/
structure Asker (σ : Type*) where
  failed : σ → Bool
  grant : σ → σ

/-- From states with `I` the step leads to states with `J`, in lockstep with a run in which nothing is
refused. -/
structure Locked (A : Asker σ) (I J : σ → Prop) (f : σ → σ) : Prop where
  keeps : ∀ x, I x → J (f x)
  sticky : ∀ x, A.failed x = true → A.failed (f x) = true
  granted : ∀ x, I x → A.failed (f x) = false → f (A.grant x) = A.grant (f x)

namespace Locked

variable {A : Asker σ} {I J K : σ → Prop} {f g : σ → σ}

theorem not_failed (h : Locked A I J f) {x : σ} (hx : A.failed (f x) = false) :
    A.failed x = false := by
  by_contra hn
  rw [h.sticky x (by simpa using hn)] at hx
  cases hx

/-- A step that makes no request. -/
theorem of_quiet (hI : ∀ x, I x → J (f x)) (hf : ∀ x, A.failed (f x) = A.failed x)
    (hg : ∀ x, f (A.grant x) = A.grant (f x)) : Locked A I J f where
  keeps := hI
  sticky x h := (hf x).trans h
  granted x _ _ := hg x

theorem skip (h : ∀ x, I x → J x) : Locked A I J (fun x => x) :=
  of_quiet h (fun _ => rfl) fun _ => rfl

theorem comp (hf : Locked A I J f) (hg : Locked A J K g) : Locked A I K (fun x => g (f x)) where
  keeps x h := hg.keeps _ (hf.keeps x h)
  sticky x h := hg.sticky _ (hf.sticky x h)
  granted x hI h := by
    have hfirst := hf.granted x hI (hg.not_failed h)
    have hthen := hg.granted (f x) (hf.keeps x hI) h
    rw [hfirst, hthen]

/-- A step chosen by something that the oracle has no part in. -/
theorem choose {c : σ → δ} {F : δ → σ → σ} (hc : ∀ x, c (A.grant x) = c x)
    (h : ∀ d, Locked A (fun x => I x ∧ c x = d) J (F d)) :
    Locked A I J (fun x => F (c x) x) where
  keeps x hI := (h _).keeps x ⟨hI, rfl⟩
  sticky x hx := (h _).sticky x hx
  granted x hI hx := by
    rw [hc]
    exact (h _).granted x ⟨hI, rfl⟩ hx

theorem ite {p : σ → Prop} [DecidablePred p] (hp : ∀ x, p (A.grant x) ↔ p x)
    (hf : Locked A (fun x => I x ∧ p x) J f) (hg : Locked A (fun x => I x ∧ ¬p x) J g) :
    Locked A I J (fun x => if p x then f x else g x) := by
  have h := choose (I := I) (J := J) (c := fun x => decide (p x))
    (F := fun b x => if b = true then f x else g x) (fun x => decide_eq_decide.mpr (hp x))
    fun b => by cases b <;> simpa
  simpa only [decide_eq_true_iff] using h

theorem foldl {F : σ → α → σ} (h : ∀ a, Locked A I I fun x => F x a) (l : List α) :
    Locked A I I fun x => l.foldl F x := by
  induction l with
  | nil => exact skip fun _ h => h
  | cons a l ih => exact (h a).comp ih

end Locked

end Requests

end ShenRc.Graph
