import ShenRc.Runtime.EqualGraph
import ShenRc.Runtime.Runs

/-! # Structural equality is bisimilarity

The walk of `rc_equal` keeps that the two values are bisimilar if and only if the pair it is at and
the pending ones are (`Asks`). It either follows a pair that reaches no vector to its head or its
tail, or takes a pending pair, or branches; the first cannot go on forever because such pairs are on
no cycle, the last because there are at most 255 branchings. In every configuration of a run the
comparison ends, and its answer is right (`reachable_rcEqual`). -/

namespace ShenRc.Runtime

open Relation ShenRc.Graph

namespace Ctx

variable {s : Ctx} {address : Ref → BitVec 64} {left right : Ref}

/-- `q` is the head or the tail of a pair that reaches no vector. -/
def Below (s : Ctx) (q r : Ref) : Prop :=
  ∃ h t, s.payload? r = some (.pair h t) ∧ s.mayReachVector r = false ∧ (q = h ∨ q = t)

/-- What the values ask for has come down to one pair and the pending ones. -/
def Asks (s : Ctx) (root p : EqualPair) (pending : List EqualPair) : Prop :=
  Holds s.obligations root ↔
    Holds s.obligations p ∧ ∀ q ∈ pending, Holds s.obligations q

theorem Asks.congr {root p q : EqualPair} {pending rest : List EqualPair}
    (h : s.Asks root p pending) (heq : (Holds s.obligations p ∧ ∀ r ∈ pending, Holds s.obligations r) ↔
      Holds s.obligations q ∧ ∀ r ∈ rest, Holds s.obligations r) : s.Asks root q rest :=
  h.trans heq

/-- A pair that holds gives way to the next pending one. -/
theorem Asks.pop {root p next : EqualPair} {pending : List EqualPair}
    (h : s.Asks root p (next :: pending)) (hp : Holds s.obligations p) :
    s.Asks root next pending := by
  refine h.congr ?_
  rw [List.forall_mem_cons]
  exact and_iff_right hp

/-- From this pair on the walk ends with the right answer. -/
def Decides (s : Ctx) (address : Ref → BitVec 64) (left right : Ref) (p : EqualPair)
    (pending : List EqualPair) (branches : ℕ) : Prop :=
  ∃ r, Returns (fun fuel => s.walk address left right fuel p pending branches) r ∧
    Answers s (left, right) r

theorem Decides.step {p q : EqualPair} {pending rest : List EqualPair} {branches branches' : ℕ}
    (h : Decides s address left right q rest branches')
    (hstep : ∀ fuel, s.walk address left right (fuel + 1) p pending branches =
      s.walk address left right fuel q rest branches') :
    Decides s address left right p pending branches := by
  obtain ⟨r, hr, ha⟩ := h
  exact ⟨r, hr.step hstep, ha⟩

theorem Decides.now {p : EqualPair} {pending : List EqualPair} {branches : ℕ}
    {r : Except String Bool} (ha : Answers s (left, right) r)
    (hstep : ∀ fuel, s.walk address left right (fuel + 1) p pending branches = some r) :
    Decides s address left right p pending branches := ⟨r, .now hstep, ha⟩

/-- The turn may hand over to the comparison of graphs. -/
theorem Decides.graph {p : EqualPair} {pending : List EqualPair} {branches : ℕ}
    (h : ∃ r, Returns (fun fuel => s.graphEqual address fuel left right) r ∧
      Answers s (left, right) r)
    (hstep : ∀ fuel, s.walk address left right (fuel + 1) p pending branches =
      s.graphEqual address fuel left right) :
    Decides s address left right p pending branches := by
  obtain ⟨r, hr, ha⟩ := h
  exact ⟨r, hr.step hstep, ha⟩

/-- **One turn of the walk**, if it decides from where the turn leads to. -/
theorem walk_turn {a b : Ref} {pending : List EqualPair} {branches : ℕ}
    (hasks : s.Asks (left, right) (a, b) pending)
    (hgraph : ∃ r, Returns (fun fuel => s.graphEqual address fuel left right) r ∧
      Answers s (left, right) r)
    (hpop : ∀ next rest, pending = next :: rest → s.Asks (left, right) next rest →
      Decides s address left right next rest branches)
    (hbelow : ∀ x y, s.Below x a → s.Asks (left, right) (x, y) pending →
      Decides s address left right (x, y) pending branches)
    (hpush : pending.length ≠ 32 → branches + 1 ≠ 256 → ∀ p q,
      s.Asks (left, right) p (q :: pending) →
      Decides s address left right p (q :: pending) (branches + 1)) :
    Decides s address left right (a, b) pending branches := by
  by_cases hsettled : a = b ∨ (!s.comparable (a, b)) = true ∧ s.scalarEqual a b = true
  · -- The pair holds.
    have hp : Holds s.obligations (a, b) := by
      rcases hsettled with rfl | ⟨hc, hs⟩
      · exact holds_self a
      · exact (holds_scalar (by simpa using hc)).mpr hs
    cases pending with
    | nil =>
      refine .now (.ok (iff_of_true rfl (hasks.mpr ⟨hp, by simp⟩))) fun fuel => ?_
      rw [walk, if_pos hsettled]
    | cons next rest =>
      refine (hpop next rest rfl (hasks.pop hp)).step fun fuel => ?_
      rw [walk, if_pos hsettled]
  rw [not_or] at hsettled
  obtain ⟨hne, hs⟩ := hsettled
  have hturn : ¬ (a = b ∨ (!s.comparable (a, b)) = true ∧ s.scalarEqual a b = true) := by tauto
  by_cases hc : s.comparable (a, b) = true
  swap
  · -- The pair clashes.
    have hn : (!s.comparable (a, b)) = true := by simpa using hc
    refine .now (.ok (iff_of_false Bool.false_ne_true fun hroot => ?_)) fun fuel => ?_
    · exact hs ⟨hn, (holds_scalar (by simpa using hn)).mp (hasks.mp hroot).1⟩
    · rw [walk.eq_def]
      simp only [if_neg hturn, if_pos hn]
  have hn : ¬ (!s.comparable (a, b)) = true := by simpa using hc
  rcases comparable_iff.mp hc with ⟨h, t, k, u, h1, h2⟩ | ⟨xs, ys, h1, h2⟩
  swap
  · refine .graph hgraph fun fuel => ?_
    rw [walk.eq_def]
    simp only [if_neg hturn, if_neg hn, h1, h2]
  have hpair := holds_pair h1 h2 hne
  by_cases hvec : (s.mayReachVector a || s.mayReachVector b) = true
  · refine .graph hgraph fun fuel => ?_
    rw [walk.eq_def]
    simp only [if_neg hturn, if_neg hn, h1, h2, if_pos hvec]
  have hplain : s.mayReachVector a = false := by
    rw [Bool.or_eq_true, not_or, Bool.not_eq_true] at hvec
    exact hvec.1
  have hhead : s.Below h a := ⟨h, t, h1, hplain, Or.inl rfl⟩
  have htail : s.Below t a := ⟨h, t, h1, hplain, Or.inr rfl⟩
  by_cases hhk : h = k
  · -- One head for both: on to the tails.
    subst hhk
    refine (hbelow t u htail (hasks.congr ?_)).step fun fuel => ?_
    · rw [hpair, and_iff_right (holds_self h)]
    · rw [walk.eq_def]
      simp only [if_neg hturn, if_neg hn, h1, h2, if_neg hvec, if_true]
  by_cases hch : s.comparable (h, k) = true
  swap
  · by_cases hsh : s.scalarEqual h k = true
    · refine (hbelow t u htail (hasks.congr ?_)).step fun fuel => ?_
      · rw [hpair, and_iff_right ((holds_scalar (by simpa using hch)).mpr hsh)]
      · rw [walk.eq_def]
        simp only [if_neg hturn, if_neg hn, h1, h2, if_neg hvec, if_neg hhk, if_neg hch, if_pos hsh]
    · refine .now (.ok (iff_of_false Bool.false_ne_true fun hroot => ?_)) fun fuel => ?_
      · exact hsh ((holds_scalar (by simpa using hch)).mp (hpair.mp (hasks.mp hroot).1).1)
      · rw [walk.eq_def]
        simp only [if_neg hturn, if_neg hn, h1, h2, if_neg hvec, if_neg hhk, if_neg hch, if_neg hsh]
  by_cases hshared : h = t ∧ k = u
  · -- Head and tail are one graph on both sides, and ask for one thing.
    refine (hbelow h k hhead (hasks.congr ?_)).step fun fuel => ?_
    · rw [hpair, ← hshared.1, ← hshared.2, and_self]
    · rw [walk.eq_def]
      simp only [if_neg hturn, if_neg hn, h1, h2, if_neg hvec, if_neg hhk, if_pos hch, if_pos hshared]
  by_cases hfull : pending.length = 32 ∨ branches + 1 = 256
  · refine .graph hgraph fun fuel => ?_
    rw [walk.eq_def]
    simp only [if_neg hturn, if_neg hn, h1, h2, if_neg hvec, if_neg hhk, if_pos hch, if_neg hshared, if_pos hfull]
  · rw [not_or] at hfull
    have hroom : ¬ (pending.length = 32 ∨ branches + 1 = 256) := by tauto
    refine (hpush hfull.1 hfull.2 (h, k) (t, u) (hasks.congr ?_)).step fun fuel => ?_
    · rw [hpair, List.forall_mem_cons, and_assoc]
    · rw [walk.eq_def]
      simp only [if_neg hturn, if_neg hn, h1, h2, if_neg hvec, if_neg hhk, if_pos hch, if_neg hshared, if_neg hroom]

/-- **The walk ends with the right answer**: after fewer branchings, with fewer pending pairs, or
further down. -/
theorem walk_spec (hwf : WellFounded s.Below)
    (hgraph : ∃ r, Returns (fun fuel => s.graphEqual address fuel left right) r ∧
      Answers s (left, right) r) (budget branches : ℕ) (hbudget : branches + budget = 255)
    (pending : List EqualPair) (a b : Ref) (hasks : s.Asks (left, right) (a, b) pending) :
    Decides s address left right (a, b) pending branches := by
  induction budget generalizing branches pending a b with
  | zero =>
    induction pending generalizing a b with
    | nil =>
      induction a using hwf.induction generalizing b with
      | _ a ih =>
        exact walk_turn hasks hgraph (fun _ _ he => by cases he) (fun x y hx => ih x hx y)
          fun _ hlt => by omega
    | cons next pending ihp =>
      induction a using hwf.induction generalizing b with
      | _ a ih =>
        refine walk_turn hasks hgraph (fun q rest he hq => ?_) (fun x y hx => ih x hx y)
          fun _ hlt => by omega
        cases he
        exact ihp _ _ hq
  | succ budget ihb =>
    induction pending generalizing a b with
    | nil =>
      induction a using hwf.induction generalizing b with
      | _ a ih =>
        exact walk_turn hasks hgraph (fun _ _ he => by cases he) (fun x y hx => ih x hx y)
          fun _ _ p q hq => ihb (branches + 1) (by omega) _ _ _ hq
    | cons next pending ihp =>
      induction a using hwf.induction generalizing b with
      | _ a ih =>
        refine walk_turn hasks hgraph (fun q rest he hq => ?_) (fun x y hx => ih x hx y)
          fun _ _ p q hq => ihb (branches + 1) (by omega) _ _ _ hq
        cases he
        exact ihp _ _ hq

/-- **`rc_equal` decides bisimilarity** in a heap in which pairs that reach no vector are on no
cycle. -/
theorem rcEqual_spec (hroomy : ∀ k, s.scratch k = true) (hb : ∀ a, s.live a → a < s.size)
    (hwf : WellFounded s.Below) (address : Ref → BitVec 64) (left right : Ref) :
    ∃ r, Returns (fun fuel => s.rcEqual address fuel left right) r ∧
      Answers s (left, right) r := by
  by_cases he : left = right
  · subst he
    refine ⟨.ok true, .now fun fuel => ?_, .ok (iff_of_true rfl (holds_self left))⟩
    rw [rcEqual, if_pos rfl]
  have hscalar : ∀ b, s.comparable (left, right) = false → s.scalarEqual left right = b →
      Answers s (left, right) (.ok b) := fun b hc hs => .ok (by rw [holds_scalar hc, hs])
  by_cases hnull : left = .null ∨ right = .null
  · refine ⟨.ok false, .now fun fuel => ?_, hscalar false ?_ ?_⟩
    · rw [rcEqual, if_neg he, if_pos hnull]
    · rcases hnull with rfl | rfl <;> simp [comparable, structural]
    · rw [scalarEqual, if_neg he, if_pos hnull]
  by_cases htype : s.rcType left ≠ .pair ∧ s.rcType left ≠ .vector
  · refine ⟨.ok (s.scalarEqual left right), .now fun fuel => ?_, hscalar _ ?_ rfl⟩
    · rw [rcEqual, if_neg he, if_neg hnull, if_pos htype]
    · rw [Bool.eq_false_iff, Ne, comparable_iff]
      rintro (⟨h, t, k, u, h1, -⟩ | ⟨xs, ys, h1, -⟩)
      · exact htype.1 (rcType_of_payload h1)
      · exact htype.2 (rcType_of_payload h1)
  by_cases hdiff : s.rcType left ≠ s.rcType right
  · refine ⟨.ok false, .now fun fuel => ?_, hscalar false ?_ ?_⟩
    · rw [rcEqual, if_neg he, if_neg hnull, if_neg htype, if_pos hdiff]
    · simp [comparable, hdiff]
    · rw [scalarEqual, if_neg he, if_neg hnull]
      split_ifs <;> rfl
  have hstart : ∀ fuel, s.rcEqual address fuel left right =
      s.walk address left right fuel (left, right) [] 0 := fun fuel => by
    rw [rcEqual, if_neg he, if_neg hnull, if_neg htype, if_neg hdiff]
  have hasks : s.Asks (left, right) (left, right) [] := by simp [Asks]
  have hdecides : Decides s address left right (left, right) [] 0 := by
    by_cases hc : s.comparable (left, right) = true
    · exact walk_spec hwf (graphEqual_spec hroomy hb he hc) 255 0 rfl [] left right hasks
    · -- Values of another context: the first turn is the last.
      rw [Bool.not_eq_true] at hc
      refine .now (hscalar _ hc rfl) fun fuel => ?_
      by_cases hs : s.scalarEqual left right = true
      · rw [walk, if_pos (Or.inr ⟨by rw [hc]; rfl, hs⟩), hs]
      · rw [walk, if_neg (by tauto), if_pos (by rw [hc]; rfl), Bool.eq_false_iff.mpr hs]
  obtain ⟨r, ⟨n, hn⟩, ha⟩ := hdecides
  exact ⟨r, ⟨n, fun fuel hf => (hstart fuel).trans (hn fuel hf)⟩, ha⟩

/-! ### Pairs that reach no vector -/

theorem payload_cell {a : ℕ} {b : Payload} (h : s.payload? (.cell a) = some b) :
    ∃ o, s.heap a = some o ∧ o.body = b := by
  simpa only [payload?, Option.map_eq_some_iff] using h

/-- **A pair that reaches no vector is on no cycle.** -/
theorem Inv.below_wellFounded {π : Policy} {O : Own} {work : List ℕ} {P : Set Ref}
    (h : Inv π s O work P) : WellFounded s.Below := by
  have hfin : {u | ∃ w, s.FreeEdge u w}.Finite :=
    (Finset.finite_toSet (Finset.range s.size)).subset fun u ⟨w, hw⟩ =>
      Finset.mem_coe.mpr (Finset.mem_range.mpr (h.bound u hw.1.live))
  have hplain : ∀ {u}, s.mayReachVector (.cell u) = false → u ∉ s.sources := by
    intro u hu hsrc
    obtain ⟨o, items, ho, hb⟩ := h.srcVec u hsrc
    have hreach := h.vec u o items ho hb
    simp [mayReachVector, ho, hreach] at hu
  have hedge : ∀ {q u}, s.Below q (.cell u) → ∀ w, q = .cell w → s.FreeEdge u w := by
    rintro q u ⟨hd, tl, hp, hu, hq⟩ w rfl
    obtain ⟨o, ho, hb⟩ := payload_cell hp
    have he : s.Edge u w := PairField.edge ⟨o, hd, tl, ho, hb, hq.imp Eq.symm Eq.symm⟩
    refine ⟨he, hplain hu, hplain ?_⟩
    by_contra hw
    rw [Bool.not_eq_false] at hw
    rw [h.flags u w he hw] at hu
    cases hu
  have hwf := h.acyc.wellFounded hfin
  -- Only cells have something below them.
  have hcell : ∀ a, Acc s.Below (.cell a) := by
    intro a
    induction a using hwf.induction with
    | _ a ih =>
      refine ⟨_, fun q hq => ?_⟩
      by_cases hw : ∃ w, q = .cell w
      · obtain ⟨w, rfl⟩ := hw
        exact ih w (hedge hq w rfl)
      · refine ⟨_, fun r hr => ?_⟩
        obtain ⟨hd, tl, hp, -⟩ := hr
        cases q with
        | cell w => exact absurd ⟨w, rfl⟩ hw
        | _ => cases hp
  refine ⟨fun r => ?_⟩
  cases r with
  | cell a => exact hcell a
  | _ =>
    refine ⟨_, fun q hq => ?_⟩
    obtain ⟨hd, tl, hp, -⟩ := hq
    cases hp

end Ctx

namespace Config

/-- **Structural equality is bisimilarity.** In every configuration of a run `rc_equal` ends for any
two values, wherever the cells lie, and its answer is whether they are bisimilar; the only error it
may report is that the sizes of its arrays are too large, in a heap with as many pairs of cells. -/
theorem reachable_rcEqual {acyclic : Bool} {mem scratch marking : ℕ → Bool}
    (hsc : ∀ k, scratch k = true) {c : Config} (h : Reachable acyclic mem scratch marking c)
    (address : Ref → BitVec 64) (x y : Ref) :
    ∃ r, Returns (fun fuel => c.ctx.rcEqual address fuel x y) r ∧
      ((∃ b, r = .ok b ∧ (b = true ↔ c.ctx.Bisimilar x y)) ∨
        r = .error "comparison size overflow" ∧ sizeMax / 32 < c.ctx.size * c.ctx.size) := by
  have hinv := (reachable_ok hsc h).inv
  obtain ⟨r, hr, ha⟩ :=
    Ctx.rcEqual_spec hinv.roomy hinv.bound hinv.below_wellFounded address x y
  refine ⟨r, hr, ?_⟩
  cases ha with
  | @ok b hb => exact Or.inl ⟨b, rfl, hb.trans Ctx.bisimilar_iff.symm⟩
  | overflow ho => exact Or.inr ⟨congrArg _ ho.1, ho.2⟩

/-- A host that makes a vector that holds itself, and two vectors that hold each other. -/
def knots : List Op :=
  [.vector 1, .vectorSet (.cell 0) 0 (.cell 0), .vector 1, .vector 1,
    .vectorSet (.cell 1) 0 (.cell 2), .vectorSet (.cell 2) 0 (.cell 1)]

/-- The host after `knots`, when every request is granted. -/
def knotsConfig : Config :=
  ⟨(perform (rcContextNew false (fun _ => true) (fun _ => true) (fun _ => true)) [] knots).1,
    [.client (owns (perform (rcContextNew false (fun _ => true) (fun _ => true) (fun _ => true)) []
      knots).2)]⟩

/-- The vector that holds itself and one of the two others. -/
theorem reachable_rcEqual_knots :
    ∃ r, Returns (fun fuel => knotsConfig.ctx.rcEqual (fun _ => 0) fuel (.cell 0) (.cell 1)) r ∧
      ((∃ b, r = .ok b ∧ (b = true ↔ knotsConfig.ctx.Bisimilar (.cell 0) (.cell 1))) ∨
        r = .error "comparison size overflow" ∧
          sizeMax / 32 < knotsConfig.ctx.size * knotsConfig.ctx.size) :=
  reachable_rcEqual (fun _ => rfl) (host_reachable knots (by decide +kernel)) _ _ _

example : (knotsConfig.ctx.rcEqual (fun _ => 0) 4 (.cell 0) (.cell 1)).map Except.toOption =
    some (some true) := by decide +kernel

end Config

end ShenRc.Runtime
