import ShenRc.Probing.Slots

/-! # Deletion by backward shift

An entry is taken out of a table without tombstones. Its slot is the hole; the slots after it are
visited up to the first free one, and an entry whose way from home leads over the hole moves into it,
which makes its own slot the hole. What is in the hole meanwhile is not looked at and is cleared at
the end. `Gap` is what holds on the way: only entries that have not been visited may have the hole on
their way (`path`). -/

namespace ShenRc.Probing

variable {κ α : Type*} {key : α → Option κ} {hash : κ → ℕ} {home : α → ℕ} {m : ℕ}
  {slots : ℕ → Option α} {hole c g : ℕ}

/-- The loop of the deletion from slot `j` on. It returns the slots and the hole to be cleared. -/
def shiftBack (home : α → ℕ) (m : ℕ) : ℕ → ℕ → ℕ → (ℕ → Option α) → Option ((ℕ → Option α) × ℕ)
  | 0, _, _, _ => none
  | fuel + 1, hole, j, slots =>
    match slots j with
    | none => some (slots, hole)
    | some a =>
      if back m j hole ≤ back m j (home a % m) then
        shiftBack home m fuel j ((j + 1) % m) (Function.update slots hole (some a))
      else shiftBack home m fuel hole ((j + 1) % m) slots

/-- The deletion of the entry in a slot. -/
def erase (home : α → ℕ) (m : ℕ) (slots : ℕ → Option α) (i : ℕ) : Option (ℕ → Option α) :=
  (shiftBack home m m i ((i + 1) % m) slots).map fun r => Function.update r.1 r.2 none

/-- Every entry has a key, and its home is that of the key. -/
def Keyed (key : α → Option κ) (hash : κ → ℕ) (home : α → ℕ) (m : ℕ) (slots : ℕ → Option α) : Prop :=
  ∀ i < m, ∀ a, slots i = some a → ∃ k, key a = some k ∧ home a = hash k

/-- The state of the loop: `c` steps from the hole to the slot to be visited, `g` to a free slot. -/
structure Gap (key : α → Option κ) (hash : κ → ℕ) (m : ℕ) (slots : ℕ → Option α) (hole c g : ℕ) :
    Prop where
  hole_lt : hole < m
  pos : 0 < c
  le : c ≤ g
  lt : g < m
  free : slots ((hole + g) % m) = none
  taken : slots hole ≠ none
  path : ∀ i < m, i ≠ hole → ∀ a k, slots i = some a → key a = some k →
    ∃ d < m, (hash k + d) % m = i ∧ ∀ e < d, slots ((hash k + e) % m) ≠ none ∧
      ((hash k + e) % m = hole → c ≤ d - e)
  unique : ∀ i < m, i ≠ hole → ∀ j < m, j ≠ hole → ∀ a b k, slots i = some a → slots j = some b →
    key a = some k → key b = some k → i = j

/-- The start of the deletion. -/
theorem Gap.start (h : Linked key hash m slots) (hfree : ∃ i < m, slots i = none) {i : ℕ} (hi : i < m)
    (ha : slots i ≠ none) : ∃ g, Gap key hash m slots i 1 g := by
  obtain ⟨z, hz, hzero⟩ := hfree
  obtain ⟨g, hg, hgz⟩ := Graph.exists_steps i hz
  have hpos : 0 < g := by
    rcases Nat.eq_zero_or_pos g with rfl | hpos
    · rw [Nat.add_zero, Nat.mod_eq_of_lt hi] at hgz
      exact absurd (hgz ▸ hzero) ha
    · exact hpos
  refine ⟨g, hi, Nat.one_pos, hpos, hg, hgz ▸ hzero, ha, fun j hj _ a k haj hk => ?_,
    fun x hx _ y hy _ => h.unique x hx y hy⟩
  obtain ⟨d, hd, hdj, hpath⟩ := h.path j hj a k haj hk
  exact ⟨d, hd, hdj, fun e he => ⟨hpath e he, fun _ => by omega⟩⟩

/-- The slot to be visited, and the one after it. -/
theorem Gap.next : ((hole + c) % m + 1) % m = (hole + (c + 1)) % m := by
  rw [Nat.mod_add_mod, Nat.add_assoc]

theorem Gap.visited_ne (h : Gap key hash m slots hole c g) : (hole + c) % m ≠ hole := by
  intro heq
  have hc : c < m := by have := h.le; have := h.lt; omega
  have hzero := steps_inj (d := c) (e := 0) hc (by omega)
    (by rw [heq, Nat.add_zero, Nat.mod_eq_of_lt h.hole_lt])
  have := h.pos
  omega

/-- **The loop has come to a free slot**: the hole can be cleared. -/
theorem Gap.done (h : Gap key hash m slots hole c g) (hfree : slots ((hole + c) % m) = none) :
    Linked key hash m (Function.update slots hole none) := by
  have hold : ∀ x a, Function.update slots hole none x = some a → x ≠ hole ∧ slots x = some a := by
    intro x a hx
    rcases eq_or_ne x hole with rfl | hne
    · rw [Function.update_self] at hx
      cases hx
    · rw [Function.update_of_ne hne] at hx
      exact ⟨hne, hx⟩
  refine ⟨fun i hi a k ha hk => ?_, fun i hi j hj a b k ha hb hka hkb => ?_⟩
  · obtain ⟨hne, ha⟩ := hold i a ha
    obtain ⟨d, hd, hdi, hpath⟩ := h.path i hi hne a k ha hk
    refine ⟨d, hd, hdi, fun e he => ?_⟩
    obtain ⟨htaken, hfar⟩ := hpath e he
    rcases eq_or_ne ((hash k + e) % m) hole with heq | hne'
    · -- The way would lead over the free slot.
      exfalso
      have hc := hfar heq
      have hon : (hash k + (e + c)) % m = (hole + c) % m := by
        rw [← Nat.add_assoc, ← Nat.mod_add_mod, heq]
      rcases Nat.lt_or_ge (e + c) d with hlt | hge
      · exact (hpath (e + c) hlt).1 (hon ▸ hfree)
      · have hed : e + c = d := by omega
        rw [hed, hdi] at hon
        rw [hon, hfree] at ha
        cases ha
    · rwa [Function.update_of_ne hne']
  · obtain ⟨hnei, ha⟩ := hold i a ha
    obtain ⟨hnej, hb⟩ := hold j b hb
    exact h.unique i hi hnei j hj hnej a b k ha hb hka hkb

/-- An entry whose way does not lead over the hole stays. -/
theorem Gap.skip (h : Gap key hash m slots hole c g) {a : α} {k : κ}
    (ha : slots ((hole + c) % m) = some a) (hk : key a = some k)
    (hstay : back m ((hole + c) % m) (hash k % m) < c) : Gap key hash m slots hole (c + 1) g := by
  have hlt : c < g := by
    rcases Nat.lt_or_ge c g with hlt | hge
    · exact hlt
    · have hcg : c = g := le_antisymm h.le hge
      rw [hcg, h.free] at ha
      cases ha
  refine ⟨h.hole_lt, Nat.succ_pos c, hlt, h.lt, h.free, h.taken, fun i hi hne b l hb hl => ?_,
    h.unique⟩
  obtain ⟨d, hd, hdi, hpath⟩ := h.path i hi hne b l hb hl
  refine ⟨d, hd, hdi, fun e he => ⟨(hpath e he).1, fun heq => ?_⟩⟩
  have hc := (hpath e he).2 heq
  rcases Nat.lt_or_ge c (d - e) with hfar | hnear
  · exact hfar
  -- The entry would be the one visited.
  exfalso
  have hde : d = e + c := by omega
  have hi' : i = (hole + c) % m := by
    rw [← hdi, hde, ← Nat.add_assoc, ← Nat.mod_add_mod, heq]
  rw [hi', ha] at hb
  cases hb
  rw [hk] at hl
  cases hl
  rw [← hi', ← hdi, back_steps hd] at hstay
  omega

/-- **An entry whose way leads over the hole moves into it.** -/
theorem Gap.move (h : Gap key hash m slots hole c g) {a : α} {k : κ}
    (ha : slots ((hole + c) % m) = some a) (hk : key a = some k)
    (hmove : c ≤ back m ((hole + c) % m) (hash k % m)) :
    Gap key hash m (Function.update slots hole (some a)) ((hole + c) % m) 1 (g - c) := by
  have hm : 0 < m := by have := h.lt; omega
  have hvisited := h.visited_ne
  have hlt : c < g := by
    rcases Nat.lt_or_ge c g with hlt | hge
    · exact hlt
    · have hcg : c = g := le_antisymm h.le hge
      rw [hcg, h.free] at ha
      cases ha
  have hgm := h.lt
  have htaken : ∀ x, slots x ≠ none → Function.update slots hole (some a) x ≠ none := by
    intro x hx
    rcases eq_or_ne x hole with rfl | hne
    · rw [Function.update_self]
      exact Option.some_ne_none a
    · rwa [Function.update_of_ne hne]
  have hfreeAt : ((hole + c) % m + (g - c)) % m = (hole + g) % m := by
    rw [Nat.mod_add_mod]
    congr 1
    omega
  refine ⟨Nat.mod_lt _ hm, Nat.one_pos, by omega, by omega, ?_, ?_, fun i hi hne b l hb hl => ?_,
    fun i hi hnei j hj hnej b b' l hb hb' hl hl' => ?_⟩
  · rw [hfreeAt, Function.update_of_ne]
    · exact h.free
    · intro heq
      exact h.taken (heq ▸ h.free)
  · rw [Function.update_of_ne hvisited, ha]
    exact Option.some_ne_none a
  · -- A way that leads over the slot that was visited goes on beyond it.
    have hbeyond : ∀ d < m, (hash l + d) % m = i → ∀ e < d,
        (hash l + e) % m = (hole + c) % m → 1 ≤ d - e := fun d _ _ e he _ => by omega
    rcases eq_or_ne i hole with rfl | hold
    · rw [Function.update_self] at hb
      cases hb
      rw [hk] at hl
      cases hl
      obtain ⟨d, hd, hdj, hpath⟩ := h.path _ (Nat.mod_lt _ hm) hvisited a k ha hk
      rw [← hdj, back_steps hd] at hmove
      have hi' : (hash k + (d - c)) % m = i := by
        have hi0 : i = i % m := (Nat.mod_eq_of_lt hi).symm
        have hsum : Nat.ModEq m (hash k + (d - c) + c) (i + c) := by
          have hdc : hash k + (d - c) + c = hash k + d := by omega
          rw [hdc]
          exact hdj
        have hmod : (hash k + (d - c)) % m = i % m := Nat.ModEq.add_right_cancel' c hsum
        rw [hmod, ← hi0]
      refine ⟨d - c, by omega, hi', fun e he => ⟨htaken _ (hpath e (by omega)).1, fun heq => ?_⟩⟩
      exact hbeyond (d - c) (by omega) hi' e he heq
    · rw [Function.update_of_ne hold] at hb
      obtain ⟨d, hd, hdi, hpath⟩ := h.path i hi hold b l hb hl
      exact ⟨d, hd, hdi, fun e he => ⟨htaken _ (hpath e he).1, hbeyond d hd hdi e he⟩⟩
  · -- The entry in the old hole was the one visited.
    have hwas : ∀ x < m, x ≠ (hole + c) % m → ∀ b, Function.update slots hole (some a) x = some b →
        ∃ y < m, y ≠ hole ∧ slots y = some b ∧ (x = hole ∧ y = (hole + c) % m ∨ x = y) := by
      intro x hx hxne b hb
      rcases eq_or_ne x hole with rfl | hxhole
      · rw [Function.update_self] at hb
        cases hb
        exact ⟨(x + c) % m, Nat.mod_lt _ hm, hvisited, ha, Or.inl ⟨rfl, rfl⟩⟩
      · rw [Function.update_of_ne hxhole] at hb
        exact ⟨x, hx, hxhole, hb, Or.inr rfl⟩
    obtain ⟨y, hy, hyne, hyb, hyx⟩ := hwas i hi hnei b hb
    obtain ⟨z, hz, hzne, hzb, hzx⟩ := hwas j hj hnej b' hb'
    have hyz := h.unique y hy hyne z hz hzne b b' l hyb hzb hl hl'
    rcases hyx with ⟨hi', hy'⟩ | hi'
    · rcases hzx with ⟨hj', -⟩ | hj'
      · rw [hi', hj']
      · exact absurd (hj'.trans (hyz.symm.trans hy')) hnej
    · rcases hzx with ⟨hj', hz'⟩ | hj'
      · exact absurd (hi'.trans (hyz.trans hz')) hnei
      · rw [hi', hj', hyz]

/-- **The loop ends** with a table from which the entry of the first hole is gone. -/
theorem shiftBack_spec {fuel : ℕ} (h : Gap key hash m slots hole c g) (hfuel : g - c < fuel)
    (hkeyed : Keyed key hash home m slots) :
    ∃ slots' hole', shiftBack home m fuel hole ((hole + c) % m) slots = some (slots', hole') ∧
      hole' < m ∧ slots' hole' ≠ none ∧ Linked key hash m (Function.update slots' hole' none) ∧
      Keyed key hash home m slots' ∧ used m slots' = used m slots ∧
      ∀ b, (∃ i < m, i ≠ hole' ∧ slots' i = some b) ↔ ∃ i < m, i ≠ hole ∧ slots i = some b := by
  induction fuel generalizing slots hole c g with
  | zero => omega
  | succ fuel ih =>
    have hm : 0 < m := by have := h.lt; omega
    have hcm : c < m := by have := h.le; have := h.lt; omega
    have hback : back m ((hole + c) % m) hole = c := by
      have hstep := back_steps (h := hole) hcm
      rwa [Nat.mod_eq_of_lt h.hole_lt] at hstep
    rcases ha : slots ((hole + c) % m) with _ | a
    · refine ⟨slots, hole, ?_, h.hole_lt, h.taken, h.done ha, hkeyed, rfl, fun b => Iff.rfl⟩
      simp only [shiftBack, ha]
    · obtain ⟨k, hk, hhome⟩ := hkeyed _ (Nat.mod_lt _ hm) a ha
      have hcg : c < g := by
        rcases Nat.lt_or_ge c g with hlt | hge
        · exact hlt
        · rw [le_antisymm h.le hge, h.free] at ha
          cases ha
      rcases Nat.lt_or_ge (back m ((hole + c) % m) (hash k % m)) c with hstay | hmove
      · obtain ⟨slots', hole', hrun, hrest⟩ := ih (h.skip ha hk hstay) (by omega) hkeyed
        refine ⟨slots', hole', ?_, hrest⟩
        rw [shiftBack, ha]
        dsimp only
        rw [hhome, hback, if_neg (by omega), Gap.next]
        exact hrun
      · have hne := h.visited_ne
        have hgap := h.move ha hk hmove
        have hkeyed' : Keyed key hash home m (Function.update slots hole (some a)) := by
          intro i hi b hb
          rcases eq_or_ne i hole with rfl | hi'
          · rw [Function.update_self] at hb
            cases hb
            exact ⟨k, hk, hhome⟩
          · rw [Function.update_of_ne hi'] at hb
            exact hkeyed i hi b hb
        obtain ⟨slots', hole', hrun, hlt, htaken, hlinked, hkeyed'', hused, hmem⟩ :=
          ih hgap (by omega) hkeyed'
        refine ⟨slots', hole', ?_, hlt, htaken, hlinked, hkeyed'', ?_, fun b => (hmem b).trans ?_⟩
        · rw [shiftBack, ha]
          dsimp only
          rw [hhome, hback, if_pos hmove]
          exact hrun
        · rw [hused, used_update_taken h.taken]
        · -- The moved entry is in the old hole; its slot is the new one.
          refine ⟨fun ⟨i, hi, hine, hib⟩ => ?_, fun ⟨i, hi, hine, hib⟩ => ?_⟩
          · rcases eq_or_ne i hole with rfl | hi'
            · rw [Function.update_self] at hib
              exact ⟨(i + c) % m, Nat.mod_lt _ hm, hne, ha.trans hib⟩
            · rw [Function.update_of_ne hi'] at hib
              exact ⟨i, hi, hi', hib⟩
          · rcases eq_or_ne i ((hole + c) % m) with rfl | hi'
            · exact ⟨hole, h.hole_lt, hne.symm, by rw [Function.update_self, ← ha, hib]⟩
            · exact ⟨i, hi, hi', by rw [Function.update_of_ne hine, hib]⟩

/-- **The deletion** leaves a table with the other entries. -/
theorem erase_spec (h : Linked key hash m slots) (hkeyed : Keyed key hash home m slots)
    (hfree : ∃ i < m, slots i = none) {i : ℕ} (hi : i < m) (ha : slots i ≠ none) :
    ∃ slots', erase home m slots i = some slots' ∧ Linked key hash m slots' ∧
      Keyed key hash home m slots' ∧ used m slots' + 1 = used m slots ∧
      ∀ b, (∃ j < m, slots' j = some b) ↔ ∃ j < m, j ≠ i ∧ slots j = some b := by
  obtain ⟨g, hgap⟩ := Gap.start h hfree hi ha
  have hfuel : g - 1 < m := by have := hgap.lt; omega
  obtain ⟨slots', hole', hrun, hhole, htaken, hlinked, hkeyed', hused, hmem⟩ :=
    shiftBack_spec hgap hfuel hkeyed
  have hold : ∀ x b, Function.update slots' hole' none x = some b ↔ x ≠ hole' ∧ slots' x = some b := by
    intro x b
    rcases eq_or_ne x hole' with rfl | hne
    · simp
    · simp [hne]
  refine ⟨Function.update slots' hole' none, by rw [erase, hrun]; rfl, hlinked, fun j hj b hb => ?_,
    ?_, fun b => ?_⟩
  · exact hkeyed' j hj b ((hold j b).mp hb).2
  · rw [used_update_none hhole htaken, hused]
  · rw [← hmem b]
    simp only [hold]

end ShenRc.Probing
