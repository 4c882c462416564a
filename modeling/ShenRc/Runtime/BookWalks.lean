import ShenRc.Runtime.Books

/-! # The books through releases and walks

A release cascade keeps the books (`Books.rcRelease`): each turn of its loop takes one cell off the
books and frees it. The walks over the graph touch marks and work arrays only, so they leave the books
alone. A collection takes what it sweeps off the books first, releases what that held, and frees it in
the end (`Books.collectFromSources`). -/

namespace ShenRc.Runtime

namespace Ctx

variable {δ : Counter → ℤ} {D : List ℕ} {s s' : Ctx} {a b : ℕ} {o : Obj}

/-! ### The release cascade -/

theorem unlinkObject_stuck (h : s.stuck = true) (a : ℕ) : (s.unlinkObject a).stuck = true := by
  unfold unlinkObject
  split
  · rfl
  · simp only
    split_ifs
    · exact h
    · exact h

theorem unlinkObject_heap (s : Ctx) (a : ℕ) : (s.unlinkObject a).heap = s.heap := by
  unfold unlinkObject
  split
  · rfl
  · simp only
    split_ifs
    · rfl
    · rfl

theorem unlinkObject_dead (h : s.heap a = none) : (s.unlinkObject a).stuck = true := by
  unfold unlinkObject
  rw [h]
  rfl

theorem rawFree_stuck (h : s.stuck = true) (a : ℕ) : (s.rawFree a).stuck = true := by
  unfold rawFree
  split
  · rfl
  · exact h

theorem rawFree_dead (h : s.heap a = none) : (s.rawFree a).stuck = true := by
  unfold rawFree
  rw [h]
  rfl

theorem rawFree_self (s : Ctx) (a : ℕ) : (s.rawFree a).heap a = none := by
  unfold rawFree
  split
  · assumption
  · exact Function.update_self ..

/-- A cell that is not in use stays so. -/
theorem rawFree_none (a : ℕ) (h : s.heap b = none) : (s.rawFree a).heap b = none := by
  by_cases hba : b = a
  · rw [hba]
    exact s.rawFree_self a
  · unfold rawFree
    split
    · exact h
    · exact (Function.update_of_ne hba _ _).trans h

/-- **One turn of the loop of `rc_release`.** -/
theorem Books.releaseStep (hb : Books δ D s) (dead : ℕ) (work : List ℕ) :
    Books δ D (s.releaseStep dead work).1 := by
  have hq : Quiet (s.unlinkObject dead)
      ((s.edges dead).foldl releaseEdge (s.unlinkObject dead, work)).1 :=
    Quiet.foldl Prod.fst quiet_releaseEdge _ (s.unlinkObject dead, work)
  have hheap := hq.heap.trans (s.unlinkObject_heap dead)
  unfold Ctx.releaseStep
  simp only
  obtain hstop | ⟨a, ha, hnone⟩ | hb := hb
  · exact Or.inl (rawFree_stuck (hq.stuck (unlinkObject_stuck hstop dead)) dead)
  · exact Or.inr (Or.inl ⟨a, ha, rawFree_none dead (by rw [hheap]; exact hnone)⟩)
  rcases ho : s.heap dead with _ | o
  · exact Or.inl (rawFree_stuck (hq.stuck (unlinkObject_dead ho)) dead)
  by_cases hD : dead ∈ D
  · exact Or.inr (Or.inl ⟨dead, hD, rawFree_self _ dead⟩)
  · exact Or.inr (Or.inr (hq.balanced (hb.unlinkObject ho hD)).rawFree)

theorem Books.releaseLoop : ∀ (fuel : ℕ) {st : Ctx × List ℕ}, Books δ D st.1 →
    Books δ D (releaseLoop fuel st)
  | 0, _, hb => (quiet_abort _).books hb
  | _ + 1, (_, []), hb => hb
  | fuel + 1, (_, dead :: work), hb => Books.releaseLoop fuel (hb.releaseStep dead work)

/-- **A release keeps the books.** -/
theorem Books.rcRelease (hb : Books δ D s) (v : Ref) : Books δ D (s.rcRelease v) :=
  Books.releaseLoop _ ((quiet_releaseEdge (s, []) v).books hb)

theorem Books.foldl {β : Type} {f : Ctx → β → Ctx}
    (hf : ∀ (s : Ctx) (y : β), Books δ D s → Books δ D (f s y)) (hb : Books δ D s) (ys : List β) :
    Books δ D (ys.foldl f s) := by
  induction ys generalizing s with
  | nil => exact hb
  | cons y ys ih => exact ih (hf s y hb)

theorem Books.releaseAll (hb : Books δ D s) (vs : List Ref) : Books δ D (s.releaseAll vs) :=
  Books.foldl (fun _ v h => h.rcRelease v) hb vs

/-! ### The cycle search -/

theorem quiet_setVisited (s : Ctx) (a : ℕ) (b : Bool) : Quiet s (s.setVisited a b) := ⟨rfl, id⟩

theorem quiet_setMarked (s : Ctx) (marked : ℕ → Bool) : Quiet s { s with marked } := ⟨rfl, id⟩

theorem quiet_walkPush (s : Ctx) (n : ℕ) : Quiet s (s.walkPush n).1 := by
  unfold walkPush
  simp only
  generalize (if s.walkCapacity = 0 then 256 else s.walkCapacity * 2) = capacity
  split_ifs <;> exact ⟨rfl, id⟩

theorem quiet_clearVisited (s : Ctx) (nodes : List ℕ) : Quiet s (s.clearVisited nodes) :=
  Quiet.foldl id (fun s a => quiet_setVisited s a false) nodes s

theorem quiet_cycleSearchEdge (target : ℕ) (st : Ctx × Search) (v : Ref) :
    Quiet st.1 (cycleSearchEdge target st v).1 := by
  unfold cycleSearchEdge
  split
  · rename_i a
    have hpush : Quiet st.1 ((st.1.setVisited a true).walkPush st.2.nodes.length).1 :=
      (quiet_setVisited st.1 a true).trans (quiet_walkPush _ _)
    simp only
    split_ifs
    · exact Quiet.refl _
    · exact Quiet.refl _
    · exact hpush
    · exact hpush
    · exact Quiet.refl _
  · exact Quiet.refl _

theorem quiet_searchLoop (target : ℕ) : ∀ (fuel i : ℕ) (st : Ctx × Search) (budget : ℕ),
    Quiet st.1 (searchLoop target fuel i st budget).1.1
  | 0, _, _, _ => Quiet.refl _
  | fuel + 1, i, st, budget => by
    unfold searchLoop
    split
    · exact Quiet.refl _
    · split
      · exact Quiet.refl _
      · simp only
        split_ifs
        · exact Quiet.refl _
        · exact (Quiet.foldl Prod.fst (quiet_cycleSearchEdge target) _ st).trans
            (quiet_searchLoop target fuel (i + 1) _ _)

/-- **A search leaves the books alone.** -/
theorem quiet_reaches (s : Ctx) (target : ℕ) (item : Ref) (budget : ℕ) (fromChildren : Bool) :
    Quiet s (s.reaches target item budget fromChildren).1 := by
  have hstart : Quiet s (s.searchStart target item fromChildren).1 := by
    unfold searchStart
    simp only
    split_ifs
    · split
      · exact Quiet.foldl Prod.fst (quiet_cycleSearchEdge target) _ (s, _)
      · exact Quiet.refl _
    · exact quiet_cycleSearchEdge target (s, _) item
  exact (hstart.trans (quiet_searchLoop target _ _ _ _)).trans (quiet_clearVisited _ _)

/-! ### The walks of the collector -/

theorem quiet_gcPush (s : Ctx) (ok : ℕ → Bool) (n : ℕ) : Quiet s (s.gcPush ok n).1 := by
  unfold gcPush
  simp only
  generalize (if s.gcCapacity = 0 then 1024 else s.gcCapacity * 2) = capacity
  split_ifs <;> exact ⟨rfl, id⟩

/-- The cells in the work array of discovery are marked as visited, and each is there once. -/
structure Noted (st : Ctx × GcScan) : Prop where
  visited : ∀ a ∈ st.2.nodes, st.1.visited a = true
  nodup : st.2.nodes.Nodup

theorem gcPush_visited (s : Ctx) (ok : ℕ → Bool) (n : ℕ) :
    (s.gcPush ok n).1.visited = s.visited := by
  unfold gcPush
  simp only
  generalize (if s.gcCapacity = 0 then 1024 else s.gcCapacity * 2) = capacity
  split_ifs <;> rfl

theorem gcDiscoverEdge_books (st : Ctx × GcScan) (v : Ref) (hn : Noted st) :
    Quiet st.1 (gcDiscoverEdge st v).1 ∧ Noted (gcDiscoverEdge st v) := by
  unfold gcDiscoverEdge
  split
  swap
  · exact ⟨Quiet.refl _, hn⟩
  rename_i a
  by_cases hnew : (st.1.mayReachVector (.cell a) && !st.1.visited a) = true
  swap
  · rw [if_neg hnew]
    exact ⟨Quiet.refl _, hn⟩
  rw [if_pos hnew]
  simp only
  generalize hs₁ : ({ st.1.setVisited a true with
    trial := Function.update (st.1.setVisited a true).trial a
      (if (st.1.setVisited a true).refs (.cell a) = immortal then sizeMax
        else (st.1.setVisited a true).refs (.cell a))
    marked := Function.update (st.1.setVisited a true).marked a false } : Ctx) = s₁
  have hq : ∀ ok n, Quiet st.1 (s₁.gcPush ok n).1 := fun ok n => by
    have hq₁ : Quiet st.1 s₁ := by
      rw [← hs₁]
      exact ⟨rfl, id⟩
    exact hq₁.trans (quiet_gcPush s₁ ok n)
  have hvisited : ∀ ok n, (s₁.gcPush ok n).1.visited = Function.update st.1.visited a true :=
    fun ok n => by
      rw [gcPush_visited, ← hs₁]
      rfl
  have hkeep : ∀ b, st.1.visited b = true → Function.update st.1.visited a true b = true :=
    fun b hb => by
      by_cases hba : b = a
      · rw [hba, Function.update_self]
      · rw [Function.update_of_ne hba, hb]
  have hnot : a ∉ st.2.nodes := fun hm => by
    have hv := hn.visited a hm
    simp [hv] at hnew
  split_ifs
  · refine ⟨hq _ _, fun b hm => ?_, ?_⟩
    · simp only [hvisited]
      rcases List.mem_append.mp hm with hm | hm
      · exact hkeep b (hn.visited b hm)
      · rw [List.mem_singleton.mp hm, Function.update_self]
    · refine List.nodup_append.mpr ⟨hn.nodup, List.nodup_singleton a, fun x hx y hy hxy => hnot ?_⟩
      rw [← List.mem_singleton.mp hy, ← hxy]
      exact hx
  · refine ⟨hq _ _, fun b hm => ?_, hn.nodup⟩
    simp only [hvisited]
    exact hkeep b (hn.visited b hm)

theorem gcDiscoverEdges_books (vs : List Ref) : ∀ (st : Ctx × GcScan), Noted st →
    Quiet st.1 (vs.foldl gcDiscoverEdge st).1 ∧ Noted (vs.foldl gcDiscoverEdge st) := by
  induction vs with
  | nil => exact fun st hn => ⟨Quiet.refl _, hn⟩
  | cons v vs ih =>
    intro st hn
    obtain ⟨hq, hn₁⟩ := gcDiscoverEdge_books st v hn
    obtain ⟨hq₁, hn₂⟩ := ih _ hn₁
    exact ⟨hq.trans hq₁, hn₂⟩

theorem discoverSources_books (sources : List ℕ) : ∀ (st : Ctx × GcScan), Noted st →
    Quiet st.1 (discoverSources st sources).1 ∧ Noted (discoverSources st sources) := by
  unfold discoverSources
  induction sources with
  | nil => exact fun st hn => ⟨Quiet.refl _, hn⟩
  | cons a sources ih =>
    intro st hn
    rw [List.foldl_cons]
    by_cases hf : st.2.failed = true
    · rw [if_pos hf]
      exact ih st hn
    · rw [if_neg hf]
      obtain ⟨hq, hn₁⟩ := gcDiscoverEdge_books st (.cell a) hn
      obtain ⟨hq₁, hn₂⟩ := ih _ hn₁
      exact ⟨hq.trans hq₁, hn₂⟩

theorem discoverLoop_books : ∀ (fuel i : ℕ) (st : Ctx × GcScan), Noted st →
    Quiet st.1 (discoverLoop fuel i st).1 ∧ Noted (discoverLoop fuel i st)
  | 0, _, st, hn => ⟨quiet_abort _, hn.visited, hn.nodup⟩
  | fuel + 1, i, st, hn => by
    unfold discoverLoop
    split
    · exact ⟨Quiet.refl _, hn⟩
    · split
      · exact ⟨Quiet.refl _, hn⟩
      · obtain ⟨hq, hn₁⟩ := gcDiscoverEdges_books (st.1.edges _) st hn
        obtain ⟨hq₁, hn₂⟩ := discoverLoop_books fuel (i + 1) _ hn₁
        exact ⟨hq.trans hq₁, hn₂⟩

theorem quiet_gcSubtractEdge (s : Ctx) (v : Ref) : Quiet s (gcSubtractEdge s v) := by
  unfold gcSubtractEdge
  split
  · split_ifs
    · exact quiet_abort _
    · exact ⟨rfl, id⟩
    · exact Quiet.refl _
  · exact Quiet.refl _

theorem quiet_gcMarkEdge (n : ℕ) (st : Ctx × GcScan) (v : Ref) :
    Quiet st.1 (gcMarkEdge n st v).1 := by
  unfold gcMarkEdge
  split
  · simp only
    split_ifs
    · exact (quiet_setMarked st.1 _).trans (quiet_gcPush _ _ _)
    · exact (quiet_setMarked st.1 _).trans (quiet_gcPush _ _ _)
    · exact Quiet.refl _
  · exact Quiet.refl _

theorem quiet_markLoop (n : ℕ) : ∀ (fuel : ℕ) (st : Ctx × GcScan), Quiet st.1 (markLoop n fuel st).1
  | 0, _ => quiet_abort _
  | fuel + 1, st => by
    unfold markLoop
    split
    · exact Quiet.refl _
    · split
      · exact Quiet.refl _
      · rename_i a rest _
        exact (Quiet.foldl Prod.fst (quiet_gcMarkEdge n) (st.1.edges a)
          (st.1, { st.2 with nodes := rest })).trans (quiet_markLoop n fuel _)

theorem quiet_markNode (n : ℕ) (st : (Ctx × GcScan) × Bool) (a : ℕ) :
    Quiet st.1.1 (markNode n st a).1.1 := by
  unfold markNode
  simp only
  split_ifs
  · exact Quiet.refl _
  · exact ((quiet_setMarked st.1.1 _).trans (quiet_gcPush _ _ _)).trans (quiet_markLoop n _ (_, _))
  · exact (quiet_setMarked st.1.1 _).trans (quiet_gcPush _ _ _)
  · exact Quiet.refl _

/-! ### The collection -/

theorem Books.sweepNode {st : Ctx × List ℕ} (hb : Books δ st.2 st.1) (ha : a ∉ st.2) :
    Books δ (Ctx.sweepNode st a).2 (Ctx.sweepNode st a).1 := by
  unfold Ctx.sweepNode
  split_ifs
  · exact (quiet_setVisited st.1 a false).books hb
  obtain hstop | ⟨b, hm, hnone⟩ | hb := hb
  · exact Or.inl (unlinkObject_stuck hstop a)
  · exact Or.inr (Or.inl ⟨b, List.mem_cons_of_mem _ hm, by rw [unlinkObject_heap]; exact hnone⟩)
  rcases ho : st.1.heap a with _ | o
  · exact Or.inl (unlinkObject_dead ho)
  · exact Or.inr (Or.inr (hb.unlinkObject ho ha))

/-- **The sweep** takes each cell it collects off the books, once. -/
theorem Books.sweep (nodes : List ℕ) : ∀ (st : Ctx × List ℕ), Books δ st.2 st.1 → nodes.Nodup →
    (∀ a ∈ nodes, a ∉ st.2) →
    Books δ (nodes.foldl Ctx.sweepNode st).2 (nodes.foldl Ctx.sweepNode st).1 := by
  induction nodes with
  | nil => exact fun _ hb _ _ => hb
  | cons a nodes ih =>
    intro st hb hnodup hnew
    obtain ⟨hnot, hnodup⟩ := List.nodup_cons.mp hnodup
    refine ih _ (hb.sweepNode (hnew a (List.mem_cons_self ..))) hnodup fun b hb => ?_
    have hbst := hnew b (List.mem_cons_of_mem _ hb)
    unfold Ctx.sweepNode
    split_ifs
    · exact hbst
    · exact fun hm => (List.mem_cons.mp hm).elim (fun h => hnot (h ▸ hb)) hbst

theorem Books.gcReleaseEdge (hb : Books δ D s) (v : Ref) : Books δ D (Ctx.gcReleaseEdge s v) := by
  unfold Ctx.gcReleaseEdge
  split
  · split_ifs
    · exact hb
    · exact hb.rcRelease _
  · exact hb.rcRelease _
  · exact hb

/-- **Freeing the swept cells.** One that had been freed before is where the program stops. -/
theorem Books.rawFrees (D : List ℕ) : ∀ {s : Ctx}, Books δ D s → Books δ [] (D.foldl rawFree s) := by
  induction D with
  | nil => exact fun hb => hb
  | cons d D ih =>
    intro s hb
    refine ih ?_
    obtain hstop | ⟨a, hm, hnone⟩ | hb := hb
    · exact Or.inl (rawFree_stuck hstop d)
    · rcases List.mem_cons.mp hm with rfl | hm
      · exact Or.inl (rawFree_dead hnone)
      · exact Or.inr (Or.inl ⟨a, hm, rawFree_none d hnone⟩)
    · exact Or.inr (Or.inr hb.rawFree)

theorem Balanced.sourceUnlink (hb : Balanced δ D s) (ha : a ∈ s.sources) :
    Balanced δ D (s.sourceUnlink a) :=
  { hb with
    sourceCount := by
      have hlen := List.length_erase_of_mem ha
      have hpos := List.length_pos_of_mem ha
      have h := hb.sourceCount
      change s.cycleSources - 1 = ((s.sources.erase a).length : ℕ)
      omega
    sourceNodup := hb.sourceNodup.erase a
    source := fun b hm => hb.source b (List.mem_of_mem_erase hm) }

/-- **A source that drops its mark** leaves the list and its count. -/
theorem Books.uncheckSources (todo : List ℕ) : ∀ {s : Ctx}, Books δ D s →
    (s.stuck = true ∨ todo.Nodup ∧ ∀ a ∈ todo, a ∈ s.sources) →
    Books δ D (todo.foldl uncheckSource s) := by
  induction todo with
  | nil => exact fun hb _ => hb
  | cons a todo ih =>
    intro s hb htodo
    have hq : Quiet s (s.onCycle a).1 := quiet_reaches s a _ _ _
    rw [List.foldl_cons]
    unfold uncheckSource
    simp only
    by_cases hcycle : (s.onCycle a).2 = true
    · rw [if_pos hcycle]
      refine ih (hq.books hb) (htodo.imp hq.stuck fun h => ⟨h.1.of_cons, fun b hm => ?_⟩)
      rw [hq.sources]
      exact h.2 b (List.mem_cons_of_mem _ hm)
    rw [if_neg hcycle]
    obtain hstop | ⟨hnodup, hmem⟩ := htodo
    · exact ih (Or.inl (hq.stuck hstop)) (Or.inl (hq.stuck hstop))
    have ha : a ∈ (s.onCycle a).1.sources := by
      rw [hq.sources]
      exact hmem a (List.mem_cons_self ..)
    refine ih ?_ (Or.inr ⟨hnodup.of_cons, fun b hm => ?_⟩)
    · obtain hstop | hdead | hb := hq.books hb
      · exact Or.inl hstop
      · exact Or.inr (Or.inl hdead)
      · exact Or.inr (Or.inr (hb.sourceUnlink ha))
    · have hba : b ≠ a := fun h => (List.nodup_cons.mp hnodup).1 (h ▸ hm)
      refine (List.mem_erase_of_ne hba).mpr ?_
      rw [hq.sources]
      exact hmem b (List.mem_cons_of_mem _ hm)

/-- **`collect_from_sources`.** -/
theorem Books.collectFromSources (hb : Books 0 [] s) : Books 0 [] s.collectFromSources := by
  have hstart : Noted (s, { nodes := [], failed := false }) :=
    ⟨fun a ha => absurd ha List.not_mem_nil, List.nodup_nil⟩
  obtain ⟨hq₁, hn₁⟩ := discoverSources_books s.sources _ hstart
  obtain ⟨hq₂, hn⟩ := discoverLoop_books (s.size + 1) 0 _ hn₁
  have hb₂ := (hq₁.trans hq₂).books hb
  unfold Ctx.collectFromSources
  simp only
  generalize discoverLoop (s.size + 1) 0
    (discoverSources (s, { nodes := [], failed := false }) s.sources) = st at hb₂ hn ⊢
  have hsubtract : Quiet st.1 (st.2.nodes.foldl (fun s a => (s.edges a).foldl gcSubtractEdge s) st.1) :=
    Quiet.foldl id (fun s a => Quiet.foldl id quiet_gcSubtractEdge (s.edges a) s) st.2.nodes st.1
  have hmark := Quiet.foldl (fun x : (Ctx × GcScan) × Bool => x.1.1) (quiet_markNode st.2.nodes.length)
    st.2.nodes ((st.2.nodes.foldl (fun s a => (s.edges a).foldl gcSubtractEdge s) st.1,
      { nodes := [], failed := false }), false)
  have hb₃ := (hsubtract.trans hmark).books hb₂
  generalize (st.2.nodes.foldl (markNode st.2.nodes.length)
    ((st.2.nodes.foldl (fun s a => (s.edges a).foldl gcSubtractEdge s) st.1,
      { nodes := [], failed := false }), false)) = m at hb₃ ⊢
  split_ifs
  · exact (quiet_clearVisited _ _).books hb₂
  · exact (quiet_clearVisited _ _).books hb₃
  have hb₄ := Books.sweep st.2.nodes (m.1.1, []) hb₃ hn.nodup fun a _ => List.not_mem_nil
  generalize st.2.nodes.foldl Ctx.sweepNode (m.1.1, []) = sw at hb₄ ⊢
  have hrelease : ∀ (s : Ctx) (a : ℕ), Books 0 sw.2 s →
      Books 0 sw.2 ((s.edges a).foldl Ctx.gcReleaseEdge s) := fun s a h =>
    Books.foldl (fun _ v h => h.gcReleaseEdge v) h (s.edges a)
  have hb₅ := Books.rawFrees sw.2 (Books.foldl hrelease hb₄ sw.2)
  generalize sw.2.foldl rawFree (sw.2.foldl (fun s a => (s.edges a).foldl Ctx.gcReleaseEdge s) sw.1) = s₆
    at hb₅ ⊢
  refine Books.uncheckSources _ (Quiet.books (s := s₆) ⟨rfl, id⟩ hb₅) ?_
  obtain hstop | ⟨a, ha, -⟩ | hb₅ := hb₅
  · exact Or.inl hstop
  · exact absurd ha List.not_mem_nil
  · exact Or.inr ⟨hb₅.sourceNodup.sublist (List.take_sublist _ _), fun a ha => List.mem_of_mem_take ha⟩

/-- **A collection keeps the books.** -/
theorem Books.rcCollect (hb : Books 0 [] s) : Books 0 [] s.rcCollect := by
  have hadapt : ∀ s : Ctx, Quiet s { s.adaptInterval with collecting := false } := fun s => by
    unfold adaptInterval
    split_ifs
    · exact ⟨rfl, id⟩
    · exact ⟨rfl, id⟩
  unfold Ctx.rcCollect
  split_ifs
  · exact hb
  simp only
  refine (hadapt _).books ?_
  split_ifs
  · exact Quiet.books (s := s) ⟨rfl, id⟩ hb
  · exact Books.collectFromSources (Quiet.books (s := s) ⟨rfl, id⟩ hb)

theorem Books.rcSafepoint (hb : Books 0 [] s) : Books 0 [] s.rcSafepoint := by
  unfold Ctx.rcSafepoint
  split_ifs
  · exact hb.rcCollect
  · exact hb

end Ctx

end ShenRc.Runtime
