import ShenRc.Runtime.Trace

/-! # A ring of cells

A host makes a vector that holds itself, a list of `n` pairs that ends in the vector, and stores the
list in the vector. So all cells lie on cycles and are reached from the one recorded source. The first
collection lists them all; if they fill its work array, the first root that it marks asks for more
(`Ring.marking_fails`). -/

namespace ShenRc.Runtime

open ShenRc.Graph

namespace Ctx

variable {s : Ctx} {n : ℕ} {last : Ref}

/-- A vector that holds itself and `last`, and a list of `n` pairs that ends in it. -/
structure Ring (n : ℕ) (last : Ref) (s : Ctx) : Prop where
  vector : ∃ o, s.heap 0 = some o ∧ o.body = .vector [.cell 0, last] ∧ o.reachesVector = true
  pair : ∀ i < n, ∃ o, s.heap (i + 1) = some o ∧ o.body = .pair .nil (.cell i) ∧
    o.reachesVector = true
  size : s.size = n + 1
  new : s.freePairs = []
  sources : s.sources = [0]
  unrestricted : s.acyclic = false
  memory : ∀ k, s.mem k = true
  array : s.gcCapacity = 0

/-- A state with another heap that agrees on the ring. -/
theorem Ring.congr {s' : Ctx} (h : Ring n last s) (hheap : s'.heap = s.heap) (hsize : s'.size = s.size)
    (hnew : s'.freePairs = s.freePairs) (hsources : s'.sources = s.sources)
    (hacyclic : s'.acyclic = s.acyclic) (hmem : s'.mem = s.mem)
    (harray : s'.gcCapacity = s.gcCapacity) : Ring n last s' where
  vector := hheap ▸ h.vector
  pair := hheap ▸ h.pair
  size := hsize.trans h.size
  new := hnew.trans h.new
  sources := hsources.trans h.sources
  unrestricted := hacyclic.trans h.unrestricted
  memory := hmem ▸ h.memory
  array := harray.trans h.array

theorem Ring.rcRetain (h : Ring n last s) (v : Ref) : Ring n last (s.rcRetain v) := by
  unfold Ctx.rcRetain
  split
  · exact h.congr rfl rfl rfl rfl rfl rfl rfl
  · exact h

/-- The cells of the ring are in use and reach a vector. -/
theorem Ring.reach (h : Ring n last s) {i : ℕ} (hi : i ≤ n) :
    s.mayReachVector (.cell i) = true := by
  cases i with
  | zero =>
    obtain ⟨o, ho, -, hr⟩ := h.vector
    simp [mayReachVector, ho, hr]
  | succ i =>
    obtain ⟨o, ho, -, hr⟩ := h.pair i (by omega)
    simp [mayReachVector, ho, hr]

theorem Ring.live (h : Ring n last s) {i : ℕ} (hi : i ≤ n) : s.live i := by
  intro hn
  have hr := h.reach hi
  rw [mayReachVector, hn] at hr
  cases hr

/-! ### Making it -/

/-- One more pair. -/
theorem Ring.cons (h : Ring n last s) (hn : n + 1 < addressCells) :
    (s.rcCons .nil (.cell n)).2 = .cell (n + 1) ∧ Ring (n + 1) last (s.rcCons .nil (.cell n)).1 := by
  have htake : s.takeCell .pair = (some (n + 1), { s.malloc.2 with size := n + 2 }) := by
    unfold takeCell
    have hmem : s.malloc.1 = true := h.memory s.tick
    have hroom : s.size < addressCells := by
      rw [h.size]
      exact hn
    rw [if_pos rfl, h.new]
    simp only [hmem, hroom, decide_true, Bool.and_self, if_true]
    rw [h.size]
  have hplace : s.allocate (.pair .nil (.cell n)) true 0 =
      ({ s.malloc.2 with size := n + 2 }.place (n + 1) (.pair .nil (.cell n)) true 0,
        .cell (n + 1)) := by
    unfold allocate
    rw [if_neg (by simp [sizeMax, valueCell]),
      show (Payload.pair .nil (.cell n)).type = .pair from rfl, htake]
  have hcons : s.rcCons .nil (.cell n) =
      ((({ s.malloc.2 with size := n + 2 }.place (n + 1) (.pair .nil (.cell n)) true 0).rcRetain
        .nil).rcRetain (.cell n), .cell (n + 1)) := by
    have hbelongs : (belongs .nil && belongs (.cell n)) = true := rfl
    have hreach : (s.mayReachVector .nil || s.mayReachVector (.cell n)) = true := by
      rw [h.reach le_rfl, Bool.or_true]
    unfold rcCons
    rw [if_pos hbelongs, hreach, hplace]
  rw [hcons]
  refine ⟨rfl, Ring.rcRetain (Ring.rcRetain ?_ _) _⟩
  have hkeep : ∀ i ≤ n, Function.update s.heap (n + 1)
      (some (fresh (.pair .nil (.cell n)) true)) i = s.heap i :=
    fun i hi => Function.update_of_ne (by omega) ..
  refine ⟨?_, fun i hi => ?_, rfl, h.new, h.sources, h.unrestricted, h.memory, h.array⟩
  · obtain ⟨o, ho, hrest⟩ := h.vector
    exact ⟨o, (hkeep 0 (Nat.zero_le _)).trans ho, hrest⟩
  · rcases Nat.lt_succ_iff_lt_or_eq.mp hi with hlt | rfl
    · obtain ⟨o, ho, hrest⟩ := h.pair i hlt
      exact ⟨o, (hkeep (i + 1) hlt).trans ho, hrest⟩
    · exact ⟨_, Function.update_self .., rfl, rfl⟩

/-- The list is stored in the vector. -/
theorem Ring.close (h : Ring n .nil s) :
    Ring n (.cell n) (s.rcVectorSet (.cell 0) 1 (.cell n)).1 := by
  obtain ⟨o, ho, hbody, hr⟩ := h.vector
  have hvector : s.asVector (.cell 0) = some (0, [.cell 0, .nil]) := by
    simp only [asVector, ho, hbody]
  have hquiet : (s.mayReachVector (.cell n) && (s.acyclic || decide (0 ∉ s.sources))) = false := by
    rw [h.unrestricted, h.sources]
    simp
  have hset : (s.rcVectorSet (.cell 0) 1 (.cell n)).1 = (s.rcRetain (.cell n)).modify 0 fun o =>
      { o with body := .vector [.cell 0, .cell n] } := by
    unfold rcVectorSet
    rw [hvector]
    simp only [List.getElem?_cons_succ, List.getElem?_cons_zero, hquiet]
    rfl
  rw [hset]
  have h' := h.rcRetain (.cell n)
  have ho' : (s.rcRetain (.cell n)).heap 0 = some o := by rw [rcRetain_heap, ho]
  generalize s.rcRetain (.cell n) = s₁ at h' ho' ⊢
  rw [show (s₁.modify 0 fun o => { o with body := .vector [.cell 0, .cell n] }) =
    s₁.put 0 { o with body := .vector [.cell 0, .cell n] } by unfold modify; rw [ho']]
  refine ⟨⟨{ o with body := .vector [.cell 0, .cell n] }, ?_, rfl, hr⟩, fun i hi => ?_, h'.size, h'.new,
    h'.sources, h'.unrestricted, h'.memory, h'.array⟩
  · exact Function.update_self 0 _ s₁.heap
  · obtain ⟨o', ho', hrest⟩ := h'.pair i hi
    exact ⟨o', by simpa [put] using ho', hrest⟩

/-! ### Collecting it -/

/-- The size that the work array of the collector gets first. -/
abbrev firstArray : ℕ := 1024

/-- The work array of the collector has the size it gets first, as long as that is enough. -/
def FirstArray (st : Ctx × GcScan) : Prop :=
  st.2.nodes.length ≤ firstArray → st.1.gcCapacity = if st.2.nodes.length = 0 then 0 else firstArray

theorem gcPush_refused {s : Ctx} {ok : ℕ → Bool} {k : ℕ} (h : ¬(s.gcPush ok k).2 = true) :
    (s.gcPush ok k).1.gcCapacity = s.gcCapacity := by
  unfold gcPush at h ⊢
  generalize (if s.gcCapacity = 0 then 1024 else s.gcCapacity * 2) = capacity at h ⊢
  dsimp only at h ⊢
  split_ifs at h ⊢
  · rfl
  · exact absurd rfl h
  · rfl
  · exact absurd rfl h

theorem gcPush_first {s : Ctx} {ok : ℕ → Bool} {k : ℕ} (h : (s.gcPush ok k).2 = true)
    (hk : k < firstArray) (hcap : s.gcCapacity = if k = 0 then 0 else firstArray) :
    (s.gcPush ok k).1.gcCapacity = firstArray := by
  rw [gcPush_eq] at h ⊢
  by_cases hzero : k = 0
  · rw [if_pos hzero] at hcap
    have hsize : ¬sizeMax / ptrBytes < firstArray := by simp [sizeMax, ptrBytes, firstArray]
    rw [hzero, hcap, if_pos rfl, if_pos rfl, if_neg hsize] at h ⊢
    split_ifs at h ⊢
    rfl
  · rw [if_neg hzero] at hcap
    rw [if_neg (by omega)]
    exact hcap

theorem FirstArray.edge {st : Ctx × GcScan} (h : FirstArray st) (v : Ref) :
    FirstArray (gcDiscoverEdge st v) := by
  cases v with
  | cell a =>
    unfold gcDiscoverEdge
    dsimp only
    split
    swap
    · exact h
    change FirstArray (listIf ((st.1.discovered a).gcPush st.1.scratch st.2.nodes.length) st.2 a)
    by_cases hok : ((st.1.discovered a).gcPush st.1.scratch st.2.nodes.length).2 = true
    · rw [listIf_true hok]
      intro hlen
      simp only [List.length_append, List.length_singleton] at hlen ⊢
      rw [if_neg (by omega)]
      exact gcPush_first hok (by omega) (h (by omega))
    · rw [listIf_false hok]
      intro hlen
      exact (gcPush_refused hok).trans (h hlen)
  | _ => exact h

theorem FirstArray.edges (vs : List Ref) : ∀ {st : Ctx × GcScan}, FirstArray st →
    FirstArray (vs.foldl gcDiscoverEdge st) := by
  induction vs with
  | nil => exact fun h => h
  | cons v vs ih => exact fun h => ih (h.edge v)

theorem FirstArray.sources (sources : List ℕ) : ∀ {st : Ctx × GcScan}, FirstArray st →
    FirstArray (discoverSources st sources) := by
  unfold discoverSources
  induction sources with
  | nil => exact fun h => h
  | cons a sources ih =>
    intro st h
    rw [List.foldl_cons]
    split
    · exact ih h
    · exact ih (h.edge _)

theorem FirstArray.loop (fuel : ℕ) : ∀ (i : ℕ) {st : Ctx × GcScan}, FirstArray st →
    FirstArray (discoverLoop fuel i st) := by
  induction fuel with
  | zero => exact fun _ _ h => h
  | succ fuel ih =>
    intro i st h
    unfold discoverLoop
    split
    · exact h
    · split
      · exact h
      · exact ih _ (h.edges _)

theorem FirstArray.discovery (h : s.gcCapacity = 0) : FirstArray s.discovery :=
  FirstArray.loop _ 0 (FirstArray.sources s.sources fun _ => h)

theorem trialDeletion_array (st : Ctx × GcScan) : (trialDeletion st).gcCapacity = st.1.gcCapacity := by
  have hfold : ∀ {α : Type} (f : Ctx → α → Ctx), (∀ m a, (f m a).gcCapacity = m.gcCapacity) →
      ∀ (l : List α) (m : Ctx), (l.foldl f m).gcCapacity = m.gcCapacity := fun f hf l => by
    induction l with
    | nil => exact fun _ => rfl
    | cons a l ih => exact fun m => (ih (f m a)).trans (hf m a)
  refine hfold _ (fun m a => hfold _ (fun m v => ?_) _ m) _ _
  unfold gcSubtractEdge
  split
  · split_ifs <;> rfl
  · rfl

/-- Discovery lists the ring. -/
theorem Ring.discovered {π : Policy} {O : Own} {P : Set Ref} (h : Ring n (.cell n) s)
    (hinv : Inv π s.calm O [] P) (hO : NonNeg O) : s.discovery.2.nodes.length = n + 1 := by
  obtain ⟨hst, hsources, hclosed⟩ := discover_spec hinv hO
  have hedge : ∀ i < n, s.HotEdge (i + 1) i := fun i hi => by
    obtain ⟨o, ho, hbody, -⟩ := h.pair i hi
    refine ⟨?_, h.reach hi.le⟩
    rw [Edge, edges, ho]
    simp only [Obj.edges, hbody, Option.map_some, Option.getD_some]
    split
    · split_ifs <;> simp
    · simp
  have hlast : s.HotEdge 0 n := by
    obtain ⟨o, ho, hbody, -⟩ := h.vector
    refine ⟨?_, h.reach le_rfl⟩
    rw [Edge, edges, ho]
    simp [Obj.edges, hbody]
  have hzero : 0 ∈ s.discovery.2.nodes := hsources 0 (by rw [h.sources]; simp)
  have hall : ∀ k ≤ n, n - k ∈ s.discovery.2.nodes := by
    intro k
    induction k with
    | zero => exact fun _ => hclosed 0 hzero n hlast
    | succ k ih =>
      intro hk
      have hstep := hedge (n - (k + 1)) (by omega)
      rw [show n - (k + 1) + 1 = n - k by omega] at hstep
      exact hclosed _ (ih (by omega)) _ hstep
  have hset : s.discovery.2.nodes.toFinset = Finset.range (n + 1) := by
    ext i
    rw [List.mem_toFinset, Finset.mem_range]
    constructor
    · intro hi
      have hb := hinv.bound i (hst.nodes i hi).1
      have hsize : s.calm.size = n + 1 := h.size
      omega
    · intro hi
      have hm := hall (n - i) (by omega)
      rwa [show n - (n - i) = i by omega] at hm
  rw [← List.toFinset_card_of_nodup hst.nodup, hset, Finset.card_range]

theorem markNode_full {k a : ℕ} {m : Ctx} (hfull : m.gcCapacity = k)
    (hrefused : ∀ i, m.marking i = false) :
    (∃ m', markNode k ((m, { nodes := [], failed := false }), false) a =
        ((m', { nodes := [], failed := true }), true)) ∨
      markNode k ((m, { nodes := [], failed := false }), false) a =
        ((m, { nodes := [], failed := false }), false) := by
  have hpush : (rootPush k m { nodes := [], failed := false } a).2 = false := by
    unfold rootPush gcPush mallocScratch
    generalize (if _ = 0 then 1024 else _ * 2) = capacity
    dsimp only
    rw [if_pos (show k + [].length = m.gcCapacity from hfull.symm)]
    split_ifs with hbig hok
    · rfl
    · rw [hrefused] at hok
      cases hok
    · rfl
  rw [markNode_false]
  by_cases hroot : (m.trial a ≠ 0 && !m.marked a) = true
  · rw [if_pos hroot, if_neg (by rw [hpush]; simp)]
    exact Or.inl ⟨_, rfl⟩
  · rw [if_neg hroot]
    exact Or.inr rfl

/-- If the work array is full and may not grow, marking puts nothing on its stack. -/
theorem markNodes_full {k : ℕ} {m : Ctx} (hfull : m.gcCapacity = k)
    (hrefused : ∀ i, m.marking i = false) (todo : List ℕ) :
    let r := todo.foldl (markNode k) ((m, { nodes := [], failed := false }), false)
    r.1.2.failed = true ∨ r.1.1 = m := by
  have hleft : ∀ (todo : List ℕ) (st : Ctx × GcScan), todo.foldl (markNode k) (st, true) = (st, true) :=
    fun todo st => by
      induction todo with
      | nil => rfl
      | cons a todo ih => exact ih
  induction todo with
  | nil => exact Or.inr rfl
  | cons a todo ih =>
    rw [List.foldl_cons]
    rcases markNode_full hfull hrefused (a := a) with ⟨m', h⟩ | h
    · rw [h, hleft]
      exact Or.inl rfl
    · rw [h]
      exact ih

/-- **The first root asks for more room** when the ring fills the work array: marking fails if it is
refused. -/
theorem Ring.marking_fails {π : Policy} {O : Own} {P : Set Ref} (h : Ring n (.cell n) s)
    (hinv : Inv π s.calm O [] P) (hO : NonNeg O) (hn : n + 1 = firstArray) (hown : 1 ≤ O (.cell 0))
    (hrefused : ∀ i, s.marking i = false) :
    s.discovery.2.failed = false ∧ (markingWalk s.discovery).2.failed = true := by
  obtain ⟨hd, -, -, htraced⟩ := trace_spec hinv hO
  refine ⟨hd, ?_⟩
  by_contra hf
  have ht := htraced (by simpa using hf)
  obtain ⟨hst, hsources, -⟩ := discover_spec hinv hO
  obtain ⟨htrial, -⟩ := trialDeletion_spec hinv hO hst
  have hlen := h.discovered hinv hO
  have hzero : 0 ∈ s.discovery.2.nodes := hsources 0 (by rw [h.sources]; simp)
  -- The root at cell 0 has a count from outside, so it would have been marked.
  have hmarked : (markingWalk s.discovery).1.marked 0 = true := by
    by_contra hm
    have hg := ht.garbage hinv hO (D := s.discovery.2.nodes.filter fun a =>
      !(markingWalk s.discovery).1.marked a) (hst.nodup.filter _) fun a => by simp
    have hfree := hg.own 0 (by simpa [hzero] using hm)
    omega
  have hfull : (trialDeletion s.discovery).gcCapacity = s.discovery.2.nodes.length := by
    have hfirst := FirstArray.discovery h.array
    rw [trialDeletion_array, hfirst (by omega), if_neg (by omega), hlen, hn]
  have hrefused' : ∀ i, (trialDeletion s.discovery).marking i = false := fun i => by
    rw [htrial.graph, hst.graph]
    exact hrefused i
  rcases markNodes_full hfull hrefused' s.discovery.2.nodes with hfail | hsame
  · exact hf hfail
  · change (markingWalk s.discovery).1 = _ at hsame
    rw [hsame, htrial.marked, (hst.fresh 0 hzero).1] at hmarked
    cases hmarked

end Ctx

namespace Config

open Ctx

/-- A vector that holds itself is a source, and a list is put on it. -/
def listOps (n : ℕ) : List Op :=
  [.vector 2, .vectorSet (.cell 0) 0 (.cell 0)] ++ (List.range n).map fun i => .cons .nil (.cell i)

/-- The context and the handles of a host that has made a list of `n` pairs. -/
def listMade (n : ℕ) : Ctx × List Ref :=
  perform (rcContextNew false (fun _ => true) (fun _ => true) (fun _ => true)) [] (listOps n)

/-- The host that has stored the list in the vector. -/
def ringHost (n : ℕ) : Config :=
  ⟨((listMade n).1.rcVectorSet (.cell 0) 1 (.cell n)).1, [.client (owns (listMade n).2)]⟩

theorem listOps_succ (n : ℕ) : listOps (n + 1) = listOps n ++ [.cons .nil (.cell n)] := by
  rw [listOps, listOps, List.range_succ, List.map_append, List.append_assoc]
  rfl

/-- The host with the list, and what it owns. -/
theorem listMade_ring (n : ℕ) (hn : n < addressCells) : Ring n .nil (listMade n).1 ∧
    .cell 0 ∈ (listMade n).2 ∧
    permitted (rcContextNew false (fun _ => true) (fun _ => true) (fun _ => true)) [] (listOps n) =
      true := by
  induction n with
  | zero =>
    have hheap : (listMade 0).1.heap 0 =
        some (fresh (.vector [.cell 0, .nil]) true) := by decide +kernel
    refine ⟨⟨⟨_, hheap, rfl, rfl⟩, fun i hi => absurd hi (by omega), ?_, ?_, ?_, ?_, fun _ => ?_, ?_⟩,
      ?_, ?_⟩
    · decide +kernel
    · decide +kernel
    · decide +kernel
    · decide +kernel
    · rfl
    · decide +kernel
    · decide +kernel
    · decide +kernel
  | succ n ih =>
    obtain ⟨hring, hown, hp⟩ := ih (by omega)
    obtain ⟨hcell, hnext⟩ := hring.cons hn
    have hmade : listMade (n + 1) = ((listMade n).1.rcCons .nil (.cell n) |>.1,
        (listMade n).2 ++ [.cell (n + 1)]) := by
      rw [listMade, listOps_succ, perform_append]
      change (((listMade n).1.rcCons .nil (.cell n)).1,
        (listMade n).2.diff [] ++ [((listMade n).1.rcCons .nil (.cell n)).2]) = _
      rw [hcell, List.diff_nil]
    rw [hmade]
    refine ⟨hnext, List.mem_append_left _ hown, ?_⟩
    rw [listOps_succ, permitted_append, hp, Bool.true_and]
    have hlive : inUse (listMade n).1 (.cell n) = true := decide_eq_true (hring.live le_rfl)
    change (true && (inUse (listMade n).1 .nil && (inUse (listMade n).1 (.cell n) && true)) &&
      ([] : List Ref).isSubperm (listMade n).2 && true) = true
    rw [hlive]
    simp [inUse, List.isSubperm_iff]

/-- **The host with the ring** is a run. -/
theorem ringHost_reachable (n : ℕ) (hn : n < addressCells) :
    Reachable false (fun _ => true) (fun _ => true) (fun _ => true) (ringHost n) ∧
      Ring n (.cell n) (ringHost n).ctx ∧ 1 ≤ (ringHost n).own (.cell 0) := by
  obtain ⟨hring, hown, hp⟩ := listMade_ring n hn
  have hrun : Reachable false (fun _ => true) (fun _ => true) (fun _ => true)
      ⟨(perform (listMade n).1 (listMade n).2 [.vectorSet (.cell 0) 1 (.cell n)]).1,
        [.client (owns (perform (listMade n).1 (listMade n).2
          [.vectorSet (.cell 0) 1 (.cell n)]).2)]⟩ :=
    perform_reachable _ (host_reachable _ hp) (by
      have hlast : inUse (listMade n).1 (.cell n) = true := decide_eq_true (hring.live le_rfl)
      have hfirst : inUse (listMade n).1 (.cell 0) = true :=
        decide_eq_true (hring.live (Nat.zero_le n))
      change (true && (inUse (listMade n).1 (.cell 0) && (inUse (listMade n).1 (.cell n) && true)) &&
        ([] : List Ref).isSubperm (listMade n).2 && true) = true
      rw [hfirst, hlast]
      simp [List.isSubperm_iff])
  refine ⟨?_, hring.close, ?_⟩
  · change Reachable _ _ _ _ ⟨_, [.client (owns ((listMade n).2.diff [] ++ []))]⟩ at hrun
    rw [List.diff_nil, List.append_nil] at hrun
    exact hrun
  · change 1 ≤ (owns (listMade n).2 + 0) (.cell 0)
    rw [add_zero]
    exact owns_pos hown

end Config

end ShenRc.Runtime
