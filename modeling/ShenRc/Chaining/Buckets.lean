import Mathlib.Data.List.Nodup
import Mathlib.Logic.Function.Basic

/-! # Tables with chains

A table of buckets, each the head of a chain of nodes; a node has the next one of its chain in a
field. `Filed` says which nodes the chains are made of: every node is in the chain of its bucket, once.
A walk along a chain then ends (`Chain.walk`), a node is put in front of its chain (`Filed.push`),
and the nodes of a table can be moved to the buckets of another one without any room for them
(`rehash_spec`), since only the nodes that have been moved have a new next one. -/

namespace ShenRc.Chaining

variable {ν : Type*} {next next' : ν → Option ν} {head : Option ν} {v : ν} {vs : List ν}

/-- The nodes of a chain, from its head on. -/
def Chain (next : ν → Option ν) : Option ν → List ν → Prop
  | head, [] => head = none
  | head, v :: vs => head = some v ∧ Chain next (next v) vs

/-- Only the fields of its nodes matter for a chain. -/
theorem Chain.congr (h : Chain next head vs) (heq : ∀ v ∈ vs, next' v = next v) :
    Chain next' head vs := by
  induction vs generalizing head with
  | nil => exact h
  | cons v vs ih =>
    refine ⟨h.1, ?_⟩
    rw [heq v List.mem_cons_self]
    exact ih h.2 fun u hu => heq u (List.mem_cons_of_mem v hu)

/-- The walk along a chain up to a node where it stops. A longer walk than `fuel` has no result. -/
def walk (stop : ν → Bool) (next : ν → Option ν) : ℕ → Option ν → Option (Option ν)
  | _, none => some none
  | 0, some _ => none
  | fuel + 1, some v => if stop v then some (some v) else walk stop next fuel (next v)

/-- **A walk ends** at the first node where it stops, or at the end of the chain. -/
theorem Chain.walk (h : Chain next head vs) (stop : ν → Bool) {fuel : ℕ} (hfuel : vs.length ≤ fuel) :
    walk stop next fuel head = some (vs.find? stop) := by
  induction vs generalizing head fuel with
  | nil =>
    rw [h, Chaining.walk]
    rfl
  | cons v vs ih =>
    obtain ⟨rfl, hrest⟩ := h
    rcases fuel with _ | fuel
    · simp at hfuel
    · rw [Chaining.walk, ih hrest (by simpa using hfuel), List.find?_cons]
      rcases stop v with _ | _
      · rfl
      · rfl

variable {bucket : ν → ℕ} {m fuel : ℕ} {heads : ℕ → Option ν} {chains : ℕ → List ν}

/-- **The table** and the nodes of its chains. -/
structure Filed (bucket : ν → ℕ) (m : ℕ) (heads : ℕ → Option ν) (next : ν → Option ν)
    (chains : ℕ → List ν) : Prop where
  chain : ∀ i < m, Chain next (heads i) (chains i)
  nodup : ∀ i < m, (chains i).Nodup
  bucket : ∀ i < m, ∀ v ∈ chains i, bucket v = i

theorem Filed.empty (bucket : ν → ℕ) (m : ℕ) (next : ν → Option ν) :
    Filed bucket m (fun _ => none) next fun _ => [] where
  chain _ _ := rfl
  nodup _ _ := List.nodup_nil
  bucket _ _ _ hv := by cases hv

/-- Only the buckets of its nodes matter for a table. -/
theorem Filed.congr (bucket' : ν → ℕ) (h : Filed bucket m heads next chains)
    (heq : ∀ i < m, ∀ v ∈ chains i, bucket' v = bucket v) : Filed bucket' m heads next chains where
  chain := h.chain
  nodup := h.nodup
  bucket i hi v hv := (heq i hi v hv).trans (h.bucket i hi v hv)

/-- The nodes after a push. -/
theorem mem_push (bucket : ν → ℕ) (chains : ℕ → List ν) (v u : ν) :
    u ∈ Function.update chains (bucket v) (v :: chains (bucket v)) (bucket u) ↔
      u = v ∨ u ∈ chains (bucket u) := by
  rcases eq_or_ne (bucket u) (bucket v) with heq | hne
  · rw [heq, Function.update_self, List.mem_cons]
  · rw [Function.update_of_ne hne]
    refine ⟨Or.inr, fun hu => hu.resolve_left ?_⟩
    rintro rfl
    exact hne rfl

variable [DecidableEq ν]

/-- **A node goes in front of the chain of its bucket.** -/
theorem Filed.push (h : Filed bucket m heads next chains) (hv : bucket v < m)
    (hnew : v ∉ chains (bucket v)) :
    Filed bucket m (Function.update heads (bucket v) (some v))
      (Function.update next v (heads (bucket v)))
      (Function.update chains (bucket v) (v :: chains (bucket v))) := by
  have hold : ∀ i < m, v ∉ chains i := by
    intro i hi hmem
    exact hnew (h.bucket i hi v hmem ▸ hmem)
  have hframe : ∀ i < m, ∀ u ∈ chains i,
      Function.update next v (heads (bucket v)) u = next u := by
    intro i hi u hu
    rw [Function.update_of_ne]
    rintro rfl
    exact hold i hi hu
  refine ⟨fun i hi => ?_, fun i hi => ?_, fun i hi u hu => ?_⟩
  · rcases eq_or_ne i (bucket v) with rfl | hne
    · rw [Function.update_self, Function.update_self]
      refine ⟨rfl, ?_⟩
      rw [Function.update_self]
      exact (h.chain _ hi).congr (hframe _ hi)
    · rw [Function.update_of_ne hne, Function.update_of_ne hne]
      exact (h.chain i hi).congr (hframe i hi)
  · rcases eq_or_ne i (bucket v) with rfl | hne
    · rw [Function.update_self]
      exact List.nodup_cons.mpr ⟨hnew, h.nodup _ hi⟩
    · rw [Function.update_of_ne hne]
      exact h.nodup i hi
  · rcases eq_or_ne i (bucket v) with rfl | hne
    · rw [Function.update_self] at hu
      rcases List.mem_cons.mp hu with rfl | hu
      · rfl
      · exact h.bucket _ hi u hu
    · rw [Function.update_of_ne hne] at hu
      exact h.bucket i hi u hu

/-- The loop that moves the nodes of a chain to the front of the chains of another table. -/
def move (bucket : ν → ℕ) : ℕ → Option ν → (ℕ → Option ν) → (ν → Option ν) →
    Option ((ℕ → Option ν) × (ν → Option ν))
  | _, none, heads, next => some (heads, next)
  | 0, some _, _, _ => none
  | fuel + 1, some v, heads, next =>
    move bucket fuel (next v) (Function.update heads (bucket v) (some v))
      (Function.update next v (heads (bucket v)))

/-- **A chain has been moved.** -/
theorem move_spec (h : Filed bucket m heads next chains) (hchain : Chain next head vs)
    (hvs : vs.Nodup) (hnew : ∀ v ∈ vs, bucket v < m ∧ v ∉ chains (bucket v))
    (hfuel : vs.length ≤ fuel) :
    ∃ heads' next' chains', move bucket fuel head heads next = some (heads', next') ∧
      Filed bucket m heads' next' chains' ∧
      (∀ u, u ∈ chains' (bucket u) ↔ u ∈ vs ∨ u ∈ chains (bucket u)) ∧
      ∀ u ∉ vs, next' u = next u := by
  induction vs generalizing head heads next chains fuel with
  | nil =>
    have hnone : head = none := hchain
    subst hnone
    exact ⟨heads, next, chains, by rw [move], h, by simp, fun _ _ => rfl⟩
  | cons v vs ih =>
    obtain ⟨rfl, hrest⟩ := hchain
    rw [List.nodup_cons] at hvs
    rcases fuel with _ | fuel
    · simp at hfuel
    obtain ⟨hv, hfresh⟩ := hnew v List.mem_cons_self
    have hne : ∀ u ∈ vs, u ≠ v := fun u hu huv => hvs.1 (huv ▸ hu)
    obtain ⟨heads', next', chains', hmove, hfiled, hmem, hframe⟩ := ih (h.push hv hfresh)
      (hrest.congr fun u hu => Function.update_of_ne (hne u hu) ..) hvs.2
      (fun u hu => ⟨(hnew u (List.mem_cons_of_mem v hu)).1, fun hin =>
        ((mem_push ..).mp hin).elim (hne u hu) (hnew u (List.mem_cons_of_mem v hu)).2⟩)
      (by simpa using hfuel)
    refine ⟨heads', next', chains', by rw [move]; exact hmove, hfiled, fun u => ?_, fun u hu => ?_⟩
    · rw [hmem, mem_push, List.mem_cons]
      tauto
    · rw [List.mem_cons, not_or] at hu
      rw [hframe u hu.2, Function.update_of_ne hu.1]

/-- The loop over the buckets of a table that moves every chain to another one. -/
def rehash (bucket : ν → ℕ) (fuel : ℕ) (old : ℕ → Option ν) : List ℕ → (ℕ → Option ν) →
    (ν → Option ν) → Option ((ℕ → Option ν) × (ν → Option ν))
  | [], heads, next => some (heads, next)
  | i :: is, heads, next =>
    (move bucket fuel (old i) heads next).bind fun r => rehash bucket fuel old is r.1 r.2

/-- **All nodes have been moved.** -/
theorem rehash_spec {old : ℕ → Option ν} {olds : ℕ → List ν} (fuel : ℕ) (is : List ℕ)
    (h : Filed bucket m heads next chains) (hchain : ∀ i ∈ is, Chain next (old i) (olds i))
    (hnodup : ∀ i ∈ is, (olds i).Nodup) (hfuel : ∀ i ∈ is, (olds i).length ≤ fuel)
    (hdisjoint : is.Pairwise fun i j => ∀ v ∈ olds i, v ∉ olds j)
    (hnew : ∀ i ∈ is, ∀ v ∈ olds i, bucket v < m ∧ v ∉ chains (bucket v)) :
    ∃ heads' next' chains', rehash bucket fuel old is heads next = some (heads', next') ∧
      Filed bucket m heads' next' chains' ∧
      ∀ u, u ∈ chains' (bucket u) ↔ (∃ i ∈ is, u ∈ olds i) ∨ u ∈ chains (bucket u) := by
  induction is generalizing heads next chains with
  | nil => exact ⟨heads, next, chains, rfl, h, by simp⟩
  | cons i is ih =>
    rw [List.pairwise_cons] at hdisjoint
    have hself := List.mem_cons_self (a := i) (l := is)
    obtain ⟨heads₁, next₁, chains₁, hmove, hfiled₁, hmem₁, hframe⟩ :=
      move_spec h (hchain i hself) (hnodup i hself) (hnew i hself) (hfuel i hself)
    obtain ⟨heads', next', chains', hrest, hfiled, hmem⟩ := ih hfiled₁
      (fun j hj => (hchain j (List.mem_cons_of_mem i hj)).congr fun u hu =>
        hframe u fun hui => hdisjoint.1 j hj u hui hu)
      (fun j hj => hnodup j (List.mem_cons_of_mem i hj))
      (fun j hj => hfuel j (List.mem_cons_of_mem i hj)) hdisjoint.2
      (fun j hj u hu => by
        obtain ⟨hlt, hnot⟩ := hnew j (List.mem_cons_of_mem i hj) u hu
        exact ⟨hlt, fun hin => ((hmem₁ u).mp hin).elim (fun hui => hdisjoint.1 j hj u hui hu) hnot⟩)
    refine ⟨heads', next', chains', by rw [rehash, hmove]; exact hrest, hfiled, fun u => ?_⟩
    rw [hmem, hmem₁, List.exists_mem_cons_iff, or_left_comm, or_assoc]

end ShenRc.Chaining
