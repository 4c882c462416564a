import ShenRc.Probing.Slots
import ShenRc.Runtime.SymbolTable

/-! # The set of shared closures

A closure that captures only immortal values can be replaced by one immortal closure for all that have
the same code and captures. The set of these is a table with linear probing whose entries are
compared by what they contain. `Shared` says that it finds its entries and has no two that are the
same; it holds after any sequence of calls, whatever else happens to other cells, so that a handle
stands for what the closure contains (`interning_canonical`). -/

namespace ShenRc.Runtime

open ShenRc.Probing

/-- What `static_closure_same` compares. -/
structure StaticKey where
  native : Option ℕ
  ownedNative : Option ℕ
  arity : ℕ
  returnsSecond : Bool
  captures : List Ref
  deriving DecidableEq

/-- The set, the cells and their counts. -/
structure StaticTable where
  capacity : ℕ := 0
  slots : ℕ → Option ℕ := fun _ => none
  count : ℕ := 0
  heap : ℕ → Option Obj := fun _ => none
  refs : Ref → ℕ := fun _ => 0

namespace StaticTable

section Table

variable (pointer : Ref → BitVec 64) (code : Option ℕ → BitVec 64)

/-- `static_closure_hash`; `pointer` and `code` are the addresses of values and of callbacks. -/
def staticClosureHash (k : StaticKey) : ℕ :=
  let h := code k.native * 0x9e3779b97f4a7c15
  let h := h ^^^ code k.ownedNative * 0xbf58476d1ce4e5b9
  let h := h ^^^ (BitVec.ofNat 64 k.arity <<< 1 ||| BitVec.ofNat 64 k.returnsSecond.toNat) *
    0x94d049bb133111eb
  let h := k.captures.foldl (fun h capture => (h ^^^ pointer capture) * 0x100000001b3) h
  (h ^^^ h >>> 29).toNat

/-- `static_closure_same`. -/
def staticClosureSame (a b : StaticKey) : Bool :=
  a.native == b.native && a.ownedNative == b.ownedNative && a.arity == b.arity &&
    a.returnsSecond == b.returnsSecond && a.captures == b.captures

/-- What the closure in a cell contains. -/
def keyOf (t : StaticTable) (a : ℕ) : Option StaticKey :=
  (t.heap a).bind fun o =>
    match o.body with
    | .closure c => some ⟨c.native, c.ownedNative, c.arity, o.returnsSecond, c.captures⟩
    | _ => none

/-- The number of bound arguments of the closure in a cell. -/
def boundCount (t : StaticTable) (a : ℕ) : ℕ :=
  (t.heap a).elim 0 fun o =>
    match o.body with
    | .closure c => c.bound.length
    | _ => 0

/-- `is_counted`. -/
def isCounted (t : StaticTable) : Ref → Bool
  | .cell a => t.refs (.cell a) != immortal
  | .foreign type k => t.refs (.foreign type k) != immortal
  | _ => false

/-- The first checks of `rc_closure_static`: the cell of the closure and what it contains, unless the
value is returned as it is. -/
def eligible (t : StaticTable) (v : Ref) : Option (ℕ × StaticKey) :=
  match v with
  | .cell a =>
    (t.keyOf a).bind fun k =>
      if !t.isCounted v || t.boundCount a != 0 || k.captures.any t.isCounted then none
      else some (a, k)
  | _ => none

/-- The size of the table that a growth asks for. -/
def grownCapacity (t : StaticTable) : ℕ := if t.capacity = 0 then 256 else t.capacity * 2

/-- `grow_static_closures`; `room` says whether `calloc` has room. -/
def growStaticClosures (t : StaticTable) (room : Bool) : Option (StaticTable × Bool) :=
  if sizeMax / ptrBytes < t.grownCapacity then some (t, false)
  else if room then
    (rehash (fun a => ((t.keyOf a).map (staticClosureHash pointer code)).getD 0) t.grownCapacity
      (entries t.capacity t.slots) fun _ => none).map fun slots =>
        ({ t with slots, capacity := t.grownCapacity }, true)
  else some (t, false)

/-- The growth in `rc_closure_static`, if one is due. -/
def roomForClosure (t : StaticTable) (room : Bool) : Option (StaticTable × Bool) :=
  if t.capacity / 2 ≤ t.count then growStaticClosures pointer code t room else some (t, true)

/-- The search in `rc_closure_static`. -/
def findClosure (t : StaticTable) (k : StaticKey) : Option ℕ :=
  findSlot (fun b => (t.keyOf b).any fun l => staticClosureSame l k) t.capacity t.slots
    (staticClosureHash pointer code k)

/-- The end of `rc_closure_static`: the closure in the cell `a` becomes immortal. -/
def addClosure (t : StaticTable) (j a : ℕ) : StaticTable :=
  { t with
    slots := Function.update t.slots j (some a)
    count := t.count + 1
    refs := Function.update t.refs (.cell a) immortal }

/-- `rc_closure_static`. The reference to a closure that is replaced is given up; what else that does
is left to the rest of the program. -/
def rcClosureStatic (t : StaticTable) (v : Ref) (room : Bool) : Option (StaticTable × Ref) :=
  match t.eligible v with
  | none => some (t, v)
  | some (a, k) =>
    (roomForClosure pointer code t room).bind fun grown =>
      if grown.2 then
        (findClosure pointer code grown.1 k).map fun j =>
          match grown.1.slots j with
          | some found => (grown.1, .cell found)
          | none => (grown.1.addClosure j a, v)
      else some (grown.1, v)

/-- The cell is that of a shared closure. -/
def registered (t : StaticTable) (a : ℕ) : Bool :=
  (List.range t.capacity).any fun i => t.slots i == some a

/-- The rest of the program does anything with the other cells; shared closures are not freed and
their code and captures do not change. -/
def world (t : StaticTable) (heap : ℕ → Option Obj) (refs : Ref → ℕ) : StaticTable :=
  { t with
    heap := fun a => if t.registered a then t.heap a else heap a
    refs := fun r =>
      match r with
      | .cell a => if t.registered a then t.refs (.cell a) else refs (.cell a)
      | r => refs r }

/-- Whether storage is available. -/
def available (t : StaticTable) (room : Bool) : Bool :=
  decide (t.count < t.capacity / 2) || (decide (t.grownCapacity ≤ sizeMax / ptrBytes) && room)

/-- What happens in a run. -/
inductive Op
  | world (heap : ℕ → Option Obj) (refs : Ref → ℕ)
  | share (v : Ref) (room : Bool)

/-- A run: the table, and the calls for an eligible closure with storage available, each with what the
closure contained and what was returned. -/
def run : List Op → StaticTable → Option (StaticTable × List (StaticKey × Ref))
  | [], t => some (t, [])
  | .world heap refs :: ops, t => run ops (t.world heap refs)
  | .share v room :: ops, t =>
    (rcClosureStatic pointer code t v room).bind fun r =>
      (run ops r.1).map fun rest =>
        (rest.1, match t.eligible v with
          | some (_, k) => if t.available room then (k, r.2) :: rest.2 else rest.2
          | none => rest.2)

end Table

/-! ### No two entries are the same -/

variable {pointer : Ref → BitVec 64} {code : Option ℕ → BitVec 64} {t : StaticTable}

/-- **What the table is.** -/
structure Shared (pointer : Ref → BitVec 64) (code : Option ℕ → BitVec 64) (t : StaticTable) :
    Prop where
  capacity : t.capacity = 0 ∨ ∃ k, t.capacity = 2 ^ k
  linked : Linked t.keyOf (staticClosureHash pointer code) t.capacity t.slots
  entry : ∀ i < t.capacity, ∀ a, t.slots i = some a →
    t.keyOf a ≠ none ∧ t.refs (.cell a) = immortal
  count : t.count = used t.capacity t.slots
  half : 2 * t.count ≤ t.capacity

/-- A shared closure and what it contains. -/
def Registered (t : StaticTable) (a : ℕ) (k : StaticKey) : Prop :=
  (∃ i < t.capacity, t.slots i = some a) ∧ t.keyOf a = some k

theorem shared_empty (pointer : Ref → BitVec 64) (code : Option ℕ → BitVec 64) :
    Shared pointer code {} where
  capacity := Or.inl rfl
  linked := .empty _ _ _
  entry i hi := absurd hi (Nat.not_lt_zero i)
  count := by simp
  half := Nat.le_refl 0

theorem staticClosureSame_iff {a b : StaticKey} : staticClosureSame a b = true ↔ a = b := by
  obtain ⟨native, owned, arity, second, captures⟩ := a
  obtain ⟨native', owned', arity', second', captures'⟩ := b
  simp only [staticClosureSame, Bool.and_eq_true, beq_iff_eq, StaticKey.mk.injEq]
  tauto

theorem stop_eq (t : StaticTable) (k : StaticKey) :
    (fun b => (t.keyOf b).any fun l => staticClosureSame l k) = fun b => t.keyOf b == some k := by
  funext b
  rw [Bool.eq_iff_iff, beq_iff_eq]
  rcases t.keyOf b with _ | l
  · simp
  · simp [staticClosureSame_iff]

theorem registered_iff {a : ℕ} : t.registered a = true ↔ ∃ i < t.capacity, t.slots i = some a := by
  simp [registered]

theorem eligible_eq {v : Ref} {a : ℕ} {k : StaticKey} (h : t.eligible v = some (a, k)) :
    v = .cell a ∧ t.keyOf a = some k := by
  rcases v with _ | _ | n | b | ⟨type, n⟩
  · cases h
  · cases h
  · cases h
  · rw [eligible, Option.bind_eq_some_iff] at h
    obtain ⟨l, hl, hif⟩ := h
    split_ifs at hif with hc
    cases hif
    exact ⟨rfl, hl⟩
  · cases h

namespace Shared

theorem half' (h : Shared pointer code t) : 2 * used t.capacity t.slots ≤ t.capacity :=
  h.count ▸ h.half

/-- **The search ends**, at the closure with that contents if there is one. -/
theorem findClosure (h : Shared pointer code t) (hpos : 0 < t.capacity) (k : StaticKey) :
    ∃ j < t.capacity, findClosure pointer code t k = some j ∧
      ((∃ b, t.slots j = some b ∧ t.keyOf b = some k) ∨
        t.slots j = none ∧ ¬Holds t.keyOf t.capacity t.slots k ∧
          ∃ d < t.capacity, (staticClosureHash pointer code k + d) % t.capacity = j ∧
            ∀ e < d, t.slots ((staticClosureHash pointer code k + e) % t.capacity) ≠ none) := by
  have hhalf := h.half'
  obtain ⟨j, hj, hfind, hrest⟩ := h.linked.find (exists_free (by omega)) k
  obtain hzero | ⟨n, hn⟩ := h.capacity
  · omega
  refine ⟨j, hj, ?_, hrest⟩
  rw [StaticTable.findClosure, stop_eq, hn, findSlot_eq, ← hn]
  exact hfind

/-- **Handles and contents correspond.** -/
theorem registered_inj (h : Shared pointer code t) {a b : ℕ} {k l : StaticKey}
    (ha : Registered t a k) (hb : Registered t b l) : a = b ↔ k = l := by
  obtain ⟨⟨i, hi, hia⟩, hka⟩ := ha
  obtain ⟨⟨j, hj, hjb⟩, hlb⟩ := hb
  refine ⟨fun hab => ?_, fun hkl => ?_⟩
  · rw [hab, hlb] at hka
    exact (Option.some.inj hka).symm
  · have hij := h.linked.unique i hi j hj a b k hia hjb hka (hkl ▸ hlb)
    rw [hij, hjb] at hia
    exact (Option.some.inj hia).symm

/-- **A growth** keeps the entries, or the table as it was. -/
theorem growStaticClosures (h : Shared pointer code t) (room : Bool) :
    ∃ t', growStaticClosures pointer code t room =
        some (t', decide (t.grownCapacity ≤ sizeMax / ptrBytes) && room) ∧
      Shared pointer code t' ∧ t'.heap = t.heap ∧ t'.refs = t.refs ∧
      (∀ a k, Registered t' a k ↔ Registered t a k) ∧
      ((decide (t.grownCapacity ≤ sizeMax / ptrBytes) && room) = true →
        2 * (t'.count + 1) ≤ t'.capacity) := by
  rw [StaticTable.growStaticClosures]
  by_cases hbig : sizeMax / ptrBytes < t.grownCapacity
  · have hno : decide (t.grownCapacity ≤ sizeMax / ptrBytes) = false :=
      decide_eq_false (Nat.not_le.mpr hbig)
    rw [if_pos hbig, hno]
    exact ⟨t, rfl, h, rfl, rfl, fun _ _ => Iff.rfl, fun hf => by cases hf⟩
  have hyes : decide (t.grownCapacity ≤ sizeMax / ptrBytes) = true :=
    decide_eq_true (Nat.not_lt.mp hbig)
  rw [if_neg hbig, hyes, Bool.true_and]
  rcases room with _ | _
  · exact ⟨t, rfl, h, rfl, rfl, fun _ _ => Iff.rfl, fun hf => by cases hf⟩
  have hcount := h.count
  have hhalf := h.half
  obtain ⟨k, hk, hlt⟩ : ∃ k, t.grownCapacity = 2 ^ k ∧ 2 * (t.count + 1) ≤ 2 ^ k := by
    obtain hzero | ⟨k, hk⟩ := h.capacity
    · exact ⟨8, by simp [grownCapacity, hzero], by omega⟩
    · have hpos := Nat.two_pow_pos k
      refine ⟨k + 1, by rw [grownCapacity, if_neg (by omega), hk, pow_succ], ?_⟩
      rw [pow_succ]
      omega
  obtain ⟨slots', hfill, hlinked, hused, hmem⟩ := fill_spec
    (fun a => ((t.keyOf a).map (staticClosureHash pointer code)).getD 0)
    (entries t.capacity t.slots)
    (Linked.empty t.keyOf (staticClosureHash pointer code) (2 ^ k))
    (by rw [used_empty, length_entries, ← hcount]; omega)
    (fun a ha => by
      obtain ⟨i, hi, hia⟩ := mem_entries.mp ha
      obtain ⟨l, hl⟩ := Option.ne_none_iff_exists'.mp (h.entry i hi a hia).1
      exact ⟨l, hl, by rw [hl]; rfl, by rintro ⟨j, -, b, hb, -⟩; cases hb⟩)
    (entries_distinct h.linked.unique fun i hi a hia => (h.entry i hi a hia).1)
  rw [used_empty, length_entries, Nat.zero_add] at hused
  have hmem' : ∀ a, (∃ i < 2 ^ k, slots' i = some a) ↔ ∃ i < t.capacity, t.slots i = some a := by
    intro a
    rw [hmem, mem_entries]
    simp
  rw [if_pos rfl, hk, rehash_eq, hfill]
  refine ⟨_, rfl, ⟨Or.inr ⟨k, rfl⟩, hlinked, fun i hi a hia => ?_, hcount.trans hused.symm, ?_⟩,
    rfl, rfl, fun a l => and_congr_left fun _ => hmem' a, fun _ => hlt⟩
  · obtain ⟨j, hj, hja⟩ := (hmem' a).mp ⟨i, hi, hia⟩
    exact h.entry j hj a hja
  · change 2 * t.count ≤ 2 ^ k
    omega

/-- **Room for one more closure**, or the table as it was. -/
theorem roomForClosure (h : Shared pointer code t) (room : Bool) :
    ∃ t', roomForClosure pointer code t room = some (t', t.available room) ∧
      Shared pointer code t' ∧ t'.heap = t.heap ∧ t'.refs = t.refs ∧
      (∀ a k, Registered t' a k ↔ Registered t a k) ∧
      (t.available room = true → 2 * (t'.count + 1) ≤ t'.capacity) := by
  rw [StaticTable.roomForClosure, available]
  by_cases hdue : t.capacity / 2 ≤ t.count
  · have hno : decide (t.count < t.capacity / 2) = false := decide_eq_false (Nat.not_lt.mpr hdue)
    rw [if_pos hdue, hno, Bool.false_or]
    exact h.growStaticClosures room
  · have hyes : decide (t.count < t.capacity / 2) = true := decide_eq_true (Nat.not_le.mp hdue)
    rw [if_neg hdue, hyes, Bool.true_or]
    exact ⟨t, rfl, h, rfl, rfl, fun _ _ => Iff.rfl, fun _ => by omega⟩

/-- **What else happens** leaves the set as it is. -/
theorem world (h : Shared pointer code t) (heap : ℕ → Option Obj) (refs : Ref → ℕ) :
    Shared pointer code (t.world heap refs) ∧
      ∀ a k, Registered (t.world heap refs) a k ↔ Registered t a k := by
  have hkey : ∀ i < t.capacity, ∀ a, t.slots i = some a →
      (t.world heap refs).keyOf a = t.keyOf a := by
    intro i hi a hia
    have hreg : t.registered a = true := registered_iff.mpr ⟨i, hi, hia⟩
    simp only [keyOf, StaticTable.world, hreg, if_true]
  refine ⟨⟨h.capacity, h.linked.congr hkey, fun i hi a hia => ?_, h.count, h.half⟩, fun a k => ?_⟩
  · have hreg : t.registered a = true := registered_iff.mpr ⟨i, hi, hia⟩
    rw [hkey i hi a hia]
    refine ⟨(h.entry i hi a hia).1, ?_⟩
    simp only [StaticTable.world, hreg, if_true]
    exact (h.entry i hi a hia).2
  · refine and_congr_right fun ⟨i, hi, hia⟩ => ?_
    rw [hkey i hi a hia]

/-- **A new entry** at the free slot where the search for its contents ended. -/
theorem addClosure (h : Shared pointer code t) (hroom : 2 * (t.count + 1) ≤ t.capacity) {a : ℕ}
    {k : StaticKey} (hk : t.keyOf a = some k) (hnew : ¬Holds t.keyOf t.capacity t.slots k) {d j : ℕ}
    (hd : d < t.capacity) (hj : (staticClosureHash pointer code k + d) % t.capacity = j)
    (hfree : t.slots j = none)
    (hbefore : ∀ e < d, t.slots ((staticClosureHash pointer code k + e) % t.capacity) ≠ none) :
    Shared pointer code (t.addClosure j a) ∧ Registered (t.addClosure j a) a k ∧
      ∀ b l, Registered t b l → Registered (t.addClosure j a) b l := by
  subst hj
  have hlt : (staticClosureHash pointer code k + d) % t.capacity < t.capacity :=
    Nat.mod_lt _ (by omega)
  refine ⟨⟨h.capacity, h.linked.insert hk hnew hd hbefore, fun i hi b hb => ?_, ?_, hroom⟩,
    ⟨⟨_, hlt, Function.update_self ..⟩, hk⟩, fun b l ⟨⟨i, hi, hib⟩, hl⟩ => ⟨⟨i, hi, ?_⟩, hl⟩⟩
  · change Function.update t.slots _ (some a) i = some b at hb
    change t.keyOf b ≠ none ∧ Function.update t.refs (.cell a) immortal (.cell b) = immortal
    rcases eq_or_ne i ((staticClosureHash pointer code k + d) % t.capacity) with rfl | hne
    · rw [Function.update_self] at hb
      cases hb
      exact ⟨by rw [hk]; exact Option.some_ne_none k, Function.update_self ..⟩
    · rw [Function.update_of_ne hne] at hb
      obtain ⟨hkb, himm⟩ := h.entry i hi b hb
      refine ⟨hkb, ?_⟩
      rcases eq_or_ne b a with rfl | hba
      · exact Function.update_self ..
      · rw [Function.update_of_ne (by simpa using hba), himm]
  · change t.count + 1 = used t.capacity (Function.update t.slots _ (some a))
    rw [used_update_free hlt hfree, ← h.count]
  · change Function.update t.slots _ (some a) i = some b
    rw [Function.update_of_ne]
    · exact hib
    · rintro rfl
      rw [hfree] at hib
      cases hib

/-- **An eligible closure for which there is room** is replaced by the shared one with its contents. -/
theorem share (h : Shared pointer code t) (v : Ref) (room : Bool) :
    ∃ t' r, rcClosureStatic pointer code t v room = some (t', r) ∧ Shared pointer code t' ∧
      (∀ a k, Registered t a k → Registered t' a k) ∧
      ∀ a k, t.eligible v = some (a, k) → t.available room = true →
        ∃ b, r = .cell b ∧ Registered t' b k := by
  rw [rcClosureStatic]
  rcases hel : t.eligible v with _ | ⟨a, k⟩
  · exact ⟨t, v, rfl, h, fun _ _ hreg => hreg, fun a k hf => by cases hf⟩
  obtain ⟨t', hroom, h', hheap, hrefs, hreg, hlt⟩ := h.roomForClosure room
  rcases hav : t.available room with _ | _
  · refine ⟨t', v, ?_, h', fun a k hk => (hreg a k).mpr hk, fun a k _ hf => by cases hf⟩
    simp only [hroom, hav, Option.bind_some, Bool.false_eq_true, if_false]
  · have hlt' := hlt hav
    obtain ⟨rfl, hkey⟩ := eligible_eq hel
    have hkey' : t'.keyOf a = some k := by rw [keyOf, hheap]; exact hkey
    obtain ⟨j, hj, hfind, ⟨b, hb, hkb⟩ | ⟨hfree, hnew, d, hd, hdj, hbefore⟩⟩ :=
      h'.findClosure (by omega) k
    · refine ⟨t', .cell b, ?_, h', fun a k hk => (hreg a k).mpr hk, fun a' k' hk' _ => ?_⟩
      · simp only [hroom, hav, Option.bind_some, if_true, hfind, Option.map_some, hb]
      · cases hk'
        exact ⟨b, rfl, ⟨j, hj, hb⟩, hkb⟩
    · obtain ⟨hshared, hself, hold⟩ := h'.addClosure hlt' hkey' hnew hd hdj hfree hbefore
      refine ⟨t'.addClosure j a, .cell a, ?_, hshared,
        fun b l hb => hold b l ((hreg b l).mpr hb), fun a' k' hk' _ => ?_⟩
      · simp only [hroom, hav, Option.bind_some, if_true, hfind, Option.map_some, hfree]
      · cases hk'
        exact ⟨a, rfl, hself⟩

end Shared

/-- **A run** ends and keeps the set, and all handles that were returned are in it. -/
theorem run_shared (h : Shared pointer code t) (ops : List Op) :
    ∃ t' log, run pointer code ops t = some (t', log) ∧ Shared pointer code t' ∧
      (∀ a k, Registered t a k → Registered t' a k) ∧
      ∀ x ∈ log, ∃ b, x.2 = .cell b ∧ Registered t' b x.1 := by
  induction ops generalizing t with
  | nil => exact ⟨t, [], rfl, h, fun _ _ hreg => hreg, fun x hx => by cases hx⟩
  | cons op ops ih =>
    rcases op with ⟨heap, refs⟩ | ⟨v, room⟩
    · obtain ⟨h', hreg⟩ := h.world heap refs
      obtain ⟨t', log, hrun, hshared, hkeep, hlog⟩ := ih h'
      exact ⟨t', log, hrun, hshared, fun a k ha => hkeep a k ((hreg a k).mpr ha), hlog⟩
    · obtain ⟨t₁, r, hcall, h', hkeep₁, hr⟩ := h.share v room
      obtain ⟨t', log, hrun, hshared, hkeep, hlog⟩ := ih h'
      rw [run, hcall, Option.bind_some, hrun, Option.map_some]
      refine ⟨t', _, rfl, hshared, fun a k ha => hkeep a k (hkeep₁ a k ha), ?_⟩
      rcases hel : t.eligible v with _ | ⟨a, k⟩
      · exact hlog
      · rcases hav : t.available room with _ | _
        · exact hlog
        · intro x hx
          rcases List.mem_cons.mp hx with rfl | hx
          · obtain ⟨b, hb, hreg⟩ := hr a k hel hav
            exact ⟨b, hb, hkeep b k hreg⟩
          · exact hlog x hx

end StaticTable

/-- **Interning is canonical.** Whatever symbols are asked for, with whatever failures of the
allocator, two calls return the same handle exactly for the same name, and every handle that was
returned is found again. Whatever closures are to be shared, whatever else happens to other cells in
between, the calls for eligible closures with storage available return the same immortal handle
exactly for the same contents, and every such handle is found. All searches end. -/
theorem interning_canonical :
    (∀ calls, ∃ t log, SymbolTable.run calls {} = some (t, log) ∧
      log.map Prod.fst = calls.map Prod.fst ∧
      (∀ x ∈ log, ∀ y ∈ log, ∀ v w, x.2 = .ok v → y.2 = .ok w → (v = w ↔ x.1 = y.1)) ∧
      ∀ x ∈ log, ∀ v, x.2 = .ok v → ∀ room text,
        t.rcSymbol x.1 room text = some (t, .ok v)) ∧
    ∀ pointer code ops, ∃ t log, StaticTable.run pointer code ops {} = some (t, log) ∧
      (∀ x ∈ log, ∀ y ∈ log, x.2 = y.2 ↔ x.1 = y.1) ∧
      ∀ x ∈ log, ∃ b, x.2 = .cell b ∧ t.refs (.cell b) = immortal ∧ t.keyOf b = some x.1 ∧
        ∃ j, t.findClosure pointer code x.1 = some j ∧ t.slots j = some b := by
  refine ⟨fun calls => ?_, fun pointer code ops => ?_⟩
  · obtain ⟨t, log, hrun, h, -, -, hnames, hlog⟩ :=
      SymbolTable.run_interned SymbolTable.interned_empty calls
    refine ⟨t, log, hrun, hnames, fun x hx y hy v w hv hw => ?_, fun x hx v hv room text => ?_⟩
    · obtain ⟨hvlt, hvname⟩ := hlog x hx v hv
      obtain ⟨hwlt, hwname⟩ := hlog y hy w hw
      rw [← hvname, ← hwname]
      exact ⟨congrArg t.data, h.distinct v hvlt w hwlt⟩
    · obtain ⟨hlt, hname⟩ := hlog x hx v hv
      rw [← hname]
      exact h.rcSymbol_found hlt room text
  · obtain ⟨t, log, hrun, h, -, hlog⟩ :=
      StaticTable.run_shared (StaticTable.shared_empty pointer code) ops
    refine ⟨t, log, hrun, fun x hx y hy => ?_, fun x hx => ?_⟩
    · obtain ⟨a, ha, hrega⟩ := hlog x hx
      obtain ⟨b, hb, hregb⟩ := hlog y hy
      rw [ha, hb, Ref.cell.injEq]
      exact h.registered_inj hrega hregb
    · obtain ⟨b, hb, hreg⟩ := hlog x hx
      obtain ⟨⟨i, hi, hib⟩, hkey⟩ := hreg
      refine ⟨b, hb, (h.entry i hi b hib).2, hkey, ?_⟩
      obtain ⟨j, hj, hfind, ⟨c, hc, hkc⟩ | ⟨-, hnot, -⟩⟩ := h.findClosure (by omega) x.1
      · have hcb := (h.registered_inj ⟨⟨j, hj, hc⟩, hkc⟩ ⟨⟨i, hi, hib⟩, hkey⟩).mpr rfl
        exact ⟨j, hfind, hcb ▸ hc⟩
      · exact absurd ⟨i, hi, b, hib, hkey⟩ hnot

end ShenRc.Runtime
