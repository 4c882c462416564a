import ShenRc.Chaining.Buckets
import ShenRc.Runtime.Objects
import Mathlib.Data.Nat.Bitwise
import Mathlib.Data.List.Range

/-! # The intern table of symbols

Symbols hang in chains off a table of buckets, each in the bucket of the hash of its name. `Interned`
says that every symbol is in its chain, once, under the hash of its name, and that no two have the
same name; a call keeps that and finds every symbol there is (`Interned.rcSymbol_found`), also after
a resize that failed. The model of the runtime can therefore keep the symbols as a list. -/

namespace ShenRc.Runtime

open ShenRc.Chaining

/-- The part of the context and of the symbols that interning uses. The table keeps every symbol until
the context goes, so the handle of a symbol is its number. -/
structure SymbolTable where
  capacity : ℕ := 0
  buckets : ℕ → Option ℕ := fun _ => none
  count : ℕ := 0
  data : ℕ → List UInt8 := fun _ => []
  hash : ℕ → BitVec 64 := fun _ => 0
  internNext : ℕ → Option ℕ := fun _ => none
  trueSymbol : Option ℕ := none
  falseSymbol : Option ℕ := none

namespace SymbolTable

/-- `symbol_hash`. -/
def symbolHash (name : List UInt8) : BitVec 64 :=
  name.foldl (fun hash p => (hash ^^^ p.toBitVec.setWidth 64) * 1099511628211) 14695981039346656037

/-- The bucket of a hash. -/
def bucketOf (capacity : ℕ) (hash : BitVec 64) : ℕ := hash.toNat &&& (capacity - 1)

/-- `resize_symbols`; `room` says whether `calloc` has room. -/
def resizeSymbols (t : SymbolTable) (capacity : ℕ) (room : Bool) :
    Option (Except String SymbolTable) :=
  if sizeMax / ptrBytes < capacity then some (.error "symbol table size overflow")
  else if room then
    (rehash (fun v => bucketOf capacity (t.hash v)) t.count t.buckets (List.range t.capacity)
      (fun _ => none) t.internNext).map fun r =>
        .ok { t with buckets := r.1, internNext := r.2, capacity }
  else some (.error "out of memory")

/-- The walk in `rc_symbol` along the chain of the name's bucket. -/
def findSymbol (t : SymbolTable) (name : List UInt8) : Option (Option ℕ) :=
  if t.capacity = 0 then some none
  else
    walk (fun v => t.hash v == symbolHash name && t.data v == name) t.internNext t.count
      (t.buckets (bucketOf t.capacity (symbolHash name)))

/-- The end of `rc_symbol`: the new symbol goes in front of its chain. -/
def addSymbol (t : SymbolTable) (name : List UInt8) : SymbolTable :=
  let v := t.count
  let bucket := bucketOf t.capacity (symbolHash name)
  { t with
    data := Function.update t.data v name
    hash := Function.update t.hash v (symbolHash name)
    internNext := Function.update t.internNext v (t.buckets bucket)
    buckets := Function.update t.buckets bucket (some v)
    count := t.count + 1
    trueSymbol := if name = Ctx.trueName then some v else t.trueSymbol
    falseSymbol :=
      if name = Ctx.trueName then t.falseSymbol
      else if name = Ctx.falseName then some v else t.falseSymbol }

/-- The resize in `rc_symbol`, if one is due. -/
def roomForSymbol (t : SymbolTable) (room : Bool) : Option (Except String SymbolTable) :=
  if t.capacity = 0 ∨ t.capacity - t.capacity / 4 ≤ t.count then
    t.resizeSymbols (if t.capacity = 0 then 64 else t.capacity * 2) room
  else some (.ok t)

/-- `rc_symbol`; `text` says whether `text_value` has room. -/
def rcSymbol (t : SymbolTable) (name : List UInt8) (room text : Bool) :
    Option (SymbolTable × Except String ℕ) :=
  (t.findSymbol name).bind fun found =>
    match found with
    | some v => some (t, .ok v)
    | none =>
      (t.roomForSymbol room).map fun resized =>
        match resized with
        | .error e => (t, .error e)
        | .ok t => if text then (t.addSymbol name, .ok t.count) else (t, .error "out of memory")

/-- A sequence of calls: the table, and the names with what the calls return. -/
def run : List (List UInt8 × Bool × Bool) → SymbolTable →
    Option (SymbolTable × List (List UInt8 × Except String ℕ))
  | [], t => some (t, [])
  | (name, room, text) :: calls, t =>
    (t.rcSymbol name room text).bind fun r =>
      (run calls r.1).map fun rest => (rest.1, (name, r.2) :: rest.2)

/-! ### The table holds every symbol once -/

variable {t : SymbolTable} {name : List UInt8}

/-- **What the table is.** -/
structure Interned (t : SymbolTable) : Prop where
  capacity : t.capacity = 0 ∨ ∃ k, t.capacity = 2 ^ k
  load : t.count ≤ t.capacity - t.capacity / 4
  filed : ∃ chains, Filed (fun v => bucketOf t.capacity (t.hash v)) t.capacity t.buckets t.internNext
    chains ∧ ∀ v, v ∈ chains (bucketOf t.capacity (t.hash v)) ↔ v < t.count
  hash : ∀ v < t.count, t.hash v = symbolHash (t.data v)
  distinct : ∀ v < t.count, ∀ w < t.count, t.data v = t.data w → v = w

theorem interned_empty : Interned {} where
  capacity := Or.inl rfl
  load := Nat.le_refl 0
  filed := ⟨fun _ => [], .empty _ _ _, by simp⟩
  hash v hv := absurd hv (Nat.not_lt_zero v)
  distinct v hv := absurd hv (Nat.not_lt_zero v)

theorem bucketOf_lt {capacity : ℕ} (h : 0 < capacity) (hash : BitVec 64) :
    bucketOf capacity hash < capacity := by
  have hle : bucketOf capacity hash ≤ capacity - 1 := Nat.and_le_right
  omega

namespace Interned

/-- A chain has no more nodes than there are symbols. -/
theorem length_chain {chains : ℕ → List ℕ} {i : ℕ} (hnodup : (chains i).Nodup)
    (hlt : ∀ v ∈ chains i, v < t.count) : (chains i).length ≤ t.count := by
  have hsub : chains i ⊆ List.range t.count := fun v hv => List.mem_range.mpr (hlt v hv)
  have hle := (hnodup.subperm hsub).length_le
  rwa [List.length_range] at hle

/-- **The walk ends**, at the symbol of that name if there is one. -/
theorem findSymbol (h : Interned t) (name : List UInt8) :
    (∃ v < t.count, t.data v = name ∧ t.findSymbol name = some (some v)) ∨
      (∀ v < t.count, t.data v ≠ name) ∧ t.findSymbol name = some none := by
  rcases Nat.eq_zero_or_pos t.capacity with hzero | hpos
  · have hload := h.load
    refine Or.inr ⟨fun v hv => by omega, ?_⟩
    rw [SymbolTable.findSymbol, if_pos hzero]
  · obtain ⟨chains, hfiled, hmem⟩ := h.filed
    have hi := bucketOf_lt hpos (symbolHash name)
    have hlt : ∀ v ∈ chains (bucketOf t.capacity (symbolHash name)), v < t.count := by
      intro v hv
      rw [← hmem, hfiled.bucket _ hi v hv]
      exact hv
    have hwalk := (hfiled.chain _ hi).walk (fun v => t.hash v == symbolHash name && t.data v == name)
      (length_chain (hfiled.nodup _ hi) hlt)
    have hfind : t.findSymbol name = some ((chains (bucketOf t.capacity (symbolHash name))).find?
        fun v => t.hash v == symbolHash name && t.data v == name) := by
      rw [SymbolTable.findSymbol, if_neg (Nat.pos_iff_ne_zero.mp hpos), hwalk]
    rcases hfound : (chains (bucketOf t.capacity (symbolHash name))).find? fun v =>
      t.hash v == symbolHash name && t.data v == name with _ | v
    · refine Or.inr ⟨fun v hv hdata => ?_, hfound ▸ hfind⟩
      have hhash : t.hash v = symbolHash name := by rw [h.hash v hv, hdata]
      have hin : v ∈ chains (bucketOf t.capacity (symbolHash name)) := by
        rw [← hhash]
        exact (hmem v).mpr hv
      simpa [hhash, hdata] using List.find?_eq_none.mp hfound v hin
    · have hstop := List.find?_some hfound
      simp only [Bool.and_eq_true, beq_iff_eq] at hstop
      exact Or.inl ⟨v, hlt v (List.mem_of_find?_eq_some hfound), hstop.2, hfound ▸ hfind⟩

/-- **A resize** moves every symbol to its chain in the new table. -/
theorem resizeSymbols (h : Interned t) {k : ℕ} (hk : t.capacity ≤ 2 ^ k) (room : Bool) :
    ∃ r, t.resizeSymbols (2 ^ k) room = some r ∧
      (∀ t', r = .ok t' → Interned t' ∧ t'.capacity = 2 ^ k ∧ t'.count = t.count ∧ t'.data = t.data) ∧
      (room = true → 2 ^ k ≤ sizeMax / ptrBytes → ∃ t', r = .ok t') := by
  rw [SymbolTable.resizeSymbols]
  by_cases hbig : sizeMax / ptrBytes < 2 ^ k
  · rw [if_pos hbig]
    exact ⟨_, rfl, fun t' ht' => absurd ht' (by simp), fun _ hsmall => absurd hbig (by omega)⟩
  rw [if_neg hbig]
  rcases room with _ | _
  · exact ⟨_, rfl, fun t' ht' => absurd ht' (by simp), fun hroom => absurd hroom (by decide)⟩
  obtain ⟨olds, hfiled, hmem⟩ := h.filed
  have hlt : ∀ i < t.capacity, ∀ v ∈ olds i, v < t.count := by
    intro i hi v hv
    rw [← hmem, hfiled.bucket i hi v hv]
    exact hv
  obtain ⟨heads, next, chains, hrun, hfiled', hmem'⟩ := rehash_spec t.count
    (List.range t.capacity)
    (Filed.empty (fun v => bucketOf (2 ^ k) (t.hash v)) (2 ^ k) t.internNext)
    (fun i hi => hfiled.chain i (List.mem_range.mp hi))
    (fun i hi => hfiled.nodup i (List.mem_range.mp hi))
    (fun i hi => length_chain (hfiled.nodup i (List.mem_range.mp hi)) (hlt i (List.mem_range.mp hi)))
    (List.nodup_range.imp_of_mem fun {i j} hi hj hne v hvi hvj => by
      rw [List.mem_range] at hi hj
      exact hne ((hfiled.bucket i hi v hvi).symm.trans (hfiled.bucket j hj v hvj)))
    (fun i _ v _ => ⟨bucketOf_lt (Nat.two_pow_pos k) _, List.not_mem_nil⟩)
  rw [if_pos rfl, hrun]
  refine ⟨_, rfl, fun t' ht' => ?_, fun _ _ => ⟨_, rfl⟩⟩
  cases ht'
  refine ⟨⟨Or.inr ⟨k, rfl⟩, ?_, ⟨chains, hfiled', fun v => ?_⟩, h.hash, h.distinct⟩, rfl, rfl, rfl⟩
  · have hload := h.load
    change t.count ≤ 2 ^ k - 2 ^ k / 4
    omega
  · change v ∈ chains (bucketOf (2 ^ k) (t.hash v)) ↔ v < t.count
    rw [hmem']
    refine ⟨fun hv => ?_, fun hv => ?_⟩
    · obtain ⟨i, hi, hvi⟩ | hv := hv
      · exact hlt i (List.mem_range.mp hi) v hvi
      · cases hv
    · have hpos : 0 < t.capacity := by
        have hload := h.load
        omega
      exact Or.inl ⟨_, List.mem_range.mpr (bucketOf_lt hpos _), (hmem v).mpr hv⟩

/-- **A new symbol** in a table with room for it. -/
theorem addSymbol (h : Interned t) (hroom : t.count < t.capacity - t.capacity / 4)
    (hnew : ∀ v < t.count, t.data v ≠ name) : Interned (t.addSymbol name) := by
  have hpos : 0 < t.capacity := by omega
  obtain ⟨chains, hfiled, hmem⟩ := h.filed
  have hlt : ∀ i < t.capacity, ∀ v ∈ chains i, v < t.count := by
    intro i hi v hv
    rw [← hmem, hfiled.bucket i hi v hv]
    exact hv
  have hold : ∀ v < t.count, Function.update t.hash t.count (symbolHash name) v = t.hash v :=
    fun v hv => Function.update_of_ne (by omega) ..
  have hself : Function.update t.hash t.count (symbolHash name) t.count = symbolHash name :=
    Function.update_self ..
  have hfiled' := hfiled.congr
    (fun v => bucketOf t.capacity (Function.update t.hash t.count (symbolHash name) v))
    fun i hi v hv => congrArg _ (hold v (hlt i hi v hv))
  have hpush := hfiled'.push (v := t.count) (bucketOf_lt hpos _) fun hin =>
    Nat.lt_irrefl _ (hlt _ (bucketOf_lt hpos _) _ hin)
  simp only [hself] at hpush
  refine ⟨h.capacity, hroom, ⟨_, hpush, fun v => ?_⟩, fun v hv => ?_, fun v hv w hw hvw => ?_⟩
  · change v ∈ Function.update chains (bucketOf t.capacity (symbolHash name))
      (t.count :: chains (bucketOf t.capacity (symbolHash name)))
      (bucketOf t.capacity (Function.update t.hash t.count (symbolHash name) v)) ↔ v < t.count + 1
    have hin := mem_push
      (fun v => bucketOf t.capacity (Function.update t.hash t.count (symbolHash name) v)) chains
      t.count v
    simp only [hself] at hin
    rw [hin]
    rcases Nat.lt_trichotomy v t.count with hlt' | rfl | hgt
    · rw [hold v hlt', hmem]
      omega
    · simp
    · rw [Function.update_of_ne (by omega), hmem]
      omega
  · change v < t.count + 1 at hv
    change Function.update t.hash t.count (symbolHash name) v =
      symbolHash (Function.update t.data t.count name v)
    rcases eq_or_ne v t.count with rfl | hne
    · rw [Function.update_self, Function.update_self]
    · rw [Function.update_of_ne hne, Function.update_of_ne hne, h.hash v (by omega)]
  · change v < t.count + 1 at hv
    change w < t.count + 1 at hw
    change Function.update t.data t.count name v = Function.update t.data t.count name w at hvw
    rcases eq_or_ne v t.count with rfl | hv'
    · rcases eq_or_ne w t.count with rfl | hw'
      · rfl
      · rw [Function.update_self, Function.update_of_ne hw'] at hvw
        exact absurd hvw.symm (hnew w (by omega))
    · rcases eq_or_ne w t.count with rfl | hw'
      · rw [Function.update_self, Function.update_of_ne hv'] at hvw
        exact absurd hvw (hnew v (by omega))
      · rw [Function.update_of_ne hv', Function.update_of_ne hw'] at hvw
        exact h.distinct v (by omega) w (by omega) hvw

/-- **A call for the name of a symbol** returns it. -/
theorem rcSymbol_found (h : Interned t) {v : ℕ} (hv : v < t.count) (room text : Bool) :
    t.rcSymbol (t.data v) room text = some (t, .ok v) := by
  obtain ⟨w, hw, hdata, hfind⟩ | ⟨hnone, -⟩ := h.findSymbol (t.data v)
  · rw [SymbolTable.rcSymbol, hfind, h.distinct w hw v hv hdata]
    rfl
  · exact absurd rfl (hnone v hv)

/-- **The resize** makes room for one more symbol, if it has room itself. -/
theorem roomForSymbol (h : Interned t) (room : Bool) : ∃ r, t.roomForSymbol room = some r ∧
    (∀ t', r = .ok t' → Interned t' ∧ t'.count < t'.capacity - t'.capacity / 4 ∧
      t'.count = t.count ∧ t'.data = t.data) ∧
    (room = true → 2 * t.capacity ≤ sizeMax / ptrBytes → ∃ t', r = .ok t') := by
  have hload := h.load
  rw [SymbolTable.roomForSymbol]
  by_cases hdue : t.capacity = 0 ∨ t.capacity - t.capacity / 4 ≤ t.count
  · rw [if_pos hdue]
    obtain ⟨k, hk, hle, hroom⟩ : ∃ k, (if t.capacity = 0 then 64 else t.capacity * 2) = 2 ^ k ∧
        t.capacity ≤ 2 ^ k ∧ t.count < 2 ^ k - 2 ^ k / 4 := by
      obtain hzero | ⟨k, hk⟩ := h.capacity
      · exact ⟨6, by simp [hzero], by simp [hzero], by omega⟩
      · have hpos := Nat.two_pow_pos k
        refine ⟨k + 1, by rw [if_neg (by omega), hk, pow_succ], ?_, ?_⟩
        · rw [pow_succ]
          omega
        · rw [pow_succ]
          omega
    obtain ⟨r, hr, hok, hfits⟩ := h.resizeSymbols hle room
    refine ⟨r, by rw [hk, hr], fun t' ht' => ?_, fun hyes hsmall => hfits hyes ?_⟩
    · obtain ⟨h', hcap, hcount, hdata⟩ := hok t' ht'
      exact ⟨h', by rw [hcap, hcount]; exact hroom, hcount, hdata⟩
    · rw [← hk]
      split_ifs
      · decide
      · omega
  · rw [if_neg hdue]
    refine ⟨_, rfl, fun t' ht' => ?_, fun _ _ => ⟨_, rfl⟩⟩
    cases ht'
    exact ⟨h, by omega, rfl, rfl⟩

/-- **A call with room returns a handle.** -/
theorem rcSymbol_room (h : Interned t) (name : List UInt8)
    (hsize : 2 * t.capacity ≤ sizeMax / ptrBytes) :
    ∃ t' v, t.rcSymbol name true true = some (t', .ok v) := by
  obtain ⟨v, -, -, hfind⟩ | ⟨-, hfind⟩ := h.findSymbol name
  · refine ⟨t, v, ?_⟩
    rw [SymbolTable.rcSymbol, hfind]
    rfl
  · obtain ⟨resized, hresized, -, hfits⟩ := h.roomForSymbol true
    obtain ⟨t', rfl⟩ := hfits rfl hsize
    refine ⟨t'.addSymbol name, t'.count, ?_⟩
    rw [SymbolTable.rcSymbol, hfind, Option.bind_some, hresized]
    rfl

/-- **Every call ends** and keeps the table; what it returns is the symbol of the name. -/
theorem rcSymbol (h : Interned t) (name : List UInt8) (room text : Bool) :
    ∃ t' r, t.rcSymbol name room text = some (t', r) ∧ Interned t' ∧ t.count ≤ t'.count ∧
      (∀ v < t.count, t'.data v = t.data v) ∧ ∀ v, r = .ok v → v < t'.count ∧ t'.data v = name := by
  obtain ⟨v, hv, hdata, hfind⟩ | ⟨hnew, hfind⟩ := h.findSymbol name
  · refine ⟨t, .ok v, ?_, h, Nat.le_refl _, fun _ _ => rfl, fun w hw => ?_⟩
    · rw [SymbolTable.rcSymbol, hfind]
      rfl
    · cases hw
      exact ⟨hv, hdata⟩
  · obtain ⟨resized, hresized, hok, -⟩ := h.roomForSymbol room
    rcases resized with e | t'
    · refine ⟨t, .error e, ?_, h, Nat.le_refl _, fun _ _ => rfl, fun v hv => by cases hv⟩
      rw [SymbolTable.rcSymbol, hfind, Option.bind_some, hresized]
      rfl
    · obtain ⟨h', hroom, hcount, hdata⟩ := hok t' rfl
      rcases text with _ | _
      · refine ⟨t', .error "out of memory", ?_, h', by omega, fun v _ => by rw [hdata],
          fun v hv => by cases hv⟩
        rw [SymbolTable.rcSymbol, hfind, Option.bind_some, hresized]
        rfl
      · refine ⟨t'.addSymbol name, .ok t'.count, ?_, ?_, ?_, fun v hv => ?_, fun v hv => ?_⟩
        · rw [SymbolTable.rcSymbol, hfind, Option.bind_some, hresized]
          rfl
        · exact h'.addSymbol hroom fun v hv => by rw [hdata]; exact hnew v (by omega)
        · change t.count ≤ t'.count + 1
          omega
        · change Function.update t'.data t'.count name v = _
          rw [Function.update_of_ne (by omega), hdata]
        · cases hv
          exact ⟨Nat.lt_succ_self _, Function.update_self ..⟩

end Interned

/-- What the calls of a run have returned. -/
def Logged (t : SymbolTable) (log : List (List UInt8 × Except String ℕ)) : Prop :=
  ∀ x ∈ log, ∀ v, x.2 = .ok v → v < t.count ∧ t.data v = x.1

/-- **A run** ends, and every symbol that was returned is in the table under its name. -/
theorem run_interned (h : Interned t) (calls : List (List UInt8 × Bool × Bool)) :
    ∃ t' log, run calls t = some (t', log) ∧ Interned t' ∧ t.count ≤ t'.count ∧
      (∀ v < t.count, t'.data v = t.data v) ∧ log.map Prod.fst = calls.map Prod.fst ∧
      Logged t' log := by
  induction calls generalizing t with
  | nil => exact ⟨t, [], rfl, h, Nat.le_refl _, fun _ _ => rfl, rfl, fun x hx => by cases hx⟩
  | cons call calls ih =>
    obtain ⟨name, room, text⟩ := call
    obtain ⟨t', r, hcall, h', hle, hdata, hr⟩ := h.rcSymbol name room text
    obtain ⟨t'', log, hrun, h'', hle', hdata', hnames, hlog⟩ := ih h'
    refine ⟨t'', (name, r) :: log, ?_, h'', by omega, fun v hv => ?_, ?_, fun x hx v hv => ?_⟩
    · rw [run, hcall, Option.bind_some, hrun]
      rfl
    · rw [hdata' v (by omega), hdata v hv]
    · rw [List.map_cons, List.map_cons, hnames]
    · rcases List.mem_cons.mp hx with rfl | hx
      · obtain ⟨hlt, hname⟩ := hr v hv
        exact ⟨by omega, by rw [hdata' v hlt, hname]⟩
      · exact hlog x hx v hv

end SymbolTable

end ShenRc.Runtime
