import ShenRc.Replay.Frames

/-! # A load that is replayed follows the load that records

The plain run is the one without files: each of its loads records. A load of another run `Tracks` the
plain one if it is itself recording and has recorded the same, or if it replays and stands where the
plain one stands. It goes on to do so as long as what the plain load will have recorded is what is
replayed (`Ahead`). -/

namespace ShenRc.Replay

variable {w : UInt64 → Bool} {p s : TcState} {b c d : LoadCtx} {bs cs ds : List LoadCtx}

/-! ### Contexts -/

/-- The load `d` is where the plain load `c` is. -/
structure Tracks (c d : LoadCtx) : Prop where
  fileHash : d.fileHash = c.fileHash
  digest : d.digest = c.digest
  poisoned : d.poisoned = c.poisoned
  plain : c.replay = false
  depth : c.tcDepth = 0
  depth' : d.tcDepth = 0
  recorded : d.replay = false → d.gensymStart = c.gensymStart ∧ d.tc = c.tc ∧ d.ckpt = c.ckpt
  replayed : d.replay = true → d.cursor = c.tc.length ∧ d.ckptCursor = c.ckpt.length

/-- What the load `d` replays begins with what the plain load `c` has recorded. -/
structure Ahead (c d : LoadCtx) : Prop where
  tc : d.replay = true → c.tc.map TcEntry.stored <+: d.tc
  ckpt : d.replay = true → c.ckpt <+: d.ckpt
  poisoned : d.replay = true → c.poisoned = false

theorem Ahead.before (h : Ahead c d) (hb : Grown b c) : Ahead b d where
  tc hd := (hb.tc.map _).trans (h.tc hd)
  ckpt hd := hb.ckpt.trans (h.ckpt hd)
  poisoned hd := Bool.eq_false_iff.mpr fun hpoisoned =>
    Bool.eq_false_iff.mp (h.poisoned hd) (hb.poisoned hpoisoned)

theorem Ahead.after (h : Ahead b c) (hd : Grown c d) : Ahead b d where
  tc hr := by
    have hc := hd.replay.symm.trans hr
    rw [(hd.fixed hc).1]
    exact h.tc hc
  ckpt hr := by
    have hc := hd.replay.symm.trans hr
    rw [(hd.fixed hc).2]
    exact h.ckpt hc
  poisoned hr := h.poisoned (hd.replay.symm.trans hr)

theorem Tracks.poison (h : Tracks c d) :
    Tracks { c with poisoned := true } { d with poisoned := true } :=
  ⟨h.fileHash, h.digest, rfl, h.plain, h.depth, h.depth', h.recorded, h.replayed⟩

/-- Both loads record a check. -/
theorem Tracks.record (h : Tracks c d) (hd : d.replay = false) (hash : Option UInt64) (e : TcEntry) :
    Tracks { c.note hash with tc := c.tc ++ [e] } { d.note hash with tc := d.tc ++ [e] } := by
  obtain ⟨hstart, htc, hckpt⟩ := h.recorded hd
  have hdigest := h.digest
  rcases c with ⟨⟩
  rcases d with ⟨⟩
  exact ⟨h.fileHash, congrArg (fnvU64 · (hash.getD 0)) hdigest, h.poisoned, h.plain, h.depth, h.depth',
    fun _ => ⟨hstart, congrArg (· ++ [e]) htc, hckpt⟩, fun hr => absurd (hr.symm.trans hd) (by decide)⟩

/-- One load records a check that the other one replays. -/
theorem Tracks.replay (h : Tracks c d) (hd : d.replay = true) (hash : Option UInt64) (e : TcEntry) :
    Tracks { c.note hash with tc := c.tc ++ [e] } { d.note hash with cursor := d.cursor + 1 } := by
  obtain ⟨hcursor, hckpt⟩ := h.replayed hd
  have hnext : d.cursor + 1 = (c.tc ++ [e]).length := by
    rw [List.length_append, List.length_singleton, hcursor]
  have hdigest := h.digest
  rcases c with ⟨⟩
  rcases d with ⟨⟩
  exact ⟨h.fileHash, congrArg (fnvU64 · (hash.getD 0)) hdigest, h.poisoned, h.plain, h.depth, h.depth',
    fun hr => absurd (hd.symm.trans hr) (by decide),
    fun _ => ⟨hnext, hckpt⟩⟩

/-! ### States -/

/-- What the keys depend on, of a load in progress. -/
def LoadCtx.keyed (c : LoadCtx) : UInt64 × UInt64 := (c.fileHash, c.digest)

/-- The stacks: the innermost loads track each other. -/
inductive Paired : List LoadCtx → List LoadCtx → Prop
  | nil : Paired [] []
  | cons {c d : LoadCtx} {cs ds : List LoadCtx} (h : Tracks c d)
      (hrest : ds.map LoadCtx.keyed = cs.map LoadCtx.keyed) : Paired (c :: cs) (d :: ds)

/-- The state `s` is where the plain state `p` is. -/
structure Alike (p s : TcState) : Prop where
  chain : s.chain = p.chain
  gensym : s.gensym = p.gensym
  tcOn : s.tcOn = p.tcOn
  files : p.files = fun _ => none
  stack : Paired p.stack s.stack

/-- The innermost loads are ahead. -/
def AheadAt : List LoadCtx → List LoadCtx → Prop
  | c :: _, d :: _ => Ahead c d
  | _, _ => True

theorem aheadAt_nil : ∀ cs : List LoadCtx, AheadAt cs []
  | [] => trivial
  | _ :: _ => trivial

theorem AheadAt.before (h : AheadAt cs ds) (hb : Framed bs cs) : AheadAt bs ds := by
  rcases hb with _ | ⟨hb, rest⟩
  · exact h
  · rcases ds with _ | ⟨d, ds⟩
    · trivial
    · exact Ahead.before h hb

theorem AheadAt.after (h : AheadAt bs cs) (hd : Framed cs ds) : AheadAt bs ds := by
  rcases hd with _ | ⟨hd, rest⟩
  · exact h
  · rcases bs with _ | ⟨b, bs⟩
    · trivial
    · exact Ahead.after h hd

theorem Paired.keyed (h : Paired cs ds) : ds.map LoadCtx.keyed = cs.map LoadCtx.keyed := by
  rcases h with _ | ⟨h, hrest⟩
  · rfl
  · rw [List.map_cons, List.map_cons, hrest]
    exact congrArg (· :: _) (Prod.ext h.fileHash h.digest)

theorem Alike.poisonTop (h : Alike p s) : Alike p.poisonTop s.poisonTop := by
  rcases p with ⟨pchain, pstack, pfiles, pgensym, ptcOn, phits, pmisses⟩
  rcases s with ⟨schain, sstack, sfiles, sgensym, stcOn, shits, smisses⟩
  obtain ⟨hchain, hgensym, htcOn, hfiles, hstack⟩ := h
  rcases hstack with _ | ⟨h, hrest⟩
  · exact ⟨hchain, hgensym, htcOn, hfiles, .nil⟩
  · exact ⟨hchain, hgensym, htcOn, hfiles, .cons h.poison hrest⟩

/-! ### Checks -/

/-- The state after a check. -/
def TcState.after (s : TcState) (n : Int64) (top : LoadCtx) (rest : List LoadCtx) : TcState :=
  { s with
    stack := top :: rest
    gensym := n }

theorem streamWrapper_poisoned {o : Prog} (ho : o.Quiet) (args : List Value) (hs : s.stack = d :: ds)
    (hd : d.poisoned = true) :
    streamWrapper (run w o) args s = quietRun true o s := by
  unfold streamWrapper
  rw [hs]
  dsimp only
  rw [if_pos (Or.inl hd)]
  exact withDepthOrig_inside ho hs

theorem streamWrapper_record {o : Prog} (ho : o.Quiet) (args : List Value) (hs : s.stack = d :: ds)
    (hpoisoned : d.poisoned = false) (hdepth : d.tcDepth = 0) (hreplay : d.replay = false) {v : Value}
    (hv : (quiet true o s.gensym).1 = some v) :
    streamWrapper (run w o) args s = (some v, s.after (quiet true o s.gensym).2
      { d.note (hashArgs args) with
        tc := d.tc ++ [entryOf (hashArgs args) v (quiet true o s.gensym).2] } ds) := by
  unfold streamWrapper
  rw [hs]
  dsimp only
  rw [if_neg (by rw [hpoisoned, hdepth]; simp), if_neg (by rw [hreplay]; decide)]
  unfold recordCheck
  rw [withDepthOrig_inside ho hs]
  unfold quietRun
  dsimp only
  rw [hv, TcState.withGensym_stack, hs]
  rfl

theorem pin_of_le {n : Int64} (h : s.gensym ≤ n) : s.pin n = s.withGensym n := by
  unfold TcState.pin
  split_ifs with hlt
  · rfl
  · have heq : s.gensym = n := Int64.le_antisymm h (Int64.not_lt.mp hlt)
    rw [← heq]
    rfl

theorem streamWrapper_replay {o : Prog} (ho : o.Quiet) (args : List Value) (hs : s.stack = d :: ds)
    (hpoisoned : d.poisoned = false) (hdepth : d.tcDepth = 0) (hreplay : d.replay = true) {v : Value}
    (hv : (quiet true o s.gensym).1 = some v)
    (he : d.tc[d.cursor]? = some (entryOf (hashArgs args) v (quiet true o s.gensym).2).stored) :
    streamWrapper (run w o) args s = (some v, s.after (quiet true o s.gensym).2
      { d.note (hashArgs args) with cursor := d.cursor + 1 } ds) := by
  unfold streamWrapper
  rw [hs]
  dsimp only
  rw [if_neg (by rw [hpoisoned, hdepth]; simp), if_pos hreplay]
  unfold replayCheck
  have hhash : (entryOf (hashArgs args) v (quiet true o s.gensym).2).stored.hash = hashArgs args := rfl
  rw [he]
  dsimp only
  rw [if_pos hhash]
  -- the value is replayed, or the check is made again
  rcases hval : (entryOf (hashArgs args) v (quiet true o s.gensym).2).stored.val with _ | u
  · rw [withDepthOrig_inside ho rfl]
    unfold quietRun
    dsimp only
    rw [hv]
    rfl
  · have huv : u = v := by
      unfold TcEntry.stored TcEntry.kept entryOf at hval
      dsimp only at hval
      split_ifs at hval
      · exact (Option.some.inj hval).symm
    rw [huv]
    exact congrArg (Prod.mk (some v)) (pin_of_le (quiet_le true o s.gensym))

end ShenRc.Replay
