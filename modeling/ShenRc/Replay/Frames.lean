import ShenRc.Replay.Quiet

/-! # The stack of loads

A program changes at most the innermost of the loads in progress when it starts, and of that one it
only adds to what is recorded (`run_framed`), whatever it loads and however its loads end. -/

namespace ShenRc.Replay

variable {w : UInt64 → Bool} {s : TcState} {b c d : LoadCtx} {bs cs ds : List LoadCtx}
  {f : TcState → Outcome}

/-! ### What becomes of a load -/

/-- What becomes of a load in progress while a program runs. A recording that is replayed stays. -/
structure Grown (c d : LoadCtx) : Prop where
  fileHash : d.fileHash = c.fileHash
  gensymStart : d.gensymStart = c.gensymStart
  gensymEndRecorded : d.gensymEndRecorded = c.gensymEndRecorded
  replay : d.replay = c.replay
  tcDepth : d.tcDepth = c.tcDepth
  poisoned : c.poisoned = true → d.poisoned = true
  tc : c.tc <+: d.tc
  ckpt : c.ckpt <+: d.ckpt
  fixed : c.replay = true → d.tc = c.tc ∧ d.ckpt = c.ckpt

theorem Grown.refl (c : LoadCtx) : Grown c c where
  fileHash := rfl
  gensymStart := rfl
  gensymEndRecorded := rfl
  replay := rfl
  tcDepth := rfl
  poisoned h := h
  tc := List.prefix_rfl
  ckpt := List.prefix_rfl
  fixed _ := ⟨rfl, rfl⟩

theorem Grown.trans (h : Grown b c) (h' : Grown c d) : Grown b d where
  fileHash := h'.fileHash.trans h.fileHash
  gensymStart := h'.gensymStart.trans h.gensymStart
  gensymEndRecorded := h'.gensymEndRecorded.trans h.gensymEndRecorded
  replay := h'.replay.trans h.replay
  tcDepth := h'.tcDepth.trans h.tcDepth
  poisoned hb := h'.poisoned (h.poisoned hb)
  tc := h.tc.trans h'.tc
  ckpt := h.ckpt.trans h'.ckpt
  fixed hb := by
    obtain ⟨htc, hckpt⟩ := h.fixed hb
    obtain ⟨htc', hckpt'⟩ := h'.fixed (h.replay.trans hb)
    exact ⟨htc'.trans htc, hckpt'.trans hckpt⟩

/-- What becomes of the stack: nothing but the innermost load is changed. -/
inductive Framed : List LoadCtx → List LoadCtx → Prop
  | nil : Framed [] []
  | cons {c d : LoadCtx} (h : Grown c d) (rest : List LoadCtx) : Framed (c :: rest) (d :: rest)

theorem Framed.refl : ∀ cs : List LoadCtx, Framed cs cs
  | [] => .nil
  | c :: rest => .cons (.refl c) rest

theorem Framed.trans (h : Framed bs cs) (h' : Framed cs ds) : Framed bs ds := by
  rcases h with _ | ⟨h, rest⟩
  · exact h'
  · rcases h' with _ | ⟨h', _⟩
    exact .cons (h.trans h') rest

theorem Framed.cons_inv (h : Framed (c :: cs) ds) : ∃ d, ds = d :: cs ∧ Grown c d := by
  rcases h with _ | ⟨h, _⟩
  exact ⟨_, rfl, h⟩

theorem Framed.nil_inv (h : Framed [] ds) : ds = [] := by
  rcases h with _ | _
  rfl

/-! ### Steps -/

@[simp] theorem TcState.pin_stack (s : TcState) (n : Int64) : (s.pin n).stack = s.stack := by
  unfold TcState.pin
  split_ifs
  · rfl
  · rfl

theorem Grown.poison (c : LoadCtx) : Grown c { c with poisoned := true } :=
  { Grown.refl c with poisoned := fun _ => rfl }

theorem poisonTop_framed (s : TcState) : Framed s.stack s.poisonTop.stack := by
  unfold TcState.poisonTop
  rcases hs : s.stack with _ | ⟨c, rest⟩
  · rw [hs]
    exact .nil
  · exact .cons (.poison c) rest

theorem Grown.surfaced {m n : ℕ} (h : Grown { c with tcDepth := m } d) (hn : n = c.tcDepth) :
    Grown c { d with tcDepth := n } :=
  ⟨h.fileHash, h.gensymStart, h.gensymEndRecorded, h.replay, hn, h.poisoned, h.tc, h.ckpt, h.fixed⟩

theorem withDepthOrig_framed (hf : ∀ s, Framed s.stack (f s).2.stack) (s : TcState) :
    Framed s.stack (withDepthOrig f s).2.stack := by
  unfold withDepthOrig
  rcases hs : s.stack with _ | ⟨c, rest⟩
  · have hplain := hf s
    rwa [hs] at hplain
  · have hdeep := hf { s with stack := { c with tcDepth := c.tcDepth + 1 } :: rest }
    obtain ⟨d, hd, hgrown⟩ := hdeep.cons_inv
    have hdepth : d.tcDepth - 1 = c.tcDepth := by
      rw [hgrown.tcDepth]
      exact Nat.add_sub_cancel _ _
    dsimp only
    rw [hd]
    exact .cons (hgrown.surfaced hdepth) rest

/-- The entry of a check is added to what is recorded. -/
theorem Grown.record (h : Grown c d) (hc : c.replay = false) (hash : Option UInt64) (e : TcEntry) :
    Grown c { d.note hash with tc := d.tc ++ [e] } := by
  rcases d with ⟨⟩
  exact ⟨h.fileHash, h.gensymStart, h.gensymEndRecorded, h.replay, h.tcDepth, h.poisoned,
    h.tc.trans (List.prefix_append _ _), h.ckpt, fun hreplay => absurd hreplay (by rw [hc]; decide)⟩

theorem recordCheck_framed (hf : ∀ s, Framed s.stack (f s).2.stack) (hash : Option UInt64)
    (hs : s.stack = c :: cs) (hc : c.replay = false) :
    Framed s.stack (recordCheck f hash s).2.stack := by
  have hcheck := withDepthOrig_framed hf s
  rw [hs] at hcheck ⊢
  obtain ⟨d, hd, hgrown⟩ := hcheck.cons_inv
  unfold recordCheck
  rcases hr : (withDepthOrig f s).1 with _ | v
  · dsimp only
    rw [hr]
    exact hcheck
  · dsimp only
    rw [hr, hd]
    exact .cons (hgrown.record hc hash _) cs

theorem Grown.replayed (c : LoadCtx) (hash : Option UInt64) :
    Grown c { c.note hash with cursor := c.cursor + 1 } := by
  rcases c with ⟨⟩
  exact ⟨rfl, rfl, rfl, rfl, rfl, id, List.prefix_rfl, List.prefix_rfl, fun _ => ⟨rfl, rfl⟩⟩

theorem replayCheck_framed (hf : ∀ s, Framed s.stack (f s).2.stack) (hash : Option UInt64)
    (hs : s.stack = c :: cs) : Framed s.stack (replayCheck f hash c cs s).2.stack := by
  have hpoison := (poisonTop_framed s).trans (withDepthOrig_framed hf s.poisonTop)
  have hnote : Framed s.stack ({ c.note hash with cursor := c.cursor + 1 } :: cs) :=
    hs ▸ .cons (.replayed c hash) cs
  unfold replayCheck
  rcases c.tc[c.cursor]? with _ | e
  · exact hpoison
  · dsimp only
    split_ifs
    · rcases e.val with _ | v
      · exact hnote.trans (withDepthOrig_framed hf
          { s with stack := { c.note hash with cursor := c.cursor + 1 } :: cs })
      · dsimp only
        rw [TcState.pin_stack]
        exact hnote
    · exact hpoison

theorem streamWrapper_framed (hf : ∀ s, Framed s.stack (f s).2.stack) (args : List Value)
    (s : TcState) : Framed s.stack (streamWrapper f args s).2.stack := by
  unfold streamWrapper
  rcases hs : s.stack with _ | ⟨c, cs⟩
  · have hplain := withDepthOrig_framed hf s
    rwa [hs] at hplain
  · dsimp only
    rw [← hs]
    split_ifs with hpass hreplay
    · exact withDepthOrig_framed hf s
    · exact replayCheck_framed hf _ hs
    · exact recordCheck_framed hf _ hs (Bool.eq_false_iff.mpr hreplay)

/-! ### Loads -/

theorem beginLoad_stack (fileHash key : UInt64) (s : TcState) :
    ∃ c, (beginLoad fileHash key s).stack = c :: s.stack := by
  unfold beginLoad
  rcases cached s key with _ | rec
  · exact ⟨_, rfl⟩
  · exact ⟨_, rfl⟩

@[simp] theorem keepLoad_stack (key : UInt64) (done : LoadCtx) (s : TcState) :
    (keepLoad w key done s).stack = s.stack := by
  unfold keepLoad
  split_ifs
  · exact TcState.pin_stack _ _
  · rfl
  · rfl

/-- What a load learns of the end of a load in it. -/
theorem Grown.learn {x : UInt64} {n : ℕ} (c : LoadCtx) :
    Grown c { c with
      digest := x
      ckptCursor := n } :=
  ⟨rfl, rfl, rfl, rfl, rfl, id, List.prefix_rfl, List.prefix_rfl, fun _ => ⟨rfl, rfl⟩⟩

theorem Grown.learnPoisoned {x : UInt64} (c : LoadCtx) :
    Grown c { c with
      digest := x
      poisoned := true } :=
  ⟨rfl, rfl, rfl, rfl, rfl, fun _ => rfl, List.prefix_rfl, List.prefix_rfl, fun _ => ⟨rfl, rfl⟩⟩

theorem Grown.learnRecord {x y : UInt64} (hc : c.replay = false) :
    Grown c { c with
      digest := x
      ckpt := c.ckpt ++ [y] } :=
  ⟨rfl, rfl, rfl, rfl, rfl, id, List.prefix_rfl, List.prefix_append _ _,
    fun h => absurd h (by rw [hc]; decide)⟩

theorem noteLoad_framed (chain : UInt64) (s : TcState) : Framed s.stack (noteLoad chain s).stack := by
  unfold noteLoad
  rcases hs : s.stack with _ | ⟨c, rest⟩
  · dsimp only
    rw [hs]
    exact .nil
  · dsimp only
    split_ifs with hreplay hckpt
    · exact .cons (.learn c) rest
    · exact .cons (.learnPoisoned c) rest
    · exact .cons (.learnRecord (Bool.eq_false_iff.mpr hreplay)) rest

theorem nativeLoad_framed (hf : ∀ s, Framed s.stack (f s).2.stack) (fileHash : Option UInt64)
    (s : TcState) : Framed s.stack (nativeLoad w f fileHash s).2.stack := by
  have hpoison := (poisonTop_framed s).trans (hf s.poisonTop)
  unfold nativeLoad
  rcases fileHash with _ | fileHash
  · exact hpoison
  rcases s.tcOn with _ | tcOn
  · exact hpoison
  dsimp only
  obtain ⟨c, hc⟩ := beginLoad_stack fileHash (loadKey (situation s fileHash tcOn)) s
  have hbody := hf (beginLoad fileHash (loadKey (situation s fileHash tcOn)) s)
  rw [hc] at hbody
  obtain ⟨done, hdone, -⟩ := hbody.cons_inv
  unfold finishLoad
  rw [hdone]
  rcases (f (beginLoad fileHash (loadKey (situation s fileHash tcOn)) s)).1 with _ | v
  · exact poisonTop_framed
      { (f (beginLoad fileHash (loadKey (situation s fileHash tcOn)) s)).2 with stack := s.stack }
  · refine Framed.trans ?_ (noteLoad_framed _ _)
    rw [keepLoad_stack]
    exact .refl _

/-- **A program changes at most the innermost of the loads in progress.** -/
theorem run_framed (w : UInt64 → Bool) (P : Prog) (s : TcState) :
    Framed s.stack (run w P s).2.stack := by
  induction P generalizing s with
  | ret v => exact .refl _
  | raise => exact .refl _
  | fresh k ih =>
    by_cases hmax : s.gensym < Int64.maxValue
    · rw [run_fresh hmax]
      exact ih _ { s with gensym := s.gensym + 1 }
    · rw [run_fresh_max hmax]
      exact .refl _
  | setTc tcOn k ih => exact ih { s with tcOn := tcOn }
  | check args orig k iho ihk =>
    rw [run_check]
    exact (streamWrapper_framed iho args s).trans (ihk _ _)
  | load fileHash body k ihb ihk =>
    rw [run_load]
    exact (nativeLoad_framed ihb fileHash s).trans (ihk _ _)

/-- **The stack is balanced.** Whatever a program loads, and however its loads and checks end, the
loads around the innermost one are left alone, and that one loses nothing that it has recorded or is
to replay. -/
theorem run_stack (w : UInt64 → Bool) (P : Prog) (s : TcState) :
    (run w P s).2.stack.length = s.stack.length ∧ (run w P s).2.stack.tail = s.stack.tail ∧
      ∀ c ∈ s.stack.head?, ∃ d ∈ (run w P s).2.stack.head?, c.tc <+: d.tc ∧ c.ckpt <+: d.ckpt ∧
        d.tcDepth = c.tcDepth ∧ (c.poisoned = true → d.poisoned = true) ∧
        (c.replay = true → d.tc = c.tc ∧ d.ckpt = c.ckpt) := by
  have hframed := run_framed w P s
  rcases hs : s.stack with _ | ⟨c, cs⟩
  · rw [hs] at hframed
    rw [hframed.nil_inv]
    exact ⟨rfl, rfl, fun c hc => absurd hc (by simp)⟩
  · rw [hs] at hframed
    obtain ⟨d, hd, hgrown⟩ := hframed.cons_inv
    rw [hd]
    refine ⟨rfl, rfl, fun b hb => ⟨d, rfl, ?_⟩⟩
    obtain rfl := Option.some.inj hb
    exact ⟨hgrown.tc, hgrown.ckpt, hgrown.tcDepth, hgrown.poisoned, hgrown.fixed⟩

end ShenRc.Replay
