import ShenRc.Replay.Tracking

/-! # A session with recordings gives what it gives without them

`trace` lists the loads of a plain run with what each of them records. Where no check raises and the
key of a load tells what the load records (`Usable`), a run that replays what it finds under the keys
goes as the plain run (`run_tracks`), and what it writes is right for the runs after it. So does
every session of a series over one directory (`session_replays`). -/

namespace ShenRc.Replay

open Numeral

variable {w : UInt64 → Bool} {p s : TcState} {c d : LoadCtx} {cs ds : List LoadCtx} {L : List Event}

/-! ### The loads of a program -/

/-- Nothing can be written. -/
def off : UInt64 → Bool := fun _ => false

/-- What a program does with recordings: a check raises, or a load is done that had a key. -/
inductive Event
  | raised
  | loaded (key : UInt64) (recording : Option TcRecording)

/-- What a load leaves behind, if it can be replayed. -/
def recordingOf (r : Outcome) : Option TcRecording :=
  match r.1, r.2.stack with
  | some _, done :: _ => if done.poisoned then none else some (done.recording r.2.gensym)
  | _, _ => none

/-- What a load does with recordings, from what its text does. -/
def loadTrace (body : TcState → List Event) (orig : TcState → Outcome) (fileHash : Option UInt64)
    (s : TcState) : List Event :=
  match fileHash, s.tcOn with
  | some fileHash, some tcOn =>
    let key := loadKey (situation s fileHash tcOn)
    let begun := beginLoad fileHash key s
    body begun ++ [.loaded key (recordingOf (orig begun))]
  | _, _ => body s.poisonTop

/-- What a program that has no files does with recordings. -/
def trace : Prog → TcState → List Event
  | .ret _ => fun _ => []
  | .raise => fun _ => []
  | .fresh k => fun s =>
    if s.gensym < Int64.maxValue then trace (k (s.gensym + 1)) { s with gensym := s.gensym + 1 }
    else []
  | .setTc tcOn k => fun s => trace k { s with tcOn := tcOn }
  | .check args orig k => fun s =>
    let r := streamWrapper (run off orig) args s
    (if r.1.isNone then [.raised] else []) ++ trace (k r.1) r.2
  | .load fileHash body k => fun s =>
    let r := nativeLoad off (run off body) fileHash s
    loadTrace (trace body) (run off body) fileHash s ++ trace (k r.1) r.2

/-- The checks of the program load nothing and leave the switch alone. -/
def Prog.Calm : Prog → Prop
  | .ret _ => True
  | .raise => True
  | .fresh k => ∀ n, (k n).Calm
  | .setTc _ k => k.Calm
  | .check _ orig k => orig.Quiet ∧ ∀ r, (k r).Calm
  | .load _ body k => body.Calm ∧ ∀ r, (k r).Calm

/-- No check raises, the key of a load tells what the load records, and recordings fit into memory. -/
structure Usable (L : List Event) : Prop where
  raised : Event.raised ∉ L
  keys : ∀ key a b, Event.loaded key a ∈ L → Event.loaded key b ∈ L → a = b
  small : ∀ key r, Event.loaded key (some r) ∈ L → r.Small

/-- What can be read is of the loads of the list. -/
def Agrees (files : UInt64 → Option Text) (L : List Event) : Prop :=
  ∀ key a r, Event.loaded key a ∈ L → (files key).bind readCache = some r →
    ∃ b, a = some b ∧ r = b.stored

/-! ### Files -/

theorem agrees_empty (L : List Event) : Agrees (fun _ => none) L := fun _ _ _ _ h =>
  absurd h (by simp)

/-- **What is written is right** for every load of the same key. -/
theorem Agrees.update {files : UInt64 → Option Text} (h : Agrees files L) (hL : Usable L)
    {key : UInt64} {b : TcRecording} (hb : Event.loaded key (some b) ∈ L) :
    Agrees (Function.update files key (some (writeCache b))) L := by
  intro key' a r ha hr
  by_cases hkey : key' = key
  · subst hkey
    rw [Function.update_self, Option.bind_some] at hr
    exact ⟨b, hL.keys _ _ _ ha hb, eq_stored_of_readCache (hL.small _ _ hb) hr⟩
  · rw [Function.update_of_ne hkey] at hr
    exact h key' a r ha hr

/-! ### Checks -/

theorem Alike.after (h : Alike p s) (n : Int64) (hstack : Paired (c :: cs) (d :: ds)) :
    Alike (p.after n c cs) (s.after n d ds) :=
  ⟨h.chain, rfl, h.tcOn, h.files, hstack⟩

theorem Alike.withGensym (h : Alike p s) (n : Int64) : Alike (p.withGensym n) (s.withGensym n) :=
  ⟨h.chain, rfl, h.tcOn, h.files, h.stack⟩

theorem Alike.quietRun (h : Alike p s) (inside : Bool) (o : Prog) :
    (quietRun inside o s).1 = (quietRun inside o p).1 ∧
      Alike (quietRun inside o p).2 (quietRun inside o s).2 := by
  unfold Replay.quietRun
  rw [h.gensym]
  exact ⟨rfl, h.withGensym _⟩

/-- **A check goes as in the plain run.** -/
theorem check_tracks {o : Prog} (ho : o.Quiet) (args : List Value) (h : Alike p s)
    (hraised : (streamWrapper (run off o) args p).1 ≠ none)
    (hahead : AheadAt (streamWrapper (run off o) args p).2.stack s.stack) :
    (streamWrapper (run w o) args s).1 = (streamWrapper (run off o) args p).1 ∧
      Alike (streamWrapper (run off o) args p).2 (streamWrapper (run w o) args s).2 ∧
      (streamWrapper (run w o) args s).2.files = s.files := by
  have hpair := h.stack
  rcases hp : p.stack with _ | ⟨c, cs⟩
  · rw [hp] at hpair
    have hs : s.stack = [] := by
      rcases hs : s.stack with _ | ⟨d, ds⟩
      · rfl
      · rw [hs] at hpair
        rcases hpair
    rw [streamWrapper_outside args ho hs, streamWrapper_outside args ho hp, h.gensym]
    exact ⟨rfl, h.withGensym _, rfl⟩
  rcases hs : s.stack with _ | ⟨d, ds⟩
  · rw [hp, hs] at hpair
    rcases hpair
  rw [hp, hs] at hpair
  obtain ⟨htracks, hrest⟩ : Tracks c d ∧ ds.map LoadCtx.keyed = cs.map LoadCtx.keyed := by
    rcases hpair with _ | ⟨htracks, hrest⟩
    exact ⟨htracks, hrest⟩
  rcases hpoisoned : c.poisoned with _ | _
  · have hdpoisoned : d.poisoned = false := htracks.poisoned.trans hpoisoned
    rcases hv : (quiet true o p.gensym).1 with _ | v
    · -- without a value nothing is recorded
      refine absurd ?_ hraised
      unfold streamWrapper
      rw [hp]
      dsimp only
      rw [if_neg (by rw [hpoisoned, htracks.depth]; simp), if_neg (by rw [htracks.plain]; decide)]
      unfold recordCheck
      rw [withDepthOrig_inside ho hp]
      unfold Replay.quietRun
      dsimp only
      rw [hv]
    have hsv : (quiet true o s.gensym).1 = some v := by rw [h.gensym, hv]
    have hplain := streamWrapper_record (w := off) ho args hp hpoisoned htracks.depth htracks.plain hv
    rcases hreplay : d.replay with _ | _
    · have hrecord := streamWrapper_record (w := w) ho args hs hdpoisoned htracks.depth' hreplay hsv
      rw [hplain, hrecord, h.gensym]
      exact ⟨rfl, h.after _ (.cons (htracks.record hreplay _ _) hrest), rfl⟩
    · rw [hplain, hs] at hahead
      have hpre := Ahead.tc hahead hreplay
      have he : d.tc[d.cursor]? =
          some (entryOf (hashArgs args) v (quiet true o s.gensym).2).stored := by
        rw [h.gensym, (htracks.replayed hreplay).1, ← List.length_map (f := TcEntry.stored)]
        rw [List.map_append] at hpre
        obtain ⟨t, ht⟩ := hpre
        rw [← ht, List.append_assoc, List.getElem?_append_right (Nat.le_refl _), Nat.sub_self]
        rfl
      have hcached := streamWrapper_replay (w := w) ho args hs hdpoisoned htracks.depth' hreplay hsv he
      rw [hplain, hcached, h.gensym]
      exact ⟨rfl, h.after _ (.cons (htracks.replay hreplay _ _) hrest), rfl⟩
  · rw [streamWrapper_poisoned ho args hp hpoisoned,
      streamWrapper_poisoned ho args hs (htracks.poisoned.trans hpoisoned)]
    obtain ⟨hvalue, halike⟩ := h.quietRun true o
    exact ⟨hvalue, halike, rfl⟩

/-! ### Loads -/

@[simp] theorem TcState.poisonTop_files (s : TcState) : s.poisonTop.files = s.files := by
  unfold TcState.poisonTop
  split
  · rfl
  · rfl

@[simp] theorem TcState.pin_files (s : TcState) (n : Int64) : (s.pin n).files = s.files := by
  unfold TcState.pin
  split_ifs
  · rfl
  · rfl

@[simp] theorem noteLoad_files (x : UInt64) (s : TcState) : (noteLoad x s).files = s.files := by
  unfold noteLoad
  split
  · rfl
  · dsimp only
    split_ifs
    · rfl
    · rfl
    · rfl

theorem situation_alike (h : Alike p s) (fileHash : UInt64) (tcOn : Bool) :
    situation s fileHash tcOn = situation p fileHash tcOn := by
  have hframes : s.stack.reverse.map LoadCtx.keyed = p.stack.reverse.map LoadCtx.keyed := by
    rw [List.map_reverse, List.map_reverse, h.stack.keyed]
  unfold situation
  rw [h.chain, h.gensym]
  exact congrArg (fun frames => (⟨p.chain, frames, fileHash, tcOn, p.gensym⟩ : Situation)) hframes

theorem recordingOf_some {r : Outcome} {b : TcRecording} (h : recordingOf r = some b) :
    ∃ v done rest, r.1 = some v ∧ r.2.stack = done :: rest ∧ done.poisoned = false ∧
      b = done.recording r.2.gensym := by
  rcases r with ⟨_ | v, t⟩
  · exact absurd h (by simp [recordingOf])
  rcases hstack : t.stack with _ | ⟨done, rest⟩
  · unfold recordingOf at h
    rw [hstack] at h
    exact absurd h (by simp)
  · unfold recordingOf at h
    rw [hstack] at h
    dsimp only at h
    split_ifs at h with hpoisoned
    exact ⟨v, done, rest, rfl, rfl, Bool.eq_false_iff.mpr hpoisoned, (Option.some.inj h).symm⟩

theorem recordingOf_done {r : Outcome} {v : Value} {done : LoadCtx} {rest : List LoadCtx}
    (hv : r.1 = some v) (hs : r.2.stack = done :: rest) (hpoisoned : done.poisoned = false) :
    recordingOf r = some (done.recording r.2.gensym) := by
  unfold recordingOf
  rw [hv, hs]
  dsimp only
  rw [if_neg (by rw [hpoisoned]; decide)]

/-- The load that a plain run starts. -/
def plainLoad (fileHash : UInt64) (p : TcState) : LoadCtx :=
  { fileHash := fileHash
    gensymStart := p.gensym
    replay := false }

theorem beginLoad_plain (hp : p.files = fun _ => none) (fileHash key : UInt64) :
    beginLoad fileHash key p =
      { p with
        misses := p.misses + 1
        stack := plainLoad fileHash p :: p.stack } := by
  unfold beginLoad cached
  rw [hp]
  rfl

theorem pin_self (s : TcState) : s.pin s.gensym = s := if_neg Int64.lt_irrefl

/-- **A load starts as in the plain run**, with what has been recorded there. -/
theorem beginLoad_tracks (h : Alike p s) (fileHash key : UInt64) (a : Option TcRecording)
    (hcached : ∀ r, cached s key = some r → ∃ b, a = some b ∧ r = b.stored)
    (hstart : ∀ b, a = some b → b.gensymStart = p.gensym) :
    ∃ d, (beginLoad fileHash key s).stack = d :: s.stack ∧
      Alike (beginLoad fileHash key p) (beginLoad fileHash key s) ∧
      (beginLoad fileHash key s).files = s.files ∧
      (d.replay = true → ∃ b, a = some b ∧ d.tc = b.stored.tc ∧ d.ckpt = b.ckpt ∧
        d.gensymEndRecorded = b.gensymEnd) := by
  rw [beginLoad_plain h.files]
  rcases hr : cached s key with _ | r
  · have hbegin : beginLoad fileHash key s =
        { s with
          misses := s.misses + 1
          stack := plainLoad fileHash s :: s.stack } := by
      unfold beginLoad
      rw [hr]
      rfl
    have htracks : Tracks (plainLoad fileHash p) (plainLoad fileHash s) :=
      ⟨rfl, rfl, rfl, rfl, rfl, rfl, fun _ => ⟨h.gensym, rfl, rfl⟩,
        fun hd => (Bool.false_ne_true hd).elim⟩
    rw [hbegin]
    exact ⟨_, rfl, ⟨h.chain, h.gensym, h.tcOn, h.files, .cons htracks h.stack.keyed⟩, rfl,
      fun hd => (Bool.false_ne_true hd).elim⟩
  · obtain ⟨b, hb, rfl⟩ := hcached r hr
    have hgensym : b.stored.gensymStart = s.gensym := (hstart b hb).trans h.gensym.symm
    have hbegin : beginLoad fileHash key s =
        { s with
          hits := s.hits + 1
          stack := { fileHash := fileHash
                     gensymStart := s.gensym
                     gensymEndRecorded := b.gensymEnd
                     replay := true
                     tc := b.stored.tc
                     ckpt := b.ckpt } :: s.stack } := by
      unfold beginLoad
      rw [hr]
      dsimp only
      rw [hgensym, pin_self, if_neg Int64.lt_irrefl]
      rfl
    rw [hbegin]
    refine ⟨_, rfl, ⟨h.chain, h.gensym, h.tcOn, h.files, .cons ?_ h.stack.keyed⟩, rfl,
      fun _ => ⟨b, hb, rfl, rfl, rfl⟩⟩
    exact ⟨rfl, rfl, rfl, rfl, rfl, rfl, fun hd => (Bool.false_ne_true hd.symm).elim,
      fun _ => ⟨rfl, rfl⟩⟩

/-- **The load around learns of the end of a load as in the plain run.** -/
theorem noteLoad_alike {x : UInt64} (h : Alike p s) (hahead : AheadAt (noteLoad x p).stack s.stack) :
    Alike (noteLoad x p) (noteLoad x s) := by
  rcases p with ⟨pchain, pstack, pfiles, pgensym, ptcOn, phits, pmisses⟩
  rcases s with ⟨schain, sstack, sfiles, sgensym, stcOn, shits, smisses⟩
  obtain ⟨hchain, hgensym, htcOn, hfiles, hstack⟩ := h
  rcases hstack with _ | @⟨c, d, cs, ds, htracks, hrest⟩
  · exact ⟨hchain, hgensym, htcOn, hfiles, .nil⟩
  unfold noteLoad at hahead ⊢
  dsimp only at hahead ⊢
  rw [if_neg (by rw [htracks.plain]; decide)] at hahead ⊢
  have hdigest : fnvU64 d.digest x = fnvU64 c.digest x := congrArg (fnvU64 · x) htracks.digest
  rcases hreplay : d.replay with _ | _
  · obtain ⟨hstart, htc, hckpt⟩ := htracks.recorded hreplay
    rw [if_neg (by decide)]
    exact ⟨hchain, hgensym, htcOn, hfiles, .cons ⟨htracks.fileHash, hdigest, htracks.poisoned,
      htracks.plain, htracks.depth, htracks.depth', fun _ => ⟨hstart, htc, congrArg (· ++ [x]) hckpt⟩,
      fun hd => (Bool.false_ne_true hd).elim⟩ hrest⟩
  · obtain ⟨hcursor, hckpt⟩ := htracks.replayed hreplay
    have hnext : d.ckpt[d.ckptCursor]? = some x := by
      obtain ⟨t, ht⟩ := Ahead.ckpt hahead hreplay
      rw [hckpt, ← ht, List.append_assoc, List.getElem?_append_right (Nat.le_refl _), Nat.sub_self]
      rfl
    have hlearnt : d.ckptCursor + 1 = (c.ckpt ++ [x]).length := by
      rw [List.length_append, List.length_singleton, hckpt]
    rw [if_pos rfl, if_pos hnext]
    exact ⟨hchain, hgensym, htcOn, hfiles, .cons ⟨htracks.fileHash, hdigest, htracks.poisoned,
      htracks.plain, htracks.depth, htracks.depth',
      fun hd => (Bool.false_ne_true hd.symm).elim,
      fun _ => ⟨hcursor, hlearnt⟩⟩ hrest⟩

theorem Paired.cons_inv (h : Paired (c :: cs) ds) : ∃ d es, ds = d :: es ∧ Tracks c d := by
  rcases h with _ | ⟨h, _⟩
  exact ⟨_, _, rfl, h⟩

/-- What is written of a load is what the plain load has recorded. -/
theorem keepLoad_files {x : UInt64} {t : TcState} {key : UInt64} (htracks : Tracks c d)
    (hA : Agrees t.files L) (hU : Usable L)
    (hevent : c.poisoned = false → Event.loaded key (some (c.recording t.gensym)) ∈ L) :
    Agrees (noteLoad x (keepLoad w key d t)).files L := by
  rw [noteLoad_files]
  unfold keepLoad
  split_ifs with hreplay hkeep
  · rw [TcState.pin_files]
    exact hA
  · obtain ⟨hstart, htc, hckpt⟩ := htracks.recorded (Bool.eq_false_iff.mpr hreplay)
    have hrec : d.recording t.gensym = c.recording t.gensym := by
      unfold LoadCtx.recording
      rw [hstart, htc, hckpt]
    dsimp only
    rw [hrec]
    exact hA.update hU (hevent (htracks.poisoned.symm.trans hkeep.1))
  · exact hA

/-- A load that has replayed, or recorded, leaves the counter and the loads around as they are. -/
theorem keepLoad_eq {t : TcState} (key : UInt64)
    (hend : d.replay = true → d.gensymEndRecorded = t.gensym) :
    ∃ files, keepLoad w key d t = { t with files := files } := by
  unfold keepLoad
  split_ifs with hreplay hkeep
  · rw [hend hreplay, pin_self]
    exact ⟨t.files, rfl⟩
  · exact ⟨_, rfl⟩
  · exact ⟨t.files, rfl⟩

/-- **A load ends as in the plain run.** -/
theorem finishLoad_tracks {rp rs : Outcome} {fileHash key : UInt64} {tcOn : Bool} (h : Alike p s)
    (hvalue : rs.1 = rp.1) (hr : Alike rp.2 rs.2) (hA : Agrees rs.2.files L) (hU : Usable L)
    (hp : rp.2.stack = c :: p.stack) (hs : rs.2.stack = d :: s.stack)
    (hevent : Event.loaded key (recordingOf rp) ∈ L)
    (hend : d.replay = true → rp.1 ≠ none → d.gensymEndRecorded = rp.2.gensym)
    (hahead : AheadAt (finishLoad off fileHash key tcOn rp).2.stack s.stack) :
    (finishLoad w fileHash key tcOn rs).1 = (finishLoad off fileHash key tcOn rp).1 ∧
      Alike (finishLoad off fileHash key tcOn rp).2 (finishLoad w fileHash key tcOn rs).2 ∧
      Agrees (finishLoad w fileHash key tcOn rs).2.files L := by
  rcases rp with ⟨rp, tp⟩
  rcases rs with ⟨rs, ts⟩
  obtain rfl : rs = rp := hvalue
  dsimp only at hr hA hp hs hend
  have htracks : Tracks c d := by
    have hstack := hr.stack
    rw [hp, hs] at hstack
    obtain ⟨d', es, heq, htracks⟩ := hstack.cons_inv
    obtain ⟨rfl, -⟩ := List.cons.inj heq
    exact htracks
  unfold finishLoad at hahead ⊢
  dsimp only at hahead ⊢
  rw [hp] at hahead
  rw [hp, hs]
  rcases rs with _ | v
  · have hrest : Alike { tp with stack := p.stack } { ts with stack := s.stack } :=
      ⟨hr.chain, hr.gensym, hr.tcOn, hr.files, h.stack⟩
    refine ⟨rfl, hrest.poisonTop, ?_⟩
    rw [TcState.poisonTop_files]
    exact hA
  · dsimp only at hahead ⊢
    rw [hr.chain]
    have hplain : keepLoad off key c { tp with
        stack := p.stack
        chain := chainStep tp.chain fileHash tcOn } = { tp with
        stack := p.stack
        chain := chainStep tp.chain fileHash tcOn } := by
      unfold keepLoad
      rw [if_neg (by rw [htracks.plain]; decide), if_neg fun h => Bool.false_ne_true h.2]
    rw [hplain] at hahead ⊢
    refine ⟨rfl, noteLoad_alike ?_ ?_, ?_⟩
    · obtain ⟨files, hkeep⟩ := keepLoad_eq (w := w) (d := d) (t := { ts with
        stack := s.stack
        chain := chainStep tp.chain fileHash tcOn }) key
          fun hreplay => (hend hreplay (by simp)).trans hr.gensym.symm
      rw [hkeep]
      exact ⟨rfl, hr.gensym, hr.tcOn, hr.files, h.stack⟩
    · rw [keepLoad_stack]
      exact hahead
    · refine keepLoad_files htracks hA hU fun hpoisoned => ?_
      have hrec := recordingOf_done (r := (some v, tp)) rfl hp hpoisoned
      rw [hrec] at hevent
      have hgensym : tp.gensym = ts.gensym := hr.gensym.symm
      rwa [hgensym] at hevent

/-- What a load does to the runs that follow each other, from what its text does. -/
theorem nativeLoad_tracks {body : Prog} (fileHash : Option UInt64) (hU : Usable L)
    (hbody : ∀ {p s : TcState}, Alike p s → AheadAt (run off body p).2.stack s.stack →
      Agrees s.files L → trace body p ⊆ L →
        (run w body s).1 = (run off body p).1 ∧ Alike (run off body p).2 (run w body s).2 ∧
          Agrees (run w body s).2.files L)
    (h : Alike p s) (hahead : AheadAt (nativeLoad off (run off body) fileHash p).2.stack s.stack)
    (hA : Agrees s.files L)
    (htrace : loadTrace (trace body) (run off body) fileHash p ⊆ L) :
    (nativeLoad w (run w body) fileHash s).1 = (nativeLoad off (run off body) fileHash p).1 ∧
      Alike (nativeLoad off (run off body) fileHash p).2 (nativeLoad w (run w body) fileHash s).2 ∧
      Agrees (nativeLoad w (run w body) fileHash s).2.files L := by
  have hpass : AheadAt (run off body p.poisonTop).2.stack s.stack → trace body p.poisonTop ⊆ L →
      (run w body s.poisonTop).1 = (run off body p.poisonTop).1 ∧
        Alike (run off body p.poisonTop).2 (run w body s.poisonTop).2 ∧
        Agrees (run w body s.poisonTop).2.files L := fun hahead htrace =>
    hbody h.poisonTop (hahead.after (poisonTop_framed s)) (by rwa [TcState.poisonTop_files]) htrace
  rcases fileHash with _ | fileHash
  · exact hpass hahead htrace
  unfold nativeLoad at hahead ⊢
  unfold loadTrace at htrace
  rw [h.tcOn]
  generalize p.tcOn = tcOn at hahead htrace ⊢
  rcases tcOn with _ | tcOn
  · exact hpass hahead htrace
  dsimp only at hahead htrace ⊢
  rw [situation_alike h]
  generalize hkey : loadKey (situation p fileHash tcOn) = key at hahead htrace ⊢
  obtain ⟨hinner, hown⟩ := List.append_subset.mp htrace
  have hevent := hown (List.mem_singleton_self _)
  have hp : (beginLoad fileHash key p).stack = plainLoad fileHash p :: p.stack := by
    rw [beginLoad_plain h.files]
  obtain ⟨c, hc, hgrown⟩ : ∃ c, (run off body (beginLoad fileHash key p)).2.stack = c :: p.stack ∧
      Grown (plainLoad fileHash p) c := by
    have hframed := run_framed off body (beginLoad fileHash key p)
    rw [hp] at hframed
    exact hframed.cons_inv
  -- what is replayed is what the plain load is about to record
  have hfinal : ∀ b, recordingOf (run off body (beginLoad fileHash key p)) = some b →
      c.poisoned = false ∧ b = c.recording (run off body (beginLoad fileHash key p)).2.gensym := by
    intro b hb
    obtain ⟨v, done, rest, -, hdone, hpoisoned, hrec⟩ := recordingOf_some hb
    rw [hc] at hdone
    obtain ⟨rfl, -⟩ := List.cons.inj hdone
    exact ⟨hpoisoned, hrec⟩
  obtain ⟨d, hd, halike, hfiles, hreplay⟩ := beginLoad_tracks h fileHash key
    (recordingOf (run off body (beginLoad fileHash key p)))
    (fun r hr => hA key _ r hevent hr)
    (fun b hb => by rw [(hfinal b hb).2]; exact hgrown.gensymStart)
  have haheadBody : AheadAt (run off body (beginLoad fileHash key p)).2.stack
      (beginLoad fileHash key s).stack := by
    rw [hc, hd]
    refine ⟨fun hr => ?_, fun hr => ?_, fun hr => ?_⟩
    · obtain ⟨b, hb, htc, -, -⟩ := hreplay hr
      rw [htc, (hfinal b hb).2]
      exact List.prefix_rfl
    · obtain ⟨b, hb, -, hckpt, -⟩ := hreplay hr
      rw [hckpt, (hfinal b hb).2]
      exact List.prefix_rfl
    · obtain ⟨b, hb, -, -, -⟩ := hreplay hr
      exact (hfinal b hb).1
  obtain ⟨hvalue, hdone, hA'⟩ := hbody halike haheadBody (by rwa [hfiles]) hinner
  obtain ⟨e, he, hde⟩ : ∃ e, (run w body (beginLoad fileHash key s)).2.stack = e :: s.stack ∧
      Grown d e := by
    have hframed := run_framed w body (beginLoad fileHash key s)
    rw [hd] at hframed
    exact hframed.cons_inv
  refine finishLoad_tracks h hvalue hdone hA' hU hc he hevent (fun hr _ => ?_) hahead
  obtain ⟨b, hb, -, -, hgensym⟩ := hreplay (hde.replay.symm.trans hr)
  rw [hde.gensymEndRecorded, hgensym, (hfinal b hb).2]
  rfl

/-- **A run that replays goes as the plain run.** -/
theorem run_tracks {P : Prog} (hP : P.Calm) (hU : Usable L) (h : Alike p s)
    (hahead : AheadAt (run off P p).2.stack s.stack) (hA : Agrees s.files L) (htrace : trace P p ⊆ L) :
    (run w P s).1 = (run off P p).1 ∧ Alike (run off P p).2 (run w P s).2 ∧
      Agrees (run w P s).2.files L := by
  induction P generalizing p s with
  | ret v => exact ⟨rfl, h, hA⟩
  | raise => exact ⟨rfl, h, hA⟩
  | fresh k ih =>
    by_cases hmax : p.gensym < Int64.maxValue
    · have hmax' : s.gensym < Int64.maxValue := by rwa [h.gensym]
      rw [run_fresh hmax] at hahead ⊢
      rw [run_fresh hmax']
      have hsteps : trace (k (p.gensym + 1)) { p with gensym := p.gensym + 1 } ⊆ L := by
        unfold trace at htrace
        rwa [if_pos hmax] at htrace
      have hnext : Alike { p with gensym := p.gensym + 1 } { s with gensym := s.gensym + 1 } :=
        ⟨h.chain, congrArg (· + 1) h.gensym, h.tcOn, h.files, h.stack⟩
      rw [h.gensym] at hnext ⊢
      exact ih _ (hP _) hnext hahead hA hsteps
    · have hmax' : ¬s.gensym < Int64.maxValue := by rwa [h.gensym]
      rw [run_fresh_max hmax, run_fresh_max hmax']
      exact ⟨rfl, h, hA⟩
  | setTc tcOn k ih =>
    exact ih (p := { p with tcOn := tcOn }) (s := { s with tcOn := tcOn }) hP
      ⟨h.chain, h.gensym, rfl, h.files, h.stack⟩ hahead hA htrace
  | check args orig k iho ihk =>
    obtain ⟨hnow, hlater⟩ := List.append_subset.mp htrace
    have hraised : (streamWrapper (run off orig) args p).1 ≠ none := by
      intro hnone
      rw [hnone] at hnow
      exact hU.raised (hnow (List.mem_singleton_self _))
    have hstep := run_framed off (k (streamWrapper (run off orig) args p).1)
      (streamWrapper (run off orig) args p).2
    rw [run_check] at hahead ⊢
    obtain ⟨hvalue, halike, hfiles⟩ := check_tracks (w := w) hP.1 args h hraised (hahead.before hstep)
    rw [run_check, hvalue]
    exact ihk _ (hP.2 _) halike (hahead.after (streamWrapper_framed (run_framed w orig) args s))
      (by rwa [hfiles]) hlater
  | load fileHash body k ihb ihk =>
    obtain ⟨hnow, hlater⟩ := List.append_subset.mp htrace
    have hstep := run_framed off (k (nativeLoad off (run off body) fileHash p).1)
      (nativeLoad off (run off body) fileHash p).2
    rw [run_load] at hahead ⊢
    obtain ⟨hvalue, halike, hA'⟩ := nativeLoad_tracks fileHash hU (fun h ha hA ht => ihb hP.1 h ha hA ht)
      h (hahead.before hstep) hA hnow
    rw [run_load, hvalue]
    exact ihk _ (hP.2 _) halike (hahead.after (nativeLoad_framed (run_framed w body) fileHash s))
      hA' hlater

/-! ### Sessions -/

/-- A session: a program that starts outside of every load, with the recordings it can write. -/
structure Session where
  program : Prog
  calm : program.Calm
  start : TcState
  outside : start.stack = []
  writable : UInt64 → Bool

namespace Session

/-- The session over a directory of recordings. -/
def outcome (x : Session) (files : UInt64 → Option Text) : Outcome :=
  run x.writable x.program { x.start with files := files }

/-- The session without recordings. -/
def plain (x : Session) : Outcome := run off x.program { x.start with files := fun _ => none }

/-- What the session does with recordings. -/
def events (x : Session) : List Event := trace x.program { x.start with files := fun _ => none }

end Session

/-- The directory that sessions leave, the last one first. -/
def directory : List Session → UInt64 → Option Text
  | [] => fun _ => none
  | x :: earlier => (x.outcome (directory earlier)).2.files

/-- A session over a directory of recordings of its loads. -/
theorem outcome_tracks (x : Session) {files : UInt64 → Option Text} (hU : Usable L)
    (hA : Agrees files L) (hx : x.events ⊆ L) :
    (x.outcome files).1 = x.plain.1 ∧ Alike x.plain.2 (x.outcome files).2 ∧
      Agrees (x.outcome files).2.files L := by
  have hstart : Alike { x.start with files := fun _ => none } { x.start with files := files } := by
    refine ⟨rfl, rfl, rfl, rfl, ?_⟩
    dsimp only
    rw [x.outside]
    exact .nil
  have hahead : AheadAt x.plain.2.stack x.start.stack := by
    rw [x.outside]
    exact aheadAt_nil _
  exact run_tracks x.calm hU hstart hahead hA hx

theorem directory_agrees (hU : Usable L) {xs : List Session} (h : ∀ x ∈ xs, x.events ⊆ L) :
    Agrees (directory xs) L := by
  induction xs with
  | nil => exact agrees_empty L
  | cons x earlier ih =>
    have hearlier := ih fun y hy => h y (List.mem_cons_of_mem _ hy)
    exact (outcome_tracks x hU hearlier (h x List.mem_cons_self)).2.2

/-- A load of a text with one check, which takes a number from the counter. -/
def loadOnce : Session where
  program := .load (some 7)
    (.check [.nil] (.fresh fun n => .ret (.long n)) fun v => .ret (v.getD .null))
    fun v => .ret (v.getD .null)
  calm := ⟨⟨fun _ => trivial, fun _ => trivial⟩, fun _ => trivial⟩
  start :=
    { chain := 1
      stack := []
      files := fun _ => none
      gensym := 40
      tcOn := some true }
  outside := rfl
  writable := fun _ => true

end ShenRc.Replay
