import ShenRc.Replay.Load

/-! # Quiet programs

What a program that loads nothing does is told by the counter alone (`quiet`), within a check
(`run_inside`) and outside of every load (`run_outside`). The counter goes forward (`quiet_le`). -/

namespace ShenRc.Replay

variable {w : UInt64 → Bool} {s : TcState} {top : LoadCtx} {rest : List LoadCtx}

/-- The state with another value of the counter. -/
def TcState.withGensym (s : TcState) (n : Int64) : TcState := { s with gensym := n }

@[simp] theorem TcState.withGensym_stack (s : TcState) (n : Int64) :
    (s.withGensym n).stack = s.stack := rfl

/-- What a check gives. Outside of every load there is always a value. -/
def caught (inside : Bool) (r : Option Value) : Option Value :=
  if inside then r else some (r.getD .null)

/-- What a program that loads nothing does with the counter. -/
def quiet (inside : Bool) : Prog → Int64 → Option Value × Int64
  | .ret v => fun n => (some v, n)
  | .raise => fun n => (none, n)
  | .fresh k => fun n => if n < Int64.maxValue then quiet inside (k (n + 1)) (n + 1) else (none, n)
  | .setTc _ k => quiet inside k
  | .check _ orig k => fun n =>
    quiet inside (k (caught inside (quiet inside orig n).1)) (quiet inside orig n).2
  | .load _ _ _ => fun n => (none, n)

/-- The program loads nothing and leaves the switch alone. -/
def Prog.Quiet : Prog → Prop
  | .ret _ => True
  | .raise => True
  | .fresh k => ∀ n, (k n).Quiet
  | .setTc _ _ => False
  | .check _ orig k => orig.Quiet ∧ ∀ r, (k r).Quiet
  | .load _ _ _ => False

/-- The outcome of a quiet program. -/
def quietRun (inside : Bool) (o : Prog) (s : TcState) : Outcome :=
  ((quiet inside o s.gensym).1, s.withGensym (quiet inside o s.gensym).2)

theorem quiet_fresh {inside : Bool} {k : Int64 → Prog} {n : Int64} (h : n < Int64.maxValue) :
    quiet inside (.fresh k) n = quiet inside (k (n + 1)) (n + 1) :=
  if_pos h

theorem quietRun_fresh {inside : Bool} {k : Int64 → Prog} (h : s.gensym < Int64.maxValue) :
    quietRun inside (.fresh k) s =
      quietRun inside (k (s.gensym + 1)) { s with gensym := s.gensym + 1 } := by
  unfold quietRun
  rw [quiet_fresh h]
  rfl

theorem quietRun_fresh_max {inside : Bool} {k : Int64 → Prog} (h : ¬s.gensym < Int64.maxValue) :
    quietRun inside (.fresh k) s = (none, s) := by
  have hquiet : quiet inside (.fresh k) s.gensym = (none, s.gensym) := if_neg h
  unfold quietRun
  rw [hquiet]
  rfl

theorem run_fresh {k : Int64 → Prog} (h : s.gensym < Int64.maxValue) :
    run w (.fresh k) s = run w (k (s.gensym + 1)) { s with gensym := s.gensym + 1 } :=
  if_pos h

theorem run_fresh_max {k : Int64 → Prog} (h : ¬s.gensym < Int64.maxValue) :
    run w (.fresh k) s = (none, s) :=
  if_neg h

theorem run_check (args : List Value) (o : Prog) (k : Option Value → Prog) (s : TcState) :
    run w (.check args o k) s = run w (k (streamWrapper (run w o) args s).1)
      (streamWrapper (run w o) args s).2 :=
  rfl

theorem run_load (fileHash : Option UInt64) (o : Prog) (k : Option Value → Prog) (s : TcState) :
    run w (.load fileHash o k) s = run w (k (nativeLoad w (run w o) fileHash s).1)
      (nativeLoad w (run w o) fileHash s).2 :=
  rfl

theorem withDepthOrig_top {f : TcState → Outcome} {r : Option Value} {n : Int64}
    (hs : s.stack = top :: rest)
    (h : f { s with stack := { top with tcDepth := top.tcDepth + 1 } :: rest } =
      (r, { s with
        stack := { top with tcDepth := top.tcDepth + 1 } :: rest
        gensym := n })) : withDepthOrig f s = (r, s.withGensym n) := by
  unfold withDepthOrig
  rw [hs]
  dsimp only
  rw [h]
  rcases s with ⟨chain, stack, files, gensym, tcOn, hits, misses⟩
  obtain rfl : stack = top :: rest := hs
  rfl

/-- **A quiet program within a check changes nothing but the counter.** -/
theorem run_inside {o : Prog} (ho : o.Quiet) (hs : s.stack = top :: rest) (hdepth : 0 < top.tcDepth) :
    run w o s = quietRun true o s := by
  induction o generalizing s top rest with
  | ret v => rfl
  | raise => rfl
  | fresh k ih =>
    by_cases hmax : s.gensym < Int64.maxValue
    · rw [run_fresh hmax, quietRun_fresh hmax]
      exact ih _ (ho _) hs hdepth
    · rw [run_fresh_max hmax, quietRun_fresh_max hmax]
  | setTc tcOn k => exact absurd ho id
  | check args o k iho ihk =>
    have hwrap : streamWrapper (run w o) args s = quietRun true o s := by
      unfold streamWrapper
      rw [hs]
      dsimp only
      rw [if_pos (Or.inr hdepth)]
      exact withDepthOrig_top hs (iho ho.1 rfl (Nat.succ_pos _))
    rw [run_check, hwrap]
    exact ihk _ (ho.2 _) (s := s.withGensym (quiet true o s.gensym).2) hs hdepth
  | load fileHash body k => exact absurd ho id

/-- **A quiet program outside of every load changes nothing but the counter.** -/
theorem run_outside {o : Prog} (ho : o.Quiet) (hs : s.stack = []) :
    run w o s = quietRun false o s := by
  induction o generalizing s with
  | ret v => rfl
  | raise => rfl
  | fresh k ih =>
    by_cases hmax : s.gensym < Int64.maxValue
    · rw [run_fresh hmax, quietRun_fresh hmax]
      exact ih _ (ho _) hs
    · rw [run_fresh_max hmax, quietRun_fresh_max hmax]
  | setTc tcOn k => exact absurd ho id
  | check args o k iho ihk =>
    have hwrap : streamWrapper (run w o) args s =
        (caught false (quiet false o s.gensym).1, s.withGensym (quiet false o s.gensym).2) := by
      unfold streamWrapper withDepthOrig
      rw [hs]
      dsimp only
      rw [iho ho.1 hs]
      rfl
    rw [run_check, hwrap]
    exact ihk _ (ho.2 _) (s := s.withGensym (quiet false o s.gensym).2) hs
  | load fileHash body k => exact absurd ho id

/-- A quiet check in a load. -/
theorem withDepthOrig_inside {o : Prog} (ho : o.Quiet) (hs : s.stack = top :: rest) :
    withDepthOrig (run w o) s = quietRun true o s :=
  withDepthOrig_top hs (run_inside ho rfl (Nat.succ_pos _))

/-- A quiet check outside of every load. -/
theorem streamWrapper_outside {o : Prog} (args : List Value) (ho : o.Quiet) (hs : s.stack = []) :
    streamWrapper (run w o) args s =
      (caught false (quiet false o s.gensym).1, s.withGensym (quiet false o s.gensym).2) := by
  unfold streamWrapper withDepthOrig
  rw [hs]
  dsimp only
  rw [run_outside ho hs]
  rfl

theorem lt_succ_of_lt_max {n : Int64} (h : n < Int64.maxValue) : n < n + 1 := by
  rw [Int64.lt_iff_toInt_lt] at h ⊢
  have hmax : Int64.maxValue.toInt = 2 ^ 63 - 1 := by decide
  have hone : (1 : Int64).toInt = 1 := by decide
  have hlo := n.le_toInt
  rw [hmax] at h
  rw [Int64.toInt_add, hone, Int.bmod_eq_of_le (by omega) (by omega)]
  omega

/-- **The counter goes forward.** -/
theorem quiet_le (inside : Bool) (o : Prog) (n : Int64) : n ≤ (quiet inside o n).2 := by
  induction o generalizing n with
  | ret v => exact Int64.le_refl n
  | raise => exact Int64.le_refl n
  | fresh k ih =>
    rw [quiet]
    dsimp only
    split_ifs with hmax
    · exact Int64.le_trans (Int64.le_of_lt (lt_succ_of_lt_max hmax)) (ih _ _)
    · exact Int64.le_refl n
  | setTc tcOn k ih => exact ih n
  | check args o k iho ihk => exact Int64.le_trans (iho n) (ihk _ _)
  | load fileHash body k => exact Int64.le_refl n

end ShenRc.Replay
