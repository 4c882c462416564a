import ShenRc.Interpret.Evaluate

/-! # Frames that are made late

A prepared body makes the frames of its bindings when it needs them, at most once, and `evaluate` makes
each of them at once. Where every value belongs to the context and memory for frames can be had, neither
shows: `Yields x y` says that `x` does what `y` does, whatever frames there are. -/

namespace ShenRc.Interpret

open Numeral Eval

variable {m : Type → Type} {V : Type} [Monad m]

/-- With whatever frames there are, `x` does what `y` does. -/
def Yields {α : Type} (x : StateT ℕ m α) (y : m α) : Prop := ∀ made, x.run' made = y

namespace Yields

variable {α β : Type} {x x' : StateT ℕ m α} {y y' : m α} {f : α → StateT ℕ m β} {g : α → m β}

theorem ite {p : Prop} [Decidable p] (hx : Yields x y) (hx' : Yields x' y') :
    Yields (if p then x else x') (if p then y else y') := by
  split_ifs
  · exact hx
  · exact hx'

variable [LawfulMonad m]

theorem pure (a : α) : Yields (m := m) (Pure.pure a) (Pure.pure a) := fun made => by
  simp [StateT.run'_eq]

theorem of_eq {a b : α} (h : a = b) : Yields (m := m) (Pure.pure a) (Pure.pure b) := h ▸ pure a

theorem lift (y : m α) : Yields (liftM y) y := fun made => by
  simp [StateT.run'_eq]

theorem bind (hx : Yields x y) (hf : ∀ a, Yields (f a) (g a)) : Yields (x >>= f) (y >>= g) :=
  fun made => by
    have hrun : (x >>= f).run' made = x.run made >>= fun p => (f p.1).run' p.2 := by
      simp [StateT.run'_eq, map_bind]
    rw [hrun, ← hx made, StateT.run'_eq, bind_map_left]
    exact bind_congr fun p => hf p.1 p.2

theorem get {f : ℕ → StateT ℕ m α} (h : ∀ made, Yields (f made) y) :
    Yields (MonadState.get >>= f) y := fun made => by
  rw [← h made made]
  simp [StateT.run'_eq]

theorem set (a : α) (k : ℕ) :
    Yields (do
      let a ← (liftM (Pure.pure a : m α) : StateT ℕ m α)
      MonadStateOf.set k
      Pure.pure a) (Pure.pure a) :=
  fun made => by simp [StateT.run'_eq]

/-- Frames that go when a value is there do not show. -/
theorem drop (hx : Yields x y) (k : ℕ → ℕ) :
    Yields (do let a ← x; modify k; Pure.pure a) y := fun made => by
  rw [← hx made]
  simp [StateT.run'_eq]

end Yields

variable [LawfulMonad m]

/-- Every value belongs to the context, and memory for a frame can always be had. -/
structure FramesSucceed (H : Host m V) : Prop where
  belongs : ∀ v, H.belongs v = true
  newFrame : ∀ count, H.newFrame count = pure ()

theorem FramesSucceed.makeFrame {H : Host m V} (h : FramesSucceed H) (parent : Env V)
    (keys : List Text) (values : List V) :
    makeFrame H parent keys values = pure (envFrame parent keys values) := by
  rw [Interpret.makeFrame, if_pos (List.all_eq_true.2 fun v _ => h.belongs v), h.newFrame, pure_bind]

variable (H : Host m V)

theorem planFrames_yields {run : PlanRun V} (h : FramesSucceed H) (env : Env V) :
    Yields (planFrames H run env) (pure (run.environment env)) := by
  induction env with
  | nil =>
    refine .get fun made => ?_
    split_ifs
    · rw [h.makeFrame]
      exact .set _ 1
    · exact .pure _
  | cons p env ih =>
    refine .get fun made => ?_
    split_ifs
    · have hframe : (pure (run.environment (p :: env)) : m (Env V)) =
          pure (run.environment env) >>= fun parent => pure (envFrame parent [p.1] [p.2]) := by
        rw [pure_bind]
        rfl
      rw [hframe]
      refine .bind ih fun parent => ?_
      rw [h.makeFrame]
      exact .set _ _
    · exact .pure _

/-! ### Effects above the host -/

theorem callSecond_yields (function : V) {left right : Bool → StateT ℕ m V}
    {left' right' : Bool → m V} (hl : ∀ t, Yields (left t) (left' t))
    (hr : ∀ t, Yields (right t) (right' t)) :
    Yields (callSecond H function left right) (callSecond H function left' right') := by
  refine .bind (hl false) fun ignored => .bind (hr _) fun result => .ite ?_ (.lift _)
  refine .bind (.lift _) fun error => .ite (.lift _) ?_
  exact .bind (.lift _) fun result => .bind (.lift _) fun _ => .pure result

theorem mapM_yields {args : List (Bool → StateT ℕ m V)} {args' : List (Bool → m V)}
    (h : List.Forall₂ (fun a a' => ∀ t, Yields (a t) (a' t)) args args') :
    Yields (args.mapM fun arg => arg false) (args'.mapM fun arg => arg false) := by
  induction h with
  | nil => exact .pure []
  | cons ha _ ih =>
    rw [List.mapM_cons, List.mapM_cons]
    exact .bind (ha false) fun v => .bind ih fun vs => .pure (v :: vs)

theorem application_yields (function : V) {args : List (Bool → StateT ℕ m V)}
    {args' : List (Bool → m V)} (tail : Bool)
    (h : List.Forall₂ (fun a a' => ∀ t, Yields (a t) (a' t)) args args') :
    Yields (application H function args tail) (application H function args' tail) := by
  unfold application
  rw [h.length_eq]
  have hall := mapM_yields h
  refine .ite (.bind (.lift _) fun second => ?_) (.bind (.pure false) fun second => ?_)
  all_goals
    rcases second with _ | _
    · exact .bind hall fun values => .lift _
    rcases h with _ | ⟨hl, _ | ⟨hr, _ | ⟨_, _⟩⟩⟩
    · exact .bind hall fun values => .lift _
    · exact .bind hall fun values => .lift _
    · exact callSecond_yields H function hl hr
    · exact .bind hall fun values => .lift _

theorem firstTrue_yields {cases : List (StateT ℕ m V × StateT ℕ m V)} {cases' : List (m V × m V)}
    (h : List.Forall₂ (fun p p' => Yields p.1 p'.1 ∧ Yields p.2 p'.2) cases cases') :
    Yields (firstTrue H cases) (firstTrue H cases') := by
  induction h with
  | nil => exact .lift _
  | cons hp _ ih => exact .bind hp.1 fun value => .ite (.ite hp.2 ih) (.lift _)

theorem logicRest_yields (isAnd : Bool) (first : V) {second : StateT ℕ m V} {second' : m V}
    (h : Yields second second') :
    Yields (logicRest H isAnd first second) (logicRest H isAnd first second') :=
  .ite (.ite (.pure first) (.bind h fun _ => .lift _)) (.lift _)

theorem branch_yields (test : V) {yes no : StateT ℕ m V} {yes' no' : m V} (hy : Yields yes yes')
    (hn : Yields no no') : Yields (branch H test yes no) (branch H test yes' no') :=
  .ite (.ite hy hn) (.lift _)

end ShenRc.Interpret
