import Mathlib.Data.List.Infix
import ShenRc.Capture.Hooks

/-! # What a session keeps

* `captureReaderEvent_effect`: what a hooked call does to the capture: the depth is what it was, and
  outside the calls that stand for all they do, the events of the successful calls are added in the
  order of their completion, unless there is a report.
* `changes_covered`: every change is covered by such an event, by a snapshot, by a report, or it is
  `lost`: it was made in a call that failed.
* `lost_uncovered`: no event covers a lost change.

The calls of a session that have no call above them that stands for all it does are the outer ones. -/

namespace ShenRc.Capture

open Numeral Eval

/-! ### The events, the reports and the lost changes of a tree -/

/-- The event of a successful outer call, if it is not reported. -/
def eventOf (path : Path) (hook : Hook) (argv : List Expr) : Option Event :=
  match hook.kind with
  | .call => some ⟨path, "call", some hook.name, argv⟩
  | .defun => if rootDefinition argv then some ⟨path, "definition", none, argv.take 1⟩ else none
  | .macro_ => some ⟨path, "macro", none, argv.take 1⟩
  | .datatype => some ⟨path, "datatype", none, argv.take 1⟩
  | .set =>
    if (arg argv 0).isSymbol && !(arg argv 0).named "shen.*residue*"
        && !(arg argv 0).named "shen.*gensym*" then
      some ⟨path, "global", none, argv.take 2⟩
    else none
  | .put => some ⟨path, "property", none, argv.take 3⟩
  | .unput => some ⟨path, "unproperty", none, argv.take 2⟩
  | .address => none

/-- A successful outer call that is reported. -/
def objects (hook : Hook) (argv : List Expr) (host : Host) : Bool :=
  match hook.kind with
  | .call => !host.stored
  | .defun =>
    if rootDefinition argv then containsDefinition 0 (definitionBody argv) || !host.stored
    else containsDefinition 0 (arg argv 0)
  | .macro_ | .datatype => !standard argv host || !host.stored
  | .set =>
    !(arg argv 0).isSymbol || !host.stored
      && ((arg argv 0).named "shen.*residue*" || !(arg argv 0).named "shen.*gensym*")
  | .put | .unput => host.properties.isNone || !writesProperties hook argv host || !host.stored
  | .address => host.properties.isNone || writesProperties hook argv host

/-- A successful outer call that leaves parser residue. -/
def leavesResidue (hook : Hook) (argv : List Expr) (host : Host) : Bool :=
  hook.kind == .set && (arg argv 0).isSymbol && (arg argv 0).named "shen.*residue*" && host.stored

mutual

/-- The events for a call and the calls in it, in the order of their completion. -/
def completed (outer : Bool) (path : Path) : Call → List Event
  | .mk hook argv nested host =>
    if suppresses hook argv && !host.entered then []
    else
      completedAll (outer && !suppresses hook argv) path 0 nested
        ++ if outer && host.ok && !objects hook argv host then (eventOf path hook argv).toList else []

def completedAll (outer : Bool) (path : Path) : ℕ → List Call → List Event
  | _, [] => []
  | i, c :: cs => completed outer (path ++ [i]) c ++ completedAll outer path (i + 1) cs

end

mutual

/-- Whether there is a report. -/
def reports (outer : Bool) : Call → Bool
  | .mk hook argv nested host =>
    if suppresses hook argv && !host.entered then true
    else
      reportsAll (outer && !suppresses hook argv) nested
        || outer && host.ok && objects hook argv host

def reportsAll (outer : Bool) : List Call → Bool
  | [] => false
  | c :: cs => reports outer c || reportsAll outer cs

end

mutual

/-- Whether parser residue is noted. -/
def notesResidue (outer : Bool) : Call → Bool
  | .mk hook argv nested host =>
    if suppresses hook argv && !host.entered then false
    else
      notesResidueAll (outer && !suppresses hook argv) nested
        || outer && host.ok && leavesResidue hook argv host

def notesResidueAll (outer : Bool) : List Call → Bool
  | [] => false
  | c :: cs => notesResidue outer c || notesResidueAll outer cs

end

mutual

/-- The changes that are made in outer calls that fail. A call with an event covers the calls in it. -/
def lost (path : Path) : Call → List (Path × Change)
  | .mk hook argv nested host =>
    if suppresses hook argv && !host.entered then []
    else if host.ok && (eventOf path hook argv).isSome then []
    else if suppresses hook argv then changes path (.mk hook argv nested host)
    else
      lostAll path 0 nested
        ++ if host.ok then [] else (ownChanges hook argv host).map (path, ·)

def lostAll (path : Path) : ℕ → List Call → List (Path × Change)
  | _, [] => []
  | i, c :: cs => lost (path ++ [i]) c ++ lostAll path (i + 1) cs

end

/-! ### The capture -/

/-- What calls do to the capture. -/
structure Effect (due : List Event) (report residue : Bool) (s s' : ReaderCapture) : Prop where
  depth : s'.depth = s.depth
  events : s'.events = due.reverse ++ s.events
  unsupported : s'.unsupported.isSome = (s.unsupported.isSome || report)
  residue : s'.residue = (s.residue || residue)

namespace Effect

variable {due due' : List Event} {r r' q q' : Bool} {s s' t : ReaderCapture} {hook : Hook} {argv : List Expr}

theorem refl (s : ReaderCapture) : Effect [] false false s s := ⟨rfl, rfl, by simp, by simp⟩

theorem trans (h : Effect due r q s s') (h' : Effect due' r' q' s' t) :
    Effect (due ++ due') (r || r') (q || q') s t where
  depth := h'.depth.trans h.depth
  events := by rw [h'.events, h.events, List.reverse_append, List.append_assoc]
  unsupported := by rw [h'.unsupported, h.unsupported, Bool.or_assoc]
  residue := by rw [h'.residue, h.residue, Bool.or_assoc]

theorem report (reason : String) : Effect [] true false s (s.unsupportedCapture reason) :=
  ⟨rfl, rfl, by simp [ReaderCapture.unsupportedCapture],
    by simp [ReaderCapture.unsupportedCapture]⟩

theorem append (event : Event) (stored : Bool) :
    Effect (if stored then [event] else []) (!stored) false s (s.appendEvent event stored) := by
  cases stored
  · exact report _
  · exact ⟨rfl, rfl, by simp [ReaderCapture.appendEvent], by simp [ReaderCapture.appendEvent]⟩

/-- The depth that a hook has raised is restored. -/
theorem around (h : Effect due r q (enter hook argv s) t) :
    Effect due r q s (leave hook argv s.depth t) := by
  unfold enter at h
  unfold leave
  split_ifs at h ⊢
  · exact ⟨rfl, h.events, h.unsupported, h.residue⟩
  · exact h

end Effect

theorem record_effect (path : Path) (hook : Hook) (argv : List Expr) (host : Host)
    (s : ReaderCapture) :
    Effect (if !objects hook argv host then (eventOf path hook argv).toList else [])
      (objects hook argv host) (leavesResidue hook argv host) s
      (record path hook argv host s) := by
  unfold record eventOf objects leavesResidue
  have happend : ∀ event, Effect (if !!host.stored then [event] else []) (!host.stored) false s
      (s.appendEvent event host.stored) := by
    intro event
    rw [Bool.not_not]
    exact .append event host.stored
  rcases hook.kind with _ | _ | _ | _ | _ | _ | _ | _
  · exact happend _
  · rcases rootDefinition argv with _ | _
    · rcases containsDefinition 0 (arg argv 0) with _ | _
      · exact .refl s
      · exact .report _
    · rcases containsDefinition 0 (definitionBody argv) with _ | _
      · exact happend _
      · exact .report _
  · rcases standard argv host with _ | _
    · exact .report _
    · exact happend _
  · rcases standard argv host with _ | _
    · exact .report _
    · exact happend _
  · rcases (arg argv 0).isSymbol with _ | _
    · exact .report _
    rcases (arg argv 0).named "shen.*residue*" with _ | _
    · rcases (arg argv 0).named "shen.*gensym*" with _ | _
      · simpa using happend ⟨path, "global", none, argv.take 2⟩
      · simpa using Effect.refl s
    · rcases host.stored with _ | _
      · exact .report _
      · exact ⟨rfl, rfl, by simp, by simp⟩
  · rcases host.properties.isNone with _ | _
    · rcases writesProperties hook argv host with _ | _
      · exact .report _
      · exact happend _
    · exact .report _
  · rcases host.properties.isNone with _ | _
    · rcases writesProperties hook argv host with _ | _
      · exact .report _
      · exact happend _
    · exact .report _
  · rcases host.properties.isNone with _ | _
    · rcases writesProperties hook argv host with _ | _
      · exact .refl s
      · exact .report _
    · exact .report _

mutual

/-- **A hooked call.** -/
theorem captureReaderEvent_effect (path : Path) (c : Call) (s : ReaderCapture) :
    Effect (completed (s.depth == 0) path c) (reports (s.depth == 0) c)
      (notesResidue (s.depth == 0) c) s (captureReaderEvent path c s) := by
  match c with
  | .mk hook argv nested host =>
    rw [captureReaderEvent, completed, reports, notesResidue]
    rcases suppresses hook argv && !host.entered with _ | _
    swap
    · exact .report _
    simp only [Bool.false_eq_true, if_false]
    have hinner := (captureAll_effect path 0 nested (enter hook argv s)).around
    have houter : ((enter hook argv s).depth == 0) =
        (s.depth == 0 && !suppresses hook argv) := by
      unfold enter
      rcases suppresses hook argv with _ | _
      · simp
      · simp
    rw [houter] at hinner
    have hskip : (!host.ok || s.depth != 0) = !(s.depth == 0 && host.ok) := by
      rw [Bool.not_and, Bool.or_comm]
      rfl
    rw [hskip]
    rcases s.depth == 0 && host.ok with _ | _
    · simpa using hinner
    · exact hinner.trans (record_effect path hook argv host _)

theorem captureAll_effect (path : Path) (i : ℕ) (cs : List Call) (s : ReaderCapture) :
    Effect (completedAll (s.depth == 0) path i cs) (reportsAll (s.depth == 0) cs)
      (notesResidueAll (s.depth == 0) cs) s (captureAll path i cs s) := by
  match cs with
  | [] => exact .refl s
  | c :: cs =>
    have hc := captureReaderEvent_effect (path ++ [i]) c s
    have hcs := captureAll_effect path (i + 1) cs (captureReaderEvent (path ++ [i]) c s)
    rw [hc.depth] at hcs
    exact hc.trans hcs

end

/-! ### Places in the tree -/

theorem eventOf_source {path : Path} {hook : Hook} {argv : List Expr} {e : Event}
    (h : eventOf path hook argv = some e) : e.source = path := by
  unfold eventOf at h
  split at h
  · rw [← Option.some.inj h]
  · split_ifs at h
    rw [← Option.some.inj h]
  · rw [← Option.some.inj h]
  · rw [← Option.some.inj h]
  · split_ifs at h
    rw [← Option.some.inj h]
  · rw [← Option.some.inj h]
  · rw [← Option.some.inj h]
  · exact absurd h (by simp)

/-- Two calls in one call are not above the same call. -/
theorem child_eq {path a : Path} {i j : ℕ} (hi : path ++ [i] <+: a) (hj : path ++ [j] <+: a) :
    i = j := by
  have hlen : (path ++ [i]).length = (path ++ [j]).length := by simp
  have heq := (List.prefix_of_prefix_length_le hi hj hlen.le).eq_of_length hlen
  simpa using heq

theorem not_child_self {path : Path} {i : ℕ} : ¬ path ++ [i] <+: path := by
  intro h
  have hlen := h.length_le
  simp at hlen

mutual

theorem changes_below (path : Path) (c : Call) : ∀ x ∈ changes path c, path <+: x.1 := by
  match c with
  | .mk hook argv nested host =>
    intro x hx
    rw [changes] at hx
    split_ifs at hx
    · exact absurd hx (by simp)
    rcases List.mem_append.mp hx with hx | hx
    · obtain ⟨j, -, hj⟩ := changesAll_below path 0 nested x hx
      exact (List.prefix_append path [j]).trans hj
    · obtain ⟨change, -, rfl⟩ := List.mem_map.mp hx
      exact List.prefix_refl path

theorem changesAll_below (path : Path) (i : ℕ) (cs : List Call) :
    ∀ x ∈ changesAll path i cs, ∃ j, i ≤ j ∧ path ++ [j] <+: x.1 := by
  match cs with
  | [] => exact fun x hx => absurd hx (by simp [changesAll])
  | c :: cs =>
    intro x hx
    rcases List.mem_append.mp hx with hx | hx
    · exact ⟨i, le_rfl, changes_below (path ++ [i]) c x hx⟩
    · obtain ⟨j, hj, hx⟩ := changesAll_below path (i + 1) cs x hx
      exact ⟨j, by omega, hx⟩

end

mutual

theorem completed_below (outer : Bool) (path : Path) (c : Call) :
    ∀ e ∈ completed outer path c, path <+: e.source := by
  match c with
  | .mk hook argv nested host =>
    intro e he
    rw [completed] at he
    split at he
    · exact absurd he (by simp)
    rcases List.mem_append.mp he with he | he
    · obtain ⟨j, -, hj⟩ := completedAll_below _ path 0 nested e he
      exact (List.prefix_append path [j]).trans hj
    · split_ifs at he
      · rw [eventOf_source (Option.mem_toList.mp he)]
      · exact absurd he (by simp)

theorem completedAll_below (outer : Bool) (path : Path) (i : ℕ) (cs : List Call) :
    ∀ e ∈ completedAll outer path i cs, ∃ j, i ≤ j ∧ path ++ [j] <+: e.source := by
  match cs with
  | [] => exact fun e he => absurd he (by simp [completedAll])
  | c :: cs =>
    intro e he
    rcases List.mem_append.mp he with he | he
    · exact ⟨i, le_rfl, completed_below outer (path ++ [i]) c e he⟩
    · obtain ⟨j, hj, he⟩ := completedAll_below outer path (i + 1) cs e he
      exact ⟨j, by omega, he⟩

end

mutual

theorem lost_subset (path : Path) (c : Call) : ∀ x ∈ lost path c, x ∈ changes path c := by
  match c with
  | .mk hook argv nested host =>
    intro x hx
    rw [lost] at hx
    split at hx
    · exact absurd hx (by simp)
    rename_i hentered
    split at hx
    · exact absurd hx (by simp)
    split at hx
    · exact hx
    rw [changes, if_neg hentered, List.mem_append]
    rcases List.mem_append.mp hx with hx | hx
    · exact Or.inl (lostAll_subset path 0 nested x hx)
    · split_ifs at hx
      · exact absurd hx (by simp)
      · exact Or.inr hx

theorem lostAll_subset (path : Path) (i : ℕ) (cs : List Call) :
    ∀ x ∈ lostAll path i cs, x ∈ changesAll path i cs := by
  match cs with
  | [] => exact fun x hx => hx
  | c :: cs =>
    intro x hx
    rw [changesAll, List.mem_append]
    exact (List.mem_append.mp hx).imp (lost_subset (path ++ [i]) c x)
      (lostAll_subset path (i + 1) cs x)

end

/-- Only outer calls have events. -/
theorem completedAll_inner (path : Path) (i : ℕ) (cs : List Call) :
    completedAll false path i cs = [] := by
  match cs with
  | [] => rfl
  | .mk hook argv nested host :: cs =>
    have hnested := completedAll_inner (path ++ [i]) 0 nested
    rw [completedAll, completed, Bool.false_and, hnested, completedAll_inner path (i + 1) cs]
    simp

mutual

/-- Every event is for another call. -/
theorem completed_distinct (outer : Bool) (path : Path) (c : Call) :
    ((completed outer path c).map Event.source).Nodup := by
  match c with
  | .mk hook argv nested host =>
    rw [completed]
    split
    · exact List.nodup_nil
    rw [List.map_append, List.nodup_append]
    refine ⟨completedAll_distinct _ path 0 nested, ?_, ?_⟩
    · split_ifs
      · rcases eventOf path hook argv with _ | e
        · exact List.nodup_nil
        · exact List.nodup_singleton e.source
      · exact List.nodup_nil
    · intro a ha b hb hab
      obtain ⟨e, he, rfl⟩ := List.mem_map.mp ha
      obtain ⟨e', he', rfl⟩ := List.mem_map.mp hb
      obtain ⟨j, -, hj⟩ := completedAll_below _ path 0 nested e he
      split_ifs at he'
      · rw [hab, eventOf_source (Option.mem_toList.mp he')] at hj
        exact not_child_self hj
      · exact absurd he' (by simp)

theorem completedAll_distinct (outer : Bool) (path : Path) (i : ℕ) (cs : List Call) :
    ((completedAll outer path i cs).map Event.source).Nodup := by
  match cs with
  | [] => exact List.nodup_nil
  | c :: cs =>
    rw [completedAll, List.map_append, List.nodup_append]
    refine ⟨completed_distinct outer (path ++ [i]) c, completedAll_distinct outer path (i + 1) cs,
      ?_⟩
    intro a ha b hb hab
    obtain ⟨e, he, rfl⟩ := List.mem_map.mp ha
    obtain ⟨e', he', rfl⟩ := List.mem_map.mp hb
    have hi := completed_below outer (path ++ [i]) c e he
    obtain ⟨j, hj, hj'⟩ := completedAll_below outer path (i + 1) cs e' he'
    rw [← hab] at hj'
    have hij := child_eq hi hj'
    omega

end

/-! ### Coverage -/

/-- Whether the snapshots at the end cover a change: they have `shen.*gensym*`, and `shen.*residue*`
if there was any. -/
def snapshotCovers (residue : Bool) : Change → Bool
  | .global name => name.named "shen.*gensym*" || name.named "shen.*residue*" && residue
  | _ => false

theorem snapshotCovers_mono {q q' : Bool} {change : Change} (h : q = true → q' = true)
    (hc : snapshotCovers q change = true) : snapshotCovers q' change = true := by
  unfold snapshotCovers at hc ⊢
  split
  · simp only [Bool.or_eq_true, Bool.and_eq_true] at hc ⊢
    exact hc.imp_right (And.imp_right h)
  · exact absurd hc (by simp)

/-- A successful call without an event that changes something itself is reported or the snapshots
cover the change. -/
theorem own_covered {path : Path} {hook : Hook} {argv : List Expr} {host : Host} {change : Change}
    (hok : host.ok = true) (hevent : eventOf path hook argv = none)
    (hc : change ∈ ownChanges hook argv host) :
    objects hook argv host = true ∨
      snapshotCovers (leavesResidue hook argv host) change = true := by
  unfold ownChanges at hc
  unfold eventOf at hevent
  unfold objects leavesResidue
  rcases hk : hook.kind with _ | _ | _ | _ | _ | _ | _ | _ <;>
    simp only [hk] at hc hevent ⊢
  · exact absurd hc (by simp)
  · rcases hroot : rootDefinition argv with _ | _
    · simp only [hroot, Bool.false_eq_true, if_false] at hc ⊢
      split_ifs at hc with hdef
      · exact Or.inl (Bool.and_eq_true_iff.mp hdef).1
      · exact absurd hc (by simp)
    · exact absurd hevent (by simp [hroot])
  · exact absurd hc (by simp)
  · exact absurd hc (by simp)
  · rw [hok, if_pos rfl, List.mem_singleton] at hc
    subst hc
    rcases hsym : (arg argv 0).isSymbol with _ | _
    · exact Or.inl rfl
    rcases hres : (arg argv 0).named "shen.*residue*" with _ | _
    · rcases hgen : (arg argv 0).named "shen.*gensym*" with _ | _
      · exact absurd hevent (by simp [hsym, hres, hgen])
      · exact Or.inr (by simp [snapshotCovers, hgen])
    · rcases hstored : host.stored with _ | _
      · exact Or.inl (by simp)
      · exact Or.inr (by simp [snapshotCovers, hres])
  · exact absurd hevent (by simp)
  · exact absurd hevent (by simp)
  · split_ifs at hc with hw
    · exact Or.inl (by simp [(Bool.and_eq_true_iff.mp hw).2])
    · exact absurd hc (by simp)

mutual

/-- **Every change** is reported, covered, or lost. -/
theorem changes_covered (path : Path) (c : Call) : ∀ x ∈ changes path c,
    reports true c = true ∨ x ∈ lost path c ∨
      (∃ e ∈ completed true path c, e.source <+: x.1) ∨
      snapshotCovers (notesResidue true c) x.2 = true := by
  match c with
  | .mk hook argv nested host =>
    intro x hx
    have hbelow := changes_below path (.mk hook argv nested host) x hx
    rw [reports, lost, completed, notesResidue]
    by_cases hentered : (suppresses hook argv && !host.entered) = true
    · exact Or.inl (by rw [if_pos hentered])
    simp only [if_neg hentered, Bool.true_and]
    by_cases hobject : (host.ok && objects hook argv host) = true
    · exact Or.inl (by rw [hobject, Bool.or_true])
    by_cases hcovers : (host.ok && (eventOf path hook argv).isSome) = true
    · -- the event of the call itself
      obtain ⟨hok, hevent⟩ := Bool.and_eq_true_iff.mp hcovers
      obtain ⟨e, he⟩ := Option.isSome_iff_exists.mp hevent
      refine Or.inr (Or.inr (Or.inl ⟨e, ?_, eventOf_source he ▸ hbelow⟩))
      rw [hok, Bool.true_and] at hobject
      simp [hok, hobject, he]
    rw [if_neg hcovers]
    rcases hsup : suppresses hook argv with _ | _
    · rw [changes, if_neg hentered] at hx
      simp only [Bool.not_false, Bool.false_eq_true, if_false]
      rcases List.mem_append.mp hx with hx | hx
      · obtain h | h | ⟨e, he, h⟩ | h := changesAll_covered path 0 nested x hx
        · exact Or.inl (by rw [h, Bool.true_or])
        · exact Or.inr (Or.inl (List.mem_append_left _ h))
        · exact Or.inr (Or.inr (Or.inl ⟨e, List.mem_append_left _ he, h⟩))
        · exact Or.inr (Or.inr (Or.inr
            (snapshotCovers_mono (fun hq => by rw [hq, Bool.true_or]) h)))
      · rcases hok : host.ok with _ | _
        · exact Or.inr (Or.inl (List.mem_append_right _ hx))
        · obtain ⟨change, hc, rfl⟩ := List.mem_map.mp hx
          have hnone : eventOf path hook argv = none := by simpa [hok] using hcovers
          obtain h | h := own_covered hok hnone hc
          · exact absurd h (by simpa [hok] using hobject)
          · exact Or.inr (Or.inr (Or.inr
              (snapshotCovers_mono (fun hq => by rw [hq]; simp) h)))
    · exact Or.inr (Or.inl hx)

theorem changesAll_covered (path : Path) (i : ℕ) (cs : List Call) : ∀ x ∈ changesAll path i cs,
    reportsAll true cs = true ∨ x ∈ lostAll path i cs ∨
      (∃ e ∈ completedAll true path i cs, e.source <+: x.1) ∨
      snapshotCovers (notesResidueAll true cs) x.2 = true := by
  match cs with
  | [] => exact fun x hx => absurd hx (by simp [changesAll])
  | c :: cs =>
    intro x hx
    rw [reportsAll, lostAll, completedAll, notesResidueAll]
    rcases List.mem_append.mp hx with hx | hx
    · obtain h | h | ⟨e, he, h⟩ | h := changes_covered (path ++ [i]) c x hx
      · exact Or.inl (by rw [h, Bool.true_or])
      · exact Or.inr (Or.inl (List.mem_append_left _ h))
      · exact Or.inr (Or.inr (Or.inl ⟨e, List.mem_append_left _ he, h⟩))
      · exact Or.inr (Or.inr (Or.inr
          (snapshotCovers_mono (fun hq => by rw [hq, Bool.true_or]) h)))
    · obtain h | h | ⟨e, he, h⟩ | h := changesAll_covered path (i + 1) cs x hx
      · exact Or.inl (by rw [h, Bool.or_true])
      · exact Or.inr (Or.inl (List.mem_append_right _ h))
      · exact Or.inr (Or.inr (Or.inl ⟨e, List.mem_append_right _ he, h⟩))
      · exact Or.inr (Or.inr (Or.inr
          (snapshotCovers_mono (fun hq => by rw [hq, Bool.or_true]) h)))

end

mutual

/-- **No event** covers a lost change. -/
theorem lost_uncovered (path : Path) (c : Call) : ∀ x ∈ lost path c,
    ∀ e ∈ completed true path c, ¬ e.source <+: x.1 := by
  match c with
  | .mk hook argv nested host =>
    intro x hx e he
    rw [lost] at hx
    rw [completed] at he
    split at hx
    · exact absurd hx (by simp)
    rename_i hentered
    rw [if_neg hentered] at he
    split at hx
    · exact absurd hx (by simp)
    rename_i hcovers
    -- the call has no event of its own
    have hown : (if true && host.ok && !objects hook argv host then
        (eventOf path hook argv).toList else []) = [] := by
      split_ifs with h
      · have hok : host.ok = true := by simp_all
        have hnone : eventOf path hook argv = none := by simpa [hok] using hcovers
        rw [hnone]
        rfl
      · rfl
    rw [hown, List.append_nil] at he
    rcases hsup : suppresses hook argv with _ | _
    · rw [hsup] at he hx
      simp only [Bool.not_false, Bool.and_true, Bool.false_eq_true, if_false] at he hx
      rcases List.mem_append.mp hx with hx | hx
      · exact lostAll_uncovered path 0 nested x hx e he
      · split_ifs at hx
        · exact absurd hx (by simp)
        · obtain ⟨change, -, rfl⟩ := List.mem_map.mp hx
          obtain ⟨j, -, hj⟩ := completedAll_below true path 0 nested e he
          exact fun h => not_child_self (hj.trans h)
    · rw [hsup, Bool.not_true, Bool.and_false, completedAll_inner] at he
      exact absurd he (by simp)

theorem lostAll_uncovered (path : Path) (i : ℕ) (cs : List Call) : ∀ x ∈ lostAll path i cs,
    ∀ e ∈ completedAll true path i cs, ¬ e.source <+: x.1 := by
  match cs with
  | [] => exact fun x hx => absurd hx (by simp [lostAll])
  | c :: cs =>
    intro x hx e he h
    rcases List.mem_append.mp hx with hx | hx
    · have hi := changes_below (path ++ [i]) c x (lost_subset (path ++ [i]) c x hx)
      rcases List.mem_append.mp he with he | he
      · exact lost_uncovered (path ++ [i]) c x hx e he h
      · obtain ⟨j, hj, hj'⟩ := completedAll_below true path (i + 1) cs e he
        have hij := child_eq hi (hj'.trans h)
        omega
    · obtain ⟨j, hj, hj'⟩ := changesAll_below path (i + 1) cs x
        (lostAll_subset path (i + 1) cs x hx)
      rcases List.mem_append.mp he with he | he
      · have hij := child_eq ((completed_below true (path ++ [i]) c e he).trans h) hj'
        omega
      · exact lostAll_uncovered path (i + 1) cs x hx e he h

end

/-! ### Sessions -/

/-- Every change that took effect is covered: there is a report, or an event of the call or of one
around it, or a snapshot. -/
def Covered (cs : List Call) : Prop :=
  ∀ x ∈ changesAll [] 0 cs, (session cs).unsupported.isSome = true ∨
    (∃ e ∈ (session cs).events, e.source <+: x.1) ∨
    snapshotCovers (session cs).residue x.2 = true

/-- **Reader-state capture.** The depth after a hooked call is the one before, the events are those of
the successful outer calls in the order of their completion, one for each call, and every change is
covered exactly if there is a report or the snapshots cover what is changed in outer calls that
fail. -/
theorem capture_drops_nothing_iff (cs : List Call) :
    (∀ path c s, (captureReaderEvent path c s).depth = s.depth) ∧
    (session cs).events.reverse = completedAll true [] 0 cs ∧
    ((session cs).events.map Event.source).Nodup ∧
    (Covered cs ↔ reportsAll true cs = true ∨
      ∀ x ∈ lostAll [] 0 cs, snapshotCovers (notesResidueAll true cs) x.2 = true) := by
  have h : Effect (completedAll true [] 0 cs) (reportsAll true cs) (notesResidueAll true cs) {}
      (session cs) := captureAll_effect [] 0 cs {}
  have hevents : (session cs).events = (completedAll true [] 0 cs).reverse := by
    rw [h.events, List.append_nil]
  have hreport : (session cs).unsupported.isSome = reportsAll true cs := by
    rw [h.unsupported]
    rfl
  have hresidue : (session cs).residue = notesResidueAll true cs := by
    rw [h.residue]
    rfl
  refine ⟨fun path c s => (captureReaderEvent_effect path c s).depth, ?_, ?_, ?_⟩
  · rw [hevents, List.reverse_reverse]
  · rw [hevents, List.map_reverse, List.nodup_reverse]
    exact completedAll_distinct true [] 0 cs
  rw [Covered, hevents, hreport, hresidue]
  constructor
  · intro hcovered
    refine or_iff_not_imp_left.mpr fun hreports x hx => ?_
    obtain h | ⟨e, he, h⟩ | h := hcovered x (lostAll_subset [] 0 cs x hx)
    · exact absurd h hreports
    · exact absurd h (lostAll_uncovered [] 0 cs x hx e (List.mem_reverse.mp he))
    · exact h
  · rintro (hreports | hlost) x hx
    · exact Or.inl hreports
    · obtain h | h | ⟨e, he, h⟩ | h := changesAll_covered [] 0 cs x hx
      · exact Or.inl h
      · exact Or.inr (Or.inr (hlost x h))
      · exact Or.inr (Or.inl ⟨e, List.mem_reverse.mpr he, h⟩)
      · exact Or.inr (Or.inr h)

/-- `(trap-error (shen.store-arity f "x") (/. E 42))` in a macro: the arity is put on the property
vector, then the lambda form of `f` cannot be made. -/
def caughtStoreArity : List Call :=
  [.mk .storeArity [.symbol (ascii "f"), .atom 1]
    [.mk .put [.symbol (ascii "f"), .symbol (ascii "arity"), .atom 1, .atom 0]
      [.mk .address [.atom 0, .atom 2, .nil] [] { ok := true, properties := some (.atom 0) }]
      { ok := true, properties := some (.atom 0) }]
    { ok := false }]

/-- The arity of `f` is neither recorded nor reported. -/
theorem caughtStoreArity_dropped : ¬ Covered caughtStoreArity := by
  intro h
  have hput : ([0, 0], Change.property) ∈ changesAll [] 0 caughtStoreArity := by
    simp [caughtStoreArity, changesAll, changes, suppresses, ownChanges, Hook.kind, target,
      writesProperties, arg]
  have hevents : (session caughtStoreArity).events = [] := rfl
  obtain h | ⟨e, he, -⟩ | h := h _ hput
  · exact absurd h (by decide)
  · rw [hevents] at he
    exact absurd he (by simp)
  · exact absurd h (by decide)

end ShenRc.Capture
