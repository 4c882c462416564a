import Mathlib.Data.List.Range
import Mathlib.Data.List.Nodup
import Mathlib.Data.List.Perm.Basic

/-! # Ledgers of references

A ledger numbers the references that are handed out and lists how each comes to its end: its holder
releases it, or gives it to a call that takes it over. A ledger `Accounts` for the references `held`
if each reference ever handed out is held, released or given, exactly one of them and once. -/

namespace ShenRc

structure Ledger where
  issued : ℕ := 0
  released : List ℕ := []
  given : List ℕ := []
  deriving DecidableEq, Repr

namespace Ledger

variable {l : Ledger} {held : List ℕ} {r : ℕ}

/-- The next reference is `l.issued`. -/
def issue (l : Ledger) : Ledger := { l with issued := l.issued + 1 }

def release (l : Ledger) (r : ℕ) : Ledger := { l with released := r :: l.released }

def give (l : Ledger) (r : ℕ) : Ledger := { l with given := r :: l.given }

/-- Release references from the first on. -/
def releaseAll (l : Ledger) (rs : List ℕ) : Ledger := rs.foldl release l

/-- **Every reference is held, released or given, and only once.** -/
def Accounts (l : Ledger) (held : List ℕ) : Prop :=
  (l.released ++ l.given ++ held).Perm (List.range l.issued)

instance (l : Ledger) (held : List ℕ) : Decidable (l.Accounts held) :=
  inferInstanceAs (Decidable (List.Perm _ _))

namespace Accounts

theorem empty : ({} : Ledger).Accounts [] := .refl _

theorem perm {held' : List ℕ} (h : l.Accounts held) (hp : held'.Perm held) : l.Accounts held' :=
  (hp.append_left _).trans h

theorem issue (h : l.Accounts held) : l.issue.Accounts (l.issued :: held) := by
  have hmid : (l.released ++ l.given ++ l.issued :: held).Perm
      (l.issued :: (l.released ++ l.given ++ held)) := List.perm_middle
  refine hmid.trans ?_
  change (l.issued :: (l.released ++ l.given ++ held)).Perm (List.range (l.issued + 1))
  rw [List.range_succ]
  exact (h.cons _).trans (List.perm_append_singleton _ _).symm

theorem release (h : l.Accounts (r :: held)) : (l.release r).Accounts held := by
  have hmid : (l.released ++ l.given ++ r :: held).Perm
      (r :: (l.released ++ l.given ++ held)) := List.perm_middle
  exact hmid.symm.trans h

theorem give (h : l.Accounts (r :: held)) : (l.give r).Accounts held := by
  have hmid : (l.released ++ l.given ++ r :: held).Perm
      (r :: (l.released ++ l.given ++ held)) := List.perm_middle
  have hgiven : (l.released ++ r :: l.given ++ held).Perm
      (r :: (l.released ++ l.given ++ held)) := by
    rw [List.append_assoc, List.append_assoc]
    exact List.perm_middle
  exact hgiven.trans (hmid.symm.trans h)

theorem releaseAll (h : l.Accounts held) : (l.releaseAll held).Accounts [] := by
  induction held generalizing l with
  | nil => exact h
  | cons r held ih => exact ih h.release

/-- A reference with no holder left was released or given, once. -/
theorem once (h : l.Accounts []) (hr : r < l.issued) : (l.released ++ l.given).count r = 1 := by
  rw [Accounts, List.append_nil] at h
  rw [h.count_eq]
  exact List.count_eq_one_of_mem List.nodup_range (List.mem_range.mpr hr)

end Accounts

end Ledger

end ShenRc
