import Mathlib.Data.List.Basic
import Mathlib.Data.List.Range
import Mathlib.Tactic.Common

/-! Counters whose values are recorded as they are taken.

A counter starts at 0.  An advance takes the next few values and records all of them or
none.  The record is free of gaps exactly when no advance was left out. -/
namespace RecordedCounter

open List

structure Counter where
  current : Nat
  recorded : List Nat

/-- The number of values that are taken, and whether they are recorded. -/
structure Advance where
  values : Nat
  logged : Bool
  deriving DecidableEq, Repr

def Advance.none : Advance := ⟨0, true⟩

def Advance.Loses (advance : Advance) : Prop := 0 < advance.values ∧ advance.logged = false

def Counter.start : Counter := ⟨0, []⟩

variable (counter : Counter)

def Counter.step (advance : Advance) : Counter where
  current := counter.current + advance.values
  recorded :=
    if advance.logged then counter.recorded ++ range' (counter.current + 1) advance.values
    else counter.recorded

def Counter.run (advances : List Advance) : Counter :=
  advances.foldl Counter.step counter

/-- Every value up to the current one is recorded, once and in order. -/
def Counter.GapFree : Prop :=
  counter.recorded = range' 1 counter.current

variable {counter : Counter} {advance : Advance}

@[simp] theorem Counter.step_none : counter.step .none = counter := by
  simp [Counter.step, Advance.none]

theorem Counter.run_append_one (advances : List Advance) (advance : Advance) :
    counter.run (advances ++ [advance]) = (counter.run advances).step advance :=
  foldl_append

theorem Counter.GapFree.step (h : counter.GapFree) (hkept : ¬ advance.Loses) :
    (counter.step advance).GapFree := by
  unfold Counter.GapFree at h ⊢
  cases hlog : advance.logged with
  | true =>
    simp only [Counter.step, hlog, if_true, h]
    rw [Nat.add_comm counter.current 1, range'_append_1]
  | false =>
    have hzero : advance.values = 0 := by
      by_contra hne
      exact hkept ⟨Nat.pos_of_ne_zero hne, hlog⟩
    simp only [Counter.step, hlog, Bool.false_eq_true, if_false, hzero, Nat.add_zero, h]

/-- Fewer values are recorded than were taken, by at least `missing`. -/
def Counter.Misses (missing : Nat) : Prop :=
  counter.recorded.length + missing ≤ counter.current

theorem Counter.Misses.step {missing : Nat} (h : counter.Misses missing) (advance : Advance) :
    (counter.step advance).Misses missing := by
  unfold Counter.Misses at h ⊢
  simp only [Counter.step]
  split
  · rw [length_append, length_range']
    omega
  · omega

theorem Counter.Misses.run {missing : Nat} (h : counter.Misses missing)
    (advances : List Advance) : (counter.run advances).Misses missing := by
  induction advances generalizing counter with
  | nil => exact h
  | cons advance advances ih => exact ih (h.step advance)

theorem Counter.misses_of_loses (h : counter.Misses 0) (hloses : advance.Loses) :
    (counter.step advance).Misses 1 := by
  obtain ⟨hvalues, hlog⟩ := hloses
  unfold Counter.Misses at h ⊢
  simp only [Counter.step, hlog, Bool.false_eq_true, if_false]
  omega

theorem Counter.not_gapFree_of_misses (h : counter.Misses 1) : ¬ counter.GapFree := by
  intro hgap
  unfold Counter.Misses at h
  rw [hgap, length_range'] at h
  omega

theorem Counter.gapFree_run_iff (h : counter.GapFree) (advances : List Advance) :
    (counter.run advances).GapFree ↔ ∀ advance ∈ advances, ¬ advance.Loses := by
  induction advances generalizing counter with
  | nil => exact iff_of_true h fun advance hmem => absurd hmem not_mem_nil
  | cons advance advances ih =>
    rw [forall_mem_cons]
    by_cases hloses : advance.Loses
    · have hzero : counter.Misses 0 := by
        unfold Counter.Misses
        rw [h, length_range']
        exact Nat.le_refl _
      exact iff_of_false
        (Counter.not_gapFree_of_misses ((Counter.misses_of_loses hzero hloses).run advances))
        fun hall => hall.1 hloses
    · rw [show counter.run (advance :: advances) = (counter.step advance).run advances from rfl,
        ih (h.step hloses)]
      exact ⟨fun hall => ⟨hloses, hall⟩, fun hall => hall.2⟩

end RecordedCounter
