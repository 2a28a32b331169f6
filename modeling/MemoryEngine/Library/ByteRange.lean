import Mathlib.Data.List.Basic
import Mathlib.Tactic.Common

/-! Ranges of addresses: one inside another, apart from another, and cut into equal pieces. -/

/-- The addresses `start, …, start + length - 1`. -/
structure ByteRange where
  start : ℕ
  length : ℕ
  deriving DecidableEq, Repr

namespace ByteRange

variable {first second inner outer other : ByteRange} {base size count i j : ℕ}

def Within (inner outer : ByteRange) : Prop :=
  outer.start ≤ inner.start ∧ inner.start + inner.length ≤ outer.start + outer.length

def Apart (first second : ByteRange) : Prop :=
  first.start + first.length ≤ second.start ∨ second.start + second.length ≤ first.start

instance (inner outer : ByteRange) : Decidable (inner.Within outer) :=
  inferInstanceAs (Decidable (_ ∧ _))

instance (first second : ByteRange) : Decidable (first.Apart second) :=
  inferInstanceAs (Decidable (_ ∨ _))

theorem Within.trans (h : inner.Within first) (hnext : first.Within outer) : inner.Within outer :=
  ⟨Nat.le_trans hnext.1 h.1, Nat.le_trans h.2 hnext.2⟩

theorem Apart.symm (h : first.Apart second) : second.Apart first := Or.symm h

theorem Apart.within (h : first.Apart second) (hinner : inner.Within first)
    (hother : other.Within second) : inner.Apart other := by
  unfold Apart Within at *
  omega

/-- The range moved up by `base`. -/
def shift (base : ℕ) (range : ByteRange) : ByteRange := ⟨base + range.start, range.length⟩

theorem Within.shift (h : inner.Within outer) (base : ℕ) :
    (inner.shift base).Within (outer.shift base) := by
  unfold Within at h
  simp only [Within, ByteRange.shift]
  omega

theorem Apart.shift (h : first.Apart second) (base : ℕ) :
    (first.shift base).Apart (second.shift base) := by
  unfold Apart at h
  simp only [Apart, ByteRange.shift]
  omega

/-- The `i`-th of the pieces of one size from `base` on. -/
def piece (base size i : ℕ) : ByteRange := ⟨base + i * size, size⟩

theorem piece_apart (hne : i ≠ j) : (piece base size i).Apart (piece base size j) := by
  unfold piece Apart
  rcases Nat.lt_or_gt_of_ne hne with hlt | hlt
  · have hmul : (i + 1) * size ≤ j * size := Nat.mul_le_mul_right size hlt
    left
    simp only
    rw [Nat.add_mul, Nat.one_mul] at hmul
    omega
  · have hmul : (j + 1) * size ≤ i * size := Nat.mul_le_mul_right size hlt
    right
    simp only
    rw [Nat.add_mul, Nat.one_mul] at hmul
    omega

theorem piece_within {length : ℕ} (hi : i < length / size) :
    (piece base size i).Within ⟨base, length⟩ := by
  have hmul : (i + 1) * size ≤ length :=
    Nat.le_trans (Nat.mul_le_mul_right size hi) (Nat.div_mul_le_self length size)
  unfold piece Within
  rw [Nat.add_mul, Nat.one_mul] at hmul
  simp only
  omega

end ByteRange
