import Mathlib.Tactic.Common

/-! Binary search for the last position whose element is not above the target.

`target i` compares the target with element `i`.  The search narrows `[left, right]`
with the upper middle and stops early when it meets the target. -/
namespace BinarySearch

def search (target : Nat → Ordering) : Nat → Nat → Nat → Nat × Bool
  | 0, left, _ => (left, false)
  | fuel + 1, left, right =>
      if left < right then
        let mid := (left + right + 1) / 2
        match target mid with
        | .gt => search target fuel mid right
        | .lt => search target fuel left (mid - 1)
        | .eq => (mid, true)
      else (left, false)

section Search

variable {target : Nat → Ordering} {fuel left right : Nat}

theorem search_bounds (h : left ≤ right) :
    left ≤ (search target fuel left right).1 ∧ (search target fuel left right).1 ≤ right := by
  induction fuel generalizing left right with
  | zero => exact ⟨Nat.le_refl _, h⟩
  | succ fuel ih =>
    unfold search
    split
    · rename_i hlt
      dsimp only
      split
      · obtain ⟨hge, hle⟩ := @ih ((left + right + 1) / 2) right (by omega)
        exact ⟨by omega, hle⟩
      · obtain ⟨hge, hle⟩ := @ih left ((left + right + 1) / 2 - 1) (by omega)
        exact ⟨hge, by omega⟩
      · exact ⟨by dsimp only; omega, by dsimp only; omega⟩
    · exact ⟨Nat.le_refl _, h⟩

theorem target_of_found (h : (search target fuel left right).2 = true) :
    target (search target fuel left right).1 = .eq := by
  induction fuel generalizing left right with
  | zero => cases h
  | succ fuel ih =>
    unfold search at h ⊢
    split at h
    · rename_i hlt
      rw [if_pos hlt]
      dsimp only at h ⊢
      split at h
      · exact ih h
      · exact ih h
      · assumption
    · cases h

/-- Elements up to `last` are not above the target, those after it are, and none but
the one at `last` can be the target itself. -/
structure Splits (target : Nat → Ordering) (right last : Nat) : Prop where
  below : ∀ i, i < last → target i = .gt
  above : ∀ i, last < i → i ≤ right → target i = .lt
  at_last : target last ≠ .lt

theorem search_eq (h : Splits target right last) (hleft : left ≤ last) (hright : last ≤ right)
    (hfuel : right - left ≤ fuel) : (search target fuel left right).1 = last := by
  induction fuel generalizing left right with
  | zero =>
    have : left = last := by omega
    exact this
  | succ fuel ih =>
    unfold search
    split
    · rename_i hlt
      dsimp only
      split
      · rename_i hgt
        have hmid : (left + right + 1) / 2 ≤ last := by
          by_contra hlate
          have hlow := h.above _ (Nat.lt_of_not_le hlate) (by omega)
          rw [hgt] at hlow
          cases hlow
        exact ih h hmid hright (by omega)
      · rename_i hlow
        have hmid : last < (left + right + 1) / 2 := by
          by_contra hearly
          rcases Nat.lt_or_eq_of_le (Nat.le_of_not_lt hearly) with hpre | hat
          · have hgt := h.below _ hpre
            rw [hlow] at hgt
            cases hgt
          · rw [hat] at hlow
            exact h.at_last hlow
        refine ih ⟨h.below, fun i hi hle => h.above i hi (by omega), h.at_last⟩ hleft (by omega)
          (by omega)
      · rename_i heq
        rcases Nat.lt_trichotomy ((left + right + 1) / 2) last with hpre | hat | hafter
        · have hgt := h.below _ hpre
          rw [heq] at hgt
          cases hgt
        · exact hat
        · have hlow := h.above _ hafter (by omega)
          rw [heq] at hlow
          cases hlow
    · show left = last
      omega

end Search

end BinarySearch
