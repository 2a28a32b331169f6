import Mathlib.Algebra.BigOperators.Group.Finset.Piecewise
import Mathlib.Algebra.BigOperators.Group.List.Basic
import Mathlib.Data.List.Perm.Basic
import Mathlib.Tactic.Abel

/-! Tokens that move between places.

Each place of a family and each item of a queue holds an amount of tokens; the totals change by
what one place or one item changes. -/
namespace TokenFlow

variable {M S ι : Type*} [AddCommMonoid M]

theorem sum_update [Fintype ι] [DecidableEq ι] (amount : ι → S → M) (places : ι → S) (i : ι)
    (changed : S) :
    ∑ j, amount j (Function.update places i changed j) + amount i (places i) =
      ∑ j, amount j (places j) + amount i changed := by
  have hupdate : (fun j => amount j (Function.update places i changed j)) =
      Function.update (fun j => amount j (places j)) i (amount i changed) :=
    funext fun j => Function.apply_update amount places i changed j
  rw [hupdate, Finset.sum_update_of_mem (Finset.mem_univ i), Finset.sdiff_singleton_eq_erase,
    ← Finset.add_sum_erase _ (fun j => amount j (places j)) (Finset.mem_univ i)]
  abel

theorem sum_eraseIdx (amount : S → M) {queue : List S} {index : ℕ} {item : S}
    (hindex : queue[index]? = some item) :
    amount item + ((queue.eraseIdx index).map amount).sum = (queue.map amount).sum := by
  obtain ⟨hlen, rfl⟩ := List.getElem?_eq_some_iff.1 hindex
  have hperm := (List.getElem_cons_eraseIdx_perm hlen).map amount
  rw [← hperm.sum_eq, List.map_cons, List.sum_cons]

end TokenFlow
