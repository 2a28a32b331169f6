import Mathlib.Data.List.Pairwise
import Mathlib.Tactic.Common

/-! Conflict serializability of a history of reads and writes.

A history lists the operations in the order in which they happen.  Two operations of
different transactions conflict where they touch one item and one of them writes it.  The
transactions are serializable when they can be listed such that every conflict goes
forward in the list.  `Respects` is the form that a proof maintains step by step, with the
list of the transactions that have reached their place in the order. -/
namespace Serializability

open List

variable {T X : Type}

structure Op (T X : Type) where
  txn : T
  item : X
  write : Bool
  deriving DecidableEq, Repr

namespace Op

def Conflicts (first second : Op T X) : Prop :=
  first.txn ≠ second.txn ∧ first.item = second.item ∧ (first.write = true ∨ second.write = true)

instance [DecidableEq T] [DecidableEq X] (first second : Op T X) :
    Decidable (first.Conflicts second) :=
  inferInstanceAs (Decidable (_ ∧ _))

end Op

/-- Every conflict goes forward in some list of the transactions of the history. -/
def Serializable (history : List (Op T X)) : Prop :=
  ∃ order : List T, order.Nodup ∧ (∀ op ∈ history, op.txn ∈ order) ∧
    history.Pairwise fun first second =>
      first.Conflicts second → [first.txn, second.txn].Sublist order

def Respects (order : List T) (history : List (Op T X)) : Prop :=
  history.Pairwise fun first second => first.Conflicts second →
    first.txn ∈ order → second.txn ∈ order → [first.txn, second.txn].Sublist order

/-- No listed transaction has a conflicting operation after one of `txn`. -/
def NotOvertaken (order : List T) (txn : T) (history : List (Op T X)) : Prop :=
  history.Pairwise fun first second => first.Conflicts second →
    first.txn = txn → second.txn ∉ order

namespace Respects

variable {order : List T} {history : List (Op T X)} {op : Op T X} {txn : T}

theorem nil : Respects order ([] : List (Op T X)) := List.Pairwise.nil

theorem append (h : Respects order history)
    (hlast : ∀ first ∈ history, first.Conflicts op → first.txn ∈ order → op.txn ∈ order →
      [first.txn, op.txn].Sublist order) : Respects order (history ++ [op]) := by
  refine pairwise_append.mpr ⟨h, pairwise_singleton _ _, ?_⟩
  intro first hfirst second hsnd
  rw [mem_singleton.mp hsnd]
  exact hlast first hfirst

theorem finish (h : Respects order history) (hlate : NotOvertaken order txn history) :
    Respects (order ++ [txn]) history := by
  refine List.Pairwise.imp₂ ?_ h hlate
  intro first second hforward hlate hconf hfirst hsnd
  rcases mem_append.mp hfirst with hfirst | hfirst
  · rcases mem_append.mp hsnd with hsnd | hsnd
    · exact (hforward hconf hfirst hsnd).trans (sublist_append_left _ _)
    · rw [mem_singleton.mp hsnd]
      exact (singleton_sublist.mpr hfirst).append (List.Sublist.refl [txn])
  · have howner : first.txn = txn := mem_singleton.mp hfirst
    rcases mem_append.mp hsnd with hsnd | hsnd
    · exact absurd hsnd (hlate hconf howner)
    · exact absurd (howner.trans (mem_singleton.mp hsnd).symm) hconf.1

theorem serializable (h : Respects order history) (hnodup : order.Nodup) {chosen : T → Bool}
    (hlisted : ∀ op ∈ history, chosen op.txn = true → op.txn ∈ order) :
    Serializable (history.filter fun op => chosen op.txn) := by
  refine ⟨order, hnodup, ?_, ?_⟩
  · intro op hop
    obtain ⟨hmem, hchosen⟩ := mem_filter.mp hop
    exact hlisted op hmem hchosen
  · refine List.Pairwise.imp_of_mem ?_ (List.Pairwise.filter _ h)
    intro first second hfirst hsnd hforward hconf
    obtain ⟨hfirst, hfirstChosen⟩ := mem_filter.mp hfirst
    obtain ⟨hsnd, hsecondChosen⟩ := mem_filter.mp hsnd
    exact hforward hconf (hlisted first hfirst hfirstChosen) (hlisted second hsnd hsecondChosen)

end Respects

theorem not_sublist_swap {order : List T} (hnodup : order.Nodup) {first second : T}
    (hthere : [first, second].Sublist order) : ¬ [second, first].Sublist order := by
  induction order with
  | nil => cases hthere
  | cons head rest ih =>
    obtain ⟨hhead, hrest⟩ := nodup_cons.mp hnodup
    intro hback
    cases hthere with
    | cons _ hthere =>
      cases hback with
      | cons _ hback => exact ih hrest hthere hback
      | cons_cons _ hback => exact hhead (hthere.subset (by simp))
    | cons_cons _ hthere =>
      cases hback with
      | cons _ hback => exact hhead (hback.subset (by simp))
      | cons_cons _ hback => exact hhead (singleton_sublist.mp hback)

theorem not_serializable_of_cycle {history : List (Op T X)} {first second third fourth : Op T X}
    (hthere : [first, second].Sublist history) (hback : [third, fourth].Sublist history)
    (hconf : first.Conflicts second) (hconflictBack : third.Conflicts fourth)
    (hthird : third.txn = second.txn) (hfourth : fourth.txn = first.txn) :
    ¬ Serializable history := by
  rintro ⟨order, hnodup, -, hforward⟩
  have hone := pairwise_iff_forall_sublist.mp hforward hthere hconf
  have htwo := pairwise_iff_forall_sublist.mp hforward hback hconflictBack
  rw [hthird, hfourth] at htwo
  exact not_sublist_swap hnodup hone htwo

end Serializability
