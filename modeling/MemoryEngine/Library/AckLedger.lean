import Mathlib.Algebra.BigOperators.Ring.Finset
import Mathlib.Algebra.Order.BigOperators.Group.Finset
import Mathlib.Data.List.Count
import Mathlib.Data.List.Nodup
import Mathlib.Tactic.Common

/-! Reuse of resources by counting acknowledgements.

A resource is used many times.  Every member of a group releases its uses in
order and sends one acknowledgement for each; the acknowledgements travel in any
order and carry only the name of the resource.  The owner counts them and frees
the resource when it has counted as many as there are members.

The ledger is the invariant of that scheme: although an acknowledgement names
neither its sender nor the use it is for, a free resource has been released by
every member in every one of its uses. -/
namespace AckLedger

open List Function

variable {ι α : Type} [DecidableEq α]

/-- `uses` lists the uses in order, `released i` is how many of them member `i`
has released, `mail` are the acknowledgements that have not arrived, and `acks`
counts those that arrived since the resource was last freed. -/
structure Ledger (members : Finset ι) (uses : List α) (released : ι → Nat) (mail free : List α)
    (acks : α → Nat) : Prop where
  bound : ∀ i ∈ members, released i < uses.length
  acks_lt : ∀ a, acks a < members.card
  balance : ∃ freed : α → Nat, ∀ a,
    freed a + (if a ∈ uses then 1 else 0) = free.count a + uses.count a ∧
    ∑ i ∈ members, (uses.take (released i)).count a =
      mail.count a + freed a * members.card + acks a
  distinct : ∀ i ∈ members, (uses.drop (released i)).Nodup

section Ledger

variable {members : Finset ι} {uses mail free : List α} {released : ι → Nat} {acks : α → Nat}

theorem count_take_le (l : List α) (n : Nat) (a : α) : (l.take n).count a ≤ l.count a :=
  (take_sublist n l).count_le a

theorem count_take_eq_iff (l : List α) (n : Nat) (a : α) :
    (l.take n).count a = l.count a ↔ a ∉ l.drop n := by
  have hsplit := congrArg (List.count a) (take_append_drop n l)
  rw [count_append] at hsplit
  rw [← count_eq_zero]
  omega

theorem sum_released_le (members : Finset ι) (uses : List α) (released : ι → Nat) (a : α) :
    ∑ i ∈ members, (uses.take (released i)).count a ≤ uses.count a * members.card := by
  rw [Nat.mul_comm, ← Nat.nsmul_eq_mul]
  exact Finset.sum_le_card_nsmul _ _ _ fun i _ => count_take_le uses (released i) a

variable {a : α}

section

variable (h : Ledger members uses released mail free acks)
include h

theorem Ledger.card_pos (a : α) : 0 < members.card :=
  Nat.lt_of_le_of_lt (Nat.zero_le _) (h.acks_lt a)

theorem Ledger.of_not_mem
    (ha : a ∉ uses) : free.count a = 0 ∧ mail.count a = 0 ∧ acks a = 0 := by
  obtain ⟨freed, hfreed⟩ := h.balance
  obtain ⟨hcount, hsum⟩ := hfreed a
  have hpos := h.card_pos a
  have hzero := sum_released_le members uses released a
  rw [if_neg ha, count_eq_zero_of_not_mem ha] at hcount
  rw [count_eq_zero_of_not_mem ha, Nat.zero_mul] at hzero
  have hproduct : freed a * members.card = 0 := by omega
  rcases Nat.mul_eq_zero.mp hproduct with hfreed | hcard
  · omega
  · omega

theorem Ledger.mem_uses_of_free (ha : a ∈ free) : a ∈ uses := by
  by_contra hnot
  have hcount := count_pos_iff.mpr ha
  have := (h.of_not_mem hnot).1
  omega

theorem Ledger.mem_uses_of_mail (ha : a ∈ mail) : a ∈ uses := by
  by_contra hnot
  have hcount := count_pos_iff.mpr ha
  have := (h.of_not_mem hnot).2.1
  omega

/-- A resource is freed at most once for each use; when it is free, it has been
freed exactly so often. -/
theorem Ledger.freed_le {freed : α → Nat}
    (hsum : ∑ i ∈ members, (uses.take (released i)).count a =
      mail.count a + freed a * members.card + acks a) : freed a ≤ uses.count a := by
  have hle := sum_released_le members uses released a
  by_contra hlt
  have hmul : (uses.count a + 1) * members.card ≤ freed a * members.card :=
    Nat.mul_le_mul_right _ (by omega)
  have hpos := h.card_pos a
  rw [Nat.add_mul, Nat.one_mul] at hmul
  omega

theorem Ledger.free_nodup : free.Nodup := by
  rw [nodup_iff_count_le_one]
  intro a
  obtain ⟨freed, hfreed⟩ := h.balance
  obtain ⟨hcount, hsum⟩ := hfreed a
  have hle := h.freed_le hsum
  split at hcount
  · omega
  · omega

theorem Ledger.released_of_free
    (ha : a ∈ free) {i : ι} (hi : i ∈ members) : a ∉ uses.drop (released i) := by
  obtain ⟨freed, hfreed⟩ := h.balance
  obtain ⟨hcount, hsum⟩ := hfreed a
  rw [if_pos (h.mem_uses_of_free ha)] at hcount
  have hfree : 0 < free.count a := count_pos_iff.mpr ha
  have hle := h.freed_le hsum
  obtain hfull : freed a = uses.count a := by omega
  rw [← count_take_eq_iff]
  by_contra hne
  have hlt : (uses.take (released i)).count a < uses.count a :=
    lt_of_le_of_ne (count_take_le _ _ _) hne
  have hsumlt : ∑ i ∈ members, (uses.take (released i)).count a <
      ∑ _i ∈ members, uses.count a :=
    Finset.sum_lt_sum (fun j _ => count_take_le _ _ _) ⟨i, hi, hlt⟩
  rw [Finset.sum_const, Nat.nsmul_eq_mul, Nat.mul_comm, ← hfull] at hsumlt
  omega

end

theorem Ledger.last_not_free
    (h : Ledger members (uses ++ [a]) released mail free acks) : a ∉ free := by
  intro ha
  obtain ⟨i, hi⟩ := Finset.card_pos.mp (h.card_pos a)
  have hbound := h.bound i hi
  refine h.released_of_free ha hi ?_
  rw [length_append, length_singleton] at hbound
  rw [drop_append_of_le_length (by omega)]
  exact mem_append_right _ (mem_singleton.mpr rfl)

theorem ledger_single (members : Finset ι) (hmembers : 0 < members.card) (a : α) :
    Ledger members [a] (fun _ => 0) [] [] fun _ => 0 := by
  refine ⟨by simp, fun _ => hmembers, ⟨fun _ => 0, fun b => ?_⟩, by simp⟩
  by_cases hb : a = b
  · simp [hb]
  · simp [hb, Ne.symm hb]

section Use

variable {a : α}

theorem count_take_append_of_lt {n : Nat} (hn : n < uses.length) (b : α) :
    ((uses ++ [a]).take n).count b = (uses.take n).count b := by
  rw [take_append_of_le_length (Nat.le_of_lt hn)]

theorem Ledger.use {free' : List α} (h : Ledger members uses released mail free acks)
    (hreleased : ∀ i ∈ members, a ∉ uses.drop (released i))
    (hself : free'.count a + (if a ∈ uses then 1 else 0) = free.count a)
    (hother : ∀ b, b ≠ a → free'.count b = free.count b) :
    Ledger members (uses ++ [a]) released mail free' acks := by
  refine ⟨fun i hi => ?_, h.acks_lt, ?_, fun i hi => ?_⟩
  · have := h.bound i hi
    rw [length_append]
    omega
  · obtain ⟨freed, hfreed⟩ := h.balance
    refine ⟨freed, fun b => ?_⟩
    obtain ⟨hcount, hsum⟩ := hfreed b
    have hsame : ∑ i ∈ members, ((uses ++ [a]).take (released i)).count b =
        ∑ i ∈ members, (uses.take (released i)).count b :=
      Finset.sum_congr rfl fun i hi => count_take_append_of_lt (h.bound i hi) b
    refine ⟨?_, hsame.trans hsum⟩
    by_cases hb : b = a
    · subst hb
      simp only [mem_append, mem_singleton, or_true, if_true, count_append,
        count_singleton_self]
      omega
    · simp only [mem_append, mem_singleton, hb, or_false, count_append,
        count_singleton, beq_iff_eq, Ne.symm hb, if_false, hother b hb, Nat.add_zero]
      exact hcount
  · rw [drop_append_of_le_length (Nat.le_of_lt (h.bound i hi))]
    refine (h.distinct i hi).append (nodup_singleton a) ?_
    simpa using hreleased i hi

theorem Ledger.useFresh (h : Ledger members uses released mail free acks) (ha : a ∉ uses) :
    Ledger members (uses ++ [a]) released mail free acks := by
  refine h.use (fun i _ hmem => ha (mem_of_mem_drop hmem)) ?_ (fun _ _ => rfl)
  rw [if_neg ha, Nat.add_zero]

theorem Ledger.reuse {free : List α} (h : Ledger members uses released mail (a :: free) acks) :
    Ledger members (uses ++ [a]) released mail free acks := by
  refine h.use (fun i hi => h.released_of_free (mem_cons_self ..) hi) ?_ ?_
  · rw [if_pos (h.mem_uses_of_free (mem_cons_self ..)), count_cons_self]
  · intro b hb
    rw [count_cons_of_ne (Ne.symm hb)]

end Use

theorem Ledger.release [DecidableEq ι] (h : Ledger members uses released mail free acks) {i : ι}
    (hi : i ∈ members) {k : Nat} (hk : released i + k < uses.length) :
    Ledger members uses (update released i (released i + k))
      (mail ++ (uses.drop (released i)).take k) free acks := by
  refine ⟨fun j hj => ?_, h.acks_lt, ?_, fun j hj => ?_⟩
  · by_cases hij : j = i
    · subst hij
      rwa [update_self]
    · rw [update_of_ne hij]
      exact h.bound j hj
  · obtain ⟨freed, hfreed⟩ := h.balance
    refine ⟨freed, fun a => ⟨(hfreed a).1, ?_⟩⟩
    have hsum := (hfreed a).2
    rw [← Finset.add_sum_erase _ _ hi] at hsum ⊢
    have hrest : ∑ j ∈ members.erase i,
        (uses.take (update released i (released i + k) j)).count a =
        ∑ j ∈ members.erase i, (uses.take (released j)).count a :=
      Finset.sum_congr rfl fun j hj => by
        rw [update_of_ne (Finset.ne_of_mem_erase hj)]
    rw [hrest, update_self, take_add, count_append, count_append]
    omega
  · by_cases hij : j = i
    · subst hij
      rw [update_self, ← drop_drop]
      exact (h.distinct j hj).sublist (drop_sublist _ _)
    · rw [update_of_ne hij]
      exact h.distinct j hj

theorem Ledger.perm_mail {mail' : List α} (h : Ledger members uses released mail free acks)
    (hmail : mail.Perm mail') : Ledger members uses released mail' free acks := by
  refine ⟨h.bound, h.acks_lt, ?_, h.distinct⟩
  obtain ⟨freed, hfreed⟩ := h.balance
  refine ⟨freed, fun a => ?_⟩
  rw [← hmail.count_eq a]
  exact hfreed a

theorem Ledger.acknowledge (h : Ledger members uses released (a :: mail) free acks) :
    Ledger members uses released mail
      (if acks a + 1 ≥ members.card then free ++ [a] else free)
      (update acks a (if acks a + 1 ≥ members.card then 0 else acks a + 1)) := by
  have hlt := h.acks_lt a
  obtain ⟨freed, hfreed⟩ := h.balance
  refine ⟨h.bound, fun b => ?_, ?_, h.distinct⟩
  · by_cases hb : b = a
    · subst hb
      rw [update_self]
      split <;> omega
    · rw [update_of_ne hb]
      exact h.acks_lt b
  · by_cases hfull : acks a + 1 ≥ members.card
    · refine ⟨update freed a (freed a + 1), fun b => ?_⟩
      obtain ⟨hfree, hsum⟩ := hfreed b
      simp only [if_pos hfull]
      by_cases hb : b = a
      · subst hb
        rw [count_cons_self] at hsum
        simp only [update_self, count_append, count_singleton_self]
        refine ⟨by omega, ?_⟩
        rw [hsum, Nat.add_mul, Nat.one_mul]
        omega
      · rw [count_cons_of_ne (Ne.symm hb)] at hsum
        simp only [update_of_ne hb, count_append, count_singleton, beq_iff_eq,
          Ne.symm hb, if_false, Nat.add_zero]
        exact ⟨hfree, hsum⟩
    · refine ⟨freed, fun b => ?_⟩
      obtain ⟨hfree, hsum⟩ := hfreed b
      simp only [if_neg hfull]
      refine ⟨hfree, ?_⟩
      by_cases hb : b = a
      · subst hb
        rw [count_cons_self] at hsum
        rw [update_self]
        omega
      · rw [count_cons_of_ne (Ne.symm hb)] at hsum
        rw [update_of_ne hb]
        exact hsum

end Ledger

end AckLedger
