import MemoryEngine.Library.Serializability
import Mathlib.Data.List.Induction
import Mathlib.Data.List.Sort
import Mathlib.Logic.Function.Basic

/-! Histories with values and their replay.

An entry is an operation with the value that it read or wrote.  A replay goes through a list of
entries, applies the writes and fails at a read that does not see its value.  A history in which
the conflicts follow a numbering of the transactions replays in the serial order of the numbers
with the same outcome. -/
namespace Serializability

open List Function Option

variable {T X V : Type}

structure Entry (T X V : Type) extends Op T X where
  value : V
  deriving DecidableEq, Repr

namespace Entry

variable [DecidableEq X] [DecidableEq V]

def apply (entry : Entry T X V) (values : X → V) : Option (X → V) :=
  if entry.write then some (update values entry.item entry.value)
  else if values entry.item = entry.value then some values else none

end Entry

variable [DecidableEq X] [DecidableEq V] {values other after : X → V} {entry : Entry T X V}
  {history : List (Entry T X V)} {item : X}

def replay : (X → V) → List (Entry T X V) → Option (X → V)
  | values, [] => some values
  | values, entry :: history => (entry.apply values).bind fun values => replay values history

def written (values : X → V) (history : List (Entry T X V)) : X → V :=
  history.foldl (fun values entry =>
    if entry.write then update values entry.item entry.value else values) values

omit [DecidableEq V] in
theorem written_concat_write (hwrite : entry.write = true) :
    written values (history ++ [entry]) =
      update (written values history) entry.item entry.value := by
  simp [written, hwrite]

omit [DecidableEq V] in
theorem written_concat_read (hread : entry.write = false) :
    written values (history ++ [entry]) = written values history := by
  simp [written, hread]

omit [DecidableEq V] in
theorem written_concat_of_ne (hne : entry.item ≠ item) :
    written values (history ++ [entry]) item = written values history item := by
  cases hwrite : entry.write with
  | true => rw [written_concat_write hwrite, update_of_ne hne.symm]
  | false => rw [written_concat_read hwrite]

omit [DecidableEq V] in
theorem written_filter {keep : Entry T X V → Bool}
    (hdrop : ∀ entry ∈ history, keep entry = false → entry.write = true → entry.item ≠ item) :
    written values (history.filter keep) item = written values history item := by
  induction history using reverseRecOn with
  | nil => rfl
  | append_singleton history entry ih =>
    have hrest := ih fun earlier hearlier => hdrop earlier (mem_append_left _ hearlier)
    rw [filter_append]
    cases hkeep : keep entry with
    | true =>
      rw [filter_cons_of_pos hkeep, filter_nil]
      cases hwrite : entry.write with
      | true =>
        rw [written_concat_write hwrite, written_concat_write hwrite]
        by_cases hitem : item = entry.item
        · rw [hitem, update_self, update_self]
        · rw [update_of_ne hitem, update_of_ne hitem, hrest]
      | false => rw [written_concat_read hwrite, written_concat_read hwrite, hrest]
    | false =>
      rw [filter_cons_of_neg (by simp [hkeep]), filter_nil, append_nil, hrest]
      cases hwrite : entry.write with
      | true =>
        exact (written_concat_of_ne (hdrop entry (by simp) hkeep hwrite)).symm
      | false => rw [written_concat_read hwrite]

theorem Entry.apply_eq (h : entry.apply values = some after) :
    after = if entry.write then update values entry.item entry.value else values := by
  rw [Entry.apply] at h
  split_ifs at h ⊢
  · exact (Option.some.inj h).symm
  · exact (Option.some.inj h).symm

theorem replay_eq (h : replay values history = some after) : after = written values history := by
  induction history generalizing values with
  | nil => exact (Option.some.inj h).symm
  | cons entry history ih =>
    obtain ⟨middle, hentry, hrest⟩ := bind_eq_some_iff.mp h
    rw [ih hrest, entry.apply_eq hentry]
    rfl

theorem replay_append (values : X → V) (history later : List (Entry T X V)) :
    replay values (history ++ later) =
      (replay values history).bind fun values => replay values later := by
  induction history generalizing values with
  | nil => rfl
  | cons entry history ih =>
    simp only [cons_append, replay, ih]
    cases entry.apply values <;> rfl

theorem replay_concat (h : (replay values history).isSome)
    (hentry : entry.write = true ∨ written values history entry.item = entry.value) :
    (replay values (history ++ [entry])).isSome := by
  obtain ⟨after, hafter⟩ := isSome_iff_exists.mp h
  rw [replay_append, hafter, replay_eq hafter, bind_some]
  rcases hentry with hwrite | hread
  · simp [replay, Entry.apply, hwrite]
  · cases hwrite : entry.write <;> simp [replay, Entry.apply, hwrite, hread]

theorem Entry.apply_agrees (h : entry.apply values = some after)
    (hagree : values entry.item = other entry.item) :
    ∃ later, entry.apply other = some later ∧
      ∀ item, values item = other item → after item = later item := by
  unfold Entry.apply at h ⊢
  split_ifs at h with hwrite hread
  · refine ⟨_, if_pos hwrite, ?_⟩
    intro item hitem
    cases h
    by_cases hsame : item = entry.item
    · rw [hsame, update_self, update_self]
    · rw [update_of_ne hsame, update_of_ne hsame, hitem]
  · cases h
    refine ⟨other, ?_, fun _ hitem => hitem⟩
    rw [if_neg hwrite, if_pos (hagree ▸ hread)]

theorem replay_filter (keep : T → Bool) (h : (replay values history).isSome)
    (hlast : history.Pairwise fun first second => first.write = true → keep first.txn = false →
      keep second.txn = true → first.item ≠ second.item) :
    (replay values (history.filter fun entry => keep entry.txn)).isSome := by
  have hagrees : ∀ other : X → V, (∀ entry ∈ history, keep entry.txn = true →
      values entry.item = other entry.item) →
      (replay other (history.filter fun entry => keep entry.txn)).isSome := by
    induction history generalizing values with
    | nil => intro other _; rfl
    | cons entry history ih =>
      intro other hagree
      obtain ⟨hfirst, hlast⟩ := pairwise_cons.mp hlast
      obtain ⟨after, hafter⟩ := isSome_iff_exists.mp h
      obtain ⟨middle, hentry, hrest⟩ := bind_eq_some_iff.mp hafter
      have hrest : (replay middle history).isSome := by rw [hrest]; rfl
      have htail := fun later hlater => hagree later (mem_cons_of_mem _ hlater)
      cases hkeep : keep entry.txn with
      | true =>
        obtain ⟨later, hlater, hsame⟩ := entry.apply_agrees hentry (hagree entry (by simp) hkeep)
        rw [filter_cons_of_pos (by simpa using hkeep), replay, hlater, bind_some]
        exact ih hrest hlast later fun next hnext hkept => hsame _ (htail next hnext hkept)
      | false =>
        rw [filter_cons_of_neg (by simp [hkeep])]
        refine ih hrest hlast other ?_
        intro next hnext hkept
        rw [entry.apply_eq hentry, ← htail next hnext hkept]
        split
        · rename_i hwrite
          rw [update_of_ne (hfirst next hnext hwrite hkeep hkept).symm]
        · rfl
  exact hagrees values fun _ _ _ => rfl

theorem Entry.apply_comm {first second : Entry T X V}
    (h : first.item = second.item → first.write = false ∧ second.write = false) (values : X → V) :
    ((first.apply values).bind fun values => second.apply values) =
      (second.apply values).bind fun values => first.apply values := by
  by_cases hitem : first.item = second.item
  · obtain ⟨hfirst, hsnd⟩ := h hitem
    simp only [Entry.apply, hfirst, hsnd, Bool.false_eq_true, if_false]
    split_ifs <;> simp_all
  · simp only [Entry.apply]
    split_ifs <;> simp_all [update_comm, update_of_ne, Ne.symm hitem]

section Order

variable (number : T → ℕ)

/-- The entries in the order of the numbers of their transactions, those of one transaction in
the order of the history. -/
def serial (history : List (Entry T X V)) : List (Entry T X V) :=
  history.insertionSort fun first second => number first.txn ≤ number second.txn

omit [DecidableEq X] [DecidableEq V] in
theorem serial_perm (history : List (Entry T X V)) : (serial number history).Perm history :=
  perm_insertionSort _ _

variable {number}

theorem replay_orderedInsert (h : ∀ later ∈ history, number later.txn < number entry.txn →
      entry.item = later.item → entry.write = false ∧ later.write = false) (values : X → V) :
    replay values (history.orderedInsert
      (fun first second => number first.txn ≤ number second.txn) entry) =
      replay values (entry :: history) := by
  induction history generalizing values with
  | nil => rfl
  | cons head history ih =>
    rw [orderedInsert]
    split
    · rfl
    · rename_i hlater
      have hrest := ih fun later hmem => h later (mem_cons_of_mem _ hmem)
      have hcomm := Entry.apply_comm (h head mem_cons_self (by omega)) values
      simp only [replay, hrest]
      rw [← bind_assoc, ← bind_assoc]
      exact congrArg (Option.bind · _) hcomm.symm

/-- A history whose conflicts follow the numbers has the outcome of its serial order. -/
theorem replay_serial (h : history.Pairwise fun first second => first.Conflicts second.toOp →
      number first.txn < number second.txn) (values : X → V) :
    replay values (serial number history) = replay values history := by
  induction history generalizing values with
  | nil => rfl
  | cons entry history ih =>
    obtain ⟨hfirst, hrest⟩ := pairwise_cons.mp h
    have hmoves : replay values (serial number (entry :: history)) =
        replay values (entry :: serial number history) := by
      refine replay_orderedInsert ?_ values
      intro later hlater hless hitem
      have hmem := (serial_perm number history).mem_iff.mp hlater
      by_contra hwrite
      have hconf : entry.Conflicts later.toOp := by
        refine ⟨fun htxn => ?_, hitem, ?_⟩
        · rw [htxn] at hless
          exact lt_irrefl _ hless
        · by_contra hreads
          simp only [not_or, Bool.not_eq_true] at hreads
          exact hwrite hreads
      exact absurd (hfirst later hmem hconf) (by omega)
    rw [hmoves]
    simp only [replay, ih hrest]

end Order

end Serializability
