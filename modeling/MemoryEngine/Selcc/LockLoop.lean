import MemoryEngine.Selcc.CacheHandle

/-! The retry loops of `rdma.cc` that acquire the latch of a page.

The surroundings are free: they choose the word that each atomic operation finds and the reply to
each request. -/
namespace MemoryEngine.Selcc

open List

inductive LatchOp where
  | faa (delta old : Word)
  | cas (swap old : Word)
  | reply (processed : Bool)

def readerBit (old : Word) : Bool := (List.range 55).any fun i => remainBit old (i + 1)

namespace LatchOp

/-- What is added to the latch word; each CAS compares with 0. -/
def delta : LatchOp → Word
  | .faa delta _ => delta
  | .cas swap old => if old = 0 then swap else 0
  | .reply _ => 0

/-- The caller has the latch: the CAS succeeded, the FAA found no exclusive holder, or the page
was forwarded. -/
def grants : LatchOp → Bool
  | .faa _ old => writeByte old < 100
  | .cas _ old => old = 0
  | .reply processed => processed

def residue : LatchOp → Bool
  | .cas _ old => old ≠ 0 && writeByte old < 100 && !readerBit old
  | _ => false

theorem residue_of_grants {op : LatchOp} (h : op.grants = true) : op.residue = false := by
  cases op with
  | cas swap old => simp_all [grants, residue]
  | faa | reply => rfl

end LatchOp

/-- What one turn of a loop meets: the reply if it calls an RPC and the reminders sent until then,
the word at its atomic operation, and the word where a reader takes its bit back. -/
structure Turn where
  processed : Bool
  reminders : ℕ
  word : Word
  retracted : Word

/-- The locals at the test of `retry_cnt`.  The target is the index of the node that is asked for
a modified page; no reply of a shared holder ends a loop. -/
structure Locals where
  retryCnt : ℕ
  target : Option ℕ
  lastReturn : Word

abbrev Attempt := List LatchOp × Option Locals

/-- The operations of a call and what it returns, `none` if its loop has not ended. -/
abbrev Outcome := List LatchOp × Option Bool

def invalidationInterval : ℕ := 5

variable {n : ℕ}

def Invalidate.holder : Invalidate n → Option ℕ
  | .modified holder => some holder
  | _ => none

/-- The RPC has `retry_cnt` by reference and increments it before each message that it sends. -/
def askFirst (locals : Locals) (turn : Turn) (attempt : Locals → Attempt) : Attempt :=
  if locals.retryCnt % invalidationInterval = 1 ∧ locals.target.isSome then
    if turn.processed then ([.reply true], none)
    else
      let rest := attempt { locals with retryCnt := locals.retryCnt + 1 + turn.reminders }
      ([.reply false] ++ rest.1, rest.2)
  else attempt locals

variable (self : Fin n)

def rlockTurn (locals : Locals) (turn : Turn) : Attempt :=
  askFirst locals turn fun locals =>
    if 100 ≤ writeByte turn.word then
      let retryCnt := locals.retryCnt + 1
      ([.faa (sharedBit self) turn.word, .faa (-sharedBit self) turn.retracted],
        some ⟨if writeByte locals.lastReturn = writeByte turn.word then retryCnt
            else retryCnt / invalidationInterval,
          (rlockTarget self turn.word).holder, turn.word⟩)
    else ([.faa (sharedBit self) turn.word], none)

def wlockReadTurn (locals : Locals) (turn : Turn) : Attempt :=
  askFirst locals turn fun locals =>
    ([.cas (exclusiveByte self) turn.word], (wlockOutcome self turn.word).map fun targets =>
      ⟨locals.retryCnt + 1, targets.holder, turn.word⟩)

/-- What `global_Wlock_with_INVALID` does with the word that its CAS returned.  It looks at neither
the number of nodes nor its own byte, except that it sends nothing to itself. -/
def wlockBlindOutcome (self : ℕ) (old : Word) : Option (Option ℕ) :=
  if old = 0 then none
  else if 100 ≤ writeByte old then
    some (if writeByte old - 100 = self then none else some (writeByte old - 100))
  else if readerBit old then some none
  else none

/-- The counter is also incremented at the label `retry`. -/
def wlockTurn (self : ℕ) (locals : Locals) (turn : Turn) : Attempt :=
  askFirst locals turn fun locals =>
    ([.cas (exclusiveByte self) turn.word], (wlockBlindOutcome self turn.word).map fun target =>
      let retryCnt := locals.retryCnt + 1
      ⟨(if locals.lastReturn = turn.word then retryCnt
        else retryCnt / invalidationInterval) + 1, target, turn.word⟩)

def acquire (step : Locals → Turn → Attempt) (rTimes : ℤ) : Locals → List Turn → Outcome
  | locals, turns =>
      if 0 < rTimes ∧ rTimes ≤ locals.retryCnt then ([], some false)
      else match turns with
        | [] => ([], none)
        | turn :: turns =>
            match step locals turn with
            | (ops, none) => (ops, some true)
            | (ops, some next) =>
                let rest := acquire step rTimes next turns
                (ops ++ rest.1, rest.2)

def globalRlockAndReadPageWithInvalid (rTimes : ℤ) (turns : List Turn) : Outcome :=
  acquire (rlockTurn self) rTimes ⟨0, (rlockTarget self (exclusiveByte 0)).holder, 0⟩ turns

def globalWlockAndReadPageWithInvalid (rTimes : ℤ) (turns : List Turn) : Outcome :=
  acquire (wlockReadTurn self) rTimes ⟨0, none, 0⟩ turns

/-- A `void` function without a bound on the attempts; `true` is its return. -/
def globalWlockWithInvalid (self : ℕ) (turns : List Turn) : Outcome :=
  acquire (wlockTurn self) 0 ⟨1, none, 0⟩ turns

/-! ### What the loops return -/

/-- The caller has the latch where it is told so, and has changed nothing where it is told that
it has not. -/
def Sound (result : Outcome) : Prop :=
  (result.2 = some true → result.1.getLast?.any LatchOp.grants = true) ∧
    (result.2 = some false → (result.1.map LatchOp.delta).sum = 0)

instance (result : Outcome) : Decidable (Sound result) :=
  inferInstanceAs (Decidable (_ ∧ _))

/-- Operations of which the last one may end the loop, because it grants the latch or by
mistake, and the others add up to nothing. -/
def Ends (mistaken : LatchOp → Bool) (ops : List LatchOp) : Bool → Prop
  | true => ∃ before op, ops = before ++ [op] ∧ (op.grants = true ∨ mistaken op = true) ∧
      ∀ other ∈ before, mistaken other = false
  | false => (ops.map LatchOp.delta).sum = 0 ∧ ∀ op ∈ ops, mistaken op = false

variable {mistaken : LatchOp → Bool} {ops later : List LatchOp} {done : Bool}

theorem Ends.append (h : Ends mistaken ops false) (hlater : Ends mistaken later done) :
    Ends mistaken (ops ++ later) done := by
  obtain ⟨hsum, hops⟩ := h
  cases done with
  | true =>
    obtain ⟨before, op, rfl, hop, hpre⟩ := hlater
    exact ⟨ops ++ before, op, (append_assoc ..).symm, hop,
      forall_mem_append.mpr ⟨hops, hpre⟩⟩
  | false =>
    refine ⟨?_, forall_mem_append.mpr ⟨hops, hlater.2⟩⟩
    rw [map_append, sum_append, hsum, hlater.1, zero_add]

theorem askFirst_ends {attempt : Locals → Attempt} (locals : Locals) (turn : Turn)
    (hreply : mistaken (.reply false) = false)
    (h : ∀ locals, Ends mistaken (attempt locals).1 (attempt locals).2.isNone) :
    Ends mistaken (askFirst locals turn attempt).1 (askFirst locals turn attempt).2.isNone := by
  unfold askFirst
  split_ifs
  · exact ⟨[], .reply true, rfl, .inl rfl, by simp⟩
  · exact Ends.append ⟨rfl, by simpa using hreply⟩ (h _)
  · exact h locals

theorem acquire_ends {step : Locals → Turn → Attempt}
    (hstep : ∀ locals turn, Ends mistaken (step locals turn).1 (step locals turn).2.isNone)
    (rTimes : ℤ) (locals : Locals) (turns : List Turn) :
    Ends mistaken (acquire step rTimes locals turns).1
      ((acquire step rTimes locals turns).2 == some true) := by
  induction turns generalizing locals with
  | nil =>
    unfold acquire
    split_ifs <;> exact ⟨rfl, by simp⟩
  | cons turn turns ih =>
    unfold acquire
    split_ifs
    · exact ⟨rfl, by simp⟩
    · have hturn := hstep locals turn
      dsimp only
      generalize step locals turn = result at hturn ⊢
      obtain ⟨ops, none | next⟩ := result
      · exact hturn
      · exact Ends.append hturn (ih next)

theorem sound_iff {result : Outcome}
    (hgrants : ∀ op : LatchOp, op.grants = true → mistaken op = false)
    (h : Ends mistaken result.1 (result.2 == some true)) :
    Sound result ↔ ∀ op ∈ result.1, mistaken op = false := by
  obtain ⟨ops, returned⟩ := result
  by_cases htrue : returned = some true
  · subst htrue
    obtain ⟨before, op, hops, hop, hpre⟩ := h
    subst hops
    rw [forall_mem_append, forall_mem_singleton]
    have hlast : (before ++ [op]).getLast?.any LatchOp.grants = op.grants := by simp
    constructor
    · intro hsound
      exact ⟨hpre, hgrants op (hlast.symm.trans (hsound.1 rfl))⟩
    · intro hall
      exact ⟨fun _ => hlast.trans (hop.resolve_right (by simp [hall.2])), nofun⟩
  · rw [beq_false_of_ne htrue] at h
    exact iff_of_true ⟨fun hreturned => absurd hreturned htrue, fun _ => h.1⟩ h.2

theorem rlockTurn_ends (locals : Locals) (turn : Turn) :
    Ends (fun _ => false) (rlockTurn self locals turn).1 (rlockTurn self locals turn).2.isNone := by
  refine askFirst_ends locals turn rfl fun locals => ?_
  split
  · exact ⟨by simp [LatchOp.delta], fun _ _ => rfl⟩
  · rename_i hfree
    exact ⟨[], _, rfl, .inl (decide_eq_true (Nat.lt_of_not_le hfree)), by simp⟩

theorem cas_ends {swap old : Word}
    (h : done = true ↔ old = 0 ∨ (LatchOp.cas swap old).residue = true) :
    Ends LatchOp.residue [.cas swap old] done := by
  cases done with
  | true => exact ⟨[], _, rfl, (h.mp rfl).imp_left decide_eq_true, by simp⟩
  | false =>
    obtain ⟨hne, hnot⟩ := not_or.mp fun hor => Bool.false_ne_true (h.mpr hor)
    refine ⟨?_, by simpa using hnot⟩
    rw [map_singleton, LatchOp.delta, if_neg hne, sum_singleton]

theorem wlockOutcome_isNone (swap old : Word) :
    (wlockOutcome self old).isNone = true ↔
      old = 0 ∨ (LatchOp.cas swap old).residue = true := by
  have hbits : readerBit old = false ↔ strayBit n old = false ∧ sharers n old = [] := by
    simp only [readerBit, strayBit, sharers, any_eq_false, mem_range,
      filter_eq_nil_iff, mem_finRange, Bool.and_eq_true, decide_eq_true_eq, true_imp_iff]
    constructor
    · exact fun h => ⟨fun i hi hset => h i hi hset.2, fun node hset => h node hset.1 hset.2⟩
    · intro h i hi hset
      by_cases hnode : i < n
      · exact h.2 ⟨i, hnode⟩ ⟨hi, hset⟩
      · exact h.1 i hi ⟨Nat.le_of_not_lt hnode, hset⟩
  unfold wlockOutcome LatchOp.residue
  split_ifs <;> simp_all

theorem wlockBlindOutcome_isNone (self : ℕ) (swap old : Word) :
    (wlockBlindOutcome self old).isNone = true ↔
      old = 0 ∨ (LatchOp.cas swap old).residue = true := by
  unfold wlockBlindOutcome LatchOp.residue
  split_ifs <;> simp_all

/-- The shared acquisition is sound, and the exclusive ones are where no CAS of theirs fails on a
word without a holder. -/
theorem acquisitions_sound_iff (self : Fin n) (rTimes : ℤ) (turns : List Turn) :
    Sound (globalRlockAndReadPageWithInvalid self rTimes turns) ∧
      (Sound (globalWlockAndReadPageWithInvalid self rTimes turns) ↔
        ∀ op ∈ (globalWlockAndReadPageWithInvalid self rTimes turns).1, op.residue = false) ∧
      (Sound (globalWlockWithInvalid self turns) ↔
        ∀ op ∈ (globalWlockWithInvalid self turns).1, op.residue = false) := by
  refine ⟨?_, ?_, ?_⟩
  · have hends := acquire_ends (rlockTurn_ends self) rTimes
      ⟨0, (rlockTarget self (exclusiveByte 0)).holder, 0⟩ turns
    exact (sound_iff (fun _ _ => rfl) hends).mpr fun _ _ => rfl
  · refine sound_iff (fun _ => LatchOp.residue_of_grants) (acquire_ends ?_ _ _ _)
    intro locals turn
    refine askFirst_ends locals turn rfl fun locals => cas_ends ?_
    rw [Option.isNone_map]
    exact wlockOutcome_isNone self _ _
  · refine sound_iff (fun _ => LatchOp.residue_of_grants) (acquire_ends ?_ _ _ _)
    intro locals turn
    refine askFirst_ends locals turn rfl fun locals => cas_ends ?_
    rw [Option.isNone_map]
    exact wlockBlindOutcome_isNone self _ _

def overtakenWord : Word := exclusiveByte 1 + (LatchMove.release (Fin.last 0) .exclusive).delta

theorem overtakenWord_not_sound :
    ¬ Sound (globalWlockAndReadPageWithInvalid (0 : Fin 2) 0 [⟨false, 0, overtakenWord, 0⟩]) ∧
      ¬ Sound (globalWlockWithInvalid 0 [⟨false, 0, overtakenWord, 0⟩]) := by
  decide +kernel

end MemoryEngine.Selcc
