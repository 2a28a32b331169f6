import MemoryEngine.Library.TokenFlow
import MemoryEngine.Library.TransitionSystem
import Mathlib.Algebra.Order.BigOperators.Group.Finset

/-! The reader-writer spin latch of the page handles, the tables and the log streams.

A step is one atomic operation of one thread on the word of the latch.  Other threads go on
between the load and the exchange of a call, and an exchange fails where the word has changed. -/
namespace MemoryEngine.Selcc.RWSpinMutex

/-- The bits of `state`: bit 0, bit 1, and the reader count in bits 2 to 63, where the threads of no
machine overflow it. -/
structure State where
  writerActive : Bool
  writerWaiting : Bool
  readerCount : ℕ
  deriving DecidableEq, Repr

/-- Where a thread is in its call; `cur` is the word that it has loaded.  One that spins in
`lock_shared` or `set_writer_waiting` has changed nothing yet and counts as idle. -/
inductive Phase where
  | idle
  | sharing (cur : State) (blocking : Bool)
  | marking (cur : State) (blocking : Bool)
  | waiting
  | marked
  | claiming (cur : State) (blocking : Bool)
  | clearing
  | shared
  | exclusive
  | upgrading (cur : State)
  | downgrading (cur : State)
  deriving DecidableEq, Repr

/-- The operations of a thread.  A blocking call is `lock` or `lock_shared`, another one the
call that may return false. -/
inductive Action where
  | lockShared (blocking : Bool)
  | lock (blocking : Bool)
  | load
  | exchange
  | exchangeFails
  | clear
  | tryUpgrade
  | downgrade
  | unlockShared
  | unlock
  deriving DecidableEq, Repr

/-- What keeps a reader out. -/
def State.refuses (writerPrioritized : Bool) (cur : State) : Bool :=
  cur.writerActive || writerPrioritized && cur.writerWaiting

def State.free (cur : State) : Bool := cur.readerCount = 0 && !cur.writerActive

def State.claimed (writerPrioritized : Bool) (cur : State) : State :=
  { cur with
    writerActive := true
    writerWaiting := !writerPrioritized && cur.writerWaiting }

def compareExchange (word cur desired : State) (won lost : Phase) : State × Phase :=
  if word = cur then (desired, won) else (word, lost)

def act (writerPrioritized : Bool) (word : State) : Phase → Action → Option (State × Phase)
  | .idle, .lockShared blocking =>
      some (word, if word.refuses writerPrioritized then .idle else .sharing word blocking)
  | .idle, .lock true =>
      -- `set_writer_waiting` leaves a mark that is there
      some (word, if writerPrioritized && !word.writerWaiting then .marking word true else .waiting)
  | .idle, .lock false =>
      some (word,
        if writerPrioritized then
          if word.refuses true then .idle else .marking word false
        else if word.free then .claiming word false else .idle)
  | .waiting, .load => some (word, if word.free then .claiming word true else .waiting)
  | .marked, .load => some (word, if word.free then .claiming word false else .clearing)
  | .sharing cur _, .exchange =>
      some (compareExchange word cur { cur with readerCount := cur.readerCount + 1 } .shared .idle)
  | .marking cur blocking, .exchange =>
      some (compareExchange word cur { cur with writerWaiting := true }
        (if blocking then .waiting else .marked) .idle)
  | .claiming cur blocking, .exchange =>
      some (compareExchange word cur (cur.claimed writerPrioritized) .exclusive
        (if blocking then .waiting else if writerPrioritized then .clearing else .idle))
  | .upgrading cur, .exchange =>
      some (compareExchange word cur
        { cur with writerActive := true, readerCount := cur.readerCount - 1 } .exclusive .shared)
  | .downgrading cur, .exchange =>
      some (compareExchange word cur ⟨false, false, cur.readerCount + 1⟩ .shared
        (.downgrading word))
  -- `compare_exchange_weak`
  | .sharing _ true, .exchangeFails => some (word, .idle)
  | .marking _ true, .exchangeFails => some (word, .idle)
  | .claiming _ true, .exchangeFails => if writerPrioritized then none else some (word, .waiting)
  | .clearing, .clear => some ({ word with writerWaiting := false }, .idle)
  | .shared, .tryUpgrade =>
      some (word, if word.readerCount = 1 && !word.writerActive then .upgrading word else .shared)
  | .exclusive, .downgrade => some (word, .downgrading word)
  | .shared, .unlockShared => some ({ word with readerCount := word.readerCount - 1 }, .idle)
  | .exclusive, .unlock => some ({ word with writerActive := false }, .idle)
  | _, _ => none

namespace Phase

@[simp] def holdsShared : Phase → Bool
  | .shared | .upgrading _ => true
  | _ => false

@[simp] def holdsExclusive : Phase → Bool
  | .exclusive | .downgrading _ => true
  | _ => false

/-- A writer that has marked the latch or has seen the mark of another one. -/
@[simp] def pending : Phase → Bool
  | .waiting | .marked | .claiming _ _ | .clearing => true
  | _ => false

/-- The tests that a call has passed. -/
@[simp] def Checked (prio : Bool) : Phase → Prop
  | .sharing cur _ => cur.writerActive = false
  | .marking _ _ => prio = true
  | .claiming cur _ => cur.readerCount = 0 ∧ cur.writerActive = false
  | .upgrading cur => cur.readerCount = 1 ∧ cur.writerActive = false
  | _ => True

end Phase

/-- What a thread may take for granted about the word. -/
structure Fits (prio : Bool) (word : State) (phase : Phase) : Prop where
  checked : phase.Checked prio
  shared : phase.holdsShared = true → 0 < word.readerCount
  exclusive : phase.holdsExclusive = true → word.writerActive = true
  apart : word.writerActive = true → word.readerCount = 0
  unmarked : prio = false → word.writerWaiting = false

/-- A step moves the word as far as it moves the thread, and a writer that gives up takes the
mark away. -/
structure Kept (prio : Bool) (word : State) (phase : Phase) (word' : State)
    (phase' : Phase) : Prop where
  checked : phase'.Checked prio
  shared : word'.readerCount + phase.holdsShared.toNat =
    word.readerCount + phase'.holdsShared.toNat
  exclusive : word'.writerActive.toNat + phase.holdsExclusive.toNat =
    word.writerActive.toNat + phase'.holdsExclusive.toNat
  apart : word'.writerActive = true → word'.readerCount = 0
  unmarked : prio = false → word'.writerWaiting = false
  marked : word'.writerWaiting = true →
    phase'.pending = true ∨ word.writerWaiting = true ∧ phase.pending = false

variable {prio : Bool} {word word' cur desired : State}
  {phase phase' won lost : Phase} {action : Action}

theorem Fits.stay (h : Fits prio word phase) (hchecked : phase'.Checked prio)
    (hshared : phase'.holdsShared = phase.holdsShared)
    (hexcl : phase'.holdsExclusive = phase.holdsExclusive)
    (hpend : prio = true → phase.pending = true → phase'.pending = true) :
    Kept prio word phase word phase' where
  checked := hchecked
  shared := by rw [hshared]
  exclusive := by rw [hexcl]
  apart := h.apart
  unmarked := h.unmarked
  marked hmark := by
    have hmode : prio = true := by
      by_contra hmode
      simp [h.unmarked (by simpa using hmode)] at hmark
    cases hphase : phase.pending with
    | false => exact .inr ⟨hmark, rfl⟩
    | true => exact .inl (hpend hmode hphase)

theorem kept_of_compareExchange
    (hexch : compareExchange word cur desired won lost = (word', phase'))
    (hwon : word = cur → Kept prio word phase desired won)
    (hlost : Kept prio word phase word lost) :
    Kept prio word phase word' phase' := by
  unfold compareExchange at hexch
  split at hexch
  · cases hexch
    exact hwon ‹_›
  · cases hexch
    exact hlost

theorem act_kept (hact : act prio word phase action = some (word', phase'))
    (h : Fits prio word phase) : Kept prio word phase word' phase' := by
  obtain ⟨hchecked, hshared, hexcl, hapart, hunmarked⟩ := id h
  unfold act at hact
  split at hact
  -- the loads
  case h_1 => cases hact; apply h.stay <;> split <;> simp_all [State.refuses]
  case h_2 => cases hact; apply h.stay <;> split <;> simp_all
  case h_3 | h_4 | h_5 => cases hact; apply h.stay <;> split_ifs <;> simp_all [State.free]
  case h_6 | h_9 | h_10 =>
    refine kept_of_compareExchange (Option.some.inj hact) ?_ (h.stay trivial rfl rfl (by simp))
    rintro rfl
    constructor <;> simp_all
  case h_7 blocking =>
    refine kept_of_compareExchange (Option.some.inj hact) ?_ (h.stay trivial rfl rfl (by simp))
    rintro rfl
    cases blocking <;> constructor <;> simp_all
  case h_8 blocking =>
    refine kept_of_compareExchange (Option.some.inj hact) ?_ ?_
    · rintro rfl
      constructor <;> simp_all [State.claimed]
    · apply h.stay <;> split_ifs <;> simp_all
  case h_11 | h_12 | h_16 => cases hact; exact h.stay trivial rfl rfl (by simp)
  case h_13 =>
    split at hact
    · cases hact
    · cases hact
      exact h.stay trivial rfl rfl (by simp)
  case h_14 | h_18 => cases hact; constructor <;> simp_all
  case h_15 => cases hact; apply h.stay <;> split <;> simp_all
  case h_17 => cases hact; constructor <;> simp_all; omega
  case h_19 => cases hact

/-- A latch and the threads that use it. -/
structure Latch (n : ℕ) where
  word : State
  phase : Fin n → Phase

namespace Latch

variable {n : ℕ}

def step (prio : Bool) (s : Latch n) (event : Fin n × Action) : Option (Latch n) :=
  (act prio s.word (s.phase event.1) event.2).map fun after =>
    ⟨after.1, Function.update s.phase event.1 after.2⟩

def start : Latch n := ⟨⟨false, false, 0⟩, fun _ => .idle⟩

def Run (prio : Bool) (s : Latch n) : Prop :=
  TransitionSystem.Reachable (step prio) (fun _ _ => True) (· = start) s

structure Inv (prio : Bool) (s : Latch n) : Prop where
  checked : ∀ t, (s.phase t).Checked prio
  shared : ∑ t, (s.phase t).holdsShared.toNat = s.word.readerCount
  exclusive : ∑ t, (s.phase t).holdsExclusive.toNat = s.word.writerActive.toNat
  apart : s.word.writerActive = true → s.word.readerCount = 0
  unmarked : prio = false → s.word.writerWaiting = false
  marked : s.word.writerWaiting = true → ∃ t, (s.phase t).pending = true

variable {s after : Latch n}

theorem one_le_sum (holds : Phase → Bool) {phase : Fin n → Phase} {t : Fin n}
    (hholds : holds (phase t) = true) : 1 ≤ ∑ t, (holds (phase t)).toNat := by
  have hle := Finset.single_le_sum_of_canonicallyOrdered
    (f := fun t => (holds (phase t)).toNat) (Finset.mem_univ t)
  rwa [hholds] at hle

namespace Inv

theorem fits (h : s.Inv prio) (t : Fin n) :
    Fits prio s.word (s.phase t) where
  checked := h.checked t
  shared hshared := h.shared ▸ one_le_sum Phase.holdsShared hshared
  exclusive hexcl := by
    have hle := one_le_sum Phase.holdsExclusive hexcl
    rw [h.exclusive] at hle
    exact Bool.toNat_eq_one.mp (le_antisymm (Bool.toNat_le _) hle)
  apart := h.apart
  unmarked := h.unmarked

theorem step (h : s.Inv prio) {event : Fin n × Action}
    (hstep : s.step prio event = some after) : after.Inv prio := by
  obtain ⟨⟨word', phase'⟩, hact, rfl⟩ := Option.map_eq_some_iff.mp hstep
  have hkept := act_kept hact (h.fits event.1)
  have hshared := TokenFlow.sum_update (fun _ phase => phase.holdsShared.toNat) s.phase event.1
    phase'
  have hexcl := TokenFlow.sum_update (fun _ phase => phase.holdsExclusive.toNat) s.phase event.1
    phase'
  refine ⟨?_, ?_, ?_, hkept.apart, hkept.unmarked, ?_⟩
  · rw [Function.forall_update_iff s.phase (fun _ phase => phase.Checked prio)]
    exact ⟨hkept.checked, fun t _ => h.checked t⟩
  · rw [h.shared] at hshared
    exact Nat.add_right_cancel (hshared.trans hkept.shared.symm)
  · rw [h.exclusive] at hexcl
    exact Nat.add_right_cancel (hexcl.trans hkept.exclusive.symm)
  · intro hmark
    rcases hkept.marked hmark with hpend | ⟨hmark, hpend⟩
    · exact ⟨event.1, by simpa using hpend⟩
    · obtain ⟨t, ht⟩ := h.marked hmark
      have hne : t ≠ event.1 := by
        rintro rfl
        exact Bool.false_ne_true (hpend.symm.trans ht)
      exact ⟨t, by simpa [hne] using ht⟩

end Inv

theorem Run.inv (h : s.Run prio) : s.Inv prio := by
  refine TransitionSystem.Reachable.invariant ?_ (fun _ _ _ h _ hstep => h.step hstep) h
  rintro _ rfl
  constructor <;> simp [start]

/-- Over all interleavings, the count is that of the readers, and a writer is alone. -/
theorem readers_and_writer (h : s.Run prio) :
    s.word.readerCount = (Finset.univ.filter fun t => (s.phase t).holdsShared).card ∧
      ∀ writer, (s.phase writer).holdsExclusive = true → ∀ t,
        (s.phase t).holdsShared = false ∧ ((s.phase t).holdsExclusive = true → t = writer) := by
  have hinv := h.inv
  refine ⟨?_, fun writer hwriter t => ⟨?_, fun hother => ?_⟩⟩
  · rw [← hinv.shared, Finset.card_filter]
    exact Finset.sum_congr rfl fun t _ => by cases (s.phase t).holdsShared <;> rfl
  · have hactive := (hinv.fits writer).exclusive hwriter
    by_contra hshared
    have hpos := (hinv.fits t).shared (by simpa using hshared)
    exact hpos.ne' (hinv.apart hactive)
  · by_contra hne
    have hpair := Finset.sum_le_sum_of_subset (f := fun t => (s.phase t).holdsExclusive.toNat)
      (Finset.subset_univ {t, writer})
    rw [Finset.sum_pair hne, hinv.exclusive, hwriter, hother] at hpair
    exact absurd (hpair.trans (Bool.toNat_le _)) (by decide)

/-- A reader and a waiting writer, which then takes the latch. -/
theorem readers_and_writer_handover : ∃ s : Latch 2, s.Run true ∧
    s.phase 1 = .exclusive ∧ (s.phase 0).holdsShared = false := by
  obtain ⟨s, hrun, hphase⟩ : ∃ s : Latch 2, s.Run true ∧ s.phase 1 = .exclusive :=
    TransitionSystem.Reachable.exists_of_schedule [(0, .lockShared true), (0, .exchange),
      (1, .lock true), (1, .exchange), (0, .unlockShared), (1, .load), (1, .exchange)] rfl
      (by decide)
  exact ⟨s, hrun, hphase, ((readers_and_writer hrun).2 1 (by rw [hphase]; rfl) 0).1⟩

theorem free_of_unheld (h : s.Inv prio)
    (hfree : ∀ t, (s.phase t).holdsShared = false ∧ (s.phase t).holdsExclusive = false) :
    s.word.readerCount = 0 ∧ s.word.writerActive = false := by
  refine ⟨?_, Bool.toNat_eq_zero.mp ?_⟩
  · rw [← h.shared]
    exact Finset.sum_eq_zero fun t _ => by rw [(hfree t).1]; rfl
  · rw [← h.exclusive]
    exact Finset.sum_eq_zero fun t _ => by rw [(hfree t).2]; rfl

/-- Once the latch is free, a waiting writer takes it in two steps, and where no writer is on its
way a reader does. -/
theorem taken_of_free (h : s.Run prio)
    (hfree : ∀ t, (s.phase t).holdsShared = false ∧ (s.phase t).holdsExclusive = false) :
    (∀ t, s.phase t = .waiting → ∃ after,
      [(t, .load), (t, .exchange)].foldlM (step prio) s = some after ∧
        after.phase t = .exclusive) ∧
    ((∀ t, (s.phase t).pending = false) → ∀ t, s.phase t = .idle → ∃ after,
      [(t, .lockShared true), (t, .exchange)].foldlM (step prio) s = some after ∧
        after.phase t = .shared) := by
  obtain ⟨hcount, hactive⟩ := free_of_unheld h.inv hfree
  refine ⟨fun t hwait => ?_, fun hnone t hidle => ?_⟩
  · have hopen : s.word.free = true := by simp [State.free, hcount, hactive]
    simp [step, act, hwait, hopen, compareExchange]
  · have hmark : s.word.writerWaiting = false := by
      by_contra hmark
      obtain ⟨t, ht⟩ := h.inv.marked (by simpa using hmark)
      exact Bool.false_ne_true ((hnone t).symm.trans ht)
    have hopen : s.word.refuses prio = false := by simp [State.refuses, hactive, hmark]
    simp [step, act, hidle, hopen, compareExchange]

theorem taken_of_free_unlocked : ∃ s after : Latch 2, s.Run true ∧
    [(1, .load), (1, .exchange)].foldlM (step true) s = some after ∧
      after.phase 1 = .exclusive := by
  obtain ⟨s, hrun, hwait, hfree⟩ : ∃ s : Latch 2, s.Run true ∧ s.phase 1 = .waiting ∧
      ∀ t, (s.phase t).holdsShared = false ∧ (s.phase t).holdsExclusive = false :=
    TransitionSystem.Reachable.exists_of_schedule [(0, .lockShared true), (0, .exchange),
      (1, .lock true), (1, .exchange), (0, .unlockShared)] rfl (by decide)
  obtain ⟨after, hafter, hphase⟩ := (taken_of_free hrun hfree).1 1 hwait
  exact ⟨s, after, hrun, hafter, hphase⟩

end Latch

end MemoryEngine.Selcc.RWSpinMutex
