import MemoryEngine.Txn.TimestampManager
import MemoryEngine.Txn.TwoPhaseAbort

/-! What `AbortTransaction` of the TIMESTAMP manager restores, and both managers together.

The map of the accesses by address has the first access of each tuple.  Its image, if it has one,
is the tuple before the transaction.  Where the first access is `READ_ONLY`, nothing is copied
back. -/
namespace MemoryEngine.Txn

namespace Timestamp

open TupleAccess List Option

variable {C : Type} {s middle after : System C} {event : Event C} {calls : List (Event C)}
  {txn page : ℕ} {addr : TupleAddr}

def Event.call : Event C → Bool
  | .select _ accessType _ => accessType = .readOnly || accessType = .readWrite
  | .read _ => true
  | .write _ _ => true
  | _ => false

namespace System

def Unlatched (s : System C) (txn : ℕ) : Prop :=
  ∀ page, txn ∉ (s.latches page).readers ∧ (s.latches page).writer ≠ some txn

structure Idle (s : System C) (txn : ℕ) : Prop where
  manager : s.manager = .start
  unlatched : s.Unlatched txn

/-- `AbortTransaction` from its start to its end. -/
def abortTransaction (s : System C) : System C :=
  { s with
    tuples := ((sorted s.manager.accessList).foldl rollBack s).tuples
    latches := fun page =>
      if s.manager.lockedHandles page then (s.latches page).unlock else s.latches page
    manager := { s.manager with lockedHandles := fun _ => false, stage := .release false } }

/-- The first access of the transaction to the tuple was `READ_WRITE`. -/
def WrittenFirst (s : System C) (addr : TupleAddr) : Prop :=
  ∃ access, s.manager.accessList.find? (fun entry => entry.addr = addr) = some access ∧
    access.accessType = .readWrite

inductive Called (s : System C) : Event C → System C → Prop where
  | access (addr accessType answer) {next : System C}
      (htype : accessType = .readOnly ∨ accessType = .readWrite)
      (hlist : next.manager.accessList = s.manager.accessList ++
        [⟨accessType, addr, if accessType = .readWrite then some (s.tuples addr) else none⟩])
      (hcols : ∀ other, (next.tuples other).columns = (s.tuples other).columns) :
      Called s (.select addr accessType answer) next
  | refused (addr accessType answer) {next : System C}
      (hlist : next.manager.accessList = s.manager.accessList) (htups : next.tuples = s.tuples) :
      Called s (.select addr accessType answer) next
  | read (index) : Called s (.read index) s
  | write (index columns access) (hmem : access ∈ s.manager.accessList) :
      Called s (.write index columns)
        (s.setTuple access.addr { s.tuples access.addr with columns := columns })

theorem columns_checkTimestamps {accessType : AccessType} {ts : ℕ} {tuple checked : Tuple C}
    (h : checkTimestamps accessType ts tuple = some checked) : checked.columns = tuple.columns := by
  unfold checkTimestamps at h
  split_ifs at h <;> (obtain rfl := Option.some.inj h; rfl)

@[simp] theorem takeTimestamp_tuples (s : System C) : s.takeTimestamp.tuples = s.tuples := by
  unfold takeTimestamp
  split <;> rfl

@[simp] theorem takeTimestamp_latches (s : System C) : s.takeTimestamp.latches = s.latches := by
  unfold takeTimestamp
  split <;> rfl

@[simp] theorem takeTimestamp_accessList (s : System C) :
    s.takeTimestamp.manager.accessList = s.manager.accessList := by
  unfold takeTimestamp
  split <;> rfl

@[simp] theorem takeTimestamp_lockedHandles (s : System C) :
    s.takeTimestamp.manager.lockedHandles = s.manager.lockedHandles := by
  unfold takeTimestamp
  split <;> rfl

structure Latched (s : System C) (txn : ℕ) : Prop where
  reader : ∀ page, txn ∉ (s.latches page).readers
  writer : ∀ page, (s.latches page).writer = some txn → s.manager.lockedHandles page = true
  accesses : ∀ access ∈ s.manager.accessList, s.manager.lockedHandles access.addr.pageAddr = true

theorem Latched.takeTimestamp (h : s.Latched txn) : s.takeTimestamp.Latched txn where
  reader page := by
    rw [takeTimestamp_latches]
    exact h.reader page
  writer page := by
    rw [takeTimestamp_latches, takeTimestamp_lockedHandles]
    exact h.writer page
  accesses access hacc := by
    rw [takeTimestamp_accessList] at hacc
    rw [takeTimestamp_lockedHandles]
    exact h.accesses access hacc

theorem acquireXLatch_spec {next : System C} {latched : Bool} {answer : LatchAnswer}
    (h : s.acquireXLatch txn page answer = some (next, latched)) :
    next.tuples = s.tuples ∧ next.manager.accessList = s.manager.accessList ∧
      (latched = true → next.manager.lockedHandles page = true) ∧
      (s.Latched txn → next.Latched txn) := by
  unfold acquireXLatch at h
  split_ifs at h with hlock
  · cases h
    exact ⟨rfl, rfl, fun _ => hlock, id⟩
  · cases answer with
    | granted =>
      obtain ⟨latch, hlatch, hnext⟩ := map_eq_some_iff.mp h
      cases hnext
      rw [PageLatch.lock] at hlatch
      split_ifs at hlatch with hfree
      cases hlatch
      refine ⟨rfl, rfl, by simp, fun hpre => ⟨?_, ?_, ?_⟩⟩
      · intro other
        by_cases hother : other = page
        · subst hother
          simpa using hpre.reader other
        · simpa [Function.update_of_ne hother] using hpre.reader other
      · intro other
        by_cases hother : other = page
        · subst hother
          simp
        · simpa [Function.update_of_ne hother] using hpre.writer other
      · intro access hacc
        by_cases hother : access.addr.pageAddr = page
        · simp [hother]
        · simpa [Function.update_of_ne hother] using hpre.accesses access hacc
    | refused =>
      cases h
      exact ⟨rfl, rfl, by simp, id⟩
    | lost => cases h

def withAccess (s : System C) (addr : TupleAddr) (accessType : AccessType) : System C :=
  let localTuple := if accessType = .readWrite then some (s.tuples addr) else none
  { s with manager := s.manager.newAccess ⟨accessType, addr, localTuple⟩ }

theorem checkedAccess_cases (s : System C) (addr : TupleAddr) (accessType : AccessType) :
    (∃ checked, checked.columns = (s.tuples addr).columns ∧
      s.checkedAccess addr accessType = (s.withAccess addr accessType).setTuple addr checked) ∨
      s.checkedAccess addr accessType = (s.withAccess addr accessType).abort := by
  cases hcheck : checkTimestamps accessType (s.manager.startTimestamp.getD 0) (s.tuples addr) with
  | some checked =>
    refine .inl ⟨checked, columns_checkTimestamps hcheck, ?_⟩
    simp only [checkedAccess, Manager.newAccess, hcheck]
    rfl
  | none =>
    refine .inr ?_
    simp only [checkedAccess, Manager.newAccess, hcheck]
    rfl

theorem checkedAccess_accessList (s : System C) (addr : TupleAddr) (accessType : AccessType) :
    (s.checkedAccess addr accessType).manager.accessList = s.manager.accessList ++
      [⟨accessType, addr, if accessType = .readWrite then some (s.tuples addr) else none⟩] := by
  rcases s.checkedAccess_cases addr accessType with ⟨checked, -, heq⟩ | heq <;> (rw [heq]; rfl)

theorem checkedAccess_columns (s : System C) (addr : TupleAddr) (accessType : AccessType)
    (other : TupleAddr) :
    ((s.checkedAccess addr accessType).tuples other).columns = (s.tuples other).columns := by
  rcases s.checkedAccess_cases addr accessType with ⟨checked, hcols, heq⟩ | heq
  · rw [heq]
    by_cases hother : other = addr
    · subst hother
      simpa [setTuple] using hcols
    · simp [setTuple, hother, withAccess]
  · rw [heq]
    rfl

theorem Latched.checkedAccess (h : s.Latched txn) (accessType : AccessType)
    (hlock : s.manager.lockedHandles addr.pageAddr = true) :
    (s.checkedAccess addr accessType).Latched txn := by
  have hsame : (s.checkedAccess addr accessType).latches = s.latches ∧
      (s.checkedAccess addr accessType).manager.lockedHandles = s.manager.lockedHandles := by
    rcases s.checkedAccess_cases addr accessType with ⟨checked, -, heq⟩ | heq <;>
      (rw [heq]; exact ⟨rfl, rfl⟩)
  constructor
  · rw [hsame.1]
    exact h.reader
  · rw [hsame.1, hsame.2]
    exact h.writer
  · rw [hsame.2, checkedAccess_accessList]
    intro access hacc
    rcases mem_append.mp hacc with hacc | hacc
    · exact h.accesses access hacc
    · rw [mem_singleton.mp hacc]
      exact hlock

theorem called (hcall : event.call = true) (hlat : s.Latched txn)
    (hstep : s.step txn event = some after) : s.Called event after ∧ after.Latched txn := by
  cases event with
  | select addr accessType answer =>
    have htype : accessType = .readOnly ∨ accessType = .readWrite := by
      simpa [Event.call] using hcall
    simp only [step] at hstep
    split_ifs at hstep
    obtain ⟨⟨acquired, latched⟩, hacquired, hafter⟩ := map_eq_some_iff.mp hstep
    obtain ⟨htups, hlist, hlock, hkeeps⟩ := acquireXLatch_spec hacquired
    have hacqLat := hkeeps hlat.takeTimestamp
    rw [takeTimestamp_tuples] at htups
    rw [takeTimestamp_accessList] at hlist
    cases latched with
    | true =>
      obtain rfl : acquired.checkedAccess addr accessType = after := hafter
      refine ⟨.access addr accessType answer htype ?_ ?_,
        hacqLat.checkedAccess accessType (hlock rfl)⟩
      · rw [checkedAccess_accessList, hlist, htups]
      · intro other
        rw [checkedAccess_columns, htups]
    | false =>
      obtain rfl : acquired.abort = after := hafter
      exact ⟨.refused addr accessType answer hlist htups,
        hacqLat.reader, hacqLat.writer, hacqLat.accesses⟩
  | read index =>
    simp only [step] at hstep
    split_ifs at hstep
    cases hstep
    exact ⟨.read index, hlat⟩
  | write index columns =>
    simp only [step] at hstep
    split_ifs at hstep
    obtain ⟨access, hacc, rfl⟩ := map_eq_some_iff.mp hstep
    exact ⟨.write index columns access (mem_of_getElem? hacc),
      hlat.reader, hlat.writer, hlat.accesses⟩
  | _ => cases hcall

structure Tracked (s : System C) (txn : ℕ) (middle : System C) : Prop where
  latched : middle.Latched txn
  undoable : ∀ access ∈ middle.manager.accessList, access.Undoable
  firsts : ∀ addr access, middle.manager.accessList.find? (fun entry => entry.addr = addr) =
    some access → access.accessType = .readWrite →
      ∃ image, access.localTuple = some image ∧ image.columns = (s.tuples addr).columns
  untouched : ∀ addr, middle.manager.accessList.find? (fun entry => entry.addr = addr) = none →
    (middle.tuples addr).columns = (s.tuples addr).columns

namespace Tracked

theorem start (hidle : s.Idle txn) : s.Tracked txn s where
  latched := by
    refine ⟨fun page => (hidle.unlatched page).1, ?_, ?_⟩
    · intro page hwtr
      exact absurd hwtr (hidle.unlatched page).2
    · rw [hidle.manager]
      intro access hacc
      cases hacc
  undoable := by
    rw [hidle.manager]
    intro access hacc
    cases hacc
  firsts := by
    rw [hidle.manager]
    intro addr access hfind
    cases hfind
  untouched _ _ := rfl

theorem step {next : System C} (h : s.Tracked txn middle) (hcall : event.call = true)
    (hstep : middle.step txn event = some next) : s.Tracked txn next := by
  obtain ⟨hcalled, hlat⟩ := called hcall h.latched hstep
  refine ⟨hlat, ?_, ?_, ?_⟩
  · cases hcalled with
    | access addr accessType answer htype hlist hcols =>
      rw [hlist]
      exact undoable_append h.undoable htype
    | refused addr accessType answer hlist =>
      rw [hlist]
      exact h.undoable
    | read => exact h.undoable
    | write => exact h.undoable
  · cases hcalled with
    | access addr accessType answer htype hlist hcols =>
      intro other access hfind hwrite
      rw [hlist, find?_append] at hfind
      rcases or_eq_some_iff.mp hfind with hfind | ⟨hnone, hlast⟩
      · exact h.firsts other access hfind hwrite
      · -- the tuple is as it was before the transaction
        obtain ⟨haddr, hmem⟩ : addr = other ∧ _ = access := by
          simpa using hlast
        subst haddr hmem
        simp only at hwrite
        exact ⟨middle.tuples addr, if_pos hwrite, h.untouched addr hnone⟩
    | refused addr accessType answer hlist =>
      rw [hlist]
      exact h.firsts
    | read => exact h.firsts
    | write => exact h.firsts
  · intro other hnone
    cases hcalled with
    | access addr accessType answer htype hlist hcols =>
      rw [hlist, find?_append] at hnone
      rw [hcols other, h.untouched other (or_eq_none_iff.mp hnone).1]
    | refused addr accessType answer hlist htups =>
      rw [hlist] at hnone
      rw [htups, h.untouched other hnone]
    | read => exact h.untouched other hnone
    | write index columns access hmem =>
      have hother : other ≠ access.addr := by
        rintro rfl
        simpa using find?_eq_none.mp hnone access hmem
      simpa [setTuple, Function.update_of_ne hother] using h.untouched other hnone

end Tracked

theorem tracked (hidle : s.Idle txn) (hcalls : ∀ event ∈ calls, event.call = true)
    (hplay : calls.foldlM (fun s event => s.step txn event) s = some middle) :
    s.Tracked txn middle := by
  refine @TransitionSystem.foldlM_invariant _ _ _ s (fun _ => s.Tracked txn) _ _ hplay
    (.start hidle) ?_
  intro _ event _ _ _ htrack hmem hstep
  exact htrack.step (hcalls event hmem) hstep

theorem tuples_foldl_rollBack {accesses : List (TupleAccess C)}
    (h : ∀ access ∈ accesses, s.manager.lockedHandles access.addr.pageAddr = true) :
    (accesses.foldl rollBack s).tuples = rollBackAll accesses s.tuples := by
  induction accesses generalizing s with
  | nil => rfl
  | cons access accesses ih =>
    have hlock := h access mem_cons_self
    rw [foldl_cons, rollBackAll_cons, rollBack, if_pos (.inl hlock)]
    exact ih fun other hother => h other (mem_cons_of_mem _ hother)

theorem abortTransaction_tuples (h : s.Latched txn) (addr : TupleAddr) :
    s.abortTransaction.tuples addr =
      match s.manager.accessList.find? fun entry => entry.addr = addr with
      | some access => access.rollBack (s.tuples addr)
      | none => s.tuples addr := by
  rw [abortTransaction, tuples_foldl_rollBack fun access hacc =>
      h.accesses access (mem_of_mem_sorted hacc), ← find?_sorted]
  exact rollBackAll_ordered (ordered_sorted _) _ _

theorem unlatched_abort (h : s.Latched txn) : s.abortTransaction.Unlatched txn := by
  intro page
  simp only [abortTransaction]
  split
  · exact ⟨h.reader page, by simp [PageLatch.unlock]⟩
  · rename_i hlock
    exact ⟨h.reader page, fun hwtr => hlock (h.writer page hwtr)⟩

/-- An abort after some calls restores the columns exactly when each changed tuple was accessed
first for writing; the latches are given back. -/
theorem restores_iff (hidle : s.Idle txn) (hcalls : ∀ event ∈ calls, event.call = true)
    (hplay : calls.foldlM (fun s event => s.step txn event) s = some middle) :
    ((∀ addr, (middle.abortTransaction.tuples addr).columns = (s.tuples addr).columns) ↔
        ∀ addr, middle.WrittenFirst addr ∨
          (middle.tuples addr).columns = (s.tuples addr).columns) ∧
      middle.abortTransaction.Unlatched txn := by
  have htrack := tracked hidle hcalls hplay
  refine ⟨forall_congr' fun addr => ?_, unlatched_abort htrack.latched⟩
  rw [abortTransaction_tuples htrack.latched]
  cases hfind : middle.manager.accessList.find? fun entry => entry.addr = addr with
  | none => simp [WrittenFirst, hfind]
  | some access =>
    rcases htrack.undoable access (mem_of_find?_eq_some hfind) with hread | ⟨hwrite, -⟩
    · simp [WrittenFirst, hfind, hread, TupleAccess.rollBack]
    · obtain ⟨image, himage, hcols⟩ := htrack.firsts addr access hfind hwrite
      simp [WrittenFirst, hfind, hwrite, himage, TupleAccess.rollBack, hcols]

end System

def System.blank : System ℕ where
  tuples _ := ⟨0, true, 0, 0⟩
  latches _ := .free
  localTsNext := 1
  manager := .start

theorem System.idle_blank (txn : ℕ) : System.blank.Idle txn :=
  ⟨rfl, fun _ => ⟨by simp [blank, PageLatch.free], by simp [blank, PageLatch.free]⟩⟩

def written : List (Event ℕ) := [.select ⟨0, 8⟩ .readWrite .granted, .write 0 7]

def readFirst : List (Event ℕ) :=
  [.select ⟨0, 8⟩ .readOnly .granted, .select ⟨0, 8⟩ .readWrite .granted, .write 1 7]

end Timestamp

theorem abort_restores_iff {C : Type} (txn : ℕ) :
    (∀ (s middle : TwoPhase.System C) (calls : List (TwoPhase.Event C)), s.Idle txn →
      (∀ event ∈ calls, event.call txn = true) →
      calls.foldlM TwoPhase.System.step s = some middle →
      ((∀ addr, ((middle.abortTransaction txn).tuples addr).columns = (s.tuples addr).columns) ∧
          (middle.abortTransaction txn).Unlatched txn ↔
        s.RestoredBy calls ∧ s.upgradeRefused calls = false)) ∧
      ∀ (s middle : Timestamp.System C) (calls : List (Timestamp.Event C)), s.Idle txn →
        (∀ event ∈ calls, event.call = true) →
        calls.foldlM (fun s event => s.step txn event) s = some middle →
        ((∀ addr, (middle.abortTransaction.tuples addr).columns = (s.tuples addr).columns) ∧
            middle.abortTransaction.Unlatched txn ↔
          ∀ addr, middle.WrittenFirst addr ∨
            (middle.tuples addr).columns = (s.tuples addr).columns) := by
  constructor
  · intro s middle calls hidle hcalls hplay
    obtain ⟨hcols, hlats⟩ := TwoPhase.System.restores_iff hidle hcalls hplay
    rw [hcols, hlats]
  · intro s middle calls hidle hcalls hplay
    obtain ⟨hcols, hlats⟩ := Timestamp.System.restores_iff hidle hcalls hplay
    rw [hcols]
    exact and_iff_left hlats

/-- The write of a transaction that selected the tuple once is undone by both managers. -/
theorem abort_restores_iff_written :
    (∃ middle, TwoPhase.written.foldlM TwoPhase.System.step .blank = some middle ∧
      (middle.tuples ⟨0, 8⟩).columns = 7 ∧
      ((∀ addr, ((middle.abortTransaction 0).tuples addr).columns =
          (TwoPhase.System.blank.tuples addr).columns) ∧
          (middle.abortTransaction 0).Unlatched 0 ↔
        TwoPhase.System.blank.RestoredBy TwoPhase.written ∧
          TwoPhase.System.blank.upgradeRefused TwoPhase.written = false)) ∧
      ∃ middle, Timestamp.written.foldlM (Timestamp.System.step · 0 ·) Timestamp.System.blank =
        some middle ∧ (middle.tuples ⟨0, 8⟩).columns = 7 ∧
        ((∀ addr, (middle.abortTransaction.tuples addr).columns =
            (Timestamp.System.blank.tuples addr).columns) ∧
            middle.abortTransaction.Unlatched 0 ↔
          ∀ addr, middle.WrittenFirst addr ∨
            (middle.tuples addr).columns = (Timestamp.System.blank.tuples addr).columns) := by
  constructor
  · obtain ⟨middle, hplay, hcols⟩ : ∃ middle,
        TwoPhase.written.foldlM TwoPhase.System.step .blank = some middle ∧
          (middle.tuples ⟨0, 8⟩).columns = 7 := ⟨_, rfl, by decide +kernel⟩
    exact ⟨middle, hplay, hcols,
      (abort_restores_iff 0).1 _ _ _ (TwoPhase.System.idle_blank 0) (by decide) hplay⟩
  · obtain ⟨middle, hplay, hcols⟩ : ∃ middle,
        Timestamp.written.foldlM (Timestamp.System.step · 0 ·) Timestamp.System.blank =
          some middle ∧ (middle.tuples ⟨0, 8⟩).columns = 7 := ⟨_, rfl, by decide +kernel⟩
    exact ⟨middle, hplay, hcols,
      (abort_restores_iff 0).2 _ _ _ (Timestamp.System.idle_blank 0) (by decide) hplay⟩

/-- After two `READ_WRITE` accesses the 2PL manager copies back the written tuple, and after a
`READ_ONLY` and a `READ_WRITE` access the TIMESTAMP manager copies back nothing. -/
theorem abort_keeps_write :
    (∃ middle, TwoPhase.System.blank.Idle 0 ∧
      (∀ event ∈ TwoPhase.selectedAgain, event.call 0 = true) ∧
      TwoPhase.selectedAgain.foldlM TwoPhase.System.step .blank = some middle ∧
      ((middle.abortTransaction 0).tuples ⟨0, 8⟩).columns = 7 ∧
      (TwoPhase.System.blank.tuples ⟨0, 8⟩).columns = 0) ∧
      ∃ middle, Timestamp.System.blank.Idle 0 ∧
        (∀ event ∈ Timestamp.readFirst, event.call = true) ∧
        Timestamp.readFirst.foldlM (Timestamp.System.step · 0 ·) Timestamp.System.blank =
          some middle ∧
        (middle.abortTransaction.tuples ⟨0, 8⟩).columns = 7 ∧
        (Timestamp.System.blank.tuples ⟨0, 8⟩).columns = 0 :=
  ⟨⟨_, TwoPhase.System.idle_blank 0, by decide, rfl, by decide +kernel, rfl⟩,
    ⟨_, Timestamp.System.idle_blank 0, by decide, rfl, by decide +kernel, rfl⟩⟩

end MemoryEngine.Txn
