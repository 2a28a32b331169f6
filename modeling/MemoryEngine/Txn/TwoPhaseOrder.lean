import MemoryEngine.Txn.TwoPhaseSteps

/-! Serializability under two-phase locking.

As long as every upgrade succeeds, the remembered access types are the latches that the
transactions hold.  Two transactions with conflicting operations then never hold the page of the
tuple together, so the first one has ended before the second one comes to the tuple, and the
order of the ends is a serial order.  An upgrade that fails is not noticed: the transaction goes on
to write without the exclusive latch. -/
namespace MemoryEngine.Txn

namespace TwoPhase

open Serializability PageLatch List

variable {C : Type} {s after : System C} {event : Event C} {manager : Manager C}
  {txn page : ℕ} {addr : TupleAddr} {accessType : AccessType} {answer : LatchAnswer}
  {latch : PageLatch} {result : PageLatch × Manager C × Bool}

/-- The client writes only through records that it selected for writing. -/
def System.mannerly (s : System C) : Event C → Bool
  | .write txn index _ =>
      match s.record? txn index with
      | some access => !access.accessType.isRead
      | none => true
  | _ => true

/-- An upgrade that is asked for succeeds, and no tuple is allocated in a page that the
transaction scans. -/
def System.upgradesSucceed (s : System C) : Event C → Bool
  | .select txn addr accessType answer =>
      match (s.managers txn).lockedHandles addr.pageAddr with
      | some mode => !(mode.isRead && !accessType.isRead) || answer = .granted
      | none => true
  | .allocate txn addr answer =>
      match (s.managers txn).lockedHandles addr.pageAddr with
      | some .readOnly => answer = .granted
      | some .scanRead => false
      | _ => true
  | _ => true

theorem System.succeeds_select
    (hsucc : s.upgradesSucceed (.select txn addr accessType answer) = true) :
    ∀ mode, (s.managers txn).lockedHandles addr.pageAddr = some mode → mode.isRead = true →
      accessType.isRead = false → answer = .granted := by
  intro mode hmode hread hwrite
  simpa [upgradesSucceed, hmode, hread, hwrite] using hsucc

theorem System.succeeds_allocate (hsucc : s.upgradesSucceed (.allocate txn addr answer) = true) :
    ((s.managers txn).lockedHandles addr.pageAddr = some .readOnly → answer = .granted) ∧
      (s.managers txn).lockedHandles addr.pageAddr ≠ some .scanRead := by
  constructor
  · intro hread
    simpa [upgradesSucceed, hread] using hsucc
  · intro hscan
    simp [upgradesSucceed, hscan] at hsucc

namespace System

@[simp] theorem setManager_self (s : System C) (txn : ℕ) (manager : Manager C) :
    (s.setManager txn manager).managers txn = manager := by
  simp [setManager]

theorem setManager_of_ne {other : ℕ} (hne : other ≠ txn) (manager : Manager C) :
    (s.setManager txn manager).managers other = s.managers other :=
  Function.update_of_ne hne _ _

@[simp] theorem setManager_setManager (s : System C) (txn : ℕ) (manager later : Manager C) :
    (s.setManager txn manager).setManager txn later = s.setManager txn later := by
  simp [setManager]

theorem lockedHandles_setManager (hlock : manager.lockedHandles = (s.managers txn).lockedHandles) :
    (fun other => ((s.setManager txn manager).managers other).lockedHandles) =
      fun other => (s.managers other).lockedHandles := by
  funext other
  by_cases hother : other = txn
  · rw [hother, setManager_self, hlock]
  · rw [setManager_of_ne hother]

/-- The latches are those that the managers remember, the operations of the running transactions
are covered by them, and every conflict starts in a transaction that has ended. -/
structure Inv (s : System C) : Prop where
  guarded : Guarded s.latches fun txn => (s.managers txn).lockedHandles
  accesses : ∀ txn, txn ∉ s.ended → ∀ access ∈ (s.managers txn).accessList,
    Covered (s.managers txn).lockedHandles access.addr (!access.accessType.isRead)
  pending : ∀ txn rest, (s.managers txn).stage = .undo rest →
    ∀ access ∈ rest, access ∈ (s.managers txn).accessList
  ended : ∀ txn, txn ∈ s.ended ↔ ∃ committed, (s.managers txn).stage = .release committed
  covered : ∀ op ∈ s.history, op.txn ∉ s.ended →
    Covered (s.managers op.txn).lockedHandles op.item op.write
  strict : s.history.Pairwise fun first second => first.Conflicts second → first.txn ∈ s.ended
  respects : Respects s.ended s.history
  nodup : s.ended.Nodup

theorem inv_start (tuples : TupleAddr → Tuple C) (occupied : TupleAddr → Bool) :
    (start tuples occupied).Inv where
  guarded := .start
  accesses _ _ _ h := by cases h
  pending _ _ h := by cases h
  ended txn := by simp [start, Manager.start]
  covered _ h := by cases h
  strict := .nil
  respects := .nil
  nodup := .nil

namespace Inv

variable (h : s.Inv)
include h

theorem running (hstage : (s.managers txn).stage = .execute) : txn ∉ s.ended := by
  intro hended
  obtain ⟨committed, hrel⟩ := (h.ended txn).mp hended
  rw [hstage] at hrel
  cases hrel

theorem undoing {rest : List (TupleAccess C)} (hstage : (s.managers txn).stage = .undo rest) :
    txn ∉ s.ended := by
  intro hended
  obtain ⟨committed, hrel⟩ := (h.ended txn).mp hended
  rw [hstage] at hrel
  cases hrel

theorem congr (hlats : after.latches = s.latches) (hmanagers : after.managers = s.managers)
    (hhist : after.history = s.history) (hended : after.ended = s.ended) : after.Inv := by
  obtain ⟨tuples, occupied, latches, managers, history, ended⟩ := after
  cases hlats
  cases hmanagers
  cases hhist
  cases hended
  exact { h with }

theorem relatch
    (hmoves : (s.latches page).Moves txn latch ((s.managers txn).lockedHandles page)
      (manager.lockedHandles page))
    (hrelat : (s.managers txn).Relatched manager page)
    (hgrows : txn ∈ s.ended ∨ ∀ mode, (s.managers txn).lockedHandles page = some mode → ∃ after,
      manager.lockedHandles page = some after ∧ (mode.isRead = false → after.isRead = false)) :
    ((s.setLatch page latch).setManager txn manager).Inv := by
  -- what covered a tuple before still does
  have hcovs : txn ∉ s.ended → ∀ addr write, Covered (s.managers txn).lockedHandles addr write →
      Covered manager.lockedHandles addr write := by
    rintro hrng addr write ⟨mode, hmode, hwrite⟩
    by_cases hpage : addr.pageAddr = page
    · obtain ⟨after, hafter, hkeeps⟩ :=
        hgrows.resolve_left hrng mode (hpage ▸ hmode)
      exact ⟨after, by rw [hpage]; exact hafter, fun hw => hkeeps (hwrite hw)⟩
    · exact ⟨mode, by rw [hrelat.others _ hpage]; exact hmode, hwrite⟩
  refine ⟨h.guarded.moves txn ?_ ?_ ?_, ?_, ?_, ?_, ?_, h.strict, h.respects, h.nodup⟩
  · rw [setManager_self]
    exact hmoves
  · intro other hother
    rw [setManager_self]
    exact hrelat.others other hother
  · intro other hother
    rw [setManager_of_ne hother]
    rfl
  · intro other hrng access hacc
    by_cases hother : other = txn
    · subst hother
      rw [setManager_self] at hacc ⊢
      rw [hrelat.accessList] at hacc
      exact hcovs hrng _ _ (h.accesses _ hrng access hacc)
    · rw [setManager_of_ne hother] at hacc ⊢
      exact h.accesses _ hrng access hacc
  · intro other rest hstage access hacc
    by_cases hother : other = txn
    · subst hother
      rw [setManager_self] at hstage ⊢
      rw [hrelat.stage] at hstage
      rw [hrelat.accessList]
      exact h.pending _ rest hstage access hacc
    · rw [setManager_of_ne hother] at hstage ⊢
      exact h.pending _ rest hstage access hacc
  · intro other
    by_cases hother : other = txn
    · subst hother
      rw [setManager_self, hrelat.stage]
      exact h.ended other
    · rw [setManager_of_ne hother]
      exact h.ended other
  · intro op hop hrng
    by_cases hother : op.txn = txn
    · rw [hother, setManager_self]
      have hcov := h.covered op hop hrng
      rw [hother] at hcov
      exact hcovs (hother ▸ hrng) _ _ hcov
    · rw [setManager_of_ne hother]
      exact h.covered op hop hrng

theorem manage (hrng : txn ∉ s.ended)
    (hlock : manager.lockedHandles = (s.managers txn).lockedHandles)
    (hstage : ∀ committed, manager.stage ≠ .release committed)
    (haccs : ∀ access ∈ manager.accessList, Covered (s.managers txn).lockedHandles access.addr
      (!access.accessType.isRead))
    (hpend : ∀ rest, manager.stage = .undo rest → ∀ access ∈ rest, access ∈ manager.accessList) :
    (s.setManager txn manager).Inv := by
  have hcovs : ∀ addr write, Covered manager.lockedHandles addr write ↔
      Covered (s.managers txn).lockedHandles addr write := by
    intro addr write
    rw [hlock]
  refine ⟨?_, ?_, ?_, ?_, ?_, h.strict, h.respects, h.nodup⟩
  · rw [lockedHandles_setManager hlock]
    exact h.guarded
  · intro other hended access hacc
    by_cases hother : other = txn
    · subst hother
      rw [setManager_self] at hacc ⊢
      exact (hcovs _ _).mpr (haccs access hacc)
    · rw [setManager_of_ne hother] at hacc ⊢
      exact h.accesses _ hended access hacc
  · intro other rest hrest access hacc
    by_cases hother : other = txn
    · subst hother
      rw [setManager_self] at hrest ⊢
      exact hpend rest hrest access hacc
    · rw [setManager_of_ne hother] at hrest ⊢
      exact h.pending _ rest hrest access hacc
  · intro other
    by_cases hother : other = txn
    · subst hother
      rw [setManager_self]
      constructor
      · intro hended
        exact absurd hended hrng
      · rintro ⟨committed, hrel⟩
        exact absurd hrel (hstage committed)
    · rw [setManager_of_ne hother]
      exact h.ended other
  · intro op hop hended
    by_cases hother : op.txn = txn
    · have hcov := h.covered op hop hended
      rw [hother] at hcov ⊢
      rw [setManager_self]
      exact (hcovs _ _).mpr hcov
    · rw [setManager_of_ne hother]
      exact h.covered op hop hended

/-- An operation of a running transaction under its latch: a conflicting one before it is of a
transaction that has ended, since the latches exclude each other. -/
theorem log (op : Op ℕ TupleAddr) (hrng : op.txn ∉ s.ended)
    (hcovs : Covered (s.managers op.txn).lockedHandles op.item op.write)
    (hlats : after.latches = s.latches)
    (hmanagers : after.managers = s.managers) (hhist : after.history = s.history ++ [op])
    (hended : after.ended = s.ended) : after.Inv := by
  have hstrict : ∀ first ∈ s.history, first.Conflicts op → first.txn ∈ s.ended := by
    intro first hfirst hconf
    by_contra hfirstRunning
    obtain ⟨hread, hopRead⟩ := h.guarded.reads (h.covered first hfirst hfirstRunning) hcovs
      (congrArg TupleAddr.pageAddr hconf.2.1) hconf.1
    rcases hconf.2.2 with hwrites | hwrites
    · rw [hread] at hwrites
      cases hwrites
    · rw [hopRead] at hwrites
      cases hwrites
  obtain ⟨tuples, occupied, latches, managers, history, ended⟩ := after
  cases hlats
  cases hmanagers
  cases hhist
  cases hended
  refine { h with covered := ?_, strict := ?_, respects := ?_ }
  · intro other hother hotherRunning
    rcases mem_append.mp hother with hother | hother
    · exact h.covered other hother hotherRunning
    · rw [mem_singleton.mp hother]
      exact hcovs
  · refine pairwise_append.mpr ⟨h.strict, pairwise_singleton _ _, ?_⟩
    intro first hfirst second hsnd
    rw [mem_singleton.mp hsnd]
    exact hstrict first hfirst
  · exact h.respects.append fun _ _ _ _ hop => absurd hop hrng

theorem finish (hrng : txn ∉ s.ended) (committed : Bool) :
    (s.finish txn (s.managers txn) committed).Inv := by
  refine ⟨?_, ?_, ?_, ?_, ?_, ?_, ?_, ?_⟩
  · simp only [System.finish]
    rw [lockedHandles_setManager]
    · exact h.guarded
    · rfl
  · intro other hended access hacc
    obtain ⟨hother, hne⟩ : other ∉ s.ended ∧ other ≠ txn := by simpa [System.finish] using hended
    simp only [System.finish, setManager_of_ne hne] at hacc ⊢
    exact h.accesses _ hother access hacc
  · intro other rest hrest access hacc
    by_cases hother : other = txn
    · subst hother
      simp [System.finish] at hrest
    · simp only [System.finish, setManager_of_ne hother] at hrest ⊢
      exact h.pending _ rest hrest access hacc
  · intro other
    by_cases hother : other = txn
    · subst hother
      simp [System.finish]
    · simp [System.finish, setManager_of_ne hother, hother, h.ended other]
  · intro op hop hended
    obtain ⟨hother, hne⟩ : op.txn ∉ s.ended ∧ op.txn ≠ txn := by simpa [System.finish] using hended
    simp only [System.finish, setManager_of_ne hne]
    exact h.covered op hop hother
  · refine h.strict.imp ?_
    intro first second hstrict hconf
    exact mem_append_left _ (hstrict hconf)
  · refine h.respects.finish (h.strict.imp ?_)
    rintro first second hstrict hconf rfl
    exact absurd (hstrict hconf) hrng
  · exact nodup_append.mpr ⟨h.nodup, by simp,
      fun _ hmem _ hlast heq => hrng (mem_singleton.mp hlast ▸ heq ▸ hmem)⟩

variable {write : Bool}

theorem latched
    (hlats : (s.managers txn).Latched txn (s.latches page) page write result) :
    ((s.setLatch page result.1).setManager txn result.2.1).Inv :=
  h.relatch hlats.moves ⟨hlats.accessList, hlats.stage, hlats.others⟩ (.inr hlats.grows)

theorem abort (hexec : (s.managers txn).stage = .execute) :
    (s.setManager txn (s.managers txn).abortTransaction).Inv := by
  refine h.manage (h.running hexec) rfl (fun _ hrel => by cases hrel) ?_ ?_
  · exact h.accesses txn (h.running hexec)
  · intro rest hrest access hacc
    cases hrest
    exact hacc

theorem refused (hexec : (s.managers txn).stage = .execute)
    (hlats : (s.managers txn).Latched txn (s.latches page) page write result) :
    ((s.setLatch page result.1).setManager txn result.2.1.abortTransaction).Inv := by
  have hlat := h.latched hlats
  have hstage : (((s.setLatch page result.1).setManager txn result.2.1).managers txn).stage =
      .execute := by
    rw [setManager_self, hlats.stage, hexec]
  simpa using hlat.abort hstage

theorem access (hexec : (s.managers txn).stage = .execute)
    (hlats : (s.managers txn).Latched txn (s.latches page) page write result)
    (hgoesOn : result.2.2 = true) {access : TupleAccess C} (hpage : access.addr.pageAddr = page)
    (hwrite : write = !access.accessType.isRead) :
    ((s.setLatch page result.1).setManager txn (result.2.1.newAccess access)).Inv := by
  have hlat := h.latched hlats
  have hstage : (((s.setLatch page result.1).setManager txn result.2.1).managers txn).stage =
      .execute := by
    rw [setManager_self, hlats.stage, hexec]
  have hrng := hlat.running hstage
  rw [← setManager_setManager _ txn result.2.1]
  refine hlat.manage hrng (by rw [setManager_self]; rfl) ?_ ?_ ?_
  · intro committed hrel
    rw [setManager_self] at hstage
    rw [Manager.newAccess, hstage] at hrel
    cases hrel
  · intro other hother
    rw [setManager_self]
    rcases mem_append.mp hother with hother | hother
    · have hcov := hlat.accesses txn hrng other
      rw [setManager_self] at hcov
      exact hcov hother
    · rw [mem_singleton.mp hother, ← hwrite, Covered, hpage]
      exact hlats.covers hgoesOn
  · intro rest hrest
    rw [setManager_self] at hstage
    rw [Manager.newAccess, hstage] at hrest
    cases hrest

theorem put (hrng : txn ∉ s.ended) (hcovs : Covered (s.managers txn).lockedHandles addr true)
    (tuple : Tuple C) : (s.put txn addr tuple).Inv :=
  h.log ⟨txn, addr, true⟩ hrng hcovs rfl rfl rfl rfl

theorem put_of_access (hrng : txn ∉ s.ended) {access : TupleAccess C}
    (hmem : access ∈ (s.managers txn).accessList) (hwrite : access.accessType.isRead = false)
    (tuple : Tuple C) : (s.put txn access.addr tuple).Inv := by
  have hcovs := h.accesses txn hrng access hmem
  rw [hwrite] at hcovs
  exact h.put hrng hcovs tuple

theorem access_put (access : TupleAccess C)
    (hexec : (s.managers txn).stage = .execute)
    (hlats : (s.managers txn).Latched txn (s.latches page) page write result)
    (hgoesOn : result.2.2 = true) (hpage : access.addr.pageAddr = page)
    (hwrite : write = !access.accessType.isRead) (hwrites : access.accessType.isRead = false)
    (tuple : Tuple C) :
    (((s.setLatch page result.1).setManager txn (result.2.1.newAccess access)).put txn access.addr
      tuple).Inv := by
  have hinv := h.access hexec hlats hgoesOn hpage hwrite
  refine hinv.put_of_access (hinv.running ?_) ?_ hwrites tuple
  · rw [setManager_self]
    exact hlats.stage.trans hexec
  · rw [setManager_self]
    exact mem_append_right _ mem_cons_self

theorem unpend {access : TupleAccess C} {pending : List (TupleAccess C)}
    (hstage : (s.managers txn).stage = .undo (access :: pending)) :
    (s.setManager txn { s.managers txn with stage := .undo pending }).Inv := by
  refine h.manage (h.undoing hstage) rfl (fun _ hrel => by cases hrel)
    (h.accesses txn (h.undoing hstage)) ?_
  intro rest hrest other hother
  cases hrest
  exact h.pending txn _ hstage other (mem_cons_of_mem _ hother)

theorem step (hmannerly : s.mannerly event = true) (hsucc : s.upgradesSucceed event = true)
    (hstep : s.step event = some after) : after.Inv := by
  cases step_cases hstep with
  | select txn addr accessType answer latch manager hexec hlatch =>
    have hlats := Manager.selectLatch_latched (succeeds_select hsucc) hlatch
    by_cases hdel : accessType = .deleteOnly
    · subst hdel
      exact h.access_put ⟨.deleteOnly, addr, none⟩ hexec hlats rfl rfl rfl rfl _
    · rw [newRecord, if_neg hdel]
      exact h.access hexec hlats rfl rfl rfl
  | selectRefused txn addr accessType answer latch manager hexec hlatch =>
    exact h.refused hexec (Manager.selectLatch_latched (succeeds_select hsucc) hlatch)
  | allocate txn addr answer latch manager hexec hlatch =>
    obtain ⟨hgranted, hscan⟩ := succeeds_allocate hsucc
    have hlats := Manager.allocateLatch_latched hgranted hscan hlatch
    have hput := h.access_put ⟨.insertOnly, addr, none⟩ hexec hlats rfl rfl rfl rfl
      (s.tuples addr)
    exact hput.congr rfl rfl rfl rfl
  | allocateRefused txn addr answer latch manager hexec hlatch =>
    obtain ⟨hgranted, hscan⟩ := succeeds_allocate hsucc
    exact h.refused hexec (Manager.allocateLatch_latched hgranted hscan hlatch)
  | insert txn index access hrec hins =>
    obtain ⟨hexec, hmem⟩ := record?_eq hrec
    exact h.put_of_access (h.running hexec) hmem (by rw [hins]; rfl) _
  | read txn index access hrec =>
    obtain ⟨hexec, hmem⟩ := record?_eq hrec
    obtain ⟨mode, hmode, -⟩ := h.accesses txn (h.running hexec) access hmem
    exact h.log ⟨txn, access.addr, false⟩ (h.running hexec) ⟨mode, hmode, by simp⟩ rfl rfl rfl rfl
  | write txn index columns access hrec =>
    obtain ⟨hexec, hmem⟩ := record?_eq hrec
    exact h.put_of_access (h.running hexec) hmem (by simpa [mannerly, hrec] using hmannerly) _
  | commit txn hexec => exact h.finish (h.running hexec) true
  | abort txn hexec => exact h.abort hexec
  | undone txn hstage => exact h.finish (h.undoing hstage) false
  | undoRead txn access pending hstage hread => exact h.unpend hstage
  | undo txn access pending hstage hwrite =>
    have hmem := h.pending txn _ hstage access mem_cons_self
    refine (h.unpend hstage).put_of_access (h.undoing hstage) ?_ hwrite _
    rw [setManager_self]
    exact hmem
  | release txn page committed accessType hstage hlock =>
    refine h.relatch ?_ (Manager.relatched_forget _ _) (.inl ((h.ended txn).mpr ⟨_, hstage⟩))
    rw [hlock, Manager.forget_lockedHandles]
    exact .unlock _ _

theorem running_of_logged {op : Op ℕ TupleAddr} (hstep : s.step event = some after)
    (hhist : after.history = s.history ++ [op]) : op.txn ∉ after.ended := by
  have hput : ∀ {txn addr write}, s.history ++ [⟨txn, addr, write⟩] = s.history ++ [op] →
      txn ∉ s.ended → op.txn ∉ s.ended := by
    intro txn addr write heq hrng
    rw [← singleton_inj.mp (append_cancel_left heq)]
    exact hrng
  have hsame : s.history ≠ s.history ++ [op] := by simp
  cases step_cases hstep with
  | select txn addr accessType answer latch manager hexec hlatch =>
    by_cases hdel : accessType = .deleteOnly
    · subst hdel
      exact hput hhist (h.running hexec)
    · rw [newRecord, if_neg hdel] at hhist
      exact absurd hhist hsame
  | allocate txn addr answer latch manager hexec => exact hput hhist (h.running hexec)
  | insert txn index access hrec => exact hput hhist (h.running (record?_eq hrec).1)
  | read txn index access hrec => exact hput hhist (h.running (record?_eq hrec).1)
  | write txn index columns access hrec => exact hput hhist (h.running (record?_eq hrec).1)
  | undo txn access pending hstage => exact hput hhist (h.undoing hstage)
  | _ => exact absurd hhist hsame

end Inv

def committed (s : System C) (txn : ℕ) : Bool := (s.managers txn).stage matches .release true

def initial (s : System C) : Prop := ∃ tuples occupied, s = start tuples occupied

def Run (s : System C) : Prop :=
  TransitionSystem.Reachable step (fun s event => s.mannerly event = true) initial s

def UpgradingRun (s : System C) : Prop :=
  TransitionSystem.Reachable step
    (fun s event => s.mannerly event = true ∧ s.upgradesSucceed event = true) initial s

theorem UpgradingRun.inv (h : s.UpgradingRun) : s.Inv := by
  refine TransitionSystem.Reachable.invariant ?_ ?_ h
  · rintro _ ⟨tuples, occupied, rfl⟩
    exact inv_start tuples occupied
  · intro before event later hinv hallow hstep
    exact hinv.step hallow.1 hallow.2 hstep

theorem Inv.serializable (h : s.Inv) :
    Serializable (s.history.filter fun op => s.committed op.txn) := by
  refine h.respects.serializable h.nodup ?_
  intro op hop hcomm
  refine (h.ended op.txn).mpr ⟨true, ?_⟩
  rw [committed] at hcomm
  split at hcomm
  · assumption
  · cases hcomm

def upgraded : List (Event ℕ) :=
  [.select 0 ⟨0, 8⟩ .readOnly .granted, .read 0 0, .select 0 ⟨0, 16⟩ .readWrite .granted,
    .write 0 1 5, .commit 0, .release 0 0,
    .select 1 ⟨0, 16⟩ .readOnly .granted, .read 1 0, .commit 1, .release 1 0]

/-- The upgrade of transaction 0 is refused while transaction 1 reads the page, and both go on. -/
def unnoticed : List (Event ℕ) :=
  [.select 0 ⟨0, 8⟩ .readOnly .granted, .select 1 ⟨0, 16⟩ .readOnly .granted, .read 1 0,
    .select 0 ⟨0, 16⟩ .readWrite .refused, .write 0 1 5, .read 1 0, .commit 1, .release 1 0,
    .commit 0]

end System

theorem committed_serializable (h : s.UpgradingRun) :
    Serializable (s.history.filter fun op => s.committed op.txn) ∧
      ∀ event after op, s.mannerly event = true → s.upgradesSucceed event = true →
        s.step event = some after → after.history = s.history ++ [op] → op.write = true →
        (after.latches op.item.pageAddr).writer = some op.txn := by
  refine ⟨h.inv.serializable, ?_⟩
  intro event after op hmannerly hsucc hstep hhist hwrite
  have hinv := h.inv.step hmannerly hsucc hstep
  have hcovs := hinv.covered op (by simp [hhist]) (h.inv.running_of_logged hstep hhist)
  rw [hwrite] at hcovs
  exact hinv.guarded.writer hcovs

theorem committed_serializable_upgraded :
    ∃ s : System ℕ, s.UpgradingRun ∧ s.committed 0 = true ∧ s.committed 1 = true ∧
      s.history = [⟨0, ⟨0, 8⟩, false⟩, ⟨0, ⟨0, 16⟩, true⟩, ⟨1, ⟨0, 16⟩, false⟩] ∧
      Serializable (s.history.filter fun op => s.committed op.txn) := by
  obtain ⟨s, hrun, hfirst, hsnd, hhist⟩ : ∃ s : System ℕ, s.UpgradingRun ∧
      s.committed 0 = true ∧ s.committed 1 = true ∧
      s.history = [⟨0, ⟨0, 8⟩, false⟩, ⟨0, ⟨0, 16⟩, true⟩, ⟨1, ⟨0, 16⟩, false⟩] :=
    TransitionSystem.Reachable.exists_of_schedule System.upgraded
      ⟨fun _ => ⟨0, true, 0, 0⟩, fun _ => true, rfl⟩ (by decide +kernel)
  exact ⟨s, hrun, hfirst, hsnd, hhist, (committed_serializable hrun).1⟩

/-- Transaction 1 reads a tuple before and after transaction 0 writes it. -/
theorem unnoticed_not_serializable :
    ∃ s : System ℕ, s.Run ∧ ¬ Serializable (s.history.filter fun op => s.committed op.txn) := by
  obtain ⟨s, hrun, hhist⟩ : ∃ s : System ℕ, s.Run ∧
      (s.history.filter fun op => s.committed op.txn) =
        [⟨1, ⟨0, 16⟩, false⟩, ⟨0, ⟨0, 16⟩, true⟩, ⟨1, ⟨0, 16⟩, false⟩] :=
    TransitionSystem.Reachable.exists_of_schedule System.unnoticed
      ⟨fun _ => ⟨0, true, 0, 0⟩, fun _ => true, rfl⟩ (by decide +kernel)
  refine ⟨s, hrun, ?_⟩
  rw [hhist]
  exact @not_serializable_of_cycle _ _ _ ⟨1, ⟨0, 16⟩, false⟩ ⟨0, ⟨0, 16⟩, true⟩
    ⟨0, ⟨0, 16⟩, true⟩ ⟨1, ⟨0, 16⟩, false⟩ (by decide) (by decide) (by decide) (by decide) rfl rfl

end TwoPhase

end MemoryEngine.Txn
