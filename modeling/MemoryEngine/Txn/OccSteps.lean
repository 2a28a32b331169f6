import MemoryEngine.Txn.Occ
import MemoryEngine.Txn.UndoImages

/-! What a step of the OCC manager does, case by case. -/
namespace MemoryEngine.Txn.Occ

open Serializability

variable {C : Type} {s after : System C} {event : Event C} {txn page : ℕ}

namespace Manager

variable {manager : Manager C}

@[simp] theorem remember_lockedHandles (manager : Manager C) (page : ℕ) (accessType : AccessType) :
    (manager.remember page accessType).lockedHandles page = some accessType := by
  simp [remember]

@[simp] theorem forget_lockedHandles (manager : Manager C) (page : ℕ) :
    (manager.forget page).lockedHandles page = none := by
  simp [forget]

theorem validateLatch_spec {latch : PageLatch} {accessType : AccessType} {answer : LatchAnswer}
    {result : PageLatch × Manager C}
    (hsucceeds : ∀ mode, manager.lockedHandles page = some mode → mode.isRead = true →
      accessType.isRead = false → answer = .granted)
    (hlatch : manager.validateLatch txn latch page accessType answer = some result) :
    Latches manager.lockedHandles txn latch page result.1 result.2.lockedHandles ∧
      result.2.accessList = manager.accessList ∧ result.2.stage = manager.stage ∧
      ∃ mode, result.2.lockedHandles page = some mode ∧
        ((!accessType.isRead) = true → mode.isRead = false) := by
  unfold validateLatch at hlatch
  split at hlatch
  case h_1 hnone =>
    obtain ⟨locked, hlock, rfl⟩ := Option.map_eq_some_iff.mp hlatch
    exact ⟨.of_lock hnone hlock, rfl, rfl, accessType, by simp⟩
  case h_2 mode hmode =>
    split_ifs at hlatch with hupgr
    · obtain ⟨hread, hwrite⟩ : mode.isRead = true ∧ accessType.isRead = false := by
        simpa using hupgr
      obtain rfl := hsucceeds mode hmode hread hwrite
      obtain ⟨upgraded, hupgd, rfl⟩ := Option.map_eq_some_iff.mp hlatch
      exact ⟨.of_upgrade hmode hwrite hupgd, rfl, rfl, accessType, by simp⟩
    · cases hlatch
      refine ⟨.keep, rfl, rfl, mode, hmode, ?_⟩
      intro hwrite
      simpa [show accessType.isRead = false by simpa using hwrite] using hupgr

end Manager

namespace System

theorem stage_of_matches {stage : Stage C} (h : (stage matches .execute) = true) :
    stage = .execute := by
  cases stage <;> simp_all

@[simp] theorem setManager_self (s : System C) (txn : ℕ) (manager : Manager C) :
    (s.setManager txn manager).managers txn = manager := by
  simp [setManager]

theorem setManager_of_ne {other : ℕ} (hne : other ≠ txn) (manager : Manager C) :
    (s.setManager txn manager).managers other = s.managers other :=
  Function.update_of_ne hne _ _

def enter (s : System C) (txn : ℕ) (stage : Stage C) : System C :=
  s.setManager txn { s.managers txn with stage := stage }

/-- `s.step event = some after`, with one constructor for each path. -/
inductive Steps (s : System C) : Event C → System C → Prop where
  | select (txn addr accessType) (hexec : (s.managers txn).stage = .execute)
      (hocc : s.occupied addr = true)
      (hlatb : s.latchable addr.pageAddr accessType = true) :
      Steps s (.select txn addr accessType)
        ((s.setManager txn ((s.managers txn).newAccess
          ⟨accessType, addr, some (s.localTuple addr accessType)⟩)).log ⟨txn, addr, false⟩)
  | allocate (txn addr) (hexec : (s.managers txn).stage = .execute)
      (hfree : s.occupied addr = false)
      (hlatb : s.latchable addr.pageAddr .insertOnly = true) :
      Steps s (.allocate txn addr)
        (({ s.setTuple addr { s.tuples addr with wts := 0 } with
            occupied := Function.update s.occupied addr true }.setManager txn
          ((s.managers txn).newAccess
            ⟨.insertOnly, addr, some { s.tuples addr with wts := 0 }⟩)).log ⟨txn, addr, false⟩)
  | write (txn index columns) (hexec : (s.managers txn).stage = .execute) :
      Steps s (.write txn index columns)
        (s.setManager txn ((s.managers txn).writeLocal index columns))
  | commit (txn : ℕ) (hexec : (s.managers txn).stage = .execute) :
      Steps s (.commit txn)
        ((s.fetchAdd (s.node txn)).enter txn
          (.validate (s.localTsNext (s.node txn)) (TupleAccess.sorted (s.managers txn).accessList)))
  | abort (txn : ℕ) (hexec : (s.managers txn).stage = .execute) :
      Steps s (.abort txn) (s.enter txn (.release false))
  | validated (txn commitTs answer) (hstage : (s.managers txn).stage = .validate commitTs []) :
      Steps s (.validate txn answer)
        { s.enter txn (.install commitTs (s.managers txn).accessList) with
          validated := s.validated ++ [txn] }
  | skipped (txn commitTs answer access pending)
      (hstage : (s.managers txn).stage = .validate commitTs (access :: pending))
      (hdel : access.accessType = .deleteOnly) :
      Steps s (.validate txn answer) (s.enter txn (.validate commitTs pending))
  | validate (txn commitTs answer access pending latch manager)
      (hstage : (s.managers txn).stage = .validate commitTs (access :: pending))
      (hlatch : (s.managers txn).validateLatch txn (s.latches access.addr.pageAddr)
        access.addr.pageAddr access.accessType answer = some (latch, manager)) :
      Steps s (.validate txn answer)
        ((s.setLatch access.addr.pageAddr latch).setManager txn
          { manager with stage :=
              if (s.tuples access.addr).wts > access.localWts then .release false
              else .validate commitTs pending })
  | installed (txn commitTs) (hstage : (s.managers txn).stage = .install commitTs []) :
      Steps s (.install txn) (s.enter txn (.release true))
  | passed (txn commitTs access pending)
      (hstage : (s.managers txn).stage = .install commitTs (access :: pending)) :
      Steps s (.install txn) (s.enter txn (.install commitTs pending))
  | install (txn commitTs access pending)
      (hstage : (s.managers txn).stage = .install commitTs (access :: pending))
      (hwrite : access.accessType.isRead = false) :
      Steps s (.install txn)
        (((s.enter txn (.install commitTs pending)).setTuple access.addr
          { access.localTuple.getD (s.tuples access.addr) with wts := commitTs }).log
            ⟨txn, access.addr, true⟩)
  | release (txn page committed accessType) (hstage : (s.managers txn).stage = .release committed)
      (hlock : (s.managers txn).lockedHandles page = some accessType) :
      Steps s (.release txn page)
        ((s.setLatch page ((s.latches page).unlockAs txn accessType)).setManager txn
          ((s.managers txn).forget page))

theorem step_cases (hstep : s.step event = some after) : s.Steps event after := by
  cases event <;> simp only [step] at hstep
  case select txn addr accessType =>
    split_ifs at hstep with hguard
    cases hstep
    simp only [Bool.and_eq_true] at hguard
    exact .select txn addr accessType (stage_of_matches hguard.1.1) hguard.1.2 hguard.2
  case allocate txn addr =>
    split_ifs at hstep with hguard
    cases hstep
    simp only [Bool.and_eq_true, Bool.not_eq_true'] at hguard
    exact .allocate txn addr (stage_of_matches hguard.1.1) hguard.1.2 hguard.2
  case write txn index columns =>
    split_ifs at hstep with hexec
    cases hstep
    exact .write txn index columns (stage_of_matches hexec)
  case commit txn =>
    split_ifs at hstep with hexec
    cases hstep
    exact .commit txn (stage_of_matches hexec)
  case abort txn =>
    split_ifs at hstep with hexec
    cases hstep
    exact .abort txn (stage_of_matches hexec)
  case validate txn answer =>
    split at hstep
    case h_1 commitTs hstage =>
      cases hstep
      exact .validated txn commitTs answer hstage
    case h_2 commitTs access pending hstage =>
      by_cases hdel : access.accessType = .deleteOnly
      · rw [validateAccess, if_pos hdel] at hstep
        cases hstep
        exact .skipped txn commitTs answer access pending hstage hdel
      · rw [validateAccess, if_neg hdel] at hstep
        obtain ⟨⟨latch, manager⟩, hlatch, rfl⟩ := Option.map_eq_some_iff.mp hstep
        exact .validate txn commitTs answer access pending latch manager hstage hlatch
    case h_3 => cases hstep
  case install txn =>
    split at hstep
    case h_1 commitTs hstage =>
      cases hstep
      exact .installed txn commitTs hstage
    case h_2 commitTs access pending hstage =>
      split_ifs at hstep with hwrite
      · cases hstep
        refine .install txn commitTs access pending hstage ?_
        rcases hwrite with hwrite | hwrite <;> (rw [hwrite]; rfl)
      · cases hstep
        exact .passed txn commitTs access pending hstage
    case h_3 => cases hstep
  case release txn page =>
    split at hstep
    case h_1 committed accessType hstage hlock =>
      cases hstep
      exact .release txn page committed accessType hstage hlock
    case h_2 => cases hstep

end System

end MemoryEngine.Txn.Occ
