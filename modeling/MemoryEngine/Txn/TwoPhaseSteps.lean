import MemoryEngine.Txn.TwoPhase

/-! What a step of the 2PL manager does, case by case, and what a latch call may do when every
upgrade succeeds. -/
namespace MemoryEngine.Txn

namespace TwoPhase

open Serializability PageLatch Option

variable {C : Type} {s after : System C} {event : Event C} {manager : Manager C}
  {txn page : ℕ} {addr : TupleAddr} {accessType : AccessType} {answer : LatchAnswer}
  {latch : PageLatch} {result : PageLatch × Manager C × Bool}

namespace Manager

structure Relatched (manager after : Manager C) (page : ℕ) : Prop where
  accessList : after.accessList = manager.accessList
  stage : after.stage = manager.stage
  others : ∀ other, other ≠ page → after.lockedHandles other = manager.lockedHandles other

theorem Relatched.refl (manager : Manager C) (page : ℕ) : manager.Relatched manager page :=
  ⟨rfl, rfl, fun _ _ => rfl⟩

theorem relatched_remember (manager : Manager C) (page : ℕ) (accessType : AccessType) :
    manager.Relatched (manager.remember page accessType) page :=
  ⟨rfl, rfl, fun _ hother => Function.update_of_ne hother _ _⟩

theorem relatched_forget (manager : Manager C) (page : ℕ) :
    manager.Relatched (manager.forget page) page :=
  ⟨rfl, rfl, fun _ hother => Function.update_of_ne hother _ _⟩

@[simp] theorem remember_lockedHandles (manager : Manager C) (page : ℕ) (accessType : AccessType) :
    (manager.remember page accessType).lockedHandles page = some accessType := by
  simp [remember]

@[simp] theorem forget_lockedHandles (manager : Manager C) (page : ℕ) :
    (manager.forget page).lockedHandles page = none := by
  simp [forget]

/-- What a latch call of the manager does; `write` is whether it asks to write. -/
structure Latched (manager : Manager C) (txn : ℕ) (latch : PageLatch) (page : ℕ) (write : Bool)
    (result : PageLatch × Manager C × Bool) : Prop extends
    Latches manager.lockedHandles txn latch page result.1 result.2.1.lockedHandles where
  accessList : result.2.1.accessList = manager.accessList
  stage : result.2.1.stage = manager.stage
  covers : result.2.2 = true → ∃ mode, result.2.1.lockedHandles page = some mode ∧
    (write = true → mode.isRead = false)

theorem selectLatch_latched {manager : Manager C}
    (hsucceeds : ∀ mode, manager.lockedHandles page = some mode → mode.isRead = true →
      accessType.isRead = false → answer = .granted)
    (hlatch : manager.selectLatch txn latch page accessType answer = some result) :
    manager.Latched txn latch page (!accessType.isRead) result := by
  unfold selectLatch at hlatch
  split at hlatch
  case h_1 hnone =>
    cases answer with
    | granted =>
      obtain ⟨locked, hlock, rfl⟩ := map_eq_some_iff.mp hlatch
      exact ⟨.of_lock hnone hlock, rfl, rfl, fun _ => ⟨accessType, by simp⟩⟩
    | refused =>
      simp only at hlatch
      split_ifs at hlatch
      cases hlatch
      exact ⟨.keep, rfl, rfl, by simp⟩
    | lost => cases hlatch
  case h_2 mode hmode =>
    split_ifs at hlatch with hupgr
    · obtain ⟨hread, hwrite⟩ : mode.isRead = true ∧ accessType.isRead = false := by
        simpa using hupgr
      obtain rfl := hsucceeds mode hmode hread hwrite
      obtain ⟨upgraded, hupgd, rfl⟩ := map_eq_some_iff.mp hlatch
      exact ⟨.of_upgrade hmode hwrite hupgd, rfl, rfl, fun _ => ⟨accessType, by simp⟩⟩
    · cases hlatch
      refine ⟨.keep, rfl, rfl, fun _ => ⟨mode, hmode, ?_⟩⟩
      intro hwrite
      simpa [show accessType.isRead = false by simpa using hwrite] using hupgr

theorem allocateLatch_latched {manager : Manager C}
    (hsucceeds : manager.lockedHandles page = some .readOnly → answer = .granted)
    (hscan : manager.lockedHandles page ≠ some .scanRead)
    (hlatch : manager.allocateLatch txn latch page answer = some result) :
    manager.Latched txn latch page true result := by
  have hcovers : ∃ mode, (manager.remember page .insertOnly).lockedHandles page = some mode ∧
      (true = true → mode.isRead = false) := ⟨.insertOnly, by simp, fun _ => rfl⟩
  unfold allocateLatch at hlatch
  split at hlatch
  case h_1 hnone =>
    cases answer with
    | granted =>
      obtain ⟨locked, hlock, rfl⟩ := map_eq_some_iff.mp hlatch
      exact ⟨.of_lock hnone hlock, rfl, rfl, fun _ => hcovers⟩
    | refused =>
      cases hlatch
      exact ⟨.keep, rfl, rfl, by simp⟩
    | lost => cases hlatch
  case h_2 mode hmode =>
    split_ifs at hlatch with hread
    · obtain rfl := hsucceeds (hmode.trans (congrArg some hread))
      obtain ⟨upgraded, hupgd, rfl⟩ := map_eq_some_iff.mp hlatch
      rw [tryUpgrade] at hupgd
      split_ifs at hupgd with hsole
      cases hupgd
      refine ⟨.remember ?_ fun _ _ => rfl, rfl, rfl, fun _ => hcovers⟩
      simp only [hmode]
      exact .upgrade rfl hsole.1 hsole.2
    · cases hlatch
      have hmodeWrite : mode.isRead = false := by
        cases mode <;> first | rfl | exact absurd rfl hread | exact absurd hmode hscan
      refine ⟨.remember ?_ fun _ _ => rfl, rfl, rfl, fun _ => hcovers⟩
      rw [hmode]
      exact .rename _ hmodeWrite rfl

end Manager

namespace System

/-- `s.step event = some after`, with one constructor for each path. -/
inductive Steps (s : System C) : Event C → System C → Prop where
  | select (txn : ℕ) (addr : TupleAddr) (accessType : AccessType) (answer : LatchAnswer)
      (latch : PageLatch) (manager : Manager C) (hexec : (s.managers txn).stage = .execute)
      (hlatch : (s.managers txn).selectLatch txn (s.latches addr.pageAddr) addr.pageAddr accessType
        answer = some (latch, manager, true)) :
      Steps s (.select txn addr accessType answer)
        ((s.setLatch addr.pageAddr latch).newRecord txn manager addr accessType)
  | selectRefused (txn : ℕ) (addr : TupleAddr) (accessType : AccessType) (answer : LatchAnswer)
      (latch : PageLatch) (manager : Manager C) (hexec : (s.managers txn).stage = .execute)
      (hlatch : (s.managers txn).selectLatch txn (s.latches addr.pageAddr) addr.pageAddr accessType
        answer = some (latch, manager, false)) :
      Steps s (.select txn addr accessType answer)
        ((s.setLatch addr.pageAddr latch).setManager txn manager.abortTransaction)
  | allocate (txn : ℕ) (addr : TupleAddr) (answer : LatchAnswer)
      (latch : PageLatch) (manager : Manager C) (hexec : (s.managers txn).stage = .execute)
      (hlatch : (s.managers txn).allocateLatch txn (s.latches addr.pageAddr) addr.pageAddr
        answer = some (latch, manager, true)) :
      Steps s (.allocate txn addr answer)
        ((((s.setLatch addr.pageAddr latch).occupy addr).setManager txn
          (manager.newAccess ⟨.insertOnly, addr, none⟩)).put txn addr (s.tuples addr))
  | allocateRefused (txn : ℕ) (addr : TupleAddr) (answer : LatchAnswer)
      (latch : PageLatch) (manager : Manager C) (hexec : (s.managers txn).stage = .execute)
      (hlatch : (s.managers txn).allocateLatch txn (s.latches addr.pageAddr) addr.pageAddr
        answer = some (latch, manager, false)) :
      Steps s (.allocate txn addr answer)
        ((s.setLatch addr.pageAddr latch).setManager txn manager.abortTransaction)
  | insert (txn index : ℕ) (access : TupleAccess C) (hrec : s.record? txn index = some access)
      (hins : access.accessType = .insertOnly) :
      Steps s (.insert txn index)
        (s.put txn access.addr { s.tuples access.addr with visible := true })
  | read (txn index : ℕ) (access : TupleAccess C) (hrec : s.record? txn index = some access) :
      Steps s (.read txn index) (s.get txn access.addr)
  | write (txn index : ℕ) (columns : C) (access : TupleAccess C)
      (hrec : s.record? txn index = some access) :
      Steps s (.write txn index columns)
        (s.put txn access.addr { s.tuples access.addr with columns := columns })
  | commit (txn : ℕ) (hexec : (s.managers txn).stage = .execute) :
      Steps s (.commit txn) (s.finish txn (s.managers txn) true)
  | abort (txn : ℕ) (hexec : (s.managers txn).stage = .execute) :
      Steps s (.abort txn) (s.setManager txn (s.managers txn).abortTransaction)
  | undone (txn : ℕ) (hstage : (s.managers txn).stage = .undo []) :
      Steps s (.undo txn) (s.finish txn (s.managers txn) false)
  | undoRead (txn : ℕ) (access : TupleAccess C) (pending : List (TupleAccess C))
      (hstage : (s.managers txn).stage = .undo (access :: pending))
      (hread : access.accessType.isRead = true) :
      Steps s (.undo txn) (s.setManager txn { s.managers txn with stage := .undo pending })
  | undo (txn : ℕ) (access : TupleAccess C) (pending : List (TupleAccess C))
      (hstage : (s.managers txn).stage = .undo (access :: pending))
      (hwrite : access.accessType.isRead = false) :
      Steps s (.undo txn)
        ((s.setManager txn { s.managers txn with stage := .undo pending }).put txn access.addr
          (access.rollBack (s.tuples access.addr)))
  | release (txn page : ℕ) (committed : Bool) (accessType : AccessType)
      (hstage : (s.managers txn).stage = .release committed)
      (hlock : (s.managers txn).lockedHandles page = some accessType) :
      Steps s (.release txn page)
        ((s.setLatch page ((s.latches page).unlockAs txn accessType)).setManager txn
          ((s.managers txn).forget page))

theorem stage_of_matches {stage : Stage C} (h : (stage matches .execute) = true) :
    stage = .execute := by
  cases stage <;> simp_all

theorem record?_eq {index : ℕ} {access : TupleAccess C} (h : s.record? txn index = some access) :
    (s.managers txn).stage = .execute ∧ access ∈ (s.managers txn).accessList := by
  rw [record?] at h
  split_ifs at h with hexec
  exact ⟨stage_of_matches hexec, List.mem_of_getElem? h⟩

theorem step_cases (hstep : s.step event = some after) : s.Steps event after := by
  cases event with
  | select txn addr accessType answer =>
    simp only [step] at hstep
    split_ifs at hstep with hexec
    obtain ⟨⟨latch, manager, goesOn⟩, hlatch, rfl⟩ := map_eq_some_iff.mp hstep
    cases goesOn with
    | true => exact .select _ _ _ _ _ _ (stage_of_matches hexec) hlatch
    | false => exact .selectRefused _ _ _ _ _ _ (stage_of_matches hexec) hlatch
  | allocate txn addr answer =>
    simp only [step] at hstep
    split_ifs at hstep with hguard
    rw [Bool.and_eq_true] at hguard
    obtain ⟨⟨latch, manager, goesOn⟩, hlatch, rfl⟩ := map_eq_some_iff.mp hstep
    cases goesOn with
    | true => exact .allocate _ _ _ _ _ (stage_of_matches hguard.1) hlatch
    | false => exact .allocateRefused _ _ _ _ _ (stage_of_matches hguard.1) hlatch
  | insert txn index =>
    obtain ⟨access, hrec, hput⟩ := bind_eq_some_iff.mp hstep
    split_ifs at hput with hins
    cases hput
    exact .insert _ _ _ hrec hins
  | read txn index =>
    obtain ⟨access, hrec, rfl⟩ := map_eq_some_iff.mp hstep
    exact .read _ _ _ hrec
  | write txn index columns =>
    obtain ⟨access, hrec, rfl⟩ := map_eq_some_iff.mp hstep
    exact .write _ _ _ _ hrec
  | commit txn =>
    simp only [step] at hstep
    split_ifs at hstep with hexec
    cases hstep
    exact .commit _ (stage_of_matches hexec)
  | abort txn =>
    simp only [step] at hstep
    split_ifs at hstep with hexec
    cases hstep
    exact .abort _ (stage_of_matches hexec)
  | undo txn =>
    simp only [step] at hstep
    split at hstep
    case h_1 hstage =>
      cases hstep
      exact .undone _ hstage
    case h_2 access pending hstage =>
      split_ifs at hstep with hread
      · cases hstep
        exact .undoRead _ _ _ hstage hread
      · cases hstep
        exact .undo _ _ _ hstage (by simpa using hread)
    case h_3 => cases hstep
  | release txn page =>
    simp only [step] at hstep
    split at hstep
    case h_1 committed accessType hstage hlock =>
      cases hstep
      exact .release _ _ _ _ hstage hlock
    case h_2 => cases hstep

end System

end TwoPhase

end MemoryEngine.Txn
