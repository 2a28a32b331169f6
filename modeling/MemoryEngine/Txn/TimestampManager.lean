import MemoryEngine.Txn.PageLatch

/-! The TIMESTAMP transaction manager (`txn/TransactionManagerTIMESTAMP.cpp`), for one transaction.

All latches are exclusive and are kept until the end of the transaction; the accesses are checked
against the timestamps of their tuples.  The other transactions appear by the latches that they
hold. -/
namespace MemoryEngine.Txn.Timestamp

open Function

variable {C : Type}

inductive Stage (C : Type) where
  | execute
  /-- `AbortTransaction` with the accesses of `sorted_access` that are not rolled back yet. -/
  | undo (pending : List (TupleAccess C))
  | release (committed : Bool)
  deriving DecidableEq, Repr

/-- The state of the manager.  `startTimestamp` is `none` before the first access. -/
structure Manager (C : Type) where
  startTimestamp : Option ℕ
  accessList : List (TupleAccess C)
  lockedHandles : ℕ → Bool
  stage : Stage C

namespace Manager

def start : Manager C := ⟨none, [], fun _ => false, .execute⟩

def newAccess (manager : Manager C) (access : TupleAccess C) : Manager C :=
  { manager with accessList := manager.accessList ++ [access] }

def abortTransaction (manager : Manager C) : Manager C :=
  { manager with stage := .undo (TupleAccess.sorted manager.accessList) }

end Manager

structure System (C : Type) where
  tuples : TupleAddr → Tuple C
  latches : ℕ → PageLatch
  /-- The timestamp counter of the node. -/
  localTsNext : ℕ
  manager : Manager C

inductive Event (C : Type) where
  | select (addr : TupleAddr) (accessType : AccessType) (answer : LatchAnswer)
  | read (index : ℕ)
  | write (index : ℕ) (columns : C)
  | commit
  | abort
  | undo
  | release (page : ℕ)

/-- The timestamp rule of `SelectRecordCC`: the tuple after the access, or `none` to abort. -/
def checkTimestamps (accessType : AccessType) (startTimestamp : ℕ) (tuple : Tuple C) :
    Option (Tuple C) :=
  if accessType = .readOnly then
    if tuple.wts > startTimestamp then none else some { tuple with rts := startTimestamp }
  else
    if tuple.rts > startTimestamp ∨ tuple.wts > startTimestamp then none
    else
      let tuple := { tuple with wts := startTimestamp }
      some (if accessType = .deleteOnly then { tuple with visible := false } else tuple)

namespace System

variable (s : System C)

/-- `start_timestamp_` for the next access. -/
def takeTimestamp : System C :=
  match s.manager.startTimestamp with
  | some _ => s
  | none =>
      { s with
        localTsNext := s.localTsNext + 1
        manager := { s.manager with startTimestamp := some s.localTsNext } }

/-- `AcquireXLatchForTuple`, and whether the latch is there. -/
def acquireXLatch (txn page : ℕ) (answer : LatchAnswer) :
    Option (System C × Bool) :=
  if s.manager.lockedHandles page then some (s, true)
  else
    match answer with
    | .granted => ((s.latches page).lock txn).map fun latch =>
        ({ s with
            latches := update s.latches page latch
            manager := { s.manager with
              lockedHandles := update s.manager.lockedHandles page true } }, true)
    | .refused => some (s, false)
    | .lost => none

def abort : System C := { s with manager := s.manager.abortTransaction }

def setTuple (addr : TupleAddr) (tuple : Tuple C) : System C :=
  { s with tuples := update s.tuples addr tuple }

/-- `SelectRecordCC` after the latch. -/
def checkedAccess (addr : TupleAddr) (accessType : AccessType) : System C :=
  let tuple := s.tuples addr
  let localTuple := if accessType = .readWrite then some tuple else none
  let s := { s with manager := s.manager.newAccess ⟨accessType, addr, localTuple⟩ }
  match checkTimestamps accessType (s.manager.startTimestamp.getD 0) tuple with
  | some tuple => s.setTuple addr tuple
  | none => s.abort

def rollBack (access : TupleAccess C) : System C :=
  if s.manager.lockedHandles access.addr.pageAddr ∨ access.accessType = .insertOnly then
    s.setTuple access.addr (access.rollBack (s.tuples access.addr))
  else s

def step (txn : ℕ) : Event C → Option (System C)
  | .select addr accessType answer =>
      if s.manager.stage matches .execute then
        (s.takeTimestamp.acquireXLatch txn addr.pageAddr answer).map fun (s, latched) =>
          if latched then s.checkedAccess addr accessType else s.abort
      else none
  | .read index =>
      if (s.manager.stage matches .execute) && index < s.manager.accessList.length then some s
      else none
  | .write index columns =>
      if s.manager.stage matches .execute then
        (s.manager.accessList[index]?).map fun access =>
          s.setTuple access.addr { s.tuples access.addr with columns := columns }
      else none
  | .commit =>
      if s.manager.stage matches .execute then
        some { s with manager := { s.manager with stage := .release true } }
      else none
  | .abort => if s.manager.stage matches .execute then some s.abort else none
  | .undo =>
      match s.manager.stage with
      | .undo [] => some { s with manager := { s.manager with stage := .release false } }
      | .undo (access :: pending) =>
          some ({ s with manager := { s.manager with stage := .undo pending } }.rollBack access)
      | _ => none
  | .release page =>
      if (s.manager.stage matches .release _) && s.manager.lockedHandles page then
        some { s with
          latches := update s.latches page (s.latches page).unlock
          manager := { s.manager with
            lockedHandles := update s.manager.lockedHandles page false } }
      else none

end System

end MemoryEngine.Txn.Timestamp
