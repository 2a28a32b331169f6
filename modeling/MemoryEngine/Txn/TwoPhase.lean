import MemoryEngine.Library.Serializability
import MemoryEngine.Txn.PageLatch

/-! The 2PL transaction manager without sharding (`txn/TransactionManager2PL.cpp`,
`Table::AllocateNewTuple`).

Every access latches the page of its tuple and the latches are kept until the end of the
transaction.  The records point into the pages.  A step is what a transaction does to one
page: an access with its latch, a read or a write of a client through a record, the roll back
of one access, an unlock.  The history and the order of the ends are recorded for the
statements only. -/
namespace MemoryEngine.Txn.TwoPhase

open Serializability Function

variable {C : Type}

inductive Stage (C : Type) where
  | execute
  /-- `AbortTransaction` with the accesses that are not rolled back yet. -/
  | undo (pending : List (TupleAccess C))
  /-- The unlocks at the end. -/
  | release (committed : Bool)
  deriving DecidableEq, Repr

structure Manager (C : Type) where
  accessList : List (TupleAccess C)
  /-- The remembered access type of each latched page. -/
  lockedHandles : ℕ → Option AccessType
  stage : Stage C

variable (txn : ℕ)

namespace Manager

def start : Manager C := ⟨[], fun _ => none, .execute⟩

variable (manager : Manager C)

def remember (page : ℕ) (accessType : AccessType) : Manager C :=
  { manager with lockedHandles := update manager.lockedHandles page (some accessType) }

def forget (page : ℕ) : Manager C :=
  { manager with lockedHandles := update manager.lockedHandles page none }

def newAccess (access : TupleAccess C) : Manager C :=
  { manager with accessList := manager.accessList ++ [access] }

def abortTransaction : Manager C :=
  { manager with stage := .undo manager.accessList }

/-- The latch of the page for `SelectRecordCC`, and whether the access goes on.  The result of
an upgrade is not looked at. -/
def selectLatch (latch : PageLatch) (page : ℕ)
    (accessType : AccessType) (answer : LatchAnswer) : Option (PageLatch × Manager C × Bool) :=
  match manager.lockedHandles page with
  | none =>
      match answer with
      | .granted =>
          (if accessType.isRead then latch.lockShared txn else latch.lock txn).map fun latch =>
            (latch, manager.remember page accessType, true)
      | .refused =>
          -- a scan waits for its latch
          if accessType = .scanRead then none else some (latch, manager, false)
      | .lost => none
  | some mode =>
      if mode.isRead && !accessType.isRead then
        (latch.tryUpgrade txn answer).map fun result =>
          (result.1, manager.remember page accessType, true)
      else some (latch, manager, true)

/-- The latch of the page for `AllocateNewTuple`, and whether there is a new tuple. -/
def allocateLatch (latch : PageLatch) (page : ℕ)
    (answer : LatchAnswer) : Option (PageLatch × Manager C × Bool) :=
  match manager.lockedHandles page with
  | none =>
      match answer with
      | .granted => (latch.lock txn).map fun latch =>
          (latch, manager.remember page .insertOnly, true)
      | .refused => some (latch, manager, false)
      | .lost => none
  | some mode =>
      if mode = .readOnly then
        (latch.tryUpgrade txn answer).map fun result =>
          if result.2 then (result.1, manager.remember page .insertOnly, true)
          else (result.1, manager, false)
      else some (latch, manager.remember page .insertOnly, true)

end Manager

structure System (C : Type) where
  tuples : TupleAddr → Tuple C
  /-- The slots that the bitmaps of the pages have handed out. -/
  occupied : TupleAddr → Bool
  latches : ℕ → PageLatch
  managers : ℕ → Manager C
  history : List (Op ℕ TupleAddr)
  /-- The transactions that have come to their unlocks, in this order. -/
  ended : List ℕ

inductive Event (C : Type) where
  | select (txn : ℕ) (addr : TupleAddr) (accessType : AccessType) (answer : LatchAnswer)
  | allocate (txn : ℕ) (addr : TupleAddr) (answer : LatchAnswer)
  /-- `InsertRecord` of an allocated record. -/
  | insert (txn : ℕ) (index : ℕ)
  | read (txn : ℕ) (index : ℕ)
  | write (txn : ℕ) (index : ℕ) (columns : C)
  | commit (txn : ℕ)
  | abort (txn : ℕ)
  | undo (txn : ℕ)
  | release (txn : ℕ) (page : ℕ)

namespace System

def start (tuples : TupleAddr → Tuple C) (occupied : TupleAddr → Bool) : System C where
  tuples := tuples
  occupied := occupied
  latches _ := .free
  managers _ := .start
  history := []
  ended := []

variable (s : System C)

def setLatch (page : ℕ) (latch : PageLatch) : System C :=
  { s with latches := update s.latches page latch }

def setManager (manager : Manager C) : System C :=
  { s with managers := update s.managers txn manager }

variable (addr : TupleAddr)

def put (tuple : Tuple C) : System C :=
  { s with
    tuples := update s.tuples addr tuple
    history := s.history ++ [⟨txn, addr, true⟩] }

def get : System C :=
  { s with history := s.history ++ [⟨txn, addr, false⟩] }

def occupy : System C :=
  { s with occupied := update s.occupied addr true }

def finish (manager : Manager C) (committed : Bool) : System C :=
  { s.setManager txn { manager with stage := .release committed } with ended := s.ended ++ [txn] }

def record? (txn index : ℕ) : Option (TupleAccess C) :=
  if (s.managers txn).stage matches .execute then (s.managers txn).accessList[index]? else none

/-- `SelectRecordCC` after the latch.  The undo image is taken after the tuple was hidden, but
only an access of another type takes one. -/
def newRecord (manager : Manager C) (addr : TupleAddr)
    (accessType : AccessType) : System C :=
  let localTuple := if accessType = .readWrite then some (s.tuples addr) else none
  let s := s.setManager txn (manager.newAccess ⟨accessType, addr, localTuple⟩)
  if accessType = .deleteOnly then s.put txn addr { s.tuples addr with visible := false } else s

def step : Event C → Option (System C)
  | .select txn addr accessType answer =>
      let manager := s.managers txn
      if manager.stage matches .execute then
        (manager.selectLatch txn (s.latches addr.pageAddr) addr.pageAddr accessType answer).map
          fun (latch, manager, goesOn) =>
            let s := s.setLatch addr.pageAddr latch
            if goesOn then s.newRecord txn manager addr accessType
            else s.setManager txn manager.abortTransaction
      else none
  | .allocate txn addr answer =>
      let manager := s.managers txn
      if (manager.stage matches .execute) && !s.occupied addr then
        (manager.allocateLatch txn (s.latches addr.pageAddr) addr.pageAddr answer).map
          fun (latch, manager, goesOn) =>
            let s := s.setLatch addr.pageAddr latch
            if goesOn then
              ((s.occupy addr).setManager txn (manager.newAccess ⟨.insertOnly, addr, none⟩)).put
                txn addr (s.tuples addr)
            else s.setManager txn manager.abortTransaction
      else none
  | .insert txn index =>
      (s.record? txn index).bind fun access =>
        if access.accessType = .insertOnly then
          some (s.put txn access.addr { s.tuples access.addr with visible := true })
        else none
  | .read txn index => (s.record? txn index).map fun access => s.get txn access.addr
  | .write txn index columns =>
      (s.record? txn index).map fun access =>
        s.put txn access.addr { s.tuples access.addr with columns := columns }
  | .commit txn =>
      let manager := s.managers txn
      if manager.stage matches .execute then some (s.finish txn manager true) else none
  | .abort txn =>
      let manager := s.managers txn
      if manager.stage matches .execute then some (s.setManager txn manager.abortTransaction)
      else none
  | .undo txn =>
      let manager := s.managers txn
      match manager.stage with
      | .undo [] => some (s.finish txn manager false)
      | .undo (access :: pending) =>
          let s := s.setManager txn { manager with stage := .undo pending }
          if access.accessType.isRead then some s
          else some (s.put txn access.addr (access.rollBack (s.tuples access.addr)))
      | _ => none
  | .release txn page =>
      let manager := s.managers txn
      match manager.stage, manager.lockedHandles page with
      | .release _, some accessType =>
          some ((s.setLatch page ((s.latches page).unlockAs txn accessType)).setManager txn
            (manager.forget page))
      | _, _ => none

end System

end MemoryEngine.Txn.TwoPhase
