import MemoryEngine.Library.Serializability
import MemoryEngine.Txn.PageLatch

/-! The OCC transaction manager (`txn/TransactionManagerOCC.cpp`) with the timestamp counters of
the nodes (`txn/GlobalTimestamp.h`).

An access copies the tuple under the latch of its page and gives the latch back.
`CommitTransaction` draws the commit timestamp, latches the pages in the order of the addresses,
compares the write timestamps and then writes the local tuples.  A step is one of these under one
page latch.  The history and the order in which the transactions pass the validation are recorded
for the statements only. -/
namespace MemoryEngine.Txn

def TupleAccess.localWts {C : Type} (access : TupleAccess C) : ℕ :=
  (access.localTuple.map Tuple.wts).getD 0

namespace Occ

open Serializability Function

variable {C : Type}

inductive Stage (C : Type) where
  | execute
  /-- The accesses of `sorted_access` that are not validated yet. -/
  | validate (commitTs : ℕ) (pending : List (TupleAccess C))
  /-- The accesses that are not written yet. -/
  | install (commitTs : ℕ) (pending : List (TupleAccess C))
  | release (committed : Bool)
  deriving DecidableEq, Repr

structure Manager (C : Type) where
  accessList : List (TupleAccess C)
  lockedHandles : ℕ → Option AccessType
  stage : Stage C

variable (page : ℕ)

namespace Manager

def start : Manager C := ⟨[], fun _ => none, .execute⟩

variable (manager : Manager C)

def newAccess (access : TupleAccess C) : Manager C :=
  { manager with accessList := manager.accessList ++ [access] }

def remember (accessType : AccessType) : Manager C :=
  { manager with lockedHandles := update manager.lockedHandles page (some accessType) }

def forget : Manager C :=
  { manager with lockedHandles := update manager.lockedHandles page none }

def writeLocal (index : ℕ) (columns : C) : Manager C :=
  { manager with accessList := manager.accessList.modify index fun access =>
      { access with localTuple := access.localTuple.map ({ · with columns := columns }) } }

/-- The latch of the page in the validation of an access.  The result of an upgrade is not looked
at. -/
def validateLatch (txn : ℕ) (latch : PageLatch) (page : ℕ)
    (accessType : AccessType) (answer : LatchAnswer) : Option (PageLatch × Manager C) :=
  match manager.lockedHandles page with
  | none =>
      (if accessType.isRead then latch.lockShared txn else latch.lock txn).map fun latch =>
        (latch, manager.remember page accessType)
  | some mode =>
      if mode.isRead && !accessType.isRead then
        (latch.tryUpgrade txn answer).map fun result => (result.1, manager.remember page accessType)
      else some (latch, manager)

end Manager

structure System (C : Type) where
  tuples : TupleAddr → Tuple C
  /-- The slots that the bitmaps of the pages have handed out. -/
  occupied : TupleAddr → Bool
  latches : ℕ → PageLatch
  /-- `local_ts_next` of each node. -/
  localTsNext : ℕ → ℕ
  /-- The node on which a transaction runs. -/
  node : ℕ → ℕ
  managers : ℕ → Manager C
  history : List (Op ℕ TupleAddr)
  /-- The transactions that have passed the validation, in this order. -/
  validated : List ℕ

inductive Event (C : Type) where
  | select (txn : ℕ) (addr : TupleAddr) (accessType : AccessType)
  | allocate (txn : ℕ) (addr : TupleAddr)
  | write (txn : ℕ) (index : ℕ) (columns : C)
  | commit (txn : ℕ)
  | abort (txn : ℕ)
  | validate (txn : ℕ) (answer : LatchAnswer)
  | install (txn : ℕ)
  | release (txn : ℕ) (page : ℕ)

namespace System

def start (tuples : TupleAddr → Tuple C) (occupied : TupleAddr → Bool) (node : ℕ → ℕ) :
    System C where
  tuples := tuples
  occupied := occupied
  latches _ := .free
  localTsNext _ := 1
  node := node
  managers _ := .start
  history := []
  validated := []

variable (s : System C)

def setManager (txn : ℕ) (manager : Manager C) : System C :=
  { s with managers := update s.managers txn manager }

def setLatch (latch : PageLatch) : System C :=
  { s with latches := update s.latches page latch }

def setTuple (addr : TupleAddr) (tuple : Tuple C) : System C :=
  { s with tuples := update s.tuples addr tuple }

/-- `FetchAddMonotoneTimestamp` on a node. -/
def fetchAdd (node : ℕ) : System C :=
  { s with localTsNext := update s.localTsNext node (s.localTsNext node + 1) }

def log (op : Op ℕ TupleAddr) : System C := { s with history := s.history ++ [op] }

def latchable (accessType : AccessType) : Bool :=
  (s.latches page).writer = none && (accessType.isRead || (s.latches page).readers = [])

/-- The local tuple that `SelectRecordCC` returns. -/
def localTuple (addr : TupleAddr) (accessType : AccessType) : Tuple C :=
  if accessType = .deleteOnly then { s.tuples addr with visible := false } else s.tuples addr

/-- The validation of one access: a `DELETE_ONLY` access is passed over. -/
def validateAccess (txn commitTs : ℕ) (access : TupleAccess C)
    (pending : List (TupleAccess C)) (answer : LatchAnswer) : Option (System C) :=
  let manager := s.managers txn
  let page := access.addr.pageAddr
  if access.accessType = .deleteOnly then
    some (s.setManager txn { manager with stage := .validate commitTs pending })
  else
    (manager.validateLatch txn (s.latches page) page access.accessType answer).map
      fun (latch, manager) =>
        let stage :=
          if (s.tuples access.addr).wts > access.localWts then .release false
          else .validate commitTs pending
        (s.setLatch page latch).setManager txn { manager with stage := stage }

def step : Event C → Option (System C)
  | .select txn addr accessType =>
      let manager := s.managers txn
      if (manager.stage matches .execute) && s.occupied addr &&
          s.latchable addr.pageAddr accessType then
        let access : TupleAccess C := ⟨accessType, addr, some (s.localTuple addr accessType)⟩
        some ((s.setManager txn (manager.newAccess access)).log ⟨txn, addr, false⟩)
      else none
  | .allocate txn addr =>
      let manager := s.managers txn
      if (manager.stage matches .execute) && !s.occupied addr &&
          s.latchable addr.pageAddr .insertOnly then
        let tuple := { s.tuples addr with wts := 0 }
        let s := { s.setTuple addr tuple with occupied := update s.occupied addr true }
        some ((s.setManager txn (manager.newAccess ⟨.insertOnly, addr, some tuple⟩)).log
          ⟨txn, addr, false⟩)
      else none
  | .write txn index columns =>
      let manager := s.managers txn
      if manager.stage matches .execute then
        some (s.setManager txn (manager.writeLocal index columns))
      else none
  | .commit txn =>
      let manager := s.managers txn
      if manager.stage matches .execute then
        let commitTs := s.localTsNext (s.node txn)
        some ((s.fetchAdd (s.node txn)).setManager txn
          { manager with stage := .validate commitTs (TupleAccess.sorted manager.accessList) })
      else none
  | .abort txn =>
      let manager := s.managers txn
      if manager.stage matches .execute then
        some (s.setManager txn { manager with stage := .release false })
      else none
  | .validate txn answer =>
      let manager := s.managers txn
      match manager.stage with
      | .validate commitTs [] =>
          some { s.setManager txn
            { manager with stage := .install commitTs manager.accessList } with
            validated := s.validated ++ [txn] }
      | .validate commitTs (access :: pending) =>
        s.validateAccess txn commitTs access pending answer
      | _ => none
  | .install txn =>
      let manager := s.managers txn
      match manager.stage with
      | .install _ [] => some (s.setManager txn { manager with stage := .release true })
      | .install commitTs (access :: pending) =>
          let s := s.setManager txn { manager with stage := .install commitTs pending }
          if access.accessType = .readWrite ∨ access.accessType = .insertOnly then
            let tuple := access.localTuple.getD (s.tuples access.addr)
            some ((s.setTuple access.addr { tuple with wts := commitTs }).log
              ⟨txn, access.addr, true⟩)
          else some s
      | _ => none
  | .release txn page =>
      let manager := s.managers txn
      match manager.stage, manager.lockedHandles page with
      | .release _, some accessType =>
          some ((s.setLatch page ((s.latches page).unlockAs txn accessType)).setManager txn
            (manager.forget page))
      | _, _ => none

end System

end Occ

end MemoryEngine.Txn
