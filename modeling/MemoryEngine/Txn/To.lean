import MemoryEngine.Library.SerialReplay
import MemoryEngine.Txn.PageLatch

/-! The TO transaction manager (`txn/TxnManagerTo.cpp`) with the timestamp counters of the nodes
(`txn/GlobalTimestamp.h`).

A transaction draws its timestamp at its first access.  Every access latches the page exclusively
and checks and sets the timestamps of the tuple; the client writes into the page and gives the
latch back before the transaction ends.  An abort latches the pages of its write accesses again, in
the order of the addresses, and puts the copies back.  A step is one of these under one page latch.
The history and the loaded contents are recorded for the statements only. -/
namespace MemoryEngine.Txn

def Tuple.content {C : Type} (tuple : Tuple C) : C × Bool := (tuple.columns, tuple.visible)

namespace To

open Serializability Function

variable {C : Type} {n : ℕ}

inductive Stage (C : Type) where
  | execute
  /-- `SelectRecordCC` has refused an access and gives the latches back before it aborts. -/
  | refused
  /-- `AbortTransaction` with the accesses of `sorted_access` that are not rolled back yet. -/
  | undo (pending : List (TupleAccess C))
  | aborted
  | committed
  deriving DecidableEq, Repr

structure Transaction (C : Type) where
  /-- `none` as long as `is_first_access_` is set. -/
  startTimestamp : Option ℕ
  accessList : List (TupleAccess C)
  stage : Stage C

def Transaction.start : Transaction C := ⟨none, [], .execute⟩

/-- The tuples and the transactions, without the latches. -/
structure Database (n : ℕ) (C : Type) where
  tuples : TupleAddr → Tuple C
  /-- The slots that the bitmaps of the pages have handed out. -/
  occupied : TupleAddr → Bool
  /-- `local_ts_next` of each node. -/
  localTsNext : ℕ → ℕ
  /-- The node on which a transaction runs. -/
  node : Fin n → ℕ
  txns : Fin n → Transaction C
  loaded : TupleAddr → C × Bool
  history : List (Entry (Fin n) TupleAddr (C × Bool))

/-- The timestamp rule of `SelectRecordCC`: the tuple after the access, or `none` to abort. -/
def checkTimestamps (accessType : AccessType) (startTimestamp : ℕ) (tuple : Tuple C) :
    Option (Tuple C) :=
  if accessType.isRead then
    if tuple.wts > startTimestamp then none else some { tuple with rts := startTimestamp }
  else if tuple.rts > startTimestamp ∨ tuple.wts > startTimestamp then none
  else
    let tuple := { tuple with wts := startTimestamp }
    some (if accessType = .deleteOnly then { tuple with visible := false } else tuple)

namespace Database

def start (tuples : TupleAddr → Tuple C) (occupied : TupleAddr → Bool) (node : Fin n → ℕ) :
    Database n C where
  tuples := tuples
  occupied := occupied
  localTsNext _ := 1
  node := node
  txns _ := .start
  loaded addr := (tuples addr).content
  history := []

variable (db : Database n C) (txn : Fin n)

def setTxn (transaction : Transaction C) : Database n C :=
  { db with txns := update db.txns txn transaction }

variable (addr : TupleAddr)

def setTuple (tuple : Tuple C) : Database n C :=
  { db with tuples := update db.tuples addr tuple }

def log (entry : Entry (Fin n) TupleAddr (C × Bool)) : Database n C :=
  { db with history := db.history ++ [entry] }

def enter (stage : Stage C) : Database n C :=
  db.setTxn txn { db.txns txn with stage := stage }

def newAccess (access : TupleAccess C) : Database n C :=
  db.setTxn txn { db.txns txn with accessList := (db.txns txn).accessList ++ [access] }

/-- `start_timestamp_` of an access that is made now. -/
def timestamp : ℕ :=
  (db.txns txn).startTimestamp.getD (db.localTsNext (db.node txn))

/-- `FetchAddMonotoneTimestamp` at the first access. -/
def takeTimestamp : Database n C :=
  match (db.txns txn).startTimestamp with
  | some _ => db
  | none =>
      let node := db.node txn
      { db.setTxn txn { db.txns txn with startTimestamp := some (db.localTsNext node) } with
        localTsNext := update db.localTsNext node (db.localTsNext node + 1) }

/-- `SelectRecordCC` under the latch. -/
def select (accessType : AccessType) :
    Database n C :=
  let tuple := db.tuples addr
  let db := db.newAccess txn ⟨accessType, addr, some tuple⟩
  match checkTimestamps accessType (db.timestamp txn) tuple with
  | none => db.enter txn .refused
  | some later =>
      let db := (db.setTuple addr later).log ⟨⟨txn, addr, false⟩, tuple.content⟩
      if accessType = .deleteOnly then db.log ⟨⟨txn, addr, true⟩, later.content⟩ else db

/-- `AllocateNewRecord` under the latch. -/
def allocate : Database n C :=
  let tuple := { db.tuples addr with wts := db.timestamp txn }
  { db.setTuple addr tuple with occupied := update db.occupied addr true }.newAccess txn
    ⟨.insertOnly, addr, none⟩

def write (columns : C) : Database n C :=
  let tuple := { db.tuples addr with columns := columns }
  (db.setTuple addr tuple).log ⟨⟨txn, addr, true⟩, tuple.content⟩

def abortTransaction : Database n C :=
  db.enter txn (.undo (TupleAccess.sorted (db.txns txn).accessList))

def undo (access : TupleAccess C)
    (pending : List (TupleAccess C)) : Database n C :=
  (db.setTuple access.addr (access.rollBack (db.tuples access.addr))).enter txn (.undo pending)

end Database

structure System (n : ℕ) (C : Type) where
  db : Database n C
  /-- The transaction that has latched a page. -/
  latches : ℕ → Option (Fin n)
  /-- `locked_handles_`: the latched pages with the number of their accesses. -/
  lockedHandles : Fin n → List (ℕ × ℕ)

inductive Event (n : ℕ) (C : Type) where
  | select (txn : Fin n) (addr : TupleAddr) (accessType : AccessType)
  | allocate (txn : Fin n) (addr : TupleAddr)
  | write (txn : Fin n) (index : ℕ) (columns : C)
  | release (txn : Fin n) (page : ℕ)
  | commit (txn : Fin n)
  | abort (txn : Fin n)
  | unlock (txn : Fin n) (page : ℕ)
  | undo (txn : Fin n)

variable (s : System n C)

namespace System

def start (tuples : TupleAddr → Tuple C) (occupied : TupleAddr → Bool) (node : Fin n → ℕ) :
    System n C :=
  ⟨.start tuples occupied node, fun _ => none, fun _ => []⟩

def setHandles (txn : Fin n) (handles : List (ℕ × ℕ)) : System n C :=
  { s with lockedHandles := update s.lockedHandles txn handles }

def begin (txn : Fin n) : System n C := { s with db := s.db.takeTimestamp txn }

/-- `AcquireXLatchForTuple`; it waits while another transaction has the latch. -/
def acquireXLatch (txn : Fin n) (page : ℕ) : Option (System n C) :=
  let handles := s.lockedHandles txn
  match handles.lookup page with
  | some _ => some (s.setHandles txn (handles.map fun handle =>
      if handle.1 = page then (page, handle.2 + 1) else handle))
  | none =>
      if s.latches page = none then
        some { s.setHandles txn ((page, 1) :: handles) with
          latches := update s.latches page (some txn) }
      else none

/-- `SELCC_Exclusive_UnLock`, and the page is forgotten. -/
def unlockPage (txn : Fin n) (page : ℕ) : System n C :=
  { s.setHandles txn ((s.lockedHandles txn).filter fun handle => handle.1 ≠ page) with
    latches := update s.latches page none }

/-- `ReleaseLatchForTuple` and `ReleaseLatchForGCL`. -/
def releaseLatch (txn : Fin n) (page : ℕ) : System n C :=
  let handles := s.lockedHandles txn
  match handles.lookup page with
  | none => s
  | some count =>
      if count = 1 then s.unlockPage txn page
      else s.setHandles txn (handles.map fun handle =>
        if handle.1 = page then (page, handle.2 - 1) else handle)

def step : Event n C → Option (System n C)
  | .select txn addr accessType =>
      if ((s.db.txns txn).stage matches .execute) && s.db.occupied addr then
        ((s.begin txn).acquireXLatch txn addr.pageAddr).map fun s =>
          { s with db := s.db.select txn addr accessType }
      else none
  | .allocate txn addr =>
      if ((s.db.txns txn).stage matches .execute) && !s.db.occupied addr then
        ((s.begin txn).acquireXLatch txn addr.pageAddr).map fun s =>
          { s with db := s.db.allocate txn addr }
      else none
  | .write txn index columns =>
      if (s.db.txns txn).stage matches .execute then
        match (s.db.txns txn).accessList[index]? with
        | some access =>
            if ((s.lockedHandles txn).lookup access.addr.pageAddr).isSome then
              some { s with db := s.db.write txn access.addr columns }
            else none
        | none => none
      else none
  | .release txn page =>
      if (s.db.txns txn).stage matches .execute then some (s.releaseLatch txn page) else none
  | .commit txn =>
      -- `CommitTransaction` throws while a latch is held
      if ((s.db.txns txn).stage matches .execute) && s.lockedHandles txn = [] then
        some { s with db := s.db.enter txn .committed }
      else none
  | .abort txn =>
      if (s.db.txns txn).stage matches .execute then
        some { s with db := s.db.abortTransaction txn }
      else none
  | .unlock txn page =>
      if ((s.db.txns txn).stage matches .refused | .aborted) &&
          ((s.lockedHandles txn).lookup page).isSome then
        some (s.unlockPage txn page)
      else none
  | .undo txn =>
      match (s.db.txns txn).stage with
      | .refused =>
          if s.lockedHandles txn = [] then some { s with db := s.db.abortTransaction txn } else none
      | .undo [] => some { s with db := s.db.enter txn .aborted }
      | .undo (access :: pending) =>
          if access.accessType.isRead then some { s with db := s.db.undo txn access pending }
          else (s.acquireXLatch txn access.addr.pageAddr).map fun s =>
            { s with db := s.db.undo txn access pending }
      | _ => none

end System

namespace Database

inductive Moves (db : Database n C) : Event n C → Database n C → Prop where
  | keep (event) : Moves db event db
  | select (txn addr accessType) (hexec : (db.txns txn).stage = .execute)
      (hocc : db.occupied addr = true) :
      Moves db (.select txn addr accessType) ((db.takeTimestamp txn).select txn addr accessType)
  | allocate (txn addr) (hexec : (db.txns txn).stage = .execute)
      (hfree : db.occupied addr = false) :
      Moves db (.allocate txn addr) ((db.takeTimestamp txn).allocate txn addr)
  | write (txn index columns access) (hexec : (db.txns txn).stage = .execute)
      (hacc : (db.txns txn).accessList[index]? = some access) :
      Moves db (.write txn index columns) (db.write txn access.addr columns)
  | commit (txn) (hexec : (db.txns txn).stage = .execute) :
      Moves db (.commit txn) (db.enter txn .committed)
  | abort (txn) (hexec : (db.txns txn).stage = .execute) :
      Moves db (.abort txn) (db.abortTransaction txn)
  | refused (txn) (hstage : (db.txns txn).stage = .refused) :
      Moves db (.undo txn) (db.abortTransaction txn)
  | undone (txn) (hstage : (db.txns txn).stage = .undo []) :
      Moves db (.undo txn) (db.enter txn .aborted)
  | undo (txn access pending) (hstage : (db.txns txn).stage = .undo (access :: pending)) :
      Moves db (.undo txn) (db.undo txn access pending)

end Database

namespace System

variable {s after : System n C} {event : Event n C}

theorem stage_of_matches {stage : Stage C} (h : (stage matches .execute) = true) :
    stage = .execute := by
  cases stage <;> simp_all

theorem acquireXLatch_db {txn : Fin n} {page : ℕ} (h : s.acquireXLatch txn page = some after) :
    after.db = s.db := by
  simp only [acquireXLatch] at h
  split at h
  · cases h
    rfl
  · split_ifs at h
    cases h
    rfl

theorem releaseLatch_db (txn : Fin n) (page : ℕ) :
    (s.releaseLatch txn page).db = s.db := by
  simp only [releaseLatch]
  split
  · rfl
  · split <;> rfl

theorem step_moves (hstep : s.step event = some after) : s.db.Moves event after.db := by
  cases event <;> simp only [step] at hstep
  case select txn addr accessType =>
    split_ifs at hstep with hguard
    obtain ⟨latched, hlat, rfl⟩ := Option.map_eq_some_iff.mp hstep
    rw [Bool.and_eq_true] at hguard
    simp only [acquireXLatch_db hlat]
    exact .select txn addr accessType (stage_of_matches hguard.1) hguard.2
  case allocate txn addr =>
    split_ifs at hstep with hguard
    obtain ⟨latched, hlat, rfl⟩ := Option.map_eq_some_iff.mp hstep
    simp only [Bool.and_eq_true, Bool.not_eq_true'] at hguard
    simp only [acquireXLatch_db hlat]
    exact .allocate txn addr (stage_of_matches hguard.1) hguard.2
  case write txn index columns =>
    split_ifs at hstep with hexec
    split at hstep
    case h_1 access hacc =>
      split_ifs at hstep
      cases hstep
      exact .write txn index columns access (stage_of_matches hexec) hacc
    case h_2 => cases hstep
  case release txn page =>
    split_ifs at hstep
    cases hstep
    rw [releaseLatch_db]
    exact .keep _
  case commit txn =>
    split_ifs at hstep with hguard
    cases hstep
    rw [Bool.and_eq_true] at hguard
    exact .commit txn (stage_of_matches hguard.1)
  case abort txn =>
    split_ifs at hstep with hexec
    cases hstep
    exact .abort txn (stage_of_matches hexec)
  case unlock txn page =>
    split_ifs at hstep
    cases hstep
    exact .keep _
  case undo txn =>
    split at hstep
    case h_1 hstage =>
      split_ifs at hstep
      cases hstep
      exact .refused txn hstage
    case h_2 hstage =>
      cases hstep
      exact .undone txn hstage
    case h_3 access pending hstage =>
      split_ifs at hstep
      · cases hstep
        exact .undo txn access pending hstage
      · obtain ⟨latched, hlat, rfl⟩ := Option.map_eq_some_iff.mp hstep
        simp only [acquireXLatch_db hlat]
        exact .undo txn access pending hstage
    case h_4 => cases hstep

end System

end To

end MemoryEngine.Txn
