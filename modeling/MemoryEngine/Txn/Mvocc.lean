import Mathlib.Logic.Function.Basic
import MemoryEngine.Library.TransitionSystem
import MemoryEngine.Library.VersionChain
import MemoryEngine.Txn.RollBack

/-! MVOCC transactions of several threads on several compute nodes
(`txn/TransactionManagerMVOCC.cpp`, `txn/GlobalTimestamp.h`).

A step of the system is what a thread does under one page latch or with one operation on
the timestamp counter of its node.  The rows stand for the bytes of the tuples in their
pages.  Histories, results of reads and commits are recorded for the statements only:
no step looks at them to decide what to write. -/
namespace MemoryEngine.Txn

open ByteMemory Storage Function

/-- The `GlobalAddress` of a page and the offset of a tuple in it. -/
structure TupleAddr where
  pageAddr : Nat
  offset : Nat
  deriving DecidableEq, Repr

namespace TupleAddr

/-- `GlobalAddress::val` of the tuple: the offset stands above the 16 bits of the node. -/
def val (addr : TupleAddr) : Nat := addr.pageAddr + 2 ^ 16 * addr.offset

/-- The order of `sorted_access`.  Pages do not overlap, so no two tuples of the code have one
`val`; the second case makes the order total here. -/
def before (first second : TupleAddr) : Bool :=
  decide (first.val < second.val ∨ first.val = second.val ∧ first.pageAddr < second.pageAddr)

end TupleAddr

structure LocalAccess where
  access : Access
  base : Memory

variable (entry : LocalAccess)

def LocalAccess.addr : TupleAddr :=
  ⟨entry.access.pageAddr, entry.access.offset⟩

def LocalAccess.withTuple (tuple : Storage.Record) : LocalAccess :=
  { entry with access := { entry.access with tuple := tuple } }

/-- `std::map::insert`, which keeps the access that is already there. -/
def insertAccess (entry : LocalAccess) : List LocalAccess → List LocalAccess
  | [] => [entry]
  | head :: tail =>
      if entry.addr.before head.addr then entry :: head :: tail
      else if entry.addr = head.addr then head :: tail
      else head :: insertAccess entry tail

/-- `sorted_access`. -/
def sortedAccess (accessList : List LocalAccess) : List LocalAccess :=
  accessList.foldl (fun sorted entry => insertAccess entry sorted) []

inductive Stage where
  | execute
  /-- The accesses that are not validated yet. -/
  | validate (pending : List LocalAccess)
  /-- After `EnsureCommitFloor`. -/
  | floored
  /-- The accesses that are not written yet. -/
  | write (commitTs : Nat) (pending : List LocalAccess)

/-- The state of a `TransactionManager`.  `snapshotTs` is `none` before the first
access. -/
structure Manager where
  maxSeenTs : Nat
  snapshotTs : Option Nat
  pureReadTxn : Bool
  haveRolledBack : Bool
  plainOcc : Bool
  accessList : List LocalAccess
  stage : Stage
  /-- What the reads returned: a row, or `none` for a null record. -/
  reads : List (TupleAddr × Option Memory)

namespace Manager

def start : Manager where
  maxSeenTs := 0
  snapshotTs := none
  pureReadTxn := true
  haveRolledBack := false
  plainOcc := false
  accessList := []
  stage := .execute
  reads := []

def registerSeenTs (manager : Manager) (ts : Nat) : Manager :=
  { manager with maxSeenTs := max manager.maxSeenTs ts }

/-- `ClearStates` on an empty access list. -/
def clearStates (manager : Manager) : Manager := { start with maxSeenTs := manager.maxSeenTs }

end Manager

/-- A version of a tuple: the row, and the delta record that its commit wrote with the
address of it. -/
structure Version where
  row : Memory
  delta : Option (Nat × DeltaRecord)

/-- A transaction that `CommitTransaction` returned true for. -/
structure Committed where
  commitTs : Option Nat
  writes : List TupleAddr
  reads : List (TupleAddr × Option Memory)

structure System where
  /-- `local_ts_next` of each node. -/
  clocks : Nat → Nat
  managers : Nat → Manager
  rows : TupleAddr → Option Memory
  deltas : Nat → Option DeltaRecord
  /-- The thread that holds the exclusive latch of a page. -/
  latches : Nat → Option Nat
  /-- The committed versions of a tuple, newest first. -/
  history : TupleAddr → List Version
  committed : List Committed

/-- What stays fixed: the node of each thread, the schema of each tuple and the isolation
level, which is serializable or snapshot isolation. -/
structure Setting where
  node : Nat → Nat
  schema : TupleAddr → RecordSchema
  rows : ∀ addr, Rows (schema addr)
  serializable : Bool

inductive Action where
  | getSnapshot (thread : Nat)
  /-- `stray` is the row that a roll back leaves where the delta record is lost. -/
  | select (thread : Nat) (addr : TupleAddr) (accessType : AccessType) (stray : Memory)
  | setColumn (thread index colId : Nat) (data : List UInt8)
  | setVisible (thread index : Nat) (visible : Bool)
  | allocateNewRecord (thread : Nat) (addr : TupleAddr)
  | beginCommit (thread : Nat)
  | validateNext (thread : Nat)
  | ensureFloor (thread : Nat)
  | fetchAdd (thread : Nat)
  | writeNext (thread : Nat) (slot : DeltaSlot)
  | finish (thread : Nat)
  | abort (thread : Nat)
  /-- `SnapshotPollingLoop`. -/
  | syncSnapshot (node forcedTsNext : Nat)
  /-- The garbage collector gives the space of a delta record back. -/
  | collect (deltaGaddr : Nat)

namespace System

variable (setting : Setting) (sys : System)

def setManager (thread : Nat) (manager : Manager) : System :=
  { sys with managers := update sys.managers thread manager }

/-- `EnsureCommitFloor` after the test that a timestamp was seen. -/
def ensureCommitFloor (thread maxSeenTs : Nat) : System :=
  let node := setting.node thread
  if maxSeenTs = 0 then sys
  else { sys with
    clocks := update sys.clocks node (max (sys.clocks node) ((maxSeenTs + 1) % 2 ^ 64)) }

def unlockAll (thread : Nat) : System :=
  { sys with latches := fun page =>
      if sys.latches page = some thread then none else sys.latches page }

def abortTransaction (thread : Nat) (manager : Manager) : System :=
  ((sys.unlockAll thread).ensureCommitFloor setting thread manager.maxSeenTs).setManager thread
    manager.clearStates

end System

variable (setting : Setting)

def Setting.wts (addr : TupleAddr) (row : Memory) : Nat :=
  (Storage.Record.mk row []).getWTS (setting.schema addr)

/-- `prev_version_` of a row. -/
def Setting.prevVersion (addr : TupleAddr) (row : Memory) : Nat :=
  ((Storage.Record.mk row []).getMeta (setting.schema addr)).prevVersion

/-! ### Access -/

variable (sys : System)

/-- One turn of the loop that rolls a record back.  Where the delta record is lost the
result is arbitrary. -/
def olderVersion (addr : TupleAddr) (stray row : Memory) :
    Option Memory :=
  let prevDelta := setting.prevVersion addr row
  if prevDelta = 0 then none
  else
    match sys.deltas prevDelta with
    | some delta => some (Storage.Record.rollBack (setting.schema addr) ⟨row, []⟩ delta).data
    | none => some stray

/-- The loop of `SelectRecordCC`. -/
def rollBackToSnapshot (addr : TupleAddr) (snapshotTs : Nat)
    (stray row : Memory) : Option (Option Memory) :=
  VersionChain.rollBackTo (setting.wts addr) (olderVersion setting sys addr stray) snapshotTs
    ((sys.history addr).length + 1) row

def AccessType.isRead : AccessType → Bool
  | .scanRead => true
  | .readOnly => true
  | _ => false

variable (schema : RecordSchema)

/-- The local tuple that `SelectRecordCC` returns. -/
def localTuple (accessType : AccessType) (row : Memory) : Storage.Record :=
  let record : Storage.Record := ⟨row, []⟩
  if accessType = .deleteOnly then
    let record := record.putWTS schema (2 ^ 64 - 1)
    record.putMeta schema { record.getMeta schema with isVisible := 0 }
  else record

/-- The tests under `EARLYABORT` that abort. -/
def Manager.abortsEarly (serializable : Bool) (accessType : AccessType) (ts snapshotTs : Nat)
    (manager : Manager) : Bool :=
  if serializable then !manager.pureReadTxn && manager.haveRolledBack && decide (snapshotTs < ts)
  else decide (accessType = .readWrite) && decide (snapshotTs < ts)

/-- The state of a manager in `SelectRecordCC` when the row has been copied. -/
def Manager.beginAccess (accessType : AccessType) (ts : Nat) (manager : Manager) : Manager :=
  { manager.registerSeenTs ts with pureReadTxn := manager.pureReadTxn && accessType.isRead }

/-- Under serializable isolation a transaction that has not rolled back reads the newest
versions from now on. -/
def Manager.choosePlainOcc (serializable : Bool) (ts snapshotTs : Nat) (manager : Manager) :
    Manager :=
  if serializable && !manager.pureReadTxn && decide (snapshotTs < ts) then
    { manager with plainOcc := true }
  else manager

/-- The end of `SelectRecordCC`: a null record leaves no access. -/
def Manager.addAccess (addr : TupleAddr) (accessType : AccessType)
    (result : Option Memory) (manager : Manager) : Manager :=
  { manager with
    accessList :=
      match result with
      | some row => manager.accessList ++
          [⟨⟨accessType, setting.schema addr, localTuple (setting.schema addr) accessType row,
            addr.pageAddr, addr.offset⟩, row⟩]
      | none => manager.accessList
    reads := if accessType.isRead then (addr, result) :: manager.reads else manager.reads }

/-- `SelectRecordCC` after `GetSnapshot`.  The index only has tuples that were committed,
and no other thread has the exclusive latch of the page. -/
def selectRecordCC (thread : Nat) (addr : TupleAddr)
    (accessType : AccessType) (stray : Memory) : Option System :=
  match (sys.managers thread).stage, (sys.managers thread).snapshotTs, sys.rows addr with
  | .execute, some snapshotTs, some row =>
      if accessType = .insertOnly ∨ sys.history addr = [] ∨ sys.latches addr.pageAddr ≠ none then
        none
      else
        let ts := setting.wts addr row
        let manager := (sys.managers thread).beginAccess accessType ts
        if manager.abortsEarly setting.serializable accessType ts snapshotTs then
          some (sys.abortTransaction setting thread manager)
        else
          let manager := manager.choosePlainOcc setting.serializable ts snapshotTs
          if manager.plainOcc then
            some (sys.setManager thread (manager.addAccess setting addr accessType (some row)))
          else
            let manager := { manager with
              haveRolledBack := manager.haveRolledBack || decide (snapshotTs < ts) }
            (rollBackToSnapshot setting sys addr snapshotTs stray row).map fun result =>
              sys.setManager thread (manager.addAccess setting addr accessType result)
  | _, _, _ => none

/-- The row of a slot that was never used, as `AllocateNewRecord` leaves it. -/
def newRow : Memory :=
  write (fun _ => 0) schema.metaOffset
    { MetaColumn.load (fun _ => 0) schema.metaOffset with
      wts := 2 ^ 64 - 1, isVisible := 0 : MetaColumn }.bytes

def System.setRow (addr : TupleAddr) (row : Memory) : System :=
  { sys with rows := update sys.rows addr (some row) }

def insertEntry (addr : TupleAddr) : LocalAccess :=
  let row := newRow (setting.schema addr)
  ⟨⟨.insertOnly, setting.schema addr, ⟨row, []⟩, addr.pageAddr, addr.offset⟩, row⟩

def Manager.addInsert (addr : TupleAddr) (manager : Manager) : Manager :=
  { manager with
    pureReadTxn := false
    accessList := manager.accessList ++ [insertEntry setting addr] }

/-- `AllocateNewRecord`, in a page that no other thread has latched. -/
def System.allocateNewRecord (thread : Nat)
    (addr : TupleAddr) : Option System :=
  match (sys.managers thread).stage, sys.rows addr with
  | .execute, none =>
      if sys.latches addr.pageAddr ≠ none then none
      else some ((sys.setRow addr (newRow (setting.schema addr))).setManager thread
        ((sys.managers thread).addInsert setting addr))
  | _, _ => none

def System.modify (thread index : Nat)
    (change : LocalAccess → Option Storage.Record) : Option System :=
  let manager := sys.managers thread
  match manager.stage, manager.accessList[index]? with
  | .execute, some entry =>
      (change entry).map fun tuple =>
        sys.setManager thread { manager with
          accessList := manager.accessList.set index (entry.withTuple tuple) }
  | _, _ => none

/-- `SetColumn` on a column of the application. -/
def changeColumn (colId : Nat) (data : List UInt8) (entry : LocalAccess) : Option Storage.Record :=
  if colId < entry.access.schema.getMetaColumnId then
    some (entry.access.tuple.setColumn entry.access.schema colId data)
  else none

/-- `SetVisible`. -/
def changeVisible (visible : Bool) (entry : LocalAccess) : Option Storage.Record :=
  let schema := entry.access.schema
  some (entry.access.tuple.putMeta schema
    { entry.access.tuple.getMeta schema with isVisible := if visible then 1 else 0 })

/-! ### Commit -/

def LocalAccess.writes : Bool :=
  decide (entry.access.accessType = .insertOnly) ||
    decide (entry.access.accessType = .readWrite) && !entry.access.tuple.dirtyColIds.isEmpty

def System.beginCommit (thread : Nat) : Option System :=
  let manager := sys.managers thread
  match manager.stage with
  | .execute =>
      if manager.pureReadTxn then
        some ({ sys with committed := ⟨none, [], manager.reads⟩ :: sys.committed }.setManager
          thread manager.clearStates)
      else
        some (sys.setManager thread
          { manager with stage := .validate (sortedAccess manager.accessList) })
  | _ => none

def AccessType.isWrite : AccessType → Bool
  | .readWrite => true
  | .insertOnly => true
  | _ => false

/-- `SELCC_Exclusive_Lock` for an access that may be written.  A shared latch excludes no
step of this system that has not the exclusive one. -/
def System.latchPage (thread : Nat) (access : Access) : System :=
  if access.accessType.isWrite then
    { sys with latches := update sys.latches access.pageAddr (some thread) }
  else sys

def System.validateNext (thread : Nat) : Option System :=
  let manager := sys.managers thread
  match manager.stage with
  | .validate (entry :: rest) =>
      let page := entry.access.pageAddr
      let passed := { manager with stage := .validate rest }
      if entry.access.accessType.isWrite ||
          (setting.serializable && entry.access.accessType.isRead) then
        if sys.latches page = none ∨ sys.latches page = some thread then
          (sys.rows entry.addr).map fun row =>
            let latched := sys.latchPage thread entry.access
            let ts := setting.wts entry.addr row
            if entry.access.tuple.getWTS entry.access.schema < ts then
              latched.abortTransaction setting thread (manager.registerSeenTs ts)
            else latched.setManager thread passed
        else none
      else some (sys.setManager thread passed)
  | _ => none

def System.ensureFloor (thread : Nat) : Option System :=
  let manager := sys.managers thread
  match manager.stage with
  | .validate [] =>
      some ((sys.ensureCommitFloor setting thread manager.maxSeenTs).setManager thread
        { manager with stage := .floored })
  | _ => none

/-- `FetchAddMonotoneTimestamp`. -/
def System.fetchAdd (thread : Nat) : Option System :=
  let manager := sys.managers thread
  let node := setting.node thread
  match manager.stage with
  | .floored =>
      let commitTs := sys.clocks node
      some ({ sys with clocks := update sys.clocks node ((commitTs + 1) % 2 ^ 64) }.setManager
        thread { manager with stage := .write commitTs manager.accessList })
  | _ => none

def writtenVersion (commitTs : Nat) (entry : LocalAccess) (slot : DeltaSlot) (row : Memory) :
    Version :=
  match entry.access.accessType with
  | .readWrite =>
      ⟨(updated commitTs entry.access slot).tuple.data, some (slot.deltaGaddr,
        (fillInDeltaRecordSingle entry.access.schema entry.access.tuple ⟨row, []⟩ commitTs).1)⟩
  | _ => ⟨(inserted commitTs entry.access).tuple.data, none⟩

def System.publish (addr : TupleAddr) (version : Version) : System :=
  { sys with
    rows := update sys.rows addr (some version.row)
    deltas := match version.delta with
      | some (deltaGaddr, delta) => update sys.deltas deltaGaddr (some delta)
      | none => sys.deltas
    history := update sys.history addr (version :: sys.history addr) }

/-- One turn of the write loop, which runs over the whole access list.
`LogDataUpdateOperation` throws where the page is not in `locked_handles_`. -/
def System.writeNext (thread : Nat) (slot : DeltaSlot) : Option System :=
  let manager := sys.managers thread
  match manager.stage with
  | .write commitTs (entry :: rest) =>
      let passed := { manager with stage := .write commitTs rest }
      if entry.writes then
        if sys.latches entry.access.pageAddr = some thread ∧ slot.deltaGaddr ≠ 0 ∧
            slot.deltaGaddr < 2 ^ 64 then
          (sys.rows entry.addr).map fun row =>
            (sys.publish entry.addr (writtenVersion commitTs entry slot row)).setManager thread
              passed
        else none
      else some (sys.setManager thread passed)
  | _ => none

def System.finish (thread : Nat) : Option System :=
  let manager := sys.managers thread
  match manager.stage with
  | .write commitTs [] =>
      let writes := (manager.accessList.filter LocalAccess.writes).map LocalAccess.addr
      some ({ sys.unlockAll thread with
          committed := ⟨some commitTs, writes, manager.reads⟩ :: sys.committed }.setManager thread
        { manager.clearStates with maxSeenTs := commitTs })
  | _ => none

def mvoccStep : Action → Option System
  | .getSnapshot thread =>
      let manager := sys.managers thread
      match manager.stage, manager.snapshotTs with
      | .execute, none => some (sys.setManager thread
          { manager with snapshotTs := some (sys.clocks (setting.node thread)) })
      | _, _ => none
  | .select thread addr accessType stray => selectRecordCC setting sys thread addr accessType stray
  | .setColumn thread index colId data => sys.modify thread index (changeColumn colId data)
  | .setVisible thread index visible => sys.modify thread index (changeVisible visible)
  | .allocateNewRecord thread addr => sys.allocateNewRecord setting thread addr
  | .beginCommit thread => sys.beginCommit thread
  | .validateNext thread => sys.validateNext setting thread
  | .ensureFloor thread => sys.ensureFloor setting thread
  | .fetchAdd thread => sys.fetchAdd setting thread
  | .writeNext thread slot => sys.writeNext thread slot
  | .finish thread => sys.finish thread
  | .abort thread =>
      let manager := sys.managers thread
      match manager.stage with
      | .execute => some (sys.abortTransaction setting thread manager)
      | _ => none
  | .syncSnapshot node forcedTsNext => some { sys with
      clocks := update sys.clocks node (max (sys.clocks node) (forcedTsNext % 2 ^ 64)) }
  | .collect deltaGaddr => some { sys with deltas := update sys.deltas deltaGaddr none }

/-- No transaction has begun; the tuples are those that were loaded. -/
structure System.Initial (setting : Setting) (sys : System) : Prop where
  clocks : ∀ node, 1 ≤ sys.clocks node ∧ sys.clocks node < 2 ^ 64
  managers : ∀ thread, sys.managers thread = .start
  latches : ∀ page, sys.latches page = none
  loaded : ∀ addr, sys.rows addr = none ∧ sys.history addr = [] ∨
    ∃ row, sys.rows addr = some row ∧ sys.history addr = [⟨row, none⟩] ∧
      setting.prevVersion addr row = 0 ∧ setting.wts addr row + 1 < 2 ^ 64
  committed : sys.committed = []

/-! ### Rows and pages

The write of a tuple in this system is what the commit does to the page of the tuple. -/

section Pages

variable {access : Access} {page : Page} {row : Memory}

def Holds (page : Page) (offset : Nat) (row : Memory) : Prop :=
  AgreeOn (view page offset) row 0 schema.getRecordTotalSize

theorem fillInDeltaRecordSingle_congr (hmeta : access.schema.MetaLast)
    (hknown : ∀ colId ∈ access.tuple.dirtyColIds, colId < access.schema.columns.length)
    (hholds : Holds access.schema page access.offset row) (commitTs : Nat) :
    (fillInDeltaRecordSingle access.schema access.tuple (access.globalRecord page) commitTs).1 =
      (fillInDeltaRecordSingle access.schema access.tuple ⟨row, []⟩ commitTs).1 := by
  have htotal := hmeta.total_eq
  have hmetaColumn : (access.globalRecord page).getMeta access.schema =
      (Storage.Record.mk row []).getMeta access.schema :=
    MetaColumn.load_congr (hholds.mono (Nat.zero_le _) (by
      simp only [RecordSchema.metaOffset] at htotal
      omega))
  have hcols : Storage.Record.serializeToDelta access.schema
      { access.globalRecord page with dirtyColIds := access.tuple.dirtyColIds } =
      Storage.Record.serializeToDelta access.schema ⟨row, access.tuple.dirtyColIds⟩ := by
    refine List.flatMap_congr fun colId hmem => ?_
    have hwithin := access.schema.column_within (hknown colId hmem)
    refine congrArg _ (read_congr (hholds.mono (Nat.zero_le _) ?_))
    omega
  simp only [fillInDeltaRecordSingle, hmetaColumn, hcols]

variable (logEnabled : Bool)

theorem holds_writeTuple (access : Access) (page : Page)
    (delta : Option DeltaRecord) :
    Holds access.schema (writeTuple logEnabled access page delta).page access.offset
      access.tuple.data := by
  have hview := view_write (logDataUpdateOperation logEnabled access page).1 access.offset 0
    (read access.tuple.data 0 access.schema.getRecordTotalSize)
  refine agreeOn_of_read_eq ?_
  rw [writeTuple, Access.copyToPage]
  rw [Nat.add_zero] at hview
  rw [hview]
  have hread := read_write_same (view (logDataUpdateOperation logEnabled access page).1
    access.offset) 0 (read access.tuple.data 0 access.schema.getRecordTotalSize)
  rwa [read_length] at hread

/-- `writtenVersion` is what the commit leaves in the page and in the delta section. -/
theorem commitAccess_eq_writtenVersion (commitTs : Nat) (slot : DeltaSlot)
    (entry : LocalAccess) (hmeta : entry.access.schema.MetaLast)
    (hknown : ∀ colId ∈ entry.access.tuple.dirtyColIds, colId < entry.access.schema.columns.length)
    (hholds : Holds entry.access.schema page entry.access.offset row)
    (hwrites : entry.writes = true) :
    Holds entry.access.schema (commitAccess logEnabled commitTs entry.access slot page).page
        entry.access.offset (writtenVersion commitTs entry slot row).row ∧
      (commitAccess logEnabled commitTs entry.access slot page).delta =
        (writtenVersion commitTs entry slot row).delta.map Prod.snd := by
  have hdelta := fillInDeltaRecordSingle_congr hmeta hknown hholds commitTs
  simp only [LocalAccess.writes, Bool.or_eq_true, Bool.and_eq_true, decide_eq_true_eq] at hwrites
  rcases hwrites with htype | ⟨htype, hdirty⟩
  · simp only [commitAccess, writtenVersion, htype]
    exact ⟨holds_writeTuple logEnabled (inserted commitTs entry.access) page none, rfl⟩
  · have hne : ¬ entry.access.tuple.dirtyColIds = [] := by simpa using hdirty
    simp only [commitAccess, writtenVersion, htype, if_neg hne]
    exact ⟨holds_writeTuple logEnabled (updated commitTs entry.access slot) page _,
      congrArg some hdelta⟩

theorem commitAccess_holds_other (commitTs : Nat) (slot : DeltaSlot)
    {schema : RecordSchema} {offset : Nat} (hhdr : LogReplayer.pVersionOffset + 8 ≤ offset)
    (hapart : access.offset + access.schema.getRecordTotalSize ≤ offset ∨
      offset + schema.getRecordTotalSize ≤ access.offset)
    (hholds : Holds schema page offset row) :
    Holds schema (commitAccess logEnabled commitTs access slot page).page offset row := by
  have hwrite : ∀ written delta, written.offset = access.offset → written.schema = access.schema →
      Holds schema (writeTuple logEnabled written page delta).page offset row := by
    intro written delta hoff hschema address hge hlt
    have hkept : AgreeOn (writeTuple logEnabled written page delta).page page offset
        schema.getRecordTotalSize := by
      refine (agreeOn_write _ ?_).trans (agreeOn_write _ (.inl ?_))
      · rw [read_length, hoff, hschema]
        exact hapart
      · rw [natLE_length]
        exact hhdr
    exact (hkept _ (by omega) (by omega)).trans (hholds address hge hlt)
  unfold commitAccess
  split
  · split
    · exact hholds
    · exact hwrite _ _ rfl rfl
  · exact hwrite _ _ rfl rfl
  · exact hholds

end Pages

end MemoryEngine.Txn
