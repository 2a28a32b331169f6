import MemoryEngine.Storage.IndexPage
import MemoryEngine.Storage.Record

/-! The commit of an MVOCC transaction (`txn/TransactionManagerMVOCC.cpp`).

A transaction works on local copies of its tuples.  `CommitTransaction` latches the
pages, validates the copies, and then writes each tuple: it saves the old version in the
delta section, logs the update and copies the local tuple over the page. -/
namespace MemoryEngine.Txn

open ByteMemory LogCodec LogReplayer RedoLog Storage

inductive AccessType where
  | scanRead
  | readOnly
  | insertOnly
  | deleteOnly
  | readWrite
  deriving DecidableEq, Repr

/-- An entry of the access list: the local tuple, the page of the tuple and its offset
there. -/
structure Access where
  accessType : AccessType
  schema : RecordSchema
  tuple : Storage.Record
  pageAddr : Nat
  offset : Nat

/-- What the delta section answers to one access: the address of the new delta record
and the epoch that is read after it was filled. -/
structure DeltaSlot where
  deltaGaddr : Nat
  epoch : Nat

namespace Access

variable (access : Access)

/-- `access_global_record_`, which points into the page. -/
def globalRecord (page : Page) : Storage.Record := ⟨view page access.offset, []⟩

/-- `CopyFrom` of the local tuple. -/
def copyToPage (page : Page) : Page :=
  write page access.offset (read access.tuple.data 0 access.schema.getRecordTotalSize)

/-- `AddUpdateBytes` for a column, with the bytes that the page has. -/
def columnBlock (colId : Nat) : Nat × Nat :=
  (access.offset + access.schema.getColumnOffset colId, access.schema.getColumnSize colId)

/-- The operations of `LogDataUpdateOperation`: the dirty columns and the metadata, or
the whole record. -/
def updateOps (page : Page) : List DecodedOp :=
  if access.tuple.dirtyColIds ≠ [] then
    copyOps page (access.tuple.dirtyColIds.map access.columnBlock) ++
      [.update (access.offset + access.schema.getColumnOffset access.schema.getMetaColumnId)
        (access.tuple.getMeta access.schema).bytes]
  else copyOps page [(access.offset, access.schema.getRecordTotalSize)]

end Access

variable (logEnabled : Bool)

/-- The version is updated whether or not there is a log. -/
def logDataUpdateOperation (access : Access) (page : Page) :
    Page × List PageChange :=
  let newPageVersion := (pVersion page + 1) % 2 ^ 64
  let page := setPVersion page newPageVersion
  (page,
    if logEnabled then [⟨access.pageAddr, newPageVersion, access.updateOps page⟩] else [])

structure Written where
  page : Page
  changes : List PageChange
  delta : Option DeltaRecord

/-- The log is written before the tuple is copied. -/
def writeTuple (access : Access) (page : Page) (delta : Option DeltaRecord) :
    Written :=
  let logged := logDataUpdateOperation logEnabled access page
  { page := access.copyToPage logged.1
    changes := logged.2
    delta := delta }

/-- A `READ_WRITE` access after `fill_in_delta_record_single` and `PutMeta`. -/
def updated (commitTs : Nat) (access : Access) (slot : DeltaSlot) : Access :=
  let deltaSize := access.tuple.estimateDeltaSize access.schema
  let tuple : Storage.Record := { access.tuple with dirtyColIds := [] }
  let column : MetaColumn := { tuple.getMeta access.schema with
    prevVersion := slot.deltaGaddr
    prevDeltaEpoch := slot.epoch
    prevDeltaDataSize := deltaSize
    wts := commitTs }
  { access with tuple := tuple.putMeta access.schema column }

/-- An `INSERT_ONLY` access after `PutWTS`. -/
def inserted (commitTs : Nat) (access : Access) : Access :=
  { access with tuple := access.tuple.putWTS access.schema commitTs }

/-- One turn of the commit loop, on the page of the access. -/
def commitAccess (commitTs : Nat) (access : Access) (slot : DeltaSlot)
    (page : Page) : Written :=
  match access.accessType with
  | .readWrite =>
      if access.tuple.dirtyColIds = [] then ⟨page, [], none⟩
      else
        let delta := (fillInDeltaRecordSingle access.schema access.tuple
          (access.globalRecord page) commitTs).1
        writeTuple logEnabled (updated commitTs access slot) page (some delta)
  | .insertOnly => writeTuple logEnabled (inserted commitTs access) page none
  | _ => ⟨page, [], none⟩

/-- The pages of the transaction by address, and the calls of `Append`. -/
structure CommitResult where
  pages : Nat → Page
  changes : List PageChange

def commitStage (logEnabled : Bool) (commitTs : Nat) :
    List (Access × DeltaSlot) → (Nat → Page) → CommitResult
  | [], pages => ⟨pages, []⟩
  | (access, slot) :: rest, pages =>
      let written := commitAccess logEnabled commitTs access slot (pages access.pageAddr)
      let result := commitStage logEnabled commitTs rest
        (Function.update pages access.pageAddr written.page)
      ⟨result.pages, written.changes ++ result.changes⟩

/-- The validation of one access: no later version may have been committed.  Accesses
that only read are checked under serializable isolation. -/
def validates (serializable : Bool) (access : Access) (page : Page) : Bool :=
  let current := decide ((access.globalRecord page).getWTS access.schema ≤
    access.tuple.getWTS access.schema)
  match access.accessType with
  | .deleteOnly => true
  | .readWrite => current
  | .insertOnly => current
  | _ => !serializable || current

/-- `CommitTransaction` on latched pages; `none` is an abort.  A pure read only cleans
up. -/
def commitTransaction (pureReadTxn serializable logEnabled : Bool) (commitTs : Nat)
    (accesses : List (Access × DeltaSlot)) (pages : Nat → Page) : Option CommitResult :=
  if pureReadTxn then some ⟨pages, []⟩
  else if accesses.all fun entry => validates serializable entry.1 (pages entry.1.pageAddr) then
    some (commitStage logEnabled commitTs accesses pages)
  else none

end MemoryEngine.Txn
