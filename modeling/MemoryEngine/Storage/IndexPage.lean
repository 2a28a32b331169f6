import MemoryEngine.Library.BinarySearch
import MemoryEngine.Log.PageLog
import MemoryEngine.Storage.Schema

/-! Index pages (`storage/page.h`, `storage/page.cpp`).

A page is a buffer of bytes: the latch word, the header `Header_Index`, the highest
and the lowest key, and the records in key order.  A leaf record is a whole row; an
internal record is a key and the address of a child. -/
namespace MemoryEngine.Storage

open ByteMemory LogCodec LogReplayer RedoLog

abbrev Page := Memory

/-! ### The header -/

def headerOffset : Nat := 8
def headerSize : Nat := 56
def pTypeOffset : Nat := 8
def dirtyUpperBoundOffset : Nat := 12
def dirtyLowerBoundOffset : Nat := 14
def thisPageGPtrOffset : Nat := 24
def leftmostPtrOffset : Nat := 32
def siblingPtrOffset : Nat := 40
def lastIndexOffset : Nat := 48
def keySizeOffset : Nat := 52
def recordSizeOffset : Nat := 56
def levelOffset : Nat := 60
def kCardinalityOffset : Nat := 62
def dataOffset : Nat := 64

variable (page : Page)

def field (offset width : Nat) : Nat := ofLE (read page offset width)

def setField (offset width value : Nat) : Page :=
  write page offset (natLE width value)

def pVersion : Nat := field page pVersionOffset 8
def setPVersion (version : Nat) : Page := setField page pVersionOffset 8 version

/-- `last_index` is an `int16_t`. -/
def lastIndex : Int :=
  let raw := field page lastIndexOffset 2
  if raw < 32768 then raw else (raw : Int) - 65536

def lastIndexBytes (index : Int) : List UInt8 := natLE 2 (index % 65536).toNat

def setLastIndex (index : Int) : Page :=
  write page lastIndexOffset (lastIndexBytes index)

def siblingPtr : Nat := field page siblingPtrOffset 8
def setSiblingPtr (gaddr : Nat) : Page := setField page siblingPtrOffset 8 gaddr
def setLeftmostPtr (gaddr : Nat) : Page := setField page leftmostPtrOffset 8 gaddr
def keySize : Nat := field page keySizeOffset 4
def recordSize : Nat := field page recordSizeOffset 4
def kCardinality : Nat := field page kCardinalityOffset 2

def resetDirtyBounds : Page :=
  setField (setField page dirtyUpperBoundOffset 2 0) dirtyLowerBoundOffset 2 0

/-- The number of records, `hdr.last_index + 1`. -/
def count : Nat := (lastIndex page + 1).toNat

/-! ### Keys and records -/

def recordsOffset : Nat := dataOffset + 2 * keySize page

variable (index : Nat)

def recordOffset : Nat :=
  recordsOffset page + index * recordSize page

def getRecordKeyByIndex (schema : RecordSchema) (page : Page) (index : Nat) :
    DynamicCompoundKey schema :=
  ⟨read page (recordOffset page index) schema.getPrimaryKeyLength, read_length _ _ _⟩

def getRecordValueByIndex : Nat :=
  field page (recordOffset page index + keySize page) 8

variable {schema : RecordSchema} (key : DynamicCompoundKey schema)

/-- `InternalPage::SetRecordByIndex`. -/
def setRecordByIndex
    (gaddr : Nat) : Page :=
  setField (write page (recordOffset page index) key.bytes)
    (recordOffset page index + keySize page) 8 gaddr

def getHighest (schema : RecordSchema) (page : Page) : DynamicCompoundKey schema :=
  ⟨read page dataOffset schema.getPrimaryKeyLength, read_length _ _ _⟩

def setHighest : Page :=
  write page dataOffset key.bytes

def setLowest : Page :=
  write page (dataOffset + schema.getPrimaryKeyLength) key.bytes

variable (k : DynamicCompoundKey schema)

/-- The loop from `last_index` as a `uint16_t` down to the position of the key. -/
def searchRecords :
    Nat × Bool :=
  let right := (lastIndex page % 65536).toNat
  BinarySearch.search (fun i => k.compare (getRecordKeyByIndex schema page i)) right 0 right

/-! ### Stores -/

/-- What a store leaves behind: the page, the calls of `Append`, and whether the
page is full. -/
structure StoreResult where
  page : Page
  changes : List PageChange
  full : Bool

/-- The loop that moves `n` records from `index` on one place to the right. -/
def shiftRecords (schema : RecordSchema) (index : Nat) : Nat → Page → Page
  | 0, page => page
  | n + 1, page =>
      shiftRecords schema index n
        (setRecordByIndex page (index + n + 1) (getRecordKeyByIndex schema page (index + n))
          (getRecordValueByIndex page (index + n)))

/-- Where `internal_page_store` inserts; meeting the key throws. -/
def internalInsertIndex :
    Option Nat :=
  let found := searchRecords page k
  if k.compare (getRecordKeyByIndex schema page 0) = .lt then some 0
  else if found.2 then none
  else some (found.1 + 1)

def internalStoreOps
    (value insertIndex : Nat) : List DecodedOp :=
  (if insertIndex < count page then
    [.memmove (recordOffset page insertIndex + recordSize page) (recordOffset page insertIndex)
      ((count page - insertIndex) * recordSize page)]
  else []) ++
  [.update (recordOffset page insertIndex) k.bytes,
    .update (recordOffset page insertIndex + keySize page) (natLE 8 value),
    .update lastIndexOffset (lastIndexBytes (lastIndex page + 1))]

/-- `InternalPage::internal_page_store`; `none` is the exception, which leaves the
page as it was. -/
def internalPageStore (pageAddr : Nat)
    (k : DynamicCompoundKey schema) (value : Nat) (redoLogger : Bool) : Option StoreResult :=
  (internalInsertIndex page k).map fun insertIndex =>
    let newPageVersion := (pVersion page + 1) % 2 ^ 64
    let shifted := shiftRecords schema insertIndex (count page - insertIndex)
      (resetDirtyBounds page)
    let stored := setRecordByIndex shifted insertIndex k value
    let stored := setLastIndex stored (lastIndex page + 1)
    let stored := setPVersion stored newPageVersion
    { page := stored
      changes :=
        if redoLogger then
          [⟨pageAddr, newPageVersion, internalStoreOps page k value insertIndex⟩]
        else []
      full := count page + 1 = kCardinality page }

/-- What the search of `leaf_page_store` decides: a new record at `index`, or an
update of the one there. -/
inductive LeafPosition where
  | insert (index : Nat)
  | update (index : Nat)
  deriving DecidableEq

variable (v : List UInt8)

/-- The search of `leaf_page_store`; when it meets the key it has already copied
the record. -/
def leafSearched
    : Page × LeafPosition :=
  if lastIndex page = -1 then (page, .insert 0)
  else
    let found := searchRecords page k
    let left := found.1
    let page :=
      if found.2 then write page (recordOffset page left) (v.take (recordSize page)) else page
    match k.compare (getRecordKeyByIndex schema page left) with
    | .gt => (page, .insert (left + 1))
    | .lt => (page, .insert 0)
    | .eq => (page, .update left)

def leafStoreOps (insertIndex : Nat) : List DecodedOp :=
  (if (insertIndex : Int) ≤ lastIndex page then
    [.memmove (recordOffset page insertIndex + recordSize page) (recordOffset page insertIndex)
      ((count page - insertIndex) * recordSize page)]
  else []) ++
  [.update (recordOffset page insertIndex) (v.take (recordSize page)),
    .update lastIndexOffset (lastIndexBytes (lastIndex page + 1))]

def leafInsert (insertIndex : Nat) (redoLogger : Bool)
    (pageAddr : Nat) : StoreResult :=
  let newPageVersion := (pVersion page + 1) % 2 ^ 64
  let moved :=
    if (insertIndex : Int) ≤ lastIndex page then
      move page (recordOffset page insertIndex + recordSize page) (recordOffset page insertIndex)
        ((count page - insertIndex) * recordSize page)
    else page
  let stored := write moved (recordOffset page insertIndex) v
  let stored := setLastIndex stored (lastIndex page + 1)
  let stored := setPVersion stored newPageVersion
  { page := stored
    changes :=
      if redoLogger ∧ pageAddr ≠ 0 then
        [⟨pageAddr, newPageVersion, leafStoreOps page v insertIndex⟩]
      else []
    full := count page + 1 = kCardinality page }

/-- `LeafPage::leaf_page_store`.  An update copies the record once more and returns;
nothing of it is logged and the version stays. -/
def leafPageStore
    (redoLogger : Bool) (pageAddr : Nat) : StoreResult :=
  match leafSearched page k v with
  | (page, .insert insertIndex) => leafInsert page v insertIndex redoLogger pageAddr
  | (page, .update index) =>
      { page := write page (recordOffset page index) (v.take (recordSize page))
        changes := []
        full := count page = kCardinality page }

/-! ### Deletes -/

structure DeleteResult where
  page : Page
  changes : List PageChange
  findValue : Bool

def leafDeleteOps : List DecodedOp :=
  let moveSize := (lastIndex page - index).toNat * recordSize page
  (if 0 < moveSize then
    [.memmove (recordOffset page index) (recordOffset page index + recordSize page) moveSize]
  else []) ++
  [.update lastIndexOffset (lastIndexBytes (lastIndex page - 1))]

/-- The record at `index` is removed; the decision to log reads `find_value` as the
caller left it. -/
def leafRemove (findValue redoLogger : Bool) (pageAddr : Nat) :
    DeleteResult :=
  let newPageVersion := (pVersion page + 1) % 2 ^ 64
  let moved :=
    if (index : Int) ≤ lastIndex page then
      move page (recordOffset page index) (recordOffset page index + recordSize page)
        ((lastIndex page - index).toNat * recordSize page)
    else page
  let removed := setLastIndex moved (lastIndex page - 1)
  let removed := setPVersion removed newPageVersion
  { page := removed
    changes :=
      if redoLogger ∧ pageAddr ≠ 0 ∧ findValue then
        [⟨pageAddr, newPageVersion, leafDeleteOps page index⟩]
      else []
    findValue := true }

/-- `LeafPage::leaf_page_delete`.  It first compares `k` with a key that was never bound to a
buffer; `none` is its crash there.  `findValue` is the caller's `result.find_value`. -/
def leafPageDelete (findValue redoLogger : Bool) (pageAddr : Nat) : Option DeleteResult := do
  let order ← k.compareUnbound
  if order = .lt ∨ lastIndex page = -1 then return leafRemove page 0 findValue redoLogger pageAddr
  let left := (searchRecords page k).1
  if k.compare (getRecordKeyByIndex schema page left) = .eq then
    return leafRemove page left findValue redoLogger pageAddr
  return ⟨page, [], false⟩

end MemoryEngine.Storage
