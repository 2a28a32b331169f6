import MemoryEngine.Storage.LiveContent
import MemoryEngine.Storage.Record

/-! Data pages (`storage/page.h`, `storage/page.cpp`).

A data page has a header, a bitmap of the slots in use, and the slots.  The offsets of
the version and of the dirty bounds are those of an index page. -/
namespace MemoryEngine.Storage

open ByteMemory LogCodec LogReplayer RedoLog List

def dataHeaderSize : Nat := 48
def numberOfRecordsOffset : Nat := 32
def kDataCardinalityOffset : Nat := 36
def tableIdOffset : Nat := 40
def lsnOffset : Nat := 48
def bitmapOffset : Nat := 56

def numberOfRecords (page : Page) : Nat := field page numberOfRecordsOffset 4
def kDataCardinality (page : Page) : Nat := field page kDataCardinalityOffset 4

def bitmapBytes (cardinality : Nat) : Nat := (cardinality + 63) / 64 * 8

/-- `DataPage::calculate_cardinality`. -/
def dataCardinality (pageSize recordSize : Nat) : Nat :=
  8 * (pageSize - bitmapOffset - 8 - 1) / (8 * recordSize + 1)

/-- The formula that `AllocateNewRecord` has instead. -/
def inlineCardinality (recordSize : Nat) : Nat :=
  8 * (kLeafPageSize - bitmapOffset - 8) / (8 * recordSize + 1)

/-- `DataPage(this_page_g_ptr, data_cardinality, id)`, on a buffer with any content. -/
def newDataPage (buffer : Page) (thisPage cardinality tableId : Nat) : Page :=
  let page := setField buffer pTypeOffset 4 5
  let page := setField page thisPageGPtrOffset 8 thisPage
  let page := setField page kDataCardinalityOffset 4 cardinality
  let page := setField page tableIdOffset 4 tableId
  let page := setField page numberOfRecordsOffset 4 0
  let page := setField page lsnOffset 8 0
  let page := resetDirtyBounds (setPVersion page 1)
  fill page bitmapOffset (bitmapBytes cardinality) 0

/-! ### The bitmap -/

def bitmapWord (page : Page) (i : Nat) : Nat := field page (bitmapOffset + 8 * i) 8

/-- The first clear bit of the first `number_of_bits` bits. -/
def findEmptySpot (page : Page) (numberOfBits : Nat) : Option Nat :=
  (List.range ((numberOfBits + 63) / 64)).findSome? fun i =>
    if bitmapWord page i = 2 ^ 64 - 1 then none
    else
      ((List.range (min 64 (numberOfBits - 64 * i))).find? fun j =>
        !(bitmapWord page i).testBit j).map fun j => i * 64 + j

def setBitmap (page : Page) (index : Nat) : Page :=
  setField page (bitmapOffset + 8 * (index / 64)) 8
    (bitmapWord page (index / 64) ||| 2 ^ (index % 64))

structure AllocatedRecord where
  page : Page
  offset : Nat

variable (schema : RecordSchema)

/-- `DataPage::AllocateRecord`; `none` where all slots are in use. -/
def allocateRecord (page : Page) : Option AllocatedRecord :=
  (findEmptySpot page (kDataCardinality page)).map fun emptySlot =>
    { page := setField (setBitmap page emptySlot) numberOfRecordsOffset 4
        ((numberOfRecords page + 1) % 2 ^ 32)
      offset := bitmapOffset + bitmapBytes (kDataCardinality page) +
        emptySlot * schema.getRecordTotalSize }

/-! ### Allocation by transactions and by populators -/

structure Allocation where
  page : Page
  offset : Nat
  changes : List PageChange

/-- `PutWTS(UINT64_MAX)` and `SetVisible(false)` on the new slot. -/
def hideRecord (page : Page) (offset : Nat) : Page :=
  let column := MetaColumn.load page (offset + schema.metaOffset)
  write page (offset + schema.metaOffset)
    { column with wts := 2 ^ 64 - 1, isVisible := 0 }.bytes

/-- The page that `AllocateNewRecord` initialises, and its record. -/
def initDataPage (buffer : Page) (pageAddr tableId : Nat) :
    Page × List PageChange :=
  let cardinality := inlineCardinality schema.getRecordTotalSize
  let page := setPVersion (newDataPage buffer pageAddr cardinality tableId) 1
  (page, [⟨pageAddr, 1, copyOps page
    [(headerOffset, dataHeaderSize), (bitmapOffset, bitmapBytes cardinality)]⟩])

/-- `AllocateNewRecord` in the opened page, with the log enabled. -/
def allocateInPage (page : Page) (pageAddr : Nat) : Option Allocation :=
  (allocateRecord schema page).map fun allocated =>
    let newPageVersion := (pVersion allocated.page + 1) % 2 ^ 64
    let page := setPVersion allocated.page newPageVersion
    { page := hideRecord schema page allocated.offset
      offset := allocated.offset
      changes := [⟨pageAddr, newPageVersion, copyOps page
        [(bitmapOffset, bitmapBytes (kDataCardinality page)), (numberOfRecordsOffset, 4)]⟩] }

/-- `AllocateNewRecord`: in the opened page, or in a new one in `buffer`. -/
def allocateNewRecord (opened : Option Page) (buffer : Page)
    (pageAddr tableId : Nat) : Option Allocation :=
  match opened with
  | some page => allocateInPage schema page pageAddr
  | none =>
      let created := initDataPage schema buffer pageAddr tableId
      (allocateInPage schema created.1 pageAddr).map fun allocation =>
        { allocation with changes := created.2 ++ allocation.changes }

/-- `Table::AllocateNewTuple`, which neither logs nor touches the version. -/
def allocateNewTuple (opened : Option Page) (buffer : Page)
    (pageAddr tableId : Nat) : Option Allocation :=
  let page := match opened with
    | some page => page
    | none => newDataPage buffer pageAddr
        (dataCardinality kLeafPageSize schema.getRecordTotalSize) tableId
  (allocateRecord schema page).map fun allocated => ⟨allocated.page, allocated.offset, []⟩

end MemoryEngine.Storage
