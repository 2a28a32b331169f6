import MemoryEngine.Storage.IndexReplication

/-! New index pages and splits (`storage/page.h`, `btr/Btr.cpp`).

A split fills a new sibling in a fresh buffer, links it to the right of the page and
logs both pages; a new root is logged as a new page. -/
namespace MemoryEngine.Btr

open ByteMemory LogCodec LogReplayer RedoLog Storage

/-! ### Constructors -/

inductive PageType where
  | plain
  | internalP
  | internalS
  | leafP
  | leafS
  | data
  deriving DecidableEq, Repr

def PageType.code : PageType → Nat
  | .plain => 0
  | .internalP => 1
  | .internalS => 2
  | .leafP => 3
  | .leafS => 4
  | .data => 5

def setPType (page : Page) (type : PageType) : Page := setField page pTypeOffset 4 type.code
def level (page : Page) : Nat := field page levelOffset 1
def setLevel (page : Page) (level : Nat) : Page := setField page levelOffset 1 level
def setThisPageGPtr (page : Page) (gaddr : Nat) : Page := setField page thisPageGPtrOffset 8 gaddr
def setGlobalLock (page : Page) (word : Nat) : Page := setField page 0 8 word

/-- `(page_size - data_offset - 2 * key_size - 1) / record_size` on `uint64_t`. -/
def calculateCardinality (pageSize keySize recordSize : Nat) : Nat :=
  (pageSize + 2 ^ 64 - (dataOffset + 2 * keySize + 1) % 2 ^ 64) % 2 ^ 64 / recordSize

variable (schema : RecordSchema)

def leafCardinality : Nat :=
  calculateCardinality kLeafPageSize schema.getPrimaryKeyLength schema.getRecordTotalSize

def internalCardinality : Nat :=
  calculateCardinality kLeafPageSize schema.getPrimaryKeyLength (schema.getPrimaryKeyLength + 8)

variable (buffer : Page)

/-- `Header_Index()`, on a buffer with any content. -/
def headerIndex : Page :=
  let page := resetDirtyBounds (setPType buffer .plain)
  let page := setSiblingPtr (setLeftmostPtr page 0) 0
  setLastIndex (setPVersion page 1) (-1)

def setSizes (page : Page) (keySize recordSize cardinality : Nat) : Page :=
  setField (setField (setField page keySizeOffset 4 keySize) recordSizeOffset 4 recordSize)
    kCardinalityOffset 2 cardinality

def setFences (page : Page) : Page :=
  setLowest (setHighest page (.maxValue schema)) (.minValue schema)

/-- `LeafPage(this_page_g_ptr, leaf_cardinality, schema, level)`. -/
def newLeafPage (thisPage level : Nat) : Page :=
  let page := setLevel (setPType (headerIndex buffer) .leafP) level
  let page := setSizes page schema.getPrimaryKeyLength schema.getRecordTotalSize
    (leafCardinality schema)
  setFences schema (setPVersion (setThisPageGPtr page thisPage) 1)

/-- `InternalPage(this_page_g_ptr, schema, level)`. -/
def newInternalPage (thisPage level : Nat) : Page :=
  let page := setSizes (headerIndex buffer) schema.getPrimaryKeyLength
    (schema.getPrimaryKeyLength + 8) (internalCardinality schema)
  let page := setLevel (setPType page .internalS) level
  let page := setRecordByIndex page 0 (.minValue schema) 0
  setFences schema (setPVersion (setThisPageGPtr page thisPage) 1)

/-- `InternalPage(left, key, right, this_page_g_ptr, cardinality, schema, level)`. -/
def newRootPage {schema : RecordSchema} (left : Nat)
    (key : DynamicCompoundKey schema) (right thisPage level : Nat) : Page :=
  let page := setSizes (headerIndex buffer) schema.getPrimaryKeyLength
    (schema.getPrimaryKeyLength + 8) (internalCardinality schema)
  let page := setLevel (setLeftmostPtr (setPType page .internalP) left) level
  let page := setLastIndex (setRecordByIndex page 0 key right) 0
  setFences schema (setPVersion (setThisPageGPtr page thisPage) 1)

/-! ### Logging -/

/-- `last_index`, `sibling_ptr` and the highest key. -/
def oldPageBlocks (page : Page) : List (Nat × Nat) :=
  [(lastIndexOffset, 2), (siblingPtrOffset, 8), (dataOffset, keySize page)]

/-- The header, both fence keys, and the records if there are any. -/
def newPageBlocks (page : Page) : List (Nat × Nat) :=
  [(headerOffset, headerSize), (dataOffset + keySize page, keySize page),
    (dataOffset, keySize page)] ++
  (if 0 < lastIndex page + 1 then [(recordsOffset page, count page * recordSize page)] else [])

def newPageChange (pageAddr : Nat) (page : Page) : PageChange :=
  ⟨pageAddr, 1, copyOps page (newPageBlocks page)⟩

structure SplitResult where
  page : Page
  sibling : Page
  changes : List PageChange

/-- The common body of the two functions below.  The version of the old page is
updated whether or not there is a logger. -/
def logPageSplit (redoLogger : Bool) (pageAddr : Nat) (page : Page) (siblingAddr : Nat)
    (sibling : Page) : SplitResult :=
  let newPageVersion := (pVersion page + 1) % 2 ^ 64
  let page := setPVersion page newPageVersion
  { page := page
    sibling := sibling
    changes :=
      if redoLogger then
        [⟨pageAddr, newPageVersion, copyOps page (oldPageBlocks page)⟩,
          newPageChange siblingAddr sibling]
      else [] }

def logLeafPageSplit := logPageSplit
def logInternalPageSplit := logPageSplit

/-- `LogNewRootPage` after the constructor, as `update_new_root` runs them on a
buffer of zeros. -/
def updateNewRoot {schema : RecordSchema} (left : Nat) (k : DynamicCompoundKey schema)
    (right newRootAddr level : Nat) (redoLogger : Bool) : Page × List PageChange :=
  let page := newRootPage (fun _ => 0) left k right newRootAddr level
  if redoLogger then
    let page := setPVersion page 1
    (page, [newPageChange newRootAddr page])
  else (page, [])

/-! ### Splits -/

/-- Every turn of the loop copies all the records from `m` on. -/
def copyUpperHalf (page : Page) (m cnt : Nat) (sibling : Page) : Page :=
  (List.range (cnt - m)).foldl
    (fun sibling _ => write sibling (dataOffset + 2 * keySize page)
      (read page (recordOffset page m)
        ((lastIndex page - m + 1).toNat * schema.getRecordTotalSize)))
    sibling

variable (page buffer : Page)

def leafSibling (siblingAddr cnt : Nat) : Page :=
  let m := cnt / 2
  let sibling := setGlobalLock (newLeafPage schema buffer siblingAddr (level page)) 0
  let sibling := copyUpperHalf schema page m cnt sibling
  let sibling := setLastIndex sibling ((cnt : Int) - m - 1)
  let sibling := setLowest sibling (getRecordKeyByIndex schema page m)
  let sibling := setHighest sibling (getHighest schema page)
  setSiblingPtr sibling (siblingPtr page)

/-- The split of `Btr::leaf_page_store`. -/
def leafPageSplit (pageAddr siblingAddr cnt : Nat)
    (redoLogger : Bool) : SplitResult :=
  let m := cnt / 2
  let sibling := leafSibling schema page buffer siblingAddr cnt
  let splitKey := getRecordKeyByIndex schema page m
  let page := setLastIndex page (lastIndex page - ((cnt : Int) - m))
  let page := setSiblingPtr (setHighest page splitKey) siblingAddr
  logLeafPageSplit redoLogger pageAddr page siblingAddr sibling

/-- The loop that copies the records after `m`. -/
def copyRecords (page : Page) (m cnt : Nat) (sibling : Page) : Page :=
  (List.range (cnt - (m + 1))).foldl
    (fun sibling i => setRecordByIndex sibling i (getRecordKeyByIndex schema page (m + 1 + i))
      (getRecordValueByIndex page (m + 1 + i)))
    sibling

/-- The sibling of an internal page.  The key of record `m` goes up and its address
becomes the leftmost child. -/
def internalSibling (siblingAddr cnt : Nat) : Page :=
  let m := cnt / 2
  let sibling := setGlobalLock (newInternalPage schema buffer siblingAddr (level page)) 0
  let sibling := setLastIndex sibling ((cnt : Int) - m - 1 - 1)
  let sibling := copyRecords schema page m cnt sibling
  let sibling := setLeftmostPtr sibling (getRecordValueByIndex page m)
  let sibling := setLowest sibling (getRecordKeyByIndex schema page m)
  let sibling := setHighest sibling (getHighest schema page)
  setSiblingPtr sibling (siblingPtr page)

/-- The split of `Btr::internal_page_store`. -/
def internalPageSplit
    (pageAddr siblingAddr cnt : Nat) (redoLogger : Bool) : SplitResult :=
  let m := cnt / 2
  let sibling := internalSibling schema page buffer siblingAddr cnt
  let splitKey := getRecordKeyByIndex schema page m
  let page := setLastIndex page (lastIndex page - ((cnt : Int) - m))
  let page := setSiblingPtr (setHighest page splitKey) siblingAddr
  logInternalPageSplit redoLogger pageAddr page siblingAddr sibling

end MemoryEngine.Btr
