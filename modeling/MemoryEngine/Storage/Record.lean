import MemoryEngine.Storage.Schema

/-! Records, their metadata column and delta records (`storage/Record.h`,
`storage/ColumnInfo.h`, `txn/DeltaRecord.h`, `txn/DeltaSection.h`). -/
namespace MemoryEngine.Storage

open ByteMemory List

/-! ### The metadata column -/

/-- `MetaColumn` is packed.  The flag `is_visible_` is kept as its byte. -/
structure MetaColumn where
  wts : Nat
  prevVersion : Nat
  prevDeltaEpoch : Nat
  prevDeltaDataSize : Nat
  nextVersionTs : Nat
  isVisible : UInt8
  deriving DecidableEq, Repr

def kMetaSize : Nat := 37

namespace MetaColumn

def bytes (column : MetaColumn) : List UInt8 :=
  natLE 8 column.wts ++ natLE 8 column.prevVersion ++ natLE 8 column.prevDeltaEpoch ++
    natLE 4 column.prevDeltaDataSize ++ natLE 8 column.nextVersionTs ++ [column.isVisible]

def load (memory : Memory) (start : Nat) : MetaColumn where
  wts := ofLE (read memory start 8)
  prevVersion := ofLE (read memory (start + 8) 8)
  prevDeltaEpoch := ofLE (read memory (start + 16) 8)
  prevDeltaDataSize := ofLE (read memory (start + 24) 4)
  nextVersionTs := ofLE (read memory (start + 28) 8)
  isVisible := memory (start + 36)

@[simp] theorem bytes_length (column : MetaColumn) : column.bytes.length = kMetaSize := by
  simp [bytes, kMetaSize]

theorem bytes_load (memory : Memory) (start : Nat) :
    (load memory start).bytes = read memory start kMetaSize := by
  have hfield : ∀ offset width, natLE width (ofLE (read memory offset width)) =
      read memory offset width := fun offset width => by
    have hbytes := natLE_ofLE (read memory offset width)
    rwa [read_length] at hbytes
  have hflag : [memory (start + 36)] = read memory (start + 36) 1 := by
    rw [read_succ, read_zero]
  simp only [bytes, load, hfield, hflag]
  rw [kMetaSize, show 37 = 8 + 8 + 8 + 4 + 8 + 1 from rfl, read_add, read_add, read_add, read_add,
    read_add]

end MetaColumn

variable (schema : RecordSchema)

def RecordSchema.getMetaColumnId : Nat := schema.columns.length - 1

/-! ### Records -/

/-- A buffer and the set of the columns that were written to it, in increasing order. -/
structure Record where
  data : Memory
  dirtyColIds : List Nat

/-- `std::set::insert`. -/
def insertColId (colId : Nat) : List Nat → List Nat
  | [] => [colId]
  | head :: tail =>
      if colId < head then colId :: head :: tail
      else if colId = head then head :: tail
      else head :: insertColId colId tail

namespace Record

variable (schema : RecordSchema) (record : Record)

def getColumn (columnId : Nat) : List UInt8 :=
  read record.data (schema.getColumnOffset columnId) (schema.getColumnSize columnId)

def setColumn (columnId : Nat) (data : List UInt8) : Record where
  data := write record.data (schema.getColumnOffset columnId)
    (data.take (schema.getColumnSize columnId))
  dirtyColIds := insertColId columnId record.dirtyColIds

def getMeta : MetaColumn := .load record.data (schema.getColumnOffset schema.getMetaColumnId)

def putMeta (column : MetaColumn) : Record :=
  record.setColumn schema schema.getMetaColumnId column.bytes

def getWTS : Nat := (record.getMeta schema).wts

def putWTS (wts : Nat) : Record :=
  record.putMeta schema { record.getMeta schema with wts := wts }

/-! ### Delta records -/

/-- `STRUCT_OFFSET(DeltaRecord, data_)` of the packed class. -/
def deltaHeaderSize : Nat := 41

def estimateDeltaSize : Nat :=
  (record.dirtyColIds.map fun colId => 8 * 2 + schema.getColumnSize colId).sum + deltaHeaderSize

def serializeToDelta : List UInt8 :=
  record.dirtyColIds.flatMap fun colId =>
    natLE 8 colId ++ natLE 8 (schema.getColumnSize colId) ++ record.getColumn schema colId

end Record

structure DeltaRecord where
  wts : Nat
  nextDeltaWts : Nat
  prevDeltaGaddr : Nat
  prevDeltaEpoch : Nat
  prevDeltaDataSize : Nat
  currentRecordDataSize : Nat
  data : List UInt8
  deriving DecidableEq, Repr

/-- `fill_in_delta_record_single` in the slot that `AllocateDelta` returned.  The set of
dirty columns moves from the new record to the old one, whose columns are saved.  The constructor
takes the size as a `uint32_t`. -/
def fillInDeltaRecordSingle (newRecord oldRecord : Record)
    (commitTs : Nat) : DeltaRecord × Record :=
  let deltaSize := newRecord.estimateDeltaSize schema
  let metaCol := oldRecord.getMeta schema
  let oldRecord := { oldRecord with dirtyColIds := newRecord.dirtyColIds }
  ({ wts := metaCol.wts
     nextDeltaWts := commitTs
     prevDeltaGaddr := metaCol.prevVersion
     prevDeltaEpoch := metaCol.prevDeltaEpoch
     prevDeltaDataSize := metaCol.prevDeltaDataSize
     currentRecordDataSize := deltaSize % 2 ^ 32
     data := oldRecord.serializeToDelta schema },
    { newRecord with dirtyColIds := [] })

/-! ### Layout -/

/-- The metadata column is the last one, and there are at most `kMaxColumnNum` columns. -/
structure RecordSchema.MetaLast (schema : RecordSchema) : Prop where
  last : schema.columns.getLast? = some ⟨.metadata, kMetaSize⟩
  few : schema.columns.length ≤ 64

section Layout

variable {schema : RecordSchema}

/-- The offset of the metadata column, which is where the other columns end. -/
def RecordSchema.metaOffset : Nat :=
  schema.getColumnOffset schema.getMetaColumnId

theorem RecordSchema.MetaLast.columns_eq (h : schema.MetaLast) :
    ∃ front, schema.columns = front ++ [⟨.metadata, kMetaSize⟩] :=
  ⟨_, (dropLast_append_getLast? _ h.last).symm⟩

theorem RecordSchema.MetaLast.total_eq (h : schema.MetaLast) :
    schema.getRecordTotalSize = schema.metaOffset + kMetaSize := by
  obtain ⟨front, hcols⟩ := h.columns_eq
  simp [RecordSchema.getRecordTotalSize, RecordSchema.metaOffset, RecordSchema.getColumnOffset,
    RecordSchema.getMetaColumnId, hcols]

theorem RecordSchema.MetaLast.metaSize_eq (h : schema.MetaLast) :
    schema.getColumnSize schema.getMetaColumnId = kMetaSize := by
  obtain ⟨front, hcols⟩ := h.columns_eq
  simp [RecordSchema.getColumnSize, RecordSchema.getMetaColumnId, hcols]

theorem RecordSchema.getColumnOffset_succ {columnId : Nat}
    (h : columnId < schema.columns.length) :
    schema.getColumnOffset (columnId + 1) =
      schema.getColumnOffset columnId + schema.getColumnSize columnId := by
  rw [RecordSchema.getColumnOffset, take_add_one, map_append, sum_append,
    RecordSchema.getColumnOffset, RecordSchema.getColumnSize, getElem?_eq_getElem h]
  simp

theorem RecordSchema.getColumnOffset_mono {first second : Nat}
    (h : first ≤ second) : schema.getColumnOffset first ≤ schema.getColumnOffset second := by
  have hsplit := take_append_drop first (schema.columns.take second)
  rw [take_take, Nat.min_eq_left h] at hsplit
  rw [RecordSchema.getColumnOffset, RecordSchema.getColumnOffset, ← hsplit, map_append,
    sum_append]
  omega

theorem RecordSchema.column_within {columnId : Nat}
    (h : columnId < schema.columns.length) :
    schema.getColumnOffset columnId + schema.getColumnSize columnId ≤
      schema.getRecordTotalSize := by
  have hall : schema.getColumnOffset schema.columns.length = schema.getRecordTotalSize := by
    rw [RecordSchema.getColumnOffset, take_length, RecordSchema.getRecordTotalSize]
  rw [← schema.getColumnOffset_succ h, ← hall]
  exact schema.getColumnOffset_mono h

theorem RecordSchema.column_le_metaOffset {columnId : Nat}
    (h : columnId < schema.getMetaColumnId) :
    schema.getColumnOffset columnId + schema.getColumnSize columnId ≤ schema.metaOffset := by
  have hlt : columnId < schema.columns.length := by
    unfold RecordSchema.getMetaColumnId at h
    omega
  rw [← schema.getColumnOffset_succ hlt]
  exact schema.getColumnOffset_mono h

theorem mem_insertColId {colId other : Nat} {ids : List Nat} :
    other ∈ insertColId colId ids ↔ other = colId ∨ other ∈ ids := by
  induction ids with
  | nil => simp [insertColId]
  | cons head tail ih =>
    unfold insertColId
    split
    · simp
    · split
      · rename_i heq
        simp [heq]
      · simp only [mem_cons, ih]
        tauto

theorem insertColId_sorted {colId : Nat} {ids : List Nat} (h : ids.Pairwise (· < ·)) :
    (insertColId colId ids).Pairwise (· < ·) := by
  induction ids with
  | nil => exact pairwise_singleton _ _
  | cons head tail ih =>
    obtain ⟨hhead, htail⟩ := pairwise_cons.mp h
    unfold insertColId
    split
    · rename_i hlt
      refine pairwise_cons.mpr ⟨fun other hmem => ?_, h⟩
      rcases mem_cons.mp hmem with rfl | hmem
      · exact hlt
      · exact Nat.lt_trans hlt (hhead other hmem)
    · split
      · exact h
      · refine pairwise_cons.mpr ⟨fun other hmem => ?_, ih htail⟩
        rcases mem_insertColId.mp hmem with rfl | hmem
        · omega
        · exact hhead other hmem

theorem insertColId_length_le (colId : Nat) (ids : List Nat) :
    (insertColId colId ids).length ≤ ids.length + 1 := by
  induction ids with
  | nil => simp [insertColId]
  | cons head tail ih =>
    unfold insertColId
    split
    · simp
    · split
      · simp
      · simp only [length_cons]
        omega

end Layout

end MemoryEngine.Storage
