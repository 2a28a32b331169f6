import MemoryEngine.Txn.Commit
import Mathlib.Algebra.Order.BigOperators.Group.List

/-! Rolling a record back with a delta record (`storage/Record.h`).

A delta holds the columns that a commit overwrote, as they were before, and the old
metadata.  Rolling the new record back with it gives the old record, byte by byte. -/
namespace MemoryEngine.Storage

open ByteMemory List

/-- The loop of `roll_back` over the serialized columns. -/
def rollBackColumns (schema : RecordSchema) : Nat → List UInt8 → Memory → Memory
  | 0, _, data => data
  | fuel + 1, bytes, data =>
      if bytes = [] then data
      else
        let columnId := ofLE (bytes.take 8)
        let columnSize := ofLE ((bytes.drop 8).take 8)
        let rest := bytes.drop 16
        rollBackColumns schema fuel (rest.drop columnSize)
          (write data (schema.getColumnOffset columnId) (rest.take columnSize))

def Record.rollBack (schema : RecordSchema) (record : Record) (delta : DeltaRecord) : Record :=
  let bytes := delta.data.take (delta.currentRecordDataSize - Record.deltaHeaderSize)
  let record := { record with data := rollBackColumns schema bytes.length bytes record.data }
  record.putMeta schema { record.getMeta schema with
    wts := delta.wts
    prevVersion := delta.prevDeltaGaddr
    prevDeltaEpoch := delta.prevDeltaEpoch
    prevDeltaDataSize := delta.prevDeltaDataSize }

section Columns

variable {schema : RecordSchema}

def InColumns (schema : RecordSchema) (colIds : List Nat) (offset : Nat) : Prop :=
  ∃ colId ∈ colIds, schema.getColumnOffset colId ≤ offset ∧
    offset < schema.getColumnOffset colId + schema.getColumnSize colId

/-- The columns of a list, one after the other, as `serialize_to_delta` writes them. -/
def columnImages (schema : RecordSchema) (colIds : List Nat) (data : Memory) : List UInt8 :=
  colIds.flatMap fun colId =>
    natLE 8 colId ++ natLE 8 (schema.getColumnSize colId) ++
      read data (schema.getColumnOffset colId) (schema.getColumnSize colId)

theorem columnImages_length (colIds : List Nat) (data : Memory) :
    (columnImages schema colIds data).length =
      (colIds.map fun colId => 8 * 2 + schema.getColumnSize colId).sum := by
  induction colIds with
  | nil => rfl
  | cons colId colIds ih =>
    rw [columnImages, flatMap_cons, length_append, ← columnImages, ih, map_cons,
      sum_cons, length_append, length_append, natLE_length, natLE_length,
      read_length]

/-- Sizes and numbers of columns fit in a `size_t`. -/
def ColumnsFit (schema : RecordSchema) (colIds : List Nat) : Prop :=
  ∀ colId ∈ colIds, colId < 2 ^ 64 ∧ schema.getColumnSize colId < 2 ^ 64

theorem ofLE_word {value : Nat} (h : value < 2 ^ 64) (rest : List UInt8) :
    ofLE ((natLE 8 value ++ rest).take 8) = value := by
  rw [take_left' (natLE_length 8 value)]
  exact ofLE_natLE_of_lt (Nat.lt_of_lt_of_eq h (by decide))

theorem drop_word (value : Nat) (rest : List UInt8) : (natLE 8 value ++ rest).drop 8 = rest :=
  drop_left' (natLE_length 8 value)

theorem rollBackColumns_cons (old : Memory) {colId : Nat} (hid : colId < 2 ^ 64)
    (hsize : schema.getColumnSize colId < 2 ^ 64) (colIds : List Nat) (fuel : Nat) (data : Memory) :
    rollBackColumns schema (fuel + 1) (columnImages schema (colId :: colIds) old) data =
      rollBackColumns schema fuel (columnImages schema colIds old)
        (write data (schema.getColumnOffset colId)
          (read old (schema.getColumnOffset colId) (schema.getColumnSize colId))) := by
  have himages : columnImages schema (colId :: colIds) old =
      natLE 8 colId ++ (natLE 8 (schema.getColumnSize colId) ++
        (read old (schema.getColumnOffset colId) (schema.getColumnSize colId) ++
          columnImages schema colIds old)) := by
    rw [columnImages, flatMap_cons, ← columnImages, append_assoc, append_assoc]
  rw [himages, rollBackColumns, if_neg (by simp [natLE])]
  simp only [show 16 = 8 + 8 from rfl, ← drop_drop, drop_word, ofLE_word hid, ofLE_word hsize]
  rw [take_left' (read_length _ _ _), drop_left' (read_length _ _ _)]

theorem rollBackColumns_columnImages (old : Memory) {colIds : List Nat}
    (hfit : ColumnsFit schema colIds) :
    ∀ {fuel : Nat} {set : Nat → Prop} {data : Memory}, colIds.length ≤ fuel →
      AgreeIn set data old →
      AgreeIn (fun offset => set offset ∨ InColumns schema colIds offset)
        (rollBackColumns schema fuel (columnImages schema colIds old) data) old := by
  induction colIds with
  | nil =>
    intro fuel set data _ h
    have hloop : rollBackColumns schema fuel (columnImages schema [] old) data = data := by
      cases fuel with
      | zero => rfl
      | succ fuel => exact if_pos rfl
    rw [hloop]
    refine h.mono fun offset hoff => hoff.resolve_right ?_
    rintro ⟨colId, hmem, -⟩
    cases hmem
  | cons colId colIds ih =>
    intro fuel set data hfuel h
    obtain ⟨fuel, rfl⟩ : ∃ rest, fuel = rest + 1 := by
      cases fuel with
      | zero => simp at hfuel
      | succ rest => exact ⟨rest, rfl⟩
    obtain ⟨hid, hsize⟩ := hfit colId mem_cons_self
    have hrest : ColumnsFit schema colIds := fun other hmem => hfit other (mem_cons_of_mem _ hmem)
    have hstep := rollBackColumns_cons old hid hsize colIds fuel data
    rw [hstep]
    have hwrit := h.write_read (schema.getColumnOffset colId) (schema.getColumnSize colId)
    refine (ih hrest (by simpa using hfuel) hwrit).mono fun offset hoff => ?_
    rcases hoff with hset | ⟨other, hmem, hin⟩
    · exact .inl (.inl hset)
    · rcases mem_cons.mp hmem with rfl | hmem
      · exact .inl (.inr hin)
      · exact .inr ⟨other, hmem, hin⟩

end Columns

/-! ### Metadata of a written record -/

theorem natLE_inj {width first second : Nat} (h : natLE width first = natLE width second)
    (hfirst : first < 256 ^ width) : first = second % 256 ^ width := by
  have hvalue := congrArg ofLE h
  rwa [ofLE_natLE_of_lt hfirst, ofLE_natLE] at hvalue

theorem MetaColumn.load_write (data : Memory) (start : Nat) (column : MetaColumn) :
    load (write data start column.bytes) start =
      { wts := column.wts % 256 ^ 8
        prevVersion := column.prevVersion % 256 ^ 8
        prevDeltaEpoch := column.prevDeltaEpoch % 256 ^ 8
        prevDeltaDataSize := column.prevDeltaDataSize % 256 ^ 4
        nextVersionTs := column.nextVersionTs % 256 ^ 8
        isVisible := column.isVisible } := by
  generalize hmemory : write data start column.bytes = memory
  have hbytes : (load memory start).bytes = column.bytes := by
    have hread := read_write_same data start column.bytes
    rw [column.bytes_length, hmemory] at hread
    rw [bytes_load, hread]
  have hfits : ∀ offset width, ofLE (read memory offset width) < 256 ^ width := fun offset width =>
    Nat.lt_of_lt_of_eq (ofLE_lt _) (by rw [read_length])
  -- The fields are taken off from the last one on.
  obtain ⟨hbytes, hvis⟩ := append_inj' hbytes rfl
  obtain ⟨hbytes, hnext⟩ := append_inj' hbytes (by simp)
  obtain ⟨hbytes, hsize⟩ := append_inj' hbytes (by simp)
  obtain ⟨hbytes, hepoch⟩ := append_inj' hbytes (by simp)
  obtain ⟨hwts, hprev⟩ := append_inj' hbytes (by simp)
  have hwts := natLE_inj hwts (hfits start 8)
  have hprev := natLE_inj hprev (hfits (start + 8) 8)
  have hepoch := natLE_inj hepoch (hfits (start + 16) 8)
  have hsize := natLE_inj hsize (hfits (start + 24) 4)
  have hnext := natLE_inj hnext (hfits (start + 28) 8)
  rw [← hwts, ← hprev, ← hepoch, ← hsize, ← hnext, ← singleton_injective hvis]

theorem MetaColumn.load_congr {left right : Memory} {start : Nat}
    (h : AgreeOn left right start kMetaSize) : load left start = load right start := by
  have hread : ∀ offset width, offset + width ≤ kMetaSize →
      read left (start + offset) width = read right (start + offset) width :=
    fun offset width hle => read_congr (h.mono (by omega) (by omega))
  have hvis : left (start + 36) = right (start + 36) :=
    h _ (by omega) (by simp only [kMetaSize]; omega)
  have hwts : read left start 8 = read right start 8 := hread 0 8 (by decide)
  simp only [load, hvis, hwts, hread 8 8 (by decide), hread 16 8 (by decide),
    hread 24 4 (by decide), hread 28 8 (by decide)]

theorem MetaColumn.load_lt (data : Memory) (start : Nat) :
    (load data start).wts < 256 ^ 8 ∧ (load data start).prevVersion < 256 ^ 8 ∧
      (load data start).prevDeltaEpoch < 256 ^ 8 ∧ (load data start).prevDeltaDataSize < 256 ^ 4 ∧
      (load data start).nextVersionTs < 256 ^ 8 := by
  have hfits : ∀ offset width, ofLE (read data offset width) < 256 ^ width := fun offset width =>
    Nat.lt_of_lt_of_eq (ofLE_lt _) (by rw [read_length])
  exact ⟨hfits _ 8, hfits _ 8, hfits _ 8, hfits _ 4, hfits _ 8⟩

section Meta

variable {schema : RecordSchema}

theorem putMeta_data_eq (h : schema.MetaLast) (record : Record) (column : MetaColumn) :
    (record.putMeta schema column).data = write record.data schema.metaOffset column.bytes := by
  have htake : column.bytes.take (schema.getColumnSize schema.getMetaColumnId) = column.bytes := by
    rw [h.metaSize_eq]
    exact take_of_length_le (Nat.le_of_eq column.bytes_length)
  simp only [Record.putMeta, Record.setColumn, htake, RecordSchema.metaOffset]

theorem bytes_eq_of_tail (column : MetaColumn) {data old : Memory} {start : Nat}
    (hwts : column.wts = (MetaColumn.load old start).wts)
    (hprev : column.prevVersion = (MetaColumn.load old start).prevVersion)
    (hepoch : column.prevDeltaEpoch = (MetaColumn.load old start).prevDeltaEpoch)
    (hsize : column.prevDeltaDataSize = (MetaColumn.load old start).prevDeltaDataSize)
    (hnext : column.nextVersionTs = (MetaColumn.load data start).nextVersionTs)
    (hvis : column.isVisible = (MetaColumn.load data start).isVisible)
    (htail : AgreeOn data old (start + 28) 9) : column.bytes = read old start kMetaSize := by
  have hlast : column = MetaColumn.load old start := by
    have hread : read data (start + 28) 8 = read old (start + 28) 8 :=
      read_congr (htail.mono (Nat.le_refl _) (by omega))
    have hbyte : data (start + 36) = old (start + 36) := htail _ (by omega) (by omega)
    cases column
    simp only [MetaColumn.load] at hwts hprev hepoch hsize hnext hvis ⊢
    rw [hwts, hprev, hepoch, hsize, hnext, hvis, hread, hbyte]
  rw [hlast, MetaColumn.bytes_load]

theorem agreeOn_putMeta_tail (h : schema.MetaLast) (record : Record) (column : MetaColumn)
    (hnext : column.nextVersionTs = (record.getMeta schema).nextVersionTs)
    (hvis : column.isVisible = (record.getMeta schema).isVisible) :
    AgreeIn (fun offset => offset < schema.metaOffset ∨ schema.metaOffset + 28 ≤ offset)
      (record.putMeta schema column).data record.data := by
  rw [putMeta_data_eq h]
  let front := natLE 8 column.wts ++ natLE 8 column.prevVersion ++
    natLE 8 column.prevDeltaEpoch ++ natLE 4 column.prevDeltaDataSize
  have hfront : front.length = 28 := by simp [front]
  have htail : natLE 8 column.nextVersionTs ++ [column.isVisible] =
      read record.data (schema.metaOffset + 28) 9 := by
    have hbytes := natLE_ofLE (read record.data (schema.metaOffset + 28) 8)
    have hflag : read record.data (schema.metaOffset + 28 + 8) 1 =
        [record.data (schema.metaOffset + 36)] := by
      rw [read_succ, read_zero]
    rw [show 9 = 8 + 1 from rfl, read_add, hflag, hnext, hvis]
    exact congrArg (· ++ _) hbytes
  have hbytes : column.bytes = front ++ read record.data (schema.metaOffset + 28) 9 := by
    rw [← htail, ← append_assoc]
    rfl
  rw [hbytes, write_append, hfront]
  have hkept : AgreeIn (fun offset => offset < schema.metaOffset ∨ schema.metaOffset + 28 ≤ offset)
      (write record.data schema.metaOffset front) record.data :=
    AgreeIn.write_left (fun _ _ => rfl) fun offset hoff => by
      exact hoff
  exact (hkept.write_read (schema.metaOffset + 28) 9).mono fun offset hoff => .inl hoff

theorem getMeta_putMeta (h : schema.MetaLast) (record : Record) (column : MetaColumn) :
    (record.putMeta schema column).getMeta schema =
      { wts := column.wts % 256 ^ 8
        prevVersion := column.prevVersion % 256 ^ 8
        prevDeltaEpoch := column.prevDeltaEpoch % 256 ^ 8
        prevDeltaDataSize := column.prevDeltaDataSize % 256 ^ 4
        nextVersionTs := column.nextVersionTs % 256 ^ 8
        isVisible := column.isVisible } := by
  rw [Record.getMeta, putMeta_data_eq h]
  exact MetaColumn.load_write record.data schema.metaOffset column

end Meta

/-! ### Restoring a row -/

structure DeltaRecord.Saves (delta : DeltaRecord) (schema : RecordSchema) (colIds : List Nat)
    (old : Memory) : Prop where
  columns : delta.data.take (delta.currentRecordDataSize - Record.deltaHeaderSize) =
    columnImages schema colIds old
  wts : delta.wts = (MetaColumn.load old schema.metaOffset).wts
  prevVersion : delta.prevDeltaGaddr = (MetaColumn.load old schema.metaOffset).prevVersion
  prevEpoch : delta.prevDeltaEpoch = (MetaColumn.load old schema.metaOffset).prevDeltaEpoch
  prevSize : delta.prevDeltaDataSize = (MetaColumn.load old schema.metaOffset).prevDeltaDataSize

section Restore

variable {schema : RecordSchema} {old : Memory} {colIds : List Nat} {delta : DeltaRecord}

theorem length_le_columnImages (schema : RecordSchema) (colIds : List Nat) (data : Memory) :
    colIds.length ≤ (columnImages schema colIds data).length := by
  rw [columnImages_length]
  induction colIds with
  | nil => exact Nat.le_refl _
  | cons colId colIds ih =>
    rw [map_cons, sum_cons, length_cons]
    omega

theorem write_meta_eq {data : Memory} {start : Nat} {column : MetaColumn}
    (h : AgreeIn (fun offset => offset < start ∨ start + 28 ≤ offset) data old)
    (hbytes : column.bytes = read old start kMetaSize) : write data start column.bytes = old := by
  rw [hbytes]
  funext offset
  refine h.write_read start kMetaSize offset ?_
  simp only [kMetaSize]
  omega

theorem Record.rollBack_of_saves (hmeta : schema.MetaLast) (hfit : ColumnsFit schema colIds)
    (hsaves : delta.Saves schema colIds old) {record : Record}
    (h : AgreeIn (fun offset => ¬ InColumns schema colIds offset ∧
      (offset < schema.metaOffset ∨ schema.metaOffset + 28 ≤ offset)) record.data old) :
    (record.rollBack schema delta).data = old := by
  obtain ⟨hbytes, hwts, hprev, hepoch, hsize⟩ := hsaves
  rw [Record.rollBack, hbytes, putMeta_data_eq hmeta]
  -- The saved columns are back, so only the first fields of the metadata may differ.
  have hcols := rollBackColumns_columnImages old hfit
    (length_le_columnImages schema colIds old) h
  have hout := hcols.mono
    fun offset (hoff : offset < schema.metaOffset ∨ schema.metaOffset + 28 ≤ offset) => by
      by_cases hin : InColumns schema colIds offset
      · exact .inr hin
      · exact .inl ⟨hin, hoff⟩
  refine write_meta_eq hout ?_
  exact bytes_eq_of_tail _ hwts hprev hepoch hsize rfl rfl
    (hout.agreeOn fun offset hge _ => .inr hge)

end Restore

end MemoryEngine.Storage

namespace MemoryEngine.Txn

open ByteMemory Storage

/-! ### Undoing a commit -/

/-- A row is stored in one page. -/
structure Rows (schema : RecordSchema) : Prop where
  metaLast : schema.MetaLast
  small : schema.getRecordTotalSize ≤ RedoLog.kLeafPageSize

/-- A local copy of a row that was changed through `SetColumn` and `SetVisible`. -/
structure CopyOf (schema : RecordSchema) (base : Memory) (tuple : Storage.Record) : Prop where
  outside : AgreeIn (fun offset => ¬ InColumns schema tuple.dirtyColIds offset) tuple.data base
  known : ∀ colId ∈ tuple.dirtyColIds, colId < schema.columns.length
  sorted : tuple.dirtyColIds.Pairwise (· < ·)

section Undo

variable {schema : RecordSchema} {base : Memory} {access : Access}

theorem Rows.columnSize_le (h : Rows schema) {colId : Nat}
    (hknown : colId < schema.columns.length) :
    schema.getColumnSize colId ≤ RedoLog.kLeafPageSize := by
  have hwithin := schema.column_within hknown
  have hsmall := h.small
  omega

theorem Rows.columnsFit (h : Rows schema) {colIds : List Nat}
    (hknown : ∀ colId ∈ colIds, colId < schema.columns.length) : ColumnsFit schema colIds := by
  intro colId hmem
  have hlt := hknown colId hmem
  have hfew := h.metaLast.few
  have hsize := h.columnSize_le hlt
  simp only [RedoLog.kLeafPageSize] at hsize
  exact ⟨by omega, by omega⟩

/-- A row has at most 64 columns of at most a page. -/
theorem Rows.estimate_lt (h : Rows schema) {tuple : Storage.Record}
    (hcopy : CopyOf schema base tuple) : tuple.estimateDeltaSize schema < 2 ^ 32 := by
  have hnodup : tuple.dirtyColIds.Nodup := hcopy.sorted.imp Nat.ne_of_lt
  have hmany : tuple.dirtyColIds.length ≤ schema.columns.length := by
    have hsub := (List.subperm_of_subset hnodup fun colId hmem =>
      List.mem_range.mpr (hcopy.known colId hmem)).length_le
    rwa [List.length_range] at hsub
  have hfew := h.metaLast.few
  have hsum := List.sum_le_card_nsmul
    (tuple.dirtyColIds.map fun colId => 8 * 2 + schema.getColumnSize colId)
    (8 * 2 + RedoLog.kLeafPageSize) (by
      intro size hmem
      obtain ⟨colId, hcol, rfl⟩ := List.mem_map.mp hmem
      exact Nat.add_le_add_left (h.columnSize_le (hcopy.known colId hcol)) _)
  simp only [List.length_map, nsmul_eq_mul, Nat.cast_id, RedoLog.kLeafPageSize] at hsum
  unfold Storage.Record.estimateDeltaSize Storage.Record.deltaHeaderSize
  omega

theorem agreeIn_updated (h : access.schema.MetaLast) (commitTs : Nat) (slot : DeltaSlot) :
    AgreeIn (fun offset => offset < access.schema.metaOffset ∨
        access.schema.metaOffset + 28 ≤ offset)
      (updated commitTs access slot).tuple.data access.tuple.data := by
  exact agreeOn_putMeta_tail h ⟨access.tuple.data, []⟩ _ rfl rfl

theorem fillInDeltaRecordSingle_saves {tuple : Storage.Record}
    (hsmall : tuple.estimateDeltaSize schema < 2 ^ 32) (base : Memory) (commitTs : Nat) :
    (fillInDeltaRecordSingle schema tuple ⟨base, []⟩ commitTs).1.Saves schema tuple.dirtyColIds
      base where
  columns := by
    have hsize :
      (fillInDeltaRecordSingle schema tuple ⟨base, []⟩ commitTs).1.currentRecordDataSize =
        tuple.estimateDeltaSize schema := Nat.mod_eq_of_lt hsmall
    rw [hsize]
    refine List.take_of_length_le (Nat.le_of_eq ?_)
    exact (columnImages_length _ _).trans (Nat.add_sub_cancel _ _).symm
  wts := rfl
  prevVersion := rfl
  prevEpoch := rfl
  prevSize := rfl

theorem rollBack_updated (hrows : Rows access.schema)
    (hcopy : CopyOf access.schema base access.tuple)
    (commitTs : Nat) (slot : DeltaSlot) (colIds : List Nat) :
    (Storage.Record.rollBack access.schema ⟨(updated commitTs access slot).tuple.data, colIds⟩
      (fillInDeltaRecordSingle access.schema access.tuple ⟨base, []⟩ commitTs).1).data = base := by
  refine Storage.Record.rollBack_of_saves hrows.metaLast (hrows.columnsFit hcopy.known)
    (fillInDeltaRecordSingle_saves (hrows.estimate_lt hcopy) base commitTs) fun offset hoff => ?_
  exact (agreeIn_updated hrows.metaLast commitTs slot offset hoff.2).trans
    (hcopy.outside offset hoff.1)

end Undo

end MemoryEngine.Txn
