import MemoryEngine.Txn.RollBack

/-! Delta records in memory (`txn/DeltaRecord.h`, `storage/Record.h`).

A delta record is a packed header and the images of columns behind it.  `roll_back` walks
over the images with a pointer, up to the end that the header announces. -/
namespace MemoryEngine.Storage

open ByteMemory List

namespace DeltaRecord

/-- The character `&`. -/
def marker : UInt8 := 38

def bytes (delta : DeltaRecord) : List UInt8 :=
  [marker] ++ natLE 8 delta.wts ++ natLE 8 delta.nextDeltaWts ++ natLE 8 delta.prevDeltaGaddr ++
    natLE 8 delta.prevDeltaEpoch ++ natLE 4 delta.prevDeltaDataSize ++
    natLE 4 delta.currentRecordDataSize ++ delta.data

section Fields

variable (memory : Memory) (base : Nat)

def wtsAt : Nat := ofLE (read memory (base + 1) 8)

def nextDeltaWtsAt : Nat := ofLE (read memory (base + 9) 8)

def prevDeltaGaddrAt : Nat := ofLE (read memory (base + 17) 8)

def prevDeltaEpochAt : Nat := ofLE (read memory (base + 25) 8)

def prevDeltaDataSizeAt : Nat := ofLE (read memory (base + 33) 4)

def currentRecordDataSizeAt : Nat := ofLE (read memory (base + 37) 4)

end Fields

theorem bytes_length (delta : DeltaRecord) :
    delta.bytes.length = Record.deltaHeaderSize + delta.data.length := by
  simp only [bytes, length_append, length_singleton, natLE_length, Record.deltaHeaderSize]

end DeltaRecord

/-- The loop of `roll_back`: the pointer when it ends, and the data of the record. -/
def rollBackLoop (schema : RecordSchema) (memory : Memory) (stop : Nat) :
    Nat → Nat → Memory → Nat × Memory
  | 0, start, data => (start, data)
  | fuel + 1, start, data =>
      if start < stop then
        let columnId := ofLE (read memory start 8)
        let columnSize := ofLE (read memory (start + 8) 8)
        rollBackLoop schema memory stop fuel (start + 16 + columnSize)
          (write data (schema.getColumnOffset columnId) (read memory (start + 16) columnSize))
      else (start, data)

/-- `roll_back` with the delta record at an address.  A turn of the loop takes a byte at
least, so as many turns as there are bytes are enough. -/
def Record.rollBackAt (schema : RecordSchema) (record : Record) (memory : Memory) (base : Nat) :
    Nat × Record :=
  let start := base + Record.deltaHeaderSize
  let stop := start + DeltaRecord.currentRecordDataSizeAt memory base - Record.deltaHeaderSize
  let (finish, data) := rollBackLoop schema memory stop stop start record.data
  let record := { record with data := data }
  (finish, record.putMeta schema { record.getMeta schema with
    wts := DeltaRecord.wtsAt memory base
    prevVersion := DeltaRecord.prevDeltaGaddrAt memory base
    prevDeltaEpoch := DeltaRecord.prevDeltaEpochAt memory base
    prevDeltaDataSize := DeltaRecord.prevDeltaDataSizeAt memory base })

/-! ### Reading a delta record back -/

structure DeltaRecord.Fits (delta : DeltaRecord) : Prop where
  wts : delta.wts < 256 ^ 8
  gaddr : delta.prevDeltaGaddr < 256 ^ 8
  epoch : delta.prevDeltaEpoch < 256 ^ 8
  prevSize : delta.prevDeltaDataSize < 256 ^ 4

structure DeltaRecord.HeldAt (delta : DeltaRecord) (memory : Memory) (base : Nat) : Prop where
  marker : memory base = DeltaRecord.marker
  wts : wtsAt memory base = delta.wts
  next : nextDeltaWtsAt memory base = delta.nextDeltaWts % 256 ^ 8
  gaddr : prevDeltaGaddrAt memory base = delta.prevDeltaGaddr
  epoch : prevDeltaEpochAt memory base = delta.prevDeltaEpoch
  prevSize : prevDeltaDataSizeAt memory base = delta.prevDeltaDataSize
  size : currentRecordDataSizeAt memory base = delta.currentRecordDataSize % 256 ^ 4
  data : read memory (base + Record.deltaHeaderSize) delta.data.length = delta.data

section Held

variable {schema : RecordSchema} {memory : Memory} {base : Nat} {delta : DeltaRecord}

theorem ofLE_of_eq_natLE {block : List UInt8} {width value : Nat} (h : block = natLE width value)
    (hlt : value < 256 ^ width) : ofLE block = value := by
  rw [h, ofLE_natLE_of_lt hlt]

theorem DeltaRecord.heldAt_of_read (hfits : delta.Fits)
    (h : read memory base delta.bytes.length = delta.bytes) : delta.HeldAt memory base := by
  have hcut : read memory base delta.bytes.length =
      [memory base] ++ read memory (base + 1) 8 ++ read memory (base + 9) 8 ++
        read memory (base + 17) 8 ++ read memory (base + 25) 8 ++ read memory (base + 33) 4 ++
        read memory (base + 37) 4 ++ read memory (base + 41) delta.data.length := by
    rw [bytes_length, Record.deltaHeaderSize, show 41 = 1 + 8 + 8 + 8 + 8 + 4 + 4 from rfl,
      read_add, read_add, read_add, read_add, read_add, read_add, read_add, read_succ, read_zero]
  rw [hcut, bytes] at h
  -- The fields are taken off from the last one on.
  obtain ⟨h, hdata⟩ := append_inj' h (by simp)
  obtain ⟨h, hsize⟩ := append_inj' h (by simp)
  obtain ⟨h, hprev⟩ := append_inj' h (by simp)
  obtain ⟨h, hepoch⟩ := append_inj' h (by simp)
  obtain ⟨h, hgaddr⟩ := append_inj' h (by simp)
  obtain ⟨h, hnext⟩ := append_inj' h (by simp)
  obtain ⟨hmark, hwts⟩ := append_inj' h (by simp)
  exact {
    marker := singleton_injective hmark
    wts := ofLE_of_eq_natLE hwts hfits.wts
    next := (congrArg ofLE hnext).trans (ofLE_natLE 8 _)
    gaddr := ofLE_of_eq_natLE hgaddr hfits.gaddr
    epoch := ofLE_of_eq_natLE hepoch hfits.epoch
    prevSize := ofLE_of_eq_natLE hprev hfits.prevSize
    size := (congrArg ofLE hsize).trans (ofLE_natLE 4 _)
    data := hdata }

def copyColumns (schema : RecordSchema) (old : Memory) (colIds : List Nat) (data : Memory) :
    Memory :=
  colIds.foldl (fun data colId => write data (schema.getColumnOffset colId)
    (read old (schema.getColumnOffset colId) (schema.getColumnSize colId))) data

variable {colIds : List Nat}

theorem rollBackColumns_eq_copyColumns (old : Memory)
    (hfit : ColumnsFit schema colIds) :
    ∀ {fuel : Nat} {data : Memory}, colIds.length ≤ fuel →
      rollBackColumns schema fuel (columnImages schema colIds old) data =
        copyColumns schema old colIds data := by
  induction colIds with
  | nil =>
    intro fuel data _
    cases fuel with
    | zero => rfl
    | succ fuel => exact if_pos rfl
  | cons colId colIds ih =>
    intro fuel data hfuel
    obtain ⟨fuel, rfl⟩ : ∃ rest, fuel = rest + 1 :=
      ⟨fuel - 1, (Nat.sub_add_cancel (Nat.le_trans (Nat.succ_pos _) hfuel)).symm⟩
    obtain ⟨hid, hsize⟩ := hfit colId mem_cons_self
    rw [rollBackColumns_cons old hid hsize]
    exact ih (fun other hmem => hfit other (mem_cons_of_mem _ hmem)) (by simpa using hfuel)

theorem rollBackLoop_cons (old : Memory) {colId : Nat} (hid : colId < 2 ^ 64)
    (hsize : schema.getColumnSize colId < 2 ^ 64) {start stop : Nat} (hlt : start < stop)
    (hread : read memory start (columnImages schema (colId :: colIds) old).length =
      columnImages schema (colId :: colIds) old) (fuel : Nat) (data : Memory) :
    rollBackLoop schema memory stop (fuel + 1) start data =
      rollBackLoop schema memory stop fuel (start + 16 + schema.getColumnSize colId)
        (write data (schema.getColumnOffset colId)
          (read old (schema.getColumnOffset colId) (schema.getColumnSize colId))) ∧
    read memory (start + 16 + schema.getColumnSize colId) (columnImages schema colIds old).length =
      columnImages schema colIds old := by
  have himages : columnImages schema (colId :: colIds) old =
      natLE 8 colId ++ natLE 8 (schema.getColumnSize colId) ++
        read old (schema.getColumnOffset colId) (schema.getColumnSize colId) ++
        columnImages schema colIds old := by
    rw [columnImages, flatMap_cons, ← columnImages]
  have hlen : (columnImages schema (colId :: colIds) old).length =
      8 + 8 + schema.getColumnSize colId + (columnImages schema colIds old).length := by
    rw [himages]
    simp only [length_append, natLE_length, read_length]
  -- The images are cut into the number, the size and the bytes of the first column.
  rw [hlen, read_add, read_add, read_add, himages] at hread
  obtain ⟨hread, htail⟩ := append_inj' hread (by simp)
  obtain ⟨hread, hcol⟩ := append_inj' hread (by simp)
  obtain ⟨hnum, hwidth⟩ := append_inj' hread (by simp)
  have hcolumnId := ofLE_of_eq_natLE hnum (Nat.lt_of_lt_of_eq hid (by decide))
  have hcolumnSize := ofLE_of_eq_natLE hwidth (Nat.lt_of_lt_of_eq hsize (by decide))
  constructor
  · rw [rollBackLoop, if_pos hlt]
    simp only [hcolumnId, hcolumnSize]
    rw [show start + 16 = start + (8 + 8) from rfl, hcol]
  · rw [Nat.add_assoc]
    exact htail

theorem rollBackLoop_columnImages (old : Memory)
    (hfit : ColumnsFit schema colIds) :
    ∀ {fuel start stop : Nat} {data : Memory}, colIds.length < fuel →
      stop = start + (columnImages schema colIds old).length →
      read memory start (columnImages schema colIds old).length = columnImages schema colIds old →
      rollBackLoop schema memory stop fuel start data =
        (stop, copyColumns schema old colIds data) := by
  induction colIds with
  | nil =>
    intro fuel start stop data hfuel hstop _
    obtain ⟨fuel, rfl⟩ : ∃ rest, fuel = rest + 1 := ⟨fuel - 1, by omega⟩
    have hend : stop = start := hstop
    rw [rollBackLoop, if_neg (by omega), hend]
    rfl
  | cons colId colIds ih =>
    intro fuel start stop data hfuel hstop hread
    obtain ⟨fuel, rfl⟩ : ∃ rest, fuel = rest + 1 := ⟨fuel - 1, by omega⟩
    obtain ⟨hid, hsize⟩ := hfit colId mem_cons_self
    have hlen : (columnImages schema (colId :: colIds) old).length =
        16 + schema.getColumnSize colId + (columnImages schema colIds old).length := by
      simp only [columnImages_length, map_cons, sum_cons]
    obtain ⟨hturn, hrest⟩ := rollBackLoop_cons old hid hsize
      (show start < stop by omega) hread fuel data
    rw [hturn]
    exact ih (fun other hmem => hfit other (mem_cons_of_mem _ hmem)) (by simpa using hfuel)
      (by omega) hrest

/-- `roll_back` on a delta record in memory does what it does on the record itself, and
reads as many bytes as the header announces. -/
theorem Record.rollBackAt_eq (record : Record) {old : Memory}
    (hfit : ColumnsFit schema colIds) (hheld : delta.HeldAt memory base)
    (hdata : delta.data = columnImages schema colIds old)
    (hsize : delta.currentRecordDataSize = Record.deltaHeaderSize + delta.data.length)
    (hsmall : delta.currentRecordDataSize < 2 ^ 32) :
    record.rollBackAt schema memory base =
      (base + delta.currentRecordDataSize, record.rollBack schema delta) := by
  have hhdr : DeltaRecord.currentRecordDataSizeAt memory base = delta.currentRecordDataSize :=
    hheld.size.trans (Nat.mod_eq_of_lt hsmall)
  have hstop : base + Record.deltaHeaderSize + delta.currentRecordDataSize -
      Record.deltaHeaderSize = base + delta.currentRecordDataSize := by omega
  have hread : read memory (base + Record.deltaHeaderSize) (columnImages schema colIds old).length =
      columnImages schema colIds old := hdata ▸ hheld.data
  have hlen := length_le_columnImages schema colIds old
  have hmany : colIds.length < base + delta.currentRecordDataSize := by
    rw [hsize, hdata, Record.deltaHeaderSize]
    omega
  have hend : base + delta.currentRecordDataSize =
      base + Record.deltaHeaderSize + (columnImages schema colIds old).length := by
    rw [hsize, hdata, Nat.add_assoc]
  have hloop : rollBackLoop schema memory (base + delta.currentRecordDataSize)
      (base + delta.currentRecordDataSize) (base + Record.deltaHeaderSize) record.data =
        (base + delta.currentRecordDataSize, copyColumns schema old colIds record.data) :=
    rollBackLoop_columnImages old hfit hmany hend hread
  have hbytes : delta.data.take (delta.currentRecordDataSize - Record.deltaHeaderSize) =
      columnImages schema colIds old := by
    rw [hsize, Nat.add_sub_cancel_left, take_length, hdata]
  have hcols : rollBackColumns schema (columnImages schema colIds old).length
      (columnImages schema colIds old) record.data = copyColumns schema old colIds record.data :=
    rollBackColumns_eq_copyColumns old hfit hlen
  simp only [Record.rollBackAt, Record.rollBack, hhdr, hstop, hloop, hbytes, hcols,
    hheld.wts, hheld.gaddr, hheld.epoch, hheld.prevSize]

end Held

/-! ### Undo images invert updates -/

structure Record.Restores (schema : RecordSchema) (old restored : Record) : Prop where
  columns : ∀ colId < schema.getMetaColumnId,
    restored.getColumn schema colId = old.getColumn schema colId
  wts : (restored.getMeta schema).wts = (old.getMeta schema).wts
  prevVersion : (restored.getMeta schema).prevVersion = (old.getMeta schema).prevVersion
  prevDeltaEpoch : (restored.getMeta schema).prevDeltaEpoch = (old.getMeta schema).prevDeltaEpoch
  prevDeltaDataSize :
    (restored.getMeta schema).prevDeltaDataSize = (old.getMeta schema).prevDeltaDataSize

section Restores

variable {schema : RecordSchema} {old record : Record} {colIds : List Nat} {delta : DeltaRecord}

theorem Record.restores_of_agreeOn
    (h : AgreeOn record.data old.data 0 (schema.metaOffset + 28)) : old.Restores schema record := by
  have hfield : ∀ offset width, offset + width ≤ 28 →
      read record.data (schema.metaOffset + offset) width =
        read old.data (schema.metaOffset + offset) width :=
    fun offset width hle => read_congr (h.mono (Nat.zero_le _) (by omega))
  refine ⟨fun colId hlt => read_congr (h.mono (Nat.zero_le _) ?_), ?_, ?_, ?_, ?_⟩
  · have hpre := schema.column_le_metaOffset hlt
    omega
  · exact congrArg ofLE (hfield 0 8 (by decide))
  · exact congrArg ofLE (hfield 8 8 (by decide))
  · exact congrArg ofLE (hfield 16 8 (by decide))
  · exact congrArg ofLE (hfield 24 4 (by decide))

theorem columnImages_congr {left right : Memory}
    (hknown : ∀ colId ∈ colIds, colId < schema.getMetaColumnId)
    (h : AgreeOn left right 0 schema.metaOffset) :
    columnImages schema colIds left = columnImages schema colIds right := by
  refine flatMap_congr fun colId hmem => ?_
  have hpre := schema.column_le_metaOffset (hknown colId hmem)
  rw [read_congr (h.mono (Nat.zero_le (schema.getColumnOffset colId)) (by omega))]

theorem Record.rollBack_restores (hmeta : schema.MetaLast) (hfit : ColumnsFit schema colIds)
    (hsaves : delta.Saves schema colIds old.data)
    (hknown : ∀ colId ∈ colIds, colId < schema.getMetaColumnId)
    (h : AgreeIn (fun offset => offset < schema.metaOffset ∧ ¬ InColumns schema colIds offset)
      record.data old.data) : old.Restores schema (record.rollBack schema delta) := by
  -- The last two fields of the metadata stay those of the new record.
  let merged : Memory := fun offset =>
    if offset < schema.metaOffset + 28 then old.data offset else record.data offset
  have hfront : AgreeOn merged old.data 0 (schema.metaOffset + 28) := fun offset _ hlt =>
    if_pos (by simpa using hlt)
  have hfields : old.Restores schema ⟨merged, []⟩ := Record.restores_of_agreeOn hfront
  have hmerged : delta.Saves schema colIds merged := {
    columns := hsaves.columns.trans
      (columnImages_congr hknown (hfront.mono (Nat.le_refl _) (by omega))).symm
    wts := hsaves.wts.trans hfields.wts.symm
    prevVersion := hsaves.prevVersion.trans hfields.prevVersion.symm
    prevEpoch := hsaves.prevEpoch.trans hfields.prevDeltaEpoch.symm
    prevSize := hsaves.prevSize.trans hfields.prevDeltaDataSize.symm }
  have hdata : (record.rollBack schema delta).data = merged := by
    refine Record.rollBack_of_saves hmeta hfit hmerged fun offset hoff => ?_
    rcases hoff.2 with hlt | hge
    · exact (h offset ⟨hlt, hoff.1⟩).trans (hfront offset (Nat.zero_le _) (by omega)).symm
    · exact (if_neg (by omega)).symm
  exact Record.restores_of_agreeOn (hdata ▸ hfront)

theorem fillInDeltaRecordSingle_data (schema : RecordSchema) (newRecord oldRecord : Record)
    (commitTs : Nat) : (fillInDeltaRecordSingle schema newRecord oldRecord commitTs).1.data =
      columnImages schema newRecord.dirtyColIds oldRecord.data := rfl

theorem estimateDeltaSize_eq (schema : RecordSchema) (newRecord oldRecord : Record)
    (commitTs : Nat) : newRecord.estimateDeltaSize schema = Record.deltaHeaderSize +
      (fillInDeltaRecordSingle schema newRecord oldRecord commitTs).1.data.length := by
  rw [fillInDeltaRecordSingle_data, columnImages_length, Record.estimateDeltaSize, Nat.add_comm]

theorem fillInDeltaRecordSingle_fits (schema : RecordSchema) (newRecord oldRecord : Record)
    (commitTs : Nat) : (fillInDeltaRecordSingle schema newRecord oldRecord commitTs).1.Fits := by
  obtain ⟨hwts, hprev, hepoch, hsize, -⟩ := MetaColumn.load_lt oldRecord.data schema.metaOffset
  exact ⟨hwts, hprev, hepoch, hsize⟩

theorem columnsFit_of_estimate (hmeta : schema.MetaLast)
    (hknown : ∀ colId ∈ record.dirtyColIds, colId < schema.getMetaColumnId)
    (hsmall : record.estimateDeltaSize schema < 2 ^ 32) : ColumnsFit schema record.dirtyColIds := by
  intro colId hmem
  have hfew := hmeta.few
  have hlt := hknown colId hmem
  unfold RecordSchema.getMetaColumnId at hlt
  have hle : 8 * 2 + schema.getColumnSize colId ≤
      (record.dirtyColIds.map fun colId => 8 * 2 + schema.getColumnSize colId).sum :=
    single_le_sum (fun _ _ => Nat.zero_le _) _ (mem_map_of_mem hmem)
  unfold Record.estimateDeltaSize at hsmall
  exact ⟨by omega, by omega⟩

/-- The delta of an update has the announced size, and rolling the new record back with it
reads that many bytes and gives the old columns and version fields. -/
theorem rollBackAt_serialized (hmeta : schema.MetaLast)
    (hknown : ∀ colId ∈ record.dirtyColIds, colId < schema.getMetaColumnId)
    (hdiffer : AgreeIn (fun offset => offset < schema.metaOffset ∧
      ¬ InColumns schema record.dirtyColIds offset) record.data old.data)
    (hsmall : record.estimateDeltaSize schema < 2 ^ 32) (commitTs : Nat) (memory : Memory)
    (base : Nat) :
    (fillInDeltaRecordSingle schema record old commitTs).1.bytes.length =
        record.estimateDeltaSize schema ∧
      ∃ restored, record.rollBackAt schema
          (write memory base (fillInDeltaRecordSingle schema record old commitTs).1.bytes) base =
            (base + record.estimateDeltaSize schema, restored) ∧
        old.Restores schema restored := by
  have hsize := estimateDeltaSize_eq schema record old commitTs
  have hfield : (fillInDeltaRecordSingle schema record old commitTs).1.currentRecordDataSize =
      record.estimateDeltaSize schema := Nat.mod_eq_of_lt hsmall
  have hfit := columnsFit_of_estimate hmeta hknown hsmall
  have hheld := DeltaRecord.heldAt_of_read
    (fillInDeltaRecordSingle_fits schema record old commitTs) (read_write_same memory base _)
  have hsaves : (fillInDeltaRecordSingle schema record old commitTs).1.Saves schema
      record.dirtyColIds old.data := Txn.fillInDeltaRecordSingle_saves hsmall old.data commitTs
  refine ⟨(DeltaRecord.bytes_length _).trans hsize.symm, _, ?_,
    Record.rollBack_restores hmeta hfit hsaves hknown hdiffer⟩
  rw [← hfield]
  exact Record.rollBackAt_eq record hfit hheld
    (fillInDeltaRecordSingle_data schema record old commitTs) (hfield.trans hsize)
    (hfield ▸ hsmall)

end Restores

/-! ### A record of two columns -/

def pairColumns : RecordSchema where
  columns := [⟨.fixchar, 2⟩, ⟨.fixchar, 1⟩, ⟨.metadata, kMetaSize⟩]
  primaryColIds := []

def pairOld : Record := ⟨fun _ => 0, []⟩

def pairNew : Record := ⟨fun offset => if offset = 2 then 1 else 0, [0, 1]⟩

theorem pairNew_differs :
    AgreeIn (fun offset => offset < pairColumns.metaOffset ∧
      ¬ InColumns pairColumns pairNew.dirtyColIds offset) pairNew.data pairOld.data := by
  intro offset hoff
  refine if_neg fun heq => hoff.2 ⟨1, by simp [pairNew], ?_⟩
  subst heq
  decide

theorem rollBackAt_serialized_pair :
    pairNew.estimateDeltaSize pairColumns < 2 ^ 32 ∧
    (fillInDeltaRecordSingle pairColumns pairNew pairOld 9).1.bytes.length =
        pairNew.estimateDeltaSize pairColumns ∧
      ∃ restored, pairNew.rollBackAt pairColumns
          (write (fun _ => 0) 5 (fillInDeltaRecordSingle pairColumns pairNew pairOld 9).1.bytes) 5 =
            (5 + pairNew.estimateDeltaSize pairColumns, restored) ∧
        pairOld.Restores pairColumns restored :=
  ⟨by decide, rollBackAt_serialized ⟨rfl, by decide⟩ (by decide) pairNew_differs (by decide) 9
    (fun _ => 0) 5⟩

end MemoryEngine.Storage
