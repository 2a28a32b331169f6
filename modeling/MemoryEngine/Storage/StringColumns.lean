import MemoryEngine.Storage.Record

/-! Strings in fixed-size columns (`storage/Record.h`).

`SetColumn` copies the characters of the string and nothing behind them.  `GetColumn` passes the
column to `std::string::assign` as a C string, so the result ends at the first NUL. -/
namespace MemoryEngine.Storage

open ByteMemory List

namespace Record

variable (schema : RecordSchema) (record : Record)

/-- `SetColumn(column_id, const std::string &)`. -/
def setColumnString (columnId : Nat) (data : List UInt8) : Record where
  data := write record.data (schema.getColumnOffset columnId) data
  dirtyColIds := insertColId columnId record.dirtyColIds

/-- `GetColumn(column_id, std::string &)`: at most the column, and no NUL. -/
def getColumnString (columnId : Nat) : List UInt8 :=
  (record.getColumn schema columnId).takeWhile (· ≠ 0)

/-- The string is read back, padded with NULs at most; the other columns keep their bytes, and the
column is marked. -/
structure KeepsString (columnId : Nat) (data : List UInt8) : Prop where
  value : ∃ padding, data.length + padding ≤ schema.getColumnSize columnId ∧
    (record.setColumnString schema columnId data).getColumnString schema columnId =
      data ++ replicate padding 0
  others : ∀ other, other < schema.columns.length → other ≠ columnId →
    (record.setColumnString schema columnId data).getColumn schema other =
      record.getColumn schema other
  marked : columnId ∈ (record.setColumnString schema columnId data).dirtyColIds

end Record

section Strings

variable {schema : RecordSchema} {record : Record} {columnId : Nat} {data : List UInt8}

theorem takeWhile_append_eq_iff {rest : List UInt8} :
    (∃ padding, (data ++ rest).takeWhile (· ≠ 0) = data ++ replicate padding 0) ↔
      0 ∉ data ∧ ∀ head ∈ rest.head?, head = 0 := by
  constructor
  · rintro ⟨padding, heq⟩
    have hno : ∀ value ∈ data ++ replicate padding 0, value ≠ 0 := by
      intro value hvalue
      rw [← heq] at hvalue
      simpa using all_eq_true.mp all_takeWhile value hvalue
    have hdata : 0 ∉ data := fun hmem => hno 0 (mem_append_left _ hmem) rfl
    have hzero : padding = 0 := by
      by_contra hne
      exact hno 0 (mem_append_right _ (mem_replicate.mpr ⟨hne, rfl⟩)) rfl
    refine ⟨hdata, fun head hhead => ?_⟩
    rw [takeWhile_append_of_pos fun value hvalue => by
        simpa using hno value (mem_append_left _ hvalue), hzero, replicate_zero] at heq
    obtain ⟨tail, rfl⟩ := head?_eq_some_iff.mp hhead
    have hnil := append_cancel_left heq
    by_contra hne
    simp [hne] at hnil
  · rintro ⟨hdata, hhead⟩
    refine ⟨0, ?_⟩
    have hno : ∀ value ∈ data, decide (value ≠ 0) = true := fun value hvalue =>
      decide_eq_true (ne_of_mem_of_not_mem hvalue hdata)
    rw [takeWhile_append_of_pos hno, replicate_zero]
    congr 1
    cases rest with
    | nil => rfl
    | cons head tail => simp [hhead head rfl]

theorem setColumnString_getColumn (hsize : data.length ≤ schema.getColumnSize columnId) :
    (record.setColumnString schema columnId data).getColumn schema columnId =
      data ++ read record.data (schema.getColumnOffset columnId + data.length)
        (schema.getColumnSize columnId - data.length) := by
  have hsplit : schema.getColumnSize columnId =
      data.length + (schema.getColumnSize columnId - data.length) := by omega
  rw [Record.getColumn, hsplit, read_add, Record.setColumnString, read_write_same,
    read_write_disjoint _ (.inl (Nat.le_refl _)), Nat.add_sub_cancel_left]

theorem setColumnString_getColumn_other (hcolumn : columnId < schema.columns.length)
    (hsize : data.length ≤ schema.getColumnSize columnId) {other : Nat}
    (hother : other < schema.columns.length) (hne : other ≠ columnId) :
    (record.setColumnString schema columnId data).getColumn schema other =
      record.getColumn schema other := by
  refine read_write_disjoint _ ?_
  rcases Nat.lt_or_gt_of_ne hne with hbefore | hafter
  · have hmono := schema.getColumnOffset_mono hbefore
    rw [schema.getColumnOffset_succ hother] at hmono
    exact .inr hmono
  · have hmono := schema.getColumnOffset_mono hafter
    rw [schema.getColumnOffset_succ hcolumn] at hmono
    exact .inl (by omega)

/-- A string is read back exactly when it has no NUL, and fills the column or meets a NUL that was
there before. -/
theorem keepsString_iff (hcolumn : columnId < schema.columns.length)
    (hsize : data.length ≤ schema.getColumnSize columnId) :
    record.KeepsString schema columnId data ↔
      0 ∉ data ∧ (data.length = schema.getColumnSize columnId ∨
        record.data (schema.getColumnOffset columnId + data.length) = 0) := by
  have hrest := @setColumnString_getColumn schema record columnId data hsize
  have hhead : (∀ head ∈ (read record.data (schema.getColumnOffset columnId + data.length)
      (schema.getColumnSize columnId - data.length)).head?, head = 0) ↔
        data.length = schema.getColumnSize columnId ∨
          record.data (schema.getColumnOffset columnId + data.length) = 0 := by
    rcases Nat.eq_or_lt_of_le hsize with hfull | hroom
    · simp [hfull]
    · obtain ⟨room, hroomEq⟩ := Nat.exists_eq_add_of_lt hroom
      rw [show schema.getColumnSize columnId - data.length = room + 1 by omega, read_succ]
      simp [hroom.ne]
  rw [← hhead, ← takeWhile_append_eq_iff]
  constructor
  · rintro ⟨⟨padding, -, hvalue⟩, -, -⟩
    rw [Record.getColumnString, hrest] at hvalue
    exact ⟨padding, hvalue⟩
  · rintro ⟨padding, hvalue⟩
    rw [← hrest] at hvalue
    refine ⟨⟨padding, ?_, hvalue⟩, fun other => setColumnString_getColumn_other hcolumn hsize,
      mem_insertColId.mpr (.inl rfl)⟩
    have hlength := (takeWhile_sublist (· ≠ 0)
      (l := (record.setColumnString schema columnId data).getColumn schema columnId)).length_le
    rw [hvalue, length_append, length_replicate, Record.getColumn, read_length] at hlength
    exact hlength

def namedSchema : RecordSchema where
  columns := [⟨.int64, 8⟩, ⟨.fixchar, 4⟩, ⟨.metadata, kMetaSize⟩]
  primaryColIds := [0]

theorem keepsString_namedSchema :
    (⟨fun _ => 0, []⟩ : Record).KeepsString namedSchema 1 [97, 98] :=
  (keepsString_iff (by decide) (by decide)).mpr (by decide)

/-- A record whose name is `wxyz`. -/
def namedRecord : Record :=
  Record.setColumnString namedSchema ⟨fun _ => 0, []⟩ 1 [119, 120, 121, 122]

/-- The name reads `abyz` after `ab` is written. -/
theorem shorter_string_not_kept :
    (namedRecord.setColumnString namedSchema 1 [97, 98]).getColumnString namedSchema 1 =
        [97, 98, 121, 122] ∧ ¬ namedRecord.KeepsString namedSchema 1 [97, 98] := by
  have hread : (namedRecord.setColumnString namedSchema 1 [97, 98]).getColumnString namedSchema 1 =
    [97, 98, 121, 122] := by decide
  refine ⟨hread, fun h => ?_⟩
  obtain ⟨padding, -, hvalue⟩ := h.value
  rw [hread] at hvalue
  cases padding with
  | zero => simp at hvalue
  | succ padding => simp [replicate_succ] at hvalue

end Strings

end MemoryEngine.Storage
