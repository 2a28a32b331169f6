import MemoryEngine.Storage.IndexReplication

/-! Overwrites and deletes of a leaf record, and what of them reaches a replica.

An overwrite returns before the code that logs.  A delete crashes in its first comparison. -/
namespace MemoryEngine.Storage

open ByteMemory LogCodec LogReplayer RedoLog List

/-- Version, `last_index` and records, as blocks of offset and length. -/
def recordBlocks (page : Page) : List (Nat × Nat) :=
  [(pVersionOffset, 8), (lastIndexOffset, 2), (recordsOffset page, count page * recordSize page)]

def RecordsAgree (replica page : Page) : Prop :=
  ∀ block ∈ recordBlocks page, AgreeOn replica page block.1 block.2

/-- Record `index` has the key; the records before it have smaller keys and those
after it larger ones. -/
structure PresentAt {schema : RecordSchema} (page : Page) (k : DynamicCompoundKey schema)
    (index : Nat) : Prop where
  lt : index < count page
  equal : k.compare (getRecordKeyByIndex schema page index) = .eq
  below : ∀ i, i < index → k.compare (getRecordKeyByIndex schema page i) = .gt
  above : ∀ i, index < i → i < count page →
    k.compare (getRecordKeyByIndex schema page i) = .lt

inductive LeafUpdate where
  | overwrite (v : List UInt8)
  | delete (findValue : Bool)

namespace LeafUpdate

/-- The page and the calls of `Append`, with a redo logger; `none` is a crash. -/
def run {schema : RecordSchema} (page : Page) (k : DynamicCompoundKey schema) (pageAddr : Nat) :
    LeafUpdate → Option (Page × List PageChange)
  | .overwrite v =>
      let result := leafPageStore page k v true pageAddr
      some (result.page, result.changes)
  | .delete findValue =>
      (leafPageDelete page k findValue true pageAddr).map fun result =>
        (result.page, result.changes)

def Valid {schema : RecordSchema} (page : Page) (k : DynamicCompoundKey schema) :
    LeafUpdate → Prop
  | .overwrite v => v.length = recordSize page ∧ schema.getPrimaryKeyLength ≤ v.length ∧
      ∀ key : DynamicCompoundKey schema, key.bytes = v.take schema.getPrimaryKeyLength →
        k.compare key = .eq
  | .delete _ => True

/-- Nothing is lost when the record keeps its bytes; no delete comes to its end. -/
def Reaches (page : Page) (index : Nat) : LeafUpdate → Prop
  | .overwrite v => v = read page (recordOffset page index) (recordSize page)
  | .delete _ => False

end LeafUpdate

section Updates

variable {schema : RecordSchema} {page replica : Page} {k : DynamicCompoundKey schema}
  {index : Nat}

theorem count_write (page : Page) (index : Nat) (v : List UInt8) :
    count (write page (recordOffset page index) v) = count page := by
  have hstart := recordOffset_ge page index
  rw [count, count, lastIndex_write (.inr (by omega))]

section

variable (hpage : LeafWellFormed schema page)
include hpage

theorem searchRecords_eq (h : PresentAt page k index) : (searchRecords page k).1 = index := by
  have hlt := h.lt
  rw [searchRecords, hpage.lastIndex_mod (by omega)]
  refine BinarySearch.search_eq ⟨h.below, fun i hi hle => h.above i hi (by omega), ?_⟩
    (Nat.zero_le _) (by omega) (by omega)
  rw [h.equal]
  decide

theorem lastIndex_ne (h : PresentAt page k index) : lastIndex page ≠ -1 := by
  have hlt := h.lt
  have hlast := hpage.lastIndex_eq
  omega

theorem leafPageStore_present (h : PresentAt page k index) {v : List UInt8}
    (hv : (LeafUpdate.overwrite v).Valid page k) (redoLogger : Bool) (pageAddr : Nat) :
    leafPageStore page k v redoLogger pageAddr =
      ⟨write page (recordOffset page index) v, [], count page = kCardinality page⟩ := by
  obtain ⟨hsize, hkey, hequal⟩ := hv
  have htake : v.take (recordSize page) = v := by rw [← hsize, take_length]
  have hsame := sameLayout_write page index v
  have hnew : k.compare (getRecordKeyByIndex schema (write page (recordOffset page index) v)
      index) = .eq := by
    apply hequal
    simp only [getRecordKeyByIndex, hsame.recordOffset]
    exact read_write_take page _ hkey
  have hsrch : leafSearched page k v = (page, .update index) ∨
      leafSearched page k v = (write page (recordOffset page index) v, .update index) := by
    unfold leafSearched
    rw [if_neg (lastIndex_ne hpage h)]
    simp only [searchRecords_eq hpage h, htake]
    cases (searchRecords page k).2 with
    | false =>
      simp only [Bool.false_eq_true, if_false, h.equal]
      exact .inl trivial
    | true =>
      simp only [if_true, hnew]
      exact .inr trivial
  rw [leafPageStore]
  rcases hsrch with hsrch | hsrch
  · rw [hsrch]
    simp only [htake]
  · rw [hsrch]
    simp only [hsame.recordOffset, hsame.recordSize, hsame.kCardinality, htake, write_write_same,
      count_write]

theorem overwrite_run (h : PresentAt page k index)
    {v : List UInt8} (hv : (LeafUpdate.overwrite v).Valid page k) (pageAddr : Nat) :
    (LeafUpdate.overwrite v).run page k pageAddr =
      some (write page (recordOffset page index) v, []) := by
  rw [LeafUpdate.run, leafPageStore_present hpage h hv]

end

/-- A key that has bytes has a column that `compare` reads. -/
theorem compareUnbound_eq_none (hkey : 0 < schema.getPrimaryKeyLength)
    (k : DynamicCompoundKey schema) : k.compareUnbound = none := by
  obtain ⟨size, hmem, hpos⟩ := List.sum_pos_iff_exists_pos_nat.mp hkey
  obtain ⟨column, hcolumn, rfl⟩ := mem_map.mp hmem
  have hreads : column.reads = true := by
    unfold ColumnInfo.reads
    split
    · exact decide_eq_true hpos
    · exact decide_eq_true hpos
    · rfl
  rw [DynamicCompoundKey.compareUnbound, if_pos (any_eq_true.mpr ⟨column, hcolumn, hreads⟩)]

theorem delete_run (hkey : 0 < schema.getPrimaryKeyLength) (k : DynamicCompoundKey schema)
    (findValue : Bool) (pageAddr : Nat) :
    (LeafUpdate.delete findValue).run page k pageAddr = none := by
  rw [LeafUpdate.run, leafPageDelete, compareUnbound_eq_none hkey]
  rfl

/-! ### Agreement on the records -/

theorem RecordsAgree.record (h : RecordsAgree replica page) (hindex : index < count page) :
    AgreeOn replica page (recordOffset page index) (recordSize page) := by
  have hrecs := h (recordsOffset page, count page * recordSize page) (by simp [recordBlocks])
  have hnext := recordOffset_succ page index
  have hle : recordOffset page (index + 1) ≤ recordOffset page (count page) :=
    recordOffset_mono page hindex
  have hstart : recordsOffset page ≤ recordOffset page index := Nat.le_add_right _ _
  intro offset hge hlt
  refine hrecs offset (by omega) ?_
  exact Nat.lt_of_lt_of_le (hnext ▸ hlt) hle

theorem overwrite_iff (h : PresentAt page k index) {v : List UInt8}
    (hsize : v.length = recordSize page) (hagree : RecordsAgree replica page) :
    RecordsAgree replica (write page (recordOffset page index) v) ↔
      v = read page (recordOffset page index) (recordSize page) := by
  have hlay := sameLayout_write page index v
  constructor
  · intro hnew
    have hsame := hnew.record ((count_write page index v).symm ▸ h.lt)
    rw [hlay.recordOffset, hlay.recordSize] at hsame
    have hread := read_congr (hsame.symm.trans (hagree.record h.lt))
    rw [← hread, ← hsize, read_write_same]
  · intro hv
    rw [hv, write_read_self]
    exact hagree

theorem pVersion_setPVersion (page : Page) {version : Nat} (h : version < 2 ^ 64) :
    pVersion (setPVersion page version) = version :=
  field_setField h

/-- Replaying what an overwrite or a delete appended makes the replica agree with the
leaf exactly when the update is an overwrite with the bytes that are there. -/
theorem recordsAgree_iff_reaches (hpage : LeafWellFormed schema page)
    (hkey : 0 < schema.getPrimaryKeyLength) (hpresent : PresentAt page k index)
    (update : LeafUpdate) (hvalid : update.Valid page k) (pageAddr : Nat) (translate : Nat → Nat)
    {memory : Memory} (hagree : RecordsAgree (view memory (translate pageAddr)) page) :
    (∃ result, update.run page k pageAddr = some result ∧
      RecordsAgree (view (replayRecords translate memory (result.2.map PageChange.record))
        (translate pageAddr)) result.1) ↔ update.Reaches page index := by
  cases update with
  | overwrite v =>
    rw [overwrite_run hpage hpresent hvalid]
    simp only [Option.some.injEq, exists_eq_left', map_nil, replayRecords, foldl_nil]
    exact overwrite_iff hpresent hvalid.1 hagree
  | delete findValue =>
    rw [delete_run hkey]
    simp [LeafUpdate.Reaches]

end Updates

/-! ### A leaf with two rows -/

def pairSchema : RecordSchema := ⟨[⟨.uint64, 8⟩, ⟨.uint64, 8⟩], [0]⟩

def pairKey (key : Nat) : DynamicCompoundKey pairSchema :=
  ⟨natLE 8 key, natLE_length 8 key⟩

def pairLeaf : Page :=
  let page := setField (setField (setField (fun _ => 0) keySizeOffset 4 8) recordSizeOffset 4 16)
    kCardinalityOffset 2 1019
  write (setPVersion (setLastIndex page 1) 3) 80
    (natLE 8 1 ++ natLE 8 7 ++ natLE 8 2 ++ natLE 8 9)

def pairReplica : Memory := fun address => pairLeaf (address - 4096)

theorem pairLeaf_wellFormed : LeafWellFormed pairSchema pairLeaf :=
  ⟨by decide, by decide, by decide, by decide, by decide, by decide⟩

theorem pairLeaf_present : PresentAt pairLeaf (pairKey 1) 0 where
  lt := by decide
  equal := by decide
  below := fun i hi => absurd hi (Nat.not_lt_zero i)
  above := fun i hi hlt => by
    have hcount : count pairLeaf = 2 := by decide
    obtain rfl : i = 1 := by omega
    decide

theorem pairReplica_agree : RecordsAgree (view pairReplica 4096) pairLeaf := by
  have hview : view pairReplica 4096 = pairLeaf := by
    funext offset
    rw [view, pairReplica, Nat.add_sub_cancel_left]
  rw [hview]
  exact fun block _ => AgreeOn.refl _ _ _

theorem pairRow_valid (value : Nat) :
    (LeafUpdate.overwrite (natLE 8 1 ++ natLE 8 value)).Valid pairLeaf (pairKey 1) := by
  have hkey : (natLE 8 1 ++ natLE 8 value).take pairSchema.getPrimaryKeyLength = natLE 8 1 :=
    take_left' (natLE_length 8 1)
  have hlen : (natLE 8 1 ++ natLE 8 value).length = 16 := by simp
  refine ⟨hlen, by rw [hlen]; decide, fun key hbytes => ?_⟩
  rw [DynamicCompoundKey.compare, hbytes, hkey]
  decide

/-- A new address for key 1 does not reach the replica. -/
theorem pairLeaf_overwrite_lost :
    LeafWellFormed pairSchema pairLeaf ∧ PresentAt pairLeaf (pairKey 1) 0 ∧
      RecordsAgree (view pairReplica 4096) pairLeaf ∧
      (LeafUpdate.overwrite (natLE 8 1 ++ natLE 8 8)).Valid pairLeaf (pairKey 1) ∧
      ∃ result, (LeafUpdate.overwrite (natLE 8 1 ++ natLE 8 8)).run pairLeaf (pairKey 1) 1 =
          some result ∧ result.2 = [] ∧
        ¬ RecordsAgree (view (replayRecords (fun _ => 4096) pairReplica
          (result.2.map PageChange.record)) 4096) result.1 := by
  refine ⟨pairLeaf_wellFormed, pairLeaf_present, pairReplica_agree, (pairRow_valid 8), _,
    overwrite_run pairLeaf_wellFormed pairLeaf_present (pairRow_valid 8) 1, rfl, ?_⟩
  simp only [map_nil, replayRecords, foldl_nil]
  rw [overwrite_iff pairLeaf_present (by decide) pairReplica_agree]
  decide

theorem recordsAgree_iff_reaches_pairLeaf :
    ∃ result, (LeafUpdate.overwrite (natLE 8 1 ++ natLE 8 7)).run pairLeaf (pairKey 1) 1 =
        some result ∧
      RecordsAgree (view (replayRecords (fun _ => 4096) pairReplica
        (result.2.map PageChange.record)) 4096) result.1 :=
  (recordsAgree_iff_reaches pairLeaf_wellFormed (by decide) pairLeaf_present
    (.overwrite (natLE 8 1 ++ natLE 8 7)) (pairRow_valid 7) 1 (fun _ => 4096)
    pairReplica_agree).mpr (show natLE 8 1 ++ natLE 8 7 = _ by decide)

end MemoryEngine.Storage
