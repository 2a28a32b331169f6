import MemoryEngine.Storage.LiveContent

/-! Stores and deletes on an index page and on a replica of it.

A logged store appends one record; replaying it makes on the replica the insertion
that the store makes on the page. -/
namespace MemoryEngine.Storage

open ByteMemory LogCodec LogReplayer RedoLog List

/-- Replaying the change takes every replica with `before` to one that holds the live
content of `after`. -/
structure Replicates (change : PageChange) (pageAddr : Nat) (before : Page → Prop)
    (after : Page) : Prop where
  sound : change.Sound
  gaddr : change.pageGaddr = pageAddr
  agree : ∀ replica, before replica →
    LiveAgree (replayOps change.ops change.pageVersion replica) after

variable {schema : RecordSchema} {size : Nat} {page : Page} {k : DynamicCompoundKey schema}
  {index pageAddr : Nat}

theorem WellFormed.lastIndex_mod (h : WellFormed schema size page) (hcount : 0 < count page) :
    (lastIndex page % 65536).toNat = count page - 1 := by
  have hlast := h.lastIndex_eq
  have hlt := h.kCardinality_lt
  have hle := h.count_le
  omega

theorem WellFormed.searchRecords_lt (h : WellFormed schema size page) (hcount : 0 < count page)
    (k : DynamicCompoundKey schema) : (searchRecords page k).1 < count page := by
  rw [searchRecords, h.lastIndex_mod hcount]
  have hbounds := @BinarySearch.search_bounds
    (fun i => k.compare (getRecordKeyByIndex schema page i)) (count page - 1) 0 (count page - 1)
    (Nat.zero_le _)
  omega

theorem compare_of_met (h : (searchRecords page k).2 = true) :
    k.compare (getRecordKeyByIndex schema page (searchRecords page k).1) = .eq := by
  exact BinarySearch.target_of_found h

/-! ### Insertions -/

/-- A record with these bytes at `index`, by a store on the page. -/
def insertionAt (page : Page) (v : List UInt8) (index : Nat) : Insertion :=
  ⟨keySize page, recordSize page, count page, index, v, (pVersion page + 1) % 2 ^ 64⟩

theorem recordOffset_add (page : Page) (i k : Nat) :
    recordOffset page i + k * recordSize page = recordOffset page (i + k) := by
  rw [recordOffset, recordOffset, Nat.add_mul, Nat.add_assoc]

theorem recordOffset_ge (page : Page) (i : Nat) : 64 ≤ recordOffset page i :=
  Nat.le_trans (Nat.le_add_right 64 _) (Nat.le_add_right _ _)

theorem recordOffset_mono (page : Page) {i k : Nat} (h : i ≤ k) :
    recordOffset page i ≤ recordOffset page k :=
  Nat.add_le_add_left (Nat.mul_le_mul_right _ h) _

theorem WellFormed.recordOffset_lt (h : WellFormed schema size page) {i : Nat}
    (hi : i ≤ kCardinality page) : recordOffset page i < kLeafPageSize :=
  h.slots hi

theorem slot_insertionAt (page : Page) (v : List UInt8) (index i : Nat) :
    (insertionAt page v index).slot i = recordOffset page i := by
  simp only [insertionAt, Insertion.slot, recordOffset, recordsOffset]

theorem recordOffset_succ (page : Page) (i : Nat) :
    recordOffset page (i + 1) = recordOffset page i + recordSize page := by
  rw [recordOffset, recordOffset, Nat.add_mul, Nat.one_mul, Nat.add_assoc]

theorem insertionAt_apply (page target : Page) (v : List UInt8) (index : Nat) :
    (insertionAt page v index).apply target =
      setPVersion (setLastIndex (write (move target (recordOffset page index + recordSize page)
        (recordOffset page index) ((count page - index) * recordSize page))
        (recordOffset page index) v) (count page)) ((pVersion page + 1) % 2 ^ 64) := by
  rw [Insertion.apply, slot_insertionAt, slot_insertionAt, insertionAt, recordOffset_succ]

section Insertions

theorem WellFormed.slot_within (hpage : WellFormed schema size page)
    (hroom : count page < kCardinality page) (hindex : index ≤ count page) :
    recordOffset page index + recordSize page < kLeafPageSize := by
  have hend : recordOffset page (count page + 1) < kLeafPageSize := hpage.recordOffset_lt hroom
  have hle : recordOffset page (index + 1) ≤ recordOffset page (count page + 1) :=
    recordOffset_mono page (Nat.succ_le_succ hindex)
  rw [recordOffset_succ page index] at hle
  omega

theorem WellFormed.move_within (hpage : WellFormed schema size page)
    (hroom : count page < kCardinality page) (hindex : index ≤ count page) :
    (DecodedOp.memmove (recordOffset page index + recordSize page) (recordOffset page index)
      ((count page - index) * recordSize page)).Within kLeafPageSize := by
  have hend : recordOffset page (count page + 1) < kLeafPageSize := hpage.recordOffset_lt hroom
  have hlast := recordOffset_succ page (count page)
  have hsrc := recordOffset_add page index (count page - index)
  rw [Nat.add_sub_cancel' hindex] at hsrc
  simp only [DecodedOp.Within]
  omega

theorem move_of_late (target : Page) (hlate : count page ≤ index) :
    move target (recordOffset page index + recordSize page) (recordOffset page index)
      ((count page - index) * recordSize page) = target := by
  rw [Nat.sub_eq_zero_of_le hlate, Nat.zero_mul, move, read_zero, write_nil]

end Insertions

/-! ### Leaf stores -/

section LeafStore

variable {replica : Page}

abbrev LeafWellFormed (schema : RecordSchema) (page : Page) : Prop :=
  WellFormed schema schema.getRecordTotalSize page

def Absent {schema : RecordSchema} (page : Page) (k : DynamicCompoundKey schema) : Prop :=
  ∀ i, i < count page → k.compare (getRecordKeyByIndex schema page i) ≠ .eq

instance {schema : RecordSchema} (page : Page) (k : DynamicCompoundKey schema) :
    Decidable (Absent page k) :=
  inferInstanceAs (Decidable (∀ i, i < _ → _))

theorem met_of_absent (hpage : WellFormed schema size page) (hcount : 0 < count page)
    (habs : Absent page k) : (searchRecords page k).2 = false := by
  by_contra hfound
  rw [Bool.not_eq_false] at hfound
  exact habs _ (hpage.searchRecords_lt hcount k) (compare_of_met hfound)

theorem leafSearched_of_absent (hpage : LeafWellFormed schema page) (habs : Absent page k)
    (v : List UInt8) :
    ∃ index, index ≤ count page ∧ leafSearched page k v = (page, .insert index) := by
  unfold leafSearched
  split
  · exact ⟨0, Nat.zero_le _, rfl⟩
  · rename_i hlast
    have hcount : 0 < count page := by
      have := hpage.lastIndex_eq
      omega
    have hlt := hpage.searchRecords_lt hcount k
    simp only [met_of_absent hpage hcount habs, Bool.false_eq_true, if_false]
    cases hcompare : k.compare (getRecordKeyByIndex schema page (searchRecords page k).1) with
    | gt => exact ⟨(searchRecords page k).1 + 1, hlt, rfl⟩
    | lt => exact ⟨0, Nat.zero_le _, rfl⟩
    | eq => exact absurd hcompare (habs _ hlt)

theorem leafInsert_page (hpage : LeafWellFormed schema page)
    (hindex : index ≤ count page) (v : List UInt8) (redoLogger : Bool) (pageAddr : Nat) :
    (leafInsert page v index redoLogger pageAddr).page =
      (insertionAt page v index).apply page := by
  have hlast := hpage.lastIndex_eq
  have hnext : lastIndex page + 1 = count page := by omega
  have hmove : (if (index : Int) ≤ lastIndex page then
      move page (recordOffset page index + recordSize page) (recordOffset page index)
        ((count page - index) * recordSize page) else page) =
      move page (recordOffset page index + recordSize page) (recordOffset page index)
        ((count page - index) * recordSize page) := by
    split
    · rfl
    · rw [move_of_late page (by omega)]
  simp only [leafInsert, hmove, hnext, insertionAt_apply]

theorem applyAll_shift {guard : Prop} [Decidable guard] (h : ¬guard → count page ≤ index) :
    applyAll (if guard then
      [.memmove (recordOffset page index + recordSize page) (recordOffset page index)
        ((count page - index) * recordSize page)] else []) 0 replica =
      move replica (recordOffset page index + recordSize page) (recordOffset page index)
        ((count page - index) * recordSize page) := by
  split
  · simp only [applyAll_cons, applyAll_nil, DecodedOp.apply, Nat.zero_add]
  · rename_i hguard
    rw [move_of_late replica (h hguard), applyAll_nil]

variable (hpage : LeafWellFormed schema page)
include hpage

theorem replayOps_leafStoreOps
    (hindex : index ≤ count page) {v : List UInt8} (hv : v.length = recordSize page) :
    replayOps (leafStoreOps page v index) ((pVersion page + 1) % 2 ^ 64) replica =
      (insertionAt page v index).apply replica := by
  have hlast := hpage.lastIndex_eq
  have hnext : lastIndex page + 1 = count page := by omega
  have htake : v.take (recordSize page) = v := by rw [← hv, take_length]
  unfold leafStoreOps replayOps
  rw [htake, hnext, applyAll_append, applyAll_shift (by omega)]
  simp only [applyAll_cons, applyAll_nil, DecodedOp.apply_update, Nat.zero_add, insertionAt_apply,
    setLastIndex, setPVersion, setField]

theorem leafStoreOps_within (hroom : count page < kCardinality page) (hindex : index ≤ count page)
    {v : List UInt8} (hv : v.length = recordSize page) :
    ∀ op ∈ leafStoreOps page v index, op.Within kLeafPageSize := by
  have hslot := hpage.slot_within hroom hindex
  intro op hop
  rcases mem_append.mp hop with hop | hop
  · split at hop
    · rw [mem_singleton.mp hop]
      exact hpage.move_within hroom hindex
    · cases hop
  · rcases mem_cons.mp hop with rfl | hop
    · simp only [DecodedOp.within_update, length_take]
      omega
    · rw [mem_singleton.mp hop]
      simp only [DecodedOp.within_update, lastIndexBytes_length]
      decide

theorem leafInsert_replicates (hroom : count page < kCardinality page) (hindex : index ≤ count page)
    {v : List UInt8} (hv : v.length = recordSize page) (haddr : pageAddr ≠ 0)
    (hbound : pageAddr < 2 ^ 64) :
    ∃ change, (leafInsert page v index true pageAddr).changes = [change] ∧
      Replicates change pageAddr (fun replica => LiveAgree replica page)
        (leafInsert page v index true pageAddr).page := by
  refine ⟨⟨pageAddr, (pVersion page + 1) % 2 ^ 64, leafStoreOps page v index⟩, ?_, ⟨hbound,
    Nat.mod_lt _ (by decide), ?_, leafStoreOps_within hpage hroom hindex hv, ?_⟩, rfl, ?_⟩
  · simp only [leafInsert, haddr, ne_eq, not_false_eq_true, and_self, if_true]
  · dsimp only [leafStoreOps]
    split <;> simp
  · intro offset value hmem
    rcases mem_append.mp hmem with hmem | hmem
    · split at hmem <;> simp at hmem
    · simp at hmem
  · intro replica hlive
    have hcard := hpage.kCardinality_lt
    have hlt : count page < 32768 := by omega
    rw [replayOps_leafStoreOps hpage hindex hv, leafInsert_page hpage hindex]
    exact (insertionAt page v index).liveAgree hindex hv hlt rfl rfl (liveAgree_iff.mp hlive)

theorem leafInsert_wellFormed (hroom : count page < kCardinality page) (hindex : index ≤ count page)
    (v : List UInt8) (redoLogger : Bool) (pageAddr : Nat) :
    LeafWellFormed schema (leafInsert page v index redoLogger pageAddr).page := by
  rw [leafInsert_page hpage hindex]
  exact Insertion.wellFormed hpage hroom

end LeafStore

/-! ### Internal stores -/

section InternalStore

variable {replica : Page}

structure InternalWellFormed (schema : RecordSchema) (page : Page) : Prop
    extends WellFormed schema (schema.getPrimaryKeyLength + 8) page where
  nonempty : 0 < count page

/-- The layout of an internal page, which no store changes. -/
structure InternalLayout (schema : RecordSchema) (page : Page) : Prop where
  keySize_eq : keySize page = schema.getPrimaryKeyLength
  recordSize_eq : recordSize page = schema.getPrimaryKeyLength + 8

theorem InternalLayout.congr (h : InternalLayout schema page) {other : Page}
    (hsame : SameLayout page other) : InternalLayout schema other :=
  ⟨hsame.keySize.trans h.keySize_eq, hsame.recordSize.trans h.recordSize_eq⟩

theorem sameLayout_write (page : Page) (i : Nat) (bytes : List UInt8) :
    SameLayout page (write page (recordOffset page i) bytes) :=
  (SameLayout.refl page).write (.inr (recordOffset_ge page i))

theorem setRecordByIndex_eq (h : InternalLayout schema page) (i : Nat)
    (key : DynamicCompoundKey schema) (gaddr : Nat) :
    setRecordByIndex page i key gaddr =
      write page (recordOffset page i) (key.bytes ++ natLE 8 gaddr) := by
  rw [setRecordByIndex, setField, write_append, key.length_eq, h.keySize_eq]

theorem setRecordByIndex_copy (h : InternalLayout schema page) {target : Page}
    (htgt : InternalLayout schema target) (i j : Nat) :
    setRecordByIndex target i (getRecordKeyByIndex schema page j) (getRecordValueByIndex page j) =
      write target (recordOffset target i) (read page (recordOffset page j) (recordSize page)) := by
  have hvalue := natLE_ofLE (read page (recordOffset page j + keySize page) 8)
  rw [read_length] at hvalue
  rw [setRecordByIndex_eq htgt, getRecordKeyByIndex, getRecordValueByIndex, field, hvalue,
    h.keySize_eq, h.recordSize_eq, read_add]

theorem shiftRecords_eq (index n : Nat) :
    ∀ page : Page, InternalLayout schema page →
      shiftRecords schema index n page =
        move page (recordOffset page (index + 1)) (recordOffset page index)
          (n * recordSize page) := by
  induction n with
  | zero =>
    intro page _
    rw [shiftRecords, Nat.zero_mul, move, read_zero, write_nil]
  | succ n ih =>
    intro page h
    have hsame := sameLayout_write page (index + n + 1)
      (read page (recordOffset page (index + n)) (recordSize page))
    have hlast := recordOffset_add page index n
    have htgt := recordOffset_add page (index + 1) n
    have hnext := recordOffset_succ page (index + n)
    rw [Nat.add_right_comm] at htgt
    rw [shiftRecords, setRecordByIndex_copy h h, ih _ (h.congr hsame), hsame.recordOffset,
      hsame.recordOffset, hsame.recordSize, move, read_write_disjoint page (.inr (by omega)),
      ← write_comm page (by rw [read_length]; omega), move, Nat.add_mul, Nat.one_mul, read_add,
      write_append, read_length, hlast, htgt]

theorem sameLayout_resetDirtyBounds (page : Page) : SameLayout page (resetDirtyBounds page) :=
  ((SameLayout.refl page).setField (by decide) 0).setField (by decide) 0

theorem resetDirtyBounds_wellFormed (hpage : WellFormed schema size page) :
    WellFormed schema size (resetDirtyBounds page) := by
  have hlast : lastIndex (resetDirtyBounds page) = lastIndex page := by
    unfold resetDirtyBounds setField
    rw [lastIndex_write (.inl (by simp; decide)), lastIndex_write (.inl (by simp; decide))]
  refine hpage.congr (sameLayout_resetDirtyBounds page) (hlast ▸ hpage.lastIndex_ge) ?_
  exact hpage.count_le

theorem agreeIn_resetDirtyBounds {keyLength recordLength n : Nat}
    (h : AgreeIn (LiveBytes keyLength recordLength n) replica page) :
    AgreeIn (LiveBytes keyLength recordLength n) replica (resetDirtyBounds page) := by
  refine (h.write_right fun address hlive => ?_).write_right fun address hlive => ?_
  all_goals
    unfold LiveBytes LiveHeader at hlive
    simp only [natLE_length, dirtyUpperBoundOffset, dirtyLowerBoundOffset]
    omega

variable (hpage : InternalWellFormed schema page)
include hpage

theorem internalInsertIndex_le (h : internalInsertIndex page k = some index) :
    index ≤ count page := by
  have hlt := hpage.searchRecords_lt hpage.nonempty k
  unfold internalInsertIndex at h
  dsimp only at h
  split at h
  · cases h
    exact Nat.zero_le _
  · split at h
    · cases h
    · cases h
      exact hlt

variable {result : StoreResult}

theorem internalPageStore_eq {value : Nat} {redoLogger : Bool}
    (h : internalPageStore page pageAddr k value redoLogger = some result) :
    ∃ index, internalInsertIndex page k = some index ∧
      result.page =
        (insertionAt page (k.bytes ++ natLE 8 value) index).apply (resetDirtyBounds page) ∧
      result.changes = if redoLogger then
          [⟨pageAddr, (pVersion page + 1) % 2 ^ 64, internalStoreOps page k value index⟩]
        else [] := by
  obtain ⟨index, hindex, rfl⟩ := Option.map_eq_some_iff.mp h
  have hlay : InternalLayout schema page := ⟨hpage.keySize_eq, hpage.recordSize_eq⟩
  have hsame := sameLayout_resetDirtyBounds page
  have hreset := hlay.congr hsame
  have hlast := hpage.lastIndex_eq
  have hnext : lastIndex page + 1 = count page := by omega
  have hshifted := sameLayout_write (resetDirtyBounds page) (index + 1)
    (read (resetDirtyBounds page) (recordOffset page index)
      ((count page - index) * recordSize page))
  rw [hsame.recordOffset] at hshifted
  refine ⟨index, hindex, ?_, rfl⟩
  rw [insertionAt_apply]
  dsimp only
  rw [shiftRecords_eq _ _ _ hreset, hsame.recordOffset, hsame.recordOffset, hsame.recordSize, move,
    setRecordByIndex_eq (hreset.congr hshifted), hshifted.recordOffset, hsame.recordOffset, hnext,
    recordOffset_succ]
  rfl

theorem replayOps_internalStoreOps
    (k : DynamicCompoundKey schema) (value : Nat) (hindex : index ≤ count page) :
    replayOps (internalStoreOps page k value index) ((pVersion page + 1) % 2 ^ 64) replica =
      (insertionAt page (k.bytes ++ natLE 8 value) index).apply replica := by
  have hlast := hpage.lastIndex_eq
  have hnext : lastIndex page + 1 = count page := by omega
  unfold internalStoreOps replayOps
  rw [hnext, applyAll_append, applyAll_shift (by omega)]
  simp only [applyAll_cons, applyAll_nil, DecodedOp.apply_update, Nat.zero_add, insertionAt_apply,
    setLastIndex, setPVersion, setField, write_append, k.length_eq, hpage.keySize_eq]

theorem internalStoreOps_within (hroom : count page < kCardinality page)
    (hindex : index ≤ count page) (k : DynamicCompoundKey schema) (value : Nat) :
    ∀ op ∈ internalStoreOps page k value index, op.Within kLeafPageSize := by
  have hslot := hpage.slot_within hroom hindex
  have hkey := hpage.keySize_eq
  have hrec := hpage.recordSize_eq
  have hlen := k.length_eq
  intro op hop
  rcases mem_append.mp hop with hop | hop
  · split at hop
    · rw [mem_singleton.mp hop]
      exact hpage.move_within hroom hindex
    · cases hop
  · simp only [mem_cons, not_mem_nil, or_false] at hop
    rcases hop with rfl | rfl | rfl
    · simp only [DecodedOp.within_update]
      omega
    · simp only [DecodedOp.within_update, natLE_length]
      omega
    · simp only [DecodedOp.within_update, lastIndexBytes_length]
      decide

theorem internalPageStore_replicates
    (hroom : count page < kCardinality page) {value : Nat} (hbound : pageAddr < 2 ^ 64)
    (h : internalPageStore page pageAddr k value true = some result) :
    ∃ change, result.changes = [change] ∧
      Replicates change pageAddr (fun replica => LiveAgree replica page) result.page := by
  obtain ⟨index, hsome, hres, hchgs⟩ := internalPageStore_eq hpage h
  have hindex := internalInsertIndex_le hpage hsome
  refine ⟨_, hchgs.trans (if_pos rfl), ⟨hbound, Nat.mod_lt _ (by decide), ?_,
    internalStoreOps_within hpage hroom hindex k value, ?_⟩, rfl, ?_⟩
  · dsimp only [internalStoreOps]
    split <;> simp
  · intro offset value hmem
    rcases mem_append.mp hmem with hmem | hmem
    · split at hmem <;> simp at hmem
    · simp at hmem
  · intro replica hlive
    have hcard := hpage.kCardinality_lt
    have hlt : count page < 32768 := by omega
    have hbytes : (k.bytes ++ natLE 8 value).length = recordSize page := by
      rw [length_append, k.length_eq, natLE_length, hpage.recordSize_eq]
    rw [replayOps_internalStoreOps hpage k value hindex, hres]
    exact Insertion.liveAgree hindex hbytes hlt (sameLayout_resetDirtyBounds page).keySize
      (sameLayout_resetDirtyBounds page).recordSize
      (agreeIn_resetDirtyBounds (liveAgree_iff.mp hlive))

theorem internalPageStore_wellFormed (hroom : count page < kCardinality page) {value : Nat}
    (h : internalPageStore page pageAddr k value true = some result) :
    InternalWellFormed schema result.page := by
  obtain ⟨index, -, hres, -⟩ := internalPageStore_eq hpage h
  have hcard := hpage.kCardinality_lt
  have hreset := resetDirtyBounds_wellFormed hpage.toWellFormed
  have hkeep := (sameLayout_resetDirtyBounds page).kCardinality
  have hlt : count page < 32768 := by omega
  rw [hres]
  refine ⟨Insertion.wellFormed hreset (hkeep.symm ▸ hroom), ?_⟩
  rw [Insertion.count_apply _ hlt]
  exact Nat.succ_pos _

end InternalStore

end MemoryEngine.Storage
