import MemoryEngine.Btr.SplitReplication
import MemoryEngine.Library.RecordedCounter
import MemoryEngine.Storage.DataPage
import MemoryEngine.Storage.LeafUpdates
import MemoryEngine.Txn.CommitReplication

/-! What each operation on a page does to its version and to the log.

Every operation takes the next versions of the page, one or two of them or none, and
appends a record for all of these or for none. -/
namespace MemoryEngine.VersionHistory

open ByteMemory LogCodec LogReplayer RedoLog RecordedCounter Storage Btr Txn

/-- From version `before` the page goes through the versions of `advance`. -/
structure PageAdvance (pageAddr before : Nat) (page : Page) (changes : List PageChange)
    (advance : Advance) : Prop where
  version : pVersion page = before + advance.values
  gaddr : ∀ change ∈ changes, change.pageGaddr = pageAddr
  recorded : changes.map PageChange.pageVersion =
    if advance.logged then List.range' (before + 1) advance.values else []

section Versions

variable {page : Page} {pageAddr before : Nat}

theorem pVersion_write {start : Nat} {bytes : List UInt8}
    (h : start + bytes.length ≤ 16 ∨ 24 ≤ start) :
    pVersion (write page start bytes) = pVersion page :=
  field_write h

theorem pVersion_setField {offset width value : Nat} (h : offset + width ≤ 16 ∨ 24 ≤ offset) :
    pVersion (setField page offset width value) = pVersion page :=
  pVersion_write (by rwa [natLE_length])

theorem next_version (h : pVersion page + 2 < 2 ^ 64) :
    (pVersion page + 1) % 2 ^ 64 = pVersion page + 1 :=
  Nat.mod_eq_of_lt (by omega)

theorem PageAdvance.unchanged (h : pVersion page = before) :
    PageAdvance pageAddr before page [] .none :=
  ⟨h, fun _ hmem => absurd hmem List.not_mem_nil, rfl⟩

theorem PageAdvance.one (h : pVersion page = before + 1) (logged : Bool) (ops : List DecodedOp) :
    PageAdvance pageAddr before page (if logged then [⟨pageAddr, before + 1, ops⟩] else [])
      ⟨1, logged⟩ := by
  cases logged with
  | true => exact ⟨h, by simp, rfl⟩
  | false => exact ⟨h, by simp, rfl⟩

end Versions

/-! ### Index pages -/

section Index

variable {schema : RecordSchema} {page : Page} {pageAddr : Nat}

theorem leafInsert_advance (hver : pVersion page + 2 < 2 ^ 64) (v : List UInt8)
    (insertIndex : Nat) (redoLogger : Bool) (haddr : pageAddr ≠ 0) :
    PageAdvance pageAddr (pVersion page) (leafInsert page v insertIndex redoLogger pageAddr).page
      (leafInsert page v insertIndex redoLogger pageAddr).changes ⟨1, redoLogger⟩ := by
  have hpage : pVersion (leafInsert page v insertIndex redoLogger pageAddr).page =
      pVersion page + 1 := by
    simp only [leafInsert, next_version hver]
    exact pVersion_setPVersion _ (by omega)
  have hone : PageAdvance pageAddr _ _ _ _ :=
    .one hpage redoLogger (leafStoreOps page v insertIndex)
  simpa only [leafInsert, next_version hver, haddr, ne_eq, not_false_eq_true, and_true]
    using hone

theorem recordOffset_after_version (page : Page) (index : Nat) : 24 ≤ recordOffset page index :=
  Nat.le_trans (by decide) (recordOffset_ge page index)

def storesNewRecord (page : Page) (k : DynamicCompoundKey schema) (v : List UInt8) : Bool :=
  match (leafSearched page k v).2 with
  | .insert _ => true
  | .update _ => false

theorem pVersion_leafSearched (page : Page) (k : DynamicCompoundKey schema) (v : List UInt8) :
    pVersion (leafSearched page k v).1 = pVersion page := by
  have hcopy : pVersion (if (searchRecords page k).2 then
      write page (recordOffset page (searchRecords page k).1) (v.take (recordSize page))
      else page) = pVersion page := by
    split
    · exact pVersion_write (.inr (recordOffset_after_version _ _))
    · rfl
  unfold leafSearched
  split
  · rfl
  · dsimp only
    split
    · exact hcopy
    · exact hcopy
    · exact hcopy

theorem leafPageStore_advance (hver : pVersion page + 2 < 2 ^ 64)
    (k : DynamicCompoundKey schema) (v : List UInt8) (redoLogger : Bool) (haddr : pageAddr ≠ 0) :
    PageAdvance pageAddr (pVersion page) (leafPageStore page k v redoLogger pageAddr).page
      (leafPageStore page k v redoLogger pageAddr).changes
      (if storesNewRecord page k v then ⟨1, redoLogger⟩ else .none) := by
  have hsame := pVersion_leafSearched page k v
  unfold leafPageStore storesNewRecord
  rcases hsrch : leafSearched page k v with ⟨searched, position⟩
  rw [hsrch] at hsame
  cases position with
  | insert insertIndex =>
    rw [← hsame] at hver ⊢
    exact leafInsert_advance hver v insertIndex redoLogger haddr
  | update index =>
    exact .unchanged ((pVersion_write (.inr (recordOffset_after_version _ _))).trans hsame)

theorem internalPageStore_advance (hver : pVersion page + 2 < 2 ^ 64)
    {k : DynamicCompoundKey schema} {value : Nat} {redoLogger : Bool} {result : StoreResult}
    (h : internalPageStore page pageAddr k value redoLogger = some result) :
    PageAdvance pageAddr (pVersion page) result.page result.changes ⟨1, redoLogger⟩ := by
  obtain ⟨insertIndex, -, rfl⟩ := Option.map_eq_some_iff.mp h
  simp only [next_version hver]
  exact .one (pVersion_setPVersion _ (by omega)) redoLogger _

def deletesRecord (page : Page) (k : DynamicCompoundKey schema) : Bool :=
  decide (lastIndex page = -1) ||
    decide (k.compare (getRecordKeyByIndex schema page (searchRecords page k).1) = .eq)

/-- `Btr::leaf_page_delete` resets `find_value` before, so no delete is logged. -/
theorem leafRemove_advance (hver : pVersion page + 2 < 2 ^ 64) (index : Nat) (redoLogger : Bool) :
    PageAdvance pageAddr (pVersion page) (leafRemove page index false redoLogger pageAddr).page
      (leafRemove page index false redoLogger pageAddr).changes ⟨1, false⟩ := by
  have hpage : pVersion (leafRemove page index false redoLogger pageAddr).page =
      pVersion page + 1 := by
    simp only [leafRemove, next_version hver]
    exact pVersion_setPVersion _ (by omega)
  have hone : PageAdvance pageAddr _ _ _ _ := .one hpage false []
  simpa only [leafRemove, Bool.false_eq_true, and_false, if_false] using hone

theorem leafPageDelete_advance (hver : pVersion page + 2 < 2 ^ 64) {k : DynamicCompoundKey schema}
    {redoLogger : Bool} {result : DeleteResult}
    (hrun : leafPageDelete page k false redoLogger pageAddr = some result) :
    PageAdvance pageAddr (pVersion page) result.page result.changes
      (if deletesRecord page k then ⟨1, false⟩ else .none) := by
  have horder : k.compareUnbound = some .eq := by
    unfold DynamicCompoundKey.compareUnbound
    split
    · rename_i hreads
      simp [leafPageDelete, DynamicCompoundKey.compareUnbound, hreads] at hrun
    · rfl
  simp only [leafPageDelete, horder, Option.bind_eq_bind, Option.bind_some, reduceCtorEq, false_or,
    Option.pure_def] at hrun
  by_cases hempty : lastIndex page = -1
  · rw [if_pos hempty] at hrun
    cases hrun
    simp only [deletesRecord, hempty, decide_true, Bool.true_or, if_true]
    exact leafRemove_advance hver 0 redoLogger
  · rw [if_neg hempty] at hrun
    simp only [deletesRecord, hempty, decide_false, Bool.false_or, decide_eq_true_eq]
    split at hrun
    · rename_i heq
      cases hrun
      rw [if_pos heq]
      exact leafRemove_advance hver _ redoLogger
    · rename_i hne
      cases hrun
      rw [if_neg hne]
      exact .unchanged rfl

/-! ### New index pages -/

theorem pVersion_setFences (page : Page) : pVersion (setFences schema page) = pVersion page := by
  rw [setFences, setLowest, setHighest, pVersion_write (.inr (by simp only [dataOffset]; omega)),
    pVersion_write (.inr (by decide))]

theorem pVersion_newLeafPage (schema : RecordSchema) (buffer : Page) (thisPage level : Nat) :
    pVersion (newLeafPage schema buffer thisPage level) = 1 := by
  rw [newLeafPage, pVersion_setFences]
  exact pVersion_setPVersion _ (by decide)

theorem pVersion_newInternalPage (schema : RecordSchema) (buffer : Page) (thisPage level : Nat) :
    pVersion (newInternalPage schema buffer thisPage level) = 1 := by
  rw [newInternalPage, pVersion_setFences]
  exact pVersion_setPVersion _ (by decide)

theorem updateNewRoot_advance (left : Nat) (k : DynamicCompoundKey schema)
    (right newRootAddr level : Nat) (redoLogger : Bool) :
    PageAdvance newRootAddr 0 (updateNewRoot left k right newRootAddr level redoLogger).1
      (updateNewRoot left k right newRootAddr level redoLogger).2 ⟨1, redoLogger⟩ := by
  cases redoLogger with
  | true =>
    have hpage : pVersion (updateNewRoot left k right newRootAddr level true).1 = 0 + 1 :=
      pVersion_setPVersion _ (by decide)
    exact .one hpage true _
  | false =>
    have hpage : pVersion (updateNewRoot left k right newRootAddr level false).1 = 0 + 1 := by
      simp only [updateNewRoot, Bool.false_eq_true, if_false, newRootPage, pVersion_setFences]
      exact pVersion_setPVersion _ (by decide)
    exact .one hpage false []

/-! ### Splits -/

def SplitAdvance (pageAddr siblingAddr before : Nat) (result : SplitResult)
    (redoLogger : Bool) : Prop :=
  ∃ old new, result.changes = old ++ new ∧
    PageAdvance pageAddr before result.page old ⟨1, redoLogger⟩ ∧
    PageAdvance siblingAddr 0 result.sibling new ⟨1, redoLogger⟩

theorem logPageSplit_advance (hver : pVersion page + 2 < 2 ^ 64) {sibling : Page}
    (hsib : pVersion sibling = 1) (redoLogger : Bool) (siblingAddr : Nat) :
    SplitAdvance pageAddr siblingAddr (pVersion page)
      (logPageSplit redoLogger pageAddr page siblingAddr sibling) redoLogger := by
  have hpage : pVersion (logPageSplit redoLogger pageAddr page siblingAddr sibling).page =
      pVersion page + 1 := by
    simp only [logPageSplit, next_version hver]
    exact pVersion_setPVersion _ (by omega)
  have hold : PageAdvance pageAddr _ _ _ _ := .one hpage redoLogger
    (copyOps (setPVersion page (pVersion page + 1))
      (oldPageBlocks (setPVersion page (pVersion page + 1))))
  have hnew : PageAdvance siblingAddr 0 _ _ _ :=
    .one hsib redoLogger (copyOps sibling (newPageBlocks sibling))
  refine ⟨_, _, ?_, hold, hnew⟩
  simp only [logPageSplit, next_version hver, newPageChange, Nat.zero_add]
  cases redoLogger with
  | true => rfl
  | false => rfl

theorem pVersion_shortened (page : Page) (last : Int) (highest : DynamicCompoundKey schema)
    (siblingAddr : Nat) :
    pVersion (setSiblingPtr (setHighest (setLastIndex page last) highest) siblingAddr) =
      pVersion page := by
  rw [setSiblingPtr, pVersion_setField (.inr (by decide)), setHighest,
    pVersion_write (.inr (by decide)), setLastIndex, pVersion_write (.inr (by decide))]

theorem pVersion_linkSibling (page : Page) (m : Nat) (sibling : Page) :
    pVersion (linkSibling schema page m sibling) = pVersion sibling := by
  rw [linkSibling, setSiblingPtr, pVersion_setField (.inr (by decide)), setHighest,
    pVersion_write (.inr (by decide)), setLowest,
    pVersion_write (.inr (by simp only [dataOffset]; omega))]

theorem pVersion_leafSibling (page buffer : Page) (siblingAddr cnt : Nat) :
    pVersion (leafSibling schema page buffer siblingAddr cnt) = 1 := by
  have hcopy := field_of_header (agreeOn_copyUpperHalf schema page (cnt / 2) cnt
    (setGlobalLock (newLeafPage schema buffer siblingAddr (level page)) 0))
    (show pVersionOffset + 8 ≤ 64 by decide)
  refine (pVersion_linkSibling page (cnt / 2) _).trans ?_
  refine hcopy.trans ((pVersion_setField (.inl (by decide))).trans ?_)
  exact pVersion_newLeafPage schema buffer siblingAddr (level page)

theorem pVersion_internalSibling (page buffer : Page) (siblingAddr cnt : Nat) :
    pVersion (internalSibling schema page buffer siblingAddr cnt) = 1 := by
  have hcopy := fun sibling => field_of_header
    (agreeOn_copyRecords schema page (cnt / 2) cnt sibling)
    (show pVersionOffset + 8 ≤ 64 by decide)
  refine (pVersion_linkSibling page (cnt / 2) _).trans ?_
  refine (hcopy _).trans ?_
  refine (pVersion_write (.inr (by decide))).trans ((pVersion_setField (.inl (by decide))).trans ?_)
  exact pVersion_newInternalPage schema buffer siblingAddr (level page)

theorem leafPageSplit_advance (hver : pVersion page + 2 < 2 ^ 64) (buffer : Page)
    (siblingAddr cnt : Nat) (redoLogger : Bool) :
    SplitAdvance pageAddr siblingAddr (pVersion page)
      (leafPageSplit schema page buffer pageAddr siblingAddr cnt redoLogger) redoLogger := by
  have hsame := pVersion_shortened page (lastIndex page - ((cnt : Int) - (cnt / 2 : Nat)))
    (getRecordKeyByIndex schema page (cnt / 2)) siblingAddr
  rw [← hsame] at hver ⊢
  exact logPageSplit_advance hver (pVersion_leafSibling page buffer siblingAddr cnt) redoLogger
    siblingAddr

theorem internalPageSplit_advance (hver : pVersion page + 2 < 2 ^ 64) (buffer : Page)
    (siblingAddr cnt : Nat) (redoLogger : Bool) :
    SplitAdvance pageAddr siblingAddr (pVersion page)
      (internalPageSplit schema page buffer pageAddr siblingAddr cnt redoLogger) redoLogger := by
  have hsame := pVersion_shortened page (lastIndex page - ((cnt : Int) - (cnt / 2 : Nat)))
    (getRecordKeyByIndex schema page (cnt / 2)) siblingAddr
  rw [← hsame] at hver ⊢
  exact logPageSplit_advance hver (pVersion_internalSibling page buffer siblingAddr cnt)
    redoLogger siblingAddr

end Index

/-! ### Data pages -/

section Data

variable {schema : RecordSchema} {page : Page} {pageAddr : Nat}

theorem bitmapBlock_after_version (index : Nat) : 24 ≤ bitmapOffset + 8 * index := by
  simp only [bitmapOffset]
  omega

theorem pVersion_newDataPage (buffer : Page) (thisPage cardinality tableId : Nat) :
    pVersion (newDataPage buffer thisPage cardinality tableId) = 1 := by
  rw [newDataPage, fill, pVersion_write (.inr (by decide)), resetDirtyBounds,
    pVersion_setField (.inl (by decide)), pVersion_setField (.inl (by decide))]
  exact pVersion_setPVersion _ (by decide)

theorem pVersion_allocateRecord {allocated : AllocatedRecord}
    (h : allocateRecord schema page = some allocated) :
    pVersion allocated.page = pVersion page ∧ bitmapOffset ≤ allocated.offset := by
  obtain ⟨emptySlot, -, rfl⟩ := Option.map_eq_some_iff.mp h
  refine ⟨?_, by dsimp only; omega⟩
  rw [pVersion_setField (.inr (by decide)), setBitmap,
    pVersion_setField (.inr (bitmapBlock_after_version _))]

variable {allocation : Allocation}

theorem allocateInPage_advance (hver : pVersion page + 2 < 2 ^ 64)
    (h : allocateInPage schema page pageAddr = some allocation) :
    PageAdvance pageAddr (pVersion page) allocation.page allocation.changes ⟨1, true⟩ := by
  obtain ⟨allocated, halloc, rfl⟩ := Option.map_eq_some_iff.mp h
  obtain ⟨hsame, hoff⟩ := pVersion_allocateRecord halloc
  simp only [hsame, next_version hver]
  refine .one ?_ true _
  rw [hideRecord, pVersion_write (.inr (by simp only [bitmapOffset] at hoff; omega))]
  exact pVersion_setPVersion _ (by omega)

theorem allocateNewRecord_advance {buffer : Page} {tableId : Nat}
    (h : allocateNewRecord schema none buffer pageAddr tableId = some allocation) :
    PageAdvance pageAddr 0 allocation.page allocation.changes ⟨2, true⟩ := by
  obtain ⟨allocated, halloc, rfl⟩ := Option.map_eq_some_iff.mp h
  have hone : pVersion (initDataPage schema buffer pageAddr tableId).1 = 1 :=
    pVersion_setPVersion _ (by decide)
  obtain ⟨hver, hgaddr, hrecorded⟩ := allocateInPage_advance (by rw [hone]; decide) halloc
  rw [hone] at hver hrecorded
  refine ⟨hver, ?_, ?_⟩
  · rintro change hmem
    rcases List.mem_append.mp hmem with hmem | hmem
    · rw [List.mem_singleton.mp hmem]
    · exact hgaddr change hmem
  · rw [List.map_append, hrecorded]
    rfl

theorem allocateNewTuple_advance {opened : Option Page} {buffer : Page} {tableId : Nat}
    (h : allocateNewTuple schema opened buffer pageAddr tableId = some allocation) :
    PageAdvance pageAddr ((opened.map pVersion).getD 0) allocation.page allocation.changes
      (if opened = none then ⟨1, false⟩ else .none) := by
  obtain ⟨allocated, halloc, rfl⟩ := Option.map_eq_some_iff.mp h
  have hsame := (pVersion_allocateRecord halloc).1
  cases opened with
  | none =>
    exact .one (hsame.trans (pVersion_newDataPage _ _ _ _)) false []
  | some page =>
    exact .unchanged hsame

theorem commitAccess_advance (hver : pVersion page + 2 < 2 ^ 64) {access : Access}
    (h : access.Formed) (commitTs : Nat) (slot : DeltaSlot) :
    PageAdvance access.pageAddr (pVersion page) (commitAccess true commitTs access slot page).page
      (commitAccess true commitTs access slot page).changes
      (if access.Writes then ⟨1, true⟩ else .none) := by
  by_cases hwrites : access.Writes
  · obtain ⟨final, hlogs, hpage, hchgs⟩ := commitAccess_of_writes h hwrites commitTs slot page
    have hstart := h.start
    rw [hpage, hchgs, if_pos hwrites, tupleChange, hlogs.pageAddr, next_version hver]
    refine .one ?_ true _
    rw [Access.copyToPage, hlogs.offset, pVersion_write (.inr (by omega)), nextVersion,
      next_version hver]
    exact pVersion_setPVersion _ (by omega)
  · rw [commitAccess_of_not_writes hwrites, if_neg hwrites]
    exact .unchanged rfl

end Data

end MemoryEngine.VersionHistory
