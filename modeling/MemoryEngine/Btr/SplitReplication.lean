import MemoryEngine.Btr.Split

/-! Splits and new roots on a replica.

The record of a new page carries all of its live content, so nothing is asked of the
replica at its address.  The record of the old page carries the fields that a split
changes. -/
namespace MemoryEngine.Btr

open ByteMemory LogCodec LogReplayer RedoLog Storage

/-! ### Headers of new pages -/

structure Sized (keyLength recordLength cardinality : Nat) (page : Page) : Prop where
  keySize_eq : keySize page = keyLength
  recordSize_eq : recordSize page = recordLength
  kCardinality_eq : kCardinality page = cardinality

structure Fresh (keyLength recordLength cardinality : Nat) (page : Page) : Prop
    extends Sized keyLength recordLength cardinality page where
  version : pVersion page = 1

def KeepsSizes (start length : Nat) : Prop :=
  start + length ≤ 52 ∨ 60 ≤ start ∧ start + length ≤ 62 ∨ 64 ≤ start

section Headers

variable {keyLength recordLength cardinality : Nat} {page other : Page} {start : Nat}
  {bytes : List UInt8}

theorem Sized.write (h : Sized keyLength recordLength cardinality page)
    (hkeeps : KeepsSizes start bytes.length) :
    Sized keyLength recordLength cardinality (ByteMemory.write page start bytes) := by
  unfold KeepsSizes at hkeeps
  refine ⟨Eq.trans (field_write ?_) h.keySize_eq, Eq.trans (field_write ?_) h.recordSize_eq,
    Eq.trans (field_write ?_) h.kCardinality_eq⟩
  · simp only [keySizeOffset]
    omega
  · simp only [recordSizeOffset]
    omega
  · simp only [kCardinalityOffset]
    omega

theorem Fresh.write (h : Fresh keyLength recordLength cardinality page)
    (hkeeps : KeepsSizes start bytes.length) (hver : start + bytes.length ≤ 16 ∨ 24 ≤ start) :
    Fresh keyLength recordLength cardinality (ByteMemory.write page start bytes) :=
  ⟨h.toSized.write hkeeps,
    Eq.trans (field_write (by simp only [pVersionOffset]; omega)) h.version⟩

theorem Fresh.write_data (h : Fresh keyLength recordLength cardinality page) (hdata : 64 ≤ start) :
    Fresh keyLength recordLength cardinality (ByteMemory.write page start bytes) :=
  h.write (.inr (.inr hdata)) (.inr (by omega))

theorem field_of_header (h : AgreeOn other page 0 64) {offset width : Nat}
    (hle : offset + width ≤ 64) : field other offset width = field page offset width := by
  rw [field, field, read_congr (h.mono (Nat.zero_le _) (by omega))]

theorem Fresh.of_header (h : Fresh keyLength recordLength cardinality page)
    (hhdr : AgreeOn other page 0 64) : Fresh keyLength recordLength cardinality other :=
  ⟨⟨(field_of_header hhdr (by decide)).trans h.keySize_eq,
    (field_of_header hhdr (by decide)).trans h.recordSize_eq,
    (field_of_header hhdr (by decide)).trans h.kCardinality_eq⟩,
    (field_of_header hhdr (by decide)).trans h.version⟩

theorem lastIndex_of_header (hhdr : AgreeOn other page 0 64) :
    lastIndex other = lastIndex page := by
  unfold lastIndex
  rw [field_of_header hhdr (by decide)]

theorem sized_setSizes (page : Page) (hkey : keyLength < 2 ^ 32) (hrec : recordLength < 2 ^ 32)
    (hcard : cardinality < 2 ^ 16) :
    Sized keyLength recordLength cardinality
      (setSizes page keyLength recordLength cardinality) := by
  unfold setSizes
  refine ⟨?_, ?_, field_setField hcard⟩
  · rw [keySize, setField, field_write (.inr (by decide)), setField,
      field_write (.inr (by decide))]
    exact field_setField hkey
  · rw [recordSize, setField, field_write (.inr (by decide))]
    exact field_setField hrec

theorem Sized.setPVersion (h : Sized keyLength recordLength cardinality page) :
    Fresh keyLength recordLength cardinality (setPVersion page 1) :=
  ⟨h.write (.inl (by simp; decide)), field_setField (by decide)⟩

theorem Fresh.setFences (h : Fresh keyLength recordLength cardinality page)
    (schema : RecordSchema) : Fresh keyLength recordLength cardinality (setFences schema page) :=
  (h.write_data (by decide)).write_data (Nat.le_add_right _ _)

end Headers

/-! ### Constructors -/

structure RecordFits (keyLength recordLength : Nat) : Prop where
  positive : 0 < recordLength
  room : dataOffset + 2 * keyLength + recordLength < kLeafPageSize

variable {page : Page} {cardinality pageAddr keyLength recordLength : Nat}

section Constructors

variable {schema : RecordSchema} {keyLength recordLength : Nat}

section

variable (h : RecordFits keyLength recordLength)
include h

theorem calculateCardinality_room :
    dataOffset + 2 * keyLength +
      calculateCardinality kLeafPageSize keyLength recordLength * recordLength < kLeafPageSize := by
  have hroom := h.room
  have hmul := Nat.div_mul_le_self
    ((kLeafPageSize + 2 ^ 64 - (dataOffset + 2 * keyLength + 1) % 2 ^ 64) % 2 ^ 64) recordLength
  unfold calculateCardinality
  simp only [dataOffset, kLeafPageSize] at hroom hmul ⊢
  omega

theorem calculateCardinality_lt :
    calculateCardinality kLeafPageSize keyLength recordLength < 2 ^ 16 := by
  have hroom := calculateCardinality_room h
  have hmul : calculateCardinality kLeafPageSize keyLength recordLength * 1 ≤
      calculateCardinality kLeafPageSize keyLength recordLength * recordLength :=
    Nat.mul_le_mul_left _ h.positive
  simp only [dataOffset, kLeafPageSize] at *
  omega

theorem RecordFits.sized (page : Page) :
    Sized keyLength recordLength (calculateCardinality kLeafPageSize keyLength recordLength)
      (setSizes page keyLength recordLength
        (calculateCardinality kLeafPageSize keyLength recordLength)) := by
  have hroom := h.room
  simp only [dataOffset, kLeafPageSize] at hroom
  exact sized_setSizes page (by omega) (by omega) (calculateCardinality_lt h)

end

theorem recordFits_of_wellFormed {size : Nat} (h : WellFormed schema size page)
    (hcount : 0 < count page) : RecordFits schema.getPrimaryKeyLength size := by
  have hslots := h.slots (Nat.le_trans hcount h.count_le)
  rw [h.keySize_eq, h.recordSize_eq, Nat.one_mul] at hslots
  exact ⟨h.positive, hslots⟩

abbrev LeafFresh (schema : RecordSchema) (page : Page) : Prop :=
  Fresh schema.getPrimaryKeyLength schema.getRecordTotalSize (leafCardinality schema) page

abbrev InternalFresh (schema : RecordSchema) (page : Page) : Prop :=
  Fresh schema.getPrimaryKeyLength (schema.getPrimaryKeyLength + 8) (internalCardinality schema)
    page

theorem newLeafPage_fresh
    (h : RecordFits schema.getPrimaryKeyLength schema.getRecordTotalSize) (buffer : Page)
    (thisPage level : Nat) : LeafFresh schema (newLeafPage schema buffer thisPage level) := by
  have hsizes := h.sized (setLevel (setPType (headerIndex buffer) .leafP) level)
  exact ((hsizes.write (.inl (by simp; decide))).setPVersion).setFences schema

theorem agreeOn_setRecordByIndex (page : Page) (i : Nat) (key : DynamicCompoundKey schema)
    (gaddr : Nat) : AgreeOn (setRecordByIndex page i key gaddr) page 0 64 := by
  have hge := recordOffset_ge page i
  exact (agreeOn_write _ (.inr (by omega))).trans (agreeOn_write _ (.inr (by omega)))

section

variable (h : Sized keyLength recordLength cardinality page)
include h

theorem Sized.of_header {other : Page} (hhdr : AgreeOn other page 0 64) :
    Sized keyLength recordLength cardinality other :=
  ⟨(field_of_header hhdr (by decide)).trans h.keySize_eq,
    (field_of_header hhdr (by decide)).trans h.recordSize_eq,
    (field_of_header hhdr (by decide)).trans h.kCardinality_eq⟩

theorem Sized.setPType (type : PageType) :
    Sized keyLength recordLength cardinality (setPType page type) :=
  h.write (.inl (by simp; decide))

theorem Sized.setLevel (level : Nat) :
    Sized keyLength recordLength cardinality (setLevel page level) :=
  h.write (.inr (.inl (by simp; decide)))

end

theorem newInternalPage_fresh
    (h : RecordFits schema.getPrimaryKeyLength (schema.getPrimaryKeyLength + 8)) (buffer : Page)
    (thisPage level : Nat) :
    InternalFresh schema (newInternalPage schema buffer thisPage level) := by
  have hsizes := ((h.sized (headerIndex buffer)).setPType .internalS).setLevel level
  have hrec := hsizes.of_header (agreeOn_setRecordByIndex _ 0 (.minValue schema) 0)
  exact ((hrec.write (.inl (by simp; decide))).setPVersion).setFences schema

def newRootHeader (schema : RecordSchema) (buffer : Page) (left level : Nat) : Page :=
  setLevel (setLeftmostPtr (setPType (setSizes (headerIndex buffer) schema.getPrimaryKeyLength
    (schema.getPrimaryKeyLength + 8) (internalCardinality schema)) .internalP) left) level

theorem newRootPage_fresh
    (h : RecordFits schema.getPrimaryKeyLength (schema.getPrimaryKeyLength + 8)) (buffer : Page)
    (left : Nat) (key : DynamicCompoundKey schema) (right thisPage level : Nat) :
    InternalFresh schema (newRootPage buffer left key right thisPage level) := by
  have hsizes : Sized _ _ _ (newRootHeader schema buffer left level) :=
    (((h.sized (headerIndex buffer)).setPType .internalP).write (.inl (by simp; decide))).setLevel
      level
  have hrec := hsizes.of_header (agreeOn_setRecordByIndex _ 0 key right)
  exact (((hrec.write (.inl (by simp; decide))).write
    (.inl (by simp; decide))).setPVersion).setFences schema

end Constructors

/-! ### Logged pages -/

section Logged

variable {page replica : Page} {pageAddr : Nat}

theorem read_pVersion (page : Page) : read page pVersionOffset 8 = natLE 8 (pVersion page) := by
  have hbytes := natLE_ofLE (read page pVersionOffset 8)
  exact hbytes.symm

theorem newPageBlocks_within (hroom : recordOffset page (count page) ≤ kLeafPageSize) :
    ∀ block ∈ newPageBlocks page, block.1 + block.2 ≤ kLeafPageSize := by
  have hrecs : recordsOffset page ≤ recordOffset page (count page) := Nat.le_add_right _ _
  have hkeys : dataOffset + 2 * keySize page ≤ kLeafPageSize := Nat.le_trans hrecs hroom
  intro block hblock
  rcases List.mem_append.mp hblock with hblock | hblock
  · simp only [List.mem_cons, List.not_mem_nil, or_false] at hblock
    rcases hblock with rfl | rfl | rfl
    · decide
    · dsimp only
      omega
    · dsimp only
      omega
  · split at hblock
    · rw [List.mem_singleton.mp hblock]
      exact hroom
    · cases hblock

theorem inBlocks_newPageBlocks {offset : Nat}
    (h : LiveBytes (keySize page) (recordSize page) (count page) offset) :
    InBlocks (newPageBlocks page) offset := by
  unfold newPageBlocks
  by_cases hhdr : offset < 64
  · refine ⟨(headerOffset, headerSize), by simp, ?_⟩
    unfold LiveBytes LiveHeader at h
    simp only [headerOffset, headerSize]
    omega
  rcases h with h | ⟨-, hlt⟩
  · unfold LiveHeader at h
    omega
  by_cases hhighest : offset < 64 + keySize page
  · exact ⟨(dataOffset, keySize page), by simp, by simp only [dataOffset]; omega⟩
  by_cases hlowest : offset < 64 + 2 * keySize page
  · exact ⟨(dataOffset + keySize page, keySize page), by simp, by simp only [dataOffset]; omega⟩
  have hpositive : 0 < lastIndex page + 1 := by
    by_contra hzero
    have hcount : count page = 0 := Int.toNat_of_nonpos (by omega)
    rw [hcount, Nat.zero_mul] at hlt
    omega
  rw [if_pos hpositive]
  exact ⟨(recordsOffset page, count page * recordSize page), by simp,
    by simp only [recordsOffset, dataOffset]; omega⟩

theorem newPageChange_replicates (hver : pVersion page = 1)
    (hroom : recordOffset page (count page) ≤ kLeafPageSize) (hbound : pageAddr < 2 ^ 64) :
    Replicates (newPageChange pageAddr page) pageAddr (fun _ => True) page := by
  refine ⟨copyOps_sound hbound (by decide) ?_ (newPageBlocks_within hroom), rfl, ?_⟩
  · unfold newPageBlocks
    split <;> simp
  · intro replica _
    have hnone : AgreeIn (fun _ => False) replica page := fun _ h => h.elim
    have hread : read page pVersionOffset 8 = natLE 8 1 := by rw [read_pVersion, hver]
    rw [liveAgree_iff]
    exact (agreeIn_replayOps_copyOps hnone (newPageBlocks page) hread).mono
      fun offset hlive => .inl (.inr (inBlocks_newPageBlocks hlive))

end Logged

/-! ### The old page of a split -/

/-- The old page, with `m` records left. -/
def splitPage {schema : RecordSchema} (page : Page) (m : Nat) (splitKey : DynamicCompoundKey schema)
    (siblingAddr version : Nat) : Page :=
  setPVersion (setSiblingPtr (setHighest (setLastIndex page ((m : Int) - 1)) splitKey) siblingAddr)
    version

section OldPage

variable {schema : RecordSchema} {size : Nat} {page replica : Page} {m : Nat}
  {splitKey : DynamicCompoundKey schema} {siblingAddr version : Nat}

theorem sameLayout_splitPage :
    SameLayout page (splitPage page m splitKey siblingAddr version) :=
  ((((SameLayout.refl page).setLastIndex _).write (.inr (by decide))).setField (by decide)
    _).setPVersion _

theorem lastIndex_splitPage (hm : m ≤ 32768) :
    lastIndex (splitPage page m splitKey siblingAddr version) = (m : Int) - 1 := by
  rw [splitPage, setPVersion, setField, setSiblingPtr, setField, setHighest,
    lastIndex_write (.inl (by simp; decide)), lastIndex_write (.inl (by simp; decide)),
    lastIndex_write (.inr (by decide)), lastIndex_setLastIndex (by omega) (by omega)]

theorem count_splitPage (hm : m ≤ 32768) :
    count (splitPage page m splitKey siblingAddr version) = m := by
  rw [count, lastIndex_splitPage hm]
  omega

theorem splitPage_wellFormed (hpage : WellFormed schema size page) (hm : m ≤ count page) :
    WellFormed schema size (splitPage page m splitKey siblingAddr version) := by
  have hcard := hpage.kCardinality_lt
  have hle := hpage.count_le
  refine hpage.congr sameLayout_splitPage ?_ ?_
  · rw [lastIndex_splitPage (by omega)]
    omega
  · rw [count_splitPage (by omega)]
    omega

theorem oldPageBlocks_splitPage :
    oldPageBlocks (splitPage page m splitKey siblingAddr version) =
      [(48, 2), (40, 8), (64, keySize page)] := by
  rfl

theorem agreeIn_splitPage (hpage : WellFormed schema size page) (hm : m ≤ count page)
    (splitKey : DynamicCompoundKey schema) (siblingAddr version : Nat)
    (h : AgreeIn (LiveBytes (keySize page) (recordSize page) (count page)) replica page) :
    AgreeIn (fun offset => LiveBytes (keySize page) (recordSize page) m offset ∧
        ¬ InBlocks [(48, 2), (40, 8), (64, keySize page)] offset ∧
        ¬ (16 ≤ offset ∧ offset < 24))
      replica (splitPage page m splitKey siblingAddr version) := by
  have hmul : m * recordSize page ≤ count page * recordSize page := Nat.mul_le_mul_right _ hm
  have hlen : splitKey.bytes.length = keySize page :=
    splitKey.length_eq.trans hpage.keySize_eq.symm
  have hkept : AgreeIn (fun offset => LiveBytes (keySize page) (recordSize page) m offset ∧
      ¬ InBlocks [(48, 2), (40, 8), (64, keySize page)] offset ∧ ¬ (16 ≤ offset ∧ offset < 24))
      replica page := by
    refine h.mono fun offset hoff => ?_
    rcases hoff.1 with hhdr | hdata
    · exact .inl hhdr
    · exact .inr (by omega)
  simp only [InBlocks, List.mem_cons, List.not_mem_nil, or_false, exists_eq_or_imp,
    exists_eq_left] at hkept ⊢
  refine (((hkept.write_right ?_).write_right ?_).write_right ?_).write_right ?_
  all_goals
    intro offset hoff
    simp only [lastIndexBytes_length, natLE_length, hlen, lastIndexOffset, dataOffset,
      siblingPtrOffset, pVersionOffset]
    omega

theorem splitPage_replicates (hpage : WellFormed schema size page) (hm : m ≤ count page)
    (hbound : pageAddr < 2 ^ 64) (hver : version < 2 ^ 64) :
    Replicates
      ⟨pageAddr, version, copyOps (splitPage page m splitKey siblingAddr version)
        (oldPageBlocks (splitPage page m splitKey siblingAddr version))⟩
      pageAddr (fun replica => LiveAgree replica page)
      (splitPage page m splitKey siblingAddr version) := by
  have hcard := hpage.kCardinality_lt
  have hle := hpage.count_le
  have hslots := hpage.slots (Nat.zero_le _)
  rw [oldPageBlocks_splitPage]
  refine ⟨copyOps_sound hbound hver (by simp) ?_, rfl, ?_⟩
  · intro block hblock
    simp only [List.mem_cons, List.not_mem_nil, or_false] at hblock
    rcases hblock with rfl | rfl | rfl
    · decide
    · decide
    · dsimp only
      omega
  · intro replica hlive
    have hread : read (splitPage page m splitKey siblingAddr version) pVersionOffset 8 =
        natLE 8 version := by
      rw [read_pVersion]
      exact congrArg (natLE 8) (field_setField hver)
    have hagree := agreeIn_splitPage hpage hm splitKey siblingAddr version (liveAgree_iff.mp hlive)
    rw [liveAgree_iff, sameLayout_splitPage.keySize, sameLayout_splitPage.recordSize,
      count_splitPage (by omega)]
    refine (agreeIn_replayOps_copyOps hagree _ hread).mono fun offset hoff => ?_
    by_cases hblock : InBlocks [(48, 2), (40, 8), (64, keySize page)] offset
    · exact .inl (.inr hblock)
    by_cases hin : 16 ≤ offset ∧ offset < 24
    · exact .inr hin
    · exact .inl (.inl ⟨hoff, hblock, hin⟩)

theorem logPageSplit_eq {last : Int} (hlast : last = (m : Int) - 1) (redoLogger : Bool)
    (pageAddr : Nat) (sibling : Page) :
    logPageSplit redoLogger pageAddr
        (setSiblingPtr (setHighest (setLastIndex page last) splitKey) siblingAddr) siblingAddr
        sibling =
      { page := splitPage page m splitKey siblingAddr ((pVersion page + 1) % 2 ^ 64)
        sibling := sibling
        changes := if redoLogger then
          [⟨pageAddr, (pVersion page + 1) % 2 ^ 64,
              copyOps (splitPage page m splitKey siblingAddr ((pVersion page + 1) % 2 ^ 64))
                (oldPageBlocks
                  (splitPage page m splitKey siblingAddr ((pVersion page + 1) % 2 ^ 64)))⟩,
            newPageChange siblingAddr sibling] else [] } := by
  have hver : pVersion (setSiblingPtr (setHighest (setLastIndex page last) splitKey)
      siblingAddr) = pVersion page := by
    rw [pVersion, setSiblingPtr, setField, setHighest, setLastIndex,
      field_write (.inr (by decide)), field_write (.inr (by decide)),
      field_write (.inr (by decide)), pVersion]
  subst hlast
  simp only [logPageSplit, hver, splitPage]

end OldPage

/-! ### Splits -/

/-- What a logged split leaves behind: two well-formed pages with `m` and `n` records,
the record of the old page and that of the new one, in this order. -/
structure SplitReplicates (schema : RecordSchema) (size m n : Nat) (page : Page)
    (pageAddr siblingAddr : Nat) (result : SplitResult) : Prop where
  pageFormed : WellFormed schema size result.page
  siblingFormed : WellFormed schema size result.sibling
  pageCount : count result.page = m
  siblingCount : count result.sibling = n
  changes : ∃ old, result.changes = [old, newPageChange siblingAddr result.sibling] ∧
    Replicates old pageAddr (fun replica => LiveAgree replica page) result.page
  new : Replicates (newPageChange siblingAddr result.sibling) siblingAddr (fun _ => True)
    result.sibling

section Splits

variable {schema : RecordSchema} {size : Nat} {page sibling : Page}

theorem kCardinality_le (h : WellFormed schema size page) :
    kCardinality page ≤ calculateCardinality kLeafPageSize schema.getPrimaryKeyLength size := by
  have hroom := h.room
  rw [h.keySize_eq, h.recordSize_eq] at hroom
  rw [calculateCardinality, Nat.le_div_iff_mul_le h.positive]
  simp only [dataOffset, kLeafPageSize] at hroom ⊢
  omega

theorem Fresh.wellFormed {n : Nat} (h : Fresh schema.getPrimaryKeyLength size
      (calculateCardinality kLeafPageSize schema.getPrimaryKeyLength size) page)
    (hfits : RecordFits schema.getPrimaryKeyLength size) (hlast : lastIndex page = (n : Int) - 1)
    (hn : n ≤ calculateCardinality kLeafPageSize schema.getPrimaryKeyLength size) :
    WellFormed schema size page := by
  have hcount : count page = n := by
    rw [count, hlast]
    omega
  refine ⟨h.keySize_eq, h.recordSize_eq, hfits.positive, by omega, ?_, ?_⟩
  · rw [hcount, h.kCardinality_eq]
    exact hn
  · rw [h.keySize_eq, h.recordSize_eq, h.kCardinality_eq]
    exact calculateCardinality_room hfits

theorem new_replicates (h : WellFormed schema size page) (hver : pVersion page = 1)
    (hbound : pageAddr < 2 ^ 64) :
    Replicates (newPageChange pageAddr page) pageAddr (fun _ => True) page :=
  newPageChange_replicates hver (Nat.le_of_lt (h.recordOffset_lt h.count_le)) hbound

variable {siblingAddr : Nat}

theorem logPageSplit_replicates (hpage : WellFormed schema size page) {m n : Nat}
    (hm : m ≤ count page) (hn : n ≤ count page) (hsib : Fresh schema.getPrimaryKeyLength size
      (calculateCardinality kLeafPageSize schema.getPrimaryKeyLength size) sibling)
    (hfits : RecordFits schema.getPrimaryKeyLength size) (hlast : lastIndex sibling = (n : Int) - 1)
    (hbound : pageAddr < 2 ^ 64) (hnew : siblingAddr < 2 ^ 64)
    (splitKey : DynamicCompoundKey schema) {last : Int} (hold : last = (m : Int) - 1) :
    SplitReplicates schema size m n page pageAddr siblingAddr
      (logPageSplit true pageAddr
        (setSiblingPtr (setHighest (setLastIndex page last) splitKey) siblingAddr) siblingAddr
        sibling) := by
  have hle := hpage.count_le
  have hcard := kCardinality_le hpage
  have hlt := hpage.kCardinality_lt
  have hform := hsib.wellFormed hfits hlast (by omega)
  have hcount : count sibling = n := by
    rw [count, hlast]
    omega
  rw [logPageSplit_eq hold]
  exact ⟨splitPage_wellFormed hpage hm, hform, count_splitPage (by omega), hcount,
    ⟨_, rfl, splitPage_replicates hpage hm hbound (Nat.mod_lt _ (by decide))⟩,
    new_replicates hform hsib.version hnew⟩

theorem agreeOn_foldl {step : Page → Nat → Page} (hstep : ∀ page i, AgreeOn (step page i) page 0 64)
    (turns : List Nat) (page : Page) : AgreeOn (turns.foldl step page) page 0 64 := by
  induction turns generalizing page with
  | nil => exact .refl _ _ _
  | cons i turns ih => exact (ih (step page i)).trans (hstep page i)

section

variable (h : Fresh keyLength recordLength cardinality page)
include h

theorem Fresh.setGlobalLock (word : Nat) :
    Fresh keyLength recordLength cardinality (setGlobalLock page word) := by
  unfold Btr.setGlobalLock setField
  exact h.write (.inl (by simp)) (.inl (by simp))

theorem Fresh.setLastIndex (index : Int) :
    Fresh keyLength recordLength cardinality (setLastIndex page index) :=
  h.write (.inl (by simp; decide)) (.inr (by decide))

theorem Fresh.setLeftmostPtr (gaddr : Nat) :
    Fresh keyLength recordLength cardinality (setLeftmostPtr page gaddr) :=
  h.write (.inl (by simp; decide)) (.inr (by decide))

end

def linkSibling (schema : RecordSchema) (page : Page) (m : Nat) (sibling : Page) : Page :=
  setSiblingPtr (setHighest (setLowest sibling (getRecordKeyByIndex schema page m))
    (getHighest schema page)) (siblingPtr page)

theorem Fresh.linkSibling
    (h : Fresh keyLength recordLength cardinality sibling) (schema : RecordSchema) (page : Page)
    (m : Nat) : Fresh keyLength recordLength cardinality (linkSibling schema page m sibling) :=
  ((h.write_data (Nat.le_add_right _ _)).write_data (by decide)).write (.inl (by simp; decide))
    (.inr (by decide))

theorem lastIndex_linkSibling (schema : RecordSchema) (page : Page) (m : Nat) (sibling : Page) :
    lastIndex (linkSibling schema page m sibling) = lastIndex sibling := by
  rw [linkSibling, setSiblingPtr, setField, setHighest, setLowest,
    lastIndex_write (.inl (by simp; decide)), lastIndex_write (.inr (by decide)),
    lastIndex_write (.inr (Nat.le_trans (by decide) (Nat.le_add_right dataOffset _)))]

theorem agreeOn_copyUpperHalf (schema : RecordSchema) (page : Page) (m cnt : Nat)
    (sibling : Page) : AgreeOn (copyUpperHalf schema page m cnt sibling) sibling 0 64 :=
  agreeOn_foldl (fun _ _ => agreeOn_write _ (.inr (Nat.le_add_right _ _))) _ _

theorem agreeOn_copyRecords (schema : RecordSchema) (page : Page) (m cnt : Nat)
    (sibling : Page) : AgreeOn (copyRecords schema page m cnt sibling) sibling 0 64 :=
  agreeOn_foldl (fun _ _ => agreeOn_setRecordByIndex _ _ _ _) _ _

theorem leafSibling_fresh (hfits : RecordFits schema.getPrimaryKeyLength schema.getRecordTotalSize)
    (page buffer : Page) (siblingAddr cnt : Nat) :
    LeafFresh schema (leafSibling schema page buffer siblingAddr cnt) := by
  have hfresh := (newLeafPage_fresh hfits buffer siblingAddr (level page)).setGlobalLock 0
  exact ((hfresh.of_header (agreeOn_copyUpperHalf schema page (cnt / 2) cnt _)).setLastIndex
    _).linkSibling schema page (cnt / 2)

theorem lastIndex_leafSibling {cnt : Nat} (hcnt : cnt < 32768) (schema : RecordSchema)
    (page buffer : Page) (siblingAddr : Nat) :
    lastIndex (leafSibling schema page buffer siblingAddr cnt) =
      ((cnt - cnt / 2 : Nat) : Int) - 1 :=
  (lastIndex_linkSibling schema page (cnt / 2) _).trans
    ((lastIndex_setLastIndex (by omega) (by omega)).trans (by omega))

theorem leafPageSplit_replicates (hpage : LeafWellFormed schema page) (hcount : 0 < count page)
    (buffer : Page) (hbound : pageAddr < 2 ^ 64) (hnew : siblingAddr < 2 ^ 64) :
    SplitReplicates schema schema.getRecordTotalSize (count page / 2)
      (count page - count page / 2) page pageAddr siblingAddr
      (leafPageSplit schema page buffer pageAddr siblingAddr (count page) true) := by
  have hfits := recordFits_of_wellFormed hpage hcount
  have hlast := hpage.lastIndex_eq
  have hcard := hpage.kCardinality_lt
  have hle := hpage.count_le
  refine logPageSplit_replicates hpage (by omega) (by omega)
    (leafSibling_fresh hfits page buffer siblingAddr (count page)) hfits ?_ hbound hnew _ (by omega)
  exact lastIndex_leafSibling (by omega) schema page buffer siblingAddr

theorem internalSibling_fresh
    (hfits : RecordFits schema.getPrimaryKeyLength (schema.getPrimaryKeyLength + 8))
    (page buffer : Page) (siblingAddr cnt : Nat) :
    InternalFresh schema (internalSibling schema page buffer siblingAddr cnt) := by
  have hfresh := ((newInternalPage_fresh hfits buffer siblingAddr (level page)).setGlobalLock
    0).setLastIndex ((cnt : Int) - (cnt / 2 : Nat) - 1 - 1)
  exact ((hfresh.of_header (agreeOn_copyRecords schema page (cnt / 2) cnt _)).setLeftmostPtr
    _).linkSibling schema page (cnt / 2)

theorem lastIndex_internalSibling {cnt : Nat} (hpos : 0 < cnt) (hcnt : cnt < 32768)
    (schema : RecordSchema) (page buffer : Page) (siblingAddr : Nat) :
    lastIndex (internalSibling schema page buffer siblingAddr cnt) =
      ((cnt - cnt / 2 - 1 : Nat) : Int) - 1 := by
  refine (lastIndex_linkSibling schema page (cnt / 2) _).trans ?_
  rw [setLeftmostPtr, setField, lastIndex_write (.inl (by simp; decide)),
    lastIndex_of_header (agreeOn_copyRecords schema page (cnt / 2) cnt _),
    lastIndex_setLastIndex (by omega) (by omega)]
  omega

theorem internalPageSplit_replicates (hpage : InternalWellFormed schema page) (buffer : Page)
    (hbound : pageAddr < 2 ^ 64) (hnew : siblingAddr < 2 ^ 64) :
    SplitReplicates schema (schema.getPrimaryKeyLength + 8) (count page / 2)
      (count page - count page / 2 - 1) page pageAddr siblingAddr
      (internalPageSplit schema page buffer pageAddr siblingAddr (count page) true) := by
  have hcount := hpage.nonempty
  have hfits := recordFits_of_wellFormed hpage.toWellFormed hcount
  have hlast := hpage.lastIndex_eq
  have hcard := hpage.kCardinality_lt
  have hle := hpage.count_le
  refine logPageSplit_replicates hpage.toWellFormed (by omega) (by omega)
    (internalSibling_fresh hfits page buffer siblingAddr (count page)) hfits ?_ hbound hnew _
    (by omega)
  exact lastIndex_internalSibling hcount (by omega) schema page buffer siblingAddr

end Splits

/-! ### New roots -/

section NewRoot

variable {schema : RecordSchema}

theorem lastIndex_newRootPage (buffer : Page) (left : Nat) (key : DynamicCompoundKey schema)
    (right thisPage level : Nat) :
    lastIndex (newRootPage buffer left key right thisPage level) = 0 := by
  rw [newRootPage, setFences, setLowest, setHighest, setPVersion, setField, setThisPageGPtr,
    setField, lastIndex_write (.inr (Nat.le_trans (by decide) (Nat.le_add_right dataOffset _))),
    lastIndex_write (.inr (by decide)), lastIndex_write (.inl (by simp; decide)),
    lastIndex_write (.inl (by simp; decide)), lastIndex_setLastIndex (by decide) (by decide)]

theorem calculateCardinality_pos (h : RecordFits keyLength recordLength) :
    1 ≤ calculateCardinality kLeafPageSize keyLength recordLength := by
  have hroom := h.room
  rw [calculateCardinality, Nat.le_div_iff_mul_le h.positive]
  simp only [dataOffset, kLeafPageSize] at hroom ⊢
  omega

theorem updateNewRoot_replicates
    (hfits : RecordFits schema.getPrimaryKeyLength (schema.getPrimaryKeyLength + 8))
    (left : Nat) (k : DynamicCompoundKey schema) (right : Nat) {newRootAddr : Nat}
    (hbound : newRootAddr < 2 ^ 64) (level : Nat) :
    InternalWellFormed schema (updateNewRoot left k right newRootAddr level true).1 ∧
      (updateNewRoot left k right newRootAddr level true).2 =
        [newPageChange newRootAddr (updateNewRoot left k right newRootAddr level true).1] ∧
      Replicates (newPageChange newRootAddr (updateNewRoot left k right newRootAddr level true).1)
        newRootAddr (fun _ => True) (updateNewRoot left k right newRootAddr level true).1 := by
  have hfresh := (newRootPage_fresh hfits (fun _ => 0) left k right newRootAddr
    level).toSized.setPVersion
  have hlast : lastIndex (setPVersion (newRootPage (fun _ => 0) left k right newRootAddr level) 1) =
      ((1 : Nat) : Int) - 1 := by
    rw [setPVersion, setField, lastIndex_write (.inl (by simp; decide)), lastIndex_newRootPage]
    rfl
  have hform := hfresh.wellFormed hfits hlast (calculateCardinality_pos hfits)
  refine ⟨⟨hform, ?_⟩, rfl, new_replicates hform hfresh.version hbound⟩
  simp only [updateNewRoot, if_true, count, hlast]
  decide

end NewRoot

end MemoryEngine.Btr
