import MemoryEngine.Storage.IndexPage

/-! The live content of an index page, and stores on a page and its replica.

The dirty bounds, the padding of the header and the bytes after the last record are
not part of the content. -/
namespace MemoryEngine.Storage

open ByteMemory LogCodec LogReplayer RedoLog

/-- Header fields other than the dirty bounds, both fence keys and the records, as
blocks of offset and length. -/
def liveBlocks (page : Page) : List (Nat × Nat) :=
  [(pTypeOffset, 4), (pVersionOffset, 8), (thisPageGPtrOffset, 8), (leftmostPtrOffset, 8),
    (siblingPtrOffset, 8), (lastIndexOffset, 2), (keySizeOffset, 4), (recordSizeOffset, 4),
    (levelOffset, 1), (kCardinalityOffset, 2), (dataOffset, keySize page),
    (dataOffset + keySize page, keySize page),
    (recordsOffset page, count page * recordSize page)]

def LiveAgree (replica page : Page) : Prop :=
  ∀ block ∈ liveBlocks page, AgreeOn replica page block.1 block.2

def LiveHeader (offset : Nat) : Prop :=
  8 ≤ offset ∧ offset < 12 ∨ 16 ≤ offset ∧ offset < 50 ∨ 52 ≤ offset ∧ offset < 61 ∨
    62 ≤ offset ∧ offset < 64

/-- The live bytes of a page with `n` records. -/
def LiveBytes (keySize recordSize n offset : Nat) : Prop :=
  LiveHeader offset ∨ 64 ≤ offset ∧ offset < 64 + 2 * keySize + n * recordSize

theorem liveAgree_iff {replica page : Page} :
    LiveAgree replica page ↔
      AgreeIn (LiveBytes (keySize page) (recordSize page) (count page)) replica page := by
  constructor
  · intro h offset hlive
    simp only [LiveAgree, liveBlocks, List.forall_mem_cons, recordsOffset, pTypeOffset,
      pVersionOffset, thisPageGPtrOffset, leftmostPtrOffset, siblingPtrOffset, lastIndexOffset,
      keySizeOffset, recordSizeOffset, levelOffset, kCardinalityOffset, dataOffset] at h
    obtain ⟨h1, h2, h3, h4, h5, h6, h7, h8, h9, h10, h11, h12, h13, -⟩ := h
    rcases hlive with (hl | hl | hl | hl) | hl
    · exact h1 offset (by omega) (by omega)
    · rcases Nat.lt_or_ge offset 24 with h24 | h24
      · exact h2 offset (by omega) (by omega)
      rcases Nat.lt_or_ge offset 32 with h32 | h32
      · exact h3 offset (by omega) (by omega)
      rcases Nat.lt_or_ge offset 40 with h40 | h40
      · exact h4 offset (by omega) (by omega)
      rcases Nat.lt_or_ge offset 48 with h48 | h48
      · exact h5 offset (by omega) (by omega)
      · exact h6 offset (by omega) (by omega)
    · rcases Nat.lt_or_ge offset 56 with h56 | h56
      · exact h7 offset (by omega) (by omega)
      rcases Nat.lt_or_ge offset 60 with h60 | h60
      · exact h8 offset (by omega) (by omega)
      · exact h9 offset (by omega) (by omega)
    · exact h10 offset (by omega) (by omega)
    · rcases Nat.lt_or_ge offset (64 + keySize page) with hk | hk
      · exact h11 offset (by omega) (by omega)
      rcases Nat.lt_or_ge offset (64 + 2 * keySize page) with hk | hk
      · exact h12 offset (by omega) (by omega)
      · exact h13 offset (by omega) (by omega)
  · intro h block hblock
    refine h.agreeOn fun offset hge hlt => ?_
    simp only [liveBlocks, recordsOffset, pTypeOffset, pVersionOffset, thisPageGPtrOffset,
      leftmostPtrOffset, siblingPtrOffset, lastIndexOffset, keySizeOffset, recordSizeOffset,
      levelOffset, kCardinalityOffset, dataOffset, List.mem_cons, List.not_mem_nil, or_false]
      at hblock
    unfold LiveBytes LiveHeader
    rcases hblock with rfl | rfl | rfl | rfl | rfl | rfl | rfl | rfl | rfl | rfl | rfl | rfl | rfl
    all_goals dsimp only at hge hlt
    all_goals omega

/-! ### Fields after a write -/

section Fields

variable {page : Page} {start : Nat} {bytes : List UInt8}

theorem field_write {offset width : Nat}
    (h : start + bytes.length ≤ offset ∨ offset + width ≤ start) :
    field (write page start bytes) offset width = field page offset width := by
  rw [field, field, read_write_disjoint page h]

theorem field_setField {offset width value : Nat} (h : value < 256 ^ width) :
    field (setField page offset width value) offset width = value := by
  have hread := read_write_same page offset (natLE width value)
  rw [natLE_length] at hread
  rw [field, setField, hread, ofLE_natLE_of_lt h]

def KeepsLayout (start length : Nat) : Prop := start + length ≤ 52 ∨ 64 ≤ start

structure SameLayout (page other : Page) : Prop where
  keySize : keySize other = keySize page
  recordSize : recordSize other = recordSize page
  kCardinality : kCardinality other = kCardinality page

namespace SameLayout

theorem refl (page : Page) : SameLayout page page := ⟨rfl, rfl, rfl⟩

variable {other : Page} (h : SameLayout page other)
include h

theorem write (hkeeps : KeepsLayout start bytes.length) :
    SameLayout page (ByteMemory.write other start bytes) := by
  unfold KeepsLayout at hkeeps
  refine ⟨(field_write ?_).trans h.keySize, (field_write ?_).trans h.recordSize,
    (field_write ?_).trans h.kCardinality⟩
  all_goals
    simp only [keySizeOffset, recordSizeOffset, kCardinalityOffset]
    omega

theorem setField {offset width : Nat} (hpre : offset + width ≤ 52) (value : Nat) :
    SameLayout page (setField other offset width value) :=
  h.write (.inl (by rwa [natLE_length]))

theorem setLastIndex (index : Int) : SameLayout page (setLastIndex other index) :=
  h.write (.inl (by rw [lastIndexBytes, natLE_length]; decide))

theorem setPVersion (version : Nat) : SameLayout page (setPVersion other version) :=
  h.setField (by decide) version

theorem recordOffset (i : Nat) : recordOffset other i = recordOffset page i := by
  rw [Storage.recordOffset, recordsOffset, h.keySize, h.recordSize, Storage.recordOffset,
    recordsOffset]

end SameLayout

theorem lastIndex_write (h : start + bytes.length ≤ 48 ∨ 50 ≤ start) :
    lastIndex (write page start bytes) = lastIndex page := by
  have hfield : field (write page start bytes) lastIndexOffset 2 = field page lastIndexOffset 2 :=
    field_write (by simp only [lastIndexOffset]; omega)
  unfold lastIndex
  rw [hfield]

theorem lastIndex_setLastIndex {index : Int} (hge : -32768 ≤ index) (hlt : index < 32768) :
    lastIndex (setLastIndex page index) = index := by
  have hbound : (index % 65536).toNat < 256 ^ 2 := by omega
  have hfield : field (setLastIndex page index) lastIndexOffset 2 = (index % 65536).toNat :=
    field_setField hbound
  unfold lastIndex
  dsimp only
  split
  · omega
  · omega

@[simp] theorem lastIndexBytes_length (index : Int) : (lastIndexBytes index).length = 2 :=
  natLE_length _ _

end Fields

/-! ### Well-formed pages -/

/-- A page with records of size `size` whose slots fit into the page. -/
structure WellFormed (schema : RecordSchema) (size : Nat) (page : Page) : Prop where
  keySize_eq : keySize page = schema.getPrimaryKeyLength
  recordSize_eq : recordSize page = size
  positive : 0 < size
  lastIndex_ge : -1 ≤ lastIndex page
  count_le : count page ≤ kCardinality page
  room : dataOffset + 2 * keySize page + kCardinality page * recordSize page < kLeafPageSize

section WellFormed

variable {schema : RecordSchema} {size : Nat} {page : Page}

variable (h : WellFormed schema size page)
include h

theorem WellFormed.congr {other : Page} (hsame : SameLayout page other)
    (hge : -1 ≤ lastIndex other) (hle : count other ≤ kCardinality page) :
    WellFormed schema size other where
  keySize_eq := hsame.keySize.trans h.keySize_eq
  recordSize_eq := hsame.recordSize.trans h.recordSize_eq
  positive := h.positive
  lastIndex_ge := hge
  count_le := hsame.kCardinality.symm ▸ hle
  room := by
    rw [hsame.keySize, hsame.recordSize, hsame.kCardinality]
    exact h.room

theorem WellFormed.lastIndex_eq : lastIndex page = (count page : Int) - 1 := by
  have hge := h.lastIndex_ge
  rw [count, Int.toNat_of_nonneg (by omega)]
  omega

theorem WellFormed.kCardinality_lt : kCardinality page < 32768 := by
  have hroom := h.room
  have hmul : kCardinality page * 1 ≤ kCardinality page * recordSize page :=
    Nat.mul_le_mul_left _ (h.recordSize_eq ▸ h.positive)
  simp only [dataOffset, kLeafPageSize] at hroom
  omega

theorem WellFormed.slots {n : Nat} (hn : n ≤ kCardinality page) :
    64 + 2 * keySize page + n * recordSize page < kLeafPageSize := by
  have hroom := h.room
  have hmul : n * recordSize page ≤ kCardinality page * recordSize page :=
    Nat.mul_le_mul_right _ hn
  simp only [dataOffset] at hroom
  omega

end WellFormed

/-! ### Inserts -/

/-- The change of a page with `n` records by a new record at `index`. -/
structure Insertion where
  keyLength : Nat
  recordLength : Nat
  n : Nat
  index : Nat
  bytes : List UInt8
  version : Nat

namespace Insertion

variable (ins : Insertion)

def slot (i : Nat) : Nat := dataOffset + 2 * ins.keyLength + i * ins.recordLength

/-- The records from `index` on move one place to the right. -/
def apply (page : Page) : Page :=
  setPVersion (setLastIndex (write (move page (ins.slot (ins.index + 1)) (ins.slot ins.index)
    ((ins.n - ins.index) * ins.recordLength)) (ins.slot ins.index) ins.bytes) ins.n) ins.version

theorem slot_succ (i : Nat) : ins.slot (i + 1) = ins.slot i + ins.recordLength := by
  rw [slot, slot, Nat.add_mul, Nat.one_mul, ← Nat.add_assoc]

theorem slot_add (i k : Nat) : ins.slot i + k * ins.recordLength = ins.slot (i + k) := by
  rw [slot, slot, Nat.add_mul, Nat.add_assoc]

variable {ins} {page replica : Page}

theorem agree (hindex : ins.index ≤ ins.n) (hbytes : ins.bytes.length = ins.recordLength)
    (h : AgreeIn (LiveBytes ins.keyLength ins.recordLength ins.n) replica page) :
    AgreeIn (LiveBytes ins.keyLength ins.recordLength (ins.n + 1)) (ins.apply replica)
      (ins.apply page) := by
  have hmove : ins.slot ins.index + (ins.n - ins.index) * ins.recordLength = ins.slot ins.n := by
    rw [slot_add, Nat.add_sub_cancel' hindex]
  have htgt : ins.slot (ins.index + 1) + (ins.n - ins.index) * ins.recordLength =
      ins.slot (ins.n + 1) := by
    rw [slot_add]
    congr 1
    omega
  have hslot := ins.slot_succ ins.index
  have hstart : 64 + 2 * ins.keyLength ≤ ins.slot ins.index := Nat.le_add_right _ _
  have hsrc : ∀ address, ins.slot ins.index ≤ address →
      address < ins.slot ins.index + (ins.n - ins.index) * ins.recordLength →
      LiveBytes ins.keyLength ins.recordLength ins.n address := by
    intro address hge hlt
    have hlast : ins.slot ins.n = 64 + 2 * ins.keyLength + ins.n * ins.recordLength := rfl
    exact .inr ⟨by omega, by omega⟩
  have hmoved := h.move_same (ins.slot (ins.index + 1)) hsrc
  have hwrit := ((hmoved.write_same (ins.slot ins.index) ins.bytes).write_same lastIndexOffset
    (lastIndexBytes ins.n)).write_same pVersionOffset (natLE 8 ins.version)
  refine hwrit.mono fun address hlive => ?_
  rw [htgt, hbytes]
  rcases hlive with hhdr | ⟨hge, hlt⟩
  · exact .inl (.inl (.inl (.inl (.inl hhdr))))
  · have hlast : address < ins.slot (ins.n + 1) := hlt
    by_cases hold : address < ins.slot ins.n
    · exact .inl (.inl (.inl (.inl (.inr ⟨hge, hold⟩))))
    · by_cases hnew : address < ins.slot (ins.index + 1)
      · exact .inl (.inl (.inr ⟨by omega, by omega⟩))
      · exact .inl (.inl (.inl (.inr ⟨by omega, hlast⟩)))

theorem keepsLayout_slot (i length : Nat) : KeepsLayout (ins.slot i) length :=
  .inr (Nat.le_trans (Nat.le_add_right 64 _) (Nat.le_add_right _ _))

theorem sameLayout_apply (page : Page) : SameLayout page (ins.apply page) :=
  ((((SameLayout.refl page).write (keepsLayout_slot _ _)).write
    (keepsLayout_slot _ _)).setLastIndex _).setPVersion _

theorem lastIndex_apply (page : Page) (hn : ins.n < 32768) : lastIndex
    (ins.apply page) = ins.n := by
  rw [apply, setPVersion, setField, lastIndex_write (.inl (by simp; decide))]
  exact lastIndex_setLastIndex (by omega) (by omega)

theorem count_apply (page : Page) (hn : ins.n < 32768) : count (ins.apply page) = ins.n + 1 := by
  rw [count, lastIndex_apply page hn]
  omega

theorem wellFormed {schema : RecordSchema} {size : Nat} (hpage : WellFormed schema size page)
    (hn : ins.n < kCardinality page) : WellFormed schema size (ins.apply page) := by
  have hlt := hpage.kCardinality_lt
  refine hpage.congr (sameLayout_apply page) ?_ ?_
  · rw [lastIndex_apply page (by omega)]
    omega
  · rw [count_apply page (by omega)]
    exact hn

theorem liveAgree (hindex : ins.index ≤ ins.n) (hbytes : ins.bytes.length = ins.recordLength)
    (hn : ins.n < 32768) (hkey : keySize page = ins.keyLength)
    (hrec : recordSize page = ins.recordLength)
    (h : AgreeIn (LiveBytes ins.keyLength ins.recordLength ins.n) replica page) :
    LiveAgree (ins.apply replica) (ins.apply page) := by
  rw [liveAgree_iff, (sameLayout_apply page).keySize, (sameLayout_apply page).recordSize,
    count_apply page hn, hkey, hrec]
  exact agree hindex hbytes h

end Insertion

end MemoryEngine.Storage
