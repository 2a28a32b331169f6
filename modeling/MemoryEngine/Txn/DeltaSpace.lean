import MemoryEngine.Txn.DeltaRing

/-! Where the records of the ring lie.

In unrolled addresses the records follow each other from the start to the tail, and the
part between head and tail is never longer than the ring, as long as a record that wraps
is not longer than what is free before the head. -/
namespace MemoryEngine.DeltaRing

open ByteMemory Storage LapRing List Option

variable {s after : State} {c : Cursor} {index size : ℕ} {entry : Entry} {ring : DeltaSection}

/-! ### What the steps do -/

theorem proceed_cases {expected : Stage} {next : Entry → Option (Entry × DeltaSection)}
    (h : s.proceed index expected next = some after) :
    ∃ entry result, s.entries[index]? = some entry ∧ entry.stage = expected ∧
      next entry = some result ∧ after = s.setEntry index result.1 result.2 := by
  obtain ⟨entry, hget, h⟩ := bind_eq_some_iff.mp h
  split at h
  · rename_i hstage
    obtain ⟨result, hnext, rfl⟩ := map_eq_some_iff.mp h
    exact ⟨entry, result, hget, hstage, hnext, rfl⟩
  · cases h

variable {bytes : List UInt8} {next : Entry} {block : Block}

theorem fill_cases (h : s.fill index bytes = some after) :
    ∃ entry, s.entries[index]? = some entry ∧ entry.stage = .allocated ∧
      bytes.length = entry.block.range.length ∧
      after = s.setEntry index { entry with stage := .filled, bytes := bytes }
        (s.ring.fillIn entry.block.first.offset bytes) := by
  obtain ⟨entry, result, hget, hstage, hnext, rfl⟩ := proceed_cases h
  split at hnext
  · rename_i hlen
    cases hnext
    exact ⟨entry, hget, hstage, hlen, rfl⟩
  · cases hnext

theorem count_cases (h : s.count index = some after) :
    ∃ entry, s.entries[index]? = some entry ∧ entry.stage = .filled ∧
      after = s.setEntry index { entry with stage := .counted } (s.ring.countWrap entry.slot) := by
  obtain ⟨entry, result, hget, hstage, hnext, rfl⟩ := proceed_cases h
  cases hnext
  exact ⟨entry, hget, hstage, rfl⟩

def State.publishEntry (s : State) (index : ℕ) (entry : Entry) : State :=
  (s.setEntry index { entry with stage := .published }
    { s.ring with tail := entry.slot.nextOffset }).logTail index

theorem publish_cases (h : s.publish index = some after) :
    ∃ entry, s.entries[index]? = some entry ∧ entry.stage = .counted ∧
      s.ring.tail = entry.slot.prevOffset ∧ after = s.publishEntry index entry := by
  obtain ⟨middle, hproceed, rfl⟩ := map_eq_some_iff.mp h
  obtain ⟨entry, result, hget, hstage, hnext, rfl⟩ := proceed_cases hproceed
  split at hnext
  · rename_i htail
    cases hnext
    exact ⟨entry, hget, hstage, htail, rfl⟩
  · cases hnext

theorem name_cases (h : s.name index = some after) :
    ∃ entry, s.entries[index]? = some entry ∧ entry.stage = .published ∧
      after = s.setEntry index
        { entry with stage := .named (headerSize + entry.slot.offset) s.ring.epoch } s.ring := by
  obtain ⟨entry, result, hget, hstage, hnext, rfl⟩ := proceed_cases h
  cases hnext
  exact ⟨entry, hget, hstage, rfl⟩

theorem skip_cases (h : s.skip = some after) :
    ∃ entry, s.entries[s.reclaimed]? = some entry ∧ entry.stage.isPublished = true ∧
      after = { s with ring := { s.ring with head := entry.slot.offset } } := by
  obtain ⟨entry, hget, h⟩ := bind_eq_some_iff.mp h
  split at h
  · rename_i hstage
    cases h
    exact ⟨entry, hget, hstage, rfl⟩
  · cases h

theorem advance_cases (h : s.advance = some after) :
    ∃ entry, s.entries[s.reclaimed]? = some entry ∧ entry.stage.isPublished = true ∧
      after = s.passed entry := by
  obtain ⟨entry, hget, h⟩ := bind_eq_some_iff.mp h
  split at h
  · rename_i hstage
    cases h
    exact ⟨entry, hget, hstage, rfl⟩
  · cases h

theorem allocate_cases (h : s.allocate size = some after) :
    ¬ (s.ring.isEmpty = false ∧ s.ring.freeSpace ≤ size) ∧
      after = s.addEntry (s.blockFor size) (s.ring.reserve size) := by
  obtain ⟨result, hres, rfl⟩ := map_eq_some_iff.mp h
  unfold DeltaSection.allocateDelta at hres
  split at hres
  · cases hres
  · rename_i hwait
    cases hres
    exact ⟨hwait, rfl⟩

theorem concat_cases {α : Type} {list : List α} {added found : α}
    (h : (list ++ [added])[index]? = some found) :
    list[index]? = some found ∨ index = list.length ∧ found = added := by
  rcases Nat.lt_or_ge index list.length with hlt | hge
  · rw [List.getElem?_append_left hlt] at h
    exact .inl h
  · rw [List.getElem?_append_right hge] at h
    have hzero : index - list.length = 0 := by
      obtain ⟨hbound, -⟩ := List.getElem?_eq_some_iff.mp h
      simpa using hbound
    rw [hzero] at h
    cases h
    exact .inr ⟨by omega, rfl⟩

/-! ### Placement -/

/-- The cursor of the head: where the oldest record follows, or its start once it was
published, or the end of the last record if there is none. -/
def State.HeadAt (s : State) (c : Cursor) : Prop :=
  match s.blocks[s.reclaimed]? with
  | none => c = s.cursor
  | some block => c = block.prev ∨ c = block.first ∧ s.reclaimed < s.published.length

structure Placement (s : State) (c : Cursor) : Prop where
  pos : 0 < s.ring.realSize
  small : s.ring.realSize < 2 ^ 64
  chain : Chain s.ring.realSize ⟨0, 0⟩ s.blocks s.cursor
  tail : s.ring.tailAllocated = s.cursor.offset
  head : s.ring.head = c.offset
  place : s.HeadAt c
  window : s.cursor.address s.ring.realSize ≤ c.address s.ring.realSize + s.ring.realSize
  empty : s.ring.isEmpty = true ↔ s.reclaimed = s.entries.length
  behind : s.reclaimed ≤ s.entries.length

theorem blocks_length (s : State) : s.blocks.length = s.entries.length := length_map _

theorem blocks_getElem? (h : s.entries[index]? = some entry) :
    s.blocks[index]? = some entry.block := by
  rw [State.blocks, getElem?_map, h]
  rfl

theorem setEntry_getElem? (hget : s.entries[index]? = some entry) (ring : DeltaSection)
    (other : ℕ) : (s.setEntry index next ring).entries[other]? =
      if other = index then some next else s.entries[other]? := by
  obtain ⟨hlt, -⟩ := List.getElem?_eq_some_iff.mp hget
  rw [State.setEntry, List.getElem?_set]
  by_cases heq : index = other
  · rw [if_pos heq, if_pos (heq ▸ hlt), if_pos heq.symm]
  · rw [if_neg heq, if_neg (Ne.symm heq)]

theorem setEntry_length (next : Entry) (ring : DeltaSection) :
    (s.setEntry index next ring).entries.length = s.entries.length := length_set

theorem blocks_setEntry (next : Entry) (hget : s.entries[index]? = some entry)
    (hblock : next.block = entry.block) (ring : DeltaSection) :
    (s.setEntry index next ring).blocks = s.blocks := by
  apply ext_getElem?
  intro other
  rw [State.blocks, State.blocks, getElem?_map, getElem?_map, setEntry_getElem? hget]
  by_cases heq : other = index
  · rw [if_pos heq, heq, hget, map_some, map_some, hblock]
  · rw [if_neg heq]

theorem cursor_congr (h : after.blocks = s.blocks) : after.cursor = s.cursor := by
  rw [State.cursor, State.cursor, h]

namespace Placement

variable (h : Placement s c)
include h

theorem congr (hblks : after.blocks = s.blocks) (hrecl : after.reclaimed = s.reclaimed)
    (hpub : s.published.length ≤ after.published.length)
    (hsize : after.ring.realSize = s.ring.realSize) (hhead : after.ring.head = s.ring.head)
    (htail : after.ring.tailAllocated = s.ring.tailAllocated)
    (hempty : after.ring.isEmpty = s.ring.isEmpty) : Placement after c := by
  have hlen : after.entries.length = s.entries.length := by
    rw [← blocks_length, hblks, blocks_length]
  have hcur := cursor_congr hblks
  have hplace : after.HeadAt c := by
    have hold := h.place
    unfold State.HeadAt at hold ⊢
    rw [hblks, hrecl]
    cases hget : s.blocks[s.reclaimed]? with
    | none =>
      rw [hget] at hold
      exact hold.trans hcur.symm
    | some block =>
      rw [hget] at hold
      exact hold.imp_right fun hfirst => ⟨hfirst.1, Nat.lt_of_lt_of_le hfirst.2 hpub⟩
  exact {
    pos := hsize ▸ h.pos
    small := hsize ▸ h.small
    chain := by
      rw [hsize, hblks, hcur]
      exact h.chain
    tail := by rw [htail, hcur, h.tail]
    head := hhead.trans h.head
    place := hplace
    window := by
      rw [hsize, hcur]
      exact h.window
    empty := by rw [hempty, hrecl, hlen, h.empty]
    behind := by
      rw [hrecl, hlen]
      exact h.behind }

theorem setEntry (hget : s.entries[index]? = some entry)
    (hblock : next.block = entry.block) (hsize : ring.realSize = s.ring.realSize)
    (hhead : ring.head = s.ring.head) (htail : ring.tailAllocated = s.ring.tailAllocated)
    (hempty : ring.isEmpty = s.ring.isEmpty) : Placement (s.setEntry index next ring) c :=
  h.congr (blocks_setEntry next hget hblock ring) rfl (Nat.le_refl _) hsize hhead htail hempty

theorem cursor_offset_le : s.cursor.offset ≤ s.ring.realSize :=
  h.chain.offset_le (Nat.zero_le _)

theorem head_le_first (hget : s.blocks[index]? = some block) (hlive : s.reclaimed ≤ index) :
    c.address s.ring.realSize ≤ block.first.address s.ring.realSize := by
  obtain ⟨-, hplaced, -⟩ := h.chain.split hget
  have hplace := h.place
  unfold State.HeadAt at hplace
  cases holdest : s.blocks[s.reclaimed]? with
  | none =>
    have hlen := List.getElem?_eq_none_iff.mp holdest
    obtain ⟨hlt, -⟩ := List.getElem?_eq_some_iff.mp hget
    omega
  | some oldest =>
    rw [holdest] at hplace
    obtain ⟨-, holdPlaced, -⟩ := h.chain.split holdest
    have hfirst : c.address s.ring.realSize ≤ oldest.first.address s.ring.realSize := by
      rcases hplace with rfl | ⟨rfl, -⟩
      · exact holdPlaced.prev_le_first
      · exact Nat.le_refl _
    rcases Nat.eq_or_lt_of_le hlive with rfl | hlt
    · rw [hget] at holdest
      cases holdest
      exact hfirst
    · have horder := h.chain.ordered holdest hget hlt
      have hpre := holdPlaced.first_lt_last
      have hafter := hplaced.prev_le_first
      omega

theorem head_le_cursor : c.address s.ring.realSize ≤ s.cursor.address s.ring.realSize := by
  have hplace := h.place
  unfold State.HeadAt at hplace
  cases holdest : s.blocks[s.reclaimed]? with
  | none =>
    rw [holdest] at hplace
    exact Nat.le_of_eq (congrArg (Cursor.address _) hplace)
  | some oldest =>
    have hfirst := h.head_le_first holdest (Nat.le_refl _)
    obtain ⟨-, hplaced, -⟩ := h.chain.split holdest
    have hlast := h.chain.last_le holdest
    have hlt := hplaced.first_lt_last
    omega

theorem head_offset_le : c.offset ≤ s.ring.realSize := by
  have hplace := h.place
  unfold State.HeadAt at hplace
  cases holdest : s.blocks[s.reclaimed]? with
  | none =>
    rw [holdest] at hplace
    exact hplace ▸ h.cursor_offset_le
  | some oldest =>
    rw [holdest] at hplace
    obtain ⟨-, hplaced, -⟩ := h.chain.split holdest
    rcases hplace with rfl | ⟨rfl, -⟩
    · exact hplaced.room
    · exact Nat.le_trans (Nat.le_of_lt hplaced.proper) hplaced.inside

theorem head_eq_cursor (hempty : s.ring.isEmpty = true) : c = s.cursor := by
  have hplace := h.place
  have hall := h.empty.mp hempty
  unfold State.HeadAt at hplace
  rw [getElem?_eq_none_iff.mpr (by rw [blocks_length, hall])] at hplace
  exact hplace

end Placement

/-! ### Allocation -/

/-- A record that wraps is not longer than what is free before the head. -/
def DeltaSection.Fits (ring : DeltaSection) (size : ℕ) : Prop :=
  ring.wraps size = true → size ≤ ring.head

instance (ring : DeltaSection) (size : ℕ) : Decidable (ring.Fits size) :=
  inferInstanceAs (Decidable (_ → _))

theorem addEntry_blocks (block : Block) (ring : DeltaSection) :
    (s.addEntry block ring).blocks = s.blocks ++ [block] := by
  simp [State.blocks, State.addEntry]

theorem addEntry_cursor (block : Block) (ring : DeltaSection) :
    (s.addEntry block ring).cursor = block.last := by
  simp [State.cursor, addEntry_blocks]

namespace Placement

variable (h : Placement s c)
include h

theorem blockFor_prev (size : ℕ) : (s.blockFor size).prev = s.cursor := by
  simp only [State.blockFor, h.tail]

theorem blockFor_placed (hpos : 0 < size) (hsize : size < s.ring.realSize) :
    (s.blockFor size).Placed s.ring.realSize := by
  have hoff := h.cursor_offset_le
  have htail := h.tail
  by_cases hwraps : s.ring.wraps size = true
  · have hinside : size ≤ s.ring.realSize := Nat.le_of_lt hsize
    refine ⟨?_, .inr ?_, ?_, ?_⟩ <;>
      simp [State.blockFor, DeltaSection.slotFor, hwraps] <;> omega
  · have hfits : s.ring.tailAllocated + size ≤ s.ring.realSize := by
      simp only [DeltaSection.wraps, decide_eq_true_eq] at hwraps
      omega
    refine ⟨?_, .inl ?_, ?_, ?_⟩ <;>
      simp [State.blockFor, DeltaSection.slotFor, hwraps] <;> omega

theorem blockFor_window (hfits : s.ring.Fits size)
    (hfree : ¬ (s.ring.isEmpty = false ∧ s.ring.freeSpace ≤ size))
    (hsize : size < s.ring.realSize) : (s.blockFor size).last.address s.ring.realSize ≤
      c.address s.ring.realSize + s.ring.realSize := by
  have hoff := h.cursor_offset_le
  have hhead := h.head_offset_le
  have hle := h.head_le_cursor
  have hlast : (s.blockFor size).last.address s.ring.realSize =
      if s.ring.wraps size = true then s.cursor.lap * s.ring.realSize + s.ring.realSize + size
      else s.cursor.address s.ring.realSize + size := by
    by_cases hwraps : s.ring.wraps size = true <;>
      simp [State.blockFor, DeltaSection.slotFor, hwraps, Block.last, Cursor.address, h.tail,
        Nat.add_mul, Nat.add_assoc]
  -- Either the ring is empty or the test for free space was passed.
  have hroom : c = s.cursor ∨ s.cursor.address s.ring.realSize + size <
      c.address s.ring.realSize + s.ring.realSize := by
    cases hempty : s.ring.isEmpty with
    | true => exact .inl (h.head_eq_cursor hempty)
    | false =>
      have hlt : size < (c.offset + s.ring.realSize - s.cursor.offset) % s.ring.realSize := by
        have hnot : ¬ s.ring.freeSpace ≤ size := fun hle => hfree ⟨hempty, hle⟩
        rw [DeltaSection.freeSpace, h.head, h.tail] at hnot
        omega
      exact .inr (add_lt_of_lt_free hlt hoff hle h.window)
  rw [hlast]
  by_cases hwraps : s.ring.wraps size = true
  · rw [if_pos hwraps]
    have hshort := hfits hwraps
    rw [h.head] at hshort
    simp only [DeltaSection.wraps, decide_eq_true_eq, h.tail] at hwraps
    rcases hroom with rfl | hlt
    · simp only [Cursor.address]
      omega
    · -- The head is in the lap of the tail, or the free space would not reach the end.
      have hlap : s.cursor.lap ≤ c.lap := by
        by_contra hpre
        have hmul : (c.lap + 1) * s.ring.realSize ≤ s.cursor.lap * s.ring.realSize :=
          Nat.mul_le_mul_right _ (Nat.lt_of_not_le hpre)
        rw [Nat.add_mul, Nat.one_mul] at hmul
        simp only [Cursor.address] at hlt
        omega
      have hmul := Nat.mul_le_mul_right s.ring.realSize hlap
      simp only [Cursor.address]
      omega
  · rw [if_neg hwraps]
    rcases hroom with rfl | hlt
    · omega
    · exact Nat.le_of_lt hlt

theorem allocate (hpos : 0 < size) (hsize : size < s.ring.realSize)
    (hfits : s.ring.Fits size) (hstep : s.allocate size = some after) : Placement after c := by
  obtain ⟨hfree, rfl⟩ := allocate_cases hstep
  have hplaced := h.blockFor_placed hpos hsize
  have hwin := h.blockFor_window hfits hfree hsize
  have hprev := h.blockFor_prev size
  have hcur := addEntry_cursor (s := s) (s.blockFor size) (s.ring.reserve size)
  have hblks := addEntry_blocks (s := s) (s.blockFor size) (s.ring.reserve size)
  refine ⟨h.pos, h.small, ?_, ?_, h.head, ?_, ?_, ?_, ?_⟩
  · rw [hblks, hcur]
    exact (show Chain s.ring.realSize ⟨0, 0⟩ s.blocks (s.blockFor size).prev from
      hprev ▸ h.chain).concat hplaced
  · rw [hcur]
    rfl
  · have hplace := h.place
    unfold State.HeadAt at hplace ⊢
    rw [hblks]
    show match (s.blocks ++ [s.blockFor size])[s.reclaimed]? with
      | none => _
      | some block => c = block.prev ∨ c = block.first ∧ s.reclaimed < s.published.length
    cases hget : s.blocks[s.reclaimed]? with
    | none =>
      rw [hget] at hplace
      have hlen := List.getElem?_eq_none_iff.mp hget
      have hall : s.reclaimed = s.blocks.length := Nat.le_antisymm (by
        rw [blocks_length]
        exact h.behind) hlen
      simp only [hall, List.getElem?_concat_length]
      exact .inl (hplace.trans hprev.symm)
    | some block =>
      rw [hget] at hplace
      obtain ⟨hlt, -⟩ := List.getElem?_eq_some_iff.mp hget
      simp only [List.getElem?_append_left hlt, hget]
      exact hplace
  · rw [hcur]
    exact hwin
  · have hbhd := h.behind
    simp only [State.addEntry, DeltaSection.reserve, List.length_append, List.length_singleton,
      Bool.false_eq_true, false_iff]
    omega
  · have hbhd := h.behind
    simp only [State.addEntry, List.length_append, List.length_singleton]
    omega

theorem advance (hget : s.entries[s.reclaimed]? = some entry) :
    Placement (s.passed entry) entry.block.last := by
  have hblock := blocks_getElem? hget
  obtain ⟨hlt, -⟩ := List.getElem?_eq_some_iff.mp hget
  obtain ⟨-, hplaced, hrest⟩ := h.chain.split hblock
  have hfirst := h.head_le_first hblock (Nat.le_refl _)
  have hproper := hplaced.first_lt_last
  have hwin := h.window
  have hfull : s.ring.isEmpty = false := by
    by_contra hempty
    have hall := h.empty.mp (by simpa using hempty)
    omega
  have hlast : entry.block.last.address s.ring.realSize ≤ s.cursor.address s.ring.realSize :=
    h.chain.last_le hblock
  have hempty : entry.block.stop = s.cursor.offset ↔ s.reclaimed + 1 = s.entries.length := by
    constructor
    · intro hstop
      -- One ring size is not covered any more, so equal offsets are one address.
      have heq : entry.block.last.address s.ring.realSize = s.cursor.address s.ring.realSize :=
        address_eq_of_offset hstop hlast (by omega)
      by_contra hmore
      have hnext : s.reclaimed + 1 < s.blocks.length := by
        rw [blocks_length]
        omega
      have hgetNext := List.getElem?_eq_getElem hnext
      obtain ⟨-, hnextPlaced, -⟩ := h.chain.split hgetNext
      have hafter := h.chain.ordered hblock hgetNext (Nat.lt_succ_self _)
      have hend := h.chain.last_le hgetNext
      have hle := hnextPlaced.prev_le_first
      have hnextProper := hnextPlaced.first_lt_last
      omega
    · intro hend
      exact congrArg Cursor.offset (h.chain.last_eq hblock (by rw [blocks_length, hend]))
  refine ⟨h.pos, h.small, h.chain, h.tail, rfl, ?_, ?_, ?_, hlt⟩
  · show State.HeadAt _ _
    show match s.blocks[s.reclaimed + 1]? with
      | none => entry.block.last = s.cursor
      | some block => entry.block.last = block.prev ∨ _
    cases hnext : s.blocks[s.reclaimed + 1]? with
    | none =>
      have hlen := List.getElem?_eq_none_iff.mp hnext
      rw [blocks_length] at hlen
      exact h.chain.last_eq hblock (by
        rw [blocks_length]
        omega)
    | some block => exact .inl (h.chain.prev_eq hblock hnext).symm
  · show s.cursor.address s.ring.realSize ≤
      entry.block.last.address s.ring.realSize + s.ring.realSize
    omega
  · show (s.ring.isEmpty || entry.block.stop == s.ring.tailAllocated) = true ↔ _
    rw [hfull, Bool.false_or, beq_iff_eq, h.tail]
    exact hempty

theorem skip (hget : s.entries[s.reclaimed]? = some entry)
    (hpub : s.reclaimed < s.published.length) :
    Placement { s with ring := { s.ring with head := entry.slot.offset } } entry.block.first := by
  have hblock := blocks_getElem? hget
  have hfirst := h.head_le_first hblock (Nat.le_refl _)
  have hwin := h.window
  refine { h with head := rfl, place := ?_, window := ?_ }
  · unfold State.HeadAt
    show match s.blocks[s.reclaimed]? with
      | none => entry.block.first = s.cursor
      | some block => entry.block.first = block.prev ∨ entry.block.first = block.first ∧ _
    rw [hblock]
    exact .inr ⟨rfl, hpub⟩
  · show s.cursor.address _ ≤ entry.block.first.address _ + _
    exact Nat.le_trans hwin (Nat.add_le_add_right hfirst _)

theorem head_le_prev (hget : s.blocks[index]? = some block)
    (hlive : s.reclaimed ≤ index) (hunpub : s.published.length ≤ index) :
    c.address s.ring.realSize ≤ block.prev.address s.ring.realSize := by
  rcases Nat.eq_or_lt_of_le hlive with rfl | hlt
  · have hplace := h.place
    unfold State.HeadAt at hplace
    rw [hget] at hplace
    rcases hplace with rfl | ⟨-, hpub⟩
    · exact Nat.le_refl _
    · omega
  · obtain ⟨hbound, -⟩ := List.getElem?_eq_some_iff.mp hget
    have holdest := List.getElem?_eq_getElem (Nat.lt_trans hlt hbound)
    have hfirst := h.head_le_first holdest (Nat.le_refl _)
    obtain ⟨-, hplaced, -⟩ := h.chain.split holdest
    have hproper := hplaced.first_lt_last
    have horder := h.chain.ordered holdest hget hlt
    omega

end Placement

/-! ### Publication -/

/-- The records are published in the order of allocation, and the tail is at the end of
the last published one. -/
structure Publication (s : State) : Prop where
  reclaimed : s.reclaimed ≤ s.published.length
  within : s.published.length ≤ s.entries.length
  staged : ∀ index entry, s.entries[index]? = some entry →
    (entry.stage.isPublished = true ↔ index < s.published.length)
  log : ∀ index entry, index < s.published.length → s.entries[index]? = some entry →
    s.published[index]? = some (index, entry.slot.nextOffset)
  tail : s.ring.tail = (s.published.getLast?.map Prod.snd).getD 0

namespace Publication

variable (h : Publication s)
include h

theorem tail_eq (hplace : Placement s c) :
    (∀ block, s.blocks[s.published.length]? = some block → s.ring.tail = block.prev.offset) ∧
      (s.published.length = s.entries.length → s.ring.tail = s.ring.tailAllocated) := by
  have htail := h.tail
  have hwithin := h.within
  rcases Nat.eq_zero_or_pos s.published.length with hzero | hpos
  · rw [length_eq_zero_iff.mp hzero] at htail
    constructor
    · intro block hget
      rw [hzero] at hget
      have hstart := (hplace.chain.split hget).1.eq_start
      rw [htail, ← hstart]
      rfl
    · intro hall
      have hnone : s.entries = [] := length_eq_zero_iff.mp (by omega)
      rw [hplace.tail, htail, State.cursor, State.blocks, hnone]
      rfl
  · -- The tail is where the last published record ends.
    obtain ⟨last, hlast⟩ : ∃ last, s.published.length = last + 1 :=
      ⟨s.published.length - 1, by omega⟩
    have hget := getElem?_eq_getElem (show last < s.entries.length by omega)
    have hlog := h.log last _ (by omega) hget
    rw [getLast?_eq_getElem?, hlast, Nat.add_sub_cancel, hlog] at htail
    have hblock := blocks_getElem? hget
    constructor
    · intro block hnext
      rw [hlast] at hnext
      rw [htail, hplace.chain.prev_eq hblock hnext]
      rfl
    · intro hall
      have hend := hplace.chain.last_eq hblock (by rw [blocks_length, ← hall, hlast])
      rw [htail, hplace.tail, ← hend]
      rfl

/-- The compare-and-swap succeeds for the first record that is not published only: the
offset of the tail comes back in the next lap, when the head has passed. -/
theorem index_eq (hplace : Placement s c)
    (hget : s.entries[index]? = some entry) (hstage : entry.stage = .counted)
    (htail : s.ring.tail = entry.slot.prevOffset) : index = s.published.length := by
  have hunpub : s.published.length ≤ index := by
    have hiff := h.staged index entry hget
    rw [hstage] at hiff
    exact Nat.le_of_not_lt fun hlt => absurd (hiff.mpr hlt) (by decide)
  rcases Nat.eq_or_lt_of_le hunpub with heq | hlt
  · exact heq.symm
  · obtain ⟨hbound, -⟩ := List.getElem?_eq_some_iff.mp hget
    obtain ⟨first, hnext⟩ : ∃ first, s.blocks[s.published.length]? = some first :=
      ⟨_, List.getElem?_eq_getElem (by
        rw [blocks_length]
        omega)⟩
    have hblock := blocks_getElem? hget
    have hoff : first.prev.offset = entry.block.prev.offset :=
      ((h.tail_eq hplace).1 _ hnext).symm.trans htail
    obtain ⟨-, hplaced, -⟩ := hplace.chain.split hblock
    obtain ⟨-, hnextPlaced, -⟩ := hplace.chain.split hnext
    have hbhd := hplace.head_le_prev hnext h.reclaimed (Nat.le_refl _)
    have horder := hplace.chain.ordered hnext hblock hlt
    have hlast := hplace.chain.last_le hblock
    have hwin := hplace.window
    have hle := hplaced.prev_le_first
    have hproper := hplaced.first_lt_last
    have hnextLe := hnextPlaced.prev_le_first
    have hnextProper := hnextPlaced.first_lt_last
    have heq : first.prev.address s.ring.realSize = entry.block.prev.address s.ring.realSize :=
      address_eq_of_offset hoff (by omega) (by omega)
    omega

theorem setEntry (hget : s.entries[index]? = some entry) (hblock : next.block = entry.block)
    (hstage : next.stage.isPublished = entry.stage.isPublished) (htail : ring.tail = s.ring.tail) :
    Publication (s.setEntry index next ring) := by
  have hslot : next.slot = entry.slot := by rw [Entry.slot, Entry.slot, hblock]
  have hfind : ∀ (other : ℕ) (found : Entry),
      (s.setEntry index next ring).entries[other]? = some found →
      ∃ old, s.entries[other]? = some old ∧ found.stage.isPublished = old.stage.isPublished ∧
        found.slot = old.slot := by
    intro other found hother
    rw [setEntry_getElem? hget] at hother
    split at hother
    · rename_i heq
      cases hother
      exact ⟨entry, heq ▸ hget, hstage, hslot⟩
    · exact ⟨found, hother, rfl, rfl⟩
  refine ⟨h.reclaimed, ?_, ?_, ?_, ?_⟩
  · rw [setEntry_length]
    exact h.within
  · intro other found hother
    obtain ⟨old, hold, hsame, -⟩ := hfind other found hother
    rw [hsame]
    exact h.staged other old hold
  · intro other found hlt hother
    obtain ⟨old, hold, -, hsame⟩ := hfind other found hother
    rw [hsame]
    exact h.log other old hlt hold
  · exact htail.trans h.tail

theorem addEntry (block : Block) (htail : ring.tail = s.ring.tail) :
    Publication (s.addEntry block ring) := by
  have hwithin := h.within
  have hfind : ∀ (other : ℕ) (found : Entry), (s.addEntry block ring).entries[other]? = some found →
      s.entries[other]? = some found ∨
        s.published.length ≤ other ∧ found.stage = .allocated := by
    intro other found hother
    rcases concat_cases hother with hold | ⟨rfl, rfl⟩
    · exact .inl hold
    · exact .inr ⟨hwithin, rfl⟩
  refine ⟨h.reclaimed, ?_, ?_, ?_, htail.trans h.tail⟩
  · simp only [State.addEntry, length_append, length_singleton]
    omega
  · intro other found hother
    rcases hfind other found hother with hold | ⟨hge, hstage⟩
    · exact h.staged other found hold
    · rw [hstage]
      exact iff_of_false (by decide) (Nat.not_lt.mpr hge)
  · intro other found hlt hother
    rcases hfind other found hother with hold | ⟨hge, -⟩
    · exact h.log other found hlt hold
    · exact absurd hlt (Nat.not_lt.mpr hge)

theorem publish (hget : s.entries[s.published.length]? = some entry) :
    Publication (s.publishEntry s.published.length entry) := by
  obtain ⟨hlt, -⟩ := List.getElem?_eq_some_iff.mp hget
  have hrecl := h.reclaimed
  have hlen : (s.publishEntry s.published.length entry).published.length =
      s.published.length + 1 := by
    simp [State.publishEntry, State.logTail, State.setEntry]
  have hents : ∀ other : ℕ, (s.publishEntry s.published.length entry).entries[other]? =
      if other = s.published.length then some { entry with stage := .published }
      else s.entries[other]? := setEntry_getElem? hget { s.ring with tail := entry.slot.nextOffset }
  refine ⟨?_, ?_, ?_, ?_, ?_⟩
  · rw [hlen]
    exact Nat.le_succ_of_le hrecl
  · rw [hlen]
    exact Nat.lt_of_lt_of_eq hlt (List.length_set).symm
  · intro other found hother
    rw [hents] at hother
    split at hother
    · rename_i heq
      cases hother
      exact iff_of_true rfl (by omega)
    · rw [h.staged other found hother]
      omega
  · intro other found hbound hother
    rw [hents] at hother
    show (s.published ++ [(s.published.length, entry.slot.nextOffset)])[other]? = _
    split at hother
    · rename_i heq
      cases hother
      rw [heq, List.getElem?_concat_length]
      rfl
    · rw [List.getElem?_append_left (by omega)]
      exact h.log other found (by omega) hother
  · show entry.slot.nextOffset =
      ((s.published ++ [(s.published.length, entry.slot.nextOffset)]).getLast?.map Prod.snd).getD 0
    rw [List.getLast?_concat]
    rfl

theorem head_le (hplace : Placement s c)
    (hget : s.entries[index]? = some entry) (hstage : entry.stage.isPublished = false) :
    c.address s.ring.realSize ≤ entry.block.prev.address s.ring.realSize ∧
      s.reclaimed ≤ index := by
  have hunpub : s.published.length ≤ index := by
    have hiff := h.staged index entry hget
    rw [hstage] at hiff
    exact Nat.le_of_not_lt fun hlt => absurd (hiff.mpr hlt) (by decide)
  have hlive := Nat.le_trans h.reclaimed hunpub
  exact ⟨hplace.head_le_prev (blocks_getElem? hget) hlive hunpub, hlive⟩

end Publication

/-! ### Contents -/

/-- The wrap markers ahead of the head, and the bytes of the filled records that it has
not passed. -/
structure Contents (s : State) (c : Cursor) : Prop where
  marks : ∀ (index : ℕ) (block : Block), s.blocks[index]? = some block → block.wrapped = true →
    block.prev.offset < s.ring.realSize →
    c.address s.ring.realSize ≤ block.prev.address s.ring.realSize →
    s.ring.localAddr block.prev.offset = wrapMarker
  bytes : ∀ (index : ℕ) (entry : Entry), s.entries[index]? = some entry →
    entry.stage ≠ .allocated → s.reclaimed ≤ index →
    read s.ring.localAddr entry.block.first.offset entry.block.range.length = entry.bytes

theorem write_of_apart {memory : Memory} {cursor : Cursor}
    (hlen : bytes.length = block.range.length) (h : block.range.Apart cursor.byte.range) :
    write memory block.first.offset bytes cursor.offset = memory cursor.offset := by
  simp only [ByteRange.Apart, Block.range, Cursor.byte] at h hlen
  exact write_outside memory bytes (by omega)

theorem read_of_apart {memory : Memory} {other : Block}
    (hlen : bytes.length = block.range.length) (h : block.range.Apart other.range) :
    read (write memory block.first.offset bytes) other.first.offset other.range.length =
      read memory other.first.offset other.range.length := by
  simp only [ByteRange.Apart, Block.range] at h hlen ⊢
  exact read_write_disjoint memory (by omega)

namespace Contents

theorem mono (h : Contents s c) {d : Cursor} (hblks : after.blocks = s.blocks)
    (hring : after.ring.realSize = s.ring.realSize)
    (hmemory : after.ring.localAddr = s.ring.localAddr) (hrecl : s.reclaimed ≤ after.reclaimed)
    (hhead : c.address s.ring.realSize ≤ d.address s.ring.realSize)
    (hents : ∀ (index : ℕ) (entry : Entry), after.entries[index]? = some entry → entry.stage ≠
      .allocated → ∃ old, s.entries[index]? = some old ∧ old.stage ≠ .allocated ∧ entry.block =
      old.block ∧ entry.bytes = old.bytes) : Contents after d := by
  constructor
  · intro index block hget hwrap hroom hle
    rw [hring] at hroom hle
    rw [hmemory]
    exact h.marks index block (hblks ▸ hget) hwrap hroom (Nat.le_trans hhead hle)
  · intro index entry hget hstage hlive
    obtain ⟨old, hold, holdStage, hblock, hbytes⟩ := hents index entry hget hstage
    rw [hmemory, hblock, hbytes]
    exact h.bytes index old hold holdStage (Nat.le_trans hrecl hlive)

theorem setEntry (h : Contents s c) (hget : s.entries[index]? = some entry)
    (hblock : next.block = entry.block) (hbytes : next.bytes = entry.bytes)
    (hfill : entry.stage ≠ .allocated) (hring : ring.realSize = s.ring.realSize)
    (hmemory : ring.localAddr = s.ring.localAddr) : Contents (s.setEntry index next ring) c := by
  refine h.mono (blocks_setEntry next hget hblock ring) hring hmemory (Nat.le_refl _)
    (Nat.le_refl _) ?_
  intro other found hother hstage
  rw [setEntry_getElem? hget] at hother
  split at hother
  · rename_i heq
    cases hother
    exact ⟨entry, heq ▸ hget, hfill, hblock, hbytes⟩
  · exact ⟨found, hother, hstage, rfl, rfl⟩

theorem fill (h : Contents s c) (hplace : Placement s c) (hpublication : Publication s)
    (hget : s.entries[index]? = some entry) (hstage : entry.stage = .allocated)
    (hlen : bytes.length = entry.block.range.length) :
    Contents (s.setEntry index { entry with stage := .filled, bytes := bytes }
      (s.ring.fillIn entry.block.first.offset bytes)) c := by
  have hblock := blocks_getElem? hget
  obtain ⟨-, hplaced, -⟩ := hplace.chain.split hblock
  obtain ⟨hhead, hlive⟩ := hpublication.head_le hplace hget (by rw [hstage]; rfl)
  have hlast := hplace.chain.last_le hblock
  have hwin := hplace.window
  have hle := hplaced.prev_le_first
  constructor
  · intro other marked hother hwrap hroom hahead
    rw [blocks_setEntry { entry with stage := .filled, bytes := bytes } hget rfl] at hother
    replace hroom : marked.prev.offset < s.ring.realSize := hroom
    replace hahead : c.address s.ring.realSize ≤ marked.prev.address s.ring.realSize := hahead
    rw [← h.marks other marked hother hwrap hroom hahead]
    obtain ⟨-, hmarkedPlaced, -⟩ := hplace.chain.split hother
    have hmarkedLast := hplace.chain.last_le hother
    have hmarkedLt := hmarkedPlaced.prev_lt_first hwrap hroom
    have hmarkedProper := hmarkedPlaced.first_lt_last
    have hbyte : marked.prev.byte.last.address s.ring.realSize =
      marked.prev.address s.ring.realSize + 1 := byte_last _
    have hbyteFirst : marked.prev.byte.first.address s.ring.realSize =
      marked.prev.address s.ring.realSize := rfl
    refine write_of_apart hlen ?_
    rcases Nat.lt_trichotomy other index with hpre | rfl | hafter
    · have horder := hplace.chain.ordered hother hblock hpre
      exact hplaced.apart (byte_placed hroom) (by omega) (by omega)
    · rw [hblock] at hother
      cases hother
      exact hplaced.apart (byte_placed hroom) (by omega) (by omega)
    · have horder := hplace.chain.ordered hblock hother hafter
      exact ((byte_placed hroom).apart hplaced (by omega) (by omega)).symm
  · intro other found hother hfound hotherLive
    rw [setEntry_getElem? hget] at hother
    split at hother
    · cases hother
      show read (write s.ring.localAddr entry.block.first.offset bytes) entry.block.first.offset
        entry.block.range.length = bytes
      rw [← hlen]
      exact read_write_same _ _ _
    · rename_i hne
      rw [← h.bytes other found hother hfound hotherLive]
      have hfoundBlock := blocks_getElem? hother
      obtain ⟨-, hfoundPlaced, -⟩ := hplace.chain.split hfoundBlock
      have hfoundLast := hplace.chain.last_le hfoundBlock
      have hfoundFirst := hplace.head_le_first hfoundBlock hotherLive
      have hfoundLe := hfoundPlaced.prev_le_first
      refine read_of_apart hlen ?_
      rcases Nat.lt_or_gt_of_ne hne with hpre | hafter
      · have horder := hplace.chain.ordered hfoundBlock hblock hpre
        exact hplaced.apart hfoundPlaced (by omega) (by omega)
      · have horder := hplace.chain.ordered hblock hfoundBlock hafter
        exact (hfoundPlaced.apart hplaced (by omega) (by omega)).symm

theorem reserve_agreeOn (hplace : Placement s c) (hpos : 0 < size) (hsize : size < s.ring.realSize)
    (hfits : s.ring.Fits size) (hfree : ¬ (s.ring.isEmpty = false ∧ s.ring.freeSpace ≤ size))
    {other : Block} (hplaced : other.Placed s.ring.realSize)
    (hhead : c.address s.ring.realSize ≤ other.first.address s.ring.realSize)
    (hlast : other.last.address s.ring.realSize ≤ s.cursor.address s.ring.realSize) :
    AgreeOn (s.ring.reserve size).localAddr s.ring.localAddr other.first.offset
      other.range.length := by
  have hmemory : (s.ring.reserve size).localAddr =
      if s.ring.wraps size then s.ring.markFragment else s.ring.localAddr := rfl
  rw [hmemory]
  by_cases hwraps : s.ring.wraps size = true
  · rw [if_pos hwraps, DeltaSection.markFragment]
    by_cases hroom : s.ring.tailAllocated < s.ring.realSize
    · rw [if_pos hroom]
      rw [hplace.tail] at hroom
      have hnew := hplace.blockFor_placed hpos hsize
      have hwin := hplace.blockFor_window hfits hfree hsize
      have hprev := hplace.blockFor_prev size
      have hafter := hnew.prev_lt_first (by simp [Block.wrapped, State.blockFor, hwraps])
        (by rw [hprev]; exact hroom)
      rw [hprev] at hafter
      have hproper := hnew.first_lt_last
      have hbyte : s.cursor.byte.last.address s.ring.realSize =
        s.cursor.address s.ring.realSize + 1 := byte_last _
      have hbyteFirst : s.cursor.byte.first.address s.ring.realSize =
        s.cursor.address s.ring.realSize := rfl
      have hapart := (byte_placed hroom).apart hplaced (by omega) (by omega)
      refine agreeOn_write _ ?_
      rw [hplace.tail]
      simp only [ByteRange.Apart, Block.range, Cursor.byte] at hapart ⊢
      simp only [length_singleton]
      omega
    · rw [if_neg hroom]
      exact AgreeOn.refl _ _ _
  · rw [if_neg hwraps]
    exact AgreeOn.refl _ _ _

theorem allocate (h : Contents s c) (hplace : Placement s c) (hpos : 0 < size)
    (hsize : size < s.ring.realSize) (hfits : s.ring.Fits size)
    (hstep : s.allocate size = some after) : Contents after c := by
  obtain ⟨hfree, rfl⟩ := allocate_cases hstep
  constructor
  · intro index marked hget hwrap hroom hahead
    rw [addEntry_blocks] at hget
    replace hroom : marked.prev.offset < s.ring.realSize := hroom
    replace hahead : c.address s.ring.realSize ≤ marked.prev.address s.ring.realSize := hahead
    show (s.ring.reserve size).localAddr marked.prev.offset = wrapMarker
    rcases concat_cases hget with hget | ⟨-, rfl⟩
    · rw [← h.marks index marked hget hwrap hroom hahead]
      obtain ⟨-, hplaced, -⟩ := hplace.chain.split hget
      have hlast := hplace.chain.last_le hget
      have hafter := hplaced.prev_lt_first hwrap hroom
      have hproper := hplaced.first_lt_last
      have hbyte : marked.prev.byte.last.address s.ring.realSize =
        marked.prev.address s.ring.realSize + 1 := byte_last _
      have hagree := reserve_agreeOn hplace hpos hsize hfits hfree (byte_placed hroom) hahead
        (by omega)
      refine hagree _ (Nat.le_refl _) ?_
      simp [Cursor.byte, Block.range]
    · -- The new record itself.
      have hwraps : s.ring.wraps size = true := by
        by_contra hnot
        simp [Block.wrapped, State.blockFor, hnot] at hwrap
      rw [show (s.ring.reserve size).localAddr =
        if s.ring.wraps size then s.ring.markFragment else s.ring.localAddr from rfl, if_pos hwraps,
        DeltaSection.markFragment, if_pos (show s.ring.tailAllocated < s.ring.realSize from hroom)]
      exact write_add s.ring.localAddr s.ring.tailAllocated 0 [wrapMarker]
  · intro index found hget hstage hlive
    rcases concat_cases hget with hget | ⟨-, rfl⟩
    · rw [← h.bytes index found hget hstage hlive]
      have hblock := blocks_getElem? hget
      obtain ⟨-, hplaced, -⟩ := hplace.chain.split hblock
      exact read_congr (reserve_agreeOn hplace hpos hsize hfits hfree hplaced
        (hplace.head_le_first hblock hlive) (hplace.chain.last_le hblock))
    · exact absurd rfl hstage

end Contents

/-! ### The invariant -/

structure Inv (s : State) (c : Cursor) : Prop where
  place : Placement s c
  publication : Publication s
  contents : Contents s c

namespace Inv

theorem init {realSize : ℕ} (h : 0 < realSize) (hsmall : realSize < 2 ^ 64) :
    Inv (.init realSize) ⟨0, 0⟩ where
  place := ⟨h, hsmall, rfl, rfl, rfl, rfl, Nat.le_add_right _ _, iff_of_true rfl rfl, Nat.le_refl _⟩
  publication := {
    reclaimed := Nat.le_refl _
    within := Nat.le_refl _
    staged := fun _ _ hget => absurd hget (by simp [State.init])
    log := fun _ _ _ hget => absurd hget (by simp [State.init])
    tail := rfl }
  contents := {
    marks := fun _ _ hget => absurd hget (by simp [State.init, State.blocks])
    bytes := fun _ _ hget => absurd hget (by simp [State.init]) }

theorem allocate (h : Inv s c) (hpos : 0 < size) (hsize : size < s.ring.realSize)
    (hfits : s.ring.Fits size) (hstep : s.allocate size = some after) : Inv after c where
  place := h.place.allocate hpos hsize hfits hstep
  publication := by
    obtain ⟨-, rfl⟩ := allocate_cases hstep
    exact h.publication.addEntry _ rfl
  contents := h.contents.allocate h.place hpos hsize hfits hstep

theorem fill (h : Inv s c) (hstep : s.fill index bytes = some after) : Inv after c := by
  obtain ⟨entry, hget, hstage, hlen, rfl⟩ := fill_cases hstep
  exact {
    place := h.place.setEntry hget rfl rfl rfl rfl rfl
    publication := h.publication.setEntry hget rfl (by rw [hstage]; rfl) rfl
    contents := h.contents.fill h.place h.publication hget hstage hlen }

theorem countWrap_cases (ring : DeltaSection) (slot : Slot) :
    ∃ epoch, ring.countWrap slot = { ring with epoch := epoch } := by
  unfold DeltaSection.countWrap
  split
  · exact ⟨_, rfl⟩
  · exact ⟨ring.epoch, rfl⟩

variable (h : Inv s c)
include h

theorem count (hstep : s.count index = some after) : Inv after c := by
  obtain ⟨entry, hget, hstage, rfl⟩ := count_cases hstep
  obtain ⟨epoch, hring⟩ := countWrap_cases s.ring entry.slot
  rw [hring]
  exact {
    place := h.place.setEntry hget rfl rfl rfl rfl rfl
    publication := h.publication.setEntry hget rfl (by rw [hstage]; rfl) rfl
    contents := h.contents.setEntry hget rfl rfl (by rw [hstage]; decide) rfl rfl }

theorem publish (hstep : s.publish index = some after) :
    Inv after c ∧ index = s.published.length := by
  obtain ⟨entry, hget, hstage, htail, rfl⟩ := publish_cases hstep
  have hindex := h.publication.index_eq h.place hget hstage htail
  refine ⟨⟨?_, ?_, ?_⟩, hindex⟩
  · refine h.place.congr (blocks_setEntry { entry with stage := .published } hget rfl
      { s.ring with tail := entry.slot.nextOffset }) rfl ?_ rfl rfl rfl rfl
    show s.published.length ≤ (s.published ++ [_]).length
    rw [length_append]
    exact Nat.le_add_right _ _
  · subst hindex
    exact h.publication.publish hget
  · have hset : Contents (s.setEntry index { entry with stage := .published }
        { s.ring with tail := entry.slot.nextOffset }) c :=
      h.contents.setEntry hget rfl rfl (by rw [hstage]; decide) rfl rfl
    exact ⟨hset.marks, hset.bytes⟩

theorem name (hstep : s.name index = some after) : Inv after c := by
  obtain ⟨entry, hget, hstage, rfl⟩ := name_cases hstep
  exact {
    place := h.place.setEntry hget rfl rfl rfl rfl rfl
    publication := h.publication.setEntry hget rfl (by rw [hstage]; rfl) rfl
    contents := h.contents.setEntry hget rfl rfl (by rw [hstage]; decide) rfl rfl }

theorem published_of_stage (hget : s.entries[index]? = some entry)
    (hstage : entry.stage.isPublished = true) : index < s.published.length :=
  (h.publication.staged index entry hget).mp hstage

theorem skip (hget : s.entries[s.reclaimed]? = some entry)
    (hstage : entry.stage.isPublished = true) :
    Inv { s with ring := { s.ring with head := entry.slot.offset } } entry.block.first where
  place := h.place.skip hget (h.published_of_stage hget hstage)
  publication := { h.publication with }
  contents := h.contents.mono rfl rfl rfl (Nat.le_refl _)
    (h.place.head_le_first (blocks_getElem? hget) (Nat.le_refl _))
    fun _ found hfound hfill => ⟨found, hfound, hfill, rfl, rfl⟩

theorem advance (hget : s.entries[s.reclaimed]? = some entry)
    (hstage : entry.stage.isPublished = true) : Inv (s.passed entry) entry.block.last where
  place := h.place.advance hget
  publication := { h.publication with reclaimed := h.published_of_stage hget hstage }
  contents := by
    have hblock := blocks_getElem? hget
    obtain ⟨-, hplaced, -⟩ := h.place.chain.split hblock
    have hfirst := h.place.head_le_first hblock (Nat.le_refl _)
    have hproper := hplaced.first_lt_last
    exact h.contents.mono rfl rfl rfl (Nat.le_succ _) (by omega)
      fun _ found hfound hfill => ⟨found, hfound, hfill, rfl, rfl⟩

end Inv

end MemoryEngine.DeltaRing
