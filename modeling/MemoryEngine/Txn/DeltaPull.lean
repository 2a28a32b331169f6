import MemoryEngine.Txn.DeltaPublication

/-! How a copy of the ring is brought up to date.

A node that reads another node's delta records keeps a copy of the section.  It sends the
head, the tail and the epoch of its copy, and the owner writes the ranges back that may have
changed since.  In unrolled addresses the changes lie between the old tail and the tail,
and what lies before the old tail is as it was as long as the head has not passed it. -/
namespace MemoryEngine.DeltaRing

open ByteMemory Storage LapRing TransitionSystem List

/-! ### The section as it is written -/

/-- `delta_section_size`: the header, the ring and the polling byte. -/
def DeltaSection.sectionSize (ring : DeltaSection) : ℕ := headerSize + ring.realSize + 1

namespace DeltaSection

variable (ring : DeltaSection)

/-- The fields of the packed class in front of `local_addr_`. -/
def header : List UInt8 :=
  natLE 8 ring.dangerSize ++ natLE 8 ring.epoch ++ natLE 8 ring.head ++ natLE 8 ring.tail ++
    natLE 8 ring.tailAllocated ++ natLE 8 ring.maxTs ++ [if ring.isEmpty then 1 else 0]

/-- What `ProcessDeltaPull` stores in the polling byte. -/
def polled : UInt8 := 5

def image : Memory :=
  write (write (fun address => ring.localAddr (address - headerSize)) (headerSize + ring.realSize)
    [polled]) 0 ring.header

@[simp] theorem header_length : ring.header.length = headerSize := by
  simp [header, headerSize]

theorem image_header : read ring.image 0 headerSize = ring.header := by
  exact read_write_same _ 0 ring.header

theorem image_data {offset : ℕ} (h : offset < ring.realSize) :
    ring.image (headerSize + offset) = ring.localAddr offset := by
  rw [image, write_of_ge _ _ (by rw [header_length]; omega), write_of_lt _ _ (by omega),
    Nat.add_sub_cancel_left]

/-- The bytes between head and tail in the order of the ring. -/
def Live (offset : ℕ) : Prop :=
  ring.isEmpty = false ∧ offset < ring.realSize ∧
    (ring.head < ring.tail ∧ ring.head ≤ offset ∧ offset < ring.tail ∨
      ring.tail ≤ ring.head ∧ (offset < ring.tail ∨ ring.head ≤ offset))

instance (offset : ℕ) : Decidable (ring.Live offset) :=
  inferInstanceAs (Decidable (_ ∧ _ ∧ (_ ∧ _ ∧ _ ∨ _ ∧ (_ ∨ _))))

/-! ### The ranges -/

def mergeThre : ℕ := 2048

def bigPageSize : ℕ := 1024 * 1024

/-- Neighbours with a small gap are merged, the last two first. -/
def pruneBoundaries (first second third : ℕ × ℕ) : List (ℕ × ℕ) :=
  let (second, rest) :=
    if third.1 - second.2 ≤ mergeThre then ((second.1, third.2), []) else (second, [third])
  if second.1 - first.2 ≤ mergeThre then (first.1, second.2) :: rest else first :: second :: rest

def splitBoundary (start stop : ℕ) : List (ℕ × ℕ) :=
  if start < stop then
    (start, min (start + bigPageSize) stop) :: splitBoundary (min (start + bigPageSize) stop) stop
  else []
termination_by stop - start
decreasing_by
  unfold bigPageSize
  omega

/-- A size below zero would be a large unsigned number. -/
def splitBoundariesByBigPage (boundaries : List (ℕ × ℕ)) : List (ℕ × ℕ) :=
  boundaries.flatMap fun boundary =>
    if boundary.1 ≤ boundary.2 ∧ boundary.2 - boundary.1 ≤ bigPageSize then [boundary]
    else splitBoundary boundary.1 boundary.2

def boundaries (oldT oldEpoch : ℕ) : List (ℕ × ℕ) :=
  let polling := (headerSize + ring.realSize, headerSize + ring.realSize + 1)
  if oldEpoch < ring.epoch then
    if ring.head < ring.tail then
      pruneBoundaries (0, headerSize) (headerSize + ring.head, headerSize + ring.tail) polling
    else
      let start := if oldEpoch = ring.epoch - 1 then
          if ring.head < oldT then headerSize + oldT else headerSize + ring.head
        else headerSize + ring.head
      [(0, headerSize), (headerSize, headerSize + ring.tail), (start, ring.sectionSize)]
  else if ring.head < ring.tail then
    let start := if ring.head < oldT then headerSize + oldT else headerSize + ring.head
    pruneBoundaries (0, headerSize) (start, headerSize + ring.tail) polling
  else pruneBoundaries (0, headerSize) (headerSize + oldT, headerSize + ring.tail) polling

/-- The size of what was written since the old tail, in 64 bits. -/
def calculatedDangerSize (oldT oldEpoch : ℕ) : ℕ :=
  if oldEpoch < ring.epoch then (ring.tail + ring.realSize + 2 ^ 64 - oldT) % 2 ^ 64
  else (ring.tail + 2 ^ 64 - oldT) % 2 ^ 64

/-- The ranges and the danger size.  The old head is only used in an assertion. -/
def calculateWriteBoundaries (_oldH oldT oldEpoch : ℕ) : List (ℕ × ℕ) × ℕ :=
  (splitBoundariesByBigPage (ring.boundaries oldT oldEpoch),
    ring.calculatedDangerSize oldT oldEpoch)

end DeltaSection

/-! ### What merging and splitting keep -/

section Ranges

open DeltaSection

variable {first second third : ℕ × ℕ} {ranges : List (ℕ × ℕ)} {start stop size address : ℕ}

theorem covered_prune (hfirst : first.1 ≤ second.1 ∧ first.2 ≤ second.2)
    (hthird : second.1 ≤ third.1 ∧ second.2 ≤ third.2)
    (h : Covered [first, second, third] address) :
    Covered (pruneBoundaries first second third) address := by
  unfold Covered at h ⊢
  unfold pruneBoundaries
  simp only [mem_cons, not_mem_nil, or_false, exists_eq_or_imp, exists_eq_left] at h
  by_cases hlast : third.1 - second.2 ≤ mergeThre
  · rw [if_pos hlast]
    by_cases hnear : second.1 - first.2 ≤ mergeThre
    · simp only [if_pos hnear, mem_cons, not_mem_nil, or_false, exists_eq_left]
      omega
    · simp only [if_neg hnear, mem_cons, not_mem_nil, or_false, exists_eq_or_imp,
        exists_eq_left]
      omega
  · rw [if_neg hlast]
    by_cases hnear : second.1 - first.2 ≤ mergeThre
    · simp only [if_pos hnear, mem_cons, not_mem_nil, or_false, exists_eq_or_imp,
        exists_eq_left]
      omega
    · simp only [if_neg hnear, mem_cons, not_mem_nil, or_false, exists_eq_or_imp,
        exists_eq_left]
      omega

theorem splitBoundary_covers (hge : start ≤ address) (hlt : address < stop) :
    Covered (splitBoundary start stop) address := by
  induction start using splitBoundary.induct stop with
  | case1 start hne ih =>
    rw [splitBoundary, if_pos hne]
    by_cases hin : address < min (start + bigPageSize) stop
    · exact ⟨_, mem_cons_self, hge, hin⟩
    · obtain ⟨range, hmem, hcover⟩ := ih (by omega)
      exact ⟨range, mem_cons_of_mem _ hmem, hcover⟩
  | case2 start hempty => omega

theorem covered_split (h : Covered ranges address) :
    Covered (splitBoundariesByBigPage ranges) address := by
  obtain ⟨range, hmem, hge, hlt⟩ := h
  by_cases hsmall : range.1 ≤ range.2 ∧ range.2 - range.1 ≤ bigPageSize
  · exact ⟨range, mem_flatMap.mpr ⟨range, hmem, by simp [hsmall]⟩, hge, hlt⟩
  · obtain ⟨piece, hpiece, hcover⟩ := splitBoundary_covers hge hlt
    exact ⟨piece, mem_flatMap.mpr ⟨range, hmem, by rwa [if_neg hsmall]⟩, hcover⟩

/-- Ranges inside a section.  The first starts at 0 and covers the header, the last
contains the last byte of the section. -/
structure Layout (size : ℕ) (ranges : List (ℕ × ℕ)) : Prop where
  within : ∀ range ∈ ranges, range.1 ≤ range.2 ∧ range.2 ≤ size
  first : ∃ stop rest, ranges = (0, stop) :: rest ∧ headerSize ≤ stop
  last : ∃ front start, ranges = front ++ [(start, size)] ∧ start < size

theorem layout_prune (hle : second.1 ≤ second.2) (hin : second.2 < size)
    (hhdr : headerSize ≤ second.1) :
    Layout size (pruneBoundaries (0, headerSize) second (size - 1, size)) := by
  unfold pruneBoundaries
  by_cases hlast : size - 1 - second.2 ≤ mergeThre
  · simp only [if_pos hlast]
    by_cases hfirst : second.1 - headerSize ≤ mergeThre
    · rw [if_pos hfirst]
      refine ⟨fun range hmem => ?_, ⟨size, [], rfl, by omega⟩, ⟨[], 0, rfl, by omega⟩⟩
      rw [mem_singleton.mp hmem]
      simp
    · rw [if_neg hfirst]
      refine ⟨fun range hmem => ?_, ⟨headerSize, _, rfl, Nat.le_refl _⟩,
        ⟨[(0, headerSize)], second.1, rfl, by omega⟩⟩
      simp only [mem_cons, not_mem_nil, or_false] at hmem
      rcases hmem with rfl | rfl <;> simp only <;> omega
  · simp only [if_neg hlast]
    by_cases hfirst : second.1 - headerSize ≤ mergeThre
    · rw [if_pos hfirst]
      refine ⟨fun range hmem => ?_, ⟨second.2, _, rfl, by omega⟩,
        ⟨[(0, second.2)], size - 1, rfl, by omega⟩⟩
      simp only [mem_cons, not_mem_nil, or_false] at hmem
      rcases hmem with rfl | rfl <;> simp only <;> omega
    · rw [if_neg hfirst]
      refine ⟨fun range hmem => ?_, ⟨headerSize, _, rfl, Nat.le_refl _⟩,
        ⟨[(0, headerSize), second], size - 1, rfl, by omega⟩⟩
      simp only [mem_cons, not_mem_nil, or_false] at hmem
      rcases hmem with rfl | rfl | rfl
      · simp only
        omega
      · omega
      · simp only
        omega

theorem splitBoundary_within {range : ℕ × ℕ} (h : range ∈ splitBoundary start stop) :
    range.1 ≤ range.2 ∧ range.2 ≤ stop := by
  induction start using splitBoundary.induct stop with
  | case1 start hne ih =>
    rw [splitBoundary, if_pos hne] at h
    rcases mem_cons.mp h with rfl | hrest
    · simp only
      omega
    · exact ih hrest
  | case2 start hempty =>
    rw [splitBoundary, if_neg hempty] at h
    cases h

theorem splitBoundary_last (hne : start < stop) :
    ∃ front last, splitBoundary start stop = front ++ [(last, stop)] ∧ last < stop := by
  induction start using splitBoundary.induct stop with
  | case1 start hlt ih =>
    rw [splitBoundary, if_pos hlt]
    by_cases hmore : min (start + bigPageSize) stop < stop
    · obtain ⟨front, last, heq, hlast⟩ := ih hmore
      exact ⟨_ :: front, last, by rw [heq]; rfl, hlast⟩
    · refine ⟨[], start, ?_, hlt⟩
      rw [splitBoundary, if_neg hmore, Nat.min_eq_right (by omega)]
      rfl
  | case2 start hempty => omega

theorem Layout.split (h : Layout size ranges) : Layout size (splitBoundariesByBigPage ranges) := by
  constructor
  · intro piece hpiece
    obtain ⟨range, hmem, hpiece⟩ := mem_flatMap.mp hpiece
    have hwithin := h.within range hmem
    split at hpiece
    · rw [mem_singleton.mp hpiece]
      exact hwithin
    · have hinside := splitBoundary_within hpiece
      omega
  · obtain ⟨stop, rest, rfl, hhdr⟩ := h.first
    unfold splitBoundariesByBigPage
    rw [flatMap_cons]
    by_cases hsmall : 0 ≤ stop ∧ stop - 0 ≤ bigPageSize
    · exact ⟨stop, _, by rw [if_pos hsmall]; rfl, hhdr⟩
    · have hlarge : bigPageSize < stop := by omega
      have hpage : headerSize ≤ bigPageSize := by decide
      have hcut : splitBoundary 0 stop = (0, bigPageSize) :: splitBoundary bigPageSize stop := by
        rw [splitBoundary, if_pos (by omega), Nat.zero_add, Nat.min_eq_left (Nat.le_of_lt hlarge)]
      exact ⟨bigPageSize, _, by rw [if_neg hsmall, hcut, cons_append], hpage⟩
  · obtain ⟨front, start, rfl, hlt⟩ := h.last
    unfold splitBoundariesByBigPage
    rw [flatMap_append, flatMap_singleton]
    by_cases hsmall : start ≤ size ∧ size - start ≤ bigPageSize
    · exact ⟨_, start, by rw [if_pos hsmall], hlt⟩
    · obtain ⟨pieces, last, heq, hlast⟩ := splitBoundary_last hlt
      exact ⟨_ ++ pieces, last, by rw [if_neg hsmall, heq, append_assoc], hlast⟩

end Ranges

/-! ### What stays since a quiet moment -/

variable {origin s after : State} {b c d : Cursor} {entry : Entry} {event : Event} {index size : ℕ}

def State.Quiescent (s : State) : Prop := s.published.length = s.entries.length

instance (s : State) : Decidable s.Quiescent := inferInstanceAs (Decidable (_ = _))

/-- The records since then follow its tail, only they can still be filled, and what lies
between the head and its tail is as it was. -/
structure Since (origin s : State) (c : Cursor) : Prop where
  size : s.ring.realSize = origin.ring.realSize
  rest : ∃ rest, s.blocks = origin.blocks ++ rest ∧
    Chain s.ring.realSize origin.cursor rest s.cursor
  filled : ∀ (index : ℕ) (entry : Entry), s.entries[index]? = some entry →
    entry.stage = .allocated → origin.entries.length ≤ index
  memory : ∀ address, c.address s.ring.realSize ≤ address →
    address < origin.cursor.address s.ring.realSize →
    s.ring.localAddr (address % s.ring.realSize) =
      origin.ring.localAddr (address % s.ring.realSize)

namespace Since

theorem refl (h : Inv s c) (hquiet : s.Quiescent) : Since s s c := by
  refine ⟨rfl, ⟨[], (append_nil _).symm, rfl⟩, fun index entry hget hstage => ?_,
    fun _ _ _ => rfl⟩
  have hiff := h.publication.staged index entry hget
  rw [hstage] at hiff
  exact hquiet ▸ Nat.le_of_not_lt fun hlt => absurd (hiff.mpr hlt) (by decide)

variable (h : Since origin s c)
include h

theorem cursor_le : origin.cursor.address s.ring.realSize ≤ s.cursor.address s.ring.realSize := by
  obtain ⟨rest, -, hchain⟩ := h.rest
  exact hchain.le

theorem lap_le : origin.cursor.lap ≤ s.cursor.lap := by
  obtain ⟨rest, -, hchain⟩ := h.rest
  rw [hchain.lap_eq]
  exact Nat.le_add_right _ _

theorem prev_ge {block : Block} (hget : s.blocks[index]? = some block)
    (hnew : origin.entries.length ≤ index) :
    origin.cursor.address s.ring.realSize ≤ block.prev.address s.ring.realSize := by
  obtain ⟨rest, hblks, hchain⟩ := h.rest
  rw [hblks, getElem?_append_right (by rwa [blocks_length])] at hget
  exact hchain.prev_ge hget

theorem last_le (horigin : Inv origin b) {block : Block}
    (hget : s.blocks[index]? = some block) (hold : index < origin.entries.length) :
    block.last.address s.ring.realSize ≤ origin.cursor.address s.ring.realSize := by
  obtain ⟨rest, hblks, -⟩ := h.rest
  rw [hblks, getElem?_append_left (by rwa [blocks_length])] at hget
  rw [h.size]
  exact horigin.place.chain.last_le hget

theorem congr (hblks : after.blocks = s.blocks) (hsize : after.ring.realSize = s.ring.realSize)
    (hmemory : after.ring.localAddr = s.ring.localAddr)
    (hle : c.address s.ring.realSize ≤ d.address s.ring.realSize)
    (hfill : ∀ (index : ℕ) (entry : Entry), after.entries[index]? = some entry →
      entry.stage = .allocated → s.entries[index]? = some entry) : Since origin after d := by
  refine ⟨hsize.trans h.size, ?_, fun index entry hget hstage =>
    h.filled index entry (hfill index entry hget hstage) hstage, ?_⟩
  · rw [hblks, hsize, cursor_congr hblks]
    exact h.rest
  · rw [hsize, hmemory]
    exact fun address hge => h.memory address (Nat.le_trans hle hge)

theorem setEntry {next : Entry} {ring : DeltaSection} (hget : s.entries[index]? = some entry)
    (hblock : next.block = entry.block) (hstage : next.stage ≠ .allocated)
    (hsize : ring.realSize = s.ring.realSize) (hmemory : ring.localAddr = s.ring.localAddr)
    (hle : c.address s.ring.realSize ≤ d.address s.ring.realSize) :
    Since origin (s.setEntry index next ring) d := by
  refine h.congr (blocks_setEntry next hget hblock ring) hsize hmemory hle ?_
  intro other found hother halloc
  rw [setEntry_getElem? hget] at hother
  split at hother
  · cases hother
    exact absurd halloc hstage
  · exact hother

theorem fill (hplace : Placement s c)
    (hget : s.entries[index]? = some entry) (hstage : entry.stage = .allocated)
    {bytes : List UInt8} (hlen : bytes.length = entry.block.range.length) :
    Since origin (s.setEntry index { entry with stage := .filled, bytes := bytes }
      (s.ring.fillIn entry.block.first.offset bytes)) c := by
  have hblock := blocks_getElem? hget
  have hsame := blocks_setEntry { entry with stage := .filled, bytes := bytes } hget rfl
    (s.ring.fillIn entry.block.first.offset bytes)
  obtain ⟨-, hplaced, -⟩ := hplace.chain.split hblock
  have hprev := h.prev_ge hblock (h.filled index entry hget hstage)
  have hlast := hplace.chain.last_le hblock
  have hwin := hplace.window
  refine ⟨h.size, ?_, ?_, ?_⟩
  · rw [hsame, cursor_congr hsame]
    exact h.rest
  · intro other found hother halloc
    rw [setEntry_getElem? hget] at hother
    split at hother
    · cases hother
      cases halloc
    · exact h.filled other found hother halloc
  · intro address hge hlt
    refine Eq.trans ?_ (h.memory address hge hlt)
    have hrange : bytes.length = entry.block.stop - entry.block.first.offset := hlen
    have hproper := hplaced.proper
    have hfirst := hplaced.prev_le_first
    replace hge : c.address s.ring.realSize ≤ address := hge
    replace hlt : address < origin.cursor.address s.ring.realSize := hlt
    -- The record lies after every byte that must stay.
    have hout := hplaced.mod_not_mem address (by omega) (by omega)
    refine write_outside _ _ (hout.imp_right fun hhigh => ?_)
    show entry.block.first.offset + bytes.length ≤ address % s.ring.realSize
    omega

theorem allocate (hplace : Placement s c) (hpos : 0 < size) (hsize : size < s.ring.realSize)
    (hfits : s.ring.Fits size) (hstep : s.allocate size = some after) : Since origin after c := by
  obtain ⟨hfree, rfl⟩ := allocate_cases hstep
  have hnew := hplace.blockFor_placed hpos hsize
  have hprev := hplace.blockFor_prev size
  have hwin := hplace.blockFor_window hfits hfree hsize
  obtain ⟨rest, hblks, hchain⟩ := h.rest
  refine ⟨h.size, ⟨rest ++ [s.blockFor size], ?_, ?_⟩, ?_, ?_⟩
  · rw [addEntry_blocks, hblks, append_assoc]
  · rw [addEntry_cursor]
    rw [← hprev] at hchain
    exact hchain.concat hnew
  · intro index found hget halloc
    rcases concat_cases hget with hold | ⟨rfl, -⟩
    · exact h.filled index found hold halloc
    · have hlen := congrArg List.length hblks
      rw [length_append, blocks_length, blocks_length] at hlen
      omega
  · intro address hge hlt
    refine Eq.trans ?_ (h.memory address hge hlt)
    replace hge : c.address s.ring.realSize ≤ address := hge
    replace hlt : address < origin.cursor.address s.ring.realSize := hlt
    show (s.ring.reserve size).localAddr (address % s.ring.realSize) =
      s.ring.localAddr (address % s.ring.realSize)
    rw [show (s.ring.reserve size).localAddr =
      if s.ring.wraps size then s.ring.markFragment else s.ring.localAddr from rfl]
    by_cases hwraps : s.ring.wraps size = true
    · rw [if_pos hwraps, DeltaSection.markFragment]
      by_cases hroom : s.ring.tailAllocated < s.ring.realSize
      · -- The marker is written at the tail, after every byte that must stay.
        rw [if_pos hroom, hplace.tail]
        rw [hplace.tail] at hroom
        have hafter := hnew.prev_lt_first (by simp [Block.wrapped, State.blockFor, hwraps])
          (by rw [hprev]; exact hroom)
        have hproper := hnew.first_lt_last
        rw [hprev] at hafter
        have hbyte : s.cursor.byte.last.address s.ring.realSize =
          s.cursor.address s.ring.realSize + 1 := byte_last _
        have hbyteFirst : s.cursor.byte.first.address s.ring.realSize =
          s.cursor.address s.ring.realSize := rfl
        have hold := h.cursor_le
        exact write_outside _ _ ((byte_placed hroom).mod_not_mem address (by omega) (by omega))
      · rw [if_neg hroom]
    · rw [if_neg hwraps]

theorem step (hinv : Inv s c) (hcare : Careful s event)
    (hstep : DeltaRing.step s event = some after) :
    ∃ d, Inv after d ∧ c.address s.ring.realSize ≤ d.address s.ring.realSize ∧
      Since origin after d := by
  cases event with
  | allocate size =>
    obtain ⟨hpos, hsize, hfits⟩ := hcare
    exact ⟨c, hinv.allocate hpos hsize hfits hstep, Nat.le_refl _,
      h.allocate hinv.place hpos hsize hfits hstep⟩
  | fill index bytes =>
    have hafter := hinv.fill hstep
    obtain ⟨entry, hget, hstage, hlen, rfl⟩ := fill_cases hstep
    exact ⟨c, hafter, Nat.le_refl _, h.fill hinv.place hget hstage hlen⟩
  | count index =>
    have hafter := hinv.count hstep
    obtain ⟨entry, hget, -, rfl⟩ := count_cases hstep
    obtain ⟨epoch, hring⟩ := Inv.countWrap_cases s.ring entry.slot
    refine ⟨c, hafter, Nat.le_refl _, h.setEntry hget rfl (fun hstage => by cases hstage) ?_ ?_
      (Nat.le_refl _)⟩
    · rw [hring]
    · rw [hring]
  | publish index =>
    have hafter := (hinv.publish hstep).1
    obtain ⟨entry, hget, -, -, rfl⟩ := publish_cases hstep
    have hset : Since origin (s.setEntry index { entry with stage := .published }
        { s.ring with tail := entry.slot.nextOffset }) c :=
      h.setEntry hget rfl (fun hstage => by cases hstage) rfl rfl (Nat.le_refl _)
    exact ⟨c, hafter, Nat.le_refl _,
      hset.congr rfl rfl rfl (Nat.le_refl _) fun _ _ hother _ => hother⟩
  | name index =>
    have hafter := hinv.name hstep
    obtain ⟨entry, hget, -, rfl⟩ := name_cases hstep
    exact ⟨c, hafter, Nat.le_refl _,
      h.setEntry hget rfl (fun hstage => by cases hstage) rfl rfl (Nat.le_refl _)⟩
  | skip =>
    obtain ⟨d, hafter, hle⟩ := hinv.step hcare hstep
    obtain ⟨entry, -, -, rfl⟩ := skip_cases hstep
    exact ⟨d, hafter, hle, h.congr rfl rfl rfl hle fun _ _ hother _ => hother⟩
  | advance =>
    obtain ⟨d, hafter, hle⟩ := hinv.step hcare hstep
    obtain ⟨entry, -, -, rfl⟩ := advance_cases hstep
    exact ⟨d, hafter, hle, h.congr rfl rfl rfl hle fun _ _ hother _ => hother⟩
  | collect snapshot turns =>
    obtain ⟨d, hafter, hle, hpasses⟩ := collect_inv hinv hcare hstep
    have hsize := congrArg DeltaSection.realSize hpasses.ring
    have hmemory := congrArg DeltaSection.localAddr hpasses.ring
    refine ⟨d, hafter, hle, h.congr ?_ hsize hmemory hle fun _ _ hother _ => ?_⟩
    · rw [State.blocks, State.blocks, hpasses.entries]
    · rw [← hpasses.entries]
      exact hother

end Since

structure Later (origin s : State) (b c : Cursor) : Prop where
  start : Inv origin b
  inv : Inv s c
  since : Since origin s c
  head : b.address s.ring.realSize ≤ c.address s.ring.realSize
  originTail : origin.ring.tail = origin.cursor.offset
  originEpoch : origin.ring.epoch = origin.cursor.lap
  epochs : Epochs s

theorem quiescent_cursor (h : Inv s c) (heps : Epochs s) (hquiet : s.Quiescent) :
    s.ring.tail = s.cursor.offset ∧ s.ring.epoch = s.cursor.lap := by
  constructor
  · rw [(h.publication.tail_eq h.place).2 hquiet, h.place.tail]
  · rw [heps.epoch, countP_countedWrap h hquiet, h.place.chain.lap_eq, State.blocks,
      countP_map]
    exact (Nat.zero_add _).symm

namespace Later

theorem refl (h : Inv s c) (heps : Epochs s) (hquiet : s.Quiescent) : Later s s c c :=
  have hcur := quiescent_cursor h heps hquiet
  ⟨h, h, .refl h hquiet, Nat.le_refl _, hcur.1, hcur.2, heps⟩

theorem step (h : Later origin s b c) (hallow : InOrder s event)
    (hstep : DeltaRing.step s event = some after) : ∃ d, Later origin after b d := by
  have hcare := careful_of_inOrder h.inv hallow
  obtain ⟨d, hafter, hle, hsince⟩ := h.since.step h.inv hcare hstep
  have hsize : after.ring.realSize = s.ring.realSize := hsince.size.trans h.since.size.symm
  refine ⟨d, h.start, hafter, hsince, ?_, h.originTail, h.originEpoch,
    h.epochs.step h.inv hallow hstep⟩
  rw [hsize]
  exact Nat.le_trans h.head hle

end Later

theorem later_of_run (hstart : Reachable step InOrder Started origin) (hquiet : origin.Quiescent)
    (hrun : Reachable step InOrder (· = origin) s) : ∃ b c, Later origin s b c := by
  obtain ⟨⟨b, horigin⟩, heps⟩ := epochs_of_reachable hstart
  refine @Reachable.invariant _ _ _ _ _ _ (fun s => ∃ b c, Later origin s b c) ?_ ?_ hrun
  · rintro state rfl
    exact ⟨b, b, .refl horigin heps hquiet⟩
  · rintro state event after ⟨b, c, hlater⟩ hallow hstep
    exact ⟨b, hlater.step hallow hstep⟩

/-! ### Live bytes in unrolled addresses -/

theorem cursor_offset_pos (h : Placement s c)
    (hlt : c.address s.ring.realSize < s.cursor.address s.ring.realSize) : 0 < s.cursor.offset := by
  have hcur : s.cursor = (s.blocks.getLast?.map Block.last).getD ⟨0, 0⟩ := rfl
  cases hlast : s.blocks.getLast? with
  | none =>
    rw [hlast] at hcur
    rw [hcur] at hlt
    simp [Cursor.address] at hlt
  | some block =>
    rw [hlast] at hcur
    obtain ⟨index, hindex⟩ := mem_iff_getElem?.mp (mem_of_getLast? hlast)
    obtain ⟨-, hplaced, -⟩ := h.chain.split hindex
    rw [hcur]
    exact Nat.zero_lt_of_lt hplaced.proper

theorem head_lt_cursor (h : Placement s c) (hne : s.ring.isEmpty = false) :
    c.address s.ring.realSize < s.cursor.address s.ring.realSize := by
  have hlt : s.reclaimed < s.blocks.length := by
    rw [blocks_length]
    refine Nat.lt_of_le_of_ne h.behind fun hall => ?_
    rw [h.empty.mpr hall] at hne
    cases hne
  have hget := getElem?_eq_getElem hlt
  obtain ⟨-, hplaced, -⟩ := h.chain.split hget
  have hfirst := h.head_le_first hget (Nat.le_refl _)
  have hproper := hplaced.first_lt_last
  have hlast := h.chain.last_le hget
  omega

theorem lap_cases (h : Placement s c)
    (hlt : c.address s.ring.realSize < s.cursor.address s.ring.realSize) :
    s.cursor.lap = c.lap ∧ c.offset < s.cursor.offset ∨
      s.cursor.lap = c.lap + 1 ∧ s.cursor.offset ≤ c.offset :=
  lap_of_window h.head_offset_le hlt h.cursor_offset_le h.window (cursor_offset_pos h hlt)

theorem live_iff (h : Inv s c) (htail : s.ring.tail = s.cursor.offset) {offset : ℕ} :
    s.ring.Live offset ↔ ∃ address, c.address s.ring.realSize ≤ address ∧
      address < s.cursor.address s.ring.realSize ∧ address % s.ring.realSize = offset := by
  have hhead := h.place.head_offset_le
  unfold DeltaSection.Live
  rw [htail, h.place.head]
  constructor
  · rintro ⟨hne, hoff, hcases⟩
    have hin : ∀ lap, (lap * s.ring.realSize + offset) % s.ring.realSize = offset := by
      intro lap
      rw [Nat.mul_add_mod_self_right, Nat.mod_eq_of_lt hoff]
    unfold Cursor.address
    rcases lap_cases h.place (head_lt_cursor h.place hne) with ⟨hlap, hpre⟩ | ⟨hlap, hbhd⟩
    · refine ⟨c.lap * s.ring.realSize + offset, by omega, ?_, hin _⟩
      rw [hlap]
      omega
    · rw [hlap, Nat.add_mul, Nat.one_mul]
      by_cases hlow : offset < s.cursor.offset
      · refine ⟨(c.lap + 1) * s.ring.realSize + offset, ?_, ?_, hin _⟩
        · rw [Nat.add_mul, Nat.one_mul]
          omega
        · rw [Nat.add_mul, Nat.one_mul]
          omega
      · exact ⟨c.lap * s.ring.realSize + offset, by omega, by omega, hin _⟩
  · rintro ⟨address, hge, hlt, rfl⟩
    have hne : s.ring.isEmpty = false := by
      refine Bool.eq_false_iff.mpr fun hempty => ?_
      rw [h.place.head_eq_cursor hempty] at hge
      omega
    obtain ⟨hlow, hhigh⟩ := lap_of_mem h.place.pos h.place.cursor_offset_le hge hlt
    refine ⟨hne, Nat.mod_lt _ h.place.pos, ?_⟩
    rcases lap_cases h.place (Nat.lt_of_le_of_lt hge hlt) with ⟨hlap, hpre⟩ | ⟨hlap, hbhd⟩
    · exact .inl ⟨hpre, offset_le_mod (by omega) hge, mod_lt_offset (by omega) hlt⟩
    · refine .inr ⟨hbhd, ?_⟩
      rcases Nat.eq_or_lt_of_le hhigh with hlast | hfirst
      · exact .inl (mod_lt_offset hlast.symm hlt)
      · exact .inr (offset_le_mod (by omega) hge)

/-! ### The ranges cover what is new -/

section Boundaries

variable (h : Later origin s b c) (hquiet : s.Quiescent)

include h hquiet

theorem boundaries_cover {address : ℕ} (hge : c.address s.ring.realSize ≤ address)
    (hnew : origin.cursor.address s.ring.realSize ≤ address)
    (hlt : address < s.cursor.address s.ring.realSize) :
    Covered (s.ring.boundaries origin.ring.tail origin.ring.epoch)
      (headerSize + address % s.ring.realSize) := by
  obtain ⟨htail, hepoch⟩ := quiescent_cursor h.inv h.epochs hquiet
  have hroom := h.inv.place.cursor_offset_le
  have hlaps := h.since.lap_le
  have hbound := Nat.mod_lt address h.inv.place.pos
  obtain ⟨hlow, hhigh⟩ := lap_of_mem h.inv.place.pos hroom hge hlt
  -- Offsets of one lap are ordered as the addresses are.
  have hold : origin.cursor.lap = address / s.ring.realSize →
      origin.cursor.offset ≤ address % s.ring.realSize := fun hlap => offset_le_mod hlap hnew
  have hhead : c.lap = address / s.ring.realSize → c.offset ≤ address % s.ring.realSize :=
    fun hlap => offset_le_mod hlap hge
  have hend : s.cursor.lap = address / s.ring.realSize →
      address % s.ring.realSize < s.cursor.offset := fun hlap => mod_lt_offset hlap hlt
  unfold DeltaSection.boundaries
  rw [htail, hepoch, h.inv.place.head, h.originTail, h.originEpoch]
  rcases lap_cases h.inv.place (Nat.lt_of_le_of_lt hge hlt) with ⟨hlap, hpre⟩ | ⟨hlap, hbhd⟩
  · simp only [if_pos hpre]
    by_cases hlater : origin.cursor.lap < s.cursor.lap
    · rw [if_pos hlater]
      refine covered_prune ⟨Nat.zero_le _, by simp only; omega⟩
        ⟨by simp only; omega, by simp only; omega⟩ ⟨_, mem_cons_of_mem _ mem_cons_self, ?_⟩
      simp only
      omega
    · rw [if_neg hlater]
      refine covered_prune ⟨Nat.zero_le _, by simp only; omega⟩ ⟨?_, by simp only; omega⟩
        ⟨_, mem_cons_of_mem _ mem_cons_self, ?_⟩
      · simp only
        split <;> omega
      · simp only
        split <;> omega
  · have hnot : ¬ c.offset < s.cursor.offset := Nat.not_lt.mpr hbhd
    simp only [if_neg hnot]
    by_cases hlater : origin.cursor.lap < s.cursor.lap
    · rw [if_pos hlater]
      rcases Nat.eq_or_lt_of_le hhigh with hlast | hfirst
      · refine ⟨_, mem_cons_of_mem _ mem_cons_self, ?_⟩
        simp only
        omega
      · refine ⟨_, mem_cons_of_mem _ (mem_cons_of_mem _ mem_cons_self), ?_⟩
        simp only [DeltaSection.sectionSize]
        split
        · split <;> omega
        · omega
    · rw [if_neg hlater]
      have hsame : origin.cursor.lap = address / s.ring.realSize := by
        have hge' := (lap_of_mem h.inv.place.pos hroom hnew hlt).1
        omega
      refine covered_prune ⟨Nat.zero_le _, by simp only; omega⟩
        ⟨by simp only; omega, by simp only; omega⟩ ⟨_, mem_cons_of_mem _ mem_cons_self, ?_⟩
      simp only
      omega

theorem boundaries_layout : Layout s.ring.sectionSize
    (s.ring.boundaries origin.ring.tail origin.ring.epoch) := by
  obtain ⟨htail, hepoch⟩ := quiescent_cursor h.inv h.epochs hquiet
  have hroom := h.inv.place.cursor_offset_le
  have hhead := h.inv.place.head_offset_le
  have hlaps := h.since.lap_le
  have hcur := h.since.cursor_le
  have holdRoom := h.start.place.cursor_offset_le
  rw [← h.since.size] at holdRoom
  have hpolling : (headerSize + s.ring.realSize, headerSize + s.ring.realSize + 1) =
      (s.ring.sectionSize - 1, s.ring.sectionSize) := rfl
  -- In one lap the old tail is not behind the tail.
  have hsame : origin.cursor.lap = s.cursor.lap → origin.cursor.offset ≤ s.cursor.offset := by
    intro hlap
    rw [Cursor.address, Cursor.address, hlap] at hcur
    omega
  unfold DeltaSection.boundaries
  rw [htail, hepoch, h.inv.place.head, h.originTail, h.originEpoch, hpolling]
  by_cases hlater : origin.cursor.lap < s.cursor.lap
  · rw [if_pos hlater]
    by_cases hpre : c.offset < s.cursor.offset
    · rw [if_pos hpre]
      apply layout_prune
      · simp only
        omega
      · simp only [DeltaSection.sectionSize]
        omega
      · simp only
        omega
    · rw [if_neg hpre]
      refine ⟨?_, ⟨headerSize, _, rfl, Nat.le_refl _⟩, ⟨[_, _], _, rfl, ?_⟩⟩
      · intro range hmem
        simp only [mem_cons, not_mem_nil, or_false] at hmem
        rcases hmem with rfl | rfl | rfl
        · simp only [DeltaSection.sectionSize]
          omega
        · simp only [DeltaSection.sectionSize]
          omega
        · simp only [DeltaSection.sectionSize]
          split
          · split <;> omega
          · omega
      · simp only [DeltaSection.sectionSize]
        split
        · split <;> omega
        · omega
  · rw [if_neg hlater]
    by_cases hpre : c.offset < s.cursor.offset
    · rw [if_pos hpre]
      apply layout_prune
      · simp only
        split <;> omega
      · simp only [DeltaSection.sectionSize]
        omega
      · simp only
        split <;> omega
    · rw [if_neg hpre]
      apply layout_prune
      · simp only
        omega
      · simp only [DeltaSection.sectionSize]
        omega
      · simp only
        omega

end Boundaries

/-- A copy that held the live bytes at a quiet moment holds them again after the ranges
were copied at a later one. -/
theorem copy_live (h : Later origin s b c) (hquiet : s.Quiescent) {copy : Memory}
    (hcopy : ∀ offset, origin.ring.Live offset →
      copy (headerSize + offset) = origin.ring.localAddr offset) {offset : ℕ}
    (hlive : s.ring.Live offset) :
    copyRanges s.ring.image (s.ring.calculateWriteBoundaries origin.ring.head origin.ring.tail
      origin.ring.epoch).1 copy (headerSize + offset) = s.ring.localAddr offset := by
  have htail := (quiescent_cursor h.inv h.epochs hquiet).1
  rw [← s.ring.image_data hlive.2.1]
  obtain ⟨address, hge, hlt, rfl⟩ := (live_iff h.inv htail).mp hlive
  by_cases hnew : origin.cursor.address s.ring.realSize ≤ address
  · exact copyRanges_of_covered (covered_split (boundaries_cover h hquiet hge hnew hlt))
  · apply copyRanges_of_eq
    have hpre : address < origin.cursor.address s.ring.realSize := Nat.lt_of_not_le hnew
    have hwas : origin.ring.Live (address % s.ring.realSize) := by
      rw [live_iff h.start h.originTail, ← h.since.size]
      exact ⟨address, Nat.le_trans h.head hge, hpre, rfl⟩
    rw [hcopy _ hwas, s.ring.image_data hlive.2.1]
    exact (h.since.memory address hge hpre).symm

theorem Layout.covers_header {size : ℕ} {ranges : List (ℕ × ℕ)} (h : Layout size ranges)
    {address : ℕ} (hlt : address < headerSize) : Covered ranges address := by
  obtain ⟨stop, rest, rfl, hhdr⟩ := h.first
  exact ⟨(0, stop), mem_cons_self, Nat.zero_le _, Nat.lt_of_lt_of_le hlt hhdr⟩

/-- Copying the ranges brings the header and the live bytes of a copy up to date. -/
theorem pull_up_to_date (hstart : Reachable step InOrder Started origin) (hquiet : origin.Quiescent)
    (hrun : Reachable step InOrder (· = origin) s) (hlater : s.Quiescent) (copy : Memory)
    (hcopy : ∀ offset, origin.ring.Live offset → copy (headerSize + offset) = origin.ring.localAddr
      offset) : let ranges := (s.ring.calculateWriteBoundaries origin.ring.head origin.ring.tail
      origin.ring.epoch).1
    Layout s.ring.sectionSize ranges ∧
      AgreeOn (copyRanges s.ring.image ranges copy) s.ring.image 0 headerSize ∧
      ∀ offset, s.ring.Live offset →
        copyRanges s.ring.image ranges copy (headerSize + offset) = s.ring.localAddr offset := by
  obtain ⟨b, c, h⟩ := later_of_run hstart hquiet hrun
  have hlay := (boundaries_layout h hlater).split
  refine ⟨hlay, fun address _ hlt => ?_, fun offset hlive => copy_live h hlater hcopy hlive⟩
  exact copyRanges_of_covered (hlay.covers_header (by omega))

def afterFirst : List Event :=
  .advance :: appendRecord 1 (replicate 90 2) ++ appendRecord 2 (replicate 120 3)

theorem pull_up_to_date_wrapped :
    ∃ origin s : State, origin.Quiescent ∧ s.Quiescent ∧ origin.ring.epoch = 0 ∧ s.ring.epoch = 1 ∧
      s.ring.Live 10 ∧ copyRanges s.ring.image (s.ring.calculateWriteBoundaries origin.ring.head
        origin.ring.tail origin.ring.epoch).1 origin.ring.image (headerSize + 10) =
          s.ring.localAddr 10 := by
  obtain ⟨origin, s, hstart, hrun, hquiet, hlater, hzero, hone, hlive⟩ : ∃ origin s : State,
      Reachable step InOrder Started origin ∧ Reachable step InOrder (· = origin) s ∧
      origin.Quiescent ∧ s.Quiescent ∧ origin.ring.epoch = 0 ∧ s.ring.epoch = 1 ∧
      s.ring.Live 10 :=
    Reachable.exists_of_schedules (appendRecord 0 (replicate 180 1)) afterFirst
      ⟨300, by decide, by decide, rfl⟩ (by decide +kernel)
  exact ⟨origin, s, hquiet, hlater, hzero, hone, hlive,
    (pull_up_to_date hstart hquiet hrun hlater origin.ring.image
      fun offset hwas => origin.ring.image_data hwas.2.1).2.2 10 hlive⟩

/-- In an empty ring a record wraps that is longer than all before it.  The wrap is not
counted, so the range starts at the old tail although the head went back to offset 0. -/
theorem pull_uncounted_wrap :
    ∃ origin s : State, Reachable step NoOverlap Started origin ∧ origin.Quiescent ∧
      Reachable step NoOverlap (· = origin) s ∧ s.Quiescent ∧ s.ring.Live 0 ∧
      copyRanges s.ring.image (s.ring.calculateWriteBoundaries origin.ring.head origin.ring.tail
        origin.ring.epoch).1 origin.ring.image headerSize ≠ s.ring.localAddr 0 := by
  obtain ⟨origin, s, hstart, hrun, hquiet, hseen⟩ : ∃ origin s : State,
      Reachable step NoOverlap Started origin ∧ Reachable step NoOverlap (· = origin) s ∧
      origin.Quiescent ∧ s.Quiescent ∧ s.ring.Live 0 ∧
      copyRanges s.ring.image (s.ring.calculateWriteBoundaries origin.ring.head origin.ring.tail
        origin.ring.epoch).1 origin.ring.image headerSize ≠ s.ring.localAddr 0 :=
    Reachable.exists_of_schedules (appendRecord 0 (replicate 2100 0))
      (.advance :: appendRecord 1 (replicate 2200 7) ++ [.skip])
      ⟨4000, by decide, by decide, rfl⟩ (by decide +kernel)
  exact ⟨origin, s, hstart, hquiet, hrun, hseen⟩

end MemoryEngine.DeltaRing
