import MemoryEngine.Txn.DeltaPull

/-! What a node may read in its copy of another node's ring.

`isOffsetValid` decides from the header of the copy whether a delta record is in it, and
`isOffsetDangerous` whether the record may be in a range that a pull is still writing. -/
namespace MemoryEngine.DeltaRing

open ByteMemory Storage LapRing TransitionSystem List

namespace DeltaSection

variable (ring : DeltaSection)

def ofImage (realSize : ℕ) (memory : Memory) : DeltaSection where
  realSize := realSize
  dangerSize := ofLE (read memory 0 8)
  epoch := ofLE (read memory 8 8)
  head := ofLE (read memory 16 8)
  tail := ofLE (read memory 24 8)
  tailAllocated := ofLE (read memory 32 8)
  maxTs := ofLE (read memory 40 8)
  isEmpty := memory 48 != 0
  localAddr := view memory headerSize

theorem ofImage_realSize (realSize : ℕ) (memory : Memory) :
    (ofImage realSize memory).realSize = realSize := rfl

variable (offset epoch : ℕ)

def isOffsetValid : Bool :=
  if ring.epoch < epoch then false
  else if ring.head ≤ ring.tail then offset < ring.tail
  else (ring.head ≤ offset && offset < ring.realSize) || offset < ring.tail

/-- The differences are those of unsigned 64-bit numbers. -/
def isOffsetDangerous (offset _epoch : ℕ) : Bool :=
  if ring.dangerSize = 0 then false
  else if ring.head ≤ ring.tail then
    let dangerStart := if ring.tail ≤ ring.dangerSize then 0 else ring.tail - ring.dangerSize
    dangerStart ≤ offset && offset ≤ ring.tail
  else if ring.dangerSize ≤ ring.tail then
    ring.tail - ring.dangerSize ≤ offset && offset ≤ ring.tail
  else if offset ≤ ring.tail then true
  else
    let upperSpan := ring.dangerSize - ring.tail
    let upperStart := (ring.realSize + 2 ^ 64 - upperSpan) % 2 ^ 64
    upperStart ≤ offset && offset < ring.realSize

/-- The check of both at once, on one reading of the header. -/
def isvalidandnotdangerours : Bool :=
  if ring.epoch < epoch then false
  else
    let valid :=
      if ring.head ≤ ring.tail then decide (offset < ring.tail)
      else (ring.head ≤ offset && offset < ring.realSize) || offset < ring.tail
    if !valid then false
    else if ring.dangerSize = 0 then true
    else if ring.head ≤ ring.tail then
      let dangerStart := if ring.tail ≤ ring.dangerSize then 0 else ring.tail - ring.dangerSize
      !(dangerStart ≤ offset && offset ≤ ring.tail)
    else if ring.dangerSize ≤ ring.tail then
      !(ring.tail - ring.dangerSize ≤ offset && offset ≤ ring.tail)
    else if offset ≤ ring.tail then false
    else
      let upperSpan := ring.dangerSize - ring.tail
      let upperStart := (ring.realSize + 2 ^ 64 - upperSpan) % 2 ^ 64
      !(upperStart ≤ offset && offset < ring.realSize)

section Combined

def Occupied (offset : ℕ) : Prop :=
  if ring.head ≤ ring.tail then offset < ring.tail
  else ring.head ≤ offset ∧ offset < ring.realSize ∨ offset < ring.tail

/-- One of the `dangerSize` bytes before the tail, going round the end of the ring. -/
def BeforeTail (offset : ℕ) : Prop :=
  ∃ distance, 0 < distance ∧ distance ≤ ring.dangerSize ∧
    (offset + distance = ring.tail ∨ offset + distance = ring.tail + ring.realSize)

variable {ring}

theorem beforeTail_iff {offset : ℕ} : ring.BeforeTail offset ↔
    offset < ring.tail ∧ ring.tail ≤ offset + ring.dangerSize ∨
      offset < ring.tail + ring.realSize ∧
        ring.tail + ring.realSize ≤ offset + ring.dangerSize := by
  constructor
  · rintro ⟨distance, hpos, hle, heq | heq⟩ <;> omega
  · rintro (⟨hlt, hle⟩ | ⟨hlt, hle⟩)
    · exact ⟨ring.tail - offset, by omega, by omega, .inl (by omega)⟩
    · exact ⟨ring.tail + ring.realSize - offset, by omega, by omega, .inr (by omega)⟩

theorem isOffsetValid_iff {offset epoch : ℕ} :
    ring.isOffsetValid offset epoch = true ↔ epoch ≤ ring.epoch ∧ ring.Occupied offset := by
  unfold isOffsetValid Occupied
  by_cases hepoch : ring.epoch < epoch
  · simp [hepoch]
  · split_ifs <;> simp [not_lt.mp hepoch]

theorem isOffsetDangerous_iff (hdanger : ring.dangerSize < ring.realSize)
    (hsize : ring.realSize < 2 ^ 64) {offset : ℕ} (hocc : ring.Occupied offset) (epoch : ℕ) :
    ring.isOffsetDangerous offset epoch = true ↔ ring.BeforeTail offset := by
  rw [beforeTail_iff]
  unfold isOffsetDangerous
  unfold Occupied at hocc
  split_ifs at hocc ⊢ <;> simp <;> omega

theorem isvalidandnotdangerours_eq :
    ring.isvalidandnotdangerours offset epoch =
      (ring.isOffsetValid offset epoch && !ring.isOffsetDangerous offset epoch) := by
  unfold isvalidandnotdangerours isOffsetValid
  by_cases hepoch : ring.epoch < epoch
  · simp only [if_pos hepoch, Bool.false_and]
  · simp only [if_neg hepoch]
    -- both functions test the same interval, so its outcome is all that counts
    generalize (if ring.head ≤ ring.tail then decide (offset < ring.tail)
      else (ring.head ≤ offset && offset < ring.realSize) || offset < ring.tail) = valid
    cases valid with
    | false => rfl
    | true =>
      rw [Bool.not_true, if_neg Bool.false_ne_true, Bool.true_and, isOffsetDangerous]
      split_ifs <;> rfl

/-- The combined check is the conjunction of the two, and it accepts the occupied offsets but the
bytes before the tail and the tail itself. -/
theorem isvalidandnotdangerours_spec (hdanger : ring.dangerSize < ring.realSize)
    (hsize : ring.realSize < 2 ^ 64) (offset epoch : ℕ) :
    ring.isvalidandnotdangerours offset epoch =
        (ring.isOffsetValid offset epoch && !ring.isOffsetDangerous offset epoch) ∧
      (ring.isvalidandnotdangerours offset epoch = true ↔
        epoch ≤ ring.epoch ∧ ring.Occupied offset ∧ ¬ ring.BeforeTail offset ∧
          offset ≠ ring.tail) := by
  have heq := ring.isvalidandnotdangerours_eq offset epoch
  refine ⟨heq, ?_⟩
  rw [heq, Bool.and_eq_true, isOffsetValid_iff, Bool.not_eq_true', and_assoc]
  refine and_congr_right fun _ => and_congr_right fun hocc => ?_
  have htail : offset ≠ ring.tail := by
    unfold Occupied at hocc
    split_ifs at hocc <;> omega
  rw [← isOffsetDangerous_iff hdanger hsize hocc epoch, Bool.not_eq_true, and_iff_left htail]

def wrappedSection : DeltaSection := { init 8 with dangerSize := 3, head := 5, tail := 2 }

theorem isvalidandnotdangerours_wrapped :
    wrappedSection.isvalidandnotdangerours 6 0 = true ∧ wrappedSection.BeforeTail 7 := by
  have hspec := (wrappedSection.isvalidandnotdangerours_spec (by decide) (by decide) 6 0).2
  refine ⟨hspec.mpr ⟨by decide, by unfold Occupied; decide, ?_, by decide⟩, ?_⟩
  · rw [beforeTail_iff]
    decide
  · rw [beforeTail_iff]
    decide

end Combined

def dangerous (danger : ℕ) : DeltaSection := { ring with dangerSize := danger }

/-- The writes that `ProcessDeltaPull` posts: the first is from a buffer in which the danger
size is set. -/
def processDeltaPull (oldHead oldTail oldEpoch : ℕ) : List (ℕ × List UInt8) :=
  match ring.calculateWriteBoundaries oldHead oldTail oldEpoch with
  | ([], _) => []
  | (first :: rest, danger) =>
      (0, read (ring.dangerous danger).image 0 (first.2 - first.1)) :: rest.map (copyOf ring.image)

/-- `PullUpdates` on a copy, with the owner's answer: the polling byte is cleared, the
ranges arrive, and the danger size is reset. -/
def pullUpdates (copy : Memory) : Memory :=
  let shadow := ofImage ring.realSize copy
  let cleared := write copy (ring.sectionSize - 1) [0]
  write (writeAll cleared (ring.processDeltaPull shadow.head shadow.tail shadow.epoch)) 0
    (natLE 8 0)

/-! ### The bytes after a pull -/

theorem dangerous_image {danger address : ℕ} (h : 8 ≤ address) :
    (ring.dangerous danger).image address = ring.image address := by
  obtain ⟨i, rfl⟩ := Nat.exists_eq_add_of_le h
  -- Only the first field of the header differs.
  have hfield : ∀ (memory : Memory) (size : ℕ),
      write memory 0 (natLE 8 size ++ ring.header.drop 8) (8 + i) =
        ((ring.header.drop 8)[i]?).getD (memory (8 + i)) := by
    intro memory size
    rw [write_append, natLE_length, Nat.zero_add, write_add,
      write_of_ge _ _ (by rw [natLE_length]; omega)]
  show write _ 0 (natLE 8 danger ++ ring.header.drop 8) (8 + i) =
    write _ 0 (natLE 8 ring.dangerSize ++ ring.header.drop 8) (8 + i)
  rw [hfield, hfield]
  rfl

theorem pullUpdates_apply {copy : Memory} {address : ℕ} (h : 8 ≤ address)
    {oldHead oldTail oldEpoch : ℕ} (hhead : (ofImage ring.realSize copy).head = oldHead)
    (htail : (ofImage ring.realSize copy).tail = oldTail)
    (hepoch : (ofImage ring.realSize copy).epoch = oldEpoch)
    (hlay : Layout ring.sectionSize (ring.calculateWriteBoundaries oldHead oldTail oldEpoch).1) :
    ring.pullUpdates copy address =
      copyRanges ring.image (ring.calculateWriteBoundaries oldHead oldTail oldEpoch).1
        (write copy (ring.sectionSize - 1) [0]) address := by
  subst hhead htail hepoch
  unfold pullUpdates processDeltaPull
  rw [write_of_ge _ _ (by rw [natLE_length]; omega)]
  obtain ⟨stop, rest, hranges, -⟩ := hlay.first
  generalize ring.calculateWriteBoundaries _ _ _ = result at hranges ⊢
  obtain ⟨ranges, danger⟩ := result
  simp only at hranges
  subst hranges
  simp only
  show writeAll (write _ 0 _) _ address =
    writeAll (write _ 0 (read ring.image 0 (stop - 0))) _ address
  refine writeAll_congr ?_ _
  rw [write_read_apply, write_read_apply, dangerous_image ring h]

theorem field_eq {memory : Memory} {start value : ℕ} (hagree : AgreeOn memory ring.image start 8)
    (hle : start + 8 ≤ headerSize) (hsmall : value < 2 ^ 64)
    (hbytes : (ring.header.drop start).take 8 = natLE 8 value) :
    ofLE (read memory start 8) = value := by
  have hpart := read_part _ ring.image_header hle
  rw [Nat.zero_add] at hpart
  rw [read_congr hagree, hpart, hbytes]
  exact ofLE_natLE_of_lt hsmall

theorem ofImage_fields {memory : Memory} (hagree : AgreeOn memory ring.image 8 41)
    (hepoch : ring.epoch < 2 ^ 64) (hhead : ring.head < 2 ^ 64) (htail : ring.tail < 2 ^ 64) :
    (ofImage ring.realSize memory).epoch = ring.epoch ∧
      (ofImage ring.realSize memory).head = ring.head ∧
      (ofImage ring.realSize memory).tail = ring.tail :=
  ⟨ring.field_eq (hagree.mono (by decide) (by decide)) (by decide) hepoch rfl,
    ring.field_eq (hagree.mono (by decide) (by decide)) (by decide) hhead rfl,
    ring.field_eq (hagree.mono (by decide) (by decide)) (by decide) htail rfl⟩

theorem agreeOn_header (memory : Memory) :
    AgreeOn (write memory 0 ring.header) ring.image 0 headerSize := by
  refine agreeOn_of_read_eq ?_
  nth_rewrite 1 [← ring.header_length]
  exact read_write_same _ _ _

end DeltaSection

/-! ### The owner and a copy -/

variable {origin s : State} {b c : Cursor} {entry : Entry} {index : ℕ}

structure Pair where
  owner : State
  copy : Memory

variable (p : Pair)

def Pair.shadow : DeltaSection := .ofImage p.owner.ring.realSize p.copy

inductive PairEvent where
  | owner (event : Event)
  | pull
  deriving DecidableEq, Repr

/-- A pull waits until the tail is the allocated tail. -/
def pairStep : PairEvent → Option Pair
  | .owner event => (step p.owner event).map fun after => { p with owner := after }
  | .pull =>
      if p.owner.ring.tail = p.owner.ring.tailAllocated then
        some { p with copy := p.owner.ring.pullUpdates p.copy }
      else none

/-- The owner runs in order and its epoch is read in time; a pull finds every record
published, and the epoch has not overflowed. -/
def PairAllowed : PairEvent → Prop
  | .owner event => Paced p.owner event
  | .pull => p.owner.Quiescent ∧ p.owner.ring.epoch < 2 ^ 64

instance (p : Pair) : ∀ event, Decidable (PairAllowed p event) := by
  rintro (_ | _) <;> dsimp only [PairAllowed] <;> infer_instance

def PairStarted : Prop :=
  Started p.owner ∧ ∃ memory, p.copy =
    write memory 0 (DeltaSection.init p.owner.ring.realSize).header

structure Shadow (origin : State) (copy : Memory) : Prop where
  epoch : (DeltaSection.ofImage origin.ring.realSize copy).epoch = origin.ring.epoch
  head : (DeltaSection.ofImage origin.ring.realSize copy).head = origin.ring.head
  tail : (DeltaSection.ofImage origin.ring.realSize copy).tail = origin.ring.tail
  bytes : ∀ offset, origin.ring.Live offset →
    copy (headerSize + offset) = origin.ring.localAddr offset

theorem Shadow.pull {copy : Memory} (hshadow : Shadow origin copy) (h : Later origin s b c)
    (hquiet : s.Quiescent) (hepoch : s.ring.epoch < 2 ^ 64) :
    Shadow s (s.ring.pullUpdates copy) := by
  have hlay := (boundaries_layout h hquiet).split
  have hsize := h.since.size
  have htail := (quiescent_cursor h.inv h.epochs hquiet).1
  have hroom := h.inv.place.cursor_offset_le
  have hhead := h.inv.place.head_offset_le
  have hsmall := h.inv.place.small
  have happly : ∀ address, 8 ≤ address → s.ring.pullUpdates copy address =
      copyRanges s.ring.image (s.ring.calculateWriteBoundaries origin.ring.head origin.ring.tail
        origin.ring.epoch).1 (write copy (s.ring.sectionSize - 1) [0]) address := by
    intro address hge
    refine s.ring.pullUpdates_apply hge ?_ ?_ ?_ hlay
    · rw [hsize]
      exact hshadow.head
    · rw [hsize]
      exact hshadow.tail
    · rw [hsize]
      exact hshadow.epoch
  have hagree : AgreeOn (s.ring.pullUpdates copy) s.ring.image 8 41 := by
    intro address hge hlt
    rw [happly address hge]
    exact copyRanges_of_covered (hlay.covers_header (by rw [headerSize]; omega))
  obtain ⟨hfieldEpoch, hfieldHead, hfieldTail⟩ := s.ring.ofImage_fields hagree hepoch
    (by rw [h.inv.place.head]; omega) (by rw [htail]; omega)
  refine ⟨hfieldEpoch, hfieldHead, hfieldTail, fun offset hlive => ?_⟩
  rw [happly _ (Nat.le_trans (by decide) (Nat.le_add_right headerSize offset))]
  refine copy_live h hquiet (fun other hwas => ?_) hlive
  -- Clearing the polling byte does not touch the ring.
  have hother : other < s.ring.realSize := hsize ▸ hwas.2.1
  rw [write_of_lt _ _ (by
    simp only [DeltaSection.sectionSize]
    omega)]
  exact hshadow.bytes other hwas

def Pair.Held : Prop :=
  Named p.owner ∧ ∃ origin b c, Later origin p.owner b c ∧ Shadow origin p.copy

theorem held_of_reachable {p : Pair} (h : Reachable pairStep PairAllowed PairStarted p) :
    p.Held := by
  refine @Reachable.invariant _ _ _ _ _ _ Pair.Held ?_ ?_ h
  · rintro ⟨owner, copy⟩ ⟨hstart, memory, hcopy⟩
    have hnamed := named_of_reachable (.start hstart)
    obtain ⟨⟨c, hinv⟩, heps⟩ := epochs_of_reachable (.start hstart)
    obtain ⟨realSize, -, -, rfl⟩ := hstart
    refine ⟨hnamed, _, c, c, .refl hinv heps rfl, ?_⟩
    have hagree : AgreeOn copy (DeltaSection.init realSize).image 8 41 := by
      replace hcopy : copy = write memory 0 (DeltaSection.init realSize).header := hcopy
      rw [hcopy]
      exact (DeltaSection.agreeOn_header _ memory).mono (Nat.zero_le _) (by decide)
    have hzero : 0 < 2 ^ 64 := Nat.two_pow_pos 64
    obtain ⟨hepoch, hhead, htail⟩ := DeltaSection.ofImage_fields _ hagree hzero hzero hzero
    exact ⟨hepoch, hhead, htail, fun offset hlive => by cases hlive.1⟩
  · rintro ⟨owner, copy⟩ event after ⟨hnamed, origin, b, c, hlater, hshadow⟩ hallow hstep
    cases event with
    | owner event =>
      obtain ⟨next, hnext, rfl⟩ := Option.map_eq_some_iff.mp hstep
      obtain ⟨d, hafter⟩ := hlater.step (inOrder_of_paced hallow) hnext
      exact ⟨hnamed.step hlater.inv hlater.epochs hallow hnext, origin, b, d, hafter, hshadow⟩
    | pull =>
      obtain ⟨hquiet, hepoch⟩ := hallow
      rw [pairStep] at hstep
      split at hstep
      · cases hstep
        exact ⟨hnamed, owner, c, c, .refl hlater.inv hlater.epochs hquiet,
          hshadow.pull hlater hquiet hepoch⟩
      · cases hstep

/-! ### Valid offsets -/

theorem wrapsAt_eq_lap (h : Inv s c) (hget : s.entries[index]? = some entry) :
    s.wrapsAt index = entry.block.first.lap := by
  have hblock := blocks_getElem? hget
  obtain ⟨hpre, hplaced, -⟩ := h.place.chain.split hblock
  rw [wrapsAt_eq, take_add_one, hblock, countP_append, hplaced.lap_first, hpre.lap_eq]
  simp [countP_singleton]

theorem first_of_new (h : Later origin s b c) (hget : s.entries[index]? = some entry)
    (hnew : origin.entries.length ≤ index) :
    origin.cursor.lap < entry.block.first.lap ∨
      origin.cursor.lap = entry.block.first.lap ∧
        origin.cursor.offset ≤ entry.block.first.offset := by
  have hblock := blocks_getElem? hget
  obtain ⟨-, hplaced, -⟩ := h.inv.place.chain.split hblock
  exact lap_lt_or_offset_le (Nat.lt_of_lt_of_le hplaced.proper hplaced.inside)
    (Nat.le_trans (h.since.prev_ge hblock hnew) hplaced.prev_le_first)

theorem copy_of_old {copy : Memory} (h : Later origin s b c)
    (hcopy : ∀ offset, origin.ring.Live offset →
      copy (headerSize + offset) = origin.ring.localAddr offset)
    (hget : s.entries[index]? = some entry) (hfill : entry.stage ≠ .allocated)
    (hlive : s.reclaimed ≤ index) (hold : index < origin.entries.length) :
    read (view copy headerSize) entry.slot.offset entry.block.range.length = entry.bytes := by
  have hblock := blocks_getElem? hget
  obtain ⟨-, hplaced, -⟩ := h.inv.place.chain.split hblock
  have hhead := h.inv.place.head_le_first hblock hlive
  have hlast := h.since.last_le h.start hblock hold
  have hstart := h.head
  rw [← h.inv.contents.bytes index entry hget hfill hlive]
  refine read_congr fun offset hge hlt => ?_
  -- The byte at this offset in unrolled addresses.
  obtain ⟨i, rfl⟩ := Nat.exists_eq_add_of_le hge
  replace hlt : entry.block.first.offset + i <
    entry.block.first.offset + (entry.block.stop - entry.block.first.offset) := hlt
  have hbyte : entry.block.first.address s.ring.realSize + i <
      entry.block.last.address s.ring.realSize := by
    simp only [Cursor.address, Block.last]
    omega
  have hmod := hplaced.mod_of_mem (Nat.le_add_right _ i) hbyte
  rw [Nat.add_sub_cancel_left] at hmod
  have hwas : origin.ring.Live (entry.block.first.offset + i) := by
    rw [live_iff h.start h.originTail, ← h.since.size]
    exact ⟨_, by omega, by omega, hmod⟩
  have hsame := h.since.memory (entry.block.first.address s.ring.realSize + i) (by omega) (by omega)
  rw [hmod] at hsame
  exact (hcopy _ hwas).trans hsame.symm

/-- A delta record that the copy calls valid is in the copy, unless the copy has wrapped
and the record is of its lap and not before its head. -/
theorem isOffsetValid_sound {p : Pair} (h : Reachable pairStep PairAllowed PairStarted p)
    {prevVersion prevDeltaEpoch : ℕ} (hget : p.owner.entries[index]? = some entry)
    (hstage : entry.stage = .named prevVersion prevDeltaEpoch) (hlive : p.owner.reclaimed ≤ index)
    (hvalid : p.shadow.isOffsetValid entry.slot.offset prevDeltaEpoch = true)
    (hquery : prevDeltaEpoch < p.shadow.epoch ∨ p.shadow.head ≤ p.shadow.tail ∨
      entry.slot.offset < p.shadow.tail) :
    read p.shadow.localAddr entry.slot.offset entry.block.range.length = entry.bytes := by
  obtain ⟨hnamed, origin, b, c, hlater, hshadow⟩ := held_of_reachable h
  have hlap : prevDeltaEpoch = entry.block.first.lap := by
    rw [(hnamed.pointers index entry _ _ hget hstage).2, wrapsAt_eq_lap hlater.inv hget]
  have hsize : p.shadow = .ofImage origin.ring.realSize p.copy := by
    rw [Pair.shadow, hlater.since.size]
  refine copy_of_old hlater hshadow.bytes hget (by rw [hstage]; exact fun hcase => by cases hcase)
    hlive (Nat.lt_of_not_le fun hnew => ?_)
  have hcases := first_of_new hlater hget hnew
  unfold DeltaSection.isOffsetValid at hvalid
  rw [hsize, hshadow.epoch, hshadow.head, hshadow.tail, hlater.originEpoch, hlater.originTail,
    hlap] at hvalid
  rw [hsize, hshadow.epoch, hshadow.head, hshadow.tail, hlater.originEpoch, hlater.originTail,
    hlap] at hquery
  have hoff : entry.slot.offset = entry.block.first.offset := rfl
  split at hvalid
  · cases hvalid
  · split at hvalid
    · have hlt := of_decide_eq_true hvalid
      omega
    · omega

def newPair : Pair := ⟨.init 300, write (fun _ => 0) 0 (DeltaSection.init 300).header⟩

theorem newPair_started : PairStarted newPair :=
  ⟨⟨300, by decide, by decide, rfl⟩, fun _ => 0, rfl⟩

def commitRecord (index : ℕ) (bytes : List UInt8) : List Event :=
  appendRecord index bytes ++ [.name index]

def wrappedPull : List PairEvent :=
  (commitRecord 0 (replicate 150 1) ++ .advance :: commitRecord 1 (replicate 90 2) ++
    commitRecord 2 (replicate 120 3)).map .owner ++ [.pull]

theorem isOffsetValid_sound_wrapped :
    ∃ p, Reachable pairStep PairAllowed PairStarted p ∧ p.shadow.tail < p.shadow.head ∧
      ∃ entry, p.owner.entries[2]? = some entry ∧
        read p.shadow.localAddr entry.slot.offset entry.block.range.length = entry.bytes := by
  obtain ⟨p, hreach, hwrapped, hany⟩ : ∃ p, Reachable pairStep PairAllowed PairStarted p ∧
      p.shadow.tail < p.shadow.head ∧ p.owner.entries[2]?.any (fun entry =>
        entry.stage = .named 49 1 ∧ p.owner.reclaimed ≤ 2 ∧
          p.shadow.isOffsetValid entry.slot.offset 1 = true ∧ entry.slot.offset < p.shadow.tail) :=
    Reachable.exists_of_schedule wrappedPull newPair_started (by decide +kernel)
  obtain ⟨entry, hget, hseen⟩ := (Option.any_eq_true _ _).mp hany
  obtain ⟨hstage, hlive, hvalid, hquery⟩ := of_decide_eq_true hseen
  exact ⟨p, hreach, hwrapped, entry, hget,
    isOffsetValid_sound hreach hget hstage hlive hvalid (.inr (.inr hquery))⟩

def lappedCopy : List PairEvent :=
  wrappedPull ++ (.advance :: .advance :: commitRecord 3 (replicate 90 4) ++
    commitRecord 4 (replicate 60 7)).map .owner

/-- The copy has other bytes where it calls a record valid. -/
theorem lappedCopy_stale :
    ∃ p, Reachable pairStep PairAllowed PairStarted p ∧ ∃ entry,
      p.owner.entries[4]? = some entry ∧ entry.stage = .named 259 1 ∧ p.owner.reclaimed ≤ 4 ∧
        p.shadow.isOffsetValid entry.slot.offset 1 = true ∧
        read p.shadow.localAddr entry.slot.offset entry.block.range.length ≠ entry.bytes := by
  obtain ⟨p, hreach, hany⟩ : ∃ p, Reachable pairStep PairAllowed PairStarted p ∧
      p.owner.entries[4]?.any (fun entry => entry.stage = .named 259 1 ∧ p.owner.reclaimed ≤ 4 ∧
        p.shadow.isOffsetValid entry.slot.offset 1 = true ∧
        read p.shadow.localAddr entry.slot.offset entry.block.range.length ≠ entry.bytes) :=
    Reachable.exists_of_schedule lappedCopy newPair_started (by decide +kernel)
  obtain ⟨entry, hget, hseen⟩ := (Option.any_eq_true _ _).mp hany
  exact ⟨p, hreach, entry, hget, of_decide_eq_true hseen⟩

/-! ### Dangerous offsets -/

namespace DeltaSection

def headerArrived (ring : DeltaSection) (copy : Memory) (oldHead oldTail oldEpoch : ℕ) :
    DeltaSection :=
  ofImage ring.realSize (write copy 0
    (ring.dangerous (ring.calculateWriteBoundaries oldHead oldTail oldEpoch).2).header)

end DeltaSection

theorem calculatedDangerSize_eq (h : Later origin s b c) (hquiet : s.Quiescent)
    (hsize : s.ring.realSize < 2 ^ 63) :
    s.ring.calculatedDangerSize origin.ring.tail origin.ring.epoch =
      if origin.cursor.lap < s.cursor.lap then
        s.cursor.offset + s.ring.realSize - origin.cursor.offset
      else s.cursor.offset - origin.cursor.offset := by
  obtain ⟨htail, hepoch⟩ := quiescent_cursor h.inv h.epochs hquiet
  have hold := h.start.place.cursor_offset_le
  rw [← h.since.size] at hold
  have hroom := h.inv.place.cursor_offset_le
  unfold DeltaSection.calculatedDangerSize
  rw [htail, hepoch, h.originTail, h.originEpoch]
  split
  · omega
  · have hle := h.since.cursor_le
    have hlap := h.since.lap_le
    have hsame : s.cursor.lap = origin.cursor.lap := by omega
    rw [Cursor.address, Cursor.address, hsame] at hle
    omega

structure Ahead (origin s : State) (c : Cursor) (entry : Entry) : Prop where
  new : origin.cursor.lap < entry.block.first.lap ∨
    origin.cursor.lap = entry.block.first.lap ∧ origin.cursor.offset ≤ entry.block.first.offset
  head : c.lap < entry.block.first.lap ∨
    c.lap = entry.block.first.lap ∧ c.offset ≤ entry.block.first.offset
  tail : entry.block.first.lap < s.cursor.lap ∨
    entry.block.first.lap = s.cursor.lap ∧ entry.block.first.offset < s.cursor.offset
  laps : s.cursor.lap = c.lap ∧ c.offset < s.cursor.offset ∨
    s.cursor.lap = c.lap + 1 ∧ s.cursor.offset ≤ c.offset
  inside : entry.block.first.offset < s.ring.realSize
  pos : 0 < s.cursor.offset

theorem ahead_of_new (h : Later origin s b c) (hget : s.entries[index]? = some entry)
    (hlive : s.reclaimed ≤ index) (hnew : origin.entries.length ≤ index) :
    Ahead origin s c entry := by
  have hblock := blocks_getElem? hget
  obtain ⟨-, hplaced, -⟩ := h.inv.place.chain.split hblock
  have hinside := Nat.lt_of_lt_of_le hplaced.proper hplaced.inside
  have hhead := h.inv.place.head_le_first hblock hlive
  have hpre := Nat.lt_of_lt_of_le hplaced.first_lt_last (h.inv.place.chain.last_le hblock)
  have hpos := cursor_offset_pos h.inv.place (Nat.lt_of_le_of_lt hhead hpre)
  have hroom := h.inv.place.cursor_offset_le
  have htail := @lap_lt_or_offset_le s.ring.realSize entry.block.first
    ⟨s.cursor.lap, s.cursor.offset - 1⟩ (by simp only; omega) (by
      unfold Cursor.address at hpre ⊢
      simp only
      omega)
  exact ⟨first_of_new h hget hnew, lap_lt_or_offset_le hinside hhead, by simp only at htail; omega,
    lap_cases h.inv.place (Nat.lt_of_le_of_lt hhead hpre), hinside, hpos⟩

theorem Ahead.dangerous (h : Ahead origin s c entry) {shadow : DeltaSection} {epoch : ℕ}
    (hdanger : shadow.dangerSize = if origin.cursor.lap < s.cursor.lap then s.cursor.offset +
      s.ring.realSize - origin.cursor.offset else s.cursor.offset - origin.cursor.offset)
    (hhead : shadow.head = c.offset) (htail : shadow.tail = s.cursor.offset)
    (hcap : shadow.realSize = s.ring.realSize) (hold : origin.cursor.offset ≤ s.ring.realSize)
    (hroom : c.offset ≤ s.ring.realSize) (hsize : s.ring.realSize < 2 ^ 63)
    (hlaps : s.cursor.lap ≤ origin.cursor.lap + 1 ∨ c.offset ≤ s.cursor.offset ∨
      origin.cursor.offset ≤ c.offset)
    (hvalid : shadow.isOffsetValid entry.block.first.offset epoch = true) :
    shadow.isOffsetDangerous entry.block.first.offset epoch = true := by
  obtain ⟨hnew, hafter, hpre, hwrap, hinside, hpos⟩ := h
  unfold DeltaSection.isOffsetValid at hvalid
  unfold DeltaSection.isOffsetDangerous
  rw [hhead, htail, hcap] at hvalid
  rw [hhead, htail, hcap]
  have hcases : origin.cursor.lap < s.cursor.lap ∧
        shadow.dangerSize + origin.cursor.offset = s.cursor.offset + s.ring.realSize ∨
      origin.cursor.lap = s.cursor.lap ∧
        shadow.dangerSize + origin.cursor.offset = s.cursor.offset := by
    split at hdanger <;> omega
  have hpositive : shadow.dangerSize ≠ 0 := by omega
  rw [if_neg hpositive]
  by_cases hwrapped : c.offset ≤ s.cursor.offset
  · have hlt : entry.block.first.offset < s.cursor.offset := by
      split at hvalid
      · cases hvalid
      · exact of_decide_eq_true hvalid
    rw [if_pos hwrapped]
    simp only [Bool.and_eq_true, decide_eq_true_eq]
    split <;> omega
  · rw [if_neg hwrapped]
    by_cases hlower : shadow.dangerSize ≤ s.cursor.offset
    · rw [if_pos hlower]
      simp only [Bool.and_eq_true, decide_eq_true_eq]
      omega
    · rw [if_neg hlower]
      -- Above the tail, the region begins at the old tail.
      have hupper : (s.ring.realSize + 2 ^ 64 - (shadow.dangerSize - s.cursor.offset)) % 2 ^ 64 =
          origin.cursor.offset := by omega
      split
      · rfl
      · simp only [Bool.and_eq_true, decide_eq_true_eq]
        omega

/-- After the header of a pull, a record that is valid but not in the copy yet is called
dangerous, if the copy is one lap behind at most, or the ring is not wrapped, or the old tail
is not ahead of the head. -/
theorem isOffsetDangerous_covers (hstart : Reachable step InOrder Started origin)
    (hquiet : origin.Quiescent) (hrun : Reachable step InOrder (· = origin) s)
    (hlater : s.Quiescent) (hepoch : s.ring.epoch < 2 ^ 64) (hsize : s.ring.realSize < 2 ^ 63)
    (hlaps : s.ring.epoch ≤ origin.ring.epoch + 1 ∨ s.ring.head ≤ s.ring.tail ∨
      origin.ring.tail ≤ s.ring.head) {copy : Memory}
    (hcopy : ∀ offset, origin.ring.Live offset →
      copy (headerSize + offset) = origin.ring.localAddr offset)
    {shadow : DeltaSection} (hshadow : shadow =
      s.ring.headerArrived copy origin.ring.head origin.ring.tail origin.ring.epoch)
    (hget : s.entries[index]? = some entry) (hlive : s.reclaimed ≤ index) {epoch : ℕ}
    (hvalid : shadow.isOffsetValid entry.slot.offset epoch = true)
    (hstale : read shadow.localAddr entry.slot.offset entry.block.range.length ≠ entry.bytes) :
    shadow.isOffsetDangerous entry.slot.offset epoch = true := by
  obtain ⟨b, c, h⟩ := later_of_run hstart hquiet hrun
  obtain ⟨htail, hepochEq⟩ := quiescent_cursor h.inv h.epochs hlater
  have hold := h.start.place.cursor_offset_le
  rw [← h.since.size] at hold
  have hroom := h.inv.place.cursor_offset_le
  have hheadRoom := h.inv.place.head_offset_le
  have hnew : origin.entries.length ≤ index := by
    by_contra hpre
    have hfill : entry.stage ≠ .allocated := fun hstage => hpre (h.since.filled _ _ hget hstage)
    refine hstale ?_
    rw [hshadow]
    show read (view (write copy 0 _) headerSize) _ _ = _
    refine copy_of_old h (fun offset hwas => ?_) hget hfill hlive (Nat.lt_of_not_le hpre)
    rw [write_of_ge _ _ (by rw [DeltaSection.header_length]; omega)]
    exact hcopy offset hwas
  rw [h.inv.place.head, htail, hepochEq, h.originTail, h.originEpoch] at hlaps
  -- The fields of the header that has arrived.
  have hagree := DeltaSection.agreeOn_header (s.ring.dangerous
    (s.ring.calculatedDangerSize origin.ring.tail origin.ring.epoch)) copy
  have hdanger := @DeltaSection.field_eq _ _ 0 _ (hagree.mono (Nat.zero_le _) (by decide))
    (by decide) (show s.ring.calculatedDangerSize origin.ring.tail origin.ring.epoch < 2 ^ 64 by
      rw [calculatedDangerSize_eq h hlater hsize]
      split <;> omega) rfl
  obtain ⟨-, hhead, htailField⟩ := DeltaSection.ofImage_fields _
    (hagree.mono (Nat.zero_le _) (by decide)) hepoch
    (show s.ring.head < 2 ^ 64 by rw [h.inv.place.head]; omega)
    (show s.ring.tail < 2 ^ 64 by rw [htail]; omega)
  rw [DeltaSection.headerArrived, DeltaSection.calculateWriteBoundaries] at hshadow
  refine (ahead_of_new h hget hlive hnew).dangerous ?_ ?_ ?_ ?_ hold hheadRoom hsize hlaps hvalid
  · rw [hshadow]
    exact hdanger.trans (calculatedDangerSize_eq h hlater hsize)
  · rw [hshadow]
    exact hhead.trans h.inv.place.head
  · rw [hshadow]
    exact htailField.trans htail
  · rw [hshadow, DeltaSection.ofImage_realSize]

theorem isOffsetDangerous_covers_wrapped :
    ∃ origin s : State, origin.ring.epoch = 0 ∧ s.ring.epoch = 1 ∧
      ∃ entry, s.entries[2]? = some entry ∧ (s.ring.headerArrived origin.ring.image
        origin.ring.head origin.ring.tail origin.ring.epoch).isOffsetDangerous
          entry.slot.offset 1 = true := by
  obtain ⟨origin, s, hstart, hrun, hquiet, hlater, hzero, hone, hsize, hlive, hany⟩ :
      ∃ origin s : State, Reachable step InOrder Started origin ∧
      Reachable step InOrder (· = origin) s ∧ origin.Quiescent ∧ s.Quiescent ∧
      origin.ring.epoch = 0 ∧ s.ring.epoch = 1 ∧ s.ring.realSize < 2 ^ 63 ∧ s.reclaimed ≤ 2 ∧
      s.entries[2]?.any fun entry =>
        let shadow := s.ring.headerArrived origin.ring.image origin.ring.head origin.ring.tail
          origin.ring.epoch
        shadow.isOffsetValid entry.slot.offset 1 = true ∧
          read shadow.localAddr entry.slot.offset entry.block.range.length ≠ entry.bytes :=
    Reachable.exists_of_schedules (appendRecord 0 (replicate 180 1)) afterFirst
      ⟨300, by decide, by decide, rfl⟩ (by decide +kernel)
  obtain ⟨entry, hget, hseen⟩ := (Option.any_eq_true _ _).mp hany
  obtain ⟨hvalid, hstale⟩ := of_decide_eq_true hseen
  exact ⟨origin, s, hzero, hone, entry, hget, isOffsetDangerous_covers hstart hquiet hrun hlater
    (by rw [hone]; decide) hsize (.inl (by omega))
    (fun offset hwas => origin.ring.image_data hwas.2.1) rfl hget hlive hvalid hstale⟩

def twoWraps : List Event :=
  .advance :: appendRecord 1 (replicate 150 2) ++ .advance ::
    appendRecord 2 (replicate 120 7) ++ appendRecord 3 (replicate 90 4)

/-- The danger size is measured to the old tail, but the bytes from the head on are old too. -/
theorem twoWraps_not_dangerous :
    ∃ origin s : State, Reachable step InOrder Started origin ∧ origin.Quiescent ∧
      Reachable step InOrder (· = origin) s ∧ s.Quiescent ∧ s.reclaimed ≤ 2 ∧
      ∃ entry shadow, s.entries[2]? = some entry ∧ shadow = s.ring.headerArrived origin.ring.image
        origin.ring.head origin.ring.tail origin.ring.epoch ∧
        shadow.isOffsetValid entry.slot.offset 1 = true ∧
        read shadow.localAddr entry.slot.offset entry.block.range.length ≠ entry.bytes ∧
        shadow.isOffsetDangerous entry.slot.offset 1 = false := by
  obtain ⟨origin, s, hstart, hrun, hquiet, hlater, hlive, hany⟩ :
      ∃ origin s : State, Reachable step InOrder Started origin ∧
      Reachable step InOrder (· = origin) s ∧ origin.Quiescent ∧ s.Quiescent ∧ s.reclaimed ≤ 2 ∧
      s.entries[2]?.any fun entry =>
        let shadow := s.ring.headerArrived origin.ring.image origin.ring.head origin.ring.tail
          origin.ring.epoch
        shadow.isOffsetValid entry.slot.offset 1 = true ∧
          read shadow.localAddr entry.slot.offset entry.block.range.length ≠ entry.bytes ∧
          shadow.isOffsetDangerous entry.slot.offset 1 = false :=
    Reachable.exists_of_schedules (appendRecord 0 (replicate 240 1)) twoWraps
      ⟨300, by decide, by decide, rfl⟩ (by decide +kernel)
  obtain ⟨entry, hget, hseen⟩ := (Option.any_eq_true _ _).mp hany
  exact ⟨origin, s, hstart, hquiet, hrun, hlater, hlive, entry, _, hget, rfl,
    of_decide_eq_true hseen⟩

end MemoryEngine.DeltaRing
