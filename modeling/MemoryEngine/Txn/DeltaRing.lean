import MemoryEngine.Txn.DeltaRecord
import MemoryEngine.Library.LapRing
import MemoryEngine.Library.TransitionSystem

/-! The ring of delta records of a node (`txn/DeltaSection.h`).

Committing threads allocate space at `tail_allocated` under the mutex, fill it, count a
wrap in `epoch_`, publish it by a compare-and-swap on `tail_` and read the epoch for the
pointer that is stored in the record.  The collector moves `head_` over old records. -/
namespace MemoryEngine.DeltaRing

open ByteMemory Storage LapRing

/-! ### The section -/

/-- `DeltaSection` and `seg_real_size_` of its wrapper. -/
structure DeltaSection where
  realSize : ℕ
  dangerSize : ℕ
  epoch : ℕ
  head : ℕ
  tail : ℕ
  tailAllocated : ℕ
  maxTs : ℕ
  isEmpty : Bool
  localAddr : Memory

/-- `STRUCT_OFFSET(DeltaSection, local_addr_)` of the packed class. -/
def headerSize : ℕ := 49

/-- The character `^`. -/
def wrapMarker : UInt8 := 94

/-- The offsets that `AllocateDelta` hands out. -/
structure Slot where
  prevOffset : ℕ
  offset : ℕ
  nextOffset : ℕ
  deriving DecidableEq, Repr

def Slot.range (slot : Slot) : ByteRange := ⟨slot.offset, slot.nextOffset - slot.offset⟩

variable (size : ℕ)

namespace DeltaSection

/-- The constructor.  Buffers are zeroed when they are registered. -/
def init (realSize : ℕ) : DeltaSection where
  realSize := realSize
  dangerSize := 0
  epoch := 0
  head := 0
  tail := 0
  tailAllocated := 0
  maxTs := 0
  isEmpty := true
  localAddr := fun _ => 0

variable (ring : DeltaSection)

def freeSpace : ℕ := (ring.head + ring.realSize - ring.tailAllocated) % ring.realSize

def wraps : Bool := ring.realSize - ring.tailAllocated < size

def markFragment : Memory :=
  if ring.tailAllocated < ring.realSize then write ring.localAddr ring.tailAllocated [wrapMarker]
  else ring.localAddr

def slotFor : Slot :=
  let offset := if ring.wraps size then 0 else ring.tailAllocated
  ⟨ring.tailAllocated, offset, offset + size⟩

def reserve : DeltaSection :=
  { ring with
    localAddr := if ring.wraps size then ring.markFragment else ring.localAddr
    tailAllocated := (ring.slotFor size).nextOffset
    isEmpty := false }

/-- `none` where the thread waits for a collection. -/
def allocateDelta : Option (Slot × DeltaSection) :=
  if ring.isEmpty = false ∧ ring.freeSpace ≤ size then none
  else some (ring.slotFor size, ring.reserve size)

/-- The delta record is built in its slot.  Its first field behind the marker is the
write timestamp of the old record. -/
def fillIn (offset : ℕ) (bytes : List UInt8) : DeltaSection :=
  { ring with
    maxTs := max ring.maxTs (ofLE ((bytes.drop 1).take 8))
    localAddr := write ring.localAddr offset bytes }

/-- `epoch_.fetch_add(1)` where the tail went back. -/
def countWrap (slot : Slot) : DeltaSection :=
  if slot.nextOffset < slot.prevOffset then { ring with epoch := ring.epoch + 1 } else ring

/-! ### The collection -/

def skipFragment : DeltaSection :=
  if ring.localAddr ring.head = wrapMarker ∨ ring.head = ring.realSize then { ring with head := 0 }
  else ring

/-- `head_ += record_size`, where `record_size` is an `int`. -/
def advanceBy (head size : ℕ) : ℕ := (((head : ℤ) + Int.bmod size (2 ^ 32)) % 2 ^ 64).toNat

def moveHead (head : ℕ) : DeltaSection :=
  { ring with head := head, isEmpty := ring.isEmpty || head == ring.tailAllocated }

/-- The loop of `GarbageCollectionBySnapshot`: the section and the number of records that
the head moved over, or `none` after as many turns as allowed. -/
def garbageCollectionBySnapshot (snapshot : ℕ) : ℕ → DeltaSection → Option (DeltaSection × ℕ)
  | 0, _ => none
  | turns + 1, ring =>
      if ring.isEmpty then some (ring, 0)
      else
        let ring := ring.skipFragment
        if ring.head = ring.tail then some (ring, 0)
        else if DeltaRecord.nextDeltaWtsAt ring.localAddr ring.head < snapshot then
          (garbageCollectionBySnapshot snapshot turns (ring.moveHead (advanceBy ring.head
            (DeltaRecord.currentRecordDataSizeAt ring.localAddr ring.head)))).map
              fun result => (result.1, result.2 + 1)
        else some (ring, 0)

end DeltaSection

/-! ### Threads and records -/

/-- How far the thread of a record got.  The last stage has the pointer that
`CommitTransaction` stores, relative to the section. -/
inductive Stage where
  | allocated
  | filled
  | counted
  | published
  | named (prevVersion prevDeltaEpoch : ℕ)
  deriving DecidableEq, Repr

def Stage.isPublished : Stage → Bool
  | .published => true
  | .named .. => true
  | _ => false

/-- An allocated record.  The offsets of its block are those of its slot; the laps count
the allocations that wrapped. -/
structure Entry where
  block : Block
  stage : Stage
  bytes : List UInt8
  deriving DecidableEq, Repr

def Entry.slot (entry : Entry) : Slot :=
  ⟨entry.block.prev.offset, entry.block.first.offset, entry.block.stop⟩

/-- The ring, every record in the order of allocation, the publications with the value
that `tail_` took, and the number of records that the head moved over. -/
structure State where
  ring : DeltaSection
  entries : List Entry
  published : List (ℕ × ℕ)
  reclaimed : ℕ

inductive Event where
  | allocate (size : ℕ)
  | fill (index : ℕ) (bytes : List UInt8)
  | count (index : ℕ)
  | publish (index : ℕ)
  | name (index : ℕ)
  | skip
  | advance
  | collect (snapshot turns : ℕ)
  deriving DecidableEq, Repr

namespace State

def init (realSize : ℕ) : State := ⟨.init realSize, [], [], 0⟩

variable (s : State)

def blocks : List Block := s.entries.map Entry.block

def cursor : Cursor := (s.blocks.getLast?.map Block.last).getD ⟨0, 0⟩

def live : List Entry := s.entries.drop s.reclaimed

def blockFor : Block where
  prev := ⟨s.cursor.lap, s.ring.tailAllocated⟩
  first := ⟨s.cursor.lap + if s.ring.wraps size then 1 else 0, (s.ring.slotFor size).offset⟩
  stop := (s.ring.slotFor size).nextOffset

def addEntry (block : Block) (ring : DeltaSection) : State :=
  { s with ring := ring, entries := s.entries ++ [⟨block, .allocated, []⟩] }

def allocate : Option State :=
  (s.ring.allocateDelta size).map fun result => s.addEntry (s.blockFor size) result.2

variable (index : ℕ)

def setEntry (entry : Entry) (ring : DeltaSection) : State :=
  { s with ring := ring, entries := s.entries.set index entry }

def proceed (expected : Stage) (next : Entry → Option (Entry × DeltaSection)) :
    Option State :=
  s.entries[index]?.bind fun entry =>
    if entry.stage = expected then
      (next entry).map fun result => s.setEntry index result.1 result.2
    else none

def fill (bytes : List UInt8) : Option State :=
  s.proceed index .allocated fun entry =>
    if bytes.length = entry.block.range.length then
      some ({ entry with stage := .filled, bytes := bytes },
        s.ring.fillIn entry.block.first.offset bytes)
    else none

def count : Option State :=
  s.proceed index .filled fun entry =>
    some ({ entry with stage := .counted }, s.ring.countWrap entry.slot)

def logTail : State :=
  { s with published := s.published ++ [(index, s.ring.tail)] }

def publish : Option State :=
  (s.proceed index .counted fun entry =>
    if s.ring.tail = entry.slot.prevOffset then
      some ({ entry with stage := .published }, { s.ring with tail := entry.slot.nextOffset })
    else none).map fun after => after.logTail index

/-- `prev_version_` and `prev_delta_epoch_` are stored. -/
def name : Option State :=
  s.proceed index .published fun entry =>
    some ({ entry with stage := .named (headerSize + entry.slot.offset) s.ring.epoch }, s.ring)

def skip : Option State :=
  s.entries[s.reclaimed]?.bind fun entry =>
    if entry.stage.isPublished then
      some { s with ring := { s.ring with head := entry.slot.offset } }
    else none

def passed (entry : Entry) : State :=
  { s with ring := s.ring.moveHead entry.slot.nextOffset, reclaimed := s.reclaimed + 1 }

def advance : Option State :=
  s.entries[s.reclaimed]?.bind fun entry =>
    if entry.stage.isPublished then some (s.passed entry) else none

def collect (snapshot turns : ℕ) : Option State :=
  (DeltaSection.garbageCollectionBySnapshot snapshot turns s.ring).map fun result =>
    { s with ring := result.1, reclaimed := s.reclaimed + result.2 }

end State

def step (s : State) : Event → Option State
  | .allocate size => s.allocate size
  | .fill index bytes => s.fill index bytes
  | .count index => s.count index
  | .publish index => s.publish index
  | .name index => s.name index
  | .skip => s.skip
  | .advance => s.advance
  | .collect snapshot turns => s.collect snapshot turns

end MemoryEngine.DeltaRing
