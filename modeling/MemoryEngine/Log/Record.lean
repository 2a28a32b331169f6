import MemoryEngine.Library.ByteMemory

/-! Redo records and the framing of a log segment (`RedoLogger::RecordHeader`).

A segment holds whole records one after another and may end with the close
marker.  The header is the packed `NDEBUG` layout: magic, page address, page
version and payload length, all little-endian. -/
namespace MemoryEngine.RedoLog

open ByteMemory List

def recordMagic : Nat := 0x4C52
def recordHeaderSize : Nat := 22

/-- The character `$` that closes a segment with free space left. -/
def segmentCloseMarker : UInt8 := 0x24

def kLeafPageSize : Nat := 16384 + 8

@[ext] structure Record where
  pageGaddr : Nat
  pageVersion : Nat
  payload : List UInt8
  gaddr_lt : pageGaddr < 2 ^ 64
  version_lt : pageVersion < 2 ^ 64
  payload_lt : payload.length < 2 ^ 32
  deriving DecidableEq

/-- The record of `Append(page_gaddr, page_version, buffer)`; the arguments are a
64-bit address, a 64-bit version and a 32-bit length. -/
def Record.ofAppend (pageGaddr pageVersion : Nat) (buffer : List UInt8) : Record where
  pageGaddr := pageGaddr % 2 ^ 64
  pageVersion := pageVersion % 2 ^ 64
  payload := buffer.take (buffer.length % 2 ^ 32)
  gaddr_lt := Nat.mod_lt _ (by decide)
  version_lt := Nat.mod_lt _ (by decide)
  payload_lt := by
    rw [List.length_take]
    exact Nat.lt_of_le_of_lt (Nat.min_le_left _ _) (Nat.mod_lt _ (by decide))

variable (record : Record)

namespace Record

def header : List UInt8 :=
  natLE 2 recordMagic ++ natLE 8 record.pageGaddr ++ natLE 8 record.pageVersion ++
    natLE 4 record.payload.length

def bytes : List UInt8 := record.header ++ record.payload

@[simp] theorem header_length : record.header.length = recordHeaderSize := by
  simp [header, recordHeaderSize]

theorem bytes_length :
    record.bytes.length = recordHeaderSize + record.payload.length := by
  simp [bytes]

end Record

inductive Item where
  | record (record : Record)
  | marker
  deriving DecidableEq

def Item.bytes : Item → List UInt8
  | .record r => r.bytes
  | .marker => [segmentCloseMarker]

def Item.record? : Item → Option Record
  | .record r => some r
  | .marker => none

variable (items : List Item)

def bytesOf : List UInt8 := items.flatMap Item.bytes

def recordsOf : List Record := items.filterMap Item.record?

def byteSize : Nat := (bytesOf items).length

theorem Item.bytes_length_pos (item : Item) : 0 < item.bytes.length := by
  cases item with
  | record r =>
    rw [bytes, Record.bytes_length, recordHeaderSize]
    omega
  | marker => simp [bytes]

@[simp] theorem bytesOf_nil : bytesOf [] = [] := rfl

@[simp] theorem bytesOf_cons (item : Item) (items : List Item) :
    bytesOf (item :: items) = item.bytes ++ bytesOf items := rfl

variable (first second : List Item)

@[simp] theorem bytesOf_append :
    bytesOf (first ++ second) = bytesOf first ++ bytesOf second :=
  flatMap_append

@[simp] theorem byteSize_nil : byteSize [] = 0 := rfl

@[simp] theorem byteSize_cons (item : Item) (items : List Item) :
    byteSize (item :: items) = item.bytes.length + byteSize items := by
  simp [byteSize]

@[simp] theorem byteSize_append :
    byteSize (first ++ second) = byteSize first + byteSize second := by
  simp [byteSize]

theorem byteSize_pos {items : List Item} (h : items ≠ []) : 0 < byteSize items := by
  cases items with
  | nil => exact absurd rfl h
  | cons item items =>
    have := item.bytes_length_pos
    rw [byteSize_cons]
    omega

theorem byteSize_eq_zero {items : List Item} : byteSize items = 0 ↔ items = [] := by
  constructor
  · intro h
    by_contra hne
    exact absurd h (Nat.pos_iff_ne_zero.mp (byteSize_pos hne))
  · rintro rfl
    rfl

@[simp] theorem recordsOf_nil : recordsOf [] = [] := rfl

@[simp] theorem recordsOf_append :
    recordsOf (first ++ second) = recordsOf first ++ recordsOf second :=
  filterMap_append

@[simp] theorem recordsOf_record :
    recordsOf (.record record :: items) = record :: recordsOf items := rfl

structure RecordHeader where
  magic : Nat
  pageGaddr : Nat
  pageVersion : Nat
  payloadLen : Nat
  deriving DecidableEq, Repr

variable (memory : Memory)

def readHeader (address : Nat) : RecordHeader where
  magic := ofLE (read memory address 2)
  pageGaddr := ofLE (read memory (address + 2) 8)
  pageVersion := ofLE (read memory (address + 10) 8)
  payloadLen := ofLE (read memory (address + 18) 4)

private theorem ofLE_read_lt (address width : Nat) :
    ofLE (read memory address width) < 256 ^ width := by
  simpa using ofLE_lt (read memory address width)

/-- The record whose header starts at `address`, payload included. -/
def readRecord (address : Nat) : Record where
  pageGaddr := (readHeader memory address).pageGaddr
  pageVersion := (readHeader memory address).pageVersion
  payload := read memory (address + recordHeaderSize) (readHeader memory address).payloadLen
  gaddr_lt := ofLE_read_lt memory (address + 2) 8
  version_lt := ofLE_read_lt memory (address + 10) 8
  payload_lt := by
    rw [read_length]
    exact ofLE_read_lt memory (address + 18) 4

section ReadBack

variable {memory : Memory} {address : Nat}

private theorem read_left (first second : List UInt8)
    (h : read memory address (first ++ second).length = first ++ second) :
    read memory address first.length = first := by
  rw [length_append, read_add] at h
  exact (append_inj h (by simp)).1

private theorem read_right (first second : List UInt8)
    (h : read memory address (first ++ second).length = first ++ second) :
    read memory (address + first.length) second.length = second := by
  rw [length_append, read_add] at h
  exact (append_inj h (by simp)).2

section

variable {item : Item} {items : List Item} (h : read memory address (byteSize (item :: items)) =
  bytesOf (item :: items))
include h

theorem read_item : read memory address item.bytes.length = item.bytes :=
  read_left _ _ h

theorem read_items_tail :
    read memory (address + item.bytes.length) (byteSize items) = bytesOf items :=
  read_right _ _ h

end

section

variable {first second : List Item} (h : read memory address (byteSize (first ++ second)) = bytesOf
  (first ++ second))
include h

theorem read_items_left : read memory address (byteSize first) = bytesOf first := by
  rw [byteSize, bytesOf_append] at h
  exact read_left _ _ h

theorem read_items_right :
    read memory (address + byteSize first) (byteSize second) = bytesOf second := by
  rw [byteSize, bytesOf_append] at h
  exact read_right _ _ h

end

section

variable {record : Record} (h : read memory address record.bytes.length = record.bytes)
include h

theorem readHeader_of_bytes :
    readHeader memory address =
      ⟨recordMagic, record.pageGaddr, record.pageVersion, record.payload.length⟩ := by
  have hhdr : read memory address record.header.length = record.header :=
    read_left record.header record.payload h
  have hlen := read_right _ _ hhdr
  have hfirst := read_left _ _ hhdr
  have hver := read_right _ _ hfirst
  have hsnd := read_left _ _ hfirst
  have hgaddr := read_right _ _ hsnd
  have hmagic := read_left _ _ hsnd
  simp only [natLE_length, length_append, Nat.reduceAdd] at hlen hver hgaddr hmagic
  simp only [readHeader, hlen, hver, hgaddr, hmagic]
  rw [ofLE_natLE_of_lt (by decide : recordMagic < 256 ^ 2),
    ofLE_natLE_of_lt record.gaddr_lt, ofLE_natLE_of_lt record.version_lt,
    ofLE_natLE_of_lt record.payload_lt]

theorem readRecord_of_bytes : readRecord memory address = record := by
  have hpayload := read_right record.header record.payload h
  rw [Record.header_length] at hpayload
  ext1
  · simp [readRecord, readHeader_of_bytes h]
  · simp [readRecord, readHeader_of_bytes h]
  · simp [readRecord, readHeader_of_bytes h, hpayload]

theorem firstByte_of_record : memory address = 0x52 := by
  have hfirst := congrArg head? h
  rw [Record.bytes_length, recordHeaderSize, Nat.add_comm, read_succ] at hfirst
  simpa [Record.bytes, Record.header, natLE, recordMagic] using hfirst

end

theorem firstByte_of_marker (h : read memory address Item.marker.bytes.length = Item.marker.bytes) :
    memory address = segmentCloseMarker := by
  simpa [Item.bytes, ByteMemory.read] using h

end ReadBack

end MemoryEngine.RedoLog
