import MemoryEngine.Log.LogCodec
import MemoryEngine.Log.Record

/-! The log replayer of a memory node (`memory_node/LogReplayerManager.cpp`).

A node keeps its pages and the log segments it received in one flat memory.
`translate` is `TranslateLogicalToPhysicalAddress` for this node; it returns
zero for an address the node does not host.  Functions follow the `NDEBUG`
build, in which the assertions on the error branches are empty. -/
namespace MemoryEngine.LogReplayer

open ByteMemory RedoLog

/-! ### Pages -/

/-- `hdr.p_version` follows the latch word, the page type and the dirty bounds. -/
def pVersionOffset : Nat := 16

section Pages

variable (translate : Nat → Nat)

def getCurrentPageVersion (memory : Memory) (page : Nat) : Nat :=
  if translate page = 0 then 0
  else ofLE (read memory (translate page + pVersionOffset) 8)

def setCurrentPageVersion (memory : Memory) (page version : Nat) : Memory :=
  if translate page = 0 then memory
  else write memory (translate page + pVersionOffset) (natLE 8 version)

/-- Apply a record's operations; `false` when the page is not hosted here or
the payload is malformed, in which case the operations before the malformed
one have been applied. -/
def processLogRecord (memory : Memory) (record : Record) : Bool × Memory :=
  if translate record.pageGaddr = 0 then (false, memory)
  else
    let (ops, ok) := LogCodec.decode record.payload
    (ok, LogCodec.applyAll ops (translate record.pageGaddr) memory)

end Pages

/-! ### Streams -/

structure LogSegment where
  segmentAddr : Nat
  segmentSize : Nat
  receivedLength : Nat
  physicalPtr : Nat
  mapped : physicalPtr ≠ 0
  deriving DecidableEq

structure LogStreamState where
  computeNodeId : Nat
  logicalRegionId : Nat
  segments : List LogSegment := []
  receivedLogLength : Nat := 0
  replayedLogLength : Nat := 0
  recycledPrefixBytes : Nat := 0
  deriving DecidableEq

variable (translate : Nat → Nat)

/-- The body of `HandleLogSegmentRequest` once the stream is known. -/
def LogStreamState.addSegment (stream : LogStreamState)
    (segmentAddr segmentSize : Nat) : LogStreamState :=
  if h : translate segmentAddr = 0 then stream
  else
    { stream with
      segments := stream.segments ++ [⟨segmentAddr, segmentSize, 0, translate segmentAddr, h⟩] }

def LogSegment.receive (segment : LogSegment) (size : Nat) : LogSegment :=
  { segment with receivedLength := segment.receivedLength + size }

/-- The body of `HandleWriteWithImm` once the stream is known: only the last
segment of the list is extended. -/
def LogStreamState.receive (stream : LogStreamState) (size : Nat) : LogStreamState :=
  { stream with
    receivedLogLength := stream.receivedLogLength + size
    segments := stream.segments.modifyLast fun segment => segment.receive size }

/-! ### `ReplayLogData` -/

inductive ScanExit where
  | exhausted
  | marker
  | truncatedHeader
  | badMagic
  | truncatedRecord
  | stale (record : Record)
  | failed (record : Record)
  | future (record : Record)
  deriving DecidableEq

def ScanExit.Malformed (exit : ScanExit) : Prop :=
  exit = .truncatedHeader ∨ exit = .badMagic ∨ exit = .truncatedRecord

structure Scan where
  memory : Memory
  processed : Nat
  applied : List Record
  exit : ScanExit

/-- The loop over the records of one segment.  Every turn that continues
consumes a header, so `bytesToProcess` turns are enough. -/
def scan (translate : Nat → Nat) (logBuffer bytesToProcess : Nat) :
    Nat → Nat → Memory → Scan
  | 0, processed, memory => ⟨memory, processed, [], .exhausted⟩
  | fuel + 1, processed, memory =>
      if processed < bytesToProcess then
        let address := logBuffer + processed
        if memory address = segmentCloseMarker then
          ⟨memory, processed + 1, [], .marker⟩
        else if processed + recordHeaderSize > bytesToProcess then
          ⟨memory, processed, [], .truncatedHeader⟩
        else if (readHeader memory address).magic ≠ recordMagic then
          ⟨memory, processed, [], .badMagic⟩
        else
          let recordSize := recordHeaderSize + (readHeader memory address).payloadLen
          if processed + recordSize > bytesToProcess then
            ⟨memory, processed, [], .truncatedRecord⟩
          else
            let record := readRecord memory address
            let currentVersion := getCurrentPageVersion translate memory record.pageGaddr
            if record.pageVersion ≤ currentVersion then
              ⟨memory, processed, [], .stale record⟩
            else if record.pageVersion = currentVersion + 1 then
              match processLogRecord translate memory record with
              | (true, memory) =>
                  let memory :=
                    setCurrentPageVersion translate memory record.pageGaddr record.pageVersion
                  let rest := scan translate logBuffer bytesToProcess fuel
                    (processed + recordSize) memory
                  { rest with applied := record :: rest.applied }
              | (false, memory) => ⟨memory, processed, [], .failed record⟩
            else ⟨memory, processed, [], .future record⟩
      else ⟨memory, processed, [], .exhausted⟩

/-- The segment that holds the byte at `offset`, and the bytes before it. -/
def findSegment : List LogSegment → Nat → Nat → Option (LogSegment × Nat)
  | [], _, _ => none
  | segment :: rest, offset, accumulated =>
      if offset < accumulated + segment.receivedLength then some (segment, accumulated)
      else findSegment rest offset (accumulated + segment.receivedLength)

/-- How a pass over one stream ended.  A pass that stops at a damaged record
repeats the same turn for ever; it is `spinning`. -/
inductive PassExit where
  | caughtUp
  | noSegment
  | future
  | aborted
  | spinning
  deriving DecidableEq, Repr

structure Pass where
  memory : Memory
  replayed : Nat
  applied : List Record
  exits : List ScanExit
  exit : PassExit

/-- One turn of the outer loop of `ReplayLogData`: find the segment of the next
byte to replay and scan what is received and available of it.  `none` when no
segment holds that byte. -/
def replayTurn (stream : LogStreamState)
    (available total replayed : Nat) (memory : Memory) : Option Scan :=
  let offset := replayed - stream.recycledPrefixBytes
  match findSegment stream.segments offset 0 with
  | none => none
  | some (segment, accumulated) =>
      let offsetInSegment := offset - accumulated
      let remaining := segment.receivedLength - offsetInSegment
      let bytesToProcess := min (available - total) remaining
      some (scan translate (segment.physicalPtr + offsetInSegment)
        bytesToProcess bytesToProcess 0 memory)

/-- The outer loop of `ReplayLogData`.  `replayed` is the value stored to
`replayed_log_length`, which an aborted turn leaves as it was. -/
def replayLoop (translate : Nat → Nat) (stream : LogStreamState) (available : Nat) :
    Nat → Nat → Nat → Memory → Pass
  | 0, _, replayed, memory => ⟨memory, replayed, [], [], .spinning⟩
  | fuel + 1, total, replayed, memory =>
      if total < available then
        match replayTurn translate stream available total replayed memory with
        | none => ⟨memory, replayed, [], [], .noSegment⟩
        | some turn =>
            match turn.exit with
            | .stale _ | .failed _ =>
                ⟨turn.memory, replayed, turn.applied, [turn.exit], .aborted⟩
            | .future _ =>
                ⟨turn.memory, replayed + turn.processed, turn.applied, [turn.exit], .future⟩
            | _ =>
                let rest := replayLoop translate stream available fuel
                  (total + turn.processed) (replayed + turn.processed) turn.memory
                { rest with
                  applied := turn.applied ++ rest.applied
                  exits := turn.exit :: rest.exits }
      else ⟨memory, replayed, [], [], .caughtUp⟩

/-! ### `RecycleSegments` -/

def canRecycle (memory : Memory) (segment : LogSegment) (recyclable : Nat) : Bool :=
  if segment.receivedLength = 0 ∨ recyclable < segment.receivedLength then false
  else if recyclable > segment.receivedLength then true
  else if segment.receivedLength ≥ segment.segmentSize then true
  else memory (segment.physicalPtr + segment.receivedLength - 1) = segmentCloseMarker

/-- The segments that are dropped from the front; the last one never is. -/
def recyclePrefix (memory : Memory) : List LogSegment → Nat → List LogSegment
  | segment :: next :: rest, recyclable =>
      if canRecycle memory segment recyclable then
        segment :: recyclePrefix memory (next :: rest) (recyclable - segment.receivedLength)
      else []
  | _, _ => []

def totalReceived (segments : List LogSegment) : Nat :=
  (segments.map LogSegment.receivedLength).sum

def recycleSegments (memory : Memory) (stream : LogStreamState) :
    LogStreamState × List LogSegment :=
  if stream.replayedLogLength ≤ stream.recycledPrefixBytes then (stream, [])
  else
    let recycled := recyclePrefix memory stream.segments
      (stream.replayedLogLength - stream.recycledPrefixBytes)
    ({ stream with
       segments := stream.segments.drop recycled.length
       recycledPrefixBytes := stream.recycledPrefixBytes + totalReceived recycled },
     recycled)

/-- A whole call of `ReplayLogData`. -/
structure ReplayResult where
  stream : LogStreamState
  memory : Memory
  applied : List Record
  exits : List ScanExit
  exit : PassExit
  recycled : List LogSegment

def replayLogData (stream : LogStreamState) (memory : Memory)
    (available : Nat) : ReplayResult :=
  let pass := replayLoop translate stream available (available + 1) 0
    stream.replayedLogLength memory
  let stream := { stream with replayedLogLength := pass.replayed }
  let (stream, recycled) :=
    if pass.exit ≠ .aborted ∧ pass.applied.length > 0 then recycleSegments pass.memory stream
    else (stream, [])
  ⟨stream, pass.memory, pass.applied, pass.exits, pass.exit, recycled⟩

/-! ### The manager -/

def maxComputeNodes : Nat := 32
def maxLogicalRegions : Nat := 32
def maxStreams : Nat := maxComputeNodes * maxLogicalRegions

def makeStreamIndex (computeId regionId : Nat) : Nat :=
  computeId * maxLogicalRegions + regionId

/-- One `log_segment_recycle` message, with at most sixteen addresses. -/
structure RecycleMessage where
  computeNodeId : Nat
  logicalRegionId : Nat
  segmentAddrs : List Nat
  deriving DecidableEq, Repr

def maxSegmentsPerRpc : Nat := 16

def sendSegmentRecycleRPC (stream : LogStreamState) (recycled : List LogSegment) :
    List RecycleMessage :=
  ((recycled.map LogSegment.segmentAddr).toChunks maxSegmentsPerRpc).map fun addrs =>
    ⟨stream.computeNodeId, stream.logicalRegionId, addrs⟩

/-- The node's memory and its initialized streams, by stream index. -/
structure Manager where
  memory : Memory
  streams : Nat → Option LogStreamState

variable (manager : Manager)

namespace Manager

def setStream (index : Nat) (stream : LogStreamState) : Manager :=
  { manager with streams := Function.update manager.streams index (some stream) }

def stream (computeId regionId : Nat) : LogStreamState :=
  (manager.streams (makeStreamIndex computeId regionId)).getD ⟨computeId, regionId, [], 0, 0, 0⟩

def handleLogSegmentRequest
    (computeId regionId segmentAddr segmentSize : Nat) : Manager :=
  let index := makeStreamIndex computeId regionId
  if index ≥ maxStreams then manager
  else
    manager.setStream index
      ((manager.stream computeId regionId).addSegment translate segmentAddr segmentSize)

def handleWriteWithImm (computeId regionId transferredSize : Nat) :
    Manager :=
  let index := makeStreamIndex computeId regionId
  if index ≥ maxStreams then manager
  else
    match manager.streams index with
    | none => manager
    | some stream => manager.setStream index (stream.receive transferredSize)

/-- Run `ReplayLogData` on one stream, with the byte count it observed. -/
def replayStream
    (computeId regionId available : Nat) :
    Manager × List Record × List ScanExit × List RecycleMessage :=
  let index := makeStreamIndex computeId regionId
  match manager.streams index with
  | none => (manager, [], [], [])
  | some stream =>
      let result := replayLogData translate stream manager.memory available
      ({ manager with memory := result.memory }.setStream index result.stream,
        result.applied, result.exits, sendSegmentRecycleRPC result.stream result.recycled)

end Manager

/-! ### What arrives from a compute node

A compute node uses one queue pair for its segment requests and its log writes,
and one thread handles its completions in order.  The bytes of an RDMA write
with immediate data are in memory before its completion is handled, and the
replayer reads nothing past the lengths that the handler has added. -/

def encodeImm (regionId toFlush : Nat) : Nat := ((toFlush <<< 8) ||| regionId) % 2 ^ 32
def immRegion (imm : Nat) : Nat := imm &&& 0xFF
def immSize (imm : Nat) : Nat := (imm >>> 8) &&& 0xFFFFFF

inductive Wire where
  | segmentRequest (regionId segmentAddr segmentSize : Nat)
  | writeImm (segmentAddr offset : Nat) (bytes : List UInt8) (imm : Nat)
  deriving DecidableEq, Repr

def Manager.deliver (computeId : Nat) :
    Wire → Manager
  | .segmentRequest regionId segmentAddr segmentSize =>
      manager.handleLogSegmentRequest translate computeId regionId segmentAddr segmentSize
  | .writeImm segmentAddr offset bytes imm =>
      { manager with
        memory := write manager.memory (translate segmentAddr + offset) bytes
      }.handleWriteWithImm computeId (immRegion imm) (immSize imm)

theorem immRegion_encodeImm {regionId : Nat} (toFlush : Nat) (hreg : regionId < 2 ^ 8) :
    immRegion (encodeImm regionId toFlush) = regionId := by
  have hadd := Nat.shiftLeft_add_eq_or_of_lt hreg toFlush
  rw [immRegion, encodeImm, ← hadd, Nat.shiftLeft_eq]
  rw [show (0xFF : Nat) = 2 ^ 8 - 1 by rfl, Nat.and_two_pow_sub_one_eq_mod]
  omega

theorem immSize_encodeImm {regionId toFlush : Nat} (hreg : regionId < 2 ^ 8)
    (hsize : toFlush < 2 ^ 24) : immSize (encodeImm regionId toFlush) = toFlush := by
  have hadd := Nat.shiftLeft_add_eq_or_of_lt hreg toFlush
  rw [immSize, encodeImm, ← hadd, Nat.shiftLeft_eq, Nat.shiftRight_eq_div_pow]
  rw [show (0xFFFFFF : Nat) = 2 ^ 24 - 1 by rfl, Nat.and_two_pow_sub_one_eq_mod]
  omega

/-! ### The slots of the streams -/

/-- The region of the thread that `GetOrCreateRegionReplayer` has or starts. -/
def getOrCreateRegionReplayer (regionId : Nat) : Option Nat :=
  if regionId ≥ maxLogicalRegions then none else some regionId

/-- The slots that the replayer thread of a region looks at. -/
def visitedSlots (regionId : Nat) : List Nat :=
  (List.range maxComputeNodes).map fun computeId => makeStreamIndex computeId regionId

/-- Compute nodes of the latch word and regions of the immediate data. -/
def Supported (stream : Nat × Nat) : Prop :=
  stream.1 % 2 = 0 ∧ stream.1 ≤ 108 ∧ stream.2 ≤ 255

structure SlotsDistinct (streams : List (Nat × Nat)) : Prop where
  distinct : ∀ first ∈ streams, ∀ second ∈ streams,
    makeStreamIndex first.1 first.2 = makeStreamIndex second.1 second.2 → first = second
  below : ∀ stream ∈ streams, makeStreamIndex stream.1 stream.2 < maxStreams
  visited : ∀ stream ∈ streams, ∃ region, getOrCreateRegionReplayer stream.2 = some region ∧
    makeStreamIndex stream.1 stream.2 ∈ visitedSlots region

theorem mem_visitedSlots {computeId regionId : Nat} :
    makeStreamIndex computeId regionId ∈ visitedSlots regionId ↔ computeId < maxComputeNodes := by
  simp only [visitedSlots, makeStreamIndex, maxLogicalRegions, List.mem_map, List.mem_range]
  constructor
  · rintro ⟨other, hother, heq⟩
    omega
  · exact fun h => ⟨computeId, h, rfl⟩

theorem slotsDistinct_iff (streams : List (Nat × Nat)) :
    SlotsDistinct streams ↔
      ∀ stream ∈ streams, stream.1 < maxComputeNodes ∧ stream.2 < maxLogicalRegions := by
  constructor
  · intro h stream hmem
    obtain ⟨region, hregion, hvisited⟩ := h.visited stream hmem
    unfold getOrCreateRegionReplayer at hregion
    split_ifs at hregion with hlarge
    cases hregion
    exact ⟨mem_visitedSlots.mp hvisited, Nat.lt_of_not_le hlarge⟩
  · intro h
    refine ⟨fun first hfirst second hsecond heq => ?_, fun stream hmem => ?_, fun stream hmem => ?_⟩
    · obtain ⟨-, hfirstRegion⟩ := h first hfirst
      obtain ⟨-, hsecondRegion⟩ := h second hsecond
      simp only [makeStreamIndex, maxLogicalRegions] at heq hfirstRegion hsecondRegion
      exact Prod.ext (by omega) (by omega)
    · obtain ⟨hcompute, hregion⟩ := h stream hmem
      simp only [makeStreamIndex, maxStreams, maxComputeNodes, maxLogicalRegions] at *
      omega
    · obtain ⟨hcompute, hregion⟩ := h stream hmem
      exact ⟨stream.2, if_neg (Nat.not_le.mpr hregion), mem_visitedSlots.mpr hcompute⟩

/-- Node 0 with region 65 and node 2 with region 1 share a slot, and node 32 has none. -/
theorem supported_streams_merged :
    Supported (0, 65) ∧ Supported (2, 1) ∧ Supported (32, 1) ∧
      makeStreamIndex 0 65 = makeStreamIndex 2 1 ∧ maxStreams ≤ makeStreamIndex 32 1 ∧
      ¬ SlotsDistinct [(0, 65), (2, 1)] := by
  refine ⟨by unfold Supported; decide, by unfold Supported; decide, by unfold Supported; decide,
    by decide, by decide, fun h => ?_⟩
  exact absurd (h.distinct (0, 65) (by decide) (2, 1) (by decide) (by decide)) (by decide)

end MemoryEngine.LogReplayer
