import MemoryEngine.Log.Replayer

/-! The redo logger of a compute node (`txn/RedoLogger.h`).

Records are appended to a local stage buffer of the size of a remote segment
and flushed from there to the replicas.  `posted i` is what has been posted on
the queue pair to the replica with index `i` of the region's replica set; index
zero is the primary.  The memory manager behind `Allocate_Remote_RDMA_Slot` is
not part of the model: the address it would return is an argument. -/
namespace MemoryEngine.RedoLog

open ByteMemory LogReplayer Function

inductive ReplicaWriteMode where
  | writeOneReplica
  | writeAllReplicas
  deriving DecidableEq, Repr

/-- `chunkSize` is the size of a slot of the log pool, local or remote;
`replicas` is the size of `GetReplicaSet` by region. -/
structure Options where
  chunkSize : Nat
  replicas : Nat → Nat
  replicaWriteMode : ReplicaWriteMode := .writeAllReplicas

def autoFlushThreshold : Nat := 1024 * 1024

/-- The `nodeID` field of a global address, its low 16 bits. -/
def nodeId (gaddr : Nat) : Nat := gaddr % 2 ^ 16

structure StreamState where
  logicalRegionId : Nat
  stage : Memory
  stageCap : Nat
  currentSegmentAddr : Nat
  currentSegmentSize : Nat
  tail : Nat
  flushedTail : Nat
  freeSegments : List Nat
  /-- A key that is not in the map has count zero. -/
  pendingRecycleAcks : Nat → Nat
  posted : Nat → List Wire

namespace StreamState

/-- Post a message to the replicas with index in `[first, last)`. -/
def post (stream : StreamState) (first last : Nat) (wire : Wire) : StreamState :=
  { stream with
    posted := fun i =>
      if first ≤ i ∧ i < last then stream.posted i ++ [wire] else stream.posted i }

def copyAtTail (stream : StreamState) (bytes : List UInt8) : StreamState :=
  { stream with
    stage := write stream.stage stream.tail bytes
    tail := stream.tail + bytes.length }

variable (options : Options)

/-- The replicas that a flush writes to are those from index one up to here. -/
def flushEnd (region : Nat) : Nat :=
  match options.replicaWriteMode with
  | .writeOneReplica => 2
  | .writeAllReplicas => options.replicas region

def flushLocked (stream : StreamState) : StreamState :=
  let toFlush := stream.tail - stream.flushedTail
  if toFlush = 0 then stream
  else
    let region := nodeId stream.currentSegmentAddr
    let flushed := { stream with flushedTail := stream.tail }
    if 1 ≥ options.replicas region ∨ flushEnd options region > options.replicas region then flushed
    else
      flushed.post 1 (flushEnd options region)
        (.writeImm stream.currentSegmentAddr stream.flushedTail
          (read stream.stage stream.flushedTail toFlush) (encodeImm region toFlush))

/-- With a single replica there is nobody to notify. -/
def sendLogSegmentRPC (stream : StreamState) : StreamState :=
  stream.post 1 (options.replicas stream.logicalRegionId)
    (.segmentRequest stream.logicalRegionId stream.currentSegmentAddr stream.currentSegmentSize)

/-- `fresh` is the address a remote allocation would return. -/
def allocateNewSegmentAndNotify (stream : StreamState) (fresh : Nat) : StreamState :=
  let stream :=
    match stream.freeSegments with
    | addr :: rest => { stream with currentSegmentAddr := addr, freeSegments := rest }
    | [] => { stream with currentSegmentAddr := fresh }
  let stream := { stream with currentSegmentSize := options.chunkSize }
  { stream.sendLogSegmentRPC options with tail := 0, flushedTail := 0 }

/-- `remaining_capacity`, which is unsigned. -/
def remainingCapacity (stream : StreamState) : Nat :=
  if stream.tail ≤ stream.stageCap then stream.stageCap - stream.tail
  else 2 ^ 64 - (stream.tail - stream.stageCap)

def closeSegment (stream : StreamState) (fresh : Nat) : StreamState :=
  let flushedTail := stream.flushedTail
  let stream :=
    if stream.remainingCapacity > 0 then stream.copyAtTail [segmentCloseMarker] else stream
  let stream := if stream.tail > flushedTail then stream.flushLocked options else stream
  stream.allocateNewSegmentAndNotify options fresh

/-- `flushedTail` is read once; the test for the automatic flush uses that value
also when a new segment has been started. -/
def append (stream : StreamState) (record : Record) (fresh : Nat) : StreamState :=
  let need := recordHeaderSize + record.payload.length
  let flushedTail := stream.flushedTail
  let stream :=
    if stream.remainingCapacity < need then stream.closeSegment options fresh else stream
  let stream :=
    if stream.tail > flushedTail ∧ stream.tail - flushedTail ≥ autoFlushThreshold then
      stream.flushLocked options
    else stream
  stream.copyAtTail record.bytes

/-- A stream after `GetOrCreateStream` has made it. -/
def create (region first : Nat) : StreamState :=
  StreamState.sendLogSegmentRPC options
    { logicalRegionId := region
      stage := fun _ => 0
      stageCap := options.chunkSize
      currentSegmentAddr := first
      currentSegmentSize := options.chunkSize
      tail := 0
      flushedTail := 0
      freeSegments := []
      pendingRecycleAcks := fun _ => 0
      posted := fun _ => [] }

def acknowledge (required : Nat) (stream : StreamState) (addr : Nat) : StreamState :=
  let currentAcks := stream.pendingRecycleAcks addr + 1
  if currentAcks ≥ required then
    { stream with
      freeSegments := stream.freeSegments ++ [addr]
      pendingRecycleAcks := update stream.pendingRecycleAcks addr 0 }
  else
    { stream with
      pendingRecycleAcks := update stream.pendingRecycleAcks addr currentAcks }

def requiredAcks (region : Nat) : Nat :=
  match options.replicaWriteMode with
  | .writeAllReplicas => options.replicas region - 1
  | .writeOneReplica => 1

def handleLogSegmentRecycle (stream : StreamState) (segmentAddrs : List Nat) : StreamState :=
  if options.replicas stream.logicalRegionId = 0 then stream
  else segmentAddrs.foldl (acknowledge (requiredAcks options stream.logicalRegionId)) stream

end StreamState

/-! ### The streams of a logger -/

structure Logger where
  streams : Nat → Option StreamState

/-- Calls on a logger, with the addresses that remote allocations would return:
`first` for the first segment of a stream, `fresh` for a later one. -/
inductive LoggerOp where
  | append (region : Nat) (record : Record) (first fresh : Nat)
  | flush (region : Nat)
  | flushAll
  | recycle (region : Nat) (segmentAddrs : List Nat)

namespace Logger

variable (options : Options)

def empty : Logger := ⟨fun _ => none⟩

def getOrCreateStream (logger : Logger) (region first : Nat) : StreamState :=
  (logger.streams region).getD (.create options region first)

def step (logger : Logger) : LoggerOp → Logger
  | .append region record first fresh =>
      ⟨update logger.streams region
        (some ((logger.getOrCreateStream options region first).append options record fresh))⟩
  | .flush region =>
      ⟨update logger.streams region
        ((logger.streams region).map (StreamState.flushLocked options))⟩
  | .flushAll => ⟨fun region => (logger.streams region).map (StreamState.flushLocked options)⟩
  | .recycle region segmentAddrs =>
      ⟨update logger.streams region
        ((logger.streams region).map fun stream =>
          stream.handleLogSegmentRecycle options segmentAddrs)⟩

def run (ops : List LoggerOp) : Logger := ops.foldl (step options) empty

end Logger

def appendedTo (region : Nat) (ops : List LoggerOp) : List Record :=
  ops.filterMap fun
    | .append region' record _ _ => if region' = region then some record else none
    | _ => none

end MemoryEngine.RedoLog
