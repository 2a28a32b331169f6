import MemoryEngine.Library.ByteRange
import Mathlib.Algebra.Ring.Nat
import Mathlib.Logic.Function.Basic

/-! Remote memory: the regions that a memory node registers (`RDMA_Manager::Preregister_Memory`),
the chunks that it gives to the compute nodes (`create_mr_1GB_handler`, `Remote_Memory_Register`)
and the slots that these cut from the chunks (`Allocate_Remote_RDMA_Slot`).

Addresses are 64 bit, the offset of a `GlobalAddress` has 48 bit.  The slots handed out are recorded
for the statements only. -/
namespace MemoryEngine.Rdma

def allocGranu : ℕ := 512 * 2 ^ 20

/-- A logical region with the nodes of its copies, the primary first. -/
structure LogicalGroup where
  logicalId : ℕ
  physicalRegions : List ℕ
  bytes : ℕ
  deriving DecidableEq, Repr

variable (groups : List LogicalGroup) (node : ℕ)

/-- The physical regions of a node in the order of the loops over `logical_groups`. -/
def regionsOn : List (ℕ × ℕ) :=
  groups.flatMap fun group =>
    (group.physicalRegions.filter (· = node)).map fun _ => (group.logicalId, group.bytes)

def totalRequiredSize : ℕ :=
  ((regionsOn groups node).map Prod.snd).sum % 2 ^ 64

/-- The loop that sets the `base_ptr` of the physical regions. -/
def basePtrs (buffer : ℕ) : ℕ → List (ℕ × ℕ) → List (ℕ × ℕ)
  | _, [] => []
  | currentOffset, (logicalId, bytes) :: regions =>
      (logicalId, (buffer + currentOffset) % 2 ^ 64) ::
        basePtrs buffer ((currentOffset + bytes) % 2 ^ 64) regions

def chunksForRegion (bytes : ℕ) : ℕ :=
  if bytes / allocGranu = 0 then 1 else bytes / allocGranu

structure MemoryNode where
  /-- The registered memory. -/
  memory : ByteRange
  /-- The `base_ptr` of the regions; the first entry of a region counts. -/
  basePtr : List (ℕ × ℕ)
  /-- The addresses of the free chunks of each region, the last one is taken first. -/
  preAllocatedPool : ℕ → List ℕ

/-- `Preregister_Memory` with the address that the allocation of the buffer has returned. -/
def preregisterMemory (gbNumber buffer node : ℕ) : MemoryNode :=
  let size := max (gbNumber * 2 ^ 30 % 2 ^ 64) (totalRequiredSize groups node)
  let basePtr := basePtrs buffer 0 (regionsOn groups node)
  { memory := ⟨buffer, size⟩
    basePtr := basePtr
    preAllocatedPool := fun logicalId =>
      match groups.find? (·.logicalId = logicalId), basePtr.lookup logicalId with
      | some group, some base =>
          if 0 < group.bytes then
            (List.range (chunksForRegion group.bytes)).map fun i => (base + i * allocGranu) % 2 ^ 64
          else []
      | _, _ => [] }

namespace MemoryNode

variable (node : MemoryNode)

/-- The reply of `create_mr_1GB_handler`: the offset of a chunk in its region, or `none` for the
null address when the pool is empty. -/
def createMr (logicalId : ℕ) : Option ℕ :=
  ((node.preAllocatedPool logicalId).getLast?).map fun addr =>
    match node.basePtr.lookup logicalId with
    | some base => (addr + (2 ^ 64 - base)) % 2 ^ 64 % 2 ^ 48
    | none => addr % 2 ^ 48

def popChunk (logicalId : ℕ) : MemoryNode :=
  let pool := (node.preAllocatedPool logicalId).dropLast
  { node with preAllocatedPool := Function.update node.preAllocatedPool logicalId pool }

/-- `TranslateLogicalToPhysicalAddress`. -/
def translate (logicalId offset : ℕ) : ℕ :=
  ((node.basePtr.lookup logicalId).getD 0 + offset) % 2 ^ 64

end MemoryNode

inductive ChunkType where
  | regularPage
  | deltaChunk
  deriving DecidableEq, Repr

/-- `name_to_chunksize`. -/
def ChunkType.chunkSize : ChunkType → ℕ
  | .regularPage => 16384 + 8
  | .deltaChunk => 256 * 2 ^ 20

theorem ChunkType.chunkSize_pos (chunkType : ChunkType) : 0 < chunkType.chunkSize := by
  cases chunkType <;> decide

theorem ChunkType.chunkSize_le (chunkType : ChunkType) : chunkType.chunkSize ≤ allocGranu := by
  cases chunkType <;> decide

structure InUseArray where
  gptrOri : ℕ
  freeList : List ℕ
  deriving DecidableEq, Repr

/-- The chunks of a compute node for one region and one type: the bitmaps in the order of their keys
and the offsets in the order of the registrations. -/
structure RemotePool where
  bitmaps : List InUseArray
  registered : List ℕ
  deriving DecidableEq, Repr

namespace RemotePool

/-- `std::map::insert`, which keeps the entry that is there. -/
def insertArray (array : InUseArray) : List InUseArray → List InUseArray
  | [] => [array]
  | head :: tail =>
      if array.gptrOri < head.gptrOri then array :: head :: tail
      else if array.gptrOri = head.gptrOri then head :: tail
      else head :: insertArray array tail

def addChunk (pool : RemotePool) (chunkType : ChunkType) (offset : ℕ) : RemotePool where
  bitmaps := insertArray ⟨offset, List.range (allocGranu / chunkType.chunkSize)⟩ pool.bitmaps
  registered := pool.registered ++ [offset]

/-- `allocate_memory_slot` on the first array that is chosen and has a free slot, with the offset of
the slot. -/
def takeSlot (chunkType : ChunkType) (chosen : InUseArray → Bool) :
    List InUseArray → Option (ℕ × List InUseArray)
  | [] => none
  | array :: arrays =>
      match if chosen array then array.freeList.getLast? else none with
      | some index =>
          some ((array.gptrOri + index * chunkType.chunkSize) % 2 ^ 48,
            { array with freeList := array.freeList.dropLast } :: arrays)
      | none => (takeSlot chunkType chosen arrays).map fun (offset, arrays) =>
        (offset, array :: arrays)

end RemotePool

structure Slot where
  compute : ℕ
  chunkType : ChunkType
  region : ℕ
  offset : ℕ
  deriving DecidableEq, Repr

structure System where
  groups : List LogicalGroup
  nodes : ℕ → MemoryNode
  pools : ℕ → ChunkType → ℕ → RemotePool
  handed : List Slot

inductive Event where
  | register (compute : ℕ) (chunkType : ChunkType) (region : ℕ)
  | allocate (compute : ℕ) (chunkType : ChunkType) (region : ℕ)
  deriving DecidableEq, Repr

namespace System

def start (gbNumber buffer : ℕ → ℕ) : System where
  groups := groups
  nodes := fun node => preregisterMemory groups (gbNumber node) (buffer node) node
  pools := fun _ _ _ => ⟨[], []⟩
  handed := []

variable (s : System) (compute : ℕ)

def setPool (chunkType : ChunkType) (region : ℕ) (pool : RemotePool) :
    System :=
  { s with pools := fun otherCompute otherType otherRegion =>
      if otherCompute = compute ∧ otherType = chunkType ∧ otherRegion = region then pool
      else s.pools otherCompute otherType otherRegion }

theorem setPool_pools_self (chunkType : ChunkType) (region : ℕ)
    (pool : RemotePool) :
    (s.setPool compute chunkType region pool).pools compute chunkType region = pool :=
  if_pos ⟨rfl, rfl, rfl⟩

theorem setPool_pools_of_ne {s : System} {compute otherCompute : ℕ}
    {chunkType otherType : ChunkType} {region otherRegion : ℕ} {pool : RemotePool}
    (hne : ¬(otherCompute = compute ∧ otherType = chunkType ∧ otherRegion = region)) :
    (s.setPool compute chunkType region pool).pools otherCompute otherType otherRegion =
      s.pools otherCompute otherType otherRegion :=
  if_neg hne

def popChunks (region : ℕ) (replicas : List ℕ) : System :=
  let pop := fun nodes node => Function.update nodes node ((nodes node).popChunk region)
  { s with nodes := replicas.foldl pop s.nodes }

def reply (group : LogicalGroup) : Option ℕ :=
  (group.physicalRegions.head?.bind fun primary =>
    (s.nodes primary).createMr group.logicalId).filter fun offset =>
      ¬(group.logicalId = 0 ∧ offset = 0)

/-- `Remote_Memory_Register`. -/
def register (chunkType : ChunkType) (region : ℕ) : System :=
  match s.groups.find? (·.logicalId = region) with
  | none => s
  | some group =>
      let after := s.popChunks region group.physicalRegions
      match s.reply group with
      | none => after
      | some offset => after.setPool compute chunkType region
          ((s.pools compute chunkType region).addChunk chunkType offset)

def hand (chunkType : ChunkType) (region : ℕ)
    (taken : ℕ × List InUseArray) : System :=
  { s.setPool compute chunkType region
      { s.pools compute chunkType region with bitmaps := taken.2 } with
    handed := s.handed ++ [⟨compute, chunkType, region, taken.1⟩] }

/-- `Allocate_Remote_RDMA_Slot`.  It does not look whether the registration has succeeded, and uses
the index -1 when the last chunk has no free slot.  `none` stands for the `back` of an empty
vector. -/
def allocate (chunkType : ChunkType) (region : ℕ) : Option System :=
  let s := if (s.pools compute chunkType region).bitmaps = [] then
      s.register compute chunkType region
    else s
  match RemotePool.takeSlot chunkType (fun _ => true)
    (s.pools compute chunkType region).bitmaps with
  | some taken => some (s.hand compute chunkType region taken)
  | none =>
      let s := s.register compute chunkType region
      let pool := s.pools compute chunkType region
      pool.registered.getLast?.map fun last =>
        match RemotePool.takeSlot chunkType (·.gptrOri = last) pool.bitmaps with
        | some taken => s.hand compute chunkType region taken
        | none => s.hand compute chunkType region
            ((last + (2 ^ 64 - chunkType.chunkSize)) % 2 ^ 48, pool.bitmaps)

def step : Event → Option System
  | .register compute chunkType region => some (s.register compute chunkType region)
  | .allocate compute chunkType region => s.allocate compute chunkType region

def slotRange (slot : Slot) : ByteRange :=
  ⟨(s.nodes node).translate slot.region slot.offset, slot.chunkType.chunkSize⟩

def regionRange (group : LogicalGroup) : ByteRange :=
  ⟨(s.nodes node).translate group.logicalId 0, group.bytes⟩

end System

end MemoryEngine.Rdma
