import MemoryEngine.Library.ChainedTable
import MemoryEngine.Library.IntrusiveRing
import Mathlib.Data.BitVec

/-! One shard of the page cache (`LRUCache` with a list of free pages).

The handles are linked in three circular lists with the heads `lru_`, `in_use_` and `free_list_`,
and the cached ones are in a hash table.  Calls run one after the other under the latch of the
table; a call is `none` where it would follow a null pointer or use a list head as a handle.  The
references that clients hold are recorded for the statements only. -/
namespace MemoryEngine.PageCache

open IntrusiveRing ChainedTable

inductive ListHead where
  | lru
  | inUse
  | free
  deriving DecidableEq, Repr

inductive Node where
  | head (list : ListHead)
  | handle (id : ℕ)
  deriving DecidableEq, Repr

/-- The fields of an `LRUHandle` apart from its links. -/
structure Handle (K : Type) where
  key : K
  charge : BitVec 64
  inCache : Bool
  refs : ℕ

structure Shard (K : Type) where
  capacity : BitVec 64
  freeListTriggerLimit : BitVec 64
  handleCount : ℕ
  links : Links Node
  handles : ℕ → Handle K
  table : Table ℕ
  freeListSize : BitVec 64
  lruSize : BitVec 64
  usage : BitVec 64
  /-- The references that are not yet released, with the key they were got for. -/
  held : List (ℕ × K)

inductive Event (K : Type) where
  | lookup (key : K)
  | lookupInsert (key : K) (charge : BitVec 64)
  | insert (key : K) (charge : BitVec 64)
  | release (handle : ℕ) (key : K)
  | releaseInv (handle : ℕ) (key : K)
  | erase (key : K)
  | prune
  | prepareFreeList
  deriving DecidableEq, Repr

namespace Shard

variable {K : Type}

def keyOf (s : Shard K) (handle : ℕ) : K := (s.handles handle).key

def modifyHandle (s : Shard K) (handle : ℕ) (f : Handle K → Handle K) : Shard K :=
  { s with handles := Function.update s.handles handle (f (s.handles handle)) }

def setRefs (s : Shard K) (handle refs : ℕ) : Shard K :=
  s.modifyHandle handle fun e => { e with refs := refs }

def leaveCache (s : Shard K) (handle : ℕ) : Shard K :=
  s.modifyHandle handle fun e => { e with inCache := false }

def hold (s : Shard K) (handle : ℕ) (key : K) : Shard K :=
  { s with held := (handle, key) :: s.held }

/-- `List_Remove`. -/
def listRemove (s : Shard K) (node : Node) : Option (Shard K) :=
  (s.links.cut node node).map fun links => { s with links := links }

/-- `List_Append`: the node becomes the newest entry, just before `list`. -/
def listAppend (s : Shard K) (list node : Node) : Option (Shard K) :=
  (s.links.paste list node node).map fun links => { s with links := links }

def pushFreeList (s : Shard K) (handle : ℕ) : Option (Shard K) :=
  (s.listAppend (.head .free) (.handle handle)).map fun s =>
    { s with freeListSize := s.freeListSize + 1 }

def popFreeList (s : Shard K) : Option (Option ℕ × Shard K) :=
  match s.links.next (.head .free) with
  | some (.handle handle) =>
      (s.listRemove (.handle handle)).map fun s =>
        (some handle, { s with freeListSize := s.freeListSize - 1 })
  | some (.head _) => some (none, s)
  | none => none

def ref (s : Shard K) (handle : ℕ) : Option (Shard K) :=
  let ticket := (s.handles handle).refs
  let s := s.setRefs handle (ticket + 1)
  if ticket = 1 ∧ (s.handles handle).inCache = true then do
    -- on the LRU list, moves to the list of handles in use
    let s ← s.listRemove (.handle handle)
    let s := { s with lruSize := s.lruSize - 1 }
    s.listAppend (.head .inUse) (.handle handle)
  else some s

def unref (s : Shard K) (handle : ℕ) : Option (Shard K) :=
  let ticket := (s.handles handle).refs
  let s := s.setRefs handle (ticket - 1)
  if ticket = 1 then s.pushFreeList handle
  else if (s.handles handle).inCache = true ∧ ticket = 2 then do
    let s ← s.listRemove (.handle handle)
    let s ← s.listAppend (.head .lru) (.handle handle)
    some { s with lruSize := s.lruSize + 1 }
  else some s

/-- `Unref_Inv`: the handle becomes the oldest one.  The last reference deletes the handle, which
then is on no list. -/
def unrefInv (s : Shard K) (handle : ℕ) : Option (Shard K) :=
  let ticket := (s.handles handle).refs
  let s := s.setRefs handle (ticket - 1)
  if ticket = 1 then some s
  else if (s.handles handle).inCache = true ∧ ticket = 2 then do
    let s ← s.listRemove (.handle handle)
    let oldest ← s.links.next (.head .lru)
    let s ← s.listAppend oldest (.handle handle)
    some { s with lruSize := s.lruSize + 1 }
  else some s

/-- `FinishErase`.  It does not look on which list the handle is. -/
def finishErase (s : Shard K) : Option ℕ → Option (Shard K)
  | none => some s
  | some handle => do
      let s ← s.listRemove (.handle handle)
      let s := s.leaveCache handle
      let s := { s with usage := s.usage - (s.handles handle).charge }
      s.unref handle

/-- The shard before `init`: no handles, each list head linked to itself. -/
def empty (capacity limit : BitVec 64) (null : K) : Shard K where
  capacity := capacity
  freeListTriggerLimit := limit
  handleCount := 0
  links := ⟨fun node => some node, fun node => some node⟩
  handles := fun _ => ⟨null, 0, false, 0⟩
  table := ⟨4, 0, fun _ => []⟩
  freeListSize := 0
  lruSize := 0
  usage := 0
  held := []

def addHandle (s : Shard K) : Option (Shard K) :=
  { s with handleCount := s.handleCount + 1 }.pushFreeList s.handleCount

/-- The loop of `init`. -/
def addHandles (s : Shard K) : ℕ → Option (Shard K)
  | 0 => some s
  | count + 1 => (s.addHandles count).bind addHandle

/-- `init`, with `FREELIST_RATIO` of the handles as the limit; the product is left open. -/
def init (capacity limit : BitVec 64) (null : K) : Option (Shard K) :=
  (empty capacity limit null).addHandles (capacity.toNat / (16384 + 8) + 1)

variable [DecidableEq K] (hash : K → ℕ)

def lookup (s : Shard K) (key : K) : Option ℕ := s.table.lookup s.keyOf hash key

def tableRemove (s : Shard K) (key : K) : Shard K :=
  { s with table := (s.table.remove s.keyOf hash key).2 }

def evictOldest (s : Shard K) : Option (ℕ × Shard K) :=
  match s.links.next (.head .lru) with
  | some (.handle handle) => do
      let s := s.tableRemove hash (s.keyOf handle)
      let s ← s.listRemove (.handle handle)
      let charge := (s.handles handle).charge
      let s := { s with lruSize := s.lruSize - 1, usage := s.usage - charge }
      some (handle, s.setRefs handle ((s.handles handle).refs - 1))
  | _ => none

def obtainHandle (s : Shard K) : Option (ℕ × Shard K) := do
  let (popped, s) ← s.popFreeList
  match popped with
  | some handle => some (handle, s)
  | none => s.evictOldest hash

def placeHandle (s : Shard K) (handle : ℕ) (key : K) (charge : BitVec 64) : Option (Shard K) :=
  let s := (s.modifyHandle handle fun _ => ⟨key, charge, true, 1⟩).hold handle key
  if s.capacity ≠ 0 then do
    let s := s.setRefs handle 2
    let s ← s.listAppend (.head .inUse) (.handle handle)
    let s := { s with usage := s.usage + charge }
    let (old, table) := s.table.insert s.keyOf hash handle
    { s with table := table }.finishErase old
  else
    some { s with links :=
      { s.links with next := Function.update s.links.next (.handle handle) none } }

def lookupInsert (s : Shard K) (key : K) (charge : BitVec 64) : Option (Shard K) :=
  match s.lookup hash key with
  | some handle => (s.hold handle key).ref handle
  | none => do
      let (handle, s) ← s.obtainHandle hash
      s.placeHandle hash handle key charge

def insert (s : Shard K) (key : K) (charge : BitVec 64) : Option (Shard K) := do
  let (handle, s) ← s.obtainHandle hash
  s.placeHandle hash handle key charge

def erase (s : Shard K) (key : K) : Option (Shard K) :=
  (s.tableRemove hash key).finishErase (s.lookup hash key)

/-- The loop of `Prune`, `none` when it does not end. -/
def pruneLoop (s : Shard K) : ℕ → Option (Shard K)
  | 0 => none
  | fuel + 1 =>
      match s.links.next (.head .lru) with
      | some (.handle handle) => do
          let s ← s.erase hash (s.keyOf handle)
          s.pruneLoop fuel
      | some (.head _) => some s
      | none => none

def prune (s : Shard K) : Option (Shard K) := s.pruneLoop hash (s.handleCount + 1)

def needEviction (s : Shard K) : Bool := s.freeListSize.ult s.freeListTriggerLimit

/-- `recycle_num`, with one eviction thread. -/
def recycleNum (s : Shard K) : BitVec 64 := s.freeListTriggerLimit - s.freeListSize

/-- `bulk_remove_LRU_list`: the links are followed without a look at the list head. -/
def bulkRemoveLruList (s : Shard K) (size : ℕ) : Option ((Node × Node) × Shard K) := do
  let first ← s.links.next (.head .lru)
  let last ← s.links.follow (size - 1) first
  let links ← s.links.cut first last
  some ((first, last), { s with links := links })

def bulkInsertFreeList (s : Shard K) (ends : Node × Node) (size : BitVec 64) : Option (Shard K) :=
  (s.links.paste (.head .free) ends.1 ends.2).map fun links =>
    { s with links := links, freeListSize := s.freeListSize + size }

def asHandle : Node → Option ℕ
  | .handle handle => some handle
  | .head _ => none

def uncache (s : Shard K) (handle : ℕ) : Shard K :=
  let s := s.leaveCache handle
  let s := { s with usage := s.usage - (s.handles handle).charge }
  s.tableRemove hash (s.keyOf handle)

def dropRef (s : Shard K) (handle : ℕ) : Shard K :=
  s.setRefs handle ((s.handles handle).refs - 1)

def prepareFreeList (s : Shard K) : Option (Shard K) :=
  if s.needEviction = true ∧ 0 < s.recycleNum.toInt then do
    let size := s.recycleNum
    let (ends, s) ← s.bulkRemoveLruList size.toNat
    let batch ← (s.links.upToNull size.toNat ends.1).mapM asHandle
    let s := batch.foldl (·.uncache hash ·) s
    let s := batch.foldl dropRef s
    s.bulkInsertFreeList ends size
  else some s

def forget (s : Shard K) (handle : ℕ) (key : K) : Shard K :=
  { s with held := s.held.erase (handle, key) }

def drop (s : Shard K) (handle : ℕ) (key : K) : Option (Shard K) :=
  if (handle, key) ∈ s.held then some (s.forget handle key) else none

def step (s : Shard K) : Event K → Option (Shard K)
  | .lookup key =>
      match s.lookup hash key with
      | some handle => (s.hold handle key).ref handle
      | none => some s
  | .lookupInsert key charge => s.lookupInsert hash key charge
  | .insert key charge => s.insert hash key charge
  | .release handle key => (s.drop handle key).bind (·.unref handle)
  | .releaseInv handle key => (s.drop handle key).bind (·.unrefInv handle)
  | .erase key => s.erase hash key
  | .prune => s.prune hash
  | .prepareFreeList => s.prepareFreeList hash

end Shard

end MemoryEngine.PageCache
