import MemoryEngine.Selcc.LatchWord

/-! The cache handle of a page on one compute node.

A handle is used by many threads at once: the ones inside an access and the ones that serve
invalidation requests of other nodes.  The local latch `rw_mtx` is the pair of `readers` and
`owner`; the operation of the thread that holds it exclusively is in `owner`.  A thread waits
for each RDMA operation, for each reply and for each lock, so an action is what it does between
two such points.  What the action asks of the rest of the cluster is its list of effects.

`retry_cnt` only decides when an acquisition sends a message and with which priority; here both
are free. -/
namespace MemoryEngine.Selcc

/-- `remote_lock_status`. -/
inductive LockStatus where
  | invalid
  | shared
  | exclusive
deriving DecidableEq

inductive InvCommand where
  | writerInvalidateShared
  | readerInvalidateModified
  | writerInvalidateModified
deriving DecidableEq

def InvCommand.status : InvCommand → LockStatus
  | .writerInvalidateShared => .shared
  | .readerInvalidateModified => .exclusive
  | .writerInvalidateModified => .exclusive

/-- `remote_urging_type` of a buffered request. -/
def InvCommand.urging : InvCommand → ℕ
  | .writerInvalidateShared => 2
  | .readerInvalidateModified => 1
  | .writerInvalidateModified => 2

/-- A node and the position of one of its cache handles; a handle owns one page buffer. -/
abbrev Slot (n m : ℕ) := Fin n × Fin m

/-- One call of an invalidation RPC.  The code knows the node and the buffer that takes the
reply; the number only tells the calls apart. -/
structure Call (n m : ℕ) where
  slot : Slot n m
  number : ℕ
deriving DecidableEq

structure Request (n m : ℕ) where
  call : Call n m
  command : InvCommand
  starvation : ℕ
  reminder : Bool

/-- Everything but a `pending_reminder`, which `Writer_Invalidate_Shared_RPC` never sends and its
handler never looks at. -/
def Request.needsReply {n m : ℕ} (request : Request n m) : Bool :=
  !request.reminder || request.command == .writerInvalidateShared

/-- `buffer_inv_message` with a valid `next_holder_id`. -/
structure PendingPageForward (n m : ℕ) where
  call : Call n m
  priority : ℕ
  command : InvCommand

/-- The terminal replies: `dropped`, `processed` without a page, and a forwarded page. -/
inductive Body (α : Type) where
  | dropped
  | invalidated
  | page (mode : Mode) (content : α)

structure Reply (n m : ℕ) (α : Type) where
  call : Call n m
  command : InvCommand
  body : Body α

inductive LatchMove (n : ℕ) where
  | release (node : Fin n) (mode : Mode)
  | handover (source next : Fin n)
  | downgrade (source next : Fin n)

def LatchMove.delta {n : ℕ} : LatchMove n → Word
  | .release node mode => -contribution node mode
  | .handover source next => exclusiveByte next - exclusiveByte source
  | .downgrade source next => sharedBit source + sharedBit next - exclusiveByte source

inductive Work (n : ℕ) (α : Type) where
  | writePage (content : α)
  | fetchAdd (move : LatchMove n)

structure Posted (n : ℕ) (α : Type) where
  queue : Fin n × ℕ
  work : Work n α

inductive Effect (n m : ℕ) (α : Type) where
  | add (node : Fin n) (delta : Word)
  | post (operation : Posted n α)
  | send (target : Fin n) (request : Request n m)
  | reply (reply : Reply n m α)
  | pending (call : Call n m) (command : InvCommand)
  | finish (content : α)
  | impossible

inductive Access where
  | updater
  | tryUpdater
  | tryUpgrade
  | upgrade
  | writer
deriving DecidableEq

def Access.tries : Access → Bool
  | .tryUpdater => true
  | .tryUpgrade => true
  | _ => false

def Access.clears : Access → Bool
  | .upgrade => false
  | .writer => false
  | _ => true

inductive Goal where
  | reader (tries : Bool)
  | writer (access : Access)

def Goal.tries : Goal → Bool
  | .reader tries => tries
  | .writer access => access.tries

def Goal.command : Goal → InvCommand
  | .reader _ => .readerInvalidateModified
  | .writer _ => .writerInvalidateModified

inductive ReplyFlag where
  | waiting
  | pending
  | processed
  | dropped

/-- Where an acquisition of the global latch stands: at the label `retry`, between its atomic
operation and its READ, before taking a refused bit back, or in an RPC. -/
inductive Phase (n : ℕ) where
  | retry (targets : Invalidate n)
  | read (old : Word)
  | retract (old : Word)
  | rpc (target : Fin n) (number : ℕ) (flag : ReplyFlag)
  | rpcShared (numbers : List ℕ)

/-- `global_Rlock_update`: before the CAS, after it, and after the unlock that follows a
refusal. -/
inductive UpgradePhase where
  | cas
  | won
  | lost
  | released

inductive HandlerPhase where
  | check
  | process

/-- What the thread that holds the local latch exclusively is doing. -/
inductive Op (n m : ℕ) where
  | acquire (goal : Goal) (phase : Phase n)
  | upgrade (access : Access) (phase : UpgradePhase)
  | inside (touched : Bool)
  | post
  | handler (request : Request n m) (phase : HandlerPhase)

/-- A thread is known by its queue pair to the memory node. -/
structure Owner (n m : ℕ) where
  queue : ℕ
  op : Op n m

/-- In the hash table, taken out of it by an eviction, or used for some other page. -/
inductive Placement where
  | table
  | victim
  | free
deriving DecidableEq

structure Handle (n m : ℕ) (α : Type) where
  placement : Placement
  status : LockStatus
  urging : ℕ
  buffered : Option (PendingPageForward n m)
  readCounter : ℕ
  writeCounter : ℕ
  readers : ℕ
  owner : Option (Owner n m)
  /-- Threads in `upgrade_pre_access` between `unlock_shared` and `lock`. -/
  upgrading : ℕ
  /-- Threads in `reader_post_access` between `unlock_shared` and `lock`. -/
  leaving : ℕ
  /-- Requests whose handler did not get the local latch. -/
  handlers : List (Request n m)
  /-- The request whose handler holds `buffered_inv_mtx` and found the status it expects. -/
  invHolder : Option (Request n m)
  /-- RPC calls made so far. -/
  calls : ℕ
  data : α

structure Remote (α : Type) where
  word : Word
  memory : α

inductive Action (α : Type) where
  -- reader_pre_access, try_reader_pre_access
  | readerHit (counted : Bool)
  | readerMiss (queue : ℕ) (tries : Bool) (counted : Bool)
  -- updater_pre_access, try_updater_pre_access, try_upgrade_pre_access, upgrade_pre_access,
  -- writer_pre_access
  | unlockShared
  | writerLock (queue : ℕ) (access : Access) (counted : Bool)
  -- global_Rlock_and_read_page_with_INVALID
  | rlockFaa
  | rlockRead
  | rlockRetract
  -- global_Wlock_and_read_page_with_INVALID, global_Wlock_with_INVALID
  | wlockCas
  | wlockRead
  | giveUp
  | invalidateModified (starvation : ℕ)
  | invalidateShared (starvation : ℕ)
  | remind (starvation : ℕ)
  | resume
  -- global_Rlock_update
  | upgradeCas
  | upgradeWon
  | upgradeUnlock
  | upgradeLost
  | modify (content : α)
  -- updater_writer_post_access, reader_post_access
  | writerPost
  | readerPost
  | readerPostLock (queue : ℕ)
  | postProcess
  -- Writer_Inv_Shared_handler, Reader_Inv_Modified_handler, Writer_Inv_Modified_handler
  | handlerCheck
  | handlerProcess
  | bufferSkip (index : ℕ)
  | bufferBegin (index : ℕ)
  | bufferEnd
  -- prepare_free_list
  | evict
  | deallocate (queue : ℕ)

def Action.synchronous {α : Type} : Action α → Bool
  | .rlockFaa | .rlockRead | .rlockRetract | .wlockCas | .wlockRead => true
  | .upgradeCas | .upgradeUnlock => true
  | _ => false

namespace Handle

variable {n m : ℕ} {α : Type}

def fresh (data : α) : Handle n m α where
  placement := .free
  status := .invalid
  urging := 0
  buffered := none
  readCounter := 0
  writeCounter := 0
  readers := 0
  owner := none
  upgrading := 0
  leaving := 0
  handlers := []
  invHolder := none
  calls := 0
  data := data

def clearPendingInvStates (h : Handle n m α) : Handle n m α :=
  { h with readCounter := 0, writeCounter := 0, urging := 0, buffered := none }

/-- `SetStates` with the store to `remote_urging_type` that follows it everywhere. -/
def setStates (h : Handle n m α) (request : Request n m) : Handle n m α :=
  { h with
    buffered := some ⟨request.call, request.starvation, request.command⟩
    urging := request.command.urging }

def starvationPriority (h : Handle n m α) : ℕ :=
  match h.buffered with
  | some message => message.priority
  | none => 0

/-- `PARALLEL_DEGREE` is 8; the sum is kept in a `uint16_t`. -/
def handoverDegree (h : Handle n m α) : ℕ := (h.writeCounter + h.readCounter / 8) % 2 ^ 16

/-- `STARVATION_THRESHOLD` is 256. -/
def mustProcess (h : Handle n m α) : Bool := 0 < h.urging && 256 < h.handoverDegree

def latchFree (h : Handle n m α) : Bool := h.readers == 0 && h.owner.isNone

def setOp (h : Handle n m α) (queue : ℕ) (op : Op n m) : Handle n m α :=
  { h with owner := some ⟨queue, op⟩ }

def unlock (h : Handle n m α) : Handle n m α := { h with owner := none }

def setStatus (h : Handle n m α) (status : LockStatus) : Handle n m α :=
  { h with status := status }

def countRead (h : Handle n m α) (counted : Bool) : Handle n m α :=
  if counted then { h with readCounter := (h.readCounter + 1) % 2 ^ 16 } else h

def countWrite (h : Handle n m α) (counted : Bool) : Handle n m α :=
  if counted then { h with writeCounter := (h.writeCounter + 1) % 2 ^ 16 } else h

/-- The end of a reader's acquisition: `downgrade` of the local latch. -/
def enterShared (h : Handle n m α) : Handle n m α :=
  { h with status := .shared, readers := 1, owner := none }

def enterExclusive (h : Handle n m α) (queue : ℕ) : Handle n m α :=
  { h with status := .exclusive, owner := some ⟨queue, .inside false⟩ }

variable (self : Slot n m)

/-- `process_buffered_inv_message`. -/
def processBufferedInvMessage (queue : ℕ) (h : Handle n m α) :
    Handle n m α × List (Effect n m α) :=
  match h.status with
  | .shared =>
      ((h.setStatus .invalid).clearPendingInvStates,
        [.post ⟨(self.1, queue), .fetchAdd (.release self.1 .shared)⟩])
  | .exclusive =>
      match h.urging, h.buffered with
      | 1, some ⟨call, _, .readerInvalidateModified⟩ =>
          -- the page goes to the reader before the write-back and the FAA are posted
          ((h.setStatus .shared).clearPendingInvStates,
            [.reply ⟨call, .readerInvalidateModified, .page .shared h.data⟩,
              .post ⟨(self.1, queue), .writePage h.data⟩,
              .post ⟨(self.1, queue), .fetchAdd (.downgrade self.1 call.slot.1)⟩])
      | 2, some ⟨call, _, .writerInvalidateModified⟩ =>
          ((h.setStatus .invalid).clearPendingInvStates,
            [.post ⟨(self.1, queue), .fetchAdd (.handover self.1 call.slot.1)⟩,
              .reply ⟨call, .writerInvalidateModified, .page .exclusive h.data⟩])
      | _, _ => (h.clearPendingInvStates, [.impossible])
  | .invalid => (h.clearPendingInvStates, [.impossible])

/-- `drop_buffered_inv_message`, where a message is buffered. -/
def dropBufferedInvMessage (h : Handle n m α) : List (Effect n m α) :=
  match h.buffered with
  | some message => [.reply ⟨message.call, message.command, .dropped⟩]
  | none => []

def decline (request : Request n m) : List (Effect n m α) :=
  if request.needsReply then [.reply ⟨request.call, request.command, .dropped⟩] else []

/-- The reply `processed`; the page forward carries it where there is one. -/
def acknowledge (request : Request n m) : List (Effect n m α) :=
  if request.command = .writerInvalidateShared then
    [.reply ⟨request.call, request.command, .invalidated⟩]
  else []

/-- A reference of `LookupInsert` or `Lookup` is out.  The handlers of
`writer_invalidate_shared` and `reader_invalidate_modified` give theirs back before they process
the message. -/
def referenced (h : Handle n m α) : Bool :=
  0 < h.readers || 0 < h.upgrading || 0 < h.leaving || !h.handlers.isEmpty ||
    h.invHolder.isSome ||
    match h.owner with
    | none => false
    | some ⟨_, .handler request .process⟩ => request.command == .writerInvalidateModified
    | some _ => true

def idle (h : Handle n m α) : Bool :=
  h.latchFree && h.upgrading == 0 && h.leaving == 0 && h.handlers.isEmpty && h.invHolder.isNone

/-- The handler of a request after `try_lock`. -/
def accept (h : Handle n m α) (request : Request n m) (locked : Option ℕ) :
    Option (Handle n m α) :=
  match locked with
  | some queue => if h.latchFree then some (h.setOp queue (.handler request .check)) else none
  | none => some { h with handlers := h.handlers ++ [request] }

def arrive (h : Handle n m α) (reply : Reply n m α) : Handle n m α :=
  match reply.command, reply.body, h.owner with
  | .writerInvalidateShared, _, some ⟨queue, .acquire goal (.rpcShared numbers)⟩ =>
      h.setOp queue (.acquire goal (.rpcShared (numbers.erase reply.call.number)))
  | .writerInvalidateShared, _, _ => h
  | _, .page _ content, some ⟨queue, .acquire goal (.rpc target number _)⟩ =>
      { h with data := content }.setOp queue (.acquire goal (.rpc target number .processed))
  | _, .page _ content, _ => { h with data := content }
  | _, _, some ⟨queue, .acquire goal (.rpc target number _)⟩ =>
      h.setOp queue (.acquire goal (.rpc target number .dropped))
  | _, _, _ => h

/-- The reply `pending`, which the handler writes before it lets go of `buffered_inv_mtx`. -/
def arrivePending (h : Handle n m α) : Handle n m α :=
  match h.owner with
  | some ⟨queue, .acquire goal (.rpc target number _)⟩ =>
      h.setOp queue (.acquire goal (.rpc target number .pending))
  | _ => h

def handlerCheck (h : Handle n m α) (queue : ℕ) (request : Request n m) :
    Option (Handle n m α × List (Effect n m α)) :=
  match request.command with
  | .writerInvalidateShared =>
      if h.invHolder.isSome then none
      else if h.status = .shared then
        some ((h.setStates request).setOp queue (.handler request .process), [])
      else some (h.unlock, decline request)
  | _ =>
      if request.reminder then
        if h.buffered.isSome then some (h.setOp queue (.handler request .process), [])
        else some (h.unlock, [])
      else if h.invHolder.isSome then none
      else if h.starvationPriority ≤ request.starvation then
        if h.status = .exclusive then
          some ((h.setStates request).setOp queue (.handler request .process),
            h.dropBufferedInvMessage)
        else some (h.unlock, decline request)
      else
        let (after, effects) := h.processBufferedInvMessage self queue
        some (after.unlock, effects ++ decline request)

/-- The handler that did not get the local latch, inside `buffered_inv_mtx`. -/
def bufferEnd (h : Handle n m α) (request : Request n m) :
    Handle n m α × List (Effect n m α) :=
  let left := { h with invHolder := none }
  match request.command with
  | .writerInvalidateShared =>
      ((if h.buffered.isSome then left else left.setStates request), decline request)
  | _ =>
      if request.reminder then
        match h.buffered with
        | some message =>
            ((if message.call.slot.1 = request.call.slot.1 then left.setStates request else left),
              [])
        | none => (left, [])
      else if h.starvationPriority < request.starvation then
        (left.setStates request,
          h.dropBufferedInvMessage ++ [.pending request.call request.command])
      else (left, decline request)

def releaseLatch (queue : ℕ) (h : Handle n m α) : List (Effect n m α) :=
  match h.status with
  | .shared => [.post ⟨(self.1, queue), .fetchAdd (.release self.1 .shared)⟩]
  | .exclusive =>
      [.post ⟨(self.1, queue), .writePage h.data⟩,
        .post ⟨(self.1, queue), .fetchAdd (.release self.1 .exclusive)⟩]
  | .invalid => []

/-- `Deallocate_MR_WITH_CCP`. -/
def deallocate (queue : ℕ) (h : Handle n m α) :
    Handle n m α × List (Effect n m α) :=
  let (processed, effects) :=
    if h.buffered.isSome then h.processBufferedInvMessage self queue else (h, [])
  ({ (processed.setStatus .invalid).clearPendingInvStates with placement := .free },
    effects ++ processed.releaseLatch self queue)

/-- The requests of one round of `Writer_Invalidate_Shared_RPC`. -/
def sharedRequests (calls starvation : ℕ) (holders : List (Fin n)) :
    List (Fin n × Request n m) :=
  (holders.filter (· ≠ self.1)).zipIdx.map fun (holder, i) =>
    (holder, ⟨⟨self, calls + i⟩, .writerInvalidateShared, starvation, false⟩)

def callNumbers (requests : List (Fin n × Request n m)) : List ℕ :=
  requests.map fun sent => sent.2.call.number

/-- The local latch of an exclusive access: `try_upgrade` of the only reader, the `lock` after
`unlock_shared` in `upgrade_pre_access`, or a plain `lock`. -/
def writerLatch (h : Handle n m α) : Access → Option (Handle n m α)
  | .tryUpgrade => if h.readers = 1 ∧ h.owner = none then some { h with readers := 0 } else none
  | .upgrade =>
      if h.latchFree ∧ 0 < h.upgrading then some { h with upgrading := h.upgrading - 1 } else none
  | _ => if h.latchFree ∧ h.placement = .table then some h else none

def startWriter (h : Handle n m α) (queue : ℕ) (access : Access) : Handle n m α :=
  match h.status with
  | .invalid => h.setOp queue (.acquire (.writer access) (.retry .nothing))
  | .shared => h.setOp queue (.upgrade access .cas)
  | .exclusive => h.setOp queue (.inside false)

/-- `clear_pending_inv_states` where a message is buffered. -/
def clearBuffered (h : Handle n m α) : Handle n m α :=
  if h.buffered.isSome then h.clearPendingInvStates else h

/-- One action of a thread on the handle at `self`. -/
def act (remote : Remote α) (h : Handle n m α) :
    Action α → Option (Handle n m α × List (Effect n m α))
  | .readerHit counted =>
      if h.placement = .table ∧ h.owner = none ∧ h.status ≠ .invalid then
        some ({ h with readers := h.readers + 1 }.countRead counted, [])
      else none
  | .readerMiss queue tries counted =>
      if h.placement = .table ∧ h.latchFree ∧ h.status = .invalid then
        some ((h.countRead counted).setOp queue (.acquire (.reader tries) (.retry .nothing)), [])
      else none
  | .unlockShared =>
      if 0 < h.readers then
        some ({ h with readers := h.readers - 1, upgrading := h.upgrading + 1 }, [])
      else none
  | .writerLock queue access counted =>
      (h.writerLatch access).map fun h => ((h.countWrite counted).startWriter queue access, [])
  | .rlockFaa =>
      match h.owner with
      | some ⟨queue, .acquire (.reader tries) (.retry _)⟩ =>
          some (h.setOp queue (.acquire (.reader tries) (.read remote.word)),
            [.add self.1 (sharedBit self.1)])
      | _ => none
  | .rlockRead =>
      match h.owner with
      | some ⟨queue, .acquire (.reader tries) (.read old)⟩ =>
          let h := { h with data := remote.memory }
          if writeByte old < 100 then some (h.enterShared, [])
          else some (h.setOp queue (.acquire (.reader tries) (.retract old)), [])
      | _ => none
  | .rlockRetract =>
      match h.owner with
      | some ⟨queue, .acquire (.reader tries) (.retract old)⟩ =>
          some (h.setOp queue (.acquire (.reader tries) (.retry (rlockTarget self.1 old))),
            [.add self.1 (-sharedBit self.1)])
      | _ => none
  | .wlockCas =>
      match h.owner with
      | some ⟨queue, .acquire (.writer access) (.retry _)⟩ =>
          some (h.setOp queue (.acquire (.writer access) (.read remote.word)),
            if remote.word = 0 then [.add self.1 (exclusiveByte self.1)] else [])
      | _ => none
  | .wlockRead =>
      match h.owner with
      | some ⟨queue, .acquire (.writer access) (.read old)⟩ =>
          -- writer_pre_access takes the latch without reading the page
          let h := if access = .writer then h else { h with data := remote.memory }
          match wlockOutcome self.1 old with
          | none => some (h.enterExclusive queue, [])
          | some targets => some (h.setOp queue (.acquire (.writer access) (.retry targets)), [])
      | _ => none
  | .giveUp =>
      match h.owner with
      | some ⟨_, .acquire goal (.retry _)⟩ => if goal.tries then some (h.unlock, []) else none
      | _ => none
  | .invalidateModified starvation =>
      match h.owner with
      | some ⟨queue, .acquire goal (.retry (.modified target))⟩ =>
          some ({ h with calls := h.calls + 1 }.setOp queue
              (.acquire goal (.rpc target h.calls .waiting)),
            [.send target ⟨⟨self, h.calls⟩, goal.command, starvation, false⟩])
      | _ => none
  | .invalidateShared starvation =>
      match h.owner with
      | some ⟨queue, .acquire goal (.retry (.shared holders))⟩ =>
          let requests := sharedRequests self h.calls starvation holders
          some ({ h with calls := h.calls + requests.length }.setOp queue
              (.acquire goal (.rpcShared (callNumbers requests))),
            requests.map fun sent => .send sent.1 sent.2)
      | _ => none
  | .remind starvation =>
      match h.owner with
      | some ⟨_, .acquire goal (.rpc target number .pending)⟩ =>
          some (h, [.send target ⟨⟨self, number⟩, goal.command, starvation, true⟩])
      | _ => none
  | .resume =>
      match h.owner with
      | some ⟨_, .acquire (.reader _) (.rpc _ _ .processed)⟩ => some (h.enterShared, [])
      | some ⟨queue, .acquire (.writer _) (.rpc _ _ .processed)⟩ =>
          some (h.enterExclusive queue, [])
      | some ⟨queue, .acquire goal (.rpc _ _ .dropped)⟩ =>
          some (h.setOp queue (.acquire goal (.retry .nothing)), [])
      | some ⟨queue, .acquire goal (.rpcShared [])⟩ =>
          some (h.setOp queue (.acquire goal (.retry .nothing)), [])
      | _ => none
  | .upgradeCas =>
      match h.owner with
      | some ⟨queue, .upgrade access .cas⟩ =>
          if remote.word = sharedBit self.1 then
            some (h.setOp queue (.upgrade access .won),
              [.add self.1 (exclusiveByte self.1 - sharedBit self.1)])
          else some (h.setOp queue (.upgrade access .lost), [])
      | _ => none
  | .upgradeWon =>
      match h.owner with
      | some ⟨queue, .upgrade _ .won⟩ =>
          if h.invHolder.isSome then none
          else some (h.clearBuffered.enterExclusive queue, [])
      | _ => none
  | .upgradeUnlock =>
      match h.owner with
      | some ⟨queue, .upgrade access .lost⟩ =>
          some ((h.setStatus .invalid).setOp queue (.upgrade access .released),
            [.add self.1 (-sharedBit self.1)])
      | _ => none
  | .upgradeLost =>
      match h.owner with
      | some ⟨queue, .upgrade access .released⟩ =>
          if access.clears then
            if h.invHolder.isSome then none
            else if access.tries then some (h.clearBuffered.unlock, [])
            else some
              (h.clearBuffered.setOp queue (.acquire (.writer access) (.retry .nothing)), [])
          else some (h.setOp queue (.acquire (.writer access) (.retry .nothing)), [])
      | _ => none
  | .modify content =>
      match h.owner with
      | some ⟨queue, .inside _⟩ => some ({ h with data := content }.setOp queue (.inside true), [])
      | _ => none
  | .writerPost =>
      match h.owner with
      | some ⟨queue, .inside _⟩ =>
          some (if h.mustProcess then h.setOp queue .post else h.unlock, [.finish h.data])
      | _ => none
  | .readerPost =>
      if 0 < h.readers then
        let h := { h with readers := h.readers - 1 }
        some (if h.mustProcess then { h with leaving := h.leaving + 1 } else h, [])
      else none
  | .readerPostLock queue =>
      if 0 < h.leaving ∧ h.latchFree then
        let h := { h with leaving := h.leaving - 1 }
        some (if h.mustProcess then h.setOp queue .post else h, [])
      else none
  | .postProcess =>
      match h.owner with
      | some ⟨queue, .post⟩ =>
          if h.invHolder.isSome then none
          else
            let (after, effects) := h.processBufferedInvMessage self queue
            some (after.unlock, effects)
      | _ => none
  | .handlerCheck =>
      match h.owner with
      | some ⟨queue, .handler request .check⟩ => h.handlerCheck self queue request
      | _ => none
  | .handlerProcess =>
      match h.owner with
      | some ⟨queue, .handler request .process⟩ =>
          if h.invHolder.isSome then none
          else
            let (after, effects) := h.processBufferedInvMessage self queue
            some (after.unlock, effects ++ acknowledge request)
      | _ => none
  | .bufferSkip index =>
      match h.handlers[index]? with
      | some request =>
          if h.status = request.command.status then none
          else some ({ h with handlers := h.handlers.eraseIdx index }, decline request)
      | none => none
  | .bufferBegin index =>
      match h.handlers[index]? with
      | some request =>
          if h.status = request.command.status ∧ h.invHolder = none then
            some ({ h with
              handlers := h.handlers.eraseIdx index
              invHolder := some request }, [])
          else none
      | none => none
  | .bufferEnd =>
      match h.invHolder with
      | some request => some (h.bufferEnd request)
      | none => none
  | .evict =>
      if h.placement = .table ∧ h.referenced = false then
        some ({ h with placement := .victim }, [])
      else none
  | .deallocate queue =>
      if h.placement = .victim then some (h.deallocate self queue) else none

end Handle

end MemoryEngine.Selcc
