import MemoryEngine.Selcc.CacheHandle
import MemoryEngine.Library.TransitionSystem
import Mathlib.Algebra.Group.Pi.Basic

/-! The compute nodes of a cluster on one page.

The memory node has the latch word and the page; every node has some cache handles.  On the way
are the operations of each queue pair to the memory node, in the order in which they were
posted, the invalidation requests and the replies.  The last four fields are not part of the
system: they record what was added to the latch word for each node, the requests sent, the replies
given and the page as the last finished exclusive access left it. -/
namespace MemoryEngine.Selcc

variable {n m : ℕ} {α : Type}

abbrev Ticket (n m : ℕ) := Call n m × InvCommand

def Request.ticket (request : Request n m) : Ticket n m := (request.call, request.command)

def Reply.ticket (reply : Reply n m α) : Ticket n m := (reply.call, reply.command)

/-- A reply as it was given: `pending`, or one of the terminal ones. -/
structure Answer (n m : ℕ) where
  ticket : Ticket n m
  terminal : Bool

/-- What each node has in a latch word. -/
abbrev Shares (n : ℕ) := Fin n → Word

def share (node : Fin n) (mode : Mode) : Shares n := Pi.single node (contribution node mode)

/-- A hand-over takes the byte of one node and adds that of the next. -/
def LatchMove.shares : LatchMove n → Shares n
  | .release node mode => -share node mode
  | .handover source next => share next .exclusive - share source .exclusive
  | .downgrade source next =>
      share source .shared + share next .shared - share source .exclusive

structure Cluster (n m : ℕ) (α : Type) where
  word : Word
  memory : α
  handles : Slot n m → Handle n m α
  posted : List (Posted n α)
  requests : List (Fin n × Request n m)
  replies : List (Reply n m α)
  shares : Shares n
  sent : List (Ticket n m)
  answers : List (Answer n m)
  last : α

inductive Event (n m : ℕ) (α : Type) where
  | thread (slot : Slot n m) (action : Action α)
  | lookupInsert (slot : Slot n m)
  | receive (index : ℕ) (found : Option (Fin m)) (locked : Option ℕ)
  | arrive (index : ℕ)
  | execute (index : ℕ)
  | reuse (slot : Slot n m) (content : α)

namespace Event

/-- The actions of one thread after the other. -/
def acts (slot : Slot n m) (actions : List (Action α)) : List (Event n m α) :=
  actions.map (.thread slot)

/-- A request is stored into the buffer of the handle. -/
def buffers (index : ℕ) (slot : Slot n m) [NeZero m] : List (Event n m α) :=
  .receive index (some 0) none :: acts slot [.bufferBegin 0, .bufferEnd]

/-- A request is processed by its handler. -/
def serves (index : ℕ) (slot : Slot n m) [NeZero m] : List (Event n m α) :=
  .receive index (some 0) (some 1) :: acts slot [.handlerCheck, .handlerProcess]

def reads : List (Action α) := [.readerMiss 0 false false, .rlockFaa, .rlockRead]

def writes : List (Action α) := [.writerLock 0 .updater false, .wlockCas, .wlockRead]

end Event

namespace Cluster

def start (content : α) (data : Slot n m → α) : Cluster n m α where
  word := 0
  memory := content
  handles slot := .fresh (data slot)
  posted := []
  requests := []
  replies := []
  shares := 0
  sent := []
  answers := []
  last := content

variable (c : Cluster n m α)

def setHandle (slot : Slot n m) (h : Handle n m α) : Cluster n m α :=
  { c with handles := Function.update c.handles slot h }

def apply : Effect n m α → Cluster n m α
  | .add node delta =>
      { c with word := c.word + delta, shares := c.shares + Pi.single node delta }
  | .post operation => { c with posted := c.posted ++ [operation] }
  | .send target request =>
      { c with
        requests := c.requests ++ [(target, request)]
        sent := if request.needsReply then c.sent ++ [request.ticket] else c.sent }
  | .reply reply =>
      { c with
        replies := c.replies ++ [reply]
        answers := c.answers ++ [⟨reply.ticket, true⟩] }
  | .pending call command =>
      { c.setHandle call.slot (c.handles call.slot).arrivePending with
        answers := c.answers ++ [⟨(call, command), false⟩] }
  | .finish content => { c with last := content }
  | .impossible => c

def applyAll (effects : List (Effect n m α)) : Cluster n m α :=
  effects.foldl apply c

/-- The operations that the thread posted earlier on its queue pair are all executed. -/
def drained (slot : Slot n m) : Bool :=
  match (c.handles slot).owner with
  | some owner => c.posted.all fun operation => operation.queue ≠ (slot.1, owner.queue)
  | none => true

/-- The NIC of the memory node executes one operation. -/
def perform : Work n α → Cluster n m α
  | .writePage content => { c with memory := content }
  | .fetchAdd move =>
      { c with word := c.word + move.delta, shares := c.shares + move.shares }

def notInTable (node : Fin n) : Prop :=
  ∀ position, (c.handles (node, position)).placement ≠ .table

instance (c : Cluster n m α) (node : Fin n) : Decidable (c.notInTable node) :=
  inferInstanceAs (Decidable (∀ position, (c.handles (node, position)).placement ≠ .table))

def step : Event n m α → Option (Cluster n m α)
  | .thread slot action =>
      if action.synchronous && !c.drained slot then none
      else ((c.handles slot).act slot ⟨c.word, c.memory⟩ action).map fun result =>
        (c.setHandle slot result.1).applyAll result.2
  | .lookupInsert slot =>
      if c.notInTable slot.1 ∧ (c.handles slot).placement = .free then
        some (c.setHandle slot { c.handles slot with placement := .table })
      else none
  | .receive index found locked =>
      match c.requests[index]? with
      | some (target, request) =>
          let c := { c with requests := c.requests.eraseIdx index }
          match found with
          | some position =>
              let h := c.handles (target, position)
              if h.placement = .table then
                (h.accept request locked).map (c.setHandle (target, position))
              else none
          | none =>
              -- no handle in the table: the request is declined at once
              if c.notInTable target then some (c.applyAll (Handle.decline request)) else none
      | none => none
  | .arrive index =>
      match c.replies[index]? with
      | some reply =>
          some ({ c with replies := c.replies.eraseIdx index }.setHandle reply.call.slot
            ((c.handles reply.call.slot).arrive reply))
      | none => none
  | .execute index =>
      match c.posted[index]? with
      | some operation =>
          if (c.posted.take index).all fun earlier => earlier.queue ≠ operation.queue then
            some ({ c with posted := c.posted.eraseIdx index }.perform operation.work)
          else none
      | none => none
  | .reuse slot content =>
      -- the buffer of a handle that is used for another page
      if (c.handles slot).placement = .free then
        some (c.setHandle slot { c.handles slot with data := content })
      else none

end Cluster

end MemoryEngine.Selcc
