import MemoryEngine.Selcc.BufferedMessage
import MemoryEngine.Library.TokenFlow
import Mathlib.Algebra.BigOperators.Group.Multiset.Basic

/-! The requests that a handle waits for and the requests that it has to answer.

An action keeps account of both: what it sends is waited for, and what it has to answer stays or
is answered. -/
namespace MemoryEngine.Selcc

open List Option

variable {n m : ℕ} {α : Type}

def Request.owed (request : Request n m) : Multiset (Ticket n m) :=
  if request.needsReply then {request.ticket} else 0

/-- A `writer_invalidate_shared` that is buffered has been answered. -/
def PendingPageForward.owed (message : PendingPageForward n m) : Multiset (Ticket n m) :=
  if message.command = .writerInvalidateShared then 0 else {(message.call, message.command)}

/-- What the owner of the local latch has to answer itself: the handler of a modified page leaves
its request in the buffer. -/
def Op.owed : Op n m → Multiset (Ticket n m)
  | .handler request .check => request.owed
  | .handler request .process =>
      if request.command = .writerInvalidateShared then {request.ticket} else 0
  | _ => 0

def Op.awaited (self : Slot n m) : Op n m → Multiset (Ticket n m)
  | .acquire goal (.rpc _ number .waiting) => {(⟨self, number⟩, goal.command)}
  | .acquire goal (.rpc _ number .pending) => {(⟨self, number⟩, goal.command)}
  | .acquire _ (.rpcShared numbers) =>
      numbers.map fun number => ((⟨self, number⟩ : Call n m), InvCommand.writerInvalidateShared)
  | _ => 0

namespace Effect

def requested : Effect n m α → Multiset (Ticket n m)
  | .send _ request => request.owed
  | _ => 0

def answered : Effect n m α → Multiset (Ticket n m)
  | .reply given => {given.ticket}
  | _ => 0

/-- The reply that is given, `pending` included. -/
def answer : Effect n m α → Option (Answer n m)
  | .reply given => some ⟨given.ticket, true⟩
  | .pending call command => some ⟨(call, command), false⟩
  | _ => none

end Effect

def requested (effects : List (Effect n m α)) : Multiset (Ticket n m) :=
  (effects.map Effect.requested).sum

def answered (effects : List (Effect n m α)) : Multiset (Ticket n m) :=
  (effects.map Effect.answered).sum

section Effects

variable {effects others : List (Effect n m α)}

@[simp] theorem requested_nil : requested ([] : List (Effect n m α)) = 0 := rfl

@[simp] theorem answered_nil : answered ([] : List (Effect n m α)) = 0 := rfl

@[simp] theorem requested_cons (effect : Effect n m α) :
    requested (effect :: effects) = effect.requested + requested effects := by
  simp [requested]

@[simp] theorem answered_cons (effect : Effect n m α) :
    answered (effect :: effects) = effect.answered + answered effects := by
  simp [answered]

@[simp] theorem requested_append :
    requested (effects ++ others) = requested effects + requested others := by
  simp [requested]

@[simp] theorem answered_append :
    answered (effects ++ others) = answered effects + answered others := by
  simp [answered]

end Effects

def InvCommand.grants : InvCommand → Option Mode
  | .writerInvalidateShared => none
  | .readerInvalidateModified => some .shared
  | .writerInvalidateModified => some .exclusive

theorem Goal.command_ne_shared (goal : Goal) : goal.command ≠ .writerInvalidateShared := by
  cases goal <;> simp [Goal.command]

variable {reply : Reply n m α}

namespace Handle

def awaited (self : Slot n m) (h : Handle n m α) : Multiset (Ticket n m) :=
  h.owner.elim 0 fun owner => owner.op.awaited self

def owed (h : Handle n m α) : Multiset (Ticket n m) :=
  (h.owner.elim 0 fun owner => owner.op.owed) + h.buffered.elim 0 PendingPageForward.owed +
    (h.handlers.map Request.owed).sum + h.invHolder.elim 0 Request.owed

variable {self : Slot n m} {remote : Remote α} {h after : Handle n m α} {queue : ℕ}
  {action : Action α} {effects : List (Effect n m α)} {request : Request n m}

theorem owed_eq (h : Handle n m α) : h.owed =
    (h.owner.elim 0 fun owner => owner.op.owed) + h.buffered.elim 0 PendingPageForward.owed +
      (h.handlers.map Request.owed).sum + h.invHolder.elim 0 Request.owed := rfl

@[simp] theorem requested_decline : requested (decline request : List (Effect n m α)) = 0 := by
  unfold decline
  split_ifs <;> simp [Effect.requested]

@[simp] theorem answered_decline :
    answered (decline request : List (Effect n m α)) = request.owed := by
  unfold decline Request.owed
  split_ifs <;> simp [Effect.answered, Reply.ticket, Request.ticket]

@[simp] theorem requested_acknowledge :
    requested (acknowledge request : List (Effect n m α)) = 0 := by
  unfold acknowledge
  split_ifs <;> simp [Effect.requested]

@[simp] theorem answered_acknowledge : answered (acknowledge request : List (Effect n m α)) =
    if request.command = .writerInvalidateShared then {request.ticket} else 0 := by
  unfold acknowledge
  split_ifs <;> simp [Effect.answered, Reply.ticket, Request.ticket]

@[simp] theorem requested_drop : requested h.dropBufferedInvMessage = 0 := by
  unfold dropBufferedInvMessage
  split <;> simp [Effect.requested]

@[simp] theorem requested_process : requested (h.processBufferedInvMessage self queue).2 = 0 := by
  unfold processBufferedInvMessage
  split
  · simp [Effect.requested]
  · split <;> simp [Effect.requested]
  · simp [Effect.requested]

@[simp] theorem requested_releaseLatch : requested (h.releaseLatch self queue) = 0 := by
  unfold releaseLatch
  split <;> simp [Effect.requested]

@[simp] theorem answered_releaseLatch : answered (h.releaseLatch self queue) = 0 := by
  unfold releaseLatch
  split <;> simp [Effect.answered]

@[simp] theorem requested_deallocate : requested (h.deallocate self queue).2 = 0 := by
  unfold deallocate
  split_ifs <;> simp

theorem countRead_eq (counted : Bool) :
    ∃ counter, h.countRead counted = { h with readCounter := counter } := by
  unfold countRead
  split_ifs
  · exact ⟨_, rfl⟩
  · exact ⟨h.readCounter, rfl⟩

theorem countWrite_eq (counted : Bool) :
    ∃ counter, h.countWrite counted = { h with writeCounter := counter } := by
  unfold countWrite
  split_ifs
  · exact ⟨_, rfl⟩
  · exact ⟨h.writeCounter, rfl⟩

theorem startWriter_eq (access : Access) : ∃ op : Op n m,
    h.startWriter queue access = h.setOp queue op ∧ op.owed = 0 ∧ op.awaited self = 0 := by
  unfold startWriter
  split <;> exact ⟨_, rfl, rfl, rfl⟩

theorem clearBuffered_fields : h.clearBuffered.owner = h.owner ∧ h.clearBuffered.buffered = none ∧
    h.clearBuffered.handlers = h.handlers ∧ h.clearBuffered.invHolder = h.invHolder := by
  unfold clearBuffered
  split_ifs with hbuf
  · exact ⟨rfl, rfl, rfl, rfl⟩
  · exact ⟨rfl, by simpa using hbuf, rfl, rfl⟩

theorem deallocate_owner : (h.deallocate self queue).1.owner = h.owner := by
  rw [deallocate_fst]
  rfl

variable {calls starvation : ℕ} {holders : List (Fin n)}

theorem sharedRequests_spec
    {sent : Fin n × Request n m} (hsent : sent ∈ sharedRequests self calls starvation holders) :
    sent.2.ticket = (⟨self, sent.2.call.number⟩, .writerInvalidateShared) ∧
      sent.2.needsReply = true := by
  obtain ⟨⟨holder, i⟩, -, rfl⟩ := mem_map.1 hsent
  exact ⟨rfl, rfl⟩

theorem requested_sharedRequests :
    requested ((sharedRequests self calls starvation holders).map fun sent =>
      (.send sent.1 sent.2 : Effect n m α)) =
    ((callNumbers (sharedRequests self calls starvation holders)).map fun number =>
      ((⟨self, number⟩ : Call n m), InvCommand.writerInvalidateShared) :
        Multiset (Ticket n m)) := by
  have hspec : ∀ sent ∈ sharedRequests self calls starvation holders,
      Effect.requested (.send sent.1 sent.2 : Effect n m α) =
        {(⟨self, sent.2.call.number⟩, .writerInvalidateShared)} := by
    intro sent hsent
    obtain ⟨htick, hneeds⟩ := sharedRequests_spec hsent
    simp [Effect.requested, Request.owed, hneeds, htick]
  generalize sharedRequests self calls starvation holders = requests at hspec
  induction requests with
  | nil => rfl
  | cons sent requests ih =>
    have hrest := ih fun other hother => hspec other (mem_cons_of_mem _ hother)
    rw [map_cons, requested_cons, hspec sent mem_cons_self, hrest]
    rfl

theorem Acts.awaited (hact : Acts self remote h action after effects) :
    after.awaited self = h.awaited self + requested effects := by
  cases hact
  case readerHit counted _ _ _ =>
    obtain ⟨counter, hcount⟩ :=
      @countRead_eq n m α { h with readers := h.readers + 1 } counted
    rw [hcount]
    simp [Handle.awaited]
  case readerMiss counted _ howner _ _ => simp [Handle.awaited, setOp, howner, Op.awaited]
  case writerLock queue access counted upgrading howner _ _ _ =>
    obtain ⟨op, hstart, -, hawait⟩ := @startWriter_eq n m α self
      ({ h with readers := 0, upgrading := upgrading }.countWrite counted) queue access
    rw [hstart]
    simp [Handle.awaited, setOp, howner, hawait]
  case invalidateShared starvation queue goal holders howner =>
    rw [requested_sharedRequests]
    simp [Handle.awaited, setOp, howner, Op.awaited]
  case remind goal target number howner =>
    simp [Effect.requested, Request.owed, Request.needsReply, Goal.command_ne_shared]
  case upgradeWon howner _ =>
    simp [Handle.awaited, enterExclusive, howner, Op.awaited]
  case upgradeGivenUp howner _ _ _ => simp [Handle.awaited, unlock, howner, Op.awaited]
  case wlockCas howner =>
    split_ifs <;> simp [Handle.awaited, setOp, howner, Op.awaited, Effect.requested]
  case deallocate => simp [Handle.awaited, deallocate_owner]
  -- the owner is named in each other case
  all_goals simp [Handle.awaited, setOp, unlock, setStates, setStatus, enterShared, enterExclusive,
    Op.awaited, Effect.requested, Request.owed, Request.needsReply, Request.ticket, *]

section

variable (hc : h.Consistent)
include hc

theorem Consistent.clearing_of_exclusive (hstat : h.status = .exclusive) :
    h.clearing = false := by
  unfold clearing
  split
  case h_1 howner =>
    have hfits : h.status = .invalid := hc.fits _ howner
    cases hstat.symm.trans hfits
  case h_2 => rfl

theorem Consistent.exclusive_of_holder (hhold : h.invHolder = some request)
    (hcmd : request.command ≠ .writerInvalidateShared) : h.status = .exclusive := by
  rcases hc.holder request hhold with hstat | ⟨-, hshared⟩
  · rw [← hstat, InvCommand.status_of_modified hcmd]
  · exact absurd hshared hcmd

theorem Consistent.modified_of_exclusive (hstat : h.status = .exclusive)
    {message : PendingPageForward n m} (hmsg : h.buffered = some message) :
    message.command ≠ .writerInvalidateShared := by
  rcases (hc.matched (hc.clearing_of_exclusive hstat)).2.2 hstat message hmsg with
    hcmd | hcmd <;> simp [hcmd]

theorem Consistent.owed_of_shared (hstat : h.status = .shared)
    (hclear : h.clearing = false) : h.buffered.elim 0 PendingPageForward.owed = 0 := by
  cases hbuf : h.buffered with
  | none => rfl
  | some message =>
    have hcmd := (hc.matched hclear).2.1 hstat message hbuf
    simp [PendingPageForward.owed, hcmd]

theorem Consistent.owed_of_clearing (hstat : h.status = .invalid) :
    h.buffered.elim 0 PendingPageForward.owed = 0 := by
  cases hbuf : h.buffered with
  | none => rfl
  | some message =>
    rcases hc.message message hbuf with hcmd | ⟨-, hcmd⟩
    · exact absurd (hcmd.trans hstat) (InvCommand.status_ne_invalid _)
    · simp [PendingPageForward.owed, hcmd]

theorem Consistent.answered_drop (hstat : h.status = .exclusive) :
    answered h.dropBufferedInvMessage = h.buffered.elim 0 PendingPageForward.owed := by
  unfold dropBufferedInvMessage
  cases hbuf : h.buffered with
  | none => rfl
  | some message =>
    have hmodified := hc.modified_of_exclusive hstat hbuf
    simp [Effect.answered, Reply.ticket, PendingPageForward.owed, hmodified]

theorem Consistent.answered_process (hclear : h.clearing = false) (hbuf : h.buffered ≠ none) :
    answered (h.processBufferedInvMessage self queue).2 =
      h.buffered.elim 0 PendingPageForward.owed := by
  obtain ⟨message, hmsg⟩ := ne_none_iff_exists'.1 hbuf
  have hcmd := hc.message_status hclear hmsg
  have hurging : h.urging = message.command.urging := by rw [hc.urging, hmsg]; rfl
  obtain ⟨call, priority, command⟩ := message
  unfold processBufferedInvMessage
  cases hstat : h.status with
  | invalid => exact absurd (hcmd.trans hstat) (InvCommand.status_ne_invalid _)
  | shared =>
    rw [hc.owed_of_shared hstat hclear]
    simp [Effect.answered]
  | exclusive =>
    cases command <;> simp_all [InvCommand.status, InvCommand.urging, Effect.answered,
      Reply.ticket, PendingPageForward.owed]

end

theorem owed_processed (status : LockStatus) :
    ((h.setStatus status).clearPendingInvStates.unlock).owed =
      (h.handlers.map Request.owed).sum + h.invHolder.elim 0 Request.owed := by
  simp [Handle.owed, setStatus, clearPendingInvStates, unlock]

theorem Consistent.owed_process (self : Slot n m) (hc : h.Consistent) {op : Op n m}
    (howner : h.owner = some ⟨queue, op⟩) (hclear : h.clearing = false)
    (hbuf : h.buffered ≠ none) :
    h.owed = (h.processBufferedInvMessage self queue).1.unlock.owed +
      (answered (h.processBufferedInvMessage self queue).2 + op.owed) := by
  obtain ⟨status, hproc⟩ := @process_fst n m α self h queue
  rw [hproc, owed_processed, hc.answered_process hclear hbuf, owed_eq, howner]
  simp only [elim_some]
  abel

theorem answered_deallocate (hc : h.Consistent) (howner : h.owner = none) :
    answered (h.deallocate self queue).2 = h.buffered.elim 0 PendingPageForward.owed := by
  unfold deallocate
  split_ifs with hbuf
  · simp [hc.answered_process (clearing_of_free howner) (isSome_iff_ne_none.1 hbuf)]
  · have hnone : h.buffered = none := by simpa using hbuf
    simp [hnone]

theorem answered_sends (requests : List (Fin n × Request n m)) :
    answered (requests.map fun sent => (.send sent.1 sent.2 : Effect n m α)) = 0 := by
  induction requests with
  | nil => rfl
  | cons sent requests ih => simp [ih, Effect.answered]

theorem owed_of_cleared {owner : Owner n m} (howner : h.owner = some owner)
    (hop : owner.op.owed = 0) (hbuf : h.buffered.elim 0 PendingPageForward.owed = 0) :
    h.owed = (h.handlers.map Request.owed).sum + h.invHolder.elim 0 Request.owed := by
  rw [owed_eq, howner, hbuf]
  simp [hop]

theorem sum_owed_eraseIdx {index : ℕ} (hindex : h.handlers[index]? = some request) :
    (h.handlers.map Request.owed).sum =
      ((h.handlers.eraseIdx index).map Request.owed).sum + request.owed := by
  rw [add_comm, TokenFlow.sum_eraseIdx Request.owed hindex]

/-- A reminder in `buffered_inv_mtx` belongs to the message that it finds. -/
def reminds (h : Handle n m α) : Prop :=
  ∀ request message, h.invHolder = some request → request.reminder = true →
    request.command ≠ .writerInvalidateShared → h.buffered = some message →
    message.call.slot.1 = request.call.slot.1 → (message.call, message.command) = request.ticket

theorem owed_act (hc : h.Consistent) (hreminds : action = .bufferEnd → h.reminds)
    (hact : Acts self remote h action after effects) : h.owed = after.owed + answered effects := by
  cases hact
  case readerHit counted _ _ _ =>
    obtain ⟨counter, hcount⟩ :=
      @countRead_eq n m α { h with readers := h.readers + 1 } counted
    rw [hcount]
    simp [owed]
  case readerMiss counted _ howner _ _ =>
    obtain ⟨counter, hcount⟩ := @countRead_eq n m α h counted
    rw [hcount]
    simp [owed, setOp, howner, Op.owed]
  case writerLock queue access counted upgrading howner _ _ _ =>
    obtain ⟨counter, hcount⟩ :=
      @countWrite_eq n m α { h with readers := 0, upgrading := upgrading } counted
    obtain ⟨op, hstart, howed, -⟩ := @startWriter_eq n m α self
      ({ h with readers := 0, upgrading := upgrading }.countWrite counted) queue access
    rw [hstart, hcount]
    simp [owed, setOp, howner, howed]
  case invalidateShared howner =>
    rw [answered_sends]
    simp [owed, setOp, howner, Op.owed]
  case wlockCas howner =>
    split_ifs <;> simp [owed, setOp, howner, Op.owed, Effect.answered]
  case upgradeWon queue access howner _ =>
    have hclear : h.clearing = false := Consistent.clearing_of_owner howner (by simp)
    obtain ⟨-, hbuf, hhandlers, hhold⟩ := @clearBuffered_fields n m α h
    rw [owed_of_cleared howner rfl (hc.owed_of_shared (hc.fits _ howner) hclear)]
    simp [owed, enterExclusive, Op.owed, hbuf, hhandlers, hhold]
  case postProcess howner _ =>
    rw [hc.owed_process self howner (Consistent.clearing_of_owner howner (by simp))
      (hc.fits _ howner)]
    simp [Op.owed]
  case checkProcess request howner hcmd hrem hhold hbuf =>
    rw [hc.owed_process self howner (Consistent.clearing_of_owner howner (by simp)) hbuf]
    simp [Op.owed]
  case handlerProcess request howner _ =>
    rw [hc.owed_process self howner (Consistent.clearing_of_owner howner (by simp))
      (hc.fits _ howner)]
    simp [Op.owed]
  case checkShared request howner hcmd _ hstat =>
    have hbuf := hc.owed_of_shared hstat (Consistent.clearing_of_owner howner (by simp))
    simp [owed, setOp, setStates, howner, hbuf, Op.owed, Request.owed, PendingPageForward.owed,
      hcmd, needsReply_of_shared]
  case checkDeclined howner hneeds =>
    rw [answered_decline]
    simp only [owed, unlock, howner, elim_some, elim_none, Op.owed]
    abel
  case checkReminder request howner hcmd hrem _ =>
    simp [owed, setOp, howner, Op.owed, Request.owed, Request.needsReply, hcmd, hrem]
  case checkReminderIdle request howner hcmd hrem =>
    simp [owed, unlock, howner, Op.owed, Request.owed, Request.needsReply, hcmd, hrem]
  case checkModified request howner hcmd hrem _ hstat =>
    rw [hc.answered_drop hstat]
    simp only [owed, setOp, setStates, howner, elim_some, Op.owed, Request.owed,
      PendingPageForward.owed, needsReply_of_not_reminder hrem, if_neg hcmd, if_pos,
      Request.ticket]
    abel
  case bufferSkip index request hindex _ =>
    rw [answered_decline, owed_eq, sum_owed_eraseIdx hindex]
    simp only [owed]
    abel
  case bufferBegin index request hindex _ hhold =>
    rw [owed_eq, sum_owed_eraseIdx hindex, hhold]
    simp only [owed, elim_some, elim_none, answered_nil]
    abel
  case endShared request hhold hcmd hbuf =>
    simp [owed, setStates, hhold, hbuf, PendingPageForward.owed, hcmd]
  case endDeclined request hhold _ =>
    simp [owed, hhold]
  case endReminder request message hhold hcmd hrem hbuf hnode =>
    have hsame := hreminds rfl request message hhold hrem hcmd hbuf hnode
    have hcall : message.call = request.call := congrArg Prod.fst hsame
    have hmsg : message.command = request.command := congrArg Prod.snd hsame
    simp [owed, setStates, hhold, hbuf, PendingPageForward.owed, hcall, hmsg, hcmd,
      Request.owed, Request.needsReply, hrem]
  case endReminderIdle request hhold hcmd hrem =>
    simp [owed, hhold, Request.owed, Request.needsReply, hcmd, hrem]
  case endPending request hhold hcmd hrem =>
    rw [answered_append, hc.answered_drop (hc.exclusive_of_holder hhold hcmd)]
    simp only [owed, setStates, hhold, elim_some, elim_none, Request.owed,
      PendingPageForward.owed, needsReply_of_not_reminder hrem, if_neg hcmd, if_pos,
      Request.ticket, answered_cons, answered_nil, Effect.answered]
    abel
  case deallocate queue hvict =>
    obtain ⟨-, howner, -, -, hhandlers, hhold⟩ :=
      Consistent.idle_of_away hc (by simp [hvict])
    rw [deallocate_fst, answered_deallocate hc howner]
    simp [owed, setStatus, clearPendingInvStates, howner, hhandlers, hhold]
  case upgradeGivenUp howner hclears _ _ =>
    obtain ⟨-, hbuf, hhandlers, hhold⟩ := @clearBuffered_fields n m α h
    rw [owed_of_cleared howner rfl (hc.owed_of_clearing (hc.fits _ howner))]
    simp [owed, unlock, hbuf, hhandlers, hhold]
  case upgradeCleared howner hclears _ =>
    obtain ⟨-, hbuf, hhandlers, hhold⟩ := @clearBuffered_fields n m α h
    rw [owed_of_cleared howner rfl (hc.owed_of_clearing (hc.fits _ howner))]
    simp [owed, setOp, Op.owed, hbuf, hhandlers, hhold]
  all_goals simp [owed, setOp, unlock, setStatus, enterShared, enterExclusive, Op.owed,
    Effect.answered, *]

theorem callNumbers_sharedRequests :
    callNumbers (sharedRequests self calls starvation holders) =
      (List.range (sharedRequests self calls starvation holders).length).map (calls + ·) := by
  have hnums : callNumbers (sharedRequests self calls starvation holders) =
      ((holders.filter (· ≠ self.1)).zipIdx.map Prod.snd).map (calls + ·) := by
    unfold callNumbers sharedRequests
    rw [List.map_map, List.map_map]
    rfl
  rw [hnums, List.zipIdx_map_snd, List.range_eq_range']
  simp [sharedRequests]

theorem process_calls : (h.processBufferedInvMessage self queue).1.calls = h.calls := by
  obtain ⟨status, hproc⟩ := @process_fst n m α self h queue
  rw [hproc]
  rfl

theorem clearBuffered_calls : h.clearBuffered.calls = h.calls := by
  unfold clearBuffered
  split_ifs <;> rfl

theorem Acts.numbered (hact : Acts self remote h action after effects) :
    h.calls ≤ after.calls ∧ (requested effects).Nodup ∧
      ∀ ticket ∈ requested effects, ticket.1.slot = self ∧ h.calls ≤ ticket.1.number ∧
        ticket.1.number < after.calls := by
  have quiet : after.calls = h.calls → requested effects = 0 → h.calls ≤ after.calls ∧
      (requested effects).Nodup ∧ ∀ ticket ∈ requested effects, ticket.1.slot = self ∧
        h.calls ≤ ticket.1.number ∧ ticket.1.number < after.calls := by
    intro hcalls hrequested
    simp [hcalls, hrequested]
  cases hact
  case invalidateModified starvation queue goal target howner =>
    simp [setOp, Effect.requested, Request.owed, Request.needsReply, Request.ticket]
  case invalidateShared starvation queue goal holders howner =>
    rw [requested_sharedRequests, callNumbers_sharedRequests]
    generalize (sharedRequests self h.calls starvation holders).length = count
    refine ⟨Nat.le_add_right .., ?_, ?_⟩
    · refine Multiset.coe_nodup.2 (((List.nodup_range).map ?_).map ?_)
      · exact add_right_injective h.calls
      · intro i j hij
        simpa using hij
    · intro ticket htick
      simp only [Multiset.mem_coe, List.map_map, List.mem_map, List.mem_range,
        Function.comp_apply] at htick
      obtain ⟨i, hi, rfl⟩ := htick
      exact ⟨rfl, Nat.le_add_right .., Nat.add_lt_add_left hi _⟩
  case remind goal target number howner =>
    exact quiet rfl (by
      simp [Effect.requested, Request.owed, Request.needsReply, Goal.command_ne_shared])
  case wlockCas => exact quiet rfl (by split_ifs <;> simp [Effect.requested])
  case readerHit counted _ _ _ =>
    obtain ⟨counter, hcount⟩ :=
      @countRead_eq n m α { h with readers := h.readers + 1 } counted
    exact quiet (by rw [hcount]) rfl
  case readerMiss counted _ _ _ _ =>
    obtain ⟨counter, hcount⟩ := @countRead_eq n m α h counted
    exact quiet (by rw [hcount]; rfl) rfl
  case writerLock queue access counted upgrading _ _ _ _ =>
    obtain ⟨counter, hcount⟩ :=
      @countWrite_eq n m α { h with readers := 0, upgrading := upgrading } counted
    obtain ⟨op, hstart, -, -⟩ := @startWriter_eq n m α self
      ({ h with readers := 0, upgrading := upgrading }.countWrite counted) queue access
    exact quiet (by rw [hstart, hcount]; rfl) rfl
  case upgradeWon => exact quiet (clearBuffered_calls) rfl
  case upgradeGivenUp => exact quiet (clearBuffered_calls) rfl
  case upgradeCleared => exact quiet (clearBuffered_calls) rfl
  case deallocate => exact quiet (by rw [deallocate_fst]; rfl) requested_deallocate
  case postProcess => exact quiet process_calls (by simp)
  case checkProcess => exact quiet process_calls (by simp)
  case handlerProcess => exact quiet process_calls (by simp)
  all_goals exact quiet rfl (by simp [Effect.requested])

theorem decline_page (hreply : .reply reply ∈ decline request)
    (mode : Mode) (content : α) : reply.body ≠ .page mode content := by
  unfold decline at hreply
  split_ifs at hreply <;> simp at hreply
  simp [hreply]

theorem process_page (hreply : .reply reply ∈ (h.processBufferedInvMessage self queue).2) :
    ∃ mode, reply.command.grants = some mode ∧ reply.body = .page mode h.data := by
  unfold processBufferedInvMessage at hreply
  split at hreply
  · simp at hreply
  · split at hreply <;> simp at hreply
    · exact ⟨.shared, by simp [hreply, InvCommand.grants], by simp [hreply]⟩
    · exact ⟨.exclusive, by simp [hreply, InvCommand.grants], by simp [hreply]⟩
  · simp at hreply

theorem drop_page (hreply : .reply reply ∈ h.dropBufferedInvMessage)
    (mode : Mode) (content : α) : reply.body ≠ .page mode content := by
  unfold dropBufferedInvMessage at hreply
  split at hreply <;> simp at hreply
  simp [hreply]

theorem acknowledge_page (hreply : .reply reply ∈ acknowledge request)
    (mode : Mode) (content : α) : reply.body ≠ .page mode content := by
  unfold acknowledge at hreply
  split_ifs at hreply <;> simp at hreply
  simp [hreply]

theorem releaseLatch_page : .reply reply ∉ h.releaseLatch self queue := by
  unfold releaseLatch
  split <;> simp

theorem Acts.page_of_process (hact : Acts self remote h action after effects)
    (hreply : .reply reply ∈ effects) {mode : Mode} {content : α}
    (hpage : reply.body = .page mode content) :
    ∃ queue, .reply reply ∈ (h.processBufferedInvMessage self queue).2 := by
  cases hact
  case checkDeclined => exact absurd hpage (decline_page hreply mode content)
  case bufferSkip => exact absurd hpage (decline_page hreply mode content)
  case endShared => exact absurd hpage (decline_page hreply mode content)
  case endDeclined => exact absurd hpage (decline_page hreply mode content)
  case checkModified => exact absurd hpage (drop_page hreply mode content)
  case endPending =>
    rcases mem_append.1 hreply with hdrop | hpend
    · exact absurd hpage (drop_page hdrop mode content)
    · simp at hpend
  case postProcess queue _ _ => exact ⟨queue, hreply⟩
  case checkProcess queue _ _ _ _ _ _ =>
    rcases mem_append.1 hreply with hproc | hdecline
    · exact ⟨queue, hproc⟩
    · exact absurd hpage (decline_page hdecline mode content)
  case handlerProcess queue _ _ _ =>
    rcases mem_append.1 hreply with hproc | hacknowledge
    · exact ⟨queue, hproc⟩
    · exact absurd hpage (acknowledge_page hacknowledge mode content)
  case deallocate queue _ =>
    unfold Handle.deallocate at hreply
    rcases mem_append.1 hreply with hproc | hrel
    · split_ifs at hproc
      · exact ⟨queue, hproc⟩
      · cases hproc
    · exact absurd hrel releaseLatch_page
  case wlockCas => split_ifs at hreply <;> simp at hreply
  all_goals simp at hreply

theorem Acts.page_mode (hact : Acts self remote h action after effects)
    (hreply : .reply reply ∈ effects) {mode : Mode} {content : α}
    (hpage : reply.body = .page mode content) :
    reply.command.grants = some mode ∧ content = h.data := by
  obtain ⟨queue, hproc⟩ := hact.page_of_process hreply hpage
  obtain ⟨granted, hgrants, hbody⟩ := process_page hproc
  obtain ⟨rfl, rfl⟩ := Body.page.inj (hpage.symm.trans hbody)
  exact ⟨hgrants, rfl⟩

end Handle

end MemoryEngine.Selcc
