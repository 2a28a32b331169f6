import MemoryEngine.Selcc.Tickets
import Mathlib.Algebra.BigOperators.Group.Finset.Basic
import Mathlib.Data.Fintype.Prod

/-! Invalidation requests and their replies.

The requests that some acquisition waits for are those on their way, those that some handle has
to answer, and those whose reply is on its way. -/
namespace MemoryEngine.Selcc

open List Option

variable {n m : ℕ} {α : Type}

def PendingPageForward.ticket (message : PendingPageForward n m) : Ticket n m :=
  (message.call, message.command)

def Reply.forwards (reply : Reply n m α) (mode : Mode) : Bool :=
  match reply.body with
  | .page granted _ => granted = mode
  | _ => false

variable {reply : Reply n m α} {request : Request n m} {index : ℕ}

namespace Handle

variable {self : Slot n m} {h : Handle n m α} {ticket : Ticket n m}

section

variable (htick : ticket ∈ h.awaited self)
include htick

theorem awaited_modified (hcmd : ticket.2 ≠ .writerInvalidateShared) :
    ∃ queue goal target number flag,
      h.owner = some ⟨queue, .acquire goal (.rpc target number flag)⟩ ∧
      (flag = .waiting ∨ flag = .pending) ∧ ticket = (⟨self, number⟩, goal.command) := by
  cases howner : h.owner with
  | none => simp [awaited, howner] at htick
  | some owner =>
    obtain ⟨queue, op⟩ := owner
    simp only [awaited, howner, Option.elim_some] at htick
    unfold Op.awaited at htick
    split at htick
    case h_1 goal target number =>
      exact ⟨queue, goal, target, number, .waiting, rfl, .inl rfl, Multiset.mem_singleton.1 htick⟩
    case h_2 goal target number =>
      exact ⟨queue, goal, target, number, .pending, rfl, .inr rfl, Multiset.mem_singleton.1 htick⟩
    case h_3 goal numbers =>
      simp only [Multiset.mem_coe, List.mem_map] at htick
      obtain ⟨number, -, rfl⟩ := htick
      exact absurd rfl hcmd
    case h_4 => simp at htick

theorem awaited_shared (hcmd : ticket.2 = .writerInvalidateShared) : ∃ queue goal numbers,
      h.owner = some ⟨queue, .acquire goal (.rpcShared numbers)⟩ ∧ ticket.1.slot = self ∧
      ticket.1.number ∈ numbers := by
  cases howner : h.owner with
  | none => simp [awaited, howner] at htick
  | some owner =>
    obtain ⟨queue, op⟩ := owner
    simp only [awaited, howner, Option.elim_some] at htick
    unfold Op.awaited at htick
    split at htick
    case h_1 goal target number =>
      rw [Multiset.mem_singleton.1 htick] at hcmd
      exact absurd hcmd goal.command_ne_shared
    case h_2 goal target number =>
      rw [Multiset.mem_singleton.1 htick] at hcmd
      exact absurd hcmd goal.command_ne_shared
    case h_3 goal numbers =>
      simp only [Multiset.mem_coe, List.mem_map] at htick
      obtain ⟨number, hnum, rfl⟩ := htick
      exact ⟨queue, goal, numbers, rfl, rfl, hnum⟩
    case h_4 => simp at htick

theorem awaited_owner : ticket.1.slot = self ∧
    ∃ queue goal phase, h.owner = some ⟨queue, .acquire goal phase⟩ := by
  by_cases hcmd : ticket.2 = .writerInvalidateShared
  · obtain ⟨queue, goal, numbers, howner, hslot, -⟩ := awaited_shared htick hcmd
    exact ⟨hslot, queue, goal, _, howner⟩
  · obtain ⟨queue, goal, target, number, flag, howner, -, rfl⟩ :=
      awaited_modified htick hcmd
    exact ⟨rfl, queue, goal, _, howner⟩

end

theorem awaited_arrive_modified (hreply : reply.ticket ∈ h.awaited self)
    (hcmd : reply.command ≠ .writerInvalidateShared) : (h.arrive reply).awaited self = 0 := by
  obtain ⟨queue, goal, target, number, flag, howner, -⟩ := awaited_modified hreply hcmd
  unfold arrive
  split <;> simp_all [awaited, setOp, Op.awaited]

theorem awaited_arrive (hreply : reply.ticket ∈ h.awaited self) :
    h.awaited self = (h.arrive reply).awaited self + {reply.ticket} := by
  by_cases hcmd : reply.command = .writerInvalidateShared
  · obtain ⟨queue, goal, numbers, howner, hslot, hnum⟩ := awaited_shared hreply hcmd
    have htick : reply.ticket =
        (⟨self, reply.call.number⟩, .writerInvalidateShared) := by
      rw [← hslot, ← hcmd]
      rfl
    have harrive : h.arrive reply = h.setOp queue
        (.acquire goal (.rpcShared (numbers.erase reply.call.number))) := by
      simp [arrive, hcmd, howner]
    rw [harrive, htick]
    simp only [awaited, setOp, howner, elim_some, Op.awaited]
    rw [add_comm, Multiset.singleton_add, Multiset.cons_coe, Multiset.coe_eq_coe]
    exact (perm_cons_erase hnum).map _
  · obtain ⟨queue, goal, target, number, flag, howner, hflag, htick⟩ :=
      awaited_modified hreply hcmd
    rw [awaited_arrive_modified hreply hcmd, htick, zero_add]
    rcases hflag with rfl | rfl <;> simp [awaited, howner, Op.awaited]

theorem owed_arrive (reply : Reply n m α) : (h.arrive reply).owed = h.owed := by
  unfold arrive
  split <;> simp_all [owed, setOp, Op.owed]

theorem owed_arrivePending : h.arrivePending.owed = h.owed := by
  unfold arrivePending
  split <;> simp_all [owed, setOp, Op.owed]

theorem arrive_calls (reply : Reply n m α) : (h.arrive reply).calls = h.calls := by
  unfold arrive
  split <;> rfl

theorem awaited_arrivePending (htick : ticket ∈ h.awaited self)
    (hcmd : ticket.2 ≠ .writerInvalidateShared) :
    h.arrivePending.awaited self = h.awaited self := by
  obtain ⟨queue, goal, target, number, flag, howner, hflag, -⟩ :=
    awaited_modified htick hcmd
  rcases hflag with rfl | rfl <;> simp [arrivePending, howner, awaited, setOp, Op.awaited]

theorem accept_flow {locked : Option ℕ} {accepted : Handle n m α}
    (hacpt : h.accept request locked = some accepted) :
    accepted.awaited self = h.awaited self ∧ accepted.owed = h.owed + request.owed ∧
      accepted.calls = h.calls ∧ accepted.placement = h.placement := by
  unfold accept at hacpt
  split at hacpt
  · split_ifs at hacpt with hfree
    cases hacpt
    have howner := (latchFree_iff.1 hfree).2
    refine ⟨by simp [awaited, setOp, howner, Op.awaited], ?_, rfl, rfl⟩
    simp only [owed, setOp, howner, elim_some, elim_none, Op.owed]
    abel
  · cases hacpt
    refine ⟨rfl, ?_, rfl, rfl⟩
    simp only [owed, map_append, map_cons, map_nil, sum_append,
      sum_singleton]
    abel

variable {remote : Remote α} {after : Handle n m α} {queue : ℕ} {action : Action α}
  {effects : List (Effect n m α)} {request : Request n m}

theorem prompt_decline : Cluster.prompt (decline request : List (Effect n m α)) := by
  unfold Cluster.prompt decline
  split_ifs <;> simp

theorem prompt_acknowledge : Cluster.prompt (acknowledge request : List (Effect n m α)) := by
  unfold Cluster.prompt acknowledge
  split_ifs <;> simp

theorem prompt_drop : Cluster.prompt h.dropBufferedInvMessage := by
  unfold Cluster.prompt dropBufferedInvMessage
  split <;> simp

theorem prompt_process : Cluster.prompt (h.processBufferedInvMessage self queue).2 := by
  unfold Cluster.prompt processBufferedInvMessage
  split
  · simp
  · split <;> simp
  · simp

theorem prompt_releaseLatch : Cluster.prompt (h.releaseLatch self queue) := by
  unfold Cluster.prompt releaseLatch
  split <;> simp

theorem prompt_append {others : List (Effect n m α)} (heffects : Cluster.prompt effects)
    (hothers : Cluster.prompt others) : Cluster.prompt (effects ++ others) := by
  intro effect heff
  rcases mem_append.1 heff with heff | heff
  · exact heffects effect heff
  · exact hothers effect heff

theorem prompt_deallocate : Cluster.prompt (h.deallocate self queue).2 := by
  unfold deallocate
  refine prompt_append ?_ prompt_releaseLatch
  split_ifs
  · exact prompt_process
  · simp [Cluster.prompt]

theorem Acts.prompt_or_pending (hact : Acts self remote h action after effects) :
    Cluster.prompt effects ∨ ∃ request, h.invHolder = some request ∧
      request.command ≠ .writerInvalidateShared ∧ request.reminder = false ∧
      effects = h.dropBufferedInvMessage ++ [.pending request.call request.command] ∧
      after = { h with invHolder := none }.setStates request := by
  cases hact
  case endPending request hhold hcmd hrem =>
    exact .inr ⟨request, hhold, hcmd, hrem, rfl, rfl⟩
  case postProcess => exact .inl prompt_process
  case checkProcess => exact .inl (prompt_append prompt_process prompt_decline)
  case handlerProcess => exact .inl (prompt_append prompt_process prompt_acknowledge)
  case deallocate => exact .inl prompt_deallocate
  case invalidateShared =>
    refine .inl fun effect heff => ?_
    obtain ⟨sent, -, rfl⟩ := mem_map.1 heff
    simp
  case checkDeclined => exact .inl prompt_decline
  case bufferSkip => exact .inl prompt_decline
  case endShared => exact .inl prompt_decline
  case endDeclined => exact .inl prompt_decline
  case checkModified => exact .inl prompt_drop
  case wlockCas => exact .inl (by split_ifs <;> simp [Cluster.prompt])
  all_goals exact .inl (by simp [Cluster.prompt])

theorem answers_decline :
    ((((decline request : List (Effect n m α)).filterMap Effect.answer).map Answer.ticket :
      List (Ticket n m)) : Multiset (Ticket n m)) = request.owed := by
  unfold decline Request.owed
  split_ifs <;> simp [Effect.answer, Reply.ticket, Request.ticket]

theorem answers_le (hc : h.Consistent) (hreminds : action = .bufferEnd → h.reminds)
    (hact : Acts self remote h action after effects) :
    (((effects.filterMap Effect.answer).map Answer.ticket : List (Ticket n m)) :
      Multiset (Ticket n m)) ≤ h.owed := by
  have terminal : ∀ {effects : List (Effect n m α)}, Cluster.prompt effects →
      (((effects.filterMap Effect.answer).map Answer.ticket : List (Ticket n m)) :
        Multiset (Ticket n m)) = answered effects := by
    intro effects hprompt
    induction effects with
    | nil => rfl
    | cons effect effects ih =>
      have hrest := ih fun other hother => hprompt other (mem_cons_of_mem _ hother)
      rw [answered_cons, ← hrest]
      cases effect
      case pending call command => exact absurd rfl (hprompt _ mem_cons_self call command)
      all_goals simp [filterMap_cons, Effect.answer, Effect.answered]
  rcases hact.prompt_or_pending with hprompt | ⟨request, hhold, hcmd, hrem, rfl, -⟩
  · rw [terminal hprompt, owed_act hc hreminds hact]
    exact Multiset.le_add_left ..
  · rw [filterMap_append, map_append, ← Multiset.coe_add, terminal prompt_drop,
      hc.answered_drop (hc.exclusive_of_holder hhold hcmd), owed_eq, hhold]
    simp only [Effect.answer, filterMap_cons, filterMap_nil, map_cons, map_nil,
      elim_some, Request.owed, needsReply_of_not_reminder hrem, if_pos,
      Multiset.coe_singleton, Request.ticket]
    rw [add_assoc, add_assoc]
    refine (Multiset.le_add_left _ _).trans' ?_
    exact add_le_add le_rfl (Multiset.le_add_left _ _)

end Handle

namespace Cluster

variable {c after : Cluster n m α} {event : Event n m α} {effects : List (Effect n m α)}
  {slot : Slot n m} {h : Handle n m α}

def waiting (c : Cluster n m α) : Multiset (Ticket n m) :=
  ∑ slot, (c.handles slot).awaited slot

def underway (c : Cluster n m α) : Multiset (Ticket n m) :=
  (c.requests.map fun sent => sent.2.owed).sum

def owed (c : Cluster n m α) : Multiset (Ticket n m) :=
  c.underway + ∑ slot, (c.handles slot).owed

def replied (c : Cluster n m α) : Multiset (Ticket n m) := c.replies.map Reply.ticket

def answered (c : Cluster n m α) : Multiset (Ticket n m) :=
  (c.answers.filter Answer.terminal).map Answer.ticket

theorem apply_flow (effect : Effect n m α) :
    (c.apply effect).underway = c.underway + effect.requested ∧
    (c.apply effect).replied = c.replied + effect.answered ∧
    (c.apply effect).answered = c.answered + effect.answered ∧
    ((c.apply effect).sent : Multiset (Ticket n m)) = c.sent + effect.requested ∧
    (c.apply effect).answers = c.answers ++ effect.answer.toList := by
  cases effect
  case send target request =>
    cases hneeds : request.needsReply <;>
      simp [apply, underway, replied, answered, Effect.requested, Effect.answered, Effect.answer,
        Request.owed, hneeds, ← Multiset.coe_add]
  all_goals
    simp [apply, underway, replied, answered, Effect.requested, Effect.answered, Effect.answer,
      setHandle, ← Multiset.coe_add]

theorem applyAll_flow : (c.applyAll effects).underway = c.underway + requested effects ∧
    (c.applyAll effects).replied = c.replied + Selcc.answered effects ∧
    (c.applyAll effects).answered = c.answered + Selcc.answered effects ∧
    ((c.applyAll effects).sent : Multiset (Ticket n m)) = c.sent + requested effects ∧
    (c.applyAll effects).answers = c.answers ++ effects.filterMap Effect.answer := by
  induction effects generalizing c with
  | nil => simp [applyAll]
  | cons effect effects ih =>
    obtain ⟨h1, h2, h3, h4, h5⟩ := @apply_flow n m α c effect
    obtain ⟨i1, i2, i3, i4, i5⟩ := @ih (c.apply effect)
    rw [show c.applyAll (effect :: effects) = (c.apply effect).applyAll effects from rfl]
    refine ⟨?_, ?_, ?_, ?_, ?_⟩
    · rw [i1, h1, requested_cons, add_assoc]
    · rw [i2, h2, answered_cons, add_assoc]
    · rw [i3, h3, answered_cons, add_assoc]
    · rw [i4, h4, requested_cons, add_assoc]
    · rw [i5, h5]
      cases hanswer : effect.answer <;> simp [hanswer]

/-- Every request is accounted for: what is waited for is owed or has its reply on the way, what
was sent is owed or answered. -/
structure Flow (c : Cluster n m α) : Prop where
  waiting : c.waiting = c.owed + c.replied
  sent : (c.sent : Multiset (Ticket n m)) = c.owed + c.answered

theorem waiting_setHandle : (c.setHandle slot h).waiting + (c.handles slot).awaited slot =
    c.waiting + h.awaited slot :=
  TokenFlow.sum_update (fun slot (h : Handle n m α) => h.awaited slot) c.handles slot h

theorem owed_setHandle : (c.setHandle slot h).owed + (c.handles slot).owed = c.owed + h.owed := by
  have hsum := TokenFlow.sum_update (fun _ (h : Handle n m α) => h.owed) c.handles slot h
  unfold owed underway
  rw [add_assoc, add_assoc, ← hsum]
  rfl

namespace Flow

theorem start (content : α) (data : Slot n m → α) : (start content data).Flow where
  waiting := by
    simp [Cluster.waiting, Cluster.owed, underway, replied, Cluster.start, Handle.fresh,
      Handle.awaited, Handle.owed]
  sent := by
    simp [Cluster.owed, underway, Cluster.answered, Cluster.start, Handle.fresh, Handle.owed]

theorem thread (hf : c.Flow) (hprompt : prompt effects)
    (hawait : h.awaited slot = (c.handles slot).awaited slot + requested effects)
    (howed : (c.handles slot).owed = h.owed + Selcc.answered effects) :
    ((c.setHandle slot h).applyAll effects).Flow := by
  obtain ⟨hund, hreplied, hanswered, hsent, -⟩ :=
    @applyAll_flow n m α (c.setHandle slot h) effects
  have hhandles := @applyAll_handles n m α (c.setHandle slot h) effects hprompt
  have hwait := @waiting_setHandle n m α c slot h
  have howes := @owed_setHandle n m α c slot h
  have hw : ((c.setHandle slot h).applyAll effects).waiting = c.waiting + requested effects := by
    have hsame : ((c.setHandle slot h).applyAll effects).waiting =
        (c.setHandle slot h).waiting := by
      simp only [Cluster.waiting, hhandles]
    rw [hawait] at hwait
    rw [hsame]
    refine add_right_cancel (hwait.trans ?_)
    abel
  have ho : ((c.setHandle slot h).applyAll effects).owed + Selcc.answered effects =
      c.owed + requested effects := by
    have hsame : ((c.setHandle slot h).applyAll effects).owed =
        (c.setHandle slot h).owed + requested effects := by
      simp only [Cluster.owed, hhandles, hund]
      abel
    rw [howed] at howes
    rw [hsame]
    refine add_right_cancel (b := h.owed) ?_
    calc (c.setHandle slot h).owed + requested effects + Selcc.answered effects + h.owed
        = ((c.setHandle slot h).owed + (h.owed + Selcc.answered effects)) +
          requested effects := by abel
      _ = c.owed + requested effects + h.owed := by rw [howes]; abel
  constructor
  · calc ((c.setHandle slot h).applyAll effects).waiting
        = c.owed + requested effects + c.replied := by rw [hw, hf.waiting]; abel
      _ = _ := by rw [← ho, hreplied, show (c.setHandle slot h).replied = c.replied from rfl]; abel
  · calc (((c.setHandle slot h).applyAll effects).sent : Multiset (Ticket n m))
        = c.owed + requested effects + c.answered := by
          rw [hsent, show (c.setHandle slot h).sent = c.sent from rfl, hf.sent]; abel
      _ = _ := by
          rw [← ho, hanswered, show (c.setHandle slot h).answered = c.answered from rfl]; abel

theorem same (hf : c.Flow) (hawait : h.awaited slot = (c.handles slot).awaited slot)
    (howed : h.owed = (c.handles slot).owed) : (c.setHandle slot h).Flow :=
  @Flow.thread n m α c [] slot h hf (by simp [prompt]) (by simp [hawait]) (by simp [howed])

theorem owed_le_waiting (hf : c.Flow) : c.owed ≤ c.waiting := by
  rw [hf.waiting]
  exact Multiset.le_add_right ..

end Flow

theorem mem_waiting {ticket : Ticket n m} :
    ticket ∈ c.waiting ↔ ticket ∈ (c.handles ticket.1.slot).awaited ticket.1.slot := by
  unfold waiting
  rw [Multiset.mem_sum]
  constructor
  · rintro ⟨slot, -, htick⟩
    rwa [(Handle.awaited_owner htick).1]
  · intro htick
    exact ⟨ticket.1.slot, Finset.mem_univ _, htick⟩

theorem owed_le (slot : Slot n m) : (c.handles slot).owed ≤ c.owed := by
  refine le_trans ?_ (Multiset.le_add_left ..)
  rw [← Finset.add_sum_erase _ _ (Finset.mem_univ slot)]
  exact Multiset.le_add_right ..

namespace Flow

theorem mem_awaited (hf : c.Flow) {ticket : Ticket n m} (htick : ticket ∈ (c.handles slot).owed) :
    ticket ∈ (c.handles ticket.1.slot).awaited ticket.1.slot :=
  mem_waiting.1 (Multiset.mem_of_le ((owed_le slot).trans hf.owed_le_waiting) htick)

theorem pending (hf : c.Flow) {call : Call n m} {command : InvCommand}
    (htick : (call, command) ∈ (c.handles slot).owed)
    (hcmd : command ≠ .writerInvalidateShared) : (c.apply (.pending call command)).Flow := by
  have hsame : (c.setHandle call.slot (c.handles call.slot).arrivePending).Flow :=
    hf.same (Handle.awaited_arrivePending (hf.mem_awaited htick) hcmd)
      Handle.owed_arrivePending
  refine ⟨hsame.waiting, hsame.sent.trans ?_⟩
  rw [(@apply_flow n m α c (.pending call command)).2.2.1,
    show (Effect.pending call command : Effect n m α).answered = 0 from rfl, add_zero]
  rfl

theorem underway_eraseIdx {target : Fin n} (hindex : c.requests[index]? = some (target, request)) :
    c.underway = request.owed + { c with requests := c.requests.eraseIdx index }.underway :=
  (TokenFlow.sum_eraseIdx (fun sent : Fin n × Request n m => sent.2.owed) hindex).symm

theorem receive (hf : c.Flow) {target : Fin n}
    (hindex : c.requests[index]? = some (target, request))
    (hawait : h.awaited slot = (c.handles slot).awaited slot)
    (howed : h.owed = (c.handles slot).owed + request.owed) :
    ({ c with requests := c.requests.eraseIdx index }.setHandle slot h).Flow := by
  have hund := underway_eraseIdx hindex
  have hwait := @waiting_setHandle n m α { c with requests := c.requests.eraseIdx index } slot h
  have howes := @owed_setHandle n m α { c with requests := c.requests.eraseIdx index } slot h
  rw [hawait] at hwait
  rw [howed] at howes
  have hw : ({ c with requests := c.requests.eraseIdx index }.setHandle slot h).waiting =
      c.waiting := add_right_cancel hwait
  have ho : ({ c with requests := c.requests.eraseIdx index }.setHandle slot h).owed = c.owed := by
    refine add_right_cancel (howes.trans ?_)
    simp only [Cluster.owed, hund]
    abel
  exact ⟨by rw [hw, ho, hf.waiting]; rfl, by rw [ho]; exact hf.sent⟩

theorem receiveAbsent (hf : c.Flow) {target : Fin n}
    (hindex : c.requests[index]? = some (target, request)) :
    ({ c with requests := c.requests.eraseIdx index }.applyAll
      (Handle.decline request)).Flow := by
  have hund := underway_eraseIdx hindex
  obtain ⟨hunder, hreplied, hanswered, hsent, -⟩ := @applyAll_flow n m α
    { c with requests := c.requests.eraseIdx index } (Handle.decline request)
  have hhandles := @applyAll_handles n m α
    { c with requests := c.requests.eraseIdx index } (Handle.decline request)
    Handle.prompt_decline
  rw [Handle.requested_decline, add_zero] at hunder hsent
  rw [Handle.answered_decline] at hreplied hanswered
  have ho : ({ c with requests := c.requests.eraseIdx index }.applyAll
      (Handle.decline request)).owed + request.owed = c.owed := by
    simp only [Cluster.owed, hunder, hhandles, hund]
    abel
  constructor
  · calc ({ c with requests := c.requests.eraseIdx index }.applyAll
          (Handle.decline request)).waiting = c.owed + c.replied := by
          rw [← hf.waiting]
          simp only [Cluster.waiting, hhandles]
      _ = _ := by
          rw [← ho, hreplied, show Cluster.replied
            { c with requests := c.requests.eraseIdx index } = c.replied from rfl]
          abel
  · rw [hsent, hanswered]
    calc (c.sent : Multiset (Ticket n m)) = c.owed + c.answered := hf.sent
      _ = _ := by
          rw [← ho, show Cluster.answered { c with requests := c.requests.eraseIdx index } =
            c.answered from rfl]
          abel

theorem replied_eraseIdx (hindex : c.replies[index]? = some reply) :
    c.replied = {reply.ticket} + { c with replies := c.replies.eraseIdx index }.replied := by
  obtain ⟨hlen, rfl⟩ := List.getElem?_eq_some_iff.1 hindex
  have hperm := (List.getElem_cons_eraseIdx_perm hlen).map Reply.ticket
  exact (Multiset.coe_eq_coe.2 hperm).symm

theorem mem_awaited_of_reply (hf : c.Flow) (hreply : reply ∈ c.replies) :
    reply.ticket ∈ (c.handles reply.call.slot).awaited reply.call.slot := by
  have hmem : reply.ticket ∈ c.replied := Multiset.mem_coe.2 (mem_map_of_mem hreply)
  refine @mem_waiting n m α c reply.ticket |>.1 ?_
  rw [hf.waiting]
  exact Multiset.mem_add.2 (.inr hmem)

theorem arrive (hf : c.Flow) (hindex : c.replies[index]? = some reply) :
    ({ c with replies := c.replies.eraseIdx index }.setHandle reply.call.slot
      ((c.handles reply.call.slot).arrive reply)).Flow := by
  have hreplied := replied_eraseIdx hindex
  have hawait := Handle.awaited_arrive
    (hf.mem_awaited_of_reply (mem_of_getElem? hindex))
  have hwait := @waiting_setHandle n m α { c with replies := c.replies.eraseIdx index }
    reply.call.slot ((c.handles reply.call.slot).arrive reply)
  have howes := @owed_setHandle n m α { c with replies := c.replies.eraseIdx index }
    reply.call.slot ((c.handles reply.call.slot).arrive reply)
  rw [Handle.owed_arrive] at howes
  have ho := add_right_cancel howes
  constructor
  · refine add_right_cancel (b := (c.handles reply.call.slot).awaited reply.call.slot)
      (hwait.trans ?_)
    calc c.waiting + ((c.handles reply.call.slot).arrive reply).awaited reply.call.slot
        = c.owed + Cluster.replied { c with replies := c.replies.eraseIdx index } +
          (((c.handles reply.call.slot).arrive reply).awaited reply.call.slot +
            {reply.ticket}) := by rw [hf.waiting, hreplied]; abel
      _ = _ := by rw [← hawait, ho]; rfl
  · rw [ho]
    exact hf.sent

theorem act {remote : Remote α} {action : Action α} (hf : c.Flow) (hc : (c.handles slot).Consistent)
    (hreminds : action = .bufferEnd → (c.handles slot).reminds)
    (hact : Handle.Acts slot remote (c.handles slot) action h effects) :
    ((c.setHandle slot h).applyAll effects).Flow := by
  have hawait := hact.awaited
  have howed := Handle.owed_act hc hreminds hact
  rcases hact.prompt_or_pending with hprompt | ⟨request, hhold, hcmd, hrem, rfl, rfl⟩
  · exact hf.thread hprompt hawait howed
  · -- the message is in the buffer when its sender learns of it
    have hbase := hf.thread Handle.prompt_drop (by simpa [Effect.requested] using hawait)
      (by simpa [Effect.answered] using howed)
    rw [applyAll_append]
    refine @Flow.pending n m α _ slot hbase _ _ ?_ hcmd
    rw [applyAll_handles Handle.prompt_drop, setHandle_self]
    simp [Handle.owed, Handle.setStates, PendingPageForward.owed, hcmd]

end Flow

theorem applyAll_calls : ((c.applyAll effects).handles slot).calls = (c.handles slot).calls := by
  refine @applyAll_forall n m α c effects
    (fun other h => h.calls = (c.handles other).calls) ?_ (fun _ => rfl) slot
  intro slot h hcalls
  rw [← hcalls]
  unfold Handle.arrivePending
  split <;> rfl

theorem mem_applyAll_replies (hreply : reply ∈ (c.applyAll effects).replies) :
    reply ∈ c.replies ∨ .reply reply ∈ effects := by
  induction effects generalizing c with
  | nil => exact .inl hreply
  | cons effect effects ih =>
    rcases @ih (c.apply effect) hreply with hmem | hmem
    · cases effect
      case reply given =>
        rcases mem_append.1 hmem with hold | hnew
        · exact .inl hold
        · exact .inr (by simp [mem_singleton.1 hnew])
      all_goals exact .inl hmem
    · exact .inr (mem_cons_of_mem _ hmem)

/-- A reminder that finds a message of its node in the buffer belongs to a request that is still
waited for. -/
def remindsOutstanding (c : Cluster n m α) (slot : Slot n m) : Bool :=
  match (c.handles slot).invHolder, (c.handles slot).buffered with
  | some request, some message =>
      !request.reminder || message.call.slot.1 ≠ request.call.slot.1 ||
        request.ticket ∈ (c.handles request.call.slot).awaited request.call.slot
  | _, _ => true

def careful (c : Cluster n m α) : Event n m α → Bool
  | .thread slot .bufferEnd => c.remindsOutstanding slot
  | .thread slot action => (c.handles slot).careful action
  | _ => true

structure Matching (c : Cluster n m α) : Prop where
  consistent : ∀ slot, (c.handles slot).Consistent
  table : ∀ node p q, (c.handles (node, p)).placement = .table →
    (c.handles (node, q)).placement = .table → p = q
  flow : c.Flow
  nodup : c.sent.Nodup
  numbered : ∀ ticket ∈ c.sent, ticket.1.number < (c.handles ticket.1.slot).calls
  order : c.answers.Pairwise fun earlier later =>
    earlier.terminal = true → earlier.ticket ≠ later.ticket
  known : ∀ answer ∈ c.answers, answer.ticket ∈ c.sent
  pages : ∀ reply ∈ c.replies, ∀ mode content, reply.body = .page mode content →
    reply.command.grants = some mode

namespace Matching

theorem reminds (hm : c.Matching) (hout : c.remindsOutstanding slot = true) :
    (c.handles slot).reminds := by
  intro request message hhold hrem hcmd hbuf hnode
  have hc := hm.consistent slot
  have hmodified := hc.modified_of_exclusive (hc.exclusive_of_holder hhold hcmd) hbuf
  have hreq : request.ticket ∈ (c.handles request.call.slot).awaited request.call.slot := by
    simpa [remindsOutstanding, hhold, hbuf, hrem, hnode] using hout
  have hmsg : (message.call, message.command) ∈
      (c.handles message.call.slot).awaited message.call.slot := by
    refine @Flow.mem_awaited n m α c slot hm.flow (message.call, message.command) ?_
    simp [Handle.owed, hbuf, PendingPageForward.owed, hmodified]
  -- both are requests of the one handle of that node that is in the table
  obtain ⟨queue, goal, target, number, flag, howner, -, htick⟩ :=
    Handle.awaited_modified hreq hcmd
  obtain ⟨queue', goal', target', number', flag', howner', -, hticket'⟩ :=
    Handle.awaited_modified hmsg hmodified
  have hslot : message.call.slot = request.call.slot := by
    refine Prod.ext hnode (hm.table request.call.slot.1 _ _ ?_ ?_)
    · rw [← hnode]
      exact (hm.consistent _).table_of_owner howner'
    · exact (hm.consistent _).table_of_owner howner
  rw [hslot, howner] at howner'
  obtain ⟨-, rfl, -, rfl, -⟩ : queue = queue' ∧ goal = goal' ∧ target = target' ∧
      number = number' ∧ flag = flag' := by simpa using howner'
  rw [htick, hticket', hslot]

theorem start (content : α) (data : Slot n m → α) : (start content data).Matching where
  consistent slot := Handle.fresh_consistent (data slot)
  table node p q hp := by simp [Cluster.start, Handle.fresh] at hp
  flow := .start content data
  nodup := nodup_nil
  numbered ticket htick := by cases htick
  order := List.Pairwise.nil
  known answer hanswer := by cases hanswer
  pages reply hreply := by cases hreply

theorem order_append (hm : c.Matching) {new : List (Answer n m)}
    (hnew : (new.map Answer.ticket : Multiset (Ticket n m)) ≤ c.owed) :
    ((c.answers ++ new).Pairwise fun earlier later =>
      earlier.terminal = true → earlier.ticket ≠ later.ticket) ∧
    ∀ answer ∈ new, answer.ticket ∈ c.sent := by
  have hsum : (c.owed + c.answered).Nodup := by
    rw [← hm.flow.sent]
    exact Multiset.coe_nodup.2 hm.nodup
  obtain ⟨howed, -, hdisj⟩ := Multiset.nodup_add.1 hsum
  have hmem : ∀ answer ∈ new, answer.ticket ∈ c.owed := fun answer hanswer =>
    Multiset.mem_of_le hnew (Multiset.mem_coe.2 (mem_map_of_mem hanswer))
  constructor
  · refine pairwise_append.2 ⟨hm.order, ?_, ?_⟩
    · have hdist : (new.map Answer.ticket).Nodup :=
        Multiset.coe_nodup.1 (Multiset.nodup_of_le hnew howed)
      refine List.Pairwise.imp ?_ (pairwise_map.1 hdist)
      intro earlier later hne _
      exact hne
    · intro earlier hearlier later hlater hterminal hsame
      refine Multiset.disjoint_left.1 hdisj (hmem later hlater) ?_
      rw [← hsame]
      exact Multiset.mem_coe.2 (mem_map_of_mem (mem_filter.2 ⟨hearlier, hterminal⟩))
  · intro answer hanswer
    rw [← Multiset.mem_coe, hm.flow.sent]
    exact Multiset.mem_add.2 (.inl (hmem answer hanswer))

theorem next (hm : c.Matching) (hcons : ∀ slot, (after.handles slot).Consistent)
    (htable : ∀ node p q, (after.handles (node, p)).placement = .table → (after.handles (node,
      q)).placement = .table → p = q)
    (hflow : after.Flow) {tickets : Multiset (Ticket n m)} {new : List (Answer n m)}
    (hsent : (after.sent : Multiset (Ticket n m)) = c.sent + tickets)
    (hanswers : after.answers = c.answers ++ new)
    (hnew : (new.map Answer.ticket : Multiset (Ticket n m)) ≤ c.owed) (hnodup : tickets.Nodup)
    (hfresh : ∀ ticket ∈ tickets, (c.handles ticket.1.slot).calls ≤ ticket.1.number ∧
      ticket.1.number < (after.handles ticket.1.slot).calls)
    (hcalls : ∀ slot, (c.handles slot).calls ≤ (after.handles slot).calls)
    (hpages : ∀ reply ∈ after.replies, reply ∈ c.replies ∨ ∀ mode content, reply.body = .page mode
      content → reply.command.grants = some mode) : after.Matching := by
  have hmem : ∀ ticket, ticket ∈ after.sent ↔ ticket ∈ c.sent ∨ ticket ∈ tickets := by
    intro ticket
    rw [← Multiset.mem_coe, hsent, Multiset.mem_add, Multiset.mem_coe]
  obtain ⟨horder, hknown⟩ := hm.order_append hnew
  exact
    { consistent := hcons
      table := htable
      flow := hflow
      nodup := by
        rw [← Multiset.coe_nodup, hsent, Multiset.nodup_add]
        refine ⟨Multiset.coe_nodup.2 hm.nodup, hnodup, Multiset.disjoint_left.2 ?_⟩
        intro ticket hold htick
        have hnum := hm.numbered ticket (Multiset.mem_coe.1 hold)
        exact absurd (hfresh ticket htick).1 (not_le.2 hnum)
      numbered := by
        intro ticket htick
        rcases (hmem ticket).1 htick with hold | hnew
        · exact (hm.numbered ticket hold).trans_le (hcalls _)
        · exact (hfresh ticket hnew).2
      order := by rw [hanswers]; exact horder
      known := by
        intro answer hanswer
        rw [hanswers] at hanswer
        refine (hmem _).2 (.inl ?_)
        rcases mem_append.1 hanswer with hold | hnew
        · exact hm.known answer hold
        · exact hknown answer hnew
      pages := by
        intro reply hreply
        rcases hpages reply hreply with hold | hmode
        · exact hm.pages reply hold
        · exact hmode }

theorem quiet (hm : c.Matching) (hcons : ∀ slot, (after.handles slot).Consistent)
    (htable : ∀ node p q, (after.handles (node, p)).placement = .table →
      (after.handles (node, q)).placement = .table → p = q)
    (hflow : after.Flow) (hsent : after.sent = c.sent) (hanswers : after.answers = c.answers)
    (hcalls : ∀ slot, (c.handles slot).calls = (after.handles slot).calls)
    (hreplies : ∀ reply ∈ after.replies, reply ∈ c.replies) : after.Matching :=
  @Matching.next n m α c after hm hcons htable hflow 0 [] (by simp [hsent])
    (by simp [hanswers]) (Multiset.zero_le _) (by simp) (by simp) (fun slot => (hcalls slot).le)
    fun reply hreply => .inl (hreplies reply hreply)

theorem careful_thread {action : Action α} (hcare : c.careful (.thread slot action) = true) :
    (c.handles slot).careful action = true ∧
      (action = .bufferEnd → c.remindsOutstanding slot = true) := by
  cases action
  case bufferEnd => exact ⟨rfl, fun _ => hcare⟩
  all_goals exact ⟨hcare, fun h => by cases h⟩

theorem handles_step (hm : c.Matching) (hcare : c.careful event = true)
    (hstep : c.step event = some after) : (∀ slot, (after.handles slot).Consistent) ∧
      ∀ node p q, (after.handles (node, p)).placement = .table →
        (after.handles (node, q)).placement = .table → p = q := by
  constructor
  · refine step_forall hstep hm.consistent ?_ ?_ ?_
    · rintro slot action rfl changed effects hact
      exact (hm.consistent slot).act (careful_thread hcare).1 (Handle.act_cases hact)
    · intro slot _ hfree
      exact (hm.consistent slot).insert hfree
    · intro slot h seen changed hpass _ hc hnext
      refine hc.step ?_ hnext
      cases seen
      case act => cases hpass
      all_goals rfl
  · refine @unique_step n m α c after event (fun h => h.placement = .table) hstep hm.table ?_ ?_
    · rintro slot rfl
      cases step_cases hstep with
      | lookupInsert _ hnode => exact hnode
    · intro hevent
      refine @step_forall n m α c after event (fun slot h => h.placement = .table →
        (c.handles slot).placement = .table) hstep (fun _ => id) ?_ ?_ ?_
      · rintro slot action - changed effects hact
        exact (Handle.act_cases hact).table
      · intro slot heq
        exact absurd heq (hevent slot)
      · intro slot h seen changed hpass hins hback hnext htable
        exact hback ((Handle.passive_keeps hpass hins hnext).1.symm.trans htable)

theorem step (hm : c.Matching) (hcare : c.careful event = true)
    (hstep : c.step event = some after) : after.Matching := by
  obtain ⟨hcons, htable⟩ := hm.handles_step hcare hstep
  cases step_cases hstep with
  | thread slot action changed effects hact hdrained =>
    obtain ⟨-, hout⟩ := careful_thread hcare
    have hacts := Handle.act_cases hact
    have hreminds : action = .bufferEnd → (c.handles slot).reminds :=
      fun haction => hm.reminds (hout haction)
    obtain ⟨-, -, -, hsent, hanswers⟩ :=
      @applyAll_flow n m α (c.setHandle slot changed) effects
    obtain ⟨hcalls, hnodup, hfresh⟩ := hacts.numbered
    refine @Matching.next n m α c _ hm hcons htable
      (hm.flow.act (hm.consistent slot) hreminds hacts) _ _ hsent hanswers
      ((Handle.answers_le (hm.consistent slot) hreminds hacts).trans (owed_le slot)) hnodup ?_ ?_ ?_
    · intro ticket htick
      obtain ⟨hslot, hlow, hhigh⟩ := hfresh ticket htick
      rw [applyAll_calls, hslot, setHandle_self]
      exact ⟨hlow, hhigh⟩
    · intro other
      rw [applyAll_calls]
      exact @setHandle_forall n m α c (fun slot h => (c.handles slot).calls ≤ h.calls)
        (fun _ => le_rfl) slot changed hcalls other
    · intro reply hreply
      rcases mem_applyAll_replies hreply with hold | hnew
      · exact .inl hold
      · exact .inr fun mode content hpage => (hacts.page_mode hnew hpage).1
  | lookupInsert slot hnode hfree =>
    exact hm.quiet hcons htable (hm.flow.same rfl rfl) rfl rfl
      (@setHandle_forall n m α c (fun slot h => (c.handles slot).calls = h.calls)
        (fun _ => rfl) slot _ rfl) (fun _ hreply => hreply)
  | receive index target request position locked accepted hindex hplace hacpt =>
    obtain ⟨hawait, howed, hcalls, -⟩ := Handle.accept_flow hacpt
    exact hm.quiet hcons htable (hm.flow.receive hindex hawait howed) rfl rfl
      (@setHandle_forall n m α { c with requests := c.requests.eraseIdx index }
        (fun slot h => (c.handles slot).calls = h.calls) (fun _ => rfl) _ _ hcalls.symm)
      (fun _ hreply => hreply)
  | receiveAbsent index target request locked hindex hnode =>
    obtain ⟨-, -, -, hsent, hanswers⟩ := @applyAll_flow n m α
      { c with requests := c.requests.eraseIdx index } (Handle.decline request)
    refine @Matching.next n m α c _ hm hcons htable (hm.flow.receiveAbsent hindex) _ _
      hsent hanswers ?_ (by simp) (by simp) (fun slot => (@applyAll_calls n m α
        { c with requests := c.requests.eraseIdx index } (Handle.decline request) slot).ge) ?_
    · rw [Handle.answers_decline, Cluster.owed, Flow.underway_eraseIdx hindex, add_assoc]
      exact Multiset.le_add_right ..
    · intro reply hreply
      rcases mem_applyAll_replies hreply with hold | hnew
      · exact .inl hold
      · exact .inr fun mode content hpage =>
          absurd hpage (Handle.decline_page hnew mode content)
  | arrive index reply hindex =>
    exact hm.quiet hcons htable (hm.flow.arrive hindex) rfl rfl
      (@setHandle_forall n m α { c with replies := c.replies.eraseIdx index }
        (fun slot h => (c.handles slot).calls = h.calls) (fun _ => rfl) _ _
        (Handle.arrive_calls reply).symm)
      (fun _ hreply => mem_of_mem_eraseIdx hreply)
  | execute index operation hindex hfirst =>
    obtain ⟨queue, work⟩ := operation
    cases work <;>
      exact hm.quiet hcons htable ⟨hm.flow.waiting, hm.flow.sent⟩ rfl rfl (fun _ => rfl)
        (fun _ hreply => hreply)
  | reuse slot content hfree =>
    exact hm.quiet hcons htable (hm.flow.same rfl rfl) rfl rfl
      (@setHandle_forall n m α c (fun slot h => (c.handles slot).calls = h.calls)
        (fun _ => rfl) slot _ rfl) (fun _ hreply => hreply)

theorem of_run (hrun : TransitionSystem.Reachable Cluster.step
    (fun c event => c.careful event = true) initial c) : c.Matching := by
  refine hrun.invariant ?_ ?_
  · rintro c ⟨content, data, rfl⟩
    exact .start content data
  · intro c event after hm hcare hstep
    exact hm.step hcare hstep

theorem count_answered (hm : c.Matching) {ticket : Ticket n m} (htick : ticket ∈ c.sent) :
    c.answered.count ticket = 1 ∧ ticket ∉ c.owed ∨
      c.answered.count ticket = 0 ∧ ticket ∈ c.owed := by
  have hcount : (c.owed + c.answered).count ticket = 1 := by
    rw [← hm.flow.sent]
    exact Multiset.count_eq_one_of_mem (Multiset.coe_nodup.2 hm.nodup) htick
  rw [Multiset.count_add] at hcount
  by_cases howed : ticket ∈ c.owed
  · have hpos := Multiset.count_pos.2 howed
    exact .inr ⟨by omega, howed⟩
  · rw [Multiset.count_eq_zero_of_notMem howed] at hcount
    exact .inl ⟨by omega, howed⟩

theorem reminder_keeps (hm : c.Matching) (hout : c.remindsOutstanding slot = true)
    (hhold : (c.handles slot).invHolder = some request)
    (hrem : request.reminder = true) (hcmd : request.command ≠ .writerInvalidateShared)
    {remote : Remote α} (hact : Handle.Acts slot remote (c.handles slot) .bufferEnd h effects) :
    h.buffered.map PendingPageForward.ticket =
      (c.handles slot).buffered.map PendingPageForward.ticket := by
  have hsame : ∀ other, (c.handles slot).invHolder = some other → other = request :=
    fun other hother => Option.some.inj (hother.symm.trans hhold)
  cases hact
  case endShared other hother hshared _ => exact absurd (hsame other hother ▸ hshared) hcmd
  case endDeclined => rfl
  case endReminder other message hother _ _ hbuf hnode =>
    obtain rfl := hsame other hother
    have htick := hm.reminds hout other message hhold hrem hcmd hbuf hnode
    rw [hbuf]
    exact congrArg some htick.symm
  case endReminderIdle => rfl
  case endPending other hother _ hfalse =>
    rw [hsame other hother, hrem] at hfalse
    cases hfalse

end Matching

/-- Every request gets one terminal reply and no reply after it; a reply, and a forwarded page in
particular, goes to the request that its sender still waits for and grants what that asks for. -/
theorem requests_matched (hrun : TransitionSystem.Reachable step
    (fun c event => c.careful event = true) initial c) :
    (c.sent.Nodup ∧ ∀ ticket ∈ c.sent,
      c.answered.count ticket = 1 ∧ ticket ∉ c.owed ∨
        c.answered.count ticket = 0 ∧ ticket ∈ c.owed) ∧
    (c.answers.Pairwise fun earlier later =>
      earlier.terminal = true → earlier.ticket ≠ later.ticket) ∧
    (∀ reply ∈ c.replies,
      reply.ticket ∈ (c.handles reply.call.slot).awaited reply.call.slot ∧
      ∀ mode content, reply.body = .page mode content → reply.command.grants = some mode) ∧
    ∀ slot request after effects, c.careful (.thread slot .bufferEnd) = true →
      (c.handles slot).invHolder = some request → request.reminder = true →
      request.command ≠ .writerInvalidateShared →
      (c.handles slot).act slot ⟨c.word, c.memory⟩ .bufferEnd = some (after, effects) →
      after.buffered.map PendingPageForward.ticket =
        (c.handles slot).buffered.map PendingPageForward.ticket := by
  have hm := Matching.of_run hrun
  refine ⟨⟨hm.nodup, fun ticket htick => hm.count_answered htick⟩, hm.order, ?_, ?_⟩
  · intro reply hreply
    exact ⟨hm.flow.mem_awaited_of_reply hreply, hm.pages reply hreply⟩
  · intro slot request after effects hcare hhold hrem hcmd hact
    exact hm.reminder_keeps hcare hhold hrem hcmd (Handle.act_cases hact)

section

open Event (acts buffers serves reads writes)

variable [NeZero n] [NeZero m]

/-- Node 0 writes, and node 1 asks it to read. -/
def pendingRead : List (Event n m ℕ) :=
  acts (0, 0) writes ++ acts (1, 0) (reads ++ [.rlockRetract, .invalidateModified 1]) ++
    buffers 0 (0, 0) ++ acts (1, 0) [.remind 1]

def reminded : List (Event n m ℕ) :=
  [.lookupInsert (0, 0), .lookupInsert (1, 0)] ++ pendingRead ++ buffers 0 (0, 0) ++
    acts (0, 0) [.writerPost] ++ acts (1, 0) [.remind 1] ++ serves 0 (0, 0)

theorem requests_matched_reminded : ∃ c : Cluster 2 1 ℕ,
    TransitionSystem.Reachable step (fun c event => c.careful event = true) initial c ∧
      ∃ reply ∈ c.replies, reply.forwards .shared = true ∧
        reply.ticket ∈ (c.handles reply.call.slot).awaited reply.call.slot := by
  obtain ⟨c, hrun, reply, hreply, hforwards⟩ : ∃ c : Cluster 2 1 ℕ, TransitionSystem.Reachable step
      (fun c event => c.careful event = true) initial c ∧
      ∃ reply ∈ c.replies, reply.forwards .shared = true :=
    TransitionSystem.Reachable.exists_of_schedule reminded ⟨0, fun _ => 0, rfl⟩ (by decide +kernel)
  exact ⟨c, hrun, reply, hreply, hforwards, ((requests_matched hrun).2.2.1 reply hreply).1⟩

/-- Node 1 reminds node 0 of a read request, which is then dropped in favour of node 2.  Node 1
reads the page through node 2, node 0 takes the latch back, and node 1 asks it to write.  Then the
reminder arrives, and node 0 forwards the page to read. -/
def staleReminder : List (Event n m ℕ) :=
  [.lookupInsert (0, 0), .lookupInsert (1, 0), .lookupInsert (2, 0)] ++ pendingRead ++
    acts (2, 0) (writes ++ [.invalidateModified 2]) ++ buffers 1 (0, 0) ++
    [.arrive 0, .thread (1, 0) .resume, .thread (0, 0) .writerPost, .thread (2, 0) (.remind 2)] ++
    serves 1 (0, 0) ++ [.execute 0, .arrive 0] ++ acts (2, 0) [.resume, .writerPost] ++
    acts (1, 0) [.rlockFaa, .rlockRead, .rlockRetract, .invalidateModified 1] ++
    serves 1 (2, 0) ++ [.execute 0, .execute 0, .arrive 0] ++ acts (1, 0) [.resume, .readerPost] ++
    acts (0, 0) (writes ++ [.invalidateShared 0]) ++ serves 1 (1, 0) ++ serves 1 (2, 0) ++
    [.execute 0, .execute 0, .arrive 0, .arrive 0] ++ acts (0, 0) [.resume, .wlockCas, .wlockRead] ++
    acts (1, 0) (writes ++ [.invalidateModified 1]) ++ buffers 1 (0, 0) ++ buffers 0 (0, 0) ++
    acts (0, 0) [.writerPost] ++ acts (1, 0) [.remind 1] ++ serves 0 (0, 0)

end

/-- The page is forwarded for a request that was dropped, and grants to read where the request
that is waited for asks to write. -/
theorem stale_reminder_served : ∃ c : Cluster 3 1 ℕ,
    TransitionSystem.Reachable step (fun _ _ => True) initial c ∧
      ∃ reply ∈ c.replies, reply.forwards .shared = true ∧ reply.call.slot = (1, 0) ∧
        c.answered.count reply.ticket = 2 ∧
        (c.handles (1, 0)).awaited (1, 0) = {(⟨(1, 0), 2⟩, .writerInvalidateModified)} := by
  exact TransitionSystem.Reachable.exists_of_schedule staleReminder ⟨0, fun _ => 0, rfl⟩
    (by decide +kernel)

end Cluster

end MemoryEngine.Selcc
