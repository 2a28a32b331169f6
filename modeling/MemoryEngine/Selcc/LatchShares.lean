import MemoryEngine.Selcc.Matching
import Mathlib.Algebra.BigOperators.Fin
import Mathlib.Algebra.BigOperators.Pi
import Mathlib.Data.BitVec

/-! What each node has in the latch word of a page.

`prepare_free_list` takes a handle out of the table at once and gives its latch back later.  In
between `LookupInsert` may put another handle into the table, which then takes the latch for the
same node a second time.

A thread changes the share of its own node at once, a posted operation changes the shares of the
nodes it names when the memory node executes it.  Until then the share of a node differs from what
its handles have. -/
namespace MemoryEngine.Selcc

open List

variable {n m : ℕ} {α : Type}

/-- Nothing, one shared bit or one exclusive byte of the node. -/
def Proper (node : ℕ) (share : Word) : Prop :=
  share = 0 ∨ share = sharedBit node ∨ share = exclusiveByte node

theorem share_proper (node : Fin n) (mode : Mode) : Proper node (share node mode node) := by
  cases mode <;> simp [Proper, share, contribution]

namespace LatchMove

def nodes : LatchMove n → List (Fin n)
  | .release node _ => [node]
  | .handover source next => [source, next]
  | .downgrade source next => [source, next]

theorem sum_shares (move : LatchMove n) : ∑ node, move.shares node = move.delta := by
  cases move <;> simp [shares, share, delta, contribution, Finset.sum_add_distrib,
    Finset.sum_sub_distrib, Finset.sum_neg_distrib]

end LatchMove

namespace Posted

def shares (operation : Posted n α) : Shares n :=
  match operation.work with
  | .writePage _ => 0
  | .fetchAdd move => move.shares

def nodes (operation : Posted n α) : List (Fin n) :=
  match operation.work with
  | .writePage _ => []
  | .fetchAdd move => move.nodes

theorem shares_of_notMem {operation : Posted n α} {node : Fin n} (hnode : node ∉ operation.nodes) :
    operation.shares node = 0 := by
  obtain ⟨queue, work⟩ := operation
  cases work with
  | writePage => rfl
  | fetchAdd move =>
    cases move <;> simp_all [shares, nodes, LatchMove.shares, LatchMove.nodes, share]

end Posted

/-- What a forwarded page gives to the node that asked for it. -/
def Reply.grant (reply : Reply n m α) : Shares n :=
  match reply.body with
  | .page mode _ => share reply.call.slot.1 mode
  | _ => 0

theorem Reply.page_of_grant {reply : Reply n m α} {node : Fin n} (hgrant : reply.grant node ≠ 0) :
    reply.call.slot.1 = node ∧ ∃ mode content, reply.body = .page mode content := by
  obtain ⟨call, command, body⟩ := reply
  cases body with
  | page mode content =>
    refine ⟨?_, mode, content, rfl⟩
    by_contra hne
    exact hgrant (Pi.single_eq_of_ne (Ne.symm hne) _)
  | dropped | invalidated => exact absurd rfl hgrant

/-- What the shares change by once all is executed, less what is granted to others. -/
def Effect.moved : Effect n m α → Shares n
  | .add node delta => Pi.single node delta
  | .post operation => operation.shares
  | .reply given => -given.grant
  | _ => 0

def moved (effects : List (Effect n m α)) : Shares n := (effects.map Effect.moved).sum

def LockStatus.shares (node : Fin n) : LockStatus → Shares n
  | .invalid => 0
  | .shared => share node .shared
  | .exclusive => share node .exclusive

/-- What an access has in the word and `remote_lock_status` does not say yet. -/
def Op.unrecorded (node : Fin n) : Op n m → Shares n
  | .acquire (.reader _) (.read _) => share node .shared
  | .acquire (.reader _) (.retract _) => share node .shared
  | .acquire (.reader _) (.rpc _ _ .processed) => share node .shared
  | .acquire (.writer _) (.read old) => if old = 0 then share node .exclusive else 0
  | .acquire (.writer _) (.rpc _ _ .processed) => share node .exclusive
  | .upgrade _ .won => share node .exclusive - share node .shared
  | _ => 0

namespace Handle

def engaged (h : Handle n m α) : Prop := h.placement = .table ∨ h.status ≠ .invalid

def held (node : Fin n) (h : Handle n m α) : Shares n :=
  h.status.shares node + h.owner.elim 0 fun owner => owner.op.unrecorded node

/-- The CAS of a writer that enters after its READ has succeeded. -/
def entersLatched (self : Fin n) (h : Handle n m α) : Action α → Bool
  | .wlockRead =>
      match h.owner with
      | some ⟨_, .acquire (.writer _) (.read old)⟩ => old = 0 || (wlockOutcome self old).isSome
      | _ => true
  | _ => true

variable {self : Slot n m} {remote : Remote α} {h after : Handle n m α} {queue : ℕ}
  {action : Action α} {effects : List (Effect n m α)} {request : Request n m} {node : Fin n}

theorem Consistent.engaged_act (hc : h.Consistent)
    (hact : Acts self remote h action after effects) (hengaged : after.engaged) : h.engaged := by
  by_cases htable : h.placement = .table
  · exact .inl htable
  · -- nobody works on the handle, so that only its latch is given back
    obtain ⟨hrdrs, howner, hupg, hleave, hhandlers, hhold⟩ := hc.idle_of_away htable
    cases hact
    case deallocate =>
      rw [deallocate_fst] at hengaged
      simp [engaged, setStatus, clearPendingInvStates] at hengaged
    all_goals simp_all

theorem Consistent.held_cases (hc : h.Consistent) (node : Fin n) :
    h.held node = 0 ∨ ∃ mode, h.held node = share node mode := by
  have hstatus : h.status.shares node = 0 ∨ ∃ mode, h.status.shares node = share node mode := by
    cases h.status
    · exact .inl rfl
    · exact .inr ⟨.shared, rfl⟩
    · exact .inr ⟨.exclusive, rfl⟩
  unfold held
  cases howner : h.owner with
  | none => simpa using hstatus
  | some owner =>
    obtain ⟨queue, op⟩ := owner
    have hfits := hc.fits _ howner
    cases op with
    | acquire goal phase =>
      have hstat : h.status = .invalid := hfits
      simp only [hstat, LockStatus.shares, Option.elim_some, zero_add]
      unfold Op.unrecorded
      split
      case h_4 => split_ifs <;> simp
      case h_6 heq => cases heq
      all_goals simp
    | upgrade access phase =>
      cases phase <;> simp_all [Handle.fits, LockStatus.shares, Op.unrecorded]
    | inside | post | handler => simpa [Op.unrecorded] using hstatus

theorem Consistent.held_of_ne (hc : h.Consistent) {other : Fin n} (hne : node ≠ other) :
    h.held other node = 0 := by
  rcases hc.held_cases other with hheld | ⟨mode, hheld⟩
  · rw [hheld, Pi.zero_apply]
  · rw [hheld, share, Pi.single_eq_of_ne hne]

theorem Consistent.held_of_idle (hc : h.Consistent) (hidle : ¬ h.engaged) (node : Fin n) :
    h.held node = 0 := by
  obtain ⟨haway, hstat⟩ := not_or.1 hidle
  simp [held, (hc.idle_of_away haway).2.1, not_not.1 hstat, LockStatus.shares]

@[simp] theorem moved_nil : moved ([] : List (Effect n m α)) = 0 := rfl

@[simp] theorem moved_cons (effect : Effect n m α) :
    moved (effect :: effects) = effect.moved + moved effects := by
  simp [moved]

@[simp] theorem moved_append {others : List (Effect n m α)} :
    moved (effects ++ others) = moved effects + moved others := by
  simp [moved]

@[simp] theorem moved_decline : moved (decline request : List (Effect n m α)) = 0 := by
  unfold decline
  split_ifs <;> simp [Effect.moved, Reply.grant]

@[simp] theorem moved_acknowledge :
    moved (acknowledge request : List (Effect n m α)) = 0 := by
  unfold acknowledge
  split_ifs <;> simp [Effect.moved, Reply.grant]

@[simp] theorem moved_drop : moved h.dropBufferedInvMessage = 0 := by
  unfold dropBufferedInvMessage
  split <;> simp [Effect.moved, Reply.grant]

theorem moved_process : (h.processBufferedInvMessage self queue).1.status.shares self.1 =
    h.status.shares self.1 + moved (h.processBufferedInvMessage self queue).2 := by
  unfold processBufferedInvMessage
  split
  case h_1 hstat =>
    simp [hstat, Effect.moved, Posted.shares, LatchMove.shares, LockStatus.shares, setStatus,
      clearPendingInvStates]
  case h_2 hstat =>
    split <;> simp [hstat, Effect.moved, Posted.shares, LatchMove.shares, LockStatus.shares,
      setStatus, clearPendingInvStates, Reply.grant] <;> abel
  case h_3 hstat => simp [hstat, Effect.moved, clearPendingInvStates]

theorem moved_releaseLatch :
    moved (h.releaseLatch self queue) = -h.status.shares self.1 := by
  unfold releaseLatch
  split <;>
    simp [*, Effect.moved, Posted.shares, LatchMove.shares, LockStatus.shares]

theorem moved_deallocate : moved (h.deallocate self queue).2 = -h.status.shares self.1 := by
  unfold deallocate
  simp only [moved_append, moved_releaseLatch]
  split_ifs
  · rw [moved_process]
    abel
  · simp

theorem held_process {op : Op n m} (howner : h.owner = some ⟨queue, op⟩)
    (hop : op.unrecorded self.1 = 0) :
    (h.processBufferedInvMessage self queue).1.unlock.held self.1 =
      h.held self.1 + moved (h.processBufferedInvMessage self queue).2 := by
  simp only [held, unlock, howner, Option.elim_none, Option.elim_some, hop, add_zero]
  exact moved_process

theorem Acts.held (hc : h.Consistent) (hact : Acts self remote h action after effects)
    (henters : h.entersLatched self.1 action = true) :
    after.held self.1 = h.held self.1 + moved effects := by
  cases hact
  case readerHit counted _ _ _ =>
    obtain ⟨counter, hcount⟩ := @countRead_eq n m α { h with readers := h.readers + 1 } counted
    rw [hcount]
    simp [Handle.held]
  case readerMiss counted _ howner _ _ =>
    obtain ⟨counter, hcount⟩ := @countRead_eq n m α h counted
    rw [hcount]
    simp [Handle.held, setOp, howner, Op.unrecorded]
  case writerLock queue access counted upgrading howner _ _ _ =>
    obtain ⟨counter, hcount⟩ :=
      @countWrite_eq n m α { h with readers := 0, upgrading := upgrading } counted
    rw [hcount]
    unfold startWriter
    split <;> simp_all [Handle.held, setOp, Op.unrecorded]
  case rlockGranted howner _ =>
    have hstat : h.status = .invalid := hc.fits _ howner
    simp [Handle.held, enterShared, howner, hstat, Op.unrecorded, LockStatus.shares]
  case wlockCas howner =>
    split_ifs with hword
    · simp [Handle.held, setOp, howner, hword, Op.unrecorded, Effect.moved, share, contribution]
    · simp [Handle.held, setOp, howner, show remote.word ≠ 0#64 from hword, Op.unrecorded]
  case wlockAcquired queue access old data howner hold _ =>
    have hstat : h.status = .invalid := hc.fits _ howner
    have hzero : old = 0 := by simpa [entersLatched, howner, hold] using henters
    simp [Handle.held, enterExclusive, howner, hstat, hzero, Op.unrecorded, LockStatus.shares]
  case wlockRefused queue access old data targets howner hold _ =>
    have hword : old ≠ 0#64 := by
      rintro rfl
      simp [wlockOutcome] at hold
    simp [Handle.held, setOp, howner, hword, Op.unrecorded]
  case resumeReader howner =>
    have hstat : h.status = .invalid := hc.fits _ howner
    simp [Handle.held, enterShared, howner, hstat, Op.unrecorded, LockStatus.shares]
  case resumeWriter howner =>
    have hstat : h.status = .invalid := hc.fits _ howner
    simp [Handle.held, enterExclusive, howner, hstat, Op.unrecorded, LockStatus.shares]
  case upgradeWon howner _ =>
    have hstat : h.status = .shared := hc.fits _ howner
    simp [Handle.held, enterExclusive, howner, hstat, Op.unrecorded, LockStatus.shares]
  case upgradeUnlock howner =>
    have hstat : h.status = .shared := hc.fits _ howner
    simp [Handle.held, setOp, setStatus, howner, hstat, Op.unrecorded, LockStatus.shares,
      Effect.moved, Pi.single_neg, share, contribution]
  case upgradeGivenUp howner _ _ _ =>
    obtain ⟨_, _, hclear⟩ := hc.clearBuffered_eq
    simp [hclear, Handle.held, unlock, howner, Op.unrecorded]
  case upgradeCleared howner _ _ =>
    obtain ⟨_, _, hclear⟩ := hc.clearBuffered_eq
    simp [hclear, Handle.held, setOp, howner, Op.unrecorded]
  case postProcess howner _ => exact held_process howner rfl
  case checkProcess howner _ _ _ _ =>
    rw [moved_append, moved_decline, add_zero]
    exact held_process howner rfl
  case handlerProcess howner _ =>
    rw [moved_append, moved_acknowledge, add_zero]
    exact held_process howner rfl
  case deallocate hvict =>
    have hidle := (hc.idle_of_away (by simp [hvict])).2.1
    rw [moved_deallocate, deallocate_fst]
    simp [Handle.held, setStatus, clearPendingInvStates, hidle, LockStatus.shares]
  case invalidateShared howner =>
    simp [Handle.held, setOp, howner, Op.unrecorded, moved, Function.comp_def, Effect.moved]
  -- the owner is named in each other case
  all_goals simp [Handle.held, setOp, unlock, setStates, Op.unrecorded, Pi.single_neg,
    Pi.single_sub, share, contribution, Effect.moved, *]

theorem held_accept {locked : Option ℕ} (hacpt : h.accept request locked = some after) :
    after.held node = h.held node := by
  unfold accept at hacpt
  split at hacpt
  · split_ifs at hacpt with hfree
    cases hacpt
    simp [held, setOp, (latchFree_iff.1 hfree).2, Op.unrecorded]
  · cases hacpt
    rfl

theorem held_arrivePending {ticket : Ticket n m} (htick : ticket ∈ h.awaited self)
    (hcmd : ticket.2 ≠ .writerInvalidateShared) : h.arrivePending.held node = h.held node := by
  obtain ⟨queue, goal, target, number, flag, howner, hflag, -⟩ := awaited_modified htick hcmd
  rcases hflag with rfl | rfl <;> cases goal <;>
    simp [arrivePending, howner, held, setOp, Op.unrecorded]

/-- A page that arrives is what its receiver has in the word from then on. -/
theorem held_arrive {reply : Reply n m α} (hreply : reply.ticket ∈ h.awaited reply.call.slot)
    (hpage : ∀ mode content, reply.body = .page mode content → reply.command.grants = some mode) :
    (h.arrive reply).held reply.call.slot.1 = h.held reply.call.slot.1 + reply.grant := by
  obtain ⟨call, command, body⟩ := reply
  by_cases hcmd : command = .writerInvalidateShared
  · obtain ⟨queue, goal, numbers, howner, -⟩ := awaited_shared hreply hcmd
    subst hcmd
    cases body with
    | page mode content => simp [InvCommand.grants] at hpage
    | dropped | invalidated =>
      cases goal <;> simp [arrive, howner, held, setOp, Op.unrecorded, Reply.grant]
  · obtain ⟨queue, goal, target, number, flag, howner, hflag, htick⟩ := awaited_modified hreply hcmd
    obtain ⟨-, rfl⟩ : call = _ ∧ command = goal.command := Prod.mk.inj htick
    cases body with
    | page mode content =>
      have hmode := hpage mode content rfl
      rcases hflag with rfl | rfl <;> cases goal <;> cases hmode <;>
        simp [arrive, howner, held, setOp, Goal.command, Op.unrecorded, Reply.grant]
    | dropped | invalidated =>
      rcases hflag with rfl | rfl <;> cases goal <;>
        simp [arrive, howner, held, setOp, Goal.command, Op.unrecorded, Reply.grant]

theorem held_of_awaited {ticket : Ticket n m} (hc : h.Consistent) (htick : ticket ∈ h.awaited self)
    (hcmd : ticket.2 ≠ .writerInvalidateShared) : h.held node = 0 := by
  obtain ⟨queue, goal, target, number, flag, howner, hflag, -⟩ := awaited_modified htick hcmd
  have hstat : h.status = .invalid := hc.fits _ howner
  rcases hflag with rfl | rfl <;> cases goal <;>
    simp [held, howner, hstat, LockStatus.shares, Op.unrecorded]

end Handle

namespace Cluster

variable {c after : Cluster n m α} {event : Event n m α} {effects : List (Effect n m α)}
  {slot : Slot n m} {h : Handle n m α} {node : Fin n} {index : ℕ}

def outstanding (c : Cluster n m α) : Shares n := (c.posted.map Posted.shares).sum

def granted (c : Cluster n m α) : Shares n := (c.replies.map Reply.grant).sum

def held (c : Cluster n m α) : Shares n := ∑ slot, (c.handles slot).held slot.1

/-- The nodes whose share a posted operation will change. -/
def changing (c : Cluster n m α) : List (Fin n) := c.posted.flatMap Posted.nodes

/-- A handle is put into the table only when no handle of the node has the latch. -/
def insertsUnlatched (c : Cluster n m α) : Event n m α → Bool
  | .lookupInsert slot => decide (∀ position, (c.handles (slot.1, position)).status = .invalid)
  | _ => true

/-- No two posted operations are to change the share of one node, and no thread changes a share
that a posted operation is to change. -/
def settled (c : Cluster n m α) : Event n m α → Bool
  | .thread slot action => (c.step (.thread slot action)).all fun after =>
      after.changing.Nodup && after.changing.all fun node => after.shares node = c.shares node
  | _ => true

def entersLatched (c : Cluster n m α) : Event n m α → Bool
  | .thread slot action => (c.handles slot).entersLatched slot.1 action
  | _ => true

def orderly (c : Cluster n m α) (event : Event n m α) : Bool :=
  c.careful event && c.insertsUnlatched event && c.settled event && c.entersLatched event

/-- The shares add up to the word, and are what the handles have or are granted as soon as the
outstanding operations are executed. -/
structure Accounted (c : Cluster n m α) : Prop where
  word : c.word = ∑ node, c.shares node
  balance : c.shares + c.outstanding = c.held + c.granted
  apart : c.changing.Nodup
  proper : ∀ node : Fin n, Proper node (c.shares node)

def OneEngaged (c : Cluster n m α) : Prop :=
  ∀ node p q, (c.handles (node, p)).engaged → (c.handles (node, q)).engaged → p = q

theorem OneEngaged.step (hc : c.OneEngaged) (hm : c.Matching) (hstep : c.step event = some after)
    (hinss : c.insertsUnlatched event = true) : after.OneEngaged := by
  refine unique_step hstep hc ?_ ?_
  · rintro slot rfl position (htable | hstat)
    · cases step_cases hstep with
      | lookupInsert _ hnode => exact hnode position htable
    · exact hstat (of_decide_eq_true hinss position)
  · intro hevent
    refine @step_forall n m α c after event (fun slot h => h.engaged →
      (c.handles slot).engaged) hstep (fun _ => id) ?_ ?_ ?_
    · rintro slot action - changed effects hact
      exact (hm.consistent slot).engaged_act (Handle.act_cases hact)
    · intro slot heq
      exact absurd heq (hevent slot)
    · intro slot h seen changed hpass hins hback hnext hengaged
      obtain ⟨hplacement, hstat⟩ := Handle.passive_keeps hpass hins hnext
      refine hback ?_
      rwa [Handle.engaged, hplacement, hstat] at hengaged

theorem held_setHandle :
    (c.setHandle slot h).held + (c.handles slot).held slot.1 = c.held + h.held slot.1 := by
  have hsum := TokenFlow.sum_update (fun slot (h : Handle n m α) => h.held slot.1) c.handles slot h
  unfold held setHandle
  exact hsum

theorem held_same (hheld : h.held slot.1 = (c.handles slot).held slot.1) :
    (c.setHandle slot h).held = c.held := by
  have hsum := @held_setHandle n m α c slot h
  rw [hheld] at hsum
  exact add_right_cancel hsum

theorem applyAll_held (hm : c.Matching) {remote : Remote α} {action : Action α}
    (hact : Handle.Acts slot remote (c.handles slot) action h effects) :
    ((c.setHandle slot h).applyAll effects).held = (c.setHandle slot h).held := by
  rcases hact.prompt_or_pending with hprompt | ⟨request, hhold, hcmd, hrem, rfl, hchanged⟩
  · simp only [held, applyAll_handles hprompt]
  · -- the sender of the request that is now pending still waits for it
    have hawait : request.ticket ∈ ((c.setHandle slot h).handles request.call.slot).awaited
        request.call.slot := by
      have hsame : ∀ other, ((c.setHandle slot h).handles other).awaited other =
          (c.handles other).awaited other :=
        @setHandle_forall n m α c (fun other h => h.awaited other = (c.handles other).awaited other)
          (fun _ => rfl) slot h (by rw [hchanged]; rfl)
      rw [hsame]
      refine @Flow.mem_awaited n m α c slot hm.flow request.ticket ?_
      simp [Handle.owed, hhold, Request.owed, Handle.needsReply_of_not_reminder hrem]
    have hdrop := @applyAll_handles n m α (c.setHandle slot h) _
      (@Handle.prompt_drop n m α (c.handles slot))
    rw [applyAll_append]
    refine (held_same ?_).trans ?_
    · rw [hdrop]
      exact Handle.held_arrivePending hawait hcmd
    · simp only [held, hdrop]

theorem applyAll_moved : (c.applyAll effects).shares + (c.applyAll effects).outstanding -
    (c.applyAll effects).granted = c.shares + c.outstanding - c.granted + moved effects := by
  induction effects generalizing c with
  | nil => simp [applyAll]
  | cons effect effects ih =>
    have heffect : (c.apply effect).shares + (c.apply effect).outstanding -
        (c.apply effect).granted = c.shares + c.outstanding - c.granted + effect.moved := by
      cases effect <;> simp [apply, outstanding, granted, Effect.moved, setHandle] <;> abel
    rw [show c.applyAll (effect :: effects) = (c.apply effect).applyAll effects from rfl, ih,
      heffect, Handle.moved_cons, add_assoc]

theorem applyAll_word (hword : c.word = ∑ node, c.shares node) :
    (c.applyAll effects).word = ∑ node, (c.applyAll effects).shares node := by
  induction effects generalizing c with
  | nil => exact hword
  | cons effect effects ih =>
    refine ih ?_
    cases effect
    case add node delta => simp [apply, hword, Finset.sum_add_distrib]
    all_goals exact hword

theorem sum_apply_of_zero {S : Type} {shares : S → Shares n} {items : List S}
    (hzero : ∀ item ∈ items, shares item node = 0) : (items.map shares).sum node = 0 := by
  induction items with
  | nil => rfl
  | cons item items ih =>
    have hrest := ih fun other hother => hzero other (mem_cons_of_mem _ hother)
    rw [map_cons, sum_cons, Pi.add_apply, hzero item mem_cons_self, hrest, add_zero]

theorem outstanding_of_notMem (hnode : node ∉ c.changing) : c.outstanding node = 0 :=
  sum_apply_of_zero fun _ hoperation => Posted.shares_of_notMem fun hmem =>
    hnode (mem_flatMap.2 ⟨_, hoperation, hmem⟩)

namespace Matching

theorem held_of_engaged (hm : c.Matching) (hc : c.OneEngaged) {position : Fin m}
    (hengaged : (c.handles (node, position)).engaged) :
    c.held node = (c.handles (node, position)).held node node := by
  unfold held
  rw [Finset.sum_apply]
  refine Finset.sum_eq_single (node, position) (fun slot _ hne => ?_) (by simp)
  by_cases hnode : node = slot.1
  · have hidle : ¬ (c.handles slot).engaged := by
      intro hother
      subst hnode
      exact hne (Prod.ext rfl (hc slot.1 slot.2 position hother hengaged))
    rw [(hm.consistent slot).held_of_idle hidle, Pi.zero_apply]
  · exact (hm.consistent slot).held_of_ne hnode

theorem held_of_idle (hm : c.Matching)
    (hidle : ∀ position, ¬ (c.handles (node, position)).engaged) : c.held node = 0 := by
  unfold held
  rw [Finset.sum_apply]
  refine Finset.sum_eq_zero fun slot _ => ?_
  by_cases hnode : node = slot.1
  · subst hnode
    rw [(hm.consistent slot).held_of_idle (hidle slot.2), Pi.zero_apply]
  · exact (hm.consistent slot).held_of_ne hnode

theorem asked_of_grant (hm : c.Matching) {reply : Reply n m α} (hreply : reply ∈ c.replies)
    (hgrant : reply.grant node ≠ 0) :
    reply.call.slot.1 = node ∧ reply.command ≠ .writerInvalidateShared ∧
      (c.handles reply.call.slot).placement = .table := by
  obtain ⟨hnode, mode, content, hbody⟩ := Reply.page_of_grant hgrant
  obtain ⟨-, queue, goal, phase, howner⟩ :=
    Handle.awaited_owner (hm.flow.mem_awaited_of_reply hreply)
  refine ⟨hnode, fun hshared => ?_, (hm.consistent _).table_of_owner howner⟩
  have hmode := hm.pages reply hreply mode content hbody
  simp [hshared, InvCommand.grants] at hmode

/-- A node is granted the latch once at a time. -/
theorem granted_of_page (hm : c.Matching) {reply : Reply n m α}
    (hindex : c.replies[index]? = some reply) (hgrant : reply.grant node ≠ 0) :
    c.granted node = reply.grant node := by
  have hreply := mem_of_getElem? hindex
  obtain ⟨hnode, hcmd, htable⟩ := hm.asked_of_grant hreply hgrant
  have hrest : ∀ other ∈ c.replies.eraseIdx index, other.grant node = 0 := by
    intro other hother
    by_contra hne
    obtain ⟨hnode', -, htable'⟩ := hm.asked_of_grant (mem_of_mem_eraseIdx hother) hne
    have hsame : other.call.slot = reply.call.slot := by
      rw [← hnode] at hnode'
      refine Prod.ext hnode' (hm.table reply.call.slot.1 _ _ ?_ htable)
      rwa [← hnode']
    -- once the page has arrived, its receiver waits for nothing
    have hafter := (hm.flow.arrive hindex).mem_awaited_of_reply hother
    rw [hsame, setHandle_self, Handle.awaited_arrive_modified
      (hm.flow.mem_awaited_of_reply hreply) hcmd] at hafter
    exact absurd hafter (Multiset.notMem_zero _)
  have hsum := TokenFlow.sum_eraseIdx Reply.grant hindex
  unfold granted
  rw [← hsum, Pi.add_apply, sum_apply_of_zero hrest, add_zero]

theorem held_granted_proper (hm : c.Matching) (hc : c.OneEngaged) (node : Fin n) :
    Proper node ((c.held + c.granted) node) := by
  rw [Pi.add_apply]
  by_cases hpage : ∃ reply ∈ c.replies, reply.grant node ≠ 0
  · obtain ⟨reply, hreply, hgrant⟩ := hpage
    obtain ⟨index, hindex⟩ := getElem?_of_mem hreply
    obtain ⟨hnode, hcmd, htable⟩ := hm.asked_of_grant hreply hgrant
    obtain ⟨-, mode, content, hbody⟩ := Reply.page_of_grant hgrant
    rw [hm.granted_of_page hindex hgrant]
    subst hnode
    have hheld : c.held reply.call.slot.1 = 0 := by
      rw [@held_of_engaged n m α c _ hm hc reply.call.slot.2 (.inl htable)]
      exact congrFun (Handle.held_of_awaited (hm.consistent _)
        (hm.flow.mem_awaited_of_reply hreply) hcmd) _
    rw [hheld, zero_add, Reply.grant, hbody]
    exact share_proper _ mode
  · push Not at hpage
    rw [granted, sum_apply_of_zero hpage, add_zero]
    by_cases hengaged : ∃ position, (c.handles (node, position)).engaged
    · obtain ⟨position, hengaged⟩ := hengaged
      rw [hm.held_of_engaged hc hengaged]
      rcases (hm.consistent (node, position)).held_cases node with hheld | ⟨mode, hheld⟩
      · exact .inl (congrFun hheld node)
      · rw [hheld]
        exact share_proper node mode
    · push Not at hengaged
      exact .inl (hm.held_of_idle hengaged)

end Matching

namespace Accounted

theorem start (content : α) (data : Slot n m → α) : (start content data).Accounted where
  word := by simp [Cluster.start]
  balance := by
    simp [Cluster.start, outstanding, Cluster.held, granted, Handle.fresh, Handle.held,
      LockStatus.shares]
  apart := nodup_nil
  proper node := .inl rfl

/-- A share that no posted operation is to change is what the handles of the node have. -/
theorem next (ha : c.Accounted) (hm : after.Matching) (hc : after.OneEngaged)
    (hword : after.word = ∑ node, after.shares node)
    (hbalance : after.shares + after.outstanding = after.held + after.granted)
    (hapart : after.changing.Nodup)
    (hshares : ∀ node, node ∈ after.changing → after.shares node = c.shares node) :
    after.Accounted := by
  refine ⟨hword, hbalance, hapart, fun node => ?_⟩
  by_cases hnode : node ∈ after.changing
  · rw [hshares node hnode]
    exact ha.proper node
  · have hshare := congrFun hbalance node
    rw [Pi.add_apply, outstanding_of_notMem hnode, add_zero] at hshare
    rw [hshare]
    exact hm.held_granted_proper hc node

theorem quiet (ha : c.Accounted) (hword : after.word = c.word) (hshares : after.shares = c.shares)
    (hposted : after.posted = c.posted)
    (hheld : after.held + after.granted = c.held + c.granted) : after.Accounted where
  word := by rw [hword, hshares, ha.word]
  balance := by rw [hheld, ← ha.balance, hshares, outstanding, hposted, outstanding]
  apart := by rw [changing, hposted]; exact ha.apart
  proper node := by rw [hshares]; exact ha.proper node

theorem execute (ha : c.Accounted) {operation : Posted n α}
    (hindex : c.posted[index]? = some operation)
    (hm : ({ c with posted := c.posted.eraseIdx index }.perform operation.work).Matching)
    (hc : ({ c with posted := c.posted.eraseIdx index }.perform operation.work).OneEngaged) :
    ({ c with posted := c.posted.eraseIdx index }.perform operation.work).Accounted := by
  have hsum := TokenFlow.sum_eraseIdx Posted.shares hindex
  obtain ⟨hlen, hget⟩ := List.getElem?_eq_some_iff.1 hindex
  have hperm := (getElem_cons_eraseIdx_perm hlen).flatMap_right Posted.nodes
  rw [hget, flatMap_cons] at hperm
  obtain ⟨-, hapart, hdisj⟩ := nodup_append.1 (hperm.nodup_iff.2 ha.apart)
  obtain ⟨queue, work⟩ := operation
  cases work with
  | writePage content =>
    refine ha.next hm hc ha.word (Eq.trans ?_ ha.balance) hapart fun _ _ => rfl
    exact congrArg (c.shares + ·) ((zero_add _).symm.trans hsum)
  | fetchAdd move =>
    refine ha.next hm hc ?_ (Eq.trans ?_ ha.balance) hapart fun node hnode => ?_
    · simp [perform, ha.word, Finset.sum_add_distrib, move.sum_shares]
    · exact (add_assoc ..).trans (congrArg (c.shares + ·) hsum)
    · have hzero : move.shares node = 0 := @Posted.shares_of_notMem n α ⟨queue, .fetchAdd move⟩ node
        fun hmem => hdisj node hmem node hnode rfl
      exact (congrArg (c.shares node + ·) hzero).trans (add_zero _)

theorem thread (ha : c.Accounted) (hm : c.Matching) {action : Action α}
    (hact : Handle.Acts slot ⟨c.word, c.memory⟩ (c.handles slot) action h effects)
    (henters : (c.handles slot).entersLatched slot.1 action = true) :
    ((c.setHandle slot h).applyAll effects).shares + ((c.setHandle slot h).applyAll
      effects).outstanding = ((c.setHandle slot h).applyAll effects).held +
        ((c.setHandle slot h).applyAll effects).granted := by
  have hmoved := @applyAll_moved n m α (c.setHandle slot h) effects
  have hset := @held_setHandle n m α c slot h
  rw [hact.held (hm.consistent slot) henters] at hset
  refine eq_add_of_sub_eq (hmoved.trans ?_)
  rw [applyAll_held hm hact]
  refine add_right_cancel (b := (c.handles slot).held slot.1) (Eq.trans ?_ hset.symm)
  have hbalance : (c.setHandle slot h).shares + (c.setHandle slot h).outstanding -
      (c.setHandle slot h).granted = c.held := sub_eq_of_eq_add ha.balance
  rw [hbalance]
  abel

theorem step (ha : c.Accounted) (hm : c.Matching) (hm' : after.Matching) (hc' : after.OneEngaged)
    (hsettled : c.settled event = true) (henters : c.entersLatched event = true)
    (hstep : c.step event = some after) : after.Accounted := by
  cases step_cases hstep with
  | thread slot action changed effects hact hdrained =>
    have hacts := Handle.act_cases hact
    simp only [settled, hstep, Option.all_some, Bool.and_eq_true, decide_eq_true_eq,
      all_eq_true] at hsettled
    exact ha.next hm' hc' (applyAll_word ha.word) (ha.thread hm hacts henters) hsettled.1
      hsettled.2
  | lookupInsert slot hnode hfree =>
    exact ha.quiet rfl rfl rfl (congrArg (· + c.granted) (held_same rfl))
  | receive index target request position locked accepted hindex hplace hacpt =>
    exact ha.quiet rfl rfl rfl
      (congrArg (· + c.granted) (@held_same n m α c _ _ (Handle.held_accept hacpt)))
  | receiveAbsent index target request locked hindex hnode =>
    unfold Handle.decline
    split_ifs
    · exact ha.quiet rfl rfl rfl (by simp [applyAll, apply, held, granted, Reply.grant])
    · exact ha.quiet rfl rfl rfl rfl
  | arrive index reply hindex =>
    have hreply := mem_of_getElem? hindex
    have hset := @held_setHandle n m α c reply.call.slot
      ((c.handles reply.call.slot).arrive reply)
    rw [Handle.held_arrive (hm.flow.mem_awaited_of_reply hreply) (hm.pages reply hreply)] at hset
    have hheld : (c.setHandle reply.call.slot ((c.handles reply.call.slot).arrive reply)).held =
        c.held + reply.grant := by
      refine add_right_cancel (hset.trans ?_)
      abel
    refine ha.quiet rfl rfl rfl ((congrArg (· + _) hheld).trans ((add_assoc ..).trans ?_))
    exact congrArg (c.held + ·) (TokenFlow.sum_eraseIdx Reply.grant hindex)
  | execute index operation hindex hfirst => exact ha.execute hindex hm' hc'
  | reuse slot content hfree =>
    exact ha.quiet rfl rfl rfl (congrArg (· + c.granted) (held_same rfl))

end Accounted

/-- At most one handle of a node has the latch of the page, and what the node has in the latch
word is nothing, one shared bit or one exclusive byte. -/
theorem one_latched_handle (hrun : TransitionSystem.Reachable step
    (fun c event => c.orderly event = true) initial c) :
    (∀ node p q, (c.handles (node, p)).status ≠ .invalid → (c.handles (node, q)).status ≠ .invalid →
      p = q) ∧
    c.word = ∑ node, c.shares node ∧ ∀ node : Fin n, Proper node (c.shares node) := by
  obtain ⟨-, hc, ha⟩ : c.Matching ∧ c.OneEngaged ∧ c.Accounted := by
    refine @TransitionSystem.Reachable.invariant _ _ _ _ _ c
      (fun c => c.Matching ∧ c.OneEngaged ∧ c.Accounted) ?_ ?_ hrun
    · rintro c ⟨content, data, rfl⟩
      refine ⟨.start content data, fun node p q hp => ?_, .start content data⟩
      simp [start, Handle.fresh, Handle.engaged] at hp
    · rintro c event after ⟨hm, hc, ha⟩ horder hstep
      simp only [orderly, Bool.and_eq_true] at horder
      obtain ⟨⟨⟨hcare, hinss⟩, hsettled⟩, henters⟩ := horder
      have hm' := hm.step hcare hstep
      have hc' := hc.step hm hstep hinss
      exact ⟨hm', hc', ha.step hm hm' hc' hsettled henters hstep⟩
  exact ⟨fun node p q hp hq => hc node p q (.inr hp) (.inr hq), ha.word, ha.proper⟩

open Event (acts reads)

def readAgain {n m : ℕ} [NeZero n] [NeZero m] (deallocated : List (Event n m ℕ)) :
    List (Event n m ℕ) :=
  [.lookupInsert (0, 0)] ++ acts (0, 0) (reads ++ [.readerPost, .evict]) ++ deallocated ++
    [.lookupInsert (0, 1)] ++ acts (0, 1) reads

theorem one_latched_handle_readAgain : ∃ c : Cluster 2 2 ℕ,
    TransitionSystem.Reachable step (fun c event => c.orderly event = true) initial c ∧
      (c.handles (0, 1)).status = .shared ∧ (c.handles (0, 0)).status = .invalid ∧
      c.word = c.shares 0 + c.shares 1 := by
  obtain ⟨c, hrun, hshared⟩ : ∃ c : Cluster 2 2 ℕ, TransitionSystem.Reachable step
      (fun c event => c.orderly event = true) initial c ∧ (c.handles (0, 1)).status = .shared :=
    TransitionSystem.Reachable.exists_of_schedule
      (readAgain [.thread (0, 0) (.deallocate 1), .execute 0]) ⟨0, fun _ => 0, rfl⟩
      (by decide +kernel)
  obtain ⟨hunique, hword, -⟩ := one_latched_handle hrun
  refine ⟨c, hrun, hshared, ?_, by rw [hword, Fin.sum_univ_two]⟩
  by_contra hlat
  cases hunique 0 0 1 hlat (by simp [hshared])

/-- The second handle takes the latch before the latch of the evicted one is given back, and the
word has the bit of node 1. -/
theorem two_latched_handles : ∃ c : Cluster 2 2 ℕ,
    TransitionSystem.Reachable step (fun _ _ => True) initial c ∧
      (c.handles (0, 0)).status = .shared ∧ (c.handles (0, 1)).status = .shared ∧
      c.shares 0 = sharedBit 0 + sharedBit 0 ∧ c.word = sharedBit 1 :=
  TransitionSystem.Reachable.exists_of_schedule (readAgain []) ⟨0, fun _ => 0, rfl⟩
    (by decide +kernel)

end Cluster

end MemoryEngine.Selcc
