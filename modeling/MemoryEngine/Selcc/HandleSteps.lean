import MemoryEngine.Selcc.CacheHandle

/-! What an action of a thread does to its handle, case by case, and all that happens to a handle
on its own. -/
namespace MemoryEngine.Selcc.Handle

variable {n m : ℕ} {α : Type} (self : Slot n m) (remote : Remote α) (h : Handle n m α)

/-- `h.act self remote action = some (after, effects)`, with one constructor for each path. -/
inductive Acts : Action α → Handle n m α → List (Effect n m α) → Prop where
  | readerHit (counted) (htable : h.placement = .table) (howner : h.owner = none)
      (hstat : h.status ≠ .invalid) :
      Acts (.readerHit counted) ({ h with readers := h.readers + 1 }.countRead counted) []
  | readerMiss (queue tries counted) (htable : h.placement = .table) (howner : h.owner = none)
      (hrdrs : h.readers = 0) (hstat : h.status = .invalid) :
      Acts (.readerMiss queue tries counted)
        ((h.countRead counted).setOp queue (.acquire (.reader tries) (.retry .nothing))) []
  | unlockShared (hrdrs : 0 < h.readers) :
      Acts .unlockShared { h with readers := h.readers - 1, upgrading := h.upgrading + 1 } []
  | writerLock (queue access counted upgrading) (howner : h.owner = none) (hrdrs : h.readers ≤ 1)
      (htable : h.placement = .table ∨ 0 < h.readers ∨ 0 < h.upgrading)
      (hupg : upgrading ≤ h.upgrading) :
      Acts (.writerLock queue access counted)
        (({ h with readers := 0, upgrading := upgrading }.countWrite counted).startWriter
          queue access) []
  | rlockFaa (queue tries targets)
      (howner : h.owner = some ⟨queue, .acquire (.reader tries) (.retry targets)⟩) :
      Acts .rlockFaa (h.setOp queue (.acquire (.reader tries) (.read remote.word)))
        [.add self.1 (sharedBit self.1)]
  | rlockGranted (queue tries old)
      (howner : h.owner = some ⟨queue, .acquire (.reader tries) (.read old)⟩)
      (hold : writeByte old < 100) : Acts .rlockRead { h with data := remote.memory }.enterShared []
  | rlockRefused (queue tries old)
      (howner : h.owner = some ⟨queue, .acquire (.reader tries) (.read old)⟩)
      (hold : 100 ≤ writeByte old) :
      Acts .rlockRead
        ({ h with data := remote.memory }.setOp queue (.acquire (.reader tries) (.retract old))) []
  | rlockRetract (queue tries old)
      (howner : h.owner = some ⟨queue, .acquire (.reader tries) (.retract old)⟩) :
      Acts .rlockRetract
        (h.setOp queue (.acquire (.reader tries) (.retry (rlockTarget self.1 old))))
        [.add self.1 (-sharedBit self.1)]
  | wlockCas (queue access targets)
      (howner : h.owner = some ⟨queue, .acquire (.writer access) (.retry targets)⟩) :
      Acts .wlockCas (h.setOp queue (.acquire (.writer access) (.read remote.word)))
        (if remote.word = 0 then [.add self.1 (exclusiveByte self.1)] else [])
  | wlockAcquired (queue access old data)
      (howner : h.owner = some ⟨queue, .acquire (.writer access) (.read old)⟩)
      (hold : wlockOutcome self.1 old = none)
      (hdata : data = if access = .writer then h.data else remote.memory) :
      Acts .wlockRead ({ h with data := data }.enterExclusive queue) []
  | wlockRefused (queue access old data targets)
      (howner : h.owner = some ⟨queue, .acquire (.writer access) (.read old)⟩)
      (hold : wlockOutcome self.1 old = some targets)
      (hdata : data = if access = .writer then h.data else remote.memory) :
      Acts .wlockRead
        ({ h with data := data }.setOp queue (.acquire (.writer access) (.retry targets))) []
  | giveUp (queue goal targets) (howner : h.owner = some ⟨queue, .acquire goal (.retry targets)⟩)
      (htries : goal.tries = true) : Acts .giveUp h.unlock []
  | invalidateModified (starvation queue goal target)
      (howner : h.owner = some ⟨queue, .acquire goal (.retry (.modified target))⟩) :
      Acts (.invalidateModified starvation)
        ({ h with calls := h.calls + 1 }.setOp queue (.acquire goal (.rpc target h.calls .waiting)))
        [.send target ⟨⟨self, h.calls⟩, goal.command, starvation, false⟩]
  | invalidateShared (starvation queue goal holders)
      (howner : h.owner = some ⟨queue, .acquire goal (.retry (.shared holders))⟩) :
      Acts (.invalidateShared starvation)
        ({ h with calls := h.calls + (sharedRequests self h.calls starvation holders).length }.setOp
          queue (.acquire goal
            (.rpcShared (callNumbers (sharedRequests self h.calls starvation holders)))))
        ((sharedRequests self h.calls starvation holders).map fun sent => .send sent.1 sent.2)
  | remind (starvation queue goal target number)
      (howner : h.owner = some ⟨queue, .acquire goal (.rpc target number .pending)⟩) :
      Acts (.remind starvation) h [.send target ⟨⟨self, number⟩, goal.command, starvation, true⟩]
  | resumeReader (queue tries target number)
      (howner : h.owner = some ⟨queue, .acquire (.reader tries) (.rpc target number .processed)⟩) :
      Acts .resume h.enterShared []
  | resumeWriter (queue access target number)
      (howner : h.owner = some ⟨queue, .acquire (.writer access) (.rpc target number .processed)⟩) :
      Acts .resume (h.enterExclusive queue) []
  | resumeDropped (queue goal target number)
      (howner : h.owner = some ⟨queue, .acquire goal (.rpc target number .dropped)⟩) :
      Acts .resume (h.setOp queue (.acquire goal (.retry .nothing))) []
  | resumeShared (queue goal) (howner : h.owner = some ⟨queue, .acquire goal (.rpcShared [])⟩) :
      Acts .resume (h.setOp queue (.acquire goal (.retry .nothing))) []
  | upgradeGranted (queue access) (howner : h.owner = some ⟨queue, .upgrade access .cas⟩)
      (hword : remote.word = sharedBit self.1) :
      Acts .upgradeCas (h.setOp queue (.upgrade access .won))
        [.add self.1 (exclusiveByte self.1 - sharedBit self.1)]
  | upgradeRefused (queue access) (howner : h.owner = some ⟨queue, .upgrade access .cas⟩)
      (hword : remote.word ≠ sharedBit self.1) :
      Acts .upgradeCas (h.setOp queue (.upgrade access .lost)) []
  | upgradeWon (queue access) (howner : h.owner = some ⟨queue, .upgrade access .won⟩)
      (hhold : h.invHolder = none) : Acts .upgradeWon (h.clearBuffered.enterExclusive queue) []
  | upgradeUnlock (queue access) (howner : h.owner = some ⟨queue, .upgrade access .lost⟩) :
      Acts .upgradeUnlock ((h.setStatus .invalid).setOp queue (.upgrade access .released))
        [.add self.1 (-sharedBit self.1)]
  | upgradeGivenUp (queue access) (howner : h.owner = some ⟨queue, .upgrade access .released⟩)
      (hclears : access.clears = true) (hhold : h.invHolder = none)
      (htries : access.tries = true) : Acts .upgradeLost h.clearBuffered.unlock []
  | upgradeCleared (queue access) (howner : h.owner = some ⟨queue, .upgrade access .released⟩)
      (hclears : access.clears = true) (hhold : h.invHolder = none) :
      Acts .upgradeLost (h.clearBuffered.setOp queue (.acquire (.writer access) (.retry .nothing)))
        []
  | upgradeKept (queue access) (howner : h.owner = some ⟨queue, .upgrade access .released⟩)
      (hclears : access.clears = false) :
      Acts .upgradeLost (h.setOp queue (.acquire (.writer access) (.retry .nothing))) []
  | modify (content queue touched) (howner : h.owner = some ⟨queue, .inside touched⟩) :
      Acts (.modify content) ({ h with data := content }.setOp queue (.inside true)) []
  | writerPost (queue touched) (howner : h.owner = some ⟨queue, .inside touched⟩)
      (hproc : h.mustProcess = false) : Acts .writerPost h.unlock [.finish h.data]
  | writerPostUrged (queue touched) (howner : h.owner = some ⟨queue, .inside touched⟩)
      (hproc : h.mustProcess = true) : Acts .writerPost (h.setOp queue .post) [.finish h.data]
  | readerPost (leaving) (hrdrs : 0 < h.readers) :
      Acts .readerPost { h with readers := h.readers - 1, leaving := leaving } []
  | readerPostLock (queue) (hleave : 0 < h.leaving) (howner : h.owner = none)
      (hrdrs : h.readers = 0) :
      Acts (.readerPostLock queue) { h with leaving := h.leaving - 1 } []
  | readerPostUrged (queue) (hleave : 0 < h.leaving) (howner : h.owner = none)
      (hrdrs : h.readers = 0) (hproc : h.mustProcess = true) :
      Acts (.readerPostLock queue) ({ h with leaving := h.leaving - 1 }.setOp queue .post) []
  | postProcess (queue) (howner : h.owner = some ⟨queue, .post⟩) (hhold : h.invHolder = none) :
      Acts .postProcess (h.processBufferedInvMessage self queue).1.unlock
        (h.processBufferedInvMessage self queue).2
  | checkShared (queue request) (howner : h.owner = some ⟨queue, .handler request .check⟩)
      (hcmd : request.command = .writerInvalidateShared) (hhold : h.invHolder = none)
      (hstat : h.status = .shared) :
      Acts .handlerCheck ((h.setStates request).setOp queue (.handler request .process)) []
  | checkDeclined (queue request) (howner : h.owner = some ⟨queue, .handler request .check⟩)
      (hneeds : request.needsReply = true) : Acts .handlerCheck h.unlock (decline request)
  | checkReminder (queue request) (howner : h.owner = some ⟨queue, .handler request .check⟩)
      (hcmd : request.command ≠ .writerInvalidateShared) (hrem : request.reminder = true)
      (hbuf : h.buffered ≠ none) :
      Acts .handlerCheck (h.setOp queue (.handler request .process)) []
  | checkReminderIdle (queue request) (howner : h.owner = some ⟨queue, .handler request .check⟩)
      (hcmd : request.command ≠ .writerInvalidateShared) (hrem : request.reminder = true) :
      Acts .handlerCheck h.unlock []
  | checkModified (queue request) (howner : h.owner = some ⟨queue, .handler request .check⟩)
      (hcmd : request.command ≠ .writerInvalidateShared) (hrem : request.reminder = false)
      (hhold : h.invHolder = none) (hstat : h.status = .exclusive) :
      Acts .handlerCheck ((h.setStates request).setOp queue (.handler request .process))
        h.dropBufferedInvMessage
  | checkProcess (queue request) (howner : h.owner = some ⟨queue, .handler request .check⟩)
      (hcmd : request.command ≠ .writerInvalidateShared) (hrem : request.reminder = false)
      (hhold : h.invHolder = none) (hbuf : h.buffered ≠ none) :
      Acts .handlerCheck (h.processBufferedInvMessage self queue).1.unlock
        ((h.processBufferedInvMessage self queue).2 ++ decline request)
  | handlerProcess (queue request) (howner : h.owner = some ⟨queue, .handler request .process⟩)
      (hhold : h.invHolder = none) :
      Acts .handlerProcess (h.processBufferedInvMessage self queue).1.unlock
        ((h.processBufferedInvMessage self queue).2 ++ acknowledge request)
  | bufferSkip (index request) (hindex : h.handlers[index]? = some request)
      (hstat : h.status ≠ request.command.status) :
      Acts (.bufferSkip index) { h with handlers := h.handlers.eraseIdx index } (decline request)
  | bufferBegin (index request) (hindex : h.handlers[index]? = some request)
      (hstat : h.status = request.command.status) (hhold : h.invHolder = none) :
      Acts (.bufferBegin index)
        { h with handlers := h.handlers.eraseIdx index, invHolder := some request } []
  | endShared (request) (hhold : h.invHolder = some request)
      (hcmd : request.command = .writerInvalidateShared) (hbuf : h.buffered = none) :
      Acts .bufferEnd ({ h with invHolder := none }.setStates request) (decline request)
  | endDeclined (request) (hhold : h.invHolder = some request)
      (hneeds : request.needsReply = true) :
      Acts .bufferEnd { h with invHolder := none } (decline request)
  | endReminder (request message) (hhold : h.invHolder = some request)
      (hcmd : request.command ≠ .writerInvalidateShared) (hrem : request.reminder = true)
      (hbuf : h.buffered = some message) (hnode : message.call.slot.1 = request.call.slot.1) :
      Acts .bufferEnd ({ h with invHolder := none }.setStates request) []
  | endReminderIdle (request) (hhold : h.invHolder = some request)
      (hcmd : request.command ≠ .writerInvalidateShared) (hrem : request.reminder = true) :
      Acts .bufferEnd { h with invHolder := none } []
  | endPending (request) (hhold : h.invHolder = some request)
      (hcmd : request.command ≠ .writerInvalidateShared) (hrem : request.reminder = false) :
      Acts .bufferEnd ({ h with invHolder := none }.setStates request)
        (h.dropBufferedInvMessage ++ [.pending request.call request.command])
  | evict (htable : h.placement = .table) (hreferenced : h.referenced = false) :
      Acts .evict { h with placement := .victim } []
  | deallocate (queue) (hvict : h.placement = .victim) :
      Acts (.deallocate queue) (h.deallocate self queue).1 (h.deallocate self queue).2

variable {self remote h} {after : Handle n m α} {queue : ℕ}
  {action : Action α} {effects : List (Effect n m α)}

@[simp] theorem countRead_placement (counted : Bool) :
    (h.countRead counted).placement = h.placement := by
  unfold countRead
  split_ifs <;> rfl

@[simp] theorem countWrite_placement (counted : Bool) :
    (h.countWrite counted).placement = h.placement := by
  unfold countWrite
  split_ifs <;> rfl

@[simp] theorem startWriter_placement (access : Access) :
    (h.startWriter queue access).placement = h.placement := by
  unfold startWriter
  split <;> rfl

@[simp] theorem clearBuffered_placement : h.clearBuffered.placement = h.placement := by
  unfold clearBuffered
  split_ifs <;> rfl

@[simp] theorem process_placement :
    (h.processBufferedInvMessage self queue).1.placement = h.placement := by
  unfold processBufferedInvMessage
  split
  · rfl
  · split <;> rfl
  · rfl

theorem latchFree_iff : h.latchFree = true ↔ h.readers = 0 ∧ h.owner = none := by
  simp [latchFree]

theorem needsReply_of_not_reminder {request : Request n m}
    (h : request.reminder = false) : request.needsReply = true := by
  simp [Request.needsReply, h]

theorem needsReply_of_shared {request : Request n m}
    (h : request.command = .writerInvalidateShared) : request.needsReply = true := by
  simp [Request.needsReply, h]

theorem writerLatch_cases {access : Access} (hlatch : h.writerLatch access = some after) :
    ∃ upgrading, after = { h with readers := 0, upgrading := upgrading } ∧ h.owner = none ∧
      h.readers ≤ 1 ∧ (h.placement = .table ∨ 0 < h.readers ∨ 0 < h.upgrading) ∧
      upgrading ≤ h.upgrading := by
  cases access
  case tryUpgrade =>
    simp only [writerLatch] at hlatch
    split_ifs at hlatch with hguard
    cases hlatch
    exact ⟨h.upgrading, rfl, hguard.2, by omega, .inr (.inl (by omega)), le_rfl⟩
  case upgrade =>
    simp only [writerLatch, latchFree_iff] at hlatch
    split_ifs at hlatch with hguard
    cases hlatch
    obtain ⟨⟨hrdrs, howner⟩, hupg⟩ := hguard
    exact ⟨h.upgrading - 1, by rw [← hrdrs], howner, by omega, .inr (.inr hupg), by omega⟩
  all_goals
    simp only [writerLatch, latchFree_iff] at hlatch
    split_ifs at hlatch with hguard
    cases hlatch
    obtain ⟨⟨hrdrs, howner⟩, htable⟩ := hguard
    exact ⟨h.upgrading, by rw [← hrdrs], howner, by omega, .inl htable, le_rfl⟩

theorem handlerCheck_cases {request : Request n m}
    (howner : h.owner = some ⟨queue, .handler request .check⟩)
    (hcheck : h.handlerCheck self queue request = some (after, effects)) :
    Acts self remote h .handlerCheck after effects := by
  unfold handlerCheck at hcheck
  split at hcheck
  case h_1 hcmd =>
    split_ifs at hcheck with hhold hstat
    · obtain ⟨rfl, rfl⟩ := hcheck
      exact .checkShared queue request howner hcmd (by simpa using hhold) hstat
    · obtain ⟨rfl, rfl⟩ := hcheck
      exact .checkDeclined queue request howner (needsReply_of_shared hcmd)
  case h_2 hcmd =>
    split_ifs at hcheck with hrem hbuf hhold hpriority hstat
    · obtain ⟨rfl, rfl⟩ := hcheck
      exact .checkReminder queue request howner hcmd hrem (Option.isSome_iff_ne_none.1 hbuf)
    · obtain ⟨rfl, rfl⟩ := hcheck
      exact .checkReminderIdle queue request howner hcmd hrem
    · obtain ⟨rfl, rfl⟩ := hcheck
      exact .checkModified queue request howner hcmd (by simpa using hrem)
        (by simpa using hhold) hstat
    · obtain ⟨rfl, rfl⟩ := hcheck
      exact .checkDeclined queue request howner
        (needsReply_of_not_reminder (by simpa using hrem))
    · obtain ⟨rfl, rfl⟩ := hcheck
      refine .checkProcess queue request howner hcmd (by simpa using hrem)
        (by simpa using hhold) ?_
      intro hnone
      simp [starvationPriority, hnone] at hpriority

theorem bufferEnd_acts {request : Request n m} (hhold : h.invHolder = some request) :
    Acts self remote h .bufferEnd (h.bufferEnd request).1 (h.bufferEnd request).2 := by
  unfold bufferEnd
  split
  case h_1 hcmd =>
    split_ifs with hbuf
    · exact .endDeclined request hhold (needsReply_of_shared hcmd)
    · exact .endShared request hhold hcmd (by simpa using hbuf)
  case h_2 hcmd =>
    split_ifs with hrem hpriority
    · split
      case h_1 message hbuf =>
        split_ifs with hnode
        · exact .endReminder request message hhold hcmd hrem hbuf hnode
        · exact .endReminderIdle request hhold hcmd hrem
      case h_2 => exact .endReminderIdle request hhold hcmd hrem
    · exact .endPending request hhold hcmd (by simpa using hrem)
    · exact .endDeclined request hhold (needsReply_of_not_reminder (by simpa using hrem))

theorem Acts.table (hact : Acts self remote h action after effects)
    (htable : after.placement = .table) : h.placement = .table := by
  cases hact
  case evict => cases htable
  case deallocate => cases htable
  all_goals simpa [setOp, unlock, setStates, setStatus, enterShared, enterExclusive] using htable

theorem act_cases (hact : h.act self remote action = some (after, effects)) :
    Acts self remote h action after effects := by
  cases action <;> simp only [act] at hact
  case readerHit counted =>
    split_ifs at hact with hguard
    obtain ⟨rfl, rfl⟩ := hact
    exact .readerHit counted hguard.1 hguard.2.1 hguard.2.2
  case readerMiss queue tries counted =>
    simp only [latchFree_iff] at hact
    split_ifs at hact with hguard
    obtain ⟨rfl, rfl⟩ := hact
    obtain ⟨htable, ⟨hrdrs, howner⟩, hstat⟩ := hguard
    exact .readerMiss queue tries counted htable howner hrdrs hstat
  case unlockShared =>
    split_ifs at hact with hguard
    obtain ⟨rfl, rfl⟩ := hact
    exact .unlockShared hguard
  case writerLock queue access counted =>
    simp only [Option.map_eq_some_iff, Prod.mk.injEq] at hact
    obtain ⟨locked, hlatch, rfl, rfl⟩ := hact
    obtain ⟨upgrading, rfl, howner, hrdrs, htable, hupg⟩ := writerLatch_cases hlatch
    exact .writerLock queue access counted upgrading howner hrdrs htable hupg
  case readerPost =>
    split_ifs at hact with hguard hproc
    · obtain ⟨rfl, rfl⟩ := hact
      exact .readerPost _ hguard
    · obtain ⟨rfl, rfl⟩ := hact
      exact .readerPost _ hguard
  case readerPostLock queue =>
    simp only [latchFree_iff] at hact
    split_ifs at hact with hguard hproc
    · obtain ⟨rfl, rfl⟩ := hact
      exact .readerPostUrged queue hguard.1 hguard.2.2 hguard.2.1 hproc
    · obtain ⟨rfl, rfl⟩ := hact
      exact .readerPostLock queue hguard.1 hguard.2.2 hguard.2.1
  case bufferSkip index =>
    split at hact <;> try contradiction
    case h_1 request hindex =>
      split_ifs at hact with hstat
      obtain ⟨rfl, rfl⟩ := hact
      exact .bufferSkip index request hindex hstat
  case bufferBegin index =>
    split at hact <;> try contradiction
    case h_1 request hindex =>
      split_ifs at hact with hguard
      obtain ⟨rfl, rfl⟩ := hact
      exact .bufferBegin index request hindex hguard.1 hguard.2
  case bufferEnd =>
    split at hact <;> try contradiction
    case h_1 request hhold =>
      obtain ⟨rfl, rfl⟩ := Prod.mk.inj (Option.some.inj hact)
      exact bufferEnd_acts hhold
  case evict =>
    split_ifs at hact with hguard
    obtain ⟨rfl, rfl⟩ := hact
    exact .evict hguard.1 hguard.2
  case deallocate queue =>
    split_ifs at hact with hguard
    obtain ⟨rfl, rfl⟩ := Prod.mk.inj (Option.some.inj hact)
    exact .deallocate queue hguard
  case handlerCheck =>
    split at hact <;> try contradiction
    case h_1 queue request howner => exact handlerCheck_cases howner hact
  case resume =>
    split at hact <;> try contradiction
    case h_1 howner => obtain ⟨rfl, rfl⟩ := hact; exact .resumeReader _ _ _ _ howner
    case h_2 howner => obtain ⟨rfl, rfl⟩ := hact; exact .resumeWriter _ _ _ _ howner
    case h_3 howner => obtain ⟨rfl, rfl⟩ := hact; exact .resumeDropped _ _ _ _ howner
    case h_4 howner => obtain ⟨rfl, rfl⟩ := hact; exact .resumeShared _ _ howner
  case rlockFaa | rlockRetract | wlockCas | invalidateModified | invalidateShared | remind |
      upgradeUnlock | modify =>
    split at hact <;> try contradiction
    case h_1 howner =>
      obtain ⟨rfl, rfl⟩ := hact
      constructor
      exact howner
  case rlockRead =>
    split at hact <;> try contradiction
    case h_1 howner =>
      split_ifs at hact with hold
      · obtain ⟨rfl, rfl⟩ := hact
        exact .rlockGranted _ _ _ howner hold
      · obtain ⟨rfl, rfl⟩ := hact
        exact .rlockRefused _ _ _ howner (not_lt.1 hold)
  case wlockRead =>
    split at hact <;> try contradiction
    case h_1 access old howner =>
      have hdata : (if access = .writer then h else { h with data := remote.memory }) =
          { h with data := if access = .writer then h.data else remote.memory } := by
        split_ifs <;> rfl
      rw [hdata] at hact
      split at hact
      case h_1 hold =>
        obtain ⟨rfl, rfl⟩ := hact
        exact .wlockAcquired _ _ _ _ howner hold rfl
      case h_2 hold =>
        obtain ⟨rfl, rfl⟩ := hact
        exact .wlockRefused _ _ _ _ _ howner hold rfl
  case giveUp =>
    split at hact <;> try contradiction
    case h_1 howner =>
      split_ifs at hact with htries
      obtain ⟨rfl, rfl⟩ := hact
      exact .giveUp _ _ _ howner htries
  case upgradeCas =>
    split at hact <;> try contradiction
    case h_1 howner =>
      split_ifs at hact with hword
      · obtain ⟨rfl, rfl⟩ := hact
        exact .upgradeGranted _ _ howner hword
      · obtain ⟨rfl, rfl⟩ := hact
        exact .upgradeRefused _ _ howner hword
  case upgradeWon =>
    split at hact <;> try contradiction
    case h_1 howner =>
      split_ifs at hact with hhold
      obtain ⟨rfl, rfl⟩ := hact
      exact .upgradeWon _ _ howner (by simpa using hhold)
  case upgradeLost =>
    split at hact <;> try contradiction
    case h_1 howner =>
      split_ifs at hact with hclears hhold htries
      · obtain ⟨rfl, rfl⟩ := hact
        exact .upgradeGivenUp _ _ howner hclears (by simpa using hhold) htries
      · obtain ⟨rfl, rfl⟩ := hact
        exact .upgradeCleared _ _ howner hclears (by simpa using hhold)
      · obtain ⟨rfl, rfl⟩ := hact
        exact .upgradeKept _ _ howner (by simpa using hclears)
  case writerPost =>
    split at hact <;> try contradiction
    case h_1 howner =>
      split_ifs at hact with hproc
      · obtain ⟨rfl, rfl⟩ := hact
        exact .writerPostUrged _ _ howner hproc
      · obtain ⟨rfl, rfl⟩ := hact
        exact .writerPost _ _ howner (by simpa using hproc)
  case postProcess =>
    split at hact <;> try contradiction
    case h_1 howner =>
      split_ifs at hact with hhold
      obtain ⟨rfl, rfl⟩ := hact
      exact .postProcess _ howner (by simpa using hhold)
  case handlerProcess =>
    split at hact <;> try contradiction
    case h_1 howner =>
      split_ifs at hact with hhold
      obtain ⟨rfl, rfl⟩ := hact
      exact .handlerProcess _ _ howner (by simpa using hhold)

end MemoryEngine.Selcc.Handle

namespace MemoryEngine.Selcc

variable {n m : ℕ} {α : Type}

inductive HandleEvent (n m : ℕ) (α : Type) where
  | act (remote : Remote α) (action : Action α)
  | request (request : Request n m) (locked : Option ℕ)
  | reply (reply : Reply n m α)
  | pending
  | insert
  | reuse (content : α)

def HandleEvent.passive : HandleEvent n m α → Bool
  | .act _ _ => false
  | _ => true

/-- The handle at `self` in surroundings that may do anything. -/
def Handle.step (self : Slot n m) (h : Handle n m α) :
    HandleEvent n m α → Option (Handle n m α)
  | .act remote action => (h.act self remote action).map Prod.fst
  | .request request locked => if h.placement = .table then h.accept request locked else none
  | .reply reply => some (h.arrive reply)
  | .pending => some h.arrivePending
  | .insert => if h.placement = .free then some { h with placement := .table } else none
  | .reuse content => if h.placement = .free then some { h with data := content } else none

namespace Handle

variable {self : Slot n m} {h after : Handle n m α}

theorem accept_keeps {request : Request n m} {locked : Option ℕ}
    (hacpt : h.accept request locked = some after) :
    after.placement = h.placement ∧ after.status = h.status := by
  unfold accept at hacpt
  split at hacpt
  · split_ifs at hacpt
    cases hacpt
    exact ⟨rfl, rfl⟩
  · cases hacpt
    exact ⟨rfl, rfl⟩

theorem passive_keeps {event : HandleEvent n m α} (hpass : event.passive = true)
    (hins : event ≠ .insert) (hstep : h.step self event = some after) :
    after.placement = h.placement ∧ after.status = h.status := by
  cases event with
  | act => cases hpass
  | insert => exact absurd rfl hins
  | request request locked =>
    simp only [step] at hstep
    split_ifs at hstep
    exact accept_keeps hstep
  | reply reply =>
    cases hstep
    unfold arrive
    split <;> exact ⟨rfl, rfl⟩
  | pending =>
    cases hstep
    unfold arrivePending
    split <;> exact ⟨rfl, rfl⟩
  | reuse content =>
    simp only [step] at hstep
    split_ifs at hstep
    cases hstep
    exact ⟨rfl, rfl⟩

end Handle

end MemoryEngine.Selcc
