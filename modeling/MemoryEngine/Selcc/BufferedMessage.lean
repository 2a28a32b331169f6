import MemoryEngine.Selcc.ClusterSteps
import MemoryEngine.Library.TransitionSystem

/-! The buffered invalidation message of a handle and its latch status.

A handle buffers at most one request of another node.  It may only hold a request that makes
sense in its status: `writer_invalidate_shared` for a shared latch, one of the other two for an
exclusive one. -/
namespace MemoryEngine.Selcc

open Option

theorem InvCommand.status_ne_invalid (command : InvCommand) : command.status ≠ .invalid := by
  cases command <;> simp [InvCommand.status]

theorem InvCommand.status_of_modified {command : InvCommand}
    (h : command ≠ .writerInvalidateShared) : command.status = .exclusive := by
  cases command <;> simp_all [InvCommand.status]

variable {n m : ℕ} {α : Type}

def Effect.isImpossible : Effect n m α → Bool
  | .impossible => true
  | _ => false

variable {request : Request n m} {goal : Goal} {phase : Phase n}

namespace Handle

def clearing (h : Handle n m α) : Bool :=
  match h.owner with
  | some ⟨_, .upgrade access .released⟩ => access.clears
  | _ => false

def admits (h : Handle n m α) (command : InvCommand) : Prop :=
  command.status = h.status ∨ h.clearing = true ∧ command = .writerInvalidateShared

def fits (h : Handle n m α) : Op n m → Prop
  | .acquire _ _ => h.status = .invalid
  | .upgrade _ .released => h.status = .invalid
  | .upgrade _ _ => h.status = .shared
  | .inside _ => h.status = .exclusive
  | .post => h.buffered ≠ none
  | .handler _ .check => True
  | .handler _ .process => h.buffered ≠ none

structure Consistent (h : Handle n m α) : Prop where
  readers : h.owner ≠ none → h.readers = 0
  reading : 0 < h.readers → h.status ≠ .invalid
  fits : ∀ owner, h.owner = some owner → h.fits owner.op
  message : ∀ message, h.buffered = some message → h.admits message.command
  urging : h.urging = (h.buffered.map fun message => message.command.urging).getD 0
  holder : ∀ request, h.invHolder = some request → h.admits request.command
  away : h.placement ≠ .table → h.idle = true
  free : h.placement = .free → h.status = .invalid

/-- A handle is evicted only when no thread is at work on it, and an upgrade that will not clear
the buffer is refused only while there is nothing to clear. -/
def careful (h : Handle n m α) : Action α → Bool
  | .evict => h.idle
  | .upgradeUnlock =>
      match h.owner with
      | some ⟨_, .upgrade access .lost⟩ =>
          access.clears || h.buffered.isNone && h.invHolder.isNone
      | _ => true
  | _ => true

variable {self : Slot n m} {remote : Remote α} {h after : Handle n m α} {queue : ℕ}
  {op : Op n m} {action : Action α} {effects : List (Effect n m α)}

theorem fresh_consistent (data : α) : (fresh data : Handle n m α).Consistent where
  readers := by simp [fresh]
  reading := by simp [fresh]
  fits := by simp [fresh]
  message := by simp [fresh]
  urging := by simp [fresh]
  holder := by simp [fresh]
  away := by simp [fresh, idle, latchFree]
  free := by simp [fresh]

theorem idle_iff : h.idle = true ↔ h.readers = 0 ∧ h.owner = none ∧ h.upgrading = 0 ∧
    h.leaving = 0 ∧ h.handlers = [] ∧ h.invHolder = none := by
  simp [idle, latchFree, and_assoc]

namespace Consistent

theorem idle_of_away (hc : h.Consistent) (haway : h.placement ≠ .table) : h.readers = 0 ∧
    h.owner = none ∧ h.upgrading = 0 ∧ h.leaving = 0 ∧ h.handlers = [] ∧ h.invHolder = none :=
  idle_iff.1 (hc.away haway)

theorem table_of_owner {owner : Owner n m} (hc : h.Consistent) (howner : h.owner = some owner) :
    h.placement = .table := by
  by_contra haway
  have hidle := (hc.idle_of_away haway).2.1
  rw [hidle] at howner
  cases howner

theorem clearing_of_owner (howner : h.owner = some ⟨queue, op⟩)
    (hop : ∀ access, op ≠ .upgrade access .released) : h.clearing = false := by
  unfold clearing
  rw [howner]
  split
  case h_1 heq => exact absurd (by injection heq with heq; injection heq) (hop _)
  case h_2 => rfl

theorem status_of_admits {command : InvCommand} (hclearing : h.clearing = false)
    (hadmits : h.admits command) : command.status = h.status := by
  rcases hadmits with hstat | ⟨hclear, -⟩
  · exact hstat
  · exact absurd (hclearing.symm.trans hclear) Bool.false_ne_true

theorem message_status (hc : h.Consistent) (hclearing : h.clearing = false)
    {message : PendingPageForward n m} (hmsg : h.buffered = some message) :
    message.command.status = h.status :=
  status_of_admits hclearing (hc.message message hmsg)

theorem holder_status (hc : h.Consistent) (hclearing : h.clearing = false)
    (hhold : h.invHolder = some request) : request.command.status = h.status :=
  status_of_admits hclearing (hc.holder request hhold)

theorem buffered_none (hc : h.Consistent) (hstat : h.status = .invalid)
    (hclearing : h.clearing = false) : h.buffered = none := by
  by_contra hbuf
  obtain ⟨message, hmsg⟩ := ne_none_iff_exists'.1 hbuf
  exact InvCommand.status_ne_invalid _
    ((hc.message_status hclearing hmsg).trans hstat)

theorem holder_none (hc : h.Consistent) (hstat : h.status = .invalid)
    (hclearing : h.clearing = false) : h.invHolder = none := by
  by_contra hhold
  obtain ⟨request, hreq⟩ := ne_none_iff_exists'.1 hhold
  exact InvCommand.status_ne_invalid _
    ((hc.holder_status hclearing hreq).trans hstat)

theorem of_unbuffered (htable : h.placement = .table) (hbuf : h.buffered = none)
    (hurging : h.urging = 0) (hhold : h.invHolder = none)
    (hrdrs : h.readers = 0 ∨ h.owner = none ∧ h.status ≠ .invalid)
    (hfits : ∀ owner, h.owner = some owner → h.fits owner.op) : h.Consistent where
  readers howner := hrdrs.resolve_right fun hfree => howner hfree.1
  reading hpos := (hrdrs.resolve_left hpos.ne').2
  fits := hfits
  message message hmsg := by rw [hbuf] at hmsg; cases hmsg
  urging := by rw [hurging, hbuf]; rfl
  holder request hreq := by rw [hhold] at hreq; cases hreq
  away haway := absurd htable haway
  free hfree := by rw [htable] at hfree; cases hfree

variable (hc : h.Consistent)
include hc

theorem urging_zero (hbuf : h.buffered = none) : h.urging = 0 := by
  rw [hc.urging, hbuf]
  rfl

theorem setOp (htable : h.placement = .table) (hrdrs : h.readers = 0)
    (hclearing : h.clearing = false) (hfits : h.fits op) : (h.setOp queue op).Consistent where
  __ := hc
  readers _ := hrdrs
  fits owner howner := by
    cases howner
    exact hfits
  message message hmsg := .inl (hc.message_status hclearing hmsg)
  holder request hhold := .inl (hc.holder_status hclearing hhold)
  away haway := absurd htable haway

theorem unlock (hclearing : h.clearing = false) : h.unlock.Consistent where
  __ := hc
  readers howner := absurd rfl howner
  fits _ howner := by cases howner
  message message hmsg := .inl (hc.message_status hclearing hmsg)
  holder request hhold := .inl (hc.holder_status hclearing hhold)
  away haway := by
    have hidle := hc.idle_of_away haway
    exact idle_iff.2 ⟨hidle.1, rfl, hidle.2.2⟩

theorem setStates (hadmits : h.admits request.command) : (h.setStates request).Consistent where
  __ := hc
  fits owner howner := by
    have hfits := hc.fits owner howner
    obtain ⟨queue, op⟩ := owner
    cases op with
    | upgrade access phase => cases phase <;> exact hfits
    | handler request phase => cases phase <;> simp [Handle.fits, Handle.setStates]
    | post => simp [Handle.fits, Handle.setStates]
    | acquire => exact hfits
    | inside => exact hfits
  message message hmsg := by
    cases hmsg
    exact hadmits
  urging := rfl

theorem congr (readCounter writeCounter calls : ℕ) (data : α) :
    Consistent { h with
      readCounter := readCounter
      writeCounter := writeCounter
      calls := calls
      data := data } where
  __ := hc

theorem countRead (counted : Bool) : (h.countRead counted).Consistent := by
  cases counted
  · exact hc
  · exact hc.congr _ _ _ _

theorem countWrite (counted : Bool) : (h.countWrite counted).Consistent := by
  cases counted
  · exact hc
  · exact hc.congr _ _ _ _

theorem nextOp {next : Op n m} (howner : h.owner = some ⟨queue, op⟩)
    (hop : ∀ access, op ≠ .upgrade access .released) (hfits : h.fits next) :
    (h.setOp queue next).Consistent :=
  hc.setOp (hc.table_of_owner howner) (hc.readers (by simp [howner])) (clearing_of_owner howner hop)
    hfits

end Consistent

theorem clearing_of_free (howner : h.owner = none) : h.clearing = false := by
  simp [clearing, howner]

theorem process_fst : ∃ status, (h.processBufferedInvMessage self queue).1 =
    (h.setStatus status).clearPendingInvStates := by
  unfold processBufferedInvMessage
  split
  · exact ⟨_, rfl⟩
  · split
    · exact ⟨_, rfl⟩
    · exact ⟨_, rfl⟩
    · exact ⟨h.status, rfl⟩
  · exact ⟨h.status, rfl⟩

theorem deallocate_fst : (h.deallocate self queue).1 =
    { (h.setStatus .invalid).clearPendingInvStates with placement := .free } := by
  unfold Handle.deallocate
  split_ifs
  · obtain ⟨status, hproc⟩ := @process_fst n m α self h queue
    dsimp only
    rw [hproc]
    rfl
  · rfl

namespace Consistent

variable (hc : h.Consistent)
include hc

theorem process {owner : Owner n m} (howner : h.owner = some owner) (hhold : h.invHolder = none) :
    (h.processBufferedInvMessage self queue).1.unlock.Consistent := by
  obtain ⟨status, hproc⟩ := @process_fst n m α self h queue
  have hrdrs := hc.readers (by rw [howner]; exact some_ne_none _)
  rw [hproc]
  exact of_unbuffered (hc.table_of_owner howner) rfl rfl hhold (.inl hrdrs)
    (by simp [Handle.unlock])

theorem acquire (howner : h.owner = some ⟨queue, .acquire goal phase⟩) :
    h.placement = .table ∧ h.readers = 0 ∧ h.status = .invalid ∧ h.clearing = false ∧
      h.buffered = none ∧ h.urging = 0 ∧ h.invHolder = none := by
  have hstat := hc.fits _ howner
  have hclearing := clearing_of_owner howner (fun _ => by simp)
  have hbuf := hc.buffered_none hstat hclearing
  exact ⟨hc.table_of_owner howner, hc.readers (by simp [howner]), hstat, hclearing, hbuf,
    hc.urging_zero hbuf, hc.holder_none hstat hclearing⟩

theorem acquire_next {next : Goal} {after : Phase n}
    (howner : h.owner = some ⟨queue, .acquire goal phase⟩) (calls : ℕ) (data : α) :
    ({ h with calls := calls, data := data }.setOp queue (.acquire next after)).Consistent := by
  obtain ⟨htable, hrdrs, hstat, hclearing, -⟩ := hc.acquire howner
  exact (hc.congr h.readCounter h.writeCounter calls data).setOp htable hrdrs hclearing hstat

theorem acquire_shared (howner : h.owner = some ⟨queue, .acquire goal phase⟩) (data : α) :
    { h with data := data }.enterShared.Consistent := by
  obtain ⟨htable, -, -, -, hbuf, hurging, hhold⟩ := hc.acquire howner
  exact of_unbuffered htable hbuf hurging hhold (.inr ⟨rfl, by simp [enterShared]⟩)
    (by simp [enterShared])

theorem acquire_exclusive (howner : h.owner = some ⟨queue, .acquire goal phase⟩) (data : α) :
    ({ h with data := data }.enterExclusive queue).Consistent := by
  obtain ⟨htable, hrdrs, -, -, hbuf, hurging, hhold⟩ := hc.acquire howner
  refine of_unbuffered htable hbuf hurging hhold (.inl hrdrs) fun owner howner => ?_
  cases howner
  rfl

theorem clearBuffered_eq : ∃ readCounter writeCounter, h.clearBuffered =
    { h with
      readCounter := readCounter
      writeCounter := writeCounter
      urging := 0
      buffered := none } := by
  unfold clearBuffered
  split_ifs with hbuf
  · exact ⟨0, 0, rfl⟩
  · have hnone : h.buffered = none := by simpa using hbuf
    refine ⟨h.readCounter, h.writeCounter, ?_⟩
    rw [← hc.urging_zero hnone, ← hnone]

variable {access : Access}

theorem released
    (howner : h.owner = some ⟨queue, .upgrade access .released⟩) (hhold : h.invHolder = none) :
    h.clearBuffered.unlock.Consistent ∧
      ∀ goal phase, (h.clearBuffered.setOp queue (.acquire goal phase)).Consistent := by
  obtain ⟨readCounter, writeCounter, hclear⟩ := hc.clearBuffered_eq
  have htable := hc.table_of_owner howner
  have hrdrs := hc.readers (by simp [howner])
  have hstat : h.status = .invalid := hc.fits _ howner
  rw [hclear]
  refine ⟨of_unbuffered htable rfl rfl hhold (.inl hrdrs) (by simp [Handle.unlock]), ?_⟩
  intro goal phase
  refine of_unbuffered htable rfl rfl hhold (.inl hrdrs) fun owner howner => ?_
  cases howner
  exact hstat

theorem upgradeWon {phase : UpgradePhase}
    (howner : h.owner = some ⟨queue, .upgrade access phase⟩) (hhold : h.invHolder = none) :
    (h.clearBuffered.enterExclusive queue).Consistent := by
  obtain ⟨readCounter, writeCounter, hclear⟩ := hc.clearBuffered_eq
  rw [hclear]
  refine of_unbuffered (hc.table_of_owner howner) rfl rfl hhold
    (.inl (hc.readers (by simp [howner]))) fun owner howner => ?_
  cases howner
  rfl

theorem startWriter (htable : h.placement = .table) (howner : h.owner = none)
    (upgrading : ℕ) (counted : Bool) (access : Access) :
    (({ h with readers := 0, upgrading := upgrading }.countWrite counted).startWriter
      queue access).Consistent := by
  have hempty : Consistent { h with readers := 0, upgrading := upgrading } :=
    { hc with
      readers := fun _ => rfl
      reading := fun hpos => absurd hpos (lt_irrefl 0)
      away := fun haway => absurd htable haway }
  have hlat := hempty.countWrite counted
  have hfields : ({ h with readers := 0, upgrading := upgrading }.countWrite counted).readers = 0 ∧
      ({ h with readers := 0, upgrading := upgrading }.countWrite counted).placement = .table ∧
      ({ h with readers := 0, upgrading := upgrading }.countWrite counted).owner = none := by
    cases counted <;> exact ⟨rfl, htable, howner⟩
  obtain ⟨hrdrs, hplacement, hfree⟩ := hfields
  unfold Handle.startWriter
  split
  case h_1 hstat => exact hlat.setOp hplacement hrdrs (clearing_of_free hfree) hstat
  case h_2 hstat => exact hlat.setOp hplacement hrdrs (clearing_of_free hfree) hstat
  case h_3 hstat => exact hlat.setOp hplacement hrdrs (clearing_of_free hfree) hstat

theorem buffered_of_mustProcess (hproc : h.mustProcess = true) : h.buffered ≠ none := by
  intro hbuf
  simp [mustProcess, hc.urging_zero hbuf] at hproc

theorem relatch (htable : h.placement = .table) (leaving : ℕ) :
    Consistent { h with leaving := leaving } where
  __ := hc
  away haway := absurd htable haway

theorem takeHandler (htable : h.placement = .table)
    (handlers : List (Request n m)) : Consistent { h with handlers := handlers } where
  __ := hc
  away haway := absurd htable haway

theorem leaveSection
    (hhold : h.invHolder = some request) : Consistent { h with invHolder := none } where
  __ := hc
  holder _ hreq := by cases hreq
  away haway := by
    have hidle := hc.idle_of_away haway
    rw [hidle.2.2.2.2.2] at hhold
    cases hhold

theorem checkSet (howner : h.owner = some ⟨queue, .handler request .check⟩)
    (hstat : request.command.status = h.status) :
    ((h.setStates request).setOp queue (.handler request .process)).Consistent :=
  Consistent.setOp (hc.setStates (.inl hstat)) (hc.table_of_owner howner)
    (hc.readers (by simp [howner])) (clearing_of_owner howner (by simp))
    (by simp [Handle.fits, Handle.setStates])

theorem upgradeUnlock (hcare : h.careful .upgradeUnlock)
    (howner : h.owner = some ⟨queue, .upgrade access .lost⟩) :
    ((h.setStatus .invalid).setOp queue (.upgrade access .released)).Consistent := by
  have hstat : h.status = .shared := hc.fits _ howner
  have hclearing : h.clearing = false := clearing_of_owner howner (by simp)
  have hrdrs := hc.readers (by simp [howner])
  have htable := hc.table_of_owner howner
  cases hclears : access.clears with
  | true =>
    have hadmits : ∀ command : InvCommand, command.status = h.status →
        admits ((h.setStatus .invalid).setOp queue (.upgrade access .released)) command := by
      intro command hcmd
      refine .inr ⟨hclears, ?_⟩
      cases command <;> simp_all [InvCommand.status]
    exact
      { hc with
        readers := fun _ => hrdrs
        reading := fun hpos => absurd hrdrs hpos.ne'
        fits := fun owner howner => by obtain rfl := Option.some.inj howner; rfl
        message := fun message hmsg => hadmits _ (hc.message_status hclearing hmsg)
        holder := fun request hhold => hadmits _ (hc.holder_status hclearing hhold)
        away := fun haway => absurd htable haway
        free := fun _ => rfl }
  | false =>
    have hempty : h.buffered = none ∧ h.invHolder = none := by
      simpa [careful, howner, hclears] using hcare
    refine of_unbuffered htable hempty.1 (hc.urging_zero hempty.1) hempty.2 (.inl hrdrs) ?_
    intro owner howner
    cases howner
    rfl

theorem table_of_readers (hbusy : 0 < h.readers ∨ 0 < h.upgrading ∨ 0 < h.leaving) :
    h.placement = .table := by
  by_contra haway
  have hidle := hc.idle_of_away haway
  omega

theorem leaves (hrdrs : 0 < h.readers) (upgrading leaving : ℕ) :
    Consistent { h with readers := h.readers - 1, upgrading := upgrading, leaving := leaving } where
  __ := hc
  readers hsome := by have := hc.readers hsome; omega
  reading _ := hc.reading hrdrs
  away haway := absurd (hc.table_of_readers (.inl hrdrs)) haway

theorem act (hcare : h.careful action)
    (hact : Acts self remote h action after effects) : after.Consistent := by
  have htable_of_handler : ∀ {index : ℕ} {request : Request n m},
      h.handlers[index]? = some request → h.placement = .table := by
    intro index request hindex
    by_contra haway
    rw [(hc.idle_of_away haway).2.2.2.2.1] at hindex
    simp at hindex
  cases hact with
  | readerHit counted htable howner hstat =>
    have hrdr : Consistent { h with readers := h.readers + 1 } :=
      { hc with
        readers := fun hsome => absurd howner hsome
        reading := fun _ => hstat
        away := fun haway => absurd htable haway }
    exact hrdr.countRead counted
  | readerMiss queue tries counted htable howner hrdrs hstat =>
    cases counted
    · exact hc.setOp htable hrdrs (clearing_of_free howner) hstat
    · exact (hc.countRead true).setOp htable hrdrs (clearing_of_free howner) hstat
  | unlockShared hrdrs => exact hc.leaves hrdrs _ _
  | writerLock queue access counted upgrading howner hrdrs htable =>
    refine hc.startWriter ?_ howner upgrading counted access
    rcases htable with htable | hbusy
    · exact htable
    · exact hc.table_of_readers (hbusy.imp id .inl)
  | rlockFaa queue tries targets howner => exact hc.acquire_next howner h.calls h.data
  | rlockGranted queue tries old howner => exact hc.acquire_shared howner _
  | rlockRefused queue tries old howner => exact hc.acquire_next howner h.calls _
  | rlockRetract queue tries old howner => exact hc.acquire_next howner h.calls h.data
  | wlockCas queue access targets howner => exact hc.acquire_next howner h.calls h.data
  | wlockAcquired queue access old data howner => exact hc.acquire_exclusive howner data
  | wlockRefused queue access old data targets howner => exact hc.acquire_next howner h.calls data
  | giveUp queue goal targets howner => exact hc.unlock (hc.acquire howner).2.2.2.1
  | invalidateModified starvation queue goal target howner =>
    exact hc.acquire_next howner (h.calls + 1) h.data
  | invalidateShared starvation queue goal holders howner => exact hc.acquire_next howner _ h.data
  | remind => exact hc
  | resumeReader queue tries target number howner => exact hc.acquire_shared howner h.data
  | resumeWriter queue access target number howner => exact hc.acquire_exclusive howner h.data
  | resumeDropped queue goal target number howner => exact hc.acquire_next howner h.calls h.data
  | resumeShared queue goal howner => exact hc.acquire_next howner h.calls h.data
  | upgradeGranted queue access howner => exact hc.nextOp howner (by simp) (hc.fits _ howner)
  | upgradeRefused queue access howner => exact hc.nextOp howner (by simp) (hc.fits _ howner)
  | upgradeWon queue access howner hhold => exact hc.upgradeWon howner hhold
  | upgradeUnlock queue access howner => exact hc.upgradeUnlock hcare howner
  | upgradeGivenUp queue access howner hclears hhold => exact (hc.released howner hhold).1
  | upgradeCleared queue access howner hclears hhold => exact (hc.released howner hhold).2 _ _
  | upgradeKept queue access howner hclears =>
    exact hc.setOp (hc.table_of_owner howner) (hc.readers (by simp [howner]))
      (by simp [clearing, howner, hclears]) (hc.fits _ howner)
  | modify content queue touched howner =>
    exact (hc.congr h.readCounter h.writeCounter h.calls content).nextOp howner (by simp)
      (hc.fits _ howner)
  | writerPost queue touched howner => exact hc.unlock (clearing_of_owner howner (by simp))
  | writerPostUrged queue touched howner hproc =>
    exact hc.nextOp howner (by simp) (hc.buffered_of_mustProcess hproc)
  | readerPost leaving hrdrs => exact hc.leaves hrdrs _ _
  | readerPostLock queue hleave howner hrdrs =>
    exact hc.relatch (hc.table_of_readers (.inr (.inr hleave))) _
  | readerPostUrged queue hleave howner hrdrs hproc =>
    have htable := hc.table_of_readers (.inr (.inr hleave))
    exact (hc.relatch htable _).setOp htable hrdrs (clearing_of_free howner)
      (hc.buffered_of_mustProcess hproc)
  | postProcess queue howner hhold => exact hc.process howner hhold
  | checkShared queue request howner hcmd hhold hstat =>
    exact hc.checkSet howner (by rw [hcmd, hstat]; rfl)
  | checkDeclined queue request howner => exact hc.unlock (clearing_of_owner howner (by simp))
  | checkReminder queue request howner hcmd hrem hbuf =>
    exact hc.nextOp howner (by simp) hbuf
  | checkReminderIdle queue request howner => exact hc.unlock (clearing_of_owner howner (by simp))
  | checkModified queue request howner hcmd hrem hhold hstat =>
    exact hc.checkSet howner (by rw [hstat]; exact InvCommand.status_of_modified hcmd)
  | checkProcess queue request howner hcmd hrem hhold => exact hc.process howner hhold
  | handlerProcess queue request howner hhold => exact hc.process howner hhold
  | bufferSkip index request hindex =>
    exact hc.takeHandler (htable_of_handler hindex) _
  | bufferBegin index request hindex hstat hhold =>
    have htaken := hc.takeHandler (htable_of_handler hindex) (h.handlers.eraseIdx index)
    exact
      { htaken with
        holder := fun taken htaken => by
          cases htaken
          exact .inl hstat.symm
        away := fun haway => absurd (htable_of_handler hindex) haway }
  | endShared request hhold =>
    exact (hc.leaveSection hhold).setStates (hc.holder request hhold)
  | endDeclined request hhold => exact hc.leaveSection hhold
  | endReminder request message hhold =>
    exact (hc.leaveSection hhold).setStates (hc.holder request hhold)
  | endReminderIdle request hhold => exact hc.leaveSection hhold
  | endPending request hhold =>
    exact (hc.leaveSection hhold).setStates (hc.holder request hhold)
  | evict htable =>
    exact { hc with
      away := fun _ => hcare
      free := fun hfree => by cases hfree }
  | deallocate queue hvict =>
    have hidle := hc.idle_of_away (by simp [hvict])
    rw [deallocate_fst]
    exact
      { readers := fun _ => hidle.1
        reading := fun hpos => absurd hidle.1 hpos.ne'
        fits := fun _ howner => by cases hidle.2.1.symm.trans howner
        message := fun message hmsg => by cases hmsg
        urging := rfl
        holder := fun _ hhold => by cases hidle.2.2.2.2.2.symm.trans hhold
        away := fun _ => idle_iff.2 hidle
        free := fun _ => rfl }

theorem arrive (reply : Reply n m α) : (h.arrive reply).Consistent := by
  unfold Handle.arrive
  split
  case h_1 howner => exact hc.acquire_next howner h.calls h.data
  case h_2 => exact hc
  case h_3 howner _ => exact hc.acquire_next howner h.calls _
  case h_4 => exact hc.congr _ _ _ _
  case h_5 howner _ _ => exact hc.acquire_next howner h.calls h.data
  case h_6 => exact hc

theorem arrivePending : h.arrivePending.Consistent := by
  unfold Handle.arrivePending
  split
  case h_1 howner => exact hc.acquire_next howner h.calls h.data
  case h_2 => exact hc

theorem accept (htable : h.placement = .table)
    {locked : Option ℕ} (hacpt : h.accept request locked = some after) : after.Consistent := by
  unfold Handle.accept at hacpt
  split at hacpt
  case h_1 queue =>
    split_ifs at hacpt with hfree
    cases hacpt
    obtain ⟨hrdrs, howner⟩ := latchFree_iff.1 hfree
    exact hc.setOp htable hrdrs (clearing_of_free howner) trivial
  case h_2 =>
    cases hacpt
    exact hc.takeHandler htable _

theorem insert (hfree : h.placement = .free) : Consistent { h with placement := .table } where
  __ := hc
  away haway := absurd rfl haway
  free _ := hc.free hfree

end Consistent

def carefulEvent (h : Handle n m α) : HandleEvent n m α → Bool
  | .act _ action => h.careful action
  | _ => true

theorem Consistent.step {event : HandleEvent n m α} (hc : h.Consistent)
    (hcare : h.carefulEvent event = true) (hstep : h.step self event = some after) :
    after.Consistent := by
  cases event with
  | act remote action =>
    obtain ⟨⟨changed, effects⟩, hact, rfl⟩ := map_eq_some_iff.1 hstep
    exact hc.act hcare (act_cases hact)
  | request request locked =>
    simp only [Handle.step] at hstep
    split_ifs at hstep with htable
    exact hc.accept htable hstep
  | reply reply =>
    cases hstep
    exact hc.arrive reply
  | pending =>
    cases hstep
    exact hc.arrivePending
  | insert =>
    simp only [Handle.step] at hstep
    split_ifs at hstep with hfree
    cases hstep
    exact hc.insert hfree
  | reuse content =>
    simp only [Handle.step] at hstep
    split_ifs at hstep with hfree
    cases hstep
    exact hc.congr _ _ _ _

abbrev CarefulRun (self : Slot n m) : Handle n m α → Prop :=
  TransitionSystem.Reachable (Handle.step self) (fun h event => h.carefulEvent event = true)
    (fun h => ∃ data, h = fresh data)

theorem CarefulRun.consistent (hrun : CarefulRun self h) : h.Consistent := by
  refine hrun.invariant ?_ ?_
  · rintro h ⟨data, rfl⟩
    exact fresh_consistent data
  · intro h event after hc hcare hstep
    exact hc.step hcare hstep

/-- The buffered message is one that `process_buffered_inv_message` expects in this status. -/
def Matched (h : Handle n m α) : Prop :=
  (h.status = .invalid → h.buffered = none) ∧
  (h.status = .shared → ∀ message ∈ h.buffered, message.command = .writerInvalidateShared) ∧
  (h.status = .exclusive → ∀ message ∈ h.buffered,
    message.command = .readerInvalidateModified ∨ message.command = .writerInvalidateModified)

theorem Consistent.matched (hc : h.Consistent) (hclearing : h.clearing = false) : h.Matched := by
  refine ⟨fun hstat => hc.buffered_none hstat hclearing, ?_, ?_⟩
  all_goals
    intro hstat message hmsg
    have hcmd := (hc.message_status hclearing hmsg).trans hstat
    cases hmsg : message.command <;> simp_all [InvCommand.status]

theorem Consistent.process_possible (hc : h.Consistent) (hclearing : h.clearing = false)
    (hbuf : h.buffered ≠ none) : .impossible ∉ (h.processBufferedInvMessage self queue).2 := by
  obtain ⟨message, hmsg⟩ := ne_none_iff_exists'.1 hbuf
  have hcmd := hc.message_status hclearing hmsg
  have hurging : h.urging = message.command.urging := by rw [hc.urging, hmsg]; rfl
  obtain ⟨call, priority, command⟩ := message
  unfold processBufferedInvMessage
  cases hstat : h.status with
  | invalid => exact absurd (hcmd.trans hstat) (InvCommand.status_ne_invalid _)
  | shared => simp
  | exclusive =>
    cases command <;> simp_all [InvCommand.status, InvCommand.urging]

theorem decline_possible (request : Request n m) :
    Effect.impossible ∉ (decline request : List (Effect n m α)) := by
  unfold decline
  split_ifs <;> simp

theorem acknowledge_possible (request : Request n m) :
    Effect.impossible ∉ (acknowledge request : List (Effect n m α)) := by
  unfold acknowledge
  split_ifs <;> simp

theorem drop_possible : Effect.impossible ∉ h.dropBufferedInvMessage := by
  unfold dropBufferedInvMessage
  split <;> simp

theorem Consistent.deallocate_possible (hc : h.Consistent) (hvict : h.placement = .victim) :
    .impossible ∉ (h.deallocate self queue).2 := by
  have howner := (hc.idle_of_away (by simp [hvict])).2.1
  unfold Handle.deallocate
  refine List.not_mem_append ?_ ?_
  · split_ifs with hbuf
    · exact hc.process_possible (clearing_of_free howner) (isSome_iff_ne_none.1 hbuf)
    · exact List.not_mem_nil
  · unfold releaseLatch
    split <;> simp

theorem Consistent.act_possible (hc : h.Consistent)
    (hact : Acts self remote h action after effects) : .impossible ∉ effects := by
  cases hact with
  | postProcess queue howner =>
    exact hc.process_possible (Consistent.clearing_of_owner howner (by simp)) (hc.fits _ howner)
  | checkProcess queue request howner _ _ _ hbuf =>
    exact List.not_mem_append
      (hc.process_possible (Consistent.clearing_of_owner howner (by simp)) hbuf)
      (decline_possible request)
  | handlerProcess queue request howner =>
    exact List.not_mem_append
      (hc.process_possible (Consistent.clearing_of_owner howner (by simp)) (hc.fits _ howner))
      (acknowledge_possible request)
  | deallocate queue hvict => exact hc.deallocate_possible hvict
  | checkDeclined queue request => exact decline_possible request
  | bufferSkip index request => exact decline_possible request
  | endShared request => exact decline_possible request
  | endDeclined request => exact decline_possible request
  | checkModified => exact drop_possible
  | endPending request =>
    exact List.not_mem_append drop_possible (by simp)
  | wlockCas => split_ifs <;> simp
  | invalidateShared => simp
  | _ => simp

/-- While nobody works on the handle, its buffered message matches its status, and no thread is
ever about to process a message that does not. -/
theorem buffered_message_matches (hrun : CarefulRun self h) :
    (h.idle = true → h.Matched) ∧
      ∀ remote action after effects, h.act self remote action = some (after, effects) →
        .impossible ∉ effects := by
  have hc := hrun.consistent
  constructor
  · intro hidle
    exact hc.matched (clearing_of_free (idle_iff.1 hidle).2.1)
  · intro remote action after effects hact
    exact hc.act_possible (act_cases hact)

def remindedReader : List (HandleEvent 2 1 ℕ) :=
  [.insert, .act ⟨0, 5⟩ (.readerMiss 0 false false), .act ⟨0, 5⟩ .rlockFaa, .act ⟨2, 5⟩ .rlockRead,
    .request ⟨⟨(1, 0), 0⟩, .writerInvalidateShared, 1, false⟩ none, .act ⟨2, 5⟩ (.bufferBegin 0),
    .act ⟨2, 5⟩ .bufferEnd, .act ⟨2, 5⟩ .readerPost]

theorem buffered_message_matches_remindedReader : ∃ h : Handle 2 1 ℕ, CarefulRun (0, 0) h ∧
    h.status = .shared ∧ h.buffered.isSome = true ∧ h.Matched := by
  obtain ⟨h, hrun, hstat, hbuf, hidle⟩ : ∃ h : Handle 2 1 ℕ, CarefulRun (0, 0) h ∧
      h.status = .shared ∧ h.buffered.isSome = true ∧ h.idle = true :=
    TransitionSystem.Reachable.exists_of_schedule remindedReader ⟨0, rfl⟩ (by decide +kernel)
  exact ⟨h, hrun, hstat, hbuf, (buffered_message_matches hrun).1 hidle⟩

abbrev Run (self : Slot n m) : Handle n m α → Prop :=
  TransitionSystem.Reachable (Handle.step self) (fun _ _ => True) (fun h => ∃ data, h = fresh data)

open Event (acts buffers serves reads writes)

/-- Nodes 0 and 2 read; node 1 asks both to make way.  Node 0 buffers the request, fails to
upgrade in `upgrade_pre_access`, and takes the latch with a CAS once node 2 has made way. -/
def keptMessage : List (Event 3 1 ℕ) :=
  [.lookupInsert (0, 0), .lookupInsert (1, 0), .lookupInsert (2, 0)] ++
    acts (0, 0) reads ++ acts (2, 0) (reads ++ [.readerPost]) ++
    acts (1, 0) (writes ++ [.invalidateShared 1]) ++ buffers 0 (0, 0) ++
    acts (0, 0) [.unlockShared, .writerLock 0 .upgrade false, .upgradeCas, .upgradeUnlock,
      .upgradeLost] ++
    serves 0 (2, 0) ++ [.execute 0] ++ acts (0, 0) [.wlockCas, .wlockRead, .writerPost]

def askedAgain : List (Event 3 1 ℕ) :=
  acts (2, 0) (writes ++ [.invalidateModified 0]) ++ [.receive 0 (some 0) (some 1)]

theorem exists_run {slot : Slot n m} {holds : Cluster n m α → Prop} [DecidablePred holds]
    (events : List (Event n m α)) (content : α)
    (hrun : (TransitionSystem.run Cluster.step (fun _ _ => True)
      (Cluster.start content fun _ => content) events).any (fun c => holds c) = true) :
    ∃ c : Cluster n m α, Run slot (c.handles slot) ∧ holds c := by
  obtain ⟨c, hc, hholds⟩ := @TransitionSystem.Reachable.exists_of_schedule _ _ _ _ Cluster.initial
    _ _ _ _ events ⟨content, _, rfl⟩ hrun
  exact ⟨c, Cluster.handle_reachable (fun _ _ _ _ _ => trivial) (fun _ _ _ => trivial) hc slot,
    hholds⟩

/-- Nobody works on the handle, it is exclusive, and a `writer_invalidate_shared` is buffered;
the next request makes its handler process that message. -/
theorem buffered_message_mismatch :
    (∃ h : Handle 3 1 ℕ, Run (0, 0) h ∧ h.idle = true ∧ ¬ h.Matched) ∧
      ∃ h : Handle 3 1 ℕ, Run (0, 0) h ∧ ∃ remote after effects,
        h.act (0, 0) remote .handlerCheck = some (after, effects) ∧ .impossible ∈ effects := by
  constructor
  · obtain ⟨c, hrun, hidle, hstat, message, hmsg, hcmd⟩ : ∃ c : Cluster 3 1 ℕ,
        Run (0, 0) (c.handles (0, 0)) ∧ (c.handles (0, 0)).idle = true ∧
        (c.handles (0, 0)).status = .exclusive ∧ ∃ message ∈ (c.handles (0, 0)).buffered,
          message.command = .writerInvalidateShared :=
      exists_run keptMessage 0 (by decide +kernel)
    refine ⟨_, hrun, hidle, fun hmatched => ?_⟩
    rcases hmatched.2.2 hstat message hmsg with hother | hother <;>
      cases hcmd.symm.trans hother
  · obtain ⟨c, hrun, ⟨after, effects⟩, hact, effect, heff, himpossible⟩ : ∃ c : Cluster 3 1 ℕ,
        Run (0, 0) (c.handles (0, 0)) ∧ ∃ result ∈
          (c.handles (0, 0)).act (0, 0) ⟨c.word, c.memory⟩ .handlerCheck,
          ∃ effect ∈ result.2, effect.isImpossible = true :=
      exists_run (keptMessage ++ askedAgain) 0 (by decide +kernel)
    refine ⟨_, hrun, _, after, effects, hact, ?_⟩
    cases effect <;> first | exact heff | cases himpossible

end Handle

end MemoryEngine.Selcc
