import MemoryEngine.Txn.Mvocc

/-! What each action of an MVOCC run does.

An action that is enabled has one or two outcomes.  Most of them leave the tuples alone and
change one thread only. -/
namespace MemoryEngine.Txn

open ByteMemory Storage Function Option

@[simp] theorem setManager_self (sys : System) (thread : Nat) (manager : Manager) :
    (sys.setManager thread manager).managers thread = manager := update_self _ _ _

@[simp] theorem setManager_rows (sys : System) (thread : Nat) (manager : Manager) :
    (sys.setManager thread manager).rows = sys.rows := rfl

@[simp] theorem setManager_history (sys : System) (thread : Nat) (manager : Manager) :
    (sys.setManager thread manager).history = sys.history := rfl

theorem setManager_of_ne (sys : System) {thread other : Nat} (manager : Manager)
    (h : other ≠ thread) : (sys.setManager thread manager).managers other = sys.managers other :=
  update_of_ne h _ _

/-! ### Steps that leave the tuples alone -/

section Quiet

variable {sys after : System} {thread : Nat} {manager : Manager}

structure Quiet (sys after : System) (thread : Nat) : Prop where
  rows : after.rows = sys.rows
  history : after.history = sys.history
  managers : ∀ other, other ≠ thread → after.managers other = sys.managers other
  clocks : ∀ node, sys.clocks node ≤ after.clocks node
  latches : ∀ page other, other ≠ thread → sys.latches page = some other →
    after.latches page = some other

theorem Quiet.refl (sys : System) (thread : Nat) : Quiet sys sys thread where
  rows := rfl
  history := rfl
  managers := fun _ _ => rfl
  clocks := fun _ => Nat.le_refl _
  latches := fun _ _ _ h => h

theorem Quiet.setManager (h : Quiet sys after thread) (manager : Manager) :
    Quiet sys (after.setManager thread manager) thread where
  __ := h
  managers := fun other hother =>
    (setManager_of_ne after manager hother).trans (h.managers other hother)

theorem Quiet.unlockAll (h : Quiet sys after thread) : Quiet sys
    (after.unlockAll thread) thread where
  __ := h
  latches := fun page other hother hlatch => by
    have hlat := h.latches page other hother hlatch
    simp only [System.unlockAll, hlat, Option.some.injEq, if_neg hother]

theorem Quiet.latchPage (h : Quiet sys after thread) {access : Access}
    (hfree : after.latches access.pageAddr = none ∨ after.latches access.pageAddr = some thread) :
    Quiet sys (after.latchPage thread access) thread := by
  unfold System.latchPage
  split
  · refine { h with latches := fun page other hother hlatch => ?_ }
    have hlat := h.latches page other hother hlatch
    by_cases hpage : page = access.pageAddr
    · subst hpage
      rcases hfree with hfree | hfree
      · exact absurd (hfree.symm.trans hlat) (by simp)
      · exact absurd (Option.some.inj (hfree.symm.trans hlat)).symm hother
    · exact (update_of_ne hpage _ _).trans hlat
  · exact h

theorem latchPage_self {access : Access} (h : access.accessType.isWrite) :
    (sys.latchPage thread access).latches access.pageAddr = some thread := by
  rw [System.latchPage, if_pos h]
  exact update_self _ _ _

theorem latchPage_own (access : Access) {page : Nat} (h : sys.latches page = some thread) :
    (sys.latchPage thread access).latches page = some thread := by
  unfold System.latchPage
  split
  · by_cases hpage : page = access.pageAddr
    · subst hpage
      exact update_self _ _ _
    · exact (update_of_ne hpage _ _).trans h
  · exact h

section

variable (h : Quiet sys after thread)
include h

theorem Quiet.raiseClock {node clock : Nat} (hclock : after.clocks node ≤ clock) :
    Quiet sys { after with clocks := update after.clocks node clock } thread where
  __ := h
  clocks := fun other => by
    refine Nat.le_trans (h.clocks other) ?_
    by_cases hother : other = node
    · subst hother
      simp only [update_self]
      exact hclock
    · exact Nat.le_of_eq (update_of_ne hother _ _).symm

theorem Quiet.record (committed : List Committed) :
    Quiet sys { after with committed := committed } thread :=
  { h with }

theorem Quiet.ensureCommitFloor (setting : Setting) (maxSeenTs : Nat) :
    Quiet sys (after.ensureCommitFloor setting thread maxSeenTs) thread := by
  unfold System.ensureCommitFloor
  split
  · exact h
  · exact h.raiseClock (Nat.le_max_left _ _)

theorem Quiet.abortTransaction (setting : Setting)
    (manager : Manager) : Quiet sys (after.abortTransaction setting thread manager) thread :=
  (h.unlockAll.ensureCommitFloor setting manager.maxSeenTs).setManager manager.clearStates

end

theorem ensureCommitFloor_latches (setting : Setting) (sys : System) (thread maxSeenTs : Nat) :
    (sys.ensureCommitFloor setting thread maxSeenTs).latches = sys.latches := by
  unfold System.ensureCommitFloor
  split <;> rfl

end Quiet

section Publish

variable (sys : System) {addr other : TupleAddr} (version : Version)

theorem publish_rows_self : (sys.publish addr version).rows addr = some version.row :=
  update_self _ _ _

theorem publish_rows_of_ne (h : other ≠ addr) :
    (sys.publish addr version).rows other = sys.rows other := update_of_ne h _ _

theorem publish_history_self :
    (sys.publish addr version).history addr = version :: sys.history addr :=
  update_self _ _ _

theorem publish_history_of_ne (h : other ≠ addr) :
    (sys.publish addr version).history other = sys.history other := update_of_ne h _ _

theorem history_subset_publish (other : TupleAddr) :
    sys.history other ⊆ (sys.publish addr version).history other := by
  by_cases h : other = addr
  · subst h
    rw [publish_history_self]
    exact List.subset_cons_self _ _
  · rw [publish_history_of_ne sys version h]
    exact List.Subset.refl _

end Publish

/-! ### Outcomes -/

def Action.thread : Action → Nat
  | .getSnapshot thread => thread
  | .select thread _ _ _ => thread
  | .setColumn thread _ _ _ => thread
  | .setVisible thread _ _ => thread
  | .allocateNewRecord thread _ => thread
  | .beginCommit thread => thread
  | .validateNext thread => thread
  | .ensureFloor thread => thread
  | .fetchAdd thread => thread
  | .writeNext thread _ => thread
  | .finish thread => thread
  | .abort thread => thread
  | .syncSnapshot _ _ => 0
  | .collect _ => 0

def Manager.enter (manager : Manager) (stage : Stage) : Manager := { manager with stage }

def writeSet (accessList : List LocalAccess) : List TupleAddr :=
  (accessList.filter LocalAccess.writes).map LocalAccess.addr

section Outcomes

variable {setting : Setting} {sys after : System} {thread : Nat}

theorem getSnapshot_cases (h : mvoccStep setting sys (.getSnapshot thread) = some after) :
    (sys.managers thread).stage = .execute ∧ (sys.managers thread).snapshotTs = none ∧
      after = sys.setManager thread { sys.managers thread with
        snapshotTs := some (sys.clocks (setting.node thread)) } := by
  simp only [mvoccStep] at h
  split at h
  · rename_i hstage hsnap
    cases h
    exact ⟨hstage, hsnap, rfl⟩
  · cases h

/-- What `SelectRecordCC` needs. -/
structure Selectable (sys : System) (thread : Nat) (addr : TupleAddr) (accessType : AccessType)
    (snapshotTs : Nat) (row : Memory) : Prop where
  stage : (sys.managers thread).stage = .execute
  snapshot : (sys.managers thread).snapshotTs = some snapshotTs
  row : sys.rows addr = some row
  accessType : accessType ≠ .insertOnly
  history : sys.history addr ≠ []
  latch : sys.latches addr.pageAddr = none

/-- The manager before the end of `SelectRecordCC`: only flags and the largest timestamp
have changed. -/
structure Accessing (before manager : Manager) (ts : Nat) : Prop where
  accessList : manager.accessList = before.accessList
  stage : manager.stage = before.stage
  snapshot : manager.snapshotTs = before.snapshotTs
  reads : manager.reads = before.reads
  seen : manager.maxSeenTs = max before.maxSeenTs ts

theorem selectRecordCC_cases {addr : TupleAddr} {accessType : AccessType} {stray : Memory}
    (h : selectRecordCC setting sys thread addr accessType stray = some after) :
    ∃ snapshotTs row, Selectable sys thread addr accessType snapshotTs row ∧
      ((∃ manager, manager.maxSeenTs = max (sys.managers thread).maxSeenTs (setting.wts addr row) ∧
          after = sys.abortTransaction setting thread manager) ∨
        ∃ manager result, Accessing (sys.managers thread) manager (setting.wts addr row) ∧
          after = sys.setManager thread (manager.addAccess setting addr accessType result) ∧
          (accessType = .readWrite → result = some row) ∧
          (setting.serializable = false → (sys.managers thread).plainOcc = false →
            manager.plainOcc = false ∧
              rollBackToSnapshot setting sys addr snapshotTs stray row = some result)) := by
  unfold selectRecordCC at h
  split at h
  · rename_i snapshotTs row hstage hsnap hrow
    dsimp only at h
    split at h
    · cases h
    rename_i hguard
    push Not at hguard
    refine ⟨snapshotTs, row, ⟨hstage, hsnap, hrow, hguard.1, hguard.2.1, hguard.2.2⟩, ?_⟩
    split at h
    · exact .inl ⟨_, rfl, (Option.some.inj h).symm⟩
    rename_i habort
    refine .inr ?_
    -- A written tuple is not rolled back: an older snapshot aborts, or reads the newest row.
    split at h
    · rename_i hplain
      refine ⟨_, some row, ?_, (Option.some.inj h).symm, fun _ => rfl, fun hlevel hpre => ?_⟩
      · unfold Manager.choosePlainOcc
        split <;> exact ⟨rfl, rfl, rfl, rfl, rfl⟩
      · simp [Manager.choosePlainOcc, Manager.beginAccess, Manager.registerSeenTs, hlevel,
          hpre] at hplain
    · rename_i hplain
      obtain ⟨result, hres, rfl⟩ := map_eq_some_iff.mp h
      refine ⟨_, result, ?_, rfl, fun htype => ?_, fun _ _ => ⟨?_, hres⟩⟩
      · unfold Manager.choosePlainOcc
        split <;> exact ⟨rfl, rfl, rfl, rfl, rfl⟩
      · have hle : setting.wts addr row ≤ snapshotTs := by
          by_contra hlt
          cases hlevel : setting.serializable <;>
            simp_all [Manager.choosePlainOcc, Manager.abortsEarly, Manager.beginAccess,
              AccessType.isRead]
        have hsame : rollBackToSnapshot setting sys addr snapshotTs stray row =
          some (some row) := by
          simp [rollBackToSnapshot, VersionChain.rollBackTo, hle]
        exact Option.some.inj (hres.symm.trans hsame)
      · simpa using hplain
  · cases h

theorem modify_cases {index : Nat} {change : LocalAccess → Option Storage.Record}
    (h : sys.modify thread index change = some after) :
    ∃ entry tuple, (sys.managers thread).stage = .execute ∧
      (sys.managers thread).accessList[index]? = some entry ∧ change entry = some tuple ∧
      after = sys.setManager thread { sys.managers thread with
        accessList := (sys.managers thread).accessList.set index (entry.withTuple tuple) } := by
  simp only [System.modify] at h
  split at h
  · rename_i entry hstage hentry
    obtain ⟨tuple, htuple, rfl⟩ := map_eq_some_iff.mp h
    exact ⟨entry, tuple, hstage, hentry, htuple, rfl⟩
  · cases h

theorem allocateNewRecord_cases {addr : TupleAddr}
    (h : sys.allocateNewRecord setting thread addr = some after) :
    (sys.managers thread).stage = .execute ∧ sys.rows addr = none ∧
      after = (sys.setRow addr (newRow (setting.schema addr))).setManager thread
        ((sys.managers thread).addInsert setting addr) := by
  unfold System.allocateNewRecord at h
  split at h
  · rename_i hstage hrow
    split at h
    · cases h
    · cases h
      exact ⟨hstage, hrow, rfl⟩
  · cases h

theorem beginCommit_cases (h : sys.beginCommit thread = some after) :
    (sys.managers thread).stage = .execute ∧
      (after = ({ sys with committed :=
            ⟨none, [], (sys.managers thread).reads⟩ :: sys.committed } : System).setManager thread
          (sys.managers thread).clearStates ∨
        after = sys.setManager thread ((sys.managers thread).enter
          (.validate (sortedAccess (sys.managers thread).accessList)))) := by
  simp only [System.beginCommit] at h
  split at h
  · rename_i hstage
    split at h
    · cases h
      exact ⟨hstage, .inl rfl⟩
    · cases h
      exact ⟨hstage, .inr rfl⟩
  · cases h

theorem validateNext_cases (h : sys.validateNext setting thread = some after) :
    ∃ entry rest, (sys.managers thread).stage = .validate (entry :: rest) ∧
      ((entry.access.accessType.isWrite = false ∧
          after = sys.setManager thread ((sys.managers thread).enter (.validate rest))) ∨
        ∃ row, (sys.latches entry.access.pageAddr = none ∨
            sys.latches entry.access.pageAddr = some thread) ∧ sys.rows entry.addr = some row ∧
          ((entry.access.tuple.getWTS entry.access.schema < setting.wts entry.addr row ∧
              after = (sys.latchPage thread entry.access).abortTransaction setting thread
                ((sys.managers thread).registerSeenTs (setting.wts entry.addr row))) ∨
            (¬ entry.access.tuple.getWTS entry.access.schema < setting.wts entry.addr row ∧
              after = (sys.latchPage thread entry.access).setManager thread
                ((sys.managers thread).enter (.validate rest))))) := by
  simp only [System.validateNext] at h
  split at h
  · rename_i entry rest hstage
    refine ⟨entry, rest, hstage, ?_⟩
    split at h
    · split at h
      · rename_i hfree
        obtain ⟨row, hrow, rfl⟩ := map_eq_some_iff.mp h
        refine .inr ⟨row, hfree, hrow, ?_⟩
        split
        · rename_i hfail
          exact .inl ⟨hfail, rfl⟩
        · rename_i hpass
          exact .inr ⟨hpass, rfl⟩
      · cases h
    · rename_i hread
      cases h
      simp only [Bool.or_eq_true, not_or, Bool.not_eq_true] at hread
      exact .inl ⟨hread.1, rfl⟩
  · cases h

theorem ensureFloor_cases (h : sys.ensureFloor setting thread = some after) :
    (sys.managers thread).stage = .validate [] ∧
      after = (sys.ensureCommitFloor setting thread (sys.managers thread).maxSeenTs).setManager
        thread ((sys.managers thread).enter .floored) := by
  simp only [System.ensureFloor] at h
  split at h
  · rename_i hstage
    cases h
    exact ⟨hstage, rfl⟩
  · cases h

theorem fetchAdd_cases (h : sys.fetchAdd setting thread = some after) :
    (sys.managers thread).stage = .floored ∧
      after = ({ sys with
          clocks := update sys.clocks (setting.node thread)
            ((sys.clocks (setting.node thread) + 1) % 2 ^ 64) } : System).setManager thread
        ((sys.managers thread).enter
          (.write (sys.clocks (setting.node thread)) (sys.managers thread).accessList)) := by
  simp only [System.fetchAdd] at h
  split at h
  · rename_i hstage
    cases h
    exact ⟨hstage, rfl⟩
  · cases h

theorem writeNext_cases {slot : DeltaSlot} (h : sys.writeNext thread slot = some after) :
    ∃ commitTs entry rest, (sys.managers thread).stage = .write commitTs (entry :: rest) ∧
      ((entry.writes = false ∧
          after = sys.setManager thread ((sys.managers thread).enter (.write commitTs rest))) ∨
        ∃ row, entry.writes = true ∧ sys.latches entry.access.pageAddr = some thread ∧
          slot.deltaGaddr ≠ 0 ∧ slot.deltaGaddr < 2 ^ 64 ∧ sys.rows entry.addr = some row ∧
          after = (sys.publish entry.addr (writtenVersion commitTs entry slot row)).setManager
            thread ((sys.managers thread).enter (.write commitTs rest))) := by
  simp only [System.writeNext] at h
  split at h
  · rename_i commitTs entry rest hstage
    refine ⟨commitTs, entry, rest, hstage, ?_⟩
    split at h
    · rename_i hwrites
      split at h
      · rename_i hguard
        obtain ⟨row, hrow, rfl⟩ := map_eq_some_iff.mp h
        exact .inr ⟨row, hwrites, hguard.1, hguard.2.1, hguard.2.2, hrow, rfl⟩
      · cases h
    · rename_i hwrites
      cases h
      exact .inl ⟨Bool.eq_false_iff.mpr hwrites, rfl⟩
  · cases h

theorem finish_cases (h : sys.finish thread = some after) :
    ∃ commitTs, (sys.managers thread).stage = .write commitTs [] ∧
      after = ({ sys.unlockAll thread with committed :=
          ⟨some commitTs, writeSet (sys.managers thread).accessList, (sys.managers thread).reads⟩ ::
            sys.committed } : System).setManager thread
        { (sys.managers thread).clearStates with maxSeenTs := commitTs } := by
  simp only [System.finish] at h
  split at h
  · rename_i commitTs hstage
    cases h
    exact ⟨commitTs, hstage, rfl⟩
  · cases h

theorem abort_cases (h : mvoccStep setting sys (.abort thread) = some after) :
    (sys.managers thread).stage = .execute ∧
      after = sys.abortTransaction setting thread (sys.managers thread) := by
  simp only [mvoccStep] at h
  split at h
  · rename_i hstage
    cases h
    exact ⟨hstage, rfl⟩
  · cases h

/-- The counter that is incremented does not wrap. -/
def NoWrap (setting : Setting) (sys : System) : Action → Prop
  | .fetchAdd thread => sys.clocks (setting.node thread) + 1 < 2 ^ 64
  | _ => True

instance (setting : Setting) (sys : System) :
    ∀ action, Decidable (NoWrap setting sys action) := by
  rintro (_ | _) <;> dsimp only [NoWrap] <;> infer_instance

theorem quiet_fetchAdd (h : sys.fetchAdd setting thread = some after)
    (hnowrap : sys.clocks (setting.node thread) + 1 < 2 ^ 64) : Quiet sys after thread := by
  obtain ⟨-, rfl⟩ := fetchAdd_cases h
  have hlt := Nat.lt_of_lt_of_eq (Nat.lt_succ_self _) (Nat.mod_eq_of_lt hnowrap).symm
  exact ((Quiet.refl sys thread).raiseClock (Nat.le_of_lt hlt)).setManager _

theorem quiet_validateNext (h : sys.validateNext setting thread = some after) :
    Quiet sys after thread := by
  obtain ⟨entry, rest, -, ⟨-, rfl⟩ | ⟨row, hfree, -, hcases⟩⟩ := validateNext_cases h
  · exact (Quiet.refl sys thread).setManager _
  · have hquiet := (Quiet.refl sys thread).latchPage hfree
    rcases hcases with ⟨-, rfl⟩ | ⟨-, rfl⟩
    · exact hquiet.abortTransaction setting _
    · exact hquiet.setManager _

variable {action : Action} (h : mvoccStep setting sys action = some after)
include h

theorem quiet_of_step (hnowrap : NoWrap setting sys action)
    (halloc : ∀ thread addr, action ≠ .allocateNewRecord thread addr)
    (hwrite : ∀ thread slot, action ≠ .writeNext thread slot) : Quiet sys after action.thread := by
  cases action with
  | writeNext thread slot => exact absurd rfl (hwrite thread slot)
  | allocateNewRecord thread addr => exact absurd rfl (halloc thread addr)
  | getSnapshot thread =>
    obtain ⟨-, -, rfl⟩ := getSnapshot_cases h
    exact (Quiet.refl sys thread).setManager _
  | select thread addr accessType stray =>
    obtain ⟨snapshotTs, row, -, ⟨manager, -, rfl⟩ | ⟨manager, result, -, rfl, -⟩⟩ :=
      selectRecordCC_cases h
    · exact (Quiet.refl sys thread).abortTransaction setting manager
    · exact (Quiet.refl sys thread).setManager _
  | setColumn thread index colId data =>
    obtain ⟨entry, tuple, -, -, -, rfl⟩ := modify_cases h
    exact (Quiet.refl sys thread).setManager _
  | setVisible thread index visible =>
    obtain ⟨entry, tuple, -, -, -, rfl⟩ := modify_cases h
    exact (Quiet.refl sys thread).setManager _
  | beginCommit thread =>
    obtain ⟨-, rfl | rfl⟩ := beginCommit_cases h
    · exact ((Quiet.refl sys thread).record _).setManager _
    · exact (Quiet.refl sys thread).setManager _
  | validateNext thread => exact quiet_validateNext h
  | ensureFloor thread =>
    obtain ⟨-, rfl⟩ := ensureFloor_cases h
    exact ((Quiet.refl sys thread).ensureCommitFloor setting _).setManager _
  | fetchAdd thread => exact quiet_fetchAdd h hnowrap
  | finish thread =>
    obtain ⟨commitTs, -, rfl⟩ := finish_cases h
    exact ((Quiet.refl sys thread).unlockAll.record _).setManager _
  | abort thread =>
    obtain ⟨-, rfl⟩ := abort_cases h
    exact (Quiet.refl sys thread).abortTransaction setting _
  | syncSnapshot node forcedTsNext =>
    cases h
    exact (Quiet.refl sys 0).raiseClock (Nat.le_max_left _ _)
  | collect deltaGaddr =>
    cases h
    exact ⟨rfl, rfl, fun _ _ => rfl, fun _ => Nat.le_refl _, fun _ _ _ hlatch => hlatch⟩

theorem managers_step (hnowrap : NoWrap setting sys action) {other : Nat}
    (hother : other ≠ action.thread) : after.managers other = sys.managers other := by
  by_cases halloc : ∃ thread addr, action = .allocateNewRecord thread addr
  · obtain ⟨thread, addr, rfl⟩ := halloc
    obtain ⟨-, -, rfl⟩ := allocateNewRecord_cases h
    exact setManager_of_ne _ _ hother
  by_cases hwrite : ∃ thread slot, action = .writeNext thread slot
  · obtain ⟨thread, slot, rfl⟩ := hwrite
    obtain ⟨commitTs, entry, rest, -, ⟨-, rfl⟩ | ⟨row, -, -, -, -, -, rfl⟩⟩ := writeNext_cases h
    · exact setManager_of_ne _ _ hother
    · exact setManager_of_ne _ _ hother
  · push Not at halloc hwrite
    exact (quiet_of_step h hnowrap halloc hwrite).managers other hother

end Outcomes

end MemoryEngine.Txn
