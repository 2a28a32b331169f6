import MemoryEngine.Txn.VersionOrder

/-! What a transaction reads of another one.

A snapshot is the value of a counter that a later commit of the same node may still draw.
Such a commit is visible to the reader in the tuples that are read after it and in no
other.  As long as every commit timestamp is above the snapshots that are in use when it
is drawn, a transaction sees all of another one or nothing of it. -/
namespace MemoryEngine.Txn

open ByteMemory Storage List

def Visible (setting : Setting) (commitTs : Nat) (addr : TupleAddr) (result : Option Memory) :
    Prop := ∃ row, result = some row ∧ commitTs ≤ setting.wts addr row

/-- The writes of a commit to tuples that were read are all visible, or none is. -/
def AllOrNone (setting : Setting) (reads : List (TupleAddr × Option Memory))
    (own : List TupleAddr) (commitTs : Nat) (writes : List TupleAddr) : Prop :=
  (∀ addr result, (addr, result) ∈ reads → addr ∈ writes → addr ∉ own →
    Visible setting commitTs addr result) ∨
  (∀ addr result, (addr, result) ∈ reads → addr ∈ writes → addr ∉ own →
    ¬ Visible setting commitTs addr result)

/-- The commits that have a timestamp, with the thread of those that are not finished. -/
inductive Drawn (sys : System) : Option Nat → Nat → List TupleAddr → Prop where
  | active {thread commitTs : Nat} {pending : List LocalAccess}
      (h : (sys.managers thread).stage = .write commitTs pending) :
      Drawn sys (some thread) commitTs (writeSet (sys.managers thread).accessList)
  | done {writer : Committed} (h : writer ∈ sys.committed) {commitTs : Nat}
      (hts : writer.commitTs = some commitTs) : Drawn sys none commitTs writer.writes

section Invariant

variable (setting : Setting) (sys : System)

def ReadVersions (reads : List (TupleAddr × Option Memory)) : Prop :=
  ∀ addr result, (addr, result) ∈ reads → sys.history addr ≠ [] ∧
    ∀ row, result = some row → ∃ version ∈ sys.history addr, version.row = row

/-- A transaction that reads sees the commits up to its snapshot. -/
structure ReaderInv (thread : Nat) (manager : Manager) : Prop where
  fresh : manager.snapshotTs = none → manager.reads = []
  versions : ReadVersions sys manager.reads
  bounded : ∀ snapshotTs, manager.snapshotTs = some snapshotTs → ∀ addr row,
    (addr, some row) ∈ manager.reads → setting.wts addr row ≤ snapshotTs
  sees : ∀ snapshotTs, manager.snapshotTs = some snapshotTs → ∀ owner commitTs writes,
    Drawn sys owner commitTs writes → owner ≠ some thread → ∀ addr result,
      (addr, result) ∈ manager.reads → addr ∈ writes →
        (Visible setting commitTs addr result ↔ commitTs ≤ snapshotTs)

/-- A transaction that writes has the latches of its tuples, and a tuple is still to be
written or has the version of the commit. -/
def WriterInv (thread : Nat) (manager : Manager) : Prop :=
  ∀ commitTs pending, manager.stage = .write commitTs pending → ∀ entry ∈ manager.accessList,
    entry.writes = true → sys.latches entry.access.pageAddr = some thread ∧
      (entry ∈ pending ∨
        ∃ version ∈ sys.history entry.addr, setting.wts entry.addr version.row = commitTs)

structure CommittedInv (txn : Committed) : Prop where
  versions : ReadVersions sys txn.reads
  written : ∀ commitTs, txn.commitTs = some commitTs → ∀ addr ∈ txn.writes,
    ∃ version ∈ sys.history addr, setting.wts addr version.row = commitTs
  atomic : ∀ owner commitTs writes, Drawn sys owner commitTs writes →
    AllOrNone setting txn.reads txn.writes commitTs writes

structure SnapshotInv : Prop where
  readers : ∀ thread, ReaderInv setting sys thread (sys.managers thread)
  writers : ∀ thread, WriterInv setting sys thread (sys.managers thread)
  committed : ∀ txn ∈ sys.committed, CommittedInv setting sys txn

end Invariant

variable {commitTs : Nat} {addr : TupleAddr} {reads : List (TupleAddr × Option Memory)}

variable {txn : Committed}

section Transfer

variable {setting : Setting} {sys after : System} {thread : Nat} {manager : Manager}

theorem ReadVersions.mono (h : ReadVersions sys reads)
    (hhist : ∀ addr, sys.history addr ⊆ after.history addr) : ReadVersions after reads := by
  intro addr result hmem
  obtain ⟨hne, hver⟩ := h addr result hmem
  obtain ⟨version, hin⟩ := exists_mem_of_ne_nil _ hne
  refine ⟨ne_nil_of_mem (hhist addr hin), fun row hrow => ?_⟩
  obtain ⟨version, hin, heq⟩ := hver row hrow
  exact ⟨version, hhist addr hin, heq⟩

theorem ReaderInv.transfer (h : ReaderInv setting sys thread manager)
    (hhist : ∀ addr, sys.history addr ⊆ after.history addr)
    (hdrawn : ∀ owner commitTs writes, Drawn after owner commitTs writes → owner ≠ some thread →
      Drawn sys owner commitTs writes ∨ ∃ other, other ≠ thread ∧
        Drawn sys (some other) commitTs writes) : ReaderInv setting after thread manager where
  __ := h
  versions := h.versions.mono hhist
  sees := fun snapshotTs hsnap owner commitTs writes hafter howner => by
    rcases hdrawn owner commitTs writes hafter howner with hpre | ⟨other, hother, hpre⟩
    · exact h.sees snapshotTs hsnap owner commitTs writes hpre howner
    · exact h.sees snapshotTs hsnap (some other) commitTs writes hpre fun heq =>
        hother (Option.some.inj heq)

theorem WriterInv.transfer (h : WriterInv setting sys thread manager)
    (hhist : ∀ addr, sys.history addr ⊆ after.history addr)
    (hlats : ∀ page, sys.latches page = some thread → after.latches page = some thread) :
    WriterInv setting after thread manager := by
  intro commitTs pending hstage entry hmem hwrites
  obtain ⟨hlatch, hwrit⟩ := h commitTs pending hstage entry hmem hwrites
  refine ⟨hlats _ hlatch, hwrit.imp_right ?_⟩
  rintro ⟨version, hin, hts⟩
  exact ⟨version, hhist _ hin, hts⟩

theorem CommittedInv.transfer (h : CommittedInv setting sys txn)
    (hhist : ∀ addr, sys.history addr ⊆ after.history addr)
    (hdrawn : ∀ owner commitTs writes, Drawn after owner commitTs writes →
      AllOrNone setting txn.reads txn.writes commitTs writes) : CommittedInv setting after txn where
  versions := h.versions.mono hhist
  written := fun commitTs hts addr hmem => by
    obtain ⟨version, hin, heq⟩ := h.written commitTs hts addr hmem
    exact ⟨version, hhist addr hin, heq⟩
  atomic := hdrawn

theorem SnapshotInv.step (h : SnapshotInv setting sys)
    (hothers : ∀ other, other ≠ thread → after.managers other = sys.managers other)
    (hhist : ∀ addr, sys.history addr ⊆ after.history addr)
    (hlats : ∀ page other, other ≠ thread → sys.latches page = some other → after.latches page =
      some other)
    (hcomm : after.committed = sys.committed)
    (hdrawn : ∀ commitTs pending, (after.managers thread).stage = .write commitTs pending → (∃
      before, (sys.managers thread).stage = .write commitTs before) ∧ (after.managers
      thread).accessList = (sys.managers thread).accessList)
    (hrdr : ReaderInv setting sys thread (after.managers thread))
    (hwtr : WriterInv setting after thread (after.managers thread)) :
    SnapshotInv setting after := by
  have hold : ∀ owner commitTs writes, Drawn after owner commitTs writes →
      Drawn sys owner commitTs writes := by
    intro owner commitTs writes hafter
    cases hafter with
    | @active active _ pending hstage =>
      by_cases hactive : active = thread
      · subst hactive
        obtain ⟨⟨before, hpre⟩, hlist⟩ := hdrawn commitTs pending hstage
        rw [hlist]
        exact .active hpre
      · rw [hothers active hactive] at hstage ⊢
        exact .active hstage
    | done hmem hts => exact .done (hcomm ▸ hmem) hts
  refine ⟨fun other => ?_, fun other => ?_, fun txn htxn => ?_⟩
  · by_cases hother : other = thread
    · subst hother
      exact hrdr.transfer hhist fun owner commitTs writes hafter _ => .inl (hold _ _ _ hafter)
    · rw [hothers other hother]
      exact (h.readers other).transfer hhist fun owner commitTs writes hafter _ =>
        .inl (hold _ _ _ hafter)
  · by_cases hother : other = thread
    · subst hother
      exact hwtr
    · rw [hothers other hother]
      exact (h.writers other).transfer hhist fun page => hlats page other hother
  · have hpre := h.committed txn (hcomm ▸ htxn)
    exact hpre.transfer hhist fun owner commitTs writes hafter =>
      hpre.atomic owner commitTs writes (hold _ _ _ hafter)

theorem SnapshotInv.quiet (h : SnapshotInv setting sys) (hquiet : Quiet sys after thread)
    (hcomm : after.committed = sys.committed)
    (hstage : ∀ commitTs pending, (after.managers thread).stage ≠ .write commitTs pending)
    (hrdr : ReaderInv setting sys thread (after.managers thread)) : SnapshotInv setting after :=
  h.step hquiet.managers (fun _ => hquiet.history ▸ List.Subset.refl _) hquiet.latches hcomm
    (fun commitTs pending hwrite => absurd hwrite (hstage commitTs pending)) hrdr
    fun commitTs pending hwrite => absurd hwrite (hstage commitTs pending)

theorem ReaderInv.congr (h : ReaderInv setting sys thread manager) {other : Manager}
    (hsnap : other.snapshotTs = manager.snapshotTs) (hreads : other.reads = manager.reads) :
    ReaderInv setting sys thread other where
  fresh := by rw [hsnap, hreads]; exact h.fresh
  versions := hreads ▸ h.versions
  bounded := by rw [hsnap, hreads]; exact h.bounded
  sees := by rw [hsnap, hreads]; exact h.sees

theorem ReaderInv.of_reads_nil (hreads : manager.reads = []) :
    ReaderInv setting sys thread manager where
  fresh := fun _ => hreads
  versions := fun _ _ hmem => by
    rw [hreads] at hmem
    cases hmem
  bounded := fun _ _ _ _ hmem => by
    rw [hreads] at hmem
    cases hmem
  sees := fun _ _ _ _ _ _ _ _ _ hmem => by
    rw [hreads] at hmem
    cases hmem

theorem ReaderInv.allOrNone (h : ReaderInv setting sys thread manager) (own : List TupleAddr)
    {owner : Option Nat} {writes : List TupleAddr} (hdrawn : Drawn sys owner commitTs writes)
    (howner : owner ≠ some thread) : AllOrNone setting manager.reads own commitTs writes := by
  cases hsnap : manager.snapshotTs with
  | none =>
    rw [h.fresh hsnap]
    exact .inl fun addr result hmem => absurd hmem not_mem_nil
  | some snapshotTs =>
    have hsees := h.sees snapshotTs hsnap owner commitTs writes hdrawn howner
    by_cases hle : commitTs ≤ snapshotTs
    · exact .inl fun addr result hmem hwrit _ => (hsees addr result hmem hwrit).mpr hle
    · exact .inr fun addr result hmem hwrit _ hvis =>
        hle ((hsees addr result hmem hwrit).mp hvis)

theorem Drawn.owner_ne {owner : Option Nat} {writes : List TupleAddr}
    (h : Drawn sys owner commitTs writes)
    (hstage : ∀ commitTs pending, (sys.managers thread).stage ≠ .write commitTs pending) :
    owner ≠ some thread := by
  rintro rfl
  cases h with
  | active hwrite => exact hstage _ _ hwrite

theorem abortTransaction_committed (setting : Setting) (sys : System) (thread : Nat)
    (manager : Manager) :
    (sys.abortTransaction setting thread manager).committed = sys.committed := by
  simp only [System.abortTransaction, System.ensureCommitFloor]
  split <;> rfl

theorem latchPage_committed (sys : System) (thread : Nat) (access : Access) :
    (sys.latchPage thread access).committed = sys.committed := by
  unfold System.latchPage
  split <;> rfl

theorem SnapshotInv.abortTransaction (h : SnapshotInv setting sys)
    (hquiet : Quiet sys after thread) (hcomm : after.committed = sys.committed)
    (manager : Manager) : SnapshotInv setting (after.abortTransaction setting thread manager) := by
  have hself : (after.abortTransaction setting thread manager).managers thread =
      manager.clearStates := setManager_self _ _ _
  refine h.quiet (hquiet.abortTransaction setting manager)
    ((abortTransaction_committed _ _ _ _).trans hcomm) (fun _ _ hstage => ?_) ?_
  · rw [hself] at hstage
    cases hstage
  · rw [hself]
    exact .of_reads_nil rfl

end Transfer

/-! ### Steps -/

section Steps

variable {setting : Setting} {sys after : System} {thread : Nat} {result : Option Memory}

section

variable (h : SnapshotInv setting sys)
include h

theorem SnapshotInv.getSnapshot (hstep : mvoccStep setting sys (.getSnapshot thread) = some after) :
    SnapshotInv setting after := by
  obtain ⟨hstage, hsnap, rfl⟩ := getSnapshot_cases hstep
  refine h.quiet ((Quiet.refl sys thread).setManager _) rfl (fun _ _ hwrite => ?_) ?_
  · rw [setManager_self] at hwrite
    cases hstage.symm.trans hwrite
  · rw [setManager_self]
    exact .of_reads_nil ((h.readers thread).fresh hsnap)

theorem SnapshotInv.visible_iff {snapshotTs : Nat} {owner : Option Nat} {writes : List TupleAddr}
    (hlatch : sys.latches addr.pageAddr = none)
    (hver : IsVersionAt setting sys addr snapshotTs result)
    (hdrawn : Drawn sys owner commitTs writes) (hmem : addr ∈ writes) :
    Visible setting commitTs addr result ↔ commitTs ≤ snapshotTs := by
  -- A commit that is not finished would hold the latch of the page.
  have hwrit : ∃ version ∈ sys.history addr, setting.wts addr version.row = commitTs := by
    cases hdrawn with
    | @active other _ pending hstage =>
      obtain ⟨entry, hentry, rfl⟩ := mem_map.mp hmem
      obtain ⟨hin, hwrites⟩ := mem_filter.mp hentry
      have hheld := (h.writers other commitTs pending hstage entry hin hwrites).1
      cases hlatch.symm.trans hheld
    | done htxn hts => exact (h.committed _ htxn).written commitTs hts addr hmem
  obtain ⟨version, hin, hts⟩ := hwrit
  cases result with
  | none =>
    have hafter := hver version hin
    exact ⟨fun ⟨row, hrow, _⟩ => (Option.some_ne_none row hrow.symm).elim, fun hle => by omega⟩
  | some row =>
    obtain ⟨-, hbound, hgreat⟩ := hver
    constructor
    · rintro ⟨row', hrow, hle⟩
      cases hrow
      omega
    · intro hle
      exact ⟨row, rfl, hts ▸ hgreat version hin (by omega)⟩

theorem SnapshotInv.reader_read {manager : Manager}
    {snapshotTs : Nat} (hlatch : sys.latches addr.pageAddr = none)
    (hcomm : sys.history addr ≠ []) (hver : IsVersionAt setting sys addr snapshotTs result)
    (hsnap : manager.snapshotTs = some snapshotTs)
    (hsame : (sys.managers thread).snapshotTs = some snapshotTs)
    (hreads : manager.reads = (addr, result) :: (sys.managers thread).reads) :
    ReaderInv setting sys thread manager := by
  have hrdr := h.readers thread
  refine ⟨fun hnone => ?_, ?_, ?_, ?_⟩
  · rw [hsnap] at hnone
    cases hnone
  · intro other found hmem
    rw [hreads] at hmem
    rcases mem_cons.mp hmem with heq | hmem
    · cases heq
      refine ⟨hcomm, fun row hrow => ?_⟩
      subst hrow
      exact hver.1
    · exact hrdr.versions other found hmem
  · intro ts hts other row hmem
    cases hsnap.symm.trans hts
    rw [hreads] at hmem
    rcases mem_cons.mp hmem with heq | hmem
    · cases heq
      exact hver.2.1
    · exact hrdr.bounded snapshotTs hsame other row hmem
  · intro ts hts owner commitTs writes hdrawn howner other found hmem hwrit
    cases hsnap.symm.trans hts
    rw [hreads] at hmem
    rcases mem_cons.mp hmem with heq | hmem
    · cases heq
      exact h.visible_iff hlatch hver hdrawn hwrit
    · exact hrdr.sees snapshotTs hsame owner commitTs writes hdrawn howner other found hmem
        hwrit

theorem SnapshotInv.select (hinv : Inv setting sys)
    (hlevel : setting.serializable = false) {accessType : AccessType} {stray : Memory}
    (hret : ∀ snapshotTs, (sys.managers thread).snapshotTs = some snapshotTs →
      Retained setting sys addr snapshotTs)
    (hstep : selectRecordCC setting sys thread addr accessType stray = some after) :
    SnapshotInv setting after := by
  obtain ⟨snapshotTs, row, hsel, ⟨manager, -, rfl⟩ | ⟨manager, result, hmgr, rfl, -, hloop⟩⟩ :=
    selectRecordCC_cases hstep
  · exact h.abortTransaction (Quiet.refl sys thread) rfl manager
  have hsnap : manager.snapshotTs = some snapshotTs := hmgr.snapshot.trans hsel.snapshot
  refine h.quiet ((Quiet.refl sys thread).setManager _) rfl (fun _ _ hwrite => ?_) ?_
  · rw [setManager_self] at hwrite
    cases (hmgr.stage.trans hsel.stage).symm.trans hwrite
  rw [setManager_self]
  by_cases hread : accessType.isRead = true
  · obtain ⟨found, hfound, hver⟩ := (hinv.tuples addr).rollBackToSnapshot_eq stray hsel.row
      hsel.history (hret snapshotTs hsel.snapshot)
    have hres := (hloop hlevel ((hinv.managers thread).plain hlevel)).2
    cases hfound.symm.trans hres
    refine h.reader_read hsel.latch hsel.history hver hsnap hsel.snapshot ?_
    simp only [Manager.addAccess, hread, if_true, hmgr.reads]
  · refine (h.readers thread).congr hmgr.snapshot ?_
    simp only [Manager.addAccess, if_neg hread]
    exact hmgr.reads

theorem SnapshotInv.modify {index : Nat} {change : LocalAccess → Option Storage.Record}
    (hstep : sys.modify thread index change = some after) : SnapshotInv setting after := by
  obtain ⟨entry, tuple, hstage, -, -, rfl⟩ := modify_cases hstep
  refine h.quiet ((Quiet.refl sys thread).setManager _) rfl (fun _ _ hwrite => ?_) ?_
  · rw [setManager_self] at hwrite
    cases hstage.symm.trans hwrite
  · rw [setManager_self]
    exact (h.readers thread).congr rfl rfl

theorem SnapshotInv.allocateNewRecord
    (hstep : sys.allocateNewRecord setting thread addr = some after) :
    SnapshotInv setting after := by
  obtain ⟨hstage, -, rfl⟩ := allocateNewRecord_cases hstep
  have hexec : ∀ commitTs pending, (((sys.setRow addr (newRow (setting.schema addr))).setManager
      thread ((sys.managers thread).addInsert setting addr)).managers thread).stage ≠
        .write commitTs pending := fun commitTs pending hwrite => by
    rw [setManager_self] at hwrite
    cases hstage.symm.trans hwrite
  refine h.step (fun other hother => setManager_of_ne _ _ hother) (fun _ => List.Subset.refl _)
    (fun _ _ _ => id) rfl (fun _ _ hwrite => absurd hwrite (hexec _ _)) ?_
    fun _ _ hwrite => absurd hwrite (hexec _ _)
  rw [setManager_self]
  exact (h.readers thread).congr rfl rfl

theorem SnapshotInv.enter (hquiet : Quiet sys after thread)
    (hcomm : after.committed = sys.committed) {stage : Stage}
    (hstage : ∀ commitTs pending, stage ≠ .write commitTs pending) :
    SnapshotInv setting (after.setManager thread ((sys.managers thread).enter stage)) := by
  refine h.quiet (hquiet.setManager _) hcomm ?_ ?_
  · rw [setManager_self]
    exact hstage
  · rw [setManager_self]
    exact (h.readers thread).congr rfl rfl

theorem SnapshotInv.validateNext
    (hstep : sys.validateNext setting thread = some after) : SnapshotInv setting after := by
  obtain ⟨entry, rest, -, ⟨-, rfl⟩ | ⟨row, hfree, -, hcases⟩⟩ := validateNext_cases hstep
  · exact h.enter (Quiet.refl sys thread) rfl nofun
  · have hquiet := (Quiet.refl sys thread).latchPage hfree
    rcases hcases with ⟨-, rfl⟩ | ⟨-, rfl⟩
    · exact h.abortTransaction hquiet (latchPage_committed _ _ _) _
    · exact h.enter hquiet (latchPage_committed _ _ _) nofun

theorem SnapshotInv.ensureFloor
    (hstep : sys.ensureFloor setting thread = some after) : SnapshotInv setting after := by
  obtain ⟨-, rfl⟩ := ensureFloor_cases hstep
  refine h.enter ((Quiet.refl sys thread).ensureCommitFloor setting _) ?_ nofun
  unfold System.ensureCommitFloor
  split <;> rfl

end

theorem Inv.wts_lt_clock (hinv : Inv setting sys) (hstage : (sys.managers thread).stage = .floored)
    {entry : LocalAccess} (hmem : entry ∈ (sys.managers thread).accessList)
    (hwrites : entry.writes = true) {version : Version} (hin : version ∈ sys.history entry.addr) :
    setting.wts entry.addr version.row < sys.clocks (setting.node thread) := by
  have hthr := hinv.managers thread
  have hlive : entry ∈ (sys.managers thread).live := by rwa [Manager.live, hstage]
  have hwrite := writes_isWrite hwrites
  have hentry := hthr.entries entry hlive hwrite
  have hfloor := hthr.floored
  rw [Manager.Floored, hstage] at hfloor
  have htuple := hinv.tuples entry.addr
  rcases isWrite_iff.mp hwrite with htype | htype
  · have hheld := hthr.held entry (by rwa [Manager.Checked, hstage]) hwrite
    have hseen := (hentry.update htype).2
    by_contra hge
    have heq := htuple.eq_of_le hin hheld.row (by omega)
    rw [← heq] at hge
    omega
  · rw [(hentry.insert htype).1] at hin
    cases hin

theorem Inv.not_visible (hinv : Inv setting sys) (hstage : (sys.managers thread).stage = .floored)
    (hreads : ReadVersions sys reads)
    (hmem : (addr, result) ∈ reads)
    (hwrit : addr ∈ writeSet (sys.managers thread).accessList) :
    ¬ Visible setting (sys.clocks (setting.node thread)) addr result := by
  rintro ⟨row, hrow, hle⟩
  obtain ⟨entry, hentry, rfl⟩ := mem_map.mp hwrit
  obtain ⟨hin, hwrites⟩ := mem_filter.mp hentry
  obtain ⟨version, hver, rfl⟩ := (hreads _ _ hmem).2 row hrow
  have hlt := hinv.wts_lt_clock hstage hin hwrites hver
  omega

theorem Drawn.of_fetchAdd (hstep : sys.fetchAdd setting thread = some after) {owner : Option Nat}
    {commitTs : Nat} {writes : List TupleAddr} (h : Drawn after owner commitTs writes) :
    Drawn sys owner commitTs writes ∨ owner = some thread ∧
      commitTs = sys.clocks (setting.node thread) ∧
      writes = writeSet (sys.managers thread).accessList := by
  obtain ⟨-, rfl⟩ := fetchAdd_cases hstep
  cases h with
  | @active active _ pending hwrite =>
    by_cases hactive : active = thread
    · subst hactive
      rw [setManager_self] at hwrite ⊢
      cases hwrite
      exact .inr ⟨rfl, rfl, rfl⟩
    · rw [setManager_of_ne _ _ hactive] at hwrite ⊢
      exact .inl (.active hwrite)
  | @done writer hmem _ hts => exact .inl (.done (show writer ∈ sys.committed from hmem) hts)

/-- The snapshots that other threads use are below the timestamp that is drawn. -/
def AboveSnapshots (setting : Setting) (sys : System) (thread : Nat) : Prop :=
  ∀ other snapshotTs, other ≠ thread → (sys.managers other).snapshotTs = some snapshotTs →
    snapshotTs < sys.clocks (setting.node thread)

theorem ReaderInv.fetchAdd {other : Nat} (h : ReaderInv setting sys other (sys.managers other))
    (hinv : Inv setting sys) (habove : AboveSnapshots setting sys thread)
    (hstep : sys.fetchAdd setting thread = some after) :
    ReaderInv setting after other (sys.managers other) := by
  have hstage := (fetchAdd_cases hstep).1
  have hhist : after.history = sys.history := by
    obtain ⟨-, rfl⟩ := fetchAdd_cases hstep
    rfl
  refine ⟨h.fresh, h.versions.mono fun _ => hhist ▸ List.Subset.refl _, h.bounded, ?_⟩
  intro snapshotTs hsnap owner commitTs writes hafter howner addr result hmem hwrit
  rcases hafter.of_fetchAdd hstep with hpre | ⟨rfl, rfl, rfl⟩
  · exact h.sees snapshotTs hsnap owner commitTs writes hpre howner addr result hmem hwrit
  · have hlt := habove other snapshotTs (fun heq => howner (congrArg some heq.symm)) hsnap
    have hnot := hinv.not_visible hstage h.versions hmem hwrit
    exact ⟨fun hvis => absurd hvis hnot, fun hle => by omega⟩

theorem SnapshotInv.fetchAdd (h : SnapshotInv setting sys) (hinv : Inv setting sys)
    (habove : AboveSnapshots setting sys thread)
    (hstep : sys.fetchAdd setting thread = some after) : SnapshotInv setting after := by
  have hrdrs := fun other => (h.readers other).fetchAdd hinv habove hstep
  have hdrawn := fun owner commitTs writes =>
    @Drawn.of_fetchAdd setting sys after thread hstep owner commitTs writes
  obtain ⟨hstage, rfl⟩ := fetchAdd_cases hstep
  refine ⟨fun other => ?_, fun other => ?_, fun txn htxn => ?_⟩
  · by_cases hother : other = thread
    · subst hother
      rw [setManager_self]
      exact (hrdrs other).congr rfl rfl
    · rw [setManager_of_ne _ _ hother]
      exact hrdrs other
  · by_cases hother : other = thread
    · subst hother
      rw [setManager_self]
      intro commitTs pending hwrite entry hmem hwrites
      cases hwrite
      have hheld := (hinv.managers other).held entry (by
        rw [Manager.Checked, hstage]
        exact hmem) (writes_isWrite hwrites)
      exact ⟨hheld.latch, .inl hmem⟩
    · rw [setManager_of_ne _ _ hother]
      exact h.writers other
  · have hpre := h.committed txn htxn
    refine hpre.transfer (fun _ => List.Subset.refl _) fun owner commitTs writes hafter => ?_
    rcases hdrawn owner commitTs writes hafter with hold | ⟨-, rfl, rfl⟩
    · exact hpre.atomic owner commitTs writes hold
    · exact .inr fun addr result hmem hwrit _ =>
        hinv.not_visible hstage hpre.versions hmem hwrit

theorem SnapshotInv.pass (h : SnapshotInv setting sys) {entry : LocalAccess}
    {rest : List LocalAccess}
    (hstage : (sys.managers thread).stage = .write commitTs (entry :: rest))
    (hmanagers : after.managers = sys.managers) (hlats : after.latches = sys.latches)
    (hcomm : after.committed = sys.committed)
    (hhist : ∀ addr, sys.history addr ⊆ after.history addr)
    (hwrit : entry.writes = true →
      ∃ version ∈ after.history entry.addr, setting.wts entry.addr version.row = commitTs) :
    SnapshotInv setting (after.setManager thread
      ((sys.managers thread).enter (.write commitTs rest))) := by
  refine h.step (fun other (hother : other ≠ thread) => ?_) hhist (fun _ _ _ => hlats ▸ id)
    hcomm (fun _ _ hwrite => ?_) ?_ ?_
  · rw [setManager_of_ne _ _ hother, hmanagers]
  · rw [setManager_self] at hwrite ⊢
    cases hwrite
    exact ⟨⟨_, hstage⟩, rfl⟩
  · rw [setManager_self]
    exact (h.readers thread).congr rfl rfl
  · rw [setManager_self]
    rintro _ _ ⟨⟩ used hmem hused
    obtain ⟨hlatch, hdone⟩ := h.writers thread commitTs (entry :: rest) hstage used hmem hused
    refine ⟨hlats ▸ hlatch, ?_⟩
    rcases hdone with hin | ⟨version, hver, hts⟩
    · rcases mem_cons.mp hin with rfl | hin
      · exact .inr (hwrit hused)
      · exact .inl hin
    · exact .inr ⟨version, hhist _ hver, hts⟩

theorem SnapshotInv.writeNext (h : SnapshotInv setting sys) (hinv : Inv setting sys)
    {slot : DeltaSlot} (hstep : sys.writeNext thread slot = some after) :
    SnapshotInv setting after := by
  obtain ⟨commitTs, entry, rest, hstage, hcases⟩ := writeNext_cases hstep
  rcases hcases with ⟨hnone, rfl⟩ | ⟨row, hwrites, -, -, hslot, -, rfl⟩
  · exact h.pass hstage rfl rfl rfl (fun _ => List.Subset.refl _) fun hwrites =>
      absurd hwrites (Bool.eq_false_iff.mp hnone)
  · refine h.pass hstage rfl rfl rfl (history_subset_publish sys _) fun _ => ⟨_, ?_,
      (hinv.atWrite hstage (writes_isWrite hwrites)).wts hslot row⟩
    rw [publish_history_self]
    exact mem_cons_self

theorem Drawn.of_close (hquiet : Quiet sys after thread)
    (hstage : ∀ commitTs pending, (after.managers thread).stage ≠ .write commitTs pending)
    (hcomm : after.committed = txn :: sys.committed) {owner : Option Nat} {commitTs : Nat}
    {writes : List TupleAddr} (h : Drawn after owner commitTs writes) :
    owner ≠ some thread ∧ (Drawn sys owner commitTs writes ∨
      txn.commitTs = some commitTs ∧ writes = txn.writes) := by
  refine ⟨h.owner_ne hstage, ?_⟩
  cases h with
  | @active active _ pending hwrite =>
    have hactive : active ≠ thread := by
      rintro rfl
      exact hstage _ _ hwrite
    rw [hquiet.managers active hactive] at hwrite ⊢
    exact .inl (.active hwrite)
  | done hmem hts =>
    rw [hcomm] at hmem
    rcases mem_cons.mp hmem with rfl | hmem
    · exact .inr ⟨hts, rfl⟩
    · exact .inl (.done hmem hts)

variable (h : SnapshotInv setting sys)
include h

theorem SnapshotInv.close (hquiet : Quiet sys after thread)
    (hstage : ∀ commitTs pending, (after.managers thread).stage ≠ .write commitTs pending)
    (hcomm : after.committed = txn :: sys.committed)
    (hended : (after.managers thread).reads = []) (hreads : txn.reads = (sys.managers thread).reads)
    (hdrawn : ∀ commitTs, txn.commitTs = some commitTs → Drawn sys (some thread) commitTs
      txn.writes ∧ ∀ addr ∈ txn.writes, ∃ version ∈ sys.history addr, setting.wts addr version.row
      = commitTs) : SnapshotInv setting after := by
  have hhist : ∀ addr, sys.history addr ⊆ after.history addr :=
    fun _ => hquiet.history ▸ List.Subset.refl _
  have hold : ∀ owner commitTs writes, Drawn after owner commitTs writes →
      Drawn sys owner commitTs writes ∨ Drawn sys (some thread) commitTs writes := by
    intro owner commitTs writes hafter
    obtain ⟨-, hpre | ⟨hts, rfl⟩⟩ := hafter.of_close hquiet hstage hcomm
    · exact .inl hpre
    · exact .inr (hdrawn commitTs hts).1
  refine ⟨fun other => ?_, fun other => ?_, fun old hmem => ?_⟩
  · by_cases hother : other = thread
    · exact .of_reads_nil (hother ▸ hended)
    · rw [hquiet.managers other hother]
      exact (h.readers other).transfer hhist fun owner commitTs writes hafter _ =>
        (hold owner commitTs writes hafter).imp_right fun hpre =>
          ⟨thread, Ne.symm hother, hpre⟩
  · by_cases hother : other = thread
    · subst hother
      exact fun commitTs pending hwrite => absurd hwrite (hstage commitTs pending)
    · rw [hquiet.managers other hother]
      exact (h.writers other).transfer hhist fun page => hquiet.latches page other hother
  · rw [hcomm] at hmem
    rcases mem_cons.mp hmem with rfl | hmem
    · have hrdr := h.readers thread
      refine ⟨hreads ▸ hrdr.versions.mono hhist, fun commitTs hts addr hmem => ?_,
        fun owner commitTs writes hafter => ?_⟩
      · obtain ⟨version, hin, heq⟩ := (hdrawn commitTs hts).2 addr hmem
        exact ⟨version, hhist addr hin, heq⟩
      · obtain ⟨howner, hpre | ⟨-, rfl⟩⟩ := hafter.of_close hquiet hstage hcomm
        · exact hreads ▸ hrdr.allOrNone _ hpre howner
        · exact .inl fun addr result _ hwrit hown => absurd hwrit hown
    · have hpre := h.committed old hmem
      exact hpre.transfer hhist fun owner commitTs writes hafter =>
        (hold owner commitTs writes hafter).elim (hpre.atomic _ commitTs writes)
          (hpre.atomic _ commitTs writes)

theorem SnapshotInv.finish (hstep : sys.finish thread = some after) :
    SnapshotInv setting after := by
  obtain ⟨drawnTs, hstage, rfl⟩ := finish_cases hstep
  refine h.close (((Quiet.refl sys thread).unlockAll.record _).setManager _) ?_ rfl ?_ rfl ?_
  · rw [setManager_self]
    exact fun _ _ hwrite => by cases hwrite
  · rw [setManager_self]
    rfl
  · rintro _ ⟨⟩
    refine ⟨.active hstage, fun addr hmem => ?_⟩
    obtain ⟨entry, hentry, rfl⟩ := mem_map.mp hmem
    obtain ⟨hin, hwrites⟩ := mem_filter.mp hentry
    exact (h.writers thread _ _ hstage entry hin hwrites).2.resolve_left not_mem_nil

theorem SnapshotInv.beginCommit
    (hstep : sys.beginCommit thread = some after) : SnapshotInv setting after := by
  obtain ⟨-, rfl | rfl⟩ := beginCommit_cases hstep
  · -- A transaction that only reads commits without a timestamp.
    refine h.close (((Quiet.refl sys thread).record _).setManager _) ?_ rfl ?_ rfl nofun
    · rw [setManager_self]
      exact fun _ _ hwrite => by cases hwrite
    · rw [setManager_self]
      rfl
  · exact h.enter (Quiet.refl sys thread) rfl nofun

end Steps

/-! ### Runs -/

section Runs

variable {setting : Setting} {sys after : System} {action : Action}

/-- The conditions on a step: a read-write access is the first one to its tuple, a commit
timestamp is above the snapshots of the other threads, and a read finds the delta records
of the versions that its snapshot does not have. -/
def SnapshotStep (setting : Setting) (sys : System) (action : Action) : Prop :=
  WritesFirstStep sys action ∧ NoWrap setting sys action ∧
    match action with
    | .fetchAdd thread => AboveSnapshots setting sys thread
    | .select thread addr _ _ => ∀ snapshotTs,
        (sys.managers thread).snapshotTs = some snapshotTs → Retained setting sys addr snapshotTs
    | _ => True

theorem SnapshotInv.initial (h : sys.Initial setting) : SnapshotInv setting sys where
  readers := fun thread => by
    rw [h.managers thread]
    exact .of_reads_nil rfl
  writers := fun thread => by
    rw [h.managers thread]
    exact fun _ _ hwrite => by cases hwrite
  committed := fun txn htxn => by
    rw [h.committed] at htxn
    cases htxn

theorem SnapshotInv.background (h : SnapshotInv setting sys) (clocks : Nat → Nat)
    (deltas : Nat → Option DeltaRecord) :
    SnapshotInv setting { sys with clocks := clocks, deltas := deltas } :=
  h.step (fun _ (_ : _ ≠ 0) => rfl) (fun _ => List.Subset.refl _) (fun _ _ _ => id) rfl
    (fun _ pending hwrite => ⟨⟨pending, hwrite⟩, rfl⟩) (h.readers 0) (h.writers 0)

theorem SnapshotInv.of_step (hlevel : setting.serializable = false) (h : SnapshotInv setting sys)
    (hinv : Inv setting sys) (hallow : SnapshotStep setting sys action)
    (hstep : mvoccStep setting sys action = some after) : SnapshotInv setting after := by
  obtain ⟨-, -, hsnap⟩ := hallow
  cases action with
  | getSnapshot thread => exact h.getSnapshot hstep
  | select thread addr accessType stray => exact h.select hinv hlevel hsnap hstep
  | setColumn thread index colId data => exact h.modify hstep
  | setVisible thread index visible => exact h.modify hstep
  | allocateNewRecord thread addr => exact h.allocateNewRecord hstep
  | beginCommit thread => exact h.beginCommit hstep
  | validateNext thread => exact h.validateNext hstep
  | ensureFloor thread => exact h.ensureFloor hstep
  | fetchAdd thread => exact h.fetchAdd hinv hsnap hstep
  | writeNext thread slot => exact h.writeNext hinv hstep
  | finish thread => exact h.finish hstep
  | abort thread =>
    obtain ⟨-, rfl⟩ := abort_cases hstep
    exact h.abortTransaction (Quiet.refl sys thread) rfl _
  | syncSnapshot node forcedTsNext =>
    cases hstep
    exact h.background _ sys.deltas
  | collect deltaGaddr =>
    cases hstep
    exact h.background sys.clocks _

abbrev SnapshotRun (setting : Setting) : System → Prop :=
  TransitionSystem.Reachable (mvoccStep setting) (SnapshotStep setting) (System.Initial setting)

theorem SnapshotRun.inv (hlevel : setting.serializable = false) (h : SnapshotRun setting sys) :
    Inv setting sys ∧ SnapshotInv setting sys := by
  refine @TransitionSystem.Reachable.invariant _ _ _ _ _ sys
    (fun state => Inv setting state ∧ SnapshotInv setting state) (fun state hstart => ?_)
    (fun state action after hboth hallow hstep => ?_) h
  · exact ⟨Inv.initial hstart, SnapshotInv.initial hstart⟩
  · exact ⟨hboth.1.of_step hallow.1 hallow.2.1 hstep, hboth.2.of_step hlevel hboth.1 hallow hstep⟩

end Runs

/-- A committed transaction sees all of the writes of another one to the tuples that it read
and did not write, or none of them. -/
theorem committed_reads_allOrNone {setting : Setting} {sys : System}
    (hlevel : setting.serializable = false) (h : SnapshotRun setting sys) :
    ∀ reader ∈ sys.committed, ∀ writer ∈ sys.committed, ∀ commitTs,
      writer.commitTs = some commitTs →
        AllOrNone setting reader.reads reader.writes commitTs writer.writes := by
  intro reader hrdr writer hwtr commitTs hts
  have hinv := (SnapshotRun.inv hlevel h).2
  exact (hinv.committed reader hrdr).atomic none commitTs writer.writes (.done hwtr hts)

/-! ### The small table -/

def updateBoth (thread : Nat) : List Action :=
  [.getSnapshot thread, .select thread ⟨1, 64⟩ .readWrite (fun _ => 0),
    .select thread ⟨2, 64⟩ .readWrite (fun _ => 0), .setColumn thread 0 1 [9],
    .setColumn thread 1 1 [9], .beginCommit thread, .validateNext thread, .validateNext thread,
    .ensureFloor thread, .fetchAdd thread, .writeNext thread ⟨8, 0⟩, .writeNext thread ⟨16, 0⟩,
    .finish thread]

def readAcross : List Action :=
  [.getSnapshot 1, .select 1 ⟨1, 64⟩ .readOnly (fun _ => 0)] ++ updateBoth 0 ++
    [.select 1 ⟨2, 64⟩ .readOnly (fun _ => 0), .beginCommit 1]

def seesHalf (sys : System) : Bool :=
  match sys.committed with
  | [⟨none, [], [(second, some new), (first, some old)]⟩, ⟨some commitTs, writes, []⟩] =>
      decide (first ∈ writes) && decide (second ∈ writes) &&
        decide (commitTs ≤ smallSetting.wts second new) &&
        decide (smallSetting.wts first old < commitTs)
  | _ => false

/-- A commit timestamp may be the snapshot of a transaction of the same node, which then
sees a part of the commit. -/
theorem reads_half_of_commit :
    ∃ sys, OrderlyRun smallSetting sys ∧ ∃ reader ∈ sys.committed, ∃ writer ∈ sys.committed,
      ∃ commitTs, writer.commitTs = some commitTs ∧
        ¬ AllOrNone smallSetting reader.reads reader.writes commitTs writer.writes := by
  obtain ⟨sys, hsys, hhalf⟩ : ∃ sys, OrderlyRun smallSetting sys ∧ seesHalf sys = true :=
    TransitionSystem.Reachable.exists_of_schedule readAcross smallSystem_initial (by decide +kernel)
  refine ⟨sys, hsys, ?_⟩
  unfold seesHalf at hhalf
  split at hhalf
  · rename_i second new first old commitTs writes hcomm
    simp only [Bool.and_eq_true, decide_eq_true_eq] at hhalf
    obtain ⟨⟨⟨hfirst, hsnd⟩, hnew⟩, hold⟩ := hhalf
    rw [hcomm]
    refine ⟨_, mem_cons_self, _, mem_cons_of_mem _ mem_cons_self, commitTs, rfl, ?_⟩
    rintro (hall | hnone)
    · obtain ⟨row, hrow, hle⟩ := hall first (some old) (by simp) hfirst not_mem_nil
      cases hrow
      omega
    · exact hnone second (some new) (by simp) hsnd not_mem_nil ⟨new, rfl, hnew⟩
  · cases hhalf

def readAfter : List Action :=
  updateBoth 0 ++ [.getSnapshot 1, .select 1 ⟨1, 64⟩ .readOnly (fun _ => 0),
    .select 1 ⟨2, 64⟩ .readOnly (fun _ => 0), .beginCommit 1]

/-- A test of `SnapshotStep` where only threads 0 and 1 run. -/
def SnapshotStepOfTwo (setting : Setting) (sys : System) (action : Action) : Prop :=
  OrderlyStep setting sys action ∧ action.thread < 2 ∧
    match action with
    | .fetchAdd thread => ∀ other < 2, other ≠ thread →
      ∀ snapshotTs ∈ (sys.managers other).snapshotTs, snapshotTs < sys.clocks (setting.node thread)
    | .select thread addr _ _ => ∀ snapshotTs ∈ (sys.managers thread).snapshotTs,
        retains setting sys addr snapshotTs = true
    | _ => True

instance (setting : Setting) (sys : System) :
    ∀ action, Decidable (SnapshotStepOfTwo setting sys action) := by
  rintro (_ | _) <;> dsimp only [SnapshotStepOfTwo] <;> infer_instance

theorem snapshotRun_of_two {setting : Setting} {sys : System}
    (h : TransitionSystem.Reachable (mvoccStep setting) (SnapshotStepOfTwo setting)
      (System.Initial setting) sys) : SnapshotRun setting sys := by
  -- The other threads have no snapshot.
  have hboth : SnapshotRun setting sys ∧ ∀ other, 2 ≤ other → sys.managers other = .start := by
    induction h with
    | start hstart => exact ⟨.start hstart, fun other _ => hstart.managers other⟩
    | @next state after action _ hallow hstep ih =>
      obtain ⟨hrun, hidle⟩ := ih
      obtain ⟨hord, hthr, htest⟩ := hallow
      refine ⟨hrun.next ⟨hord.1.writesFirst, hord.2, ?_⟩ hstep, fun other hother => ?_⟩
      · cases action with
        | fetchAdd thread =>
          intro other snapshotTs hother hsnap
          by_cases hsmall : other < 2
          · exact htest other hsmall hother snapshotTs hsnap
          · rw [hidle other (by omega)] at hsnap
            cases hsnap
        | select thread addr accessType stray =>
          exact fun snapshotTs hsnap => retained_of_retains (htest snapshotTs hsnap)
        | _ => trivial
      · rw [managers_step hstep hord.2 (by omega)]
        exact hidle other hother
  exact hboth.1

def seesBoth (sys : System) : Bool :=
  match sys.committed with
  | [⟨none, [], [_, _]⟩, ⟨some _, [_, _], []⟩] => true
  | _ => false

/-- The reader of both tuples sees the whole commit. -/
theorem committed_reads_allOrNone_small :
    ∃ sys reader writer commitTs, SnapshotRun smallSetting sys ∧ reader ∈ sys.committed ∧
      writer ∈ sys.committed ∧ writer.commitTs = some commitTs ∧ reader.reads.length = 2 ∧
      AllOrNone smallSetting reader.reads reader.writes commitTs writer.writes := by
  obtain ⟨sys, hsys, hseen⟩ : ∃ sys, TransitionSystem.Reachable (mvoccStep smallSetting)
      (SnapshotStepOfTwo smallSetting) (System.Initial smallSetting) sys ∧ seesBoth sys = true :=
    TransitionSystem.Reachable.exists_of_schedule readAfter smallSystem_initial (by decide +kernel)
  have hsnap := snapshotRun_of_two hsys
  unfold seesBoth at hseen
  split at hseen
  · rename_i first second commitTs one two hcomm
    have hrdr : ⟨none, [], [first, second]⟩ ∈ sys.committed :=
      hcomm ▸ mem_cons_self
    have hwtr : ⟨some commitTs, [one, two], []⟩ ∈ sys.committed :=
      hcomm ▸ mem_cons_of_mem _ mem_cons_self
    exact ⟨sys, _, _, commitTs, hsnap, hrdr, hwtr, rfl, rfl,
      committed_reads_allOrNone rfl hsnap _ hrdr _ hwtr commitTs rfl⟩
  · cases hseen

end MemoryEngine.Txn
