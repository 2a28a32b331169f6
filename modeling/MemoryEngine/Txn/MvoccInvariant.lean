import MemoryEngine.Txn.MvoccActions

/-! What every state of an MVOCC run satisfies.

The versions of a tuple have decreasing timestamps, and each is undone by the delta of its
commit.  An access that was validated stays latched, and its tuple is still the row it was
copied from when the commit writes it. -/
namespace MemoryEngine.Txn

open ByteMemory Storage List

/-! ### Local tuples -/

structure LocalCopy (schema : RecordSchema) (base : Memory) (tuple : Storage.Record) : Prop extends
    CopyOf schema base tuple where
  metaColumn : ∃ visible, tuple.getMeta schema =
    { MetaColumn.load base schema.metaOffset with isVisible := visible }

namespace LocalCopy

variable {schema : RecordSchema} {base : Memory} {tuple : Storage.Record}

theorem refl (schema : RecordSchema) (base : Memory) : LocalCopy schema base ⟨base, []⟩ where
  outside := fun _ _ => rfl
  known := fun _ hmem => absurd hmem not_mem_nil
  sorted := Pairwise.nil
  metaColumn := ⟨(MetaColumn.load base schema.metaOffset).isVisible, rfl⟩

variable (h : LocalCopy schema base tuple)
include h

theorem wts : tuple.getWTS schema = (Storage.Record.mk base []).getWTS schema := by
  obtain ⟨visible, hmeta⟩ := h.metaColumn
  rw [Storage.Record.getWTS, hmeta]
  rfl

theorem outside_setColumn (colId : Nat) (data : List UInt8) :
    AgreeIn (fun offset =>
      ¬ InColumns schema (tuple.setColumn schema colId data).dirtyColIds offset)
      (tuple.setColumn schema colId data).data base := by
  have hold : AgreeIn
      (fun offset => ¬ InColumns schema (insertColId colId tuple.dirtyColIds) offset)
      tuple.data base := by
    refine h.outside.mono fun offset hoff => ?_
    rintro ⟨other, hmem, hin⟩
    exact hoff ⟨other, mem_insertColId.mpr (.inr hmem), hin⟩
  refine hold.write_left fun offset hoff => ?_
  by_contra hin
  refine hoff ⟨colId, mem_insertColId.mpr (.inl rfl), ?_⟩
  have hlen := length_take_le (schema.getColumnSize colId) data
  omega

theorem known_setColumn {colId : Nat} (hknown : colId < schema.columns.length) (data : List UInt8) :
    ∀ other ∈ (tuple.setColumn schema colId data).dirtyColIds, other < schema.columns.length := by
  intro other hmem
  rcases mem_insertColId.mp hmem with rfl | hmem
  · exact hknown
  · exact h.known other hmem

theorem setColumn {colId : Nat} (hcol : colId < schema.getMetaColumnId) (data : List UInt8) :
    LocalCopy schema base (tuple.setColumn schema colId data) where
  outside := h.outside_setColumn colId data
  known := h.known_setColumn (by unfold RecordSchema.getMetaColumnId at hcol; omega) data
  sorted := insertColId_sorted h.sorted
  metaColumn := by
    obtain ⟨visible, hmeta⟩ := h.metaColumn
    refine ⟨visible, Eq.trans ?_ hmeta⟩
    -- The column ends before the metadata begins.
    have hpre := schema.column_le_metaOffset hcol
    have hlen := length_take_le (schema.getColumnSize colId) data
    exact MetaColumn.load_congr (agreeOn_write _ (.inl (by
      simp only [RecordSchema.metaOffset] at hpre
      omega)))

theorem setVisible (hmeta : schema.MetaLast) (visible : UInt8) :
    LocalCopy schema base
      (tuple.putMeta schema { tuple.getMeta schema with isVisible := visible }) where
  outside := h.outside_setColumn _ _
  known := h.known_setColumn (by
    obtain ⟨front, hcols⟩ := hmeta.columns_eq
    simp [RecordSchema.getMetaColumnId, hcols]) _
  sorted := insertColId_sorted h.sorted
  metaColumn := by
    obtain ⟨before, hpre⟩ := h.metaColumn
    obtain ⟨hwts, hprev, hepoch, hsize, hnext⟩ := MetaColumn.load_lt base schema.metaOffset
    refine ⟨visible, ?_⟩
    rw [getMeta_putMeta hmeta, hpre]
    simp only [Nat.mod_eq_of_lt hwts, Nat.mod_eq_of_lt hprev, Nat.mod_eq_of_lt hepoch,
      Nat.mod_eq_of_lt hsize, Nat.mod_eq_of_lt hnext]

end LocalCopy

/-! ### Tuples -/

section Tuples

variable (setting : Setting) (addr : TupleAddr)

structure Undoes (delta : DeltaRecord) (newer older : Memory) : Prop where
  wts : delta.wts = setting.wts addr older
  nextWts : delta.nextDeltaWts = setting.wts addr newer
  row : (Storage.Record.rollBack (setting.schema addr) ⟨newer, []⟩ delta).data = older

def Chained : List Version → Prop
  | [] => True
  | [first] => setting.prevVersion addr first.row = 0
  | version :: older :: rest =>
      (∃ deltaGaddr delta, version.delta = some (deltaGaddr, delta) ∧ deltaGaddr ≠ 0 ∧
        setting.prevVersion addr version.row = deltaGaddr ∧
        Undoes setting addr delta version.row older.row) ∧
      Chained (older :: rest)

structure TupleInv (row : Option Memory) (versions : List Version) : Prop where
  fresh : versions = [] → ∀ new ∈ row, setting.prevVersion addr new = 0
  newest : ∀ version rest, versions = version :: rest → row = some version.row
  decreasing : versions.Pairwise fun newer older =>
    setting.wts addr older.row < setting.wts addr newer.row
  small : ∀ version ∈ versions, setting.wts addr version.row + 1 < 2 ^ 64
  chained : Chained setting addr versions

variable {setting addr} {row : Option Memory} {versions : List Version}

theorem TupleInv.empty (h : ∀ new ∈ row, setting.prevVersion addr new = 0) :
    TupleInv setting addr row [] where
  fresh := fun _ => h
  newest := fun _ _ h => by cases h
  decreasing := List.Pairwise.nil
  small := fun _ h => absurd h not_mem_nil
  chained := trivial

variable {version : Version}

theorem TupleInv.singleton (hsmall : setting.wts addr version.row + 1 < 2 ^ 64)
    (hprev : setting.prevVersion addr version.row = 0) :
    TupleInv setting addr (some version.row) [version] where
  fresh := fun h => by cases h
  newest := fun _ _ h => by cases h; rfl
  decreasing := pairwise_singleton _ _
  small := fun other h => by
    rw [mem_singleton.mp h]
    exact hsmall
  chained := hprev

theorem TupleInv.exists_newest (h : TupleInv setting addr row versions) (hne : versions ≠ []) :
    ∃ version rest, versions = version :: rest ∧ row = some version.row := by
  cases versions with
  | nil => exact absurd rfl hne
  | cons version rest => exact ⟨version, rest, rfl, h.newest _ _ rfl⟩

theorem TupleInv.eq_of_le (h : TupleInv setting addr row versions)
    (hmem : version ∈ versions) {current : Memory} (hrow : row = some current)
    (hle : setting.wts addr current ≤ setting.wts addr version.row) : current = version.row := by
  obtain ⟨newest, rest, rfl, hnewst⟩ := h.exists_newest (ne_nil_of_mem hmem)
  have hcurr : current = newest.row := Option.some.inj (hrow.symm.trans hnewst)
  rcases mem_cons.mp hmem with rfl | hmem
  · exact hcurr
  · have hlt := rel_of_pairwise_cons h.decreasing hmem
    rw [← hcurr] at hlt
    omega

theorem TupleInv.cons {base : Memory} (h : TupleInv setting addr (some base) versions)
    (hne : versions ≠ []) {deltaGaddr : Nat} {delta : DeltaRecord}
    (hdelta : version.delta = some (deltaGaddr, delta)) (hgaddr : deltaGaddr ≠ 0)
    (hprev : setting.prevVersion addr version.row = deltaGaddr)
    (hundo : Undoes setting addr delta version.row base)
    (hlt : setting.wts addr base < setting.wts addr version.row)
    (hsmall : setting.wts addr version.row + 1 < 2 ^ 64) :
    TupleInv setting addr (some version.row) (version :: versions) := by
  obtain ⟨newest, rest, rfl, hnewst⟩ := h.exists_newest hne
  cases hnewst
  refine ⟨fun hnil => absurd hnil (cons_ne_nil _ _), fun _ _ heq => ?_,
    pairwise_cons.mpr ⟨fun older hmem => ?_, h.decreasing⟩,
    fun other hmem => ?_, ⟨⟨deltaGaddr, delta, hdelta, hgaddr, hprev, hundo⟩, h.chained⟩⟩
  · cases heq
    rfl
  · rcases mem_cons.mp hmem with rfl | hmem
    · exact hlt
    · exact Nat.lt_trans (rel_of_pairwise_cons h.decreasing hmem) hlt
  · rcases mem_cons.mp hmem with rfl | hmem
    · exact hsmall
    · exact h.small other hmem

end Tuples

/-! ### Threads -/

def LocalAccess.isWrite (entry : LocalAccess) : Bool := entry.access.accessType.isWrite

def WritesFirst (accesses : List LocalAccess) : Prop :=
  accesses.Pairwise fun earlier later => later.isWrite → earlier.addr ≠ later.addr

def Manager.live (manager : Manager) : List LocalAccess :=
  match manager.stage with
  | .write _ pending => pending
  | _ => manager.accessList

def Manager.Checked (manager : Manager) (entry : LocalAccess) : Prop :=
  match manager.stage with
  | .execute => False
  | .validate pending => entry ∈ manager.accessList ∧ entry ∉ pending
  | .floored => entry ∈ manager.accessList
  | .write _ pending => entry ∈ pending

section Threads

variable (setting : Setting) (sys : System) (thread : Nat)

structure EntryInv (maxSeenTs : Nat) (entry : LocalAccess) : Prop where
  schema : entry.access.schema = setting.schema entry.addr
  copy : LocalCopy entry.access.schema entry.base entry.access.tuple
  update : entry.access.accessType = .readWrite →
    (∃ version ∈ sys.history entry.addr, version.row = entry.base) ∧
      setting.wts entry.addr entry.base ≤ maxSeenTs
  insert : entry.access.accessType = .insertOnly →
    sys.history entry.addr = [] ∧ sys.rows entry.addr = some entry.base ∧
      setting.prevVersion entry.addr entry.base = 0

structure Held (entry : LocalAccess) : Prop where
  latch : sys.latches entry.access.pageAddr = some thread
  row : sys.rows entry.addr = some entry.base

def Manager.Floored (clock : Nat) (manager : Manager) : Prop :=
  match manager.stage with
  | .floored => manager.maxSeenTs < clock
  | .write commitTs _ => manager.maxSeenTs < commitTs ∧ commitTs + 1 < 2 ^ 64
  | _ => True

structure ManagerInv (manager : Manager) : Prop where
  first : WritesFirst manager.live
  published : ∀ entry ∈ manager.live, entry.access.accessType ≠ .insertOnly →
    sys.history entry.addr ≠ []
  entries : ∀ entry ∈ manager.live, entry.isWrite → EntryInv setting sys manager.maxSeenTs entry
  pending : ∀ pending, manager.stage = .validate pending → pending ⊆ manager.accessList
  held : ∀ entry, manager.Checked entry → entry.isWrite → Held sys thread entry
  floored : manager.Floored (sys.clocks (setting.node thread))
  seen : manager.maxSeenTs + 1 < 2 ^ 64
  plain : setting.serializable = false → manager.plainOcc = false

structure Inv : Prop where
  clocks : ∀ node, 1 ≤ sys.clocks node
  tuples : ∀ addr, TupleInv setting addr (sys.rows addr) (sys.history addr)
  managers : ∀ thread, ManagerInv setting sys thread (sys.managers thread)
  /-- A new tuple belongs to one thread. -/
  alone : ∀ first second, first ≠ second → ∀ entry ∈ (sys.managers first).live,
    ∀ other ∈ (sys.managers second).live, entry.access.accessType = .insertOnly →
      other.access.accessType = .insertOnly → entry.addr ≠ other.addr

end Threads

/-! ### Steps that leave the tuples alone -/

section Steps

variable {setting : Setting} {sys after : System} {thread : Nat} {manager : Manager}

theorem ManagerInv.enter {stage : Stage} (h : ManagerInv setting sys thread manager)
    (hlive : (manager.enter stage).live.Sublist manager.live)
    (hpend : ∀ pending, stage = .validate pending → pending ⊆ manager.accessList)
    (hheld : ∀ entry, (manager.enter stage).Checked entry → entry.isWrite → Held sys thread entry)
    (hfloor : (manager.enter stage).Floored (sys.clocks (setting.node thread))) :
    ManagerInv setting sys thread (manager.enter stage) where
  __ := h
  first := h.first.sublist hlive
  published := fun entry hmem => h.published entry (hlive.subset hmem)
  entries := fun entry hmem => h.entries entry (hlive.subset hmem)
  pending := hpend
  held := hheld
  floored := hfloor

theorem ManagerInv.transfer (h : ManagerInv setting sys thread manager)
    (hclock : sys.clocks (setting.node thread) ≤ after.clocks (setting.node thread))
    (hhist : ∀ addr, sys.history addr ⊆ after.history addr)
    (hfresh : ∀ entry ∈ manager.live, entry.access.accessType = .insertOnly → after.history
      entry.addr = sys.history entry.addr ∧ after.rows entry.addr = sys.rows entry.addr)
    (hheld : ∀ entry, manager.Checked entry → entry.isWrite → Held sys thread entry → Held after
      thread entry) : ManagerInv setting after thread manager where
  __ := h
  published := fun entry hmem htype => by
    obtain ⟨version, hver⟩ := exists_mem_of_ne_nil _ (h.published entry hmem htype)
    exact ne_nil_of_mem (hhist _ hver)
  entries := fun entry hmem hwrite => by
    have hentry := h.entries entry hmem hwrite
    refine ⟨hentry.schema, hentry.copy, fun htype => ?_, fun htype => ?_⟩
    · obtain ⟨⟨version, hver, hrow⟩, hseen⟩ := hentry.update htype
      exact ⟨⟨version, hhist _ hver, hrow⟩, hseen⟩
    · obtain ⟨hhistory', hrows'⟩ := hfresh entry hmem htype
      rw [hhistory', hrows']
      exact hentry.insert htype
  held := fun entry hchk hwrite => hheld entry hchk hwrite (h.held entry hchk hwrite)
  floored := by
    have hfloor := h.floored
    unfold Manager.Floored at hfloor ⊢
    split
    · rename_i hstage
      rw [hstage] at hfloor
      exact Nat.lt_of_lt_of_le hfloor hclock
    · rename_i hstage
      rwa [hstage] at hfloor
    · trivial

/-- What a step of a thread has to show.  An access of the thread was there before, up to
its local tuple, or no thread works on its tuple. -/
theorem Inv.step (h : Inv setting sys) (hclocks : ∀ node, sys.clocks node ≤ after.clocks node)
    (htups : ∀ addr, TupleInv setting addr (after.rows addr) (after.history addr))
    (hothers : ∀ other, other ≠ thread → after.managers other = sys.managers other ∧ ManagerInv
      setting after other (sys.managers other))
    (hmgr : ManagerInv setting after thread (after.managers thread))
    (hlive : ∀ entry ∈ (after.managers thread).live, entry.access.accessType = .insertOnly → (∃
      before ∈ (sys.managers thread).live, before.access.accessType = .insertOnly ∧ before.addr =
      entry.addr) ∨ ∀ other, ∀ used ∈ (sys.managers other).live, used.addr ≠ entry.addr) :
    Inv setting after where
  clocks := fun node => Nat.le_trans (h.clocks node) (hclocks node)
  tuples := htups
  managers := fun other => by
    by_cases hother : other = thread
    · rw [hother]
      exact hmgr
    · rw [(hothers other hother).1]
      exact (hothers other hother).2
  alone := by
    -- Of two threads one did not make the step.
    have hdiffer : ∀ other, other ≠ thread → ∀ entry ∈ (after.managers thread).live,
        ∀ used ∈ (sys.managers other).live, entry.access.accessType = .insertOnly →
          used.access.accessType = .insertOnly → entry.addr ≠ used.addr := by
      intro other hother entry hentry used hused htype husedtype
      rcases hlive entry hentry htype with ⟨before, hmem, hins, haddr⟩ | hunused
      · rw [← haddr]
        exact h.alone thread other hother.symm before hmem used hused hins husedtype
      · exact (hunused other used hused).symm
    intro first second hne entry hentry other hother htype hothertype
    by_cases hfirst : first = thread
    · subst hfirst
      rw [(hothers second hne.symm).1] at hother
      exact hdiffer second hne.symm entry hentry other hother htype hothertype
    · rw [(hothers first hfirst).1] at hentry
      by_cases hsnd : second = thread
      · subst hsnd
        exact (hdiffer first hfirst other hother entry hentry hothertype htype).symm
      · rw [(hothers second hsnd).1] at hother
        exact h.alone first second hne entry hentry other hother htype hothertype

theorem Inv.quiet (h : Inv setting sys) (hquiet : Quiet sys after thread)
    (hmgr : ManagerInv setting after thread (after.managers thread))
    (hlive : ∀ entry ∈ (after.managers thread).live, entry.access.accessType = .insertOnly → ∃
      before ∈ (sys.managers thread).live, before.access.accessType = .insertOnly ∧ before.addr =
      entry.addr) : Inv setting after := by
  refine h.step hquiet.clocks (fun addr => ?_) (fun other hother => ?_) hmgr
    fun entry hmem htype => .inl (hlive entry hmem htype)
  · rw [hquiet.rows, hquiet.history]
    exact h.tuples addr
  · refine ⟨hquiet.managers other hother, (h.managers other).transfer (hquiet.clocks _)
      (fun addr => ?_) (fun entry _ _ => ?_) fun entry _ _ hheld => ?_⟩
    · rw [hquiet.history]
      exact List.Subset.refl _
    · rw [hquiet.history, hquiet.rows]
      exact ⟨rfl, rfl⟩
    · exact ⟨hquiet.latches _ _ hother hheld.latch, by rw [hquiet.rows]; exact hheld.row⟩

theorem ManagerInv.congr (h : ManagerInv setting sys thread manager) {other : Manager}
    (hlist : other.accessList = manager.accessList) (hstage : other.stage = manager.stage)
    (hseen : other.maxSeenTs = manager.maxSeenTs) (hplain : other.plainOcc = manager.plainOcc) :
    ManagerInv setting sys thread other := by
  have hlive : other.live = manager.live := by rw [Manager.live, Manager.live, hstage, hlist]
  have hchk : ∀ entry, other.Checked entry ↔ manager.Checked entry := fun entry => by
    rw [Manager.Checked, Manager.Checked, hstage, hlist]
  have hfloor : ∀ clock, other.Floored clock ↔ manager.Floored clock := fun clock => by
    rw [Manager.Floored, Manager.Floored, hstage, hseen]
  exact {
    first := hlive ▸ h.first
    published := hlive ▸ h.published
    entries := by rw [hlive, hseen]; exact h.entries
    pending := by rw [hstage, hlist]; exact h.pending
    held := fun entry hentry => h.held entry ((hchk entry).mp hentry)
    floored := (hfloor _).mpr h.floored
    seen := hseen ▸ h.seen
    plain := hplain ▸ h.plain }

theorem ManagerInv.idle {maxSeenTs : Nat} (hseen : maxSeenTs + 1 < 2 ^ 64) (before : Manager) :
    ManagerInv setting sys thread { before.clearStates with maxSeenTs := maxSeenTs } where
  first := List.Pairwise.nil
  published := fun _ hmem => absurd hmem not_mem_nil
  entries := fun _ hmem => absurd hmem not_mem_nil
  pending := fun _ hstage => by cases hstage
  held := fun _ hchk => hchk.elim
  floored := trivial
  seen := hseen
  plain := fun _ => rfl

end Steps

end MemoryEngine.Txn
