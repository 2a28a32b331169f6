import MemoryEngine.Txn.MvoccSteps

/-! Writes and reads of MVOCC transactions against the versions of the tuples.

A commit writes over the version that the transaction read, with a larger timestamp.
Following the delta records from a tuple gives its versions in order, so a read returns
the newest version that its snapshot has. -/
namespace MemoryEngine.Txn

open ByteMemory Storage List Option

/-! ### Writes -/

section Writes

variable {setting : Setting} {sys after : System} {action : Action} {thread : Nat}

theorem history_step (h : mvoccStep setting sys action = some after)
    (hnowrap : NoWrap setting sys action) (addr : TupleAddr) :
    after.history addr = sys.history addr ∨
      ∃ version, after.history addr = version :: sys.history addr := by
  by_cases halloc : ∃ thread addr, action = .allocateNewRecord thread addr
  · obtain ⟨thread, new, rfl⟩ := halloc
    obtain ⟨-, -, rfl⟩ := allocateNewRecord_cases h
    exact .inl rfl
  by_cases hwrite : ∃ thread slot, action = .writeNext thread slot
  · obtain ⟨thread, slot, rfl⟩ := hwrite
    obtain ⟨commitTs, entry, rest, -, ⟨-, rfl⟩ | ⟨row, -, -, -, -, -, rfl⟩⟩ := writeNext_cases h
    · exact .inl rfl
    · rw [setManager_history]
      by_cases haddr : addr = entry.addr
      · subst haddr
        exact .inr ⟨_, publish_history_self sys _⟩
      · exact .inl (publish_history_of_ne sys _ haddr)
  · push Not at halloc hwrite
    exact .inl (congrFun (quiet_of_step h hnowrap halloc hwrite).history addr)

theorem Inv.wts_step (hpre : Inv setting sys) (hafter : Inv setting after)
    (h : mvoccStep setting sys action = some after) (hnowrap : NoWrap setting sys action)
    {addr : TupleAddr} (hcomm : sys.history addr ≠ []) {row new : Memory}
    (hrow : sys.rows addr = some row) (hnew : after.rows addr = some new) :
    new = row ∨ setting.wts addr row < setting.wts addr new := by
  obtain ⟨newest, rest, hvers, hnewst⟩ := (hpre.tuples addr).exists_newest hcomm
  have hold : newest.row = row := Option.some.inj (hnewst.symm.trans hrow)
  have htuple := hafter.tuples addr
  rcases history_step h hnowrap addr with hsame | ⟨version, hver⟩
  · have hkept := htuple.newest newest rest (hsame.trans hvers)
    exact .inl (Option.some.inj (hnew.symm.trans hkept) |>.trans hold)
  · have htop := htuple.newest version _ hver
    have hdecr := htuple.decreasing
    rw [hver] at hdecr
    have hlt := rel_of_pairwise_cons hdecr
      (hvers ▸ mem_cons_self : newest ∈ sys.history addr)
    rw [Option.some.inj (hnew.symm.trans htop), ← hold]
    exact .inr hlt

theorem Inv.base_of_writeNext (h : Inv setting sys) {commitTs : Nat} {entry : LocalAccess}
    {rest : List LocalAccess}
    (hstage : (sys.managers thread).stage = .write commitTs (entry :: rest))
    (htype : entry.access.accessType = .readWrite) :
    sys.rows entry.addr = some entry.base ∧ setting.wts entry.addr entry.base < commitTs := by
  have hat := h.atWrite hstage (isWrite_iff.mpr (.inl htype))
  exact ⟨hat.held.row, Nat.lt_of_le_of_lt (hat.inv.update htype).2 hat.floor⟩

/-- No update is lost: a committed tuple only changes to a row with a larger timestamp, and
a read-write access is written over the row that it read, with the commit timestamp. -/
theorem writeNext_over_read_version (h : OrderlyRun setting sys) :
    (∀ action after, OrderlyStep setting sys action → mvoccStep setting sys action = some after →
      ∀ addr row new, sys.history addr ≠ [] → sys.rows addr = some row →
        after.rows addr = some new → new = row ∨ setting.wts addr row < setting.wts addr new) ∧
    ∀ thread slot after commitTs entry rest,
      (sys.managers thread).stage = .write commitTs (entry :: rest) →
      entry.access.accessType = .readWrite → entry.writes = true →
      mvoccStep setting sys (.writeNext thread slot) = some after →
      sys.rows entry.addr = some entry.base ∧
        ∃ new, after.rows entry.addr = some new ∧ setting.wts entry.addr new = commitTs ∧
          setting.wts entry.addr entry.base < commitTs := by
  have hinv := h.inv
  refine ⟨fun action after hord hstep addr row new hcomm hrow hnew => ?_, ?_⟩
  · have hafter := hinv.of_step hord.1.writesFirst hord.2 hstep
    exact hinv.wts_step hafter hstep hord.2 hcomm hrow hnew
  · intro thread slot after commitTs entry rest hstage htype hwrites hstep
    obtain ⟨hbase, hlt⟩ := hinv.base_of_writeNext hstage htype
    refine ⟨hbase, ?_⟩
    obtain ⟨commitTs', entry', rest', hstage', hcases⟩ := writeNext_cases hstep
    cases hstage.symm.trans hstage'
    rcases hcases with ⟨hnone, -⟩ | ⟨row, -, -, -, hslot, -, rfl⟩
    · rw [hwrites] at hnone
      cases hnone
    · exact ⟨_, publish_rows_self sys _,
        (hinv.atWrite hstage (writes_isWrite hwrites)).wts hslot row, hlt⟩

end Writes

/-! ### A small table -/

def smallSchema : RecordSchema := ⟨[⟨.int8, 1⟩, ⟨.int8, 1⟩, ⟨.metadata, kMetaSize⟩], [0]⟩

def smallSetting : Setting where
  node := fun _ => 0
  schema := fun _ => smallSchema
  rows := fun _ => ⟨⟨rfl, by decide⟩, by decide⟩
  serializable := false

def smallRow (key value : UInt8) : Memory := fun offset =>
  if offset = 0 then key else if offset = 1 then value else 0

theorem smallRow_meta (key value : UInt8) :
    (Storage.Record.mk (smallRow key value) []).getMeta smallSchema = ⟨0, 0, 0, 0, 0, 0⟩ := by
  have hzero : AgreeOn (smallRow key value) (fun _ => 0) 2 kMetaSize := fun offset hge _ => by
    rw [smallRow, if_neg (by omega), if_neg (by omega)]
  exact (MetaColumn.load_congr hzero).trans (by decide +kernel)

/-- The rows `(1, 7)` and `(2, 7)` in two pages. -/
def smallRows (addr : TupleAddr) : Option Memory :=
  if addr.offset = 64 ∧ (addr.pageAddr = 1 ∨ addr.pageAddr = 2) then
    some (smallRow (UInt8.ofNat addr.pageAddr) 7)
  else none

def smallSystem : System where
  clocks := fun _ => 1
  managers := fun _ => .start
  rows := smallRows
  deltas := fun _ => none
  latches := fun _ => none
  history := fun addr => (smallRows addr).toList.map fun row => ⟨row, none⟩
  committed := []

theorem smallSystem_initial : smallSystem.Initial smallSetting where
  clocks := fun _ => (by decide : 1 ≤ 1 ∧ 1 < 2 ^ 64)
  managers := fun _ => rfl
  latches := fun _ => rfl
  loaded := fun addr => by
    by_cases h : addr.offset = 64 ∧ (addr.pageAddr = 1 ∨ addr.pageAddr = 2)
    · have hmeta := smallRow_meta (UInt8.ofNat addr.pageAddr) 7
      refine .inr ⟨smallRow (UInt8.ofNat addr.pageAddr) 7, if_pos h, ?_,
        congrArg MetaColumn.prevVersion hmeta, ?_⟩
      · simp only [smallSystem, smallRows, if_pos h]
        rfl
      · have hwts : smallSetting.wts addr (smallRow (UInt8.ofNat addr.pageAddr) 7) = 0 :=
          congrArg MetaColumn.wts hmeta
        rw [hwts]
        decide
    · refine .inl ⟨if_neg h, ?_⟩
      simp only [smallSystem, smallRows, if_neg h]
      rfl
  committed := rfl

def updateActions (thread : Nat) (addr : TupleAddr) (value : UInt8) : List Action :=
  [.getSnapshot thread, .select thread addr .readWrite (fun _ => 0),
    .setColumn thread 0 1 [value], .beginCommit thread, .validateNext thread, .ensureFloor thread,
    .fetchAdd thread]

instance (sys : System) : ∀ action, Decidable (AccessesOnce sys action) := by
  rintro (_ | _) <;> dsimp only [AccessesOnce] <;> infer_instance

instance (setting : Setting) (sys : System) (action : Action) :
    Decidable (OrderlyStep setting sys action) := inferInstanceAs (Decidable (_ ∧ _))

def writesNext (sys : System) : Bool :=
  match (sys.managers 0).stage with
  | .write _ (entry :: _) => decide (entry.access.accessType = .readWrite) && entry.writes &&
      (mvoccStep smallSetting sys (.writeNext 0 ⟨8, 0⟩)).isSome
  | _ => false

/-- The tuple of page 1 is written over the row `(1, 7)` that was read. -/
theorem writeNext_over_read_version_small :
    ∃ sys after commitTs entry rest, OrderlyRun smallSetting sys ∧
      (sys.managers 0).stage = .write commitTs (entry :: rest) ∧
      mvoccStep smallSetting sys (.writeNext 0 ⟨8, 0⟩) = some after ∧
      sys.rows entry.addr = some entry.base ∧
        ∃ new, after.rows entry.addr = some new ∧ smallSetting.wts entry.addr new = commitTs ∧
          smallSetting.wts entry.addr entry.base < commitTs := by
  obtain ⟨sys, hsys, hnext⟩ : ∃ sys, OrderlyRun smallSetting sys ∧ writesNext sys = true :=
    TransitionSystem.Reachable.exists_of_schedule (updateActions 0 ⟨1, 64⟩ 9) smallSystem_initial
      (by decide +kernel)
  unfold writesNext at hnext
  split at hnext
  · rename_i commitTs entry rest hstage
    simp only [Bool.and_eq_true, decide_eq_true_eq] at hnext
    obtain ⟨⟨htype, hwrites⟩, hsome⟩ := hnext
    obtain ⟨after, hafter⟩ := isSome_iff_exists.mp hsome
    exact ⟨sys, after, commitTs, entry, rest, hsys, hstage, hafter,
      (writeNext_over_read_version hsys).2 0 ⟨8, 0⟩ after commitTs entry rest hstage htype hwrites
        hafter⟩
  · cases hnext

/-! ### Reads -/

section Reads

variable (setting : Setting) (sys : System) (addr : TupleAddr)

/-- The deltas on the way to the version of a snapshot are still there. -/
def Retained (snapshotTs : Nat) : Prop :=
  ∀ version ∈ sys.history addr, snapshotTs < setting.wts addr version.row →
    ∀ deltaGaddr delta, version.delta = some (deltaGaddr, delta) →
      sys.deltas deltaGaddr = some delta

/-- The rows that are reached from a record through `prev_version_` and delta records, as
far as a snapshot makes one go. -/
inductive Follows (snapshotTs : Nat) : Memory → Prop where
  | record {row : Memory} (h : sys.rows addr = some row) : Follows snapshotTs row
  | back {row : Memory} {delta : DeltaRecord} (h : Follows snapshotTs row)
      (hafter : snapshotTs < setting.wts addr row) (hprev : setting.prevVersion addr row ≠ 0)
      (hdelta : sys.deltas (setting.prevVersion addr row) = some delta) :
      Follows snapshotTs (Storage.Record.rollBack (setting.schema addr) ⟨row, []⟩ delta).data

/-- The content of the committed version with the largest timestamp up to a snapshot. -/
def IsVersionAt (snapshotTs : Nat) : Option Memory → Prop
  | some row => (∃ version ∈ sys.history addr, version.row = row) ∧
      setting.wts addr row ≤ snapshotTs ∧
      ∀ version ∈ sys.history addr, setting.wts addr version.row ≤ snapshotTs →
        setting.wts addr version.row ≤ setting.wts addr row
  | none => ∀ version ∈ sys.history addr, snapshotTs < setting.wts addr version.row

variable {setting sys addr} {snapshotTs : Nat} (stray : Memory)

theorem Chained.older {version : Version} {rest : List Version}
    (h : Chained setting addr (version :: rest))
    (hretained : ∀ deltaGaddr delta, version.delta = some (deltaGaddr, delta) →
      sys.deltas deltaGaddr = some delta) :
    olderVersion setting sys addr stray version.row = (rest.map Version.row).head? := by
  cases rest with
  | nil =>
    exact if_pos h
  | cons older rest =>
    obtain ⟨⟨deltaGaddr, delta, hdelta, hne, hprev, hundo⟩, -⟩ := h
    have hstor := hretained deltaGaddr delta hdelta
    rw [olderVersion, hprev, if_neg hne, hstor]
    exact congrArg some hundo.row

theorem Chained.tail {version : Version} {rest : List Version}
    (h : Chained setting addr (version :: rest)) : Chained setting addr rest := by
  cases rest with
  | nil => trivial
  | cons older rest => exact h.2

theorem Chained.linked {versions : List Version}
    (h : Chained setting addr versions)
    (hretained : ∀ version ∈ versions, snapshotTs < setting.wts addr version.row → ∀ deltaGaddr
      delta, version.delta = some (deltaGaddr, delta) → sys.deltas deltaGaddr = some delta) :
    VersionChain.Linked (setting.wts addr) (olderVersion setting sys addr stray) snapshotTs
      (versions.map Version.row) := by
  induction versions with
  | nil => trivial
  | cons version rest ih =>
    by_cases hle : setting.wts addr version.row ≤ snapshotTs
    · exact .inl hle
    · have hold := h.older stray (hretained version mem_cons_self (by omega))
      exact .inr ⟨hold, ih h.tail fun other hother => hretained other
        (mem_cons_of_mem _ hother)⟩

variable {row : Memory}

/-- The loop of `SelectRecordCC` finds the version of the snapshot. -/
theorem TupleInv.rollBackToSnapshot_eq
    (h : TupleInv setting addr (sys.rows addr) (sys.history addr)) (hrow : sys.rows addr = some row)
    (hcomm : sys.history addr ≠ []) (hretained : Retained setting sys addr snapshotTs) :
    ∃ result, rollBackToSnapshot setting sys addr snapshotTs stray row = some result ∧
      IsVersionAt setting sys addr snapshotTs result := by
  obtain ⟨newest, rest, hvers, hnewst⟩ := h.exists_newest hcomm
  have heq : newest.row = row := Option.some.inj (hnewst.symm.trans hrow)
  have hlinked := h.chained.linked stray hretained
  rw [hvers, List.map_cons, heq] at hlinked
  have hfuel : (rest.map Version.row).length < (sys.history addr).length + 1 := by
    rw [hvers, List.length_map, List.length_cons]
    omega
  have hfound := VersionChain.rollBackTo_eq_latest hlinked hfuel
  refine ⟨_, hfound, ?_⟩
  have hdecr : (row :: rest.map Version.row).Pairwise fun newer older =>
      setting.wts addr older < setting.wts addr newer := by
    rw [← heq, ← List.map_cons, List.pairwise_map, ← hvers]
    exact h.decreasing
  have hmem : ∀ other, other ∈ row :: rest.map Version.row ↔
      ∃ version ∈ sys.history addr, version.row = other := fun other => by
    rw [← heq, ← List.map_cons, ← hvers, List.mem_map]
  cases hlatest : VersionChain.latest (setting.wts addr) snapshotTs
    (row :: rest.map Version.row) with
  | none =>
    rw [VersionChain.latest_eq_none_iff] at hlatest
    exact fun version hver => hlatest version.row ((hmem _).mpr ⟨version, hver, rfl⟩)
  | some found =>
    rw [VersionChain.latest_eq_some_iff hdecr] at hlatest
    obtain ⟨hfoundmem, hbound, hgreat⟩ := hlatest
    exact ⟨(hmem found).mp hfoundmem, hbound, fun version hver =>
      hgreat version.row ((hmem _).mpr ⟨version, hver, rfl⟩)⟩

theorem Chained.undoes {front rest : List Version} {version : Version}
    (h : Chained setting addr (front ++ version :: rest))
    (hprev : setting.prevVersion addr version.row ≠ 0) :
    ∃ older rest' delta, rest = older :: rest' ∧
      version.delta = some (setting.prevVersion addr version.row, delta) ∧
      Undoes setting addr delta version.row older.row := by
  induction front with
  | nil =>
    cases rest with
    | nil => exact absurd h hprev
    | cons older rest' =>
      obtain ⟨⟨deltaGaddr, delta, hdelta, -, hgaddr, hundo⟩, -⟩ := h
      exact ⟨older, rest', delta, rfl, hgaddr ▸ hdelta, hundo⟩
  | cons first front ih => exact ih (Chained.tail h)

theorem Follows.version (h : TupleInv setting addr (sys.rows addr) (sys.history addr))
    (hretained : Retained setting sys addr snapshotTs)
    (hfollows : Follows setting sys addr snapshotTs row)
    (hprev : setting.prevVersion addr row ≠ 0) :
    ∃ front version rest, sys.history addr = front ++ version :: rest ∧ version.row = row := by
  induction hfollows with
  | @record row hrow =>
    have hcomm : sys.history addr ≠ [] := fun hnil => hprev (h.fresh hnil row hrow)
    obtain ⟨newest, rest, hvers, hnewst⟩ := h.exists_newest hcomm
    exact ⟨[], newest, rest, hvers, Option.some.inj (hnewst.symm.trans hrow)⟩
  | @back row delta hrow hafter hprevious hdelta ih =>
    obtain ⟨front, version, rest, hvers, rfl⟩ := ih hprevious
    obtain ⟨older, rest', saved, rfl, hsaved, hundo⟩ :=
      (hvers ▸ h.chained).undoes hprevious
    have hstor := hretained version (hvers ▸ by simp) hafter _ _ hsaved
    have heq : delta = saved := Option.some.inj (hdelta.symm.trans hstor)
    refine ⟨front ++ [version], older, rest', by rw [hvers]; simp, ?_⟩
    rw [heq, hundo.row]

theorem Follows.undoes (h : TupleInv setting addr (sys.rows addr) (sys.history addr))
    (hretained : Retained setting sys addr snapshotTs)
    (hfollows : Follows setting sys addr snapshotTs row)
    (hafter : snapshotTs < setting.wts addr row) (hprev : setting.prevVersion addr row ≠ 0) :
    ∃ delta older, sys.deltas (setting.prevVersion addr row) = some delta ∧
      Undoes setting addr delta row older ∧ setting.wts addr older < setting.wts addr row := by
  obtain ⟨front, version, rest, hvers, rfl⟩ := hfollows.version h hretained hprev
  obtain ⟨older, rest', delta, rfl, hdelta, hundo⟩ := (hvers ▸ h.chained).undoes hprev
  have hstor := hretained version (hvers ▸ by simp) hafter _ _ hdelta
  have hdecr := h.decreasing
  rw [hvers, pairwise_append] at hdecr
  exact ⟨delta, older.row, hstor, hundo,
    rel_of_pairwise_cons hdecr.2.1 mem_cons_self⟩

theorem selectRecordCC_readOnly {thread : Nat}
    (hlevel : setting.serializable = false) (hplain : (sys.managers thread).plainOcc = false)
    (h : Selectable sys thread addr .readOnly snapshotTs row) :
    ∃ manager : Manager, manager.accessList = (sys.managers thread).accessList ∧
      manager.reads = (sys.managers thread).reads ∧
      selectRecordCC setting sys thread addr .readOnly stray =
        (rollBackToSnapshot setting sys addr snapshotTs stray row).map fun result =>
          sys.setManager thread (manager.addAccess setting addr .readOnly result) := by
  let ts := setting.wts addr row
  let begun := (sys.managers thread).beginAccess .readOnly ts
  have hchoose : begun.choosePlainOcc setting.serializable ts snapshotTs = begun := by
    rw [hlevel]
    rfl
  refine ⟨{ begun with haveRolledBack := begun.haveRolledBack || decide (snapshotTs < ts) }, rfl,
    rfl, ?_⟩
  rw [selectRecordCC, h.stage, h.snapshot, h.row]
  dsimp only
  rw [if_neg (by simp [h.history, h.latch]), if_neg (by simp [Manager.abortsEarly, hlevel]),
    hchoose]
  exact if_neg (by rw [show begun.plainOcc = false from hplain]; simp)

end Reads

/-- Following the delta records gives decreasing timestamps, each delta has the timestamp of
the version above it, and a read returns the version of its snapshot. -/
theorem select_readOnly_isVersionAt {setting : Setting} {sys : System} {addr : TupleAddr}
    {snapshotTs : Nat} (hlevel : setting.serializable = false) (h : OrderlyRun setting sys)
    (hretained : Retained setting sys addr snapshotTs) :
    (∀ row, Follows setting sys addr snapshotTs row → snapshotTs < setting.wts addr row →
      setting.prevVersion addr row ≠ 0 →
      ∃ delta older, sys.deltas (setting.prevVersion addr row) = some delta ∧
        (Storage.Record.rollBack (setting.schema addr) ⟨row, []⟩ delta).data = older ∧
        delta.nextDeltaWts = setting.wts addr row ∧ delta.wts = setting.wts addr older ∧
        setting.wts addr older < setting.wts addr row) ∧
    ∀ thread row stray, Selectable sys thread addr .readOnly snapshotTs row →
      ∃ after result, mvoccStep setting sys (.select thread addr .readOnly stray) = some after ∧
        IsVersionAt setting sys addr snapshotTs result ∧
        (after.managers thread).reads = (addr, result) :: (sys.managers thread).reads ∧
        (after.managers thread).accessList = (sys.managers thread).accessList ++
          result.toList.map fun row => ⟨⟨.readOnly, setting.schema addr, ⟨row, []⟩, addr.pageAddr,
            addr.offset⟩, row⟩ := by
  have hinv := h.inv
  have htuple := hinv.tuples addr
  refine ⟨fun row hfollows hafter hprev => ?_, fun thread row stray hsel => ?_⟩
  · obtain ⟨delta, older, hdelta, hundo, hlt⟩ := hfollows.undoes htuple hretained hafter hprev
    exact ⟨delta, older, hdelta, hundo.row, hundo.nextWts, hundo.wts, hlt⟩
  · obtain ⟨result, hres, hver⟩ :=
      htuple.rollBackToSnapshot_eq stray hsel.row hsel.history hretained
    obtain ⟨manager, hlist, hreads, hstep⟩ :=
      selectRecordCC_readOnly stray hlevel ((hinv.managers thread).plain hlevel) hsel
    rw [hres] at hstep
    refine ⟨_, result, hstep, hver, ?_, ?_⟩
    · simp only [setManager_self, Manager.addAccess, hreads]
      rfl
    · simp only [setManager_self, Manager.addAccess, hlist]
      cases result with
      | none => exact (append_nil _).symm
      | some found => rfl

def commitActions (thread : Nat) (slot : DeltaSlot) : List Action :=
  [.writeNext thread slot, .finish thread]

def twoUpdates : List Action :=
  .getSnapshot 1 :: (updateActions 0 ⟨1, 64⟩ 9 ++ commitActions 0 ⟨8, 0⟩ ++
    updateActions 0 ⟨1, 64⟩ 10 ++ commitActions 0 ⟨16, 0⟩)

def retains (setting : Setting) (sys : System) (addr : TupleAddr) (snapshotTs : Nat) : Bool :=
  (sys.history addr).all fun version =>
    decide (setting.wts addr version.row ≤ snapshotTs) ||
      match version.delta with
      | some (deltaGaddr, delta) => decide (sys.deltas deltaGaddr = some delta)
      | none => true

theorem retained_of_retains {setting : Setting} {sys : System} {addr : TupleAddr} {snapshotTs : Nat}
    (h : retains setting sys addr snapshotTs = true) : Retained setting sys addr snapshotTs := by
  intro version hmem hafter deltaGaddr delta hdelta
  have htest := all_eq_true.mp h version hmem
  rw [hdelta, decide_eq_false (by omega), Bool.false_or] at htest
  exact of_decide_eq_true htest

def readsBack (sys : System) : Bool :=
  (match (sys.managers 1).stage with | .execute => true | _ => false) &&
    decide ((sys.managers 1).snapshotTs = some 1) && decide (sys.latches 1 = none) &&
    retains smallSetting sys ⟨1, 64⟩ 1 && decide ((sys.history ⟨1, 64⟩).length = 3) &&
    ((sys.rows ⟨1, 64⟩).map fun row => decide (smallSetting.wts ⟨1, 64⟩ row = 2)) = some true

/-- Thread 1 reads the first of the two values back. -/
theorem select_readOnly_isVersionAt_small :
    ∃ sys row after result, OrderlyRun smallSetting sys ∧
      Retained smallSetting sys ⟨1, 64⟩ 1 ∧ sys.rows ⟨1, 64⟩ = some row ∧
      smallSetting.wts ⟨1, 64⟩ row = 2 ∧
      mvoccStep smallSetting sys (.select 1 ⟨1, 64⟩ .readOnly fun _ => 0) = some after ∧
      IsVersionAt smallSetting sys ⟨1, 64⟩ 1 result := by
  obtain ⟨sys, hsys, hready⟩ : ∃ sys, OrderlyRun smallSetting sys ∧ readsBack sys = true :=
    TransitionSystem.Reachable.exists_of_schedule twoUpdates smallSystem_initial (by decide +kernel)
  simp only [readsBack, Bool.and_eq_true, decide_eq_true_eq, map_eq_some_iff] at hready
  obtain ⟨⟨⟨⟨⟨hstage, hsnap⟩, hlatch⟩, hretains⟩, hvers⟩, row, hrow, hwts⟩ := hready
  have hexec : (sys.managers 1).stage = .execute := by
    split at hstage
    · assumption
    · cases hstage
  have hcomm : sys.history ⟨1, 64⟩ ≠ [] := fun hnil => by
    rw [hnil] at hvers
    cases hvers
  have hretained := retained_of_retains hretains
  obtain ⟨after, result, hstep, hver, -⟩ := (select_readOnly_isVersionAt rfl hsys hretained).2 1
    row (fun _ => 0) ⟨hexec, hsnap, hrow, by decide, hcomm, hlatch⟩
  exact ⟨sys, row, after, result, hsys, hretained, hrow, hwts, hstep, hver⟩

end MemoryEngine.Txn
