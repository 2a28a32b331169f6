import MemoryEngine.Txn.MvoccInvariant

/-! Every step of an MVOCC run keeps the invariant, as long as a transaction accesses each
tuple at most once and the timestamp counters do not wrap. -/
namespace MemoryEngine.Txn

open ByteMemory Storage List Option

/-! ### Quiet steps -/

variable {maxSeenTs : Nat} {addr : TupleAddr} {row : Memory} {manager : Manager}
  {entry : LocalAccess} {commitTs : Nat}

section Quiet

variable {setting : Setting} {sys after : System} {thread : Nat} {manager : Manager}

theorem ManagerInv.quiet (h : ManagerInv setting sys thread manager)
    (hquiet : Quiet sys after thread)
    (hown : ∀ page, sys.latches page = some thread → after.latches page = some thread) :
    ManagerInv setting after thread manager := by
  refine h.transfer (hquiet.clocks _) (fun addr => ?_) (fun entry _ _ => ?_)
    fun entry _ _ hheld => ⟨hown _ hheld.latch, by rw [hquiet.rows]; exact hheld.row⟩
  · rw [hquiet.history]
    exact List.Subset.refl _
  · rw [hquiet.history, hquiet.rows]
    exact ⟨rfl, rfl⟩

theorem ManagerInv.setManager (h : ManagerInv setting sys thread manager) (other : Nat)
    (manager' : Manager) : ManagerInv setting (sys.setManager other manager') thread manager :=
  h.transfer (Nat.le_refl _) (fun _ => List.Subset.refl _) (fun _ _ _ => ⟨rfl, rfl⟩)
    fun _ _ _ hheld => ⟨hheld.latch, hheld.row⟩

theorem Inv.setManager (h : Inv setting sys) (hmgr : ManagerInv setting sys thread manager)
    (hlive : ∀ entry ∈ manager.live, entry.access.accessType = .insertOnly →
      ∃ before ∈ (sys.managers thread).live,
        before.access.accessType = .insertOnly ∧ before.addr = entry.addr) :
    Inv setting (sys.setManager thread manager) := by
  refine h.quiet ((Quiet.refl sys thread).setManager manager) ?_ ?_
  · rw [setManager_self]
    exact hmgr.setManager thread manager
  · rw [setManager_self]
    exact hlive

theorem Inv.clearStates (h : Inv setting sys) (hquiet : Quiet sys after thread)
    (hseen : maxSeenTs + 1 < 2 ^ 64) (before : Manager) :
    Inv setting (after.setManager thread { before.clearStates with maxSeenTs := maxSeenTs }) := by
  refine h.quiet (hquiet.setManager _) ?_ ?_
  · rw [setManager_self]
    exact ManagerInv.idle hseen before
  · rw [setManager_self]
    exact fun _ hmem => absurd hmem not_mem_nil

theorem Inv.abortTransaction (h : Inv setting sys) (hquiet : Quiet sys after thread)
    (hseen : manager.maxSeenTs + 1 < 2 ^ 64) :
    Inv setting (after.abortTransaction setting thread manager) :=
  h.clearStates (hquiet.unlockAll.ensureCommitFloor setting manager.maxSeenTs) hseen manager

end Quiet

/-! ### Access -/

section Access

variable {setting : Setting} {sys after : System} {thread : Nat}

theorem Inv.wts_lt (h : Inv setting sys)
    (hrow : sys.rows addr = some row) (hhist : sys.history addr ≠ []) :
    (∃ version ∈ sys.history addr, version.row = row) ∧ setting.wts addr row + 1 < 2 ^ 64 := by
  obtain ⟨version, rest, hvers, hnewst⟩ := (h.tuples addr).exists_newest hhist
  have hmem : version ∈ sys.history addr := hvers ▸ mem_cons_self
  have heq : version.row = row := Option.some.inj (hnewst.symm.trans hrow)
  exact ⟨⟨version, hmem, heq⟩, heq ▸ (h.tuples addr).small version hmem⟩

theorem live_of_execute (h : manager.stage = .execute) : manager.live = manager.accessList := by
  rw [Manager.live, h]

theorem not_checked_of_execute (h : manager.stage = .execute)
    (entry : LocalAccess) : ¬ manager.Checked entry := by
  rw [Manager.Checked, h]
  exact id

theorem ManagerInv.execute (hstage : manager.stage = .execute)
    (hfirst : WritesFirst manager.accessList)
    (hpub : ∀ entry ∈ manager.accessList, entry.access.accessType ≠ .insertOnly →
      sys.history entry.addr ≠ [])
    (hents : ∀ entry ∈ manager.accessList, entry.isWrite →
      EntryInv setting sys manager.maxSeenTs entry)
    (hseen : manager.maxSeenTs + 1 < 2 ^ 64)
    (hplain : setting.serializable = false → manager.plainOcc = false) :
    ManagerInv setting sys thread manager where
  first := by
    rw [live_of_execute hstage]
    exact hfirst
  published := by
    rw [live_of_execute hstage]
    exact hpub
  entries := by
    rw [live_of_execute hstage]
    exact hents
  pending := fun pending hpend => by
    rw [hstage] at hpend
    cases hpend
  held := fun entry hchk => absurd hchk (not_checked_of_execute hstage entry)
  floored := by
    rw [Manager.Floored, hstage]
    trivial
  seen := hseen
  plain := hplain

theorem EntryInv.mono {first second : Nat} (h : EntryInv setting sys first entry)
    (hle : first ≤ second) : EntryInv setting sys second entry where
  __ := h
  update := fun htype => ⟨(h.update htype).1, Nat.le_trans (h.update htype).2 hle⟩

theorem ManagerInv.append {before : Manager} (h : ManagerInv setting sys thread before)
    (hpre : before.stage = .execute)
    (hlist : manager.accessList = before.accessList ++ [entry]) (hstage : manager.stage = .execute)
    (hle : before.maxSeenTs ≤ manager.maxSeenTs) (hseen : manager.maxSeenTs + 1 < 2 ^ 64)
    (hplain : setting.serializable = false → manager.plainOcc = false)
    (hnew : entry.isWrite → entry.addr ∉ before.accessList.map LocalAccess.addr)
    (hpub : entry.access.accessType ≠ .insertOnly → sys.history entry.addr ≠ [])
    (hentry : entry.isWrite → EntryInv setting sys manager.maxSeenTs entry) :
    ManagerInv setting sys thread manager := by
  have hlive := live_of_execute hpre
  have hmem : ∀ other ∈ manager.accessList, other ∈ before.accessList ∨ other = entry :=
    fun other hother => by
      rw [hlist, mem_append, mem_singleton] at hother
      exact hother
  refine .execute hstage ?_ (fun other hother htype => ?_) (fun other hother hwrite => ?_) hseen
    hplain
  · rw [hlist]
    refine pairwise_append.mpr ⟨hlive ▸ h.first, pairwise_singleton _ _, ?_⟩
    intro earlier hearlier later hlater hwrite heq
    rw [mem_singleton.mp hlater] at hwrite heq
    exact hnew hwrite (heq ▸ mem_map_of_mem hearlier)
  · rcases hmem other hother with hold | rfl
    · exact h.published other (hlive ▸ hold) htype
    · exact hpub htype
  · rcases hmem other hother with hold | rfl
    · exact (h.entries other (hlive ▸ hold) hwrite).mono hle
    · exact hentry hwrite

theorem Inv.executing (h : Inv setting sys) (hpre : (sys.managers thread).stage = .execute)
    (hstage : manager.stage = .execute) (hmgr : ManagerInv setting sys thread manager)
    (hinss : ∀ entry ∈ manager.accessList, entry.access.accessType = .insertOnly → ∃ before ∈
      (sys.managers thread).accessList, before.access.accessType = .insertOnly ∧ before.addr =
      entry.addr) : Inv setting (sys.setManager thread manager) := by
  refine h.setManager hmgr ?_
  rw [live_of_execute hpre, live_of_execute hstage]
  exact hinss

theorem EntryInv.select (setting : Setting)
    (hver : ∃ version ∈ sys.history addr, version.row = row)
    (hseen : setting.wts addr row ≤ maxSeenTs) :
    EntryInv setting sys maxSeenTs
      ⟨⟨.readWrite, setting.schema addr, localTuple (setting.schema addr) .readWrite row,
        addr.pageAddr, addr.offset⟩, row⟩ where
  schema := rfl
  copy := LocalCopy.refl _ _
  update := fun _ => ⟨hver, hseen⟩
  insert := fun htype => by cases htype

theorem Inv.select (h : Inv setting sys) {accessType : AccessType}
    {stray : Memory} (hfirst : accessType = .readWrite →
      addr ∉ (sys.managers thread).accessList.map LocalAccess.addr)
    (hstep : selectRecordCC setting sys thread addr accessType stray = some after) :
    Inv setting after := by
  obtain ⟨snapshotTs, row, hsel, hcases⟩ := selectRecordCC_cases hstep
  obtain ⟨hver, hsmall⟩ := h.wts_lt hsel.row hsel.history
  have hthr := h.managers thread
  have hseen : max (sys.managers thread).maxSeenTs (setting.wts addr row) + 1 < 2 ^ 64 := by
    have hpre := hthr.seen
    omega
  rcases hcases with ⟨manager, hmax, rfl⟩ | ⟨manager, result, hmgr, rfl, hwrite, hread⟩
  · exact h.abortTransaction (.refl sys thread) (hmax ▸ hseen)
  have hplain : setting.serializable = false →
      (manager.addAccess setting addr accessType result).plainOcc = false := fun hlevel =>
    (hread hlevel (hthr.plain hlevel)).1
  have hlive := live_of_execute hsel.stage
  have hstage : (manager.addAccess setting addr accessType result).stage = .execute :=
    hmgr.stage.trans hsel.stage
  cases result with
  | none =>
    have hkept : (manager.addAccess setting addr accessType none).accessList =
        (sys.managers thread).accessList := hmgr.accessList
    refine h.executing hsel.stage hstage (.execute hstage ?_ ?_ ?_ ?_ hplain) ?_
    · rw [hkept]
      exact hlive ▸ hthr.first
    · rw [hkept]
      exact hlive ▸ hthr.published
    · rw [hkept]
      intro entry hmem hentry
      refine (hthr.entries entry (hlive ▸ hmem) hentry).mono ?_
      exact Nat.le_trans (Nat.le_max_left _ _) (Nat.le_of_eq hmgr.seen.symm)
    · exact hmgr.seen ▸ hseen
    · rw [hkept]
      exact fun entry hmem htype => ⟨entry, hmem, htype, rfl⟩
  | some found =>
    have hlist : (manager.addAccess setting addr accessType (some found)).accessList =
        (sys.managers thread).accessList ++
          [⟨⟨accessType, setting.schema addr, localTuple (setting.schema addr) accessType found,
            addr.pageAddr, addr.offset⟩, found⟩] := by
      rw [Manager.addAccess, hmgr.accessList]
    have htype : accessType.isWrite → accessType = .readWrite := fun hwrites => by
      cases accessType with
      | readWrite => rfl
      | insertOnly => exact absurd rfl hsel.accessType
      | _ => cases hwrites
    refine h.executing hsel.stage hstage (hthr.append hsel.stage hlist hstage ?_
      (hmgr.seen ▸ hseen) hplain (fun hentry => hfirst (htype hentry))
      (fun _ => hsel.history) fun hentry => ?_) ?_
    · exact Nat.le_trans (Nat.le_max_left _ _) (Nat.le_of_eq hmgr.seen.symm)
    · obtain rfl := htype hentry
      cases hwrite rfl
      refine EntryInv.select setting hver ?_
      exact Nat.le_trans (Nat.le_max_right _ _) (Nat.le_of_eq hmgr.seen.symm)
    · intro entry hmem htype
      rw [hlist, mem_append, mem_singleton] at hmem
      rcases hmem with hmem | rfl
      · exact ⟨entry, hmem, htype, rfl⟩
      · exact absurd htype hsel.accessType

theorem map_set_of_eq {α β : Type} (f : α → β) {list : List α} {index : Nat} {old new : α}
    (h : list[index]? = some old) (hf : f new = f old) :
    (list.set index new).map f = list.map f := by
  apply List.ext_getElem?
  intro other
  by_cases hindex : index = other
  · subst hindex
    obtain ⟨hlt, rfl⟩ := List.getElem?_eq_some_iff.mp h
    simp [hf, hlt]
  · simp [List.getElem?_set_ne hindex]

theorem WritesFirst.set {accesses : List LocalAccess} (h : WritesFirst accesses) {index : Nat}
    (hentry : accesses[index]? = some entry) (tuple : Storage.Record) :
    WritesFirst (accesses.set index (entry.withTuple tuple)) := by
  let key : LocalAccess → TupleAddr × Bool := fun entry => (entry.addr, entry.isWrite)
  have hkeys : ∀ accesses, WritesFirst accesses ↔ (accesses.map key).Pairwise fun earlier later =>
      later.2 → earlier.1 ≠ later.1 := fun accesses => by
    rw [pairwise_map]
    rfl
  have hsame : key (entry.withTuple tuple) = key entry := rfl
  rw [hkeys, map_set_of_eq key hentry hsame, ← hkeys]
  exact h

theorem Inv.modify (h : Inv setting sys) {index : Nat}
    {change : LocalAccess → Option Storage.Record}
    (hchg : ∀ entry tuple, entry.access.schema.MetaLast → change entry = some tuple →
      LocalCopy entry.access.schema entry.base entry.access.tuple →
      LocalCopy entry.access.schema entry.base tuple)
    (hstep : sys.modify thread index change = some after) : Inv setting after := by
  obtain ⟨entry, tuple, hstage, hentry, htuple, rfl⟩ := modify_cases hstep
  have hthr := h.managers thread
  have hlive := live_of_execute hstage
  have hmem := mem_of_getElem? hentry
  refine h.executing hstage hstage (.execute hstage ?_ (fun other hother htype => ?_)
    (fun other hother hwrite => ?_) hthr.seen hthr.plain) fun other hother htype => ?_
  · exact WritesFirst.set (hlive ▸ hthr.first) hentry tuple
  · rcases mem_or_eq_of_mem_set hother with hold | rfl
    · exact hthr.published other (hlive ▸ hold) htype
    · exact hthr.published entry (hlive ▸ hmem) htype
  · rcases mem_or_eq_of_mem_set hother with hold | rfl
    · exact hthr.entries other (hlive ▸ hold) hwrite
    · have hinv := hthr.entries entry (hlive ▸ hmem) hwrite
      have hmeta : entry.access.schema.MetaLast := hinv.schema ▸ (setting.rows entry.addr).metaLast
      exact ⟨hinv.schema, hchg entry tuple hmeta htuple hinv.copy, hinv.update, hinv.insert⟩
  · rcases mem_or_eq_of_mem_set hother with hold | rfl
    · exact ⟨other, hold, htype, rfl⟩
    · exact ⟨entry, hmem, htype, rfl⟩

theorem changeColumn_copy {colId : Nat} {data : List UInt8} (entry : LocalAccess)
    (tuple : Storage.Record) (_ : entry.access.schema.MetaLast)
    (h : changeColumn colId data entry = some tuple)
    (hcopy : LocalCopy entry.access.schema entry.base entry.access.tuple) :
    LocalCopy entry.access.schema entry.base tuple := by
  unfold changeColumn at h
  split at h
  · rename_i hcol
    cases h
    exact hcopy.setColumn hcol data
  · cases h

theorem changeVisible_copy {visible : Bool} (entry : LocalAccess) (tuple : Storage.Record)
    (hmeta : entry.access.schema.MetaLast) (h : changeVisible visible entry = some tuple)
    (hcopy : LocalCopy entry.access.schema entry.base entry.access.tuple) :
    LocalCopy entry.access.schema entry.base tuple := by
  cases h
  exact hcopy.setVisible hmeta _

theorem prevVersion_newRow (setting : Setting) (addr : TupleAddr) :
    setting.prevVersion addr (newRow (setting.schema addr)) = 0 := by
  have hload := MetaColumn.load_write (fun _ => 0) (setting.schema addr).metaOffset
    { MetaColumn.load (fun _ => 0) (setting.schema addr).metaOffset with
      wts := 2 ^ 64 - 1, isVisible := 0 : MetaColumn }
  have hzero : ofLE (read (fun _ => 0) ((setting.schema addr).metaOffset + 8) 8) = 0 := rfl
  refine (congrArg MetaColumn.prevVersion hload).trans ?_
  simp only [MetaColumn.load, hzero]
  rfl

theorem EntryInv.allocate (setting : Setting) (sys : System) (hhist : sys.history addr = [])
    (hrow : sys.rows addr = some (newRow (setting.schema addr))) (maxSeenTs : Nat) :
    EntryInv setting sys maxSeenTs (insertEntry setting addr) where
  schema := rfl
  copy := LocalCopy.refl _ _
  update := fun htype => by cases htype
  insert := fun _ => ⟨hhist, hrow, prevVersion_newRow setting addr⟩

theorem Inv.row_ne_none (h : Inv setting sys) (thread : Nat)
    (hmem : entry ∈ (sys.managers thread).live) : sys.rows entry.addr ≠ none := by
  have hthr := h.managers thread
  by_cases htype : entry.access.accessType = .insertOnly
  · have hwrite : entry.isWrite := by
      rw [LocalAccess.isWrite, htype]
      rfl
    rw [((hthr.entries entry hmem hwrite).insert htype).2.1]
    exact some_ne_none _
  · obtain ⟨version, rest, -, hrow⟩ :=
      (h.tuples entry.addr).exists_newest (hthr.published entry hmem htype)
    rw [hrow]
    exact some_ne_none _

theorem Inv.allocateNewRecord (h : Inv setting sys)
    (hstep : sys.allocateNewRecord setting thread addr = some after) : Inv setting after := by
  obtain ⟨hstage, hrow, rfl⟩ := allocateNewRecord_cases hstep
  have hlive := live_of_execute hstage
  have hfresh : sys.history addr = [] := by
    by_contra hne
    obtain ⟨version, rest, -, hsome⟩ := (h.tuples addr).exists_newest hne
    rw [hrow] at hsome
    cases hsome
  -- No thread works on the new tuple yet.
  have hunused : ∀ other, ∀ entry ∈ (sys.managers other).live, entry.addr ≠ addr :=
    fun other entry hmem heq => h.row_ne_none other hmem (heq ▸ hrow)
  have hadded : ((sys.managers thread).addInsert setting addr).stage = .execute := hstage
  have hlist : ((sys.managers thread).addInsert setting addr).accessList =
      (sys.managers thread).accessList ++ [insertEntry setting addr] := rfl
  have hself : (sys.setRow addr (newRow (setting.schema addr))).rows addr =
      some (newRow (setting.schema addr)) := Function.update_self _ _ _
  have hrows : ∀ other, other ≠ addr →
      (sys.setRow addr (newRow (setting.schema addr))).rows other = sys.rows other :=
    fun other hne => Function.update_of_ne hne _ _
  have hmoved : ∀ other, ManagerInv setting (sys.setRow addr (newRow (setting.schema addr))) other
      (sys.managers other) := fun other =>
    (h.managers other).transfer (Nat.le_refl _) (fun _ => List.Subset.refl _)
      (fun entry hmem _ => ⟨rfl, hrows _ (hunused other entry hmem)⟩)
      fun entry _ _ hheld => ⟨hheld.latch, by
        have hne : entry.addr ≠ addr := fun heq => by
          rw [← heq, hheld.row] at hrow
          cases hrow
        exact (hrows _ hne).trans hheld.row⟩
  refine h.step (fun _ => Nat.le_refl _) (fun other => ?_)
    (fun other hother => ⟨setManager_of_ne _ _ hother, (hmoved other).setManager _ _⟩) ?_ ?_
  · by_cases hother : other = addr
    · subst hother
      refine hfresh ▸ TupleInv.empty fun new hnew => ?_
      rw [setManager_rows, hself] at hnew
      cases hnew
      exact prevVersion_newRow setting other
    · exact (hrows other hother) ▸ h.tuples other
  · rw [setManager_self]
    refine ManagerInv.setManager ((hmoved thread).append hstage hlist hadded (Nat.le_refl _)
      (h.managers thread).seen (h.managers thread).plain ?_ (fun hne => absurd rfl hne)
      fun _ => ?_) _ _
    · intro _ hmem
      obtain ⟨entry, hentry, haddr⟩ := mem_map.mp hmem
      exact hunused thread entry (hlive ▸ hentry) haddr
    · exact EntryInv.allocate setting (sys.setRow addr _) hfresh hself _
  · intro entry hmem htype
    rw [setManager_self, live_of_execute hadded, hlist, mem_append,
      mem_singleton] at hmem
    rcases hmem with hmem | rfl
    · exact .inl ⟨entry, hlive ▸ hmem, htype, rfl⟩
    · exact .inr hunused

end Access

/-! ### Commit -/

section Commit

variable {setting : Setting} {sys after : System} {thread : Nat}

theorem mem_insertAccess {other : LocalAccess} {sorted : List LocalAccess} :
    (other ∈ insertAccess entry sorted → other = entry ∨ other ∈ sorted) ∧
      (other ∈ sorted → other ∈ insertAccess entry sorted) := by
  induction sorted with
  | nil => simp [insertAccess]
  | cons head tail ih =>
    unfold insertAccess
    split
    · simp only [mem_cons]
      exact ⟨id, .inr⟩
    · split
      · exact ⟨.inr, id⟩
      · simp only [mem_cons]
        exact ⟨fun h => h.elim (fun h => .inr (.inl h)) fun h => (ih.1 h).imp_right .inr,
          fun h => h.imp_right ih.2⟩

theorem mem_insertAccess_self {sorted : List LocalAccess}
    (h : entry.addr ∉ sorted.map LocalAccess.addr) : entry ∈ insertAccess entry sorted := by
  induction sorted with
  | nil => simp [insertAccess]
  | cons head tail ih =>
    rw [map_cons, mem_cons, not_or] at h
    unfold insertAccess
    split
    · exact mem_cons_self
    · rw [if_neg h.1]
      exact mem_cons_of_mem _ (ih h.2)

variable (accessList sorted : List LocalAccess)

theorem foldl_insertAccess_subset
    (h : entry ∈ accessList.foldl (fun sorted entry => insertAccess entry sorted) sorted) :
    entry ∈ accessList ∨ entry ∈ sorted := by
  induction accessList generalizing sorted with
  | nil => exact .inr h
  | cons head tail ih =>
    rcases ih _ h with hmem | hmem
    · exact .inl (mem_cons_of_mem _ hmem)
    · rcases mem_insertAccess.1 hmem with rfl | hmem
      · exact .inl mem_cons_self
      · exact .inr hmem

theorem sortedAccess_subset (accessList : List LocalAccess) :
    sortedAccess accessList ⊆ accessList := fun _ hmem =>
  (foldl_insertAccess_subset accessList [] hmem).resolve_right not_mem_nil

theorem subset_foldl_insertAccess (h : entry ∈ sorted) :
    entry ∈ accessList.foldl (fun sorted entry => insertAccess entry sorted) sorted := by
  induction accessList generalizing sorted with
  | nil => exact h
  | cons head tail ih => exact ih _ (mem_insertAccess.2 h)

theorem mem_foldl_insertAccess {accessList sorted : List LocalAccess}
    (hfirst : WritesFirst accessList) (h : entry ∈ accessList)
    (hwrite : entry.isWrite) (hapart : entry.addr ∉ sorted.map LocalAccess.addr) :
    entry ∈ accessList.foldl (fun sorted entry => insertAccess entry sorted) sorted := by
  induction accessList generalizing sorted with
  | nil => cases h
  | cons head tail ih =>
    rcases mem_cons.mp h with rfl | hmem
    · exact subset_foldl_insertAccess tail _ (mem_insertAccess_self hapart)
    · refine ih (List.Pairwise.of_cons hfirst) hmem fun hin => ?_
      obtain ⟨before, hpre, haddr⟩ := mem_map.mp hin
      rcases mem_insertAccess.1 hpre with rfl | hpre
      · exact rel_of_pairwise_cons hfirst hmem hwrite haddr
      · exact hapart (haddr ▸ mem_map_of_mem hpre)

theorem mem_sortedAccess {accessList : List LocalAccess} (hfirst : WritesFirst accessList)
    (h : entry ∈ accessList) (hwrite : entry.isWrite) : entry ∈ sortedAccess accessList :=
  mem_foldl_insertAccess hfirst h hwrite not_mem_nil

theorem Inv.beginCommit (h : Inv setting sys) (hstep : sys.beginCommit thread = some after) :
    Inv setting after := by
  obtain ⟨hstage, rfl | rfl⟩ := beginCommit_cases hstep
  · exact h.clearStates ((Quiet.refl sys thread).record _) (h.managers thread).seen
      (sys.managers thread)
  · have hthr := h.managers thread
    have hlive := live_of_execute hstage
    have hsub : (sys.managers thread).accessList.Sublist (sys.managers thread).live :=
      hlive ▸ List.Sublist.refl _
    refine h.setManager (hthr.enter hsub ?_ ?_ trivial)
      fun entry hmem htype => ⟨entry, hlive ▸ hmem, htype, rfl⟩
    · rintro pending ⟨⟩
      exact sortedAccess_subset _
    · intro entry hchk hwrite
      exact absurd (mem_sortedAccess (hlive ▸ hthr.first) hchk.1 hwrite) hchk.2

theorem isWrite_iff :
    entry.isWrite ↔
      entry.access.accessType = .readWrite ∨ entry.access.accessType = .insertOnly := by
  rw [LocalAccess.isWrite]
  cases entry.access.accessType <;> simp [AccessType.isWrite]

theorem EntryInv.getWTS_eq (h : EntryInv setting sys maxSeenTs entry) :
    entry.access.tuple.getWTS entry.access.schema = setting.wts entry.addr entry.base := by
  rw [h.copy.wts, h.schema]
  rfl

theorem EntryInv.metaLast (h : EntryInv setting sys maxSeenTs entry) :
    entry.access.schema.MetaLast :=
  h.schema ▸ (setting.rows entry.addr).metaLast

theorem Inv.row_eq_base (h : Inv setting sys) (hmem : entry ∈ (sys.managers thread).live)
    (hwrite : entry.isWrite) (hrow : sys.rows entry.addr = some row)
    (hpass : ¬ entry.access.tuple.getWTS entry.access.schema < setting.wts entry.addr row) :
    sys.rows entry.addr = some entry.base := by
  have hentry := (h.managers thread).entries entry hmem hwrite
  rcases isWrite_iff.mp hwrite with htype | htype
  · obtain ⟨⟨version, hver, hbase⟩, -⟩ := hentry.update htype
    rw [hentry.getWTS_eq] at hpass
    have heq := (h.tuples entry.addr).eq_of_le hver hrow (by rw [hbase]; omega)
    rw [hrow, heq, hbase]
  · exact (hentry.insert htype).2.1

theorem Inv.wts_lt_of_fail (h : Inv setting sys) (hmem : entry ∈ (sys.managers thread).live)
    (hrow : sys.rows entry.addr = some row)
    (hfail : entry.access.tuple.getWTS entry.access.schema < setting.wts entry.addr row) :
    setting.wts entry.addr row + 1 < 2 ^ 64 := by
  by_cases htype : entry.access.accessType = .insertOnly
  · have hentry := (h.managers thread).entries entry hmem (isWrite_iff.mpr (.inr htype))
    have heq : row = entry.base := Option.some.inj (hrow.symm.trans (hentry.insert htype).2.1)
    rw [hentry.getWTS_eq, heq] at hfail
    exact absurd hfail (Nat.lt_irrefl _)
  · exact (h.wts_lt hrow ((h.managers thread).published entry hmem htype)).2

variable {rest : List LocalAccess}

theorem ManagerInv.validated
    (h : ManagerInv setting sys thread manager) (hstage : manager.stage = .validate (entry :: rest))
    (hheld : entry.isWrite → Held sys thread entry) :
    ManagerInv setting sys thread (manager.enter (.validate rest)) := by
  have hlive : manager.live = manager.accessList := by rw [Manager.live, hstage]
  refine h.enter (hlive ▸ .refl _) ?_ (fun other hchk hwrite => ?_) trivial
  · rintro pending ⟨⟩
    exact fun other hother => h.pending _ hstage (mem_cons_of_mem _ hother)
  · by_cases hother : other = entry
    · exact hother ▸ hheld (hother ▸ hwrite)
    · refine h.held other ?_ hwrite
      rw [Manager.Checked, hstage]
      exact ⟨hchk.1, fun hmem => (mem_cons.mp hmem).elim hother hchk.2⟩

theorem Inv.validateNext (h : Inv setting sys)
    (hstep : sys.validateNext setting thread = some after) : Inv setting after := by
  obtain ⟨entry, rest, hstage, hcases⟩ := validateNext_cases hstep
  have hthr := h.managers thread
  have hlive : (sys.managers thread).live = (sys.managers thread).accessList := by
    rw [Manager.live, hstage]
  have hmem : entry ∈ (sys.managers thread).live :=
    hlive ▸ hthr.pending _ hstage mem_cons_self
  have hinss : ∀ other ∈ (sys.managers thread).accessList,
      other.access.accessType = .insertOnly → ∃ before ∈ (sys.managers thread).live,
        before.access.accessType = .insertOnly ∧ before.addr = other.addr :=
    fun other hother htype => ⟨other, hlive ▸ hother, htype, rfl⟩
  rcases hcases with ⟨hread, rfl⟩ | ⟨row, hfree, hrow, hcases⟩
  · refine h.setManager (hthr.validated hstage fun hwrite => ?_) hinss
    rw [LocalAccess.isWrite, hread] at hwrite
    cases hwrite
  · have hquiet := (Quiet.refl sys thread).latchPage hfree
    rcases hcases with ⟨hfail, rfl⟩ | ⟨hpass, rfl⟩
    · refine h.abortTransaction hquiet ?_
      have hts := h.wts_lt_of_fail hmem hrow hfail
      have hpre := hthr.seen
      simp only [Manager.registerSeenTs]
      omega
    · refine h.quiet (hquiet.setManager _) ?_ ?_
      · rw [setManager_self]
        refine ManagerInv.setManager (ManagerInv.validated ?_ hstage fun hwrite => ?_) _ _
        · exact hthr.quiet hquiet fun _ => latchPage_own _
        · refine ⟨latchPage_self hwrite, ?_⟩
          rw [hquiet.rows]
          exact h.row_eq_base hmem hwrite hrow hpass
      · rw [setManager_self]
        exact hinss

theorem lt_ensureCommitFloor (hclock : 1 ≤ sys.clocks (setting.node thread))
    (hseen : maxSeenTs + 1 < 2 ^ 64) :
    maxSeenTs < (sys.ensureCommitFloor setting thread maxSeenTs).clocks (setting.node thread) := by
  unfold System.ensureCommitFloor
  split
  · rename_i hzero
    rw [hzero]
    exact hclock
  · simp only [Function.update_self, Nat.mod_eq_of_lt hseen]
    omega

theorem Inv.ensureFloor (h : Inv setting sys)
    (hstep : sys.ensureFloor setting thread = some after) : Inv setting after := by
  obtain ⟨hstage, rfl⟩ := ensureFloor_cases hstep
  have hlive : (sys.managers thread).live = (sys.managers thread).accessList := by
    rw [Manager.live, hstage]
  have hquiet := (Quiet.refl sys thread).ensureCommitFloor setting (sys.managers thread).maxSeenTs
  have hmoved := (h.managers thread).quiet hquiet fun page hlatch => by
    rw [ensureCommitFloor_latches]
    exact hlatch
  refine h.quiet (hquiet.setManager _) ?_ ?_
  · rw [setManager_self]
    refine ManagerInv.setManager ?_ _ _
    refine hmoved.enter (hlive ▸ .refl _) (by simp) (fun entry hchk => hmoved.held entry ?_)
      (lt_ensureCommitFloor (h.clocks _) hmoved.seen)
    rw [Manager.Checked, hstage]
    exact ⟨hchk, not_mem_nil⟩
  · rw [setManager_self]
    exact fun other hother htype => ⟨other, hlive ▸ hother, htype, rfl⟩

theorem Inv.fetchAdd (h : Inv setting sys) (hnowrap : sys.clocks (setting.node thread) + 1 < 2 ^ 64)
    (hstep : sys.fetchAdd setting thread = some after) : Inv setting after := by
  have hquiet := quiet_fetchAdd hstep hnowrap
  obtain ⟨hstage, rfl⟩ := fetchAdd_cases hstep
  have hlive : (sys.managers thread).live = (sys.managers thread).accessList := by
    rw [Manager.live, hstage]
  have hmoved := (h.managers thread).quiet hquiet fun _ => id
  have hfloored := (h.managers thread).floored
  rw [Manager.Floored, hstage] at hfloored
  refine h.quiet hquiet ?_ ?_
  · rw [setManager_self]
    refine hmoved.enter (hlive ▸ .refl _) (by simp) (fun entry hchk => hmoved.held entry ?_)
      ⟨hfloored, hnowrap⟩
    rw [Manager.Checked, hstage]
    exact hchk
  · rw [setManager_self]
    exact fun other hother htype => ⟨other, hlive ▸ hother, htype, rfl⟩

/-! ### Writing a tuple -/

theorem ManagerInv.publish (h : ManagerInv setting sys thread manager) (version : Version)
    (hfresh : ∀ entry ∈ manager.live, entry.access.accessType = .insertOnly → entry.addr ≠ addr)
    (hheld : ∀ entry, manager.Checked entry → entry.isWrite → Held sys thread entry → entry.addr ≠
      addr) : ManagerInv setting (sys.publish addr version) thread manager := by
  refine h.transfer (Nat.le_refl _) (history_subset_publish sys version)
    (fun entry hmem htype => ?_) fun entry hchk hwrite hentry => ⟨hentry.latch, ?_⟩
  · have hne := hfresh entry hmem htype
    exact ⟨publish_history_of_ne sys version hne, publish_rows_of_ne sys version hne⟩
  · exact (publish_rows_of_ne sys version (hheld entry hchk hwrite hentry)).trans hentry.row

theorem ManagerInv.tail (h : ManagerInv setting sys thread manager)
    (hstage : manager.stage = .write commitTs (entry :: rest)) :
    ManagerInv setting sys thread (manager.enter (.write commitTs rest)) := by
  have hlive : manager.live = entry :: rest := by rw [Manager.live, hstage]
  have hfloored := h.floored
  rw [Manager.Floored, hstage] at hfloored
  refine h.enter (hlive ▸ sublist_cons_self entry rest) (by simp)
    (fun other hchk => h.held other ?_) hfloored
  rw [Manager.Checked, hstage]
  exact mem_cons_of_mem _ hchk

variable {slot : DeltaSlot}

theorem meta_writtenVersion (hentry : EntryInv setting sys maxSeenTs entry)
    (htype : entry.access.accessType = .readWrite) (hcmt : commitTs + 1 < 2 ^ 64)
    (hslot : slot.deltaGaddr < 2 ^ 64) (row : Memory) :
    setting.wts entry.addr (writtenVersion commitTs entry slot row).row = commitTs ∧
      setting.prevVersion entry.addr (writtenVersion commitTs entry slot row).row =
        slot.deltaGaddr := by
  have hrow : (writtenVersion commitTs entry slot row).row =
      (updated commitTs entry.access slot).tuple.data := by
    rw [writtenVersion, htype]
  have hcolumn := getMeta_putMeta hentry.metaLast { entry.access.tuple with dirtyColIds := [] }
    { Storage.Record.getMeta entry.access.schema { entry.access.tuple with dirtyColIds := [] } with
      prevVersion := slot.deltaGaddr
      prevDeltaEpoch := slot.epoch
      prevDeltaDataSize := entry.access.tuple.estimateDeltaSize entry.access.schema
      wts := commitTs }
  rw [Setting.wts, Setting.prevVersion, hrow, ← hentry.schema]
  constructor
  · exact (congrArg MetaColumn.wts hcolumn).trans
      (Nat.mod_eq_of_lt (show commitTs < 256 ^ 8 by omega))
  · exact (congrArg MetaColumn.prevVersion hcolumn).trans
      (Nat.mod_eq_of_lt (show slot.deltaGaddr < 256 ^ 8 by omega))

theorem meta_insertedVersion (hentry : EntryInv setting sys maxSeenTs entry)
    (htype : entry.access.accessType = .insertOnly)
    (hcmt : commitTs + 1 < 2 ^ 64) (slot : DeltaSlot) (row : Memory) :
    setting.wts entry.addr (writtenVersion commitTs entry slot row).row = commitTs ∧
      setting.prevVersion entry.addr (writtenVersion commitTs entry slot row).row = 0 := by
  have hrow : (writtenVersion commitTs entry slot row).row =
      (inserted commitTs entry.access).tuple.data := by
    rw [writtenVersion, htype]
  have hprev : (entry.access.tuple.getMeta entry.access.schema).prevVersion = 0 := by
    obtain ⟨visible, hcopy⟩ := hentry.copy.metaColumn
    rw [hcopy, hentry.schema]
    exact (hentry.insert htype).2.2
  have hcolumn := getMeta_putMeta hentry.metaLast entry.access.tuple
    { entry.access.tuple.getMeta entry.access.schema with wts := commitTs }
  rw [Setting.wts, Setting.prevVersion, hrow, ← hentry.schema]
  constructor
  · exact (congrArg MetaColumn.wts hcolumn).trans
      (Nat.mod_eq_of_lt (show commitTs < 256 ^ 8 by omega))
  · refine (congrArg MetaColumn.prevVersion hcolumn).trans ?_
    rw [hprev]
    rfl

theorem undoes_writtenVersion (hentry : EntryInv setting sys maxSeenTs entry)
    (htype : entry.access.accessType = .readWrite) (slot : DeltaSlot)
    (hwts : setting.wts entry.addr (writtenVersion commitTs entry slot entry.base).row = commitTs) :
    Undoes setting entry.addr
      (fillInDeltaRecordSingle entry.access.schema entry.access.tuple ⟨entry.base, []⟩ commitTs).1
      (writtenVersion commitTs entry slot entry.base).row entry.base where
  wts := by
    rw [hentry.schema]
    rfl
  nextWts := hwts.symm
  row := by
    have hrows : Rows entry.access.schema := hentry.schema ▸ setting.rows entry.addr
    rw [writtenVersion, htype, ← hentry.schema]
    exact rollBack_updated hrows hentry.copy.toCopyOf commitTs slot []

theorem writes_isWrite (h : entry.writes) : entry.isWrite := by
  rw [isWrite_iff]
  simp only [LocalAccess.writes, Bool.or_eq_true, Bool.and_eq_true, decide_eq_true_eq] at h
  exact h.elim .inr fun h => .inl h.1

structure AtWrite (setting : Setting) (sys : System) (thread commitTs : Nat)
    (entry : LocalAccess) : Prop where
  live : entry ∈ (sys.managers thread).live
  isWrite : entry.isWrite
  inv : EntryInv setting sys (sys.managers thread).maxSeenTs entry
  held : Held sys thread entry
  floor : (sys.managers thread).maxSeenTs < commitTs
  small : commitTs + 1 < 2 ^ 64

theorem Inv.atWrite (h : Inv setting sys)
    (hstage : (sys.managers thread).stage = .write commitTs (entry :: rest))
    (hwrite : entry.isWrite) : AtWrite setting sys thread commitTs entry := by
  have hthr := h.managers thread
  have hlive : entry ∈ (sys.managers thread).live := by
    rw [Manager.live, hstage]
    exact mem_cons_self
  have hfloored := hthr.floored
  rw [Manager.Floored, hstage] at hfloored
  refine ⟨hlive, hwrite, hthr.entries entry hlive hwrite, hthr.held entry ?_ hwrite,
    hfloored.1, hfloored.2⟩
  rw [Manager.Checked, hstage]
  exact mem_cons_self

theorem AtWrite.wts (h : AtWrite setting sys thread commitTs entry)
    (hslot : slot.deltaGaddr < 2 ^ 64) (row : Memory) :
    setting.wts entry.addr (writtenVersion commitTs entry slot row).row = commitTs := by
  rcases isWrite_iff.mp h.isWrite with htype | htype
  · exact (meta_writtenVersion h.inv htype h.small hslot row).1
  · exact (meta_insertedVersion h.inv htype h.small slot row).1

variable (h : Inv setting sys)
include h

theorem Inv.publish_tuple (hat : AtWrite setting sys thread commitTs entry)
    (hslot : slot.deltaGaddr ≠ 0) (hslot' : slot.deltaGaddr < 2 ^ 64) :
    TupleInv setting entry.addr (some (writtenVersion commitTs entry slot entry.base).row)
      (writtenVersion commitTs entry slot entry.base :: sys.history entry.addr) := by
  have hentry := hat.inv
  have hfloor := hat.floor
  have hwts := hat.wts hslot' entry.base
  rcases isWrite_iff.mp hat.isWrite with htype | htype
  · obtain ⟨⟨version, hver, -⟩, hseen⟩ := hentry.update htype
    have hprev := (meta_writtenVersion hentry htype hat.small hslot' entry.base).2
    have hundo := undoes_writtenVersion hentry htype slot hwts
    have hdelta : (writtenVersion commitTs entry slot entry.base).delta = some (slot.deltaGaddr,
        (fillInDeltaRecordSingle entry.access.schema entry.access.tuple ⟨entry.base, []⟩
          commitTs).1) := by
      rw [writtenVersion, htype]
    have htuple := h.tuples entry.addr
    rw [hat.held.row] at htuple
    refine htuple.cons (ne_nil_of_mem hver) hdelta hslot hprev hundo ?_
      (hwts.symm ▸ hat.small)
    omega
  · rw [(hentry.insert htype).1]
    exact .singleton (hwts.symm ▸ hat.small)
      (meta_insertedVersion hentry htype hat.small slot entry.base).2

theorem Inv.addr_ne_of_insert {other : Nat} (hother : other ≠ thread) {used : LocalAccess}
    (hat : AtWrite setting sys thread commitTs entry) (hused : used ∈ (sys.managers other).live)
    (htype : used.access.accessType = .insertOnly) : used.addr ≠ entry.addr := by
  intro heq
  have hfresh := (((h.managers other).entries used hused (isWrite_iff.mpr (.inr htype))).insert
    htype).1
  rcases isWrite_iff.mp hat.isWrite with hupdate | hins
  · obtain ⟨⟨version, hver, -⟩, -⟩ := hat.inv.update hupdate
    rw [← heq, hfresh] at hver
    exact absurd hver not_mem_nil
  · exact h.alone other thread hother used hused entry hat.live htype hins heq

theorem Inv.writeNext
    (hstep : sys.writeNext thread slot = some after) : Inv setting after := by
  obtain ⟨commitTs, entry, rest, hstage, hcases⟩ := writeNext_cases hstep
  have hthr := h.managers thread
  have hlive : (sys.managers thread).live = entry :: rest := by rw [Manager.live, hstage]
  have hinss : ∀ other ∈ rest, other.access.accessType = .insertOnly →
      ∃ before ∈ (sys.managers thread).live, before.access.accessType = .insertOnly ∧
        before.addr = other.addr := fun other hother htype =>
    ⟨other, hlive ▸ mem_cons_of_mem _ hother, htype, rfl⟩
  rcases hcases with ⟨-, rfl⟩ | ⟨row, hwrites, -, hslot, hslot', hrow, rfl⟩
  · exact h.setManager (hthr.tail hstage) hinss
  have hat := h.atWrite hstage (writes_isWrite hwrites)
  have hbase : row = entry.base := Option.some.inj (hrow.symm.trans hat.held.row)
  subst hbase
  have hfirst := hthr.first
  rw [hlive] at hfirst
  have hrest : ∀ other ∈ rest, other.isWrite → other.addr ≠ entry.addr :=
    fun other hother hwrite => (rel_of_pairwise_cons hfirst hother hwrite).symm
  refine h.step (fun _ => Nat.le_refl _) (fun addr => ?_) (fun other hother =>
    ⟨setManager_of_ne _ _ hother, ManagerInv.setManager (ManagerInv.publish
      (h.managers other) _ (fun used hused htype => ?_) fun used _ _ hused heq => ?_) _ _⟩) ?_ ?_
  · rw [setManager_rows, setManager_history]
    by_cases haddr : addr = entry.addr
    · subst haddr
      rw [publish_rows_self, publish_history_self]
      exact h.publish_tuple hat hslot hslot'
    · rw [publish_rows_of_ne sys _ haddr, publish_history_of_ne sys _ haddr]
      exact h.tuples addr
  · exact h.addr_ne_of_insert hother hat hused htype
  · -- The other thread would have the latch of the page too.
    have hlatch : sys.latches used.addr.pageAddr = some other := hused.latch
    rw [heq] at hlatch
    exact hother (Option.some.inj (hlatch.symm.trans hat.held.latch))
  · rw [setManager_self]
    exact ManagerInv.setManager (ManagerInv.publish (hthr.tail hstage) _
      (fun used hused htype => hrest used hused (isWrite_iff.mpr (.inr htype)))
      fun used hused hwrite _ => hrest used hused hwrite) _ _
  · rw [setManager_self]
    exact fun other hother htype => .inl (hinss other hother htype)

theorem Inv.finish (hstep : sys.finish thread = some after) : Inv setting after := by
  obtain ⟨commitTs, hstage, rfl⟩ := finish_cases hstep
  have hfloored := (h.managers thread).floored
  rw [Manager.Floored, hstage] at hfloored
  exact h.clearStates ((Quiet.refl sys thread).unlockAll.record _) hfloored.2 (sys.managers thread)

end Commit

/-! ### Runs -/

section Runs

variable {setting : Setting} {sys after : System} {action : Action}

def AccessesOnce (sys : System) : Action → Prop
  | .select thread addr _ _ => addr ∉ (sys.managers thread).accessList.map LocalAccess.addr
  | _ => True

/-- A read-write access is the first access of its transaction to the tuple. -/
def WritesFirstStep (sys : System) : Action → Prop
  | .select thread addr accessType _ => accessType = .readWrite →
      addr ∉ (sys.managers thread).accessList.map LocalAccess.addr
  | _ => True

theorem AccessesOnce.writesFirst (h : AccessesOnce sys action) : WritesFirstStep sys action := by
  cases action with
  | select thread addr accessType stray => exact fun _ => h
  | _ => trivial

def OrderlyStep (setting : Setting) (sys : System) (action : Action) : Prop :=
  AccessesOnce sys action ∧ NoWrap setting sys action

theorem Inv.initial (h : sys.Initial setting) : Inv setting sys where
  clocks := fun node => (h.clocks node).1
  tuples := fun addr => by
    rcases h.loaded addr with ⟨hrow, hhist⟩ | ⟨row, hrow, hhist, hprev, hsmall⟩
    · rw [hrow, hhist]
      exact TupleInv.empty fun new hnew => by cases hnew
    · rw [hrow, hhist]
      exact @TupleInv.singleton setting addr ⟨row, none⟩ hsmall hprev
  managers := fun thread => by
    rw [h.managers thread]
    exact ManagerInv.idle (by decide) .start
  alone := fun first _ _ entry hmem => by
    rw [h.managers first] at hmem
    exact absurd hmem not_mem_nil

theorem Inv.getSnapshot (h : Inv setting sys) {thread : Nat}
    (hstep : mvoccStep setting sys (.getSnapshot thread) = some after) : Inv setting after := by
  obtain ⟨-, -, rfl⟩ := getSnapshot_cases hstep
  exact h.setManager ((h.managers thread).congr rfl rfl rfl rfl)
    fun entry hmem htype => ⟨entry, hmem, htype, rfl⟩

theorem Inv.of_step (h : Inv setting sys) (hfirst : WritesFirstStep sys action)
    (hnowrap : NoWrap setting sys action)
    (hstep : mvoccStep setting sys action = some after) : Inv setting after := by
  cases action with
  | getSnapshot thread => exact h.getSnapshot hstep
  | select thread addr accessType stray => exact h.select hfirst hstep
  | setColumn thread index colId data => exact h.modify changeColumn_copy hstep
  | setVisible thread index visible => exact h.modify changeVisible_copy hstep
  | allocateNewRecord thread addr => exact h.allocateNewRecord hstep
  | beginCommit thread => exact h.beginCommit hstep
  | validateNext thread => exact h.validateNext hstep
  | ensureFloor thread => exact h.ensureFloor hstep
  | fetchAdd thread => exact h.fetchAdd hnowrap hstep
  | writeNext thread slot => exact h.writeNext hstep
  | finish thread => exact h.finish hstep
  | abort thread =>
    obtain ⟨-, rfl⟩ := abort_cases hstep
    exact h.abortTransaction (.refl sys thread) (h.managers thread).seen
  | syncSnapshot node forcedTsNext =>
    cases hstep
    have hquiet := (Quiet.refl sys 0).raiseClock
      (Nat.le_max_left (sys.clocks node) (forcedTsNext % 2 ^ 64))
    exact h.quiet hquiet ((h.managers 0).quiet hquiet fun _ => id)
      fun entry hmem htype => ⟨entry, hmem, htype, rfl⟩
  | collect deltaGaddr =>
    cases hstep
    have hquiet : Quiet sys { sys with deltas := Function.update sys.deltas deltaGaddr none } 0 :=
      ⟨rfl, rfl, fun _ _ => rfl, fun _ => Nat.le_refl _, fun _ _ _ hlatch => hlatch⟩
    exact h.quiet hquiet ((h.managers 0).quiet hquiet fun _ => id)
      fun entry hmem htype => ⟨entry, hmem, htype, rfl⟩

abbrev OrderlyRun (setting : Setting) : System → Prop :=
  TransitionSystem.Reachable (mvoccStep setting) (OrderlyStep setting) (System.Initial setting)

theorem OrderlyRun.inv (h : OrderlyRun setting sys) : Inv setting sys :=
  TransitionSystem.Reachable.invariant (fun _ => Inv.initial)
    (fun _ _ _ hinv hord hstep => hinv.of_step hord.1.writesFirst hord.2 hstep) h

end Runs

end MemoryEngine.Txn
