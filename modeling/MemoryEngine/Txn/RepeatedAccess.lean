import MemoryEngine.Txn.VersionOrder

/-! Transactions that access a tuple several times.

`sorted_access` keeps the first access to a tuple, and the write loop runs over all of
them.  So a later read-write access is never validated, and its local record, which has
none of the changes made through the first one, is written over them.  Where each
read-write access is the first one to its tuple, a commit leaves the changes of the
transaction in program order.

The program and the comparisons of the validate loop are recorded beside the system. -/
namespace MemoryEngine.Txn

open ByteMemory Storage List Function Option

/-! ### Changes -/

inductive Change where
  | column (colId : Nat) (data : List UInt8)
  | visible (isVisible : Bool)
  deriving DecidableEq, Repr

def Change.apply (schema : RecordSchema) (record : Storage.Record) : Change → Storage.Record
  | .column colId data => record.setColumn schema colId data
  | .visible isVisible => record.putMeta schema
      { record.getMeta schema with isVisible := if isVisible then 1 else 0 }

def applyChanges (schema : RecordSchema) (record : Storage.Record) (changes : List Change) :
    Storage.Record :=
  changes.foldl (Change.apply schema) record

def changesOf (addr : TupleAddr) (program : List (TupleAddr × Change)) : List Change :=
  (program.filter fun item => decide (item.1 = addr)).map Prod.snd

/-- The same columns and visibility: timestamps and the way to older versions are not
content. -/
structure SameContent (schema : RecordSchema) (first second : Memory) : Prop where
  columns : AgreeOn first second 0 schema.metaOffset
  visible : (MetaColumn.load first schema.metaOffset).isVisible =
    (MetaColumn.load second schema.metaOffset).isVisible

variable {addr : TupleAddr} {entry : LocalAccess} {rest : List LocalAccess} {commitTs : Nat}

variable {program : List (TupleAddr × Change)}

section Changes

variable {schema : RecordSchema}

theorem SameContent.refl (row : Memory) : SameContent schema row row := ⟨fun _ _ _ => rfl, rfl⟩

theorem changesOf_append (addr : TupleAddr) (first second : List (TupleAddr × Change)) :
    changesOf addr (first ++ second) = changesOf addr first ++ changesOf addr second := by
  simp only [changesOf, filter_append, map_append]

theorem changesOf_self (addr : TupleAddr) (change : Change) :
    changesOf addr [(addr, change)] = [change] := by
  simp [changesOf]

theorem changesOf_of_ne {other : TupleAddr} (h : other ≠ addr) (change : Change) :
    changesOf addr [(other, change)] = [] := by
  simp [changesOf, h]

theorem changesOf_eq_nil
    (h : ∀ item ∈ program, item.1 ≠ addr) : changesOf addr program = [] := by
  rw [changesOf, map_eq_nil_iff, filter_eq_nil_iff]
  intro item hmem
  simpa using h item hmem

theorem sameContent_updated {access : Access} (hmeta : access.schema.MetaLast) (commitTs : Nat)
    (slot : DeltaSlot) :
    SameContent access.schema (updated commitTs access slot).tuple.data access.tuple.data where
  columns := agreeOn_write _ (.inr (Nat.le_of_eq (Nat.zero_add _)))
  visible := by
    have hcol := getMeta_putMeta hmeta { access.tuple with dirtyColIds := [] }
      { Storage.Record.getMeta access.schema { access.tuple with dirtyColIds := [] } with
        prevVersion := slot.deltaGaddr
        prevDeltaEpoch := slot.epoch
        prevDeltaDataSize := access.tuple.estimateDeltaSize access.schema
        wts := commitTs }
    have hvis := congrArg MetaColumn.isVisible hcol
    exact hvis

end Changes

/-! ### Programs -/

/-- The system, with the changes that each transaction has made in program order and the
accesses that its validate loop has compared. -/
structure Traced where
  sys : System
  program : Nat → List (TupleAddr × Change)
  checked : Nat → List LocalAccess

def Action.changes (sys : System) : Action → List (TupleAddr × Change)
  | .setColumn thread index colId data =>
      (sys.managers thread).accessList[index]?.toList.map fun entry =>
        (entry.addr, .column colId data)
  | .setVisible thread index visible =>
      (sys.managers thread).accessList[index]?.toList.map fun entry =>
        (entry.addr, .visible visible)
  | _ => []

def LocalAccess.validated (setting : Setting) (entry : LocalAccess) : Bool :=
  entry.access.accessType.isWrite || (setting.serializable && entry.access.accessType.isRead)

def Action.compares (setting : Setting) (sys : System) : Action → List LocalAccess
  | .validateNext thread =>
      match (sys.managers thread).stage with
      | .validate (entry :: _) => if entry.validated setting then [entry] else []
      | _ => []
  | _ => []

/-- A step with its record.  A thread without accesses has no transaction. -/
def tracedStep (setting : Setting) (traced : Traced) (action : Action) : Option Traced :=
  (mvoccStep setting traced.sys action).map fun sys =>
    let thread := action.thread
    if (sys.managers thread).accessList.isEmpty then
      { sys := sys
        program := update traced.program thread []
        checked := update traced.checked thread [] }
    else
      { sys := sys
        program := update traced.program thread
          (traced.program thread ++ action.changes traced.sys)
        checked := update traced.checked thread
          (traced.checked thread ++ action.compares setting traced.sys) }

structure Traced.Initial (setting : Setting) (traced : Traced) : Prop where
  sys : traced.sys.Initial setting
  program : ∀ thread, traced.program thread = []
  checked : ∀ thread, traced.checked thread = []

/-- What a commit should leave in the tuples that were selected and changed: the version
before the commit with the changes of the program. -/
def LeavesEffect (setting : Setting) (traced : Traced) (thread commitTs : Nat) : Prop :=
  ∀ entry ∈ (traced.sys.managers thread).accessList, entry.access.accessType ≠ .insertOnly →
    changesOf entry.addr (traced.program thread) ≠ [] →
      ∃ row old, traced.sys.rows entry.addr = some row ∧
        IsVersionAt setting traced.sys entry.addr (commitTs - 1) (some old) ∧
        SameContent (setting.schema entry.addr) row (applyChanges (setting.schema entry.addr)
          ⟨old, []⟩ (changesOf entry.addr (traced.program thread))).data

section Invariant

variable (setting : Setting) (sys : System) (thread : Nat)

/-- A tuple that was passed by the write loop: it has the content of the local record, and
the version before is the one that was copied. -/
def Settled (commitTs : Nat) (entry : LocalAccess) : Prop :=
  ∃ row, sys.rows entry.addr = some row ∧
    SameContent entry.access.schema row entry.access.tuple.data ∧
    IsVersionAt setting sys entry.addr (commitTs - 1) (some entry.base)

def Compared (manager : Manager) (checked : List LocalAccess) : Prop :=
  ∀ entry ∈ manager.accessList, entry.isWrite →
    match manager.stage with
    | .execute => True
    | .validate pending => entry ∈ pending ∨ entry ∈ checked
    | _ => entry ∈ checked

structure ProgramInv (manager : Manager) (program : List (TupleAddr × Change))
    (checked : List LocalAccess) : Prop where
  known : ∀ item ∈ program, ∃ entry ∈ manager.accessList, entry.isWrite ∧ entry.addr = item.1
  schema : ∀ entry ∈ manager.accessList, entry.isWrite →
    entry.access.schema = setting.schema entry.addr
  /-- A local record is the row that was copied, with the changes to the tuple. -/
  content : ∀ entry ∈ manager.accessList, entry.isWrite → entry.access.tuple =
    applyChanges entry.access.schema ⟨entry.base, []⟩ (changesOf entry.addr program)
  first : WritesFirst manager.accessList
  apart : ∀ entry ∈ manager.accessList, entry.access.accessType = .insertOnly →
    ∀ other ∈ manager.accessList, other.access.accessType ≠ .insertOnly → other.addr ≠ entry.addr
  compared : Compared manager checked
  pending : ∀ commitTs pending, manager.stage = .write commitTs pending →
    pending ⊆ manager.accessList
  settled : ∀ commitTs pending, manager.stage = .write commitTs pending →
    ∀ entry ∈ manager.accessList, entry.access.accessType = .readWrite →
      sys.latches entry.access.pageAddr = some thread ∧
        (entry ∈ pending ∨ Settled setting sys commitTs entry)

end Invariant

def Manager.Ended (manager : Manager) : Prop :=
  manager.accessList = [] ∧ manager.stage = .execute

section Transfer

variable {setting : Setting} {sys after : System} {thread : Nat} {manager : Manager}
  {program : List (TupleAddr × Change)} {checked : List LocalAccess}

theorem ProgramInv.clear (h : ProgramInv setting sys thread manager program checked)
    (hnil : manager.accessList = []) : ProgramInv setting sys thread manager [] [] where
  __ := h
  known := fun _ hmem => absurd hmem not_mem_nil
  content := fun entry hmem => by
    rw [hnil] at hmem
    cases hmem
  compared := fun entry hmem => by
    rw [hnil] at hmem
    cases hmem

theorem ProgramInv.ended (h : manager.Ended) : ProgramInv setting sys thread manager [] [] where
  known := fun _ hmem => absurd hmem not_mem_nil
  schema := fun _ hmem => by
    rw [h.1] at hmem
    cases hmem
  content := fun _ hmem => by
    rw [h.1] at hmem
    cases hmem
  first := h.1 ▸ List.Pairwise.nil
  apart := fun _ hmem => by
    rw [h.1] at hmem
    cases hmem
  compared := fun _ hmem => by
    rw [h.1] at hmem
    cases hmem
  pending := fun _ _ hwrite => by cases h.2.symm.trans hwrite
  settled := fun _ _ hwrite => by cases h.2.symm.trans hwrite

theorem ProgramInv.transfer (h : ProgramInv setting sys thread manager program checked)
    (hlats : ∀ page, sys.latches page = some thread → after.latches page = some thread)
    (hsame : ∀ addr, sys.latches addr.pageAddr = some thread → sys.rows addr ≠ none →
      after.rows addr = sys.rows addr ∧ after.history addr = sys.history addr) :
    ProgramInv setting after thread manager program checked where
  __ := h
  settled := fun commitTs pending hstage entry hmem htype => by
    obtain ⟨hlatch, hpend | ⟨row, hrow, hcont, hold⟩⟩ :=
      h.settled commitTs pending hstage entry hmem htype
    · exact ⟨hlats _ hlatch, .inl hpend⟩
    · obtain ⟨hrows, hhist⟩ := hsame entry.addr hlatch (hrow ▸ some_ne_none row)
      refine ⟨hlats _ hlatch, .inr ⟨row, hrows.trans hrow, hcont, ?_⟩⟩
      simp only [IsVersionAt, hhist]
      exact hold

theorem ProgramInv.execute (hmgr : ManagerInv setting sys thread manager)
    (hstage : manager.stage = .execute)
    (hknown : ∀ item ∈ program, ∃ entry ∈ manager.accessList, entry.isWrite ∧ entry.addr = item.1)
    (hcont : ∀ entry ∈ manager.accessList, entry.isWrite → entry.access.tuple =
      applyChanges entry.access.schema ⟨entry.base, []⟩ (changesOf entry.addr program)) :
    ProgramInv setting sys thread manager program checked := by
  have hlive := live_of_execute hstage
  refine ⟨hknown, fun entry hmem hwrite => ?_, hcont, hlive ▸ hmgr.first,
    fun entry hmem htype other hother hne heq => ?_, fun entry hmem hwrite => ?_,
    fun commitTs pending hwrite => ?_, fun commitTs pending hwrite => ?_⟩
  · exact (hmgr.entries entry (hlive ▸ hmem) hwrite).schema
  · have hfresh := ((hmgr.entries entry (hlive ▸ hmem)
      (isWrite_iff.mpr (.inr htype))).insert htype).1
    exact hmgr.published other (hlive ▸ hother) hne (heq ▸ hfresh)
  · rw [hstage]
    trivial
  · cases hstage.symm.trans hwrite
  · cases hstage.symm.trans hwrite

theorem ProgramInv.enter (h : ProgramInv setting sys thread manager program checked) {stage : Stage}
    {compared : List LocalAccess} (hcomp : Compared (manager.enter stage) compared)
    (hpend : ∀ commitTs pending, stage = .write commitTs pending → pending ⊆ manager.accessList)
    (hsettled : ∀ commitTs pending, stage = .write commitTs pending → ∀ entry ∈ manager.accessList,
      entry.access.accessType = .readWrite → sys.latches entry.access.pageAddr = some thread ∧
      (entry ∈ pending ∨ Settled setting sys commitTs entry)) :
    ProgramInv setting sys thread (manager.enter stage) program compared :=
  ⟨h.known, h.schema, h.content, h.first, h.apart, hcomp, hpend, hsettled⟩

theorem WritesFirst.eq_of_addr {accesses : List LocalAccess} (h : WritesFirst accesses)
    {first second : LocalAccess} (hfirst : first ∈ accesses) (hsnd : second ∈ accesses)
    (hwrite : first.isWrite) (hwrite' : second.isWrite) (haddr : first.addr = second.addr) :
    first = second := by
  by_contra hne
  induction accesses with
  | nil => cases hfirst
  | cons head tail ih =>
    rcases mem_cons.mp hfirst with rfl | hin
    · rcases mem_cons.mp hsnd with rfl | hin
      · exact hne rfl
      · exact rel_of_pairwise_cons h hin hwrite' haddr
    · rcases mem_cons.mp hsnd with rfl | hin'
      · exact rel_of_pairwise_cons h hin hwrite haddr.symm
      · exact ih (List.Pairwise.of_cons h) hin hin'

end Transfer

/-! ### Steps of a thread -/

section Steps

variable {setting : Setting} {sys after : System} {thread : Nat}
  {program : List (TupleAddr × Change)} {checked : List LocalAccess}

theorem abortTransaction_ended (setting : Setting) (sys : System) (thread : Nat)
    (manager : Manager) :
    ((sys.abortTransaction setting thread manager).managers thread).Ended := by
  rw [System.abortTransaction, setManager_self]
  exact ⟨rfl, rfl⟩

section

variable (h : ProgramInv setting sys thread (sys.managers thread) program checked)
include h

theorem ProgramInv.append {manager : Manager}
    (hmgr : ManagerInv setting after thread manager) (hstage : manager.stage = .execute)
    (hlist : manager.accessList = (sys.managers thread).accessList ++ [entry])
    (hunchanged : entry.isWrite → ∀ item ∈ program, item.1 ≠ entry.addr)
    (hcopy : entry.isWrite → entry.access.tuple = ⟨entry.base, []⟩) :
    ProgramInv setting after thread manager program checked := by
  refine .execute hmgr hstage (fun item hitem => ?_) fun other hother hwrite => ?_
  · obtain ⟨known, hmem, hknown⟩ := h.known item hitem
    exact ⟨known, hlist ▸ mem_append_left _ hmem, hknown⟩
  · rw [hlist, mem_append, mem_singleton] at hother
    rcases hother with hold | rfl
    · exact h.content other hold hwrite
    · rw [hcopy hwrite, changesOf_eq_nil (hunchanged hwrite)]
      rfl

theorem ProgramInv.select (hafter : Inv setting after) {accessType : AccessType} {stray : Memory}
    (hfirst : accessType = .readWrite →
      addr ∉ (sys.managers thread).accessList.map LocalAccess.addr)
    (hstep : selectRecordCC setting sys thread addr accessType stray = some after) :
    (after.managers thread).Ended ∨
      ProgramInv setting after thread (after.managers thread) program checked := by
  have hmgr := hafter.managers thread
  obtain ⟨snapshotTs, row, hsel, ⟨manager, -, rfl⟩ | ⟨manager, result, hacc, rfl, hwrite, -⟩⟩ :=
    selectRecordCC_cases hstep
  · exact .inl (abortTransaction_ended setting sys thread manager)
  refine .inr ?_
  rw [setManager_self] at hmgr ⊢
  have hstage : (manager.addAccess setting addr accessType result).stage = .execute :=
    hacc.stage.trans hsel.stage
  cases result with
  | none =>
    have hkept : (manager.addAccess setting addr accessType none).accessList =
        (sys.managers thread).accessList := hacc.accessList
    refine .execute hmgr hstage ?_ ?_
    · rw [hkept]
      exact h.known
    · rw [hkept]
      exact h.content
  | some found =>
    refine h.append hmgr hstage (by
      simp only [Manager.addAccess]
      rw [hacc.accessList]) (fun hentry => ?_) fun hentry => ?_
    · have htype : accessType = .readWrite :=
        (isWrite_iff.mp hentry).resolve_right hsel.accessType
      intro item hitem heq
      obtain ⟨known, hmem, -, hknown⟩ := h.known item hitem
      have haddr : known.addr = addr := hknown.trans heq
      exact hfirst htype (haddr ▸ mem_map_of_mem hmem)
    · have htype : accessType = .readWrite :=
        (isWrite_iff.mp hentry).resolve_right hsel.accessType
      subst htype
      rfl

theorem ProgramInv.allocateNewRecord (hinv : Inv setting sys) (hafter : Inv setting after)
    (hstep : sys.allocateNewRecord setting thread addr = some after) :
    ProgramInv setting after thread (after.managers thread) program checked := by
  have hmgr := hafter.managers thread
  obtain ⟨hstage, hrow, rfl⟩ := allocateNewRecord_cases hstep
  rw [setManager_self] at hmgr ⊢
  refine h.append hmgr hstage rfl (fun _ item hitem heq => ?_) fun _ => rfl
  obtain ⟨known, hmem, -, hknown⟩ := h.known item hitem
  refine hinv.row_ne_none thread (live_of_execute hstage ▸ hmem) ?_
  rw [hknown, heq]
  exact hrow

theorem ProgramInv.modify (hafter : Inv setting after) {index : Nat}
    {change : LocalAccess → Option Storage.Record} {made : Change}
    (hentry : (sys.managers thread).accessList[index]? = some entry) (hwrite : entry.isWrite)
    (hchg : ∀ tuple, change entry = some tuple → tuple = made.apply entry.access.schema
      entry.access.tuple)
    (hstep : sys.modify thread index change = some after) :
    ProgramInv setting after thread (after.managers thread) (program ++ [(entry.addr, made)])
      checked := by
  have hmgr := hafter.managers thread
  obtain ⟨entry', tuple, hstage, hentry', htuple, rfl⟩ := modify_cases hstep
  obtain rfl : entry = entry' := Option.some.inj (hentry.symm.trans hentry')
  obtain rfl := hchg tuple htuple
  rw [setManager_self] at hmgr ⊢
  have hmem := List.mem_of_getElem? hentry
  have hset : entry.withTuple (made.apply entry.access.schema entry.access.tuple) ∈
      (sys.managers thread).accessList.set index
        (entry.withTuple (made.apply entry.access.schema entry.access.tuple)) :=
    List.mem_set (List.getElem?_eq_some_iff.mp hentry).1 _
  have hlist := WritesFirst.set h.first hentry (made.apply entry.access.schema entry.access.tuple)
  refine .execute hmgr hstage (fun item hitem => ?_) fun other hother hother' => ?_
  · rw [List.mem_append, List.mem_singleton] at hitem
    rcases hitem with hitem | rfl
    · obtain ⟨known, hin, hknown, haddr⟩ := h.known item hitem
      by_cases hsame : known = entry
      · subst hsame
        exact ⟨_, hset, hwrite, haddr⟩
      · obtain ⟨position, hposn⟩ := List.mem_iff_getElem?.mp hin
        refine ⟨known, List.mem_iff_getElem?.mpr ⟨position, ?_⟩, hknown, haddr⟩
        have hne : index ≠ position := fun heq =>
          hsame (Option.some.inj (hposn.symm.trans (heq ▸ hentry)))
        exact (List.getElem?_set_ne hne).trans hposn
    · exact ⟨_, hset, hwrite, rfl⟩
  · rw [changesOf_append]
    by_cases haddr : other.addr = entry.addr
    · -- The changed access is the only one to its tuple that may be written.
      obtain rfl := hlist.eq_of_addr hother hset hother' hwrite haddr
      have hself : changesOf entry.addr [(entry.addr, made)] = [made] := changesOf_self _ _
      have hcont := h.content entry hmem hwrite
      rw [show (entry.withTuple (made.apply entry.access.schema entry.access.tuple)).addr =
        entry.addr from rfl, hself, applyChanges, List.foldl_append]
      exact congrArg (fun record => made.apply entry.access.schema record) hcont
    · rw [changesOf_of_ne (Ne.symm haddr), List.append_nil]
      rcases List.mem_or_eq_of_mem_set hother with hold | rfl
      · exact h.content other hold hother'
      · exact absurd rfl haddr

theorem ProgramInv.beginCommit (hstep : sys.beginCommit thread = some after) :
    (after.managers thread).Ended ∨
      ProgramInv setting after thread (after.managers thread) program checked := by
  obtain ⟨-, rfl | rfl⟩ := beginCommit_cases hstep
  · rw [setManager_self]
    exact .inl ⟨rfl, rfl⟩
  · refine .inr ?_
    rw [setManager_self]
    refine ProgramInv.transfer (h.enter (fun entry hmem hwrite => ?_) nofun nofun) (fun _ => id)
      fun _ _ _ => ⟨rfl, rfl⟩
    exact .inl (mem_sortedAccess h.first hmem hwrite)

end

theorem Compared.tail {manager : Manager} (hstage : manager.stage = .validate (entry :: rest))
    (h : Compared manager checked) {more : List LocalAccess}
    (hmore : entry.isWrite → entry ∈ more) :
    Compared (manager.enter (.validate rest)) (checked ++ more) := by
  intro other hmem hwrite
  have hpre := h other hmem hwrite
  rw [hstage] at hpre
  rcases hpre with hpend | hchk
  · rcases mem_cons.mp hpend with rfl | hrest
    · exact .inr (mem_append_right _ (hmore hwrite))
    · exact .inl hrest
  · exact .inr (mem_append_left _ hchk)

section

variable (h : ProgramInv setting sys thread (sys.managers thread) program checked)
include h

theorem ProgramInv.validateNext (hstep : sys.validateNext setting thread = some after) :
    (after.managers thread).Ended ∨
      ProgramInv setting after thread (after.managers thread) program
        (checked ++ Action.compares setting sys (.validateNext thread)) := by
  obtain ⟨entry, rest, hstage, hcases⟩ := validateNext_cases hstep
  have hcompares : Action.compares setting sys (.validateNext thread) =
      if entry.validated setting then [entry] else [] := by
    rw [Action.compares, hstage]
  have hmore : entry.isWrite → entry ∈ Action.compares setting sys (.validateNext thread) :=
    fun hwrite => by
      have hval : entry.validated setting = true := by
        rw [LocalAccess.validated, show entry.access.accessType.isWrite = true from hwrite]
        rfl
      rw [hcompares, if_pos hval]
      exact mem_singleton_self _
  have hentered : ProgramInv setting sys thread
      ((sys.managers thread).enter (.validate rest)) program
      (checked ++ Action.compares setting sys (.validateNext thread)) :=
    h.enter (h.compared.tail hstage hmore) nofun nofun
  rcases hcases with ⟨-, rfl⟩ | ⟨row, hfree, -, ⟨-, rfl⟩ | ⟨-, rfl⟩⟩
  · refine .inr ?_
    rw [setManager_self]
    exact hentered.transfer (fun _ => id) fun _ _ _ => ⟨rfl, rfl⟩
  · exact .inl (abortTransaction_ended setting _ thread _)
  · have hquiet := (Quiet.refl sys thread).latchPage hfree
    refine .inr ?_
    rw [setManager_self]
    exact hentered.transfer (fun _ hlatch => latchPage_own _ hlatch)
      fun addr _ _ => ⟨congrFun hquiet.rows addr, congrFun hquiet.history addr⟩

theorem ProgramInv.ensureFloor (hstep : sys.ensureFloor setting thread = some after) :
    ProgramInv setting after thread (after.managers thread) program checked := by
  obtain ⟨hstage, rfl⟩ := ensureFloor_cases hstep
  have hquiet := (Quiet.refl sys thread).ensureCommitFloor setting (sys.managers thread).maxSeenTs
  rw [setManager_self]
  refine ProgramInv.transfer (h.enter (fun entry hmem hwrite => ?_) nofun nofun)
    (fun page hlatch => ?_)
    fun addr _ _ => ⟨congrFun hquiet.rows addr, congrFun hquiet.history addr⟩
  · have hcomp := h.compared entry hmem hwrite
    rw [hstage] at hcomp
    exact hcomp.resolve_left not_mem_nil
  · exact (congrFun (ensureCommitFloor_latches setting sys thread _) page).trans hlatch

theorem ProgramInv.fetchAdd
    (hinv : Inv setting sys) (hstep : sys.fetchAdd setting thread = some after) :
    ProgramInv setting after thread (after.managers thread) program checked := by
  obtain ⟨hstage, rfl⟩ := fetchAdd_cases hstep
  rw [setManager_self]
  refine ProgramInv.transfer (h.enter (fun entry hmem hwrite => ?_)
    (fun commitTs pending hwrite => ?_) fun commitTs pending hwrite entry hmem htype => ?_)
    (fun _ => id) fun _ _ _ => ⟨rfl, rfl⟩
  · have hcomp := h.compared entry hmem hwrite
    rw [hstage] at hcomp
    exact hcomp
  · cases hwrite
    exact List.Subset.refl _
  · cases hwrite
    have hheld := (hinv.managers thread).held entry (by rwa [Manager.Checked, hstage])
      (isWrite_iff.mpr (.inl htype))
    exact ⟨hheld.latch, .inl hmem⟩

end

theorem Inv.isVersionAt_base (hinv : Inv setting sys)
    (hstage : (sys.managers thread).stage = .write commitTs (entry :: rest))
    (htype : entry.access.accessType = .readWrite) :
    IsVersionAt setting sys entry.addr (commitTs - 1) (some entry.base) := by
  obtain ⟨hrow, hlt⟩ := hinv.base_of_writeNext hstage htype
  have hentry := (hinv.atWrite hstage (isWrite_iff.mpr (.inl htype))).inv
  refine ⟨(hentry.update htype).1, by omega, fun version hver _ => ?_⟩
  by_contra hgt
  have heq := (hinv.tuples entry.addr).eq_of_le hver hrow (by omega)
  exact hgt (Nat.le_of_eq (congrArg _ heq.symm))

theorem LocalCopy.eq_base {schema : RecordSchema} {base : Memory} {tuple : Storage.Record}
    (h : LocalCopy schema base tuple) (hclean : tuple.dirtyColIds = []) : tuple.data = base := by
  funext offset
  refine h.outside offset ?_
  rintro ⟨colId, hmem, -⟩
  rw [hclean] at hmem
  cases hmem

theorem Inv.settled_of_not_writes (hinv : Inv setting sys)
    (hstage : (sys.managers thread).stage = .write commitTs (entry :: rest))
    (htype : entry.access.accessType = .readWrite) (hnone : entry.writes = false) :
    Settled setting sys commitTs entry := by
  have hat := hinv.atWrite hstage (isWrite_iff.mpr (.inl htype))
  have hclean : entry.access.tuple.dirtyColIds = [] := by
    simp only [LocalAccess.writes, htype] at hnone
    simpa using hnone
  refine ⟨entry.base, hat.held.row, ?_, hinv.isVersionAt_base hstage htype⟩
  rw [hat.inv.copy.eq_base hclean]
  exact .refl _

theorem Inv.settled_of_writes (hinv : Inv setting sys)
    (hstage : (sys.managers thread).stage = .write commitTs (entry :: rest))
    (htype : entry.access.accessType = .readWrite) {slot : DeltaSlot}
    (hslot : slot.deltaGaddr < 2 ^ 64) (row : Memory) :
    Settled setting (sys.publish entry.addr (writtenVersion commitTs entry slot row)) commitTs
      entry := by
  have hat := hinv.atWrite hstage (isWrite_iff.mpr (.inl htype))
  have hwts := hat.wts hslot row
  have hrow : (writtenVersion commitTs entry slot row).row =
      (updated commitTs entry.access slot).tuple.data := by
    rw [writtenVersion, htype]
  refine ⟨_, publish_rows_self sys _, hrow ▸ sameContent_updated hat.inv.metaLast commitTs slot,
    ?_⟩
  obtain ⟨⟨version, hver, hbase⟩, hle, hgreat⟩ := hinv.isVersionAt_base hstage htype
  simp only [IsVersionAt, publish_history_self]
  refine ⟨⟨version, mem_cons_of_mem _ hver, hbase⟩, hle, fun other hother hother' => ?_⟩
  rcases mem_cons.mp hother with rfl | hold
  · omega
  · exact hgreat other hold hother'

theorem Settled.publish_of_ne (h : Settled setting sys commitTs entry) (hne : entry.addr ≠ addr)
    (version : Version) : Settled setting (sys.publish addr version) commitTs entry := by
  obtain ⟨row, hrow, hcont, hold⟩ := h
  refine ⟨row, (publish_rows_of_ne sys version hne).trans hrow, hcont, ?_⟩
  simp only [IsVersionAt, publish_history_of_ne sys version hne]
  exact hold

theorem ProgramInv.writeNext
    (h : ProgramInv setting sys thread (sys.managers thread) program checked)
    (hinv : Inv setting sys) {slot : DeltaSlot} (hstep : sys.writeNext thread slot = some after) :
    ProgramInv setting after thread (after.managers thread) program checked := by
  obtain ⟨commitTs, entry, rest, hstage, hcases⟩ := writeNext_cases hstep
  have hcomp : Compared ((sys.managers thread).enter (.write commitTs rest)) checked := by
    intro other hmem hwrite
    have hpre := h.compared other hmem hwrite
    rw [hstage] at hpre
    exact hpre
  have hpend := h.pending commitTs (entry :: rest) hstage
  have hrest : ∀ ts pending, Stage.write commitTs rest = .write ts pending →
      pending ⊆ (sys.managers thread).accessList := by
    rintro ts pending ⟨⟩
    exact List.Subset.trans (subset_cons_self _ _) hpend
  have hsettled := h.settled commitTs (entry :: rest) hstage
  rcases hcases with ⟨hnone, rfl⟩ | ⟨row, hwrites, -, -, hslot, -, rfl⟩
  · rw [setManager_self]
    refine ProgramInv.transfer (h.enter hcomp hrest fun ts pending heq other hmem htype => ?_)
      (fun _ => id) fun _ _ _ => ⟨rfl, rfl⟩
    cases heq
    obtain ⟨hheld, hin | hdone⟩ := hsettled other hmem htype
    · rcases mem_cons.mp hin with rfl | hin
      · exact ⟨hheld, .inr (hinv.settled_of_not_writes hstage htype hnone)⟩
      · exact ⟨hheld, .inl hin⟩
    · exact ⟨hheld, .inr hdone⟩
  · rw [setManager_self]
    refine ⟨h.known, h.schema, h.content, h.first, h.apart, hcomp, hrest, ?_⟩
    intro ts pending heq other hmem htype
    cases heq
    obtain ⟨hheld, hin | hdone⟩ := hsettled other hmem htype
    · rcases mem_cons.mp hin with rfl | hin
      · exact ⟨hheld, .inr (hinv.settled_of_writes hstage htype hslot row)⟩
      · exact ⟨hheld, .inl hin⟩
    · by_cases haddr : other.addr = entry.addr
      · obtain rfl := h.first.eq_of_addr hmem (hpend mem_cons_self)
          (isWrite_iff.mpr (.inl htype)) (writes_isWrite hwrites) haddr
        exact ⟨hheld, .inr (hinv.settled_of_writes hstage htype hslot row)⟩
      · exact ⟨hheld, .inr (hdone.publish_of_ne haddr _)⟩

end Steps

/-! ### Runs -/

section Runs

variable {setting : Setting} {traced after : Traced} {action : Action}

def ChangesWrites (sys : System) : Action → Prop
  | .setColumn thread index _ _ => ∀ entry ∈ (sys.managers thread).accessList[index]?, entry.isWrite
  | .setVisible thread index _ => ∀ entry ∈ (sys.managers thread).accessList[index]?, entry.isWrite
  | _ => True

/-- A read-write access is the first one to its tuple, and the changes are made through
read-write accesses. -/
def OrderedStep (setting : Setting) (traced : Traced) (action : Action) : Prop :=
  WritesFirstStep traced.sys action ∧ NoWrap setting traced.sys action ∧
    ChangesWrites traced.sys action

structure TracedInv (setting : Setting) (traced : Traced) : Prop where
  inv : Inv setting traced.sys
  programs : ∀ thread, ProgramInv setting traced.sys thread (traced.sys.managers thread)
    (traced.program thread) (traced.checked thread)

theorem TracedInv.initial (h : traced.Initial setting) : TracedInv setting traced where
  inv := Inv.initial h.sys
  programs := fun thread => by
    rw [h.sys.managers thread, h.program thread, h.checked thread]
    exact .ended ⟨rfl, rfl⟩

theorem ProgramInv.of_other {sys next : System} {thread : Nat}
    {checked : List LocalAccess}
    (h : ProgramInv setting sys thread (sys.managers thread) program checked)
    (hnowrap : NoWrap setting sys action) (hstep : mvoccStep setting sys action = some next)
    (hother : thread ≠ action.thread) :
    ProgramInv setting next thread (next.managers thread) program checked := by
  rw [managers_step hstep hnowrap hother]
  by_cases halloc : ∃ thread addr, action = .allocateNewRecord thread addr
  · obtain ⟨thread, addr, rfl⟩ := halloc
    obtain ⟨-, hnone, rfl⟩ := allocateNewRecord_cases hstep
    refine h.transfer (fun _ => id) fun other _ hrow => ⟨update_of_ne ?_ _ _, rfl⟩
    rintro rfl
    exact hrow hnone
  by_cases hwrite : ∃ thread slot, action = .writeNext thread slot
  · obtain ⟨writer, slot, rfl⟩ := hwrite
    obtain ⟨commitTs, entry, rest, -, ⟨-, rfl⟩ | ⟨row, -, hlatch, -, -, -, rfl⟩⟩ :=
      writeNext_cases hstep
    · exact h.transfer (fun _ => id) fun _ _ _ => ⟨rfl, rfl⟩
    · -- The written page is latched by the other thread.
      have hne : ∀ addr : TupleAddr, sys.latches addr.pageAddr = some thread →
        addr ≠ entry.addr := by
        rintro addr hheld rfl
        exact hother (Option.some.inj (hheld.symm.trans hlatch))
      exact h.transfer (fun _ => id) fun addr hheld _ =>
        ⟨publish_rows_of_ne sys _ (hne addr hheld), publish_history_of_ne sys _ (hne addr hheld)⟩
  · push Not at halloc hwrite
    have hquiet := quiet_of_step hstep hnowrap halloc hwrite
    exact h.transfer (fun page => hquiet.latches page thread hother)
      fun addr _ _ => ⟨congrFun hquiet.rows addr, congrFun hquiet.history addr⟩

theorem ProgramInv.of_own {sys next : System}
    {checked : List LocalAccess}
    (h : ProgramInv setting sys action.thread (sys.managers action.thread) program checked)
    (hinv : Inv setting sys) (hafter : Inv setting next) (hfirst : WritesFirstStep sys action)
    (hchgs : ChangesWrites sys action) (hstep : mvoccStep setting sys action = some next) :
    (next.managers action.thread).Ended ∨
      ProgramInv setting next action.thread (next.managers action.thread)
        (program ++ action.changes sys) (checked ++ action.compares setting sys) := by
  cases action <;> simp only [Action.changes, Action.compares, append_nil]
  case getSnapshot thread =>
    have hmgr := hafter.managers thread
    obtain ⟨hstage, -, rfl⟩ := getSnapshot_cases hstep
    simp only [Action.thread, setManager_self] at hmgr ⊢
    exact .inr (.execute hmgr hstage h.known h.content)
  case select thread addr accessType stray =>
    exact h.select hafter hfirst hstep
  case setColumn thread index colId data =>
    obtain ⟨entry, tuple, -, hentry, -, -⟩ := modify_cases hstep
    have hchg : ∀ tuple, changeColumn colId data entry = some tuple →
        tuple = (Change.column colId data).apply entry.access.schema entry.access.tuple := by
      intro tuple htuple
      unfold changeColumn at htuple
      split at htuple
      · exact (Option.some.inj htuple).symm
      · cases htuple
    have hmade := h.modify hafter hentry (hchgs entry hentry) hchg hstep
    simp only [Action.thread, hentry]
    exact .inr hmade
  case setVisible thread index visible =>
    obtain ⟨entry, tuple, -, hentry, -, -⟩ := modify_cases hstep
    have hchg : ∀ tuple, changeVisible visible entry = some tuple →
        tuple = (Change.visible visible).apply entry.access.schema entry.access.tuple :=
      fun tuple htuple => (Option.some.inj htuple).symm
    have hmade := h.modify hafter hentry (hchgs entry hentry) hchg hstep
    simp only [Action.thread, hentry]
    exact .inr hmade
  case allocateNewRecord thread addr =>
    exact .inr (h.allocateNewRecord hinv hafter hstep)
  case beginCommit thread =>
    exact h.beginCommit hstep
  case validateNext thread =>
    exact h.validateNext hstep
  case ensureFloor thread =>
    exact .inr (h.ensureFloor hstep)
  case fetchAdd thread =>
    exact .inr (h.fetchAdd hinv hstep)
  case writeNext thread slot =>
    exact .inr (h.writeNext hinv hstep)
  case finish thread =>
    obtain ⟨commitTs, -, rfl⟩ := finish_cases hstep
    refine .inl ?_
    rw [Action.thread, setManager_self]
    exact ⟨rfl, rfl⟩
  case abort thread =>
    obtain ⟨-, rfl⟩ := abort_cases hstep
    exact .inl (abortTransaction_ended setting sys thread _)
  case syncSnapshot node forcedTsNext =>
    cases hstep
    exact .inr (h.transfer (fun _ => id) fun _ _ _ => ⟨rfl, rfl⟩)
  case collect deltaGaddr =>
    cases hstep
    exact .inr (h.transfer (fun _ => id) fun _ _ _ => ⟨rfl, rfl⟩)

theorem TracedInv.of_step (h : TracedInv setting traced)
    (hordd : OrderedStep setting traced action)
    (hstep : tracedStep setting traced action = some after) : TracedInv setting after := by
  obtain ⟨hfirst, hnowrap, hchgs⟩ := hordd
  obtain ⟨next, hnext, rfl⟩ := map_eq_some_iff.mp hstep
  have hafter := h.inv.of_step hfirst hnowrap hnext
  have hown := (h.programs action.thread).of_own h.inv hafter hfirst hchgs hnext
  dsimp only
  split
  all_goals
    rename_i hempty
    refine ⟨hafter, fun thread => ?_⟩
    by_cases hthr : thread = action.thread
    case neg =>
      simp only [update_of_ne hthr]
      exact (h.programs thread).of_other hnowrap hnext hthr
    subst hthr
    simp only [update_self]
  · rcases hown with hended | hprog
    · exact .ended hended
    · exact hprog.clear (isEmpty_iff.mp hempty)
  · exact hown.resolve_left fun hended => hempty (isEmpty_iff.mpr hended.1)

abbrev OrderedRun (setting : Setting) : Traced → Prop :=
  TransitionSystem.Reachable (tracedStep setting) (OrderedStep setting) (Traced.Initial setting)

theorem OrderedRun.inv (h : OrderedRun setting traced) : TracedInv setting traced :=
  TransitionSystem.Reachable.invariant (fun _ => TracedInv.initial)
    (fun _ _ _ hinv hordd hstep => hinv.of_step hordd hstep) h

theorem ProgramInv.leavesEffect {thread : Nat}
    (h : ProgramInv setting traced.sys thread (traced.sys.managers thread) (traced.program thread)
      (traced.checked thread))
    (hstage : (traced.sys.managers thread).stage = .write commitTs []) :
    LeavesEffect setting traced thread commitTs := by
  intro entry hmem htype hchgd
  -- The tuple was changed through an access that may be written, and not an insert.
  have hitem : ∃ item ∈ traced.program thread, item.1 = entry.addr := by
    by_contra hnone
    push Not at hnone
    exact hchgd (changesOf_eq_nil hnone)
  obtain ⟨item, hitem, haddr⟩ := hitem
  obtain ⟨writer, hwtr, hwrite, hknown⟩ := h.known item hitem
  rw [haddr] at hknown
  have hupdate : writer.access.accessType = .readWrite :=
    (isWrite_iff.mp hwrite).resolve_right fun hins =>
      h.apart writer hwtr hins entry hmem htype hknown.symm
  obtain ⟨-, hpend | ⟨row, hrow, hcont, hold⟩⟩ :=
    h.settled commitTs [] hstage writer hwtr hupdate
  · cases hpend
  · rw [h.content writer hwtr hwrite, h.schema writer hwtr hwrite] at hcont
    rw [hknown] at hrow hcont hold
    exact ⟨row, writer.base, hrow, hold, hcont⟩

end Runs

/-- A transaction that has its commit timestamp has compared every access that its
isolation level validates, writes tuples of pages that it has latched, and leaves the
changes of its program when it has written the last one. -/
theorem commit_leaves_program {setting : Setting} {traced : Traced}
    (hlevel : setting.serializable = false) (h : OrderedRun setting traced) (thread commitTs : Nat)
    (pending : List LocalAccess)
    (hstage : (traced.sys.managers thread).stage = .write commitTs pending) :
    (∀ entry ∈ (traced.sys.managers thread).accessList, entry.validated setting →
      entry ∈ traced.checked thread) ∧
    (∀ slot after, mvoccStep setting traced.sys (.writeNext thread slot) = some after →
      ∀ addr, after.rows addr ≠ traced.sys.rows addr →
        traced.sys.latches addr.pageAddr = some thread) ∧
    (pending = [] → LeavesEffect setting traced thread commitTs) := by
  have hprog := h.inv.programs thread
  refine ⟨fun entry hmem hval => ?_, fun slot after hstep addr hchgd => ?_, ?_⟩
  · have hwrite : entry.isWrite := by
      simpa [LocalAccess.validated, LocalAccess.isWrite, hlevel] using hval
    have hcomp := hprog.compared entry hmem hwrite
    rw [hstage] at hcomp
    exact hcomp
  · obtain ⟨_, entry, rest, -, ⟨-, rfl⟩ | ⟨row, -, hlatch, -, -, -, rfl⟩⟩ := writeNext_cases hstep
    · exact absurd rfl hchgd
    · have haddr : addr = entry.addr := by
        by_contra hne
        exact hchgd (publish_rows_of_ne _ _ hne)
      subst haddr
      exact hlatch
  · rintro rfl
    exact hprog.leavesEffect hstage

/-! ### The small table -/

instance (sys : System) : ∀ action, Decidable (WritesFirstStep sys action) := by
  rintro (_ | _) <;> dsimp only [WritesFirstStep] <;> infer_instance

instance (sys : System) : ∀ action, Decidable (ChangesWrites sys action) := by
  rintro (_ | _) <;> dsimp only [ChangesWrites] <;> infer_instance

instance (setting : Setting) (traced : Traced) (action : Action) :
    Decidable (OrderedStep setting traced action) := inferInstanceAs (Decidable (_ ∧ _ ∧ _))

def smallTraced : Traced := ⟨smallSystem, fun _ => [], fun _ => []⟩

theorem smallTraced_initial : smallTraced.Initial smallSetting :=
  ⟨smallSystem_initial, fun _ => rfl, fun _ => rfl⟩

def repeatedAccess (again : List Action) : List Action :=
  [.getSnapshot 0, .select 0 ⟨1, 64⟩ .readWrite (fun _ => 0), .setColumn 0 0 1 [9]] ++ again ++
    [.beginCommit 0, .validateNext 0, .ensureFloor 0, .fetchAdd 0, .writeNext 0 ⟨8, 0⟩,
      .writeNext 0 ⟨16, 0⟩]

def smallProgram : List (TupleAddr × Change) :=
  [(⟨1, 64⟩, .column 1 [9]), (⟨1, 64⟩, .visible true)]

theorem smallProgram_value (old : Memory) :
    (applyChanges smallSchema ⟨old, []⟩ (changesOf ⟨1, 64⟩ smallProgram)).data 1 = 9 := rfl

def losesValue (traced : Traced) : Bool :=
  match (traced.sys.managers 0).stage, (traced.sys.managers 0).accessList, traced.checked 0 with
  | .write _ [], [first, second], [compared] =>
      second.validated smallSetting && decide (first.addr = ⟨1, 64⟩) &&
        decide (first.access.accessType = .readWrite) &&
        decide (compared.access.tuple.dirtyColIds ≠ second.access.tuple.dirtyColIds) &&
        decide (traced.program 0 = smallProgram) &&
        ((traced.sys.rows ⟨1, 64⟩).map fun row => decide (row 1 = 7)) == some true
  | _, _, _ => false

/-- Of two read-write accesses to a tuple the second one is not validated, and the changes
made through the first one are lost. -/
theorem second_access_overwrites_first :
    ∃ traced commitTs, TransitionSystem.Reachable (tracedStep smallSetting)
        (fun traced action => NoWrap smallSetting traced.sys action)
        (Traced.Initial smallSetting) traced ∧
      (traced.sys.managers 0).stage = .write commitTs [] ∧
      (∃ entry ∈ (traced.sys.managers 0).accessList, entry.validated smallSetting ∧
        entry ∉ traced.checked 0) ∧
      ¬ LeavesEffect smallSetting traced 0 commitTs := by
  obtain ⟨traced, htraced, hloses⟩ : ∃ traced, TransitionSystem.Reachable (tracedStep smallSetting)
      (fun traced action => NoWrap smallSetting traced.sys action) (Traced.Initial smallSetting)
      traced ∧ losesValue traced = true :=
    TransitionSystem.Reachable.exists_of_schedule (repeatedAccess
      [.select 0 ⟨1, 64⟩ .readWrite (fun _ => 0), .setVisible 0 1 true]) smallTraced_initial
      (by decide +kernel)
  unfold losesValue at hloses
  split at hloses
  · rename_i commitTs first second compared hstage hlist hchk
    simp only [Bool.and_eq_true, decide_eq_true_eq, beq_iff_eq, map_eq_some_iff] at hloses
    obtain ⟨⟨⟨⟨⟨hval, haddr⟩, htype⟩, hdirty⟩, hprog⟩, row, hrow, hvalue⟩ := hloses
    refine ⟨traced, commitTs, htraced, hstage, ⟨second, ?_, hval, ?_⟩, fun heff => ?_⟩
    · rw [hlist]
      exact mem_cons_of_mem _ mem_cons_self
    · rw [hchk, mem_singleton]
      rintro rfl
      exact hdirty rfl
    · obtain ⟨new, old, hnew, -, hcont⟩ := heff first (hlist ▸ mem_cons_self)
        (by rw [htype]; decide) (by rw [hprog, haddr]; decide)
      rw [hprog, haddr] at hcont
      rw [haddr] at hnew
      have hsame := hcont.columns 1 (Nat.zero_le _) (by decide)
      cases hnew.symm.trans hrow
      rw [hvalue] at hsame
      exact absurd (hsame.trans (smallProgram_value old)) (by decide)
  · cases hloses

def keepsValue (traced : Traced) : Bool :=
  match (traced.sys.managers 0).stage, (traced.sys.managers 0).accessList with
  | .write _ [], [first, second] => decide (first.addr = second.addr) &&
      decide (traced.program 0 = [(⟨1, 64⟩, .column 1 [9])])
  | _, _ => false

/-- A read of the tuple after the read-write access does no harm. -/
theorem commit_leaves_program_read_again :
    ∃ traced commitTs, OrderedRun smallSetting traced ∧
      (traced.sys.managers 0).stage = .write commitTs [] ∧
      (traced.sys.managers 0).accessList.length = 2 ∧ traced.program 0 ≠ [] ∧
      LeavesEffect smallSetting traced 0 commitTs := by
  obtain ⟨traced, htraced, hkeeps⟩ : ∃ traced, OrderedRun smallSetting traced ∧
      keepsValue traced = true :=
    TransitionSystem.Reachable.exists_of_schedule
      (repeatedAccess [.select 0 ⟨1, 64⟩ .readOnly (fun _ => 0)]) smallTraced_initial
      (by decide +kernel)
  unfold keepsValue at hkeeps
  split at hkeeps
  · rename_i commitTs first second hstage hlist
    simp only [Bool.and_eq_true, decide_eq_true_eq] at hkeeps
    refine ⟨traced, commitTs, htraced, hstage, congrArg List.length hlist, ?_,
      (commit_leaves_program rfl htraced 0 commitTs [] hstage).2.2 rfl⟩
    rw [hkeeps.2]
    exact cons_ne_nil _ _
  · cases hkeeps

end MemoryEngine.Txn
