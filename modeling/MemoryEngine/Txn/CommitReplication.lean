import MemoryEngine.Txn.Commit

/-! What a commit sends to a replica.

By the time an update is logged the set of dirty columns names the metadata column
only, and the columns of an insert are logged from the page, before the tuple is copied
there.  So a replica receives the metadata and no other byte of a tuple. -/
namespace MemoryEngine.Txn

open ByteMemory LogCodec LogReplayer RedoLog Storage List Function

def DataBytes (offset : Nat) : Prop :=
  8 ≤ offset ∧ offset < 12 ∨ 16 ≤ offset ∧ offset < kLeafPageSize

def DataAgree (replica page : Page) : Prop := AgreeIn DataBytes replica page

namespace Access

def Writes (access : Access) : Prop :=
  access.accessType = .insertOnly ∨
    access.accessType = .readWrite ∧ access.tuple.dirtyColIds ≠ []

instance (access : Access) : Decidable access.Writes := by
  unfold Writes
  infer_instance

structure Formed (access : Access) : Prop where
  metaLast : access.schema.MetaLast
  dirtyKnown : ∀ colId ∈ access.tuple.dirtyColIds, colId < access.schema.columns.length
  dirtyFew : access.tuple.dirtyColIds.length ≤ access.schema.columns.length
  start : 56 ≤ access.offset
  fits : access.offset + access.schema.getRecordTotalSize ≤ kLeafPageSize
  addr_lt : access.pageAddr < 2 ^ 64

def Unchanged (access : Access) (page : Page) : Prop :=
  read access.tuple.data 0 access.schema.metaOffset =
    read page access.offset access.schema.metaOffset

def Apart (first second : Access) : Prop :=
  first.offset + first.schema.getRecordTotalSize ≤ second.offset ∨
    second.offset + second.schema.getRecordTotalSize ≤ first.offset

end Access

/-! ### One access -/

variable {final : Access} {offset : Nat}

section Step

variable {access : Access} {page replica : Page}

def nextVersion (page : Page) : Page := setPVersion page ((pVersion page + 1) % 2 ^ 64)

theorem putMeta_data (schema : RecordSchema) (tuple : Storage.Record) (column : MetaColumn) :
    AgreeOn (tuple.putMeta schema column).data tuple.data 0 schema.metaOffset :=
  agreeOn_write _ (.inr (Nat.le_of_eq (Nat.zero_add _)))

theorem mem_dirty_putMeta (schema : RecordSchema) (tuple : Storage.Record) (column : MetaColumn) :
    schema.getMetaColumnId ∈ (tuple.putMeta schema column).dirtyColIds :=
  mem_insertColId.mpr (.inl rfl)

def tupleChange (access : Access) (page : Page) : PageChange :=
  ⟨access.pageAddr, (pVersion page + 1) % 2 ^ 64,
    copyOps (nextVersion page) (access.tuple.dirtyColIds.map access.columnBlock) ++
      [.update (access.offset + access.schema.metaOffset)
        (read access.tuple.data access.schema.metaOffset kMetaSize)]⟩

theorem writeTuple_eq (hdirty : access.tuple.dirtyColIds ≠ []) (delta : Option DeltaRecord) :
    writeTuple true access page delta =
      ⟨access.copyToPage (nextVersion page), [tupleChange access page], delta⟩ := by
  have hmeta : (access.tuple.getMeta access.schema).bytes =
      read access.tuple.data access.schema.metaOffset kMetaSize := MetaColumn.bytes_load _ _
  simp only [writeTuple, logDataUpdateOperation, Access.updateOps, ne_eq, hdirty,
    not_false_eq_true, if_true, hmeta, tupleChange, nextVersion, RecordSchema.metaOffset]

/-- A written access, as it is logged and copied: its tuple has the bytes of the local
one before the metadata. -/
structure Logs (access final : Access) : Prop where
  schema : final.schema = access.schema
  pageAddr : final.pageAddr = access.pageAddr
  offset : final.offset = access.offset
  dirty : final.tuple.dirtyColIds ≠ []
  known : ∀ colId ∈ final.tuple.dirtyColIds, colId < access.schema.columns.length
  few : final.tuple.dirtyColIds.length ≤ 65
  data : AgreeOn final.tuple.data access.tuple.data 0 access.schema.metaOffset

theorem logs_putMeta (h : access.Formed) (tuple : Storage.Record)
    (hdata : tuple.data = access.tuple.data)
    (hdirty : tuple.dirtyColIds = [] ∨ tuple.dirtyColIds = access.tuple.dirtyColIds)
    (column : MetaColumn) :
    Logs access { access with tuple := tuple.putMeta access.schema column } := by
  have hmem := mem_dirty_putMeta access.schema tuple column
  have hcols : access.schema.getMetaColumnId < access.schema.columns.length := by
    obtain ⟨front, hfront⟩ := h.metaLast.columns_eq
    simp [RecordSchema.getMetaColumnId, hfront]
  have hlen : tuple.dirtyColIds.length ≤ 64 := by
    have hdirtyFew := h.dirtyFew
    have hfew := h.metaLast.few
    rcases hdirty with hdirty | hdirty
    · simp [hdirty]
    · rw [hdirty]
      omega
  refine ⟨rfl, rfl, rfl, ne_nil_of_mem hmem, fun colId hcol => ?_, ?_, ?_⟩
  · rcases mem_insertColId.mp hcol with rfl | hcol
    · exact hcols
    · rcases hdirty with hdirty | hdirty
      · rw [hdirty] at hcol
        cases hcol
      · exact h.dirtyKnown colId (hdirty ▸ hcol)
  · have hins := insertColId_length_le access.schema.getMetaColumnId tuple.dirtyColIds
    exact Nat.le_trans hins (by omega)
  · rw [← hdata]
    exact putMeta_data access.schema tuple column

theorem commitAccess_of_writes (h : access.Formed) (hwrites : access.Writes) (commitTs : Nat)
    (slot : DeltaSlot) (page : Page) :
    ∃ final, Logs access final ∧
      (commitAccess true commitTs access slot page).page = final.copyToPage (nextVersion page) ∧
      (commitAccess true commitTs access slot page).changes = [tupleChange final page] := by
  rcases hwrites with htype | ⟨htype, hdirty⟩
  · have hlogs : Logs access (inserted commitTs access) :=
      logs_putMeta h access.tuple rfl (.inr rfl) _
    refine ⟨inserted commitTs access, hlogs, ?_⟩
    simp only [commitAccess, htype, writeTuple_eq hlogs.dirty, and_self]
  · have hlogs : Logs access (updated commitTs access slot) :=
      logs_putMeta h ⟨access.tuple.data, []⟩ rfl (.inl rfl) _
    refine ⟨updated commitTs access slot, hlogs, ?_⟩
    simp only [commitAccess, htype, hdirty, if_false, writeTuple_eq hlogs.dirty, and_self]

theorem commitAccess_of_not_writes (hwrites : ¬ access.Writes) (commitTs : Nat) (slot : DeltaSlot)
    (page : Page) : commitAccess true commitTs access slot page = ⟨page, [], none⟩ := by
  cases htype : access.accessType with
  | insertOnly => exact absurd (.inl htype) hwrites
  | readWrite =>
    have hdirty : access.tuple.dirtyColIds = [] := by
      by_contra hne
      exact hwrites (.inr ⟨htype, hne⟩)
    simp only [commitAccess, htype, hdirty, if_true]
  | scanRead => simp only [commitAccess, htype]
  | readOnly => simp only [commitAccess, htype]
  | deleteOnly => simp only [commitAccess, htype]

/-! ### The record on the replica -/

theorem applyAll_copyOps_self {blocks : List (Nat × Nat)}
    (h : ∀ block ∈ blocks, AgreeOn replica page block.1 block.2) :
    applyAll (copyOps page blocks) 0 replica = replica := by
  induction blocks with
  | nil => rfl
  | cons block blocks ih =>
    rw [forall_mem_cons] at h
    rw [copyOps, map_cons, applyAll_cons, DecodedOp.apply_update, Nat.zero_add, ← read_congr h.1,
      write_read_self]
    exact ih h.2

theorem columnBlock_within (hlogs : Logs access final) {block : Nat × Nat}
    (hblock : block ∈ final.tuple.dirtyColIds.map final.columnBlock) :
    access.offset ≤ block.1 ∧
      block.1 + block.2 ≤ access.offset + access.schema.getRecordTotalSize := by
  obtain ⟨colId, hcol, rfl⟩ := mem_map.mp hblock
  have hwithin := access.schema.column_within (hlogs.known colId hcol)
  simp only [Access.columnBlock, hlogs.schema, hlogs.offset]
  omega

theorem tupleChange_sound (h : access.Formed) (hlogs : Logs access final)
    (page : Page) : (tupleChange final page).Sound := by
  have hfits := h.fits
  have htotal := h.metaLast.total_eq
  have hfew := hlogs.few
  have hmeta : (DecodedOp.update (final.offset + final.schema.metaOffset)
      (read final.tuple.data final.schema.metaOffset kMetaSize)).Within kLeafPageSize := by
    rw [DecodedOp.within_update, read_length, hlogs.schema, hlogs.offset]
    omega
  refine ⟨Nat.lt_of_le_of_lt (Nat.le_of_eq hlogs.pageAddr) h.addr_lt, Nat.mod_lt _ (by decide), ?_,
    fun op hop => ?_, fun offset value hmem => ?_⟩
  · simp only [tupleChange, copyOps, length_append, length_map, length_cons,
      length_nil]
    omega
  · rcases mem_append.mp hop with hop | hop
    · obtain ⟨block, hblock, rfl⟩ := mem_map.mp hop
      have hwithin := columnBlock_within hlogs hblock
      rw [DecodedOp.within_update, read_length]
      omega
    · rw [mem_singleton.mp hop]
      exact hmeta
  · simp [tupleChange, copyOps] at hmem

theorem agreeOn_tuple (h : access.Formed) (hagree : DataAgree replica page) :
    AgreeOn replica page access.offset access.schema.getRecordTotalSize := by
  have hstart := h.start
  have hfits := h.fits
  exact hagree.agreeOn fun offset hge hlt => .inr ⟨by omega, by omega⟩

theorem agreeOn_nextVersion (h : access.Formed) (page : Page) :
    AgreeOn (nextVersion page) page access.offset access.schema.getRecordTotalSize := by
  have hstart := h.start
  refine agreeOn_write _ (.inl ?_)
  rw [natLE_length, pVersionOffset]
  omega

theorem replayOps_tupleChange (h : access.Formed) (hlogs : Logs access final)
    (hagree : DataAgree replica page) :
    replayOps (tupleChange final page).ops (tupleChange final page).pageVersion replica =
      setPVersion (write replica (access.offset + access.schema.metaOffset)
        (read final.tuple.data access.schema.metaOffset kMetaSize))
        ((pVersion page + 1) % 2 ^ 64) := by
  have hsame : ∀ block ∈ final.tuple.dirtyColIds.map final.columnBlock,
      AgreeOn replica (nextVersion page) block.1 block.2 := fun block hblock => by
    have hwithin := columnBlock_within hlogs hblock
    exact ((agreeOn_tuple h hagree).trans (agreeOn_nextVersion h page).symm).mono hwithin.1
      hwithin.2
  rw [replayOps, tupleChange, applyAll_append, applyAll_copyOps_self hsame]
  simp only [applyAll_cons, applyAll_nil, DecodedOp.apply_update, Nat.zero_add, hlogs.schema,
    hlogs.offset, setPVersion, setField]

def Access.Touches (access : Access) (offset : Nat) : Prop :=
  16 ≤ offset ∧ offset < 24 ∨
    access.offset ≤ offset ∧ offset < access.offset + access.schema.getRecordTotalSize

theorem copyToPage_of_not_touches (hlogs : Logs access final) (page : Page)
    (hnot : ¬ access.Touches offset) :
    final.copyToPage (nextVersion page) offset = page offset := by
  unfold Access.Touches at hnot
  have htuple : final.copyToPage (nextVersion page) offset = nextVersion page offset := by
    rw [Access.copyToPage, hlogs.schema, hlogs.offset]
    exact write_outside _ _ (by rw [read_length]; omega)
  have hver : pVersionOffset = 16 := rfl
  rw [htuple, nextVersion, setPVersion, setField]
  exact write_outside _ _ (by rw [natLE_length]; omega)

theorem applyAll_copyOps_of_not_mem (page : Page) {blocks : List (Nat × Nat)}
    (h : ∀ block ∈ blocks, offset < block.1 ∨ block.1 + block.2 ≤ offset) (replica : Page) :
    applyAll (copyOps page blocks) 0 replica offset = replica offset := by
  induction blocks generalizing replica with
  | nil => rfl
  | cons block blocks ih =>
    rw [forall_mem_cons] at h
    rw [copyOps, map_cons, applyAll_cons, DecodedOp.apply_update, Nat.zero_add]
    exact (ih h.2 _).trans (write_outside _ _ (by rw [read_length]; exact h.1))

variable (h : access.Formed)
include h

theorem replayOps_of_not_touches (hlogs : Logs access final)
    (page replica : Page) (hnot : ¬ access.Touches offset) :
    replayOps (tupleChange final page).ops (tupleChange final page).pageVersion replica offset =
      replica offset := by
  unfold Access.Touches at hnot
  have htotal := h.metaLast.total_eq
  have hcols : ∀ block ∈ final.tuple.dirtyColIds.map final.columnBlock,
      offset < block.1 ∨ block.1 + block.2 ≤ offset := fun block hblock => by
    have hwithin := columnBlock_within hlogs hblock
    omega
  have hver : pVersionOffset = 16 := rfl
  rw [replayOps, tupleChange, applyAll_append]
  simp only [applyAll_cons, applyAll_nil, DecodedOp.apply_update, Nat.zero_add, hlogs.schema,
    hlogs.offset]
  have hmeta : ∀ memory : Page, write memory (access.offset + access.schema.metaOffset)
      (read final.tuple.data access.schema.metaOffset kMetaSize) offset = memory offset :=
    fun _ => write_outside _ _ (by rw [read_length]; omega)
  rw [write_outside _ _ (by rw [natLE_length]; omega), hmeta]
  exact applyAll_copyOps_of_not_mem _ hcols replica

theorem copyToPage_eq (hlogs : Logs access final) (page : Page) :
    final.copyToPage page =
      write (write page access.offset (read access.tuple.data 0 access.schema.metaOffset))
        (access.offset + access.schema.metaOffset)
        (read final.tuple.data access.schema.metaOffset kMetaSize) := by
  rw [Access.copyToPage, hlogs.schema, hlogs.offset, h.metaLast.total_eq, read_add, write_append,
    read_length, read_congr hlogs.data, Nat.zero_add]

theorem dataAgree_of_unchanged (hlogs : Logs access final)
    (hagree : DataAgree replica page) (hsame : access.Unchanged page) :
    DataAgree (replayOps (tupleChange final page).ops (tupleChange final page).pageVersion replica)
      (final.copyToPage (nextVersion page)) := by
  have hstart := h.start
  have htotal := h.metaLast.total_eq
  have hhead : read access.tuple.data 0 access.schema.metaOffset =
      read (nextVersion page) access.offset access.schema.metaOffset := by
    have hpart := (agreeOn_nextVersion h page).mono (Nat.le_refl _)
      (Nat.add_le_add_left
        (Nat.le_trans (Nat.le_add_right _ kMetaSize) (Nat.le_of_eq htotal.symm)) _)
    rw [hsame, read_congr hpart]
  have hver : pVersionOffset = 16 := rfl
  rw [replayOps_tupleChange h hlogs hagree, copyToPage_eq h hlogs, hhead, write_read_self,
    nextVersion, setPVersion, setField, setPVersion, setField,
    write_comm page (by rw [natLE_length]; omega)]
  exact ((hagree.write_same _ _).write_same _ _).mono fun offset hdata => .inl (.inl hdata)

theorem differs_of_changed (hlogs : Logs access final)
    (hagree : DataAgree replica page) (hchgd : ¬ access.Unchanged page) :
    ∃ offset, access.offset ≤ offset ∧ offset < access.offset + access.schema.metaOffset ∧
      replayOps (tupleChange final page).ops (tupleChange final page).pageVersion replica offset ≠
        final.copyToPage (nextVersion page) offset := by
  by_contra hall
  push Not at hall
  have hstart := h.start
  have htotal := h.metaLast.total_eq
  have hver : pVersionOffset = 16 := rfl
  have hcopy : read (final.copyToPage (nextVersion page)) access.offset
      access.schema.metaOffset = read access.tuple.data 0 access.schema.metaOffset := by
    have hsame := read_write_same (nextVersion page) access.offset
      (read access.tuple.data 0 access.schema.metaOffset)
    rw [read_length] at hsame
    rw [copyToPage_eq h hlogs, read_write_disjoint _ (.inr (Nat.le_refl _)), hsame]
  have hkept : AgreeOn (replayOps (tupleChange final page).ops
      (tupleChange final page).pageVersion replica) replica access.offset
      access.schema.metaOffset := by
    rw [replayOps_tupleChange h hlogs hagree, setPVersion, setField]
    exact (agreeOn_write _ (.inl (by rw [natLE_length]; omega))).trans
      (agreeOn_write _ (.inr (Nat.le_refl _)))
  have hold : AgreeOn replica page access.offset access.schema.metaOffset :=
    (agreeOn_tuple h hagree).mono (Nat.le_refl _) (by omega)
  refine hchgd ?_
  rw [Access.Unchanged, ← hcopy, ← read_congr (hkept.trans hold)]
  exact (read_congr fun offset hge hlt => hall offset hge hlt).symm

end Step

/-! ### The commit loop -/

section Loop

variable {translate : Nat → Nat} {pageAddr : Nat}

def pageRecords (pageAddr : Nat) (changes : List PageChange) : List RedoLog.Record :=
  (changes.filter fun change => change.pageGaddr = pageAddr).map PageChange.record

def replayPage (translate : Nat → Nat) (memory : Memory) (pageAddr : Nat)
    (changes : List PageChange) : Page :=
  view (replayRecords translate memory (pageRecords pageAddr changes)) (translate pageAddr)

def TuplesApart (accesses : List (Access × DeltaSlot)) : Prop :=
  accesses.Pairwise fun first second =>
    first.1.pageAddr = second.1.pageAddr → first.1.Apart second.1

variable {access : Access}

theorem commitStage_cons (h : access.Formed) (hwrites : access.Writes)
    (commitTs : Nat) (slot : DeltaSlot) (rest : List (Access × DeltaSlot)) (pages : Nat → Page)
    (hmapped : translate access.pageAddr ≠ 0) (memory : Memory) :
    ∃ final memory', Logs access final ∧
      view memory' (translate access.pageAddr) =
        replayOps (tupleChange final (pages access.pageAddr)).ops
          (tupleChange final (pages access.pageAddr)).pageVersion
          (view memory (translate access.pageAddr)) ∧
      (commitStage true commitTs ((access, slot) :: rest) pages).pages =
        (commitStage true commitTs rest (update pages access.pageAddr
          (final.copyToPage (nextVersion (pages access.pageAddr))))).pages ∧
      replayPage translate memory access.pageAddr
          (commitStage true commitTs ((access, slot) :: rest) pages).changes =
        replayPage translate memory' access.pageAddr
          (commitStage true commitTs rest (update pages access.pageAddr
            (final.copyToPage (nextVersion (pages access.pageAddr))))).changes := by
  obtain ⟨final, hlogs, hpage, hchgs⟩ :=
    commitAccess_of_writes h hwrites commitTs slot (pages access.pageAddr)
  have hsound := tupleChange_sound h hlogs (pages access.pageAddr)
  have hgaddr : (tupleChange final (pages access.pageAddr)).pageGaddr = access.pageAddr :=
    hlogs.pageAddr
  refine ⟨final, replayRecord translate memory
    (tupleChange final (pages access.pageAddr)).record, hlogs, ?_, ?_, ?_⟩
  · have hview := hsound.view_replayRecord (hgaddr.symm ▸ hmapped) memory
    rw [hgaddr] at hview
    exact hview
  · simp only [commitStage, hpage]
  · simp only [commitStage, hpage, hchgs, replayPage, pageRecords, singleton_append,
      filter_cons, hgaddr, decide_true, if_true, map_cons, replayRecords,
      foldl_cons]

theorem commitStage_skip (h : access.Formed)
    (hskip : access.pageAddr = pageAddr → ¬ access.Writes) (commitTs : Nat) (slot : DeltaSlot)
    (rest : List (Access × DeltaSlot)) (pages : Nat → Page) (memory : Memory) :
    ∃ pages', pages' pageAddr = pages pageAddr ∧
      (commitStage true commitTs ((access, slot) :: rest) pages).pages =
        (commitStage true commitTs rest pages').pages ∧
      replayPage translate memory pageAddr
          (commitStage true commitTs ((access, slot) :: rest) pages).changes =
        replayPage translate memory pageAddr (commitStage true commitTs rest pages').changes := by
  refine ⟨update pages access.pageAddr
    (commitAccess true commitTs access slot (pages access.pageAddr)).page, ?_, rfl, ?_⟩
  · by_cases haddr : pageAddr = access.pageAddr
    · have hnot := hskip haddr.symm
      rw [haddr, update_self, commitAccess_of_not_writes hnot]
    · rw [update_of_ne haddr]
  · by_cases hwrites : access.Writes
    · have haddr : access.pageAddr ≠ pageAddr := fun heq => hskip heq hwrites
      obtain ⟨final, hlogs, -, hchgs⟩ :=
        commitAccess_of_writes h hwrites commitTs slot (pages access.pageAddr)
      have hgaddr : (tupleChange final (pages access.pageAddr)).pageGaddr ≠ pageAddr :=
        hlogs.pageAddr.symm ▸ haddr
      simp only [commitStage, hchgs, replayPage, pageRecords, singleton_append,
        filter_cons, hgaddr, decide_false, Bool.false_eq_true, if_false]
    · simp only [commitStage, commitAccess_of_not_writes hwrites, nil_append]

variable {accesses : List (Access × DeltaSlot)}

theorem commitStage_frame (hmapped : translate pageAddr ≠ 0) (commitTs : Nat)
    (hformed : ∀ entry ∈ accesses, entry.1.Formed)
    (hnot : ∀ entry ∈ accesses, entry.1.pageAddr = pageAddr → entry.1.Writes →
      ¬ entry.1.Touches offset) :
    ∀ (pages : Nat → Page) (memory : Memory),
      (commitStage true commitTs accesses pages).pages pageAddr offset = pages pageAddr offset ∧
      replayPage translate memory pageAddr (commitStage true commitTs accesses pages).changes
        offset = view memory (translate pageAddr) offset := by
  induction accesses with
  | nil => exact fun pages memory => ⟨rfl, rfl⟩
  | cons entry rest ih =>
    intro pages memory
    rw [forall_mem_cons] at hformed hnot
    have ih := ih hformed.2 hnot.2
    by_cases hhere : entry.1.pageAddr = pageAddr ∧ entry.1.Writes
    · obtain ⟨rfl, hwrites⟩ := hhere
      obtain ⟨final, memory', hlogs, hview, hpages, hrply⟩ :=
        commitStage_cons hformed.1 hwrites commitTs entry.2 rest pages hmapped memory
      have htouch := hnot.1 rfl hwrites
      obtain ⟨hpage, hreplica⟩ := ih (update pages entry.1.pageAddr
        (final.copyToPage (nextVersion (pages entry.1.pageAddr)))) memory'
      rw [hpages, hrply, hpage, hreplica, update_self, hview]
      exact ⟨copyToPage_of_not_touches hlogs _ htouch,
        replayOps_of_not_touches hformed.1 hlogs _ _ htouch⟩
    · obtain ⟨pages', hsame, hpages, hrply⟩ :=
        commitStage_skip hformed.1 (fun haddr hwrites => hhere ⟨haddr, hwrites⟩) commitTs entry.2
          rest pages memory
      rw [hpages, hrply, ← hsame]
      exact ih pages' memory

theorem not_touches_of_apart {first second : Access} (hfirst : first.Formed)
    (happart : first.Apart second) (hge : first.offset ≤ offset)
    (hlt : offset < first.offset + first.schema.getRecordTotalSize) : ¬ second.Touches offset := by
  have hstart := hfirst.start
  unfold Access.Touches
  unfold Access.Apart at happart
  omega

theorem unchanged_congr (h : access.Formed) {page other : Page}
    (hsame : AgreeOn other page access.offset access.schema.getRecordTotalSize) :
    access.Unchanged other ↔ access.Unchanged page := by
  have htotal := h.metaLast.total_eq
  rw [Access.Unchanged, Access.Unchanged,
    read_congr (hsame.mono (Nat.le_refl _) (by omega))]

theorem commitStage_iff (translate : Nat → Nat) (pageAddr : Nat) (hmapped : translate pageAddr ≠ 0)
    (commitTs : Nat)
    (hformed : ∀ entry ∈ accesses, entry.1.Formed) (hdisjoint : TuplesApart accesses) :
    ∀ (pages : Nat → Page) (memory : Memory),
      DataAgree (view memory (translate pageAddr)) (pages pageAddr) →
      (DataAgree
        (replayPage translate memory pageAddr (commitStage true commitTs accesses pages).changes)
        ((commitStage true commitTs accesses pages).pages pageAddr) ↔
      ∀ entry ∈ accesses, entry.1.pageAddr = pageAddr → entry.1.Writes →
        entry.1.Unchanged (pages pageAddr)) := by
  induction accesses with
  | nil =>
    intro pages memory hagree
    exact iff_of_true hagree fun entry hentry => absurd hentry not_mem_nil
  | cons entry rest ih =>
    intro pages memory hagree
    rw [forall_mem_cons] at hformed
    obtain ⟨hapart, hrest⟩ := pairwise_cons.mp hdisjoint
    have ih := ih hformed.2 hrest
    rw [forall_mem_cons]
    by_cases hhere : entry.1.pageAddr = pageAddr ∧ entry.1.Writes
    · obtain ⟨rfl, hwrites⟩ := hhere
      obtain ⟨final, memory', hlogs, hview, hpages, hrply⟩ :=
        commitStage_cons hformed.1 hwrites commitTs entry.2 rest pages hmapped memory
      rw [hpages, hrply]
      by_cases hsame : entry.1.Unchanged (pages entry.1.pageAddr)
      · have hstep := dataAgree_of_unchanged hformed.1 hlogs hagree hsame
        rw [← hview] at hstep
        rw [ih (update pages entry.1.pageAddr
          (final.copyToPage (nextVersion (pages entry.1.pageAddr)))) memory'
          (by rw [update_self]; exact hstep), update_self]
        have hothers : ∀ other ∈ rest, other.1.pageAddr = entry.1.pageAddr →
            (other.1.Unchanged (final.copyToPage (nextVersion (pages entry.1.pageAddr))) ↔
              other.1.Unchanged (pages entry.1.pageAddr)) := fun other hother haddr =>
          unchanged_congr (hformed.2 other hother) fun offset hge hlt =>
            copyToPage_of_not_touches hlogs _ (not_touches_of_apart (hformed.2 other hother)
              (hapart other hother haddr.symm).symm hge hlt)
        constructor
        · exact fun hunchanged => ⟨fun _ _ => hsame, fun other hother haddr hother' =>
            (hothers other hother haddr).mp (hunchanged other hother haddr hother')⟩
        · exact fun hunchanged other hother haddr hother' =>
            (hothers other hother haddr).mpr (hunchanged.2 other hother haddr hother')
      · -- the byte that was lost is in no later tuple, so it is still missing at the end
        obtain ⟨offset, hge, hlt, hdiffer⟩ := differs_of_changed hformed.1 hlogs hagree hsame
        have htotal := hformed.1.metaLast.total_eq
        have hfits := hformed.1.fits
        have hstart := hformed.1.start
        obtain ⟨hpage, hreplica⟩ := commitStage_frame hmapped commitTs hformed.2
          (fun other hother haddr _ => not_touches_of_apart hformed.1
            (hapart other hother haddr.symm) hge (by omega))
          (update pages entry.1.pageAddr
            (final.copyToPage (nextVersion (pages entry.1.pageAddr)))) memory'
        refine iff_of_false (fun hdata => hdiffer ?_) fun h => hsame (h.1 rfl hwrites)
        have hbyte := hdata offset (.inr ⟨by omega, by omega⟩)
        rwa [hpage, hreplica, hview, update_self] at hbyte
    · obtain ⟨pages', hsame, hpages, hrply⟩ :=
        commitStage_skip hformed.1 (fun haddr hwrites => hhere ⟨haddr, hwrites⟩) commitTs entry.2
          rest pages memory
      rw [hpages, hrply, ih pages' memory (hsame.symm ▸ hagree), hsame]
      exact ⟨fun h => ⟨fun haddr hwrites => absurd ⟨haddr, hwrites⟩ hhere, h⟩, fun h => h.2⟩

/-- After a commit a replica that replays the records of a page equals the page exactly
when no tuple written there changed outside its metadata. -/
theorem commit_replicated_iff (translate : Nat → Nat) (pageAddr : Nat)
    {pureReadTxn serializable : Bool} {commitTs : Nat}
    {accesses : List (Access × DeltaSlot)} {pages : Nat → Page} {result : CommitResult}
    (hcommit : commitTransaction pureReadTxn serializable true commitTs accesses pages =
      some result)
    (hpure : pureReadTxn = true → ∀ entry ∈ accesses, ¬ entry.1.Writes)
    (hformed : ∀ entry ∈ accesses, entry.1.Formed) (hdisjoint : TuplesApart accesses)
    (hmapped : translate pageAddr ≠ 0) {memory : Memory}
    (hagree : DataAgree (view memory (translate pageAddr)) (pages pageAddr)) :
    DataAgree (replayPage translate memory pageAddr result.changes) (result.pages pageAddr) ↔
      ∀ entry ∈ accesses, entry.1.pageAddr = pageAddr → entry.1.Writes →
        entry.1.Unchanged (pages pageAddr) := by
  unfold commitTransaction at hcommit
  split at hcommit
  · rename_i hread
    cases hcommit
    exact iff_of_true hagree fun entry hentry _ hwrites => absurd hwrites (hpure hread entry hentry)
  · split at hcommit
    · cases hcommit
      exact commitStage_iff translate pageAddr hmapped commitTs hformed hdisjoint pages
        memory hagree
    · cases hcommit

end Loop

/-! ### A table with one value column -/

def valueSchema : RecordSchema := ⟨[⟨.uint64, 8⟩, ⟨.uint64, 8⟩, ⟨.metadata, kMetaSize⟩], [0]⟩

/-- A page with the row `(1, 7)` at offset 64. -/
def valuePage : Page := write (setPVersion (fun _ => 0) 2) 64 (natLE 8 1 ++ natLE 8 7)

/-- A local copy of the row with another value, written through `SetColumn`. -/
def valueAccess (accessType : AccessType) (value : Nat) : Access where
  accessType := accessType
  schema := valueSchema
  tuple := ⟨write (view valuePage 64) 8 (natLE 8 value), [1]⟩
  pageAddr := 1
  offset := 64

theorem valueSchema_metaLast : valueSchema.MetaLast := ⟨rfl, by decide⟩

theorem valueAccess_formed (accessType : AccessType) (value : Nat) :
    (valueAccess accessType value).Formed where
  metaLast := valueSchema_metaLast
  dirtyKnown := fun colId hcol => by
    rw [mem_singleton.mp hcol]
    exact show 1 < 3 by decide
  dirtyFew := show 1 ≤ 3 by decide
  start := show 56 ≤ 64 by decide
  fits := show 64 + 53 ≤ 16392 by decide
  addr_lt := show 1 < 2 ^ 64 by decide

theorem valueAccess_apart (entry : Access × DeltaSlot) : TuplesApart [entry] :=
  pairwise_singleton _ _

def valueTranslate (pageAddr : Nat) : Nat := pageAddr * 65536

def valueMemory : Memory := fun address => valuePage (address - valueTranslate 1)

theorem valueMemory_agree : DataAgree (view valueMemory (valueTranslate 1)) valuePage := by
  intro offset _
  rw [view, valueMemory, Nat.add_sub_cancel_left]

/-- An update of the value and an insert with it both commit, and neither value reaches
the replica. -/
theorem valueAccess_lost :
    DataAgree (view valueMemory (valueTranslate 1)) valuePage ∧
      ∀ accessType ∈ [AccessType.readWrite, .insertOnly],
        (valueAccess accessType 8).Formed ∧
        ∃ result,
          commitTransaction false false true 5 [(valueAccess accessType 8, ⟨0, 0⟩)]
            (fun _ => valuePage) = some result ∧
          ¬ DataAgree (replayPage valueTranslate valueMemory 1 result.changes)
            (result.pages 1) := by
  refine ⟨valueMemory_agree, fun accessType hmem => ⟨valueAccess_formed accessType 8,
    commitStage true 5 [(valueAccess accessType 8, ⟨0, 0⟩)] fun _ => valuePage, ?_, ?_⟩⟩
  · simp only [mem_cons, not_mem_nil, or_false] at hmem
    rcases hmem with rfl | rfl
    · rw [commitTransaction, if_neg (by decide), if_pos (by decide)]
    · rw [commitTransaction, if_neg (by decide), if_pos (by decide)]
  · have hformed : ∀ entry ∈ [(valueAccess accessType 8, (⟨0, 0⟩ : DeltaSlot))],
        entry.1.Formed := forall_mem_singleton.mpr (valueAccess_formed accessType 8)
    have hwrites : (valueAccess accessType 8).Writes := by
      simp only [mem_cons, not_mem_nil, or_false] at hmem
      rcases hmem with rfl | rfl
      · decide
      · decide
    rw [commitStage_iff valueTranslate 1 (by decide) 5 hformed (valueAccess_apart _)
      (fun _ => valuePage) valueMemory valueMemory_agree]
    intro hall
    have hsame := hall _ (mem_singleton_self _) rfl hwrites
    revert hsame
    change ¬ read (write (view valuePage 64) 8 (natLE 8 8)) 0 16 = read valuePage 64 16
    decide

/-- An update that writes the value the row already has. -/
theorem commit_replicated_iff_same_value :
    ∃ result,
      commitTransaction false false true 5 [(valueAccess .readWrite 7, ⟨0, 0⟩)]
        (fun _ => valuePage) = some result ∧
      DataAgree (replayPage valueTranslate valueMemory 1 result.changes) (result.pages 1) := by
  have hcommit : commitTransaction false false true 5 [(valueAccess .readWrite 7, ⟨0, 0⟩)]
      (fun _ => valuePage) =
      some (commitStage true 5 [(valueAccess .readWrite 7, ⟨0, 0⟩)] fun _ => valuePage) := by
    rw [commitTransaction, if_neg (by decide), if_pos (by decide)]
  refine ⟨_, hcommit, (commit_replicated_iff valueTranslate 1 hcommit (by decide)
    (forall_mem_singleton.mpr (valueAccess_formed .readWrite 7)) (valueAccess_apart _)
    (by decide) valueMemory_agree).mpr fun entry hentry _ _ => ?_⟩
  rw [mem_singleton.mp hentry]
  unfold Access.Unchanged
  decide

end MemoryEngine.Txn
