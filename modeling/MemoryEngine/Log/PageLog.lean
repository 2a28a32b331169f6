import MemoryEngine.Log.Replayer

/-! Page changes as redo records.

Code that changes a page collects the operations of the change in an encoder and
appends one record with its buffer.  Here is what such a record does to a replica
of the page. -/
namespace MemoryEngine.RedoLog

open ByteMemory LogCodec LogReplayer List

/-- `ProcessLogRecord` and then `SetCurrentPageVersion`, for a record whose turn it is. -/
def replayRecord (translate : Nat → Nat) (memory : Memory) (record : Record) : Memory :=
  match processLogRecord translate memory record with
  | (true, memory) =>
      setCurrentPageVersion translate memory record.pageGaddr record.pageVersion
  | (false, memory) => memory

def replayRecords (translate : Nat → Nat) (memory : Memory) (records : List Record) : Memory :=
  records.foldl (replayRecord translate) memory

def replayOps (ops : List DecodedOp) (version : Nat) (page : Memory) : Memory :=
  write (applyAll ops 0 page) pVersionOffset (natLE 8 version)

section Bounds

theorem putUVar_length_le (value : Nat) : (putUVar value).length ≤ 10 :=
  Uleb128.encode_length_le 9 value

theorem bytes_length_le {op : DecodedOp} {size : Nat} (h : op.Within size) :
    op.bytes.length ≤ size + 32 := by
  have hputs := putUVar_length_le
  cases op with
  | updateBytes offset len bytes =>
    have hoff := hputs offset
    have hlen := hputs len
    simp only [DecodedOp.Within] at h
    simp only [DecodedOp.bytes, Encoder.add, Encoder.addUpdateBytes, nil_append,
      length_cons, length_append, length_take]
    omega
  | fillBytes offset len value =>
    have hoff := hputs offset
    have hlen := hputs len
    simp only [DecodedOp.bytes, Encoder.add, Encoder.addFillBytes, nil_append,
      length_cons, length_append, length_nil]
    omega
  | memmove dst src len =>
    have hdst := hputs dst
    have hsrc := hputs src
    have hlen := hputs len
    simp only [DecodedOp.bytes, Encoder.add, Encoder.addMemmove, nil_append,
      length_cons, length_append]
    omega
  | setU64LE offset value =>
    have hoff := hputs offset
    have hvalue := hputs value
    simp only [DecodedOp.bytes, Encoder.add, Encoder.addSetU64LE, nil_append,
      length_cons, length_append]
    omega

theorem encode_length_le {ops : List DecodedOp} {size : Nat} (h : ∀ op ∈ ops, op.Within size) :
    (Encoder.encode ops).length ≤ 1 + ops.length * (size + 32) := by
  have hops : (ops.flatMap DecodedOp.bytes).length ≤ ops.length * (size + 32) := by
    induction ops with
    | nil => simp
    | cons op ops ih =>
      have hop := bytes_length_le (h op mem_cons_self)
      have hrest := ih fun o ho => h o (mem_cons_of_mem _ ho)
      rw [flatMap_cons, length_append, length_cons, Nat.add_mul, Nat.one_mul]
      omega
  rw [Encoder.encode_eq, length_cons]
  omega

theorem fits_of_within {op : DecodedOp} {size : Nat} (hsize : size < 2 ^ 32)
    (hvalue : ∀ offset value, op = .setU64LE offset value → value < 2 ^ 64)
    (h : op.Within size) : op.Fits := by
  cases op with
  | updateBytes offset len bytes =>
    simp only [DecodedOp.Within] at h
    exact ⟨by omega, by omega, h.2⟩
  | fillBytes offset len value =>
    simp only [DecodedOp.Within] at h
    exact ⟨by omega, by omega⟩
  | memmove dst src len =>
    obtain ⟨hdst, hsrc⟩ := h
    exact ⟨by omega, by omega, by omega⟩
  | setU64LE offset value =>
    simp only [DecodedOp.Within] at h
    exact ⟨by omega, hvalue offset value rfl⟩

end Bounds

structure PageChange where
  pageGaddr : Nat
  pageVersion : Nat
  ops : List DecodedOp

def PageChange.record (change : PageChange) : Record :=
  .ofAppend change.pageGaddr change.pageVersion (Encoder.encode change.ops)

structure PageChange.Sound (change : PageChange) : Prop where
  gaddr_lt : change.pageGaddr < 2 ^ 64
  version_lt : change.pageVersion < 2 ^ 64
  few : change.ops.length ≤ 1024
  within : ∀ op ∈ change.ops, op.Within kLeafPageSize
  noSet : ∀ offset value, .setU64LE offset value ∉ change.ops

section Replay

variable {translate : Nat → Nat} {change : PageChange}

theorem PageChange.Sound.processLogRecord_eq (h : change.Sound)
    (hmap : translate change.pageGaddr ≠ 0) (memory : Memory) :
    processLogRecord translate memory change.record =
      (true, applyAll change.ops (translate change.pageGaddr) memory) := by
  have hlen : (Encoder.encode change.ops).length < 2 ^ 32 := by
    have hle := encode_length_le h.within
    have hmul : change.ops.length * (kLeafPageSize + 32) ≤ 1024 * (kLeafPageSize + 32) :=
      Nat.mul_le_mul_right _ h.few
    simp only [kLeafPageSize] at hle hmul
    omega
  have hfits : ∀ op ∈ change.ops, op.Fits := fun op hop =>
    fits_of_within (by decide) (fun offset value heq => absurd (heq ▸ hop) (h.noSet offset value))
      (h.within op hop)
  have hpayload : change.record.payload = Encoder.encode change.ops := by
    simp only [PageChange.record, Record.ofAppend, Nat.mod_eq_of_lt hlen, take_length]
  have hgaddr : change.record.pageGaddr = change.pageGaddr := Nat.mod_eq_of_lt h.gaddr_lt
  rw [processLogRecord, hgaddr, if_neg hmap, hpayload, decode_encode hfits]

theorem PageChange.Sound.replayRecord_eq (h : change.Sound)
    (hmap : translate change.pageGaddr ≠ 0) (memory : Memory) :
    replayRecord translate memory change.record =
      write (applyAll change.ops (translate change.pageGaddr) memory)
        (translate change.pageGaddr + pVersionOffset) (natLE 8 change.pageVersion) := by
  have hgaddr : change.record.pageGaddr = change.pageGaddr := Nat.mod_eq_of_lt h.gaddr_lt
  have hver : change.record.pageVersion = change.pageVersion := Nat.mod_eq_of_lt h.version_lt
  rw [replayRecord, h.processLogRecord_eq hmap, hgaddr, hver]
  exact if_neg hmap

theorem PageChange.Sound.view_replayRecord (h : change.Sound)
    (hmap : translate change.pageGaddr ≠ 0) (memory : Memory) :
    view (replayRecord translate memory change.record) (translate change.pageGaddr) =
      replayOps change.ops change.pageVersion (view memory (translate change.pageGaddr)) := by
  rw [h.replayRecord_eq hmap, view_write, view_applyAll, replayOps]

theorem PageChange.Sound.replayRecord_other (h : change.Sound)
    (hmap : translate change.pageGaddr ≠ 0) (memory : Memory) {base : Nat}
    (hapart : base + kLeafPageSize ≤ translate change.pageGaddr ∨
      translate change.pageGaddr + kLeafPageSize ≤ base) :
    AgreeOn (view (replayRecord translate memory change.record) base) (view memory base) 0
      kLeafPageSize := by
  intro offset _ hlt
  have hout : base + offset < translate change.pageGaddr ∨
      translate change.pageGaddr + kLeafPageSize ≤ base + offset := by omega
  have hver : pVersionOffset + 8 ≤ kLeafPageSize := by decide
  rw [h.replayRecord_eq hmap]
  refine Eq.trans ?_ (applyAll_outside memory h.within hout)
  exact write_outside _ _ (by rw [natLE_length]; omega)

end Replay

/-! ### Blocks copied from the page -/

/-- One `AddUpdateBytes` for each block of offset and length, with the bytes of the
page. -/
def copyOps (page : Memory) (blocks : List (Nat × Nat)) : List DecodedOp :=
  blocks.map fun block => .update block.1 (read page block.1 block.2)

def InBlocks (blocks : List (Nat × Nat)) (offset : Nat) : Prop :=
  ∃ block ∈ blocks, block.1 ≤ offset ∧ offset < block.1 + block.2

theorem agreeIn_applyAll_copyOps {page : Memory} (blocks : List (Nat × Nat)) :
    ∀ {set : Nat → Prop} {replica : Memory}, AgreeIn set replica page →
      AgreeIn (fun offset => set offset ∨ InBlocks blocks offset)
        (applyAll (copyOps page blocks) 0 replica) page := by
  induction blocks with
  | nil =>
    intro set replica h
    refine h.mono fun offset hset => hset.resolve_right ?_
    rintro ⟨block, hblock, -⟩
    cases hblock
  | cons block blocks ih =>
    intro set replica h
    rw [copyOps, map_cons, applyAll_cons, DecodedOp.apply_update, Nat.zero_add]
    refine (ih (h.write_read block.1 block.2)).mono fun offset hset => ?_
    rcases hset with hset | ⟨other, hmem, hin⟩
    · exact .inl (.inl hset)
    · rcases mem_cons.mp hmem with rfl | hmem
      · exact .inl (.inr hin)
      · exact .inr ⟨other, hmem, hin⟩

theorem agreeIn_replayOps_copyOps {page replica : Memory} {set : Nat → Prop}
    (h : AgreeIn set replica page) (blocks : List (Nat × Nat)) {version : Nat}
    (hver : read page pVersionOffset 8 = natLE 8 version) :
    AgreeIn (fun offset => (set offset ∨ InBlocks blocks offset) ∨
        pVersionOffset ≤ offset ∧ offset < pVersionOffset + 8)
      (replayOps (copyOps page blocks) version replica) page := by
  rw [replayOps, ← hver]
  exact (agreeIn_applyAll_copyOps blocks h).write_read pVersionOffset 8

theorem copyOps_sound {page : Memory} {blocks : List (Nat × Nat)} {pageGaddr version : Nat}
    (hgaddr : pageGaddr < 2 ^ 64) (hver : version < 2 ^ 64) (hfew : blocks.length ≤ 1024)
    (hwithin : ∀ block ∈ blocks, block.1 + block.2 ≤ kLeafPageSize) :
    PageChange.Sound ⟨pageGaddr, version, copyOps page blocks⟩ := by
  refine ⟨hgaddr, hver, ?_, fun op hop => ?_, fun offset value hmem => ?_⟩
  · rw [copyOps, length_map]
    exact hfew
  · obtain ⟨block, hblock, rfl⟩ := mem_map.mp hop
    rw [DecodedOp.within_update, read_length]
    exact hwithin block hblock
  · obtain ⟨block, -, heq⟩ := mem_map.mp hmem
    cases heq

end MemoryEngine.RedoLog
