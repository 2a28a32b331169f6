import MemoryEngine.Txn.DeltaSpace

/-! The collection of old delta records.

The loop follows the records from the head on: it finds the wrap markers where they were
written and the sizes where the records were filled.  It must not come to the tail while
a record behind the tail is not published, because what lies there is of an earlier lap. -/
namespace MemoryEngine.DeltaRing

open ByteMemory Storage LapRing TransitionSystem List Option

/-! ### What the collector reads -/

/-- A delta record whose size is a positive `int`. -/
def IsDelta (bytes : List UInt8) : Prop :=
  bytes.head? = some DeltaRecord.marker ∧ ofLE ((bytes.drop 37).take 4) = bytes.length ∧
    Record.deltaHeaderSize ≤ bytes.length ∧ bytes.length < 2 ^ 31

instance (bytes : List UInt8) : Decidable (IsDelta bytes) :=
  inferInstanceAs (Decidable (_ ∧ _))

def Entry.nextDeltaWts (entry : Entry) : ℕ := ofLE ((entry.bytes.drop 9).take 8)

theorem advanceBy_eq {head size : ℕ} (hsize : size < 2 ^ 31) (hsum : head + size < 2 ^ 64) :
    DeltaSection.advanceBy head size = head + size := by
  unfold DeltaSection.advanceBy
  rw [Int.bmod_eq_of_le (by omega) (by omega)]
  omega

variable {s after : State} {c : Cursor} {entry : Entry} {snapshot turns : ℕ} {ring : DeltaSection}

namespace Inv

theorem reads (h : Inv s c) {index : ℕ} (hget : s.entries[index]? = some entry)
    (hlive : s.reclaimed ≤ index) (hstage : entry.stage.isPublished = true)
    (hdelta : IsDelta entry.bytes) :
    s.ring.localAddr entry.slot.offset = DeltaRecord.marker ∧
      DeltaRecord.nextDeltaWtsAt s.ring.localAddr entry.slot.offset = entry.nextDeltaWts ∧
      DeltaSection.advanceBy entry.slot.offset (DeltaRecord.currentRecordDataSizeAt
        s.ring.localAddr entry.slot.offset) = entry.slot.nextOffset := by
  have hfill : entry.stage ≠ .allocated := by
    intro heq
    rw [heq] at hstage
    exact absurd hstage (by decide)
  have hread := h.contents.bytes index entry hget hfill hlive
  have hlen : entry.bytes.length = entry.block.range.length := by rw [← hread, read_length]
  obtain ⟨hmark, hsize, hhdr, hsmall⟩ := hdelta
  obtain ⟨-, hplaced, -⟩ := h.place.chain.split (blocks_getElem? hget)
  have hinside := hplaced.inside
  have hring := h.place.small
  rw [Record.deltaHeaderSize] at hhdr
  have hrange : entry.block.range.length = entry.block.stop - entry.block.first.offset := rfl
  refine ⟨?_, ?_, ?_⟩
  · have hone := read_part _ hread (show 0 + 1 ≤ entry.block.range.length by omega)
    cases hbytes : entry.bytes with
    | nil =>
      rw [hbytes] at hhdr
      simp at hhdr
    | cons first rest =>
      rw [hbytes] at hone hmark
      have hfirst : s.ring.localAddr entry.block.first.offset = first := by
        simpa [read_succ] using hone
      exact hfirst.trans (by simpa using hmark)
  · exact congrArg ofLE (read_part _ hread (by omega))
  · have hfield : DeltaRecord.currentRecordDataSizeAt s.ring.localAddr entry.slot.offset =
        entry.bytes.length := by
      rw [← hsize]
      exact congrArg ofLE (read_part _ hread (by omega))
    rw [hfield, advanceBy_eq hsmall]
    · show entry.block.first.offset + entry.bytes.length = entry.block.stop
      omega
    · show entry.block.first.offset + entry.bytes.length < 2 ^ 64
      omega

theorem skipFragment_eq (h : Inv s c) (hget : s.entries[s.reclaimed]? = some entry)
    (hstage : entry.stage.isPublished = true) (hdelta : IsDelta entry.bytes) :
    s.ring.skipFragment = { s.ring with head := entry.slot.offset } := by
  have hblock := blocks_getElem? hget
  obtain ⟨-, hplaced, -⟩ := h.place.chain.split hblock
  obtain ⟨hmark, -, -⟩ := h.reads hget (Nat.le_refl _) hstage hdelta
  have hproper := hplaced.proper
  have hinside := hplaced.inside
  -- At the start of the record nothing is skipped.
  have hstart : s.ring.head = entry.slot.offset →
      s.ring.skipFragment = { s.ring with head := entry.slot.offset } := by
    intro hhead
    unfold DeltaSection.skipFragment
    rw [if_neg]
    · rw [← hhead]
    · rw [hhead, hmark]
      refine not_or.mpr ⟨by decide, ?_⟩
      show entry.block.first.offset ≠ s.ring.realSize
      omega
  have hplace := h.place.place
  unfold State.HeadAt at hplace
  rw [hblock] at hplace
  rcases hplace with hprev | ⟨hfirst, -⟩
  · rcases hplaced.start with hsame | hwrap
    · exact hstart (by rw [h.place.head, hprev, ← hsame]; rfl)
    · have hwrapped : entry.block.wrapped = true := by simp [Block.wrapped, hwrap]
      have hzero : entry.slot.offset = 0 := congrArg Cursor.offset hwrap
      have hhead : s.ring.head = entry.block.prev.offset := by rw [h.place.head, hprev]
      unfold DeltaSection.skipFragment
      rw [if_pos, hzero]
      rcases Nat.eq_or_lt_of_le hplaced.room with hend | hroom
      · exact .inr (hhead.trans hend)
      · refine .inl ?_
        rw [hhead]
        exact h.contents.marks _ _ hblock hwrapped hroom
          (Nat.le_of_eq (congrArg (Cursor.address _) hprev))
  · exact hstart (by rw [h.place.head, hfirst]; rfl)

theorem head_eq_tail (h : Inv s c) (hget : s.entries[s.reclaimed]? = some entry)
    (hstage : entry.stage.isPublished = false) :
    s.ring.head = s.ring.tail ∧ s.published.length = s.reclaimed := by
  have hblock := blocks_getElem? hget
  have hrecl := h.publication.reclaimed
  have hiff := h.publication.staged _ _ hget
  rw [hstage] at hiff
  have hall : s.published.length = s.reclaimed :=
    Nat.le_antisymm (Nat.le_of_not_lt fun hlt => absurd (hiff.mpr hlt) (by decide)) hrecl
  have hplace := h.place.place
  unfold State.HeadAt at hplace
  rw [hblock] at hplace
  rcases hplace with hprev | ⟨-, hlt⟩
  · rw [h.place.head, hprev, (h.publication.tail_eq h.place).1 _ (by rw [hall]; exact hblock)]
    exact ⟨rfl, hall⟩
  · omega

end Inv

/-! ### A turn of the loop -/

/-- The published records are delta records, and the collection does not come to a wrap
marker at the tail: every record is published, or there is no marker at the tail, or a
published record is still needed. -/
def State.Orderly (s : State) (snapshot : ℕ) : Prop :=
  (∀ entry ∈ s.live, entry.stage.isPublished = true → IsDelta entry.bytes) ∧
    (s.published.length = s.entries.length ∨
      s.ring.localAddr s.ring.tail ≠ wrapMarker ∧ s.ring.tail ≠ s.ring.realSize ∨
      ∃ entry ∈ s.live, entry.stage.isPublished = true ∧ snapshot ≤ entry.nextDeltaWts)

instance (s : State) (snapshot : ℕ) : Decidable (s.Orderly snapshot) :=
  inferInstanceAs (Decidable (_ ∧ (_ ∨ _ ∨ _)))

theorem mem_live_of_getElem? {index : ℕ} (hget : s.entries[index]? = some entry)
    (hlive : s.reclaimed ≤ index) : entry ∈ s.live := by
  refine mem_of_getElem? (i := index - s.reclaimed) ?_
  rw [State.live, getElem?_drop, Nat.add_sub_cancel' hlive]
  exact hget

theorem live_eq_cons (hget : s.entries[s.reclaimed]? = some entry) :
    s.live = entry :: (s.passed entry).live := by
  obtain ⟨hlt, hentry⟩ := List.getElem?_eq_some_iff.mp hget
  rw [State.live, ← hentry, List.drop_eq_getElem_cons hlt]
  rfl

theorem Orderly.passed (h : s.Orderly snapshot) (hget : s.entries[s.reclaimed]? = some entry)
    (hold : entry.nextDeltaWts < snapshot) : (s.passed entry).Orderly snapshot := by
  obtain ⟨hdelta, hcases⟩ := h
  rw [live_eq_cons hget] at hdelta hcases
  refine ⟨fun other hmem => hdelta other (mem_cons_of_mem _ hmem), ?_⟩
  rcases hcases with hall | hmark | ⟨other, hmem, hstage, hneeded⟩
  · exact .inl hall
  · exact .inr (.inl hmark)
  · refine .inr (.inr ⟨other, ?_, hstage, hneeded⟩)
    rcases mem_cons.mp hmem with rfl | hmem
    · omega
    · exact hmem

/-- The loop stops, with the head where it was or at the start of the oldest record. -/
def State.Stops (s : State) (ring : DeltaSection) : Prop :=
  ring = s.ring ∨ ∃ entry, s.entries[s.reclaimed]? = some entry ∧ entry.stage.isPublished = true ∧
    ring = { s.ring with head := entry.slot.offset }

theorem collect_turn (h : Inv s c) (horderly : s.Orderly snapshot) :
    (∃ ring, s.Stops ring ∧ ∀ turns,
      DeltaSection.garbageCollectionBySnapshot snapshot (turns + 1) s.ring = some (ring, 0)) ∨
    ∃ entry, s.entries[s.reclaimed]? = some entry ∧ entry.stage.isPublished = true ∧
      entry.nextDeltaWts < snapshot ∧ ∀ turns,
        DeltaSection.garbageCollectionBySnapshot snapshot (turns + 1) s.ring =
          (DeltaSection.garbageCollectionBySnapshot snapshot turns (s.passed entry).ring).map
            fun result => (result.1, result.2 + 1) := by
  cases hempty : s.ring.isEmpty with
  | true =>
    refine .inl ⟨s.ring, .inl rfl, fun turns => ?_⟩
    rw [DeltaSection.garbageCollectionBySnapshot, if_pos hempty]
  | false =>
    have hlt : s.reclaimed < s.entries.length := by
      refine Nat.lt_of_le_of_ne h.place.behind fun hall => ?_
      rw [h.place.empty.mpr hall] at hempty
      cases hempty
    have hget := getElem?_eq_getElem hlt
    generalize s.entries[s.reclaimed] = entry at hget
    cases hstage : entry.stage.isPublished with
    | false =>
      obtain ⟨hhead, hall⟩ := h.head_eq_tail hget hstage
      -- No record ahead was published, so the marker is what the collection relies on.
      have hmark : s.ring.localAddr s.ring.tail ≠ wrapMarker ∧ s.ring.tail ≠ s.ring.realSize := by
        rcases horderly.2 with hevery | hmark | ⟨other, hmem, hother, -⟩
        · omega
        · exact hmark
        · obtain ⟨index, hindex⟩ := mem_iff_getElem?.mp hmem
          rw [State.live, getElem?_drop] at hindex
          have hpub := h.published_of_stage hindex hother
          omega
      have hskip : s.ring.skipFragment = s.ring := by
        unfold DeltaSection.skipFragment
        rw [hhead, if_neg (not_or.mpr hmark)]
      refine .inl ⟨s.ring, .inl rfl, fun turns => ?_⟩
      rw [DeltaSection.garbageCollectionBySnapshot, if_neg (by rw [hempty]; decide)]
      simp only [hskip]
      rw [if_pos hhead]
    | true =>
      have hdelta := horderly.1 entry (mem_live_of_getElem? hget (Nat.le_refl _)) hstage
      have hskip := h.skipFragment_eq hget hstage hdelta
      obtain ⟨-, hnext, hsize⟩ := h.reads hget (Nat.le_refl _) hstage hdelta
      have hturn : ∀ turns, DeltaSection.garbageCollectionBySnapshot snapshot (turns + 1) s.ring =
          if entry.slot.offset = s.ring.tail then
            some ({ s.ring with head := entry.slot.offset }, 0)
          else if entry.nextDeltaWts < snapshot then
            (DeltaSection.garbageCollectionBySnapshot snapshot turns (s.passed entry).ring).map
              fun result => (result.1, result.2 + 1)
          else some ({ s.ring with head := entry.slot.offset }, 0) := by
        intro turns
        rw [DeltaSection.garbageCollectionBySnapshot, if_neg (by rw [hempty]; decide)]
        simp only [hskip, hnext, hsize]
        rfl
      by_cases htail : entry.slot.offset = s.ring.tail
      · refine .inl ⟨_, .inr ⟨entry, hget, hstage, rfl⟩, fun turns => ?_⟩
        rw [hturn, if_pos htail]
      · by_cases hold : entry.nextDeltaWts < snapshot
        · refine .inr ⟨entry, hget, hstage, hold, fun turns => ?_⟩
          rw [hturn, if_neg htail, if_pos hold]
        · refine .inl ⟨_, .inr ⟨entry, hget, hstage, rfl⟩, fun turns => ?_⟩
          rw [hturn, if_neg htail, if_neg hold]

/-! ### The whole collection -/

/-- The records that the head moved over were published and are not needed any more, and
only the head and the flag changed. -/
structure Passes (s after : State) (snapshot : ℕ) : Prop where
  onward : s.reclaimed ≤ after.reclaimed
  old : ∀ index, s.reclaimed ≤ index → index < after.reclaimed → ∃ entry,
    s.entries[index]? = some entry ∧ entry.stage.isPublished = true ∧ entry.nextDeltaWts < snapshot
  entries : after.entries = s.entries
  published : after.published = s.published
  ring : after.ring = { s.ring with head := after.ring.head, isEmpty := after.ring.isEmpty }

theorem Passes.step {middle : State} (hget : s.entries[s.reclaimed]? = some entry)
    (hstage : entry.stage.isPublished = true) (hold : entry.nextDeltaWts < snapshot)
    (hmid : middle = s.passed entry) (h : Passes middle after snapshot) :
    Passes s after snapshot := by
  subst hmid
  refine ⟨Nat.le_trans (Nat.le_succ _) h.onward, ?_, h.entries, h.published, h.ring⟩
  intro index hge hlt
  rcases Nat.eq_or_lt_of_le hge with rfl | hgt
  · exact ⟨entry, hget, hstage, hold⟩
  · exact h.old index hgt hlt

theorem collect_inv (h : Inv s c) (horderly : s.Orderly snapshot)
    (hcollect : s.collect snapshot turns = some after) :
    ∃ d, Inv after d ∧ c.address s.ring.realSize ≤ d.address s.ring.realSize ∧
      Passes s after snapshot := by
  induction turns generalizing s c with
  | zero =>
    obtain ⟨result, hnone, -⟩ := map_eq_some_iff.mp hcollect
    cases hnone
  | succ turns ih =>
    obtain ⟨result, hres, rfl⟩ := map_eq_some_iff.mp hcollect
    rcases collect_turn h horderly with ⟨ring, hstops, hturn⟩ | ⟨entry, hget, hstage, hold, hturn⟩
    · rw [hturn] at hres
      cases hres
      rcases hstops with rfl | ⟨entry, hget, hstage, rfl⟩
      · exact ⟨c, h, Nat.le_refl _, Nat.le_refl _,
          fun index hge hlt => absurd hlt (Nat.not_lt.mpr hge), rfl, rfl, rfl⟩
      · exact ⟨entry.block.first, h.skip hget hstage,
          h.place.head_le_first (blocks_getElem? hget) (Nat.le_refl _), Nat.le_refl _,
          fun index hge hlt => absurd hlt (Nat.not_lt.mpr hge), rfl, rfl, rfl⟩
    · rw [hturn] at hres
      obtain ⟨rest, hrest, rfl⟩ := map_eq_some_iff.mp hres
      have hmid : (s.passed entry).collect snapshot turns =
          some { s with ring := rest.1, reclaimed := s.reclaimed + (rest.2 + 1) } := by
        refine map_eq_some_iff.mpr ⟨rest, hrest, ?_⟩
        show State.mk _ _ _ (s.reclaimed + 1 + rest.2) = State.mk _ _ _ (s.reclaimed + (rest.2 + 1))
        rw [Nat.add_assoc, Nat.add_comm 1]
        rfl
      obtain ⟨d, hinv, hle, hpasses⟩ :=
        ih (h.advance hget hstage) (Orderly.passed horderly hget hold) hmid
      obtain ⟨-, hplaced, -⟩ := h.place.chain.split (blocks_getElem? hget)
      have hfirst := h.place.head_le_first (blocks_getElem? hget) (Nat.le_refl _)
      have hproper := hplaced.first_lt_last
      replace hle : entry.block.last.address s.ring.realSize ≤ d.address s.ring.realSize := hle
      exact ⟨d, hinv, by omega, hpasses.step hget hstage hold rfl⟩

theorem collect_returns (h : Inv s c) (horderly : s.Orderly snapshot) :
    ∃ turns after, s.collect snapshot turns = some after := by
  obtain ⟨left, hleft⟩ : ∃ left, s.entries.length - s.reclaimed = left := ⟨_, rfl⟩
  induction left generalizing s c with
  | zero =>
    rcases collect_turn h horderly with ⟨ring, -, hturn⟩ | ⟨entry, hget, -, -, -⟩
    · exact ⟨1, _, Option.map_eq_some_iff.mpr ⟨_, hturn 0, rfl⟩⟩
    · obtain ⟨hlt, -⟩ := List.getElem?_eq_some_iff.mp hget
      omega
  | succ left ih =>
    rcases collect_turn h horderly with ⟨ring, -, hturn⟩ | ⟨entry, hget, hstage, hold, hturn⟩
    · exact ⟨1, _, Option.map_eq_some_iff.mpr ⟨_, hturn 0, rfl⟩⟩
    · have hfewer : (s.passed entry).entries.length - (s.passed entry).reclaimed = left := by
        show s.entries.length - (s.reclaimed + 1) = left
        omega
      obtain ⟨turns, after, hcollect⟩ :=
        ih (h.advance hget hstage) (Orderly.passed horderly hget hold) hfewer
      obtain ⟨result, hres, -⟩ := Option.map_eq_some_iff.mp hcollect
      have hmore : DeltaSection.garbageCollectionBySnapshot snapshot (turns + 1) s.ring =
          some (result.1, result.2 + 1) := by
        rw [hturn turns, hres]
        rfl
      exact ⟨turns + 1, _, Option.map_eq_some_iff.mpr ⟨_, hmore, rfl⟩⟩

theorem Inv.head_cases (h : Inv s c) : s.ring.head = s.ring.tail ∨
    ∃ entry, s.entries[s.reclaimed]? = some entry ∧ entry.stage.isPublished = true ∧
      (s.ring.head = entry.slot.offset ∨ entry.block.wrapped = true ∧
        s.ring.head = entry.slot.prevOffset ∧
        (s.ring.localAddr s.ring.head = wrapMarker ∨ s.ring.head = s.ring.realSize)) := by
  cases hget : s.entries[s.reclaimed]? with
  | none =>
    have hlen := getElem?_eq_none_iff.mp hget
    have hrecl := h.publication.reclaimed
    have hwithin := h.publication.within
    have hall : s.reclaimed = s.entries.length := Nat.le_antisymm h.place.behind hlen
    have hcur := h.place.head_eq_cursor (h.place.empty.mpr hall)
    left
    rw [(h.publication.tail_eq h.place).2 (by omega), h.place.head, h.place.tail, hcur]
  | some entry =>
    cases hstage : entry.stage.isPublished with
    | false => exact .inl (h.head_eq_tail hget hstage).1
    | true =>
      refine .inr ⟨entry, rfl, hstage, ?_⟩
      have hblock := blocks_getElem? hget
      obtain ⟨-, hplaced, -⟩ := h.place.chain.split hblock
      have hplace := h.place.place
      unfold State.HeadAt at hplace
      rw [hblock] at hplace
      rcases hplace with hprev | ⟨hfirst, -⟩
      · rcases hplaced.start with hsame | hwrap
        · exact .inl (by rw [h.place.head, hprev, ← hsame]; rfl)
        · have hwrapped : entry.block.wrapped = true := by simp [Block.wrapped, hwrap]
          have hhead : s.ring.head = entry.block.prev.offset := by rw [h.place.head, hprev]
          refine .inr ⟨hwrapped, hhead, ?_⟩
          rcases Nat.eq_or_lt_of_le hplaced.room with hend | hroom
          · exact .inr (hhead.trans hend)
          · refine .inl ?_
            rw [hhead]
            exact h.contents.marks _ _ hblock hwrapped hroom
              (Nat.le_of_eq (congrArg (Cursor.address _) hprev))
      · exact .inl (by rw [h.place.head, hfirst]; rfl)

/-! ### Runs -/

/-- What keeps the ring in order: a record that wraps is not longer than what is free
before the head, and a collection does not come to a marker at the tail. -/
def Careful (s : State) : Event → Prop
  | .allocate size => 0 < size ∧ size < s.ring.realSize ∧ s.ring.Fits size
  | .collect snapshot _ => s.Orderly snapshot
  | _ => True

instance (s : State) : ∀ event, Decidable (Careful s event) := by
  rintro (_ | _) <;> dsimp only [Careful] <;> infer_instance

def Started (s : State) : Prop := ∃ realSize, 0 < realSize ∧ realSize < 2 ^ 64 ∧ s = .init realSize

theorem Inv.step {event : Event} (h : Inv s c) (hcare : Careful s event)
    (hstep : DeltaRing.step s event = some after) :
    ∃ d, Inv after d ∧ c.address s.ring.realSize ≤ d.address s.ring.realSize := by
  cases event with
  | allocate size => exact ⟨c, h.allocate hcare.1 hcare.2.1 hcare.2.2 hstep, Nat.le_refl _⟩
  | fill index bytes => exact ⟨c, h.fill hstep, Nat.le_refl _⟩
  | count index => exact ⟨c, h.count hstep, Nat.le_refl _⟩
  | publish index => exact ⟨c, (h.publish hstep).1, Nat.le_refl _⟩
  | name index => exact ⟨c, h.name hstep, Nat.le_refl _⟩
  | skip =>
    obtain ⟨entry, hget, hstage, rfl⟩ := skip_cases hstep
    exact ⟨entry.block.first, h.skip hget hstage,
      h.place.head_le_first (blocks_getElem? hget) (Nat.le_refl _)⟩
  | advance =>
    obtain ⟨entry, hget, hstage, rfl⟩ := advance_cases hstep
    obtain ⟨-, hplaced, -⟩ := h.place.chain.split (blocks_getElem? hget)
    have hfirst := h.place.head_le_first (blocks_getElem? hget) (Nat.le_refl _)
    have hproper := hplaced.first_lt_last
    exact ⟨entry.block.last, h.advance hget hstage, by omega⟩
  | collect snapshot turns =>
    obtain ⟨d, hinv, hle, -⟩ := collect_inv h hcare hstep
    exact ⟨d, hinv, hle⟩

theorem inv_of_reachable (h : Reachable step Careful Started s) : ∃ c, Inv s c := by
  refine @Reachable.invariant _ _ _ _ _ _ (fun s => ∃ c, Inv s c) ?_ ?_ h
  · rintro state ⟨realSize, hpos, hsmall, rfl⟩
    exact ⟨_, Inv.init hpos hsmall⟩
  · rintro state event after ⟨c, hinv⟩ hcare hstep
    obtain ⟨d, hafter, -⟩ := hinv.step hcare hstep
    exact ⟨d, hafter⟩

/-- An allocation returns a range of the ring that no record ahead of the head uses. -/
theorem allocateDelta_apart {size : ℕ} {slot : Slot} (h : Reachable step Careful Started s)
    (hpos : 0 < size) (hsize : size < s.ring.realSize) (hfits : s.ring.Fits size)
    (halloc : s.ring.allocateDelta size = some (slot, ring)) :
    slot.range.Within ⟨0, s.ring.realSize⟩ ∧
      ∀ entry ∈ s.live, slot.range.Apart entry.block.range := by
  obtain ⟨c, hinv⟩ := inv_of_reachable h
  have hstep : s.allocate size = some (s.addEntry (s.blockFor size) ring) :=
    map_eq_some_iff.mpr ⟨_, halloc, rfl⟩
  obtain ⟨hfree, -⟩ := allocate_cases hstep
  have hslot : slot = s.ring.slotFor size := by
    rw [DeltaSection.allocateDelta, if_neg hfree] at halloc
    exact (congrArg Prod.fst (Option.some.inj halloc)).symm
  have hrange : slot.range = (s.blockFor size).range := by
    rw [hslot]
    rfl
  have hplaced := hinv.place.blockFor_placed hpos hsize
  rw [hrange]
  refine ⟨hplaced.range_within, fun entry hmem => ?_⟩
  obtain ⟨index, hindex⟩ := mem_iff_getElem?.mp hmem
  rw [State.live, getElem?_drop] at hindex
  have hblock := blocks_getElem? hindex
  obtain ⟨-, holder, -⟩ := hinv.place.chain.split hblock
  have hprev := hplaced.prev_le_first
  rw [hinv.place.blockFor_prev] at hprev
  exact hplaced.apart holder (Nat.le_trans (hinv.place.chain.last_le hblock) hprev)
    (Nat.le_trans (hinv.place.blockFor_window hfits hfree hsize) (Nat.add_le_add_right
      (hinv.place.head_le_first hblock (Nat.le_add_right _ _)) _))

def appendRecord (index : ℕ) (bytes : List UInt8) : List Event :=
  [.allocate bytes.length, .fill index bytes, .count index, .publish index]

theorem allocateDelta_apart_wraps :
    ∃ s, Reachable step Careful Started s ∧ ∃ slot ring,
      s.ring.allocateDelta 60 = some (slot, ring) ∧ slot.offset = 0 ∧
      slot.range.Within ⟨0, s.ring.realSize⟩ ∧
      ∀ entry ∈ s.live, slot.range.Apart entry.block.range := by
  obtain ⟨s, hreach, hsize, hfits, hfree, hwraps⟩ : ∃ s, Reachable step Careful Started s ∧
      60 < s.ring.realSize ∧ s.ring.Fits 60 ∧
      ¬ (s.ring.isEmpty = false ∧ s.ring.freeSpace ≤ 60) ∧ (s.ring.slotFor 60).offset = 0 :=
    Reachable.exists_of_schedule (appendRecord 0 (replicate 180 0) ++ [.advance] ++
      appendRecord 1 (replicate 90 0)) ⟨300, by decide, by decide, rfl⟩ (by decide +kernel)
  have halloc : s.ring.allocateDelta 60 = some (s.ring.slotFor 60, s.ring.reserve 60) :=
    if_neg hfree
  exact ⟨s, hreach, _, _, halloc, hwraps,
    allocateDelta_apart hreach (by decide) hsize hfits halloc⟩

/-! ### A record that wraps over the oldest one -/

/-- Any allocation of less than the ring, and head moves over published records. -/
def AnySize (s : State) : Event → Prop
  | .allocate size => size < s.ring.realSize
  | .collect .. => False
  | _ => True

instance (s : State) : ∀ event, Decidable (AnySize s event) := by
  rintro (_ | _) <;> dsimp only [AnySize] <;> infer_instance

def overlapping : List Event :=
  appendRecord 0 (replicate 60 0) ++ [.advance] ++ appendRecord 1 (replicate 510 0)

theorem overlapping_not_apart :
    ∃ s, Reachable step AnySize Started s ∧ ∃ slot ring, 72 < s.ring.realSize ∧
      s.ring.allocateDelta 72 = some (slot, ring) ∧
      ∃ entry ∈ s.live, ¬ slot.range.Apart entry.block.range := by
  obtain ⟨s, hreach, hsize, hfree, hentry⟩ : ∃ s, Reachable step AnySize Started s ∧
      72 < s.ring.realSize ∧ ¬ (s.ring.isEmpty = false ∧ s.ring.freeSpace ≤ 72) ∧
      ∃ entry ∈ s.live, ¬ (s.ring.slotFor 72).range.Apart entry.block.range :=
    Reachable.exists_of_schedule overlapping ⟨600, by decide, by decide, rfl⟩ (by decide +kernel)
  exact ⟨s, hreach, _, _, hsize, if_neg hfree, hentry⟩

structure Collected (s after : State) (snapshot : ℕ) : Prop where
  passes : Passes s after snapshot
  notPast : after.reclaimed ≤ after.published.length
  head : after.ring.head = after.ring.tail ∨
    ∃ entry, after.entries[after.reclaimed]? = some entry ∧ entry.stage.isPublished = true ∧
      (after.ring.head = entry.slot.offset ∨ entry.block.wrapped = true ∧
        after.ring.head = entry.slot.prevOffset ∧
        (after.ring.localAddr after.ring.head = wrapMarker ∨ after.ring.head = after.ring.realSize))
  empty : after.ring.isEmpty = true → after.reclaimed = after.entries.length

/-- A collection ends and moves the head over published records that are not needed any
more, in the order of the ring and not past the tail. -/
theorem collect_collected (h : Reachable step Careful Started s) (horderly : s.Orderly snapshot) :
    (∃ turns after, s.collect snapshot turns = some after) ∧
      ∀ turns after, s.collect snapshot turns = some after → Collected s after snapshot := by
  obtain ⟨c, hinv⟩ := inv_of_reachable h
  refine ⟨collect_returns hinv horderly, fun turns after hcollect => ?_⟩
  obtain ⟨d, hafter, -, hpasses⟩ := collect_inv hinv horderly hcollect
  exact ⟨hpasses, hafter.publication.reclaimed, hafter.head_cases, hafter.place.empty.mp⟩

def sampleDelta (size nextDeltaWts : ℕ) : List UInt8 :=
  DeltaRecord.bytes ⟨0, nextDeltaWts, 0, 0, 0, size, replicate (size - Record.deltaHeaderSize) 0⟩

theorem collect_collected_two :
    ∃ s, Reachable step Careful Started s ∧ (∃ entry ∈ s.live, entry.stage = .allocated) ∧
      (∃ turns after, s.collect 10 turns = some after) ∧
      ∀ turns after, s.collect 10 turns = some after → Collected s after 10 := by
  obtain ⟨s, hreach, horderly, hallocated⟩ : ∃ s, Reachable step Careful Started s ∧
      s.Orderly 10 ∧ ∃ entry ∈ s.live, entry.stage = .allocated :=
    Reachable.exists_of_schedule (appendRecord 0 (sampleDelta 150 1) ++
      appendRecord 1 (sampleDelta 150 2) ++ [.allocate 150]) ⟨600, by decide, by decide, rfl⟩
      (by decide +kernel)
  exact ⟨s, hreach, hallocated, collect_collected hreach horderly⟩

/-! ### A collection past the tail -/

/-- Allocations, fills, publications and collections of delta records in a ring where no
record is overwritten. -/
def AnyCollection (s : State) : Event → Prop
  | .allocate size => 0 < size ∧ size < s.ring.realSize ∧ s.ring.Fits size
  | .fill _ bytes => IsDelta bytes
  | .skip => False
  | .advance => False
  | _ => True

instance (s : State) : ∀ event, Decidable (AnyCollection s event) := by
  rintro (_ | _) <;> dsimp only [AnyCollection] <;> infer_instance

def unfilledWrap : List Event :=
  appendRecord 0 (sampleDelta 150 1) ++ appendRecord 1 (sampleDelta 150 2) ++
    [.collect 2 2, .allocate 150]

theorem unfilledWrap_not_collected :
    ∃ s, Reachable step AnyCollection Started s ∧ ∃ after, s.collect 10 5 = some after ∧
      after.ring.isEmpty = true ∧ (∃ entry ∈ s.live, entry.stage = .allocated) ∧
      ¬ Collected s after 10 := by
  obtain ⟨s, hreach, hsome⟩ : ∃ s, Reachable step AnyCollection Started s ∧
      (s.collect 10 5).any (fun after => after.ring.isEmpty = true ∧
        (∃ entry ∈ s.live, entry.stage = .allocated) ∧ after.published.length < after.reclaimed) :=
    Reachable.exists_of_schedule unfilledWrap ⟨420, by decide, by decide, rfl⟩ (by decide +kernel)
  obtain ⟨after, hafter, hseen⟩ := (any_eq_true _ _).mp hsome
  obtain ⟨hempty, hentry, hpast⟩ := of_decide_eq_true hseen
  exact ⟨s, hreach, after, hafter, hempty, hentry,
    fun hcollected => Nat.not_lt.mpr hcollected.notPast hpast⟩

end MemoryEngine.DeltaRing
