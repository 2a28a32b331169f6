import MemoryEngine.Txn.DeltaCollection

/-! The order of publication and the epochs.

A thread publishes by a compare-and-swap from the offset where its record follows.  That
offset comes back in every lap, but not before the head has passed it.  The epoch counts
the wraps of the records whose threads came that far. -/
namespace MemoryEngine.DeltaRing

open ByteMemory Storage LapRing TransitionSystem List

variable {s after : State} {c : Cursor} {entry : Entry} {event : Event} {index size : ℕ}

/-! ### Runs without overlap -/

/-- No record that the head has not passed is overwritten. -/
def State.Clear (s : State) (size : ℕ) : Prop :=
  ∀ entry ∈ s.live, (s.ring.slotFor size).range.Apart entry.block.range

instance (s : State) (size : ℕ) : Decidable (s.Clear size) :=
  inferInstanceAs (Decidable (∀ _ ∈ _, _))

/-- A record that wraps ends before the record before it. -/
def DeltaSection.Counted (ring : DeltaSection) (size : ℕ) : Prop :=
  ring.wraps size = true → size < ring.tailAllocated

instance (ring : DeltaSection) (size : ℕ) : Decidable (ring.Counted size) :=
  inferInstanceAs (Decidable (_ → _))

/-- No overlap, collections that do not pass the tail, and wraps that are counted. -/
def InOrder (s : State) : Event → Prop
  | .allocate size => 0 < size ∧ size < s.ring.realSize ∧ s.Clear size ∧ s.ring.Counted size
  | .collect snapshot _ => s.Orderly snapshot
  | _ => True

instance (s : State) : ∀ event, Decidable (InOrder s event) := by
  rintro (_ | _) <;> dsimp only [InOrder] <;> infer_instance

theorem fits_of_clear (h : Inv s c) (hpos : 0 < size) (hclear : s.Clear size)
    (hcntd : s.ring.Counted size) : s.ring.Fits size := by
  intro hwraps
  have hslot : s.ring.slotFor size = ⟨s.ring.tailAllocated, 0, 0 + size⟩ := by
    simp [DeltaSection.slotFor, hwraps]
  cases hget : s.entries[s.reclaimed]? with
  | none =>
    have hall : s.reclaimed = s.entries.length :=
      Nat.le_antisymm h.place.behind (getElem?_eq_none_iff.mp hget)
    have hcur := h.place.head_eq_cursor (h.place.empty.mpr hall)
    rw [h.place.head, hcur, ← h.place.tail]
    exact Nat.le_of_lt (hcntd hwraps)
  | some oldest =>
    have hblock := blocks_getElem? hget
    obtain ⟨-, hplaced, -⟩ := h.place.chain.split hblock
    have hproper := hplaced.proper
    have hapart := hclear oldest (mem_live_of_getElem? hget (Nat.le_refl _))
    rw [hslot] at hapart
    simp only [ByteRange.Apart, Slot.range, Block.range] at hapart
    have hplace := h.place.place
    unfold State.HeadAt at hplace
    rw [hblock] at hplace
    rw [h.place.head]
    rcases hplace with hprev | ⟨hfirst, -⟩
    · rcases hplaced.start with hsame | hwrap
      · rw [hprev, ← hsame]
        omega
      · rw [hwrap] at hapart
        simp only at hapart
        omega
    · rw [hfirst]
      omega

theorem careful_of_inOrder (h : Inv s c) (hallow : InOrder s event) : Careful s event := by
  cases event with
  | allocate size =>
    obtain ⟨hpos, hsize, hclear, hcntd⟩ := hallow
    exact ⟨hpos, hsize, fits_of_clear h hpos hclear hcntd⟩
  | collect snapshot turns => exact hallow
  | _ => trivial

/-! ### Epochs -/

def Stage.isCounted : Stage → Bool
  | .allocated => false
  | .filled => false
  | _ => true

def Entry.countedWrap (entry : Entry) : Bool := entry.block.wrapped && entry.stage.isCounted

/-- The epoch is the number of wraps whose threads counted them. -/
structure Epochs (s : State) : Prop where
  wrapped : ∀ entry ∈ s.entries,
    (entry.block.wrapped = true ↔ entry.slot.nextOffset < entry.slot.prevOffset)
  epoch : s.ring.epoch = s.entries.countP Entry.countedWrap

theorem countP_setEntry (next : Entry) (ring : DeltaSection)
    (hget : s.entries[index]? = some entry) :
    (s.setEntry index next ring).entries.countP Entry.countedWrap +
        (if entry.countedWrap then 1 else 0) =
      s.entries.countP Entry.countedWrap + if next.countedWrap then 1 else 0 := by
  obtain ⟨hlt, hentry⟩ := List.getElem?_eq_some_iff.mp hget
  have hcount := List.countP_set (p := Entry.countedWrap) (a := next) hlt
  rw [hentry] at hcount
  have hmem : (if entry.countedWrap then 1 else 0) ≤ s.entries.countP Entry.countedWrap := by
    split
    · rename_i hcntd
      exact List.countP_pos_iff.mpr ⟨entry, List.mem_of_getElem? hget, hcntd⟩
    · exact Nat.zero_le _
  rw [State.setEntry, hcount]
  omega

variable {ring : DeltaSection}

namespace Epochs

variable (h : Epochs s)
include h

theorem setEntry {next : Entry}
    (hget : s.entries[index]? = some entry) (hblock : next.block = entry.block)
    (hepoch : ring.epoch + (if entry.countedWrap then 1 else 0) =
      s.ring.epoch + if next.countedWrap then 1 else 0) : Epochs (s.setEntry index next ring) := by
  constructor
  · intro other hmem
    rcases mem_or_eq_of_mem_set hmem with hold | rfl
    · exact h.wrapped other hold
    · rw [Entry.slot, hblock]
      exact h.wrapped entry (mem_of_getElem? hget)
  · have hcount := countP_setEntry next ring hget
    rw [h.epoch] at hepoch
    show ring.epoch = _
    omega

theorem congr (hents : after.entries = s.entries)
    (hepoch : after.ring.epoch = s.ring.epoch) : Epochs after :=
  ⟨hents ▸ h.wrapped, by rw [hepoch, hents, h.epoch]⟩

theorem allocate (hcntd : s.ring.Counted size)
    (hstep : s.allocate size = some after) : Epochs after := by
  obtain ⟨-, rfl⟩ := allocate_cases hstep
  constructor
  · intro other hmem
    rcases mem_append.mp hmem with hold | hnew
    · exact h.wrapped other hold
    · cases mem_singleton.mp hnew
      by_cases hwraps : s.ring.wraps size = true
      · have hlt := hcntd hwraps
        simpa [Block.wrapped, State.blockFor, Entry.slot, DeltaSection.slotFor, hwraps] using hlt
      · simp [Block.wrapped, State.blockFor, Entry.slot, DeltaSection.slotFor, hwraps]
  · show s.ring.epoch = (s.entries ++ [_]).countP _
    rw [countP_append, countP_singleton, h.epoch]
    simp [Entry.countedWrap, Stage.isCounted]

theorem count (hstep : s.count index = some after) : Epochs after := by
  obtain ⟨entry, hget, hstage, rfl⟩ := count_cases hstep
  refine h.setEntry hget rfl ?_
  have hiff := h.wrapped entry (mem_of_getElem? hget)
  have hpre : entry.countedWrap = false := by
    simp [Entry.countedWrap, hstage, Stage.isCounted]
  have hafter : ({ entry with stage := .counted } : Entry).countedWrap = entry.block.wrapped := by
    simp [Entry.countedWrap, Stage.isCounted]
  rw [hpre, hafter, DeltaSection.countWrap]
  by_cases hwrapped : entry.block.wrapped = true
  · rw [if_pos (hiff.mp hwrapped), hwrapped]
    rfl
  · rw [if_neg (fun hlt => hwrapped (hiff.mpr hlt)), if_neg hwrapped]
    rfl

theorem sameStage {next : Entry} (hget : s.entries[index]? = some entry)
    (hblock : next.block = entry.block) (hstage : next.stage.isCounted = entry.stage.isCounted)
    (hepoch : ring.epoch = s.ring.epoch) : Epochs (s.setEntry index next ring) :=
  h.setEntry hget hblock (by rw [Entry.countedWrap, Entry.countedWrap, hblock, hstage, hepoch])

theorem step (hinv : Inv s c) (hallow : InOrder s event)
    (hstep : DeltaRing.step s event = some after) : Epochs after := by
  cases event with
  | allocate size => exact h.allocate hallow.2.2.2 hstep
  | fill index bytes =>
    obtain ⟨entry, hget, hstage, -, rfl⟩ := fill_cases hstep
    exact h.sameStage hget rfl (by rw [hstage]; rfl) rfl
  | count index => exact h.count hstep
  | publish index =>
    obtain ⟨entry, hget, hstage, -, rfl⟩ := publish_cases hstep
    have hset : Epochs (s.setEntry index { entry with stage := .published }
        { s.ring with tail := entry.slot.nextOffset }) :=
      h.sameStage hget rfl (by rw [hstage]; rfl) rfl
    exact ⟨hset.wrapped, hset.epoch⟩
  | name index =>
    obtain ⟨entry, hget, hstage, rfl⟩ := name_cases hstep
    exact h.sameStage hget rfl (by rw [hstage]; rfl) rfl
  | skip =>
    obtain ⟨entry, -, -, rfl⟩ := skip_cases hstep
    exact h.congr rfl rfl
  | advance =>
    obtain ⟨entry, -, -, rfl⟩ := advance_cases hstep
    exact h.congr rfl rfl
  | collect snapshot turns =>
    obtain ⟨-, -, -, hpasses⟩ := collect_inv hinv hallow hstep
    have hepoch := congrArg DeltaSection.epoch hpasses.ring
    exact h.congr hpasses.entries hepoch

end Epochs

theorem epochs_of_reachable (h : Reachable step InOrder Started s) : (∃ c, Inv s c) ∧ Epochs s := by
  refine @Reachable.invariant _ _ _ _ _ _ (fun s => (∃ c, Inv s c) ∧ Epochs s) ?_ ?_ h
  · rintro state ⟨realSize, hpos, hsmall, rfl⟩
    exact ⟨⟨_, Inv.init hpos hsmall⟩, fun _ hmem => absurd hmem not_mem_nil, rfl⟩
  · rintro state event after ⟨⟨c, hinv⟩, heps⟩ hallow hstep
    obtain ⟨d, hafter, -⟩ := hinv.step (careful_of_inOrder hinv hallow) hstep
    exact ⟨⟨d, hafter⟩, heps.step hinv hallow hstep⟩

/-! ### The order of publication -/

theorem countP_countedWrap (hinv : Inv s c) (hall : s.published.length = s.entries.length) :
    s.entries.countP Entry.countedWrap = s.entries.countP fun entry => entry.block.wrapped := by
  refine List.countP_congr fun entry hmem => ?_
  obtain ⟨index, hindex⟩ := List.mem_iff_getElem?.mp hmem
  obtain ⟨hlt, -⟩ := List.getElem?_eq_some_iff.mp hindex
  have hstage := (hinv.publication.staged index entry hindex).mpr (by omega)
  have hcntd : entry.stage.isCounted = true := by
    cases hcase : entry.stage <;> rw [hcase] at hstage <;> first | rfl | cases hstage
  rw [Entry.countedWrap, hcntd, Bool.and_true]

/-- Records are published once each and in the order of allocation, the tail takes the
values of the allocated tail one after the other, and the epoch counts the wraps. -/
theorem publication_order (h : Reachable step InOrder Started s) :
    s.published.map Prod.fst = List.range s.published.length ∧
      s.published.map Prod.snd =
        (s.entries.take s.published.length).map (fun entry => entry.slot.nextOffset) ∧
      s.ring.tail = (s.published.getLast?.map Prod.snd).getD 0 ∧
      s.ring.tailAllocated = (s.entries.getLast?.map fun entry => entry.slot.nextOffset).getD 0 ∧
      (s.published.length = s.entries.length →
        s.ring.epoch = s.entries.countP fun entry => entry.block.wrapped) := by
  obtain ⟨⟨c, hinv⟩, heps⟩ := epochs_of_reachable h
  have hwithin := hinv.publication.within
  have hlog : ∀ index < s.published.length, ∃ entry, s.entries[index]? = some entry ∧
      s.published[index]? = some (index, entry.slot.nextOffset) := by
    intro index hlt
    have hget := getElem?_eq_getElem (show index < s.entries.length by omega)
    exact ⟨_, hget, hinv.publication.log index _ hlt hget⟩
  refine ⟨?_, ?_, hinv.publication.tail, ?_, fun hall => ?_⟩
  · apply ext_getElem?
    intro index
    rw [getElem?_map]
    rcases Nat.lt_or_ge index s.published.length with hlt | hge
    · obtain ⟨entry, -, hentry⟩ := hlog index hlt
      rw [hentry, getElem?_range hlt]
      rfl
    · rw [getElem?_eq_none hge, getElem?_eq_none (by rwa [length_range])]
      rfl
  · apply ext_getElem?
    intro index
    rw [getElem?_map, getElem?_map]
    rcases Nat.lt_or_ge index s.published.length with hlt | hge
    · obtain ⟨entry, hget, hentry⟩ := hlog index hlt
      rw [hentry, getElem?_take_of_lt hlt, hget]
      rfl
    · rw [getElem?_eq_none hge, getElem?_eq_none]
      · rfl
      · rw [length_take]
        omega
  · rw [hinv.place.tail, State.cursor, State.blocks, getLast?_map]
    cases s.entries.getLast? with
    | none => rfl
    | some entry => rfl
  · rw [heps.epoch, countP_countedWrap hinv hall]

theorem publication_order_wraps :
    ∃ s, Reachable step InOrder Started s ∧ s.published.length = s.entries.length ∧
      s.published.map Prod.fst = [0, 1, 2] ∧ s.published.map Prod.snd = [180, 270, 120] ∧
      s.ring.epoch = 1 ∧
      s.published.map Prod.fst = List.range s.published.length := by
  obtain ⟨s, hreach, hall, hfst, hsnd, hepoch⟩ : ∃ s, Reachable step InOrder Started s ∧
      s.published.length = s.entries.length ∧ s.published.map Prod.fst = [0, 1, 2] ∧
      s.published.map Prod.snd = [180, 270, 120] ∧ s.ring.epoch = 1 :=
    Reachable.exists_of_schedule (appendRecord 0 (replicate 180 0) ++ [.advance,
      .allocate 90, .allocate 120, .fill 2 (replicate 120 0), .fill 1 (replicate 90 0),
      .count 2, .count 1, .publish 1, .publish 2]) ⟨300, by decide, by decide, rfl⟩
      (by decide +kernel)
  exact ⟨s, hreach, hall, hfst, hsnd, hepoch, (publication_order hreach).1⟩

/-- No overlap and head moves over published records, but records of any size. -/
def NoOverlap (s : State) : Event → Prop
  | .allocate size => 0 < size ∧ size < s.ring.realSize ∧ s.Clear size
  | .collect .. => False
  | _ => True

instance (s : State) : ∀ event, Decidable (NoOverlap s event) := by
  rintro (_ | _) <;> dsimp only [NoOverlap] <;> infer_instance

def longWrap : List Event :=
  appendRecord 0 (replicate 90 0) ++ [.advance] ++ appendRecord 1 (replicate 240 0)

theorem longWrap_not_counted :
    ∃ s, Reachable step NoOverlap Started s ∧ s.published.length = s.entries.length ∧
      s.ring.epoch ≠ s.entries.countP fun entry => entry.block.wrapped :=
  Reachable.exists_of_schedule longWrap ⟨300, by decide, by decide, rfl⟩ (by decide +kernel)

/-! ### Pointers -/

def Stage.isNamed : Stage → Bool
  | .named .. => true
  | _ => false

/-- In addition, no wrap is counted while the thread of an earlier record still has to
read the epoch. -/
def Paced (s : State) : Event → Prop
  | .count index => ∀ entry ∈ s.entries[index]?, entry.block.wrapped = true →
      ∀ earlier ∈ s.entries.take index, earlier.stage.isNamed = true
  | event => InOrder s event

instance (s : State) : ∀ event, Decidable (Paced s event) := by
  rintro (_ | _) <;> dsimp only [Paced] <;> infer_instance

theorem inOrder_of_paced (h : Paced s event) : InOrder s event := by
  cases event <;> first | exact h | trivial

/-- The wraps that had occurred when a record was allocated, its own included. -/
def State.wrapsAt (s : State) (index : ℕ) : ℕ :=
  (s.entries.take (index + 1)).countP fun entry => entry.block.wrapped

theorem wrapsAt_eq (s : State) (index : ℕ) :
    s.wrapsAt index = (s.blocks.take (index + 1)).countP Block.wrapped := by
  rw [State.wrapsAt, State.blocks, ← map_take, countP_map]
  rfl

theorem wrapsAt_congr (h : after.blocks = s.blocks) (index : ℕ) :
    after.wrapsAt index = s.wrapsAt index := by
  rw [wrapsAt_eq, wrapsAt_eq, h]

structure Named (s : State) : Prop where
  paced : ∀ (later : ℕ) (entry : Entry), s.entries[later]? = some entry →
    entry.countedWrap = true → ∀ (index : ℕ) (earlier : Entry), index < later →
      s.entries[index]? = some earlier → earlier.stage.isNamed = true
  pointers : ∀ (index : ℕ) (entry : Entry) (prevVersion prevDeltaEpoch : ℕ),
    s.entries[index]? = some entry →
    entry.stage = .named prevVersion prevDeltaEpoch →
    prevVersion = headerSize + entry.slot.offset ∧ prevDeltaEpoch = s.wrapsAt index

namespace Named

theorem setEntry (h : Named s) {next : Entry}
    (hget : s.entries[index]? = some entry) (hblock : next.block = entry.block)
    (hopen : entry.stage.isNamed = false)
    (hcntd : next.countedWrap = true → ∀ (other : ℕ) (earlier : Entry), other < index →
      s.entries[other]? = some earlier → earlier.stage.isNamed = true)
    (hpointer : ∀ prevVersion prevDeltaEpoch, next.stage = .named prevVersion prevDeltaEpoch →
      prevVersion = headerSize + next.slot.offset ∧ prevDeltaEpoch = s.wrapsAt index) :
    Named (s.setEntry index next ring) := by
  constructor
  · intro later found hlater hwrap other earlier hlt hother
    rw [setEntry_getElem? hget] at hlater hother
    by_cases heq : later = index
    · rw [if_pos heq] at hlater
      cases hlater
      rw [if_neg (by omega)] at hother
      exact hcntd hwrap other earlier (by omega) hother
    · rw [if_neg heq] at hlater
      by_cases hsame : other = index
      · -- An earlier thread that has not read the epoch would have stopped this wrap.
        have hnamed := h.paced later found hlater hwrap index entry (hsame ▸ hlt) hget
        rw [hopen] at hnamed
        cases hnamed
      · rw [if_neg hsame] at hother
        exact h.paced later found hlater hwrap other earlier hlt hother
  · intro other found prevVersion prevDeltaEpoch hother hstage
    rw [wrapsAt_congr (blocks_setEntry next hget hblock ring)]
    rw [setEntry_getElem? hget] at hother
    split at hother
    · rename_i heq
      cases hother
      rw [heq]
      exact hpointer prevVersion prevDeltaEpoch hstage
    · exact h.pointers other found prevVersion prevDeltaEpoch hother hstage

theorem congr (h : Named s) (hents : after.entries = s.entries) : Named after := by
  constructor
  · rw [hents]
    exact h.paced
  · unfold State.wrapsAt
    rw [hents]
    exact h.pointers

theorem allocate (h : Named s) (hstep : s.allocate size = some after) : Named after := by
  obtain ⟨-, rfl⟩ := allocate_cases hstep
  constructor
  · intro later found hlater hwrap other earlier hlt hother
    rcases concat_cases hlater with hold | ⟨-, rfl⟩
    · obtain ⟨hbound, -⟩ := List.getElem?_eq_some_iff.mp hold
      rw [State.addEntry, List.getElem?_append_left (by omega)] at hother
      exact h.paced later found hold hwrap other earlier hlt hother
    · simp [Entry.countedWrap, Stage.isCounted] at hwrap
  · intro other found prevVersion prevDeltaEpoch hother hstage
    rcases concat_cases hother with hold | ⟨-, rfl⟩
    · obtain ⟨hbound, -⟩ := List.getElem?_eq_some_iff.mp hold
      rw [wrapsAt_eq, addEntry_blocks, List.take_append_of_le_length (by
        rw [blocks_length]
        omega), ← wrapsAt_eq]
      exact h.pointers other found prevVersion prevDeltaEpoch hold hstage
    · cases hstage

theorem epoch_eq (h : Named s) (hinv : Inv s c) (heps : Epochs s)
    (hget : s.entries[index]? = some entry) (hstage : entry.stage = .published) :
    s.ring.epoch = s.wrapsAt index := by
  have hpub := hinv.published_of_stage hget (by rw [hstage]; rfl)
  have hpre : (s.entries.take (index + 1)).countP Entry.countedWrap = s.wrapsAt index := by
    refine countP_congr fun other hmem => ?_
    obtain ⟨position, hposn⟩ := mem_iff_getElem?.mp hmem
    rw [getElem?_take] at hposn
    split at hposn
    · rename_i hlt
      have hstaged := (hinv.publication.staged position other hposn).mpr (by omega)
      have hcntd : other.stage.isCounted = true := by
        cases hcase : other.stage <;> rw [hcase] at hstaged <;> first | rfl | cases hstaged
      rw [Entry.countedWrap, hcntd, Bool.and_true]
    · cases hposn
  have hafter : (s.entries.drop (index + 1)).countP Entry.countedWrap = 0 := by
    refine countP_eq_zero.mpr fun other hmem hwrap => ?_
    obtain ⟨position, hposn⟩ := mem_iff_getElem?.mp hmem
    rw [getElem?_drop] at hposn
    have hnamed := h.paced _ other hposn hwrap index entry (by omega) hget
    rw [hstage] at hnamed
    cases hnamed
  rw [heps.epoch, ← take_append_drop (index + 1) s.entries, countP_append, hpre,
    hafter, Nat.add_zero]

theorem step (h : Named s) (hinv : Inv s c) (heps : Epochs s) (hallow : Paced s event)
    (hstep : DeltaRing.step s event = some after) : Named after := by
  cases event with
  | allocate size => exact h.allocate hstep
  | fill index bytes =>
    obtain ⟨entry, hget, hstage, -, rfl⟩ := fill_cases hstep
    exact h.setEntry hget rfl (by rw [hstage]; rfl)
      (fun hwrap => by simp [Entry.countedWrap, Stage.isCounted] at hwrap)
      (fun _ _ hnamed => by cases hnamed)
  | count index =>
    obtain ⟨entry, hget, hstage, rfl⟩ := count_cases hstep
    refine h.setEntry hget rfl (by rw [hstage]; rfl) (fun hwrap other earlier hlt hother => ?_)
      (fun _ _ hnamed => by cases hnamed)
    have hwrapped : entry.block.wrapped = true := by
      simpa [Entry.countedWrap, Stage.isCounted] using hwrap
    refine hallow entry hget hwrapped earlier (@List.mem_of_getElem? _ _ other _ ?_)
    rw [getElem?_take_of_lt hlt]
    exact hother
  | publish index =>
    obtain ⟨entry, hget, hstage, -, rfl⟩ := publish_cases hstep
    have hset : Named (s.setEntry index { entry with stage := .published }
        { s.ring with tail := entry.slot.nextOffset }) := by
      refine h.setEntry hget rfl (by rw [hstage]; rfl) (fun hwrap => ?_)
        (fun _ _ hnamed => by cases hnamed)
      refine h.paced index entry hget ?_
      simpa [Entry.countedWrap, Stage.isCounted, hstage] using hwrap
    exact hset.congr rfl
  | name index =>
    obtain ⟨entry, hget, hstage, rfl⟩ := name_cases hstep
    refine h.setEntry hget rfl (by rw [hstage]; rfl) (fun hwrap => ?_) ?_
    · refine h.paced index entry hget ?_
      simpa [Entry.countedWrap, Stage.isCounted, hstage] using hwrap
    · intro prevVersion prevDeltaEpoch hnamed
      cases hnamed
      exact ⟨rfl, h.epoch_eq hinv heps hget hstage⟩
  | skip =>
    obtain ⟨entry, -, -, rfl⟩ := skip_cases hstep
    exact h.congr rfl
  | advance =>
    obtain ⟨entry, -, -, rfl⟩ := advance_cases hstep
    exact h.congr rfl
  | collect snapshot turns =>
    obtain ⟨-, -, -, hpasses⟩ := collect_inv hinv hallow hstep
    exact h.congr hpasses.entries

end Named

theorem named_of_reachable (h : Reachable step Paced Started s) : Named s := by
  have hinv : ((∃ c, Inv s c) ∧ Epochs s) ∧ Named s := by
    refine @Reachable.invariant _ _ _ _ _ _ (fun s => ((∃ c, Inv s c) ∧ Epochs s) ∧ Named s) ?_ ?_ h
    · intro state hstart
      refine ⟨epochs_of_reachable (.start hstart), ?_⟩
      obtain ⟨realSize, -, -, rfl⟩ := hstart
      exact ⟨fun _ _ hnone => absurd hnone (by simp [State.init]),
        fun _ _ _ _ hnone => absurd hnone (by simp [State.init])⟩
    · rintro state event after ⟨⟨⟨c, hinv⟩, heps⟩, hnamed⟩ hallow hstep
      have horder := inOrder_of_paced hallow
      obtain ⟨d, hafter, -⟩ := hinv.step (careful_of_inOrder hinv horder) hstep
      exact ⟨⟨⟨d, hafter⟩, heps.step hinv horder hstep⟩,
        hnamed.step hinv heps hallow hstep⟩
  exact hinv.2

/-- The pointer to a delta record names its offset and the number of wraps that had
occurred when its space was allocated. -/
theorem pointer_names_lap (h : Reachable step Paced Started s) {prevVersion prevDeltaEpoch : ℕ}
    (hget : s.entries[index]? = some entry)
    (hstage : entry.stage = .named prevVersion prevDeltaEpoch) :
    prevVersion = headerSize + entry.slot.offset ∧ prevDeltaEpoch = s.wrapsAt index :=
  (named_of_reachable h).pointers index entry prevVersion prevDeltaEpoch hget hstage

theorem pointer_names_lap_wrapped :
    ∃ s, Reachable step Paced Started s ∧ ∃ entry, s.entries[2]? = some entry ∧
      entry.stage = .named 49 1 ∧ 49 = headerSize + entry.slot.offset ∧ 1 = s.wrapsAt 2 := by
  obtain ⟨s, hreach, hstages⟩ : ∃ s, Reachable step Paced Started s ∧
      (s.entries[2]?.map Entry.stage) = some (.named 49 1) :=
    Reachable.exists_of_schedule (appendRecord 0 (replicate 150 0) ++ [.name 0, .advance] ++
      appendRecord 1 (replicate 90 0) ++ [.allocate 90, .fill 2 (replicate 90 0), .name 1,
        .count 2, .publish 2, .name 2]) ⟨300, by decide, by decide, rfl⟩ (by decide +kernel)
  obtain ⟨entry, hget, hstage⟩ := Option.map_eq_some_iff.mp hstages
  exact ⟨s, hreach, entry, hget, hstage, pointer_names_lap hreach hget hstage⟩

def overtakenRead : List Event :=
  appendRecord 0 (replicate 150 0) ++ [.name 0, .advance] ++
    appendRecord 1 (replicate 90 0) ++ [.allocate 90, .fill 2 (replicate 90 0), .count 2,
      .name 1]

theorem overtakenRead_wrong_lap :
    ∃ s, Reachable step InOrder Started s ∧ ∃ entry, s.entries[1]? = some entry ∧
      entry.stage = .named 199 1 ∧ s.wrapsAt 1 = 0 := by
  obtain ⟨s, hreach, hstages, hwraps⟩ : ∃ s, Reachable step InOrder Started s ∧
      (s.entries[1]?.map Entry.stage) = some (.named 199 1) ∧ s.wrapsAt 1 = 0 :=
    Reachable.exists_of_schedule overtakenRead ⟨300, by decide, by decide, rfl⟩ (by decide +kernel)
  obtain ⟨entry, hget, hstage⟩ := Option.map_eq_some_iff.mp hstages
  exact ⟨s, hreach, entry, hget, hstage, hwraps⟩

end MemoryEngine.DeltaRing
