import MemoryEngine.Rdma.RemoteSlots

/-! The page of an address in it (`TOPAGE` of `include/Common.h`).

A chunk is no multiple of the page size, so the chunk is found first and then the page in it. -/
namespace MemoryEngine.Rdma

open List

structure GlobalAddress where
  nodeId : ℕ
  offset : ℕ
  deriving DecidableEq, Repr

def kLeafPageSize : ℕ := ChunkType.regularPage.chunkSize

/-- The new offset is not above the old one, so the 48 bits of the field hold it. -/
def topage (addr : GlobalAddress) : GlobalAddress :=
  { addr with
    offset := addr.offset / allocGranu * allocGranu +
      addr.offset % allocGranu / kLeafPageSize * kLeafPageSize }

theorem kLeafPageSize_pos : 0 < kLeafPageSize := ChunkType.chunkSize_pos _

theorem topage_of_rest {chunk rest nodeId : ℕ} (hrest : rest < allocGranu) :
    topage ⟨nodeId, allocGranu * chunk + rest⟩ =
      ⟨nodeId, allocGranu * chunk + rest / kLeafPageSize * kLeafPageSize⟩ := by
  rw [topage, Nat.mul_add_mod, Nat.mod_eq_of_lt hrest, Nat.mul_add_div (by decide),
    Nat.div_eq_of_lt hrest, Nat.add_zero, Nat.mul_comm chunk]

theorem topage_slot {base index d nodeId : ℕ} (hbase : allocGranu ∣ base)
    (hindex : index < allocGranu / kLeafPageSize) (hd : d < kLeafPageSize) :
    topage ⟨nodeId, base + index * kLeafPageSize + d⟩ =
      ⟨nodeId, base + index * kLeafPageSize⟩ := by
  obtain ⟨chunk, rfl⟩ := hbase
  have hend : (index + 1) * kLeafPageSize ≤ allocGranu :=
    (Nat.le_div_iff_mul_le kLeafPageSize_pos).mp hindex
  rw [Nat.add_mul, Nat.one_mul] at hend
  rw [Nat.add_assoc, topage_of_rest (by omega), Nat.mul_comm index,
    Nat.mul_add_div kLeafPageSize_pos, Nat.div_eq_of_lt hd, Nat.add_zero, Nat.mul_comm index]

theorem topage_topage (addr : GlobalAddress) : topage (topage addr) = topage addr := by
  have hrest : addr.offset % allocGranu < allocGranu := Nat.mod_lt _ (by decide)
  have hle := Nat.div_mul_le_self (addr.offset % allocGranu) kLeafPageSize
  have hpage : topage addr = ⟨addr.nodeId, allocGranu * (addr.offset / allocGranu) +
      addr.offset % allocGranu / kLeafPageSize * kLeafPageSize⟩ := by
    rw [topage, Nat.mul_comm allocGranu]
  rw [hpage, topage_of_rest (by omega), Nat.mul_div_cancel _ kLeafPageSize_pos]

theorem topage_mono {first second nodeId : ℕ} (h : first ≤ second) :
    (topage ⟨nodeId, first⟩).offset ≤ (topage ⟨nodeId, second⟩).offset := by
  have hle := Nat.div_mul_le_self (first % allocGranu) kLeafPageSize
  have hrest : first % allocGranu < allocGranu := Nat.mod_lt _ (by decide)
  unfold topage
  rcases Nat.lt_or_eq_of_le (Nat.div_le_div_right h : first / allocGranu ≤ second / allocGranu) with
    hlt | heq
  · have hnext : (first / allocGranu + 1) * allocGranu ≤ second / allocGranu * allocGranu :=
      Nat.mul_le_mul_right _ hlt
    rw [Nat.add_mul, Nat.one_mul] at hnext
    simp only
    omega
  · have hrests : first % allocGranu ≤ second % allocGranu := by
      have hfirst := Nat.div_add_mod first allocGranu
      have hsecond := Nat.div_add_mod second allocGranu
      rw [heq] at hfirst
      omega
    simp only [heq]
    exact Nat.add_le_add_left (Nat.mul_le_mul_right _ (Nat.div_le_div_right hrests)) _

namespace System

variable {s after : System} {compute region : ℕ} {chunkType : ChunkType}
  {taken : ℕ × List InUseArray}

/-- A chunk of the compute node has a free slot, be it one that the call registers. -/
def finds (s : System) (compute : ℕ) (chunkType : ChunkType) (region : ℕ) : Bool :=
  let s := if (s.pools compute chunkType region).bitmaps = [] then
      s.register compute chunkType region
    else s
  (RemotePool.takeSlot chunkType (fun _ => true)
    (s.pools compute chunkType region).bitmaps).isSome ||
    let pool := (s.register compute chunkType region).pools compute chunkType region
    pool.registered.getLast?.any fun last =>
      (RemotePool.takeSlot chunkType (·.gptrOri = last) pool.bitmaps).isSome

/-- Chunks have 48-bit offsets, and their free slots are slots of a chunk. -/
def Cut (s : System) : Prop :=
  ∀ compute chunkType region, ∀ array ∈ (s.pools compute chunkType region).bitmaps,
    array.gptrOri < 2 ^ 48 ∧ ∀ index ∈ array.freeList, index < allocGranu / chunkType.chunkSize

theorem reply_lt {group : LogicalGroup} {offset : ℕ} (h : s.reply group = some offset) :
    offset < 2 ^ 48 := by
  obtain ⟨hbind, -⟩ := Option.filter_eq_some_iff.mp h
  obtain ⟨primary, -, hcreate⟩ := Option.bind_eq_some_iff.mp hbind
  obtain ⟨addr, -, rfl⟩ := Option.map_eq_some_iff.mp hcreate
  split
  all_goals exact Nat.mod_lt _ (by decide)

theorem Cut.register (h : s.Cut) : (s.register compute chunkType region).Cut := by
  rcases register_cases s compute chunkType region with ⟨-, heq⟩ | ⟨group, -, ⟨-, heq⟩ | hreply⟩
  · rwa [heq]
  · rwa [heq]
  · obtain ⟨offset, hreply, heq⟩ := hreply
    rw [heq]
    intro otherCompute otherType otherRegion array harray
    by_cases hsame : otherCompute = compute ∧ otherType = chunkType ∧ otherRegion = region
    · obtain ⟨rfl, rfl, rfl⟩ := hsame
      rw [setPool_pools_self] at harray
      rcases RemotePool.mem_of_insertArray harray with rfl | hold
      · exact ⟨reply_lt hreply, fun index => mem_range.mp⟩
      · exact h _ _ _ array hold
    · rw [setPool_pools_of_ne hsame] at harray
      exact h _ _ _ array harray

theorem register_handed : (s.register compute chunkType region).handed = s.handed := by
  rcases register_cases s compute chunkType region with ⟨-, heq⟩ | ⟨group, -, ⟨-, heq⟩ | hreply⟩
  · rw [heq]
  · rw [heq, popChunks]
  · obtain ⟨offset, -, heq⟩ := hreply
    rw [heq]
    rfl

/-- A call registers chunks and then hands a slot of a chunk, or leaves the chunks as they are. -/
theorem allocate_cases (h : s.allocate compute chunkType region = some after) :
    ∃ (before : System) (taken : ℕ × List InUseArray), before.handed = s.handed ∧
      (s.Cut → before.Cut) ∧ after = before.hand compute chunkType region taken ∧
        ((∃ chosen, RemotePool.takeSlot chunkType chosen
            (before.pools compute chunkType region).bitmaps = some taken) ∨
          s.finds compute chunkType region = false ∧
            taken.2 = (before.pools compute chunkType region).bitmaps) := by
  obtain ⟨first, hfirst, hhanded, hcut⟩ : ∃ first,
      (if (s.pools compute chunkType region).bitmaps = []
        then s.register compute chunkType region else s) = first ∧ first.handed = s.handed ∧
      (s.Cut → first.Cut) := by
    refine ⟨_, rfl, ?_⟩
    split_ifs
    exacts [⟨register_handed, Cut.register⟩, ⟨rfl, id⟩]
  simp only [allocate, finds, hfirst] at h ⊢
  cases htaken : RemotePool.takeSlot chunkType (fun _ => true)
      (first.pools compute chunkType region).bitmaps with
  | some taken =>
    rw [htaken] at h
    cases h
    exact ⟨first, taken, hhanded, hcut, rfl, .inl ⟨_, htaken⟩⟩
  | none =>
    rw [htaken] at h
    obtain ⟨last, hlast, rfl⟩ := Option.map_eq_some_iff.mp h
    refine ⟨first.register compute chunkType region, ?_⟩
    cases hagain : RemotePool.takeSlot chunkType (·.gptrOri = last)
        ((first.register compute chunkType region).pools compute chunkType region).bitmaps with
    | some taken =>
      exact ⟨taken, register_handed.trans hhanded, fun h => (hcut h).register, rfl,
        .inl ⟨_, hagain⟩⟩
    | none =>
      exact ⟨_, register_handed.trans hhanded, fun h => (hcut h).register, rfl,
        .inr ⟨by simp [hlast, hagain], rfl⟩⟩

theorem Cut.hand (h : s.Cut) {chosen : InUseArray → Bool}
    (htaken : RemotePool.takeSlot chunkType chosen (s.pools compute chunkType region).bitmaps =
      some taken) : (s.hand compute chunkType region taken).Cut := by
  intro otherCompute otherType otherRegion later hlater
  obtain ⟨array, harray, hkey, hfree⟩ := hand_origin (RemotePool.taken_of_takeSlot htaken) hlater
  obtain ⟨hbound, hslots⟩ := h _ _ _ array harray
  exact ⟨hkey ▸ hbound, fun index hindex => hslots index (hfree.subset hindex)⟩

theorem Cut.step {event : Event} (h : s.Cut) (hstep : s.step event = some after) : after.Cut := by
  cases event with
  | register compute chunkType region =>
    cases hstep
    exact h.register
  | allocate compute chunkType region =>
    obtain ⟨before, taken, -, hcut, rfl, ⟨chosen, htaken⟩ | ⟨-, hleft⟩⟩ := allocate_cases hstep
    · exact (hcut h).hand htaken
    · intro otherCompute otherType otherRegion array harray
      refine hcut h otherCompute otherType otherRegion array ?_
      by_cases hsame : otherCompute = compute ∧ otherType = chunkType ∧ otherRegion = region
      · obtain ⟨rfl, rfl, rfl⟩ := hsame
        rwa [hand_bitmaps_self, hleft] at harray
      · rwa [hand_pools_of_ne hsame] at harray

def Started (s : System) : Prop :=
  TransitionSystem.Reachable step (fun _ _ => True)
    (fun s => ∃ groups gbNumber buffer, s = start groups gbNumber buffer) s

theorem Started.cut (h : s.Started) : s.Cut :=
  TransitionSystem.Reachable.invariant
    (fun s hstart => by
      obtain ⟨groups, gbNumber, buffer, rfl⟩ := hstart
      intro compute chunkType region array harray
      cases harray)
    (fun _ _ _ hcut _ hstep => hcut.step hstep) h

end System

/-- An allocated page is the page of each address in it, `topage` is idempotent and keeps the order
of the addresses of a region. -/
theorem topage_recovers {s after : System} (h : s.Started) {compute region : ℕ}
    (hstep : s.allocate compute .regularPage region = some after)
    (hfinds : s.finds compute .regularPage region = true)
    (hbases : ∀ array ∈ (after.pools compute .regularPage region).bitmaps,
      allocGranu ∣ array.gptrOri) :
    (∃ offset, after.handed = s.handed ++ [⟨compute, .regularPage, region, offset⟩] ∧
      ∀ d < kLeafPageSize, topage ⟨region, offset + d⟩ = ⟨region, offset⟩) ∧
    (∀ addr, topage (topage addr) = topage addr) ∧
    ∀ nodeId first second, first ≤ second →
      (topage ⟨nodeId, first⟩).offset ≤ (topage ⟨nodeId, second⟩).offset := by
  refine ⟨?_, topage_topage, fun nodeId first second => topage_mono⟩
  obtain ⟨before, taken, hhanded, hcut, rfl, ⟨chosen, htaken⟩ | ⟨hnone, -⟩⟩ :=
    System.allocate_cases hstep
  · refine ⟨taken.1, hhanded ▸ rfl, fun d hd => ?_⟩
    obtain ⟨array, harray, index, rest, hfree, hlater, hoffset⟩ :=
      (RemotePool.taken_of_takeSlot htaken).slot
    rw [System.hand_bitmaps_self] at hbases
    have hbase : allocGranu ∣ array.gptrOri := hbases ⟨array.gptrOri, rest⟩ hlater
    obtain ⟨hbound, hslots⟩ := hcut h.cut _ _ _ array harray
    have hindex : index < allocGranu / kLeafPageSize := hslots index (by simp [hfree])
    have hfits : array.gptrOri + index * kLeafPageSize < 2 ^ 48 := by
      obtain ⟨chunk, hchunk⟩ := hbase
      simp only [allocGranu, kLeafPageSize, ChunkType.chunkSize] at *
      omega
    rw [hoffset.trans (Nat.mod_eq_of_lt hfits)]
    exact topage_slot hbase hindex hd
  · rw [hnone] at hfinds
    cases hfinds

def chunkStart : System := .start System.chunkSized (fun _ => 1) fun _ => 4096

/-- The last page of the first chunk of a region. -/
theorem topage_recovers_chunkSized :
    ∃ after, chunkStart.allocate 0 .regularPage 1 = some after ∧
      ∃ offset, after.handed = [⟨0, .regularPage, 1, offset⟩] ∧
        topage ⟨1, offset + 8000⟩ = ⟨1, offset⟩ := by
  obtain ⟨after, hstep⟩ : ∃ after, chunkStart.allocate 0 .regularPage 1 = some after :=
    Option.isSome_iff_exists.mp (by decide +kernel)
  have hbases : ∀ after ∈ chunkStart.allocate 0 .regularPage 1,
      ∀ array ∈ (after.pools 0 .regularPage 1).bitmaps, allocGranu ∣ array.gptrOri := by
    decide +kernel
  obtain ⟨⟨offset, hhanded, hpage⟩, -⟩ := topage_recovers (.start ⟨_, _, _, rfl⟩) hstep
    (by decide +kernel) (hbases after hstep)
  exact ⟨after, hstep, offset, hhanded, hpage 8000 (by decide)⟩

end MemoryEngine.Rdma
