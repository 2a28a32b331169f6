import MemoryEngine.Library.TransitionSystem
import MemoryEngine.Rdma.RegionLayout
import Mathlib.Data.List.Nodup

/-! Slots of remote memory are disjoint and inside their regions, in the runs where each region is
empty or has the size of a chunk and no compute node asks an empty pool.

A region below the size of a chunk still gets one chunk, which reaches into the next region. -/
namespace MemoryEngine.Rdma

open List Function Option

variable {index : ℕ} {slot : Slot} {i : ℕ} {array : InUseArray} {taken : ℕ × List InUseArray}

namespace RemotePool

variable {chunkType : ChunkType} {chosen : InUseArray → Bool} {arrays : List InUseArray}
  {array new : InUseArray}

structure Taken (chunkType : ChunkType) (arrays : List InUseArray)
    (taken : ℕ × List InUseArray) : Prop where
  keys : taken.2.map InUseArray.gptrOri = arrays.map InUseArray.gptrOri
  kept : ∀ array ∈ arrays, ∃ later ∈ taken.2, later.gptrOri = array.gptrOri ∧
    later.freeList.Sublist array.freeList
  origin : ∀ later ∈ taken.2, ∃ array ∈ arrays, later.gptrOri = array.gptrOri ∧
    later.freeList.Sublist array.freeList
  slot : ∃ array ∈ arrays, ∃ index rest, array.freeList = rest ++ [index] ∧
    ⟨array.gptrOri, rest⟩ ∈ taken.2 ∧
    taken.1 = (array.gptrOri + index * chunkType.chunkSize) % 2 ^ 48

theorem Taken.cons (h : Taken chunkType arrays taken) :
    Taken chunkType (array :: arrays) (taken.1, array :: taken.2) where
  keys := congrArg (array.gptrOri :: ·) h.keys
  kept := by
    intro before hpre
    rcases mem_cons.mp hpre with rfl | htail
    · exact ⟨before, mem_cons_self, rfl, List.Sublist.refl _⟩
    · obtain ⟨later, hlater, hkept⟩ := h.kept before htail
      exact ⟨later, mem_cons_of_mem _ hlater, hkept⟩
  origin := by
    intro later hlater
    rcases mem_cons.mp hlater with rfl | htail
    · exact ⟨later, mem_cons_self, rfl, List.Sublist.refl _⟩
    · obtain ⟨before, hpre, hkept⟩ := h.origin later htail
      exact ⟨before, mem_cons_of_mem _ hpre, hkept⟩
  slot := by
    obtain ⟨before, hpre, index, rest, hfree, hlater, hoff⟩ := h.slot
    exact ⟨before, mem_cons_of_mem _ hpre, index, rest, hfree,
      mem_cons_of_mem _ hlater, hoff⟩

theorem Taken.head (h : array.freeList.getLast? = some index) :
    Taken chunkType (array :: arrays) ((array.gptrOri + index * chunkType.chunkSize) % 2 ^ 48,
      { array with freeList := array.freeList.dropLast } :: arrays) where
  keys := rfl
  kept := by
    intro before hpre
    rcases mem_cons.mp hpre with rfl | htail
    · exact ⟨_, mem_cons_self, rfl, dropLast_sublist _⟩
    · exact ⟨before, mem_cons_of_mem _ htail, rfl, List.Sublist.refl _⟩
  origin := by
    intro later hlater
    rcases mem_cons.mp hlater with rfl | htail
    · exact ⟨array, mem_cons_self, rfl, dropLast_sublist _⟩
    · exact ⟨later, mem_cons_of_mem _ htail, rfl, List.Sublist.refl _⟩
  slot := ⟨array, mem_cons_self, index, array.freeList.dropLast,
    (dropLast_append_getLast? index h).symm, mem_cons_self, rfl⟩

theorem taken_of_takeSlot
    (h : takeSlot chunkType chosen arrays = some taken) : Taken chunkType arrays taken := by
  induction arrays generalizing taken with
  | nil => cases h
  | cons array arrays ih =>
    rw [takeSlot] at h
    split at h
    · rename_i index hindex
      cases h
      by_cases hchosen : chosen array
      · rw [if_pos hchosen] at hindex
        exact Taken.head hindex
      · rw [if_neg hchosen] at hindex
        cases hindex
    · obtain ⟨rest, hrest, heq⟩ := map_eq_some_iff.mp h
      cases heq
      exact (ih hrest).cons

theorem takeSlot_isSome (h : array ∈ arrays) (hchosen : chosen array)
    (hfree : array.freeList ≠ []) : (takeSlot chunkType chosen arrays).isSome := by
  induction arrays with
  | nil => cases h
  | cons head arrays ih =>
    rw [takeSlot]
    split
    · rfl
    · rename_i hnone
      rw [isSome_map]
      rcases mem_cons.mp h with rfl | htail
      · rw [if_pos hchosen, getLast?_eq_none_iff] at hnone
        exact absurd hnone hfree
      · exact ih htail

theorem mem_of_insertArray (h : array ∈ insertArray new arrays) : array = new ∨ array ∈ arrays := by
  induction arrays with
  | nil => exact .inl (mem_singleton.mp h)
  | cons head arrays ih =>
    rw [insertArray] at h
    split_ifs at h
    · exact mem_cons.mp h
    · exact .inr h
    · rcases mem_cons.mp h with rfl | htail
      · exact .inr mem_cons_self
      · exact (ih htail).imp_right (mem_cons_of_mem _)

variable (hfresh : ∀ array ∈ arrays, array.gptrOri ≠ new.gptrOri)
include hfresh

theorem mem_insertArray : array ∈ insertArray new arrays ↔ array = new ∨ array ∈ arrays := by
  induction arrays with
  | nil => simp [insertArray]
  | cons head arrays ih =>
    rw [insertArray]
    rw [if_neg (hfresh head mem_cons_self).symm]
    split
    · rw [mem_cons]
    · rw [mem_cons, mem_cons,
        ih fun other hother => hfresh other (mem_cons_of_mem _ hother), or_left_comm]

theorem nodup_insertArray (h : (arrays.map InUseArray.gptrOri).Nodup) :
    ((insertArray new arrays).map InUseArray.gptrOri).Nodup := by
  induction arrays with
  | nil => simp [insertArray]
  | cons head arrays ih =>
    have hhead : new.gptrOri ≠ head.gptrOri := (hfresh head mem_cons_self).symm
    have htail : ∀ other ∈ arrays, other.gptrOri ≠ new.gptrOri :=
      fun other hother => hfresh other (mem_cons_of_mem _ hother)
    rw [insertArray, if_neg hhead]
    split
    · rw [map_cons, nodup_cons]
      refine ⟨?_, h⟩
      intro hmem
      obtain ⟨other, hother, heq⟩ := mem_map.mp hmem
      exact hfresh other hother heq
    · rw [map_cons, nodup_cons] at h
      rw [map_cons, nodup_cons]
      refine ⟨?_, ih htail h.2⟩
      intro hmem
      obtain ⟨other, hother, heq⟩ := mem_map.mp hmem
      rcases (mem_insertArray htail).mp hother with rfl | hold
      · exact hhead heq
      · exact h.1 (mem_map.mpr ⟨other, hold, heq⟩)

end RemotePool

namespace System

variable {s after : System} {compute region node : ℕ} {chunkType : ChunkType}
  {group : LogicalGroup} {replicas : List ℕ}

def left (s : System) (group : LogicalGroup) : ℕ :=
  (group.physicalRegions.head?.map fun primary =>
    ((s.nodes primary).preAllocatedPool group.logicalId).length).getD 0

/-- A chunk of a compute node: the primary has given it away, and its free slots are slots. -/
structure Chunk (s : System) (chunkType : ChunkType) (group : LogicalGroup) (array : InUseArray)
    (i : ℕ) : Prop where
  given : s.left group ≤ i
  bound : i < group.bytes / allocGranu
  key : array.gptrOri = i * allocGranu
  nodup : array.freeList.Nodup
  free : ∀ index ∈ array.freeList, index < allocGranu / chunkType.chunkSize

/-- The pools of the primaries hold the first chunks, the compute nodes hold later ones, and each
handed slot is a slot of a chunk that is no longer free. -/
structure Chunks (s : System) : Prop where
  pool : ∀ group ∈ s.groups, ∀ primary, group.physicalRegions.head? = some primary →
    0 < group.bytes → ∀ base, (s.nodes primary).basePtr.lookup group.logicalId = some base →
      (s.nodes primary).preAllocatedPool group.logicalId =
        (List.range (s.left group)).map fun i => (base + i * allocGranu) % 2 ^ 64
  left_le : ∀ group ∈ s.groups, s.left group ≤ group.bytes / allocGranu
  chunk : ∀ compute chunkType region, ∀ array ∈ (s.pools compute chunkType region).bitmaps,
    ∃ group ∈ s.groups, group.logicalId = region ∧ ∃ i, s.Chunk chunkType group array i
  keys : ∀ compute chunkType region,
    ((s.pools compute chunkType region).bitmaps.map InUseArray.gptrOri).Nodup
  owner : ∀ compute chunkType otherCompute otherType region,
    ∀ array ∈ (s.pools compute chunkType region).bitmaps,
    ∀ other ∈ (s.pools otherCompute otherType region).bitmaps,
      array.gptrOri = other.gptrOri → compute = otherCompute ∧ chunkType = otherType
  slot : ∀ slot ∈ s.handed,
    ∃ array ∈ (s.pools slot.compute slot.chunkType slot.region).bitmaps,
      ∃ index < allocGranu / slot.chunkType.chunkSize, index ∉ array.freeList ∧
        slot.offset = array.gptrOri + index * slot.chunkType.chunkSize
  distinct : s.handed.Nodup

/-- The property: each slot lies in its region on every copy, the region in the registered memory,
and the slots are pairwise disjoint on every node. -/
structure Safe (s : System) : Prop where
  inside : ∀ slot ∈ s.handed, ∃ group ∈ s.groups, group.logicalId = slot.region ∧
    ∀ node ∈ group.physicalRegions, (s.slotRange node slot).Within (s.regionRange node group) ∧
      (s.regionRange node group).Within (s.nodes node).memory
  apart : s.handed.Pairwise fun first second =>
    ∀ node, ((s.nodes node).basePtr.lookup first.region).isSome →
      ((s.nodes node).basePtr.lookup second.region).isSome →
      (s.slotRange node first).Apart (s.slotRange node second)

structure Spot (s : System) (slot : Slot) (group : LogicalGroup) (i index : ℕ) : Prop where
  group_mem : group ∈ s.groups
  region : group.logicalId = slot.region
  bound : i < group.bytes / allocGranu
  index_lt : index < allocGranu / slot.chunkType.chunkSize
  offset : slot.offset = i * allocGranu + index * slot.chunkType.chunkSize

theorem Chunks.exists_spot (h : s.Chunks) (hslot : slot ∈ s.handed) :
    ∃ group i index, s.Spot slot group i index := by
  obtain ⟨array, harray, index, hindex, -, hoff⟩ := h.slot slot hslot
  obtain ⟨group, hgroup, hid, i, hchunk⟩ := h.chunk _ _ _ array harray
  rw [hchunk.key] at hoff
  exact ⟨group, i, index, hgroup, hid, hchunk.bound, hindex, hoff⟩

theorem Spot.apart {first second : Slot} {other : LogicalGroup} {j otherIndex : ℕ}
    (h : s.Spot first group i index) (hother : s.Spot second other j otherIndex)
    (hne : i ≠ j ∨ first.chunkType = second.chunkType ∧ index ≠ otherIndex) :
    (⟨first.offset, first.chunkType.chunkSize⟩ : ByteRange).Apart
      ⟨second.offset, second.chunkType.chunkSize⟩ := by
  rw [h.offset, hother.offset]
  by_cases hchunk : i = j
  · obtain ⟨htype, hindex⟩ := hne.resolve_left (not_not_intro hchunk)
    rw [hchunk, htype]
    exact ByteRange.piece_apart hindex
  · have hchunks : (ByteRange.piece 0 allocGranu i).Apart (ByteRange.piece 0 allocGranu j) :=
      ByteRange.piece_apart hchunk
    rw [ByteRange.piece, ByteRange.piece, Nat.zero_add, Nat.zero_add] at hchunks
    exact hchunks.within (ByteRange.piece_within h.index_lt)
      (ByteRange.piece_within hother.index_lt)

theorem Spot.within (h : s.Spot slot group i index) :
    (⟨slot.offset, slot.chunkType.chunkSize⟩ : ByteRange).Within ⟨0, group.bytes⟩ := by
  have hchunk : (ByteRange.piece 0 allocGranu i).Within ⟨0, group.bytes⟩ :=
    ByteRange.piece_within h.bound
  rw [ByteRange.piece, Nat.zero_add] at hchunk
  rw [h.offset]
  exact (ByteRange.piece_within h.index_lt).trans hchunk

theorem Spot.bytes_pos (h : s.Spot slot group i index) : 0 < group.bytes := by
  have hwithin := h.within.2
  have hpos := slot.chunkType.chunkSize_pos
  simp only at hwithin
  omega

theorem Spot.slotRange_eq {base : ℕ} (h : s.Spot slot group i index)
    (hbase : (s.nodes node).basePtr.lookup slot.region = some base)
    (hwrap : base + group.bytes ≤ 2 ^ 64) :
    s.slotRange node slot = ByteRange.shift base ⟨slot.offset, slot.chunkType.chunkSize⟩ := by
  have hwithin := h.within.2
  have hpos := slot.chunkType.chunkSize_pos
  simp only at hwithin
  rw [slotRange, MemoryNode.translate, hbase, getD_some, Nat.mod_eq_of_lt (by omega)]
  rfl

theorem safe_inside (hplaced : s.Placed) (h : s.Chunks) (hslot : slot ∈ s.handed) :
    ∃ group ∈ s.groups, group.logicalId = slot.region ∧
      ∀ node ∈ group.physicalRegions, (s.slotRange node slot).Within (s.regionRange node group) ∧
        (s.regionRange node group).Within (s.nodes node).memory := by
  obtain ⟨group, i, index, hspot⟩ := h.exists_spot hslot
  refine ⟨group, hspot.group_mem, hspot.region, ?_⟩
  intro node hnode
  obtain ⟨base, hbase⟩ := hplaced.hosts group hspot.group_mem node hnode
  obtain ⟨hinside, hwrap⟩ := hplaced.inside group hspot.group_mem hspot.bytes_pos node base hbase
  rw [regionRange_eq hspot.bytes_pos hbase hwrap,
    hspot.slotRange_eq (hspot.region ▸ hbase) hwrap]
  exact ⟨hspot.within.shift base, hinside⟩

theorem safe_apart (hplaced : s.Placed) (h : s.Chunks) {first second : Slot}
    (hfirst : first ∈ s.handed) (hsnd : second ∈ s.handed) (hne : first ≠ second)
    {base other : ℕ} (hbase : (s.nodes node).basePtr.lookup first.region = some base)
    (hother : (s.nodes node).basePtr.lookup second.region = some other) :
    (s.slotRange node first).Apart (s.slotRange node second) := by
  obtain ⟨array, harray, index, hindex, hused, hoff⟩ := h.slot first hfirst
  obtain ⟨group, hgroup, hid, i, hchunk⟩ := h.chunk _ _ _ array harray
  obtain ⟨otherArray, hotherArray, otherIndex, hotherIndex, hotherUsed, hotherOffset⟩ :=
    h.slot second hsnd
  obtain ⟨otherGroup, hotherGroup, hotherId, j, hotherChunk⟩ := h.chunk _ _ _ _ hotherArray
  have hspot : s.Spot first group i index :=
    ⟨hgroup, hid, hchunk.bound, hindex, hchunk.key ▸ hoff⟩
  have hotherSpot : s.Spot second otherGroup j otherIndex :=
    ⟨hotherGroup, hotherId, hotherChunk.bound, hotherIndex, hotherChunk.key ▸ hotherOffset⟩
  obtain ⟨-, hwrap⟩ := hplaced.inside group hgroup hspot.bytes_pos node base (hid ▸ hbase)
  obtain ⟨-, hotherWrap⟩ :=
    hplaced.inside otherGroup hotherGroup hotherSpot.bytes_pos node other (hotherId ▸ hother)
  rw [hspot.slotRange_eq hbase hwrap, hotherSpot.slotRange_eq hother hotherWrap]
  by_cases hreg : first.region = second.region
  · -- one region: different chunks, or different slots of one chunk of one compute node
    rw [hreg, hother] at hbase
    cases hbase
    refine ByteRange.Apart.shift (hspot.apart hotherSpot ?_) base
    by_cases hij : i = j
    · right
      have hkey : array.gptrOri = otherArray.gptrOri := by
        rw [hchunk.key, hotherChunk.key, hij]
      obtain ⟨hcpu, htype⟩ :=
        h.owner _ _ _ _ _ array (hreg ▸ harray) otherArray hotherArray hkey
      refine ⟨htype, ?_⟩
      intro hsame
      apply hne
      have hoffsets : first.offset = second.offset := by
        rw [hoff, hotherOffset, hkey, hsame, htype]
      cases first
      cases second
      simp_all only
    · exact Or.inl hij
  · have hids : group.logicalId ≠ otherGroup.logicalId := by rwa [hid, hotherId]
    have hapart := hplaced.apart group hgroup otherGroup hotherGroup hids hspot.bytes_pos
      hotherSpot.bytes_pos node base other (hid ▸ hbase) (hotherId ▸ hother)
    exact hapart.within (hspot.within.shift base) (hotherSpot.within.shift other)

theorem safe_of_chunks (hplaced : s.Placed) (h : s.Chunks) : s.Safe where
  inside := fun _ hslot => safe_inside hplaced h hslot
  apart := by
    refine h.distinct.imp_of_mem ?_
    intro first second hfirst hsnd hne node hbase hother
    obtain ⟨base, hbase⟩ := isSome_iff_exists.mp hbase
    obtain ⟨other, hother⟩ := isSome_iff_exists.mp hother
    exact safe_apart hplaced h hfirst hsnd hne hbase hother

structure Popped (nodes after : ℕ → MemoryNode) (region : ℕ) (replicas : List ℕ) : Prop where
  memory : ∀ node, (after node).memory = (nodes node).memory
  basePtr : ∀ node, (after node).basePtr = (nodes node).basePtr
  others : ∀ node, ∀ other ≠ region,
    (after node).preAllocatedPool other = (nodes node).preAllocatedPool other
  pool : ∀ node, ∃ count, (node ∈ replicas → 0 < count) ∧
    (after node).preAllocatedPool region = ((nodes node).preAllocatedPool region).take
      (((nodes node).preAllocatedPool region).length - count)

theorem popped_foldl (nodes : ℕ → MemoryNode) (region : ℕ) (replicas : List ℕ) :
    Popped nodes (replicas.foldl
      (fun nodes node => update nodes node ((nodes node).popChunk region)) nodes)
      region replicas := by
  induction replicas generalizing nodes with
  | nil =>
    refine ⟨fun _ => rfl, fun _ => rfl, fun _ _ _ => rfl, fun node => ⟨0, ?_, ?_⟩⟩
    · intro h
      cases h
    · exact (take_length).symm
  | cons head replicas ih =>
    rw [foldl_cons]
    have hrest := ih (update nodes head ((nodes head).popChunk region))
    refine ⟨fun node => ?_, fun node => ?_, fun node other hne => ?_, fun node => ?_⟩
    · rw [hrest.memory]
      by_cases heq : node = head
      · rw [heq, update_self]
        rfl
      · rw [update_of_ne heq]
    · rw [hrest.basePtr]
      by_cases heq : node = head
      · rw [heq, update_self]
        rfl
      · rw [update_of_ne heq]
    · rw [hrest.others node other hne]
      by_cases heq : node = head
      · rw [heq, update_self]
        exact update_of_ne hne _ _
      · rw [update_of_ne heq]
    · obtain ⟨count, hcount, hpool⟩ := hrest.pool node
      rw [hpool]
      by_cases heq : node = head
      · have hself : ((nodes head).popChunk region).preAllocatedPool region =
            ((nodes head).preAllocatedPool region).dropLast := update_self _ _ _
        refine ⟨count + 1, fun _ => Nat.succ_pos count, ?_⟩
        rw [heq, update_self, hself, dropLast_eq_take, length_take,
          take_take]
        congr 1
        omega
      · rw [update_of_ne heq]
        refine ⟨count, ?_, rfl⟩
        intro hmem
        exact hcount ((mem_cons.mp hmem).resolve_left heq)

theorem register_cases (s : System) (compute : ℕ) (chunkType : ChunkType) (region : ℕ) :
    (s.groups.find? (·.logicalId = region) = none ∧
      s.register compute chunkType region = s) ∨
    ∃ group, s.groups.find? (·.logicalId = region) = some group ∧
      ((s.reply group = none ∧ s.register compute chunkType region =
        s.popChunks region group.physicalRegions) ∨
      ∃ offset, s.reply group = some offset ∧ s.register compute chunkType region =
        (s.popChunks region group.physicalRegions).setPool compute chunkType region
          ((s.pools compute chunkType region).addChunk chunkType offset)) := by
  unfold register
  split
  · rename_i hfind
    exact Or.inl ⟨hfind, rfl⟩
  · rename_i group hfind
    refine Or.inr ⟨group, hfind, ?_⟩
    cases hreply : s.reply group with
    | none => exact Or.inl ⟨rfl, rfl⟩
    | some offset => exact Or.inr ⟨offset, rfl, rfl⟩

theorem Placed.register (h : s.Placed) : (s.register compute chunkType region).Placed := by
  rcases register_cases s compute chunkType region with ⟨-, heq⟩ | ⟨group, -, hcases⟩
  · rw [heq]
    exact h
  · have hpopped := popped_foldl s.nodes region group.physicalRegions
    rcases hcases with ⟨-, heq⟩ | ⟨offset, -, heq⟩
    all_goals
      rw [heq]
      exact h.of_eq rfl hpopped.memory hpopped.basePtr

theorem left_eq {primary : ℕ} (h : group.physicalRegions.head? = some primary) :
    s.left group = ((s.nodes primary).preAllocatedPool group.logicalId).length := by
  rw [left, h]
  rfl

theorem left_popChunks_le : (s.popChunks region replicas).left group ≤ s.left group := by
  have hpopped := popped_foldl s.nodes region replicas
  cases hhead : group.physicalRegions.head? with
  | none =>
    rw [left, hhead]
    exact Nat.zero_le _
  | some primary =>
    rw [left_eq hhead, left_eq hhead]
    by_cases hreg : group.logicalId = region
    · obtain ⟨count, -, hpool⟩ := hpopped.pool primary
      rw [hreg]
      refine Nat.le_trans (Nat.le_of_eq (congrArg List.length hpool)) ?_
      rw [length_take]
      exact Nat.min_le_right _ _
    · exact Nat.le_of_eq (congrArg List.length (hpopped.others primary _ hreg))

theorem left_popChunks_lt (hpos : 0 < s.left group) :
    (s.popChunks group.logicalId group.physicalRegions).left group < s.left group := by
  have hpopped := popped_foldl s.nodes group.logicalId group.physicalRegions
  cases hhead : group.physicalRegions.head? with
  | none =>
    rw [left, hhead] at hpos
    exact absurd hpos (Nat.lt_irrefl 0)
  | some primary =>
    rw [left_eq hhead] at hpos
    rw [left_eq hhead, left_eq hhead]
    obtain ⟨count, hcount, hpool⟩ := hpopped.pool primary
    have hcount := hcount (mem_of_head? hhead)
    refine Nat.lt_of_le_of_lt (Nat.le_of_eq (congrArg List.length hpool)) ?_
    rw [length_take]
    omega

theorem Chunk.mono {later : InUseArray} (h : s.Chunk chunkType group array i)
    (hleft : after.left group ≤ s.left group) (hkey : later.gptrOri = array.gptrOri)
    (hfree : later.freeList.Sublist array.freeList) : after.Chunk chunkType group later i where
  given := Nat.le_trans hleft h.given
  bound := h.bound
  key := hkey.trans h.key
  nodup := h.nodup.sublist hfree
  free := fun index hindex => h.free index (hfree.subset hindex)

theorem map_range_take {f : ℕ → ℕ} {pool later : List ℕ} {size count : ℕ}
    (h : pool = (List.range size).map f) (hlater : later = pool.take count) :
    later = (List.range later.length).map f := by
  rw [hlater, h, ← map_take, take_range, length_map, length_range]

theorem Chunks.popChunks (h : s.Chunks) : (s.popChunks region replicas).Chunks where
  __ := h
  pool := by
    intro group hgroup primary hhead hpos base hbase
    have hpopped := popped_foldl s.nodes region replicas
    have hpre := h.pool group hgroup primary hhead hpos base
      ((congrArg (lookup group.logicalId) (hpopped.basePtr primary)).symm.trans hbase)
    rw [left_eq hhead]
    by_cases hreg : group.logicalId = region
    · subst hreg
      obtain ⟨count, -, hpool⟩ := hpopped.pool primary
      exact map_range_take hpre hpool
    · have hsame := hpopped.others primary group.logicalId hreg
      exact map_range_take hpre (hsame.trans take_length.symm)
  left_le := fun group hgroup => Nat.le_trans left_popChunks_le (h.left_le group hgroup)
  chunk := by
    intro compute chunkType region array harray
    obtain ⟨group, hgroup, hid, i, hchunk⟩ := h.chunk compute chunkType region array harray
    exact ⟨group, hgroup, hid, i, hchunk.mono left_popChunks_le rfl (List.Sublist.refl _)⟩

theorem Chunks.reply_eq (h : s.Chunks) (hplaced : s.Placed) (hgroup : group ∈ s.groups)
    {offset : ℕ} (hreply : s.reply group = some offset) :
    0 < s.left group ∧ offset = (s.left group - 1) * allocGranu := by
  obtain ⟨hbind, -⟩ := filter_eq_some_iff.mp hreply
  obtain ⟨primary, hhead, hmr⟩ := bind_eq_some_iff.mp hbind
  obtain ⟨addr, haddr, hoff⟩ := map_eq_some_iff.mp hmr
  have hleft : 0 < s.left group := by
    rw [left_eq hhead]
    exact length_pos_of_mem (mem_of_getLast? haddr)
  have hbound := h.left_le group hgroup
  have hbytes : s.left group * allocGranu ≤ group.bytes :=
    Nat.le_trans (Nat.mul_le_mul_right _ hbound) (Nat.div_mul_le_self _ _)
  have hgranu : 0 < allocGranu := by decide
  have hlast : (s.left group - 1) * allocGranu < group.bytes :=
    Nat.lt_of_lt_of_le (Nat.mul_lt_mul_of_pos_right (by omega) hgranu) hbytes
  obtain ⟨base, hbase⟩ := hplaced.hosts group hgroup primary (mem_of_head? hhead)
  obtain ⟨-, hwrap⟩ := hplaced.inside group hgroup (by omega) primary base hbase
  have hsize := hplaced.sizes group hgroup
  rw [h.pool group hgroup primary hhead (by omega) base hbase, getLast?_map,
    getLast?_range, if_neg (by omega)] at haddr
  refine ⟨hleft, ?_⟩
  rw [hbase] at hoff
  cases haddr
  rw [← hoff]
  simp only
  omega

theorem Chunks.reply_fresh (h : s.Chunks) (hplaced : s.Placed) (hgroup : group ∈ s.groups)
    (hleft : 0 < s.left group)
    (harray : array ∈ (s.pools compute chunkType group.logicalId).bitmaps) :
    array.gptrOri ≠ (s.left group - 1) * allocGranu := by
  obtain ⟨found, hfound, hid, i, hchunk⟩ := h.chunk _ _ _ array harray
  have hgiven := hplaced.group_eq hfound hgroup hid ▸ hchunk.given
  rw [hchunk.key]
  intro hsame
  have hindex := Nat.eq_of_mul_eq_mul_right (by decide : 0 < allocGranu) hsame
  omega

theorem Chunks.addChunk (h : s.Chunks) (hgroup : group ∈ s.groups) (hgiven : s.left group ≤ i)
    (hbound : i < group.bytes / allocGranu)
    (hfresh : ∀ compute chunkType, ∀ array ∈ (s.pools compute chunkType group.logicalId).bitmaps,
      array.gptrOri ≠ i * allocGranu)
    (compute : ℕ) (chunkType : ChunkType) :
    (s.setPool compute chunkType group.logicalId
      ((s.pools compute chunkType group.logicalId).addChunk chunkType
        (i * allocGranu))).Chunks := by
  set new : InUseArray := ⟨i * allocGranu, List.range (allocGranu / chunkType.chunkSize)⟩
  set after := s.setPool compute chunkType group.logicalId
    ((s.pools compute chunkType group.logicalId).addChunk chunkType (i * allocGranu))
  have hself : after.pools compute chunkType group.logicalId =
      (s.pools compute chunkType group.logicalId).addChunk chunkType (i * allocGranu) :=
    setPool_pools_self _ _ _ _ _
  -- an array afterwards is the new one or was there
  have hmem : ∀ otherCompute otherType region array,
      array ∈ (after.pools otherCompute otherType region).bitmaps ↔
        (otherCompute = compute ∧ otherType = chunkType ∧ region = group.logicalId ∧ array = new) ∨
        array ∈ (s.pools otherCompute otherType region).bitmaps := by
    intro otherCompute otherType region array
    by_cases heq : otherCompute = compute ∧ otherType = chunkType ∧ region = group.logicalId
    · obtain ⟨rfl, rfl, rfl⟩ := heq
      rw [hself]
      refine (RemotePool.mem_insertArray (hfresh _ _)).trans ?_
      simp only [true_and]
      exact Iff.rfl
    · rw [setPool_pools_of_ne heq]
      constructor
      · exact Or.inr
      · rintro (⟨hc, ht, hr, -⟩ | hold)
        · exact absurd ⟨hc, ht, hr⟩ heq
        · exact hold
  refine ⟨h.pool, h.left_le, ?_, ?_, ?_, ?_, h.distinct⟩
  · intro otherCompute otherType region array harray
    rcases (hmem _ _ _ _).mp harray with ⟨-, rfl, rfl, rfl⟩ | hold
    · exact ⟨group, hgroup, rfl, i, hgiven, hbound, rfl, nodup_range,
        fun index hindex => mem_range.mp hindex⟩
    · obtain ⟨found, hfound, hid, j, hchunk⟩ := h.chunk _ _ _ array hold
      exact ⟨found, hfound, hid, j, hchunk.mono (Nat.le_refl _) rfl (List.Sublist.refl _)⟩
  · intro otherCompute otherType region
    by_cases heq : otherCompute = compute ∧ otherType = chunkType ∧ region = group.logicalId
    · obtain ⟨rfl, rfl, rfl⟩ := heq
      rw [hself]
      exact RemotePool.nodup_insertArray (hfresh _ _) (h.keys _ _ _)
    · rw [setPool_pools_of_ne heq]
      exact h.keys _ _ _
  · intro first firstType second secondType region array harray other hother hkey
    rcases (hmem _ _ _ _).mp harray with ⟨rfl, rfl, rfl, rfl⟩ | hold
    · rcases (hmem _ _ _ _).mp hother with ⟨rfl, rfl, -, -⟩ | hotherOld
      · exact ⟨rfl, rfl⟩
      · exact absurd hkey.symm (hfresh _ _ other hotherOld)
    · rcases (hmem _ _ _ _).mp hother with ⟨rfl, rfl, rfl, rfl⟩ | hotherOld
      · exact absurd hkey (hfresh _ _ array hold)
      · exact h.owner _ _ _ _ _ array hold other hotherOld hkey
  · intro slot hslot
    obtain ⟨array, harray, hspot⟩ := h.slot slot hslot
    exact ⟨array, (hmem _ _ _ _).mpr (Or.inr harray), hspot⟩

theorem Chunks.register (h : s.Chunks) (hplaced : s.Placed) :
    (s.register compute chunkType region).Chunks := by
  rcases register_cases s compute chunkType region with ⟨-, heq⟩ | ⟨group, hfind, hcases⟩
  · rw [heq]
    exact h
  · have hgroup := mem_of_find?_eq_some hfind
    have hid : group.logicalId = region := by simpa using find?_some hfind
    subst hid
    rcases hcases with ⟨-, heq⟩ | ⟨offset, hreply, heq⟩
    · rw [heq]
      exact h.popChunks
    · obtain ⟨hleft, hoff⟩ := h.reply_eq hplaced hgroup hreply
      have hbound := h.left_le group hgroup
      have hless : (s.popChunks group.logicalId group.physicalRegions).left group < s.left group :=
        left_popChunks_lt hleft
      rw [heq, hoff]
      exact h.popChunks.addChunk hgroup (by omega) (by omega)
        (fun _ _ _ harray => h.reply_fresh hplaced hgroup hleft harray) compute chunkType

theorem Chunk.offset_eq (hplaced : s.Placed) (hgroup : group ∈ s.groups)
    (h : s.Chunk chunkType group array i) (hindex : index ∈ array.freeList) :
    (array.gptrOri + index * chunkType.chunkSize) % 2 ^ 48 =
      array.gptrOri + index * chunkType.chunkSize := by
  have hspot : s.Spot ⟨0, chunkType, group.logicalId,
      i * allocGranu + index * chunkType.chunkSize⟩ group i index :=
    ⟨hgroup, rfl, h.bound, h.free index hindex, rfl⟩
  have hwithin := hspot.within.2
  have hsize := hplaced.sizes group hgroup
  have hpos := chunkType.chunkSize_pos
  simp only at hwithin
  rw [h.key]
  exact Nat.mod_eq_of_lt (by omega)

section Hand

variable {taken : ℕ × List InUseArray} {otherCompute otherRegion : ℕ} {otherType : ChunkType}

theorem hand_bitmaps_self (s : System) (compute : ℕ) (chunkType : ChunkType) (region : ℕ)
    (taken : ℕ × List InUseArray) :
    ((s.hand compute chunkType region taken).pools compute chunkType region).bitmaps = taken.2 :=
  congrArg RemotePool.bitmaps (setPool_pools_self _ _ _ _ _)

theorem hand_pools_of_ne
    (hne : ¬(otherCompute = compute ∧ otherType = chunkType ∧ otherRegion = region)) :
    (s.hand compute chunkType region taken).pools otherCompute otherType otherRegion =
      s.pools otherCompute otherType otherRegion :=
  setPool_pools_of_ne hne

section

variable (htaken : RemotePool.Taken chunkType (s.pools compute chunkType region).bitmaps taken)
include htaken

theorem hand_origin
    {later : InUseArray} (hlater : later ∈ ((s.hand compute chunkType region taken).pools
      otherCompute otherType otherRegion).bitmaps) :
    ∃ array ∈ (s.pools otherCompute otherType otherRegion).bitmaps,
      later.gptrOri = array.gptrOri ∧ later.freeList.Sublist array.freeList := by
  by_cases heq : otherCompute = compute ∧ otherType = chunkType ∧ otherRegion = region
  · obtain ⟨rfl, rfl, rfl⟩ := heq
    rw [hand_bitmaps_self] at hlater
    exact htaken.origin later hlater
  · rw [hand_pools_of_ne heq] at hlater
    exact ⟨later, hlater, rfl, List.Sublist.refl _⟩

theorem hand_kept (harray : array ∈ (s.pools otherCompute otherType otherRegion).bitmaps) :
    ∃ later ∈ ((s.hand compute chunkType region taken).pools
        otherCompute otherType otherRegion).bitmaps,
      later.gptrOri = array.gptrOri ∧ later.freeList.Sublist array.freeList := by
  by_cases heq : otherCompute = compute ∧ otherType = chunkType ∧ otherRegion = region
  · obtain ⟨rfl, rfl, rfl⟩ := heq
    rw [hand_bitmaps_self]
    exact htaken.kept array harray
  · rw [hand_pools_of_ne heq]
    exact ⟨array, harray, rfl, List.Sublist.refl _⟩

end

theorem Chunks.not_handed (h : s.Chunks)
    (harray : array ∈ (s.pools compute chunkType region).bitmaps) {offset : ℕ}
    (hindex : index ∈ array.freeList)
    (hoff : offset = array.gptrOri + index * chunkType.chunkSize) :
    (⟨compute, chunkType, region, offset⟩ : Slot) ∉ s.handed := by
  intro hold
  obtain ⟨group, hgroup, hid, i, hchunk⟩ := h.chunk _ _ _ array harray
  obtain ⟨before, hpre, used, hused, hnot, hslotOffset⟩ := h.slot _ hold
  obtain ⟨found, hfound, hfoundId, j, hbeforeChunk⟩ := h.chunk _ _ _ before hpre
  have hspot : s.Spot ⟨compute, chunkType, region, offset⟩ found j used :=
    ⟨hfound, hfoundId, hbeforeChunk.bound, hused, hbeforeChunk.key ▸ hslotOffset⟩
  have hnewSpot : s.Spot ⟨compute, chunkType, region, offset⟩ group i index :=
    ⟨hgroup, hid, hchunk.bound, hchunk.free index hindex, hchunk.key ▸ hoff⟩
  by_cases hsame : j = i ∧ used = index
  · have hkeys : before.gptrOri = array.gptrOri := by
      rw [hbeforeChunk.key, hchunk.key, hsame.1]
    have harrays : before = array :=
      inj_on_of_nodup_map (h.keys _ _ _) hpre harray hkeys
    rw [harrays, hsame.2] at hnot
    exact hnot hindex
  · -- a slot is not apart from itself
    have hpos := chunkType.chunkSize_pos
    have hapart := hspot.apart hnewSpot (by tauto)
    simp only [ByteRange.Apart] at hapart
    omega

theorem Chunks.hand (h : s.Chunks) (hplaced : s.Placed)
    (htaken : RemotePool.Taken chunkType (s.pools compute chunkType region).bitmaps taken) :
    (s.hand compute chunkType region taken).Chunks := by
  obtain ⟨array, harray, index, rest, hfree, hlater, hoff⟩ := htaken.slot
  obtain ⟨group, hgroup, hid, i, hchunk⟩ := h.chunk _ _ _ array harray
  have hindex : index ∈ array.freeList := hfree ▸ mem_append_right rest mem_cons_self
  rw [hchunk.offset_eq hplaced hgroup hindex] at hoff
  refine ⟨h.pool, h.left_le, ?_, ?_, ?_, ?_, ?_⟩
  · intro otherCompute otherType otherRegion later hmem
    obtain ⟨before, hpre, hkey, hsub⟩ := hand_origin htaken hmem
    obtain ⟨found, hfound, hfoundId, j, hbeforeChunk⟩ := h.chunk _ _ _ before hpre
    exact ⟨found, hfound, hfoundId, j, hbeforeChunk.mono (Nat.le_refl _) hkey hsub⟩
  · intro otherCompute otherType otherRegion
    by_cases heq : otherCompute = compute ∧ otherType = chunkType ∧ otherRegion = region
    · obtain ⟨rfl, rfl, rfl⟩ := heq
      rw [hand_bitmaps_self, htaken.keys]
      exact h.keys _ _ _
    · rw [hand_pools_of_ne heq]
      exact h.keys _ _ _
  · intro first firstType second secondType otherRegion later hmem other hother hkey
    obtain ⟨before, hpre, hbeforeKey, -⟩ := hand_origin htaken hmem
    obtain ⟨otherBefore, hotherBefore, hotherKey, -⟩ := hand_origin htaken hother
    exact h.owner _ _ _ _ _ before hpre otherBefore hotherBefore
      (hbeforeKey.symm.trans (hkey.trans hotherKey))
  · intro slot hslot
    rcases mem_append.mp hslot with hold | hnew
    · obtain ⟨before, hpre, used, hused, hnot, hslotOffset⟩ := h.slot slot hold
      obtain ⟨later, hmem, hkey, hsub⟩ := hand_kept htaken hpre
      exact ⟨later, hmem, used, hused, fun hin => hnot (hsub.subset hin), hkey ▸ hslotOffset⟩
    · cases mem_singleton.mp hnew
      refine ⟨⟨array.gptrOri, rest⟩, (hand_bitmaps_self s compute chunkType region taken).symm ▸
        hlater, index, hchunk.free index hindex, ?_, hoff⟩
      have hnodup := hchunk.nodup
      rw [hfree, nodup_append] at hnodup
      intro hin
      exact hnodup.2.2 index hin index mem_cons_self rfl
  · refine List.Nodup.append h.distinct (nodup_singleton _) ?_
    intro slot hold hnew
    cases mem_singleton.mp hnew
    exact h.not_handed harray hindex hoff hold

end Hand

def Inv (s : System) : Prop := s.Placed ∧ s.Chunks

theorem Inv.register (h : s.Inv) : (s.register compute chunkType region).Inv :=
  ⟨h.1.register, h.2.register h.1⟩

theorem Inv.hand (h : s.Inv) {chosen : InUseArray → Bool}
    (htaken : RemotePool.takeSlot chunkType chosen (s.pools compute chunkType region).bitmaps =
      some taken) : (s.hand compute chunkType region taken).Inv :=
  ⟨h.1.of_eq rfl (fun _ => rfl) (fun _ => rfl),
    h.2.hand h.1 (RemotePool.taken_of_takeSlot htaken)⟩

theorem Inv.register_chunk (h : s.Inv) (hgroup : group ∈ s.groups) {offset : ℕ}
    (hreply : s.reply group = some offset) :
    ∃ array ∈ ((s.register compute chunkType group.logicalId).pools compute chunkType
        group.logicalId).bitmaps, array.freeList ≠ [] ∧
      ((s.register compute chunkType group.logicalId).pools compute chunkType
        group.logicalId).registered.getLast? = some array.gptrOri := by
  have hfind := h.1.find_eq hgroup
  rcases register_cases s compute chunkType group.logicalId with ⟨hnone, -⟩ |
    ⟨found, hfound, hcases⟩
  · rw [hfind] at hnone
    cases hnone
  · rw [hfind] at hfound
    cases hfound
    rcases hcases with ⟨hnone, -⟩ | ⟨given, hgiven, heq⟩
    · rw [hreply] at hnone
      cases hnone
    · rw [hreply] at hgiven
      cases hgiven
      rw [heq, setPool_pools_self]
      obtain ⟨hleft, hoff⟩ := h.2.reply_eq h.1 hgroup hreply
      refine ⟨⟨offset, List.range (allocGranu / chunkType.chunkSize)⟩, ?_, ?_, ?_⟩
      · refine (RemotePool.mem_insertArray ?_).mpr (Or.inl rfl)
        intro array harray
        rw [hoff]
        exact h.2.reply_fresh h.1 hgroup hleft harray
      · rw [Ne, range_eq_nil]
        exact Nat.pos_iff_ne_zero.mp (Nat.div_pos chunkType.chunkSize_le chunkType.chunkSize_pos)
      · exact getLast?_concat

/-- The compute node has a free slot, or the primary of the region answers with a chunk. -/
def supplied (s : System) : Event → Bool
  | .register _ _ _ => true
  | .allocate compute chunkType region =>
      (RemotePool.takeSlot chunkType (fun _ => true)
        (s.pools compute chunkType region).bitmaps).isSome ||
      ((s.groups.find? (·.logicalId = region)).bind s.reply).isSome

theorem Inv.supplied_chunk (h : s.Inv) (hsupp : s.supplied (.allocate compute chunkType region))
    (hnone : RemotePool.takeSlot chunkType (fun _ => true)
      (s.pools compute chunkType region).bitmaps = none) :
    ∃ array ∈ ((s.register compute chunkType region).pools compute chunkType region).bitmaps,
      array.freeList ≠ [] ∧ ((s.register compute chunkType region).pools compute chunkType
        region).registered.getLast? = some array.gptrOri := by
  rw [supplied, hnone, isSome_none, Bool.false_or] at hsupp
  obtain ⟨offset, hbind⟩ := isSome_iff_exists.mp hsupp
  obtain ⟨group, hfind, hreply⟩ := bind_eq_some_iff.mp hbind
  have hid : group.logicalId = region := by simpa using find?_some hfind
  subst hid
  exact h.register_chunk (mem_of_find?_eq_some hfind) hreply

theorem Inv.allocate (h : s.Inv) (hsupp : s.supplied (.allocate compute chunkType region))
    (hstep : s.allocate compute chunkType region = some after) : after.Inv := by
  unfold System.allocate at hstep
  by_cases hempty : (s.pools compute chunkType region).bitmaps = []
  · -- the first chunk of this compute node
    rw [if_pos hempty] at hstep
    have hnone : RemotePool.takeSlot chunkType (fun _ => true)
        (s.pools compute chunkType region).bitmaps = none := by
      rw [hempty]
      rfl
    obtain ⟨array, harray, hfree, -⟩ := h.supplied_chunk hsupp hnone
    have hsome : (RemotePool.takeSlot chunkType (fun _ => true)
        ((s.register compute chunkType region).pools compute chunkType region).bitmaps).isSome :=
      RemotePool.takeSlot_isSome harray rfl hfree
    obtain ⟨taken, htaken⟩ := isSome_iff_exists.mp hsome
    simp only [htaken] at hstep
    cases hstep
    exact h.register.hand htaken
  · rw [if_neg hempty] at hstep
    cases htaken : RemotePool.takeSlot chunkType (fun _ => true)
        (s.pools compute chunkType region).bitmaps with
    | some taken =>
      simp only [htaken] at hstep
      cases hstep
      exact h.hand htaken
    | none =>
      obtain ⟨array, harray, hfree, hlast⟩ := h.supplied_chunk hsupp htaken
      have hsome : (RemotePool.takeSlot chunkType (·.gptrOri = array.gptrOri)
          ((s.register compute chunkType region).pools compute chunkType region).bitmaps).isSome :=
        RemotePool.takeSlot_isSome harray (decide_eq_true rfl) hfree
      obtain ⟨taken, hlastTaken⟩ := isSome_iff_exists.mp hsome
      simp only [htaken, hlast, map_some, hlastTaken] at hstep
      cases hstep
      exact h.register.hand hlastTaken

variable {groups : List LogicalGroup}

theorem Roomy.chunksForRegion_eq (h : Roomy groups)
    (hgroup : group ∈ groups) (hpos : 0 < group.bytes) :
    chunksForRegion group.bytes = group.bytes / allocGranu := by
  have hsize : allocGranu ≤ group.bytes := (h.sizes group hgroup).1.resolve_left (by omega)
  have hcount : 0 < group.bytes / allocGranu := Nat.div_pos hsize (by decide)
  rw [chunksForRegion, if_neg (by omega)]

theorem Accepted.chunks (h : s.Accepted) (hroomy : Roomy s.groups) : s.Chunks := by
  have hplaced := h.placed hroomy
  obtain ⟨groups, gbNumber, buffer, hids, rfl, -⟩ := h
  have hpool : ∀ group ∈ groups, ∀ node base, 0 < group.bytes →
      ((start groups gbNumber buffer).nodes node).basePtr.lookup group.logicalId = some base →
        ((start groups gbNumber buffer).nodes node).preAllocatedPool group.logicalId =
          (List.range (group.bytes / allocGranu)).map fun i =>
            (base + i * allocGranu) % 2 ^ 64 := by
    intro group hgroup node base hpos hbase
    have hfind : groups.find? (·.logicalId = group.logicalId) = some group :=
      hplaced.find_eq hgroup
    have hlook : (basePtrs (buffer node) 0 (regionsOn groups node)).lookup group.logicalId =
      some base := hbase
    simp only [start, preregisterMemory, hfind, hlook, if_pos hpos,
      hroomy.chunksForRegion_eq hgroup hpos]
  have hleft : ∀ group ∈ groups, (start groups gbNumber buffer).left group ≤
      group.bytes / allocGranu := by
    intro group hgroup
    cases hhead : group.physicalRegions.head? with
    | none =>
      rw [left, hhead]
      exact Nat.zero_le _
    | some primary =>
      obtain ⟨base, hbase⟩ := hplaced.hosts group hgroup primary (mem_of_head? hhead)
      have hfind : groups.find? (·.logicalId = group.logicalId) = some group :=
        hplaced.find_eq hgroup
      have hlook : (basePtrs (buffer primary) 0 (regionsOn groups primary)).lookup
        group.logicalId = some base := hbase
      rw [left_eq hhead]
      rcases Nat.eq_zero_or_pos group.bytes with hzero | hpos
      · simp [start, preregisterMemory, hfind, hlook, hzero]
      · refine Nat.le_of_eq ?_
        rw [hpool group hgroup primary base hpos hbase, length_map, length_range]
  refine ⟨?_, hleft, ?_, ?_, ?_, ?_, nodup_nil⟩
  · intro group hgroup primary hhead hpos base hbase
    have heq := hpool group hgroup primary base hpos hbase
    rw [left_eq hhead, heq, length_map, length_range]
  · intro compute chunkType region array harray
    cases harray
  · intro compute chunkType region
    exact nodup_nil
  · intro first firstType second secondType region array harray
    cases harray
  · intro slot hslot
    cases hslot

def Run (s : System) : Prop :=
  TransitionSystem.Reachable step (fun _ _ => True) Accepted s

def SuppliedRun (s : System) : Prop :=
  TransitionSystem.Reachable step (fun s event => s.supplied event = true)
    (fun s => s.Accepted ∧ Roomy s.groups) s

theorem Inv.step {event : Event} (h : s.Inv) (hsupp : s.supplied event = true)
    (hstep : s.step event = some after) : after.Inv := by
  cases event with
  | register compute chunkType region =>
    cases hstep
    exact h.register
  | allocate compute chunkType region => exact h.allocate hsupp hstep

theorem SuppliedRun.inv (h : s.SuppliedRun) : s.Inv :=
  TransitionSystem.Reachable.invariant
    (fun _ hstart => ⟨hstart.1.placed hstart.2, hstart.1.chunks hstart.2⟩)
    (fun _ _ _ hinv hallow hstep => hinv.step hallow hstep) h

def smallFirst : List LogicalGroup := [⟨1, [1], 4096⟩, ⟨2, [1], allocGranu⟩]

def chunkSized : List LogicalGroup := [⟨1, [1], allocGranu⟩, ⟨2, [1], allocGranu⟩]

def twoSlots : List Event := [.allocate 0 .deltaChunk 1, .allocate 2 .deltaChunk 2]

theorem regionsOn_of_ne {host : ℕ}
    (h : ∀ group ∈ groups, group.physicalRegions = [host]) (hne : node ≠ host) :
    regionsOn groups node = [] := by
  rw [regionsOn, flatMap_eq_nil_iff]
  intro group hgroup
  rw [h group hgroup, filter_cons_of_neg (by simpa using hne.symm)]
  rfl

theorem accepted_oneNode (hids : (groups.map LogicalGroup.logicalId).Nodup)
    (hhost : ∀ group ∈ groups, group.physicalRegions = [1])
    (htotal : totalRequiredSize groups 1 ≤ 2 ^ 30) :
    (start groups (fun _ => 1) fun _ => 4096).Accepted := by
  refine ⟨groups, fun _ => 1, fun _ => 4096, hids, rfl, ?_⟩
  intro node
  have hnode : totalRequiredSize groups node ≤ 2 ^ 30 := by
    by_cases heq : node = 1
    · rw [heq]
      exact htotal
    · rw [totalRequiredSize, regionsOn_of_ne hhost heq]
      exact Nat.zero_le _
  change 4096 + max (1 * 2 ^ 30 % 2 ^ 64) (totalRequiredSize groups node) ≤ 2 ^ 64
  omega

theorem chunkSized_roomy : Roomy chunkSized where
  sizes := by decide
  total := by
    intro node
    by_cases heq : node = 1
    · rw [heq]
      decide +kernel
    · rw [regionsOn_of_ne (by decide : ∀ group ∈ chunkSized, group.physicalRegions = [1]) heq]
      decide

end System

theorem slots_safe {s : System} (h : s.SuppliedRun) : s.Safe :=
  System.safe_of_chunks h.inv.1 h.inv.2

theorem slots_safe_twoSlots : ∃ s : System, s.SuppliedRun ∧ s.handed.length = 2 ∧ s.Safe := by
  obtain ⟨s, hrun, htwo⟩ : ∃ s : System, s.SuppliedRun ∧ s.handed.length = 2 :=
    TransitionSystem.Reachable.exists_of_schedule System.twoSlots
      ⟨System.accepted_oneNode (by decide) (by decide) (by decide +kernel), System.chunkSized_roomy⟩
      (by decide +kernel)
  exact ⟨s, hrun, htwo, slots_safe hrun⟩

/-- The chunk of the small region lies over the next region. -/
theorem smallFirst_not_safe : ∃ s : System, s.Run ∧ ¬s.Safe := by
  obtain ⟨s, hrun, hfirst, hsnd, hregions, hover⟩ : ∃ s : System, s.Run ∧
      ((s.nodes 1).basePtr.lookup 1).isSome = true ∧ ((s.nodes 1).basePtr.lookup 2).isSome = true ∧
      s.handed.map Slot.region = [1, 2] ∧ ∀ first ∈ s.handed, ∀ second ∈ s.handed,
        ¬(s.slotRange 1 first).Apart (s.slotRange 1 second) :=
    @TransitionSystem.Reachable.exists_of_schedule _ _ _ _ _
      (System.start System.smallFirst (fun _ => 1) fun _ => 4096) _ _ _ System.twoSlots
      (System.accepted_oneNode (by decide) (by decide) (by decide +kernel)) (by decide +kernel)
  refine ⟨s, hrun, ?_⟩
  intro hsafe
  obtain ⟨first, rest, hhanded, hone, hrest⟩ := map_eq_cons_iff.mp hregions
  obtain ⟨second, last, hlast, htwo, -⟩ := map_eq_cons_iff.mp hrest
  have hapart := hsafe.apart
  rw [hhanded, hlast] at hapart hover
  have hpair := (pairwise_cons.mp hapart).1 second mem_cons_self 1
    (hone ▸ hfirst) (htwo ▸ hsnd)
  exact hover first mem_cons_self second (mem_cons_of_mem _ mem_cons_self) hpair

end MemoryEngine.Rdma
