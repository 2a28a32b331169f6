import MemoryEngine.Rdma.RemoteMemory
import Mathlib.Data.List.Nodup

/-! The layout of the regions in the buffer of a memory node: consecutive ranges inside the
registered memory while the sizes do not wrap. -/
namespace MemoryEngine.Rdma

open List

section Layout

variable {buffer currentOffset logicalId otherId base other : ℕ} {regions : List (ℕ × ℕ)}

theorem basePtrs_lookup (hwrap : buffer + currentOffset + (regions.map Prod.snd).sum ≤ 2 ^ 64)
    (hoff : currentOffset + (regions.map Prod.snd).sum < 2 ^ 64)
    (hpos : ∀ region ∈ regions, region.1 = logicalId → 0 < region.2)
    (h : (basePtrs buffer currentOffset regions).lookup logicalId = some base) :
    ∃ bytes, (logicalId, bytes) ∈ regions ∧ buffer + currentOffset ≤ base ∧
      base + bytes ≤ buffer + currentOffset + (regions.map Prod.snd).sum := by
  induction regions generalizing currentOffset with
  | nil => cases h
  | cons head regions ih =>
    obtain ⟨headId, bytes⟩ := head
    rw [map_cons, sum_cons] at hwrap hoff ⊢
    rw [basePtrs, lookup_cons] at h
    by_cases heq : logicalId = headId
    · have hbytes : 0 < bytes := hpos _ mem_cons_self heq.symm
      rw [heq, beq_self_eq_true, Nat.mod_eq_of_lt (by omega)] at h
      cases h
      exact ⟨bytes, heq ▸ mem_cons_self, Nat.le_refl _, by omega⟩
    · have hnext : currentOffset + bytes < 2 ^ 64 := by omega
      rw [beq_eq_false_iff_ne.mpr heq, Nat.mod_eq_of_lt hnext] at h
      obtain ⟨found, hmem, hlow, hhigh⟩ := ih (by omega) (by omega)
        (fun region hreg => hpos region (mem_cons_of_mem _ hreg)) h
      exact ⟨found, mem_cons_of_mem _ hmem, by omega, by omega⟩

theorem basePtrs_apart (hne : logicalId ≠ otherId)
    (hwrap : buffer + currentOffset + (regions.map Prod.snd).sum ≤ 2 ^ 64)
    (hoff : currentOffset + (regions.map Prod.snd).sum < 2 ^ 64)
    (hpos : ∀ region ∈ regions, region.1 = logicalId ∨ region.1 = otherId → 0 < region.2)
    (h : (basePtrs buffer currentOffset regions).lookup logicalId = some base)
    (hother : (basePtrs buffer currentOffset regions).lookup otherId = some other) :
    ∃ bytes otherBytes, (logicalId, bytes) ∈ regions ∧ (otherId, otherBytes) ∈ regions ∧
      (⟨base, bytes⟩ : ByteRange).Apart ⟨other, otherBytes⟩ := by
  induction regions generalizing currentOffset with
  | nil => cases h
  | cons head regions ih =>
    obtain ⟨headId, bytes⟩ := head
    rw [map_cons, sum_cons] at hwrap hoff
    have hnext : currentOffset + bytes < 2 ^ 64 := by omega
    rw [basePtrs, lookup_cons] at h hother
    have htail : ∀ region ∈ regions, region.1 = logicalId ∨ region.1 = otherId → 0 < region.2 :=
      fun region hreg => hpos region (mem_cons_of_mem _ hreg)
    by_cases heq : logicalId = headId
    · -- the head is the first region, the other one follows it
      have hbytes : 0 < bytes := hpos _ mem_cons_self (Or.inl heq.symm)
      have hotherNe : otherId ≠ headId := fun hhead => hne (heq.trans hhead.symm)
      rw [heq, beq_self_eq_true, Nat.mod_eq_of_lt (by omega)] at h
      rw [beq_eq_false_iff_ne.mpr hotherNe, Nat.mod_eq_of_lt hnext] at hother
      cases h
      obtain ⟨found, hmem, hlow, -⟩ := basePtrs_lookup (by omega) (by omega)
        (fun region hreg hid => htail region hreg (Or.inr hid)) hother
      refine ⟨bytes, found, heq ▸ mem_cons_self, mem_cons_of_mem _ hmem, Or.inl ?_⟩
      simp only
      omega
    · rw [beq_eq_false_iff_ne.mpr heq, Nat.mod_eq_of_lt hnext] at h
      by_cases hhead : otherId = headId
      · have hbytes : 0 < bytes := hpos _ mem_cons_self (Or.inr hhead.symm)
        rw [hhead, beq_self_eq_true, Nat.mod_eq_of_lt (by omega)] at hother
        cases hother
        obtain ⟨found, hmem, hlow, -⟩ := basePtrs_lookup (by omega) (by omega)
          (fun region hreg hid => htail region hreg (Or.inl hid)) h
        refine ⟨found, bytes, mem_cons_of_mem _ hmem, hhead ▸ mem_cons_self, Or.inr ?_⟩
        simp only
        omega
      · rw [beq_eq_false_iff_ne.mpr hhead, Nat.mod_eq_of_lt hnext] at hother
        obtain ⟨found, otherFound, hmem, hotherMem, hapart⟩ :=
          ih (by omega) (by omega) htail h hother
        exact ⟨found, otherFound, mem_cons_of_mem _ hmem, mem_cons_of_mem _ hotherMem,
          hapart⟩

theorem exists_basePtr {bytes : ℕ} (h : (logicalId, bytes) ∈ regions) :
    ∃ base, (basePtrs buffer currentOffset regions).lookup logicalId = some base := by
  induction regions generalizing currentOffset with
  | nil => cases h
  | cons head regions ih =>
    rw [basePtrs, lookup_cons]
    by_cases heq : logicalId = head.1
    · rw [heq, beq_self_eq_true]
      exact ⟨_, rfl⟩
    · rw [beq_eq_false_iff_ne.mpr heq]
      rcases mem_cons.mp h with hhead | htail
      · exact absurd (congrArg Prod.fst hhead) heq
      · exact ih htail

theorem mem_regionsOn {groups : List LogicalGroup} {node bytes : ℕ} :
    (logicalId, bytes) ∈ regionsOn groups node ↔
      ∃ group ∈ groups, node ∈ group.physicalRegions ∧ group.logicalId = logicalId ∧
        group.bytes = bytes := by
  simp only [regionsOn, mem_flatMap, mem_map, mem_filter, Prod.mk.injEq,
    decide_eq_true_eq]
  constructor
  · rintro ⟨group, hgroup, found, ⟨hfound, heq⟩, hid, hbytes⟩
    exact ⟨group, hgroup, heq ▸ hfound, hid, hbytes⟩
  · rintro ⟨group, hgroup, hnode, hid, hbytes⟩
    exact ⟨group, hgroup, node, ⟨hnode, rfl⟩, hid, hbytes⟩

end Layout

namespace System

variable {s after : System} {node : ℕ} {group : LogicalGroup}

structure Placed (s : System) : Prop where
  ids : (s.groups.map LogicalGroup.logicalId).Nodup
  sizes : ∀ group ∈ s.groups, group.bytes ≤ 2 ^ 48
  hosts : ∀ group ∈ s.groups, ∀ node ∈ group.physicalRegions,
    ∃ base, (s.nodes node).basePtr.lookup group.logicalId = some base
  inside : ∀ group ∈ s.groups, 0 < group.bytes → ∀ node base,
    (s.nodes node).basePtr.lookup group.logicalId = some base →
      (⟨base, group.bytes⟩ : ByteRange).Within (s.nodes node).memory ∧
      base + group.bytes ≤ 2 ^ 64
  apart : ∀ first ∈ s.groups, ∀ second ∈ s.groups, first.logicalId ≠ second.logicalId →
    0 < first.bytes → 0 < second.bytes → ∀ node base other,
      (s.nodes node).basePtr.lookup first.logicalId = some base →
      (s.nodes node).basePtr.lookup second.logicalId = some other →
      (⟨base, first.bytes⟩ : ByteRange).Apart ⟨other, second.bytes⟩

theorem Placed.group_eq (h : s.Placed) {first second : LogicalGroup} (hfirst : first ∈ s.groups)
    (hsnd : second ∈ s.groups) (hid : first.logicalId = second.logicalId) : first = second :=
  inj_on_of_nodup_map h.ids hfirst hsnd hid

theorem Placed.find_eq (h : s.Placed) (hgroup : group ∈ s.groups) :
    s.groups.find? (·.logicalId = group.logicalId) = some group := by
  cases hfind : s.groups.find? (·.logicalId = group.logicalId) with
  | none =>
    have hnone := find?_eq_none.mp hfind group hgroup
    simp at hnone
  | some found =>
    have hid : found.logicalId = group.logicalId := by simpa using find?_some hfind
    rw [h.group_eq (mem_of_find?_eq_some hfind) hgroup hid]

theorem regionRange_eq {base : ℕ} (hpos : 0 < group.bytes)
    (hbase : (s.nodes node).basePtr.lookup group.logicalId = some base)
    (hwrap : base + group.bytes ≤ 2 ^ 64) : s.regionRange node group = ⟨base, group.bytes⟩ := by
  rw [regionRange, MemoryNode.translate, hbase, Option.getD_some, Nat.mod_eq_of_lt (by omega)]
  rfl

theorem Placed.of_eq (h : s.Placed) (hgroups : after.groups = s.groups)
    (hmemory : ∀ node, (after.nodes node).memory = (s.nodes node).memory)
    (hbasePtr : ∀ node, (after.nodes node).basePtr = (s.nodes node).basePtr) : after.Placed where
  ids := hgroups ▸ h.ids
  sizes := hgroups ▸ h.sizes
  hosts := by
    intro group hgroup node hnode
    rw [hbasePtr]
    exact h.hosts group (hgroups ▸ hgroup) node hnode
  inside := by
    intro group hgroup hpos node base hbase
    rw [hbasePtr] at hbase
    rw [hmemory]
    exact h.inside group (hgroups ▸ hgroup) hpos node base hbase
  apart := by
    intro first hfirst second hsnd hne hpos hotherPos node base other hbase hother
    rw [hbasePtr] at hbase hother
    exact h.apart first (hgroups ▸ hfirst) second (hgroups ▸ hsnd) hne hpos hotherPos node base
      other hbase hother

/-- Each region is empty or has room for a chunk, and the sizes do not wrap. -/
structure Roomy (groups : List LogicalGroup) : Prop where
  sizes : ∀ group ∈ groups,
    (group.bytes = 0 ∨ allocGranu ≤ group.bytes) ∧ group.bytes ≤ 2 ^ 48
  total : ∀ node, ((regionsOn groups node).map Prod.snd).sum < 2 ^ 64

/-- The memory nodes have accepted the configuration: each has got its buffer. -/
def Accepted (s : System) : Prop :=
  ∃ groups gbNumber buffer, (groups.map LogicalGroup.logicalId).Nodup ∧
    s = start groups gbNumber buffer ∧
    ∀ node, (s.nodes node).memory.start + (s.nodes node).memory.length ≤ 2 ^ 64

theorem bytes_eq_of_mem {groups : List LogicalGroup}
    (hids : (groups.map LogicalGroup.logicalId).Nodup) (hgroup : group ∈ groups) {bytes : ℕ}
    (h : (group.logicalId, bytes) ∈ regionsOn groups node) : bytes = group.bytes := by
  obtain ⟨found, hfound, -, hid, hbytes⟩ := mem_regionsOn.mp h
  rw [← hbytes, inj_on_of_nodup_map hids hfound hgroup hid]

theorem Accepted.placed (h : s.Accepted) (hroomy : Roomy s.groups) : s.Placed := by
  obtain ⟨groups, gbNumber, buffer, hids, rfl, hmemory⟩ := h
  have hsize : ∀ node, ((regionsOn groups node).map Prod.snd).sum ≤
      ((start groups gbNumber buffer).nodes node).memory.length := by
    intro node
    have htotal : totalRequiredSize groups node = ((regionsOn groups node).map Prod.snd).sum :=
      Nat.mod_eq_of_lt (hroomy.total node)
    rw [← htotal]
    exact Nat.le_max_right _ _
  have hwrap : ∀ node, buffer node + 0 + ((regionsOn groups node).map Prod.snd).sum ≤ 2 ^ 64 := by
    intro node
    have hbuffer := hmemory node
    have hnode := hsize node
    change buffer node + _ ≤ _ at hbuffer
    omega
  have hoff : ∀ node, 0 + ((regionsOn groups node).map Prod.snd).sum < 2 ^ 64 := by
    intro node
    rw [Nat.zero_add]
    exact hroomy.total node
  have hpos : ∀ group ∈ groups, 0 < group.bytes → ∀ node, ∀ region ∈ regionsOn groups node,
      region.1 = group.logicalId → 0 < region.2 := by
    intro group hgroup hbytes node region hreg hid
    have hmem : (group.logicalId, region.2) ∈ regionsOn groups node := hid ▸ hreg
    rw [bytes_eq_of_mem hids hgroup hmem]
    exact hbytes
  refine ⟨hids, fun group hgroup => (hroomy.sizes group hgroup).2, ?_, ?_, ?_⟩
  · intro group hgroup node hnode
    exact exists_basePtr (mem_regionsOn.mpr ⟨group, hgroup, hnode, rfl, rfl⟩)
  · intro group hgroup hbytes node base hbase
    obtain ⟨bytes, hmem, hlow, hhigh⟩ :=
      basePtrs_lookup (hwrap node) (hoff node) (hpos group hgroup hbytes node) hbase
    have hnode := hsize node
    have hbuffer := hmemory node
    rw [bytes_eq_of_mem hids hgroup hmem] at hhigh
    change buffer node + _ ≤ _ at hbuffer
    refine ⟨⟨hlow, ?_⟩, by omega⟩
    change base + group.bytes ≤ buffer node + _
    omega
  · intro first hfirst second hsnd hne hfirstPos hsecondPos node base other hbase hother
    have hboth : ∀ region ∈ regionsOn groups node,
        region.1 = first.logicalId ∨ region.1 = second.logicalId → 0 < region.2 := by
      intro region hreg hid
      rcases hid with hid | hid
      · exact hpos first hfirst hfirstPos node region hreg hid
      · exact hpos second hsnd hsecondPos node region hreg hid
    obtain ⟨bytes, otherBytes, hmem, hotherMem, hapart⟩ :=
      basePtrs_apart hne (hwrap node) (hoff node) hboth hbase hother
    rw [bytes_eq_of_mem hids hfirst hmem, bytes_eq_of_mem hids hsnd hotherMem] at hapart
    exact hapart

end System

end MemoryEngine.Rdma
