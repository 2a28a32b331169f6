import MemoryEngine.Storage.PageCacheSteps

/-! A handle for a new page, and the page put in the cache. -/
namespace MemoryEngine.PageCache.Shard

open IntrusiveRing ChainedTable List

variable {K : Type} [DecidableEq K] {hash : K → ℕ} {s after : Shard K} {lists later : Lists}
  {handle other : ℕ} {key : K} {charge : BitVec 64} {rest : List ℕ}

def hasVictim (s : Shard K) : Prop :=
  s.links.next (.head .free) ≠ some (.head .free) ∨ s.links.next (.head .lru) ≠ some (.head .lru)

instance (s : Shard K) : Decidable s.hasVictim := inferInstanceAs (Decidable (_ ∨ _))

structure Obtained (s after : Shard K) (lists later : Lists) (handle : ℕ) : Prop where
  lru : ∀ other ∈ later .lru, other ∈ lists .lru
  inUse : later .inUse = lists .inUse
  handles : ∀ other ≠ handle, after.handles other = s.handles other
  capacity : after.capacity = s.capacity

omit [DecidableEq K] in
theorem Inv.pop (h : Inv hash s lists none none) (hlist : lists .free = handle :: rest) :
    ∃ after, s.popFreeList = some (some handle, after) ∧
      Inv hash after (lists.drop .free handle) none (some handle) ∧
      after.drift (lists.drop .free handle) = s.drift lists ∧
      Obtained s after lists (lists.drop .free handle) handle := by
  have hmem : handle ∈ lists .free := hlist ▸ mem_cons_self
  obtain ⟨hrefs, hzero, -⟩ := h.seats.seat .free handle hmem
  obtain ⟨links, hcut, hrings⟩ := h.seats.rings.remove hmem
  have hoff := h.seats.rings.off_drop hmem
  have hnext : s.links.next (.head .free) = some (.handle handle) := by
    rw [h.seats.rings.next_head, hlist]
  have hlru : lists.drop .free handle .lru = lists .lru := Lists.drop_of_ne (by decide)
  have huse : lists.drop .free handle .inUse = lists .inUse := Lists.drop_of_ne (by decide)
  have hstep : s.popFreeList = some (some handle,
      { s with links := links, freeListSize := s.freeListSize - 1 }) := by
    rw [popFreeList, hnext]
    simp only [listRemove_eq hcut, Option.map_some]
  refine ⟨_, hstep, ⟨?_, ?_, ?_, ?_⟩, ?_, ⟨?_, huse, fun _ _ => rfl, rfl⟩⟩
  · refine h.seats.move handle rfl rfl hrings (fun _ hne _ => Lists.mem_drop_of_ne hne)
      (fun _ _ => rfl) (fun _ _ => rfl) (h.seats.bound _ _ hmem)
      (fun list hlist => absurd hlist (hoff list)) (fun _ => Or.inl rfl) ?_
      (fun _ => ⟨hoff, hzero⟩) h.seats.keys
    intro other hne
    simp [Ne.symm hne]
  · refine h.cached.congr rfl (fun _ _ => rfl) fun other => ?_
    unfold Lists.Cached
    rw [hlru, huse]
  · rw [Lists.drop_self, ofNat_length_erase hmem]
    exact congrArg (· - 1) h.counts.free
  · refine h.counts.usage.trans ?_
    rfl
  · unfold drift
    rw [hlru]
  · rw [hlru]
    exact fun _ hother => hother

theorem Inv.evict (h : Inv hash s lists none none) (hlist : lists .lru = handle :: rest) :
    ∃ after, s.evictOldest hash = some (handle, after) ∧
      Inv hash after (lists.drop .lru handle) none (some handle) ∧
      after.drift (lists.drop .lru handle) = s.drift lists ∧
      Obtained s after lists (lists.drop .lru handle) handle := by
  have hmem : handle ∈ lists .lru := hlist ▸ mem_cons_self
  obtain ⟨hrefs, hzero, hcache⟩ := h.seats.seat .lru handle hmem
  obtain ⟨links, hcut, hrings⟩ := h.seats.rings.remove hmem
  have hoff := h.seats.rings.off_drop hmem
  have hnext : s.links.next (.head .lru) = some (.handle handle) := by
    rw [h.seats.rings.next_head, hlist]
  have hfound : s.lookup hash (s.keyOf handle) = some handle :=
    h.lookup_eq_some_iff.mpr ⟨Or.inl hmem, rfl⟩
  have hdet := h.tableRemove hfound
  have hrmv : (s.tableRemove hash (s.keyOf handle)).listRemove (.handle handle) =
      some { s.tableRemove hash (s.keyOf handle) with links := links } := listRemove_eq hcut
  have hstep : s.evictOldest hash = some (handle,
      { s.tableRemove hash (s.keyOf handle) with
        links := links, lruSize := s.lruSize - 1,
        usage := s.usage - (s.handles handle).charge }.setRefs handle
          ((s.handles handle).refs - 1)) := by
    rw [evictOldest, hnext]
    simp only [hrmv, Option.bind_eq_bind, Option.bind_some]
    rfl
  refine ⟨_, hstep, ⟨?_, ?_, ?_, ?_⟩, ?_, ⟨?_, ?_, fun _ hne => setRefs_of_ne hne, rfl⟩⟩
  · refine hdet.seats.move handle rfl rfl hrings (fun _ hne _ => Lists.mem_drop_of_ne hne)
      (fun _ hne => setRefs_of_ne hne) (fun _ _ => rfl) (h.seats.bound _ _ hmem)
      (fun list hlist => absurd hlist (hoff list)) (fun _ => Or.inl rfl) ?_
      (fun _ => ⟨hoff, hzero⟩) ?_
    · intro other hne
      simp [Ne.symm hne]
    · intro reference href
      exact ⟨(h.seats.keys reference href).1,
        keyOf_setRefs.trans (h.seats.keys reference href).2⟩
  · refine hdet.cached.move rfl (fun _ => keyOf_setRefs)
      (fun _ hne _ => Lists.mem_drop_of_ne hne) (fun _ hne => by simp [hne.symm]) ?_
    simp [hdet.cached.mem, Lists.Cached, hoff .lru, hoff .inUse]
  · rw [Lists.drop_of_ne (by decide)]
    exact h.counts.free
  · refine Eq.trans ?_ (charges_congr fun _ _ => charge_setRefs).symm
    have hchrg := @charges_drop K s lists handle .lru (by decide) hmem
    refine Eq.trans ?_ hchrg.symm
    rw [← h.counts.usage]
    rfl
  · unfold drift
    rw [Lists.drop_self, ofNat_length_erase hmem]
    exact sub_sub_sub_cancel_right _ _ _
  · intro other hother
    exact mem_of_mem_erase hother
  · exact Lists.drop_of_ne (by decide)

theorem Inv.obtainHandle (h : Inv hash s lists none none) (hvict : s.hasVictim) :
    ∃ handle after later, s.obtainHandle hash = some (handle, after) ∧
      Inv hash after later none (some handle) ∧ after.drift later = s.drift lists ∧
      Obtained s after lists later handle := by
  cases hfree : lists .free with
  | cons handle rest =>
    obtain ⟨after, hpop, hinv, hdrift, hobt⟩ := h.pop hfree
    refine ⟨handle, after, _, ?_, hinv, hdrift, hobt⟩
    rw [Shard.obtainHandle, hpop]
    rfl
  | nil =>
    have hpop : s.popFreeList = some (none, s) := by
      rw [popFreeList, h.seats.rings.next_head, hfree]
    cases hlru : lists .lru with
    | nil =>
      have hnextFree : s.links.next (.head .free) = some (.head .free) := by
        rw [h.seats.rings.next_head, hfree]
      have hnextLru : s.links.next (.head .lru) = some (.head .lru) := by
        rw [h.seats.rings.next_head, hlru]
      rcases hvict with hne | hne
      · exact absurd hnextFree hne
      · exact absurd hnextLru hne
    | cons handle rest =>
      obtain ⟨after, hevict, hinv, hdrift, hobt⟩ := h.evict hlru
      refine ⟨handle, after, _, ?_, hinv, hdrift, hobt⟩
      rw [Shard.obtainHandle, hpop]
      exact hevict

def renamed (s : Shard K) (handle : ℕ) (key : K) (charge : BitVec 64) : Shard K :=
  ((s.modifyHandle handle fun _ => ⟨key, charge, true, 1⟩).hold handle key).setRefs handle 2

omit [DecidableEq K] in
theorem renamed_self : (s.renamed handle key charge).handles handle = ⟨key, charge, true, 2⟩ := by
  have hself : ((s.modifyHandle handle fun _ => ⟨key, charge, true, 1⟩).hold handle key).handles
      handle = ⟨key, charge, true, 1⟩ := Function.update_self _ _ _
  rw [renamed, setRefs_self, hself]

omit [DecidableEq K] in
theorem renamed_of_ne (hne : other ≠ handle) :
    (s.renamed handle key charge).handles other = s.handles other :=
  (setRefs_of_ne hne).trans (Function.update_of_ne hne _ _)

omit [DecidableEq K] in
theorem keyOf_renamed_self : (s.renamed handle key charge).keyOf handle = key :=
  congrArg Handle.key renamed_self

omit [DecidableEq K] in
theorem keyOf_renamed_of_ne (hne : other ≠ handle) :
    (s.renamed handle key charge).keyOf other = s.keyOf other :=
  congrArg Handle.key (renamed_of_ne hne)

def placed (hash : K → ℕ) (s : Shard K) (handle : ℕ) (key : K) (charge : BitVec 64)
    (links : Links Node) : Shard K :=
  { s.renamed handle key charge with
    links := links
    usage := s.usage + charge
    table := (s.table.insert (s.renamed handle key charge).keyOf hash handle).2 }

theorem placeHandle_eq {links : Links Node} (hcapacity : s.capacity ≠ 0)
    (hpaste : s.links.paste (.head .inUse) (.handle handle) (.handle handle) = some links) :
    s.placeHandle hash handle key charge = (s.placed hash handle key charge links).finishErase
      (s.table.insert (s.renamed handle key charge).keyOf hash handle).1 := by
  have happd : (s.renamed handle key charge).listAppend (.head .inUse) (.handle handle) =
      some { s.renamed handle key charge with links := links } := listAppend_eq hpaste
  have hcap : ((s.modifyHandle handle fun _ => ⟨key, charge, true, 1⟩).hold handle key).capacity ≠
    0 := hcapacity
  unfold placeHandle
  rw [if_pos hcap]
  refine (congrArg (Option.bind · _) happd).trans ?_
  rfl

section Placed

variable {links : Links Node}

variable (h : Inv hash s lists none (some handle))
include h

theorem Inv.seats_placed (hrings : Rings links (lists.add .inUse handle)) :
    (s.placed hash handle key charge links).Seats (lists.add .inUse handle) none := by
  obtain ⟨hbound, hoff, hzero⟩ := h.seats.free_spare handle rfl
  refine h.seats.move handle rfl rfl hrings ?_ (fun _ hne => renamed_of_ne hne)
    (fun _ hne => heldCount_hold_of_ne hne) hbound ?_ ?_ ?_ (fun hnone => by cases hnone) ?_
  · intro other hne list
    rw [Lists.mem_add]
    simp [hne]
  · intro list hlist
    rcases Lists.mem_add.mp hlist with hold | ⟨rfl, -⟩
    · exact absurd hold (hoff list)
    · have hheld : (s.placed hash handle key charge links).heldCount handle = 1 :=
        heldCount_hold_self.trans (congrArg (· + 1) hzero)
      have hself : (s.placed hash handle key charge links).handles handle =
        ⟨key, charge, true, 2⟩ := renamed_self
      refine ⟨?_, ?_, ?_⟩
      · rw [hself, hheld]
      · rw [hheld]
        exact Nat.one_pos
      · rw [hself]
  · intro hoffAfter
    exact absurd (Lists.mem_add.mpr (Or.inr ⟨rfl, rfl⟩)) (hoffAfter .inUse)
  · intro other hne
    simp [Ne.symm hne]
  · intro reference href
    rcases mem_cons.mp href with rfl | hold
    · exact ⟨hbound, keyOf_renamed_self⟩
    · have hne : reference.1 ≠ handle := by
        intro heq
        have hpos : 0 < s.heldCount handle :=
          countP_pos_iff.mpr ⟨reference, hold, decide_eq_true heq⟩
        omega
      exact ⟨(h.seats.keys reference hold).1,
        (keyOf_renamed_of_ne hne).trans (h.seats.keys reference hold).2⟩

omit [DecidableEq K] in
theorem Inv.ne_of_mem (hmem : s.table.Mem other) : other ≠ handle := by
  have hoff := (h.seats.free_spare handle rfl).2.1
  intro heq
  subst heq
  rcases ((h.cached.mem other).mp hmem).1 with hin | hin
  · exact hoff .lru hin
  · exact hoff .inUse hin

omit [DecidableEq K] in
theorem Inv.sound_renamed : s.table.Sound (s.renamed handle key charge).keyOf hash :=
  h.cached.sound.congr fun _ hmem => keyOf_renamed_of_ne (h.ne_of_mem hmem)

theorem Inv.insert_fst :
    (s.table.insert (s.renamed handle key charge).keyOf hash handle).1 = s.lookup hash key := by
  rw [(h.sound_renamed.insert handle).1, keyOf_renamed_self]
  exact h.cached.sound.lookup_congr fun _ hmem => keyOf_renamed_of_ne (h.ne_of_mem hmem)

theorem Inv.cached_placed :
    Cached hash (s.placed hash handle key charge links) (lists.add .inUse handle)
      (s.lookup hash key) := by
  obtain ⟨-, hsound, hmem⟩ := @Table.Sound.insert ℕ K _
    (s.renamed handle key charge).keyOf hash s.table h.sound_renamed handle
  have hoff := (h.seats.free_spare handle rfl).2.1
  have hadd : ∀ other, (lists.add .inUse handle).Cached other ↔
      lists.Cached other ∨ other = handle := by
    intro other
    unfold Lists.Cached
    rw [Lists.mem_add, Lists.mem_add]
    simp [or_assoc]
  refine ⟨hsound, ?_, ?_⟩
  · intro other
    refine (hmem other).trans ?_
    rw [hadd, keyOf_renamed_self]
    constructor
    · rintro (rfl | ⟨hin, hkey⟩)
      · refine ⟨Or.inr rfl, fun hfound => ?_⟩
        rcases (h.lookup_eq_some_iff.mp hfound).1 with hlru | huse
        · exact hoff .lru hlru
        · exact hoff .inUse huse
      · refine ⟨Or.inl ((h.cached.mem other).mp hin).1, fun hfound => hkey ?_⟩
        exact (keyOf_renamed_of_ne (h.ne_of_mem hin)).trans (h.lookup_eq_some_iff.mp hfound).2
    · rintro ⟨hcached | rfl, hne⟩
      · have hin : s.table.Mem other := (h.cached.mem other).mpr ⟨hcached, by simp⟩
        refine Or.inr ⟨hin, fun hkey => hne (h.lookup_eq_some_iff.mpr ⟨hcached, ?_⟩)⟩
        exact (keyOf_renamed_of_ne (h.ne_of_mem hin)).symm.trans hkey
      · exact Or.inl rfl
  · intro other hfound
    rw [hadd]
    exact Or.inl (h.lookup_eq_some_iff.mp hfound).1

theorem Inv.counts_placed :
    (s.placed hash handle key charge links).Counts (lists.add .inUse handle) := by
  have hoff := (h.seats.free_spare handle rfl).2.1
  have hlru : lists.add .inUse handle .lru = lists .lru := Lists.add_of_ne (by decide)
  have hcharge : ∀ list, ∀ other ∈ lists list,
      ((s.placed hash handle key charge links).handles other).charge =
        (s.handles other).charge := by
    intro list other hother
    have hne : other ≠ handle := fun heq => hoff list (heq ▸ hother)
    exact congrArg Handle.charge (renamed_of_ne hne)
  have hself : ((s.placed hash handle key charge links).handles handle).charge = charge :=
    congrArg Handle.charge renamed_self
  refine ⟨?_, ?_⟩
  · rw [Lists.add_of_ne (by decide)]
    exact h.counts.free
  · rw [charges, hlru, Lists.add_self, chargesOf_concat, hself, chargesOf_congr (hcharge .lru),
      chargesOf_congr (hcharge .inUse), ← add_assoc]
    exact congrArg (· + charge) h.counts.usage

theorem Inv.placed (hrings : Rings links (lists.add .inUse handle)) :
    Inv hash (s.placed hash handle key charge links) (lists.add .inUse handle)
      (s.lookup hash key) none :=
  ⟨h.seats_placed hrings, h.cached_placed, h.counts_placed⟩

omit [DecidableEq K] in
theorem Inv.uncached (hcapacity : s.capacity = 0) (key : K) (charge : BitVec 64) :
    Inv hash { (s.modifyHandle handle fun _ => ⟨key, charge, true, 1⟩).hold handle key with
      links := { s.links with next := Function.update s.links.next (.handle handle) none } }
      lists none none := by
  obtain ⟨hbound, hoff, hzero⟩ := h.seats.free_spare handle rfl
  have hself : (s.modifyHandle handle fun _ => ⟨key, charge, true, 1⟩).handles handle =
    ⟨key, charge, true, 1⟩ := modifyHandle_self
  have hothers : ∀ other ≠ handle,
      (s.modifyHandle handle fun _ => ⟨key, charge, true, 1⟩).handles other = s.handles other :=
    fun _ hother => modifyHandle_of_ne hother
  have hkeyOther : ∀ other ≠ handle,
      (s.modifyHandle handle fun _ => ⟨key, charge, true, 1⟩).keyOf other = s.keyOf other :=
    fun other hne => congrArg Handle.key (hothers other hne)
  have hne : ∀ list, ∀ other ∈ lists list, other ≠ handle :=
    fun list other hother heq => hoff list (heq ▸ hother)
  refine ⟨?_, ?_, ⟨h.counts.free, ?_⟩⟩
  · refine h.seats.move handle rfl rfl ⟨?_, h.seats.rings.apart⟩ (fun _ _ _ => Iff.rfl)
      hothers (fun _ hother => heldCount_hold_of_ne hother)
      hbound (fun list hlist => absurd hlist (hoff list)) ?_ ?_ (fun hnone => by cases hnone) ?_
    · intro list
      refine (h.seats.rings.cyclic list).congr ?_ fun _ _ => rfl
      intro node hnode
      have hnodeNe : node ≠ .handle handle := by
        intro heq
        rw [heq, Lists.handle_mem_ring] at hnode
        exact hoff list hnode
      exact Function.update_of_ne hnodeNe _ _
    · intro _
      have hheld : ((s.modifyHandle handle fun _ => ⟨key, charge, true, 1⟩).hold handle
          key).heldCount handle = 1 := heldCount_hold_self.trans (congrArg (· + 1) hzero)
      refine Or.inr ⟨?_, ?_, Or.inr ⟨hcapacity, hheld⟩⟩
      · exact (congrArg Handle.refs hself).trans hheld.symm
      · exact Nat.lt_of_lt_of_eq Nat.one_pos hheld.symm
    · intro other hother
      simp [Ne.symm hother]
    · intro reference href
      rcases mem_cons.mp href with rfl | hold
      · exact ⟨hbound, congrArg Handle.key hself⟩
      · have hreferenceNe : reference.1 ≠ handle := by
          intro heq
          have hpos : 0 < s.heldCount handle :=
            countP_pos_iff.mpr ⟨reference, hold, decide_eq_true heq⟩
          omega
        exact ⟨(h.seats.keys reference hold).1,
          (hkeyOther _ hreferenceNe).trans (h.seats.keys reference hold).2⟩
  · refine h.cached.congr rfl ?_ fun _ => Iff.rfl
    rintro other (hin | hin)
    · exact hkeyOther other (hne .lru other hin)
    · exact hkeyOther other (hne .inUse other hin)
  · refine h.counts.usage.trans (charges_congr ?_).symm
    rintro other (hin | hin)
    · exact congrArg Handle.charge (hothers other (hne .lru other hin))
    · exact congrArg Handle.charge (hothers other (hne .inUse other hin))

end Placed

theorem Inv.placeHandle (h : Inv hash s lists none (some handle)) (key : K) (charge : BitVec 64) :
    ∃ after later, s.placeHandle hash handle key charge = some after ∧
      Inv hash after later none none ∧
      ((∀ other, s.lookup hash key = some other → other ∉ lists .lru) →
        after.drift later = s.drift lists) ∧
      ∀ other ∈ lists .inUse, s.keyOf other ≠ key → later.Cached other := by
  obtain ⟨-, hoff, -⟩ := h.seats.free_spare handle rfl
  by_cases hcapacity : s.capacity = 0
  · have hcap :
        ¬((s.modifyHandle handle fun _ => ⟨key, charge, true, 1⟩).hold handle key).capacity ≠ 0 :=
      not_not_intro hcapacity
    refine ⟨_, lists, ?_, h.uncached hcapacity key charge, fun _ => rfl,
      fun _ hother _ => Or.inr hother⟩
    unfold Shard.placeHandle
    rw [if_neg hcap]
    rfl
  · obtain ⟨links, hpaste, hrings⟩ := h.seats.rings.append .inUse hoff
    have hplaced := @Inv.placed K _ hash s lists handle key charge links h hrings
    have hlru : lists.add .inUse handle .lru = lists .lru := Lists.add_of_ne (by decide)
    have hdrift : (s.placed hash handle key charge links).drift (lists.add .inUse handle) =
        s.drift lists := by
      rfl
    rw [placeHandle_eq hcapacity hpaste, h.insert_fst]
    cases hfound : s.lookup hash key with
    | none =>
      rw [hfound] at hplaced
      refine ⟨_, _, rfl, hplaced, fun _ => hdrift, fun other hother _ => Or.inr ?_⟩
      exact Lists.mem_add.mpr (Or.inl hother)
    | some old =>
      rw [hfound] at hplaced
      have holdNe : ∀ other ∈ lists .inUse, s.keyOf other ≠ key → other ≠ old := by
        intro other _ hkey heq
        exact hkey (heq ▸ (h.lookup_eq_some_iff.mp hfound).2)
      rcases (h.lookup_eq_some_iff.mp hfound).1 with hmem | hmem
      · obtain ⟨after, hstep, hinv⟩ := hplaced.erase_lru (hlru.symm ▸ hmem)
        refine ⟨after, _, hstep, hinv, fun hnot => absurd hmem (hnot old rfl), ?_⟩
        intro other hother hkey
        refine Or.inr ((mem_drop_add_of_ne (holdNe other hother hkey)).mpr ?_)
        exact Lists.mem_add.mpr (Or.inl hother)
      · have hmemAdd : old ∈ lists.add .inUse handle .inUse := Lists.mem_add.mpr (Or.inl hmem)
        obtain ⟨after, hstep, hinv, hstepDrift⟩ := hplaced.erase_inUse hmemAdd
        refine ⟨after, _, hstep, hinv, fun _ => hstepDrift.trans hdrift, ?_⟩
        intro other hother hkey
        refine Or.inr ((Lists.mem_drop_of_ne (holdNe other hother hkey)).mpr ?_)
        exact Lists.mem_add.mpr (Or.inl hother)

end MemoryEngine.PageCache.Shard
