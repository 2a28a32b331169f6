import MemoryEngine.Storage.PageCacheSteps

/-! The calls that take several handles out of the cache: `prepare_free_list`, which moves a batch
of the oldest handles to the free list, and `Prune`. -/
namespace MemoryEngine.PageCache.Shard

open IntrusiveRing ChainedTable List Option

variable {K : Type} [DecidableEq K] {hash : K → ℕ} {s after : Shard K} {lists later : Lists}
  {handle other oldest : ℕ} {key : K} {batch rest : List ℕ}

section Loop

omit [DecidableEq K]

/-- A loop that changes one handle at a time changes each handle of the batch once. -/
theorem handles_foldl {act : Shard K → ℕ → Shard K} {change : Handle K → Handle K}
    (hact : ∀ s handle,
      (act s handle).handles = Function.update s.handles handle (change (s.handles handle)))
    (hnodup : batch.Nodup) :
    (∀ handle ∈ batch, (batch.foldl act s).handles handle = change (s.handles handle)) ∧
      ∀ handle ∉ batch, (batch.foldl act s).handles handle = s.handles handle := by
  induction batch generalizing s with
  | nil => exact ⟨by simp, fun _ _ => rfl⟩
  | cons head batch ih =>
    rw [nodup_cons] at hnodup
    obtain ⟨hinside, houtside⟩ := @ih (act s head) hnodup.2
    constructor
    · intro handle hmem
      rcases mem_cons.mp hmem with rfl | htail
      · rw [foldl_cons, houtside handle hnodup.1, hact, Function.update_self]
      · have hne : handle ≠ head := fun heq => hnodup.1 (heq ▸ htail)
        rw [foldl_cons, hinside handle htail, hact, Function.update_of_ne hne]
    · intro handle hmem
      rw [mem_cons, not_or] at hmem
      rw [foldl_cons, houtside handle hmem.2, hact, Function.update_of_ne hmem.1]

theorem dropRef_foldl (batch : List ℕ) :
    batch.foldl dropRef s = { s with handles := (batch.foldl dropRef s).handles } := by
  induction batch generalizing s with
  | nil => rfl
  | cons handle batch ih => exact @ih (s.dropRef handle)

end Loop

section

variable (hsound : s.table.Sound s.keyOf hash)
include hsound

theorem sound_uncache : (s.uncache hash handle).table.Sound (s.uncache hash handle).keyOf hash := by
  have hkeys : (s.leaveCache handle).keyOf = s.keyOf := funext fun _ => keyOf_leaveCache
  have hremoved := (hsound.remove (s.keyOf handle)).2.1
  rw [← hkeys] at hremoved
  exact hremoved

theorem mem_uncache (hmem : s.table.Mem handle) :
    (s.uncache hash handle).table.Mem other ↔ s.table.Mem other ∧ other ≠ handle := by
  have hkeys : (s.leaveCache handle).keyOf = s.keyOf := funext fun _ => keyOf_leaveCache
  have hremoved := (hsound.remove (s.keyOf handle)).2.2 other
  rw [← hkeys] at hremoved
  refine hremoved.trans ?_
  rw [hkeys]
  constructor
  · rintro ⟨hother, hkey⟩
    exact ⟨hother, fun heq => hkey (congrArg s.keyOf heq)⟩
  · rintro ⟨hother, hne⟩
    refine ⟨hother, fun hkey => hne ?_⟩
    have hfirst := hsound.lookup_eq_some_iff.mpr ⟨hother, hkey⟩
    have hsnd := hsound.lookup_eq_some_iff.mpr ⟨hmem, rfl⟩
    rw [hfirst] at hsnd
    exact Option.some.inj hsnd

theorem uncache_foldl (hmem : ∀ handle ∈ batch, s.table.Mem handle) (hnodup : batch.Nodup) :
    ∃ handles usage table,
      batch.foldl (·.uncache hash ·) s = { s with handles, usage, table } ∧
      usage = s.usage - s.chargesOf batch ∧ table.Sound (fun handle => (handles handle).key) hash ∧
      ∀ handle, table.Mem handle ↔ s.table.Mem handle ∧ handle ∉ batch := by
  induction batch generalizing s with
  | nil => exact ⟨_, _, _, rfl, (sub_zero _).symm, hsound, by simp⟩
  | cons handle batch ih =>
    rw [nodup_cons] at hnodup
    have hhandle := hmem handle mem_cons_self
    have hrest : ∀ other ∈ batch, (s.uncache hash handle).table.Mem other := by
      intro other hother
      refine (mem_uncache hsound hhandle).mpr ⟨hmem other (mem_cons_of_mem _ hother), ?_⟩
      exact fun heq => hnodup.1 (heq ▸ hother)
    obtain ⟨handles, usage, table, hfold, husage, htable, hmems⟩ :=
      ih (sound_uncache hsound) hrest hnodup.2
    refine ⟨handles, usage, table, hfold, ?_, htable, ?_⟩
    · have hchrg : (s.uncache hash handle).chargesOf batch = s.chargesOf batch :=
        chargesOf_congr fun _ _ => charge_leaveCache
      have hleft : (s.uncache hash handle).usage = s.usage - (s.handles handle).charge :=
        congrArg (s.usage - ·) charge_leaveCache
      rw [husage, hchrg, hleft, chargesOf_cons, sub_sub]
    · intro other
      rw [hmems, mem_uncache hsound hhandle, mem_cons]
      tauto

end

theorem mapM_asHandle (batch : List ℕ) : (batch.map Node.handle).mapM asHandle = some batch := by
  induction batch with
  | nil => rfl
  | cons handle batch ih =>
    rw [map_cons, mapM_cons, ih]
    rfl

def emptied (hash : K → ℕ) (s : Shard K) (batch : List ℕ) : Shard K :=
  batch.foldl dropRef (batch.foldl (·.uncache hash ·) s)

structure Emptied (hash : K → ℕ) (s after : Shard K) (batch : List ℕ) : Prop where
  same : after = { s with handles := after.handles, usage := after.usage, table := after.table }
  inside : ∀ handle ∈ batch, after.handles handle =
    { s.handles handle with inCache := false, refs := (s.handles handle).refs - 1 }
  outside : ∀ handle ∉ batch, after.handles handle = s.handles handle
  usage : after.usage = s.usage - s.chargesOf batch
  sound : after.table.Sound after.keyOf hash
  mem : ∀ handle, after.table.Mem handle ↔ s.table.Mem handle ∧ handle ∉ batch

theorem emptied_spec (hsound : s.table.Sound s.keyOf hash)
    (hmem : ∀ handle ∈ batch, s.table.Mem handle) (hnodup : batch.Nodup) :
    Emptied hash s (s.emptied hash batch) batch := by
  obtain ⟨handles, usage, table, hfold, husage, htable, hmems⟩ := uncache_foldl hsound hmem hnodup
  have hsame := dropRef_foldl (s := batch.foldl (·.uncache hash ·) s) batch
  obtain ⟨hinside, houtside⟩ := @handles_foldl K s batch (·.uncache hash ·)
    (fun entry => { entry with inCache := false }) (fun _ _ => rfl) hnodup
  obtain ⟨hdropIn, hdropOut⟩ := @handles_foldl K (batch.foldl (·.uncache hash ·) s) batch dropRef
    (fun entry => { entry with refs := entry.refs - 1 }) (fun _ _ => rfl) hnodup
  rw [hfold] at hsame hinside houtside hdropIn hdropOut
  rw [emptied, hfold]
  have husages := congrArg Shard.usage hsame
  have htables := congrArg Shard.table hsame
  refine ⟨?_, ?_, ?_, husages.trans husage, ?_, ?_⟩
  · rw [husages, htables]
    exact hsame
  · intro handle hin
    rw [hdropIn handle hin, hinside handle hin]
  · intro handle hout
    exact (hdropOut handle hout).trans (houtside handle hout)
  · rw [htables]
    refine htable.congr fun handle _ => ?_
    unfold keyOf
    by_cases hin : handle ∈ batch
    · rw [hdropIn handle hin]
    · rw [hdropOut handle hin]
  · rw [htables]
    exact hmems

def recycled (lists : Lists) (batch rest : List ℕ) : Lists :=
  Function.update (Function.update lists .lru rest) .free (lists .free ++ batch)

section Recycled

omit [DecidableEq K]

theorem recycled_lru : recycled lists batch rest .lru = rest := rfl

theorem recycled_inUse : recycled lists batch rest .inUse = lists .inUse := rfl

theorem recycled_free : recycled lists batch rest .free = lists .free ++ batch := rfl

theorem mem_batch_lru (hlist : lists .lru = batch ++ rest) (hin : handle ∈ batch) :
    handle ∈ lists .lru := by
  rw [hlist]
  exact mem_append_left _ hin

theorem mem_recycled_of_not_mem (hlist : lists .lru = batch ++ rest) (hout : handle ∉ batch)
    (list : ListHead) : handle ∈ recycled lists batch rest list ↔ handle ∈ lists list := by
  cases list with
  | lru =>
    rw [recycled_lru, hlist, mem_append]
    exact ⟨Or.inr, fun h => h.resolve_left hout⟩
  | inUse => exact Iff.rfl
  | free =>
    rw [recycled_free, mem_append]
    exact ⟨fun h => h.resolve_right hout, Or.inl⟩

theorem mem_recycled_of_mem {links : Links Node} (h : Rings links lists)
    (hlist : lists .lru = batch ++ rest) (hin : handle ∈ batch) (list : ListHead) :
    handle ∈ recycled lists batch rest list ↔ list = .free := by
  have hlru := mem_batch_lru hlist hin
  have hnodup := h.nodup .lru
  rw [hlist] at hnodup
  cases list with
  | lru =>
    refine ⟨fun hrest => ?_, fun heq => by cases heq⟩
    exact absurd rfl ((nodup_append.mp hnodup).2.2 handle hin handle hrest)
  | inUse =>
    refine ⟨fun huse => ?_, fun heq => by cases heq⟩
    exact absurd (h.apart .inUse .lru handle huse hlru) (by decide)
  | free => exact ⟨fun _ => rfl, fun _ => mem_append_right _ hin⟩

theorem chargesOf_append : s.chargesOf (batch ++ rest) = s.chargesOf batch + s.chargesOf rest := by
  simp [chargesOf]

end Recycled

omit [DecidableEq K] in
theorem Inv.recycle (h : Inv hash s lists none none) (hlist : lists .lru = batch ++ rest)
    {cutLinks links : Links Node} (hempt : Emptied hash { s with links := cutLinks } after batch)
    (hrings : Rings links (recycled lists batch rest)) {size : BitVec 64}
    (hsize : size = BitVec.ofNat 64 batch.length) :
    Inv hash { after with links := links, freeListSize := after.freeListSize + size }
      (recycled lists batch rest) none none := by
  have hinside := hempt.inside
  have houtside : ∀ handle ∉ batch, after.handles handle = s.handles handle := hempt.outside
  have hcount : after.handleCount = s.handleCount := by rw [hempt.same]
  have hcap : after.capacity = s.capacity := by rw [hempt.same]
  have hheld : after.held = s.held := by rw [hempt.same]
  have hfree : after.freeListSize = s.freeListSize := by rw [hempt.same]
  have hheldCount : ∀ handle, after.heldCount handle = s.heldCount handle := by
    intro handle
    rw [heldCount, hheld]
    rfl
  have hkeys : ∀ handle, after.keyOf handle = s.keyOf handle := by
    intro handle
    unfold keyOf
    by_cases hin : handle ∈ batch
    · rw [hinside handle hin]
    · rw [houtside handle hin]
  have hcharge : ∀ handle, (after.handles handle).charge = (s.handles handle).charge := by
    intro handle
    by_cases hin : handle ∈ batch
    · rw [hinside handle hin]
    · rw [houtside handle hin]
  have hplace : ∀ handle ∈ batch, ∀ list,
      handle ∈ recycled lists batch rest list ↔ list = .free :=
    fun _ hin => mem_recycled_of_mem h.seats.rings hlist hin
  have hothers : ∀ handle ∉ batch, ∀ list,
      handle ∈ recycled lists batch rest list ↔ handle ∈ lists list :=
    fun _ hout => mem_recycled_of_not_mem hlist hout
  refine ⟨⟨hrings, ?_, ?_, ?_, ?_, ?_, ?_⟩, ⟨?_, ?_, ?_⟩, ⟨?_, ?_⟩⟩
  · intro list handle hmem
    refine Nat.lt_of_lt_of_eq ?_ hcount.symm
    by_cases hin : handle ∈ batch
    · exact h.seats.bound .lru handle (mem_batch_lru hlist hin)
    · exact h.seats.bound list handle ((hothers handle hin list).mp hmem)
  · intro list handle hmem
    by_cases hin : handle ∈ batch
    · obtain ⟨hrefs, hzero, -⟩ := h.seats.seat .lru handle (mem_batch_lru hlist hin)
      obtain rfl := (hplace handle hin list).mp hmem
      refine ⟨?_, (hheldCount handle).trans hzero, Or.inl ?_⟩
      · refine (congrArg Handle.refs (hinside handle hin)).trans ?_
        exact congrArg (· - 1) hrefs
      · exact congrArg Handle.inCache (hinside handle hin)
    · exact (h.seats.seat list handle ((hothers handle hin list).mp hmem)).congr hcap
        (houtside handle hin) (hheldCount handle)
  · intro handle hlt hoff
    have hin : handle ∉ batch := fun hin => hoff .free ((hplace handle hin .free).mpr rfl)
    have hpre : lists.Off handle := fun list hmem => hoff list ((hothers handle hin list).mpr hmem)
    rcases h.seats.loose handle (Nat.lt_of_lt_of_eq hlt hcount) hpre with hnone | hfits
    · cases hnone
    · exact Or.inr (hfits.congr hcap (houtside handle hin) (hheldCount handle))
  · intro handle hnone
    cases hnone
  · intro reference href
    have hold : reference ∈ s.held := hheld ▸ href
    exact ⟨Nat.lt_of_lt_of_eq (h.seats.keys reference hold).1 hcount.symm,
      (hkeys _).trans (h.seats.keys reference hold).2⟩
  · exact Nat.lt_of_le_of_lt hcount.le h.seats.small
  · exact hempt.sound
  · intro handle
    refine (hempt.mem handle).trans ?_
    refine (and_congr_left' (h.cached.mem handle)).trans ?_
    by_cases hin : handle ∈ batch
    · simp [Lists.Cached, hplace handle hin, hin]
    · simp [Lists.Cached, hothers handle hin, hin]
  · intro handle hnone
    cases hnone
  · rw [recycled_free, length_append, BitVec.ofNat_add, ← hsize, ← h.counts.free]
    exact congrArg (· + size) hfree
  · have hchrg : after.charges (recycled lists batch rest) =
        s.charges (recycled lists batch rest) := charges_congr fun handle _ => hcharge handle
    refine hempt.usage.trans (Eq.trans ?_ hchrg.symm)
    have husage := h.counts.usage
    rw [charges, hlist, chargesOf_append] at husage
    rw [charges, recycled_lru, recycled_inUse]
    change s.usage - s.chargesOf batch = _
    rw [husage]
    ring

theorem Inv.prepareFreeList_evicts (h : Inv hash s lists none none)
    (hlist : lists .lru = (oldest :: batch) ++ rest)
    (hneed : s.needEviction = true ∧ 0 < s.recycleNum.toInt)
    (hsize : s.recycleNum.toNat = (oldest :: batch).length) :
    ∃ after, s.prepareFreeList hash = some after ∧
      Inv hash after (recycled lists (oldest :: batch) rest) none none := by
  obtain ⟨last, cutLinks, hnext, hfollow, hlast, hcut, hcutRings, hchain, hnull⟩ :=
    h.seats.rings.cutOldest hlist
  have hnodup : (oldest :: batch).Nodup := by
    have hall := h.seats.rings.nodup .lru
    rw [hlist] at hall
    exact (nodup_append.mp hall).1
  have hmem : ∀ handle ∈ oldest :: batch, s.table.Mem handle := by
    intro handle hin
    exact (h.cached.mem handle).mpr ⟨Or.inl (mem_batch_lru hlist hin), by simp⟩
  have hempt := @emptied_spec K _ hash { s with links := cutLinks } (oldest :: batch)
    h.cached.sound hmem hnodup
  have hoff : ∀ handle ∈ oldest :: batch, Lists.Off (Function.update lists .lru rest) handle := by
    intro handle hin list hlistMem
    have hrecyc := mem_recycled_of_mem h.seats.rings hlist hin
    cases list with
    | lru => exact absurd ((hrecyc .lru).mp hlistMem) (by decide)
    | inUse => exact absurd ((hrecyc .inUse).mp hlistMem) (by decide)
    | free =>
      have hfree : handle ∈ lists .free := hlistMem
      exact absurd (h.seats.rings.apart .free .lru handle hfree (mem_batch_lru hlist hin))
        (by decide)
  obtain ⟨links, hpaste, hrings⟩ := hcutRings.pasteNewest .free hchain hnodup hoff hlast
  have hrmv : s.bulkRemoveLruList s.recycleNum.toNat =
      some ((.handle oldest, last), { s with links := cutLinks }) := by
    rw [bulkRemoveLruList, hsize]
    refine bind_eq_some_iff.mpr ⟨_, hnext, ?_⟩
    refine bind_eq_some_iff.mpr ⟨_, hfollow, ?_⟩
    exact bind_eq_some_iff.mpr ⟨_, hcut, rfl⟩
  have hbatch : (cutLinks.upToNull s.recycleNum.toNat (.handle oldest)).mapM asHandle =
      some (oldest :: batch) := by
    have hup : cutLinks.upToNull (oldest :: batch).length (.handle oldest) =
        (oldest :: batch).map Node.handle := by
      have hlen : (oldest :: batch).length = ((oldest :: batch).map Node.handle).length :=
        (length_map _).symm
      rw [hlen]
      refine upToNull_eq hchain fun found hfound => ?_
      rw [← map_cons, hlast] at hfound
      cases hfound
      exact hnull
    rw [hsize, hup]
    exact mapM_asHandle _
  have hins : (({ s with links := cutLinks } : Shard K).emptied hash
      (oldest :: batch)).links.paste (.head .free) (.handle oldest) last = some links := by
    rw [hempt.same]
    exact hpaste
  have hcount : s.recycleNum = BitVec.ofNat 64 (oldest :: batch).length := by
    rw [← hsize, BitVec.ofNat_toNat, BitVec.setWidth_eq]
  refine ⟨_, ?_, h.recycle hlist hempt hrings hcount⟩
  unfold Shard.prepareFreeList
  rw [if_pos hneed]
  refine bind_eq_some_iff.mpr ⟨_, hrmv, ?_⟩
  refine bind_eq_some_iff.mpr ⟨_, hbatch, ?_⟩
  exact map_eq_some_iff.mpr ⟨links, hins, rfl⟩

section Prune

variable (h : Inv hash s lists none none)
include h

theorem Inv.erase_oldest (hlist : lists .lru = oldest :: rest) :
    ∃ after, s.erase hash (s.keyOf oldest) = some after ∧
      Inv hash after ((lists.drop .lru oldest).add .free oldest) none none := by
  have hmem : oldest ∈ lists .lru := hlist ▸ mem_cons_self
  have hfound : s.lookup hash (s.keyOf oldest) = some oldest :=
    h.lookup_eq_some_iff.mpr ⟨Or.inl hmem, rfl⟩
  rw [Shard.erase, hfound]
  exact (h.tableRemove hfound).erase_lru hmem

theorem Inv.pruneLoop {fuel : ℕ} (hfuel : (lists .lru).length < fuel) :
    ∃ after later, s.pruneLoop hash fuel = some after ∧ Inv hash after later none none ∧
      later .lru = [] ∧ later .inUse = lists .inUse := by
  induction fuel generalizing s lists with
  | zero => exact absurd hfuel (Nat.not_lt_zero _)
  | succ fuel ih =>
    have hnext := h.seats.rings.next_head .lru
    cases hlist : lists .lru with
    | nil =>
      rw [hlist] at hnext
      refine ⟨s, lists, ?_, h, hlist, rfl⟩
      rw [Shard.pruneLoop, hnext]
    | cons oldest rest =>
      rw [hlist] at hnext
      obtain ⟨after, hstep, hinv⟩ := h.erase_oldest hlist
      have hlru : (lists.drop .lru oldest).add .free oldest .lru = rest := by
        rw [Lists.add_of_ne (by decide), Lists.drop_self, hlist, erase_cons_head]
      have huse : (lists.drop .lru oldest).add .free oldest .inUse = lists .inUse := by
        rw [Lists.add_of_ne (by decide), Lists.drop_of_ne (by decide)]
      have hrest : ((lists.drop .lru oldest).add .free oldest .lru).length < fuel := by
        rw [hlist, length_cons] at hfuel
        rw [hlru]
        omega
      obtain ⟨final, later, hloop, hfinal, hempty, hkept⟩ := ih hinv hrest
      refine ⟨final, later, ?_, hfinal, hempty, hkept.trans huse⟩
      rw [Shard.pruneLoop, hnext]
      exact bind_eq_some_iff.mpr ⟨after, hstep, hloop⟩

omit [DecidableEq K] in
theorem Inv.length_le (list : ListHead) : (lists list).length ≤ s.handleCount := by
  have hsubset : lists list ⊆ List.range s.handleCount :=
    fun handle hmem => mem_range.mpr (h.seats.bound list handle hmem)
  have hle := ((h.seats.rings.nodup list).subperm hsubset).length_le
  rwa [length_range] at hle

theorem Inv.prune :
    ∃ after later, s.prune hash = some after ∧ Inv hash after later none none ∧
      later .lru = [] ∧ later .inUse = lists .inUse :=
  h.pruneLoop (Nat.lt_succ_of_le (h.length_le .lru))

end Prune

end MemoryEngine.PageCache.Shard
