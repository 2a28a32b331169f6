import MemoryEngine.Library.TransitionSystem
import MemoryEngine.Storage.PageCacheEviction
import MemoryEngine.Storage.PageCacheInsert

/-! Runs of calls on a shard built by `init`.

`careful` says when a call never uses a list head as a handle, deletes no handle and lets no 32-bit
counter wrap.  In runs of such calls all parts of the cache agree except `lru_size_`, which also
needs that no call takes a handle off the LRU list without counting it (`counted`). -/
namespace MemoryEngine.PageCache.Shard

open IntrusiveRing ChainedTable List

variable {K : Type} [DecidableEq K] {hash : K → ℕ} {s after : Shard K} {lists later : Lists}
  {handle other : ℕ} {key : K} {charge : BitVec 64}

section Init

omit [DecidableEq K]

variable {capacity limit : BitVec 64} {null : K}

theorem Inv.empty : Inv hash (empty capacity limit null) (fun _ => []) none none := by
  refine ⟨⟨⟨?_, ?_⟩, ?_, ?_, ?_, ?_, ?_, Nat.two_pow_pos 64⟩, ⟨?_, ?_, ?_⟩, ⟨rfl, rfl⟩⟩
  · intro list
    refine ⟨nodup_singleton _, isChain_singleton _, ?_⟩
    intro first hfirst last hlast
    cases hfirst
    cases hlast
    exact ⟨rfl, rfl⟩
  · intro _ _ _ hmem
    cases hmem
  · intro _ _ hmem
    cases hmem
  · intro _ _ hmem
    cases hmem
  · intro _ hlt
    exact absurd hlt (Nat.not_lt_zero _)
  · intro _ hnone
    cases hnone
  · intro _ hheld
    cases hheld
  · exact ⟨Nat.succ_pos 3, fun _ _ hmem => absurd hmem not_mem_nil, fun _ => nodup_nil⟩
  · intro handle
    constructor
    · rintro ⟨_, hmem⟩
      cases hmem
    · rintro ⟨hmem | hmem, -⟩
      · cases hmem
      · cases hmem
  · intro _ hnone
    cases hnone

theorem Inv.addHandle (h : Inv hash s lists none none)
    (hfresh : (s.handles s.handleCount).refs = 0 ∧ (s.handles s.handleCount).inCache = false)
    (hsmall : s.handleCount + 1 < 2 ^ 64) :
    ∃ links, s.addHandle = some { s with
        handleCount := s.handleCount + 1, links := links, freeListSize := s.freeListSize + 1 } ∧
      Inv hash { s with
        handleCount := s.handleCount + 1, links := links, freeListSize := s.freeListSize + 1 }
        (lists.add .free s.handleCount) none none := by
  have hoff : lists.Off s.handleCount :=
    fun list hmem => Nat.lt_irrefl _ (h.seats.bound list _ hmem)
  have hzero : s.heldCount s.handleCount = 0 := by
    refine countP_eq_zero.mpr fun reference href hheld => ?_
    have hlt := (h.seats.keys reference href).1
    rw [of_decide_eq_true hheld] at hlt
    exact Nat.lt_irrefl _ hlt
  obtain ⟨links, hpaste, hrings⟩ := h.seats.rings.append .free hoff
  have happd : { s with handleCount := s.handleCount + 1 }.listAppend (.head .free)
      (.handle s.handleCount) = some { s with handleCount := s.handleCount + 1, links := links } :=
    listAppend_eq hpaste
  have hlru : lists.add .free s.handleCount .lru = lists .lru := Lists.add_of_ne (by decide)
  have huse : lists.add .free s.handleCount .inUse = lists .inUse := Lists.add_of_ne (by decide)
  refine ⟨links, ?_, ⟨hrings, ?_, ?_, ?_, ?_, ?_, hsmall⟩, ?_, ⟨?_, ?_⟩⟩
  · rw [Shard.addHandle, pushFreeList, happd]
    rfl
  · intro list handle hmem
    rcases Lists.mem_add.mp hmem with hold | ⟨-, rfl⟩
    · exact Nat.lt_succ_of_lt (h.seats.bound list handle hold)
    · exact Nat.lt_succ_self _
  · intro list handle hmem
    rcases Lists.mem_add.mp hmem with hold | ⟨rfl, rfl⟩
    · exact (h.seats.seat list handle hold).congr rfl rfl rfl
    · exact ⟨hfresh.1, hzero, Or.inl hfresh.2⟩
  · intro handle hlt hoffAfter
    have hne : handle ≠ s.handleCount :=
      fun heq => hoffAfter .free (Lists.mem_add.mpr (Or.inr ⟨rfl, heq⟩))
    have hpre : handle < s.handleCount := Nat.lt_of_le_of_ne (Nat.le_of_lt_succ hlt) hne
    have hoffBefore : lists.Off handle :=
      fun list hmem => hoffAfter list (Lists.mem_add.mpr (Or.inl hmem))
    rcases h.seats.loose handle hpre hoffBefore with hnone | hfits
    · cases hnone
    · exact Or.inr (hfits.congr rfl rfl rfl)
  · intro _ hnone
    cases hnone
  · intro reference href
    obtain ⟨hlt, hkey⟩ := h.seats.keys reference href
    exact ⟨Nat.lt_succ_of_lt hlt, hkey⟩
  · refine h.cached.congr rfl (fun _ _ => rfl) fun other => ?_
    unfold Lists.Cached
    rw [hlru, huse]
  · rw [Lists.add_self, ofNat_length_concat]
    exact congrArg (· + 1) h.counts.free
  · refine h.counts.usage.trans ?_
    rfl

/-- What the loop of `init` leaves. -/
structure Filled (hash : K → ℕ) (s : Shard K) (lists : Lists) : Prop where
  inv : Inv hash s lists none none
  fresh : ∀ handle, s.handleCount ≤ handle →
    (s.handles handle).refs = 0 ∧ (s.handles handle).inCache = false
  drift : s.drift lists = 0

theorem Filled.addHandle (h : Filled hash s lists) (hsmall : s.handleCount + 1 < 2 ^ 64) :
    ∃ after later, s.addHandle = some after ∧ Filled hash after later ∧
      after.handleCount = s.handleCount + 1 := by
  obtain ⟨links, hstep, hinv⟩ := h.inv.addHandle (h.fresh _ (Nat.le_refl _)) hsmall
  refine ⟨_, _, hstep, ⟨hinv, ?_, ?_⟩, rfl⟩
  · intro handle hle
    exact h.fresh handle (Nat.le_of_succ_le hle)
  · have hlru : lists.add .free s.handleCount .lru = lists .lru := Lists.add_of_ne (by decide)
    refine Eq.trans ?_ h.drift
    unfold Shard.drift
    rw [hlru]

theorem Filled.addHandles (h : Filled hash s lists) {count : ℕ}
    (hsmall : s.handleCount + count < 2 ^ 64) :
    ∃ after later, s.addHandles count = some after ∧ Filled hash after later ∧
      after.handleCount = s.handleCount + count := by
  induction count with
  | zero => exact ⟨s, lists, rfl, h, rfl⟩
  | succ count ih =>
    obtain ⟨middle, between, hloop, hmid, hcount⟩ := ih (Nat.lt_of_succ_lt hsmall)
    obtain ⟨after, later, hstep, hafter, hnext⟩ := hmid.addHandle (by omega)
    refine ⟨after, later, ?_, hafter, by omega⟩
    rw [Shard.addHandles, hloop]
    exact hstep

theorem init_filled (hash : K → ℕ) (capacity limit : BitVec 64) (null : K) :
    ∃ start lists, init capacity limit null = some start ∧ Filled hash start lists := by
  have hempty : Filled hash (Shard.empty capacity limit null) fun _ => [] :=
    ⟨Inv.empty, fun _ _ => ⟨rfl, rfl⟩, sub_self (0 : BitVec 64)⟩
  have hsmall : (Shard.empty capacity limit null).handleCount +
      (capacity.toNat / (16384 + 8) + 1) < 2 ^ 64 := by
    change 0 + (capacity.toNat / (16384 + 8) + 1) < 2 ^ 64
    omega
  obtain ⟨start, lists, hloop, hfill, -⟩ := hempty.addHandles hsmall
  exact ⟨start, lists, hloop, hfill⟩

end Init

variable {event : Event K}

section Calls

theorem Inv.lookup_of_obtained (h : Inv hash s lists none none)
    (hafter : Inv hash after later none (some handle))
    (hobt : Obtained s after lists later handle) (hfound : after.lookup hash key = some other) :
    s.lookup hash key = some other ∧ (other ∈ later .lru → other ∈ lists .lru) := by
  obtain ⟨hcached, hkey⟩ := hafter.lookup_eq_some_iff.mp hfound
  have hoff := (hafter.seats.free_spare handle rfl).2.1
  have hne : other ≠ handle := by
    rintro rfl
    rcases hcached with hmem | hmem
    · exact hoff .lru hmem
    · exact hoff .inUse hmem
  refine ⟨h.lookup_eq_some_iff.mpr ⟨?_, ?_⟩, hobt.lru other⟩
  · rcases hcached with hmem | hmem
    · exact Or.inl (hobt.lru other hmem)
    · exact Or.inr (hobt.inUse ▸ hmem)
  · rw [← hkey]
    exact (congrArg Handle.key (hobt.handles other hne)).symm

theorem Inv.insert (h : Inv hash s lists none none) (hvict : s.hasVictim) (key : K)
    (charge : BitVec 64) :
    ∃ after later, s.insert hash key charge = some after ∧ Inv hash after later none none ∧
      ((∀ handle, s.lookup hash key = some handle → (s.handles handle).refs ≠ 1) →
        after.drift later = s.drift lists) ∧
      ∀ other ∈ lists .inUse, s.keyOf other ≠ key → later.Cached other := by
  obtain ⟨handle, middle, between, hobtain, hmid, hdrift, hobt⟩ := h.obtainHandle hvict
  obtain ⟨after, later, hplace, hinv, hsame, hkept⟩ := hmid.placeHandle key charge
  refine ⟨after, later, ?_, hinv, fun hrefs => (hsame ?_).trans hdrift, ?_⟩
  · exact Option.bind_eq_some_iff.mpr ⟨_, hobtain, hplace⟩
  · intro other hfound hmem
    obtain ⟨hpre, hlru⟩ := h.lookup_of_obtained hmid hobt hfound
    exact hrefs other hpre (h.seats.seat .lru other (hlru hmem)).1
  · intro other huse hkey
    have hother : other ∈ between .inUse := hobt.inUse ▸ huse
    have hne : other ≠ handle :=
      fun heq => (hmid.seats.free_spare handle rfl).2.1 .inUse (heq ▸ hother)
    refine hkept other hother fun heq => hkey ?_
    exact (congrArg Handle.key (hobt.handles other hne)).symm.trans heq

/-- `refs` and the counters of the table have 32 bits; one reference and one entry more fit. -/
def small (hash : K → ℕ) (s : Shard K) (key : K) : Prop :=
  (∀ handle ∈ s.lookup hash key, (s.handles handle).refs + 1 < 2 ^ 32) ∧ s.table.elems < 2 ^ 31

/-- The call uses no list head as a handle, deletes no handle and wraps no counter. -/
def careful (hash : K → ℕ) (s : Shard K) : Event K → Prop
  | .lookup key => s.small hash key
  | .lookupInsert key _ => s.small hash key ∧ (s.lookup hash key = none → s.hasVictim)
  | .insert key _ => s.small hash key ∧ s.hasVictim
  | .releaseInv handle _ => (s.handles handle).refs ≠ 1
  | .prepareFreeList => s.needEviction = true ∧ 0 < s.recycleNum.toInt →
      -- the links do not lead back to the list head before the end of the batch
      ∀ hops < s.recycleNum.toNat, s.links.follow (hops + 1) (.head .lru) ≠ some (.head .lru)
  | _ => True

/-- The call takes no handle off the LRU list that `lru_size_` goes on counting. -/
def counted (hash : K → ℕ) (s : Shard K) : Event K → Prop
  | .insert key _ => ∀ handle, s.lookup hash key = some handle → (s.handles handle).refs ≠ 1
  | .erase key => ∀ handle, s.lookup hash key = some handle → (s.handles handle).refs ≠ 1
  | .prune => s.links.next (.head .lru) = some (.head .lru)
  | .prepareFreeList => ¬(s.needEviction = true ∧ 0 < s.recycleNum.toInt)
  | _ => True

/-- The call removes the entry of the key on purpose. -/
def removes (event : Event K) (key : K) : Prop :=
  event = .erase key ∨ ∃ charge, event = .insert key charge

def releasesHeld (s : Shard K) : Event K → Prop
  | .release handle key => (handle, key) ∈ s.held
  | .releaseInv handle key => (handle, key) ∈ s.held
  | _ => True

variable (h : Inv hash s lists none none)
include h

theorem Inv.lookupStep (key : K) :
    ∃ after later, s.step hash (.lookup key) = some after ∧ Inv hash after later none none ∧
      after.drift later = s.drift lists ∧ lists.Keeps later := by
  cases hfound : s.lookup hash key with
  | none =>
    refine ⟨s, lists, ?_, h, rfl, fun _ => id⟩
    simp only [Shard.step, hfound]
  | some handle =>
    obtain ⟨hcached, hkey⟩ := h.lookup_eq_some_iff.mp hfound
    simp only [Shard.step, hfound]
    exact h.get hcached hkey

theorem Inv.lookupInsert (key : K) (charge : BitVec 64)
    (hvict : s.lookup hash key = none → s.hasVictim) :
    ∃ after later, s.lookupInsert hash key charge = some after ∧ Inv hash after later none none ∧
      after.drift later = s.drift lists ∧ ∀ other ∈ lists .inUse, later.Cached other := by
  unfold Shard.lookupInsert
  cases hfound : s.lookup hash key with
  | none =>
    obtain ⟨after, later, hstep, hinv, hdrift, hkept⟩ := h.insert (hvict hfound) key charge
    have hnone : ∀ handle, s.lookup hash key ≠ some handle := by
      intro handle hsome
      rw [hfound] at hsome
      cases hsome
    refine ⟨after, later, hstep, hinv, hdrift fun handle hsome => absurd hsome (hnone handle), ?_⟩
    intro other huse
    refine hkept other huse fun hkey => hnone other ?_
    exact h.lookup_eq_some_iff.mpr ⟨Or.inr huse, hkey⟩
  | some handle =>
    obtain ⟨hcached, hkey⟩ := h.lookup_eq_some_iff.mp hfound
    obtain ⟨after, later, hstep, hinv, hdrift, hkept⟩ := h.get hcached hkey
    exact ⟨after, later, hstep, hinv, hdrift, fun other huse => hkept other (Or.inr huse)⟩

omit [DecidableEq K] in
theorem Inv.recycleNum_le (hround : ∀ hops < s.recycleNum.toNat,
      s.links.follow (hops + 1) (.head .lru) ≠ some (.head .lru)) :
    s.recycleNum.toNat ≤ (lists .lru).length := by
  by_contra hlong
  exact hround (lists .lru).length (by omega) (h.seats.rings.follow_round .lru)

theorem Inv.prepareFreeList (hcare : s.careful hash .prepareFreeList) :
    ∃ after later, s.prepareFreeList hash = some after ∧ Inv hash after later none none ∧
      (s.counted hash .prepareFreeList → after.drift later = s.drift lists) ∧
      later .inUse = lists .inUse := by
  by_cases hneed : s.needEviction = true ∧ 0 < s.recycleNum.toInt
  · have hlen := h.recycleNum_le (hcare hneed)
    have hpos : s.recycleNum.toNat ≠ 0 := by
      intro hzero
      have hsize : s.recycleNum = 0 := BitVec.eq_of_toNat_eq hzero
      rw [hsize] at hneed
      exact absurd hneed.2 (by decide)
    have hsplit : lists .lru = (lists .lru).take s.recycleNum.toNat ++
        (lists .lru).drop s.recycleNum.toNat := (take_append_drop _ _).symm
    have hbatch : ((lists .lru).take s.recycleNum.toNat).length = s.recycleNum.toNat :=
      length_take_of_le hlen
    cases htake : (lists .lru).take s.recycleNum.toNat with
    | nil =>
      rw [htake] at hbatch
      exact absurd hbatch.symm hpos
    | cons oldest batch =>
      rw [htake] at hbatch hsplit
      obtain ⟨after, hstep, hinv⟩ := h.prepareFreeList_evicts hsplit hneed hbatch.symm
      exact ⟨after, _, hstep, hinv, fun hnot => absurd hneed hnot, rfl⟩
  · refine ⟨s, lists, ?_, h, fun _ => rfl, rfl⟩
    rw [Shard.prepareFreeList, if_neg hneed]

omit h in
theorem prune_of_counted (hcntd : s.counted hash .prune) : s.prune hash = some s := by
  have hnext : s.links.next (.head .lru) = some (.head .lru) := hcntd
  rw [Shard.prune, Shard.pruneLoop, hnext]

/-- A careful call returns, and keeps the invariant and the handles in use. -/
theorem Inv.step (hcare : s.careful hash event) (hheld : s.releasesHeld event) :
    ∃ after later, s.step hash event = some after ∧ Inv hash after later none none ∧
      (s.counted hash event → after.drift later = s.drift lists) ∧
      ∀ other ∈ lists .inUse, ¬removes event (s.keyOf other) → later.Cached other := by
  cases event with
  | lookup key =>
    obtain ⟨after, later, hstep, hinv, hdrift, hkept⟩ := h.lookupStep key
    exact ⟨after, later, hstep, hinv, fun _ => hdrift, fun other huse _ =>
      hkept other (Or.inr huse)⟩
  | lookupInsert key charge =>
    obtain ⟨after, later, hstep, hinv, hdrift, hkept⟩ := h.lookupInsert key charge hcare.2
    exact ⟨after, later, hstep, hinv, fun _ => hdrift, fun other huse _ => hkept other huse⟩
  | insert key charge =>
    obtain ⟨after, later, hstep, hinv, hdrift, hkept⟩ := h.insert hcare.2 key charge
    refine ⟨after, later, hstep, hinv, hdrift, fun other huse hnot => hkept other huse ?_⟩
    rintro rfl
    exact hnot (Or.inr ⟨charge, rfl⟩)
  | release handle key =>
    obtain ⟨after, later, hstep, hinv, hdrift, hkept⟩ := h.release hheld
    refine ⟨after, later, ?_, hinv, fun _ => hdrift, fun other huse _ => hkept other (Or.inr huse)⟩
    have hdrop : s.drop handle key = some (s.forget handle key) := if_pos hheld
    rw [Shard.step, hdrop]
    exact hstep
  | releaseInv handle key =>
    obtain ⟨after, later, hstep, hinv, hdrift, hkept⟩ := h.releaseInv hheld hcare
    refine ⟨after, later, ?_, hinv, fun _ => hdrift, fun other huse _ => hkept other (Or.inr huse)⟩
    have hdrop : s.drop handle key = some (s.forget handle key) := if_pos hheld
    rw [Shard.step, hdrop]
    exact hstep
  | erase key =>
    obtain ⟨after, later, hstep, hinv, hdrift, hkept⟩ := h.erase key
    refine ⟨after, later, hstep, hinv, hdrift, fun other huse hnot => ?_⟩
    refine hkept other (Or.inr huse) ?_
    rintro rfl
    exact hnot (Or.inl rfl)
  | prune =>
    by_cases hcntd : s.counted hash .prune
    · exact ⟨s, lists, prune_of_counted hcntd, h, fun _ => rfl, fun _ huse _ => Or.inr huse⟩
    · obtain ⟨after, later, hstep, hinv, -, huse⟩ := h.prune
      refine ⟨after, later, hstep, hinv, fun hnot => absurd hnot hcntd, ?_⟩
      exact fun other hother _ => Or.inr (huse ▸ hother)
  | prepareFreeList =>
    obtain ⟨after, later, hstep, hinv, hdrift, huse⟩ := h.prepareFreeList hcare
    exact ⟨after, later, hstep, hinv, hdrift, fun other hother _ => Or.inr (huse ▸ hother)⟩

end Calls

structure Consistent (hash : K → ℕ) (s : Shard K) (lists : Lists) : Prop where
  rings : Rings s.links lists
  bound : ∀ list, ∀ handle ∈ lists list, handle < s.handleCount
  off : ∀ handle < s.handleCount, lists.Off handle → 0 < s.heldCount handle ∧ ¬s.table.Mem handle
  flag : s.capacity ≠ 0 → ∀ handle < s.handleCount,
    (s.handles handle).inCache = true ↔ s.table.Mem handle
  lru : ∀ handle, handle ∈ lists .lru ↔ s.table.Mem handle ∧ (s.handles handle).refs = 1
  inUse : ∀ handle, handle ∈ lists .inUse ↔ s.table.Mem handle ∧ 2 ≤ (s.handles handle).refs
  lookup : ∀ key handle,
    s.lookup hash key = some handle ↔ s.table.Mem handle ∧ s.keyOf handle = key
  freeListSize : s.freeListSize.toNat = (lists .free).length
  lruSize : s.lruSize.toNat = (lists .lru).length
  usage : s.usage = s.charges lists
  held : ∀ reference ∈ s.held, reference.1 ∉ lists .free ∧ reference.1 ∉ lists .lru ∧
    s.keyOf reference.1 = reference.2

/-- Whatever a client still references stays cached unless its entry is removed on purpose. -/
def Pinned (hash : K → ℕ) (s after : Shard K) (event : Event K) : Prop :=
  ∀ handle key, (handle, key) ∈ s.held → (handle, key) ∈ after.held → ¬removes event key →
    s.lookup hash key = some handle → after.lookup hash key = some handle

section Consistent

variable (h : Inv hash s lists none none)
include h

omit [DecidableEq K] in
theorem Inv.mem_iff : s.table.Mem handle ↔ lists.Cached handle := by
  rw [h.cached.mem]
  simp

omit [DecidableEq K] in
theorem Inv.toNat_length (list : ListHead) :
    (BitVec.ofNat 64 (lists list).length).toNat = (lists list).length := by
  exact Nat.mod_eq_of_lt (Nat.lt_of_le_of_lt (h.length_le list) h.seats.small)

omit [DecidableEq K] in
theorem Inv.flag (hcap : s.capacity ≠ 0) (hlt : handle < s.handleCount) :
    (s.handles handle).inCache = true ↔ s.table.Mem handle := by
  rw [h.mem_iff]
  constructor
  · intro hflag
    by_cases hoff : lists.Off handle
    · rcases h.seats.loose handle hlt hoff with hnone | ⟨-, -, hfalse | hzero⟩
      · cases hnone
      · exact absurd (hflag.symm.trans hfalse) (by decide)
      · exact absurd hzero.1 hcap
    · unfold Lists.Off at hoff
      push Not at hoff
      obtain ⟨list, hmem⟩ := hoff
      cases list with
      | lru => exact Or.inl hmem
      | inUse => exact Or.inr hmem
      | free =>
        rcases (h.seats.seat .free handle hmem).2.2 with hfalse | hzero
        · exact absurd (hflag.symm.trans hfalse) (by decide)
        · exact absurd hzero hcap
  · rintro (hmem | hmem)
    · exact (h.seats.seat .lru handle hmem).2.2
    · exact (h.seats.seat .inUse handle hmem).2.2

theorem Inv.consistent (hdrift : s.drift lists = 0) : Consistent hash s lists where
  rings := h.seats.rings
  bound := h.seats.bound
  off := by
    intro handle hlt hoff
    rcases h.seats.loose handle hlt hoff with hnone | hfits
    · cases hnone
    · refine ⟨hfits.2.1, fun hmem => ?_⟩
      rcases h.mem_iff.mp hmem with hin | hin
      · exact hoff .lru hin
      · exact hoff .inUse hin
  flag := fun hcap _ hlt => h.flag hcap hlt
  lru := by
    intro handle
    rw [h.mem_iff]
    constructor
    · intro hmem
      exact ⟨Or.inl hmem, (h.seats.seat .lru handle hmem).1⟩
    · rintro ⟨hmem | hmem, hrefs⟩
      · exact hmem
      · obtain ⟨hmany, hpos, -⟩ := h.seats.seat .inUse handle hmem
        omega
  inUse := by
    intro handle
    rw [h.mem_iff]
    constructor
    · intro hmem
      obtain ⟨hmany, hpos, -⟩ := h.seats.seat .inUse handle hmem
      exact ⟨Or.inr hmem, by omega⟩
    · rintro ⟨hmem | hmem, hrefs⟩
      · have hone := (h.seats.seat .lru handle hmem).1
        omega
      · exact hmem
  lookup := by
    intro key handle
    rw [h.lookup_eq_some_iff, h.mem_iff]
  freeListSize := by
    rw [h.counts.free]
    exact h.toNat_length .free
  lruSize := by
    rw [sub_eq_zero.mp hdrift]
    exact h.toNat_length .lru
  usage := h.counts.usage
  held := by
    intro reference href
    have hpos : 0 < s.heldCount reference.1 :=
      countP_pos_iff.mpr ⟨reference, href, decide_eq_true rfl⟩
    refine ⟨fun hmem => ?_, fun hmem => ?_, (h.seats.keys reference href).2⟩
    · have hzero := (h.seats.seat .free _ hmem).2.1
      omega
    · have hzero := (h.seats.seat .lru _ hmem).2.1
      omega

theorem Inv.pinned (hafter : Inv hash after later none none)
    (hkept : ∀ other ∈ lists .inUse, ¬removes event (s.keyOf other) → later.Cached other) :
    Pinned hash s after event := by
  intro handle key hheld hstill hnot hfound
  obtain ⟨hcached, hkey⟩ := h.lookup_eq_some_iff.mp hfound
  have huse : handle ∈ lists .inUse := by
    refine hcached.resolve_left fun hmem => ?_
    have hzero := (h.seats.seat .lru handle hmem).2.1
    have hpos := heldCount_pos hheld
    omega
  refine hafter.lookup_eq_some_iff.mpr ⟨hkept handle huse ?_, (hafter.seats.keys _ hstill).2⟩
  rw [hkey]
  exact hnot

end Consistent

section Runs

open TransitionSystem

/-- The shards that `init` builds. -/
def Built (s : Shard K) : Prop := ∃ capacity limit null, init capacity limit null = some s

theorem releasesHeld_of_step (hstep : s.step hash event = some after) :
    s.releasesHeld event := by
  cases event with
  | release handle key =>
    by_contra hnot
    have hdrop : s.drop handle key = none := if_neg hnot
    rw [Shard.step, hdrop] at hstep
    cases hstep
  | releaseInv handle key =>
    by_contra hnot
    have hdrop : s.drop handle key = none := if_neg hnot
    rw [Shard.step, hdrop] at hstep
    cases hstep
  | _ => trivial

theorem inv_of_counted
    (h : Reachable (step hash)
      (fun s event => s.careful hash event ∧ s.counted hash event) Built s) :
    ∃ lists, Inv hash s lists none none ∧ s.drift lists = 0 := by
  refine @Reachable.invariant _ _ _ _ _ _
    (fun s => ∃ lists, Inv hash s lists none none ∧ s.drift lists = 0) ?_ ?_ h
  · rintro start ⟨capacity, limit, null, hinit⟩
    obtain ⟨built, lists, hbuilt, hfill⟩ := init_filled hash capacity limit null
    cases hinit.symm.trans hbuilt
    exact ⟨lists, hfill.inv, hfill.drift⟩
  · rintro s event after ⟨lists, hinv, hdrift⟩ ⟨hcare, hcntd⟩ hstep
    obtain ⟨next, later, hnext, hlater, hsame, -⟩ :=
      hinv.step hcare (releasesHeld_of_step hstep)
    cases hstep.symm.trans hnext
    exact ⟨later, hlater, (hsame hcntd).trans hdrift⟩

instance (key : K) : Decidable (s.small hash key) := inferInstanceAs (Decidable (_ ∧ _))

instance : ∀ event, Decidable (s.careful hash event) := by
  rintro (_ | _) <;> dsimp only [careful] <;> infer_instance

instance : ∀ event, Decidable (s.counted hash event) := by
  rintro (_ | _) <;> dsimp only [counted] <;> infer_instance

theorem exists_of_calls {allowed : Shard K → Event K → Prop}
    [∀ s event, Decidable (allowed s event)] {holds : Shard K → Prop} [DecidablePred holds]
    (capacity limit : BitVec 64) (null : K) (events : List (Event K))
    (hrun : (init capacity limit null).any (fun start => (run (step hash) allowed start events).any
      fun s => holds s) = true) : ∃ s, Reachable (step hash) allowed Built s ∧ holds s := by
  obtain ⟨start, hstart, hholds⟩ := (Option.any_eq_true _ _).mp hrun
  exact Reachable.exists_of_schedule events ⟨capacity, limit, null, hstart⟩ hholds

theorem shard_consistent
    (h : Reachable (step hash)
      (fun s event => s.careful hash event ∧ s.counted hash event) Built s) :
    (∃ lists, Consistent hash s lists) ∧
      ∀ event, s.careful hash event → s.releasesHeld event →
        ∃ after, s.step hash event = some after ∧ Pinned hash s after event := by
  obtain ⟨lists, hinv, hdrift⟩ := inv_of_counted h
  refine ⟨⟨lists, hinv.consistent hdrift⟩, ?_⟩
  intro event hcare hheld
  obtain ⟨after, later, hstep, hafter, -, hkept⟩ := hinv.step hcare hheld
  exact ⟨after, hstep, hinv.pinned hafter hkept⟩

def replaced : List (Event ℕ) :=
  [.lookupInsert 5 1, .lookup 5, .release 0 5, .releaseInv 0 5, .prepareFreeList, .lookupInsert 6 1]

theorem shard_consistent_replaced :
    ∃ s : Shard ℕ, s.held = [(0, 6)] ∧ (∃ lists, Consistent id s lists) ∧
      ∀ event, s.careful id event → s.releasesHeld event →
        ∃ after, s.step id event = some after ∧ Pinned id s after event := by
  obtain ⟨s, hrun, hheld⟩ : ∃ s, Reachable (step id) (fun s event => s.careful id event ∧
      s.counted id event) Built s ∧ s.held = [(0, 6)] :=
    exists_of_calls 1 0 0 replaced (by decide +kernel)
  exact ⟨s, hheld, shard_consistent hrun⟩

def erased : List (Event ℕ) := [.lookupInsert 5 1, .release 0 5, .erase 5]

/-- The LRU list is empty, and `lru_size_` says that it has one handle. -/
theorem erased_not_consistent :
    ∃ s : Shard ℕ, Reachable (step id) (fun _ _ => True) Built s ∧
      ∀ lists, ¬Consistent id s lists := by
  obtain ⟨s, hrun, hsize, hnext⟩ : ∃ s : Shard ℕ, Reachable (step id) (fun _ _ => True) Built s ∧
      s.lruSize = 1 ∧ s.links.next (.head .lru) = some (.head .lru) :=
    exists_of_calls 1 0 0 erased (by decide +kernel)
  refine ⟨s, hrun, fun lists hcons => ?_⟩
  have hlen := hcons.lruSize
  rw [hsize] at hlen
  rw [hcons.rings.next_head] at hnext
  cases hlru : lists .lru with
  | nil =>
    rw [hlru] at hlen
    exact absurd hlen (by decide)
  | cons oldest rest =>
    rw [hlru] at hnext
    exact absurd (Option.some.inj hnext) nofun

end Runs

end MemoryEngine.PageCache.Shard
