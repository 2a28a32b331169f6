import MemoryEngine.Storage.PageCacheLists
import Mathlib.Algebra.BigOperators.Group.List.Basic
import Mathlib.Tactic.Ring

/-! The invariant of a shard and the steps of its calls.

While a call runs, one handle may have left the table but not yet its list (`detached`), or be on no
list before it gets its new key (`spare`). -/
namespace MemoryEngine.PageCache

open IntrusiveRing ChainedTable List Function Option

def Lists.Cached (lists : Lists) (handle : ℕ) : Prop :=
  handle ∈ lists .lru ∨ handle ∈ lists .inUse

def Lists.Keeps (lists later : Lists) : Prop :=
  ∀ handle, lists.Cached handle → later.Cached handle

theorem Lists.keeps_of_move {lists later : Lists} {handle : ℕ}
    (hothers : ∀ other ≠ handle, ∀ list, other ∈ later list ↔ other ∈ lists list)
    (hself : lists.Cached handle → later.Cached handle) : lists.Keeps later := by
  intro other hcached
  by_cases heq : other = handle
  · subst heq
    exact hself hcached
  · rcases hcached with hmem | hmem
    · exact Or.inl ((hothers other heq .lru).mpr hmem)
    · exact Or.inr ((hothers other heq .inUse).mpr hmem)

variable {refs : ℕ} {links : Links Node}

namespace Shard

variable {K : Type} {s after : Shard K} {lists later : Lists} {handle other : ℕ} {key : K}
  {spare spareAfter detached : Option ℕ} {f : Handle K → Handle K}

def heldCount (s : Shard K) (handle : ℕ) : ℕ :=
  s.held.countP fun reference => reference.1 = handle

/-- An entry with `held` references of clients on a list of the shard, or off all of them. -/
def FitsAt (capacity : BitVec 64) (entry : Handle K) (held : ℕ) : Option ListHead → Prop
  | some .lru => entry.refs = 1 ∧ held = 0 ∧ entry.inCache = true
  | some .inUse => entry.refs = held + 1 ∧ 0 < held ∧ entry.inCache = true
  | some .free => entry.refs = 0 ∧ held = 0 ∧ (entry.inCache = false ∨ capacity = 0)
  -- without capacity a new handle keeps the flag, with the one reference of its client
  | none => entry.refs = held ∧ 0 < held ∧ (entry.inCache = false ∨ capacity = 0 ∧ held = 1)

def Fits (s : Shard K) (handle : ℕ) (place : Option ListHead) : Prop :=
  FitsAt s.capacity (s.handles handle) (s.heldCount handle) place

structure Seats (s : Shard K) (lists : Lists) (spare : Option ℕ) : Prop where
  rings : Rings s.links lists
  bound : ∀ list, ∀ handle ∈ lists list, handle < s.handleCount
  seat : ∀ list, ∀ handle ∈ lists list, s.Fits handle (some list)
  loose : ∀ handle < s.handleCount, lists.Off handle → spare = some handle ∨ s.Fits handle none
  free_spare : ∀ handle, spare = some handle →
    handle < s.handleCount ∧ lists.Off handle ∧ s.heldCount handle = 0
  keys : ∀ reference ∈ s.held, reference.1 < s.handleCount ∧ s.keyOf reference.1 = reference.2
  small : s.handleCount < 2 ^ 64

def chargesOf (s : Shard K) (handles : List ℕ) : BitVec 64 :=
  (handles.map fun handle => (s.handles handle).charge).sum

def charges (s : Shard K) (lists : Lists) : BitVec 64 :=
  s.chargesOf (lists .lru) + s.chargesOf (lists .inUse)

structure Counts (s : Shard K) (lists : Lists) : Prop where
  free : s.freeListSize = BitVec.ofNat 64 (lists .free).length
  usage : s.usage = s.charges lists

/-- How far `lru_size_` is off. -/
def drift (s : Shard K) (lists : Lists) : BitVec 64 :=
  s.lruSize - BitVec.ofNat 64 (lists .lru).length

theorem Fits.congr {place : Option ListHead} (h : s.Fits handle place)
    (hcap : after.capacity = s.capacity) (hhandle : after.handles handle = s.handles handle)
    (hheld : after.heldCount handle = s.heldCount handle) : after.Fits handle place := by
  rw [Fits, hcap, hhandle, hheld]
  exact h

theorem Seats.move (h : s.Seats lists spare) (handle : ℕ)
    (hcount : after.handleCount = s.handleCount) (hcap : after.capacity = s.capacity)
    (hrings : Rings after.links later)
    (hlists : ∀ other ≠ handle, ∀ list, other ∈ later list ↔ other ∈ lists list)
    (hhandles : ∀ other ≠ handle, after.handles other = s.handles other)
    (hheld : ∀ other ≠ handle, after.heldCount other = s.heldCount other)
    (hbound : handle < s.handleCount)
    (hseat : ∀ list, handle ∈ later list → after.Fits handle (some list))
    (hloose : later.Off handle → spareAfter = some handle ∨ after.Fits handle none)
    (hspare : ∀ other ≠ handle, spareAfter = some other ↔ spare = some other)
    (hself : spareAfter = some handle → later.Off handle ∧ after.heldCount handle = 0)
    (hkeys : ∀ reference ∈ after.held,
      reference.1 < s.handleCount ∧ after.keyOf reference.1 = reference.2) :
    after.Seats later spareAfter where
  rings := hrings
  bound := by
    intro list other hother
    rw [hcount]
    by_cases heq : other = handle
    · rw [heq]
      exact hbound
    · exact h.bound list other ((hlists other heq list).mp hother)
  seat := by
    intro list other hother
    by_cases heq : other = handle
    · subst heq
      exact hseat list hother
    · exact (h.seat list other ((hlists other heq list).mp hother)).congr hcap
        (hhandles other heq) (hheld other heq)
  loose := by
    intro other hlt hoff
    by_cases heq : other = handle
    · subst heq
      exact hloose hoff
    · have hpre : lists.Off other := fun list hmem => hoff list ((hlists other heq list).mpr hmem)
      rw [hcount] at hlt
      rcases h.loose other hlt hpre with hsp | hfits
      · exact Or.inl ((hspare other heq).mpr hsp)
      · exact Or.inr (hfits.congr hcap (hhandles other heq) (hheld other heq))
  free_spare := by
    intro other hother
    rw [hcount]
    by_cases heq : other = handle
    · subst heq
      exact ⟨hbound, hself hother⟩
    · obtain ⟨hlt, hoff, hzero⟩ := h.free_spare other ((hspare other heq).mp hother)
      refine ⟨hlt, fun list hmem => hoff list ((hlists other heq list).mp hmem), ?_⟩
      rw [hheld other heq]
      exact hzero
  keys := by
    intro reference href
    rw [hcount]
    exact hkeys reference href
  small := by
    rw [hcount]
    exact h.small

theorem modifyHandle_self : (s.modifyHandle handle f).handles handle = f (s.handles handle) :=
  update_self _ _ _

theorem modifyHandle_of_ne (hne : other ≠ handle) :
    (s.modifyHandle handle f).handles other = s.handles other :=
  update_of_ne hne _ _

theorem setRefs_self {refs : ℕ} :
    (s.setRefs handle refs).handles handle = { s.handles handle with refs := refs } :=
  modifyHandle_self

theorem setRefs_of_ne (hne : other ≠ handle) :
    (s.setRefs handle refs).handles other = s.handles other :=
  modifyHandle_of_ne hne

theorem leaveCache_self :
    (s.leaveCache handle).handles handle = { s.handles handle with inCache := false } :=
  modifyHandle_self

theorem modifyHandle_field {β : Type} (field : Handle K → β)
    (hf : ∀ entry, field (f entry) = field entry) :
    field ((s.modifyHandle handle f).handles other) = field (s.handles other) := by
  by_cases heq : other = handle
  · rw [heq, modifyHandle_self, hf]
  · rw [modifyHandle_of_ne heq]

@[simp] theorem keyOf_setRefs : (s.setRefs handle refs).keyOf other = s.keyOf other :=
  modifyHandle_field Handle.key fun _ => rfl

@[simp] theorem keyOf_leaveCache : (s.leaveCache handle).keyOf other = s.keyOf other :=
  modifyHandle_field Handle.key fun _ => rfl

@[simp] theorem charge_setRefs :
    ((s.setRefs handle refs).handles other).charge = (s.handles other).charge :=
  modifyHandle_field Handle.charge fun _ => rfl

@[simp] theorem charge_leaveCache :
    ((s.leaveCache handle).handles other).charge = (s.handles other).charge :=
  modifyHandle_field Handle.charge fun _ => rfl

theorem heldCount_hold_self : (s.hold handle key).heldCount handle = s.heldCount handle + 1 :=
  countP_cons_of_pos (decide_eq_true rfl)

theorem heldCount_hold_of_ne (hne : other ≠ handle) :
    (s.hold handle key).heldCount other = s.heldCount other :=
  countP_cons_of_neg (by simpa using hne.symm)

theorem heldCount_pos (h : (handle, key) ∈ s.held) : 0 < s.heldCount handle :=
  countP_pos_iff.mpr ⟨(handle, key), h, decide_eq_true rfl⟩

theorem Seats.place_of_held (h : s.Seats lists spare) (hheld : 0 < s.heldCount handle)
    (hbound : handle < s.handleCount) :
    handle ∈ lists .inUse ∨ lists.Off handle ∧ s.Fits handle none := by
  by_cases huse : handle ∈ lists .inUse
  · exact Or.inl huse
  · have hoff : lists.Off handle := by
      intro list hmem
      have hseat := h.seat list handle hmem
      cases list with
      | lru => exact absurd hseat.2.1 (by omega)
      | inUse => exact huse hmem
      | free => exact absurd hseat.2 (by omega)
    rcases h.loose handle hbound hoff with hspare | hfits
    · have hzero := (h.free_spare handle hspare).2.2
      omega
    · exact Or.inr ⟨hoff, hfits⟩

section Charges

variable {handles : List ℕ}

theorem chargesOf_erase (h : handle ∈ handles) :
    s.chargesOf (handles.erase handle) = s.chargesOf handles - (s.handles handle).charge := by
  have hsum := sum_map_erase (fun handle => (s.handles handle).charge) h
  rw [chargesOf, chargesOf, ← hsum]
  ring

theorem chargesOf_concat :
    s.chargesOf (handles ++ [handle]) = s.chargesOf handles + (s.handles handle).charge := by
  simp [chargesOf]

theorem chargesOf_cons :
    s.chargesOf (handle :: handles) = (s.handles handle).charge + s.chargesOf handles := by
  simp [chargesOf]

theorem chargesOf_congr
    (h : ∀ handle ∈ handles, (after.handles handle).charge = (s.handles handle).charge) :
    after.chargesOf handles = s.chargesOf handles := by
  rw [chargesOf, chargesOf, map_congr_left h]

theorem charges_congr
    (h : ∀ handle, lists.Cached handle → (after.handles handle).charge =
      (s.handles handle).charge) : after.charges lists = s.charges lists := by
  rw [charges, charges, chargesOf_congr fun handle hmem => h handle (Or.inl hmem),
    chargesOf_congr fun handle hmem => h handle (Or.inr hmem)]

theorem ofNat_length_erase (h : handle ∈ handles) :
    BitVec.ofNat 64 (handles.erase handle).length = BitVec.ofNat 64 handles.length - 1 := by
  have hpos : 0 < handles.length := length_pos_of_mem h
  have hlen : handles.length = (handles.erase handle).length + 1 := by
    rw [length_erase_of_mem h]
    omega
  rw [hlen, BitVec.ofNat_add]
  exact (add_sub_cancel_right _ _).symm

theorem ofNat_length_concat :
    BitVec.ofNat 64 (handles ++ [handle]).length = BitVec.ofNat 64 handles.length + 1 := by
  rw [length_append, BitVec.ofNat_add]
  rfl

end Charges

section Cache

variable {hash : K → ℕ}

structure Cached (hash : K → ℕ) (s : Shard K) (lists : Lists) (detached : Option ℕ) : Prop where
  sound : s.table.Sound s.keyOf hash
  mem : ∀ handle, s.table.Mem handle ↔ lists.Cached handle ∧ detached ≠ some handle
  on_list : ∀ handle, detached = some handle → lists.Cached handle

structure Inv (hash : K → ℕ) (s : Shard K) (lists : Lists) (detached spare : Option ℕ) : Prop where
  seats : s.Seats lists spare
  cached : Cached hash s lists detached
  counts : s.Counts lists

theorem Cached.congr (h : Cached hash s lists detached) (htable : after.table = s.table)
    (hkeys : ∀ handle, lists.Cached handle → after.keyOf handle = s.keyOf handle)
    (hlists : ∀ handle, later.Cached handle ↔ lists.Cached handle) :
    Cached hash after later detached where
  sound := by
    rw [htable]
    exact h.sound.congr fun handle hmem => hkeys handle ((h.mem handle).mp hmem).1
  mem := by
    intro handle
    rw [htable, hlists]
    exact h.mem handle
  on_list := by
    intro handle hdet
    exact (hlists handle).mpr (h.on_list handle hdet)

theorem Cached.move (h : Cached hash s lists detached) (htable : after.table = s.table)
    (hkeys : ∀ other, after.keyOf other = s.keyOf other)
    (hothers : ∀ other ≠ handle, ∀ list, other ∈ later list ↔ other ∈ lists list)
    (hdet : ∀ other ≠ handle, detached ≠ some other)
    (hself : s.table.Mem handle ↔ later.Cached handle) : Cached hash after later none where
  sound := by
    rw [htable]
    exact h.sound.congr fun other _ => hkeys other
  mem := by
    intro other
    rw [htable]
    by_cases heq : other = handle
    · simp [heq, hself]
    · simp [h.mem, Lists.Cached, hothers other heq, hdet other heq]
  on_list := by
    intro other hnone
    cases hnone

theorem Inv.move (h : Inv hash s lists detached none) (place : Option ListHead) {entry : Handle K}
    {held : ℕ} (hbound : handle < s.handleCount) (hcount : after.handleCount = s.handleCount)
    (hcap : after.capacity = s.capacity) (htable : after.table = s.table)
    (hhandles : after.handles = update s.handles handle entry)
    (hkey : entry.key = s.keyOf handle) (hcharge : entry.charge = (s.handles handle).charge)
    (hkeys : ∀ reference ∈ after.held, reference.1 < s.handleCount ∧
      s.keyOf reference.1 = reference.2)
    (hheld : ∀ other ≠ handle, after.heldCount other = s.heldCount other)
    (hheldSelf : after.heldCount handle = held) (hfits : FitsAt s.capacity entry held place)
    (hrings : Rings after.links later)
    (hothers : ∀ other ≠ handle, ∀ list, other ∈ later list ↔ other ∈ lists list)
    (hself : ∀ list, handle ∈ later list ↔ some list = place)
    (hdet : ∀ other ≠ handle, detached ≠ some other)
    (hmem : s.table.Mem handle ↔ place = some .lru ∨ place = some .inUse)
    (hfree : after.freeListSize = BitVec.ofNat 64 (later .free).length)
    (husage : after.usage = s.charges later) : Inv hash after later none none := by
  have hentry : after.handles handle = entry := by rw [hhandles, update_self]
  have hother : ∀ other ≠ handle, after.handles other = s.handles other :=
    fun other hne => by rw [hhandles, update_of_ne hne]
  have hplace : after.Fits handle place := by
    rw [Fits, hcap, hentry, hheldSelf]
    exact hfits
  have hfield : ∀ {β : Type} (field : Handle K → β), field entry = field (s.handles handle) →
      ∀ other, field (after.handles other) = field (s.handles other) := by
    intro β field hsame other
    by_cases heq : other = handle
    · rw [heq, hentry, hsame]
    · rw [hother other heq]
  refine ⟨h.seats.move handle hcount hcap hrings hothers hother hheld hbound ?_ ?_
    (fun _ _ => Iff.rfl) (fun hnone => by cases hnone) ?_,
    h.cached.move htable (hfield Handle.key hkey) hothers hdet ?_, hfree,
    husage.trans (charges_congr fun other _ => hfield Handle.charge hcharge other).symm⟩
  · intro list hlist
    rw [(hself list).mp hlist]
    exact hplace
  · intro hoff
    cases place with
    | none => exact Or.inr hplace
    | some list => exact absurd ((hself list).mpr rfl) (hoff list)
  · intro reference href
    exact ⟨(hkeys reference href).1,
      (hfield Handle.key hkey _).trans (hkeys reference href).2⟩
  · rw [hmem, Lists.Cached, hself, hself, eq_comm, @eq_comm _ place]

theorem Inv.lookup_eq_some_iff [DecidableEq K] (h : Inv hash s lists none spare) :
    s.lookup hash key = some handle ↔ lists.Cached handle ∧ s.keyOf handle = key := by
  rw [lookup, h.cached.sound.lookup_eq_some_iff, h.cached.mem]
  simp

end Cache

section Moves

theorem listRemove_eq {node : Node} (h : s.links.cut node node = some links) :
    s.listRemove node = some { s with links := links } := by
  rw [listRemove, h]
  rfl

theorem listAppend_eq {list node : Node} (h : s.links.paste list node node = some links) :
    s.listAppend list node = some { s with links := links } := by
  rw [listAppend, h]
  rfl

theorem Seats.exists_move (h : s.Seats lists spare) {source : ListHead} (target : ListHead)
    (hmem : handle ∈ lists source) :
    ∃ cutLinks links, s.links.cut (.handle handle) (.handle handle) = some cutLinks ∧
      cutLinks.paste (.head target) (.handle handle) (.handle handle) = some links ∧
      Rings links ((lists.drop source handle).add target handle) := by
  obtain ⟨cutLinks, hcut, hdrop⟩ := h.rings.remove hmem
  obtain ⟨links, hpaste, hadded⟩ := hdrop.append target (h.rings.off_drop hmem)
  exact ⟨cutLinks, links, hcut, hpaste, hadded⟩

theorem mem_drop_add_of_ne {source target list : ListHead} (hne : other ≠ handle) :
    other ∈ (lists.drop source handle).add target handle list ↔ other ∈ lists list := by
  rw [Lists.mem_add, Lists.mem_drop_of_ne hne]
  simp [hne]

theorem mem_drop_add_self (h : Rings s.links lists) {source target list : ListHead}
    (hmem : handle ∈ lists source) :
    handle ∈ (lists.drop source handle).add target handle list ↔ list = target := by
  have hoff := h.off_drop hmem list
  rw [Lists.mem_add]
  simp [hoff]

theorem cached_drop_add (h : Rings s.links lists) {source target : ListHead}
    (hsrc : source ≠ .free) (htgt : target ≠ .free) (hmem : handle ∈ lists source) :
    ((lists.drop source handle).add target handle).Cached other ↔ lists.Cached other := by
  by_cases heq : other = handle
  · subst heq
    have hpre : lists.Cached other := by
      cases source with
      | lru => exact Or.inl hmem
      | inUse => exact Or.inr hmem
      | free => exact absurd rfl hsrc
    have hafter : ((lists.drop source other).add target other).Cached other := by
      cases target with
      | lru => exact Or.inl ((mem_drop_add_self h hmem).mpr rfl)
      | inUse => exact Or.inr ((mem_drop_add_self h hmem).mpr rfl)
      | free => exact absurd rfl htgt
    exact ⟨fun _ => hpre, fun _ => hafter⟩
  · unfold Lists.Cached
    rw [mem_drop_add_of_ne heq, mem_drop_add_of_ne heq]

theorem charges_lru_inUse (hmem : handle ∈ lists .lru) :
    s.charges ((lists.drop .lru handle).add .inUse handle) = s.charges lists := by
  have hlru : (lists.drop .lru handle).add .inUse handle .lru = (lists .lru).erase handle := by
    rw [Lists.add_of_ne (by decide), Lists.drop_self]
  have huse : (lists.drop .lru handle).add .inUse handle .inUse = lists .inUse ++ [handle] := by
    rw [Lists.add_self, Lists.drop_of_ne (by decide)]
  rw [charges, charges, hlru, huse, chargesOf_erase hmem, chargesOf_concat]
  ring

end Moves

variable {cutLinks : Links Node}

section Get

theorem setRefs_inCache (s : Shard K) (handle refs : ℕ) :
    ((s.setRefs handle refs).handles handle).inCache = (s.handles handle).inCache := by
  rw [setRefs_self]

theorem ref_of_lru (hrefs : (s.handles handle).refs = 1)
    (hcache : (s.handles handle).inCache = true)
    (hcut : s.links.cut (.handle handle) (.handle handle) = some cutLinks)
    (hpaste : cutLinks.paste (.head .inUse) (.handle handle) (.handle handle) = some links) :
    s.ref handle = some { s.setRefs handle 2 with links := links, lruSize := s.lruSize - 1 } := by
  have hself := (setRefs_inCache s handle 2).trans hcache
  have hrmv : (s.setRefs handle 2).listRemove (.handle handle) =
      some { s.setRefs handle 2 with links := cutLinks } := listRemove_eq hcut
  unfold ref
  simp only [hrefs]
  rw [if_pos ⟨trivial, hself⟩, hrmv]
  exact listAppend_eq hpaste

theorem ref_of_ne (hne : (s.handles handle).refs ≠ 1) :
    s.ref handle = some (s.setRefs handle ((s.handles handle).refs + 1)) := by
  unfold ref
  rw [if_neg fun h => hne h.1]

variable {hash : K → ℕ}

theorem Inv.keys_hold (h : Inv hash s lists detached spare) (hcached : lists.Cached handle)
    (hkey : s.keyOf handle = key) :
    ∀ reference ∈ (s.hold handle key).held,
      reference.1 < s.handleCount ∧ s.keyOf reference.1 = reference.2 := by
  intro reference href
  rcases mem_cons.mp href with rfl | hold
  · rcases hcached with hlru | huse
    · exact ⟨h.seats.bound _ _ hlru, hkey⟩
    · exact ⟨h.seats.bound _ _ huse, hkey⟩
  · exact h.seats.keys reference hold

theorem Inv.mem_of_cached (h : Inv hash s lists none spare) (hcached : lists.Cached handle) :
    s.table.Mem handle := (h.cached.mem handle).mpr ⟨hcached, by simp⟩

theorem Inv.get_lru (h : Inv hash s lists none none) (hmem : handle ∈ lists .lru)
    (hkey : s.keyOf handle = key) :
    ∃ after, (s.hold handle key).ref handle = some after ∧
      Inv hash after ((lists.drop .lru handle).add .inUse handle) none none ∧
      after.drift ((lists.drop .lru handle).add .inUse handle) = s.drift lists := by
  obtain ⟨hrefs, hzero, hcache⟩ := h.seats.seat .lru handle hmem
  obtain ⟨cutLinks, links, hcut, hpaste, hrings⟩ := h.seats.exists_move .inUse hmem
  have hstep : (s.hold handle key).ref handle = some { (s.hold handle key).setRefs handle 2 with
      links := links, lruSize := s.lruSize - 1 } := ref_of_lru hrefs hcache hcut hpaste
  refine ⟨_, hstep, ?_, ?_⟩
  · refine h.move (some .inUse) (h.seats.bound _ _ hmem) rfl rfl rfl rfl rfl rfl
      (h.keys_hold (Or.inl hmem) hkey) (fun _ hne => heldCount_hold_of_ne hne)
      (heldCount_hold_self.trans (congrArg (· + 1) hzero)) ⟨rfl, Nat.one_pos, hcache⟩ hrings
      (fun _ hne _ => mem_drop_add_of_ne hne) (fun list => ?_) (by simp) ?_ ?_ ?_
    · rw [mem_drop_add_self h.seats.rings hmem, Option.some.injEq]
    · simp [h.mem_of_cached (Or.inl hmem)]
    · rw [Lists.add_of_ne (by decide), Lists.drop_of_ne (by decide)]
      exact h.counts.free
    · rw [charges_lru_inUse hmem]
      exact h.counts.usage
  · unfold drift
    rw [Lists.add_of_ne (by decide), Lists.drop_self, ofNat_length_erase hmem]
    exact sub_sub_sub_cancel_right _ _ _

theorem Inv.recount (h : Inv hash s lists none none) (place : Option ListHead)
    {held : List (ℕ × K)} {count : ℕ} (hbound : handle < s.handleCount)
    (hkeys : ∀ reference ∈ held, reference.1 < s.handleCount ∧ s.keyOf reference.1 = reference.2)
    (hheld : ∀ other ≠ handle, { s with held := held }.heldCount other = s.heldCount other)
    (hcount : { s with held := held }.heldCount handle = count)
    (hself : ∀ list, handle ∈ lists list ↔ some list = place)
    (hfits : FitsAt s.capacity { s.handles handle with refs := refs } count place) :
    Inv hash ({ s with held := held }.setRefs handle refs) lists none none := by
  refine h.move place hbound rfl rfl rfl rfl rfl rfl hkeys hheld hcount hfits h.seats.rings
    (fun _ _ _ => Iff.rfl) hself (by simp) ?_ h.counts.free h.counts.usage
  rw [h.cached.mem, Lists.Cached, hself, hself]
  simp [eq_comm]

theorem Inv.get_inUse (h : Inv hash s lists none none) (hmem : handle ∈ lists .inUse)
    (hkey : s.keyOf handle = key) :
    ∃ after, (s.hold handle key).ref handle = some after ∧ Inv hash after lists none none ∧
      after.drift lists = s.drift lists := by
  obtain ⟨hrefs, hpos, hcache⟩ := h.seats.seat .inUse handle hmem
  have hne : ((s.hold handle key).handles handle).refs ≠ 1 := by
    change (s.handles handle).refs ≠ 1
    omega
  exact ⟨_, ref_of_ne hne, h.recount (some .inUse) (h.seats.bound _ _ hmem)
    (h.keys_hold (Or.inr hmem) hkey) (fun _ hother => heldCount_hold_of_ne hother)
    heldCount_hold_self (fun _ => h.seats.rings.mem_iff hmem)
    ⟨congrArg (· + 1) hrefs, Nat.succ_pos _, hcache⟩, rfl⟩

theorem Inv.get (h : Inv hash s lists none none) (hcached : lists.Cached handle)
    (hkey : s.keyOf handle = key) :
    ∃ after later, (s.hold handle key).ref handle = some after ∧
      Inv hash after later none none ∧ after.drift later = s.drift lists ∧ lists.Keeps later := by
  rcases hcached with hmem | hmem
  · obtain ⟨after, hstep, hinv, hdrift⟩ := h.get_lru hmem hkey
    refine ⟨after, _, hstep, hinv, hdrift, fun _ => ?_⟩
    exact (cached_drop_add h.seats.rings (by decide) (by decide) hmem).mpr
  · obtain ⟨after, hstep, hinv, hdrift⟩ := h.get_inUse hmem hkey
    exact ⟨after, _, hstep, hinv, hdrift, fun _ => id⟩

end Get

section Release

theorem unref_of_one (hrefs : (s.handles handle).refs = 1)
    (hpaste : s.links.paste (.head .free) (.handle handle) (.handle handle) = some links) :
    s.unref handle = some { s.setRefs handle 0 with
      links := links, freeListSize := s.freeListSize + 1 } := by
  have happd : (s.setRefs handle 0).listAppend (.head .free) (.handle handle) =
      some { s.setRefs handle 0 with links := links } := listAppend_eq hpaste
  unfold unref
  simp only [hrefs, if_true, pushFreeList, Nat.sub_self, happd]
  rfl

theorem unref_of_two (hrefs : (s.handles handle).refs = 2)
    (hcache : (s.handles handle).inCache = true)
    (hcut : s.links.cut (.handle handle) (.handle handle) = some cutLinks)
    (hpaste : cutLinks.paste (.head .lru) (.handle handle) (.handle handle) = some links) :
    s.unref handle = some { s.setRefs handle 1 with links := links, lruSize := s.lruSize + 1 } := by
  have hself := (setRefs_inCache s handle 1).trans hcache
  have hrmv : (s.setRefs handle 1).listRemove (.handle handle) =
      some { s.setRefs handle 1 with links := cutLinks } := listRemove_eq hcut
  have happd : { s.setRefs handle 1 with links := cutLinks }.listAppend (.head .lru)
      (.handle handle) = some { s.setRefs handle 1 with links := links } := listAppend_eq hpaste
  unfold unref
  simp only [hrefs]
  rw [if_neg (by decide), if_pos ⟨hself, trivial⟩]
  exact bind_eq_some_iff.mpr ⟨_, hrmv, bind_eq_some_iff.mpr ⟨_, happd, rfl⟩⟩

theorem unref_of_other (hrefs : (s.handles handle).refs = refs) (hone : refs ≠ 1)
    (htwo : ¬((s.handles handle).inCache = true ∧ refs = 2)) :
    s.unref handle = some (s.setRefs handle (refs - 1)) := by
  subst hrefs
  unfold unref
  rw [if_neg hone, setRefs_inCache, if_neg htwo]

variable {hash : K → ℕ}

theorem charges_inUse_lru (hmem : handle ∈ lists .inUse) :
    s.charges ((lists.drop .inUse handle).add .lru handle) = s.charges lists := by
  have huse : (lists.drop .inUse handle).add .lru handle .inUse = (lists .inUse).erase handle := by
    rw [Lists.add_of_ne (by decide), Lists.drop_self]
  have hlru : (lists.drop .inUse handle).add .lru handle .lru = lists .lru ++ [handle] := by
    rw [Lists.add_self, Lists.drop_of_ne (by decide)]
  rw [charges, charges, hlru, huse, chargesOf_erase hmem, chargesOf_concat]
  ring

theorem charges_inUse_oldest (hmem : handle ∈ lists .inUse) :
    s.charges ((lists.drop .inUse handle).addOldest .lru handle) = s.charges lists := by
  have huse : (lists.drop .inUse handle).addOldest .lru handle .inUse =
      (lists .inUse).erase handle := by
    rw [Lists.addOldest, update_of_ne (by decide), Lists.drop_self]
  have hlru : (lists.drop .inUse handle).addOldest .lru handle .lru = handle :: lists .lru := by
    rw [Lists.addOldest, update_self, Lists.drop_of_ne (by decide)]
  rw [charges, charges, hlru, huse, chargesOf_erase hmem, chargesOf_cons]
  ring

theorem Inv.held_cases (h : Inv hash s lists none none) (hheld : (handle, key) ∈ s.held) :
    (handle ∈ lists .inUse ∧ s.heldCount handle = 1 ∧ (s.handles handle).refs = 2 ∧
      (s.handles handle).inCache = true) ∨
    (s.heldCount handle ≠ 1 ∧ (s.handles handle).refs ≠ 1 ∧
      ¬((s.handles handle).inCache = true ∧ (s.handles handle).refs = 2)) ∨
    (lists.Off handle ∧ s.heldCount handle = 1 ∧ (s.handles handle).refs = 1) := by
  have hbound := (h.seats.keys _ hheld).1
  by_cases hone : s.heldCount handle = 1
  · rcases h.seats.place_of_held (heldCount_pos hheld) hbound with huse | ⟨hoff, hrefs, -⟩
    · obtain ⟨hrefs, -, hcache⟩ := h.seats.seat .inUse handle huse
      exact .inl ⟨huse, hone, by omega, hcache⟩
    · exact .inr (.inr ⟨hoff, hone, hrefs.trans hone⟩)
  · refine .inr (.inl ⟨hone, ?_⟩)
    rcases h.seats.place_of_held (heldCount_pos hheld) hbound with huse | ⟨hoff, hrefs, -, hcache⟩
    · obtain ⟨hrefs, hpos, -⟩ := h.seats.seat .inUse handle huse
      omega
    · have hfalse := hcache.resolve_right fun hboth => hone hboth.2
      exact ⟨by omega, by simp [hfalse]⟩

theorem unrefInv_of_two {oldest : Node}
    (hrefs : (s.handles handle).refs = 2) (hcache : (s.handles handle).inCache = true)
    (hcut : s.links.cut (.handle handle) (.handle handle) = some cutLinks)
    (hnext : cutLinks.next (.head .lru) = some oldest)
    (hpaste : cutLinks.paste oldest (.handle handle) (.handle handle) = some links) :
    s.unrefInv handle =
      some { s.setRefs handle 1 with links := links, lruSize := s.lruSize + 1 } := by
  have hself := (setRefs_inCache s handle 1).trans hcache
  have hrmv : (s.setRefs handle 1).listRemove (.handle handle) =
      some { s.setRefs handle 1 with links := cutLinks } := listRemove_eq hcut
  have happd : { s.setRefs handle 1 with links := cutLinks }.listAppend oldest
      (.handle handle) = some { s.setRefs handle 1 with links := links } := listAppend_eq hpaste
  unfold unrefInv
  simp only [hrefs]
  rw [if_neg (by decide), if_pos ⟨hself, trivial⟩]
  refine bind_eq_some_iff.mpr ⟨_, hrmv, ?_⟩
  refine bind_eq_some_iff.mpr ⟨oldest, hnext, ?_⟩
  exact bind_eq_some_iff.mpr ⟨_, happd, rfl⟩

theorem unrefInv_of_other (hone : (s.handles handle).refs ≠ 1)
    (htwo : ¬((s.handles handle).inCache = true ∧ (s.handles handle).refs = 2)) :
    s.unrefInv handle = some (s.setRefs handle ((s.handles handle).refs - 1)) := by
  unfold unrefInv
  rw [if_neg hone, setRefs_inCache, if_neg htwo]

variable [DecidableEq K]

theorem heldCount_forget_self (h : (handle, key) ∈ s.held) :
    (s.forget handle key).heldCount handle = s.heldCount handle - 1 := by
  have hcount := countP_erase (fun reference : ℕ × K => decide (reference.1 = handle)) s.held
    (handle, key)
  rw [if_pos ⟨h, decide_eq_true rfl⟩] at hcount
  exact hcount

theorem heldCount_forget_of_ne (hne : other ≠ handle) :
    (s.forget handle key).heldCount other = s.heldCount other := by
  have hcount := countP_erase (fun reference : ℕ × K => decide (reference.1 = other)) s.held
    (handle, key)
  rw [if_neg (by simpa using fun _ => hne.symm), Nat.sub_zero] at hcount
  exact hcount

theorem Inv.keys_forget (h : Inv hash s lists detached spare) :
    ∀ reference ∈ (s.forget handle key).held,
      reference.1 < s.handleCount ∧ s.keyOf reference.1 = reference.2 :=
  fun reference href => h.seats.keys reference (mem_of_mem_erase href)

theorem Inv.release_stay (h : Inv hash s lists none none) (hheld : (handle, key) ∈ s.held)
    (hmany : s.heldCount handle ≠ 1) :
    Inv hash ((s.forget handle key).setRefs handle ((s.handles handle).refs - 1)) lists
      none none := by
  have hpos := heldCount_pos hheld
  have hbound := (h.seats.keys _ hheld).1
  rcases h.seats.place_of_held hpos hbound with huse | ⟨hoff, hrefs, -, hcache⟩
  · obtain ⟨hrefs, -, hcache⟩ := h.seats.seat .inUse handle huse
    refine h.recount (some .inUse) hbound h.keys_forget
      (fun _ hother => heldCount_forget_of_ne hother) (heldCount_forget_self hheld)
      (fun _ => h.seats.rings.mem_iff huse) ⟨?_, by omega, hcache⟩
    change (s.handles handle).refs - 1 = s.heldCount handle - 1 + 1
    omega
  · exact h.recount none hbound h.keys_forget (fun _ hother => heldCount_forget_of_ne hother)
      (heldCount_forget_self hheld) (fun list => by simp [hoff list])
      ⟨congrArg (· - 1) hrefs, by omega, Or.inl (hcache.resolve_right fun hboth => hmany hboth.2)⟩

theorem Inv.to_lru (h : Inv hash s lists none none) (hheld : (handle, key) ∈ s.held)
    (hone : s.heldCount handle = 1) (huse : handle ∈ lists .inUse) (hrings : Rings links later)
    (hothers : ∀ other ≠ handle, ∀ list, other ∈ later list ↔ other ∈ lists list)
    (hself : ∀ list, handle ∈ later list ↔ list = .lru) (hfree : later .free = lists .free)
    (hchrg : s.charges later = s.charges lists) :
    Inv hash { (s.forget handle key).setRefs handle 1 with
      links := links, lruSize := s.lruSize + 1 } later none none := by
  obtain ⟨-, -, hcache⟩ := h.seats.seat .inUse handle huse
  refine h.move (some .lru) (h.seats.bound _ _ huse) rfl rfl rfl rfl rfl rfl h.keys_forget
    (fun _ hother => heldCount_forget_of_ne hother) (heldCount_forget_self hheld)
    ⟨rfl, by rw [hone], hcache⟩ hrings hothers (fun list => by rw [hself, Option.some.injEq])
    (by simp) (by simp [h.mem_of_cached (Or.inr huse)]) ?_ (h.counts.usage.trans hchrg.symm)
  rw [hfree]
  exact h.counts.free

theorem Inv.to_free (h : Inv hash s lists none none) (hheld : (handle, key) ∈ s.held)
    (hone : s.heldCount handle = 1) (hoff : lists.Off handle)
    (hrings : Rings links (lists.add .free handle)) :
    Inv hash { (s.forget handle key).setRefs handle 0 with
      links := links, freeListSize := s.freeListSize + 1 } (lists.add .free handle) none none := by
  have hbound := (h.seats.keys _ hheld).1
  obtain ⟨-, -, -, hflag⟩ := (h.seats.place_of_held (heldCount_pos hheld) hbound).resolve_left
    (hoff .inUse)
  refine h.move (some .free) hbound rfl rfl rfl rfl rfl rfl h.keys_forget
    (fun _ hother => heldCount_forget_of_ne hother) (heldCount_forget_self hheld)
    ⟨rfl, by rw [hone], hflag.imp_right And.left⟩ hrings (fun other hne list => ?_)
    (fun list => ?_) (by simp) ?_ ?_ ?_
  · simp [Lists.mem_add, hne]
  · simp [Lists.mem_add, hoff list]
  · simp [h.cached.mem, Lists.Cached, hoff .lru, hoff .inUse]
  · rw [Lists.add_self, ofNat_length_concat]
    exact congrArg (· + 1) h.counts.free
  · rw [charges, Lists.add_of_ne (by decide), Lists.add_of_ne (by decide)]
    exact h.counts.usage

theorem Inv.release (h : Inv hash s lists none none) (hheld : (handle, key) ∈ s.held) :
    ∃ after later, (s.forget handle key).unref handle = some after ∧
      Inv hash after later none none ∧ after.drift later = s.drift lists ∧ lists.Keeps later := by
  rcases h.held_cases hheld with ⟨huse, hone, hrefs, hcache⟩ | ⟨hmany, hnone, hntwo⟩ |
    ⟨hoff, hone, hrefs⟩
  · obtain ⟨cutLinks, links, hcut, hpaste, hrings⟩ := h.seats.exists_move .lru huse
    refine ⟨_, _, unref_of_two hrefs hcache hcut hpaste,
      h.to_lru hheld hone huse hrings (fun _ hne _ => mem_drop_add_of_ne hne)
        (fun _ => mem_drop_add_self h.seats.rings huse) ?_ (charges_inUse_lru huse), ?_,
      fun _ => (cached_drop_add h.seats.rings (by decide) (by decide) huse).mpr⟩
    · rw [Lists.add_of_ne (by decide), Lists.drop_of_ne (by decide)]
    · unfold drift
      rw [Lists.add_self, Lists.drop_of_ne (by decide), ofNat_length_concat]
      exact add_sub_add_right_eq_sub _ _ _
  · exact ⟨_, _, unref_of_other rfl hnone hntwo, h.release_stay hheld hmany, rfl, fun _ => id⟩
  · obtain ⟨links, hpaste, hrings⟩ := h.seats.rings.append .free hoff
    refine ⟨_, _, unref_of_one hrefs hpaste, h.to_free hheld hone hoff hrings, ?_, ?_⟩
    · unfold drift
      rfl
    · intro other hcached
      exact hcached

theorem Inv.releaseInv (h : Inv hash s lists none none) (hheld : (handle, key) ∈ s.held)
    (hlast : (s.handles handle).refs ≠ 1) :
    ∃ after later, (s.forget handle key).unrefInv handle = some after ∧
      Inv hash after later none none ∧ after.drift later = s.drift lists ∧ lists.Keeps later := by
  rcases h.held_cases hheld with ⟨huse, hone, hrefs, hcache⟩ | ⟨hmany, hnone, hntwo⟩ |
    ⟨-, -, hrefs⟩
  · obtain ⟨cutLinks, hcut, hdrop⟩ := h.seats.rings.remove huse
    have hoff := h.seats.rings.off_drop huse
    obtain ⟨oldest, links, hnext, hpaste, hrings⟩ := hdrop.appendOldest .lru hoff
    have hothers : ∀ other ≠ handle, ∀ list,
        other ∈ (lists.drop .inUse handle).addOldest .lru handle list ↔ other ∈ lists list := by
      intro other hne list
      rw [Lists.mem_addOldest, Lists.mem_drop_of_ne hne]
      simp [hne]
    have hself : ∀ list,
        handle ∈ (lists.drop .inUse handle).addOldest .lru handle list ↔ list = .lru := by
      intro list
      rw [Lists.mem_addOldest]
      simp [hoff list]
    refine ⟨_, _, unrefInv_of_two hrefs hcache hcut hnext hpaste,
      h.to_lru hheld hone huse hrings hothers hself ?_ (charges_inUse_oldest huse), ?_,
      Lists.keeps_of_move hothers fun _ => Or.inl ((hself .lru).mpr rfl)⟩
    · rw [Lists.addOldest, update_of_ne (by decide), Lists.drop_of_ne (by decide)]
    · unfold drift
      rw [Lists.addOldest, update_self, Lists.drop_of_ne (by decide), length_cons,
        BitVec.ofNat_add]
      exact add_sub_add_right_eq_sub _ _ _
  · exact ⟨_, _, unrefInv_of_other hnone hntwo, h.release_stay hheld hmany, rfl, fun _ => id⟩
  · exact absurd hrefs hlast

end Release

section Erase

/-- The state of `FinishErase` before the reference of the cache is dropped. -/
def unlisted (s : Shard K) (handle : ℕ) (links : Links Node) : Shard K :=
  { s.leaveCache handle with links := links, usage := s.usage - (s.handles handle).charge }

theorem finishErase_eq (hcut : s.links.cut (.handle handle) (.handle handle) = some links) :
    s.finishErase (some handle) = (s.unlisted handle links).unref handle := by
  have hrmv : s.listRemove (.handle handle) = some { s with links := links } :=
    listRemove_eq hcut
  have hcharge : ({ s with links := links }.leaveCache handle).usage -
      (({ s with links := links }.leaveCache handle).handles handle).charge =
        s.usage - (s.handles handle).charge := congrArg (s.usage - ·) charge_leaveCache
  rw [finishErase, hrmv]
  refine Eq.trans ?_ (congrArg (fun usage =>
    { s.leaveCache handle with links := links, usage := usage }.unref handle) hcharge)
  rfl

theorem unlisted_handles : ((s.unlisted handle links).setRefs handle refs).handles =
    update s.handles handle { s.handles handle with inCache := false, refs := refs } := by
  simp [setRefs, unlisted, leaveCache, modifyHandle]

theorem unlisted_self {links : Links Node} :
    (s.unlisted handle links).handles handle = { s.handles handle with inCache := false } :=
  leaveCache_self

theorem charges_drop {list : ListHead} (hlist : list ≠ .free) (hmem : handle ∈ lists list) :
    s.charges (lists.drop list handle) = s.charges lists - (s.handles handle).charge := by
  cases list with
  | lru =>
    rw [charges, charges, Lists.drop_self, Lists.drop_of_ne (by decide), chargesOf_erase hmem]
    ring
  | inUse =>
    rw [charges, charges, Lists.drop_self, Lists.drop_of_ne (by decide), chargesOf_erase hmem]
    ring
  | free => exact absurd rfl hlist

variable {hash : K → ℕ}

theorem Inv.erase_inUse (h : Inv hash s lists (some handle) none) (hmem : handle ∈ lists .inUse) :
    ∃ after, s.finishErase (some handle) = some after ∧
      Inv hash after (lists.drop .inUse handle) none none ∧
      after.drift (lists.drop .inUse handle) = s.drift lists := by
  obtain ⟨hrefs, hpos, hcache⟩ := h.seats.seat .inUse handle hmem
  obtain ⟨links, hcut, hrings⟩ := h.seats.rings.remove hmem
  have hoff := h.seats.rings.off_drop hmem
  have hself := @unlisted_self K s handle links
  have hone : (s.handles handle).refs ≠ 1 := by omega
  have hstep := (finishErase_eq hcut).trans
    (unref_of_other (congrArg Handle.refs hself) hone (by simp [hself]))
  refine ⟨_, hstep, ?_, ?_⟩
  · refine h.move none (h.seats.bound _ _ hmem) rfl rfl rfl unlisted_handles rfl rfl h.seats.keys
      (fun _ _ => rfl) rfl ⟨?_, hpos, Or.inl rfl⟩ hrings (fun _ hne _ => Lists.mem_drop_of_ne hne)
      (fun list => by simp [hoff list]) (fun _ hne => by simp [hne.symm]) (by simp [h.cached.mem])
      ?_ ?_
    · change (s.handles handle).refs - 1 = s.heldCount handle
      omega
    · rw [Lists.drop_of_ne (by decide)]
      exact h.counts.free
    · rw [charges_drop (by decide) hmem, ← h.counts.usage]
      rfl
  · unfold drift
    rfl

theorem Inv.erase_lru (h : Inv hash s lists (some handle) none) (hmem : handle ∈ lists .lru) :
    ∃ after, s.finishErase (some handle) = some after ∧
      Inv hash after ((lists.drop .lru handle).add .free handle) none none := by
  obtain ⟨hrefs, hzero, hcache⟩ := h.seats.seat .lru handle hmem
  obtain ⟨cutLinks, links, hcut, hpaste, hrings⟩ := h.seats.exists_move .free hmem
  have hrefsSelf : ((s.unlisted handle cutLinks).handles handle).refs = 1 :=
    (congrArg Handle.refs unlisted_self).trans hrefs
  refine ⟨_, (finishErase_eq hcut).trans (unref_of_one hrefsSelf hpaste), ?_⟩
  refine h.move (some .free) (h.seats.bound _ _ hmem) rfl rfl rfl unlisted_handles rfl rfl
    h.seats.keys (fun _ _ => rfl) hzero ⟨rfl, rfl, Or.inl rfl⟩ hrings
    (fun _ hne _ => mem_drop_add_of_ne hne) (fun list => ?_) (fun _ hne => by simp [hne.symm])
    (by simp [h.cached.mem]) ?_ ?_
  · rw [mem_drop_add_self h.seats.rings hmem, Option.some.injEq]
  · rw [Lists.add_self, Lists.drop_of_ne (by decide), ofNat_length_concat]
    exact congrArg (· + 1) h.counts.free
  · have hchrg : s.charges ((lists.drop .lru handle).add .free handle) =
        s.charges (lists.drop .lru handle) := by
      rw [charges, charges, Lists.add_of_ne (by decide), Lists.add_of_ne (by decide)]
    rw [hchrg, charges_drop (by decide) hmem, ← h.counts.usage]
    rfl

variable [DecidableEq K]

theorem Inv.tableRemove (h : Inv hash s lists none none)
    (hfound : s.lookup hash key = some handle) :
    Inv hash (s.tableRemove hash key) lists (some handle) none := by
  obtain ⟨hcached, hkey⟩ := h.lookup_eq_some_iff.mp hfound
  obtain ⟨-, hsound, hmem⟩ := h.cached.sound.remove key
  refine ⟨{ h.seats with }, ⟨hsound, ?_, ?_⟩, ⟨h.counts.free, h.counts.usage⟩⟩
  · intro other
    refine (hmem other).trans ?_
    rw [h.cached.mem]
    constructor
    · rintro ⟨⟨hother, -⟩, hne⟩
      refine ⟨hother, fun heq => hne ?_⟩
      cases heq
      exact hkey
    · rintro ⟨hother, hne⟩
      refine ⟨⟨hother, by simp⟩, fun heq => hne ?_⟩
      have hsame := h.lookup_eq_some_iff.mpr ⟨hother, heq⟩
      rw [hfound] at hsame
      exact hsame
  · intro other hother
    cases hother
    exact hcached

theorem Inv.erase (h : Inv hash s lists none none) (key : K) :
    ∃ after later, s.erase hash key = some after ∧ Inv hash after later none none ∧
      ((∀ handle, s.lookup hash key = some handle → (s.handles handle).refs ≠ 1) →
        after.drift later = s.drift lists) ∧
      ∀ other, lists.Cached other → s.keyOf other ≠ key → later.Cached other := by
  unfold Shard.erase
  cases hfound : s.lookup hash key with
  | none =>
    have hsame : s.tableRemove hash key = s := by
      have hnone : s.table.lookup s.keyOf hash key = none := hfound
      rw [Shard.tableRemove, Table.remove, hnone]
    rw [hsame]
    exact ⟨s, lists, rfl, h, fun _ => rfl, fun _ hcached _ => hcached⟩
  | some handle =>
    have hdet := h.tableRemove hfound
    have hkey := (h.lookup_eq_some_iff.mp hfound).2
    have hne : ∀ other, s.keyOf other ≠ key → other ≠ handle :=
      fun other hother heq => hother (heq ▸ hkey)
    rcases (h.lookup_eq_some_iff.mp hfound).1 with hmem | hmem
    · obtain ⟨after, hstep, hinv⟩ := hdet.erase_lru hmem
      refine ⟨after, _, hstep, hinv, fun hrefs => ?_, fun other hcached hother => ?_⟩
      · exact absurd (h.seats.seat .lru handle hmem).1 (hrefs handle rfl)
      · unfold Lists.Cached
        rw [mem_drop_add_of_ne (hne other hother), mem_drop_add_of_ne (hne other hother)]
        exact hcached
    · obtain ⟨after, hstep, hinv, hdrift⟩ := hdet.erase_inUse hmem
      refine ⟨after, _, hstep, hinv, fun _ => hdrift, fun other hcached hother => ?_⟩
      unfold Lists.Cached
      rw [Lists.mem_drop_of_ne (hne other hother), Lists.mem_drop_of_ne (hne other hother)]
      exact hcached

end Erase

end Shard

end MemoryEngine.PageCache
