import MemoryEngine.Txn.Mvocc

/-! Page latches and tuples as the transaction managers that latch pages see them
(`storage/DDSM.cpp`, `utils/mutexlock.h`).

The latches are taken to be mutually exclusive over the whole cluster, as the SELCC protocol
means them to be.  What an unlock does follows `RWSpinMutex`. -/
namespace MemoryEngine.Txn

open Function

/-- The latch of a page.  The reader count is kept as the list of the transactions that it
counts. -/
structure PageLatch where
  writer : Option ℕ
  readers : List ℕ
  deriving DecidableEq, Repr

/-- How a try lock or an upgrade ends.  An upgrade that is `refused` leaves the shared latch in
place, one that is `lost` has given it up: another node holds the page too. -/
inductive LatchAnswer where
  | granted
  | refused
  | lost
  deriving DecidableEq, Repr

namespace PageLatch

def free : PageLatch := ⟨none, []⟩

variable (latch : PageLatch) (txn : ℕ)

def lockShared : Option PageLatch :=
  if latch.writer = none then some { latch with readers := txn :: latch.readers } else none

def lock : Option PageLatch :=
  if latch.writer = none ∧ latch.readers = [] then some { latch with writer := some txn } else none

/-- `try_upgrade_pre_access`: only the sole reader becomes the writer. -/
def tryUpgrade : LatchAnswer → Option (PageLatch × Bool)
  | .granted =>
      if latch.writer = none ∧ latch.readers = [txn] then some (⟨some txn, []⟩, true) else none
  | .refused => some (latch, false)
  | .lost => some ({ latch with readers := latch.readers.erase txn }, false)

def unlockShared : PageLatch :=
  { latch with readers := latch.readers.erase txn }

/-- `fetch_and(~WRITER_ACTIVE_MASK)`, whoever calls it. -/
def unlock : PageLatch := { latch with writer := none }

/-- `SELCC_Shared_UnLock` or `SELCC_Exclusive_UnLock`, by the access type that is remembered for
the page. -/
def unlockAs (accessType : AccessType) : PageLatch :=
  if accessType.isRead then latch.unlockShared txn else latch.unlock

def Exclusive : Prop := latch.writer ≠ none → latch.readers = []

def Held (accessType : AccessType) : Prop :=
  if accessType.isRead then txn ∈ latch.readers else latch.writer = some txn

variable {latch after : PageLatch} {txn other : ℕ} {mode otherMode : AccessType}

inductive Moves (txn : ℕ) : PageLatch → PageLatch → Option AccessType → Option AccessType →
    Prop where
  | keep (latch : PageLatch) (mode : Option AccessType) : Moves txn latch latch mode mode
  | rename (latch : PageLatch) {mode after : AccessType} (hmode : mode.isRead = false)
      (hafter : after.isRead = false) : Moves txn latch latch (some mode) (some after)
  | share {latch : PageLatch} {mode : AccessType} (hmode : mode.isRead = true)
      (hwtr : latch.writer = none) :
      Moves txn latch { latch with readers := txn :: latch.readers } none (some mode)
  | exclude {latch : PageLatch} {mode : AccessType} (hmode : mode.isRead = false)
      (hwtr : latch.writer = none) (hrdrs : latch.readers = []) :
      Moves txn latch { latch with writer := some txn } none (some mode)
  | upgrade {latch : PageLatch} {mode after : AccessType} (hafter : after.isRead = false)
      (hwtr : latch.writer = none) (hrdrs : latch.readers = [txn]) :
      Moves txn latch ⟨some txn, []⟩ (some mode) (some after)
  | unlock (latch : PageLatch) (mode : AccessType) :
      Moves txn latch (latch.unlockAs txn mode) (some mode) none

theorem held_read (hmode : mode.isRead = true) : latch.Held txn mode ↔ txn ∈ latch.readers := by
  simp [Held, hmode]

theorem held_write (hmode : mode.isRead = false) :
    latch.Held txn mode ↔ latch.writer = some txn := by
  simp [Held, hmode]

theorem Held.reads (hexcl : latch.Exclusive) (h : latch.Held txn mode)
    (hother : latch.Held other otherMode) (hne : txn ≠ other) :
    mode.isRead = true ∧ otherMode.isRead = true := by
  cases hmode : mode.isRead with
  | true =>
    rw [held_read hmode] at h
    cases hotherMode : otherMode.isRead with
    | true => exact ⟨rfl, rfl⟩
    | false =>
      rw [held_write hotherMode] at hother
      have hempty := hexcl (by simp [hother])
      simp [hempty] at h
  | false =>
    rw [held_write hmode] at h
    cases hotherMode : otherMode.isRead with
    | true =>
      rw [held_read hotherMode] at hother
      have hempty := hexcl (by simp [h])
      simp [hempty] at hother
    | false =>
      rw [held_write hotherMode, h] at hother
      exact absurd (Option.some.inj hother) hne

namespace Moves

variable {before remembered : Option AccessType}

theorem exclusive (h : Moves txn latch after before remembered) (hexcl : latch.Exclusive) :
    after.Exclusive := by
  cases h with
  | keep => exact hexcl
  | rename => exact hexcl
  | share hmode hwtr =>
    intro hsome
    exact absurd hwtr hsome
  | exclude hmode hwtr hrdrs =>
    intro _
    exact hrdrs
  | upgrade =>
    intro _
    rfl
  | unlock mode =>
    rw [unlockAs]
    split
    · intro hsome
      simp [unlockShared, hexcl hsome]
    · intro hsome
      exact absurd rfl hsome

theorem of_lock (h : (if mode.isRead then latch.lockShared txn else latch.lock txn) = some after) :
    Moves txn latch after none (some mode) := by
  split at h
  · rename_i hread
    rw [lockShared] at h
    split_ifs at h with hwtr
    cases h
    exact .share hread hwtr
  · rename_i hread
    rw [lock] at h
    split_ifs at h with hfree
    cases h
    exact .exclude (by simpa using hread) hfree.1 hfree.2

theorem of_upgrade {result : PageLatch × Bool} (hwrite : mode.isRead = false)
    (h : latch.tryUpgrade txn .granted = some result) :
    Moves txn latch result.1 (some otherMode) (some mode) := by
  rw [tryUpgrade] at h
  split_ifs at h with hsole
  cases h
  exact .upgrade hwrite hsole.1 hsole.2

theorem held (h : Moves txn latch after before remembered)
    (hpre : ∀ mode, before = some mode → latch.Held txn mode) :
    ∀ mode, remembered = some mode → after.Held txn mode := by
  intro mode hmode
  cases h with
  | keep => exact hpre mode hmode
  | rename hread hwrite =>
    cases hmode
    have hheld := hpre _ rfl
    rw [held_write hread] at hheld
    rwa [held_write hwrite]
  | share hread =>
    cases hmode
    rw [held_read hread]
    exact List.mem_cons_self
  | exclude hwrite =>
    cases hmode
    rw [held_write hwrite]
  | upgrade hwrite =>
    cases hmode
    rw [held_write hwrite]
  | unlock => cases hmode

theorem held_other (h : Moves txn latch after before remembered) (hexcl : latch.Exclusive)
    (hpre : ∀ mode, before = some mode → latch.Held txn mode) (hne : other ≠ txn)
    (hother : latch.Held other otherMode) : after.Held other otherMode := by
  cases h with
  | keep => exact hother
  | rename => exact hother
  | share hmode hwtr =>
    unfold Held at hother ⊢
    split
    · rename_i hread
      rw [if_pos hread] at hother
      exact List.mem_cons_of_mem _ hother
    · rename_i hread
      rw [if_neg hread, hwtr] at hother
      cases hother
  | exclude hmode hwtr hrdrs =>
    unfold Held at hother
    split at hother
    · rw [hrdrs] at hother
      cases hother
    · rw [hwtr] at hother
      cases hother
  | upgrade hmode hwtr hrdrs =>
    unfold Held at hother
    split at hother
    · rw [hrdrs] at hother
      exact absurd (List.mem_singleton.mp hother) hne
    · rw [hwtr] at hother
      cases hother
  | unlock mode =>
    obtain ⟨hotherRead, hread⟩ := hother.reads hexcl (hpre mode rfl) hne
    rw [held_read hotherRead] at hother ⊢
    simp only [unlockAs, hread, if_true, unlockShared]
    exact (List.mem_erase_of_ne hne).mpr hother

end Moves

end PageLatch

def Covered (lockedHandles : ℕ → Option AccessType) (addr : TupleAddr) (write : Bool) : Prop :=
  ∃ mode, lockedHandles addr.pageAddr = some mode ∧ (write = true → mode.isRead = false)

structure Guarded (latches : ℕ → PageLatch) (locked : ℕ → ℕ → Option AccessType) : Prop where
  exclusive : ∀ page, (latches page).Exclusive
  held : ∀ txn page mode, locked txn page = some mode → (latches page).Held txn mode

namespace Guarded

variable {latches : ℕ → PageLatch} {locked after : ℕ → ℕ → Option AccessType} {txn other page : ℕ}
  {latch : PageLatch} {addr otherAddr : TupleAddr} {write otherWrite : Bool}

theorem start : Guarded (fun _ => .free) fun _ _ => none :=
  ⟨fun _ _ => rfl, fun _ _ _ h => by cases h⟩

theorem moves (h : Guarded latches locked) (txn : ℕ)
    (hmoves : (latches page).Moves txn latch (locked txn page) (after txn page))
    (hpages : ∀ other, other ≠ page → after txn other = locked txn other)
    (htxns : ∀ other, other ≠ txn → after other = locked other) :
    Guarded (update latches page latch) after := by
  have hpre : ∀ mode, locked txn page = some mode → (latches page).Held txn mode :=
    h.held txn page
  constructor
  · intro other
    by_cases hother : other = page
    · rw [hother, update_self]
      exact hmoves.exclusive (h.exclusive page)
    · rw [update_of_ne hother]
      exact h.exclusive other
  · intro caller other mode hmode
    by_cases hother : other = page
    · subst hother
      rw [update_self]
      by_cases hcaller : caller = txn
      · subst hcaller
        exact hmoves.held hpre mode hmode
      · rw [htxns caller hcaller] at hmode
        exact hmoves.held_other (h.exclusive other) hpre hcaller (h.held caller other mode hmode)
    · rw [update_of_ne hother]
      by_cases hcaller : caller = txn
      · subst hcaller
        rw [hpages other hother] at hmode
        exact h.held caller other mode hmode
      · rw [htxns caller hcaller] at hmode
        exact h.held caller other mode hmode

theorem reads (h : Guarded latches locked) (hcov : Covered (locked txn) addr write)
    (hother : Covered (locked other) otherAddr otherWrite)
    (hpage : addr.pageAddr = otherAddr.pageAddr) (hne : txn ≠ other) :
    write = false ∧ otherWrite = false := by
  obtain ⟨mode, hmode, hwrite⟩ := hcov
  obtain ⟨otherMode, hotherMode, hotherWrite⟩ := hother
  rw [← hpage] at hotherMode
  obtain ⟨hread, hotherRead⟩ :=
    (h.held _ _ _ hmode).reads (h.exclusive _) (h.held _ _ _ hotherMode) hne
  constructor
  · by_contra hwrites
    rw [hwrite (by simpa using hwrites)] at hread
    cases hread
  · by_contra hwrites
    rw [hotherWrite (by simpa using hwrites)] at hotherRead
    cases hotherRead

theorem writer (h : Guarded latches locked) (hcov : Covered (locked txn) addr true) :
    (latches addr.pageAddr).writer = some txn := by
  obtain ⟨mode, hmode, hwrite⟩ := hcov
  exact (PageLatch.held_write (hwrite rfl)).mp (h.held _ _ _ hmode)

end Guarded

structure Latches (locked : ℕ → Option AccessType) (txn : ℕ) (latch : PageLatch) (page : ℕ)
    (after : PageLatch) (remembered : ℕ → Option AccessType) : Prop where
  moves : latch.Moves txn after (locked page) (remembered page)
  others : ∀ other, other ≠ page → remembered other = locked other
  /-- A page stays covered for writes. -/
  grows : ∀ mode, locked page = some mode →
    ∃ later, remembered page = some later ∧ (mode.isRead = false → later.isRead = false)

namespace Latches

variable {locked remembered : ℕ → Option AccessType} {txn page : ℕ} {latch after : PageLatch}
  {mode old : AccessType}

theorem covered (h : Latches locked txn latch page after remembered) {addr : TupleAddr}
    {write : Bool} (hcov : Covered locked addr write) : Covered remembered addr write := by
  obtain ⟨mode, hmode, hwrite⟩ := hcov
  by_cases hpage : addr.pageAddr = page
  · obtain ⟨later, hlater, hkeeps⟩ := h.grows mode (hpage ▸ hmode)
    exact ⟨later, by rw [hpage]; exact hlater, fun hw => hkeeps (hwrite hw)⟩
  · exact ⟨mode, by rw [h.others _ hpage]; exact hmode, hwrite⟩

theorem keep : Latches locked txn latch page latch locked :=
  ⟨.keep _ _, fun _ _ => rfl, fun mode hmode => ⟨mode, hmode, id⟩⟩

theorem remember (hmoves : latch.Moves txn after (locked page) (some mode))
    (hgrows : ∀ old, locked page = some old → mode.isRead = false) :
    Latches locked txn latch page after (update locked page (some mode)) where
  moves := by rwa [update_self]
  others _ hother := update_of_ne hother _ _
  grows old hold := ⟨mode, update_self _ _ _, fun _ => hgrows old hold⟩

theorem of_lock (hnone : locked page = none)
    (hlock : (if mode.isRead then latch.lockShared txn else latch.lock txn) = some after) :
    Latches locked txn latch page after (update locked page (some mode)) := by
  refine remember ?_ (by simp [hnone])
  rw [hnone]
  exact .of_lock hlock

theorem of_upgrade (hold : locked page = some old) (hwrite : mode.isRead = false)
    {result : PageLatch × Bool} (hupgd : latch.tryUpgrade txn .granted = some result) :
    Latches locked txn latch page result.1 (update locked page (some mode)) := by
  refine remember ?_ fun _ _ => hwrite
  rw [hold]
  exact .of_upgrade hwrite hupgd

end Latches

/-- A tuple in its page: the columns, and the metadata column with the visible flag and, in the
builds that have them, the timestamps. -/
structure Tuple (C : Type) where
  columns : C
  visible : Bool
  rts : ℕ
  wts : ℕ
  deriving DecidableEq, Repr

/-- An entry of the access list (`txn/TxnAccess.h`). -/
structure TupleAccess (C : Type) where
  accessType : AccessType
  addr : TupleAddr
  /-- `txn_local_tuple_`, where the manager takes a copy. -/
  localTuple : Option (Tuple C)
  deriving DecidableEq, Repr

namespace TupleAccess

variable {C : Type}

/-- What `AbortTransaction` does to the tuple of an access. -/
def rollBack (access : TupleAccess C) (tuple : Tuple C) : Tuple C :=
  match access.accessType with
  | .insertOnly => { tuple with visible := false }
  | .readWrite => access.localTuple.getD tuple
  | .deleteOnly => { tuple with visible := true }
  | .readOnly => tuple
  | .scanRead => tuple

/-- `std::map::insert` by the address of the tuple, which keeps the access that is there. -/
def insertSorted (access : TupleAccess C) : List (TupleAccess C) → List (TupleAccess C)
  | [] => [access]
  | head :: tail =>
      if access.addr.before head.addr then access :: head :: tail
      else if access.addr = head.addr then head :: tail
      else head :: insertSorted access tail

/-- `sorted_access`. -/
def sorted (accessList : List (TupleAccess C)) : List (TupleAccess C) :=
  accessList.foldl (fun sorted access => insertSorted access sorted) []

end TupleAccess

end MemoryEngine.Txn
