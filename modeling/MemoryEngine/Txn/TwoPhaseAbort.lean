import Mathlib.Data.List.DropRight
import MemoryEngine.Txn.TwoPhaseSteps
import MemoryEngine.Txn.UndoImages

/-! What `AbortTransaction` of the 2PL manager restores.

The manager takes an undo image at every `READ_WRITE` access and copies the images back in the
order of the accesses, so the last one of a tuple stays.  It unlocks each page in the mode that it
remembers, which is not the mode of its latch where an upgrade was refused. -/
namespace MemoryEngine.Txn

namespace TwoPhase

open TupleAccess List Function

variable {C : Type} {s middle after : System C} {event : Event C} {calls : List (Event C)}
  {txn page : ℕ} {addr : TupleAddr}

def System.Unlatched (s : System C) (txn : ℕ) : Prop :=
  ∀ page, txn ∉ (s.latches page).readers ∧ (s.latches page).writer ≠ some txn

structure System.Idle (s : System C) (txn : ℕ) : Prop where
  manager : s.managers txn = .start
  unlatched : s.Unlatched txn

def Event.call (txn : ℕ) : Event C → Bool
  | .select caller _ accessType _ =>
      caller = txn && (accessType = .readOnly || accessType = .readWrite)
  | .read caller _ => caller = txn
  | .write caller _ _ => caller = txn
  | _ => false

/-- A step of the roll back and the unlocks. -/
def Event.closing (txn : ℕ) : Event C → Bool
  | .undo caller => caller = txn
  | .release caller _ => caller = txn
  | _ => false

def Event.readWrites (addr : TupleAddr) : Event C → Bool
  | .select _ other .readWrite _ => other = addr
  | _ => false

/-- The calls before the last `READ_WRITE` access to the tuple, and all calls when there is
none. -/
def unprotected (addr : TupleAddr) (calls : List (Event C)) : List (Event C) :=
  if calls.any (Event.readWrites addr) then
    (calls.rdropWhile fun event => !event.readWrites addr).dropLast
  else calls

def System.refusesUpgrade (s : System C) : Event C → Bool
  | .select txn addr accessType .refused =>
      match (s.managers txn).lockedHandles addr.pageAddr with
      | some mode => mode.isRead && !accessType.isRead
      | none => false
  | _ => false

/-- Some upgrade of the calls leaves the shared latch in place. -/
def System.upgradeRefused (s : System C) : List (Event C) → Bool
  | [] => false
  | event :: calls =>
      s.refusesUpgrade event ||
        match s.step event with
        | some next => next.upgradeRefused calls
        | none => false

/-- `AbortTransaction` from its start to its end. -/
def System.abortTransaction (s : System C) (txn : ℕ) : System C :=
  let manager := s.managers txn
  { s with
    tuples := rollBackAll manager.accessList s.tuples
    latches := fun page =>
      match manager.lockedHandles page with
      | some accessType => (s.latches page).unlockAs txn accessType
      | none => s.latches page
    managers := update s.managers txn
      { manager with lockedHandles := fun _ => none, stage := .release false } }

theorem unprotected_append (addr : TupleAddr) (calls : List (Event C)) (event : Event C) :
    unprotected addr (calls ++ [event]) =
      if event.readWrites addr then calls
      else if calls.any (Event.readWrites addr) then unprotected addr calls
      else calls ++ [event] := by
  unfold unprotected
  by_cases hlast : event.readWrites addr = true
  · rw [rdropWhile_concat_neg _ _ _ (by simpa using hlast)]
    simp [hlast]
  · rw [rdropWhile_concat_pos _ _ _ (by simpa using hlast)]
    by_cases hany : calls.any (Event.readWrites addr) = true
    · simp only [any_append, hany, Bool.true_or, if_true, hlast, Bool.false_eq_true, if_false]
    · simp [hlast, hany]

variable {latch : PageLatch} {manager : Manager C}

variable {result : PageLatch × Manager C × Bool}

theorem Manager.selectLatch_spec {accessType : AccessType}
    {answer : LatchAnswer}
    (hlatch : manager.selectLatch txn latch page accessType answer = some result) :
    result.2.1.accessList = manager.accessList ∧ result.2.1.stage = manager.stage ∧
      (result.2.2 = true → ∀ other, manager.lockedHandles other ≠ none ∨ other = page →
        result.2.1.lockedHandles other ≠ none) ∧
      (result.2.2 = false → result.2.1 = manager ∧ manager.lockedHandles page = none) := by
  have hremember : ∀ other, manager.lockedHandles other ≠ none ∨ other = page →
      (manager.remember page accessType).lockedHandles other ≠ none := by
    intro other hother
    by_cases hpage : other = page
    · simp [hpage]
    · rw [(Manager.relatched_remember manager page accessType).others other hpage]
      exact hother.resolve_right hpage
  unfold Manager.selectLatch at hlatch
  split at hlatch
  case h_1 hnone =>
    cases answer with
    | granted =>
      obtain ⟨locked, -, rfl⟩ := Option.map_eq_some_iff.mp hlatch
      exact ⟨rfl, rfl, fun _ => hremember, by simp⟩
    | refused =>
      simp only at hlatch
      split_ifs at hlatch
      cases hlatch
      exact ⟨rfl, rfl, by simp, fun _ => ⟨rfl, hnone⟩⟩
    | lost => cases hlatch
  case h_2 mode hmode =>
    split_ifs at hlatch
    · obtain ⟨upgraded, -, rfl⟩ := Option.map_eq_some_iff.mp hlatch
      exact ⟨rfl, rfl, fun _ => hremember, by simp⟩
    · cases hlatch
      refine ⟨rfl, rfl, ?_, by simp⟩
      rintro - other (hother | rfl)
      · exact hother
      · simp [hmode]

inductive System.Called (s : System C) (txn : ℕ) : Event C → System C → Prop where
  | access (addr : TupleAddr) (accessType : AccessType) (answer : LatchAnswer) {next : System C}
      (htype : accessType = .readOnly ∨ accessType = .readWrite)
      (hlist : (next.managers txn).accessList = (s.managers txn).accessList ++
        [⟨accessType, addr, if accessType = .readWrite then some (s.tuples addr) else none⟩])
      (htups : next.tuples = s.tuples)
      (hlock : ∀ page, (s.managers txn).lockedHandles page ≠ none ∨ page = addr.pageAddr →
        (next.managers txn).lockedHandles page ≠ none) :
      Called s txn (.select txn addr accessType answer) next
  | refused (addr : TupleAddr) (accessType : AccessType) (answer : LatchAnswer) {next : System C}
      (hlist : (next.managers txn).accessList = (s.managers txn).accessList)
      (htups : next.tuples = s.tuples)
      (hlock : (next.managers txn).lockedHandles = (s.managers txn).lockedHandles)
      (hpage : (s.managers txn).lockedHandles addr.pageAddr = none)
      (hstage : (next.managers txn).stage ≠ .execute) :
      Called s txn (.select txn addr accessType answer) next
  | client (event : Event C) {next : System C} (hreadWrites : ∀ addr, event.readWrites addr = false)
      (hmgr : next.managers = s.managers) : Called s txn event next

theorem System.called (hcall : event.call txn = true) (hstep : s.step event = some after) :
    s.Called txn event after ∧ (s.managers txn).stage = .execute := by
  cases System.step_cases hstep with
  | select caller addr accessType answer latch manager hexec hlatch =>
    obtain ⟨rfl, htype⟩ : caller = txn ∧ (accessType = .readOnly ∨ accessType = .readWrite) := by
      simpa [Event.call] using hcall
    obtain ⟨hlist, hstage, hlock, -⟩ := Manager.selectLatch_spec hlatch
    have hdel : accessType ≠ .deleteOnly := by
      rcases htype with rfl | rfl <;> simp
    rw [System.newRecord, if_neg hdel]
    refine ⟨.access addr accessType answer htype ?_ rfl ?_, hexec⟩
    · simp only [System.setManager, update_self, Manager.newAccess]
      rw [← hlist]
      rfl
    · simpa [System.setManager, Manager.newAccess] using hlock rfl
  | selectRefused caller addr accessType answer latch manager hexec hlatch =>
    obtain ⟨rfl, htype⟩ : caller = txn ∧ (accessType = .readOnly ∨ accessType = .readWrite) := by
      simpa [Event.call] using hcall
    obtain ⟨-, -, -, hrefused⟩ := Manager.selectLatch_spec hlatch
    obtain ⟨hmgr, hpage⟩ := hrefused rfl
    simp only at hmgr
    subst hmgr
    refine ⟨.refused addr accessType answer ?_ rfl ?_ hpage ?_, hexec⟩
    · simp [System.setManager, Manager.abortTransaction]
    · simp [System.setManager, Manager.abortTransaction]
    · simp [System.setManager, Manager.abortTransaction]
  | read caller index access hrec =>
    obtain rfl : caller = txn := by simpa [Event.call] using hcall
    exact ⟨.client _ (fun _ => rfl) rfl, (System.record?_eq hrec).1⟩
  | write caller index columns access hrec =>
    obtain rfl : caller = txn := by simpa [Event.call] using hcall
    exact ⟨.client _ (fun _ => rfl) rfl, (System.record?_eq hrec).1⟩
  | _ => simp [Event.call] at hcall

structure System.Tracked (s : System C) (txn : ℕ) (calls : List (Event C)) (middle : System C) :
    Prop where
  undoable : ∀ access ∈ (middle.managers txn).accessList, access.Undoable
  locked : ∀ access ∈ (middle.managers txn).accessList,
    (middle.managers txn).lockedHandles access.addr.pageAddr ≠ none
  images : (middle.managers txn).stage = .execute → ∀ addr,
    (lastImage (middle.managers txn).accessList addr).isSome = calls.any (Event.readWrites addr)
  columns : ∀ addr, ((unprotected addr calls).foldlM System.step s).map
      (fun before => (before.tuples addr).columns) =
    some ((lastImage (middle.managers txn).accessList addr).getD (middle.tuples addr)).columns

namespace System.Tracked

theorem start (hidle : s.Idle txn) : s.Tracked txn [] s where
  undoable _ h := by
    rw [hidle.manager] at h
    cases h
  locked _ h := by
    rw [hidle.manager] at h
    cases h
  images _ addr := by
    rw [hidle.manager]
    rfl
  columns addr := by
    rw [hidle.manager]
    rfl

theorem columns_other {next : System C} (h : s.Tracked txn calls middle)
    (hexec : (middle.managers txn).stage = .execute)
    (hplay : (calls ++ [event]).foldlM System.step s = some next)
    (hlast : event.readWrites addr = false) (hlist : lastImage (next.managers txn).accessList addr =
      lastImage (middle.managers txn).accessList addr) :
    ((unprotected addr (calls ++ [event])).foldlM System.step s).map
        (fun before => (before.tuples addr).columns) =
      some ((lastImage (next.managers txn).accessList addr).getD (next.tuples addr)).columns := by
  have himages := h.images hexec addr
  rw [unprotected_append, hlast, if_neg Bool.false_ne_true, hlist]
  by_cases hany : calls.any (Event.readWrites addr) = true
  · rw [if_pos hany, h.columns addr]
    rw [hany] at himages
    obtain ⟨image, himage⟩ := Option.isSome_iff_exists.mp himages
    rw [himage]
    rfl
  · rw [if_neg hany, hplay]
    rw [Bool.not_eq_true] at hany
    rw [hany] at himages
    rw [Option.isSome_eq_false_iff.mp himages |> Option.isNone_iff_eq_none.mp]
    rfl

theorem step {next : System C} (h : s.Tracked txn calls middle)
    (hplay : calls.foldlM System.step s = some middle) (hcall : event.call txn = true)
    (hstep : middle.step event = some next) : s.Tracked txn (calls ++ [event]) next := by
  have hnext : (calls ++ [event]).foldlM System.step s = some next := by
    rw [foldlM_append, hplay]
    simpa using hstep
  obtain ⟨hcalled, hexec⟩ := System.called hcall hstep
  cases hcalled with
  | access addr accessType answer htype hlist htups hlock =>
    have hrw : ∀ other, (Event.select txn addr accessType answer : Event C).readWrites other =
        decide (accessType = .readWrite ∧ addr = other) := by
      intro other
      rcases htype with rfl | rfl <;> simp [Event.readWrites]
    constructor
    · rw [hlist]
      exact undoable_append h.undoable htype
    · intro access hacc
      rw [hlist] at hacc
      rcases mem_append.mp hacc with hacc | hacc
      · exact hlock _ (.inl (h.locked access hacc))
      · rw [mem_singleton.mp hacc]
        exact hlock _ (.inr rfl)
    · intro _ other
      rw [hlist, lastImage_append, any_append, ← h.images hexec other]
      by_cases hlast : accessType = .readWrite ∧ addr = other
      · rw [if_pos hlast, if_pos hlast.1, any_cons, hrw, decide_eq_true hlast]
        simp
      · rw [if_neg hlast, any_cons, hrw, decide_eq_false hlast]
        simp
    · intro other
      by_cases hlast : accessType = .readWrite ∧ addr = other
      · rw [unprotected_append, if_pos ((hrw other).trans (decide_eq_true hlast)), hplay, hlist,
          lastImage_append, if_pos hlast, if_pos hlast.1, hlast.2]
        rfl
      · refine h.columns_other hexec hnext ((hrw other).trans (decide_eq_false hlast)) ?_
        rw [hlist, lastImage_append, if_neg hlast]
  | refused addr accessType answer hlist htups hlock hpage hstage =>
    constructor
    · rw [hlist]
      exact h.undoable
    · rw [hlist, hlock]
      exact h.locked
    · intro hrng
      exact absurd hrng hstage
    · intro other
      by_cases hlast : (Event.select txn addr accessType answer : Event C).readWrites other = true
      · -- the tuple has not been accessed, since its page was not latched
        have hother : addr = other := by
          cases accessType <;> simp_all [Event.readWrites]
        subst hother
        rw [unprotected_append, if_pos hlast, hplay, hlist, htups,
          lastImage_eq_none fun access hacc heq => h.locked access hacc (heq ▸ hpage)]
        rfl
      · exact h.columns_other hexec hnext (by simpa using hlast) (by rw [hlist])
  | client _ hreadWrites hmgr =>
    constructor
    · rw [hmgr]
      exact h.undoable
    · rw [hmgr]
      exact h.locked
    · intro _ other
      rw [hmgr, h.images hexec other]
      simp [hreadWrites]
    · intro other
      exact h.columns_other hexec hnext (hreadWrites other) (by rw [hmgr])

end System.Tracked

theorem System.tracked (hidle : s.Idle txn) (hcalls : ∀ event ∈ calls, event.call txn = true)
    (hplay : calls.foldlM System.step s = some middle) : s.Tracked txn calls middle := by
  refine TransitionSystem.foldlM_invariant hplay (.start hidle) ?_
  intro before event _ _ hpre htrack hmem hstep
  exact htrack.step hpre (hcalls event hmem) hstep

/-- The latch of a page as its transaction remembers it, except that a page remembered for writing
may be latched in any way. -/
def Owned (latch : PageLatch) (txn : ℕ) : Option AccessType → Prop
  | none => txn ∉ latch.readers ∧ latch.writer ≠ some txn
  | some mode => mode.isRead = true → latch.readers.count txn = 1 ∧ latch.writer ≠ some txn

def Stuck (latch : PageLatch) (txn : ℕ) (mode : Option AccessType) : Prop :=
  ∃ write, mode = some write ∧ write.isRead = false ∧ txn ∈ latch.readers

theorem not_stuck_none (latch : PageLatch) : ¬ Stuck latch txn none := by
  rintro ⟨_, hnone, -⟩
  cases hnone

theorem not_stuck_read {mode : AccessType} (hread : mode.isRead = true) :
    ¬ Stuck latch txn (some mode) := by
  rintro ⟨_, hmode, hwrite, -⟩
  cases hmode
  rw [hread] at hwrite
  cases hwrite

theorem Manager.selectLatch_owned
    {accessType : AccessType} {answer : LatchAnswer}
    (howned : Owned latch txn (manager.lockedHandles page))
    (hlatch : manager.selectLatch txn latch page accessType answer = some result) :
    Owned result.1 txn (result.2.1.lockedHandles page) ∧
      manager.Relatched result.2.1 page ∧
      (Stuck result.1 txn (result.2.1.lockedHandles page) ↔
        Stuck latch txn (manager.lockedHandles page) ∨
          ∃ mode, manager.lockedHandles page = some mode ∧ mode.isRead = true ∧
            accessType.isRead = false ∧ answer = .refused) := by
  unfold Manager.selectLatch at hlatch
  split at hlatch
  case h_1 hnone =>
    rw [hnone] at howned
    simp only [hnone, not_stuck_none, reduceCtorEq, false_and, exists_false, or_false, iff_false]
    cases answer with
    | granted =>
      obtain ⟨locked, hlock, rfl⟩ := Option.map_eq_some_iff.mp hlatch
      refine ⟨?_, Manager.relatched_remember _ _ _, ?_⟩
      · rw [Manager.remember_lockedHandles]
        intro hread
        rw [if_pos hread, PageLatch.lockShared] at hlock
        split_ifs at hlock with hwtr
        cases hlock
        simp [count_eq_zero_of_not_mem howned.1, hwtr]
      · rw [Manager.remember_lockedHandles]
        rintro ⟨write, hmode, hwrite, hrdr⟩
        cases hmode
        rw [if_neg (by simp [hwrite]), PageLatch.lock] at hlock
        split_ifs at hlock with hfree
        cases hlock
        exact howned.1 hrdr
    | refused =>
      simp only at hlatch
      split_ifs at hlatch
      cases hlatch
      simp only [hnone]
      exact ⟨howned, .refl _ _, not_stuck_none _⟩
    | lost => cases hlatch
  case h_2 mode hmode =>
    split_ifs at hlatch with hupgr
    · obtain ⟨hread, hwrite⟩ : mode.isRead = true ∧ accessType.isRead = false := by
        simpa using hupgr
      rw [hmode] at howned
      obtain ⟨hcount, -⟩ := howned hread
      obtain ⟨upgraded, hupgd, rfl⟩ := Option.map_eq_some_iff.mp hlatch
      refine ⟨?_, Manager.relatched_remember _ _ _, ?_⟩
      · rw [Manager.remember_lockedHandles]
        intro habsurd
        rw [hwrite] at habsurd
        cases habsurd
      · rw [Manager.remember_lockedHandles, hmode]
        have hstuck : Stuck upgraded.1 txn (some accessType) ↔ txn ∈ upgraded.1.readers := by
          simp [Stuck, hwrite]
        rw [hstuck]
        simp only [not_stuck_read hread, false_or]
        have hone : (∃ other, some mode = some other ∧ other.isRead = true ∧
            accessType.isRead = false ∧ answer = .refused) ↔ answer = .refused := by
          simp [hread, hwrite]
        rw [hone]
        cases answer with
        | granted =>
          rw [PageLatch.tryUpgrade] at hupgd
          split_ifs at hupgd
          cases hupgd
          simp
        | refused =>
          cases hupgd
          simp [← count_pos_iff, hcount]
        | lost =>
          cases hupgd
          simp [← count_pos_iff, hcount]
    · cases hlatch
      refine ⟨howned, .refl _ _, ?_⟩
      constructor
      · exact .inl
      · rintro (hstuck | ⟨other, hother, hread, hwrite, -⟩)
        · exact hstuck
        · rw [hmode] at hother
          cases hother
          simp [hread, hwrite] at hupgr

def System.blank : System ℕ := .start (fun _ => ⟨0, true, 0, 0⟩) fun _ => true

theorem System.idle_blank (txn : ℕ) : System.blank.Idle txn :=
  ⟨rfl, fun _ => ⟨by simp [blank, start, PageLatch.free], by simp [blank, start, PageLatch.free]⟩⟩

def written : List (Event ℕ) := [.select 0 ⟨0, 8⟩ .readWrite .granted, .write 0 0 7]

def selectedAgain : List (Event ℕ) :=
  [.select 0 ⟨0, 8⟩ .readWrite .granted, .write 0 0 7, .select 0 ⟨0, 8⟩ .readWrite .granted]

namespace System

def Owns (s : System C) (txn : ℕ) : Prop :=
  ∀ page, Owned (s.latches page) txn ((s.managers txn).lockedHandles page)

def Jammed (s : System C) (txn : ℕ) : Prop :=
  ∃ page, Stuck (s.latches page) txn ((s.managers txn).lockedHandles page)

theorem refusesUpgrade_select (addr : TupleAddr) (accessType : AccessType) (answer : LatchAnswer) :
    s.refusesUpgrade (.select txn addr accessType answer) = true ↔
      ∃ mode, (s.managers txn).lockedHandles addr.pageAddr = some mode ∧ mode.isRead = true ∧
        accessType.isRead = false ∧ answer = .refused := by
  cases answer <;> cases hmode : (s.managers txn).lockedHandles addr.pageAddr <;>
    simp [refusesUpgrade, hmode]

theorem owns_of_relatch (howns : s.Owns txn)
    (hlats : after.latches = update s.latches page latch)
    (hlock : (after.managers txn).lockedHandles = manager.lockedHandles)
    (hrelat : (s.managers txn).Relatched manager page)
    (howned : Owned latch txn (manager.lockedHandles page)) : after.Owns txn := by
  intro other
  rw [hlats, hlock]
  by_cases hother : other = page
  · rw [hother, update_self]
    exact howned
  · rw [update_of_ne hother, hrelat.others other hother]
    exact howns other

theorem jammed_of_relatch {refused : Prop}
    (hlats : after.latches = update s.latches page latch)
    (hlock : (after.managers txn).lockedHandles = manager.lockedHandles)
    (hrelat : (s.managers txn).Relatched manager page)
    (hstuck : Stuck latch txn (manager.lockedHandles page) ↔
      Stuck (s.latches page) txn ((s.managers txn).lockedHandles page) ∨ refused) :
    after.Jammed txn ↔ s.Jammed txn ∨ refused := by
  constructor
  · rintro ⟨other, hother⟩
    rw [hlats, hlock] at hother
    by_cases heq : other = page
    · rw [heq, update_self] at hother
      exact (hstuck.mp hother).imp (fun h => ⟨page, h⟩) id
    · rw [update_of_ne heq, hrelat.others other heq] at hother
      exact .inl ⟨other, hother⟩
  · intro h
    by_cases hpage : Stuck latch txn (manager.lockedHandles page)
    · refine ⟨page, ?_⟩
      rw [hlats, hlock, update_self]
      exact hpage
    · rcases h with ⟨other, hother⟩ | hrefused
      · have heq : other ≠ page := by
          rintro rfl
          exact hpage (hstuck.mpr (.inl hother))
        refine ⟨other, ?_⟩
        rw [hlats, hlock, update_of_ne heq, hrelat.others other heq]
        exact hother
      · exact absurd (hstuck.mpr (.inr hrefused)) hpage

theorem owns_step (howns : s.Owns txn) (hcall : event.call txn = true)
    (hstep : s.step event = some after) :
    after.Owns txn ∧ (after.Jammed txn ↔ s.Jammed txn ∨ s.refusesUpgrade event = true) := by
  cases step_cases hstep with
  | select caller addr accessType answer latch manager hexec hlatch =>
    obtain ⟨rfl, htype⟩ : caller = txn ∧ (accessType = .readOnly ∨ accessType = .readWrite) := by
      simpa [Event.call] using hcall
    obtain ⟨howned, hrelat, hstuck⟩ := Manager.selectLatch_owned (howns addr.pageAddr) hlatch
    have hdel : accessType ≠ .deleteOnly := by
      rcases htype with rfl | rfl <;> simp
    rw [newRecord, if_neg hdel, refusesUpgrade_select]
    have hlock : ∀ access, (((s.setLatch addr.pageAddr latch).setManager caller
        (manager.newAccess access)).managers caller).lockedHandles = manager.lockedHandles := by
      simp [setManager, Manager.newAccess]
    exact ⟨owns_of_relatch howns rfl (hlock _) hrelat howned,
      jammed_of_relatch rfl (hlock _) hrelat hstuck⟩
  | selectRefused caller addr accessType answer latch manager hexec hlatch =>
    obtain ⟨rfl, htype⟩ : caller = txn ∧ (accessType = .readOnly ∨ accessType = .readWrite) := by
      simpa [Event.call] using hcall
    obtain ⟨howned, hrelat, hstuck⟩ := Manager.selectLatch_owned (howns addr.pageAddr) hlatch
    rw [refusesUpgrade_select]
    have hlock : (((s.setLatch addr.pageAddr latch).setManager caller
        manager.abortTransaction).managers caller).lockedHandles = manager.lockedHandles := by
      simp [setManager, Manager.abortTransaction]
    exact ⟨owns_of_relatch howns rfl hlock hrelat howned,
      jammed_of_relatch rfl hlock hrelat hstuck⟩
  | read caller index access hrec => exact ⟨howns, by simp [refusesUpgrade]; rfl⟩
  | write caller index columns access hrec => exact ⟨howns, by simp [refusesUpgrade]; rfl⟩
  | _ => simp [Event.call] at hcall

theorem owns_play (howns : s.Owns txn) (hcalls : ∀ event ∈ calls, event.call txn = true)
    (hplay : calls.foldlM System.step s = some middle) :
    middle.Owns txn ∧ (middle.Jammed txn ↔ s.Jammed txn ∨ s.upgradeRefused calls = true) := by
  induction calls generalizing s with
  | nil =>
    cases hplay
    exact ⟨howns, by simp [upgradeRefused]⟩
  | cons event calls ih =>
    obtain ⟨next, hstep, hrest⟩ := Option.bind_eq_some_iff.mp hplay
    obtain ⟨hnext, hjammed⟩ := owns_step howns (hcalls event mem_cons_self) hstep
    obtain ⟨hmid, hlater⟩ :=
      ih hnext (fun other hother => hcalls other (mem_cons_of_mem _ hother)) hrest
    refine ⟨hmid, ?_⟩
    rw [hlater, hjammed, upgradeRefused, hstep, Bool.or_eq_true, or_assoc]

theorem unlatched_abort (howns : s.Owns txn) :
    (s.abortTransaction txn).Unlatched txn ↔ ¬ s.Jammed txn := by
  constructor
  · rintro hunlatched ⟨page, mode, hmode, hwrite, hrdr⟩
    refine (hunlatched page).1 ?_
    simp only [abortTransaction, hmode, PageLatch.unlockAs, hwrite]
    exact hrdr
  · intro hjammed page
    have howned := howns page
    have hstuck : ¬ Stuck (s.latches page) txn ((s.managers txn).lockedHandles page) :=
      fun h => hjammed ⟨page, h⟩
    simp only [abortTransaction]
    cases hmode : (s.managers txn).lockedHandles page with
    | none =>
      rw [hmode] at howned
      exact howned
    | some mode =>
      rw [hmode] at howned hstuck
      cases hread : mode.isRead with
      | true =>
        obtain ⟨hcount, hwtr⟩ := howned hread
        simp only [PageLatch.unlockAs, hread, if_true, PageLatch.unlockShared]
        refine ⟨?_, hwtr⟩
        rw [← count_eq_zero, count_erase_self, hcount]
      | false =>
        simp only [PageLatch.unlockAs, hread, Bool.false_eq_true, if_false, PageLatch.unlock]
        exact ⟨fun hrdr => hstuck ⟨mode, rfl, hread, hrdr⟩, by simp⟩

def remaining (s : System C) (txn : ℕ) : List (TupleAccess C) :=
  match (s.managers txn).stage with
  | .undo pending => pending
  | _ => []

/-- The latch of a page after the unlocks that are still to come. -/
def unlockedLatch (s : System C) (txn page : ℕ) : PageLatch :=
  match (s.managers txn).lockedHandles page with
  | some accessType => (s.latches page).unlockAs txn accessType
  | none => s.latches page

theorem closing_step (hclose : event.closing txn = true) (hstep : s.step event = some after) :
    rollBackAll (after.remaining txn) after.tuples = rollBackAll (s.remaining txn) s.tuples ∧
      ∀ page, after.unlockedLatch txn page = s.unlockedLatch txn page := by
  cases step_cases hstep with
  | undone caller hstage =>
    obtain rfl : caller = txn := by simpa [Event.closing] using hclose
    simp [remaining, unlockedLatch, finish, setManager, hstage]
  | undoRead caller access pending hstage hread =>
    obtain rfl : caller = txn := by simpa [Event.closing] using hclose
    have hkeeps : access.rollBack (s.tuples access.addr) = s.tuples access.addr := by
      obtain ⟨accessType, addr, localTuple⟩ := access
      cases accessType <;> first | rfl | cases hread
    simp [remaining, unlockedLatch, setManager, hstage, hkeeps]
  | undo caller access pending hstage hwrite =>
    obtain rfl : caller = txn := by simpa [Event.closing] using hclose
    simp [remaining, unlockedLatch, setManager, put, hstage]
  | release caller page committed accessType hstage hlock =>
    obtain rfl : caller = txn := by simpa [Event.closing] using hclose
    refine ⟨?_, ?_⟩
    · simp [remaining, setManager, setLatch, Manager.forget, hstage]
    · intro other
      by_cases hother : other = page
      · subst hother
        simp [unlockedLatch, setManager, setLatch, Manager.forget, hlock]
      · simp [unlockedLatch, setManager, setLatch, Manager.forget, hother]
  | _ => simp [Event.closing] at hclose

theorem closing_play {events : List (Event C)}
    (hclose : ∀ event ∈ events, event.closing txn = true)
    (hplay : events.foldlM System.step s = some after) :
    rollBackAll (after.remaining txn) after.tuples = rollBackAll (s.remaining txn) s.tuples ∧
      ∀ page, after.unlockedLatch txn page = s.unlockedLatch txn page := by
  refine @TransitionSystem.foldlM_invariant _ _ _ s (fun _ state => rollBackAll
    (state.remaining txn) state.tuples = rollBackAll (s.remaining txn) s.tuples ∧
    ∀ page, state.unlockedLatch txn page = s.unlockedLatch txn page) _ _ hplay
    ⟨rfl, fun _ => rfl⟩ ?_
  rintro - event _ _ - ⟨htups, hlats⟩ hmem hstep
  obtain ⟨hnext, hnextLatches⟩ := closing_step (hclose event hmem) hstep
  exact ⟨hnext.trans htups, fun page => (hnextLatches page).trans (hlats page)⟩

/-- The steps of the roll back and the unlocks end with the result of `abortTransaction`. -/
theorem abortTransaction_of_closing {events : List (Event C)}
    (hstage : (s.managers txn).stage = .undo (s.managers txn).accessList)
    (hclose : ∀ event ∈ events, event.closing txn = true)
    (hplay : events.foldlM System.step s = some after)
    (hdone : (after.managers txn).stage = .release false)
    (hunlocked : ∀ page, (after.managers txn).lockedHandles page = none) :
    after.tuples = (s.abortTransaction txn).tuples ∧
      after.latches = (s.abortTransaction txn).latches := by
  obtain ⟨htups, hlats⟩ := closing_play hclose hplay
  constructor
  · simpa [remaining, hstage, hdone, abortTransaction] using htups
  · funext page
    simpa [unlockedLatch, hunlocked, abortTransaction] using hlats page

theorem abortTransaction_of_closing_written : ∃ s after : System ℕ,
    (written ++ [Event.abort 0]).foldlM step .blank = some s ∧
      [.undo 0, .undo 0, .release 0 0].foldlM step s = some after ∧
      after.tuples = (s.abortTransaction 0).tuples ∧
      after.latches = (s.abortTransaction 0).latches := by
  have hclose : ∀ event ∈ ([.undo 0, .undo 0, .release 0 0] : List (Event ℕ)),
      event.closing 0 = true := by
    decide
  refine ⟨_, _, rfl, rfl, abortTransaction_of_closing rfl hclose rfl rfl ?_⟩
  intro page
  cases page <;> rfl

theorem Idle.owns (h : s.Idle txn) : s.Owns txn := by
  intro page
  rw [h.manager]
  exact h.unlatched page

theorem Idle.not_jammed (h : s.Idle txn) : ¬ s.Jammed txn := by
  rintro ⟨page, hstuck⟩
  rw [h.manager] at hstuck
  exact not_stuck_none _ hstuck

/-- Before the last `READ_WRITE` access to each tuple, or before the abort where there is none, the
columns are those before the transaction. -/
def RestoredBy (s : System C) (calls : List (Event C)) : Prop :=
  ∀ addr, ((unprotected addr calls).foldlM System.step s).map
    (fun before => (before.tuples addr).columns) = some (s.tuples addr).columns

/-- An abort after some calls restores the columns and gives back the latches exactly when the
images that stay are clean and no upgrade was refused. -/
theorem restores_iff (hidle : s.Idle txn) (hcalls : ∀ event ∈ calls, event.call txn = true)
    (hplay : calls.foldlM System.step s = some middle) :
    ((∀ addr, ((middle.abortTransaction txn).tuples addr).columns = (s.tuples addr).columns) ↔
        s.RestoredBy calls) ∧
      ((middle.abortTransaction txn).Unlatched txn ↔ s.upgradeRefused calls = false) := by
  have htrack := tracked hidle hcalls hplay
  obtain ⟨howns, hjammed⟩ := owns_play hidle.owns hcalls hplay
  constructor
  · refine forall_congr' fun addr => ?_
    rw [htrack.columns addr, Option.some.injEq]
    exact Eq.congr_left (congrArg Tuple.columns (rollBackAll_eq htrack.undoable _ addr))
  · rw [unlatched_abort howns, hjammed]
    simp [hidle.not_jammed]

end System

end TwoPhase

end MemoryEngine.Txn
