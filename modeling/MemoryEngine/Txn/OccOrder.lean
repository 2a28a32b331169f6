import MemoryEngine.Txn.OccSteps

/-! Serializability of the OCC manager.

A transaction that passes the validation has the latches of all its tuples and finds the write
timestamps that it read.  As long as every commit timestamp is larger than the timestamps that it
replaces, an equal timestamp means that nobody has written the tuple since, and the order in which
the transactions pass the validation is a serial order.  The counters of the nodes are not
synchronized, so a write of one node can lower a timestamp and go unnoticed. -/
namespace MemoryEngine.Txn

namespace TupleAccess

variable {C : Type} {accessList : List (TupleAccess C)} {access : TupleAccess C}

theorem find?_of_nodup (h : (accessList.map addr).Nodup) (hmem : access ∈ accessList) :
    accessList.find? (fun entry => entry.addr = access.addr) = some access := by
  induction accessList with
  | nil => cases hmem
  | cons head tail ih =>
    obtain ⟨hhead, htail⟩ := List.nodup_cons.mp h
    rcases List.mem_cons.mp hmem with rfl | hmem
    · simp
    · have hne : head.addr ≠ access.addr := by
        intro heq
        exact hhead (heq ▸ List.mem_map_of_mem hmem)
      rw [List.find?_cons_of_neg (by simpa using hne)]
      exact ih htail hmem

theorem mem_sorted (h : (accessList.map addr).Nodup) (hmem : access ∈ accessList) :
    access ∈ sorted accessList := by
  have hfind := find?_of_nodup h hmem
  rw [← find?_sorted] at hfind
  exact List.mem_of_find?_eq_some hfind

end TupleAccess

namespace Occ

open Serializability List Function

variable {C : Type} {s after : System C} {event : Event C} {manager : Manager C}
  {txn other page : ℕ} {addr : TupleAddr} {tuples : TupleAddr → Tuple C}
  {occupied : TupleAddr → Bool}
  {history : List (Op ℕ TupleAddr)} {validated : List ℕ} {access : TupleAccess C}
  {pending : List (TupleAccess C)} {commitTs : ℕ} {op : Op ℕ TupleAddr}

/-- No conflicting operation follows one of the transaction on the tuple. -/
def Unwritten (history : List (Op ℕ TupleAddr)) (txn : ℕ) (addr : TupleAddr) : Prop :=
  history.Pairwise fun first second =>
    first.txn = txn → first.item = addr → ¬ first.Conflicts second

theorem Unwritten.append (h : Unwritten history txn addr)
    (hlast : ∀ first ∈ history, first.txn = txn → first.item = addr → ¬ first.Conflicts op) :
    Unwritten (history ++ [op]) txn addr := by
  refine pairwise_append.mpr ⟨h, pairwise_singleton _ _, ?_⟩
  intro first hfirst second hsnd
  rw [mem_singleton.mp hsnd]
  exact hlast first hfirst

theorem unwritten_of_absent (h : ∀ op ∈ history, op.txn = txn → op.item ≠ addr) :
    Unwritten history txn addr := by
  refine List.Pairwise.imp_of_mem ?_ (pairwise_of_forall (R := fun _ _ => True) (by simp))
  intro first second hfirst _ _ htxn hitem
  exact absurd hitem (h first hfirst htxn)

/-- A transaction in the validation: the accesses that are done are latched and unchanged. -/
structure Validating (tuples : TupleAddr → Tuple C) (manager : Manager C) (commitTs : ℕ)
    (pending : List (TupleAccess C)) : Prop where
  mem : ∀ access ∈ pending, access ∈ manager.accessList
  done : ∀ access ∈ manager.accessList, access ∉ pending →
    Covered manager.lockedHandles access.addr (!access.accessType.isRead) ∧
      (tuples access.addr).wts = access.localWts
  ahead : ∀ access ∈ manager.accessList, access.accessType.isRead = false →
    access.localWts < commitTs

/-- A transaction that writes its tuples: all its accesses are latched and nobody has written the
tuples since it read them, and a tuple that it will write was touched only by transactions before
it in the order. -/
structure Installing (tuples : TupleAddr → Tuple C) (history : List (Op ℕ TupleAddr))
    (validated : List ℕ) (txn : ℕ) (manager : Manager C) (commitTs : ℕ)
    (pending : List (TupleAccess C)) : Prop where
  covered : ∀ access ∈ manager.accessList,
    Covered manager.lockedHandles access.addr (!access.accessType.isRead)
  unwritten : ∀ access ∈ manager.accessList, Unwritten history txn access.addr
  distinct : (pending.map TupleAccess.addr).Nodup
  mem : ∀ access ∈ pending, access ∈ manager.accessList
  older : ∀ access ∈ pending, access.accessType.isRead = false →
    (tuples access.addr).wts < commitTs
  ordered : ∀ access ∈ pending, access.accessType.isRead = false → ∀ op ∈ history,
    op.item = access.addr → op.txn ≠ txn → op.txn ∈ validated →
      [op.txn, txn].Sublist validated

structure TxnInv (tuples : TupleAddr → Tuple C) (occupied : TupleAddr → Bool)
    (history : List (Op ℕ TupleAddr)) (validated : List ℕ) (txn : ℕ) (manager : Manager C) :
    Prop where
  occupied : ∀ access ∈ manager.accessList, occupied access.addr = true
  distinct : (manager.accessList.map TupleAccess.addr).Nodup
  kinds : ∀ access ∈ manager.accessList, access.accessType ≠ .deleteOnly
  fresh : txn ∉ validated → (∀ committed, manager.stage ≠ .release committed) →
    ∀ access ∈ manager.accessList, access.localWts ≤ (tuples access.addr).wts ∧
      ((tuples access.addr).wts = access.localWts → Unwritten history txn access.addr)
  validating : ∀ commitTs pending, manager.stage = .validate commitTs pending →
    Validating tuples manager commitTs pending
  installing : ∀ commitTs pending, manager.stage = .install commitTs pending →
    Installing tuples history validated txn manager commitTs pending
  passed : txn ∈ validated ↔
    (∃ commitTs pending, manager.stage = .install commitTs pending) ∨ manager.stage = .release true

namespace TxnInv

theorem start : TxnInv tuples occupied [] [] txn (Manager.start : Manager C) where
  occupied _ h := by cases h
  distinct := .nil
  kinds _ h := by cases h
  fresh _ _ _ h := by cases h
  validating _ _ h := by cases h
  installing _ _ h := by cases h
  passed := by simp [Manager.start]

section

variable (h : TxnInv tuples occupied history validated txn manager)
include h

theorem not_validated_of_execute (hstage : manager.stage = .execute) : txn ∉ validated := by
  rw [h.passed, hstage]
  simp

theorem not_validated_of_validate
    (hstage : manager.stage = .validate commitTs pending) : txn ∉ validated := by
  rw [h.passed, hstage]
  simp

theorem logRead (hquiet : (∀ committed, manager.stage ≠ .release committed) → ∀ first ∈ history,
      first.txn = txn → ¬ first.Conflicts op) (hop : op.txn ∉ validated) :
    TxnInv tuples occupied (history ++ [op]) validated txn manager where
  __ := h
  fresh hval hstage access hacc := by
    obtain ⟨hle, hunwr⟩ := h.fresh hval hstage access hacc
    refine ⟨hle, fun heq => (hunwr heq).append ?_⟩
    intro first hfirst htxn _
    exact hquiet hstage first hfirst htxn
  installing commitTs pending hstage := by
    have hinst := h.installing commitTs pending hstage
    refine { hinst with unwritten := ?_, ordered := ?_ }
    · intro access hacc
      refine (hinst.unwritten access hacc).append ?_
      intro first hfirst htxn _
      exact hquiet (by simp [hstage]) first hfirst htxn
    · intro access hacc hwrite first hfirst hitem hne hmem
      rcases mem_append.mp hfirst with hfirst | hfirst
      · exact hinst.ordered access hacc hwrite first hfirst hitem hne hmem
      · rw [mem_singleton.mp hfirst] at hmem
        exact absurd hmem hop

theorem allocate (hfree : occupied addr = false) (tuple : Tuple C) :
    TxnInv (update tuples addr tuple) (update occupied addr true) history validated
      txn manager := by
  have hne : ∀ access ∈ manager.accessList, access.addr ≠ addr := by
    rintro access hacc rfl
    have hocc := h.occupied access hacc
    rw [hfree] at hocc
    cases hocc
  have hsame : ∀ access ∈ manager.accessList,
      update tuples addr tuple access.addr = tuples access.addr :=
    fun access hacc => update_of_ne (hne access hacc) _ _
  refine ⟨?_, h.distinct, h.kinds, ?_, ?_, ?_, h.passed⟩
  · intro access hacc
    rw [update_of_ne (hne access hacc)]
    exact h.occupied access hacc
  · intro hval hstage access hacc
    rw [hsame access hacc]
    exact h.fresh hval hstage access hacc
  · intro commitTs pending hstage
    have hvalidating := h.validating commitTs pending hstage
    refine ⟨hvalidating.mem, ?_, hvalidating.ahead⟩
    intro access hacc hdone
    rw [hsame access hacc]
    exact hvalidating.done access hacc hdone
  · intro commitTs pending hstage
    have hinst := h.installing commitTs pending hstage
    refine { hinst with older := ?_ }
    intro access hacc hwrite
    rw [hsame access (hinst.mem access hacc)]
    exact hinst.older access hacc hwrite

theorem newAccess (hexec : manager.stage = .execute) (hocc : occupied access.addr = true)
    (honce : ∀ other ∈ manager.accessList, other.addr ≠ access.addr)
    (hkind : access.accessType ≠ .deleteOnly) (hwts : access.localWts = (tuples access.addr).wts)
    (habs : ∀ op ∈ history, op.txn = txn → op.item ≠ access.addr) :
    TxnInv tuples occupied history validated txn (manager.newAccess access) where
  occupied other hother := by
    rcases mem_append.mp hother with hother | hother
    · exact h.occupied other hother
    · rw [mem_singleton.mp hother]
      exact hocc
  distinct := by
    simp only [Manager.newAccess, map_append, map_cons, map_nil]
    refine nodup_append.mpr ⟨h.distinct, by simp, ?_⟩
    intro first hfirst second hsnd
    obtain ⟨other, hother, rfl⟩ := mem_map.mp hfirst
    rw [mem_singleton.mp hsnd]
    exact honce other hother
  kinds other hother := by
    rcases mem_append.mp hother with hother | hother
    · exact h.kinds other hother
    · rw [mem_singleton.mp hother]
      exact hkind
  fresh hval hstage other hother := by
    rcases mem_append.mp hother with hother | hother
    · exact h.fresh hval hstage other hother
    · rw [mem_singleton.mp hother, hwts]
      exact ⟨le_rfl, fun _ => unwritten_of_absent habs⟩
  validating _ _ hstage := by
    rw [Manager.newAccess, hexec] at hstage
    cases hstage
  installing _ _ hstage := by
    rw [Manager.newAccess, hexec] at hstage
    cases hstage
  passed := h.passed

end

theorem mem_writeLocal {index : ℕ} {columns : C}
    (h : access ∈ (manager.writeLocal index columns).accessList) :
    ∃ old ∈ manager.accessList, access.addr = old.addr ∧ access.accessType = old.accessType ∧
      access.localWts = old.localWts := by
  obtain ⟨i, hi, rfl⟩ := getElem_of_mem h
  have hlen : i < manager.accessList.length := by
    simpa [Manager.writeLocal] using hi
  refine ⟨_, getElem_mem hlen, ?_⟩
  simp only [Manager.writeLocal, getElem_modify]
  split
  · refine ⟨rfl, rfl, ?_⟩
    simp [TupleAccess.localWts, comp_def]
  · exact ⟨rfl, rfl, rfl⟩

theorem mem_writeLocal_of_mem (h : access ∈ manager.accessList) (index : ℕ) (columns : C) :
    ∃ later ∈ (manager.writeLocal index columns).accessList,
      later.addr = access.addr ∧ later.accessType = access.accessType := by
  obtain ⟨i, hi, rfl⟩ := getElem_of_mem h
  have hlen : i < (manager.writeLocal index columns).accessList.length := by
    simpa [Manager.writeLocal] using hi
  refine ⟨_, getElem_mem hlen, ?_⟩
  simp only [Manager.writeLocal, getElem_modify]
  split <;> exact ⟨rfl, rfl⟩

theorem map_addr_writeLocal (manager : Manager C) (index : ℕ) (columns : C) :
    (manager.writeLocal index columns).accessList.map TupleAccess.addr =
      manager.accessList.map TupleAccess.addr := by
  refine ext_getElem (by simp [Manager.writeLocal]) ?_
  intro i _ _
  simp only [Manager.writeLocal, getElem_map, getElem_modify]
  split <;> rfl

variable (h : TxnInv tuples occupied history validated txn manager)
include h

theorem writeLocal (hexec : manager.stage = .execute) (index : ℕ) (columns : C) :
    TxnInv tuples occupied history validated txn (manager.writeLocal index columns) where
  occupied access hacc := by
    obtain ⟨old, hold, haddr, -⟩ := mem_writeLocal hacc
    rw [haddr]
    exact h.occupied old hold
  distinct := by
    rw [map_addr_writeLocal]
    exact h.distinct
  kinds access hacc := by
    obtain ⟨old, hold, -, hkind, -⟩ := mem_writeLocal hacc
    rw [hkind]
    exact h.kinds old hold
  fresh hval hstage access hacc := by
    obtain ⟨old, hold, haddr, -, hwts⟩ := mem_writeLocal hacc
    rw [haddr, hwts]
    exact h.fresh hval hstage old hold
  validating _ _ hstage := by
    rw [Manager.writeLocal, hexec] at hstage
    cases hstage
  installing _ _ hstage := by
    rw [Manager.writeLocal, hexec] at hstage
    cases hstage
  passed := h.passed

theorem ended {later : Manager C}
    {committed : Bool} (haccs : later.accessList = manager.accessList)
    (hstage : later.stage = .release committed) (hval : txn ∈ validated ↔ committed = true) :
    TxnInv tuples occupied history validated txn later where
  occupied := haccs ▸ h.occupied
  distinct := haccs ▸ h.distinct
  kinds := haccs ▸ h.kinds
  fresh _ hrng := absurd hstage (hrng committed)
  validating _ _ hother := by
    rw [hstage] at hother
    cases hother
  installing _ _ hother := by
    rw [hstage] at hother
    cases hother
  passed := by
    rw [hval, hstage]
    simp

theorem validate {later : Manager C} (haccs : later.accessList = manager.accessList)
    (hrng : ∀ committed, manager.stage ≠ .release committed) (hval : txn ∉ validated)
    (hstage : later.stage = .validate commitTs pending)
    (hvalidating : Validating tuples later commitTs pending) :
    TxnInv tuples occupied history validated txn later where
  occupied := haccs ▸ h.occupied
  distinct := haccs ▸ h.distinct
  kinds := haccs ▸ h.kinds
  fresh _ _ := haccs ▸ h.fresh hval hrng
  validating _ _ hother := by
    rw [hstage] at hother
    cases hother
    exact hvalidating
  installing _ _ hother := by
    rw [hstage] at hother
    cases hother
  passed := by simp [hstage, hval]

theorem overtake (hne : txn ≠ other)
    (hapart : ∀ access ∈ manager.accessList, access.accessType.isRead = false → Covered
      manager.lockedHandles access.addr true → ∀ op ∈ history, op.item = access.addr → op.txn ≠
      other) : TxnInv tuples occupied history (validated ++ [other]) txn manager where
  __ := h
  fresh hval := h.fresh fun hmem => hval (mem_append_left _ hmem)
  installing commitTs pending hstage := by
    have hinst := h.installing commitTs pending hstage
    refine { hinst with ordered := ?_ }
    intro access hacc hwrite op hop hitem hnotOwn hmem
    have hcov := hinst.covered access (hinst.mem access hacc)
    rw [hwrite] at hcov
    rcases mem_append.mp hmem with hmem | hmem
    · exact (hinst.ordered access hacc hwrite op hop hitem hnotOwn hmem).trans
        (sublist_append_left _ _)
    · exact absurd (mem_singleton.mp hmem)
        (hapart access (hinst.mem access hacc) hwrite hcov op hop hitem)
  passed := by
    rw [mem_append, mem_singleton, h.passed]
    simp [hne]

theorem pass (hstage : manager.stage = .validate commitTs []) :
    TxnInv tuples occupied history (validated ++ [txn]) txn
      { manager with stage := .install commitTs manager.accessList } where
  __ := h
  fresh hval := by simp at hval
  validating _ _ hother := by cases hother
  installing _ _ hother := by
    cases hother
    have hvalidating := h.validating commitTs [] hstage
    have hfresh := h.fresh (h.not_validated_of_validate hstage) (by simp [hstage])
    have hdone := fun access hacc => hvalidating.done access hacc not_mem_nil
    refine ⟨fun access hacc => (hdone access hacc).1, ?_, h.distinct, fun _ hmem => hmem, ?_, ?_⟩
    · intro access hacc
      exact (hfresh access hacc).2 (hdone access hacc).2
    · intro access hacc hwrite
      rw [(hdone access hacc).2]
      exact hvalidating.ahead access hacc hwrite
    · intro access _ _ op _ _ hne hmem
      have hearlier : op.txn ∈ validated := by simpa [hne] using hmem
      exact (singleton_sublist.mpr hearlier).append (List.Sublist.refl [txn])
  passed := by simp

theorem unpend (hstage : manager.stage = .install commitTs (access :: pending)) :
    TxnInv tuples occupied history validated txn
      { manager with stage := .install commitTs pending } where
  __ := h
  fresh hval _ := h.fresh hval (by simp [hstage])
  validating _ _ hother := by cases hother
  installing _ _ hother := by
    cases hother
    have hinst := h.installing _ _ hstage
    refine ⟨hinst.covered, hinst.unwritten, (nodup_cons.mp hinst.distinct).2,
      fun other hother => hinst.mem other (mem_cons_of_mem _ hother),
      fun other hother => hinst.older other (mem_cons_of_mem _ hother),
      fun other hother => hinst.ordered other (mem_cons_of_mem _ hother)⟩
  passed := by
    rw [h.passed, hstage]
    simp

theorem install (op : Op ℕ TupleAddr) (tuple : Tuple C) (hlater : (tuples op.item).wts < tuple.wts)
    (hapart : txn ≠ op.txn → ∀ access ∈ manager.accessList, access.addr = op.item →
      ¬ Covered manager.lockedHandles access.addr (!access.accessType.isRead))
    (hpend : txn = op.txn → ∃ commitTs pending, manager.stage = .install commitTs pending ∧
      ∀ access ∈ pending, access.addr ≠ op.item) :
    TxnInv (update tuples op.item tuple) occupied (history ++ [op]) validated txn
      manager := by
  have hgrows : ∀ addr, (tuples addr).wts ≤ (update tuples op.item tuple addr).wts := by
    intro addr
    by_cases haddr : addr = op.item
    · rw [haddr, update_self]
      exact hlater.le
    · rw [update_of_ne haddr]
  refine { h with fresh := ?_, validating := ?_, installing := ?_ }
  · intro hval hstage access hacc
    obtain ⟨hle, hunwr⟩ := h.fresh hval hstage access hacc
    refine ⟨hle.trans (hgrows _), ?_⟩
    intro heq
    by_cases haddr : access.addr = op.item
    · rw [haddr] at hle heq
      rw [update_self] at heq
      omega
    · rw [update_of_ne haddr] at heq
      refine (hunwr heq).append ?_
      intro first _ _ hitem hconf
      exact haddr (hitem.symm.trans hconf.2.1)
  · intro commitTs pending hstage
    have hvalidating := h.validating commitTs pending hstage
    refine ⟨hvalidating.mem, ?_, hvalidating.ahead⟩
    intro access hacc hdone
    obtain ⟨hcov, hwts⟩ := hvalidating.done access hacc hdone
    have hne : access.addr ≠ op.item := by
      intro haddr
      by_cases htxn : txn = op.txn
      · obtain ⟨_, _, hinstall, -⟩ := hpend htxn
        rw [hstage] at hinstall
        cases hinstall
      · exact hapart htxn access hacc haddr hcov
    rw [update_of_ne hne]
    exact ⟨hcov, hwts⟩
  · intro commitTs pending hstage
    have hinst := h.installing commitTs pending hstage
    have hne : ∀ access ∈ pending, access.addr ≠ op.item := by
      intro access hacc haddr
      by_cases htxn : txn = op.txn
      · obtain ⟨_, _, hinstall, hrest⟩ := hpend htxn
        rw [hstage] at hinstall
        cases hinstall
        exact hrest access hacc haddr
      · have hmem := hinst.mem access hacc
        exact hapart htxn access hmem haddr (hinst.covered access hmem)
    refine { hinst with unwritten := ?_, older := ?_, ordered := ?_ }
    · intro access hacc
      refine (hinst.unwritten access hacc).append ?_
      intro first _ howner hitem hconf
      refine hapart (fun htxn => hconf.1 (howner.trans htxn)) access hacc
        (hitem.symm.trans hconf.2.1) (hinst.covered access hacc)
    · intro access hacc hwrite
      rw [update_of_ne (hne access hacc)]
      exact hinst.older access hacc hwrite
    · intro access hacc hwrite first hfirst hitem
      rcases mem_append.mp hfirst with hfirst | hfirst
      · exact hinst.ordered access hacc hwrite first hfirst hitem
      · rw [mem_singleton.mp hfirst] at hitem
        exact absurd hitem.symm (hne access hacc)

end TxnInv

def System.once (s : System C) : Event C → Bool
  | .select txn addr _ => (s.managers txn).accessList.all (·.addr ≠ addr)
  | .allocate txn addr => (s.managers txn).accessList.all (·.addr ≠ addr)
  | _ => true

/-- The commit timestamp is larger than those of the tuples that it replaces, no access deletes,
and an upgrade of the validation succeeds. -/
def System.timely (s : System C) : Event C → Bool
  | .select _ _ accessType => accessType ≠ .deleteOnly
  | .commit txn => (s.managers txn).accessList.all fun access =>
      access.accessType.isRead || access.localWts < s.localTsNext (s.node txn)
  | .validate txn answer =>
      match (s.managers txn).stage with
      | .validate _ (access :: _) =>
          match (s.managers txn).lockedHandles access.addr.pageAddr with
          | some mode => !(mode.isRead && !access.accessType.isRead) || answer = .granted
          | none => true
      | _ => true
  | _ => true

namespace System

structure Inv (s : System C) : Prop where
  guarded : Guarded s.latches fun txn => (s.managers txn).lockedHandles
  txns : ∀ txn, TxnInv s.tuples s.occupied s.history s.validated txn (s.managers txn)
  ops : ∀ op ∈ s.history, ∃ access ∈ (s.managers op.txn).accessList, access.addr = op.item ∧
    (op.write = true → access.accessType.isRead = false)
  reads : ∀ op ∈ s.history, op.txn ∉ s.validated → op.write = false
  respects : Respects s.validated s.history
  nodup : s.validated.Nodup

theorem inv_start (tuples : TupleAddr → Tuple C) (occupied : TupleAddr → Bool) (node : ℕ → ℕ) :
    (start tuples occupied node).Inv where
  guarded := .start
  txns _ := .start
  ops _ h := by cases h
  reads _ h := by cases h
  respects := .nil
  nodup := .nil

theorem forall_setManager {holds : ℕ → Manager C → Prop} {manager : Manager C}
    (hself : holds txn manager) (hothers : ∀ other, other ≠ txn → holds other (s.managers other)) :
    ∀ other, holds other ((s.setManager txn manager).managers other) := by
  intro other
  by_cases hother : other = txn
  · rw [hother, setManager_self]
    exact hself
  · rw [setManager_of_ne hother]
    exact hothers other hother

theorem granted_of_timely {answer : LatchAnswer}
    (hstage : (s.managers txn).stage = .validate commitTs (access :: pending))
    (htimely : s.timely (.validate txn answer) = true) (mode : AccessType)
    (hmode : (s.managers txn).lockedHandles access.addr.pageAddr = some mode)
    (hread : mode.isRead = true) (hwrite : access.accessType.isRead = false) :
    answer = .granted := by
  simpa [timely, hstage, hmode, hread, hwrite] using htimely

namespace Inv

variable (h : s.Inv)
include h

theorem guarded_setManager (hlock : manager.lockedHandles = (s.managers txn).lockedHandles) :
    Guarded s.latches fun other => ((s.setManager txn manager).managers other).lockedHandles := by
  have hsame : (fun other => ((s.setManager txn manager).managers other).lockedHandles) =
      fun other => (s.managers other).lockedHandles := by
    funext other
    by_cases hother : other = txn
    · rw [hother, setManager_self, hlock]
    · rw [setManager_of_ne hother]
  rw [hsame]
  exact h.guarded

theorem ops_setManager
    (hkeeps : ∀ access ∈ (s.managers txn).accessList, ∃ later ∈ manager.accessList,
      later.addr = access.addr ∧ later.accessType = access.accessType) :
    ∀ op ∈ s.history, ∃ access ∈ ((s.setManager txn manager).managers op.txn).accessList,
      access.addr = op.item ∧ (op.write = true → access.accessType.isRead = false) := by
  intro op hop
  obtain ⟨access, hacc, haddr, hwrite⟩ := h.ops op hop
  by_cases htxn : op.txn = txn
  · rw [htxn] at hacc
    obtain ⟨later, hlater, hlaterAddr, hlaterType⟩ := hkeeps access hacc
    rw [htxn, setManager_self]
    exact ⟨later, hlater, hlaterAddr.trans haddr, fun hw => hlaterType ▸ hwrite hw⟩
  · rw [setManager_of_ne htxn]
    exact ⟨access, hacc, haddr, hwrite⟩

theorem ops_setManager_same (haccs : manager.accessList = (s.managers txn).accessList) :
    ∀ op ∈ s.history, ∃ access ∈ ((s.setManager txn manager).managers op.txn).accessList,
      access.addr = op.item ∧ (op.write = true → access.accessType.isRead = false) :=
  h.ops_setManager fun access hacc => ⟨access, haccs ▸ hacc, rfl, rfl⟩

theorem manage (hlock : manager.lockedHandles = (s.managers txn).lockedHandles)
    (hkeeps : ∀ access ∈ (s.managers txn).accessList, ∃ later ∈ manager.accessList,
      later.addr = access.addr ∧ later.accessType = access.accessType)
    (htxn : TxnInv s.tuples s.occupied s.history s.validated txn manager) :
    (s.setManager txn manager).Inv where
  __ := h
  guarded := h.guarded_setManager hlock
  txns := forall_setManager htxn fun other _ => h.txns other
  ops := h.ops_setManager hkeeps

theorem enter {stage : Stage C} (htxn : TxnInv s.tuples s.occupied s.history s.validated txn
      { s.managers txn with stage := stage }) :
    (s.enter txn stage).Inv :=
  h.manage rfl (fun access hacc => ⟨access, hacc, rfl, rfl⟩) htxn

theorem relatch {latch : PageLatch}
    (hmoves : (s.latches page).Moves txn latch ((s.managers txn).lockedHandles page)
      (manager.lockedHandles page))
    (hpages : ∀ other, other ≠ page →
      manager.lockedHandles other = (s.managers txn).lockedHandles other)
    (haccs : manager.accessList = (s.managers txn).accessList)
    (htxn : TxnInv s.tuples s.occupied s.history s.validated txn manager) :
    ((s.setLatch page latch).setManager txn manager).Inv where
  __ := h
  guarded := by
    refine h.guarded.moves txn ?_ ?_ ?_
    · simpa [setManager] using hmoves
    · intro other hother
      simpa [setManager] using hpages other hother
    · intro other hother
      rw [setManager_of_ne hother]
      rfl
  txns := forall_setManager htxn fun other _ => h.txns other
  ops := h.ops_setManager_same haccs

theorem quiet (hwtr : (s.latches op.item.pageAddr).writer = none) (hread : op.write = false)
    (hrng : ∀ committed, (s.managers txn).stage ≠ .release committed) :
    ∀ first ∈ s.history, first.txn = txn → ¬ first.Conflicts op := by
  rintro first hfirst rfl hconf
  have hwrite : first.write = true := by simpa [hread] using hconf.2.2
  have hval : first.txn ∈ s.validated := by
    by_contra hnot
    rw [h.reads first hfirst hnot] at hwrite
    cases hwrite
  rcases (h.txns first.txn).passed.mp hval with ⟨commitTs, pending, hstage⟩ | hstage
  · obtain ⟨access, hacc, haddr, hkind⟩ := h.ops first hfirst
    have hcov := ((h.txns first.txn).installing _ _ hstage).covered access hacc
    rw [hkind hwrite] at hcov
    have hheld := h.guarded.writer hcov
    rw [haddr, hconf.2.1, hwtr] at hheld
    cases hheld
  · exact hrng true hstage

theorem newAccess (hexec : (s.managers txn).stage = .execute)
    (hocc : s.occupied access.addr = true)
    (hwtr : (s.latches access.addr.pageAddr).writer = none)
    (honce : ∀ other ∈ (s.managers txn).accessList, other.addr ≠ access.addr)
    (hkind : access.accessType ≠ .deleteOnly)
    (hwts : access.localWts = (s.tuples access.addr).wts) :
    ((s.setManager txn ((s.managers txn).newAccess access)).log ⟨txn, access.addr, false⟩).Inv := by
  have hval : txn ∉ s.validated := (h.txns txn).not_validated_of_execute hexec
  have habs : ∀ op ∈ s.history, op.txn = txn → op.item ≠ access.addr := by
    rintro op hop rfl hitem
    obtain ⟨other, hother, haddr, -⟩ := h.ops op hop
    exact honce other hother (haddr.trans hitem)
  have hgrown : (s.setManager txn ((s.managers txn).newAccess access)).Inv := h.manage rfl
    (fun other hother => ⟨other, mem_append_left _ hother, rfl, rfl⟩)
    ((h.txns txn).newAccess hexec hocc honce hkind hwts habs)
  refine ⟨hgrown.guarded, ?_, ?_, ?_, ?_, hgrown.nodup⟩
  · intro other
    refine (hgrown.txns other).logRead ?_ hval
    intro hrng
    exact hgrown.quiet hwtr rfl hrng
  · intro op hop
    rcases mem_append.mp hop with hop | hop
    · exact hgrown.ops op hop
    · rw [mem_singleton.mp hop]
      refine ⟨access, ?_, rfl, by simp⟩
      simp [System.log, Manager.newAccess]
  · intro op hop hnot
    rcases mem_append.mp hop with hop | hop
    · exact hgrown.reads op hop hnot
    · rw [mem_singleton.mp hop]
  · refine hgrown.respects.append ?_
    intro first _ _ _ hmem
    exact absurd hmem hval

theorem fetchAdd (node : ℕ) : (s.fetchAdd node).Inv :=
  { h with }

theorem allocate (hfree : s.occupied addr = false) (tuple : Tuple C) :
    Inv { s.setTuple addr tuple with occupied := update s.occupied addr true } where
  __ := h
  txns other := (h.txns other).allocate hfree tuple

theorem passes (hstage : (s.managers txn).stage = .validate commitTs []) :
    Inv { s.enter txn (.install commitTs (s.managers txn).accessList) with
      validated := s.validated ++ [txn] } := by
  have hnot : txn ∉ s.validated := (h.txns txn).not_validated_of_validate hstage
  have hdone := ((h.txns txn).validating _ _ hstage).done
  refine ⟨h.guarded_setManager rfl, ?_, h.ops_setManager_same rfl, ?_, ?_, ?_⟩
  · refine forall_setManager ((h.txns txn).pass hstage) ?_
    intro other hother
    refine (h.txns other).overtake hother ?_
    rintro access _ _ hcov op hop hitem rfl
    obtain ⟨mine, hmine, haddr, -⟩ := h.ops op hop
    have hreads := h.guarded.reads hcov (hdone mine hmine not_mem_nil).1
      (by rw [haddr, hitem]) hother
    exact Bool.noConfusion hreads.1
  · intro op hop hnew
    exact h.reads op hop fun hmem => hnew (mem_append_left _ hmem)
  · -- what was read last is what is there, so no listed transaction came in between
    refine h.respects.finish ?_
    have hfresh := (h.txns txn).fresh hnot (by simp [hstage])
    have hunwr : ∀ access ∈ (s.managers txn).accessList,
        Unwritten s.history txn access.addr := fun access hacc =>
      (hfresh access hacc).2 (hdone access hacc not_mem_nil).2
    refine pairwise_iff_forall_sublist.mpr ?_
    rintro first second hpair hconf rfl
    obtain ⟨access, hacc, haddr, -⟩ := h.ops first (hpair.subset (by simp))
    have hpairs := pairwise_iff_forall_sublist.mp (hunwr access hacc) hpair
    exact absurd hconf (hpairs rfl haddr.symm)
  · refine nodup_append.mpr ⟨h.nodup, by simp, ?_⟩
    intro first hfirst second hsnd
    rw [mem_singleton.mp hsnd]
    rintro rfl
    exact hnot hfirst

theorem install (hstage : (s.managers txn).stage = .install commitTs (access :: pending))
    (hwrite : access.accessType.isRead = false) {tuple : Tuple C} (hwts : tuple.wts = commitTs) :
    (((s.enter txn (.install commitTs pending)).setTuple access.addr tuple).log
      ⟨txn, access.addr, true⟩).Inv := by
  have hinst := (h.txns txn).installing _ _ hstage
  have hmem := hinst.mem access mem_cons_self
  have hval : txn ∈ s.validated := (h.txns txn).passed.mpr (.inl ⟨_, _, hstage⟩)
  have hcov := hinst.covered access hmem
  have holder := hinst.older access mem_cons_self hwrite
  have hnext := h.enter ((h.txns txn).unpend hstage)
  refine ⟨hnext.guarded, ?_, ?_, ?_, ?_, hnext.nodup⟩
  · intro other
    refine (hnext.txns other).install ⟨txn, access.addr, true⟩ tuple (hwts ▸ holder) ?_ ?_
    · intro hother theirs _ haddr htheirs
      rw [System.enter, setManager_of_ne hother] at htheirs
      rw [hwrite] at hcov
      have hreads := h.guarded.reads hcov htheirs (by rw [haddr]) (Ne.symm hother)
      exact Bool.noConfusion hreads.1
    · rintro rfl
      refine ⟨commitTs, pending, by simp [System.enter], ?_⟩
      intro later hlater haddr
      exact (nodup_cons.mp hinst.distinct).1 (mem_map.mpr ⟨later, hlater, haddr⟩)
  · intro op hop
    rcases mem_append.mp hop with hop | hop
    · exact hnext.ops op hop
    · rw [mem_singleton.mp hop]
      exact ⟨access, by simpa [System.log, setTuple, System.enter] using hmem, rfl, fun _ => hwrite⟩
  · intro op hop hnot
    rcases mem_append.mp hop with hop | hop
    · exact hnext.reads op hop hnot
    · rw [mem_singleton.mp hop] at hnot
      exact absurd hval hnot
  · refine hnext.respects.append ?_
    intro first hfirst hconf hfirstMem _
    exact hinst.ordered access mem_cons_self hwrite first hfirst hconf.2.1
      hconf.1 hfirstMem

theorem validate {answer : LatchAnswer} {latch : PageLatch}
    (hstage : (s.managers txn).stage = .validate commitTs (access :: pending))
    (hgranted : ∀ mode, (s.managers txn).lockedHandles access.addr.pageAddr = some mode →
      mode.isRead = true → access.accessType.isRead = false → answer = .granted)
    (hlatch : (s.managers txn).validateLatch txn (s.latches access.addr.pageAddr)
      access.addr.pageAddr access.accessType answer = some (latch, manager)) :
    ((s.setLatch access.addr.pageAddr latch).setManager txn
      { manager with stage :=
          if (s.tuples access.addr).wts > access.localWts then .release false
          else .validate commitTs pending }).Inv := by
  obtain ⟨hlats, haccs, -, hmode⟩ := Manager.validateLatch_spec hgranted hlatch
  have hnot := (h.txns txn).not_validated_of_validate hstage
  have hvalidating := (h.txns txn).validating _ _ hstage
  refine h.relatch hlats.moves hlats.others haccs ?_
  by_cases hstale : (s.tuples access.addr).wts > access.localWts
  · rw [if_pos hstale]
    exact (h.txns txn).ended haccs rfl (by simp [hnot])
  · rw [if_neg hstale]
    refine (h.txns txn).validate haccs (by simp [hstage]) hnot rfl ⟨?_, ?_, ?_⟩
    · intro other hother
      rw [haccs]
      exact hvalidating.mem other (mem_cons_of_mem _ hother)
    · intro other hother hdone
      rw [haccs] at hother
      by_cases hsame : other = access
      · have hfresh := (h.txns txn).fresh hnot (by simp [hstage]) other hother
        rw [hsame] at hfresh ⊢
        exact ⟨hmode, by omega⟩
      · obtain ⟨hcov, hwts⟩ := hvalidating.done other hother (by simp [hsame, hdone])
        exact ⟨hlats.covered hcov, hwts⟩
    · rw [haccs]
      exact hvalidating.ahead

theorem step (honce : s.once event = true) (htimely : s.timely event = true)
    (hstep : s.step event = some after) : after.Inv := by
  cases step_cases hstep with
  | select txn addr accessType hexec hocc hlatb =>
    have hkind : accessType ≠ .deleteOnly := by simpa [timely] using htimely
    rw [latchable, Bool.and_eq_true] at hlatb
    refine h.newAccess hexec hocc (of_decide_eq_true hlatb.1) ?_ hkind ?_
    · simpa [once] using honce
    · simp [TupleAccess.localWts, localTuple, hkind]
  | allocate txn addr hexec hfree hlatb =>
    rw [latchable, Bool.and_eq_true] at hlatb
    refine (h.allocate hfree { s.tuples addr with wts := 0 }).newAccess hexec
      (update_self _ _ _) (of_decide_eq_true hlatb.1) ?_ (by simp) ?_
    · simpa [once, setTuple] using honce
    · simp [TupleAccess.localWts, setTuple]
  | write txn index columns hexec =>
    refine h.manage rfl ?_ ((h.txns txn).writeLocal hexec index columns)
    intro access hacc
    exact TxnInv.mem_writeLocal_of_mem hacc index columns
  | commit txn hexec =>
    refine (h.fetchAdd (s.node txn)).enter ((h.txns txn).validate rfl (by simp [hexec])
      ((h.txns txn).not_validated_of_execute hexec) rfl ⟨?_, ?_, ?_⟩)
    · intro access hacc
      exact TupleAccess.mem_of_mem_sorted hacc
    · intro access hacc hdone
      exact absurd (TupleAccess.mem_sorted (h.txns txn).distinct hacc) hdone
    · intro access hacc hwrite
      have hahead := all_eq_true.mp htimely access hacc
      simpa [hwrite] using hahead
  | abort txn hexec =>
    refine h.enter ((h.txns txn).ended rfl rfl ?_)
    simp [(h.txns txn).not_validated_of_execute hexec]
  | validated txn commitTs answer hstage => exact h.passes hstage
  | skipped txn commitTs answer access pending hstage hdel =>
    have hmem := ((h.txns txn).validating _ _ hstage).mem access mem_cons_self
    exact absurd hdel ((h.txns txn).kinds access hmem)
  | validate txn commitTs answer access pending latch manager hstage hlatch =>
    exact h.validate hstage (granted_of_timely hstage htimely) hlatch
  | installed txn commitTs hstage =>
    refine h.enter ((h.txns txn).ended rfl rfl ?_)
    simp [(h.txns txn).passed, hstage]
  | passed txn commitTs access pending hstage => exact h.enter ((h.txns txn).unpend hstage)
  | install txn commitTs access pending hstage hwrite => exact h.install hstage hwrite rfl
  | release txn page committed accessType hstage hlock =>
    refine h.relatch ?_ (fun other hother => update_of_ne hother _ _) rfl
      ((h.txns txn).ended rfl hstage ?_)
    · rw [hlock, Manager.forget_lockedHandles]
      exact .unlock _ _
    · simp [(h.txns txn).passed, hstage]

end Inv

def committed (s : System C) (txn : ℕ) : Bool := (s.managers txn).stage matches .release true

def initial (s : System C) : Prop := ∃ tuples occupied node, s = start tuples occupied node

def Run (s : System C) : Prop :=
  TransitionSystem.Reachable step (fun s event => s.once event = true) initial s

def TimelyRun (s : System C) : Prop :=
  TransitionSystem.Reachable step (fun s event => s.once event = true ∧ s.timely event = true)
    initial s

theorem TimelyRun.inv (h : s.TimelyRun) : s.Inv := by
  refine TransitionSystem.Reachable.invariant ?_ ?_ h
  · rintro _ ⟨tuples, occupied, node, rfl⟩
    exact inv_start tuples occupied node
  · intro before event later hinv hallow hstep
    exact hinv.step hallow.1 hallow.2 hstep

theorem Inv.serializable (h : s.Inv) :
    Serializable (s.history.filter fun op => s.committed op.txn) := by
  refine h.respects.serializable h.nodup ?_
  intro op hop hcomm
  refine (h.txns op.txn).passed.mpr (.inr ?_)
  rw [committed] at hcomm
  split at hcomm
  · assumption
  · cases hcomm

def commits (txn accesses : ℕ) : List (Event ℕ) :=
  [.commit txn] ++ replicate (accesses + 1) (.validate txn .granted) ++
    replicate (accesses + 1) (.install txn)

def oneNode : List (Event ℕ) :=
  [.select 0 ⟨0, 8⟩ .readWrite, .write 0 0 5] ++ commits 0 1 ++ [.release 0 0] ++
    [.select 1 ⟨0, 8⟩ .readWrite, .write 1 0 6] ++ commits 1 1

/-- Transactions 0, 1 and 2 run on node 0, transaction 3 on node 1.  Transaction 2 reads the tuple
with the timestamp 2, transaction 3 replaces it by 1. -/
def lowered : List (Event ℕ) :=
  commits 0 0 ++ [.select 1 ⟨0, 8⟩ .readWrite, .write 1 0 5] ++ commits 1 1 ++ [.release 1 0] ++
    [.select 2 ⟨0, 8⟩ .readWrite, .select 3 ⟨0, 8⟩ .readWrite, .write 3 0 6] ++ commits 3 1 ++
    [.release 3 0, .write 2 0 7] ++ commits 2 1

end System

theorem validated_serializable (h : s.TimelyRun) :
    Serializable (s.history.filter fun op => s.committed op.txn) ∧
      ∀ txn commitTs pending, (s.managers txn).stage = .install commitTs pending →
        ∀ access ∈ (s.managers txn).accessList, Unwritten s.history txn access.addr := by
  refine ⟨h.inv.serializable, ?_⟩
  intro txn commitTs pending hstage access hacc
  exact ((h.inv.txns txn).installing commitTs pending hstage).unwritten access hacc

theorem validated_serializable_oneNode :
    ∃ s : System ℕ, s.TimelyRun ∧ s.committed 0 = true ∧ s.committed 1 = true ∧
      s.history = [⟨0, ⟨0, 8⟩, false⟩, ⟨0, ⟨0, 8⟩, true⟩, ⟨1, ⟨0, 8⟩, false⟩, ⟨1, ⟨0, 8⟩, true⟩] ∧
      Serializable (s.history.filter fun op => s.committed op.txn) := by
  obtain ⟨s, hrun, hfirst, hsnd, hhist⟩ : ∃ s : System ℕ, s.TimelyRun ∧
      s.committed 0 = true ∧ s.committed 1 = true ∧ s.history =
        [⟨0, ⟨0, 8⟩, false⟩, ⟨0, ⟨0, 8⟩, true⟩, ⟨1, ⟨0, 8⟩, false⟩, ⟨1, ⟨0, 8⟩, true⟩] :=
    TransitionSystem.Reachable.exists_of_schedule System.oneNode
      ⟨fun _ => ⟨0, true, 0, 0⟩, fun _ => true, fun _ => 0, rfl⟩ (by decide +kernel)
  exact ⟨s, hrun, hfirst, hsnd, hhist, (validated_serializable hrun).1⟩

/-- Transaction 3 overwrites what transaction 2 has read, and transaction 2 does not notice. -/
theorem lowered_not_serializable :
    ∃ s : System ℕ, s.Run ∧ ¬ Serializable (s.history.filter fun op => s.committed op.txn) := by
  obtain ⟨s, hrun, hhist⟩ : ∃ s : System ℕ, s.Run ∧
      (s.history.filter fun op => s.committed op.txn) =
        [⟨1, ⟨0, 8⟩, false⟩, ⟨1, ⟨0, 8⟩, true⟩, ⟨2, ⟨0, 8⟩, false⟩, ⟨3, ⟨0, 8⟩, false⟩,
          ⟨3, ⟨0, 8⟩, true⟩, ⟨2, ⟨0, 8⟩, true⟩] :=
    TransitionSystem.Reachable.exists_of_schedule System.lowered
      ⟨fun _ => ⟨0, true, 0, 0⟩, fun _ => true, fun txn => txn / 3, rfl⟩ (by decide +kernel)
  refine ⟨s, hrun, ?_⟩
  rw [hhist]
  exact @not_serializable_of_cycle _ _ _ ⟨2, ⟨0, 8⟩, false⟩ ⟨3, ⟨0, 8⟩, true⟩
    ⟨3, ⟨0, 8⟩, false⟩ ⟨2, ⟨0, 8⟩, true⟩ (by decide) (by decide) (by decide) (by decide) rfl rfl

end Occ

end MemoryEngine.Txn
