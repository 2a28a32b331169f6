import MemoryEngine.Txn.PageLatch

/-! Rolling back a list of accesses, in the order of the accesses or through a map by the address of
the tuple. -/
namespace MemoryEngine.Txn

open List Function

namespace TupleAddr

variable {first second third : TupleAddr}

theorem before_trans (h : first.before second = true) (hnext : second.before third = true) :
    first.before third = true := by
  simp only [before, decide_eq_true_eq] at *
  omega

theorem ne_of_before (h : first.before second = true) : first ≠ second := by
  rintro rfl
  simp [before] at h

theorem eq_of_val (hval : first.val = second.val) (hpage : first.pageAddr = second.pageAddr) :
    first = second := by
  obtain ⟨page, offset⟩ := first
  obtain ⟨otherPage, otherOffset⟩ := second
  simp only [val] at hval hpage
  rw [mk.injEq]
  omega

theorem before_of_not_before (h : second.before first = false) (hne : second ≠ first) :
    first.before second = true := by
  simp only [before, decide_eq_false_iff_not, decide_eq_true_eq] at *
  have hsame : ¬ (second.val = first.val ∧ second.pageAddr = first.pageAddr) :=
    fun heq => hne (eq_of_val heq.1 heq.2)
  omega

end TupleAddr

namespace TupleAccess

variable {C : Type} {accessList : List (TupleAccess C)} {addr : TupleAddr}

def rollBackAll (accessList : List (TupleAccess C)) (tuples : TupleAddr → Tuple C) :
    TupleAddr → Tuple C :=
  accessList.foldl
    (fun tuples access => update tuples access.addr (access.rollBack (tuples access.addr)))
    tuples

@[simp] theorem rollBackAll_nil (tuples : TupleAddr → Tuple C) : rollBackAll
    [] tuples = tuples := rfl

@[simp] theorem rollBackAll_cons (access : TupleAccess C) (accessList : List (TupleAccess C))
    (tuples : TupleAddr → Tuple C) : rollBackAll (access :: accessList) tuples =
      rollBackAll accessList
        (update tuples access.addr (access.rollBack (tuples access.addr))) := rfl

theorem rollBack_of_isRead {access : TupleAccess C} (hread : access.accessType.isRead = true)
    (tuple : Tuple C) : access.rollBack tuple = tuple := by
  cases hkind : access.accessType <;> simp_all [rollBack, AccessType.isRead]

theorem rollBack_rollBack (access : TupleAccess C) (tuple : Tuple C) :
    access.rollBack (access.rollBack tuple) = access.rollBack tuple := by
  unfold rollBack
  split
  · rfl
  · cases access.localTuple <;> rfl
  · rfl
  · rfl
  · rfl

/-- A `READ_ONLY` access, or a `READ_WRITE` access with its undo image. -/
def Undoable (access : TupleAccess C) : Prop :=
  access.accessType = .readOnly ∨ access.accessType = .readWrite ∧ access.localTuple ≠ none

theorem undoable_append (h : ∀ access ∈ accessList, access.Undoable) {accessType : AccessType}
    (htype : accessType = .readOnly ∨ accessType = .readWrite) {tuple : Tuple C} :
    ∀ access ∈ accessList ++
      [⟨accessType, addr, if accessType = .readWrite then some tuple else none⟩],
      access.Undoable := by
  refine forall_mem_append.mpr ⟨h, forall_mem_singleton.mpr ?_⟩
  rcases htype with rfl | rfl
  · exact .inl rfl
  · exact .inr ⟨rfl, by simp⟩

/-- The undo image of the last `READ_WRITE` access to a tuple. -/
def lastImage (accessList : List (TupleAccess C)) (addr : TupleAddr) : Option (Tuple C) :=
  accessList.foldl
    (fun image access =>
      if access.accessType = .readWrite ∧ access.addr = addr then access.localTuple else image)
    none

theorem lastImage_append (accessList : List (TupleAccess C)) (access : TupleAccess C)
    (addr : TupleAddr) : lastImage (accessList ++ [access]) addr =
      if access.accessType = .readWrite ∧ access.addr = addr then access.localTuple
      else lastImage accessList addr := by
  simp [lastImage]

theorem lastImage_eq_none (h : ∀ access ∈ accessList, access.addr ≠ addr) :
    lastImage accessList addr = none := by
  induction accessList using reverseRecOn with
  | nil => rfl
  | append_singleton accessList access ih =>
    rw [lastImage_append, if_neg fun hlast => h access (by simp) hlast.2]
    exact ih fun other hother => h other (mem_append_left _ hother)

theorem rollBackAll_eq (h : ∀ access ∈ accessList, access.Undoable) (tuples : TupleAddr → Tuple C)
    (addr : TupleAddr) :
    rollBackAll accessList tuples addr = (lastImage accessList addr).getD (tuples addr) := by
  induction accessList using reverseRecOn with
  | nil => rfl
  | append_singleton accessList access ih =>
    have ih := ih fun other hother => h other (mem_append_left _ hother)
    rw [lastImage_append, rollBackAll, foldl_append]
    change update (rollBackAll accessList tuples) access.addr
      (access.rollBack (rollBackAll accessList tuples access.addr)) addr = _
    by_cases haddr : access.addr = addr
    · subst haddr
      rcases h access (by simp) with hread | ⟨hwrite, himage⟩
      · simp [rollBack, hread, ih]
      · obtain ⟨image, himage⟩ := Option.ne_none_iff_exists'.mp himage
        simp [rollBack, hwrite, himage]
    · rw [update_of_ne (Ne.symm haddr), if_neg fun hlast => haddr hlast.2, ih]

theorem insertSorted_mem {access other : TupleAccess C} {sorted : List (TupleAccess C)}
    (h : other ∈ insertSorted access sorted) : other = access ∨ other ∈ sorted := by
  induction sorted with
  | nil => exact .inl (mem_singleton.mp h)
  | cons head tail ih =>
    unfold insertSorted at h
    split_ifs at h
    · exact mem_cons.mp h
    · exact .inr h
    · rcases mem_cons.mp h with rfl | h
      · exact .inr mem_cons_self
      · exact (ih h).imp id (mem_cons_of_mem _)

def Ordered (sorted : List (TupleAccess C)) : Prop :=
  sorted.Pairwise fun first second => first.addr.before second.addr = true

theorem ordered_insertSorted {sorted : List (TupleAccess C)} (h : Ordered sorted)
    (access : TupleAccess C) : Ordered (insertSorted access sorted) := by
  induction sorted with
  | nil => exact pairwise_singleton _ _
  | cons head tail ih =>
    obtain ⟨hhead, htail⟩ := pairwise_cons.mp h
    unfold insertSorted
    split_ifs with hpre heq
    · refine pairwise_cons.mpr ⟨?_, h⟩
      intro other hother
      rcases mem_cons.mp hother with rfl | hother
      · exact hpre
      · exact TupleAddr.before_trans hpre (hhead other hother)
    · exact h
    · refine pairwise_cons.mpr ⟨?_, ih htail⟩
      intro other hother
      rcases insertSorted_mem hother with rfl | hother
      · exact TupleAddr.before_of_not_before (by simpa using hpre) heq
      · exact hhead other hother

theorem find?_insertSorted {sorted : List (TupleAccess C)} (h : Ordered sorted)
    (access : TupleAccess C) (addr : TupleAddr) :
    (insertSorted access sorted).find? (fun entry => entry.addr = addr) =
      (sorted.find? fun entry => entry.addr = addr).or
        ([access].find? fun entry => entry.addr = addr) := by
  induction sorted with
  | nil => rfl
  | cons head tail ih =>
    obtain ⟨hhead, htail⟩ := pairwise_cons.mp h
    unfold insertSorted
    split_ifs with hpre heq
    · by_cases haddr : access.addr = addr
      · -- everything in the map comes after the new access
        have hnone : (head :: tail).find? (fun entry => entry.addr = addr) = none := by
          rw [find?_eq_none]
          intro other hother
          rcases mem_cons.mp hother with rfl | hother
          · simpa [haddr] using (TupleAddr.ne_of_before hpre).symm
          · simpa [haddr] using
              (TupleAddr.ne_of_before (TupleAddr.before_trans hpre (hhead other hother))).symm
        rw [hnone]
        simp [haddr]
      · simp [haddr]
    · by_cases haddr : head.addr = addr
      · simp [haddr]
      · simp [haddr, heq]
    · by_cases haddr : head.addr = addr
      · simp [haddr]
      · have hskip : ∀ rest, (head :: rest).find? (fun entry => entry.addr = addr) =
            rest.find? fun entry => entry.addr = addr :=
          fun rest => find?_cons_of_neg (by simpa using haddr)
        rw [hskip, hskip, ih htail]

theorem sorted_append (accessList : List (TupleAccess C)) (access : TupleAccess C) :
    sorted (accessList ++ [access]) = insertSorted access (sorted accessList) := by
  simp [sorted]

theorem ordered_sorted (accessList : List (TupleAccess C)) : Ordered (sorted accessList) := by
  induction accessList using reverseRecOn with
  | nil => exact List.Pairwise.nil
  | append_singleton accessList access ih =>
    rw [sorted_append]
    exact ordered_insertSorted ih access

theorem find?_sorted (accessList : List (TupleAccess C)) (addr : TupleAddr) :
    (sorted accessList).find? (fun entry => entry.addr = addr) =
      accessList.find? fun entry => entry.addr = addr := by
  induction accessList using reverseRecOn with
  | nil => rfl
  | append_singleton accessList access ih =>
    rw [sorted_append, find?_insertSorted (ordered_sorted accessList), ih, find?_append]

theorem mem_of_mem_sorted {access : TupleAccess C} (h : access ∈ sorted accessList) :
    access ∈ accessList := by
  induction accessList using reverseRecOn with
  | nil => cases h
  | append_singleton accessList last ih =>
    rw [sorted_append] at h
    rcases insertSorted_mem h with rfl | h
    · exact mem_append_right _ mem_cons_self
    · exact mem_append_left _ (ih h)

theorem rollBackAll_ordered {accesses : List (TupleAccess C)} (h : Ordered accesses)
    (tuples : TupleAddr → Tuple C) (addr : TupleAddr) :
    rollBackAll accesses tuples addr =
      match accesses.find? fun entry => entry.addr = addr with
      | some access => access.rollBack (tuples addr)
      | none => tuples addr := by
  induction accesses generalizing tuples with
  | nil => rfl
  | cons head tail ih =>
    obtain ⟨hhead, htail⟩ := pairwise_cons.mp h
    rw [rollBackAll_cons, ih htail]
    by_cases haddr : head.addr = addr
    · subst haddr
      have hnone : tail.find? (fun entry => entry.addr = head.addr) = none := by
        rw [find?_eq_none]
        intro other hother
        simpa using (TupleAddr.ne_of_before (hhead other hother)).symm
      simp [hnone]
    · rw [find?_cons_of_neg (by simpa using haddr), update_of_ne (Ne.symm haddr)]

end TupleAccess

end MemoryEngine.Txn
