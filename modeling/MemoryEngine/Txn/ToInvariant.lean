import MemoryEngine.Txn.To
import MemoryEngine.Txn.UndoImages

/-! What keeps the TO manager in the order of the start timestamps.

An access compares its timestamp with those of the tuple, but nothing keeps the other transactions
away from a tuple that a running transaction has written or that an abort will put back, and the
timestamps of a tuple can be lowered.  `isolated` excludes this; under it the tuples, the images and
the history fit together. -/
namespace MemoryEngine.Txn.To

open Serializability List Option

variable {C : Type} {n : ℕ} {addr : TupleAddr}

namespace Transaction

variable {transaction : Transaction C} {access : TupleAccess C}

def undoList (transaction : Transaction C) : List (TupleAccess C) :=
  match transaction.stage with
  | .execute => transaction.accessList
  | .refused => transaction.accessList
  | .undo pending => pending
  | .aborted => []
  | .committed => []

def undoes (transaction : Transaction C) (addr : TupleAddr) : Option (TupleAccess C) :=
  transaction.undoList.find? fun access => access.addr = addr

def holds (transaction : Transaction C) (addr : TupleAddr) : Bool :=
  (transaction.undoes addr).any (fun access => !access.accessType.isRead) ||
    (!(transaction.stage matches .committed) &&
      transaction.accessList.any fun access =>
        access.accessType = .insertOnly && access.addr = addr)

def included (transaction : Transaction C) : Bool :=
  transaction.stage matches .execute | .committed

end Transaction

namespace Database

/-- The client selects with one of the types of `SelectRecordCC` and writes where it may. -/
def mannerly (db : Database n C) : Event n C → Bool
  | .select _ _ accessType => accessType ≠ .insertOnly
  | .write txn index _ => ((db.txns txn).accessList[index]?).all fun access =>
      access.accessType = .readWrite || access.accessType = .insertOnly
  | _ => true

/-- No other transaction has drawn the same timestamp on its node. -/
def distinctTimestamp (db : Database n C) (txn : Fin n) : Bool :=
  (db.txns txn).startTimestamp ≠ none ||
    decide (∀ other, (db.txns other).startTimestamp ≠ some (db.timestamp txn))

/-- The timestamps are distinct, a read does not lower the read timestamp, no transaction accesses
a tuple with changes of another one that has not ended, a tuple is not written after it was only
read or deleted, and only visible tuples are deleted. -/
def isolated (db : Database n C) : Event n C → Bool
  | .select txn addr accessType =>
      db.distinctTimestamp txn &&
      decide (∀ other, other ≠ txn → (db.txns other).holds addr = false) &&
      (if accessType.isRead then (db.tuples addr).rts ≤ db.timestamp txn
        else ((db.txns txn).accessList.find? fun access => access.addr = addr).all fun first =>
          first.accessType = .readWrite || first.accessType = .insertOnly) &&
      (accessType ≠ .deleteOnly || (db.tuples addr).visible)
  | .allocate txn _ => db.distinctTimestamp txn
  | _ => true

def number (db : Database n C) (txn : Fin n) : ℕ := (db.txns txn).startTimestamp.getD 0

def live (db : Database n C) : List (Entry (Fin n) TupleAddr (C × Bool)) :=
  db.history.filter fun entry => (db.txns entry.txn).included

end Database

structure Fits (loaded : TupleAddr → C × Bool) (number : Fin n → ℕ)
    (history : List (Entry (Fin n) TupleAddr (C × Bool))) (addr : TupleAddr) (tuple : Tuple C) :
    Prop where
  content : tuple.content = written loaded history addr
  writes : ∀ entry ∈ history, entry.item = addr → entry.write = true →
    number entry.txn ≤ tuple.wts
  reads : ∀ entry ∈ history, entry.item = addr → number entry.txn ≤ max tuple.rts tuple.wts

namespace Fits

variable {loaded : TupleAddr → C × Bool} {number other : Fin n → ℕ}
  {history : List (Entry (Fin n) TupleAddr (C × Bool))} {tuple later : Tuple C}
  {entry : Entry (Fin n) TupleAddr (C × Bool)}

section

variable (h : Fits loaded number history addr tuple)
include h

theorem congr (hnum : ∀ entry ∈ history, other entry.txn = number entry.txn) :
    Fits loaded other history addr tuple where
  content := h.content
  writes entry hentry := hnum entry hentry ▸ h.writes entry hentry
  reads entry hentry := hnum entry hentry ▸ h.reads entry hentry

theorem append_other (hne : entry.item ≠ addr) :
    Fits loaded number (history ++ [entry]) addr tuple where
  content := by rw [written_concat_of_ne hne, h.content]
  writes earlier hearlier hitem hwrite := by
    rcases mem_append.mp hearlier with hearlier | hearlier
    · exact h.writes earlier hearlier hitem hwrite
    · rw [mem_singleton.mp hearlier] at hitem
      exact absurd hitem hne
  reads earlier hearlier hitem := by
    rcases mem_append.mp hearlier with hearlier | hearlier
    · exact h.reads earlier hearlier hitem
    · rw [mem_singleton.mp hearlier] at hitem
      exact absurd hitem hne

theorem filter {keep : Entry (Fin n) TupleAddr (C × Bool) → Bool}
    (hdrop : ∀ entry ∈ history, keep entry = false → entry.write = true → entry.item ≠ addr) :
    Fits loaded number (history.filter keep) addr tuple where
  content := by rw [written_filter hdrop, h.content]
  writes entry hentry := h.writes entry (mem_of_mem_filter hentry)
  reads entry hentry := h.reads entry (mem_of_mem_filter hentry)

theorem raise (hcont : later.content = tuple.content) (hwts : tuple.wts ≤ later.wts)
    (hrts : tuple.rts ≤ later.rts) : Fits loaded number history addr later where
  content := hcont.trans h.content
  writes entry hentry hitem hwrite := (h.writes entry hentry hitem hwrite).trans hwts
  reads entry hentry hitem := (h.reads entry hentry hitem).trans (max_le_max hrts hwts)

theorem append_read (hread : entry.write = false)
    (hnum : number entry.txn ≤ max tuple.rts tuple.wts) :
    Fits loaded number (history ++ [entry]) addr tuple where
  content := by rw [written_concat_read hread, h.content]
  writes earlier hearlier hitem hwrite := by
    rcases mem_append.mp hearlier with hearlier | hearlier
    · exact h.writes earlier hearlier hitem hwrite
    · rw [mem_singleton.mp hearlier, hread] at hwrite
      cases hwrite
  reads earlier hearlier hitem := by
    rcases mem_append.mp hearlier with hearlier | hearlier
    · exact h.reads earlier hearlier hitem
    · rwa [mem_singleton.mp hearlier]

theorem append_write (hwrite : entry.write = true)
    (hitem : entry.item = addr) (hvalue : entry.value = later.content)
    (hnum : number entry.txn ≤ later.wts) (hwts : tuple.wts ≤ later.wts)
    (hrts : tuple.rts ≤ later.rts) : Fits loaded number (history ++ [entry]) addr later where
  content := by rw [written_concat_write hwrite, ← hitem, Function.update_self, hvalue]
  writes earlier hearlier hearlierItem hearlierWrite := by
    rcases mem_append.mp hearlier with hearlier | hearlier
    · exact (h.writes earlier hearlier hearlierItem hearlierWrite).trans hwts
    · rwa [mem_singleton.mp hearlier]
  reads earlier hearlier hearlierItem := by
    rcases mem_append.mp hearlier with hearlier | hearlier
    · exact (h.reads earlier hearlier hearlierItem).trans (max_le_max hrts hwts)
    · rw [mem_singleton.mp hearlier]
      exact hnum.trans (le_max_right _ _)

end

theorem rollBack_change {access : TupleAccess C}
    (h : Fits loaded number history addr (access.rollBack tuple))
    (hkind : access.accessType = .deleteOnly → later.columns = tuple.columns)
    (himage : access.accessType = .readWrite → access.localTuple ≠ none)
    (hwrite : access.accessType.isRead = false) (hins : access.accessType ≠ .insertOnly)
    (hwts : tuple.wts ≤ later.wts) (hrts : tuple.rts ≤ later.rts) :
    Fits loaded number history addr (access.rollBack later) := by
  cases htype : access.accessType with
  | readWrite =>
    obtain ⟨image, himage⟩ := ne_none_iff_exists'.mp (himage htype)
    simpa [TupleAccess.rollBack, htype, himage] using h
  | deleteOnly =>
    simp only [TupleAccess.rollBack, htype] at h ⊢
    exact h.raise (by simp [Tuple.content, hkind htype]) hwts hrts
  | insertOnly => exact absurd htype hins
  | readOnly =>
    rw [htype] at hwrite
    cases hwrite
  | scanRead =>
    rw [htype] at hwrite
    cases hwrite

end Fits

namespace Transaction

variable {transaction : Transaction C} {access : TupleAccess C}

structure Form (transaction : Transaction C) : Prop where
  drawn : transaction.accessList ≠ [] → transaction.startTimestamp ≠ none
  images : ∀ access ∈ transaction.accessList, access.accessType = .readWrite →
    access.localTuple ≠ none
  first : ∀ access ∈ transaction.accessList, access.accessType.isRead = false → ∀ first,
    transaction.accessList.find? (fun entry => entry.addr = access.addr) = some first →
      first.accessType.isRead = false ∧
        (access.accessType ≠ .deleteOnly → first.accessType ≠ .deleteOnly)
  pending : ∀ pending, transaction.stage = .undo pending →
    TupleAccess.Ordered pending ∧ ∀ access ∈ pending, access ∈ transaction.accessList

theorem undoList_execute (hexec : transaction.stage = .execute) :
    transaction.undoList = transaction.accessList := by
  simp [undoList, hexec]

theorem Form.mem_of_undoes (h : transaction.Form) (hundo : transaction.undoes addr = some access) :
    access ∈ transaction.accessList ∧ access.addr = addr := by
  have hmem := mem_of_find?_eq_some hundo
  refine ⟨?_, by simpa using find?_some hundo⟩
  unfold undoList at hmem
  split at hmem
  · exact hmem
  · exact hmem
  · rename_i pending hstage
    exact (h.pending pending hstage).2 access hmem
  · cases hmem
  · cases hmem

theorem Form.exists_of_holds (h : transaction.Form) (hholds : transaction.holds addr = true) :
    ∃ access ∈ transaction.accessList, access.addr = addr := by
  rw [holds, Bool.or_eq_true] at hholds
  rcases hholds with hundo | hins
  · obtain ⟨access, hacc, -⟩ := (Option.any_eq_true _ _).mp hundo
    obtain ⟨hmem, haddr⟩ := h.mem_of_undoes hacc
    exact ⟨access, hmem, haddr⟩
  · rw [Bool.and_eq_true, List.any_eq_true] at hins
    obtain ⟨access, hmem, hacc⟩ := hins.2
    exact ⟨access, hmem, by simpa using (Bool.and_eq_true_iff.mp hacc).2⟩

theorem holds_of_undoes (hundo : transaction.undoes addr = some access)
    (hwrite : access.accessType.isRead = false) : transaction.holds addr = true := by
  rw [holds, Bool.or_eq_true]
  exact .inl ((any_eq_true _ _).mpr ⟨access, hundo, by simp [hwrite]⟩)

theorem holds_congr {other : Transaction C} (hundo : transaction.undoes addr = other.undoes addr)
    (haccs : transaction.accessList = other.accessList)
    (hcomm : transaction.stage = .committed ↔ other.stage = .committed) :
    transaction.holds addr = other.holds addr := by
  have hactive : (transaction.stage matches .committed) = (other.stage matches .committed) := by
    cases hstage : transaction.stage <;> cases hother : other.stage <;> simp_all
  rw [holds, holds, hundo, haccs, hactive]

theorem execute_of_included (hincl : transaction.included = true)
    (hstage : transaction.stage ≠ .committed) : transaction.stage = .execute := by
  cases h : transaction.stage <;> simp_all [included]

theorem Form.holds_of_mem (h : transaction.Form) (hexec : transaction.stage = .execute)
    (hmem : access ∈ transaction.accessList) (hwrite : access.accessType.isRead = false) :
    transaction.holds access.addr = true := by
  obtain ⟨first, hfirst⟩ := isSome_iff_exists.mp
    (find?_isSome.mpr ⟨access, hmem, by simp⟩ :
      (transaction.accessList.find? fun entry => entry.addr = access.addr).isSome)
  have hwrites := (h.first access hmem hwrite first hfirst).1
  simp [holds, undoes, undoList_execute hexec, hfirst, hwrites]

section

variable (hexec : transaction.stage = .execute)
include hexec

theorem undoes_newAccess (access : TupleAccess C) (addr : TupleAddr) :
    undoes { transaction with accessList := transaction.accessList ++ [access] } addr =
      (transaction.undoes addr).or (if access.addr = addr then some access else none) := by
  simp only [undoes, undoList, hexec, find?_append,
    find?_singleton, decide_eq_true_eq]

theorem holds_newAccess (hholds : transaction.holds addr = true) (access : TupleAccess C) :
    holds { transaction with accessList := transaction.accessList ++ [access] } addr =
      true := by
  rw [holds, Bool.or_eq_true] at hholds ⊢
  rcases hholds with hundo | hins
  · obtain ⟨first, hfirst, hwrite⟩ := (Option.any_eq_true _ _).mp hundo
    refine .inl ((Option.any_eq_true _ _).mpr ⟨first, ?_, hwrite⟩)
    rw [undoes_newAccess hexec, hfirst]
    rfl
  · rw [Bool.and_eq_true, List.any_eq_true] at hins ⊢
    obtain ⟨hstage, first, hfirst, hkind⟩ := hins
    exact .inr ⟨hstage, first, List.mem_append_left _ hfirst, hkind⟩

theorem holds_of_newAccess (hholds : holds
      { transaction with accessList := transaction.accessList ++ [access] } addr = true) :
    transaction.holds addr = true ∨ addr = access.addr := by
  by_cases haddr : access.addr = addr
  · exact .inr haddr.symm
  · left
    rw [holds, undoes_newAccess hexec, if_neg haddr, or_none] at hholds
    simpa [holds, haddr] using hholds

theorem holds_of_newAccess_read (hread : access.accessType.isRead = true) (hholds : holds
      { transaction with accessList := transaction.accessList ++ [access] } addr = true) :
    transaction.holds addr = true := by
  have hins : access.accessType ≠ .insertOnly := by
    intro hkind
    rw [hkind] at hread
    cases hread
  rw [holds, undoes_newAccess hexec, Bool.or_eq_true] at hholds
  rw [holds, Bool.or_eq_true]
  rcases hholds with hundo | hinserted
  · left
    cases hfirst : transaction.undoes addr with
    | some first => simpa [hfirst] using hundo
    | none =>
      rw [hfirst, none_or] at hundo
      split_ifs at hundo
      · simp [hread] at hundo
      · cases hundo
  · right
    simpa [hins] using hinserted

end

theorem undoes_undo {pending : List (TupleAccess C)}
    (hstage : transaction.stage = .undo (access :: pending))
    (hordd : TupleAccess.Ordered (access :: pending)) (addr : TupleAddr) :
    undoes { transaction with stage := .undo pending } addr =
      if access.addr = addr then none else transaction.undoes addr := by
  simp only [undoes, undoList, hstage]
  split_ifs with haddr
  · refine find?_eq_none.mpr ?_
    intro later hlater
    have hpre := (pairwise_cons.mp hordd).1 later hlater
    simpa [← haddr] using (TupleAddr.ne_of_before hpre).symm
  · rw [find?_cons_of_neg (by simpa using haddr)]

theorem start_form : (start : Transaction C).Form where
  drawn h := absurd rfl h
  images _ h := by cases h
  first _ h := by cases h
  pending _ h := by cases h

end Transaction

namespace Database

variable {db : Database n C} {txn other : Fin n} {access : TupleAccess C}
  {entry : Entry (Fin n) TupleAddr (C × Bool)} {transaction : Transaction C} {tuple later : Tuple C}

@[simp] theorem setTxn_self (db : Database n C) (txn : Fin n) (transaction : Transaction C) :
    (db.setTxn txn transaction).txns txn = transaction := by
  simp [setTxn]

theorem setTxn_of_ne (hne : other ≠ txn) (transaction : Transaction C) :
    (db.setTxn txn transaction).txns other = db.txns other :=
  Function.update_of_ne hne _ _

theorem forall_setTxn (holds : Fin n → Transaction C → Prop) (hself : holds txn transaction)
    (hothers : ∀ other, other ≠ txn → holds other (db.txns other)) :
    ∀ other, holds other ((db.setTxn txn transaction).txns other) := by
  intro other
  by_cases hother : other = txn
  · rw [hother, setTxn_self]
    exact hself
  · rw [setTxn_of_ne hother]
    exact hothers other hother

theorem setTxn_same {α : Type} (f : Transaction C → α) (hsame : f transaction = f (db.txns txn))
    (other : Fin n) : f ((db.setTxn txn transaction).txns other) = f (db.txns other) := by
  by_cases hother : other = txn
  · rw [hother, setTxn_self, hsame]
  · rw [setTxn_of_ne hother]

theorem enter_same {α : Type} {stage : Stage C} (f : Transaction C → α)
    (hsame : f { db.txns txn with stage := stage } = f (db.txns txn)) (other : Fin n) :
    f ((db.enter txn stage).txns other) = f (db.txns other) :=
  setTxn_same f hsame other

@[simp] theorem enter_startTimestamp (db : Database n C) (txn other : Fin n) (stage : Stage C) :
    ((db.enter txn stage).txns other).startTimestamp = (db.txns other).startTimestamp :=
  enter_same Transaction.startTimestamp (by rfl) other

@[simp] theorem enter_accessList (db : Database n C) (txn other : Fin n) (stage : Stage C) :
    ((db.enter txn stage).txns other).accessList = (db.txns other).accessList :=
  enter_same Transaction.accessList (by rfl) other

theorem number_setTxn (hnum : transaction.startTimestamp = (db.txns txn).startTimestamp) :
    (db.setTxn txn transaction).number = db.number := by
  funext other
  exact congrArg (Option.getD · 0) (setTxn_same Transaction.startTimestamp hnum other)

theorem enter_number (db : Database n C) (txn : Fin n) (stage : Stage C) :
    (db.enter txn stage).number = db.number :=
  number_setTxn rfl

theorem live_setTxn (hincl : transaction.included = (db.txns txn).included) :
    (db.setTxn txn transaction).live = db.live := by
  refine filter_congr ?_
  intro entry _
  exact setTxn_same Transaction.included hincl entry.txn

theorem live_log (hincl : (db.txns entry.txn).included = true) :
    (db.log entry).live = db.live ++ [entry] := by
  simp [live, log, hincl]

@[simp] theorem log_setTuple_self (db : Database n C) (addr : TupleAddr) (tuple : Tuple C)
    (entry : Entry (Fin n) TupleAddr (C × Bool)) :
    ((db.setTuple addr tuple).log entry).tuples addr = tuple :=
  Function.update_self _ _ _

theorem log_setTuple_of_ne {changed : TupleAddr} (hne : addr ≠ changed) (db : Database n C)
    (tuple : Tuple C) (entry : Entry (Fin n) TupleAddr (C × Bool)) :
    ((db.setTuple changed tuple).log entry).tuples addr = db.tuples addr :=
  Function.update_of_ne hne _ _

theorem mem_live : entry ∈ db.live ↔ entry ∈ db.history ∧ (db.txns entry.txn).included = true :=
  mem_filter

theorem live_filter_of_gone (hgone : (db.txns txn).included = false) :
    (db.live.filter fun entry => entry.txn ≠ txn) = db.live := by
  refine filter_eq_self.mpr ?_
  intro entry hentry
  refine decide_eq_true ?_
  rintro rfl
  rw [(mem_live.mp hentry).2] at hgone
  cases hgone

theorem checkTimestamps_some {startTimestamp : ℕ}
    (h : checkTimestamps accessType startTimestamp tuple = some later) :
    tuple.wts ≤ startTimestamp ∧
      if accessType.isRead then later = { tuple with rts := startTimestamp }
      else tuple.rts ≤ startTimestamp ∧
        later = if accessType = .deleteOnly then
            { tuple with wts := startTimestamp, visible := false }
          else { tuple with wts := startTimestamp } := by
  unfold checkTimestamps at h
  split_ifs at h with hread hlate hrefused hdel
  · simp only [hread, if_true]
    exact ⟨by omega, (Option.some.inj h).symm⟩
  · simp only [hdel, if_true]
    exact ⟨by omega, by omega, (Option.some.inj h).symm⟩
  · simp only [hread, hdel, if_false]
    exact ⟨by omega, by omega, (Option.some.inj h).symm⟩

theorem takeTimestamp_startTimestamp (db : Database n C) (txn : Fin n) :
    ((db.takeTimestamp txn).txns txn).startTimestamp = some (db.timestamp txn) := by
  unfold takeTimestamp timestamp
  split
  · rename_i hstart
    simp [hstart]
  · rename_i hstart
    simp [hstart]

theorem takeTimestamp_same {α : Type} (f : Transaction C → α) (hf : ∀ transaction startTimestamp,
      f { transaction with startTimestamp := startTimestamp } = f transaction)
    (db : Database n C) (txn other : Fin n) :
    f ((db.takeTimestamp txn).txns other) = f (db.txns other) := by
  unfold takeTimestamp
  split
  · rfl
  · exact setTxn_same f (hf _ _) other

theorem takeTimestamp_tuples (db : Database n C) (txn : Fin n) :
    (db.takeTimestamp txn).tuples = db.tuples ∧ (db.takeTimestamp txn).occupied = db.occupied := by
  unfold takeTimestamp
  split <;> exact ⟨rfl, rfl⟩

theorem number_takeTimestamp (hdrawn : (db.txns other).startTimestamp ≠ none) :
    (db.takeTimestamp txn).number other = db.number other := by
  unfold Database.takeTimestamp
  split
  · rfl
  · rename_i hstart
    have hne : other ≠ txn := by
      rintro rfl
      exact hdrawn hstart
    simp [number, setTxn_of_ne hne]

theorem live_takeTimestamp (db : Database n C) (txn : Fin n) :
    (db.takeTimestamp txn).live = db.live := by
  unfold Database.takeTimestamp
  split
  · rfl
  · exact @live_setTxn _ _ db txn { db.txns txn with startTimestamp := _ } rfl

theorem newAccess_of_ne (hne : other ≠ txn) (access : TupleAccess C) :
    (db.newAccess txn access).txns other = db.txns other :=
  setTxn_of_ne hne _

theorem newAccess_number (db : Database n C) (txn : Fin n) (access : TupleAccess C) :
    (db.newAccess txn access).number = db.number :=
  number_setTxn rfl

theorem newAccess_stage (access : TupleAccess C) :
    ((db.newAccess txn access).txns other).stage = (db.txns other).stage :=
  setTxn_same Transaction.stage (by rfl) other

theorem newAccess_live (db : Database n C) (txn : Fin n) (access : TupleAccess C) :
    (db.newAccess txn access).live = db.live :=
  live_setTxn rfl

theorem holds_newAccess_cases (hexec : (db.txns txn).stage = .execute)
    (hholds : ((db.newAccess txn access).txns other).holds addr = true) :
    (db.txns other).holds addr = true ∨ other = txn ∧ addr = access.addr := by
  by_cases hother : other = txn
  · subst hother
    rw [newAccess, setTxn_self] at hholds
    exact (Transaction.holds_of_newAccess hexec hholds).imp_right fun haddr => ⟨rfl, haddr⟩
  · rw [newAccess_of_ne hother] at hholds
    exact .inl hholds

theorem live_refused (db : Database n C) (txn : Fin n) :
    (db.enter txn .refused).live = db.live.filter fun entry => entry.txn ≠ txn := by
  rw [live, live, List.filter_filter]
  refine List.filter_congr ?_
  intro entry _
  by_cases htxn : entry.txn = txn
  · simp [htxn, enter, Transaction.included]
  · simp [htxn, enter, setTxn_of_ne htxn]

end Database

end MemoryEngine.Txn.To
