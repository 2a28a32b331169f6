import MemoryEngine.Txn.ToInvariant

/-! The tuples, the images and the history of the TO manager fit together, and what keeps them so:
one lemma for each way in which a step changes the database. -/
namespace MemoryEngine.Txn.To.Database

open Serializability List Function Option

variable {C : Type} {n : ℕ} {addr : TupleAddr} {db : Database n C} {txn other : Fin n}
  {access : TupleAccess C} {entry : Entry (Fin n) TupleAddr (C × Bool)}
  {transaction : Transaction C} {tuple later : Tuple C} [DecidableEq C]

structure Base (db : Database n C) : Prop where
  form : ∀ txn, (db.txns txn).Form
  occupied : ∀ txn, ∀ access ∈ (db.txns txn).accessList, db.occupied access.addr = true
  accessed : ∀ entry ∈ db.history, ∃ access ∈ (db.txns entry.txn).accessList,
    access.addr = entry.item
  changed : ∀ entry ∈ db.live, entry.write = true → (db.txns entry.txn).stage = .execute →
    (db.txns entry.txn).holds entry.item = true
  distinct : ∀ first second, (db.txns first).startTimestamp = (db.txns second).startTimestamp →
    (db.txns first).startTimestamp ≠ none → first = second
  exclusive : ∀ first second addr, (db.txns first).holds addr = true →
    (db.txns second).holds addr = true → first = second
  clean : ∀ addr, (∀ txn, (db.txns txn).included = false → (db.txns txn).holds addr = false) →
    Fits db.loaded db.number db.live addr (db.tuples addr)
  restores : ∀ txn addr access, (db.txns txn).undoes addr = some access →
    access.accessType.isRead = false → access.accessType ≠ .insertOnly →
    Fits db.loaded db.number (db.live.filter fun entry => entry.txn ≠ txn) addr
      (access.rollBack (db.tuples addr))
  sound : (replay db.loaded db.live).isSome
  last : db.live.Pairwise fun first second => first.write = true → first.item = second.item →
    first.txn ≠ second.txn → (db.txns first.txn).stage = .committed
  ordered : db.live.Pairwise fun first second => first.Conflicts second.toOp →
    db.number first.txn < db.number second.txn

theorem base_start (tuples : TupleAddr → Tuple C) (occupied : TupleAddr → Bool)
    (node : Fin n → ℕ) : (start tuples occupied node).Base where
  form _ := Transaction.start_form
  occupied _ _ h := by cases h
  accessed _ h := by cases h
  changed _ h := by cases h
  distinct _ _ _ h := absurd rfl h
  exclusive _ _ _ h := by
    cases h
  clean _ _ := by
    refine ⟨rfl, ?_, ?_⟩
    · intro entry hentry
      cases hentry
    · intro entry hentry
      cases hentry
  restores _ _ _ h := by cases h
  sound := rfl
  last := .nil
  ordered := .nil

namespace Base

variable (h : db.Base)
include h

theorem not_holds (hholds : (db.txns txn).holds addr = true) (hne : other ≠ txn) :
    (db.txns other).holds addr = false := by
  by_contra hother
  exact hne (h.exclusive other txn addr (by simpa using hother) hholds)

theorem clean_of_free (hexec : (db.txns txn).stage = .execute)
    (hfree : ∀ other, other ≠ txn → (db.txns other).holds addr = false) :
    Fits db.loaded db.number db.live addr (db.tuples addr) := by
  refine h.clean addr ?_
  intro other hother
  refine hfree other ?_
  rintro rfl
  simp [Transaction.included, hexec] at hother

theorem not_written (hexec : (db.txns txn).stage = .execute)
    (hholds : (db.txns txn).holds addr = false) :
    ∀ entry ∈ db.live, entry.txn = txn → entry.write = true → entry.item ≠ addr := by
  rintro entry hentry rfl hwrite rfl
  rw [h.changed entry hentry hwrite hexec] at hholds
  cases hholds

theorem drawn_of_live (hentry : entry ∈ db.live) :
    (db.txns entry.txn).startTimestamp ≠ none := by
  obtain ⟨access, hacc, -⟩ := h.accessed entry (mem_live.mp hentry).1
  exact (h.form entry.txn).drawn (ne_nil_of_mem hacc)

theorem update (hform : transaction.Form)
    (hincl : transaction.included = (db.txns txn).included)
    (hcomm : (db.txns txn).stage = .committed → transaction.stage = .committed)
    (hkeeps : ∀ access ∈ (db.txns txn).accessList, access ∈ transaction.accessList)
    (hocc : ∀ access ∈ transaction.accessList, db.occupied access.addr = true)
    (hnum : transaction.startTimestamp = (db.txns txn).startTimestamp ∨
      (db.txns txn).startTimestamp = none ∧
        ∀ other, transaction.startTimestamp ≠ (db.txns other).startTimestamp)
    (hchgd : transaction.stage = .execute → ∀ addr, (db.txns txn).holds addr = true →
      transaction.holds addr = true)
    (hcleared : transaction.included = false → ∀ addr, (db.txns txn).holds addr = true →
      transaction.holds addr = false → Fits db.loaded db.number db.live addr (db.tuples addr))
    (hexec : transaction.stage = .execute → (db.txns txn).stage = .execute)
    (hexcl : ∀ addr, transaction.holds addr = true → ∀ other, other ≠ txn → (db.txns
      other).holds addr = false)
    (hrestores : ∀ addr access, transaction.undoes addr = some access → access.accessType.isRead =
      false → access.accessType ≠ .insertOnly → Fits db.loaded db.number (db.live.filter fun entry
      => entry.txn ≠ txn) addr (access.rollBack (db.tuples addr))) :
    (db.setTxn txn transaction).Base := by
  have hlive : (db.setTxn txn transaction).live = db.live := live_setTxn hincl
  have hnums : ∀ entry ∈ db.live,
      (db.setTxn txn transaction).number entry.txn = db.number entry.txn := by
    intro entry hentry
    by_cases htxn : entry.txn = txn
    · have hkept := hnum.resolve_right fun hnone => h.drawn_of_live hentry (htxn ▸ hnone.1)
      simp only [number, htxn, setTxn_self, hkept]
    · rw [number, setTxn_of_ne htxn]
      rfl
  have hdist : ∀ other, other ≠ txn →
      transaction.startTimestamp = (db.txns other).startTimestamp →
      transaction.startTimestamp = none := by
    intro other hother heq
    rcases hnum with hkept | ⟨-, hnew⟩
    · by_contra hsome
      exact hother (h.distinct txn other (hkept ▸ heq) (hkept ▸ hsome)).symm
    · exact absurd heq (hnew other)
  constructor
  case form =>
    exact forall_setTxn (fun _ later => later.Form) hform fun other _ => h.form other
  case occupied =>
    exact forall_setTxn (fun _ later => ∀ access ∈ later.accessList, db.occupied access.addr = true)
      hocc fun other _ => h.occupied other
  case accessed =>
    intro entry hentry
    obtain ⟨access, hacc, haddr⟩ := h.accessed entry hentry
    refine ⟨access, ?_, haddr⟩
    by_cases htxn : entry.txn = txn
    · rw [htxn, setTxn_self]
      exact hkeeps access (htxn ▸ hacc)
    · rw [setTxn_of_ne htxn]
      exact hacc
  case changed =>
    intro entry hentry hwrite
    rw [hlive] at hentry
    by_cases htxn : entry.txn = txn
    · rw [htxn, setTxn_self]
      intro hstage
      have hholds := h.changed entry hentry hwrite (htxn ▸ hexec hstage)
      exact hchgd hstage _ (htxn ▸ hholds)
    · rw [setTxn_of_ne htxn]
      exact h.changed entry hentry hwrite
  case distinct =>
    intro first second heq hsome
    by_cases hfirst : first = txn
    · by_cases hsnd : second = txn
      · rw [hfirst, hsnd]
      · rw [hfirst, setTxn_self] at heq hsome
        rw [setTxn_of_ne hsnd] at heq
        exact absurd (hdist second hsnd heq) hsome
    · rw [setTxn_of_ne hfirst] at heq hsome
      by_cases hsnd : second = txn
      · rw [hsnd, setTxn_self] at heq
        exact absurd (heq.trans (hdist first hfirst heq.symm)) hsome
      · rw [setTxn_of_ne hsnd] at heq
        exact h.distinct first second heq hsome
  case exclusive =>
    intro first second addr hfirstHolds hsecondHolds
    by_cases hfirst : first = txn
    · by_cases hsnd : second = txn
      · rw [hfirst, hsnd]
      · rw [hfirst, setTxn_self] at hfirstHolds
        rw [setTxn_of_ne hsnd, hexcl addr hfirstHolds second hsnd] at hsecondHolds
        cases hsecondHolds
    · rw [setTxn_of_ne hfirst] at hfirstHolds
      by_cases hsnd : second = txn
      · rw [hsnd, setTxn_self] at hsecondHolds
        rw [hexcl addr hsecondHolds first hfirst] at hfirstHolds
        cases hfirstHolds
      · rw [setTxn_of_ne hsnd] at hsecondHolds
        exact h.exclusive first second addr hfirstHolds hsecondHolds
  case clean =>
    intro addr hfree
    rw [hlive]
    refine Fits.congr ?_ hnums
    by_cases hgone : transaction.included = false ∧ (db.txns txn).holds addr = true
    · refine hcleared hgone.1 addr hgone.2 ?_
      have hfreeTxn := hfree txn
      rw [setTxn_self] at hfreeTxn
      exact hfreeTxn hgone.1
    · refine h.clean addr ?_
      intro other hother
      by_cases htxn : other = txn
      · rw [htxn] at hother ⊢
        by_contra hholds
        exact hgone ⟨hincl.trans hother, by simpa using hholds⟩
      · have hfreeOther := hfree other
        rw [setTxn_of_ne htxn] at hfreeOther
        exact hfreeOther hother
  case restores =>
    intro other addr access hundoes hwrite hins
    rw [hlive]
    have hfits : Fits db.loaded db.number (db.live.filter fun entry => entry.txn ≠ other) addr
        (access.rollBack (db.tuples addr)) := by
      by_cases htxn : other = txn
      · subst htxn
        rw [setTxn_self] at hundoes
        exact hrestores addr access hundoes hwrite hins
      · rw [setTxn_of_ne htxn] at hundoes
        exact h.restores other addr access hundoes hwrite hins
    exact hfits.congr fun entry hentry => hnums entry (mem_of_mem_filter hentry)
  case sound => exact hlive ▸ h.sound
  case last =>
    rw [hlive]
    refine h.last.imp ?_
    intro first second hlast hwrite hitem hne
    have hfirst := hlast hwrite hitem hne
    by_cases htxn : first.txn = txn
    · rw [htxn, setTxn_self]
      exact hcomm (htxn ▸ hfirst)
    · rw [setTxn_of_ne htxn]
      exact hfirst
  case ordered =>
    rw [hlive]
    refine List.Pairwise.imp_of_mem ?_ h.ordered
    intro first second hfirst hsnd hless hconf
    rw [hnums first hfirst, hnums second hsnd]
    exact hless hconf

theorem takeTimestamp (hdist : db.distinctTimestamp txn = true) :
    (db.takeTimestamp txn).Base := by
  cases hstart : (db.txns txn).startTimestamp with
  | some startTimestamp =>
    simp only [Database.takeTimestamp, hstart]
    exact h
  | none =>
    simp only [Database.takeTimestamp, hstart]
    have hnew : ∀ other, (db.txns other).startTimestamp ≠ some (db.localTsNext (db.node txn)) := by
      simpa [distinctTimestamp, hstart, timestamp] using hdist
    have hform := h.form txn
    have hnumbered : (db.setTxn txn { db.txns txn with
        startTimestamp := some (db.localTsNext (db.node txn)) }).Base := by
      refine h.update { hform with drawn := fun _ => by simp } rfl id
        (fun _ hmem => hmem) (h.occupied txn) (.inr ⟨hstart, fun other => (hnew other).symm⟩)
        (fun _ _ hholds => hholds) ?_ id ?_ (h.restores txn)
      · intro _ addr hholds hnot
        exact absurd (hholds.symm.trans hnot) (by simp)
      · intro addr hholds other hother
        exact h.not_holds hholds hother
    exact { hnumbered with }

theorem newAccess (hexec : (db.txns txn).stage = .execute)
    (hdrawn : (db.txns txn).startTimestamp ≠ none) (hocc : db.occupied access.addr = true)
    (hfree : ∀ other, other ≠ txn → (db.txns other).holds access.addr = false)
    (hfirst : access.accessType.isRead = false → ∀ first, (db.txns txn).accessList.find? (fun entry
      => entry.addr = access.addr) = some first → first.accessType.isRead = false ∧
      (access.accessType ≠ .deleteOnly → first.accessType ≠ .deleteOnly))
    (himage : access.accessType = .readWrite → access.localTuple = some (db.tuples access.addr))
    (hvis : access.accessType = .deleteOnly → (db.tuples access.addr).visible = true) :
    (db.newAccess txn access).Base := by
  have hform := h.form txn
  refine h.update ⟨fun _ => hdrawn, ?_, ?_, ?_⟩ rfl id
    (fun _ hmem => mem_append_left _ hmem) ?_ (.inl rfl)
    (fun _ _ hholds => Transaction.holds_newAccess hexec hholds access) ?_ id ?_ ?_
  · intro other hother hkind
    rcases mem_append.mp hother with hother | hother
    · exact hform.images other hother hkind
    · rw [mem_singleton.mp hother] at hkind ⊢
      simp [himage hkind]
  · intro other hother hwrite first hfind
    rw [find?_append] at hfind
    rcases mem_append.mp hother with hother | hother
    · obtain ⟨earlier, hearlier⟩ := isSome_iff_exists.mp
        (find?_isSome.mpr ⟨other, hother, by simp⟩ :
          ((db.txns txn).accessList.find? fun entry => entry.addr = other.addr).isSome)
      rw [hearlier] at hfind
      exact hform.first other hother hwrite first (hearlier.trans hfind)
    · rw [mem_singleton.mp hother] at hwrite hfind ⊢
      cases hearlier : (db.txns txn).accessList.find? fun entry => entry.addr = access.addr with
      | some earlier =>
        rw [hearlier] at hfind
        exact hfirst hwrite first (hearlier.trans hfind)
      | none =>
        rw [hearlier] at hfind
        simp only [decide_true, find?_cons_of_pos, none_or, Option.some.injEq] at hfind
        rw [← hfind]
        exact ⟨hwrite, id⟩
  · intro pending hpend
    rw [hexec] at hpend
    cases hpend
  · intro other hother
    rcases mem_append.mp hother with hother | hother
    · exact h.occupied txn other hother
    · rw [mem_singleton.mp hother]
      exact hocc
  · intro hgone
    simp [Transaction.included, hexec] at hgone
  · intro addr hholds other hother
    rcases Transaction.holds_of_newAccess hexec hholds with hholds | rfl
    · exact h.not_holds hholds hother
    · exact hfree other hother
  · intro addr earlier hundoes hwrite hins
    rw [Transaction.undoes_newAccess hexec] at hundoes
    cases hold : (db.txns txn).undoes addr with
    | some first =>
      rw [hold] at hundoes
      exact h.restores txn addr earlier (hold.trans hundoes) hwrite hins
    | none =>
      rw [hold, none_or] at hundoes
      split_ifs at hundoes with haddr
      cases hundoes
      subst haddr
      -- the first access to the tuple: its image is the tuple, without writes of the transaction
      have hsame : access.rollBack (db.tuples access.addr) = db.tuples access.addr := by
        cases hkind : access.accessType with
        | readWrite => simp [TupleAccess.rollBack, hkind, himage hkind]
        | deleteOnly =>
          have hflag := hvis hkind
          simp only [TupleAccess.rollBack, hkind, ← hflag]
        | insertOnly => exact absurd hkind hins
        | readOnly => simp [TupleAccess.rollBack, hkind]
        | scanRead => simp [TupleAccess.rollBack, hkind]
      rw [hsame]
      refine (h.clean_of_free hexec hfree).filter ?_
      intro entry hentry hown
      refine h.not_written hexec ?_ entry hentry (by simpa using hown)
      by_contra hholds
      obtain ⟨first, hfirst, haddr⟩ := hform.exists_of_holds (by simpa using hholds)
      rw [Transaction.undoes, Transaction.undoList_execute hexec] at hold
      have hnot := find?_eq_none.mp hold first hfirst
      simp [haddr] at hnot

theorem put (entry : Entry (Fin n) TupleAddr (C × Bool)) (later : Tuple C)
    (hexec : (db.txns entry.txn).stage = .execute)
    (hacc : ∃ access ∈ (db.txns entry.txn).accessList, access.addr = entry.item)
    (hfree : ∀ other, other ≠ entry.txn → (db.txns other).holds entry.item = false)
    (hwrite : entry.write = true → (db.txns entry.txn).holds entry.item = true)
    (hread : entry.write = true ∨ written db.loaded db.live entry.item = entry.value)
    (hfits : Fits db.loaded db.number (db.live ++ [entry]) entry.item later)
    (hrestores : ∀ access, (db.txns entry.txn).undoes entry.item = some access →
      access.accessType.isRead = false → access.accessType ≠ .insertOnly → Fits db.loaded db.number
      (db.live.filter fun earlier => earlier.txn ≠ entry.txn) entry.item (access.rollBack later))
    (hordd : ∀ earlier ∈ db.live, earlier.Conflicts entry.toOp → db.number earlier.txn <
      db.number entry.txn) : ((db.setTuple entry.item later).log entry).Base := by
  have hincl : (db.txns entry.txn).included = true := by
    simp [Transaction.included, hexec]
  have hlive : ((db.setTuple entry.item later).log entry).live = db.live ++ [entry] :=
    @live_log _ _ (db.setTuple entry.item later) _ hincl
  constructor
  case form => exact h.form
  case occupied => exact h.occupied
  case accessed =>
    intro earlier hearlier
    rcases mem_append.mp hearlier with hearlier | hearlier
    · exact h.accessed earlier hearlier
    · rw [mem_singleton.mp hearlier]
      exact hacc
  case changed =>
    intro earlier hearlier
    rw [hlive] at hearlier
    rcases mem_append.mp hearlier with hearlier | hearlier
    · exact h.changed earlier hearlier
    · rw [mem_singleton.mp hearlier]
      intro hwrites _
      exact hwrite hwrites
  case distinct => exact h.distinct
  case exclusive => exact h.exclusive
  case clean =>
    intro addr hclean
    rw [hlive]
    by_cases haddr : addr = entry.item
    · rw [haddr, log_setTuple_self]
      exact hfits
    · rw [log_setTuple_of_ne haddr]
      exact (h.clean addr hclean).append_other (Ne.symm haddr)
  case restores =>
    intro other addr access hundoes hkind hins
    rw [hlive, filter_append]
    by_cases hother : other = entry.txn
    · rw [hother] at hundoes ⊢
      rw [filter_cons_of_neg (by simp), filter_nil, append_nil]
      by_cases haddr : addr = entry.item
      · rw [haddr] at hundoes ⊢
        rw [log_setTuple_self]
        exact hrestores access hundoes hkind hins
      · rw [log_setTuple_of_ne haddr]
        exact h.restores entry.txn addr access hundoes hkind hins
    · rw [filter_cons_of_pos (by simpa using Ne.symm hother), filter_nil]
      have haddr : addr ≠ entry.item := by
        rintro rfl
        have hholds : (db.txns other).holds entry.item = true :=
          Transaction.holds_of_undoes hundoes hkind
        rw [hfree other hother] at hholds
        cases hholds
      rw [log_setTuple_of_ne haddr]
      exact (h.restores other addr access hundoes hkind hins).append_other (Ne.symm haddr)
  case sound =>
    rw [hlive]
    exact replay_concat h.sound hread
  case last =>
    rw [hlive]
    refine pairwise_append.mpr ⟨h.last, pairwise_singleton _ _, ?_⟩
    intro first hfirst second hsnd hfirstWrite hitem hne
    rw [mem_singleton.mp hsnd] at hitem hne
    by_contra hstage
    have hrng := Transaction.execute_of_included (mem_live.mp hfirst).2 hstage
    have hholds := h.changed first hfirst hfirstWrite hrng
    rw [hitem, hfree first.txn hne] at hholds
    cases hholds
  case ordered =>
    rw [hlive]
    refine pairwise_append.mpr ⟨h.ordered, pairwise_singleton _ _, ?_⟩
    intro first hfirst second hsnd
    rw [mem_singleton.mp hsnd]
    exact hordd first hfirst

theorem refuse (hexec : (db.txns txn).stage = .execute) : (db.enter txn .refused).Base := by
  have hlive := live_refused db txn
  have hform := h.form txn
  have hnum := enter_number db txn .refused
  have hundoes : ∀ other addr,
      ((db.enter txn .refused).txns other).undoes addr = (db.txns other).undoes addr :=
    fun other addr => enter_same (fun later => Transaction.undoes later addr)
      (by simp [Transaction.undoes, Transaction.undoList, hexec]) other
  have hholds : ∀ other addr,
      ((db.enter txn .refused).txns other).holds addr = (db.txns other).holds addr :=
    fun other addr => enter_same (fun later => Transaction.holds later addr)
      (by simp [Transaction.holds, Transaction.undoes, Transaction.undoList, hexec]) other
  have hstage : ∀ other, other ≠ txn →
      ((db.enter txn .refused).txns other).stage = (db.txns other).stage :=
    fun other hother => by rw [enter, setTxn_of_ne hother]
  have hmem : ∀ entry ∈ (db.enter txn .refused).live, entry ∈ db.live ∧ entry.txn ≠ txn := by
    intro entry hentry
    rw [hlive] at hentry
    exact ⟨List.mem_of_mem_filter hentry, by simpa using List.of_mem_filter hentry⟩
  constructor
  case form =>
    refine forall_setTxn (fun _ later => later.Form) ?_ fun other _ => h.form other
    exact { hform with pending := fun _ hpend => by cases hpend }
  case occupied =>
    exact forall_setTxn (fun _ later => ∀ access ∈ later.accessList, db.occupied access.addr = true)
      (h.occupied txn) fun other _ => h.occupied other
  case accessed =>
    intro entry hentry
    rw [enter_accessList]
    exact h.accessed entry hentry
  case changed =>
    intro entry hentry hwrite hrng
    obtain ⟨hentry, hne⟩ := hmem entry hentry
    rw [hstage entry.txn hne] at hrng
    rw [hholds]
    exact h.changed entry hentry hwrite hrng
  case distinct =>
    intro first second heq hsome
    simp only [enter_startTimestamp] at heq hsome
    exact h.distinct first second heq hsome
  case exclusive =>
    intro first second addr hfirst hsnd
    rw [hholds] at hfirst hsnd
    exact h.exclusive first second addr hfirst hsnd
  case clean =>
    intro addr hclean
    have hnot : (db.txns txn).holds addr = false := by
      rw [← hholds txn addr]
      exact hclean txn (by simp [enter, Transaction.included])
    have hfits : Fits db.loaded db.number db.live addr (db.tuples addr) := by
      refine h.clean addr ?_
      intro other hother
      have hne : other ≠ txn := by
        rintro rfl
        simp [Transaction.included, hexec] at hother
      rw [← hholds other addr]
      refine hclean other ?_
      rw [enter, setTxn_of_ne hne]
      exact hother
    rw [hlive, hnum]
    refine hfits.filter ?_
    intro entry hentry hown
    exact h.not_written hexec hnot entry hentry (by simpa using hown)
  case restores =>
    intro other addr access hother hwrite hins
    rw [hundoes] at hother
    have hfits := h.restores other addr access hother hwrite hins
    rw [hlive, hnum]
    by_cases hsame : other = txn
    · subst hsame
      rw [List.filter_filter]
      simp only [Bool.and_self]
      exact hfits
    · have hnot : (db.txns txn).holds addr = false :=
        h.not_holds (Transaction.holds_of_undoes hother hwrite) (Ne.symm hsame)
      rw [List.filter_comm]
      refine hfits.filter ?_
      intro entry hentry hown
      exact h.not_written hexec hnot entry (List.mem_of_mem_filter hentry) (by simpa using hown)
  case sound =>
    rw [hlive]
    refine replay_filter (fun other => decide (other ≠ txn)) h.sound ?_
    refine h.last.imp ?_
    intro first second hlast hwrite hfirst hsnd hitem
    have howner : first.txn = txn := by simpa using hfirst
    have hcomm := hlast hwrite hitem (by
      intro heq
      simp [← heq, howner] at hsnd)
    rw [howner, hexec] at hcomm
    cases hcomm
  case last =>
    have hrest : (db.enter txn .refused).live.Pairwise fun first second => first.write = true →
        first.item = second.item → first.txn ≠ second.txn →
        (db.txns first.txn).stage = .committed := by
      rw [hlive]
      exact h.last.filter _
    refine List.Pairwise.imp_of_mem ?_ hrest
    intro first second hfirst _ hlast hwrite hitem hne
    rw [hstage first.txn (hmem first hfirst).2]
    exact hlast hwrite hitem hne
  case ordered =>
    rw [hlive, hnum]
    exact h.ordered.filter _

theorem restage {stage : Stage C} (hold : (db.txns txn).included = false)
    (hnew : Transaction.included { db.txns txn with stage := stage } = false)
    (hundoes : ∀ addr, Transaction.undoes { db.txns txn with stage := stage } addr = (db.txns
      txn).undoes addr)
    (hpend : ∀ pending, stage = .undo pending → TupleAccess.Ordered pending ∧ ∀ access ∈
      pending, access ∈ (db.txns txn).accessList) : (db.enter txn stage).Base := by
  have hform := h.form txn
  have hstages : (db.txns txn).stage ≠ .committed ∧ (db.txns txn).stage ≠ .execute := by
    constructor <;> intro hstage <;> simp [Transaction.included, hstage] at hold
  have hnewStages : stage ≠ .committed ∧ stage ≠ .execute := by
    constructor <;> rintro rfl <;> simp [Transaction.included] at hnew
  have hholds : ∀ addr, Transaction.holds { db.txns txn with stage := stage } addr =
      (db.txns txn).holds addr := by
    intro addr
    exact Transaction.holds_congr (hundoes addr) rfl
      (iff_of_false hnewStages.1 hstages.1)
  refine h.update { hform with pending := hpend } (hnew.trans hold.symm)
    (fun hcomm => absurd hcomm hstages.1) (fun _ hmem => hmem) (h.occupied txn)
    (.inl rfl) (fun hexec => absurd hexec hnewStages.2) ?_ (fun hexec => absurd hexec hnewStages.2) ?_ ?_
  · intro _ addr hheld hnot
    rw [hholds, hheld] at hnot
    cases hnot
  · intro addr hheld other hother
    rw [hholds] at hheld
    exact h.not_holds hheld hother
  · intro addr access hundo hwrite hins
    rw [hundoes] at hundo
    exact h.restores txn addr access hundo hwrite hins

theorem commit (hexec : (db.txns txn).stage = .execute) : (db.enter txn .committed).Base := by
  have hform := h.form txn
  refine h.update { hform with pending := fun _ hpend => by cases hpend }
    (by simp [Transaction.included, hexec]) (fun _ => rfl) (fun _ hmem => hmem)
    (h.occupied txn) (.inl rfl) (fun hstage => by cases hstage)
    (fun hincl => by simp [Transaction.included] at hincl) (fun hstage => by cases hstage)
    ?_ ?_
  · intro addr hholds
    simp [Transaction.holds, Transaction.undoes, Transaction.undoList] at hholds
  · intro addr access hundoes
    simp [Transaction.undoes, Transaction.undoList] at hundoes

theorem rollBack (hstage : (db.txns txn).included = false)
    (hundoes : (db.txns txn).undoes addr = some access) :
    (db.setTuple addr (access.rollBack (db.tuples addr))).Base := by
  cases hread : access.accessType.isRead with
  | true =>
    rw [TupleAccess.rollBack_of_isRead hread, setTuple, update_eq_self]
    exact h
  | false =>
    have hholds := Transaction.holds_of_undoes hundoes hread
    refine { h with clean := ?_, restores := ?_ }
    · intro other hclean
      have hother : other ≠ addr := by
        rintro rfl
        have hnot := hclean txn hstage
        exact absurd (hholds.symm.trans hnot) (by simp)
      simp only [setTuple, update_of_ne hother]
      exact h.clean other hclean
    · intro other otherAddr entry hother hwrite hins
      by_cases haddr : otherAddr = addr
      · subst haddr
        have hsame : other = txn :=
          h.exclusive other txn otherAddr (Transaction.holds_of_undoes hother hwrite) hholds
        subst hsame
        obtain rfl : entry = access := Option.some.inj (hother.symm.trans hundoes)
        simp only [setTuple, update_self]
        rw [TupleAccess.rollBack_rollBack]
        exact h.restores other otherAddr entry hundoes hwrite hins
      · simp only [setTuple, update_of_ne haddr]
        exact h.restores other otherAddr entry hother hwrite hins

theorem undo {pending : List (TupleAccess C)}
    (hstage : (db.txns txn).stage = .undo (access :: pending)) :
    (db.undo txn access pending).Base := by
  have hform := h.form txn
  obtain ⟨hordd, hmem⟩ := hform.pending _ hstage
  have hgone : (db.txns txn).included = false := by simp [Transaction.included, hstage]
  have hundoes : (db.txns txn).undoes access.addr = some access := by
    simp [Transaction.undoes, Transaction.undoList, hstage]
  have hlater := Transaction.undoes_undo hstage hordd
  have hheld : ∀ addr, Transaction.holds { db.txns txn with stage := .undo pending } addr = true →
      (db.txns txn).holds addr = true := by
    intro addr hholds
    rw [Transaction.holds, Bool.or_eq_true] at hholds ⊢
    rcases hholds with hundo | hins
    · left
      rw [hlater] at hundo
      split_ifs at hundo
      · cases hundo
      · exact hundo
    · exact .inr (by simpa [hstage] using hins)
  have hrolled := h.rollBack hgone hundoes
  refine hrolled.update { hform with pending := ?_ } ?_ ?_ (fun _ hmem => hmem)
    (h.occupied txn) (.inl rfl) (fun hexec => by cases hexec) ?_
    (fun hexec => by cases hexec) ?_ ?_
  · rintro _ ⟨⟩
    exact ⟨(List.pairwise_cons.mp hordd).2,
      fun later hlater => hmem later (List.mem_cons_of_mem _ hlater)⟩
  · exact (show _ = false by simp [Transaction.included]).trans hgone.symm
  · intro hcomm
    rw [setTuple, hstage] at hcomm
    cases hcomm
  · -- the only tuple that is not held any more is the one that was rolled back
    intro _ addr hold hnot
    have hnot : Transaction.holds { db.txns txn with stage := .undo pending } addr = false := hnot
    have hold : (db.txns txn).holds addr = true := hold
    rw [Transaction.holds, Bool.or_eq_false_iff, hlater] at hnot
    rw [Transaction.holds, Bool.or_eq_true] at hold
    have hinss : ∀ entry ∈ (db.txns txn).accessList, entry.addr = addr →
        entry.accessType ≠ .insertOnly := by
      simpa [imp.swap] using hnot.2
    rcases hold with hundo | hins
    · by_cases haddr : access.addr = addr
      · subst haddr
        rw [hundoes] at hundo
        have hfits := h.restores txn access.addr access hundoes (by simpa using hundo)
          (hinss access (hmem access List.mem_cons_self) rfl)
        rw [live_filter_of_gone hgone] at hfits
        have hself : (db.setTuple access.addr (access.rollBack (db.tuples access.addr))).tuples
            access.addr = access.rollBack (db.tuples access.addr) := Function.update_self _ _ _
        rw [hself]
        exact hfits
      · rw [if_neg haddr, hundo] at hnot
        cases hnot.1
    · rw [Bool.and_eq_true, List.any_eq_true] at hins
      obtain ⟨-, entry, hentry, hkind⟩ := hins
      rw [Bool.and_eq_true, decide_eq_true_eq, decide_eq_true_eq] at hkind
      exact absurd hkind.1 (hinss entry hentry hkind.2)
  · intro addr hholds other hother
    exact h.not_holds (hheld addr hholds) hother
  · intro addr later hundo hwrite hins
    have hundo := (hlater addr).symm.trans hundo
    split_ifs at hundo
    exact hrolled.restores txn addr later hundo hwrite hins

theorem unused (hfree : db.occupied addr = false) (txn : Fin n) :
    ∀ access ∈ (db.txns txn).accessList, access.addr ≠ addr := by
  rintro access hacc rfl
  rw [h.occupied txn access hacc] at hfree
  cases hfree

theorem unheld (hfree : db.occupied addr = false) (txn : Fin n) :
    (db.txns txn).holds addr = false := by
  by_contra hholds
  obtain ⟨access, hacc, haddr⟩ := (h.form txn).exists_of_holds (by simpa using hholds)
  exact h.unused hfree txn access hacc haddr

theorem unread (hfree : db.occupied addr = false) : ∀ entry ∈ db.live, entry.item ≠ addr := by
  rintro entry hentry rfl
  obtain ⟨access, hacc, haddr⟩ := h.accessed entry (mem_live.mp hentry).1
  exact h.unused hfree entry.txn access hacc haddr

theorem fresh (hfree : db.occupied addr = false) (hcont :
    tuple.content = (db.tuples addr).content) :
    Base { db.setTuple addr tuple with occupied := Function.update db.occupied addr true } := by
  have hunused := h.unused hfree
  have hunread := h.unread hfree
  refine { h with occupied := ?_, clean := ?_, restores := ?_ }
  · intro txn access hacc
    simp only [Function.update_of_ne (hunused txn access hacc)]
    exact h.occupied txn access hacc
  · intro other hclean
    by_cases hother : other = addr
    · subst hother
      simp only [setTuple, Function.update_self]
      have hfits := h.clean other fun txn _ => h.unheld hfree txn
      exact ⟨hcont.trans hfits.content,
        fun entry hentry hitem => absurd hitem (hunread entry hentry),
        fun entry hentry hitem => absurd hitem (hunread entry hentry)⟩
    · simp only [setTuple, Function.update_of_ne hother]
      exact h.clean other hclean
  · intro txn other access hundoes hwrite hins
    have hother : other ≠ addr := by
      rintro rfl
      obtain ⟨hmem, haddr⟩ := (h.form txn).mem_of_undoes hundoes
      exact hunused txn access hmem haddr
    simp only [setTuple, Function.update_of_ne hother]
    exact h.restores txn other access hundoes hwrite hins

theorem number_lt (hentry : entry ∈ db.live) (hne : entry.txn ≠ txn)
    (hdrawn : (db.txns txn).startTimestamp ≠ none) (hle : db.number entry.txn ≤ db.number txn) :
    db.number entry.txn < db.number txn := by
  have hother := h.drawn_of_live hentry
  obtain ⟨first, hfirst⟩ := ne_none_iff_exists'.mp hother
  obtain ⟨second, hsnd⟩ := ne_none_iff_exists'.mp hdrawn
  refine lt_of_le_of_ne hle ?_
  intro heq
  refine hne (h.distinct entry.txn txn ?_ hother)
  simp only [number, hfirst, hsnd, getD_some] at heq
  rw [hfirst, hsnd, heq]

end Base

end MemoryEngine.Txn.To.Database
