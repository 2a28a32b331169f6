import MemoryEngine.Library.TransitionSystem
import MemoryEngine.Txn.ToBase

/-! The TO manager and the serial order of the start timestamps: the steps one by one, and the runs
in which they are isolated. -/
namespace MemoryEngine.Txn.To

open Serializability List

namespace Database

variable {C : Type} {n : ℕ} [DecidableEq C] {db after : Database n C} {event : Event n C}
  {txn other : Fin n} {addr : TupleAddr} {access : TupleAccess C} {accessType : AccessType}
  {tuple later : Tuple C} {entry : Entry (Fin n) TupleAddr (C × Bool)}

def Current (db : Database n C) (txn : Fin n) (addr : TupleAddr) : Prop :=
  (db.tuples addr).wts = db.number txn ∧
    ∀ entry ∈ db.live, entry.item = addr → db.number entry.txn ≤ db.number txn

structure Inv (db : Database n C) : Prop extends db.Base where
  current : ∀ txn addr, (db.txns txn).stage = .execute → (db.txns txn).holds addr = true →
    db.Current txn addr

theorem inv_start (tuples : TupleAddr → Tuple C) (occupied : TupleAddr → Bool)
    (node : Fin n → ℕ) : (start tuples occupied node).Inv where
  toBase := base_start tuples occupied node
  current _ _ _ h := by
    cases h

theorem Base.drawn_of_holds (h : db.Base) (hholds : (db.txns txn).holds addr = true) :
    (db.txns txn).startTimestamp ≠ none := by
  obtain ⟨access, hacc, -⟩ := (h.form txn).exists_of_holds hholds
  exact (h.form txn).drawn (ne_nil_of_mem hacc)

omit [DecidableEq C] in
theorem current_put (entry : Entry (Fin n) TupleAddr (C × Bool)) (later : Tuple C)
    (hincl : (db.txns entry.txn).included = true)
    (hfar : addr ≠ entry.item → db.Current other addr)
    (hnear : addr = entry.item → other = entry.txn ∧ later.wts = db.number other ∧
      ∀ earlier ∈ db.live, earlier.item = addr → db.number earlier.txn ≤ db.number other) :
    ((db.setTuple entry.item later).log entry).Current other addr := by
  have hlive : ((db.setTuple entry.item later).log entry).live = db.live ++ [entry] :=
    @live_log _ _ (db.setTuple entry.item later) _ hincl
  rw [Current, hlive]
  by_cases haddr : addr = entry.item
  · obtain ⟨hsame, hwts, hents⟩ := hnear haddr
    refine ⟨?_, ?_⟩
    · rw [haddr, log_setTuple_self]
      exact hwts
    · intro earlier hearlier hitem
      rcases mem_append.mp hearlier with hearlier | hearlier
      · exact hents earlier hearlier hitem
      · rw [mem_singleton.mp hearlier, hsame]
  · obtain ⟨hwts, hents⟩ := hfar haddr
    refine ⟨?_, ?_⟩
    · rw [log_setTuple_of_ne haddr]
      exact hwts
    · intro earlier hearlier hitem
      rcases mem_append.mp hearlier with hearlier | hearlier
      · exact hents earlier hearlier hitem
      · rw [mem_singleton.mp hearlier] at hitem
        exact absurd hitem.symm haddr

namespace Inv

theorem takeTimestamp (h : db.Inv) (hdist : db.distinctTimestamp txn = true) :
    (db.takeTimestamp txn).Inv := by
  refine ⟨h.toBase.takeTimestamp hdist, ?_⟩
  intro other addr hexec hholds
  rw [takeTimestamp_same Transaction.stage (fun _ _ => rfl)] at hexec
  rw [takeTimestamp_same (Transaction.holds · addr) (fun _ _ => rfl)] at hholds
  have hnum := @number_takeTimestamp _ _ db txn other (h.drawn_of_holds hholds)
  obtain ⟨hwts, hents⟩ := h.current other addr hexec hholds
  rw [Current, live_takeTimestamp, hnum, (takeTimestamp_tuples db txn).1]
  refine ⟨hwts, ?_⟩
  intro entry hentry hitem
  rw [number_takeTimestamp (h.drawn_of_live hentry)]
  exact hents entry hentry hitem

theorem refuse (h : db.Base) (hexec : (db.txns txn).stage = .execute)
    (hcurr : ∀ other addr, other ≠ txn → (db.txns other).stage = .execute → (db.txns
      other).holds addr = true → db.Current other addr) : (db.enter txn .refused).Inv := by
  refine ⟨h.refuse hexec, ?_⟩
  intro other addr hrng hholds
  have hne : other ≠ txn := by
    rintro rfl
    simp [enter] at hrng
  rw [enter, setTxn_of_ne hne] at hrng hholds
  obtain ⟨hwts, hents⟩ := hcurr other addr hne hrng hholds
  rw [Current, enter_number, live_refused]
  exact ⟨hwts, fun entry hentry => hents entry (mem_of_mem_filter hentry)⟩

variable (h : db.Inv)
include h

theorem of_base {transaction : Transaction C} (hbase : (db.setTxn txn transaction).Base)
    (hincl : transaction.included = (db.txns txn).included)
    (hnum : transaction.startTimestamp = (db.txns txn).startTimestamp)
    (hstage : transaction.stage ≠ .execute) : (db.setTxn txn transaction).Inv := by
  refine ⟨hbase, ?_⟩
  intro other addr hexec hholds
  have hne : other ≠ txn := by
    rintro rfl
    rw [setTxn_self] at hexec
    exact hstage hexec
  rw [setTxn_of_ne hne] at hexec hholds
  rw [Current, live_setTxn hincl, number_setTxn hnum]
  exact h.current other addr hexec hholds

variable {startTimestamp : ℕ}

theorem touch (later : Tuple C) (hexec : (db.txns txn).stage = .execute)
    (hstart : (db.txns txn).startTimestamp = some startTimestamp)
    (hfree : ∀ other, other ≠ txn → (db.txns other).holds access.addr = false)
    (hgrown : (db.newAccess txn access).Base)
    (hcont : later.content = (db.tuples access.addr).content)
    (hlate : (db.tuples access.addr).wts ≤ startTimestamp)
    (hrts : (db.tuples access.addr).rts ≤ later.rts)
    (hkind : if access.accessType.isRead then
        later.wts = (db.tuples access.addr).wts ∧ later.rts = startTimestamp
      else (db.tuples access.addr).rts ≤ startTimestamp ∧ later.wts = startTimestamp) :
    (((db.newAccess txn access).setTuple access.addr later).log
      ⟨⟨txn, access.addr, false⟩, (db.tuples access.addr).content⟩).Inv := by
  have hrng : ((db.newAccess txn access).txns txn).stage = .execute := by
    rw [Database.newAccess, setTxn_self]
    exact hexec
  have hfreeNow : ∀ other, other ≠ txn →
      ((db.newAccess txn access).txns other).holds access.addr = false := by
    intro other hother
    rw [newAccess_of_ne hother]
    exact hfree other hother
  have hnum : db.number txn = startTimestamp := by simp [number, hstart]
  have hnums := newAccess_number db txn access
  have hlive := newAccess_live db txn access
  have hfits := hgrown.clean_of_free hrng hfreeNow
  have hwts : (db.tuples access.addr).wts ≤ later.wts := by
    split_ifs at hkind
    · exact hkind.1.ge
    · exact hkind.2 ▸ hlate
  have hcovs : startTimestamp ≤ max later.rts later.wts := by
    split_ifs at hkind
    · exact hkind.2 ▸ le_max_left _ _
    · exact hkind.2 ▸ le_max_right _ _
  refine ⟨hgrown.put ⟨⟨txn, access.addr, false⟩, _⟩ later hrng ?_ hfreeNow ?_
    (.inr hfits.content.symm) ?_ ?_ ?_, ?_⟩
  · exact ⟨access, by simp [Database.newAccess], rfl⟩
  · intro hwrite
    cases hwrite
  · refine (hfits.raise hcont hwts hrts).append_read rfl ?_
    rw [hnums]
    exact hnum ▸ hcovs
  · intro first hundo hwrite hins
    obtain ⟨hmem, -⟩ := (hgrown.form txn).mem_of_undoes hundo
    refine (hgrown.restores txn access.addr first hundo hwrite hins).rollBack_change ?_
      ((hgrown.form txn).images first hmem) hwrite hins hwts hrts
    intro _
    exact congrArg Prod.fst hcont
  · intro earlier hearlier hconf
    refine hgrown.number_lt hearlier hconf.1 (by simp [Database.newAccess, hstart]) ?_
    have hwrote : earlier.write = true := by simpa using hconf.2.2
    rw [hnums, hnum]
    exact (hnums ▸ hfits.writes earlier hearlier hconf.2.1 hwrote).trans hlate
  · intro other addr hother hholds
    have hfar : addr ≠ access.addr → (db.newAccess txn access).Current other addr := by
      intro haddr
      rw [Current, hlive, hnums]
      refine h.current other addr ((newAccess_stage _).symm.trans hother) ?_
      exact (holds_newAccess_cases hexec hholds).resolve_right fun hboth => haddr hboth.2
    refine current_put ⟨⟨txn, access.addr, false⟩, _⟩ later
      (by simp [Transaction.included, hrng]) hfar ?_
    intro (haddr : addr = access.addr)
    have hsame : other = txn := by
      by_contra hne
      have hnot := hfreeNow other hne
      rw [← haddr] at hnot
      exact absurd (hholds.symm.trans hnot) (by simp)
    refine ⟨hsame, ?_⟩
    subst hsame
    rw [hlive, hnums]
    split_ifs at hkind with hread
    · rw [Database.log, setTuple, Database.newAccess, setTxn_self] at hholds
      obtain ⟨hwtsNow, hents⟩ := h.current other addr hexec
        (Transaction.holds_of_newAccess_read hexec hread hholds)
      rw [haddr] at hwtsNow hents ⊢
      exact ⟨hkind.1.trans hwtsNow, hents⟩
    · refine ⟨hkind.2.trans hnum.symm, ?_⟩
      intro earlier hearlier hitem
      have hreads := hfits.reads earlier (hlive ▸ hearlier) (hitem.trans haddr)
      rw [hnums] at hreads
      rw [hnum]
      exact hreads.trans (max_le hkind.1 hlate)

theorem overwrite (later : Tuple C) (hexec : (db.txns txn).stage = .execute)
    (hholds : (db.txns txn).holds addr = true) (hwts : later.wts = (db.tuples addr).wts)
    (hrts : later.rts = (db.tuples addr).rts)
    (hcols : ∀ first, (db.txns txn).undoes addr = some first →
      first.accessType = .deleteOnly → later.columns = (db.tuples addr).columns) :
    ((db.setTuple addr later).log ⟨⟨txn, addr, true⟩, later.content⟩).Inv := by
  obtain ⟨hwtsNow, hents⟩ := h.current txn addr hexec hholds
  have hfree : ∀ other, other ≠ txn → (db.txns other).holds addr = false :=
    fun other hother => h.not_holds hholds hother
  have hfits := h.clean_of_free hexec hfree
  refine ⟨h.put ⟨⟨txn, addr, true⟩, later.content⟩ later hexec ?_ hfree (fun _ => hholds)
    (.inl rfl) ?_ ?_ ?_, ?_⟩
  · exact (h.form txn).exists_of_holds hholds
  · exact hfits.append_write rfl rfl rfl (hwts ▸ hwtsNow.ge) hwts.ge hrts.ge
  · intro first hundo hwrite hins
    obtain ⟨hmem, -⟩ := (h.form txn).mem_of_undoes hundo
    exact (h.restores txn addr first hundo hwrite hins).rollBack_change
      (hcols first hundo) ((h.form txn).images first hmem) hwrite hins hwts.ge hrts.ge
  · intro earlier hearlier hconf
    exact h.number_lt hearlier hconf.1 (h.drawn_of_holds hholds)
      (hents earlier hearlier hconf.2.1)
  · intro other otherAddr hother hotherHolds
    refine current_put ⟨⟨txn, addr, true⟩, later.content⟩ later
      (by simp [Transaction.included, hexec])
      (fun _ => h.current other otherAddr hother hotherHolds) ?_
    rintro rfl
    have hsame : other = txn := h.exclusive other txn _ hotherHolds hholds
    exact ⟨hsame, hsame ▸ hwts.trans hwtsNow, hsame ▸ hents⟩

theorem select (hexec : (db.txns txn).stage = .execute)
    (hstart : (db.txns txn).startTimestamp = some startTimestamp)
    (hocc : db.occupied addr = true) (hins : accessType ≠ .insertOnly)
    (hfree : ∀ other, other ≠ txn → (db.txns other).holds addr = false)
    (hrts : accessType.isRead = true → (db.tuples addr).rts ≤ startTimestamp)
    (hfirst : accessType.isRead = false → ∀ first, (db.txns txn).accessList.find? (fun entry =>
      entry.addr = addr) = some first → first.accessType = .readWrite ∨ first.accessType =
      .insertOnly)
    (hvis : accessType = .deleteOnly → (db.tuples addr).visible = true) :
    (db.select txn addr accessType).Inv := by
  have hgrown : (db.newAccess txn ⟨accessType, addr, some (db.tuples addr)⟩).Base := by
    refine h.newAccess hexec (by simp [hstart]) hocc hfree ?_ (fun _ => rfl) hvis
    intro hwrite first hfind
    rcases hfirst hwrite first hfind with hkind | hkind <;> simp [hkind, AccessType.isRead]
  have hrng : ((db.newAccess txn ⟨accessType, addr, some (db.tuples addr)⟩).txns txn).stage =
      .execute := by
    rw [Database.newAccess, setTxn_self]
    exact hexec
  have htimestamp : (db.newAccess txn ⟨accessType, addr, some (db.tuples addr)⟩).timestamp txn =
      startTimestamp := by
    simp [timestamp, Database.newAccess, hstart]
  rw [Database.select]
  simp only [htimestamp]
  split
  · refine refuse hgrown hrng ?_
    intro other addr hother hrng hholds
    rw [newAccess_of_ne hother] at hrng hholds
    have hcurr := h.current other addr hrng hholds
    rwa [Current, newAccess_number, newAccess_live]
  · rename_i later hlater
    obtain ⟨hlate, hkind⟩ := checkTimestamps_some hlater
    cases hread : accessType.isRead with
    | true =>
      have hkeep : accessType ≠ .deleteOnly := by
        rintro rfl
        cases hread
      rw [if_pos hread] at hkind
      rw [if_neg hkeep, hkind]
      exact h.touch _ hexec hstart hfree hgrown rfl hlate (hrts hread) (by simp [hread])
    | false =>
      rw [if_neg (by simp [hread])] at hkind
      obtain ⟨hrts, rfl⟩ := hkind
      have htouched := h.touch { db.tuples addr with wts := startTimestamp } hexec hstart hfree
        hgrown rfl hlate le_rfl (by simp [hread, hrts])
      by_cases hdel : accessType = .deleteOnly
      · simp only [if_pos hdel]
        have hmem : (⟨accessType, addr, some (db.tuples addr)⟩ : TupleAccess C) ∈
            ((db.newAccess txn ⟨accessType, addr, some (db.tuples addr)⟩).txns txn).accessList := by
          simp [Database.newAccess]
        have hholds := (htouched.form txn).holds_of_mem hrng hmem hread
        have hdeleted := htouched.overwrite
          { db.tuples addr with wts := startTimestamp, visible := false } hrng hholds
          (by simp) (by simp) (by simp)
        simpa [Database.log, setTuple] using hdeleted
      · simp only [if_neg hdel]
        exact htouched

theorem allocate (hexec : (db.txns txn).stage = .execute)
    (hstart : (db.txns txn).startTimestamp = some startTimestamp)
    (hfree : db.occupied addr = false) : (db.allocate txn addr).Inv := by
  have htimestamp : db.timestamp txn = startTimestamp := by simp [timestamp, hstart]
  have hfresh : Base { db.setTuple addr { db.tuples addr with wts := db.timestamp txn } with
      occupied := Function.update db.occupied addr true } := h.fresh hfree rfl
  refine ⟨hfresh.newAccess hexec (by simp [setTuple, hstart]) (Function.update_self _ _ _)
    (fun other _ => h.unheld hfree other) ?_ (by simp) (by simp), ?_⟩
  · intro _ first hfind
    have haddr : first.addr = addr := by simpa using find?_some hfind
    exact absurd haddr (h.unused hfree txn first (mem_of_find?_eq_some hfind))
  · intro other otherAddr hother hholds
    rw [Current, Database.allocate, newAccess_number, newAccess_live]
    by_cases haddr : otherAddr = addr
    · subst haddr
      have hsame : other = txn := by
        by_contra hne
        rw [Database.allocate, newAccess_of_ne hne] at hholds
        exact absurd (hholds.symm.trans (h.unheld hfree other)) (by simp)
      subst hsame
      refine ⟨?_, fun entry hentry hitem => absurd hitem (h.unread hfree entry hentry)⟩
      simp [Database.newAccess, setTxn, setTuple, htimestamp, number, hstart]
    · obtain ⟨hwts, hents⟩ := h.current other otherAddr
        ((newAccess_stage _).symm.trans hother)
        ((holds_newAccess_cases hexec hholds).resolve_right fun hboth => haddr hboth.2)
      exact ⟨(congrArg Tuple.wts (Function.update_of_ne haddr _ _)).trans hwts, hents⟩

theorem write (hexec : (db.txns txn).stage = .execute) (hmem : access ∈ (db.txns txn).accessList)
    (hkind : access.accessType = .readWrite ∨ access.accessType = .insertOnly) (columns : C) :
    (db.write txn access.addr columns).Inv := by
  have hwrite : access.accessType.isRead = false := by
    rcases hkind with hkind | hkind <;> (rw [hkind]; rfl)
  refine h.overwrite _ hexec ((h.form txn).holds_of_mem hexec hmem hwrite) rfl rfl ?_
  intro first hundo hdel
  rw [Transaction.undoes, Transaction.undoList_execute hexec] at hundo
  refine absurd hdel (((h.form txn).first access hmem hwrite first hundo).2 ?_)
  rcases hkind with hkind | hkind <;> simp [hkind]

theorem commit (hexec : (db.txns txn).stage = .execute) : (db.enter txn .committed).Inv :=
  h.of_base (h.toBase.commit hexec) (by simp [Transaction.included, hexec]) rfl (by simp)

theorem abortRefused (hstage : (db.txns txn).stage = .refused) : (db.abortTransaction txn).Inv := by
  have hgone : (db.txns txn).included = false := by simp [Transaction.included, hstage]
  refine h.of_base (h.toBase.restage hgone rfl ?_ ?_) hgone.symm rfl (by simp)
  · intro addr
    simp only [Transaction.undoes, Transaction.undoList, hstage]
    exact TupleAccess.find?_sorted _ addr
  · rintro _ ⟨⟩
    exact ⟨TupleAccess.ordered_sorted _, fun access hmem => TupleAccess.mem_of_mem_sorted hmem⟩

theorem abort (hexec : (db.txns txn).stage = .execute) : (db.abortTransaction txn).Inv := by
  have hrefused : ((db.enter txn .refused).abortTransaction txn).Inv :=
    (refuse h.toBase hexec fun other addr _ => h.current other addr).abortRefused
      (by simp [enter])
  have hsame : (db.enter txn .refused).abortTransaction txn = db.abortTransaction txn := by
    simp [abortTransaction, enter, setTxn]
  rwa [hsame] at hrefused

theorem undone (hstage : (db.txns txn).stage = .undo []) : (db.enter txn .aborted).Inv := by
  have hgone : (db.txns txn).included = false := by simp [Transaction.included, hstage]
  refine h.of_base (h.toBase.restage hgone rfl ?_ ?_) hgone.symm rfl (by simp)
  · intro addr
    simp [Transaction.undoes, Transaction.undoList, hstage]
  · rintro _ ⟨⟩

theorem undo {pending : List (TupleAccess C)}
    (hstage : (db.txns txn).stage = .undo (access :: pending)) :
    (db.undo txn access pending).Inv := by
  refine ⟨h.toBase.undo hstage, ?_⟩
  intro other addr hexec hholds
  have hne : other ≠ txn := by
    rintro rfl
    simp [Database.undo, enter] at hexec
  rw [Database.undo, enter, setTxn_of_ne hne] at hexec hholds
  have hundo : (db.txns txn).undoes access.addr = some access := by
    simp [Transaction.undoes, Transaction.undoList, hstage]
  have htuple : (db.undo txn access pending).tuples addr = db.tuples addr := by
    by_cases haddr : addr = access.addr
    · subst haddr
      cases hread : access.accessType.isRead with
      | true =>
        rw [Database.undo, TupleAccess.rollBack_of_isRead hread]
        simp [enter, setTxn, setTuple]
      | false =>
        exact absurd (h.exclusive other txn _ hholds (Transaction.holds_of_undoes hundo hread)) hne
    · exact Function.update_of_ne haddr _ _
  have hlive : (db.undo txn access pending).live = db.live :=
    live_setTxn (by simp [Transaction.included, setTuple, hstage])
  have hnum : (db.undo txn access pending).number = db.number := enter_number _ _ _
  rw [Current, htuple, hlive, hnum]
  exact h.current other addr hexec hholds

theorem moves (hmannerly : db.mannerly event = true)
    (hisolated : db.isolated event = true) (hmoves : db.Moves event after) : after.Inv := by
  cases hmoves with
  | keep => exact h
  | select txn addr accessType hexec hocc =>
    simp only [isolated, Bool.and_eq_true, decide_eq_true_eq] at hisolated
    obtain ⟨⟨⟨hdist, hfree⟩, hkind⟩, hvis⟩ := hisolated
    have haccs := takeTimestamp_same Transaction.accessList (fun _ _ => rfl) db txn txn
    refine (h.takeTimestamp hdist).select ?_ (takeTimestamp_startTimestamp db txn) ?_
      (by simpa [mannerly] using hmannerly) ?_ ?_ ?_ ?_
    · rw [takeTimestamp_same Transaction.stage (fun _ _ => rfl)]
      exact hexec
    · rw [(takeTimestamp_tuples db txn).2]
      exact hocc
    · intro other hother
      rw [takeTimestamp_same (Transaction.holds · addr) (fun _ _ => rfl)]
      exact hfree other hother
    · intro hread
      rw [(takeTimestamp_tuples db txn).1]
      simpa [hread] using hkind
    · intro hwrite first hfirst
      rw [haccs] at hfirst
      simpa [hwrite, hfirst] using hkind
    · rintro rfl
      rw [(takeTimestamp_tuples db txn).1]
      simpa using hvis
  | allocate txn addr hexec hfree =>
    refine (h.takeTimestamp hisolated).allocate ?_ (takeTimestamp_startTimestamp db txn) ?_
    · rw [takeTimestamp_same Transaction.stage (fun _ _ => rfl)]
      exact hexec
    · rw [(takeTimestamp_tuples db txn).2]
      exact hfree
  | write txn index columns access hexec hacc =>
    refine h.write hexec (mem_of_getElem? hacc) ?_ columns
    simpa [mannerly, hacc] using hmannerly
  | commit txn hexec => exact h.commit hexec
  | abort txn hexec => exact h.abort hexec
  | refused txn hstage => exact h.abortRefused hstage
  | undone txn hstage => exact h.undone hstage
  | undo txn access pending hstage => exact h.undo hstage

end Inv

def committed (db : Database n C) (txn : Fin n) : Bool := (db.txns txn).stage matches .committed

/-- The committed transactions, executed one after the other in the order of their timestamps, read
what they have read and leave the tuples as they are, where no transaction is under way. -/
def Serial (db : Database n C) : Prop :=
  ∃ final, replay db.loaded
      (serial db.number (db.history.filter fun entry => db.committed entry.txn)) = some final ∧
    ∀ addr, (∀ txn, (db.txns txn).holds addr = false) → final addr = (db.tuples addr).content

theorem Inv.serial (h : db.Inv) : db.Serial := by
  have hcomm : (db.history.filter fun entry => db.committed entry.txn) =
      db.live.filter fun entry => db.committed entry.txn := by
    rw [live, filter_filter]
    refine filter_congr ?_
    intro entry _
    cases hstage : (db.txns entry.txn).stage <;> simp [committed, Transaction.included, hstage]
  have hrply : (replay db.loaded (db.live.filter fun entry => db.committed entry.txn)).isSome := by
    refine replay_filter db.committed h.sound ?_
    refine h.last.imp ?_
    intro first second hlast hwrite hfirst hsnd hitem
    have hne : first.txn ≠ second.txn := by
      intro heq
      rw [heq, hsnd] at hfirst
      cases hfirst
    rw [committed, hlast hwrite hitem hne] at hfirst
    cases hfirst
  obtain ⟨final, hfinal⟩ := Option.isSome_iff_exists.mp hrply
  refine ⟨final, ?_, ?_⟩
  · rw [hcomm, replay_serial (h.ordered.filter _)]
    exact hfinal
  · intro addr hfree
    rw [(h.clean addr fun txn _ => hfree txn).content, replay_eq hfinal]
    refine written_filter ?_
    rintro entry hentry hdrop hwrite rfl
    have hrng := Transaction.execute_of_included (mem_live.mp hentry).2 (by
      intro hstage
      simp [committed, hstage] at hdrop)
    have hholds := h.changed entry hentry hwrite hrng
    rw [hfree entry.txn] at hholds
    cases hholds

end Database

namespace System

variable {C : Type} {n : ℕ} {s : System n C}

def initial (s : System n C) : Prop := ∃ tuples occupied node, s = start tuples occupied node

def Run (s : System n C) : Prop :=
  TransitionSystem.Reachable step (fun s event => s.db.mannerly event = true) initial s

def IsolatedRun (s : System n C) : Prop :=
  TransitionSystem.Reachable step
    (fun s event => s.db.mannerly event = true ∧ s.db.isolated event = true) initial s

theorem IsolatedRun.inv [DecidableEq C] (h : s.IsolatedRun) : s.db.Inv := by
  refine @TransitionSystem.Reachable.invariant _ _ _ _ _ _ (fun s => s.db.Inv) ?_ ?_ h
  · rintro _ ⟨tuples, occupied, node, rfl⟩
    exact Database.inv_start tuples occupied node
  · intro before event later hinv hallow hstep
    exact hinv.moves hallow.1 hallow.2 (step_moves hstep)

def oneAborts {n : ℕ} [NeZero n] : List (Event n ℕ) :=
  [.select 0 ⟨0, 8⟩ .readWrite, .write 0 0 5, .release 0 0, .commit 0,
    .select 1 ⟨1, 8⟩ .readWrite, .write 1 0 7, .release 1 1, .abort 1, .undo 1, .undo 1,
    .unlock 1 1,
    .select 2 ⟨0, 8⟩ .readOnly, .release 2 0, .select 2 ⟨1, 8⟩ .readOnly, .release 2 1, .commit 2]

/-- Transaction 1 reads a tuple, so that the older transaction 0 is refused; before it has aborted,
transaction 2 writes the tuple and commits. -/
def refusedWrite {n : ℕ} [NeZero n] : List (Event n ℕ) :=
  [.select 0 ⟨0, 8⟩ .readOnly, .release 0 0, .select 1 ⟨1, 8⟩ .readOnly, .release 1 1, .commit 1,
    .select 0 ⟨1, 8⟩ .readWrite, .unlock 0 1,
    .select 2 ⟨1, 8⟩ .readWrite, .write 2 0 6, .release 2 1, .commit 2,
    .undo 0, .undo 0, .undo 0, .undo 0, .unlock 0 1]

end System

variable {C : Type} {n : ℕ} [DecidableEq C] {s : System n C}

theorem committed_serial (h : s.IsolatedRun) : s.db.Serial := h.inv.serial

theorem committed_serial_oneAborts :
    ∃ s : System 3 ℕ, s.IsolatedRun ∧ s.db.committed 0 = true ∧ s.db.committed 2 = true ∧
      (s.db.txns 1).stage = .aborted ∧ s.db.Serial := by
  obtain ⟨s, hrun, hfirst, hlast, haborted⟩ : ∃ s : System 3 ℕ, s.IsolatedRun ∧
      s.db.committed 0 = true ∧ s.db.committed 2 = true ∧ (s.db.txns 1).stage = .aborted :=
    TransitionSystem.Reachable.exists_of_schedule System.oneAborts
      ⟨fun _ => ⟨0, true, 0, 0⟩, fun _ => true, fun _ => 0, rfl⟩ (by decide +kernel)
  exact ⟨s, hrun, hfirst, hlast, haborted, committed_serial hrun⟩

/-- The abort of transaction 0 puts its copy over the write of transaction 2. -/
theorem refusedWrite_not_serial : ∃ s : System 3 ℕ, s.Run ∧ ¬ s.db.Serial := by
  obtain ⟨s, hrun, hrply, hcont, hfree⟩ : ∃ s : System 3 ℕ, s.Run ∧
      ((replay s.db.loaded (serial s.db.number
        (s.db.history.filter fun entry => s.db.committed entry.txn))).map fun final =>
          final ⟨1, 8⟩) = some (6, true) ∧ (s.db.tuples ⟨1, 8⟩).content = (0, true) ∧
      ∀ txn, (s.db.txns txn).holds ⟨1, 8⟩ = false :=
    TransitionSystem.Reachable.exists_of_schedule System.refusedWrite
      ⟨fun _ => ⟨0, true, 0, 0⟩, fun _ => true, fun _ => 0, rfl⟩ (by decide +kernel)
  refine ⟨s, hrun, ?_⟩
  rintro ⟨final, hfinal, htups⟩
  rw [hfinal, Option.map_some, htups ⟨1, 8⟩ hfree, hcont] at hrply
  exact absurd hrply (by decide)

end MemoryEngine.Txn.To
