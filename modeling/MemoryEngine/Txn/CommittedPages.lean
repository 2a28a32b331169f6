import MemoryEngine.Txn.VersionOrder

/-! The pages under the rows.

The system of the transactions has a row for each tuple, `CommitTransaction` works on pages.  The
write loop leaves in the pages the rows that the system publishes. -/
namespace MemoryEngine.Txn

open ByteMemory Storage List Function

/-- The tuples lie behind the header of their page, each in bytes of its own. -/
structure Layout (setting : Setting) (used : TupleAddr → Prop) : Prop where
  header : ∀ addr, used addr → LogReplayer.pVersionOffset + 8 ≤ addr.offset
  apart : ∀ addr other, used addr → used other → addr ≠ other → addr.pageAddr = other.pageAddr →
    addr.offset + (setting.schema addr).getRecordTotalSize ≤ other.offset ∨
      other.offset + (setting.schema other).getRecordTotalSize ≤ addr.offset

/-- The pages hold the rows of the tuples. -/
def Shows (setting : Setting) (used : TupleAddr → Prop) (pages : Nat → Page)
    (rows : TupleAddr → Option Memory) : Prop :=
  ∀ addr row, rows addr = some row →
    used addr ∧ Holds (setting.schema addr) (pages addr.pageAddr) addr.offset row

variable {setting : Setting} {used : TupleAddr → Prop} {sys after : System} {pages : Nat → Page}
  {thread commitTs : Nat} {entry : LocalAccess} {entries : List LocalAccess} {slot : DeltaSlot}
  {logEnabled : Bool}

theorem commitAccess_of_passed (hpassed : ¬ entry.writes = true) (page : Page) :
    (commitAccess logEnabled commitTs entry.access slot page).page = page := by
  unfold commitAccess
  split
  · split
    · rfl
    · simp_all [LocalAccess.writes]
  · simp_all [LocalAccess.writes]
  · rfl

theorem Shows.publish (hlayout : Layout setting used) (hshows : Shows setting used pages sys.rows)
    (hschema : entry.access.schema = setting.schema entry.addr)
    (hknown : ∀ colId ∈ entry.access.tuple.dirtyColIds, colId < entry.access.schema.columns.length)
    (hwrites : entry.writes = true) {row : Memory} (hrow : sys.rows entry.addr = some row) :
    Shows setting used (update pages entry.access.pageAddr (commitAccess logEnabled commitTs
        entry.access slot (pages entry.access.pageAddr)).page)
      (sys.publish entry.addr (writtenVersion commitTs entry slot row)).rows := by
  obtain ⟨hused, hholds⟩ := hshows entry.addr row hrow
  intro addr new hnew
  simp only [System.publish] at hnew
  by_cases haddr : addr = entry.addr
  · subst haddr
    rw [update_self] at hnew
    cases hnew
    have hmeta := hschema ▸ (setting.rows entry.addr).metaLast
    have hwritten := commitAccess_eq_writtenVersion logEnabled commitTs slot entry hmeta hknown
      (hschema ▸ hholds) hwrites
    refine ⟨hused, ?_⟩
    rw [← hschema, show entry.addr.pageAddr = entry.access.pageAddr from rfl, update_self]
    exact hwritten.1
  · rw [update_of_ne haddr] at hnew
    obtain ⟨hother, hkept⟩ := hshows addr new hnew
    refine ⟨hother, ?_⟩
    by_cases hpage : addr.pageAddr = entry.access.pageAddr
    · rw [hpage, update_self]
      refine commitAccess_holds_other logEnabled commitTs slot (hlayout.header addr hother) ?_
        (hpage ▸ hkept)
      rw [hschema]
      exact hlayout.apart entry.addr addr hused hother (Ne.symm haddr) hpage.symm
    · rwa [update_of_ne hpage]

theorem writeNext_shows (h : OrderlyRun setting sys) (hlayout : Layout setting used)
    (hshows : Shows setting used pages sys.rows)
    (hstage : (sys.managers thread).stage = .write commitTs (entry :: entries))
    (hstep : mvoccStep setting sys (.writeNext thread slot) = some after) :
    Shows setting used (update pages entry.access.pageAddr (commitAccess logEnabled commitTs
      entry.access slot (pages entry.access.pageAddr)).page) after.rows ∧
      (after.managers thread).stage = .write commitTs entries := by
  simp only [mvoccStep, System.writeNext, hstage] at hstep
  split at hstep
  · rename_i hwrites
    split at hstep
    · obtain ⟨row, hrow, rfl⟩ := Option.map_eq_some_iff.mp hstep
      have hlive : entry ∈ (sys.managers thread).live := by
        rw [Manager.live, hstage]
        exact mem_cons_self
      have hentry := (h.inv.managers thread).entries entry hlive (writes_isWrite hwrites)
      exact ⟨hshows.publish hlayout hentry.schema hentry.copy.known hwrites hrow, by simp⟩
    · cases hstep
  · rename_i hpassed
    cases hstep
    rw [commitAccess_of_passed hpassed, update_eq_self]
    exact ⟨hshows, by simp⟩

/-- The write loop leaves in the pages the rows that the system publishes. -/
theorem commitStage_shows (h : OrderlyRun setting sys) (hlayout : Layout setting used)
    (hshows : Shows setting used pages sys.rows)
    (hstage : (sys.managers thread).stage = .write commitTs entries) {slots : List DeltaSlot}
    (hlen : slots.length = entries.length)
    (hplay : (slots.map (.writeNext thread)).foldlM (mvoccStep setting) sys = some after) :
    Shows setting used (commitStage logEnabled commitTs ((entries.map LocalAccess.access).zip slots)
      pages).pages after.rows := by
  induction entries generalizing sys pages slots with
  | nil =>
    cases length_eq_zero_iff.mp hlen
    cases hplay
    exact hshows
  | cons entry entries ih =>
    cases slots with
    | nil => cases hlen
    | cons slot slots =>
      rw [map_cons, foldlM_cons] at hplay
      obtain ⟨middle, hstep, hrest⟩ := Option.bind_eq_some_iff.mp hplay
      obtain ⟨hnext, hmid⟩ := writeNext_shows h hlayout hshows hstage hstep
      have hallow : OrderlyStep setting sys (.writeNext thread slot) := ⟨trivial, trivial⟩
      exact ih (h.next hallow hstep) hnext hmid (Nat.succ.inj hlen) hrest

/-- Pages of the rows `(1, 7)` and `(2, 7)`. -/
def smallPages (pageAddr : Nat) : Page := fun offset =>
  smallRow (UInt8.ofNat pageAddr) 7 (offset - 64)

theorem smallPages_show : Shows smallSetting (·.offset = 64) smallPages smallRows := by
  intro addr row hrow
  rw [smallRows] at hrow
  split at hrow
  · rename_i haddr
    cases hrow
    refine ⟨haddr.1, fun offset _ _ => ?_⟩
    simp [view, smallPages, haddr.1]
  · cases hrow

def writesOne (sys : System) : Bool :=
  match (sys.managers 0).stage with
  | .write _ [entry] => entry.writes && (mvoccStep smallSetting sys (.writeNext 0 ⟨8, 0⟩)).isSome
  | _ => false

def Action.quiet : Action → Bool
  | .allocateNewRecord _ _ => false
  | .writeNext _ _ => false
  | _ => true

theorem commitStage_shows_small : ∃ sys after commitTs, ∃ entry : LocalAccess,
    OrderlyRun smallSetting sys ∧ entry.writes = true ∧
      mvoccStep smallSetting sys (.writeNext 0 ⟨8, 0⟩) = some after ∧
      Shows smallSetting (·.offset = 64)
        (commitStage true commitTs [(entry.access, ⟨8, 0⟩)] smallPages).pages after.rows := by
  obtain ⟨sys, hreach, hone⟩ : ∃ sys, TransitionSystem.Reachable (mvoccStep smallSetting)
      (fun sys action => OrderlyStep smallSetting sys action ∧ action.quiet = true)
      (· = smallSystem) sys ∧ writesOne sys = true :=
    TransitionSystem.Reachable.exists_of_schedule (updateActions 0 ⟨1, 64⟩ 9) rfl
      (by decide +kernel)
  have hrun : OrderlyRun smallSetting sys ∧ sys.rows = smallRows := by
    refine @TransitionSystem.Reachable.invariant _ _ _ _ _ _
      (fun sys => OrderlyRun smallSetting sys ∧ sys.rows = smallRows) ?_ ?_ hreach
    · rintro _ rfl
      exact ⟨.start smallSystem_initial, rfl⟩
    · rintro before action middle ⟨hrun, hrows⟩ ⟨hstep, hquiet⟩ hnext
      refine ⟨hrun.next hstep hnext, (quiet_of_step hnext hstep.2 ?_ ?_).rows.trans hrows⟩
      · rintro _ _ rfl
        cases hquiet
      · rintro _ _ rfl
        cases hquiet
  unfold writesOne at hone
  split at hone
  · rename_i commitTs entry hstage
    obtain ⟨hwrites, hsome⟩ := Bool.and_eq_true_iff.mp hone
    obtain ⟨after, hafter⟩ := Option.isSome_iff_exists.mp hsome
    have hlayout : Layout smallSetting (·.offset = 64) := by
      refine ⟨fun addr haddr => haddr ▸ by decide, fun addr other haddr hother hne hpage => ?_⟩
      cases addr
      cases other
      simp_all
    exact ⟨sys, after, commitTs, entry, hrun.1, hwrites, hafter, @commitStage_shows smallSetting _
      _ _ smallPages _ _ _ true hrun.1 hlayout (hrun.2 ▸ smallPages_show) hstage [⟨8, 0⟩] rfl
      (by simp [hafter])⟩
  · cases hone

end MemoryEngine.Txn
