import MemoryEngine.Cluster.PageVersions

/-! The version history of every page of a cluster.

With logging enabled, a run of population, transactions and tree operations changes pages
and appends records.  The records of a page carry its versions without a gap exactly when
every step that creates the page or raises its version has a redo logger. -/
namespace MemoryEngine.VersionHistory

open ByteMemory LogCodec LogReplayer RedoLog RecordedCounter Storage Btr Txn List Option

/-! ### Loggers of an insert -/

/-- The commit of a transaction passes `GetRedoLogger`; the populators leave the
default of `InsertPriIndex`, which is null. -/
inductive InsertCaller where
  | commit
  | populator
  deriving DecidableEq, Repr

def InsertCaller.redoLogger : InsertCaller → Bool
  | .commit => true
  | .populator => false

/-- How the separator of a split gets to the level above: into the page of the path, or by
`insert_internal` since another root was found, since the page above is stale, or since
the path has no page above that one. -/
inductive SeparatorPath where
  | parent
  | rootMoved
  | staleUpper
  | noUpper
  deriving DecidableEq, Repr

/-- The last of the calls of `insert_internal` has no logger argument. -/
def SeparatorPath.redoLogger (redoLogger : Bool) : SeparatorPath → Bool
  | .noUpper => false
  | _ => redoLogger

/-- An insert and the way it took, one entry for each level above the leaf. -/
structure Insert where
  caller : InsertCaller
  paths : List SeparatorPath
  deriving DecidableEq, Repr

def Insert.redoLogger (insert : Insert) : Bool :=
  insert.paths.foldl SeparatorPath.redoLogger insert.caller.redoLogger

/-! ### Steps -/

inductive PageKind where
  | leaf
  | internal
  | data
  deriving DecidableEq, Repr

/-- The pages in use and the records that were appended. -/
structure Cluster where
  pages : Nat → Option (PageKind × Page)
  log : List PageChange

namespace Cluster

def empty : Cluster := ⟨fun _ => none, []⟩

variable (cluster : Cluster)

def find (kind : PageKind) (pageAddr : Nat) : Option Page :=
  match cluster.pages pageAddr with
  | some (found, page) => if found = kind then some page else none
  | none => none

/-- `hdr.p_version`, or 0 where there is no page. -/
def version (pageAddr : Nat) : Nat :=
  match cluster.pages pageAddr with
  | some (_, page) => pVersion page
  | none => 0

def versions (pageAddr : Nat) : List Nat :=
  (cluster.log.filter (·.pageGaddr = pageAddr)).map PageChange.pageVersion

def counter (pageAddr : Nat) : Counter := ⟨cluster.version pageAddr, cluster.versions pageAddr⟩

end Cluster

/-- The pages that a step leaves, and the calls of `Append`. -/
structure Outcome where
  touched : List (Nat × PageKind × Page)
  changes : List PageChange

variable (cluster : Cluster)

def Cluster.apply (outcome : Outcome) : Cluster where
  pages := outcome.touched.foldl (fun pages entry => Function.update pages entry.1 (some entry.2))
    cluster.pages
  log := cluster.log ++ outcome.changes

/-- Steps with the latches of their pages held.  A new page may get a buffer with any
content. -/
inductive ClusterStep where
  | btrCreate (schema : RecordSchema) (rootAddr : Nat)
  | leafStore (schema : RecordSchema) (insert : Insert) (pageAddr : Nat)
      (k : DynamicCompoundKey schema) (v : List UInt8)
  | leafSplit (schema : RecordSchema) (insert : Insert) (pageAddr siblingAddr : Nat)
      (buffer : Page)
  | internalStore (schema : RecordSchema) (insert : Insert) (pageAddr : Nat)
      (k : DynamicCompoundKey schema) (value : Nat)
  | internalSplit (schema : RecordSchema) (insert : Insert) (pageAddr siblingAddr : Nat)
      (buffer : Page)
  | newRoot (schema : RecordSchema) (insert : Insert) (left : Nat)
      (k : DynamicCompoundKey schema) (right newRootAddr level : Nat)
  | leafDelete (schema : RecordSchema) (pageAddr : Nat) (k : DynamicCompoundKey schema)
      (redoLogger : Bool)
  | allocateNewRecord (schema : RecordSchema) (pageAddr : Nat) (buffer : Page) (tableId : Nat)
  | allocateNewTuple (schema : RecordSchema) (pageAddr : Nat) (buffer : Page) (tableId : Nat)
  | populate (pageAddr offset : Nat) (bytes : List UInt8)
  | commitWrite (access : Access) (commitTs : Nat) (slot : DeltaSlot)

namespace ClusterStep

/-- `none` where there is no page of the kind, the page has no free slot, the store throws, or
the delete crashes. -/
def run : ClusterStep → Option Outcome
  | .btrCreate schema rootAddr =>
      some ⟨[(rootAddr, .leaf, newLeafPage schema (fun _ => 0) rootAddr 0)], []⟩
  | .leafStore _ insert pageAddr k v =>
      (cluster.find .leaf pageAddr).map fun page =>
        let result := leafPageStore page k v insert.redoLogger pageAddr
        ⟨[(pageAddr, .leaf, result.page)], result.changes⟩
  | .leafSplit schema insert pageAddr siblingAddr buffer =>
      (cluster.find .leaf pageAddr).map fun page =>
        let result := leafPageSplit schema page buffer pageAddr siblingAddr (count page)
          insert.redoLogger
        ⟨[(pageAddr, .leaf, result.page), (siblingAddr, .leaf, result.sibling)], result.changes⟩
  | .internalStore _ insert pageAddr k value =>
      (cluster.find .internal pageAddr).bind fun page =>
        (internalPageStore page pageAddr k value insert.redoLogger).map fun result =>
          ⟨[(pageAddr, .internal, result.page)], result.changes⟩
  | .internalSplit schema insert pageAddr siblingAddr buffer =>
      (cluster.find .internal pageAddr).map fun page =>
        let result := internalPageSplit schema page buffer pageAddr siblingAddr (count page)
          insert.redoLogger
        ⟨[(pageAddr, .internal, result.page), (siblingAddr, .internal, result.sibling)],
          result.changes⟩
  | .newRoot _ insert left k right newRootAddr level =>
      let result := updateNewRoot left k right newRootAddr level insert.redoLogger
      some ⟨[(newRootAddr, .internal, result.1)], result.2⟩
  | .leafDelete _ pageAddr k redoLogger =>
      (cluster.find .leaf pageAddr).bind fun page =>
        (leafPageDelete page k false redoLogger pageAddr).map fun result =>
          ⟨[(pageAddr, .leaf, result.page)], result.changes⟩
  | .allocateNewRecord schema pageAddr buffer tableId =>
      (Storage.allocateNewRecord schema (cluster.find .data pageAddr) buffer pageAddr tableId).map
        fun allocation => ⟨[(pageAddr, .data, allocation.page)], allocation.changes⟩
  | .allocateNewTuple schema pageAddr buffer tableId =>
      (Storage.allocateNewTuple schema (cluster.find .data pageAddr) buffer pageAddr tableId).map
        fun allocation => ⟨[(pageAddr, .data, allocation.page)], allocation.changes⟩
  | .populate pageAddr offset bytes =>
      (cluster.find .data pageAddr).map fun page =>
        ⟨[(pageAddr, .data, write page offset bytes)], []⟩
  | .commitWrite access commitTs slot =>
      (cluster.find .data access.pageAddr).map fun page =>
        let written := commitAccess true commitTs access slot page
        ⟨[(access.pageAddr, .data, written.page)], written.changes⟩

/-- A new page gets an address that is not in use, and tuples lie after the header. -/
def Valid : ClusterStep → Prop
  | .btrCreate _ rootAddr => cluster.pages rootAddr = none
  | .leafStore _ _ pageAddr _ _ => pageAddr ≠ 0
  | .leafSplit _ _ _ siblingAddr _ => cluster.pages siblingAddr = none
  | .internalStore _ _ _ _ _ => True
  | .internalSplit _ _ _ siblingAddr _ => cluster.pages siblingAddr = none
  | .newRoot _ _ _ _ _ newRootAddr _ => cluster.pages newRootAddr = none
  | .leafDelete _ _ _ _ => True
  | .allocateNewRecord _ pageAddr _ _ =>
      cluster.pages pageAddr = none ∨ cluster.find .data pageAddr ≠ none
  | .allocateNewTuple _ pageAddr _ _ =>
      cluster.pages pageAddr = none ∨ cluster.find .data pageAddr ≠ none
  | .populate _ offset _ => bitmapOffset ≤ offset
  | .commitWrite access _ _ => access.Formed

def touches : ClusterStep → List (Nat × Advance)
  | .btrCreate _ rootAddr => [(rootAddr, ⟨1, false⟩)]
  | .leafStore _ insert pageAddr k v =>
      match cluster.find .leaf pageAddr with
      | some page =>
          [(pageAddr, if storesNewRecord page k v then ⟨1, insert.redoLogger⟩ else .none)]
      | none => []
  | .leafSplit _ insert pageAddr siblingAddr _ =>
      [(pageAddr, ⟨1, insert.redoLogger⟩), (siblingAddr, ⟨1, insert.redoLogger⟩)]
  | .internalStore _ insert pageAddr _ _ => [(pageAddr, ⟨1, insert.redoLogger⟩)]
  | .internalSplit _ insert pageAddr siblingAddr _ =>
      [(pageAddr, ⟨1, insert.redoLogger⟩), (siblingAddr, ⟨1, insert.redoLogger⟩)]
  | .newRoot _ insert _ _ _ newRootAddr _ => [(newRootAddr, ⟨1, insert.redoLogger⟩)]
  | .leafDelete _ pageAddr k _ =>
      match cluster.find .leaf pageAddr with
      | some page => [(pageAddr, if deletesRecord page k then ⟨1, false⟩ else .none)]
      | none => []
  | .allocateNewRecord _ pageAddr _ _ =>
      [(pageAddr, if cluster.find .data pageAddr = none then ⟨2, true⟩ else ⟨1, true⟩)]
  | .allocateNewTuple _ pageAddr _ _ =>
      [(pageAddr, if cluster.find .data pageAddr = none then ⟨1, false⟩ else .none)]
  | .populate pageAddr _ _ => [(pageAddr, .none)]
  | .commitWrite access _ _ => [(access.pageAddr, if access.Writes then ⟨1, true⟩ else .none)]

def advance (step : ClusterStep) (pageAddr : Nat) : Advance :=
  ((step.touches cluster).find? fun touch => touch.1 = pageAddr).elim .none Prod.snd

end ClusterStep

/-! ### One step -/

section Step

variable {cluster : Cluster} {kind : PageKind} {page : Page} {pageAddr : Nat}

theorem Cluster.version_of_find (h : cluster.find kind pageAddr = some page) :
    cluster.version pageAddr = pVersion page := by
  unfold Cluster.find at h
  unfold Cluster.version
  split at h
  · split at h
    · cases h
      rfl
    · cases h
  · cases h

theorem Cluster.version_of_none (h : cluster.pages pageAddr = none) :
    cluster.version pageAddr = 0 := by
  rw [Cluster.version, h]

variable {advance : Advance}

theorem Cluster.counter_apply {changes : List PageChange}
    (h : PageAdvance pageAddr (cluster.version pageAddr) page changes advance)
    (kind : PageKind) (other : Nat) :
    (cluster.apply ⟨[(pageAddr, kind, page)], changes⟩).counter other =
      (cluster.counter other).step (if pageAddr = other then advance else .none) := by
  obtain ⟨hver, hgaddr, hrecorded⟩ := h
  by_cases heq : pageAddr = other
  · subst heq
    have hall : changes.filter (·.pageGaddr = pageAddr) = changes :=
      filter_eq_self.mpr fun change hmem => decide_eq_true (hgaddr change hmem)
    simp only [Cluster.counter, Cluster.version, Cluster.versions, Cluster.apply, foldl_cons,
      foldl_nil, Function.update_self, filter_append, hall, map_append, hrecorded,
      hver, Counter.step, if_true]
    congr 1
    split
    · rfl
    · exact append_nil _
  · have hnone : changes.filter (·.pageGaddr = other) = [] :=
      filter_eq_nil_iff.mpr fun change hmem => by
        rw [hgaddr change hmem]
        simpa using heq
    rw [if_neg heq, Counter.step_none]
    simp only [Cluster.counter, Cluster.version, Cluster.versions, Cluster.apply, foldl_cons,
      foldl_nil, Function.update_of_ne (Ne.symm heq), filter_append, hnone,
      append_nil]

theorem Cluster.apply_append (first second : List (Nat × PageKind × Page))
    (old new : List PageChange) :
    cluster.apply ⟨first ++ second, old ++ new⟩ = (cluster.apply ⟨first, old⟩).apply
      ⟨second, new⟩ := by
  simp only [Cluster.apply, foldl_append, append_assoc]

variable {step : ClusterStep}

theorem ClusterStep.advance_one
    (h : step.touches cluster = [(pageAddr, advance)]) (other : Nat) :
    step.advance cluster other = if pageAddr = other then advance else .none := by
  by_cases heq : pageAddr = other <;> simp [ClusterStep.advance, h, heq]

theorem Cluster.counter_split {siblingAddr : Nat} {result : SplitResult} {redoLogger : Bool}
    (h : SplitAdvance pageAddr siblingAddr (pVersion page) result redoLogger)
    (hpage : cluster.find kind pageAddr = some page) (hsib : cluster.pages siblingAddr = none)
    (htouches : step.touches cluster =
      [(pageAddr, ⟨1, redoLogger⟩), (siblingAddr, ⟨1, redoLogger⟩)]) (other : Nat) :
    (cluster.apply ⟨[(pageAddr, kind, result.page), (siblingAddr, kind, result.sibling)],
      result.changes⟩).counter other = (cluster.counter other).step
        (step.advance cluster other) := by
  obtain ⟨old, new, hchgs, hold, hnew⟩ := h
  have hne : pageAddr ≠ siblingAddr := by
    rintro rfl
    rw [Cluster.find, hsib] at hpage
    cases hpage
  rw [← Cluster.version_of_find hpage] at hold
  have hfirst := Cluster.counter_apply hold kind
  -- The sibling has no version before and after the step on the page.
  have hfresh : (cluster.apply ⟨[(pageAddr, kind, result.page)], old⟩).version siblingAddr = 0 := by
    have hcounter := congrArg Counter.current (hfirst siblingAddr)
    rw [if_neg hne, Counter.step_none] at hcounter
    exact hcounter.trans (Cluster.version_of_none hsib)
  rw [← hfresh] at hnew
  rw [hchgs]
  refine (congrArg (Cluster.counter · other) (Cluster.apply_append [_] [_] old new)).trans ?_
  rw [Cluster.counter_apply hnew kind, hfirst]
  by_cases heq : pageAddr = other
  · subst heq
    simp [ClusterStep.advance, htouches, hne.symm]
  · by_cases hsame : siblingAddr = other
    · subst hsame
      simp [ClusterStep.advance, htouches, hne]
    · simp [ClusterStep.advance, htouches, heq, hsame]

theorem Cluster.counter_one {version : Nat} {changes : List PageChange}
    (hver : cluster.version pageAddr = version)
    (h : PageAdvance pageAddr version page changes advance)
    (htouches : step.touches cluster = [(pageAddr, advance)]) (other : Nat) :
    (cluster.apply ⟨[(pageAddr, kind, page)], changes⟩).counter other =
      (cluster.counter other).step (step.advance cluster other) := by
  subst hver
  rw [Cluster.counter_apply h, ClusterStep.advance_one htouches]

theorem ClusterStep.run_counter {outcome : Outcome}
    (hvalid : step.Valid cluster) (hrun : step.run cluster = some outcome)
    (hsmall : ∀ pageAddr, cluster.version pageAddr + 2 < 2 ^ 64) (other : Nat) :
    (cluster.apply outcome).counter other =
      (cluster.counter other).step (step.advance cluster other) := by
  cases step with
  | btrCreate schema rootAddr =>
    cases hrun
    exact Cluster.counter_one (Cluster.version_of_none hvalid)
      (.one (pVersion_newLeafPage schema (fun _ => 0) rootAddr 0) false []) rfl other
  | leafStore schema insert pageAddr k v =>
    obtain ⟨page, hpage, rfl⟩ := map_eq_some_iff.mp hrun
    have hver := Cluster.version_of_find hpage
    exact Cluster.counter_one hver
      (leafPageStore_advance (hver ▸ hsmall pageAddr) k v insert.redoLogger hvalid)
      (by simp only [ClusterStep.touches, hpage]) other
  | leafSplit schema insert pageAddr siblingAddr buffer =>
    obtain ⟨page, hpage, rfl⟩ := map_eq_some_iff.mp hrun
    have hver := Cluster.version_of_find hpage
    exact Cluster.counter_split (leafPageSplit_advance (hver ▸ hsmall pageAddr) buffer
      siblingAddr (count page) insert.redoLogger) hpage hvalid rfl other
  | internalStore schema insert pageAddr k value =>
    obtain ⟨page, hpage, hstor⟩ := bind_eq_some_iff.mp hrun
    obtain ⟨result, hstore, rfl⟩ := map_eq_some_iff.mp hstor
    have hver := Cluster.version_of_find hpage
    exact Cluster.counter_one hver
      (internalPageStore_advance (hver ▸ hsmall pageAddr) hstore) rfl other
  | internalSplit schema insert pageAddr siblingAddr buffer =>
    obtain ⟨page, hpage, rfl⟩ := map_eq_some_iff.mp hrun
    have hver := Cluster.version_of_find hpage
    exact Cluster.counter_split (internalPageSplit_advance (hver ▸ hsmall pageAddr) buffer
      siblingAddr (count page) insert.redoLogger) hpage hvalid rfl other
  | newRoot schema insert left k right newRootAddr level =>
    cases hrun
    exact Cluster.counter_one (Cluster.version_of_none hvalid)
      (updateNewRoot_advance left k right newRootAddr level insert.redoLogger) rfl other
  | leafDelete schema pageAddr k redoLogger =>
    obtain ⟨page, hpage, hdel⟩ := bind_eq_some_iff.mp hrun
    obtain ⟨result, hdelete, rfl⟩ := map_eq_some_iff.mp hdel
    have hver := Cluster.version_of_find hpage
    exact Cluster.counter_one hver (leafPageDelete_advance (hver ▸ hsmall pageAddr) hdelete)
      (by simp only [ClusterStep.touches, hpage]) other
  | allocateNewRecord schema pageAddr buffer tableId =>
    obtain ⟨allocation, halloc, rfl⟩ := map_eq_some_iff.mp hrun
    cases hpage : cluster.find .data pageAddr with
    | none =>
      rw [hpage] at halloc
      exact Cluster.counter_one
        (Cluster.version_of_none (hvalid.resolve_right (not_not_intro hpage)))
        (allocateNewRecord_advance halloc)
        (by simp only [ClusterStep.touches, hpage, if_true]) other
    | some page =>
      have hver := Cluster.version_of_find hpage
      rw [hpage] at halloc
      exact Cluster.counter_one hver
        (allocateInPage_advance (hver ▸ hsmall pageAddr) halloc)
        (by simp only [ClusterStep.touches, hpage, reduceCtorEq, if_false]) other
  | allocateNewTuple schema pageAddr buffer tableId =>
    obtain ⟨allocation, halloc, rfl⟩ := map_eq_some_iff.mp hrun
    refine Cluster.counter_one ?_ (allocateNewTuple_advance halloc) rfl other
    cases hpage : cluster.find .data pageAddr with
    | none => exact Cluster.version_of_none (hvalid.resolve_right (not_not_intro hpage))
    | some page => exact Cluster.version_of_find hpage
  | populate pageAddr offset bytes =>
    obtain ⟨page, hpage, rfl⟩ := map_eq_some_iff.mp hrun
    have hstart : 24 ≤ offset := Nat.le_trans (by decide) hvalid
    exact Cluster.counter_one (Cluster.version_of_find hpage)
      (.unchanged (pVersion_write (.inr hstart))) rfl other
  | commitWrite access commitTs slot =>
    obtain ⟨page, hpage, rfl⟩ := map_eq_some_iff.mp hrun
    have hver := Cluster.version_of_find hpage
    exact Cluster.counter_one hver
      (commitAccess_advance (hver ▸ hsmall access.pageAddr) hvalid commitTs slot) rfl other

end Step

/-! ### Runs -/

theorem ClusterStep.advance_values_le (step : ClusterStep) (pageAddr : Nat) :
    (step.advance cluster pageAddr).values ≤ 2 := by
  have htouches : ∀ touch ∈ step.touches cluster, touch.2.values ≤ 2 := by
    intro touch htouch
    unfold ClusterStep.touches at htouch
    -- Only the guards of the advances are left to split.
    grind [Advance.none]
  unfold ClusterStep.advance
  cases hfind : (step.touches cluster).find? fun touch => touch.1 = pageAddr with
  | none => exact Nat.zero_le _
  | some touch => exact htouches touch (mem_of_find?_eq_some hfind)

inductive ClusterRun : List (Cluster × ClusterStep) → Cluster → Prop where
  | start : ClusterRun [] .empty
  | step {taken : List (Cluster × ClusterStep)} {cluster : Cluster} {outcome : Outcome}
      (head : ClusterRun taken cluster) (step : ClusterStep) (valid : step.Valid cluster)
      (ran : step.run cluster = some outcome) :
      ClusterRun (taken ++ [(cluster, step)]) (cluster.apply outcome)

section Run

variable {taken : List (Cluster × ClusterStep)} {cluster : Cluster}

def advances (taken : List (Cluster × ClusterStep)) (pageAddr : Nat) : List Advance :=
  taken.map fun entry => entry.2.advance entry.1 pageAddr

theorem ClusterRun.counter_eq (h : ClusterRun taken cluster) (hshort : 2 * taken.length < 2 ^ 64) :
    ∀ pageAddr, cluster.counter pageAddr = Counter.start.run (advances taken pageAddr) ∧
      cluster.version pageAddr ≤ 2 * taken.length := by
  induction h with
  | start => exact fun pageAddr => ⟨rfl, Nat.le_refl _⟩
  | @step taken cluster outcome head step valid ran ih =>
    rw [length_append, length_singleton] at hshort
    have hpre := ih (by omega)
    have hsmall : ∀ pageAddr, cluster.version pageAddr + 2 < 2 ^ 64 := fun pageAddr => by
      have hle := (hpre pageAddr).2
      omega
    intro pageAddr
    have hstep := step.run_counter valid ran hsmall pageAddr
    refine ⟨?_, ?_⟩
    · rw [hstep, (hpre pageAddr).1, ← Counter.run_append_one, advances, advances,
        map_append, map_singleton]
    · have hle := (hpre pageAddr).2
      have hvalues := step.advance_values_le cluster pageAddr
      have hver : (cluster.apply outcome).version pageAddr =
          cluster.version pageAddr + (step.advance cluster pageAddr).values :=
        congrArg Counter.current hstep
      rw [hver, length_append, length_singleton]
      omega

/-- The records of a page carry the versions 1, 2, ... up to its version, each once,
exactly when no step of the run took one of them without a logger. -/
theorem versions_eq_range_iff (h : ClusterRun taken cluster) (hshort : 2 * taken.length < 2 ^ 64)
    {pageAddr : Nat} {kind : PageKind} {page : Page}
    (hpage : cluster.pages pageAddr = some (kind, page)) :
    cluster.versions pageAddr = List.range' 1 (pVersion page) ↔
      ∀ entry ∈ taken, ¬ (entry.2.advance entry.1 pageAddr).Loses := by
  have hver : cluster.version pageAddr = pVersion page := by
    rw [Cluster.version, hpage]
  have hgap : cluster.versions pageAddr = List.range' 1 (pVersion page) ↔
      (cluster.counter pageAddr).GapFree := by
    rw [← hver]
    rfl
  have hstart : Counter.start.GapFree := rfl
  rw [hgap, (h.counter_eq hshort pageAddr).1, Counter.gapFree_run_iff hstart, advances,
    List.forall_mem_map]

end Run

/-! ### The first root leaf -/

theorem btrCreate_run : ClusterRun [(.empty, .btrCreate pairSchema 65536)]
    (Cluster.empty.apply ⟨[(65536, .leaf, newLeafPage pairSchema (fun _ => 0) 65536 0)], []⟩) :=
  .step .start (.btrCreate pairSchema 65536) rfl rfl

/-- The constructor of the index leaves a root leaf of version 1 that no record
mentions. -/
theorem btrCreate_unlogged :
    ∃ taken cluster page, ClusterRun taken cluster ∧
      cluster.pages 65536 = some (.leaf, page) ∧ pVersion page = 1 ∧
      cluster.versions 65536 ≠ range' 1 (pVersion page) := by
  refine ⟨_, _, _, btrCreate_run, rfl, pVersion_newLeafPage _ _ _ _, ?_⟩
  decide

/-- The local tuple of the first slot of a new page at 65536. -/
def firstAccess : Access := { valueAccess .insertOnly 7 with pageAddr := 65536, offset := 96 }

/-- The first insert of a transaction into a table logs both versions of the new page, and its
commit logs the third. -/
theorem versions_eq_range_iff_allocateNewRecord :
    ∃ taken cluster page, ClusterRun taken cluster ∧
      taken.map Prod.snd = [.allocateNewRecord valueSchema 65536 (fun _ => 0) 1,
        .commitWrite firstAccess 5 ⟨0, 0⟩] ∧
      cluster.pages 65536 = some (.data, page) ∧
      cluster.version 65536 = 3 ∧ cluster.versions 65536 = range' 1 (pVersion page) := by
  obtain ⟨allocation, hallocation⟩ : ∃ allocation,
      allocateNewRecord valueSchema none (fun _ => 0) 65536 1 = some allocation :=
    Option.isSome_iff_exists.mp (by decide +kernel)
  have halloc : ClusterStep.run .empty (.allocateNewRecord valueSchema 65536 (fun _ => 0) 1) =
      some ⟨[(65536, .data, allocation.page)], allocation.changes⟩ := by
    have hnew : Cluster.empty.find .data 65536 = none := rfl
    simp only [ClusterStep.run, hnew, hallocation, map_some]
  have hformed : firstAccess.Formed :=
    { valueAccess_formed .insertOnly 7 with
      start := show 56 ≤ 96 by decide
      fits := show 96 + 53 ≤ 16392 by decide
      addr_lt := show 65536 < 2 ^ 64 by decide }
  have htaken := (ClusterRun.start.step (.allocateNewRecord valueSchema 65536 (fun _ => 0) 1)
    (Or.inl rfl) halloc).step (.commitWrite firstAccess 5 ⟨0, 0⟩) hformed rfl
  refine ⟨_, _, _, htaken, rfl, rfl, ?_, ?_⟩
  · have hcounter := (htaken.counter_eq (by simp) 65536).1
    have hthree : Counter.start.run [⟨2, true⟩, ⟨1, true⟩] = ⟨3, [1, 2, 3]⟩ := rfl
    exact (Counter.mk.inj (hcounter.trans hthree)).1
  · refine (versions_eq_range_iff htaken (by simp) rfl).mpr fun entry hentry => ?_
    simp only [nil_append, cons_append, mem_cons, not_mem_nil, or_false] at hentry
    rcases hentry with rfl | rfl
    · exact fun hloses => Bool.noConfusion hloses.2
    · exact fun hloses => Bool.noConfusion hloses.2

end MemoryEngine.VersionHistory
