import MemoryEngine.Btr.SplitReplication
import MemoryEngine.Storage.LeafUpdates

/-! Steps of a B-link tree and their replication.

The primary keeps a page for each address in use.  Each logged step changes or creates
one or two pages and appends one record for each of them. -/
namespace MemoryEngine.Btr

open ByteMemory LogCodec LogReplayer RedoLog Storage List

inductive Node where
  | leaf (page : Page)
  | internal (page : Page)

def Node.page : Node → Page
  | .leaf page => page
  | .internal page => page

abbrev Tree := Nat → Option Node

def Node.Formed (schema : RecordSchema) : Node → Prop
  | .leaf page => LeafWellFormed schema page
  | .internal page => InternalWellFormed schema page

def Tree.Formed (schema : RecordSchema) (tree : Tree) : Prop :=
  ∀ pageAddr node, tree pageAddr = some node → node.Formed schema

inductive IndexStep (schema : RecordSchema) where
  | leafStore (pageAddr : Nat) (k : DynamicCompoundKey schema) (v : List UInt8)
  | internalStore (pageAddr : Nat) (k : DynamicCompoundKey schema) (value : Nat)
  | leafSplit (pageAddr siblingAddr : Nat) (buffer : Page)
  | internalSplit (pageAddr siblingAddr : Nat) (buffer : Page)
  | newRoot (left : Nat) (k : DynamicCompoundKey schema) (right newRootAddr level : Nat)

/-- The pages that a step touched, as it leaves them, and the calls of `Append`. -/
structure StepOutcome where
  touched : List (Nat × Node)
  changes : List PageChange

namespace IndexStep

variable {schema : RecordSchema}

/-- A step with a redo logger; `none` where the page is of another kind or the store
throws. -/
def run (tree : Tree) : IndexStep schema → Option StepOutcome
  | .leafStore pageAddr k v =>
      match tree pageAddr with
      | some (.leaf page) =>
          let result := leafPageStore page k v true pageAddr
          some ⟨[(pageAddr, .leaf result.page)], result.changes⟩
      | _ => none
  | .internalStore pageAddr k value =>
      match tree pageAddr with
      | some (.internal page) =>
          (internalPageStore page pageAddr k value true).map fun result =>
            ⟨[(pageAddr, .internal result.page)], result.changes⟩
      | _ => none
  | .leafSplit pageAddr siblingAddr buffer =>
      match tree pageAddr with
      | some (.leaf page) =>
          let result := leafPageSplit schema page buffer pageAddr siblingAddr (count page) true
          some ⟨[(pageAddr, .leaf result.page), (siblingAddr, .leaf result.sibling)],
            result.changes⟩
      | _ => none
  | .internalSplit pageAddr siblingAddr buffer =>
      match tree pageAddr with
      | some (.internal page) =>
          let result := internalPageSplit schema page buffer pageAddr siblingAddr (count page) true
          some ⟨[(pageAddr, .internal result.page), (siblingAddr, .internal result.sibling)],
            result.changes⟩
      | _ => none
  | .newRoot left k right newRootAddr level =>
      let result := updateNewRoot left k right newRootAddr level true
      some ⟨[(newRootAddr, .internal result.1)], result.2⟩

/-- A store needs a free slot, and a leaf store a new key and a whole record.  A split
leaves records in the page and in its sibling; a new page gets an address that is not
in use. -/
def Valid (tree : Tree) : IndexStep schema → Prop
  | .leafStore pageAddr k v => pageAddr ≠ 0 ∧ pageAddr < 2 ^ 64 ∧
      ∀ page, tree pageAddr = some (.leaf page) →
        count page < kCardinality page ∧ Absent page k ∧ v.length = recordSize page
  | .internalStore pageAddr _ _ => pageAddr < 2 ^ 64 ∧
      ∀ page, tree pageAddr = some (.internal page) → count page < kCardinality page
  | .leafSplit pageAddr siblingAddr _ => pageAddr < 2 ^ 64 ∧ siblingAddr < 2 ^ 64 ∧
      tree siblingAddr = none ∧ ∀ page, tree pageAddr = some (.leaf page) → 0 < count page
  | .internalSplit pageAddr siblingAddr _ => pageAddr < 2 ^ 64 ∧ siblingAddr < 2 ^ 64 ∧
      tree siblingAddr = none ∧ ∀ page, tree pageAddr = some (.internal page) → 2 < count page
  | .newRoot _ _ _ newRootAddr _ => newRootAddr < 2 ^ 64 ∧ tree newRootAddr = none ∧
      RecordFits schema.getPrimaryKeyLength (schema.getPrimaryKeyLength + 8)

end IndexStep

structure Frames (translate : Nat → Nat) (addrs : List Nat) : Prop where
  hosted : ∀ pageAddr ∈ addrs, translate pageAddr ≠ 0
  apart : addrs.Pairwise fun first second =>
    translate first + kLeafPageSize ≤ translate second ∨
      translate second + kLeafPageSize ≤ translate first

variable {node : Node} {pageAddr : Nat} {touched : List (Nat × Node)}

section Replay

variable {schema : RecordSchema} {translate : Nat → Nat} {memory : Memory} {pageAddr : Nat}
  {change : PageChange} {before : Page → Prop} {after : Page} {tree : Tree}

theorem replicates_replayRecord (h : Replicates change pageAddr before after)
    (hmap : translate pageAddr ≠ 0) (hbefore : before (view memory (translate pageAddr))) :
    LiveAgree (view (replayRecord translate memory change.record) (translate pageAddr)) after := by
  obtain ⟨hsound, rfl, hagree⟩ := h
  rw [hsound.view_replayRecord hmap]
  exact hagree _ hbefore

theorem liveAgree_congr {replica other : Page} (hnode : node.Formed schema)
    (hsame : AgreeOn other replica 0 kLeafPageSize) (h : LiveAgree replica node.page) :
    LiveAgree other node.page := by
  have hslots : 64 + 2 * keySize node.page + count node.page * recordSize node.page <
      kLeafPageSize := by
    cases node with
    | leaf page => exact hnode.slots hnode.count_le
    | internal page => exact hnode.slots hnode.count_le
  rw [liveAgree_iff] at h ⊢
  intro offset hlive
  refine (hsame offset (Nat.zero_le _) ?_).trans (h offset hlive)
  unfold LiveBytes LiveHeader at hlive
  omega

theorem replicates_other (h : Replicates change pageAddr before after)
    (hmap : translate pageAddr ≠ 0) {base : Nat} (hnode : node.Formed schema)
    (hapart : base + kLeafPageSize ≤ translate pageAddr ∨ translate pageAddr + kLeafPageSize ≤ base)
    (hbefore : LiveAgree (view memory base) node.page) :
    LiveAgree (view (replayRecord translate memory change.record) base) node.page := by
  obtain ⟨hsound, rfl, -⟩ := h
  exact liveAgree_congr hnode (hsound.replayRecord_other hmap memory hapart) hbefore

def Holds (tree : Tree) (pageAddr : Nat) (replica : Page) : Prop :=
  ∀ node, tree pageAddr = some node → LiveAgree replica node.page

def Logged (tree : Tree) (changes : List PageChange) (touched : List (Nat × Node)) : Prop :=
  List.Forall₂ (fun change entry => Replicates change entry.1 (Holds tree entry.1) entry.2.page)
    changes touched

theorem logged_other {changes : List PageChange}
    (h : Logged tree changes touched) {base : Nat} (hnode : node.Formed schema)
    (hhost : ∀ entry ∈ touched, translate entry.1 ≠ 0)
    (hapart : ∀ entry ∈ touched, base + kLeafPageSize ≤ translate entry.1 ∨
      translate entry.1 + kLeafPageSize ≤ base) :
    ∀ memory, LiveAgree (view memory base) node.page →
      LiveAgree (view (replayRecords translate memory (changes.map PageChange.record)) base)
        node.page := by
  induction h with
  | nil => exact fun memory hagree => hagree
  | cons hfirst hrest ih =>
    intro memory hagree
    rw [forall_mem_cons] at hhost hapart
    exact ih hhost.2 hapart.2 _
      (replicates_other hfirst hhost.1 hnode hapart.1 hagree)

theorem logged_replayed {changes : List PageChange}
    (htree : tree.Formed schema) (h : Logged tree changes touched)
    (hform : ∀ entry ∈ touched, entry.2.Formed schema)
    (hframes : Frames translate (touched.map Prod.fst)) :
    ∀ memory, (∀ entry ∈ touched, Holds tree entry.1 (view memory (translate entry.1))) →
      ∀ entry ∈ touched,
        LiveAgree (view (replayRecords translate memory (changes.map PageChange.record))
          (translate entry.1)) entry.2.page := by
  induction h with
  | nil => exact fun memory hbefore entry hentry => absurd hentry (not_mem_nil)
  | @cons change first changes touched hfirst hrest ih =>
    intro memory hbefore
    obtain ⟨hhost, hapart⟩ := hframes
    rw [map_cons, forall_mem_cons] at hhost
    rw [map_cons, pairwise_cons] at hapart
    rw [forall_mem_cons] at hform hbefore
    have hothers : ∀ entry ∈ touched, translate first.1 + kLeafPageSize ≤ translate entry.1 ∨
        translate entry.1 + kLeafPageSize ≤ translate first.1 :=
      fun entry hentry => hapart.1 _ (mem_map_of_mem hentry)
    have hmap : ∀ entry ∈ touched, translate entry.1 ≠ 0 :=
      fun entry hentry => hhost.2 _ (mem_map_of_mem hentry)
    rw [forall_mem_cons]
    refine ⟨?_, ih hform.2 ⟨hhost.2, hapart.2⟩ _ fun entry hentry node hnode => ?_⟩
    · exact logged_other hrest hform.1 hmap hothers _
        (replicates_replayRecord hfirst hhost.1 hbefore.1)
    · exact replicates_other hfirst hhost.1 (htree _ _ hnode) (hothers entry hentry).symm
        (hbefore.2 entry hentry node hnode)

end Replay

/-! ### Steps -/

section Steps

variable {schema : RecordSchema} {tree : Tree} {outcome : StepOutcome} {change : PageChange}

theorem replicates_of_holds {after : Page} (hnode : tree pageAddr = some node)
    (h : Replicates change pageAddr (fun replica => LiveAgree replica node.page) after) :
    Replicates change pageAddr (Holds tree pageAddr) after :=
  ⟨h.sound, h.gaddr, fun replica hholds => h.agree replica (hholds node hnode)⟩

theorem replicates_of_new {after : Page}
    (h : Replicates change pageAddr (fun _ => True) after) :
    Replicates change pageAddr (Holds tree pageAddr) after :=
  ⟨h.sound, h.gaddr, fun replica _ => h.agree replica trivial⟩

structure StepLogged (schema : RecordSchema) (tree : Tree) (outcome : StepOutcome) : Prop where
  logged : Logged tree outcome.changes outcome.touched
  formed : ∀ entry ∈ outcome.touched, entry.2.Formed schema

theorem StepLogged.one
    (hreplicates : Replicates change pageAddr (Holds tree pageAddr) node.page)
    (hform : node.Formed schema) : StepLogged schema tree ⟨[(pageAddr, node)], [change]⟩ :=
  ⟨.cons hreplicates .nil, forall_mem_singleton.mpr hform⟩

theorem SplitReplicates.stepLogged {size m n siblingAddr : Nat} {first second : Node}
    {result : SplitResult} (hnode : tree pageAddr = some node)
    (h : SplitReplicates schema size m n node.page pageAddr siblingAddr result)
    (hfirst : first.page = result.page) (hsnd : second.page = result.sibling)
    (hpage : first.Formed schema) (hsib : second.Formed schema) :
    StepLogged schema tree
      ⟨[(pageAddr, first), (siblingAddr, second)], result.changes⟩ := by
  obtain ⟨old, hchgs, hold⟩ := h.changes
  rw [hchgs]
  refine ⟨.cons ?_ (.cons ?_ .nil),
    forall_mem_cons.mpr ⟨hpage, forall_mem_singleton.mpr hsib⟩⟩
  · rw [hfirst]
    exact replicates_of_holds hnode hold
  · rw [hsnd]
    exact replicates_of_new h.new

theorem leafStore_logged {page : Page} (hnode : tree pageAddr = some (.leaf page))
    (hpage : LeafWellFormed schema page) (hroom : count page < kCardinality page)
    {k : DynamicCompoundKey schema} (habs : Absent page k) {v : List UInt8}
    (hv : v.length = recordSize page) (haddr : pageAddr ≠ 0) (hbound : pageAddr < 2 ^ 64) :
    StepLogged schema tree
      ⟨[(pageAddr, .leaf (leafPageStore page k v true pageAddr).page)],
        (leafPageStore page k v true pageAddr).changes⟩ := by
  obtain ⟨index, hindex, hsrch⟩ := leafSearched_of_absent hpage habs v
  obtain ⟨change, hchg, hreplicates⟩ :=
    leafInsert_replicates hpage hroom hindex hv haddr hbound
  have hstore : leafPageStore page k v true pageAddr = leafInsert page v index true pageAddr := by
    rw [leafPageStore, hsrch]
  rw [hstore, hchg]
  exact .one (replicates_of_holds hnode hreplicates)
    (leafInsert_wellFormed hpage hroom hindex v true pageAddr)

theorem internalStore_logged {page : Page} (hnode : tree pageAddr = some (.internal page))
    (hpage : InternalWellFormed schema page) (hroom : count page < kCardinality page)
    (hbound : pageAddr < 2 ^ 64) {k : DynamicCompoundKey schema} {value : Nat}
    {result : StoreResult} (h : internalPageStore page pageAddr k value true = some result) :
    StepLogged schema tree ⟨[(pageAddr, .internal result.page)], result.changes⟩ := by
  obtain ⟨change, hchg, hreplicates⟩ := internalPageStore_replicates hpage hroom hbound h
  rw [hchg]
  exact .one (replicates_of_holds hnode hreplicates) (internalPageStore_wellFormed hpage hroom h)

theorem run_logged (htree : tree.Formed schema) {step : IndexStep schema} (hvalid : step.Valid tree)
    (hrun : step.run tree = some outcome) : StepLogged schema tree outcome := by
  cases step with
  | leafStore pageAddr k v =>
    obtain ⟨haddr, hbound, hpage⟩ := hvalid
    simp only [IndexStep.run] at hrun
    split at hrun
    · rename_i page hnode
      cases hrun
      obtain ⟨hroom, habs, hv⟩ := hpage page hnode
      exact leafStore_logged hnode (htree _ _ hnode) hroom habs hv haddr hbound
    · cases hrun
  | internalStore pageAddr k value =>
    obtain ⟨hbound, hpage⟩ := hvalid
    simp only [IndexStep.run] at hrun
    split at hrun
    · rename_i page hnode
      obtain ⟨result, hstore, rfl⟩ := Option.map_eq_some_iff.mp hrun
      exact internalStore_logged hnode (htree _ _ hnode) (hpage page hnode) hbound hstore
    · cases hrun
  | leafSplit pageAddr siblingAddr buffer =>
    obtain ⟨hbound, hnew, -, hpage⟩ := hvalid
    simp only [IndexStep.run] at hrun
    split at hrun
    · rename_i page hnode
      cases hrun
      have hsplit := leafPageSplit_replicates (htree _ _ hnode) (hpage page hnode) buffer hbound
        hnew
      exact hsplit.stepLogged hnode rfl rfl hsplit.pageFormed hsplit.siblingFormed
    · cases hrun
  | internalSplit pageAddr siblingAddr buffer =>
    obtain ⟨hbound, hnew, -, hpage⟩ := hvalid
    simp only [IndexStep.run] at hrun
    split at hrun
    · rename_i page hnode
      cases hrun
      have hcount := hpage page hnode
      have hsplit := internalPageSplit_replicates (htree _ _ hnode) buffer hbound hnew
      have hfirst := hsplit.pageCount
      have hsnd := hsplit.siblingCount
      exact hsplit.stepLogged hnode rfl rfl ⟨hsplit.pageFormed, by omega⟩
        ⟨hsplit.siblingFormed, by omega⟩
    · cases hrun
  | newRoot left k right newRootAddr level =>
    obtain ⟨hbound, -, hfits⟩ := hvalid
    cases hrun
    obtain ⟨hform, hchgs, hnew⟩ :=
      updateNewRoot_replicates hfits left k right hbound level
    exact .one (replicates_of_new hnew) hform

/-- After one step with a redo logger and the replay of what it appended, the replica
holds the live content of every page that the step touched. -/
theorem indexStep_replicated (htree : tree.Formed schema) (step : IndexStep schema)
    (hvalid : step.Valid tree) (hrun : step.run tree = some outcome) {translate : Nat → Nat}
    (hframes : Frames translate (outcome.touched.map Prod.fst)) {memory : Memory}
    (hbefore : ∀ entry ∈ outcome.touched, ∀ node, tree entry.1 = some node →
      LiveAgree (view memory (translate entry.1)) node.page) :
    ∀ entry ∈ outcome.touched,
      LiveAgree (view (replayRecords translate memory (outcome.changes.map PageChange.record))
        (translate entry.1)) entry.2.page := by
  have hlog := run_logged htree hvalid hrun
  exact logged_replayed htree hlog.logged hlog.formed hframes memory hbefore

end Steps

/-! ### Runs -/

def Tree.store (tree : Tree) (touched : List (Nat × Node)) : Tree :=
  touched.foldl (fun tree entry => Function.update tree entry.1 (some entry.2)) tree

structure Hosting (translate : Nat → Nat) (used : Nat → Prop) : Prop where
  hosted : ∀ pageAddr, used pageAddr → translate pageAddr ≠ 0
  apart : ∀ first second, used first → used second → first ≠ second →
    translate first + kLeafPageSize ≤ translate second ∨
      translate second + kLeafPageSize ≤ translate first

/-- Steps with a redo logger, one after the other, and the calls of `Append` that they make. -/
inductive LoggedRun (schema : RecordSchema) (used : Nat → Prop) (start : Tree) :
    Tree → List PageChange → Prop where
  | refl : LoggedRun schema used start start []
  | step {tree : Tree} {changes : List PageChange} {outcome : StepOutcome}
      (head : LoggedRun schema used start tree changes) (step : IndexStep schema)
      (valid : step.Valid tree) (ran : step.run tree = some outcome)
      (known : ∀ entry ∈ outcome.touched, used entry.1) :
      LoggedRun schema used start (tree.store outcome.touched) (changes ++ outcome.changes)

structure Replicated (schema : RecordSchema) (translate : Nat → Nat) (used : Nat → Prop)
    (tree : Tree) (memory : Memory) : Prop where
  formed : tree.Formed schema
  known : ∀ pageAddr node, tree pageAddr = some node → used pageAddr
  holds : ∀ pageAddr node, tree pageAddr = some node →
    LiveAgree (view memory (translate pageAddr)) node.page

section Runs

variable {schema : RecordSchema} {translate : Nat → Nat} {used : Nat → Prop} {tree : Tree}
  {memory : Memory} {outcome : StepOutcome}

theorem store_cases (h : tree.store touched pageAddr = some node) :
    (pageAddr, node) ∈ touched ∨ pageAddr ∉ touched.map Prod.fst ∧ tree pageAddr = some node := by
  induction touched generalizing tree with
  | nil => exact .inr ⟨not_mem_nil, h⟩
  | cons entry touched ih =>
    rcases ih h with hmem | ⟨hnot, hold⟩
    · exact .inl (mem_cons_of_mem _ hmem)
    · dsimp only at hold
      by_cases heq : pageAddr = entry.1
      · subst heq
        rw [Function.update_self] at hold
        cases hold
        exact .inl mem_cons_self
      · rw [Function.update_of_ne heq] at hold
        exact .inr ⟨by simp only [map_cons, mem_cons, not_or]; exact ⟨heq, hnot⟩, hold⟩

theorem nodup_of_new {siblingAddr : Nat} (hnode : tree pageAddr = some node)
    (hnew : tree siblingAddr = none) : [pageAddr, siblingAddr].Nodup := by
  have hne : pageAddr ≠ siblingAddr := fun heq => by
    rw [heq, hnew] at hnode
    cases hnode
  simp [hne]

theorem touched_nodup {step : IndexStep schema} (hvalid : step.Valid tree)
    (hrun : step.run tree = some outcome) : (outcome.touched.map Prod.fst).Nodup := by
  cases step with
  | leafStore pageAddr k v =>
    simp only [IndexStep.run] at hrun
    split at hrun
    · cases hrun
      simp
    · cases hrun
  | internalStore pageAddr k value =>
    simp only [IndexStep.run] at hrun
    split at hrun
    · obtain ⟨result, -, rfl⟩ := Option.map_eq_some_iff.mp hrun
      simp
    · cases hrun
  | leafSplit pageAddr siblingAddr buffer =>
    simp only [IndexStep.run] at hrun
    split at hrun
    · rename_i page hnode
      cases hrun
      exact nodup_of_new hnode hvalid.2.2.1
    · cases hrun
  | internalSplit pageAddr siblingAddr buffer =>
    simp only [IndexStep.run] at hrun
    split at hrun
    · rename_i page hnode
      cases hrun
      exact nodup_of_new hnode hvalid.2.2.1
    · cases hrun
  | newRoot left k right newRootAddr level =>
    cases hrun
    simp

theorem Hosting.frames (h : Hosting translate used) {addrs : List Nat} (hnodup : addrs.Nodup)
    (hknown : ∀ pageAddr ∈ addrs, used pageAddr) : Frames translate addrs :=
  ⟨fun pageAddr hmem => h.hosted pageAddr (hknown pageAddr hmem),
    hnodup.imp_of_mem fun hfirst hsnd hne =>
      h.apart _ _ (hknown _ hfirst) (hknown _ hsnd) hne⟩

theorem Replicated.step (hhosting : Hosting translate used)
    (h : Replicated schema translate used tree memory) {step : IndexStep schema}
    (hvalid : step.Valid tree) (hrun : step.run tree = some outcome)
    (hknown : ∀ entry ∈ outcome.touched, used entry.1) :
    Replicated schema translate used (tree.store outcome.touched)
      (replayRecords translate memory (outcome.changes.map PageChange.record)) := by
  obtain ⟨hlog, hform⟩ := run_logged h.formed hvalid hrun
  have hframes : Frames translate (outcome.touched.map Prod.fst) :=
    hhosting.frames (touched_nodup hvalid hrun) fun pageAddr hmem => by
      obtain ⟨entry, hentry, rfl⟩ := mem_map.mp hmem
      exact hknown entry hentry
  have hrepl := logged_replayed h.formed hlog hform hframes memory
    fun entry _ node hnode => h.holds _ _ hnode
  refine ⟨fun pageAddr node hnode => ?_, fun pageAddr node hnode => ?_,
    fun pageAddr node hnode => ?_⟩
  · rcases store_cases hnode with hmem | ⟨-, hold⟩
    · exact hform _ hmem
    · exact h.formed _ _ hold
  · rcases store_cases hnode with hmem | ⟨-, hold⟩
    · exact hknown _ hmem
    · exact h.known _ _ hold
  · rcases store_cases hnode with hmem | ⟨hnot, hold⟩
    · exact hrepl _ hmem
    · have hother : ∀ entry ∈ outcome.touched, pageAddr ≠ entry.1 := fun entry hentry heq =>
        hnot (heq ▸ mem_map_of_mem hentry)
      exact logged_other hlog (h.formed _ _ hold)
        (fun entry hentry => hhosting.hosted _ (hknown entry hentry))
        (fun entry hentry => hhosting.apart _ _ (h.known _ _ hold) (hknown entry hentry)
          (hother entry hentry)) memory (h.holds _ _ hold)

/-- Along every run of logged steps the replica holds every page of the primary. -/
theorem LoggedRun.replicated (hhosting : Hosting translate used) {later : Tree}
    {changes : List PageChange} (hrun : LoggedRun schema used tree later changes)
    (h : Replicated schema translate used tree memory) :
    Replicated schema translate used later
      (replayRecords translate memory (changes.map PageChange.record)) := by
  induction hrun with
  | refl => exact h
  | step head step valid ran known ih =>
    rw [map_append, replayRecords, foldl_append]
    exact ih.step hhosting valid ran known

end Runs

/-! ### A tree with one leaf -/

def pairTree : Tree := fun pageAddr => if pageAddr = 1 then some (.leaf pairLeaf) else none

def pairTranslate (pageAddr : Nat) : Nat := pageAddr * 65536

def pairMemory : Memory := fun address => pairLeaf (address % 65536)

theorem pairTree_formed : pairTree.Formed pairSchema := by
  intro pageAddr node hnode
  unfold pairTree at hnode
  split at hnode
  · cases hnode
    exact pairLeaf_wellFormed
  · cases hnode

theorem pairMemory_holds (hnode : pairTree pageAddr = some node) :
    LiveAgree (view pairMemory (pairTranslate pageAddr)) node.page := by
  have hform := pairTree_formed _ _ hnode
  unfold pairTree at hnode
  split at hnode
  · rename_i haddr
    cases hnode
    refine liveAgree_congr hform ?_ fun block _ => AgreeOn.refl pairLeaf _ _
    intro offset _ hlt
    have hmod : (pageAddr * 65536 + offset) % 65536 = offset := by
      have hsize : kLeafPageSize = 16392 := rfl
      omega
    rw [view, pairMemory, pairTranslate, hmod]
  · cases hnode

def pairSplit : IndexStep pairSchema := .leafSplit 1 2 fun _ => 0

theorem pairSplit_valid : pairSplit.Valid pairTree := by
  refine ⟨by decide, by decide, rfl, fun page hpage => ?_⟩
  cases hpage
  decide

theorem indexStep_replicated_pairSplit :
    ∃ outcome, pairSplit.run pairTree = some outcome ∧
      outcome.touched.map Prod.fst = [1, 2] ∧
      ∀ entry ∈ outcome.touched,
        LiveAgree (view (replayRecords pairTranslate pairMemory
          (outcome.changes.map PageChange.record)) (pairTranslate entry.1)) entry.2.page := by
  have hframes : Frames pairTranslate [1, 2] := ⟨by decide, by decide⟩
  refine ⟨_, rfl, rfl, indexStep_replicated pairTree_formed pairSplit pairSplit_valid rfl
    hframes fun entry _ node hnode => pairMemory_holds hnode⟩

theorem replicated_pairSplit : ∃ outcome, pairSplit.run pairTree = some outcome ∧
    Replicated pairSchema pairTranslate (fun pageAddr => pageAddr = 1 ∨ pageAddr = 2)
      (pairTree.store outcome.touched)
      (replayRecords pairTranslate pairMemory (outcome.changes.map PageChange.record)) := by
  have hhosting : Hosting pairTranslate fun pageAddr => pageAddr = 1 ∨ pageAddr = 2 := by
    have hsize : kLeafPageSize = 16392 := rfl
    constructor <;> simp only [pairTranslate] <;> omega
  have hstart : Replicated pairSchema pairTranslate (fun pageAddr => pageAddr = 1 ∨ pageAddr = 2)
      pairTree pairMemory := by
    refine ⟨pairTree_formed, fun pageAddr node hnode => ?_, fun _ _ => pairMemory_holds⟩
    by_contra hother
    simp [pairTree, (not_or.mp hother).1] at hnode
  refine ⟨_, rfl,
    LoggedRun.replicated hhosting (.step .refl pairSplit pairSplit_valid rfl ?_) hstart⟩
  intro entry hentry
  have hmem : entry.1 ∈ [1, 2] := mem_map_of_mem hentry
  simpa using hmem

end MemoryEngine.Btr
