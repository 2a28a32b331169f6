import Mathlib.Algebra.Ring.Nat
import Mathlib.Data.Fintype.Basic
import Mathlib.Data.List.FinRange
import Mathlib.Logic.Function.Basic
import MemoryEngine.Library.TransitionSystem

/-! Garbage collection by the least snapshot of the cluster
(`GetSnapshot`, `ReleaseSnapshot`, `ProcessSnapshotPush`, `BroadCastLeastSP` and
`GarbageCollection` in `txn/TransactionManagerMVOCC.cpp`).

Each node reports a bound of the snapshots that it uses and will use.  A collector takes
the minimum over the reports it has.  `cluster_least_sp_` is filled with zeros on the first
iteration only if it is empty: a report that comes before that iteration leaves the nodes
that have not reported out of the minimum. -/
namespace MemoryEngine.Txn.ClusterGc

open List Function Option

inductive Phase where
  | start
  /-- At the top of the loop. -/
  | compare
  /-- `largest_snapshot` is behind `largest_sp_acquired`. -/
  | reload
  | refresh
  /-- Before `garb_mtx` is locked. -/
  | measure
  | broadcast (leastSpThisNode : Nat)
  | initCluster (leastSpThisNode : Nat)
  /-- Before step 2 of the loop. -/
  | minimum (leastSpThisNode : Nat)
  deriving DecidableEq, Repr

structure Node (n : Nat) where
  localTsNext : Nat
  /-- What threads in `GetSnapshot` have read and not pinned yet.  They hold `garb_mtx`
  shared. -/
  loaded : List Nat
  /-- `pined_snapshot_this_node`, with an element for each pin. -/
  pinned : List Nat
  largestSpAcquired : Nat
  clusterLeastSp : Fin n → Option Nat
  phase : Phase
  largestSnapshot : Nat
  lastBroadcastedSp : Nat
  lastGcTs : Nat

structure Cluster (n : Nat) where
  nodes : Fin n → Node n
  /-- The `push_least_snapshot` messages by sender and receiver, oldest first. -/
  mail : Fin n → Fin n → List Nat

inductive Event (n : Nat) where
  /-- A commit or the snapshot thread raises `local_ts_next`. -/
  | advance (node : Fin n) (ts : Nat)
  /-- The first half of `GetSnapshot`. -/
  | loadSnapshot (node : Fin n)
  /-- The critical section of `pin_sp_mtx` in `GetSnapshot`. -/
  | pinSnapshot (node : Fin n) (snapshotTs : Nat)
  | releaseSnapshot (node : Fin n) (snapshotTs : Nat)
  | garbageCollection (node : Fin n)
  | processSnapshotPush (sender receiver : Fin n)

variable {n : Nat}

/-- `least_sp_across_cluster`. -/
def leastSpAcrossCluster (clusterLeastSp : Fin n → Option Nat) : Nat :=
  ((finRange n).filterMap clusterLeastSp).foldl min (2 ^ 64 - 1)

namespace Node

variable (node : Node n)

/-- `least_sp_this_node` under `garb_mtx` and `pin_sp_mtx`. -/
def leastSpThisNode : Nat :=
  match node.pinned.min? with
  | none => node.largestSnapshot
  | some snapshotTs => snapshotTs

def clusterIsEmpty : Bool := decide (∀ other, node.clusterLeastSp other = none)

end Node

namespace Cluster

variable (cluster : Cluster n) (index : Fin n)

def setNode (node : Node n) : Cluster n :=
  { cluster with nodes := update cluster.nodes index node }

/-- `BroadCastLeastSP`. -/
def broadCastLeastSP (sender : Fin n) (leastSp : Nat) : Cluster n :=
  { cluster with mail := update cluster.mail sender fun receiver =>
      if receiver = sender then cluster.mail sender receiver
      else cluster.mail sender receiver ++ [leastSp] }

def reports (leastSp : Nat) : Fin n → Option Nat :=
  update (cluster.nodes index).clusterLeastSp index (some leastSp)

/-- The argument of `GarbageCollectionBySnapshot` if the next step of the collector calls
it. -/
def garbageCollectionBySnapshot : Option Nat :=
  match (cluster.nodes index).phase with
  | .minimum leastSp =>
      let ts := leastSpAcrossCluster (cluster.reports index leastSp)
      let last := (cluster.nodes index).lastGcTs
      if last < ts ∨ last = 2 ^ 64 - 1 then some ts else none
  | _ => none

/-- One step of the loop of `GarbageCollection`. -/
def garbageCollection : Option (Cluster n) :=
  let node := cluster.nodes index
  match node.phase with
  | .start => some (cluster.setNode index
      { node with largestSnapshot := node.largestSpAcquired, phase := .compare })
  | .compare => some (cluster.setNode index
      { node with phase := if node.largestSnapshot < node.largestSpAcquired then .reload
          else .refresh })
  | .reload => some (cluster.setNode index
      { node with largestSnapshot := node.largestSpAcquired, phase := .measure })
  | .refresh => some (cluster.setNode index
      { node with
        largestSnapshot := node.localTsNext
        largestSpAcquired := node.localTsNext
        phase := .measure })
  | .measure =>
      -- The exclusive lock waits for the threads in `GetSnapshot`.
      if node.loaded = [] then
        some (cluster.setNode index { node with phase := .broadcast node.leastSpThisNode })
      else none
  | .broadcast leastSp =>
      if leastSp ≠ node.lastBroadcastedSp then
        some ((cluster.broadCastLeastSP index leastSp).setNode index
          { node with lastBroadcastedSp := leastSp, phase := .initCluster leastSp })
      else some (cluster.setNode index { node with phase := .initCluster leastSp })
  | .initCluster leastSp => some (cluster.setNode index
      { node with
        clusterLeastSp := if node.clusterIsEmpty then fun _ => some 0 else node.clusterLeastSp
        phase := .minimum leastSp })
  | .minimum leastSp => some (cluster.setNode index
      { node with
        clusterLeastSp := cluster.reports index leastSp
        lastGcTs := (cluster.garbageCollectionBySnapshot index).getD node.lastGcTs
        phase := .compare })

end Cluster

def gcStep (cluster : Cluster n) : Event n → Option (Cluster n)
  | .advance index ts =>
      let node := cluster.nodes index
      some (cluster.setNode index { node with localTsNext := max node.localTsNext ts })
  | .loadSnapshot index =>
      let node := cluster.nodes index
      some (cluster.setNode index { node with loaded := node.localTsNext :: node.loaded })
  | .pinSnapshot index snapshotTs =>
      let node := cluster.nodes index
      if snapshotTs ∈ node.loaded then
        some (cluster.setNode index
          { node with
            loaded := node.loaded.erase snapshotTs
            pinned := snapshotTs :: node.pinned
            largestSpAcquired := if node.largestSpAcquired < snapshotTs then snapshotTs
              else node.largestSpAcquired })
      else none
  | .releaseSnapshot index snapshotTs =>
      let node := cluster.nodes index
      if snapshotTs ∈ node.pinned then
        some (cluster.setNode index { node with pinned := node.pinned.erase snapshotTs })
      else none
  | .garbageCollection index => cluster.garbageCollection index
  | .processSnapshotPush sender receiver =>
      match cluster.mail sender receiver with
      | leastSpn :: rest =>
          let node := cluster.nodes receiver
          some ({ cluster with
              mail := update cluster.mail sender
                (update (cluster.mail sender) receiver rest) }.setNode receiver
            { node with
              clusterLeastSp := update node.clusterLeastSp sender (some leastSpn) })
      | [] => none

structure Cluster.Initial (cluster : Cluster n) : Prop where
  nodes : ∀ index, ∃ localTsNext, cluster.nodes index =
    { localTsNext := localTsNext
      loaded := []
      pinned := []
      largestSpAcquired := 0
      clusterLeastSp := fun _ => none
      phase := .start
      largestSnapshot := 0
      lastBroadcastedSp := 0
      lastGcTs := 0 }
  mail : ∀ sender receiver, cluster.mail sender receiver = []

/-! ### Bounds -/

/-- A timestamp that no snapshot of the node is or will be below. -/
structure Bounds (node : Node n) (ts : Nat) : Prop where
  next : ts ≤ node.localTsNext
  loaded : ∀ snapshotTs ∈ node.loaded, ts ≤ snapshotTs
  pinned : ∀ snapshotTs ∈ node.pinned, ts ≤ snapshotTs

/-- The reports that a collector is about to use are bounds. -/
def PhaseBounds (node : Node n) : Prop :=
  match node.phase with
  | .broadcast leastSp => Bounds node leastSp
  | .initCluster leastSp => Bounds node leastSp
  | .minimum leastSp => Bounds node leastSp
  | _ => True

structure NodeInv (node : Node n) : Prop where
  loaded : ∀ snapshotTs ∈ node.loaded, snapshotTs ≤ node.localTsNext
  pinned : ∀ snapshotTs ∈ node.pinned, snapshotTs ≤ node.localTsNext
  acquired : node.largestSpAcquired ≤ node.localTsNext
  largest : node.largestSnapshot ≤ node.localTsNext
  phase : PhaseBounds node

structure Inv (cluster : Cluster n) : Prop where
  nodes : ∀ index, NodeInv (cluster.nodes index)
  mail : ∀ sender receiver, ∀ leastSp ∈ cluster.mail sender receiver,
    Bounds (cluster.nodes sender) leastSp
  reports : ∀ index other leastSp, (cluster.nodes index).clusterLeastSp other = some leastSp →
    Bounds (cluster.nodes other) leastSp

theorem foldl_min_le (values : List Nat) (start : Nat) :
    values.foldl min start ≤ start ∧ ∀ value ∈ values, values.foldl min start ≤ value := by
  induction values generalizing start with
  | nil => exact ⟨Nat.le_refl _, fun _ hmem => absurd hmem not_mem_nil⟩
  | cons head tail ih =>
    obtain ⟨hstart, htail⟩ := ih (min start head)
    refine ⟨Nat.le_trans hstart (Nat.min_le_left _ _), fun value hmem => ?_⟩
    rcases mem_cons.mp hmem with rfl | hmem
    · exact Nat.le_trans hstart (Nat.min_le_right _ _)
    · exact htail value hmem

variable {leastSp : Nat}

theorem leastSpAcrossCluster_le {clusterLeastSp : Fin n → Option Nat} {index : Fin n}
    (h : clusterLeastSp index = some leastSp) : leastSpAcrossCluster clusterLeastSp ≤ leastSp :=
  (foldl_min_le _ _).2 leastSp (mem_filterMap.mpr ⟨index, mem_finRange index, h⟩)

/-- A node that uses the same snapshots or fewer, and new ones from its counter. -/
structure Moves (node after : Node n) : Prop where
  next : node.localTsNext ≤ after.localTsNext
  loaded : ∀ snapshotTs ∈ after.loaded, snapshotTs ∈ node.loaded ∨ snapshotTs = node.localTsNext
  pinned : ∀ snapshotTs ∈ after.pinned, snapshotTs ∈ node.pinned ∨ snapshotTs ∈ node.loaded

section Bounds

variable {node after : Node n} {ts : Nat}

theorem Moves.of_eq (hnext : after.localTsNext = node.localTsNext)
    (hloaded : after.loaded = node.loaded) (hpinned : after.pinned = node.pinned) :
    Moves node after where
  next := Nat.le_of_eq hnext.symm
  loaded := fun _ hmem => .inl (hloaded ▸ hmem)
  pinned := fun _ hmem => .inl (hpinned ▸ hmem)

theorem Bounds.mono (h : Bounds node ts) {smaller : Nat} (hle : smaller ≤ ts) :
    Bounds node smaller where
  next := Nat.le_trans hle h.next
  loaded := fun snapshotTs hmem => Nat.le_trans hle (h.loaded snapshotTs hmem)
  pinned := fun snapshotTs hmem => Nat.le_trans hle (h.pinned snapshotTs hmem)

theorem Bounds.moves (h : Bounds node ts) (hmoves : Moves node after) : Bounds after ts where
  next := Nat.le_trans h.next hmoves.next
  loaded := fun snapshotTs hmem => (hmoves.loaded snapshotTs hmem).elim (h.loaded snapshotTs)
    fun heq => heq ▸ h.next
  pinned := fun snapshotTs hmem => (hmoves.pinned snapshotTs hmem).elim (h.pinned snapshotTs)
    (h.loaded snapshotTs)

theorem PhaseBounds.moves (h : PhaseBounds node) (hmoves : Moves node after)
    (hphase : after.phase = node.phase) : PhaseBounds after := by
  unfold PhaseBounds at h ⊢
  rw [hphase]
  split <;> simp_all only <;> exact Bounds.moves h hmoves

theorem NodeInv.bounds_leastSpThisNode (h : NodeInv node) (hloaded : node.loaded = []) :
    Bounds node node.leastSpThisNode := by
  have hnone : ∀ ts, ∀ snapshotTs ∈ node.loaded, ts ≤ snapshotTs := fun ts snapshotTs hmem => by
    rw [hloaded] at hmem
    cases hmem
  unfold Node.leastSpThisNode
  split
  · rename_i hmin
    have hnil : node.pinned = [] := min?_eq_none_iff.mp hmin
    refine ⟨h.largest, hnone _, fun snapshotTs hmem => ?_⟩
    rw [hnil] at hmem
    cases hmem
  · rename_i least hmin
    obtain ⟨hmem, hle⟩ := min?_eq_some_iff.mp hmin
    exact ⟨h.pinned least hmem, hnone _, hle⟩

end Bounds

/-! ### Steps -/

section Steps

variable {cluster after : Cluster n} {event : Event n} {index : Fin n} {node : Node n}

theorem reports_self (leastSp : Nat) : cluster.reports index leastSp index = some leastSp :=
  update_self _ _ _

theorem reports_of_ne (leastSp : Nat) {other : Fin n} (h : other ≠ index) :
    cluster.reports index leastSp other = (cluster.nodes index).clusterLeastSp other :=
  update_of_ne h _ _

/-- What an event does: it changes one node, and every report in the cluster is an old one
or comes from the collector of that node. -/
structure Transition (cluster after : Cluster n) (event : Event n) (index : Fin n)
    (node : Node n) : Prop where
  nodes : after.nodes = update cluster.nodes index node
  moves : Moves (cluster.nodes index) node
  inv : NodeInv (cluster.nodes index) → NodeInv node
  mail : ∀ sender receiver, ∀ leastSp ∈ after.mail sender receiver,
    leastSp ∈ cluster.mail sender receiver ∨
      sender = index ∧ receiver ≠ index ∧ (cluster.nodes index).phase = .broadcast leastSp
  reports : ∀ other leastSp, node.clusterLeastSp other = some leastSp →
    (cluster.nodes index).clusterLeastSp other = some leastSp ∨ leastSp = 0 ∨
      other = index ∧ (cluster.nodes index).phase = .minimum leastSp ∨
      leastSp ∈ cluster.mail other index
  kept : ∀ other, (cluster.nodes index).clusterLeastSp other ≠ none →
    node.clusterLeastSp other ≠ none
  /-- A map that was empty is empty, or has the other nodes, or got its first report. -/
  filled : (∀ leastSp, (cluster.nodes index).phase ≠ .minimum leastSp) →
    (∀ other, (cluster.nodes index).clusterLeastSp other = none) →
    (∀ other, node.clusterLeastSp other = none) ∨
      (∀ other, other ≠ index → node.clusterLeastSp other ≠ none) ∨
      ∃ sender, event = .processSnapshotPush sender index ∧ cluster.mail sender index ≠ [] ∧
        node.clusterLeastSp sender ≠ none
  minimum : ∀ leastSp, node.phase = .minimum leastSp →
    (cluster.nodes index).phase = .minimum leastSp ∨ ∃ other, node.clusterLeastSp other ≠ none

theorem Transition.setNode (hmoves : Moves (cluster.nodes index) node)
    (hinv : NodeInv (cluster.nodes index) → NodeInv node)
    (hmap : node.clusterLeastSp = (cluster.nodes index).clusterLeastSp)
    (hphase : ∀ leastSp, node.phase = .minimum leastSp → (cluster.nodes index).phase = .minimum
      leastSp) : Transition cluster (cluster.setNode index node) event index node where
  nodes := rfl
  moves := hmoves
  inv := hinv
  mail := fun _ _ _ => .inl
  reports := fun _ _ hrpt => .inl (hmap ▸ hrpt)
  kept := fun _ hne => hmap ▸ hne
  filled := fun _ hnone => .inl (hmap ▸ hnone)
  minimum := fun leastSp hminimum => .inl (hphase leastSp hminimum)

theorem NodeInv.collector {before : Node n} (h : NodeInv before)
    (hnext : node.localTsNext = before.localTsNext) (hloaded : node.loaded = before.loaded)
    (hpinned : node.pinned = before.pinned)
    (hacquired : node.largestSpAcquired ≤ before.localTsNext)
    (hlargest : node.largestSnapshot ≤ before.localTsNext) (hphase : PhaseBounds node) :
    NodeInv node where
  loaded := by rw [hnext, hloaded]; exact h.loaded
  pinned := by rw [hnext, hpinned]; exact h.pinned
  acquired := hnext ▸ hacquired
  largest := hnext ▸ hlargest
  phase := hphase

theorem NodeInv.bounds_of_phase (h : NodeInv node)
    (hphase : node.phase = .broadcast leastSp ∨ node.phase = .initCluster leastSp ∨
      node.phase = .minimum leastSp) : Bounds node leastSp := by
  have hbounds := h.phase
  unfold PhaseBounds at hbounds
  rcases hphase with hphase | hphase | hphase <;> rw [hphase] at hbounds <;> exact hbounds

theorem transition_broadcast
    (hphase : (cluster.nodes index).phase = .broadcast leastSp) :
    Transition cluster ((cluster.broadCastLeastSP index leastSp).setNode index
        { cluster.nodes index with lastBroadcastedSp := leastSp, phase := .initCluster leastSp })
      event index
      { cluster.nodes index with lastBroadcastedSp := leastSp, phase := .initCluster leastSp } where
  nodes := rfl
  moves := .of_eq rfl rfl rfl
  inv := fun h => h.collector rfl rfl rfl h.acquired h.largest
    ((h.bounds_of_phase (.inl hphase)).moves (.of_eq rfl rfl rfl))
  mail := fun sender receiver value hmem => by
    have hmail : value ∈ (cluster.broadCastLeastSP index leastSp).mail sender receiver := hmem
    simp only [Cluster.broadCastLeastSP] at hmail
    by_cases hsender : sender = index
    · subst hsender
      rw [update_self] at hmail
      split at hmail
      · exact .inl hmail
      · rename_i hreceiver
        rw [mem_append, mem_singleton] at hmail
        rcases hmail with hold | rfl
        · exact .inl hold
        · exact .inr ⟨rfl, hreceiver, hphase⟩
    · rw [update_of_ne hsender] at hmail
      exact .inl hmail
  reports := fun _ _ => .inl
  kept := fun _ => id
  filled := fun _ => .inl
  minimum := fun _ hminimum => by cases hminimum

theorem transition_initialize
    (hphase : (cluster.nodes index).phase = .initCluster leastSp) :
    Transition cluster (cluster.setNode index
        { cluster.nodes index with
          clusterLeastSp := if (cluster.nodes index).clusterIsEmpty then fun _ => some 0
            else (cluster.nodes index).clusterLeastSp
          phase := .minimum leastSp }) event index
      { cluster.nodes index with
        clusterLeastSp := if (cluster.nodes index).clusterIsEmpty then fun _ => some 0
          else (cluster.nodes index).clusterLeastSp
        phase := .minimum leastSp } where
  nodes := rfl
  moves := .of_eq rfl rfl rfl
  inv := fun h => h.collector rfl rfl rfl h.acquired h.largest
    ((h.bounds_of_phase (.inr (.inl hphase))).moves (.of_eq rfl rfl rfl))
  mail := fun _ _ _ => .inl
  reports := fun other value hrpt => by
    split at hrpt
    · cases hrpt
      exact .inr (.inl rfl)
    · exact .inl hrpt
  kept := fun other hne => by
    split
    · exact some_ne_none 0
    · exact hne
  filled := fun _ hnone => .inr (.inl fun other _ => by
    have hempty : (cluster.nodes index).clusterIsEmpty = true := decide_eq_true hnone
    simp only [hempty, if_true]
    exact some_ne_none 0)
  minimum := fun _ _ => by
    refine .inr ?_
    split
    · exact ⟨index, some_ne_none 0⟩
    · rename_i hnone
      simpa [Node.clusterIsEmpty] using hnone

theorem transition_minimum
    (hphase : (cluster.nodes index).phase = .minimum leastSp) (lastGcTs : Nat) :
    Transition cluster (cluster.setNode index
        { cluster.nodes index with
          clusterLeastSp := cluster.reports index leastSp
          lastGcTs := lastGcTs
          phase := .compare }) event index
      { cluster.nodes index with
        clusterLeastSp := cluster.reports index leastSp
        lastGcTs := lastGcTs
        phase := .compare } where
  nodes := rfl
  moves := .of_eq rfl rfl rfl
  inv := fun h => h.collector rfl rfl rfl h.acquired h.largest trivial
  mail := fun _ _ _ => .inl
  reports := fun other value hrpt => by
    have hvalue : cluster.reports index leastSp other = some value := hrpt
    by_cases hother : other = index
    · subst hother
      rw [reports_self] at hvalue
      cases hvalue
      exact .inr (.inr (.inl ⟨rfl, hphase⟩))
    · rw [reports_of_ne leastSp hother] at hvalue
      exact .inl hvalue
  kept := fun other hne => by
    show cluster.reports index leastSp other ≠ none
    by_cases hother : other = index
    · subst hother
      rw [reports_self]
      exact some_ne_none _
    · rwa [reports_of_ne leastSp hother]
  filled := fun hnot => absurd hphase (hnot leastSp)
  minimum := fun _ hminimum => by cases hminimum

theorem transition_of_garbageCollection (h : cluster.garbageCollection index = some after) :
    ∃ node, Transition cluster after event index node := by
  unfold Cluster.garbageCollection at h
  dsimp only at h
  split at h
  · cases h
    exact ⟨_, .setNode (.of_eq rfl rfl rfl)
      (fun h => h.collector rfl rfl rfl h.acquired h.acquired trivial) rfl nofun⟩
  · cases h
    refine ⟨_, .setNode (.of_eq rfl rfl rfl)
      (fun h => h.collector rfl rfl rfl h.acquired h.largest ?_) rfl fun leastSp hminimum => ?_⟩
    · unfold PhaseBounds
      split_ifs <;> trivial
    · dsimp only at hminimum
      split_ifs at hminimum
  · cases h
    exact ⟨_, .setNode (.of_eq rfl rfl rfl)
      (fun h => h.collector rfl rfl rfl h.acquired h.acquired trivial) rfl nofun⟩
  · cases h
    exact ⟨_, .setNode (.of_eq rfl rfl rfl)
      (fun h => h.collector rfl rfl rfl (Nat.le_refl _) (Nat.le_refl _) trivial) rfl nofun⟩
  · split at h
    · rename_i hloaded
      cases h
      exact ⟨_, .setNode (.of_eq rfl rfl rfl) (fun h => h.collector rfl rfl rfl h.acquired h.largest
        ((h.bounds_leastSpThisNode hloaded).moves (.of_eq rfl rfl rfl))) rfl nofun⟩
    · cases h
  · rename_i leastSp hphase
    split at h
    · cases h
      exact ⟨_, transition_broadcast hphase⟩
    · cases h
      exact ⟨_, .setNode (.of_eq rfl rfl rfl) (fun h => h.collector rfl rfl rfl h.acquired h.largest
        ((h.bounds_of_phase (.inl hphase)).moves (.of_eq rfl rfl rfl))) rfl nofun⟩
  · rename_i leastSp hphase
    cases h
    exact ⟨_, transition_initialize hphase⟩
  · rename_i leastSp hphase
    cases h
    exact ⟨_, transition_minimum hphase _⟩

theorem transition_of_push {sender receiver : Fin n}
    (h : gcStep cluster (.processSnapshotPush sender receiver) = some after) :
    ∃ node, Transition cluster after (.processSnapshotPush sender receiver) receiver node := by
  simp only [gcStep] at h
  split at h
  · rename_i leastSpn rest hmail
    cases h
    have hsender : update (cluster.nodes receiver).clusterLeastSp sender (some leastSpn)
        sender = some leastSpn := update_self _ _ _
    refine ⟨_, rfl, .of_eq rfl rfl rfl, fun h => h.collector rfl rfl rfl h.acquired h.largest
      (h.phase.moves (.of_eq rfl rfl rfl) rfl), fun source target value hmem => ?_,
      fun other value hrpt => ?_, fun other hne => ?_, fun _ _ => ?_, fun _ => .inl⟩
    · simp only [Cluster.setNode] at hmem
      by_cases hsrc : source = sender
      · subst hsrc
        rw [update_self] at hmem
        by_cases htgt : target = receiver
        · subst htgt
          rw [update_self] at hmem
          exact .inl (hmail ▸ mem_cons_of_mem _ hmem)
        · rw [update_of_ne htgt] at hmem
          exact .inl hmem
      · rw [update_of_ne hsrc] at hmem
        exact .inl hmem
    · dsimp only at hrpt
      by_cases hother : other = sender
      · subst hother
        cases hsender.symm.trans hrpt
        exact .inr (.inr (.inr (hmail ▸ mem_cons_self)))
      · rw [update_of_ne hother] at hrpt
        exact .inl hrpt
    · dsimp only
      by_cases hother : other = sender
      · subst hother
        rw [hsender]
        exact some_ne_none _
      · rwa [update_of_ne hother]
    · refine .inr (.inr ⟨sender, rfl, ?_, ?_⟩)
      · rw [hmail]
        exact cons_ne_nil _ _
      · dsimp only
        rw [hsender]
        exact some_ne_none _
  · cases h

theorem gcStep_cases (h : gcStep cluster event = some after) :
    ∃ index node, Transition cluster after event index node := by
  cases event with
  | advance index ts =>
    cases h
    have hmoves : Moves (cluster.nodes index) { cluster.nodes index with
        localTsNext := max (cluster.nodes index).localTsNext ts } :=
      ⟨Nat.le_max_left _ _, fun _ => .inl, fun _ => .inl⟩
    exact ⟨index, _, .setNode hmoves (fun h =>
      ⟨fun _ hmem => Nat.le_trans (h.loaded _ hmem) hmoves.next,
        fun _ hmem => Nat.le_trans (h.pinned _ hmem) hmoves.next,
        Nat.le_trans h.acquired hmoves.next, Nat.le_trans h.largest hmoves.next,
        h.phase.moves hmoves rfl⟩) rfl fun _ => id⟩
  | loadSnapshot index =>
    cases h
    have hmoves : Moves (cluster.nodes index) { cluster.nodes index with
        loaded := (cluster.nodes index).localTsNext :: (cluster.nodes index).loaded } :=
      ⟨Nat.le_refl _, fun _ hmem => (mem_cons.mp hmem).symm, fun _ => .inl⟩
    refine ⟨index, _, .setNode hmoves (fun h => ⟨fun snapshotTs hmem => ?_, h.pinned, h.acquired,
      h.largest, h.phase.moves hmoves rfl⟩) rfl fun _ => id⟩
    exact (mem_cons.mp hmem).elim Nat.le_of_eq (h.loaded snapshotTs)
  | pinSnapshot index snapshotTs =>
    simp only [gcStep] at h
    split at h
    · rename_i hin
      cases h
      refine ⟨index, _, .setNode ?_ (fun h => ⟨fun _ hmem => h.loaded _ (mem_of_mem_erase hmem),
        fun other hmem => ?_, ?_, h.largest, h.phase.moves ?_ rfl⟩) rfl fun _ => id⟩
      · exact ⟨Nat.le_refl _, fun _ hmem => .inl (mem_of_mem_erase hmem), fun other hmem =>
          (mem_cons.mp hmem).elim (fun heq => .inr (heq ▸ hin)) .inl⟩
      · rcases mem_cons.mp hmem with rfl | hmem
        · exact h.loaded other hin
        · exact h.pinned other hmem
      · dsimp only
        split
        · exact h.loaded _ hin
        · exact h.acquired
      · exact ⟨Nat.le_refl _, fun _ hmem => .inl (mem_of_mem_erase hmem), fun other hmem =>
          (mem_cons.mp hmem).elim (fun heq => .inr (heq ▸ hin)) .inl⟩
    · cases h
  | releaseSnapshot index snapshotTs =>
    simp only [gcStep] at h
    split at h
    · cases h
      have hmoves : Moves (cluster.nodes index) { cluster.nodes index with
          pinned := (cluster.nodes index).pinned.erase snapshotTs } :=
        ⟨Nat.le_refl _, fun _ => .inl, fun _ hmem => .inl (mem_of_mem_erase hmem)⟩
      exact ⟨index, _, .setNode hmoves (fun h => ⟨h.loaded,
        fun _ hmem => h.pinned _ (mem_of_mem_erase hmem), h.acquired, h.largest,
        h.phase.moves hmoves rfl⟩) rfl fun _ => id⟩
    · cases h
  | garbageCollection index => exact ⟨index, transition_of_garbageCollection h⟩
  | processSnapshotPush sender receiver => exact ⟨receiver, transition_of_push h⟩

section

variable (h : Transition cluster after event index node)
include h

theorem Transition.nodes_self : after.nodes index = node := by
  rw [h.nodes]
  exact update_self _ _ _

theorem Transition.nodes_of_ne {other : Fin n}
    (hne : other ≠ index) : after.nodes other = cluster.nodes other := by
  rw [h.nodes]
  exact update_of_ne hne _ _

theorem Transition.moves_all (other : Fin n) : Moves (cluster.nodes other) (after.nodes other) := by
  by_cases hother : other = index
  · subst hother
    rw [h.nodes_self]
    exact h.moves
  · rw [h.nodes_of_ne hother]
    exact .of_eq rfl rfl rfl

end

theorem Inv.of_step (hinv : Inv cluster) (hstep : gcStep cluster event = some after) :
    Inv after := by
  obtain ⟨index, node, h⟩ := gcStep_cases hstep
  refine ⟨fun other => ?_, fun sender receiver leastSp hmem => ?_,
    fun owner other leastSp hrpt => ?_⟩
  · by_cases hother : other = index
    · subst hother
      rw [h.nodes_self]
      exact h.inv (hinv.nodes other)
    · rw [h.nodes_of_ne hother]
      exact hinv.nodes other
  · refine Bounds.moves ?_ (h.moves_all sender)
    rcases h.mail sender receiver leastSp hmem with hold | ⟨rfl, -, hphase⟩
    · exact hinv.mail sender receiver leastSp hold
    · exact (hinv.nodes sender).bounds_of_phase (.inl hphase)
  · refine Bounds.moves ?_ (h.moves_all other)
    by_cases howner : owner = index
    · subst howner
      rw [h.nodes_self] at hrpt
      rcases h.reports other leastSp hrpt with hold | rfl | ⟨rfl, hphase⟩ | hmail
      · exact hinv.reports owner other leastSp hold
      · exact ⟨Nat.zero_le _, fun _ _ => Nat.zero_le _, fun _ _ => Nat.zero_le _⟩
      · exact (hinv.nodes other).bounds_of_phase (.inr (.inr hphase))
      · exact hinv.mail other owner leastSp hmail
    · rw [h.nodes_of_ne howner] at hrpt
      exact hinv.reports owner other leastSp hrpt

/-- Every snapshot that is in use, or will be, is at least a timestamp. -/
def Safe (cluster : Cluster n) (ts : Nat) : Prop :=
  ∀ later, TransitionSystem.Reachable gcStep (fun _ _ => True) (· = cluster) later →
    ∀ index, ∀ snapshotTs ∈ (later.nodes index).loaded ++ (later.nodes index).pinned,
      ts ≤ snapshotTs

theorem safe_of_bounds {ts : Nat} (h : ∀ index, Bounds (cluster.nodes index) ts) :
    Safe cluster ts := by
  intro later hlater index snapshotTs hmem
  have hbounds : ∀ index, Bounds (later.nodes index) ts := by
    refine @TransitionSystem.Reachable.invariant _ _ _ _ _ later
      (fun state => ∀ index, Bounds (state.nodes index) ts) (fun state hstart => ?_)
      (fun state event after hpre _ hstep => ?_) hlater
    · rw [hstart]
      exact h
    · intro index
      obtain ⟨changed, node, htrans⟩ := gcStep_cases hstep
      exact (hpre index).moves (htrans.moves_all index)
  exact (mem_append.mp hmem).elim ((hbounds index).loaded snapshotTs)
    ((hbounds index).pinned snapshotTs)

theorem Inv.safe (hinv : Inv cluster) {ts : Nat}
    (hcall : cluster.garbageCollectionBySnapshot index = some ts)
    (hreports : ∀ other, other ≠ index → (cluster.nodes index).clusterLeastSp other ≠ none) :
    Safe cluster ts := by
  unfold Cluster.garbageCollectionBySnapshot at hcall
  split at hcall
  · rename_i leastSp hphase
    dsimp only at hcall
    split at hcall
    · cases hcall
      refine safe_of_bounds fun other => ?_
      by_cases hother : other = index
      · subst hother
        exact ((hinv.nodes other).bounds_of_phase (.inr (.inr hphase))).mono
          (leastSpAcrossCluster_le (reports_self leastSp))
      · obtain ⟨value, hvalue⟩ := ne_none_iff_exists'.mp (hreports other hother)
        exact (hinv.reports index other value hvalue).mono
          (leastSpAcrossCluster_le ((reports_of_ne leastSp hother).trans hvalue))
    · cases hcall
  · cases hcall

end Steps

/-! ### Runs -/

section Runs

variable {cluster after : Cluster n} {event : Event n} {index : Fin n}

theorem Inv.initial (h : cluster.Initial) : Inv cluster where
  nodes := fun index => by
    obtain ⟨localTsNext, hnode⟩ := h.nodes index
    rw [hnode]
    exact ⟨nofun, nofun, Nat.zero_le _, Nat.zero_le _, trivial⟩
  mail := fun sender receiver leastSp hmem => by
    rw [h.mail sender receiver] at hmem
    cases hmem
  reports := fun index other leastSp hrpt => by
    obtain ⟨localTsNext, hnode⟩ := h.nodes index
    rw [hnode] at hrpt
    cases hrpt

/-- With three nodes or more, the first iteration of a collector fills its map before a
report comes. -/
def FillsFirst (cluster : Cluster n) : Event n → Prop
  | .processSnapshotPush _ receiver => n ≤ 2 ∨ (cluster.nodes receiver).clusterIsEmpty = false
  | _ => True

structure ReportInv (cluster : Cluster n) : Prop where
  mail : ∀ index, cluster.mail index index = []
  filled : ∀ index, (∀ other, (cluster.nodes index).clusterLeastSp other = none) ∨
    ∀ other, other ≠ index → (cluster.nodes index).clusterLeastSp other ≠ none
  minimum : ∀ index leastSp, (cluster.nodes index).phase = .minimum leastSp →
    ∀ other, other ≠ index → (cluster.nodes index).clusterLeastSp other ≠ none

theorem ReportInv.initial (h : cluster.Initial) : ReportInv cluster where
  mail := fun index => h.mail index index
  filled := fun index => by
    obtain ⟨localTsNext, hnode⟩ := h.nodes index
    rw [hnode]
    exact .inl fun _ => rfl
  minimum := fun index leastSp hphase => by
    obtain ⟨localTsNext, hnode⟩ := h.nodes index
    rw [hnode] at hphase
    cases hphase

theorem ReportInv.filled_of_transition (h : ReportInv cluster) {node : Node n}
    (hevent : FillsFirst cluster event) (htrans : Transition cluster after event index node) :
    (∀ other, node.clusterLeastSp other = none) ∨
      ∀ other, other ≠ index → node.clusterLeastSp other ≠ none := by
  by_cases hall : ∀ other, other ≠ index → (cluster.nodes index).clusterLeastSp other ≠ none
  · exact .inr fun other hother => htrans.kept other (hall other hother)
  have hnone := (h.filled index).resolve_right hall
  rcases htrans.filled (fun leastSp hphase => hall (h.minimum index leastSp hphase)) hnone with
    hempty | hfull | ⟨sender, rfl, hmail, hsender⟩
  · exact .inl hempty
  · exact .inr hfull
  · rcases hevent with hsmall | hfill
    · -- There is one other node, which has just reported.
      refine .inr fun other hother => ?_
      have hne : sender ≠ index := by
        rintro rfl
        exact hmail (h.mail sender)
      have heq : other = sender := by omega
      rwa [heq]
    · rw [show (cluster.nodes index).clusterIsEmpty = true from decide_eq_true hnone] at hfill
      cases hfill

theorem ReportInv.of_step (h : ReportInv cluster) (hevent : FillsFirst cluster event)
    (hstep : gcStep cluster event = some after) : ReportInv after := by
  obtain ⟨index, node, htrans⟩ := gcStep_cases hstep
  have hfill := h.filled_of_transition hevent htrans
  refine ⟨fun other => ?_, fun other => ?_, fun other leastSp hphase => ?_⟩
  · refine eq_nil_iff_forall_not_mem.mpr fun leastSp hmem => ?_
    rcases htrans.mail other other leastSp hmem with hold | ⟨rfl, hne, -⟩
    · rw [h.mail other] at hold
      cases hold
    · exact hne rfl
  · by_cases hother : other = index
    · subst hother
      rw [htrans.nodes_self]
      exact hfill
    · rw [htrans.nodes_of_ne hother]
      exact h.filled other
  · by_cases hother : other = index
    · subst hother
      rw [htrans.nodes_self] at hphase ⊢
      rcases htrans.minimum leastSp hphase with hpre | ⟨reported, hne⟩
      · exact fun third hthird => htrans.kept third (h.minimum other leastSp hpre third hthird)
      · exact hfill.resolve_left fun hnone => hne (hnone reported)
    · rw [htrans.nodes_of_ne hother] at hphase ⊢
      exact h.minimum other leastSp hphase

abbrev FillsFirstRun : Cluster n → Prop :=
  TransitionSystem.Reachable gcStep FillsFirst Cluster.Initial

end Runs

/-- `GarbageCollectionBySnapshot` is called with a timestamp that no snapshot in the cluster
is below, or will be. -/
theorem garbageCollectionBySnapshot_safe {cluster : Cluster n} (h : FillsFirstRun cluster)
    (index : Fin n) (ts : Nat) (hcall : cluster.garbageCollectionBySnapshot index = some ts) :
    Safe cluster ts := by
  have hinv : Inv cluster := (h.mono fun _ _ _ => trivial : TransitionSystem.Reachable gcStep
    (fun _ _ => True) Cluster.Initial cluster).invariant (fun _ => Inv.initial)
      fun _ _ _ hinv _ hstep => hinv.of_step hstep
  have hreports : ReportInv cluster := h.invariant (fun _ => ReportInv.initial)
    fun _ _ _ hreports hevent hstep => hreports.of_step hevent hstep
  refine hinv.safe hcall ?_
  unfold Cluster.garbageCollectionBySnapshot at hcall
  split at hcall
  · rename_i leastSp hphase
    exact hreports.minimum index leastSp hphase
  · cases hcall

/-! ### Three nodes -/

instance (cluster : Cluster n) (event : Event n) : Decidable (FillsFirst cluster event) := by
  cases event <;> simp only [FillsFirst] <;> infer_instance

def startCluster (n : Nat) : Cluster n where
  nodes := fun _ =>
    { localTsNext := 1
      loaded := []
      pinned := []
      largestSpAcquired := 0
      clusterLeastSp := fun _ => none
      phase := .start
      largestSnapshot := 0
      lastBroadcastedSp := 0
      lastGcTs := 0 }
  mail := fun _ _ => []

theorem startCluster_initial (n : Nat) : (startCluster n).Initial :=
  ⟨fun _ => ⟨1, rfl⟩, fun _ _ => rfl⟩

/-- Node 2 pins the snapshot 1.  The counters of the nodes 0 and 1 go to 10, and the report
of node 1 comes before the first iteration of node 0, which stops before it collects. -/
def earlyReport {n : ℕ} [NeZero n] : List (Event n) :=
  [.loadSnapshot 2, .pinSnapshot 2 1, .advance 0 10, .advance 1 10] ++
    replicate 5 (.garbageCollection 1) ++ [.processSnapshotPush 1 0] ++
    replicate 6 (.garbageCollection 0)

/-- Node 2 has a snapshot below the timestamp that node 0 collects with. -/
theorem collects_below_pinned :
    ∃ cluster : Cluster 3, TransitionSystem.Reachable gcStep (fun _ _ => True) Cluster.Initial
        cluster ∧
      cluster.garbageCollectionBySnapshot 0 = some 10 ∧ 1 ∈ (cluster.nodes 2).pinned ∧
      ¬ Safe cluster 10 := by
  obtain ⟨cluster, hclus, hcall, hmem⟩ : ∃ cluster : Cluster 3, TransitionSystem.Reachable gcStep
      (fun _ _ => True) Cluster.Initial cluster ∧
      cluster.garbageCollectionBySnapshot 0 = some 10 ∧ 1 ∈ (cluster.nodes 2).pinned :=
    TransitionSystem.Reachable.exists_of_schedule earlyReport (startCluster_initial 3)
      (by decide +kernel)
  refine ⟨cluster, hclus, hcall, hmem, fun hsafe => ?_⟩
  have hle := hsafe cluster (.start rfl) 2 1 (mem_append_right _ hmem)
  omega

def allReport {n : ℕ} [NeZero n] : List (Event n) :=
  replicate 7 (.garbageCollection 0) ++ replicate 7 (.garbageCollection 1) ++
    replicate 7 (.garbageCollection 2) ++
    [.loadSnapshot 2, .pinSnapshot 2 1, .processSnapshotPush 1 0, .processSnapshotPush 2 0] ++
    replicate 5 (.garbageCollection 0)

theorem garbageCollectionBySnapshot_safe_three :
    ∃ cluster : Cluster 3, FillsFirstRun cluster ∧
      cluster.garbageCollectionBySnapshot 0 = some 1 ∧ 1 ∈ (cluster.nodes 2).pinned ∧
      Safe cluster 1 := by
  obtain ⟨cluster, hclus, hcall, hpinned⟩ : ∃ cluster : Cluster 3, FillsFirstRun cluster ∧
      cluster.garbageCollectionBySnapshot 0 = some 1 ∧ 1 ∈ (cluster.nodes 2).pinned :=
    TransitionSystem.Reachable.exists_of_schedule allReport (startCluster_initial 3)
      (by decide +kernel)
  exact ⟨cluster, hclus, hcall, hpinned, garbageCollectionBySnapshot_safe hclus 0 1 hcall⟩

end MemoryEngine.Txn.ClusterGc
