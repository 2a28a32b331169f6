import MemoryEngine.Library.AckLedger
import MemoryEngine.Log.PageLog
import MemoryEngine.Log.Receiver
import Mathlib.Order.Interval.Finset.Nat

/-! Reuse of log segments.

A compute node writes the log of one region to all its replicas.  A replica that
has replayed a segment drops it and sends a recycle message; when the logger has
counted as many acknowledgements of an address as there are replicas beside the
primary, it puts the address on its free list and may use it for a new segment.

The run interleaves appends, flushes, handled messages, replay passes and recycle
messages, which arrive once each and in any order. -/
namespace MemoryEngine.RedoLog

open ByteMemory LogReplayer AckLedger List Function

/-! ### The cluster -/

/-- One logger and the replicas of a region, by their index in the replica set.
`slot` are the addresses that a remote allocation may return. -/
structure Cluster where
  options : Options
  computeId : Nat
  region : Nat
  translate : Nat → Nat → Nat
  logArea : Nat → Nat → Prop
  slot : Nat → Prop

variable (cluster : Cluster)

def Cluster.members : Finset Nat :=
  Finset.Ico 1 (cluster.options.replicas cluster.region)

/-- Different slots do not overlap on any replica. -/
structure Cluster.WellFormed (cluster : Cluster) : Prop where
  computeId_lt : cluster.computeId < maxComputeNodes
  region_lt : cluster.region < maxLogicalRegions
  writeAll : cluster.options.replicaWriteMode = .writeAllReplicas
  replicas : 2 ≤ cluster.options.replicas cluster.region
  chunkSize : kLeafPageSize ≤ cluster.options.chunkSize
  node : ∀ addr, cluster.slot addr → nodeId addr = cluster.region
  hosted : ∀ i addr, cluster.slot addr → cluster.translate i addr ≠ 0 ∧
    ∀ j, j < cluster.options.chunkSize → cluster.logArea i (cluster.translate i addr + j)
  apart : ∀ i addr addr', cluster.slot addr → cluster.slot addr' → addr ≠ addr' →
    cluster.translate i addr + cluster.options.chunkSize ≤ cluster.translate i addr' ∨
      cluster.translate i addr' + cluster.options.chunkSize ≤ cluster.translate i addr

/-- `uses` is the history of segments with the records appended to each; the last
one is the segment being written. -/
structure ClusterState where
  stream : StreamState
  uses : List (Nat × List Record)
  nodes : Nat → Receiver
  applied : Nat → List Record
  mail : List RecycleMessage

namespace ClusterState

variable (cluster : Cluster) (state : ClusterState)

/-- The stream of the logger as replica `i` sees it. -/
def replicaStream (i : Nat) : LogStreamState :=
  (state.nodes i).manager.stream cluster.computeId cluster.region

def append (record : Record) (fresh : Nat) : ClusterState :=
  let stream := state.stream.append cluster.options record fresh
  { state with
    stream := stream
    uses :=
      if state.stream.remainingCapacity <
          recordHeaderSize + record.payload.length then
        state.uses ++ [(stream.currentSegmentAddr, [record])]
      else state.uses.modifyLast fun use => (use.1, use.2 ++ [record]) }

def flush : ClusterState := { state with stream := state.stream.flushLocked cluster.options }

def handle (i : Nat) (wire : Wire) : ClusterState :=
  { state with
    nodes := update state.nodes i
      ⟨(state.nodes i).manager.deliver (cluster.translate i) cluster.computeId wire,
        (state.nodes i).handled + 1⟩ }

def replay (i available : Nat) : ClusterState :=
  let outcome := (state.nodes i).manager.replayStream (cluster.translate i) cluster.computeId
    cluster.region available
  { state with
    nodes := update state.nodes i ⟨outcome.1, (state.nodes i).handled⟩
    applied := update state.applied i (state.applied i ++ outcome.2.1)
    mail := state.mail ++ outcome.2.2.2 }

end ClusterState

inductive ClusterStep (cluster : Cluster) : ClusterState → ClusterState → Prop
  | append (state : ClusterState) (record : Record) (fresh : Nat)
      (hneed : recordHeaderSize + record.payload.length < kLeafPageSize)
      (havoid : ∀ i, Avoids (cluster.translate i) (cluster.logArea i) record)
      (hslot : cluster.slot fresh) (hfresh : fresh ∉ state.uses.map Prod.fst) :
      ClusterStep cluster state (state.append cluster record fresh)
  | flush (state : ClusterState) : ClusterStep cluster state (state.flush cluster)
  | handle (state : ClusterState) (i : Nat) (wire : Wire) (hi : i ∈ cluster.members)
      (hwire : (state.stream.posted i)[(state.nodes i).handled]? = some wire) :
      ClusterStep cluster state (state.handle cluster i wire)
  | replay (state : ClusterState) (i count available : Nat) (hi : i ∈ cluster.members)
      (hcount : count ≤ (state.nodes i).handled)
      (havail : (state.replicaStream cluster i).replayedLogLength + available =
        receivedSize ((state.stream.posted i).take count)) :
      ClusterStep cluster state (state.replay cluster i available)
  | recycle (state : ClusterState) (before after : List RecycleMessage)
      (message : RecycleMessage) (hmail : state.mail = before ++ message :: after) :
      ClusterStep cluster state
        { state with
          stream := state.stream.handleLogSegmentRecycle cluster.options message.segmentAddrs
          mail := before ++ after }
  | other (state : ClusterState) (i : Nat) (manager : Manager) (hi : i ∈ cluster.members)
      (hstrm : manager.stream cluster.computeId cluster.region = state.replicaStream cluster i)
      (hmemory : ∀ segment ∈ (state.replicaStream cluster i).segments,
        ∀ j, j < segment.segmentSize →
          manager.memory (segment.physicalPtr + j) =
            (state.nodes i).manager.memory (segment.physicalPtr + j)) :
      ClusterStep cluster state
        { state with
          nodes := update state.nodes i ⟨manager, (state.nodes i).handled⟩ }

structure ClusterStart (cluster : Cluster) (first : Nat) (state : ClusterState) : Prop where
  slot : cluster.slot first
  stream : state.stream = .create cluster.options cluster.region first
  uses : state.uses = [(first, [])]
  handled : ∀ i, (state.nodes i).handled = 0
  empty : ∀ i, state.replicaStream cluster i = ⟨cluster.computeId, cluster.region, [], 0, 0, 0⟩
  mail : state.mail = []

/-! ### Segments along a stream -/

variable {node : Receiver}

section Frames

/-- The address and size of a segment never change. -/
def frame (log : SegmentLog) : Nat × Nat := (log.addr, log.size)

theorem frames_isPrefix_extend (logs : List SegmentLog) (op : StreamOp) :
    logs.map frame <+: (op.extend logs).map frame := by
  cases op with
  | request addr size => simp [StreamOp.extend]
  | flush items =>
    rcases eq_nil_or_concat' logs with rfl | ⟨init, log, rfl⟩
    · simp
    · rw [extend_flush_concat]
      simp [frame]

variable (ops : List StreamOp)

theorem frames_isPrefix_foldl (logs : List SegmentLog) :
    logs.map frame <+: (ops.foldl StreamOp.extend logs).map frame := by
  induction ops generalizing logs with
  | nil => exact prefix_rfl
  | cons op ops ih => exact (frames_isPrefix_extend logs op).trans (ih _)

theorem foldl_extend_concat :
    ∀ (init : List SegmentLog) (last : SegmentLog), ∃ last' rest,
      ops.foldl StreamOp.extend (init ++ [last]) = init ++ last' :: rest := by
  induction ops with
  | nil => exact fun init last => ⟨last, [], rfl⟩
  | cons op ops ih =>
    intro init last
    rw [foldl_cons]
    cases op with
    | request addr size =>
      obtain ⟨last', rest, h⟩ := ih (init ++ [last]) ⟨addr, size, []⟩
      exact ⟨last, last' :: rest, by rw [StreamOp.extend, h]; simp⟩
    | flush items =>
      rw [extend_flush_concat]
      exact ih init _

theorem frames_take (n : Nat) :
    ((ops.take n).foldl StreamOp.extend []).map frame <+:
      (ops.foldl StreamOp.extend []).map frame := by
  conv_rhs => rw [← take_append_drop n ops, foldl_append]
  exact frames_isPrefix_foldl _ _

theorem ReceiverTracks.dropped_isPrefix {translate : Nat → Nat} {logArea : Nat → Prop}
    {computeId region : Nat} {ops : List StreamOp} {progress : Progress}
    (h : ReceiverTracks translate logArea computeId region ops node progress)
    {closed : List SegmentLog} {current : SegmentLog}
    (hlogs : ops.foldl StreamOp.extend [] = closed ++ [current]) : progress.dropped <+: closed := by
  by_cases hdrop : progress.dropped = []
  · rw [hdrop]
    exact nil_prefix
  obtain ⟨init, last, hlive⟩ : ∃ init last, progress.live = init ++ [last] := by
    rcases eq_nil_or_concat' progress.live with hnil | hconcat
    · exact absurd hnil (h.tracked.tracks.last hdrop)
    · exact hconcat
  have hsplit := h.tracked.split
  rw [hlive, ← append_assoc] at hsplit
  obtain ⟨last', rest, hfull⟩ :=
    foldl_extend_concat (ops.drop node.handled) (progress.dropped ++ init) last
  rw [hsplit, ← foldl_append, take_append_drop, hlogs, append_assoc] at hfull
  rcases eq_nil_or_concat' (last' :: rest) with hnil | ⟨tail, final, htail⟩
  · cases hnil
  · rw [htail, ← append_assoc, ← append_assoc] at hfull
    obtain ⟨rfl, -⟩ := append_inj' hfull rfl
    rw [append_assoc]
    exact prefix_append _ _

end Frames

/-! ### Recycle messages -/

theorem ledger_acknowledge {members : Finset Nat} {uses : List Nat} {released : Nat → Nat}
    {mail : List Nat} (addrs : List Nat) :
    ∀ stream : StreamState,
      Ledger members uses released (addrs ++ mail) stream.freeSegments
        stream.pendingRecycleAcks →
      Ledger members uses released mail
        (addrs.foldl (StreamState.acknowledge members.card) stream).freeSegments
        (addrs.foldl (StreamState.acknowledge members.card) stream).pendingRecycleAcks := by
  induction addrs with
  | nil => exact fun _ h => h
  | cons addr addrs ih =>
    intro stream h
    apply ih
    have hnext := h.acknowledge
    unfold StreamState.acknowledge
    split at hnext
    · rename_i hfull
      rwa [if_pos hfull]
    · rename_i hfull
      rwa [if_neg hfull]

/-! ### The invariant -/

structure ReuseInvariant (cluster : Cluster) (state : ClusterState) (ops : List StreamOp)
    (closed : List (Nat × List Record)) (flushed pending : List Record)
    (progress : Nat → Progress) : Prop where
  framing : Framing cluster.options cluster.region state.stream ops closed flushed pending
  uses : state.uses = closed ++ [(state.stream.currentSegmentAddr, flushed ++ pending)]
  slots : ∀ use ∈ state.uses, cluster.slot use.1
  avoid : ∀ use ∈ state.uses, ∀ r ∈ use.2, ∀ i,
    Avoids (cluster.translate i) (cluster.logArea i) r
  nodes : ∀ i ∈ cluster.members, ReceiverTracks (cluster.translate i) (cluster.logArea i)
    cluster.computeId cluster.region ops (state.nodes i) (progress i)
  applied : ∀ i ∈ cluster.members, (recordsOf (progress i).replayed).Sublist (state.applied i)
  ledger : Ledger cluster.members (state.uses.map Prod.fst) (fun i => (progress i).dropped.length)
    (state.mail.flatMap RecycleMessage.segmentAddrs) state.stream.freeSegments
    state.stream.pendingRecycleAcks

variable {i : Nat}

section Invariant

variable {cluster : Cluster} {state : ClusterState} {ops : List StreamOp}
  {closed : List (Nat × List Record)} {flushed pending : List Record} {progress : Nat → Progress}

theorem Cluster.WellFormed.flushes (hcluster : cluster.WellFormed)
    (hi : i ∈ cluster.members) : Flushes cluster.options cluster.region i := by
  obtain ⟨hone, hlt⟩ := Finset.mem_Ico.mp hi
  have hend : StreamState.flushEnd cluster.options cluster.region =
      cluster.options.replicas cluster.region := by
    rw [StreamState.flushEnd, hcluster.writeAll]
  exact ⟨hone, by rwa [hend], by rw [hend]⟩

theorem Cluster.card_members :
    cluster.members.card = cluster.options.replicas cluster.region - 1 :=
  Nat.card_Ico _ _

theorem ReuseInvariant.frames
    (h : ReuseInvariant cluster state ops closed flushed pending progress) :
    (ops.foldl StreamOp.extend []).map frame =
      (state.uses.map Prod.fst).map fun addr => (addr, cluster.options.chunkSize) := by
  rw [h.framing.staging.logs, h.uses]
  simp [frame, closedLog, comp_def]

variable {next : Progress}

theorem ReuseInvariant.received
    (h : ReuseInvariant cluster state ops closed flushed pending progress)
    (hnode : ReceiverTracks (cluster.translate i) (cluster.logArea i) cluster.computeId
      cluster.region ops node next) :
    (next.dropped ++ next.live).map frame <+:
      (state.uses.map Prod.fst).map fun addr => (addr, cluster.options.chunkSize) := by
  rw [hnode.tracked.split, ← h.frames]
  exact frames_take ops _

theorem addrs_isPrefix {logs : List SegmentLog} {addrs : List Nat} {size : Nat}
    (h : logs.map frame <+: addrs.map fun addr => (addr, size)) :
    logs.map SegmentLog.addr <+: addrs := by
  have hfst := h.map Prod.fst
  simpa [frame, comp_def] using hfst

theorem Cluster.WellFormed.start {first : Nat} (hcluster : cluster.WellFormed)
    (hstart : ClusterStart cluster first state) :
    ReuseInvariant cluster state [.request first cluster.options.chunkSize] [] [] []
      fun _ => ⟨[], [], []⟩ := by
  have hnode := hcluster.node first hstart.slot
  refine ⟨⟨?_, by simp [itemsOf, autoFlushThreshold]⟩, ?_, ?_, ?_, ?_, ?_, ?_⟩
  · rw [hstart.stream]
    exact Staging.create hnode
  · rw [hstart.uses, hstart.stream]
    rfl
  · rw [hstart.uses]
    simpa using hstart.slot
  · rw [hstart.uses]
    simp
  · intro i hi
    refine ⟨by rw [hstart.handled i]; simp, ?_⟩
    have hempty := hstart.empty i
    rw [ClusterState.replicaStream] at hempty
    rw [hstart.handled i, hempty]
    exact Tracked.init _ _ _
  · exact fun i _ => nil_sublist _
  · rw [hstart.uses, hstart.mail, hstart.stream]
    refine ledger_single cluster.members ?_ first
    rw [cluster.card_members]
    have := hcluster.replicas
    omega

/-! ### Appends and flushes -/

theorem closeSegment_segments (options : Options) (stream : StreamState) (fresh : Nat) :
    (stream.closeSegment options fresh).currentSegmentAddr = stream.freeSegments.headD fresh ∧
      (stream.closeSegment options fresh).freeSegments = stream.freeSegments.tail ∧
      (stream.closeSegment options fresh).pendingRecycleAcks = stream.pendingRecycleAcks := by
  obtain ⟨closedStream, hclose, hfree, hacks⟩ : ∃ closedStream : StreamState,
      stream.closeSegment options fresh =
        closedStream.allocateNewSegmentAndNotify options fresh ∧
      closedStream.freeSegments = stream.freeSegments ∧
      closedStream.pendingRecycleAcks = stream.pendingRecycleAcks := by
    refine ⟨_, rfl, ?_, ?_⟩
    · split <;> split <;> simp [StreamState.copyAtTail, StreamState.flushLocked_segments]
    · split <;> split <;> simp [StreamState.copyAtTail, StreamState.flushLocked_segments]
  rw [hclose, ← hfree, ← hacks]
  unfold StreamState.allocateNewSegmentAndNotify
  cases closedStream.freeSegments with
  | nil => exact ⟨rfl, rfl, rfl⟩
  | cons addr rest => exact ⟨rfl, rfl, rfl⟩

theorem append_segments (options : Options) (stream : StreamState) (record : Record) (fresh : Nat) :
    if stream.remainingCapacity < recordHeaderSize + record.payload.length then
      (stream.append options record fresh).currentSegmentAddr =
          stream.freeSegments.headD fresh ∧
        (stream.append options record fresh).freeSegments = stream.freeSegments.tail ∧
        (stream.append options record fresh).pendingRecycleAcks = stream.pendingRecycleAcks
    else
      (stream.append options record fresh).currentSegmentAddr = stream.currentSegmentAddr ∧
        (stream.append options record fresh).freeSegments = stream.freeSegments ∧
        (stream.append options record fresh).pendingRecycleAcks =
          stream.pendingRecycleAcks := by
  have hauto : ∀ (s : StreamState) (p : Prop) [Decidable p],
      ((if p then s.flushLocked options else s).copyAtTail record.bytes).currentSegmentAddr =
          s.currentSegmentAddr ∧
        ((if p then s.flushLocked options else s).copyAtTail record.bytes).freeSegments =
          s.freeSegments ∧
        ((if p then s.flushLocked options else s).copyAtTail record.bytes).pendingRecycleAcks =
          s.pendingRecycleAcks := by
    intro s p _
    split <;> simp [StreamState.copyAtTail, StreamState.flushLocked_segments]
  unfold StreamState.append
  dsimp only
  split
  · rename_i hfull
    obtain ⟨haddr, hfree, hacks⟩ := closeSegment_segments options stream fresh
    rw [← haddr, ← hfree, ← hacks]
    exact hauto _ _
  · exact hauto _ _

section

variable (h : ReuseInvariant cluster state ops closed flushed pending progress)
include h

theorem ReuseInvariant.append (hcluster : cluster.WellFormed) {record : Record} {fresh : Nat}
    (hneed : recordHeaderSize + record.payload.length < kLeafPageSize)
    (havoid : ∀ i, Avoids (cluster.translate i) (cluster.logArea i) record)
    (hslot : cluster.slot fresh) (hfresh : fresh ∉ state.uses.map Prod.fst) :
    ∃ ops' closed' flushed' pending', ops <+: ops' ∧ ReuseInvariant cluster
      (state.append cluster record fresh) ops' closed' flushed' pending' progress := by
  obtain ⟨ops', closed', flushed', pending', hops, hfrm, hwhere⟩ :=
    h.framing.append hcluster.chunkSize hneed (hcluster.node fresh hslot)
  have hsegs := append_segments cluster.options state.stream record fresh
  have hnodes : ∀ i ∈ cluster.members, ReceiverTracks (cluster.translate i) (cluster.logArea i)
      cluster.computeId cluster.region ops' (state.nodes i) (progress i) :=
    fun i hi => (h.nodes i hi).extend hops
  unfold AppendedTo at hwhere
  by_cases hfull : state.stream.remainingCapacity < recordHeaderSize + record.payload.length
  · -- the record starts a new use, of a free or of a fresh segment
    rw [if_pos hfull] at hwhere hsegs
    obtain ⟨rfl, hlast⟩ := hwhere
    obtain ⟨haddr, hfree, hacks⟩ := hsegs
    have huses : (state.append cluster record fresh).uses =
        state.uses ++ [((state.append cluster record fresh).stream.currentSegmentAddr,
          [record])] := by
      simp only [ClusterState.append, if_pos hfull]
    have hnext : (state.append cluster record fresh).stream.currentSegmentAddr =
        state.stream.freeSegments.headD fresh := haddr
    have hslot' : cluster.slot (state.stream.freeSegments.headD fresh) := by
      cases hsegs : state.stream.freeSegments with
      | nil => exact hslot
      | cons addr rest =>
        have hmem := h.ledger.mem_uses_of_free (hsegs ▸ mem_cons_self)
        obtain ⟨use, huse, rfl⟩ := mem_map.mp hmem
        exact h.slots use huse
    refine ⟨ops', _, flushed', pending', hops, hfrm, ?_, ?_, ?_, hnodes, h.applied, ?_⟩
    · rw [huses, h.uses, hlast]
    · intro use huse
      rw [huses, mem_append, mem_singleton] at huse
      rcases huse with huse | rfl
      · exact h.slots use huse
      · rw [hnext]
        exact hslot'
    · intro use huse
      rw [huses, mem_append, mem_singleton] at huse
      rcases huse with huse | rfl
      · exact h.avoid use huse
      · intro r hr
        rw [mem_singleton.mp hr]
        exact havoid
    · have hledger := h.ledger
      rw [huses, map_append, map_singleton, hnext]
      simp only [ClusterState.append, hfree, hacks]
      cases hsegs : state.stream.freeSegments with
      | nil =>
        rw [hsegs] at hledger
        exact hledger.useFresh hfresh
      | cons addr rest =>
        rw [hsegs] at hledger
        exact hledger.reuse
  · rw [if_neg hfull] at hwhere hsegs
    obtain ⟨rfl, hlast⟩ := hwhere
    obtain ⟨haddr, hfree, hacks⟩ := hsegs
    have huses : (state.append cluster record fresh).uses =
        closed' ++ [(state.stream.currentSegmentAddr, flushed ++ pending ++ [record])] := by
      simp only [ClusterState.append, if_neg hfull, h.uses, modifyLast_concat]
    have haddrs : (state.append cluster record fresh).uses.map Prod.fst =
        state.uses.map Prod.fst := by
      rw [huses, h.uses]
      simp
    refine ⟨ops', _, flushed', pending', hops, hfrm, ?_, ?_, ?_, hnodes, h.applied, ?_⟩
    · rw [huses, hlast, ← haddr]
      rfl
    · intro use huse
      have hmem : use.1 ∈ state.uses.map Prod.fst := by
        rw [← haddrs]
        exact mem_map_of_mem huse
      obtain ⟨old, hold, hsame⟩ := mem_map.mp hmem
      rw [← hsame]
      exact h.slots old hold
    · have hold := h.avoid
      rw [h.uses] at hold
      intro use huse r hr
      rw [huses, mem_append, mem_singleton] at huse
      rcases huse with huse | rfl
      · exact hold use (mem_append_left _ huse) r hr
      · rcases mem_append.mp hr with hr | hr
        · exact hold _ (mem_append_right _ (mem_singleton.mpr rfl)) r hr
        · rw [mem_singleton.mp hr]
          exact havoid
    · rw [haddrs]
      simp only [ClusterState.append, hfree, hacks]
      exact h.ledger

theorem ReuseInvariant.flush :
    ∃ ops', ops <+: ops' ∧ ReuseInvariant cluster (state.flush cluster) ops' closed
      (flushed ++ pending) [] progress := by
  obtain ⟨ops', hops, hfrm⟩ := h.framing.flushLocked
  obtain ⟨haddr, hfree, hacks⟩ :=
    @StreamState.flushLocked_segments cluster.options state.stream
  refine ⟨ops', hops, hfrm, ?_, h.slots, h.avoid, fun i hi => (h.nodes i hi).extend hops,
    h.applied, ?_⟩
  · simp only [ClusterState.flush, haddr, append_nil]
    exact h.uses
  · simp only [ClusterState.flush, hfree, hacks]
    exact h.ledger

/-! ### Steps of the replicas -/

theorem ReuseInvariant.dropped
    {before gone : List SegmentLog}
    (hnode : ReceiverTracks (cluster.translate i) (cluster.logArea i) cluster.computeId
      cluster.region ops node next)
    (hdrop : next.dropped = before ++ gone) :
    before.length + gone.length < (state.uses.map Prod.fst).length ∧
      ((state.uses.map Prod.fst).drop before.length).take gone.length =
        gone.map SegmentLog.addr := by
  constructor
  · have hlen := (hnode.dropped_isPrefix h.framing.staging.logs).length_le
    rw [hdrop, length_append, length_map] at hlen
    rw [h.uses, length_map, length_append, length_singleton]
    omega
  · have haddrs := addrs_isPrefix (h.received hnode)
    rw [hdrop, append_assoc, map_append, map_append] at haddrs
    obtain ⟨rest, hrest⟩ := haddrs
    rw [← hrest, append_assoc, drop_left' (length_map ..), append_assoc,
      take_left' (length_map ..)]

theorem ReuseInvariant.node_step (hi : i ∈ cluster.members)
    {applied : List Record} {mail : List RecycleMessage} {gone : List SegmentLog}
    (hnode : ReceiverTracks (cluster.translate i) (cluster.logArea i) cluster.computeId
      cluster.region ops node next)
    (happl : (recordsOf next.replayed).Sublist applied)
    (hdrop : next.dropped = (progress i).dropped ++ gone)
    (hmail : mail.flatMap RecycleMessage.segmentAddrs = state.mail.flatMap
      RecycleMessage.segmentAddrs ++ gone.map SegmentLog.addr) :
    ReuseInvariant cluster
      { state with
        nodes := update state.nodes i node
        applied := update state.applied i applied
        mail := mail }
      ops closed flushed pending (update progress i next) := by
  refine ⟨h.framing, h.uses, h.slots, h.avoid, ?_, ?_, ?_⟩
  · intro j hj
    dsimp only
    by_cases hij : j = i
    · subst hij
      rwa [update_self, update_self]
    · rw [update_of_ne hij, update_of_ne hij]
      exact h.nodes j hj
  · intro j hj
    dsimp only
    by_cases hij : j = i
    · subst hij
      rwa [update_self, update_self]
    · rw [update_of_ne hij, update_of_ne hij]
      exact h.applied j hj
  · obtain ⟨hbound, hgone⟩ := h.dropped hnode hdrop
    have hrel := h.ledger.release hi hbound
    rw [hgone, ← hmail] at hrel
    have hlen : (fun j => (update progress i next j).dropped.length) =
        update (fun j => (progress j).dropped.length) i
          ((progress i).dropped.length + gone.length) := by
      funext j
      by_cases hij : j = i
      · subst hij
        rw [update_self, update_self, hdrop, length_append]
      · rw [update_of_ne hij, update_of_ne hij]
    rw [hlen]
    exact hrel

theorem ReuseInvariant.request (hi : i ∈ cluster.members) {addr size : Nat}
    (hop : ops[(state.nodes i).handled]? = some (.request addr size)) :
    size = cluster.options.chunkSize ∧ cluster.slot addr ∧
      addr ∉ (progress i).live.map SegmentLog.addr := by
  have hfrms := frames_take ops ((state.nodes i).handled + 1)
  rw [h.frames, take_add_one, hop, Option.toList_some, foldl_append,
    ← (h.nodes i hi).tracked.split] at hfrms
  simp only [foldl_cons, foldl_nil, StreamOp.extend] at hfrms
  have hmem : (addr, size) ∈
      (state.uses.map Prod.fst).map fun addr => (addr, cluster.options.chunkSize) := by
    refine hfrms.subset ?_
    rw [map_append]
    exact mem_append_right _ (mem_singleton.mpr rfl)
  obtain ⟨used, hused, hpair⟩ := mem_map.mp hmem
  obtain ⟨rfl, rfl⟩ := Prod.mk.inj hpair
  obtain ⟨use, huse, rfl⟩ := mem_map.mp hused
  refine ⟨rfl, h.slots use huse, ?_⟩
  -- the uses that the replica holds, with this one, are uses it has not released
  obtain ⟨rest, hrest⟩ := addrs_isPrefix hfrms
  have hdist := h.ledger.distinct i hi
  rw [← hrest, append_assoc, map_append, append_assoc,
    drop_left' (length_map ..), map_append, append_assoc] at hdist
  intro hlive
  exact (nodup_append.mp hdist).2.2 _ hlive _
    (mem_append_left _ (mem_singleton.mpr rfl)) rfl

theorem ReuseInvariant.live
    (hi : i ∈ cluster.members) {log : SegmentLog} (hlog : log ∈ (progress i).live) :
    log.size = cluster.options.chunkSize ∧ cluster.slot log.addr := by
  have hmem := (h.received (h.nodes i hi)).subset
    (mem_map_of_mem (mem_append_right (progress i).dropped hlog))
  obtain ⟨used, hused, hpair⟩ := mem_map.mp hmem
  obtain ⟨use, huse, rfl⟩ := mem_map.mp hused
  obtain ⟨haddr, hsize⟩ := Prod.mk.inj hpair
  exact ⟨hsize.symm, haddr ▸ h.slots use huse⟩

end

theorem exists_mirror {translate : Nat → Nat} {segments : List LogSegment} {logs : List SegmentLog}
    (h : List.Forall₂ (Mirrors translate) segments logs) {segment : LogSegment}
    (hseg : segment ∈ segments) : ∃ log ∈ logs, Mirrors translate segment log := by
  induction h with
  | nil => cases hseg
  | cons hfirst _ ih =>
    rcases mem_cons.mp hseg with rfl | hrest
    · exact ⟨_, mem_cons_self, hfirst⟩
    · obtain ⟨log, hlog, hmirror⟩ := ih hrest
      exact ⟨log, mem_cons_of_mem _ hlog, hmirror⟩

variable (h : ReuseInvariant cluster state ops closed flushed pending progress)
include h

theorem ReuseInvariant.handle (hcluster : cluster.WellFormed) (hi : i ∈ cluster.members)
    {wire : Wire} (hwire : (state.stream.posted i)[(state.nodes i).handled]? = some wire) :
    ∃ progress', ReuseInvariant cluster (state.handle cluster i wire) ops closed flushed pending
      progress' := by
  have hfit := h.framing.staging.allFit
  rw [h.framing.staging.posted i (hcluster.flushes hi)] at hwire
  obtain ⟨op, hop, hopFit, hopWire⟩ := hfit.wires_getElem? hwire
  have htracks := h.nodes i hi
  obtain ⟨hhost, hfresh⟩ :
      (∀ addr size, wire = .segmentRequest cluster.region addr size →
        cluster.translate i addr ≠ 0 ∧
          ∀ j, j < size → cluster.logArea i (cluster.translate i addr + j)) ∧
      FreshFor (cluster.translate i) (state.replicaStream cluster i) wire := by
    cases op with
    | flush items =>
      obtain ⟨-, -, log, hlast, -⟩ := hopFit
      rw [StreamOp.wire, hlast, Option.map_some, Option.some.injEq] at hopWire
      subst hopWire
      exact ⟨fun _ _ hreq => (by cases hreq), trivial⟩
    | request addr size =>
      obtain rfl : Wire.segmentRequest cluster.region addr size = wire := Option.some.inj hopWire
      obtain ⟨rfl, hslot, hnew⟩ := h.request hi hop
      refine ⟨fun addr' size' hreq => ?_, fun segment hseg => ?_⟩
      · obtain ⟨-, rfl, rfl⟩ := Wire.segmentRequest.inj hreq
        exact hcluster.hosted i addr hslot
      · obtain ⟨log, hlog, hmirror⟩ := exists_mirror htracks.tracked.tracks.mirrors hseg
        obtain ⟨hsize, hlogSlot⟩ := h.live hi hlog
        have hne : log.addr ≠ addr := by
          rintro rfl
          exact hnew (mem_map_of_mem hlog)
        rw [hmirror.ptr, hmirror.size, hsize]
        exact hcluster.apart i _ _ hlogSlot hslot hne
  obtain ⟨next, hrepl, hdrop, hnext⟩ := htracks.handle hcluster.computeId_lt
    hcluster.region_lt hfit hwire hhost hfresh
  refine ⟨update progress i next, ?_⟩
  have hstep := h.node_step hi hnext (hrepl ▸ h.applied i hi)
    (hdrop.trans (append_nil _).symm) (append_nil _).symm
  rwa [update_eq_self] at hstep

theorem ReuseInvariant.replay (hcluster : cluster.WellFormed) {i count available : Nat}
    (hi : i ∈ cluster.members) (hcount : count ≤ (state.nodes i).handled)
    (havail : (state.replicaStream cluster i).replayedLogLength + available = receivedSize
      ((state.stream.posted i).take count)) :
    ∃ progress', ReuseInvariant cluster (state.replay cluster i available) ops closed flushed
      pending progress' := by
  rw [h.framing.staging.posted i (hcluster.flushes hi)] at havail
  have hrecs : ∀ r ∈ recordsOf (allItems (ops.foldl StreamOp.extend [])),
      Avoids (cluster.translate i) (cluster.logArea i) r := by
    intro r hr
    have havoid := h.avoid
    rw [h.framing.recordsOf_eq] at hr
    rw [h.uses] at havoid
    rcases mem_append.mp hr with hr | hr
    · obtain ⟨use, huse, hmem⟩ := mem_flatMap.mp hr
      exact havoid use (mem_append_left _ huse) r hmem i
    · exact havoid _ (mem_append_right _ (mem_singleton.mpr rfl)) r
        (mem_append_left _ hr) i
  obtain ⟨_, consumed, stored, gone, next, -, -, hstor, hdrop, hrepl, happl, hmail,
    hnext⟩ := (h.nodes i hi).replay h.framing.staging.allFit
      (fun r hr => hrecs r (recordsOf_take_subset _ hr)) hcount havail
  refine ⟨update progress i next, h.node_step hi hnext ?_ hdrop ?_⟩
  · rw [hrepl, recordsOf_append, happl]
    exact (h.applied i hi).append (hstor.sublist.filterMap _)
  · rw [flatMap_append, hmail]

theorem ReuseInvariant.recycle (hcluster : cluster.WellFormed) {before after : List RecycleMessage}
    {message : RecycleMessage} (hmail : state.mail = before ++ message :: after) :
    ReuseInvariant cluster
      { state with
        stream := state.stream.handleLogSegmentRecycle cluster.options message.segmentAddrs
        mail := before ++ after }
      ops closed flushed pending progress := by
  have hperm : (state.mail.flatMap RecycleMessage.segmentAddrs).Perm
      (message.segmentAddrs ++ (before ++ after).flatMap RecycleMessage.segmentAddrs) := by
    rw [hmail, flatMap_append, flatMap_cons, flatMap_append]
    exact perm_append_comm_assoc _ _ _
  have hnode : ∀ addr ∈ message.segmentAddrs, nodeId addr = cluster.region := by
    intro addr haddr
    have hmem := h.ledger.mem_uses_of_mail (hperm.mem_iff.mpr (mem_append_left _ haddr))
    obtain ⟨use, huse, rfl⟩ := mem_map.mp hmem
    exact hcluster.node _ (h.slots use huse)
  have hhandler : state.stream.handleLogSegmentRecycle cluster.options message.segmentAddrs =
      message.segmentAddrs.foldl (StreamState.acknowledge cluster.members.card) state.stream := by
    have hreplicas := hcluster.replicas
    have hreg := h.framing.staging.regionId
    rw [StreamState.handleLogSegmentRecycle, hreg, if_neg (by omega), cluster.card_members,
      StreamState.requiredAcks, hcluster.writeAll]
  have hfrm := h.framing.handleLogSegmentRecycle hnode
  have haddr : (state.stream.handleLogSegmentRecycle cluster.options
      message.segmentAddrs).currentSegmentAddr = state.stream.currentSegmentAddr := by
    have hlogs := hfrm.staging.logs.symm.trans h.framing.staging.logs
    exact congrArg SegmentLog.addr (singleton_inj.mp (append_cancel_left hlogs))
  refine ⟨hfrm, ?_, h.slots, h.avoid, h.nodes, h.applied, ?_⟩
  · simp only [haddr]
    exact h.uses
  · simp only [hhandler]
    exact ledger_acknowledge _ _ (h.ledger.perm_mail hperm)

theorem ReuseInvariant.other (hi : i ∈ cluster.members) {manager : Manager}
    (hstrm : manager.stream cluster.computeId cluster.region = state.replicaStream cluster i)
    (hmemory : ∀ segment ∈ (state.replicaStream cluster i).segments, ∀ j, j < segment.segmentSize →
      manager.memory (segment.physicalPtr + j) = (state.nodes i).manager.memory
      (segment.physicalPtr + j)) :
    ReuseInvariant cluster
      { state with
        nodes := update state.nodes i ⟨manager, (state.nodes i).handled⟩ }
      ops closed flushed pending progress := by
  have hstep := h.node_step hi ((h.nodes i hi).other hstrm hmemory) (h.applied i hi)
    (append_nil _).symm (append_nil _).symm
  rwa [update_eq_self, update_eq_self] at hstep

end Invariant

/-! ### Runs -/

def Reusable (state : ClusterState) : Prop :=
  ∃ ops closed flushed pending progress,
    ReuseInvariant cluster state ops closed flushed pending progress

theorem ClusterStep.reuseInvariant {cluster : Cluster} {state next : ClusterState}
    {ops : List StreamOp} {closed : List (Nat × List Record)} {flushed pending : List Record}
    {progress : Nat → Progress} (hcluster : cluster.WellFormed)
    (hstep : ClusterStep cluster state next)
    (h : ReuseInvariant cluster state ops closed flushed pending progress) :
    ∃ ops' closed' flushed' pending' progress', ops <+: ops' ∧
      ReuseInvariant cluster next ops' closed' flushed' pending' progress' := by
  cases hstep with
  | append record fresh hneed havoid hslot hfresh =>
    obtain ⟨ops', closed', flushed', pending', hops, h'⟩ :=
      h.append hcluster hneed havoid hslot hfresh
    exact ⟨ops', closed', flushed', pending', progress, hops, h'⟩
  | flush =>
    obtain ⟨ops', hops, h'⟩ := h.flush
    exact ⟨ops', _, _, _, _, hops, h'⟩
  | handle i wire hi hwire =>
    obtain ⟨progress', h'⟩ := h.handle hcluster hi hwire
    exact ⟨ops, _, _, _, progress', prefix_rfl, h'⟩
  | replay i count available hi hcount havail =>
    obtain ⟨progress', h'⟩ := h.replay hcluster hi hcount havail
    exact ⟨ops, _, _, _, progress', prefix_rfl, h'⟩
  | recycle before after message hmail =>
    exact ⟨ops, _, _, _, _, prefix_rfl, h.recycle hcluster hmail⟩
  | other i manager hi hstrm hmemory =>
    exact ⟨ops, _, _, _, _, prefix_rfl, h.other hi hstrm hmemory⟩

theorem reusable_of_run {cluster : Cluster} {first : Nat} {start state : ClusterState}
    (hcluster : cluster.WellFormed) (hstart : ClusterStart cluster first start)
    (hrun : Relation.ReflTransGen (ClusterStep cluster) start state) : Reusable cluster state := by
  induction hrun with
  | refl => exact ⟨_, _, _, _, _, hcluster.start hstart⟩
  | tail _ hstep ih =>
    obtain ⟨_, _, _, _, _, h⟩ := ih
    obtain ⟨ops, closed, flushed, pending, progress, -, h'⟩ := hstep.reuseInvariant hcluster h
    exact ⟨ops, closed, flushed, pending, progress, h'⟩

/-- What reusing the address of a free segment relies on: no replica still holds
the segment, and all have applied its records in every use, after those of the
uses before it. -/
structure ReuseSafe (cluster : Cluster) (state : ClusterState) : Prop where
  nodup : state.stream.freeSegments.Nodup
  current : state.stream.currentSegmentAddr ∉ state.stream.freeSegments
  gone : ∀ addr ∈ state.stream.freeSegments, ∀ i ∈ cluster.members,
    ∀ segment ∈ (state.replicaStream cluster i).segments, segment.segmentAddr ≠ addr
  applied : ∀ addr ∈ state.stream.freeSegments, ∀ i ∈ cluster.members,
    ∀ n records, state.uses[n]? = some (addr, records) →
      ((state.uses.take (n + 1)).flatMap Prod.snd).Sublist (state.applied i)

section Safety

variable {cluster : Cluster} {state : ClusterState} {ops : List StreamOp}
  {closed : List (Nat × List Record)} {flushed pending : List Record} {progress : Nat → Progress}

variable (h : ReuseInvariant cluster state ops closed flushed pending progress)
include h

theorem ReuseInvariant.live_addrs (hi : i ∈ cluster.members) :
    (progress i).live.map SegmentLog.addr <+:
      (state.uses.map Prod.fst).drop (progress i).dropped.length := by
  obtain ⟨rest, hrest⟩ := addrs_isPrefix (h.received (h.nodes i hi))
  rw [← hrest, map_append, append_assoc, drop_left' (length_map ..)]
  exact prefix_append _ _

theorem ReuseInvariant.dropped_records (hi : i ∈ cluster.members) :
    recordsOf (allItems (progress i).dropped) =
      (state.uses.take (progress i).dropped.length).flatMap Prod.snd := by
  have hpre := (h.nodes i hi).dropped_isPrefix h.framing.staging.logs
  have hlen := hpre.length_le
  rw [length_map] at hlen
  rw [prefix_iff_eq_take, ← map_take] at hpre
  rw [h.uses, take_append_of_le_length hlen]
  conv_lhs => rw [hpre, allItems, map_map]
  exact recordsOf_closed _

theorem ReuseInvariant.reuseSafe : ReuseSafe cluster state := by
  refine ⟨h.ledger.free_nodup, ?_, ?_, ?_⟩
  · have hledger := h.ledger
    rw [h.uses, map_append, map_singleton] at hledger
    exact hledger.last_not_free
  · rintro addr haddr i hi segment hseg rfl
    refine h.ledger.released_of_free haddr hi ((h.live_addrs hi).subset ?_)
    rw [← map_addr_of_mirrors (h.nodes i hi).tracked.tracks.mirrors]
    exact mem_map_of_mem hseg
  · intro addr haddr i hi n records huse
    have hn : n < (progress i).dropped.length := by
      by_contra hlate
      refine h.ledger.released_of_free haddr hi (mem_of_getElem? (i := n -
        (progress i).dropped.length) ?_)
      rw [getElem?_drop, Nat.add_sub_cancel' (by omega), getElem?_map, huse]
      rfl
    have hdrop : ((state.uses.take (n + 1)).flatMap Prod.snd).Sublist
        (recordsOf (allItems (progress i).dropped)) := by
      rw [h.dropped_records hi]
      exact ((take_prefix_take_left hn).flatMap _).sublist
    refine hdrop.trans (List.Sublist.trans ?_ (h.applied i hi))
    rw [Progress.replayed, recordsOf_append]
    exact sublist_append_left _ _

end Safety

/-- Every state of every run of a logger with its replicas. -/
theorem reuseSafe_of_run {cluster : Cluster} {first : Nat} {start state : ClusterState}
    (hcluster : cluster.WellFormed) (hstart : ClusterStart cluster first start)
    (hrun : Relation.ReflTransGen (ClusterStep cluster) start state) : ReuseSafe cluster state := by
  obtain ⟨_, _, _, _, _, h⟩ := reusable_of_run hcluster hstart hrun
  exact h.reuseSafe

/-! The second record does not fit into the first segment; the replica beside the
primary replays the first record and the logger frees its segment. -/

def reuseCluster : Cluster :=
  ⟨⟨kLeafPageSize, fun _ => 2, .writeAllReplicas⟩, 0, 1, fun _ => id,
    fun _ address => 65536 ≤ address, fun addr => addr = 65537 ∨ addr = 131073⟩

theorem reuseCluster_wellFormed : reuseCluster.WellFormed := by
  refine ⟨by decide, by decide, rfl, by decide, by decide, ?_, ?_, ?_⟩
  · rintro addr (rfl | rfl)
    · rfl
    · rfl
  · rintro i addr (rfl | rfl)
    · exact ⟨Nat.succ_ne_zero _, fun j _ => by change 65536 ≤ 65537 + j; omega⟩
    · exact ⟨Nat.succ_ne_zero _, fun j _ => by change 65536 ≤ 131073 + j; omega⟩
  · rintro i addr addr' (rfl | rfl) (rfl | rfl) hne
    · exact absurd rfl hne
    · exact .inl (by change 65537 + kLeafPageSize ≤ 131073; decide)
    · exact .inr (by change 65537 + kLeafPageSize ≤ 131073; decide)
    · exact absurd rfl hne

def pageUpdate (version length : Nat) : PageChange :=
  ⟨256, version, [.update 40 (replicate length 0)]⟩

theorem pageUpdate_avoids {version length : Nat} (hver : version < 2 ^ 64)
    (hlen : length ≤ 16352) (i : Nat) :
    Avoids (reuseCluster.translate i) (reuseCluster.logArea i)
      (pageUpdate version length).record := by
  have hsound : (pageUpdate version length).Sound := by
    unfold pageUpdate
    constructor <;> simp [LogCodec.DecodedOp.update, LogCodec.DecodedOp.Within, kLeafPageSize]
    all_goals omega
  intro memory version' address harea
  have hpage : 256 + kLeafPageSize ≤ address := le_trans (by decide) harea
  rw [hsound.processLogRecord_eq (Nat.succ_ne_zero 255)]
  refine ⟨LogCodec.applyAll_outside memory hsound.within (.inr hpage), write_of_ge memory _ ?_⟩
  rw [natLE_length]
  exact le_trans (show 256 + 16 + 8 ≤ 256 + kLeafPageSize by decide) hpage

def reuseStart : ClusterState :=
  ⟨.create reuseCluster.options 1 65537, [(65537, [])], fun _ => sampleStart, fun _ => [], []⟩

theorem reuseStart_start : ClusterStart reuseCluster 65537 reuseStart :=
  ⟨.inl rfl, rfl, rfl, fun _ => rfl, fun _ => rfl, rfl⟩

def reuseFirst : ClusterState :=
  reuseStart.append reuseCluster (pageUpdate 1 1).record 131073

def reuseAppended : ClusterState :=
  reuseFirst.append reuseCluster (pageUpdate 2 16352).record 131073

def reuseWire (n : Nat) : Wire :=
  (reuseAppended.stream.posted 1)[n]?.getD (.segmentRequest 0 0 0)

theorem reuseWire_eq {n : Nat} (h : n < 3) :
    (reuseAppended.stream.posted 1)[n]? = some (reuseWire n) := by
  have hlen : (reuseAppended.stream.posted 1).length = 3 := by decide +kernel
  rw [reuseWire, getElem?_eq_getElem (by omega), Option.getD_some]

def reuseHandled : ClusterState :=
  ((reuseAppended.handle reuseCluster 1 (reuseWire 0)).handle reuseCluster 1
    (reuseWire 1)).handle reuseCluster 1 (reuseWire 2)

def reuseReplayed : ClusterState := reuseHandled.replay reuseCluster 1 28

def reuseMessage : RecycleMessage := ⟨0, 1, [65537]⟩

def reuseRecycled : ClusterState :=
  { reuseReplayed with
    stream := reuseReplayed.stream.handleLogSegmentRecycle reuseCluster.options
      reuseMessage.segmentAddrs
    mail := [] }

theorem reuseRecycled_run :
    Relation.ReflTransGen (ClusterStep reuseCluster) reuseStart reuseRecycled := by
  have hmember : 1 ∈ reuseCluster.members := by decide
  have hfirst : ClusterStep reuseCluster reuseStart reuseFirst :=
    .append reuseStart _ 131073 (by decide) (pageUpdate_avoids (by decide) (by decide)) (.inr rfl)
      (by decide)
  have hsnd : ClusterStep reuseCluster reuseFirst reuseAppended :=
    .append reuseFirst _ 131073 (by decide +kernel) (pageUpdate_avoids (by decide) le_rfl)
      (.inr rfl) (by decide)
  have happ : Relation.ReflTransGen (ClusterStep reuseCluster) reuseStart reuseAppended :=
    (Relation.ReflTransGen.single hfirst).tail hsnd
  have hhandled : Relation.ReflTransGen (ClusterStep reuseCluster) reuseStart reuseHandled :=
    ((happ.tail (.handle _ 1 _ hmember (reuseWire_eq (by decide)))).tail
      (.handle _ 1 _ hmember (reuseWire_eq (by decide)))).tail
        (.handle _ 1 _ hmember (reuseWire_eq (by decide)))
  have hrepl : Relation.ReflTransGen (ClusterStep reuseCluster) reuseStart reuseReplayed :=
    hhandled.tail (.replay _ 1 3 28 hmember (Nat.le_refl 3) (by decide +kernel))
  exact hrepl.tail (.recycle _ [] [] reuseMessage (by decide +kernel))

theorem reuseSafe_of_run_sample :
    reuseRecycled.stream.freeSegments = [65537] ∧ ReuseSafe reuseCluster reuseRecycled :=
  ⟨by decide +kernel, reuseSafe_of_run reuseCluster_wellFormed reuseStart_start reuseRecycled_run⟩

end MemoryEngine.RedoLog
