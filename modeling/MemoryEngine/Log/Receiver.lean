import MemoryEngine.Log.Framing
import Mathlib.Logic.Relation

/-! One stream at one replica.

The replica handles the messages of the stream in the order they were posted,
interleaved with replay passes and with anything else that happens on the node.
It holds exactly the items that were flushed, so a pass walks along whole items. -/
namespace MemoryEngine.RedoLog

open ByteMemory LogReplayer List Option

/-! ### Messages as bytes -/

def receiveMessage (segments : List (Nat × List UInt8)) : Wire → List (Nat × List UInt8)
  | .segmentRequest _ addr _ => segments ++ [(addr, [])]
  | .writeImm addr offset bytes _ => segments.modifyLast fun segment =>
      if segment.1 = addr then
        (segment.1, segment.2.take offset ++ bytes ++ segment.2.drop (offset + bytes.length))
      else segment

def receivedSegments (messages : List Wire) : List (Nat × List UInt8) :=
  messages.foldl receiveMessage []

def messageSize : Wire → Nat
  | .segmentRequest _ _ _ => 0
  | .writeImm _ _ bytes _ => bytes.length

/-- The value of `received_log_length` after some messages. -/
def receivedSize (messages : List Wire) : Nat := (messages.map messageSize).sum

section Messages

variable {region : Nat} {ops : List StreamOp}

theorem AllFit.of_append {first second : List StreamOp} (h : AllFit (first ++ second)) :
    AllFit first := by
  intro before op after hsplit
  exact h before op (after ++ second) (by simp [hsplit])

theorem AllFit.take (h : AllFit ops) (n : Nat) : AllFit (ops.take n) := by
  rw [← take_append_drop n ops] at h
  exact h.of_append

theorem isPrefix_take (ops : List StreamOp) (n : Nat) :
    allItems ((ops.take n).foldl StreamOp.extend []) <+:
      allItems (ops.foldl StreamOp.extend []) := by
  conv_rhs => rw [← take_append_drop n ops, foldl_append]
  exact isPrefix_foldl _ _

theorem bytesOf_allItems (logs : List SegmentLog) :
    logs.flatMap (fun log => bytesOf log.items) = bytesOf (allItems logs) := by
  induction logs with
  | nil => rfl
  | cons log logs ih =>
    have hcons : allItems (log :: logs) = log.items ++ allItems logs := rfl
    rw [flatMap_cons, ih, hcons, bytesOf_append]

theorem FlushFits.wire_eq {logs : List SegmentLog} {op : StreamOp} (h : FlushFits logs op)
    (region : Nat) : ∃ wire, op.wire region logs = some wire := by
  cases op with
  | request addr size => exact ⟨_, rfl⟩
  | flush items =>
    obtain ⟨-, -, log, hlast, -⟩ := h
    exact ⟨_, by rw [StreamOp.wire, hlast, map_some]⟩

theorem wires_concat (ops : List StreamOp) {op : StreamOp} {wire : Wire}
    (h : op.wire region (ops.foldl StreamOp.extend []) = some wire) :
    wires region [] (ops ++ [op]) = wires region [] ops ++ [wire] := by
  rw [wires_append, wires, wires, h]
  rfl

variable (h : AllFit ops)
include h

theorem AllFit.wires_length (region : Nat) : (wires region [] ops).length = ops.length := by
  induction ops using reverseRecOn with
  | nil => rfl
  | append_singleton ops op ih =>
    obtain ⟨wire, hwire⟩ := (h ops op [] rfl).wire_eq region
    rw [wires_concat ops hwire, length_append, length_append, ih h.of_append]
    rfl

theorem AllFit.wires_getElem? {n : Nat} {wire : Wire}
    (hwire : (wires region [] ops)[n]? = some wire) :
    ∃ op, ops[n]? = some op ∧ FlushFits ((ops.take n).foldl StreamOp.extend []) op ∧
      op.wire region ((ops.take n).foldl StreamOp.extend []) = some wire := by
  have hlt : n < ops.length := by
    rw [← h.wires_length region]
    exact (List.getElem?_eq_some_iff.mp hwire).1
  have hsplit : ops = ops.take n ++ ops[n] :: ops.drop (n + 1) := by
    rw [← List.drop_eq_getElem_cons hlt, List.take_append_drop]
  have hfit := h _ _ _ hsplit
  refine ⟨ops[n], List.getElem?_eq_getElem hlt, hfit, ?_⟩
  obtain ⟨wire', hwire'⟩ := hfit.wire_eq region
  have hlen : (wires region [] (ops.take n)).length = n := by
    rw [(h.take n).wires_length region, List.length_take, Nat.min_eq_left (Nat.le_of_lt hlt)]
  rw [hsplit, wires_append, wires, hwire', List.getElem?_append_right (by omega), hlen] at hwire
  simp only [Nat.sub_self, Option.toList_some, List.singleton_append, List.getElem?_cons_zero,
    Option.some.injEq] at hwire
  rw [hwire', hwire]

theorem AllFit.wires_take (n : Nat) :
    (wires region [] ops).take n = wires region [] (ops.take n) := by
  rcases Nat.le_total n ops.length with hn | hn
  · have hlen : (wires region [] (ops.take n)).length = n := by
      rw [(h.take n).wires_length region, length_take, Nat.min_eq_left hn]
    conv_lhs => rw [← take_append_drop n ops, wires_append]
    rw [take_append_of_le_length (by omega), take_of_length_le (by omega)]
  · rw [take_of_length_le hn, take_of_length_le]
    rw [h.wires_length region]
    exact hn

theorem AllFit.receivedSegments_wires :
    receivedSegments (wires region [] ops) =
      (ops.foldl StreamOp.extend []).map fun log => (log.addr, bytesOf log.items) := by
  induction ops using reverseRecOn with
  | nil => rfl
  | append_singleton ops op ih =>
    have hop := h ops op [] rfl
    obtain ⟨wire, hwire⟩ := hop.wire_eq region
    rw [wires_concat ops hwire, receivedSegments, foldl_append, ← receivedSegments,
      ih h.of_append, foldl_append]
    generalize ops.foldl StreamOp.extend [] = logs at hop hwire
    cases op with
    | request addr size =>
      cases hwire
      simp [receiveMessage, StreamOp.extend]
    | flush items =>
      obtain ⟨-, -, log, hlast, -⟩ := hop
      obtain ⟨init, rfl⟩ := getLast?_eq_some_iff.mp hlast
      rw [StreamOp.wire, hlast, map_some, Option.some.injEq] at hwire
      subst hwire
      have hlen : (bytesOf log.items).length = byteSize log.items := rfl
      simp only [foldl_cons, foldl_nil, receiveMessage, extend_flush_concat,
        map_append, map_cons, map_nil, modifyLast_concat, if_true,
        bytesOf_append]
      rw [← hlen, take_length, drop_eq_nil_of_le (by omega), append_nil]

theorem AllFit.receivedSize_wires :
    receivedSize (wires region [] ops) = byteSize (allItems (ops.foldl StreamOp.extend [])) := by
  induction ops using reverseRecOn with
  | nil => rfl
  | append_singleton ops op ih =>
    have hop := h ops op [] rfl
    obtain ⟨wire, hwire⟩ := hop.wire_eq region
    have hbefore := ih h.of_append
    rw [wires_concat ops hwire, foldl_append]
    simp only [receivedSize, map_append, sum_append] at hbefore ⊢
    rw [hbefore]
    generalize ops.foldl StreamOp.extend [] = logs at hop hwire
    cases op with
    | request addr size =>
      cases hwire
      simp [messageSize, StreamOp.extend]
    | flush items =>
      obtain ⟨-, -, log, hlast, -⟩ := hop
      obtain ⟨init, rfl⟩ := getLast?_eq_some_iff.mp hlast
      rw [StreamOp.wire, hlast, map_some, Option.some.injEq] at hwire
      subst hwire
      simp only [foldl_cons, foldl_nil, extend_flush_concat, allItems_append,
        allItems_singleton, byteSize_append, map_cons, map_nil, messageSize,
        sum_cons, sum_nil]
      have hlen : (bytesOf items).length = byteSize items := rfl
      omega

end Messages

/-! ### The replica -/

structure Receiver where
  manager : Manager
  handled : Nat

inductive ReceiverStep (translate : Nat → Nat) (computeId region : Nat) (messages : List Wire) :
    Receiver → Receiver → Prop
  | handle (node : Receiver) (wire : Wire) (hwire : messages[node.handled]? = some wire)
      (hfresh : FreshFor translate (node.manager.stream computeId region) wire) :
      ReceiverStep translate computeId region messages node
        ⟨node.manager.deliver translate computeId wire, node.handled + 1⟩
  | replay (node : Receiver) (count available : Nat) (hcount : count ≤ node.handled)
      (havail : (node.manager.stream computeId region).replayedLogLength + available =
        receivedSize (messages.take count)) :
      ReceiverStep translate computeId region messages node
        ⟨(node.manager.replayStream translate computeId region available).1, node.handled⟩
  | other (node : Receiver) (manager : Manager)
      (hstream : manager.stream computeId region = node.manager.stream computeId region)
      (hmemory : ∀ segment ∈ (node.manager.stream computeId region).segments,
        ∀ i, i < segment.segmentSize →
          manager.memory (segment.physicalPtr + i) =
            node.manager.memory (segment.physicalPtr + i)) :
      ReceiverStep translate computeId region messages node ⟨manager, node.handled⟩

structure Hosted (translate : Nat → Nat) (logArea : Nat → Prop) (messages : List Wire)
    (records : List Record) : Prop where
  segments : ∀ region addr size, .segmentRequest region addr size ∈ messages →
    translate addr ≠ 0 ∧ ∀ i, i < size → logArea (translate addr + i)
  records : ∀ r ∈ records, Avoids translate logArea r

structure ReceiverTracks (translate : Nat → Nat) (logArea : Nat → Prop)
    (computeId region : Nat) (ops : List StreamOp) (node : Receiver) (progress : Progress) :
    Prop where
  handled : node.handled ≤ ops.length
  tracked : Tracked translate logArea node.manager.memory (node.manager.stream computeId region)
    ((ops.take node.handled).foldl StreamOp.extend []) progress

section Receiver

variable {translate : Nat → Nat} {logArea : Nat → Prop} {computeId region : Nat}
  {ops : List StreamOp} {node : Receiver} {progress : Progress}

theorem ReceiverTracks.handle
    (h : ReceiverTracks translate logArea computeId region ops node progress)
    (hcpu : computeId < maxComputeNodes) (hregion : region < maxLogicalRegions)
    (hfit : AllFit ops) {wire : Wire} (hwire : (wires region [] ops)[node.handled]? = some wire)
    (hhost : ∀ addr size, wire = .segmentRequest region addr size →
      translate addr ≠ 0 ∧ ∀ i, i < size → logArea (translate addr + i))
    (hfresh : FreshFor translate (node.manager.stream computeId region) wire) :
    ∃ progress', progress'.replayed = progress.replayed ∧
      progress'.dropped = progress.dropped ∧
      ReceiverTracks translate logArea computeId region ops
        ⟨node.manager.deliver translate computeId wire, node.handled + 1⟩ progress' := by
  obtain ⟨op, hop, hopFit, hopWire⟩ := hfit.wires_getElem? hwire
  have hnext : (ops.take (node.handled + 1)).foldl StreamOp.extend [] =
      op.extend ((ops.take node.handled).foldl StreamOp.extend []) := by
    rw [List.take_add_one, hop, Option.toList_some, List.foldl_append]
    rfl
  have hhandled : node.handled + 1 ≤ ops.length := (List.getElem?_eq_some_iff.mp hop).1
  cases op with
  | request addr size =>
    obtain rfl : Wire.segmentRequest region addr size = wire := Option.some.inj hopWire
    obtain ⟨hmap, harea⟩ := hhost addr size rfl
    have hdeliver := node.manager.deliver_request translate hcpu hregion addr size
    refine ⟨⟨progress.dropped, progress.live ++ [⟨addr, size, []⟩], progress.done⟩, rfl, rfl,
      hhandled, ?_⟩
    rw [hnext, hdeliver, Manager.stream_setStream_self]
    exact h.tracked.request hmap harea hfresh
  | flush items =>
    obtain ⟨-, hsize, log, hlast, hroom⟩ := hopFit
    rw [StreamOp.wire, hlast, Option.map_some, Option.some.injEq] at hopWire
    subst hopWire
    obtain ⟨segment, hseg, -, -⟩ := h.tracked.last_segment hlast
    have hdeliver := node.manager.deliver_writeImm translate hcpu hregion
      (List.ne_nil_of_mem hseg) log.addr (byteSize log.items) (bytesOf items) hsize
    obtain ⟨progress', hrepl, hdrop, htrack⟩ := h.tracked.flush hlast hroom
    refine ⟨progress', hrepl, hdrop, hhandled, ?_⟩
    rw [hnext, hdeliver, Manager.stream_setStream_self]
    exact htrack

theorem observed_of_le (region : Nat) (hfit : AllFit ops) {count : Nat}
    (hcount : count ≤ node.handled) :
    receivedSize ((wires region [] ops).take count) =
        byteSize (allItems ((ops.take count).foldl StreamOp.extend [])) ∧
      allItems ((ops.take count).foldl StreamOp.extend []) <+:
        allItems ((ops.take node.handled).foldl StreamOp.extend []) := by
  constructor
  · rw [hfit.wires_take count, (hfit.take count).receivedSize_wires]
  · obtain ⟨k, hk⟩ := Nat.exists_eq_add_of_le hcount
    rw [hk, take_add, foldl_append]
    exact isPrefix_foldl _ _

/-- A pass walks along the items after the replayed ones: it applies their
records, ends a turn at each close marker and reports no damage. -/
structure PassFaithful (result : ReplayResult) (pending consumed : List Item) : Prop where
  walk : consumed <+: pending
  applied : result.applied = recordsOf consumed
  markers : result.exits.count .marker = markerCount consumed
  wellFormed : ∀ exit ∈ result.exits, ¬ exit.Malformed

section

variable (h : ReceiverTracks translate logArea computeId region ops node progress)
include h

theorem ReceiverTracks.replay (hfit : AllFit ops)
    (hrecs : ∀ r ∈ recordsOf (allItems ((ops.take node.handled).foldl StreamOp.extend [])),
      Avoids translate logArea r)
    {count available : Nat} (hcount : count ≤ node.handled)
    (havail : (node.manager.stream computeId region).replayedLogLength + available =
      receivedSize ((wires region [] ops).take count)) :
    ∃ pending consumed stored gone progress',
      allItems ((ops.take count).foldl StreamOp.extend []) = progress.replayed ++ pending ∧
      PassFaithful (replayLogData translate (node.manager.stream computeId region)
        node.manager.memory available) pending consumed ∧
      stored <+: consumed ∧ progress'.dropped = progress.dropped ++ gone ∧
      progress'.replayed = progress.replayed ++ stored ∧
      (node.manager.replayStream translate computeId region available).2.1 =
        recordsOf consumed ∧
      (node.manager.replayStream translate computeId region available).2.2.2.flatMap
        RecycleMessage.segmentAddrs = gone.map SegmentLog.addr ∧
      ReceiverTracks translate logArea computeId region ops
        ⟨(node.manager.replayStream translate computeId region available).1, node.handled⟩
        progress' := by
  obtain ⟨hsize, hpre⟩ := observed_of_le region hfit hcount
  rw [hsize] at havail
  obtain ⟨pending, consumed, rest, stored, middle, gone, progress', view, after, hpend, hspec,
    -, hrecyc, hdrop, hrepl, htrack⟩ :=
    h.tracked.replay hpre havail
      fun r hr => hrecs r ((hpre.sublist.filterMap _).subset hr)
  have hzero : node.manager.streams (makeStreamIndex computeId region) = none →
      available = 0 := by
    intro hnone
    refine h.tracked.available_eq_zero ?_ hpre havail
    rw [Manager.stream, hnone, getD_none]
  obtain ⟨hself, hmemory, happl, hmail, -⟩ := node.manager.replayStream_eq translate hzero
  refine ⟨pending, consumed, stored, gone, progress', hpend,
    ⟨⟨rest, hspec.split.symm⟩, hspec.applied, hspec.markers, hspec.wellFormed⟩,
    hspec.storedPrefix, hdrop, hrepl, happl.trans hspec.applied, ?_, h.handled, ?_⟩
  · rw [hmail, sendSegmentRecycleRPC_addrs, hrecyc]
  · dsimp only
    rw [hself, hmemory]
    exact htrack

theorem ReceiverTracks.extend {ops' : List StreamOp} (hops : ops <+: ops') :
    ReceiverTracks translate logArea computeId region ops' node progress := by
  obtain ⟨more, rfl⟩ := hops
  refine ⟨?_, ?_⟩
  · rw [length_append]
    exact Nat.le_add_right_of_le h.handled
  · rw [take_append_of_le_length h.handled]
    exact h.tracked

theorem ReceiverTracks.other {manager : Manager}
    (hstream : manager.stream computeId region = node.manager.stream computeId region)
    (hmemory : ∀ segment ∈ (node.manager.stream computeId region).segments, ∀ i, i <
      segment.segmentSize → manager.memory (segment.physicalPtr + i) = node.manager.memory
      (segment.physicalPtr + i)) :
    ReceiverTracks translate logArea computeId region ops ⟨manager, node.handled⟩ progress := by
  refine ⟨h.handled, ?_⟩
  rw [hstream]
  exact h.tracked.congr hmemory

end

theorem recordsOf_take_subset (n : Nat) :
    recordsOf (allItems ((ops.take n).foldl StreamOp.extend [])) ⊆
      recordsOf (allItems (ops.foldl StreamOp.extend [])) :=
  ((isPrefix_take ops n).sublist.filterMap _).subset

theorem ReceiverStep.tracks {node' : Receiver} (hcpu : computeId < maxComputeNodes)
    (hregion : region < maxLogicalRegions) (hfit : AllFit ops)
    (hhost : Hosted translate logArea (wires region [] ops)
      (recordsOf (allItems (ops.foldl StreamOp.extend []))))
    (hstep : ReceiverStep translate computeId region (wires region [] ops) node node')
    (h : ReceiverTracks translate logArea computeId region ops node progress) :
    ∃ progress', ReceiverTracks translate logArea computeId region ops node' progress' := by
  cases hstep with
  | handle wire hwire hfresh =>
    have hmap : ∀ addr size, wire = .segmentRequest region addr size →
        translate addr ≠ 0 ∧ ∀ i, i < size → logArea (translate addr + i) := by
      rintro addr size rfl
      exact hhost.segments region addr size (mem_of_getElem? hwire)
    obtain ⟨progress', -, -, h'⟩ := h.handle hcpu hregion hfit hwire hmap hfresh
    exact ⟨progress', h'⟩
  | replay count available hcount havail =>
    obtain ⟨_, _, _, _, progress', _, _, _, _, _, _, _, h'⟩ := h.replay hfit
      (fun r hr => hhost.records r (recordsOf_take_subset _ hr)) hcount havail
    exact ⟨progress', h'⟩
  | other manager hstream hmemory => exact ⟨progress, h.other hstream hmemory⟩

theorem ReceiverTracks.run {start : Receiver} (hcpu : computeId < maxComputeNodes)
    (hregion : region < maxLogicalRegions) (hfit : AllFit ops)
    (hhost : Hosted translate logArea (wires region [] ops)
      (recordsOf (allItems (ops.foldl StreamOp.extend []))))
    (hstart : start.handled = 0)
    (hempty : start.manager.stream computeId region = ⟨computeId, region, [], 0, 0, 0⟩)
    (hrun : Relation.ReflTransGen
      (ReceiverStep translate computeId region (wires region [] ops)) start node) :
    ∃ progress, ReceiverTracks translate logArea computeId region ops node progress := by
  induction hrun with
  | refl =>
    refine ⟨⟨[], [], []⟩, by omega, ?_⟩
    rw [hstart, hempty]
    exact Tracked.init _ _ _
  | tail _ hstep ih =>
    obtain ⟨progress, h⟩ := ih
    exact hstep.tracks hcpu hregion hfit hhost h

end Receiver

/-! ### Framing of the messages -/

/-- The messages posted to a replica, as whole records in append order: closed
segments, the part of the current segment that was flushed, and the records that
are still staged. -/
structure FramedMessages (options : Options) (stream : StreamState) (appended : List Record)
    (messages : List Wire) (closed : List (Nat × List Record)) (flushed pending : List Record) :
    Prop where
  segments : receivedSegments messages =
    closed.map (fun segment =>
      (segment.1, bytesOf (itemsOf segment.2 ++ closing options segment.2))) ++
    [(stream.currentSegmentAddr, bytesOf (itemsOf flushed))]
  appended : closed.flatMap Prod.snd ++ flushed ++ pending = appended
  staged : byteSize (itemsOf pending) = stream.tail - stream.flushedTail
  /-- Each message leaves whole items of the segments. -/
  boundaries : ∀ n, ∃ whole : List (Nat × List Item),
    receivedSegments (messages.take n) = whole.map (fun segment => (segment.1, bytesOf segment.2)) ∧
    whole.flatMap Prod.snd <+:
      closed.flatMap (fun segment => itemsOf segment.2 ++ closing options segment.2) ++
        itemsOf flushed

section FramedMessages

variable {options : Options} {region : Nat} {stream : StreamState} {ops : List StreamOp}
  {closed : List (Nat × List Record)} {flushed pending : List Record}

theorem Framing.allItems_eq (h : Framing options region stream ops closed flushed pending) :
    allItems (ops.foldl StreamOp.extend []) =
      closed.flatMap (fun segment => itemsOf segment.2 ++ closing options segment.2) ++
        itemsOf flushed := by
  rw [h.staging.logs, allItems_append, allItems_singleton, allItems, List.map_map]
  rfl

@[simp] theorem recordsOf_closing (records : List Record) :
    recordsOf (closing options records) = [] := by
  unfold closing
  split
  · rfl
  · rfl

theorem recordsOf_closed (closed : List (Nat × List Record)) :
    recordsOf (closed.flatMap fun segment => itemsOf segment.2 ++ closing options segment.2) =
      closed.flatMap Prod.snd := by
  induction closed with
  | nil => rfl
  | cons segment closed ih =>
    rw [flatMap_cons, flatMap_cons, recordsOf_append, ih, recordsOf_append,
      recordsOf_itemsOf, recordsOf_closing, append_nil]

variable (h : Framing options region stream ops closed flushed pending)
include h

theorem Framing.recordsOf_eq :
    recordsOf (allItems (ops.foldl StreamOp.extend [])) =
      closed.flatMap Prod.snd ++ flushed := by
  rw [h.allItems_eq, recordsOf_append, recordsOf_itemsOf, recordsOf_closed]

theorem Framing.framedMessages :
    FramedMessages options stream (closed.flatMap Prod.snd ++ flushed ++ pending)
      (wires region [] ops) closed flushed pending := by
  have hfit := h.staging.allFit
  refine ⟨?_, rfl, ?_, ?_⟩
  · rw [hfit.receivedSegments_wires, h.staging.logs, List.map_append, List.map_map]
    rfl
  · rw [h.staging.tail, h.staging.flushedTail, byteSize_append]
    omega
  · intro n
    refine ⟨((ops.take n).foldl StreamOp.extend []).map fun log => (log.addr, log.items), ?_, ?_⟩
    · rw [hfit.wires_take n, (hfit.take n).receivedSegments_wires, List.map_map]
      rfl
    · rw [← h.allItems_eq, List.flatMap_map]
      exact isPrefix_take ops n

end FramedMessages

/-- Every run of a logger: the messages posted to a replica are framed, and every
replay pass at the replica, over any prefix of them and whatever else happens on
the node, walks along whole items. -/
theorem framed_and_replayed_as_framed {options : Options}
    (hcap : kLeafPageSize ≤ options.chunkSize) {ops : List LoggerOp}
    (hvalid : ∀ op ∈ ops, op.Valid) {region : Nat} {stream : StreamState}
    (hstream : (Logger.run options ops).streams region = some stream) {i : Nat}
    (hi : Flushes options region i) :
    (∃ closed flushed pending, FramedMessages options stream (appendedTo region ops)
      (stream.posted i) closed flushed pending) ∧
    ∀ (translate : Nat → Nat) (logArea : Nat → Prop) (computeId : Nat) (start node : Receiver),
      computeId < maxComputeNodes → region < maxLogicalRegions →
      Hosted translate logArea (stream.posted i) (appendedTo region ops) →
      start.handled = 0 →
      start.manager.stream computeId region = ⟨computeId, region, [], 0, 0, 0⟩ →
      Relation.ReflTransGen (ReceiverStep translate computeId region (stream.posted i))
        start node →
      ∀ count available, count ≤ node.handled →
        (node.manager.stream computeId region).replayedLogLength + available =
          receivedSize ((stream.posted i).take count) →
        ∃ replayed pending consumed,
          (receivedSegments ((stream.posted i).take count)).flatMap Prod.snd =
            bytesOf (replayed ++ pending) ∧
          (node.manager.stream computeId region).replayedLogLength = byteSize replayed ∧
          PassFaithful (replayLogData translate (node.manager.stream computeId region)
            node.manager.memory available) pending consumed := by
  have hframed := FramedStream.run hcap hvalid region
  rw [hstream] at hframed
  obtain ⟨sops, closed, flushed, staged, hfrm, happ⟩ := hframed
  have hfit := hfrm.staging.allFit
  rw [hfrm.staging.posted i hi]
  constructor
  · refine ⟨closed, flushed, staged, ?_⟩
    rw [← happ]
    exact hfrm.framedMessages
  · intro translate logArea computeId start node hcpu hregion hhost hstart hempty hrun count
      available hcount havail
    have hsub : ∀ r ∈ recordsOf (allItems (sops.foldl StreamOp.extend [])),
        Avoids translate logArea r := by
      intro r hr
      apply hhost.records r
      rw [← happ]
      rw [hfrm.recordsOf_eq] at hr
      exact mem_append_left _ hr
    obtain ⟨progress, h⟩ :=
      ReceiverTracks.run hcpu hregion hfit ⟨hhost.segments, hsub⟩ hstart hempty hrun
    obtain ⟨pending, consumed, _, _, _, hpend, hpass, -⟩ := h.replay hfit
      (fun r hr => hsub r (recordsOf_take_subset _ hr)) hcount havail
    refine ⟨progress.replayed, pending, consumed, ?_, h.tracked.tracks.replayed, hpass⟩
    rw [← hpend, hfit.wires_take count, (hfit.take count).receivedSegments_wires,
      flatMap_map, bytesOf_allItems]

/-! A record of page 256, flushed to the last of three replicas. -/

def sampleOptions : Options := ⟨kLeafPageSize, fun _ => 3, .writeAllReplicas⟩

def sampleRecord : Record := .ofAppend 256 1 []

def sampleCalls : List LoggerOp := [.append 1 sampleRecord 65537 131073, .flush 1]

theorem sampleCalls_valid : ∀ op ∈ sampleCalls, op.Valid := by
  simp only [sampleCalls, mem_cons, not_mem_nil, or_false]
  rintro op (rfl | rfl)
  · exact ⟨by decide, by decide, by decide⟩
  · exact trivial

def sampleMessages : List Wire :=
  [.segmentRequest 1 65537 kLeafPageSize,
    .writeImm 65537 0 sampleRecord.bytes (encodeImm 1 22)]

theorem sampleMessages_hosted :
    Hosted id (fun address => 1024 ≤ address) sampleMessages (appendedTo 1 sampleCalls) := by
  constructor
  · intro region addr size hmem
    simp only [sampleMessages, mem_cons, not_mem_nil, or_false, Wire.segmentRequest.injEq,
      reduceCtorEq] at hmem
    obtain ⟨rfl, rfl, rfl⟩ := hmem
    refine ⟨by decide, fun i _ => ?_⟩
    change 1024 ≤ 65537 + i
    omega
  · intro r hr memory version address harea
    simp only [appendedTo, sampleCalls, filterMap_cons, if_true, filterMap_nil,
      mem_singleton] at hr
    subst hr
    refine ⟨rfl, write_of_ge memory _ ?_⟩
    simp only [id_eq, pVersionOffset, natLE_length, sampleRecord, Record.ofAppend]
    omega

def sampleStart : Receiver := ⟨⟨fun _ => 0, fun _ => none⟩, 0⟩

def sampleNode : Receiver :=
  ⟨(sampleStart.manager.deliver id 0 (.segmentRequest 1 65537 kLeafPageSize)).deliver id 0
    (.writeImm 65537 0 sampleRecord.bytes (encodeImm 1 22)), 2⟩

theorem sampleNode_run : Relation.ReflTransGen (ReceiverStep id 0 1 sampleMessages)
    sampleStart sampleNode :=
  (Relation.ReflTransGen.refl.tail (.handle _ _ rfl (by decide))).tail
    (.handle _ _ rfl (by decide))

theorem framed_and_replayed_as_framed_sample :
    ∃ stream, (Logger.run sampleOptions sampleCalls).streams 1 = some stream ∧
      stream.posted 2 = sampleMessages ∧
      ∃ pending consumed, PassFaithful (replayLogData id (sampleNode.manager.stream 0 1)
        sampleNode.manager.memory 22) pending consumed := by
  obtain ⟨stream, hstream, hposted⟩ : ∃ stream,
      (Logger.run sampleOptions sampleCalls).streams 1 = some stream ∧
        stream.posted 2 = sampleMessages := ⟨_, rfl, by decide⟩
  refine ⟨stream, hstream, hposted, ?_⟩
  have hflushes : Flushes sampleOptions 1 2 := by decide
  have hrply := (framed_and_replayed_as_framed (Nat.le_refl kLeafPageSize) sampleCalls_valid
    hstream hflushes).2
  rw [hposted] at hrply
  obtain ⟨replayed, pending, consumed, -, -, hpass⟩ := hrply id _ 0 sampleStart sampleNode
    (by decide) (by decide) sampleMessages_hosted rfl rfl sampleNode_run 2 22
    (by decide) (by decide)
  exact ⟨pending, consumed, hpass⟩

end MemoryEngine.RedoLog
