import MemoryEngine.Log.Delivery
import MemoryEngine.Log.RedoLogger

/-! The framing of a log stream.

Whatever the order of appends, flushes and segment changes, the bytes posted to
a replica are whole items: the segments hold the appended records in order, and
a segment that was closed with room left ends with the close marker.  So the
replayer's loops never meet a damaged record. -/
namespace MemoryEngine.RedoLog

open ByteMemory LogReplayer List Function

def wires (region : Nat) : List SegmentLog → List StreamOp → List Wire
  | _, [] => []
  | logs, op :: ops => (op.wire region logs).toList ++ wires region (op.extend logs) ops

theorem wires_append (region : Nat) (logs : List SegmentLog) (first second : List StreamOp) :
    wires region logs (first ++ second) =
      wires region logs first ++ wires region (first.foldl StreamOp.extend logs) second := by
  induction first generalizing logs with
  | nil => rfl
  | cons op first ih => rw [cons_append, wires, wires, ih, append_assoc]; rfl

def itemsOf (records : List Record) : List Item := records.map .record

@[simp] theorem itemsOf_append (first second : List Record) :
    itemsOf (first ++ second) = itemsOf first ++ itemsOf second :=
  map_append

@[simp] theorem recordsOf_itemsOf (records : List Record) :
    recordsOf (itemsOf records) = records := by
  induction records with
  | nil => rfl
  | cons r records ih => exact congrArg (r :: ·) ih

def FlushFits (logs : List SegmentLog) : StreamOp → Prop
  | .request _ _ => True
  | .flush items => items ≠ [] ∧ byteSize items < 2 ^ 24 ∧
      ∃ log, logs.getLast? = some log ∧ byteSize log.items + byteSize items ≤ log.size

def AllFit (ops : List StreamOp) : Prop :=
  ∀ before op after, ops = before ++ op :: after →
    FlushFits (before.foldl StreamOp.extend []) op

theorem AllFit.concat {ops : List StreamOp} {op : StreamOp} (h : AllFit ops)
    (hop : FlushFits (ops.foldl StreamOp.extend []) op) : AllFit (ops ++ [op]) := by
  intro before op' after hsplit
  rcases eq_nil_or_concat' after with rfl | ⟨init, last, rfl⟩
  · obtain ⟨rfl, hlast⟩ := append_inj' hsplit rfl
    obtain rfl : op = op' := by simpa using hlast
    exact hop
  · rw [← cons_append, ← append_assoc] at hsplit
    obtain ⟨rfl, -⟩ := append_inj' hsplit rfl
    exact h before op' init rfl

/-- The replica with index `i` receives the flushes of a region. -/
def Flushes (options : Options) (region i : Nat) : Prop :=
  1 ≤ i ∧ i < StreamState.flushEnd options region ∧
    StreamState.flushEnd options region ≤ options.replicas region

instance (options : Options) (region i : Nat) : Decidable (Flushes options region i) :=
  inferInstanceAs (Decidable (_ ∧ _ ∧ _))

/-- The stage buffer and the messages in terms of items: `flushed` are the items
of the current segment that were posted, `pending` those after them. -/
structure Staging (options : Options) (region : Nat) (stream : StreamState)
    (ops : List StreamOp) (closed : List SegmentLog) (flushed pending : List Item) : Prop where
  regionId : stream.logicalRegionId = region
  node : nodeId stream.currentSegmentAddr = region
  freeNode : ∀ addr ∈ stream.freeSegments, nodeId addr = region
  stageCap : stream.stageCap = options.chunkSize
  segmentSize : stream.currentSegmentSize = options.chunkSize
  logs : ops.foldl StreamOp.extend [] =
    closed ++ [⟨stream.currentSegmentAddr, options.chunkSize, flushed⟩]
  allFit : AllFit ops
  posted : ∀ i, Flushes options region i → stream.posted i = wires region [] ops
  flushedTail : stream.flushedTail = byteSize flushed
  tail : stream.tail = byteSize (flushed ++ pending)
  stage : read stream.stage 0 stream.tail = bytesOf (flushed ++ pending)
  fits : stream.tail ≤ options.chunkSize

variable {fresh : Nat}

section Staging

variable {options : Options} {region : Nat} {stream : StreamState} {ops : List StreamOp}
  {closed : List SegmentLog} {flushed pending : List Item}

theorem StreamState.posted_post_of_flushes {i last : Nat} {wire : Wire} (hi : 1 ≤ i)
    (hlast : i < last) : (stream.post 1 last wire).posted i = stream.posted i ++ [wire] := by
  simp [StreamState.post, hi, hlast]

theorem Staging.remaining (h : Staging options region stream ops closed flushed pending) :
    stream.remainingCapacity = options.chunkSize - stream.tail := by
  rw [StreamState.remainingCapacity, h.stageCap, if_pos h.fits]

theorem Staging.create {first : Nat} (hnode : nodeId first = region) :
    Staging options region (StreamState.create options region first)
      [.request first options.chunkSize] [] [] [] := by
  refine ⟨rfl, hnode, by simp [StreamState.create, StreamState.sendLogSegmentRPC,
    StreamState.post], rfl, rfl, rfl, ?_, ?_, rfl, rfl, rfl, Nat.zero_le _⟩
  · have hfit : AllFit ([] ++ [.request first options.chunkSize]) :=
      AllFit.concat (fun before op after h => by simp at h) trivial
    exact hfit
  · intro i hi
    rw [StreamState.create, StreamState.sendLogSegmentRPC,
      StreamState.posted_post_of_flushes hi.1 (Nat.lt_of_lt_of_le hi.2.1 hi.2.2)]
    rfl

theorem Staging.push (h : Staging options region stream ops closed flushed pending) (item : Item)
    (hroom : stream.tail + item.bytes.length ≤ options.chunkSize) :
    Staging options region (stream.copyAtTail item.bytes) ops closed flushed
      (pending ++ [item]) := by
  refine { h with tail := ?_, stage := ?_, fits := hroom }
  · rw [← append_assoc, byteSize_append, ← h.tail]
    simp [StreamState.copyAtTail]
  · have hold : read (write stream.stage stream.tail item.bytes) 0 stream.tail =
        bytesOf (flushed ++ pending) := by
      rw [read_write_disjoint stream.stage (.inr (by simp)), h.stage]
    simp only [StreamState.copyAtTail]
    rw [read_add, hold, Nat.zero_add, read_write_same, ← append_assoc, bytesOf_append]
    simp

theorem StreamState.flushLocked_segments :
    (stream.flushLocked options).currentSegmentAddr = stream.currentSegmentAddr ∧
      (stream.flushLocked options).freeSegments = stream.freeSegments ∧
      (stream.flushLocked options).pendingRecycleAcks = stream.pendingRecycleAcks := by
  unfold StreamState.flushLocked
  dsimp only
  split
  · exact ⟨rfl, rfl, rfl⟩
  · split
    · exact ⟨rfl, rfl, rfl⟩
    · exact ⟨rfl, rfl, rfl⟩

theorem Staging.flushLocked (h : Staging options region stream ops closed flushed pending)
    (hsize : byteSize pending < 2 ^ 24) :
    ∃ ops', ops <+: ops' ∧ Staging options region (stream.flushLocked options) ops' closed
      (flushed ++ pending) [] := by
  have htoFlush : stream.tail - stream.flushedTail = byteSize pending := by
    rw [h.tail, h.flushedTail, byteSize_append]
    omega
  by_cases hempty : pending = []
  · subst hempty
    have hsame : stream.flushLocked options = stream := by
      simp only [StreamState.flushLocked, htoFlush, byteSize_nil, if_true]
    rw [hsame, append_nil]
    exact ⟨ops, prefix_rfl, h⟩
  have hne : ¬ byteSize pending = 0 := fun hzero => hempty (byteSize_eq_zero.mp hzero)
  have hlast : (ops.foldl StreamOp.extend []).getLast? =
      some ⟨stream.currentSegmentAddr, options.chunkSize, flushed⟩ := by
    rw [h.logs, getLast?_concat]
  have hroom : byteSize flushed + byteSize pending ≤ options.chunkSize := by
    have hfits := h.fits
    rwa [h.tail, byteSize_append] at hfits
  have hlogs : (ops ++ [StreamOp.flush pending]).foldl StreamOp.extend [] =
      closed ++ [⟨stream.currentSegmentAddr, options.chunkSize, flushed ++ pending⟩] := by
    rw [foldl_append, foldl_cons, foldl_nil, h.logs, extend_flush_concat]
  have hfit : AllFit (ops ++ [StreamOp.flush pending]) :=
    h.allFit.concat ⟨hempty, hsize, _, hlast, hroom⟩
  have hread : read stream.stage stream.flushedTail (byteSize pending) = bytesOf pending := by
    have hstage := h.stage
    rw [h.tail] at hstage
    have hright := read_items_right hstage
    rwa [Nat.zero_add, ← h.flushedTail] at hright
  refine ⟨ops ++ [.flush pending], prefix_append _ _, ?_⟩
  simp only [StreamState.flushLocked, htoFlush, if_neg hne]
  split
  · rename_i hnobody
    refine { h with
      logs := hlogs, allFit := hfit, posted := ?_, flushedTail := ?_, tail := ?_, stage := ?_ }
    · intro i hi
      rw [h.node] at hnobody
      obtain ⟨hone, hend, hall⟩ := hi
      omega
    · exact h.tail
    · rw [append_nil]
      exact h.tail
    · rw [append_nil]
      exact h.stage
  · refine { h with
      logs := hlogs, allFit := hfit, posted := ?_, flushedTail := ?_, tail := ?_, stage := ?_ }
    · intro i hi
      rw [h.node, StreamState.posted_post_of_flushes hi.1 hi.2.1, wires_append, hread,
        h.flushedTail]
      rw [h.posted i hi]
      simp [wires, StreamOp.wire, hlast]
    · exact h.tail
    · rw [append_nil]
      exact h.tail
    · rw [append_nil]
      exact h.stage

theorem StreamState.allocate_eq (options : Options)
    (hfree : ∀ addr ∈ stream.freeSegments, nodeId addr = region)
    (hfresh : nodeId fresh = region) :
    ∃ addr free, nodeId addr = region ∧ (∀ a ∈ free, nodeId a = region) ∧
      stream.allocateNewSegmentAndNotify options fresh =
        { StreamState.sendLogSegmentRPC options
            { stream with
              currentSegmentAddr := addr
              freeSegments := free
              currentSegmentSize := options.chunkSize } with
          tail := 0, flushedTail := 0 } := by
  unfold StreamState.allocateNewSegmentAndNotify
  cases hsegs : stream.freeSegments with
  | nil => exact ⟨fresh, [], hfresh, by simp, rfl⟩
  | cons addr rest =>
    rw [hsegs] at hfree
    exact ⟨addr, rest, hfree addr (by simp), fun a ha => hfree a (by simp [ha]), rfl⟩

theorem Staging.allocate (h : Staging options region stream ops closed flushed [])
    (hfresh : nodeId fresh = region) :
    ∃ ops', ops <+: ops' ∧
      Staging options region (stream.allocateNewSegmentAndNotify options fresh) ops'
      (closed ++ [⟨stream.currentSegmentAddr, options.chunkSize, flushed⟩]) [] [] := by
  obtain ⟨addr, free, hnode, hfree, hnext⟩ :=
    StreamState.allocate_eq options h.freeNode hfresh
  have hfit : AllFit (ops ++ [.request addr options.chunkSize]) := h.allFit.concat trivial
  rw [hnext]
  refine ⟨ops ++ [.request addr options.chunkSize], prefix_append _ _, h.regionId, hnode, hfree,
    h.stageCap, rfl, ?_, hfit, ?_, rfl, rfl, rfl, Nat.zero_le _⟩
  · rw [foldl_append, foldl_cons, foldl_nil, h.logs, StreamOp.extend]
    rfl
  · intro i hi
    simp only [StreamState.sendLogSegmentRPC, h.regionId]
    rw [StreamState.posted_post_of_flushes hi.1 (Nat.lt_of_lt_of_le hi.2.1 hi.2.2), wires_append]
    rw [h.posted i hi]
    rfl

end Staging

/-! ### Records -/

def closing (options : Options) (records : List Record) : List Item :=
  if byteSize (itemsOf records) < options.chunkSize then [.marker] else []

def closedLog (options : Options) (segment : Nat × List Record) : SegmentLog :=
  ⟨segment.1, options.chunkSize, itemsOf segment.2 ++ closing options segment.2⟩

structure Framing (options : Options) (region : Nat) (stream : StreamState)
    (ops : List StreamOp) (closed : List (Nat × List Record)) (flushed pending : List Record) :
    Prop where
  staging : Staging options region stream ops (closed.map (closedLog options)) (itemsOf flushed)
    (itemsOf pending)
  unflushed : byteSize (itemsOf pending) < autoFlushThreshold + kLeafPageSize

variable {record : Record}

section Framing

variable {options : Options} {region : Nat} {stream : StreamState} {ops : List StreamOp}
  {closed : List (Nat × List Record)} {flushed pending : List Record}

section

variable (h : Framing options region stream ops closed flushed pending)
include h

theorem Framing.flushLocked :
    ∃ ops', ops <+: ops' ∧ Framing options region (stream.flushLocked options) ops' closed
      (flushed ++ pending) [] := by
  have hunfl := h.unflushed
  simp only [autoFlushThreshold, kLeafPageSize] at hunfl
  obtain ⟨ops', hops, hstg⟩ := h.staging.flushLocked (by omega)
  rw [← itemsOf_append] at hstg
  exact ⟨ops', hops, hstg, by simp [itemsOf, autoFlushThreshold]⟩

theorem Framing.closeSegment (hfresh : nodeId fresh = region) :
    ∃ ops', ops <+: ops' ∧ Framing options region (stream.closeSegment options fresh) ops'
      (closed ++ [(stream.currentSegmentAddr, flushed ++ pending)]) [] [] := by
  have hstg := h.staging
  have hunfl := h.unflushed
  have htail := h.staging.tail
  have hflushedTail := h.staging.flushedTail
  simp only [autoFlushThreshold, kLeafPageSize] at hunfl
  -- the segment after the marker has been staged and everything flushed
  obtain ⟨closedStream, ops', hops, hclose, hclos, hcurr⟩ : ∃ closedStream ops',
      ops <+: ops' ∧
      stream.closeSegment options fresh =
        closedStream.allocateNewSegmentAndNotify options fresh ∧
      Staging options region closedStream ops' (closed.map (closedLog options))
        (itemsOf (flushed ++ pending) ++ closing options (flushed ++ pending)) [] ∧
      closedStream.currentSegmentAddr = stream.currentSegmentAddr := by
    have hbytes : byteSize (itemsOf (flushed ++ pending)) = stream.tail := by
      rw [itemsOf_append, htail]
    have hle : stream.flushedTail ≤ stream.tail := by
      rw [htail, hflushedTail, byteSize_append]
      omega
    rw [closing, hbytes]
    have hremaining := hstg.remaining
    by_cases hroom : stream.remainingCapacity > 0
    · have hspace : stream.tail + 1 ≤ options.chunkSize := by omega
      have hmarked := hstg.push .marker hspace
      have hlen : byteSize (itemsOf pending ++ [.marker]) = byteSize (itemsOf pending) + 1 := by
        simp [Item.bytes]
      obtain ⟨ops', hops, hflush⟩ := hmarked.flushLocked (by rw [hlen]; omega)
      refine ⟨(stream.copyAtTail [segmentCloseMarker]).flushLocked options, ops', hops, ?_, ?_,
        StreamState.flushLocked_segments.1⟩
      · simp only [StreamState.closeSegment, if_pos hroom]
        rw [if_pos (by simp only [StreamState.copyAtTail, length_singleton]; omega)]
      · rw [if_pos (by omega), itemsOf_append, append_assoc]
        exact hflush
    · have hfull : ¬ stream.tail < options.chunkSize := by omega
      rw [if_neg hfull, append_nil, itemsOf_append]
      by_cases hpend : stream.tail > stream.flushedTail
      · obtain ⟨ops', hops, hflush⟩ := hstg.flushLocked (by omega)
        refine ⟨_, ops', hops, ?_, hflush, StreamState.flushLocked_segments.1⟩
        simp only [StreamState.closeSegment, if_neg hroom, if_pos hpend]
      · have hnone : itemsOf pending = [] := by
          rw [← byteSize_eq_zero]
          rw [htail, hflushedTail, byteSize_append] at hpend
          omega
        rw [hnone] at hstg ⊢
        rw [append_nil]
        refine ⟨stream, ops, prefix_rfl, ?_, hstg, rfl⟩
        simp only [StreamState.closeSegment, if_neg hroom, if_neg hpend]
  obtain ⟨ops'', hops', halloc⟩ := hclos.allocate hfresh
  refine ⟨ops'', hops.trans hops', ?_, by simp [itemsOf, autoFlushThreshold]⟩
  rw [hclose, map_append, map_singleton, closedLog]
  rw [hcurr] at halloc
  exact halloc

theorem Framing.push
    (hroom : stream.tail + record.bytes.length ≤ options.chunkSize)
    (hunfl : byteSize (itemsOf pending) + record.bytes.length <
      autoFlushThreshold + kLeafPageSize) :
    Framing options region (stream.copyAtTail record.bytes) ops closed flushed
      (pending ++ [record]) := by
  refine ⟨?_, ?_⟩
  · rw [itemsOf_append]
    exact h.staging.push (.record record) hroom
  · rw [itemsOf_append, byteSize_append]
    simpa [itemsOf, Item.bytes] using hunfl

end

/-- The segments and records after an append: the record goes to the current
segment, or to a new one. -/
def AppendedTo (stream : StreamState) (record : Record) (closed : List (Nat × List Record))
    (flushed pending : List Record) (closed' : List (Nat × List Record))
    (flushed' pending' : List Record) : Prop :=
  if stream.remainingCapacity < recordHeaderSize + record.payload.length then
    closed' = closed ++ [(stream.currentSegmentAddr, flushed ++ pending)] ∧
      flushed' ++ pending' = [record]
  else closed' = closed ∧ flushed' ++ pending' = flushed ++ pending ++ [record]

theorem Framing.append (h : Framing options region stream ops closed flushed pending)
    (hcap : kLeafPageSize ≤ options.chunkSize)
    (hneed : recordHeaderSize + record.payload.length < kLeafPageSize)
    (hfresh : nodeId fresh = region) :
    ∃ ops' closed' flushed' pending', ops <+: ops' ∧
      Framing options region (stream.append options record fresh) ops' closed' flushed'
        pending' ∧
      AppendedTo stream record closed flushed pending closed' flushed' pending' := by
  have hlen := record.bytes_length
  unfold AppendedTo
  have hremaining := h.staging.remaining
  by_cases hfull : stream.remainingCapacity < recordHeaderSize + record.payload.length
  · obtain ⟨ops', hops, hclos⟩ := h.closeSegment hfresh
    have htail : (stream.closeSegment options fresh).tail = 0 := by
      rfl
    have happd : stream.append options record fresh =
        (stream.closeSegment options fresh).copyAtTail record.bytes := by
      simp only [StreamState.append, if_pos hfull]
      rw [if_neg (by omega)]
    simp only [happd, if_pos hfull]
    refine ⟨ops', closed ++ [(stream.currentSegmentAddr, flushed ++ pending)], [], [record], hops,
      ?_, rfl, rfl⟩
    exact hclos.push (by omega) (by
      simp only [itemsOf, map_nil, byteSize_nil]
      omega)
  · have hroom : stream.tail + record.bytes.length ≤ options.chunkSize := by
      simp only [recordHeaderSize] at hfull hlen
      omega
    have hunfl : stream.tail - stream.flushedTail = byteSize (itemsOf pending) := by
      rw [h.staging.tail, h.staging.flushedTail, byteSize_append]
      omega
    simp only [if_neg hfull]
    by_cases hauto : stream.tail > stream.flushedTail ∧
        stream.tail - stream.flushedTail ≥ autoFlushThreshold
    · obtain ⟨ops', hops, hflush⟩ := h.flushLocked
      have htail : (stream.flushLocked options).tail = stream.tail := by
        rw [hflush.staging.tail, h.staging.tail]
        simp [itemsOf]
      have happd : stream.append options record fresh =
          (stream.flushLocked options).copyAtTail record.bytes := by
        simp only [StreamState.append, if_neg hfull, if_pos hauto]
      rw [happd]
      refine ⟨ops', closed, flushed ++ pending, [record], hops, ?_, rfl, rfl⟩
      exact hflush.push (by omega) (by
        simp only [itemsOf, map_nil, byteSize_nil]
        omega)
    · have happd : stream.append options record fresh = stream.copyAtTail record.bytes := by
        simp only [StreamState.append, if_neg hfull, if_neg hauto]
      rw [happd]
      refine ⟨ops, closed, flushed, pending ++ [record], prefix_rfl, h.push hroom ?_, rfl,
        by simp⟩
      simp only [autoFlushThreshold] at hauto ⊢
      omega

theorem AppendedTo.records {closed' : List (Nat × List Record)}
    {flushed' pending' : List Record}
    (h : AppendedTo stream record closed flushed pending closed' flushed' pending') :
    closed'.flatMap Prod.snd ++ flushed' ++ pending' =
      closed.flatMap Prod.snd ++ flushed ++ pending ++ [record] := by
  unfold AppendedTo at h
  split at h
  · obtain ⟨rfl, hlast⟩ := h
    rw [append_assoc, hlast]
    simp
  · obtain ⟨rfl, hlast⟩ := h
    rw [append_assoc, hlast]
    simp

variable (h : Framing options region stream ops closed flushed pending)
include h

theorem Framing.acknowledge (required : Nat) {addr : Nat} (haddr : nodeId addr = region) :
    Framing options region (StreamState.acknowledge required stream addr) ops closed flushed
      pending := by
  have hstg := h.staging
  refine ⟨?_, h.unflushed⟩
  unfold StreamState.acknowledge
  dsimp only
  split
  · refine { hstg with freeNode := ?_ }
    intro a ha
    rw [mem_append, mem_singleton] at ha
    rcases ha with ha | rfl
    · exact hstg.freeNode a ha
    · exact haddr
  · exact { hstg with }

theorem Framing.handleLogSegmentRecycle {addrs : List Nat}
    (haddrs : ∀ addr ∈ addrs, nodeId addr = region) :
    Framing options region (stream.handleLogSegmentRecycle options addrs) ops closed flushed
      pending := by
  have hfold : ∀ (required : Nat) (addrs : List Nat) (stream : StreamState),
      (∀ addr ∈ addrs, nodeId addr = region) →
      Framing options region stream ops closed flushed pending →
      Framing options region (addrs.foldl (StreamState.acknowledge required) stream) ops closed
        flushed pending := by
    intro required addrs
    induction addrs with
    | nil => exact fun _ _ h => h
    | cons addr addrs ih =>
      intro stream haddrs h
      exact ih _ (fun a ha => haddrs a (by simp [ha]))
        (h.acknowledge required (haddrs addr (by simp)))
  unfold StreamState.handleLogSegmentRecycle
  split
  · exact h
  · exact hfold _ addrs stream haddrs h

end Framing

/-! ### Runs of the logger -/

/-- Records shorter than a page, and addresses of the region's own memory. -/
def LoggerOp.Valid : LoggerOp → Prop
  | .append region record first fresh =>
      recordHeaderSize + record.payload.length < kLeafPageSize ∧
        nodeId first = region ∧ nodeId fresh = region
  | .recycle region segmentAddrs => ∀ addr ∈ segmentAddrs, nodeId addr = region
  | .flush _ => True
  | .flushAll => True

/-- The stream of a region after the records `appended`. -/
def FramedStream (options : Options) (region : Nat) (appended : List Record) :
    Option StreamState → Prop
  | none => appended = []
  | some stream => ∃ ops closed flushed pending,
      Framing options region stream ops closed flushed pending ∧
      closed.flatMap Prod.snd ++ flushed ++ pending = appended

section Run

variable {options : Options} {region : Nat} {appended : List Record}

theorem FramedStream.flushLocked {stream : Option StreamState}
    (h : FramedStream options region appended stream) :
    FramedStream options region appended (stream.map (StreamState.flushLocked options)) := by
  cases stream with
  | none => exact h
  | some stream =>
    obtain ⟨ops, closed, flushed, pending, hfrm, happ⟩ := h
    obtain ⟨ops', -, hflush⟩ := hfrm.flushLocked
    exact ⟨ops', closed, flushed ++ pending, [], hflush, by simpa using happ⟩

variable (hcap : kLeafPageSize ≤ options.chunkSize)
include hcap

theorem FramedStream.append {logger : Logger}
    (h : FramedStream options region appended (logger.streams region))
    {first fresh : Nat} (hvalid : (LoggerOp.append region record first fresh).Valid) :
    FramedStream options region (appended ++ [record])
      (some ((logger.getOrCreateStream options region first).append options record fresh)) := by
  obtain ⟨hneed, hfirst, hfresh⟩ := hvalid
  obtain ⟨ops, closed, flushed, pending, hfrm, happ⟩ : ∃ ops closed flushed pending,
      Framing options region (logger.getOrCreateStream options region first) ops closed flushed
        pending ∧
      closed.flatMap Prod.snd ++ flushed ++ pending = appended := by
    unfold Logger.getOrCreateStream
    cases hstrm : logger.streams region with
    | none =>
      rw [hstrm] at h
      have hempty : appended = [] := h
      refine ⟨_, [], [], [], ⟨Staging.create hfirst, ?_⟩, by simp [hempty]⟩
      simp [itemsOf, autoFlushThreshold]
    | some stream =>
      rw [hstrm] at h
      exact h
  obtain ⟨ops', closed', flushed', pending', -, hframing', happended'⟩ :=
    hfrm.append hcap hneed hfresh
  exact ⟨ops', closed', flushed', pending', hframing', by rw [happended'.records, happ]⟩

theorem FramedStream.step {logger : Logger} {op : LoggerOp} (hvalid : op.Valid)
    (h : FramedStream options region appended (logger.streams region)) :
    FramedStream options region (appended ++ appendedTo region [op])
      ((logger.step options op).streams region) := by
  cases op with
  | append region' record first fresh =>
    by_cases hregion : region' = region
    · subst hregion
      simp only [Logger.step, update_self, appendedTo, filterMap_cons, if_true,
        filterMap_nil]
      exact h.append hcap hvalid
    · simp only [Logger.step, update_of_ne (Ne.symm hregion), appendedTo,
        filterMap_cons, if_neg hregion, filterMap_nil, append_nil]
      exact h
  | flush region' =>
    simp only [appendedTo, filterMap_cons, filterMap_nil, append_nil, Logger.step]
    by_cases hregion : region' = region
    · subst hregion
      rw [update_self]
      exact h.flushLocked
    · rw [update_of_ne (Ne.symm hregion)]
      exact h
  | flushAll =>
    simp only [appendedTo, filterMap_cons, filterMap_nil, append_nil, Logger.step]
    exact h.flushLocked
  | recycle region' addrs =>
    simp only [appendedTo, filterMap_cons, filterMap_nil, append_nil, Logger.step]
    by_cases hregion : region' = region
    · subst hregion
      rw [update_self]
      cases hstrm : logger.streams region' with
      | none =>
        rw [hstrm] at h
        exact h
      | some stream =>
        rw [hstrm] at h
        obtain ⟨ops, closed, flushed, pending, hfrm, happ⟩ := h
        exact ⟨ops, closed, flushed, pending, hfrm.handleLogSegmentRecycle hvalid, happ⟩
    · rw [update_of_ne (Ne.symm hregion)]
      exact h

theorem FramedStream.run {ops : List LoggerOp} (hvalid : ∀ op ∈ ops, op.Valid) (region : Nat) :
    FramedStream options region (appendedTo region ops)
      ((Logger.run options ops).streams region) := by
  induction ops using reverseRecOn with
  | nil => exact rfl
  | append_singleton ops op ih =>
    have hstep := (ih fun op' hop' => hvalid op' (by simp [hop'])).step hcap
      (hvalid op (by simp))
    have happ : appendedTo region (ops ++ [op]) =
        appendedTo region ops ++ appendedTo region [op] := filterMap_append
    rw [happ, Logger.run, foldl_append]
    exact hstep

end Run

/-! ### Notifications -/

def notified : Wire → Nat
  | .segmentRequest _ _ _ => 0
  | .writeImm _ _ _ imm => immSize imm

/-- The immediate value of a log write names its region and its bytes. -/
def Exact (region : Nat) : Wire → Prop
  | .segmentRequest _ _ _ => True
  | .writeImm _ _ bytes imm =>
      bytes.length < 2 ^ 24 ∧ immRegion imm = region ∧ immSize imm = bytes.length

/-- The bytes that an append copies to the stage: the marker of the segment before and the
record. -/
def StreamState.appendedBytes (stream : StreamState) (record : Record) : Nat :=
  let need := recordHeaderSize + record.payload.length
  (if stream.remainingCapacity < need ∧ 0 < stream.remainingCapacity then 1 else 0) + need

/-- The calls on one stream, with the bytes appended so far. -/
inductive StreamRun (options : Options) (region : Nat) : StreamState → Nat → Prop where
  | create (first : Nat) (hfirst : nodeId first = region) :
      StreamRun options region (.create options region first) 0
  | append {stream : StreamState} {total : Nat} (h : StreamRun options region stream total)
      (record : Record) (fresh : Nat)
      (hneed : recordHeaderSize + record.payload.length < kLeafPageSize)
      (hfresh : nodeId fresh = region) :
      StreamRun options region (stream.append options record fresh)
        (total + stream.appendedBytes record)
  | flush {stream : StreamState} {total : Nat} (h : StreamRun options region stream total) :
      StreamRun options region (stream.flushLocked options) total
  | recycle {stream : StreamState} {total : Nat} (h : StreamRun options region stream total)
      (addrs : List Nat) (haddrs : ∀ addr ∈ addrs, nodeId addr = region) :
      StreamRun options region (stream.handleLogSegmentRecycle options addrs) total

/-- The messages to replica `i` and the unflushed bytes account for `total` bytes. -/
structure Notified (region i limit : Nat) (stream : StreamState) (total : Nat) : Prop where
  node : nodeId stream.currentSegmentAddr = region
  freeNode : ∀ addr ∈ stream.freeSegments, nodeId addr = region
  behind : stream.flushedTail ≤ stream.tail
  unflushed : stream.tail - stream.flushedTail < limit
  exact : ∀ wire ∈ stream.posted i, Exact region wire
  total : ((stream.posted i).map notified).sum + (stream.tail - stream.flushedTail) = total

section Notified

variable {options : Options} {region i limit total : Nat} {stream : StreamState}

theorem Notified.copyAtTail (h : Notified region i limit stream total) (bytes : List UInt8) :
    Notified region i (limit + bytes.length) (stream.copyAtTail bytes) (total + bytes.length) := by
  have hbhd := h.behind
  have hunfl := h.unflushed
  have htotal := h.total
  refine { h with behind := ?_, unflushed := ?_, total := ?_ } <;>
    simp only [StreamState.copyAtTail] <;> omega

theorem Notified.flushLocked (h : Notified region i limit stream total) (hregion : region < 2 ^ 8)
    (hflushes : Flushes options region i) (hlimit : limit ≤ 2 ^ 24) :
    Notified region i 1 (stream.flushLocked options) total := by
  have hunfl := h.unflushed
  have htotal := h.total
  unfold StreamState.flushLocked
  dsimp only
  split_ifs with hnone hnobody
  · exact { h with unflushed := by omega }
  · rw [h.node] at hnobody
    obtain ⟨hone, hend, hall⟩ := hflushes
    omega
  · have hsize : immSize (encodeImm region (stream.tail - stream.flushedTail)) =
        stream.tail - stream.flushedTail := immSize_encodeImm hregion (by omega)
    rw [h.node]
    refine ⟨h.node, h.freeNode, Nat.le_refl _, ?_, ?_, ?_⟩
    · simp [StreamState.post]
    · rw [StreamState.posted_post_of_flushes hflushes.1 hflushes.2.1]
      intro wire hwire
      rcases mem_append.mp hwire with hold | hnew
      · exact h.exact wire hold
      · rw [mem_singleton.mp hnew, Exact, hsize, read_length]
        exact ⟨by omega, immRegion_encodeImm _ hregion, rfl⟩
    · rw [StreamState.posted_post_of_flushes hflushes.1 hflushes.2.1]
      simp [StreamState.post, notified, hsize, htotal]

theorem Notified.request {last addr : Nat} (h : Notified region i limit stream total)
    (regionId size : Nat) :
    Notified region i limit (stream.post 1 last (.segmentRequest regionId addr size)) total := by
  refine { h with exact := ?_, total := ?_ }
  · intro wire hwire
    simp only [StreamState.post] at hwire
    split_ifs at hwire
    · rcases mem_append.mp hwire with hold | hnew
      · exact h.exact wire hold
      · rw [mem_singleton.mp hnew]
        trivial
    · exact h.exact wire hwire
  · rw [← h.total]
    simp only [StreamState.post]
    split_ifs
    · simp [notified]
    · rfl

theorem Notified.allocate (h : Notified region i 1 stream total)
    (hfresh : nodeId fresh = region) :
    Notified region i 1 (stream.allocateNewSegmentAndNotify options fresh) total := by
  have hunfl := h.unflushed
  have htotal := h.total
  obtain ⟨addr, free, hnode, hfree, hnext⟩ :=
    StreamState.allocate_eq options h.freeNode hfresh
  have hmoved : Notified region i 1 { stream with
      currentSegmentAddr := addr, freeSegments := free, currentSegmentSize := options.chunkSize,
      tail := 0, flushedTail := 0 } total :=
    { h with
      node := hnode
      freeNode := hfree
      behind := Nat.le_refl _
      unflushed := by simp
      total := by simp; omega }
  rw [hnext]
  exact { hmoved.request _ _ with }

theorem Notified.closeSegment (h : Notified region i limit stream total) (hregion : region < 2 ^ 8)
    (hflushes : Flushes options region i) (hlimit : limit < 2 ^ 24)
    (hfresh : nodeId fresh = region) :
    Notified region i 1 (stream.closeSegment options fresh)
      (total + if 0 < stream.remainingCapacity then 1 else 0) := by
  refine Notified.allocate ?_ hfresh
  obtain ⟨marked, hmarked, hsame, hnotif⟩ : ∃ marked,
      (if stream.remainingCapacity > 0 then stream.copyAtTail [segmentCloseMarker] else stream) =
        marked ∧ marked.flushedTail = stream.flushedTail ∧
      Notified region i (limit + 1) marked
        (total + if 0 < stream.remainingCapacity then 1 else 0) := by
    refine ⟨_, rfl, ?_, ?_⟩
    · split_ifs <;> rfl
    · split_ifs
      · exact h.copyAtTail [segmentCloseMarker]
      · exact { h with unflushed := Nat.lt_succ_of_lt h.unflushed }
  rw [hmarked, ← hsame]
  by_cases hpend : marked.tail > marked.flushedTail
  · rw [if_pos hpend]
    exact hnotif.flushLocked hregion hflushes hlimit
  · rw [if_neg hpend]
    exact { hnotif with unflushed := by omega }

theorem Notified.append (h : Notified region i (autoFlushThreshold + kLeafPageSize) stream total)
    (hregion : region < 2 ^ 8) (hflushes : Flushes options region i)
    (hneed : recordHeaderSize + record.payload.length < kLeafPageSize)
    (hfresh : nodeId fresh = region) :
    Notified region i (autoFlushThreshold + kLeafPageSize) (stream.append options record fresh)
      (total + stream.appendedBytes record) := by
  -- whatever happens before the record is staged leaves less than the threshold
  obtain ⟨ready, hready, hnotif⟩ : ∃ ready,
      stream.append options record fresh = ready.copyAtTail record.bytes ∧
      Notified region i autoFlushThreshold ready (total +
        if stream.remainingCapacity < recordHeaderSize + record.payload.length ∧
          0 < stream.remainingCapacity then 1 else 0) := by
    refine ⟨_, rfl, ?_⟩
    by_cases hfull : stream.remainingCapacity < recordHeaderSize + record.payload.length
    · have hclos := h.closeSegment hregion hflushes (by decide) hfresh
      simp only [hfull, true_and, if_true]
      exact { hclos with unflushed := hclos.unflushed.trans (by decide) }
    · simp only [hfull, false_and, if_false, Nat.add_zero]
      split_ifs with hauto
      · have hflush := h.flushLocked hregion hflushes (by decide)
        exact { hflush with unflushed := hflush.unflushed.trans (by decide) }
      · have hpos : 0 < autoFlushThreshold := by decide
        exact { h with unflushed := by omega }
  have hcopy := hnotif.copyAtTail record.bytes
  rw [record.bytes_length, Nat.add_assoc] at hcopy
  rw [hready]
  exact { hcopy with unflushed := hcopy.unflushed.trans (Nat.add_lt_add_left hneed _) }

theorem Notified.acknowledge (h : Notified region i limit stream total) (required : Nat)
    {addrs : List Nat} (haddrs : ∀ addr ∈ addrs, nodeId addr = region) :
    Notified region i limit (addrs.foldl (StreamState.acknowledge required) stream) total := by
  induction addrs generalizing stream with
  | nil => exact h
  | cons addr addrs ih =>
    refine ih ?_ fun other hother => haddrs other (by simp [hother])
    unfold StreamState.acknowledge
    dsimp only
    split
    · refine { h with freeNode := fun other hother => ?_ }
      rcases mem_append.mp hother with hold | hnew
      · exact h.freeNode other hold
      · rw [mem_singleton.mp hnew]
        exact haddrs addr (by simp)
    · exact { h with }

theorem StreamRun.notified (h : StreamRun options region stream total) (hregion : region < 2 ^ 8)
    (hflushes : Flushes options region i) :
    Notified region i (autoFlushThreshold + kLeafPageSize) stream total := by
  induction h with
  | create first hfirst =>
    have hempty : Notified region i (autoFlushThreshold + kLeafPageSize)
        ⟨region, fun _ => 0, options.chunkSize, first, options.chunkSize, 0, 0, [], fun _ => 0,
          fun _ => []⟩ 0 :=
      ⟨hfirst, by simp, Nat.le_refl _, by simp [autoFlushThreshold], by simp, rfl⟩
    exact hempty.request _ _
  | append _ record fresh hneed hfresh ih => exact ih.append hregion hflushes hneed hfresh
  | flush _ ih =>
    have hflush := ih.flushLocked hregion hflushes (by decide)
    exact { hflush with unflushed := hflush.unflushed.trans (by decide) }
  | recycle _ addrs haddrs ih =>
    unfold StreamState.handleLogSegmentRecycle
    split
    · exact ih
    · exact ih.acknowledge _ haddrs

/-- Whatever the capacity of the stage, each log write says exactly how many bytes of which region
it carries, and the writes account for all bytes appended but those that are not flushed yet. -/
theorem notifications_exact (h : StreamRun options region stream total) (hregion : region ≤ 255)
    (hflushes : Flushes options region i) :
    (∀ wire ∈ stream.posted i, Exact region wire) ∧
      ((stream.posted i).map notified).sum + (stream.tail - stream.flushedTail) = total ∧
      (((stream.flushLocked options).posted i).map notified).sum = total := by
  have hnotif := h.notified (Nat.lt_succ_of_le hregion) hflushes
  have hflush := hnotif.flushLocked (Nat.lt_succ_of_le hregion) hflushes (by decide)
  have htotal := hflush.total
  have hunfl := hflush.unflushed
  exact ⟨hnotif.exact, hnotif.total, by omega⟩

/-- A stage of 22 bytes, which one record without operations fills. -/
theorem notifications_exact_narrow : ∃ stream total,
    StreamRun ⟨22, fun _ => 2, .writeAllReplicas⟩ 1 stream total ∧ total = 44 ∧
      (((stream.flushLocked ⟨22, fun _ => 2, .writeAllReplicas⟩).posted 1).map notified).sum =
        total := by
  have hrun : StreamRun ⟨22, fun _ => 2, .writeAllReplicas⟩ 1 _ _ :=
    ((StreamRun.create 65537 (by decide)).append
      ⟨65536, 1, [], by decide, by decide, by decide⟩ 131073 (by decide) (by decide)).append
      ⟨65536, 2, [], by decide, by decide, by decide⟩ 131073 (by decide) (by decide)
  exact ⟨_, _, hrun, by decide, (notifications_exact hrun (by decide) (by decide)).2.2⟩

end Notified

end MemoryEngine.RedoLog
