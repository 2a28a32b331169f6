import MemoryEngine.Library.TransitionSystem
import MemoryEngine.Log.ReplayPass
import Mathlib.Data.List.ModifyLast

/-! The byte counts of one stream over any sequence of calls, whatever the memory holds, and the
segments that are announced for reuse. -/
namespace MemoryEngine.LogReplayer

open ByteMemory RedoLog TransitionSystem List

variable {translate : Nat → Nat} {memory : Memory} {stream : LogStreamState}
  {segments : List LogSegment}

/-! ### The counts of a call -/

theorem scan_processed {logBuffer bytesToProcess fuel processed : Nat}
    (h : processed ≤ bytesToProcess) :
    (scan translate logBuffer bytesToProcess fuel processed memory).processed ≤ bytesToProcess := by
  induction fuel generalizing processed memory with
  | zero => exact h
  | succ fuel ih =>
    simp only [scan]
    split_ifs with hlt hmark hhdr hmagic hrec
    · exact hlt
    · exact h
    · exact h
    · exact h
    · exact h
    · split
      · exact ih (not_lt.mp hrec)
      · exact h
    · exact h
    · exact h

theorem findSegment_bounds {offset accumulated found : Nat} {segment : LogSegment}
    (h : findSegment segments offset accumulated = some (segment, found))
    (haccumulated : accumulated ≤ offset) :
    found ≤ offset ∧ offset < found + segment.receivedLength ∧
      found + segment.receivedLength ≤ accumulated + totalReceived segments := by
  induction segments generalizing accumulated with
  | nil => cases h
  | cons first rest ih =>
    have htotal : totalReceived (first :: rest) = first.receivedLength + totalReceived rest := by
      simp [totalReceived]
    rw [findSegment] at h
    split_ifs at h with hlt
    · cases h
      omega
    · have hrest := ih h (not_lt.mp hlt)
      omega

theorem replayTurn_processed {available total replayed : Nat} {turn : Scan}
    (h : replayTurn translate stream available total replayed memory = some turn) :
    turn.processed + (replayed - stream.recycledPrefixBytes) ≤ totalReceived stream.segments := by
  unfold replayTurn at h
  dsimp only at h
  split at h
  · cases h
  · rename_i segment found hfound
    cases h
    have hbounds := findSegment_bounds hfound (Nat.zero_le _)
    have hscan := @scan_processed translate memory
      (segment.physicalPtr + (replayed - stream.recycledPrefixBytes - found))
      (min (available - total) (segment.receivedLength -
        (replayed - stream.recycledPrefixBytes - found)))
      (min (available - total) (segment.receivedLength -
        (replayed - stream.recycledPrefixBytes - found))) 0 (Nat.zero_le _)
    omega

theorem replayLoop_replayed {available fuel total replayed : Nat}
    (h : replayed ≤ stream.recycledPrefixBytes + totalReceived stream.segments) :
    replayed ≤ (replayLoop translate stream available fuel total replayed memory).replayed ∧
      (replayLoop translate stream available fuel total replayed memory).replayed ≤
        stream.recycledPrefixBytes + totalReceived stream.segments := by
  induction fuel generalizing total replayed memory with
  | zero => exact ⟨le_rfl, h⟩
  | succ fuel ih =>
    simp only [replayLoop]
    split_ifs
    · split
      · exact ⟨le_rfl, h⟩
      · rename_i turn hturn
        have hprocd := replayTurn_processed hturn
        have hbound : replayed + turn.processed ≤
            stream.recycledPrefixBytes + totalReceived stream.segments := by omega
        split
        · exact ⟨le_rfl, h⟩
        · exact ⟨le_rfl, h⟩
        · exact ⟨Nat.le_add_right _ _, hbound⟩
        · obtain ⟨hle, hrest⟩ := @ih turn.memory (total + turn.processed) _ hbound
          exact ⟨(Nat.le_add_right _ _).trans hle, hrest⟩
    · exact ⟨le_rfl, h⟩

/-! ### Stops -/

/-- The bytes of the records that were applied and of the markers that were read. -/
def covered (applied : List Record) (exits : List ScanExit) : Nat :=
  byteSize (applied.map .record) + exits.count .marker

/-- No operation before a malformed one changes a byte of the page. -/
def IdleUntilMalformed (translate : Nat → Nat) (memory : Memory) (record : Record) : Prop :=
  (LogCodec.decode record.payload).2 = false → ∀ op ∈ (LogCodec.decode record.payload).1,
    op.apply (translate record.pageGaddr) memory = memory

theorem IdleUntilMalformed.unchanged {record : Record}
    (h : IdleUntilMalformed translate memory record)
    (hfalse : (processLogRecord translate memory record).1 = false) :
    (processLogRecord translate memory record).2 = memory := by
  unfold processLogRecord at hfalse ⊢
  split_ifs at hfalse ⊢ with hhost
  · rfl
  · have hidle := h hfalse
    change LogCodec.applyAll (LogCodec.decode record.payload).1 _ memory = memory
    generalize (LogCodec.decode record.payload).1 = ops at hidle
    induction ops with
    | nil => rfl
    | cons op ops ih =>
      simp only [LogCodec.applyAll_cons, hidle op mem_cons_self]
      exact ih fun other hmem => hidle other (mem_cons_of_mem op hmem)

section Pass

variable {view after : View} {pending consumed rest stored : List Item} {middle : Memory}
  {dropped : List (List Item)} {result : ReplayResult}
  (h : ReplaySpec translate memory stream view pending result consumed rest stored middle dropped
    after)
include h

theorem ReplaySpec.replayedBytes (hview : Views memory stream view) :
    result.stream.replayedLogLength = stream.replayedLogLength + byteSize stored := by
  rw [h.views.replayedBytes, h.replayed, byteSize_append, hview.replayedBytes]

end Pass

theorem View.replayed_isPrefix {view : View} (h : Views memory stream view) :
    view.replayed <+: view.received := by
  obtain ⟨later, hlater⟩ := h.donePrefix
  exact ⟨later, by rw [View.replayed, View.received, append_assoc, hlater]⟩

def LogSegment.Closed (memory : Memory) (segment : LogSegment) : Prop :=
  0 < segment.receivedLength ∧ (segment.segmentSize ≤ segment.receivedLength ∨
    memory (segment.physicalPtr + segment.receivedLength - 1) = segmentCloseMarker)

instance (memory : Memory) (segment : LogSegment) : Decidable (segment.Closed memory) :=
  inferInstanceAs (Decidable (_ ∧ (_ ∨ _)))

theorem LogSegment.Closed.canRecycle_iff {segment : LogSegment} (h : segment.Closed memory)
    (recyclable : Nat) :
    canRecycle memory segment recyclable = true ↔ segment.receivedLength ≤ recyclable := by
  refine ⟨canRecycle_le, fun hle => ?_⟩
  obtain ⟨hpos, hclosed⟩ := h
  unfold canRecycle
  rw [if_neg (by omega)]
  split_ifs with hmore hfull
  · rfl
  · rfl
  · exact decide_eq_true (hclosed.resolve_left hfull)

theorem recyclePrefix_longest (hclosed : ∀ segment ∈ segments.dropLast, segment.Closed memory)
    (recyclable : Nat) {count : Nat} (hcount : count < segments.length) :
    count ≤ (recyclePrefix memory segments recyclable).length ↔
      totalReceived (segments.take count) ≤ recyclable := by
  induction segments generalizing recyclable count with
  | nil => cases hcount
  | cons segment rest ih =>
    cases count with
    | zero => exact iff_of_true (Nat.zero_le _) (Nat.zero_le _)
    | succ count =>
      obtain ⟨next, rest, rfl⟩ := exists_cons_of_length_pos
        (Nat.lt_of_le_of_lt (Nat.zero_le count) (Nat.lt_of_succ_lt_succ hcount))
      have hcan := (hclosed segment (by simp)).canRecycle_iff recyclable
      have htotal : totalReceived ((segment :: next :: rest).take (count + 1)) =
          segment.receivedLength + totalReceived ((next :: rest).take count) := by
        simp [totalReceived]
      rw [recyclePrefix, htotal]
      split_ifs with hfits
      · have hle := hcan.mp hfits
        have hrest := ih (fun other hother => hclosed other (by simp [hother]))
          (recyclable - segment.receivedLength) (Nat.lt_of_succ_lt_succ hcount)
        rw [length_cons, Nat.add_le_add_iff_right, hrest]
        omega
      · rw [hcan] at hfits
        exact iff_of_false (Nat.not_succ_le_zero _) (by omega)

/-- Nothing is dropped where nothing was replayed, so the early return makes no difference. -/
theorem recycleSegments_snd (memory : Memory) (stream : LogStreamState) :
    (recycleSegments memory stream).2 = recyclePrefix memory stream.segments
      (stream.replayedLogLength - stream.recycledPrefixBytes) := by
  unfold recycleSegments
  split_ifs with hnothing
  · rw [Nat.sub_eq_zero_of_le hnothing]
    rcases stream.segments with _ | ⟨segment, _ | ⟨next, rest⟩⟩
    · rfl
    · rfl
    · have hkept : canRecycle memory segment 0 = false := if_pos (by omega)
      rw [recyclePrefix, hkept]
      rfl
  · rfl

/-- The segment that holds the byte at a position of the stream, and the offset in it. -/
def LogStreamState.locate (stream : LogStreamState) (position : Nat) : Option (LogSegment × Nat) :=
  (findSegment stream.segments (position - stream.recycledPrefixBytes) 0).map
    fun (segment, accumulated) =>
      (segment, position - stream.recycledPrefixBytes - accumulated)

theorem findSegment_append (dropped : List LogSegment) {offset accumulated : Nat}
    (h : accumulated + totalReceived dropped ≤ offset) :
    findSegment (dropped ++ segments) offset accumulated =
      findSegment segments offset (accumulated + totalReceived dropped) := by
  induction dropped generalizing accumulated with
  | nil => rfl
  | cons segment dropped ih =>
    have htotal : totalReceived (segment :: dropped) =
        segment.receivedLength + totalReceived dropped := by
      simp [totalReceived]
    rw [htotal, ← Nat.add_assoc] at h ⊢
    rw [cons_append, findSegment, if_neg (by omega), ih h]

theorem findSegment_add (offset accumulated shift : Nat) :
    findSegment segments (offset + shift) (accumulated + shift) =
      (findSegment segments offset accumulated).map fun found => (found.1, found.2 + shift) := by
  induction segments generalizing accumulated with
  | nil => rfl
  | cons segment rest ih =>
    rw [findSegment, findSegment, Nat.add_right_comm, ih]
    split_ifs
    · rfl
    · omega
    · omega
    · rfl

variable {recycled : List LogSegment}

theorem Recycles.locate {after : LogStreamState}
    (h : Recycles stream after recycled) {position : Nat}
    (hposn : after.recycledPrefixBytes ≤ position) :
    after.locate position = stream.locate position := by
  have hprefix : after.recycledPrefixBytes = stream.recycledPrefixBytes + totalReceived recycled :=
    congrArg LogStreamState.recycledPrefixBytes h.same
  obtain ⟨rest, rfl⟩ := Nat.exists_eq_add_of_le hposn
  unfold LogStreamState.locate
  rw [h.segments, findSegment_append _ (by omega), Nat.zero_add, hprefix,
    show stream.recycledPrefixBytes + totalReceived recycled + rest - stream.recycledPrefixBytes =
      rest + totalReceived recycled by omega,
    show stream.recycledPrefixBytes + totalReceived recycled + rest -
      (stream.recycledPrefixBytes + totalReceived recycled) = rest by omega]
  have hadd := @findSegment_add after.segments rest 0 (totalReceived recycled)
  rw [Nat.zero_add] at hadd
  rw [hadd, Option.map_map]
  refine congrArg (Option.map · _) (funext fun found => ?_)
  simp only [Function.comp, Nat.add_sub_add_right]

/-! ### Accounting -/

/-- Every received byte was recycled or is in a segment, and the replayed bytes lie in between. -/
def LogStreamState.Accounted (stream : LogStreamState) : Prop :=
  stream.receivedLogLength = stream.recycledPrefixBytes + totalReceived stream.segments ∧
    stream.recycledPrefixBytes ≤ stream.replayedLogLength ∧
    stream.replayedLogLength ≤ stream.receivedLogLength

instance (stream : LogStreamState) : Decidable stream.Accounted :=
  inferInstanceAs (Decidable (_ ∧ _ ∧ _))

theorem Recycles.accounted {after : LogStreamState}
    (h : Recycles stream after recycled) (hstrm : stream.Accounted) : after.Accounted := by
  obtain ⟨hrecv, hprefix, hreplayed⟩ := hstrm
  have htotal := h.total
  rw [h.segments, totalReceived_append] at hrecv
  rw [h.same]
  refine ⟨?_, ?_, hreplayed⟩ <;> dsimp only <;> omega

theorem replayLogData_recycles (translate : Nat → Nat) (memory : Memory) (available : Nat) :
    ∃ replayed, Recycles { stream with replayedLogLength := replayed }
        (replayLogData translate stream memory available).stream
        (replayLogData translate stream memory available).recycled ∧
      (stream.Accounted → { stream with replayedLogLength := replayed }.Accounted) := by
  refine ⟨(replayLoop translate stream available (available + 1) 0 stream.replayedLogLength
    memory).replayed, ?_, ?_⟩
  · unfold replayLogData
    dsimp only
    split
    · exact recycleSegments_recycles _ _
    · exact ⟨rfl, id, Nat.zero_le _, rfl⟩
  · rintro ⟨hrecv, hprefix, hreplayed⟩
    rw [hrecv] at hreplayed
    obtain ⟨hle, hbound⟩ := @replayLoop_replayed translate memory stream available (available + 1)
      0 _ hreplayed
    exact ⟨hrecv, hprefix.trans hle, hbound.trans_eq hrecv.symm⟩

theorem LogStreamState.Accounted.addSegment (h : stream.Accounted) (segmentAddr segmentSize : Nat) :
    (stream.addSegment translate segmentAddr segmentSize).Accounted := by
  unfold LogStreamState.addSegment
  split
  · exact h
  · refine ⟨?_, h.2⟩
    rw [totalReceived_append]
    exact h.1

theorem LogStreamState.receive_segments (stream : LogStreamState) (size : Nat) :
    (stream.segments = [] ∧ (stream.receive size).segments = []) ∨
      ∃ before last, stream.segments = before ++ [last] ∧
        (stream.receive size).segments = before ++ [last.receive size] := by
  unfold LogStreamState.receive
  rcases eq_nil_or_concat stream.segments with hnil | ⟨before, last, hsegs⟩
  · exact .inl ⟨hnil, by rw [hnil]; rfl⟩
  · rw [concat_eq_append] at hsegs
    exact .inr ⟨before, last, hsegs, by rw [hsegs, modifyLast_concat]⟩

theorem LogStreamState.Accounted.receive_iff (h : stream.Accounted) (size : Nat) :
    (stream.receive size).Accounted ↔ size = 0 ∨ stream.segments ≠ [] := by
  obtain ⟨hrecv, hprefix, hreplayed⟩ := h
  have hlen : (stream.receive size).receivedLogLength = stream.receivedLogLength + size := rfl
  have hreplayed' : (stream.receive size).replayedLogLength = stream.replayedLogLength := rfl
  have hprefix' : (stream.receive size).recycledPrefixBytes = stream.recycledPrefixBytes := rfl
  rw [Accounted, hlen, hreplayed', hprefix']
  rcases stream.receive_segments size with ⟨hnil, hafter⟩ | ⟨before, last, hsegs, hafter⟩
  · rw [hafter, hnil]
    rw [hnil] at hrecv
    constructor
    · omega
    · rintro (rfl | hne)
      · omega
      · exact absurd rfl hne
  · rw [hafter, totalReceived_append]
    rw [hsegs, totalReceived_append] at hrecv
    have hlast : totalReceived [last.receive size] = totalReceived [last] + size := by
      simp [totalReceived, LogSegment.receive]
    refine iff_of_true ?_ (.inr (by simp [hsegs]))
    omega

/-! ### Runs of one stream -/

inductive StreamCall where
  | segmentRequest (segmentAddr segmentSize : Nat)
  | writeImm (size : Nat)
  | replay (memory : Memory) (available : Nat)
  | recycle (memory : Memory)

/-- A stream with the addresses of the segments that were added, one for each use, and the recycle
messages. -/
structure StreamHistory where
  stream : LogStreamState
  used : List Nat := []
  messages : List RecycleMessage := []

namespace StreamHistory

variable {history after : StreamHistory} {call : StreamCall}

def announce (history : StreamHistory) (stream : LogStreamState) (recycled : List LogSegment) :
    StreamHistory :=
  { history with
    stream := stream
    messages := history.messages ++ sendSegmentRecycleRPC stream recycled }

def step (translate : Nat → Nat) (history : StreamHistory) : StreamCall → Option StreamHistory
  | .segmentRequest segmentAddr segmentSize => some { history with
      stream := history.stream.addSegment translate segmentAddr segmentSize
      used := if translate segmentAddr = 0 then history.used else history.used ++ [segmentAddr] }
  | .writeImm size => some { history with stream := history.stream.receive size }
  | .replay memory available =>
      let result := replayLogData translate history.stream memory available
      some (history.announce result.stream result.recycled)
  | .recycle memory =>
      let (stream, recycled) := recycleSegments memory history.stream
      some (history.announce stream recycled)

/-- Bytes arrive only for a stream that has a segment. -/
def careful (history : StreamHistory) : StreamCall → Prop
  | .writeImm size => size = 0 ∨ history.stream.segments ≠ []
  | _ => True

instance (history : StreamHistory) : ∀ call, Decidable (history.careful call) := by
  rintro (_ | _) <;> dsimp only [careful] <;> infer_instance

def fresh (history : StreamHistory) : Prop :=
  ∃ computeId regionId, history = ⟨⟨computeId, regionId, [], 0, 0, 0⟩, [], []⟩

theorem accounted_step (h : history.stream.Accounted)
    (hstep : history.step translate call = some after) :
    after.stream.Accounted ↔ history.careful call := by
  cases call with
  | segmentRequest segmentAddr segmentSize =>
    cases hstep
    exact iff_of_true (h.addSegment segmentAddr segmentSize) trivial
  | writeImm size =>
    cases hstep
    exact h.receive_iff size
  | replay memory available =>
    cases hstep
    obtain ⟨replayed, hrecyc, haccounted⟩ :=
      @replayLogData_recycles history.stream translate memory available
    exact iff_of_true (hrecyc.accounted (haccounted h)) trivial
  | recycle memory =>
    cases hstep
    exact iff_of_true ((recycleSegments_recycles memory _).accounted h) trivial

theorem accounted_of_careful (h : Reachable (step translate) careful fresh history) :
    history.stream.Accounted := by
  refine @Reachable.invariant _ _ _ _ _ _ (fun history => history.stream.Accounted) ?_
    (fun _ _ _ hinv hcare hstep => (accounted_step hinv hstep).mpr hcare) h
  rintro _ ⟨computeId, regionId, rfl⟩
  exact ⟨rfl, le_rfl, le_rfl⟩

/-- The counts agree as long as bytes arrive only for a stream with a segment, and the first call
that breaks this breaks the counts. -/
theorem accounted_iff_careful (h : Reachable (step translate) careful fresh history) :
    history.stream.Accounted ∧ ∀ call after, history.step translate call = some after →
      (after.stream.Accounted ↔ history.careful call) :=
  ⟨accounted_of_careful h, fun _ _ => accounted_step (accounted_of_careful h)⟩

theorem accounted_iff_careful_received : ∃ history : StreamHistory,
    history.stream.receivedLogLength = 5 ∧ history.stream.Accounted := by
  obtain ⟨history, hreachable, hrecv⟩ : ∃ history, Reachable (step id) careful fresh history ∧
      history.stream.receivedLogLength = 5 :=
    Reachable.exists_of_schedule [.segmentRequest 1 64, .writeImm 5] ⟨0, 0, rfl⟩ (by decide +kernel)
  exact ⟨history, hrecv, (accounted_iff_careful hreachable).1⟩

/-- The only segment request is rejected, and the bytes are counted as received all the same. -/
theorem accounted_rejected : ∃ history,
    Reachable (step fun _ => 0) (fun _ _ => True) fresh history ∧ ¬ history.stream.Accounted :=
  Reachable.exists_of_schedule [.segmentRequest 1 64, .writeImm 5] ⟨0, 0, rfl⟩ (by decide +kernel)

/-- The announced segments and those still in the stream are the ones that were added. -/
def AnnouncedOnce (history : StreamHistory) : Prop :=
  history.messages.flatMap RecycleMessage.segmentAddrs ++
    history.stream.segments.map LogSegment.segmentAddr = history.used

theorem AnnouncedOnce.announce (h : history.AnnouncedOnce) {replayed : Nat}
    {stream : LogStreamState}
    (hrecyc : Recycles { history.stream with replayedLogLength := replayed } stream recycled) :
    (history.announce stream recycled).AnnouncedOnce := by
  have hsegs : history.stream.segments = recycled ++ stream.segments := hrecyc.segments
  rw [AnnouncedOnce, hsegs, map_append] at h
  rw [AnnouncedOnce, StreamHistory.announce, flatMap_append, sendSegmentRecycleRPC_addrs,
    append_assoc]
  exact h

theorem announcedOnce_of_reachable
    (h : Reachable (step translate) (fun _ _ => True) fresh history) : history.AnnouncedOnce := by
  refine h.invariant ?_ ?_
  · rintro _ ⟨computeId, regionId, rfl⟩
    rfl
  · intro history call after hinv _ hstep
    cases call with
    | segmentRequest segmentAddr segmentSize =>
      cases hstep
      unfold AnnouncedOnce LogStreamState.addSegment
      split_ifs
      · exact hinv
      · rw [← hinv]
        simp
    | writeImm size =>
      cases hstep
      refine Eq.trans (congrArg (_ ++ ·) ?_) hinv
      rcases history.stream.receive_segments size with
        ⟨hnil, hafter⟩ | ⟨before, last, hsegs, hafter⟩
      · rw [hafter, hnil]
      · rw [hafter, hsegs]
        simp [LogSegment.receive]
    | replay memory available =>
      cases hstep
      obtain ⟨replayed, hrecyc, -⟩ :=
        @replayLogData_recycles history.stream translate memory available
      exact hinv.announce hrecyc
    | recycle memory =>
      cases hstep
      exact hinv.announce (recycleSegments_recycles memory history.stream)

/-- `RecycleSegments` on a stream whose segments but the last are closed: it drops the longest run
that was replayed, the bytes that stay are found where they were, and in any run each use of a
segment is announced once. -/
theorem recycleSegments_longest {stream after : LogStreamState} {recycled : List LogSegment}
    (hrecycle : recycleSegments memory stream = (after, recycled))
    (hclosed : ∀ segment ∈ stream.segments.dropLast, segment.Closed memory)
    (hreplayed : stream.recycledPrefixBytes ≤ stream.replayedLogLength) :
    stream.segments = recycled ++ after.segments ∧
    (stream.segments ≠ [] → after.segments ≠ []) ∧
    (∀ count < stream.segments.length, count ≤ recycled.length ↔
      totalReceived (stream.segments.take count) ≤
        stream.replayedLogLength - stream.recycledPrefixBytes) ∧
    after = { stream with
      segments := after.segments
      recycledPrefixBytes := stream.recycledPrefixBytes + totalReceived recycled } ∧
    after.recycledPrefixBytes ≤ after.replayedLogLength ∧
    (∀ position, after.recycledPrefixBytes ≤ position →
      after.locate position = stream.locate position) ∧
    ∀ translate history, Reachable (step translate) (fun _ _ => True) fresh history →
      history.AnnouncedOnce := by
  have hrecyc : Recycles stream after recycled := by
    simpa only [hrecycle] using recycleSegments_recycles memory stream
  have htotal := hrecyc.total
  have hafter := hrecyc.same
  refine ⟨hrecyc.segments, hrecyc.last, ?_, hafter, ?_, fun _ => hrecyc.locate,
    fun _ _ => announcedOnce_of_reachable⟩
  · intro count hcount
    rw [← recyclePrefix_longest hclosed _ hcount, ← recycleSegments_snd, hrecycle]
  · rw [hafter]
    dsimp only
    omega

def fullSegment : LogStreamState :=
  { (((⟨0, 0, [], 0, 0, 0⟩ : LogStreamState).addSegment id 1 4).receive 4).addSegment id 9 4 with
    replayedLogLength := 4 }

theorem recycleSegments_longest_full :
    (recycleSegments (fun _ => 0) fullSegment).2.length = 1 ∧
      ∀ position, (recycleSegments (fun _ => 0) fullSegment).1.recycledPrefixBytes ≤ position →
        (recycleSegments (fun _ => 0) fullSegment).1.locate position =
          fullSegment.locate position := by
  obtain ⟨-, -, -, -, -, hlocate, -⟩ := recycleSegments_longest rfl
    (show ∀ segment ∈ fullSegment.segments.dropLast, segment.Closed fun _ => 0 by decide +kernel)
    (by decide +kernel)
  exact ⟨by decide +kernel, hlocate⟩

end StreamHistory

end MemoryEngine.LogReplayer
