import MemoryEngine.Log.ReplayPass
import Mathlib.Data.List.ModifyLast

/-! One stream seen from both ends.

The sender's side of a stream is a list of segments, each with the items that
were flushed into it.  `Tracks` relates it to the replica's stream state; it is
kept by segment requests, by log writes and by replay passes. -/
namespace MemoryEngine.LogReplayer

open ByteMemory RedoLog List

structure SegmentLog where
  addr : Nat
  size : Nat
  items : List Item
  deriving DecidableEq

inductive StreamOp where
  | request (addr size : Nat)
  | flush (items : List Item)
  deriving DecidableEq

variable (logs : List SegmentLog)

namespace StreamOp

def extend : StreamOp → List SegmentLog
  | .request addr size => logs ++ [⟨addr, size, []⟩]
  | .flush items => logs.modifyLast fun log => { log with items := log.items ++ items }

def wire (regionId : Nat) (logs : List SegmentLog) : StreamOp → Option Wire
  | .request addr size => some (.segmentRequest regionId addr size)
  | .flush items => logs.getLast?.map fun log =>
      .writeImm log.addr (byteSize log.items) (bytesOf items)
        (encodeImm regionId (byteSize items))

end StreamOp

def allItems : List Item := (logs.map SegmentLog.items).flatten

@[simp] theorem allItems_append (first second : List SegmentLog) :
    allItems (first ++ second) = allItems first ++ allItems second := by
  simp [allItems]

@[simp] theorem allItems_nil : allItems [] = [] := rfl

@[simp] theorem allItems_singleton (log : SegmentLog) : allItems [log] = log.items := by
  simp [allItems]

def LogSegment.Apart (left right : LogSegment) : Prop :=
  left.physicalPtr + left.segmentSize ≤ right.physicalPtr ∨
    right.physicalPtr + right.segmentSize ≤ left.physicalPtr

theorem LogSegment.Apart.symm {left right : LogSegment} (h : left.Apart right) :
    right.Apart left := by
  unfold LogSegment.Apart at h ⊢
  omega

structure Mirrors (translate : Nat → Nat) (segment : LogSegment) (log : SegmentLog) : Prop where
  addr : segment.segmentAddr = log.addr
  size : segment.segmentSize = log.size
  ptr : segment.physicalPtr = translate log.addr

theorem map_addr_of_mirrors {translate : Nat → Nat} {segments : List LogSegment}
    {logs : List SegmentLog} (h : List.Forall₂ (Mirrors translate) segments logs) :
    segments.map LogSegment.segmentAddr = logs.map SegmentLog.addr := by
  induction h with
  | nil => rfl
  | cons hfirst _ ih => rw [map_cons, map_cons, hfirst.addr, ih]

/-- The replica has received the segments `dropped` and `live`, has dropped the
former, and has replayed the items `done` of the latter.  It never drops the
segment it is receiving. -/
structure Tracks (translate : Nat → Nat) (memory : Memory) (stream : LogStreamState)
    (dropped live : List SegmentLog) (done : List Item) : Prop where
  mirrors : List.Forall₂ (Mirrors translate) stream.segments live
  views : Views memory stream ⟨allItems dropped, live.map SegmentLog.items, done⟩
  last : dropped ≠ [] → live ≠ []

variable {log : SegmentLog}

section Tracking

variable {translate : Nat → Nat} {memory : Memory} {stream : LogStreamState}
  {dropped live : List SegmentLog} {done : List Item}

theorem Tracks.init (memory : Memory) (computeId regionId : Nat) :
    Tracks translate memory ⟨computeId, regionId, [], 0, 0, 0⟩ [] [] [] :=
  ⟨.nil, ⟨.nil, rfl, rfl, rfl, prefix_rfl⟩, id⟩

variable {area : Nat → Prop}

section

variable (h : Tracks translate memory stream dropped live done)
include h

theorem Tracks.received : stream.receivedLogLength = byteSize (allItems (dropped ++ live)) := by
  rw [h.views.receivedBytes, allItems_append]
  rfl

theorem Tracks.replayed : stream.replayedLogLength = byteSize (allItems dropped ++ done) :=
  h.views.replayedBytes

theorem Tracks.replayed_isPrefix : allItems dropped ++ done <+: allItems (dropped ++ live) := by
  rw [allItems_append]
  exact (prefix_append_right_inj _).mpr h.views.donePrefix

theorem Tracks.congr {after : Memory} (hcover : Covers area stream.segments)
    (hkeep : ∀ address, area address → after address = memory address) :
    Tracks translate after stream dropped live done :=
  ⟨h.mirrors, h.views.congr hcover hkeep, h.last⟩

end

theorem receivedLength_le {segments : List LogSegment} {logs : List SegmentLog}
    (hmirr : List.Forall₂ (Mirrors translate) segments logs)
    (hholds : List.Forall₂ (Holds memory) segments (logs.map SegmentLog.items))
    (hfits : ∀ log ∈ logs, byteSize log.items ≤ log.size) :
    ∀ segment ∈ segments, segment.receivedLength ≤ segment.segmentSize := by
  induction hmirr with
  | nil => simp
  | @cons first log segments logs hfirst _ ih =>
    intro segment hmem
    cases hholds with
    | cons hheld htail =>
      rcases mem_cons.mp hmem with rfl | hmem
      · rw [hheld.length, hfirst.size]
        exact hfits log (by simp)
      · exact ih htail (fun log hlog => hfits log (by simp [hlog])) segment hmem

theorem Tracks.covers (h : Tracks translate memory stream dropped live done)
    (hfits : ∀ log ∈ live, byteSize log.items ≤ log.size)
    (harea : ∀ segment ∈ stream.segments, ∀ i, i < segment.segmentSize → area (segment.physicalPtr
      + i)) : Covers area stream.segments := by
  intro segment hseg i hi
  apply harea segment hseg
  have := receivedLength_le h.mirrors h.views.segments hfits segment hseg
  omega

theorem Tracks.request (h : Tracks translate memory stream dropped live done) {addr : Nat}
    (size : Nat) (hmap : translate addr ≠ 0) :
    Tracks translate memory (stream.addSegment translate addr size) dropped
      (live ++ [⟨addr, size, []⟩]) done := by
  rw [LogStreamState.addSegment, dif_neg hmap]
  refine ⟨?_, ⟨?_, h.views.prefixBytes, ?_, h.views.replayedBytes, ?_⟩, by simp⟩
  · exact rel_append h.mirrors (.cons ⟨rfl, rfl, rfl⟩ .nil)
  · rw [map_append]
    exact rel_append h.views.segments (.cons ⟨rfl, rfl⟩ .nil)
  · simpa [View.received] using h.views.receivedBytes
  · simpa using h.views.donePrefix

theorem forall₂_concat_right {α β : Type} {R : α → β → Prop} {left : List α} {right : List β}
    {last : β} (h : List.Forall₂ R left (right ++ [last])) :
    ∃ init x, left = init ++ [x] ∧ List.Forall₂ R init right ∧ R x last := by
  have hinit := forall₂_take_append left right [last] h
  have hlast := forall₂_drop_append left right [last] h
  obtain ⟨x, hx, hnil⟩ : ∃ x, R x last ∧ left.drop right.length = [x] := by
    generalize left.drop right.length = tail at hlast
    cases hlast with
    | cons hx hnil =>
      cases hnil
      exact ⟨_, hx, rfl⟩
  refine ⟨left.take right.length, x, ?_, hinit, hx⟩
  rw [← hnil, take_append_drop]

theorem Holds.receive {segment : LogSegment} {items : List Item}
    (h : Holds memory segment items) (more : List Item) :
    Holds (write memory (segment.physicalPtr + byteSize items) (bytesOf more))
      (segment.receive (byteSize more)) (items ++ more) := by
  refine ⟨?_, ?_⟩
  · rw [byteSize_append, ← h.length]
    rfl
  · have hold : read (write memory (segment.physicalPtr + byteSize items) (bytesOf more))
        segment.physicalPtr (byteSize items) = bytesOf items := by
      rw [read_write_disjoint memory (.inr (Nat.le_refl _)), h.bytes]
    change read _ segment.physicalPtr (byteSize (items ++ more)) = _
    rw [byteSize_append, read_add, hold, bytesOf_append]
    congr 1
    exact read_write_same memory _ _

theorem Tracks.flush {more : List Item}
    (h : Tracks translate memory stream dropped (live ++ [log]) done)
    (hfits : ∀ l ∈ live ++ [log], byteSize l.items ≤ l.size)
    (hroom : byteSize log.items + byteSize more ≤ log.size)
    (hapart : stream.segments.Pairwise LogSegment.Apart) :
    Tracks translate (write memory (translate log.addr + byteSize log.items) (bytesOf more))
      (stream.receive (byteSize more)) dropped
      (live ++ [{ log with items := log.items ++ more }]) done := by
  obtain ⟨init, segment, hsegs, hmirr, hlast⟩ := forall₂_concat_right h.mirrors
  have hviews := h.views.segments
  simp only [hsegs, map_append, map_cons, map_nil] at hviews
  obtain ⟨init', segment', hsame, hholds, hheld⟩ := forall₂_concat_right hviews
  obtain ⟨rfl, hsingle⟩ := append_inj' hsame rfl
  obtain rfl : segment = segment' := by simpa using hsingle
  have hother : ∀ other ∈ init, ∀ i, i < other.receivedLength →
      write memory (translate log.addr + byteSize log.items) (bytesOf more)
        (other.physicalPtr + i) = memory (other.physicalPtr + i) := by
    intro other hmem i hi
    have hrecv := receivedLength_le hmirr hholds
      (fun l hl => hfits l (by simp [hl])) other hmem
    have hframe : other.Apart segment := by
      rw [hsegs, pairwise_append] at hapart
      exact hapart.2.2 other hmem segment (by simp)
    have hmore : (bytesOf more).length = byteSize more := rfl
    rw [LogSegment.Apart, hlast.ptr, hlast.size] at hframe
    exact write_outside memory _ (by omega)
  have hinit : List.Forall₂ (Holds (write memory (translate log.addr + byteSize log.items)
      (bytesOf more))) init (live.map SegmentLog.items) := by
    refine forall₂_holds_congr (fun address => ∃ other ∈ init, ∃ i,
      i < other.receivedLength ∧ address = other.physicalPtr + i) hholds ?_ ?_
    · intro other hmem i hi
      exact ⟨other, hmem, i, hi, rfl⟩
    · rintro address ⟨other, hmem, i, hi, rfl⟩
      exact hother other hmem i hi
  have hheld' := hheld.receive more
  rw [hlast.ptr] at hheld'
  refine ⟨?_, ⟨?_, h.views.prefixBytes, ?_, h.views.replayedBytes, ?_⟩, by simp⟩
  · simp only [LogStreamState.receive, hsegs, modifyLast_concat]
    exact rel_append hmirr (.cons { hlast with } .nil)
  · simp only [LogStreamState.receive, hsegs, modifyLast_concat, map_append]
    exact rel_append hinit (.cons hheld' .nil)
  · have hrecv := h.views.receivedBytes
    simp only [LogStreamState.receive, View.received, map_append, map_cons,
      map_nil, flatten_append, flatten_cons, flatten_nil, append_nil,
      byteSize_append] at hrecv ⊢
    omega
  · obtain ⟨tail, htail⟩ := h.views.donePrefix
    simp only [map_append, map_cons, map_nil, flatten_append,
      flatten_cons, flatten_nil, append_nil] at htail ⊢
    exact ⟨tail ++ more, by rw [← append_assoc, htail]; simp [append_assoc]⟩

theorem Tracks.replay {pending later : List Item}
    (h : Tracks translate memory stream dropped live done) (hcover : Covers area stream.segments)
    (hpend : allItems live = done ++ (pending ++ later))
    (havoid : ∀ r ∈ recordsOf pending, Avoids translate area r) :
    ∃ consumed rest stored middle gone left done' after,
      ReplaySpec translate memory stream ⟨allItems dropped, live.map SegmentLog.items, done⟩
        pending (replayLogData translate stream memory (byteSize pending)) consumed rest stored
        middle (gone.map SegmentLog.items) after ∧
      live = gone ++ left ∧ done ++ stored = allItems gone ++ done' ∧
      (replayLogData translate stream memory (byteSize pending)).recycled.map
        LogSegment.segmentAddr = gone.map SegmentLog.addr ∧
      Tracks translate (replayLogData translate stream memory (byteSize pending)).memory
        (replayLogData translate stream memory (byteSize pending)).stream
        (dropped ++ gone) left done' := by
  obtain ⟨consumed, rest, stored, middle, goneItems, after, hspec⟩ :=
    replayLogData_spec h.views hcover hpend havoid
  obtain ⟨gone, left, rfl, rfl, hleft⟩ := map_eq_append_iff.mp hspec.live
  generalize replayLogData translate stream memory (byteSize pending) = result at hspec ⊢
  have hlen : result.recycled.length = gone.length := by
    simpa using hspec.droppedLength
  have hmirr := h.mirrors
  rw [hspec.segments] at hmirr
  have hgone : List.Forall₂ (Mirrors translate) result.recycled gone := by
    have htake := forall₂_take_append _ gone left hmirr
    rwa [← hlen, take_left] at htake
  have hkept : List.Forall₂ (Mirrors translate) result.stream.segments left := by
    have hdrop := forall₂_drop_append _ gone left hmirr
    rwa [← hlen, drop_left] at hdrop
  have hview : after = ⟨allItems (dropped ++ gone), left.map SegmentLog.items, after.done⟩ := by
    have hrecyc := hspec.recycled
    obtain ⟨recycled, items, rest⟩ := after
    simp only at hrecyc hleft
    simp only [hrecyc, ← hleft, allItems_append]
    rfl
  refine ⟨consumed, rest, stored, middle, gone, left, after.done, after, hspec, rfl, ?_, ?_, ?_⟩
  · have hrepl := hspec.replayed
    rw [hview] at hrepl
    simp only [View.replayed, allItems_append, append_assoc] at hrepl
    exact (append_cancel_left hrepl).symm
  · exact map_addr_of_mirrors hgone
  · refine ⟨hkept, ?_, ?_⟩
    · rw [← hview]
      exact hspec.views
    · intro hne hempty
      subst hempty
      by_cases hsegs : stream.segments = []
      · have hlive : gone ++ [] = [] := by
          have hmirr := h.mirrors
          rw [hsegs] at hmirr
          exact forall₂_nil_left_iff.mp hmirr
        simp only [append_nil] at hlive
        subst hlive
        exact h.last (by simpa using hne) rfl
      · exact hspec.lastKept hsegs (forall₂_nil_right_iff.mp hkept)

end Tracking

/-! ### Streams in memory -/

/-- The segments of a stream that the replica has dropped, those it still
holds, and the replayed items of the latter. -/
structure Progress where
  dropped : List SegmentLog
  live : List SegmentLog
  done : List Item

def Progress.replayed (progress : Progress) : List Item :=
  allItems progress.dropped ++ progress.done

/-- The replica has received the segments `logs`; those it still holds lie in
the log area and do not overlap. -/
structure Tracked (translate : Nat → Nat) (logArea : Nat → Prop) (memory : Memory)
    (stream : LogStreamState) (logs : List SegmentLog) (progress : Progress) : Prop where
  tracks : Tracks translate memory stream progress.dropped progress.live progress.done
  split : progress.dropped ++ progress.live = logs
  fits : ∀ log ∈ logs, byteSize log.items ≤ log.size
  apart : stream.segments.Pairwise LogSegment.Apart
  inLog : ∀ segment ∈ stream.segments, ∀ i, i < segment.segmentSize →
    logArea (segment.physicalPtr + i)

theorem addSegment_segments {translate : Nat → Nat} (stream : LogStreamState) {addr : Nat}
    (size : Nat) (h : translate addr ≠ 0) :
    (stream.addSegment translate addr size).segments =
      stream.segments ++ [⟨addr, size, 0, translate addr, h⟩] := by
  simp [LogStreamState.addSegment, h]

theorem receive_segments {stream : LogStreamState} {init : List LogSegment} {last : LogSegment}
    (h : stream.segments = init ++ [last]) (size : Nat) :
    (stream.receive size).segments = init ++ [last.receive size] := by
  simp [LogStreamState.receive, h, modifyLast_concat]

theorem receive_frames {stream : LogStreamState} {size : Nat} :
    ∀ segment ∈ (stream.receive size).segments, ∃ old ∈ stream.segments,
      old.physicalPtr = segment.physicalPtr ∧ old.segmentSize = segment.segmentSize := by
  intro segment hseg
  rcases eq_nil_or_concat' stream.segments with hnil | ⟨init, last, hconcat⟩
  · rw [LogStreamState.receive, hnil] at hseg
    cases hseg
  · rw [receive_segments hconcat, mem_append, mem_singleton] at hseg
    rcases hseg with hseg | rfl
    · exact ⟨segment, by simp [hconcat, hseg], rfl, rfl⟩
    · exact ⟨last, by simp [hconcat], rfl, rfl⟩

theorem extend_flush_concat (log : SegmentLog) (items : List Item) :
    StreamOp.extend (logs ++ [log]) (.flush items) =
      logs ++ [{ log with items := log.items ++ items }] := by
  simp [StreamOp.extend, modifyLast_concat]

theorem isPrefix_extend (op : StreamOp) :
    allItems logs <+: allItems (op.extend logs) := by
  cases op with
  | request addr size => simp [StreamOp.extend]
  | flush items =>
    rcases eq_nil_or_concat' logs with rfl | ⟨init, log, rfl⟩
    · simp
    · rw [extend_flush_concat]
      simp only [allItems_append, allItems_singleton]
      exact (prefix_append_right_inj _).mpr (prefix_append _ _)

theorem isPrefix_foldl (ops : List StreamOp) (logs : List SegmentLog) :
    allItems logs <+: allItems (ops.foldl StreamOp.extend logs) := by
  induction ops generalizing logs with
  | nil => exact prefix_rfl
  | cons op ops ih => exact (isPrefix_extend logs op).trans (ih _)

variable {available : Nat}

section Tracked

variable {translate : Nat → Nat} {logArea : Nat → Prop} {memory : Memory}
  {stream : LogStreamState} {logs : List SegmentLog} {progress : Progress}

theorem Tracked.init (memory : Memory) (computeId regionId : Nat) :
    Tracked translate logArea memory ⟨computeId, regionId, [], 0, 0, 0⟩ [] ⟨[], [], []⟩ :=
  ⟨Tracks.init memory computeId regionId, rfl, by simp, .nil, by simp⟩

variable (h : Tracked translate logArea memory stream logs progress)
include h

theorem Tracked.fits_live : ∀ log ∈ progress.live, byteSize log.items ≤ log.size := by
  intro log hlog
  apply h.fits
  rw [← h.split]
  exact mem_append_right _ hlog

theorem Tracked.covers : Covers logArea stream.segments :=
  h.tracks.covers h.fits_live h.inLog

theorem Tracked.congr {after : Memory}
    (hkeep : ∀ segment ∈ stream.segments, ∀ i, i < segment.segmentSize →
      after (segment.physicalPtr + i) = memory (segment.physicalPtr + i)) :
    Tracked translate logArea after stream logs progress := by
  refine { h with tracks := ?_ }
  have hcover : Covers (fun address => ∃ segment ∈ stream.segments, ∃ i,
      i < segment.segmentSize ∧ address = segment.physicalPtr + i) stream.segments :=
    h.tracks.covers h.fits_live fun segment hseg i hi => ⟨segment, hseg, i, hi, rfl⟩
  refine h.tracks.congr hcover ?_
  rintro address ⟨segment, hseg, i, hi, rfl⟩
  exact hkeep segment hseg i hi

theorem Tracked.request {addr size : Nat} (hmap : translate addr ≠ 0)
    (harea : ∀ i, i < size → logArea (translate addr + i))
    (hfresh : ∀ segment ∈ stream.segments, segment.physicalPtr + segment.segmentSize ≤ translate
      addr ∨ translate addr + size ≤ segment.physicalPtr) :
    Tracked translate logArea memory (stream.addSegment translate addr size)
      (StreamOp.extend logs (.request addr size))
      ⟨progress.dropped, progress.live ++ [⟨addr, size, []⟩], progress.done⟩ := by
  have hsegs := addSegment_segments stream size hmap
  refine ⟨h.tracks.request size hmap, ?_, ?_, ?_, ?_⟩
  · rw [StreamOp.extend, ← h.split, append_assoc]
  · intro log hlog
    rw [StreamOp.extend, mem_append, mem_singleton] at hlog
    rcases hlog with hlog | rfl
    · exact h.fits log hlog
    · simp
  · rw [hsegs, pairwise_append]
    refine ⟨h.apart, pairwise_singleton _ _, ?_⟩
    intro segment hseg new hnew
    rw [mem_singleton.mp hnew]
    exact hfresh segment hseg
  · intro segment hseg
    rw [hsegs, mem_append, mem_singleton] at hseg
    rcases hseg with hseg | rfl
    · exact h.inLog segment hseg
    · exact harea

theorem Tracked.last_live (hlast : logs.getLast? = some log) :
    ∃ live, progress.live = live ++ [log] := by
  rw [← h.split] at hlast
  rcases eq_nil_or_concat' progress.live with hnil | ⟨live, last, hlive⟩
  · have hdropped : progress.dropped = [] := by
      by_contra hne
      exact h.tracks.last hne hnil
    rw [hnil, hdropped] at hlast
    cases hlast
  · refine ⟨live, ?_⟩
    rw [hlive, ← append_assoc, getLast?_concat, Option.some.injEq] at hlast
    rw [hlive, hlast]

theorem Tracked.last_segment (hlast : logs.getLast? = some log) :
    ∃ segment ∈ stream.segments, segment.physicalPtr = translate log.addr ∧
      segment.segmentSize = log.size := by
  obtain ⟨live, hlive⟩ := h.last_live hlast
  obtain ⟨init, segment, hsegs, -, hmirr⟩ := forall₂_concat_right (hlive ▸ h.tracks.mirrors)
  exact ⟨segment, by simp [hsegs], hmirr.ptr, hmirr.size⟩

theorem Tracked.flush (hlast : logs.getLast? = some log) {items : List Item}
    (hroom : byteSize log.items + byteSize items ≤ log.size) :
    ∃ progress', progress'.replayed = progress.replayed ∧
      progress'.dropped = progress.dropped ∧
      Tracked translate logArea
        (write memory (translate log.addr + byteSize log.items) (bytesOf items))
        (stream.receive (byteSize items)) (StreamOp.extend logs (.flush items)) progress' := by
  obtain ⟨live, hlive⟩ := h.last_live hlast
  obtain ⟨before, hpre⟩ := getLast?_eq_some_iff.mp hlast
  have htracks := h.tracks
  rw [hlive] at htracks
  have hlogs : progress.dropped ++ live = before := by
    have hsame := h.split
    rw [hlive, hpre, ← append_assoc] at hsame
    exact (append_inj' hsame rfl).1
  refine ⟨⟨progress.dropped, live ++ [{ log with items := log.items ++ items }], progress.done⟩,
    rfl, rfl, htracks.flush (hlive ▸ h.fits_live) hroom h.apart, ?_, ?_, ?_, ?_⟩
  · rw [hpre, extend_flush_concat, ← hlogs, append_assoc]
  · rw [hpre, extend_flush_concat]
    intro l hl
    rw [mem_append, mem_singleton] at hl
    rcases hl with hl | rfl
    · exact h.fits l (by simp [hpre, hl])
    · simpa using hroom
  · obtain ⟨init, segment, hsegs, -, -⟩ := forall₂_concat_right htracks.mirrors
    have hapart := h.apart
    rw [hsegs, pairwise_append] at hapart
    rw [receive_segments hsegs, pairwise_append]
    refine ⟨hapart.1, pairwise_singleton _ _, ?_⟩
    intro other hother new hnew
    rw [mem_singleton.mp hnew]
    exact hapart.2.2 other hother segment (by simp)
  · intro segment hseg
    obtain ⟨old, hold, hptr, hsize⟩ := receive_frames segment hseg
    rw [← hptr, ← hsize]
    exact h.inLog old hold

variable {observed : List Item}

theorem Tracked.pending (hobs : observed <+: allItems logs)
    (havail : stream.replayedLogLength + available = byteSize observed) :
    ∃ pending later, available = byteSize pending ∧ observed = progress.replayed ++ pending ∧
      allItems progress.live = progress.done ++ (pending ++ later) := by
  rw [← h.split] at hobs
  rw [h.tracks.replayed] at havail
  obtain ⟨pending, rfl⟩ :=
    prefix_of_byteSize_le h.tracks.replayed_isPrefix hobs (by omega)
  obtain ⟨later, hlater⟩ := hobs
  refine ⟨pending, later, ?_, rfl, ?_⟩
  · simp only [byteSize_append] at havail
    omega
  · rw [allItems_append, append_assoc, append_assoc] at hlater
    exact (append_cancel_left hlater).symm

theorem Tracked.replayed_isPrefix : progress.replayed <+: allItems logs := by
  rw [← h.split]
  exact h.tracks.replayed_isPrefix

theorem Tracked.replay (hobs : observed <+: allItems logs)
    (havail : stream.replayedLogLength + available = byteSize observed)
    (havoid : ∀ r ∈ recordsOf observed, Avoids translate logArea r) :
    ∃ pending consumed rest stored middle gone progress' view after,
      observed = progress.replayed ++ pending ∧
      ReplaySpec translate memory stream view pending
        (replayLogData translate stream memory available) consumed rest stored middle
        (gone.map SegmentLog.items) after ∧
      (∀ address, logArea address →
        (replayLogData translate stream memory available).memory address = memory address) ∧
      (replayLogData translate stream memory available).recycled.map LogSegment.segmentAddr =
        gone.map SegmentLog.addr ∧
      progress'.dropped = progress.dropped ++ gone ∧
      progress'.replayed = progress.replayed ++ stored ∧
      Tracked translate logArea (replayLogData translate stream memory available).memory
        (replayLogData translate stream memory available).stream logs progress' := by
  obtain ⟨pending, later, rfl, rfl, hlive⟩ := h.pending hobs havail
  have havoid' : ∀ r ∈ recordsOf pending, Avoids translate logArea r := by
    intro r hr
    apply havoid r
    rw [recordsOf_append]
    exact mem_append_right _ hr
  obtain ⟨consumed, rest, stored, middle, gone, left, done', after, hspec, hgone, hdone,
    hrecyc, hafter⟩ := h.tracks.replay h.covers hlive havoid'
  have hsublist : (replayLogData translate stream memory (byteSize pending)).stream.segments.Sublist
      stream.segments := by
    rw [hspec.segments]
    exact sublist_append_right _ _
  refine ⟨pending, consumed, rest, stored, middle, gone,
    ⟨progress.dropped ++ gone, left, done'⟩, _, after, rfl, hspec,
    fun address harea => hspec.keeps havoid' harea, hrecyc, rfl, ?_, hafter, ?_, h.fits,
    h.apart.sublist hsublist, fun segment hseg => h.inLog segment (hsublist.subset hseg)⟩
  · simp only [Progress.replayed, allItems_append, append_assoc, hdone]
  · rw [← h.split, hgone, append_assoc]

theorem Tracked.available_eq_zero (hrecv : stream.receivedLogLength = 0)
    (hobs : observed <+: allItems logs)
    (havail : stream.replayedLogLength + available = byteSize observed) : available = 0 := by
  rw [h.tracks.received, h.split] at hrecv
  obtain ⟨later, hlater⟩ := hobs
  rw [← hlater, byteSize_append] at hrecv
  omega

end Tracked

/-! ### Handled messages -/

variable (translate : Nat → Nat)

section Manager

variable {manager : Manager} {c r : Nat}

theorem makeStreamIndex_lt (hc : c < maxComputeNodes) (hr : r < maxLogicalRegions) :
    makeStreamIndex c r < maxStreams := by
  simp only [makeStreamIndex, maxStreams, maxComputeNodes, maxLogicalRegions] at *
  omega

@[simp] theorem Manager.stream_setStream_self (stream : LogStreamState) :
    (manager.setStream (makeStreamIndex c r) stream).stream c r = stream := by
  simp [Manager.stream, Manager.setStream]

theorem Manager.stream_setStream_of_ne {c' : Nat} (h : c' ≠ c) (stream : LogStreamState) :
    (manager.setStream (makeStreamIndex c r) stream).stream c' r = manager.stream c' r := by
  have hindex : makeStreamIndex c' r ≠ makeStreamIndex c r := by
    simp only [makeStreamIndex, maxLogicalRegions]
    omega
  simp only [Manager.stream, Manager.setStream, Function.update_of_ne hindex]

theorem Manager.streams_of_segments (h : (manager.stream c r).segments ≠ []) :
    manager.streams (makeStreamIndex c r) = some (manager.stream c r) := by
  unfold Manager.stream at h ⊢
  cases hstrm : manager.streams (makeStreamIndex c r) with
  | none =>
    rw [hstrm] at h
    exact absurd rfl h
  | some stream => rfl

variable (manager : Manager)

theorem Manager.replayStream_eq
    (hnone : manager.streams (makeStreamIndex c r) = none → available = 0) :
    (manager.replayStream translate c r available).1.stream c r =
        (replayLogData translate (manager.stream c r) manager.memory available).stream ∧
      (manager.replayStream translate c r available).1.memory =
        (replayLogData translate (manager.stream c r) manager.memory available).memory ∧
      (manager.replayStream translate c r available).2.1 =
        (replayLogData translate (manager.stream c r) manager.memory available).applied ∧
      (manager.replayStream translate c r available).2.2.2 =
        sendSegmentRecycleRPC
          (replayLogData translate (manager.stream c r) manager.memory available).stream
          (replayLogData translate (manager.stream c r) manager.memory available).recycled ∧
      ∀ c', c' ≠ c →
        (manager.replayStream translate c r available).1.stream c' r = manager.stream c' r := by
  cases hstrm : manager.streams (makeStreamIndex c r) with
  | none =>
    obtain rfl := hnone hstrm
    simp [Manager.replayStream, Manager.stream, hstrm, replayLogData, replayLoop,
      sendSegmentRecycleRPC, toChunks]
  | some stream =>
    have hsome : manager.stream c r = stream := by
      rw [Manager.stream, hstrm, Option.getD_some]
    rw [hsome]
    simp only [Manager.replayStream, hstrm, Manager.stream_setStream_self, true_and]
    refine ⟨rfl, fun c' hne => ?_⟩
    exact Manager.stream_setStream_of_ne hne _

theorem Manager.deliver_request
    (hc : c < maxComputeNodes) (hr : r < maxLogicalRegions) (addr size : Nat) :
    manager.deliver translate c (.segmentRequest r addr size) =
      manager.setStream (makeStreamIndex c r)
        ((manager.stream c r).addSegment translate addr size) := by
  simp [Manager.deliver, Manager.handleLogSegmentRequest, Manager.stream,
    Nat.not_le.mpr (makeStreamIndex_lt hc hr)]

theorem Manager.deliver_writeImm
    (hc : c < maxComputeNodes) (hr : r < maxLogicalRegions)
    (hsegs : (manager.stream c r).segments ≠ [])
    (addr offset : Nat) (bytes : List UInt8) {size : Nat} (hsize : size < 2 ^ 24) :
    manager.deliver translate c (.writeImm addr offset bytes (encodeImm r size)) =
      { manager with
        memory := write manager.memory (translate addr + offset) bytes
      }.setStream (makeStreamIndex c r) ((manager.stream c r).receive size) := by
  have hreg : r < 2 ^ 8 := by
    simp only [maxLogicalRegions] at hr
    omega
  simp only [Manager.deliver, immRegion_encodeImm size hreg, immSize_encodeImm hreg hsize,
    Manager.handleWriteWithImm, ge_iff_le, Nat.not_le.mpr (makeStreamIndex_lt hc hr), if_false,
    Manager.streams_of_segments hsegs]

end Manager

def FreshFor (stream : LogStreamState) : Wire → Prop
  | .segmentRequest _ addr size => ∀ segment ∈ stream.segments,
      segment.physicalPtr + segment.segmentSize ≤ translate addr ∨
        translate addr + size ≤ segment.physicalPtr
  | .writeImm _ _ _ _ => True

instance (translate : Nat → Nat) (stream : LogStreamState) :
    ∀ wire, Decidable (FreshFor translate stream wire) := by
  rintro (_ | _) <;> dsimp only [FreshFor] <;> infer_instance

end MemoryEngine.LogReplayer
