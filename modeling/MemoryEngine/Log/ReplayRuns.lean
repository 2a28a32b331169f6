import MemoryEngine.Log.PageEffects
import Mathlib.Logic.Relation

/-! Runs of the replayer of one logical region.

Each compute node sends one stream; `script c` lists what node `c` sends.  A run
interleaves, in any way, the handling of the next message of a stream with
replay passes over the streams.  The invariant says which items each stream has
replayed, that the applied records are exactly theirs and are in version order,
and that the pages hold what these records leave. -/
namespace MemoryEngine.LogReplayer

open ByteMemory RedoLog VersionedLog List Function

/-! ### Regions -/

/-- The streams of one logical region and where the region lies in the node's
memory: `logArea` is the memory that log segments may use. -/
structure Region where
  translate : Nat → Nat
  regionId : Nat
  pageSize : Nat
  logArea : Nat → Prop
  script : Nat → List StreamOp

/-- A segment is hosted in the log area; a flush fits into the last segment and
its size into the immediate value. -/
def StreamOp.Fits (translate : Nat → Nat) (logArea : Nat → Prop) (logs : List SegmentLog) :
    StreamOp → Prop
  | .request addr size =>
      translate addr ≠ 0 ∧ ∀ i, i < size → logArea (translate addr + i)
  | .flush items =>
      byteSize items < 2 ^ 24 ∧
        ∃ log, logs.getLast? = some log ∧ byteSize log.items + byteSize items ≤ log.size

namespace Region

variable (region : Region)

/-- The segments of a stream after its first `count` messages. -/
def logs (c count : Nat) : List SegmentLog :=
  ((region.script c).take count).foldl StreamOp.extend []

def streamItems (c : Nat) : List Item := allItems (region.logs c (region.script c).length)

def records : List Record :=
  (List.range maxComputeNodes).flatMap fun c => recordsOf (region.streamItems c)

/-- Streams of whole records whose versions have no gap, over pages that do not
overlap each other or the log. -/
structure WellFramed : Prop where
  regionId_lt : region.regionId < maxLogicalRegions
  fits : ∀ c, c < maxComputeNodes → ∀ n (op : StreamOp),
    (region.script c)[n]? = some op →
      op.Fits region.translate region.logArea (region.logs c n)
  pages : PageFrames region.translate region.pageSize region.logArea region.records
  gapFree : GapFree Record.pageGaddr Record.pageVersion region.records

end Region

/-- The manager, the number of messages handled on each stream, and the records
applied so far. -/
structure RunState where
  manager : Manager
  delivered : Nat → Nat
  applied : List Record

variable (region : Region)

namespace RunState

variable (state : RunState)

def deliver (c : Nat) (wire : Wire) : RunState :=
  { state with
    manager := state.manager.deliver region.translate c wire
    delivered := update state.delivered c (state.delivered c + 1) }

def replay (c available : Nat) : RunState :=
  let outcome := state.manager.replayStream region.translate c region.regionId available
  { state with
    manager := outcome.1
    applied := state.applied ++ outcome.2.1 }

def stream (c : Nat) : LogStreamState :=
  state.manager.stream c region.regionId

end RunState

/-- One handled message, or one replay pass over a stream.  The pass works with
the number of bytes it observed when it started, of `count` messages. -/
inductive Step (region : Region) : RunState → RunState → Prop
  | deliver (state : RunState) (c : Nat) (op : StreamOp) (wire : Wire)
      (hc : c < maxComputeNodes) (hop : (region.script c)[state.delivered c]? = some op)
      (hwire : op.wire region.regionId (region.logs c (state.delivered c)) = some wire)
      (hfresh : ∀ c', c' < maxComputeNodes →
        FreshFor region.translate (state.stream region c') wire) :
      Step region state (state.deliver region c wire)
  | replay (state : RunState) (c count available : Nat) (hc : c < maxComputeNodes)
      (hcount : count ≤ state.delivered c)
      (havail : (state.stream region c).replayedLogLength + available =
        byteSize (allItems (region.logs c count))) :
      Step region state (state.replay region c available)

def Run : RunState → RunState → Prop := Relation.ReflTransGen (Step region)

structure Initial (region : Region) (state : RunState) : Prop where
  streams : ∀ c, c < maxComputeNodes → state.stream region c = ⟨c, region.regionId, [], 0, 0, 0⟩
  delivered : ∀ c, c < maxComputeNodes → state.delivered c = 0
  applied : state.applied = []
  versions : ∀ r ∈ region.records,
    getCurrentPageVersion region.translate state.manager.memory r.pageGaddr = 0

/-! ### Streams as they grow -/

section Logs

variable {region : Region} {c : Nat}

theorem logs_succ {n : Nat} {op : StreamOp} (h : (region.script c)[n]? = some op) :
    region.logs c (n + 1) = op.extend (region.logs c n) := by
  rw [Region.logs, take_add_one, h]
  simp [Region.logs]

theorem logs_isPrefix {n m : Nat} (h : n ≤ m) :
    allItems (region.logs c n) <+: allItems (region.logs c m) := by
  obtain ⟨k, rfl⟩ := Nat.exists_eq_add_of_le h
  rw [Region.logs, Region.logs, take_add, foldl_append]
  exact isPrefix_foldl _ _

theorem logs_isPrefix_streamItems (n : Nat) :
    allItems (region.logs c n) <+: region.streamItems c := by
  rcases Nat.le_total n (region.script c).length with h | h
  · exact logs_isPrefix h
  · have hall : region.logs c n = region.logs c (region.script c).length := by
      rw [Region.logs, Region.logs, take_of_length_le h, take_length]
    exact ⟨[], by rw [append_nil, hall, Region.streamItems]⟩

theorem mem_records (hc : c < maxComputeNodes) {r : Record}
    (hr : r ∈ recordsOf (region.streamItems c)) : r ∈ region.records :=
  mem_flatMap.mpr ⟨c, mem_range.mpr hc, hr⟩

end Logs

/-! ### The invariant -/

def replayedRecords (progress : Nat → Progress) : List Record :=
  (List.range maxComputeNodes).flatMap fun c => recordsOf (progress c).replayed

structure Invariant (region : Region) (base : Memory) (state : RunState)
    (progress : Nat → Progress) : Prop where
  streams : ∀ c, c < maxComputeNodes →
    Tracked region.translate region.logArea state.manager.memory (state.stream region c)
      (region.logs c (state.delivered c)) (progress c)
  apart : ∀ c, c < maxComputeNodes → ∀ c', c' < maxComputeNodes → c ≠ c' →
    ∀ segment ∈ (state.stream region c).segments, ∀ other ∈ (state.stream region c').segments,
      segment.Apart other
  applied : state.applied.Perm (replayedRecords progress)
  replayed : Replayed region.translate region.logArea base state.manager.memory region.records
    state.applied

theorem Initial.invariant {region : Region} {state : RunState} (h : Initial region state) :
    Invariant region state.manager.memory state fun _ => ⟨[], [], []⟩ := by
  refine ⟨?_, ?_, ?_, h.versions, ?_, ?_, ?_⟩
  · intro c hc
    rw [h.streams c hc, h.delivered c hc]
    exact Tracked.init _ _ _
  · intro c hc c' hc' hne segment hmem
    rw [h.streams c hc] at hmem
    cases hmem
  · rw [h.applied, replayedRecords]
    simp [Progress.replayed]
  · simp [h.applied]
  · rw [h.applied]
    exact inOrder_nil
  · rw [h.applied]
    exact fun _ _ => rfl

/-! ### Steps keep the invariant -/

section Steps

variable {region : Region} {base : Memory} {state state' : RunState} {progress : Nat → Progress}
  {c : Nat}

/-- A step that changes only the stream `c`.  The other streams keep their facts
when the bytes in their segments are kept. -/
theorem Invariant.change (h : Invariant region base state progress) (c : Nat) (next : Progress)
    (hother : ∀ c', c' ≠ c → state'.stream region c' = state.stream region c')
    (hdelivered : ∀ c', c' ≠ c → state'.delivered c' = state.delivered c')
    (hkeep : ∀ c', c' < maxComputeNodes → c' ≠ c → ∀ segment ∈ (state.stream region c').segments, ∀
      i, i < segment.segmentSize → state'.manager.memory (segment.physicalPtr + i) =
      state.manager.memory (segment.physicalPtr + i))
    (hself : Tracked region.translate region.logArea state'.manager.memory (state'.stream region c)
      (region.logs c (state'.delivered c)) next)
    (hapart : ∀ c', c' < maxComputeNodes → c' ≠ c → ∀ segment ∈ (state'.stream region c).segments,
      ∀ other ∈ (state.stream region c').segments, segment.Apart other)
    (happl : state'.applied.Perm (replayedRecords (update progress c next)))
    (hrepl : Replayed region.translate region.logArea base state'.manager.memory region.records
      state'.applied) : Invariant region base state' (update progress c next) := by
  refine ⟨?_, ?_, happl, hrepl⟩
  · intro c' hc'
    by_cases hne : c' = c
    · subst hne
      rw [update_self]
      exact hself
    · rw [update_of_ne hne, hother c' hne, hdelivered c' hne]
      exact (h.streams c' hc').congr (hkeep c' hc' hne)
  · intro c₁ hc₁ c₂ hc₂ hne segment hseg other hmem
    by_cases h₁ : c₁ = c
    · subst h₁
      rw [hother c₂ (Ne.symm hne)] at hmem
      exact hapart c₂ hc₂ (Ne.symm hne) segment hseg other hmem
    · rw [hother c₁ h₁] at hseg
      by_cases h₂ : c₂ = c
      · subst h₂
        exact (hapart c₁ hc₁ h₁ other hmem segment hseg).symm
      · rw [hother c₂ h₂] at hmem
        exact h.apart c₁ hc₁ c₂ hc₂ hne segment hseg other hmem

theorem replayedRecords_update {next : Progress} (h : next.replayed = (progress c).replayed) :
    replayedRecords (update progress c next) = replayedRecords progress := by
  unfold replayedRecords
  congr 1
  funext c'
  by_cases hne : c' = c
  · subst hne
    rw [update_self, h]
  · rw [update_of_ne hne]

theorem Invariant.request (h : Invariant region base state progress)
    (hregion : region.WellFramed) (hc : c < maxComputeNodes) {addr size : Nat}
    (hop : (region.script c)[state.delivered c]? = some (.request addr size))
    (hfresh : ∀ c', c' < maxComputeNodes → FreshFor region.translate (state.stream region c')
      (.segmentRequest region.regionId addr size)) :
    ∃ progress', Invariant region base
      (state.deliver region c (.segmentRequest region.regionId addr size)) progress' := by
  obtain ⟨hmap, harea⟩ := hregion.fits c hc _ _ hop
  have hmgr := state.manager.deliver_request region.translate hc hregion.regionId_lt addr size
  have hself : (state.deliver region c (.segmentRequest region.regionId addr size)).stream
      region c = (state.stream region c).addSegment region.translate addr size := by
    simp only [RunState.stream, RunState.deliver, hmgr, Manager.stream_setStream_self]
  have hmemory : (state.deliver region c
      (.segmentRequest region.regionId addr size)).manager.memory = state.manager.memory := by
    simp only [RunState.deliver, hmgr, Manager.setStream]
  refine ⟨_, h.change c ⟨(progress c).dropped, (progress c).live ++ [⟨addr, size, []⟩],
    (progress c).done⟩ ?_ ?_ ?_ ?_ ?_ ?_ ?_⟩
  · intro c' hne
    simp only [RunState.stream, RunState.deliver, hmgr]
    exact Manager.stream_setStream_of_ne hne _
  · intro c' hne
    exact update_of_ne hne _ _
  · intro c' _ _ segment _ i _
    rw [hmemory]
  · simp only [RunState.deliver, update_self, logs_succ hop] at hself hmemory ⊢
    rw [hself, hmemory]
    exact (h.streams c hc).request hmap harea (hfresh c hc)
  · intro c' hc' hne segment hseg other hother
    rw [hself, addSegment_segments _ size hmap, mem_append, mem_singleton]
      at hseg
    rcases hseg with hseg | rfl
    · exact h.apart c hc c' hc' (Ne.symm hne) segment hseg other hother
    · exact LogSegment.Apart.symm (hfresh c' hc' other hother)
  · rw [replayedRecords_update (by rfl)]
    exact h.applied
  · rw [hmemory]
    exact h.replayed

theorem write_outside_segment {memory : Memory} {segment other : LogSegment} {offset : Nat}
    {bytes : List UInt8} (hroom : offset + bytes.length ≤ segment.segmentSize)
    (hapart : segment.Apart other) {i : Nat} (hi : i < other.segmentSize) :
    write memory (segment.physicalPtr + offset) bytes (other.physicalPtr + i) =
      memory (other.physicalPtr + i) := by
  unfold LogSegment.Apart at hapart
  exact write_outside memory _ (by omega)

theorem Invariant.flush (h : Invariant region base state progress) (hregion : region.WellFramed)
    (hc : c < maxComputeNodes) {items : List Item} {wire : Wire}
    (hop : (region.script c)[state.delivered c]? = some (.flush items))
    (hwire : StreamOp.wire region.regionId (region.logs c (state.delivered c)) (.flush items) =
      some wire) : ∃ progress', Invariant region base (state.deliver region c wire) progress' := by
  obtain ⟨hsize, log, hlast, hroom⟩ := hregion.fits c hc _ _ hop
  rw [StreamOp.wire, hlast, Option.map_some, Option.some.injEq] at hwire
  obtain ⟨segment, hmem, hptr, hframe⟩ := (h.streams c hc).last_segment hlast
  obtain ⟨next, hnext, -, htrack⟩ := (h.streams c hc).flush hlast hroom
  have hmgr := state.manager.deliver_writeImm region.translate hc hregion.regionId_lt
    (ne_nil_of_mem hmem) log.addr (byteSize log.items) (bytesOf items) hsize
  rw [hwire] at hmgr
  have hself : (state.deliver region c wire).stream region c =
      (state.stream region c).receive (byteSize items) := by
    simp only [RunState.stream, RunState.deliver, hmgr, Manager.stream_setStream_self]
  have hmemory : (state.deliver region c wire).manager.memory =
      write state.manager.memory (segment.physicalPtr + byteSize log.items) (bytesOf items) := by
    simp only [RunState.deliver, hmgr, Manager.setStream, hptr]
  have hin : byteSize log.items + (bytesOf items).length ≤ segment.segmentSize := by
    rw [hframe]
    exact hroom
  refine ⟨_, h.change c next ?_ ?_ ?_ ?_ ?_ ?_ ?_⟩
  · intro c' hne
    simp only [RunState.stream, RunState.deliver, hmgr]
    exact Manager.stream_setStream_of_ne hne _
  · intro c' hne
    exact update_of_ne hne _ _
  · intro c' hc' hne other hother i hi
    rw [hmemory]
    exact write_outside_segment hin
      (h.apart c hc c' hc' (Ne.symm hne) segment hmem other hother) hi
  · simp only [RunState.deliver, update_self, logs_succ hop] at hself hmemory ⊢
    rw [hself, hmemory, hptr]
    exact htrack
  · intro c' hc' hne new hnew other hother
    rw [hself] at hnew
    obtain ⟨old, hold, holdPtr, holdSize⟩ := receive_frames new hnew
    have hapart := h.apart c hc c' hc' (Ne.symm hne) old hold other hother
    rwa [LogSegment.Apart, holdPtr, holdSize] at hapart
  · rw [replayedRecords_update hnext]
    exact h.applied
  · refine ⟨h.replayed.zero, h.replayed.subset, h.replayed.order, ?_⟩
    rw [hmemory]
    intro address hout
    refine Eq.trans ?_ (h.replayed.pages address hout)
    -- the write stays inside the log area
    by_cases hbefore : address < segment.physicalPtr + byteSize log.items
    · exact write_of_lt _ _ hbefore
    by_cases hafter : segment.physicalPtr + byteSize log.items + (bytesOf items).length ≤ address
    · exact write_of_ge _ _ hafter
    · have harea := (h.streams c hc).inLog segment hmem (address - segment.physicalPtr) (by omega)
      rw [show segment.physicalPtr + (address - segment.physicalPtr) = address by omega] at harea
      exact absurd harea hout

def Blocked (applied : List Record) (rest : List Item) : Prop :=
  rest = [] ∨ ∃ r later, rest = .record r :: later ∧
    (ofKey Record.pageGaddr r.pageGaddr applied).length + 1 < r.pageVersion

section

variable (h : Invariant region base state progress)
include h

theorem Invariant.replayed_isPrefix
    (hc : c < maxComputeNodes) : (progress c).replayed <+: region.streamItems c :=
  (h.streams c hc).replayed_isPrefix.trans (logs_isPrefix_streamItems _)

theorem Invariant.subperm (hc : c < maxComputeNodes)
    {more : List Item} (hmore : (progress c).replayed ++ more <+: region.streamItems c) :
    (state.applied ++ recordsOf more).Subperm region.records := by
  have hjoin := flatMap_append_perm (fun c' => recordsOf (progress c').replayed)
    (update (fun c' => recordsOf (progress c').replayed) c
      (recordsOf ((progress c).replayed ++ more))) hc
    (by rw [update_self, recordsOf_append])
    (fun i hi => update_of_ne hi _ _)
  have hperm : (state.applied ++ recordsOf more).Perm
      (replayedRecords progress ++ recordsOf more) := h.applied.append_right _
  refine (hperm.trans hjoin).subperm.trans (List.Sublist.subperm (flatMap_sublist _ ?_))
  intro c' hc'
  rw [mem_range] at hc'
  by_cases hne : c' = c
  · subst hne
    rw [update_self]
    exact hmore.sublist.filterMap _
  · rw [update_of_ne hne]
    exact (h.replayed_isPrefix hc').sublist.filterMap _

theorem Invariant.stop (hregion : region.WellFramed)
    (hc : c < maxComputeNodes) {consumed rest : List Item}
    (hitems : (progress c).replayed ++ (consumed ++ rest) <+: region.streamItems c)
    {middle after : Memory} {exit : PassExit} {size : Nat}
    (hrun : applyItems region.translate state.manager.memory consumed = some middle)
    (hstop : PassStop region.translate middle consumed rest exit after size) :
    exit ≠ .aborted ∧ after = middle ∧ Blocked (state.applied ++ recordsOf consumed) rest ∧
      Replayed region.translate region.logArea base middle region.records
        (state.applied ++ recordsOf consumed) := by
  have hmem : ∀ r ∈ recordsOf (consumed ++ rest), r ∈ region.records := by
    intro r hr
    refine mem_records hc ((hitems.sublist.filterMap _).subset ?_)
    rw [filterMap_append]
    exact mem_append_right _ hr
  rw [recordsOf_append] at hmem
  have hrepl := h.replayed.applyItems hregion.pages
    (fun r hr => hmem r (mem_append_left _ hr)) hrun
  cases hstop with
  | caughtUp => exact ⟨by simp, rfl, .inl rfl, hrepl⟩
  | future r rest hver =>
    refine ⟨by simp, rfl, .inr ⟨r, rest, rfl, ?_⟩, hrepl⟩
    rwa [hrepl.version hregion.pages (hmem r (by simp))] at hver
  | stale r rest stored turn hstor hturn hver =>
    -- a gap-free history has no second record with an old version
    rw [hrepl.version hregion.pages (hmem r (by simp))] at hver
    have hpre : (progress c).replayed ++ (consumed ++ [.record r]) <+: region.streamItems c :=
      List.IsPrefix.trans ⟨rest, by simp⟩ hitems
    have hsub := h.subperm hc hpre
    rw [recordsOf_append, recordsOf_record, recordsOf_nil, ← append_assoc] at hsub
    have hlt := hrepl.order.lt_version hregion.gapFree hsub
    omega
  | failed r rest stored turn hstor hturn after hproc =>
    rw [(hregion.pages.inPage r (hmem r (by simp))).processLogRecord_eq] at hproc
    cases hproc

theorem Invariant.replay (hregion : region.WellFramed) (hc : c < maxComputeNodes)
    {count available : Nat} (hcount : count ≤ state.delivered c)
    (havail : (state.stream region c).replayedLogLength + available = byteSize (allItems
      (region.logs c count))) :
    ∃ consumed rest progress',
      allItems (region.logs c count) = (progress c).replayed ++ (consumed ++ rest) ∧
      (state.replay region c available).applied = state.applied ++ recordsOf consumed ∧
      Blocked (state.replay region c available).applied rest ∧
      (progress' c).replayed = (progress c).replayed ++ consumed ∧
      (∀ c', c' ≠ c → progress' c' = progress c') ∧
      Invariant region base (state.replay region c available) progress' := by
  have hobs : allItems (region.logs c count) <+: region.streamItems c :=
    logs_isPrefix_streamItems count
  have havoid : ∀ r ∈ recordsOf (allItems (region.logs c count)),
      Avoids region.translate region.logArea r := fun r hr =>
    hregion.pages.avoids (mem_records hc ((hobs.sublist.filterMap _).subset hr))
  obtain ⟨pending, consumed, rest, stored, middle, gone, next, view, after, hpend, hspec, hlog,
    -, -, hnext, htrack⟩ :=
    (h.streams c hc).replay (logs_isPrefix hcount) havail havoid
  have hzero : state.manager.streams (makeStreamIndex c region.regionId) = none →
      available = 0 := by
    intro hnone
    refine (h.streams c hc).available_eq_zero ?_ (logs_isPrefix hcount) havail
    rw [RunState.stream, Manager.stream, hnone, Option.getD_none]
  obtain ⟨hself, hmemory, hrecs, -, hother⟩ :=
    state.manager.replayStream_eq region.translate hzero
  have happl := congrArg (state.applied ++ ·) hrecs
  rw [← RunState.stream] at hself hmemory happl
  change (state.replay region c available).stream region c = _ at hself
  change (state.replay region c available).manager.memory = _ at hmemory
  change (state.replay region c available).applied = _ at happl
  generalize replayLogData region.translate (state.stream region c) state.manager.memory
    available = result at hspec hlog htrack hself hmemory happl
  rw [hspec.applied] at happl
  rw [hpend, hspec.split] at hobs
  obtain ⟨hexit, hres, hblocked, hrepl⟩ :=
    h.stop hregion hc hobs hspec.run hspec.stop
  obtain rfl : stored = consumed := hspec.storedAll hexit
  refine ⟨stored, rest, _, by rw [hpend, hspec.split], happl, by rwa [happl], ?_, ?_,
    h.change c next hother (fun _ _ => rfl) ?_ ?_ ?_ ?_ ?_⟩
  · rw [update_self]
    exact hnext
  · intro c' hne
    exact update_of_ne hne _ _
  · intro c' hc' _ segment hseg i hi
    rw [hmemory]
    exact hlog _ ((h.streams c' hc').inLog segment hseg i hi)
  · rw [hself, hmemory]
    exact htrack
  · intro c' hc' hne segment hseg
    rw [hself] at hseg
    refine h.apart c hc c' hc' (Ne.symm hne) segment ?_
    rw [hspec.segments]
    exact mem_append_right _ hseg
  · rw [happl]
    refine (h.applied.append_right _).trans (flatMap_append_perm _ _ hc ?_ ?_)
    · rw [update_self, hnext, recordsOf_append]
    · intro i hi
      rw [update_of_ne hi]
  · rw [hmemory, hres, happl]
    exact hrepl

end

theorem Step.invariant (hregion : region.WellFramed) (hstep : Step region state state')
    (h : Invariant region base state progress) :
    ∃ progress', Invariant region base state' progress' := by
  cases hstep with
  | deliver c op wire hc hop hwire hfresh =>
    cases op with
    | request addr size =>
      obtain rfl : Wire.segmentRequest region.regionId addr size = wire := by
        simpa [StreamOp.wire] using hwire
      exact h.request hregion hc hop hfresh
    | flush items => exact h.flush hregion hc hop hwire
  | replay c count available hc hcount havail =>
    obtain ⟨_, _, progress', _, _, _, _, _, h'⟩ := h.replay hregion hc hcount havail
    exact ⟨progress', h'⟩

end Steps

/-! ### Runs -/

theorem Run.invariant {region : Region} (hregion : region.WellFramed) {initial state : RunState}
    (hinitial : Initial region initial) (hrun : Run region initial state) :
    ∃ progress, Invariant region initial.manager.memory state progress := by
  induction hrun with
  | refl => exact ⟨_, hinitial.invariant⟩
  | tail _ hstep ih =>
    obtain ⟨progress, h⟩ := ih
    exact hstep.invariant hregion h

/-- Replay as the streams' senders need it, in a state reached from `initial`. -/
structure ReplayCorrect (region : Region) (initial state : RunState) : Prop where
  /-- No record is applied twice. -/
  atMostOnce : state.applied.Nodup
  /-- The records of each page are applied as versions 1, 2, 3, ... -/
  versionOrder : ∀ page,
    (ofKey Record.pageGaddr page state.applied).map Record.pageVersion =
      range' 1 (ofKey Record.pageGaddr page state.applied).length
  /-- The replayed length of a stream is that of whole items, all applied. -/
  replayedPrefix : ∀ c, c < maxComputeNodes → ∃ items,
    items <+: allItems (region.logs c (state.delivered c)) ∧
    (state.stream region c).replayedLogLength = byteSize items ∧
    ∀ r ∈ recordsOf items, r ∈ state.applied
  /-- Another run that has applied all records, too, has the same pages. -/
  confluent : ∀ other, Run region initial other →
    (∀ r ∈ region.records, r ∈ state.applied) → (∀ r ∈ region.records, r ∈ other.applied) →
    ∀ r ∈ region.records,
      read state.manager.memory (region.translate r.pageGaddr) region.pageSize =
        read other.manager.memory (region.translate r.pageGaddr) region.pageSize

section Runs

variable {region : Region} {base : Memory} {state other : RunState}
  {progress progress' : Nat → Progress}

variable (h : Invariant region base state progress)
include h

theorem Invariant.applied_subperm : state.applied.Subperm region.records := by
  have hpre : (progress 0).replayed ++ [] <+: region.streamItems 0 := by
    rw [append_nil]
    exact h.replayed_isPrefix (by decide)
  simpa using h.subperm (by decide) hpre

theorem Invariant.perm_records (hall : ∀ r ∈ region.records, r ∈ state.applied)
    (hregion : region.WellFramed) : state.applied.Perm region.records :=
  h.applied_subperm.antisymm ((hregion.gapFree.nodup).subperm hall)

theorem Invariant.pages_eq
    (h' : Invariant region base other progress') (hregion : region.WellFramed)
    (hperm : state.applied.Perm other.applied) {r : Record} (hr : r ∈ region.records) :
    read state.manager.memory (region.translate r.pageGaddr) region.pageSize =
      read other.manager.memory (region.translate r.pageGaddr) region.pageSize := by
  have hpages := hregion.pages
  have hself := (hpages.agreeOn hr h.replayed.pages).trans
    (hpages.effects_ofKey hr h.replayed.subset (AgreeOn.refl base _ _))
  have hother := (hpages.agreeOn hr h'.replayed.pages).trans
    (hpages.effects_ofKey hr h'.replayed.subset (AgreeOn.refl base _ _))
  rw [ofKey_eq_of_perm h.replayed.order h'.replayed.order hperm] at hself
  exact read_congr (hself.trans hother.symm)

end Runs

/-- Every interleaving of handled messages and replay passes. -/
theorem replayCorrect_of_run {region : Region} (hregion : region.WellFramed)
    {initial state : RunState} (hinitial : Initial region initial)
    (hrun : Run region initial state) : ReplayCorrect region initial state := by
  obtain ⟨progress, h⟩ := hrun.invariant hregion hinitial
  refine ⟨h.replayed.order.nodup, h.replayed.order.versions, ?_, ?_⟩
  · intro c hc
    refine ⟨(progress c).replayed, (h.streams c hc).replayed_isPrefix,
      (h.streams c hc).tracks.replayed, ?_⟩
    intro r hr
    exact h.applied.mem_iff.mpr (mem_flatMap.mpr ⟨c, mem_range.mpr hc, hr⟩)
  · intro other hother hall hall' r hr
    obtain ⟨progress', h'⟩ := hother.invariant hregion hinitial
    have hperm := (h.perm_records hall hregion).trans (h'.perm_records hall' hregion).symm
    exact h.pages_eq h' hregion hperm hr

/-! ### A region with two streams -/

def sampleFirst : Record := .ofAppend 256 1 (LogCodec.Encoder.encode [.update 40 [7]])

def sampleSecond : Record := .ofAppend 256 2 (LogCodec.Encoder.encode [.update 40 [9]])

def sampleRegion : Region where
  translate := id
  regionId := 1
  pageSize := 64
  logArea := fun address => 1024 ≤ address
  script := fun c =>
    if c = 0 then [.request 1024 64, .flush [.record sampleFirst]]
    else if c = 2 then [.request 2048 64, .flush [.record sampleSecond]]
    else []

theorem sampleRegion_records : sampleRegion.records = [sampleFirst, sampleSecond] := by decide

theorem sampleRegion_wellFramed : sampleRegion.WellFramed := by
  have hrecs := sampleRegion_records
  refine ⟨by decide, ?_, ⟨by decide, ?_, ?_, ?_⟩, ?_⟩
  · intro c hc n op hop
    simp only [sampleRegion] at hop
    split at hop
    · subst c
      rcases n with _ | _ | n
      · cases hop
        exact ⟨by decide, fun i _ => Nat.le_add_right 1024 i⟩
      · cases hop
        exact ⟨by decide, _, rfl, by decide⟩
      · simp at hop
    · split at hop
      · subst c
        rcases n with _ | _ | n
        · cases hop
          refine ⟨by decide, fun i _ => ?_⟩
          change 1024 ≤ 2048 + i
          omega
        · cases hop
          exact ⟨by decide, _, rfl, by decide⟩
        · simp at hop
      · simp at hop
  · rw [hrecs]
    intro r hr
    simp only [mem_cons, not_mem_nil, or_false] at hr
    rcases hr with rfl | rfl <;> exact ⟨by decide, by decide, by decide⟩
  · rw [hrecs]
    decide
  · rw [hrecs]
    intro r hr i hi
    simp only [mem_cons, not_mem_nil, or_false] at hr
    have hi' : i < 64 := hi
    rcases hr with rfl | rfl <;>
      simp only [sampleRegion, sampleFirst, sampleSecond, Record.ofAppend, id_eq] <;> omega
  · rw [hrecs]
    intro page
    by_cases h : page = 256
    · exact ⟨2, by subst h; decide⟩
    · refine ⟨0, ?_⟩
      have : ofKey Record.pageGaddr page [sampleFirst, sampleSecond] = [] := by
        simp [ofKey, sampleFirst, sampleSecond, Record.ofAppend, Ne.symm h]
      rw [this]; simp

def sampleInitial : RunState := ⟨⟨fun _ => 0, fun _ => none⟩, fun _ => 0, []⟩

theorem sampleInitial_initial : Initial sampleRegion sampleInitial := by
  refine ⟨fun _ _ => rfl, fun _ _ => rfl, rfl, ?_⟩
  decide

def sampleReceived : RunState :=
  let state := sampleInitial.deliver sampleRegion 2 (.segmentRequest 1 2048 64)
  let state := state.deliver sampleRegion 0 (.segmentRequest 1 1024 64)
  let state := state.deliver sampleRegion 2
    (.writeImm 2048 0 sampleSecond.bytes (encodeImm 1 sampleSecond.bytes.length))
  state.deliver sampleRegion 0
    (.writeImm 1024 0 sampleFirst.bytes (encodeImm 1 sampleFirst.bytes.length))

theorem sampleReceived_run : Run sampleRegion sampleInitial sampleReceived :=
  (((Relation.ReflTransGen.refl.tail
    (Step.deliver _ 2 (.request 2048 64) _ (by decide) rfl rfl (by decide))).tail
    (Step.deliver _ 0 (.request 1024 64) _ (by decide) rfl rfl (by decide))).tail
    (Step.deliver _ 2 (.flush [.record sampleSecond]) _ (by decide) rfl rfl (by decide))).tail
    (Step.deliver _ 0 (.flush [.record sampleFirst]) _ (by decide) rfl rfl (by decide))

def sampleReplayed : RunState :=
  ((sampleReceived.replay sampleRegion 2 27).replay sampleRegion 0 27).replay sampleRegion 2 27

theorem sampleReplayed_run : Run sampleRegion sampleInitial sampleReplayed :=
  ((sampleReceived_run.tail
    (.replay _ 2 2 27 (by decide) (by decide) (by decide))).tail
    (.replay _ 0 2 27 (by decide) (by decide) (by decide))).tail
    (.replay _ 2 2 27 (by decide) (by decide) (by decide))

theorem replayCorrect_of_run_sample : sampleReplayed.applied = [sampleFirst, sampleSecond] ∧
    ReplayCorrect sampleRegion sampleInitial sampleReplayed :=
  ⟨by decide +kernel, replayCorrect_of_run sampleRegion_wellFramed sampleInitial_initial
    sampleReplayed_run⟩

end MemoryEngine.LogReplayer
