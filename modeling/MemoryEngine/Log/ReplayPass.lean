import MemoryEngine.Log.Replayer
import Mathlib.Data.List.Forall2

/-! `ReplayLogData` over well-framed segments.

The loops of the replayer work on byte counts.  Over segments that hold whole
items they are a walk along the list of items: `applyItems` is that walk, and
`replayLoop_spec` says that the byte loops compute it, never take a branch that
reports a damaged log, and never take a record for a close marker. -/
namespace MemoryEngine.LogReplayer

open ByteMemory RedoLog List

variable {memory after : Memory} {area : Nat → Prop} {address : Nat} {translate : Nat → Nat}
  {middle : Memory} {consumed rest pending : List Item} {stream : LogStreamState} {view : View}

variable {record : Record}

section Items

variable (translate : Nat → Nat)

/-- The page of a record is one version behind, and its operations decode. -/
def applyRecord (memory : Memory) (record : Record) : Option Memory :=
  if record.pageVersion = getCurrentPageVersion translate memory record.pageGaddr + 1 then
    match processLogRecord translate memory record with
    | (true, memory) =>
        some (setCurrentPageVersion translate memory record.pageGaddr record.pageVersion)
    | (false, _) => none
  else none

def applyItems : Memory → List Item → Option Memory
  | memory, [] => some memory
  | memory, .marker :: items => applyItems memory items
  | memory, .record r :: items =>
      (applyRecord translate memory r).bind fun memory => applyItems memory items

theorem applyItems_append (memory : Memory) (first second : List Item) :
    applyItems translate memory (first ++ second) =
      (applyItems translate memory first).bind fun memory =>
        applyItems translate memory second := by
  induction first generalizing memory with
  | nil => rfl
  | cons item first ih =>
    cases item with
    | record r =>
      simp only [cons_append, applyItems, ih, Option.bind_assoc]
    | marker => simp only [cons_append, applyItems, ih]

/-- Replaying the record changes no byte of `area`. -/
def Avoids (area : Nat → Prop) (record : Record) : Prop :=
  ∀ (memory : Memory) (version address : Nat), area address →
    (processLogRecord translate memory record).2 address = memory address ∧
    setCurrentPageVersion translate memory record.pageGaddr version address = memory address

variable {translate}

theorem applyRecord_eq_some (h : applyRecord translate memory record = some after) :
    record.pageVersion = getCurrentPageVersion translate memory record.pageGaddr + 1 ∧
    (processLogRecord translate memory record).1 = true ∧
    after = setCurrentPageVersion translate (processLogRecord translate memory record).2
      record.pageGaddr record.pageVersion := by
  unfold applyRecord at h
  split at h
  · rename_i hver
    split at h
    · rename_i processed hproc
      rw [hproc]
      exact ⟨hver, rfl, (Option.some.inj h).symm⟩
    · cases h
  · cases h

theorem applyRecord_avoids (havoid : Avoids translate area record)
    (h : applyRecord translate memory record = some after)
    (harea : area address) : after address = memory address := by
  obtain ⟨_, _, rfl⟩ := applyRecord_eq_some h
  rw [(havoid _ _ address harea).2, (havoid memory 0 address harea).1]

theorem applyItems_avoids {items : List Item}
    (havoid : ∀ r ∈ recordsOf items, Avoids translate area r)
    (h : applyItems translate memory items = some after)
    (harea : area address) : after address = memory address := by
  induction items generalizing memory with
  | nil =>
    cases h
    rfl
  | cons item items ih =>
    cases item with
    | marker => exact ih havoid h
    | record r =>
      obtain ⟨middle, hfirst, hrest⟩ := Option.bind_eq_some_iff.mp h
      rw [ih (fun r' hr' => havoid r' (by simp [hr'])) hrest]
      exact applyRecord_avoids (havoid r (by simp)) hfirst harea

end Items

variable {exit : ScanExit}

section Scan

variable {translate : Nat → Nat} {logBuffer bytesToProcess : Nat}

theorem scan_marker {fuel processed : Nat} (hlt : processed < bytesToProcess)
    (hbyte : memory (logBuffer + processed) = segmentCloseMarker) :
    scan translate logBuffer bytesToProcess (fuel + 1) processed memory =
      ⟨memory, processed + 1, [], .marker⟩ := by
  simp [scan, hlt, hbyte]

theorem scan_record {fuel processed : Nat}
    (hbytes : read memory (logBuffer + processed) record.bytes.length = record.bytes)
    (hfit : processed + record.bytes.length ≤ bytesToProcess) :
    scan translate logBuffer bytesToProcess (fuel + 1) processed memory =
      if record.pageVersion ≤ getCurrentPageVersion translate memory record.pageGaddr then
        ⟨memory, processed, [], .stale record⟩
      else if record.pageVersion =
          getCurrentPageVersion translate memory record.pageGaddr + 1 then
        match processLogRecord translate memory record with
        | (true, memory) =>
            let rest := scan translate logBuffer bytesToProcess fuel
              (processed + record.bytes.length)
              (setCurrentPageVersion translate memory record.pageGaddr record.pageVersion)
            { rest with applied := record :: rest.applied }
        | (false, memory) => ⟨memory, processed, [], .failed record⟩
      else ⟨memory, processed, [], .future record⟩ := by
  have hlen := record.bytes_length
  have hlt : processed < bytesToProcess := by
    rw [hlen, recordHeaderSize] at hfit
    omega
  have hbyte : memory (logBuffer + processed) ≠ segmentCloseMarker := by
    rw [firstByte_of_record hbytes]
    decide
  have hhdr : ¬ processed + recordHeaderSize > bytesToProcess := by omega
  have hrec : ¬ processed + record.bytes.length > bytesToProcess := by omega
  have hmagic : ¬ (readHeader memory (logBuffer + processed)).magic ≠ recordMagic := by
    rw [readHeader_of_bytes hbytes]
    exact not_not_intro rfl
  have hpayload : recordHeaderSize + (readHeader memory (logBuffer + processed)).payloadLen =
      record.bytes.length := by
    rw [readHeader_of_bytes hbytes, hlen]
  rewrite [scan, if_pos hlt, if_neg hbyte, if_neg hhdr, if_neg hmagic, hpayload, if_neg hrec,
    readRecord_of_bytes hbytes]
  rfl

/-- Where a scan over whole items can stop: `rest` is what it did not consume,
and `middle` the memory after the records that it did. -/
inductive ScanStop (translate : Nat → Nat) (middle : Memory) (consumed : List Item) :
    List Item → ScanExit → Memory → Prop
  | exhausted : ScanStop translate middle consumed [] .exhausted middle
  | marker (before rest) (h : consumed = before ++ [.marker]) :
      ScanStop translate middle consumed rest .marker middle
  | stale (r rest) (h : r.pageVersion ≤ getCurrentPageVersion translate middle r.pageGaddr) :
      ScanStop translate middle consumed (.record r :: rest) (.stale r) middle
  | failed (r rest after) (h : processLogRecord translate middle r = (false, after)) :
      ScanStop translate middle consumed (.record r :: rest) (.failed r) after
  | future (r rest) (h : getCurrentPageVersion translate middle r.pageGaddr + 1 < r.pageVersion) :
      ScanStop translate middle consumed (.record r :: rest) (.future r) middle

theorem ScanStop.cons {middle after : Memory} {consumed rest : List Item}
    (item : Item) (h : ScanStop translate middle consumed rest exit after) :
    ScanStop translate middle (item :: consumed) rest exit after := by
  cases h with
  | exhausted => exact .exhausted
  | marker before rest h => exact .marker (item :: before) rest (by rw [h]; rfl)
  | stale r rest h => exact .stale r rest h
  | failed r rest after h => exact .failed r rest after h
  | future r rest h => exact .future r rest h

/-- Markers are counted: a scan that stops at one has consumed exactly one. -/
def markerCount (items : List Item) : Nat := items.count .marker

@[simp] theorem markerCount_append (first second : List Item) :
    markerCount (first ++ second) = markerCount first + markerCount second :=
  count_append

theorem scan_spec {area : Nat → Prop} (items : List Item) :
    ∀ (fuel processed : Nat) (memory : Memory),
      items.length ≤ fuel →
      read memory (logBuffer + processed) (byteSize items) = bytesOf items →
      processed + byteSize items = bytesToProcess →
      (∀ i, i < bytesToProcess → area (logBuffer + i)) →
      (∀ r ∈ recordsOf items, Avoids translate area r) →
      ∃ consumed rest middle,
        items = consumed ++ rest ∧
        (scan translate logBuffer bytesToProcess fuel processed memory).applied =
          recordsOf consumed ∧
        (scan translate logBuffer bytesToProcess fuel processed memory).processed =
          processed + byteSize consumed ∧
        applyItems translate memory consumed = some middle ∧
        markerCount consumed =
          (if (scan translate logBuffer bytesToProcess fuel processed memory).exit = .marker
            then 1 else 0) ∧
        ScanStop translate middle consumed rest
          (scan translate logBuffer bytesToProcess fuel processed memory).exit
          (scan translate logBuffer bytesToProcess fuel processed memory).memory := by
  induction items with
  | nil =>
    intro fuel processed memory _ _ hsize _ _
    have hdone : ¬ processed < bytesToProcess := by simp at hsize; omega
    have hscan : scan translate logBuffer bytesToProcess fuel processed memory =
        ⟨memory, processed, [], .exhausted⟩ := by
      cases fuel <;> simp [scan, hdone]
    rw [hscan]
    exact ⟨[], [], memory, rfl, rfl, rfl, rfl, rfl, .exhausted⟩
  | cons item items ih =>
    intro fuel processed memory hfuel hread hsize harea havoid
    obtain ⟨fuel, rfl⟩ : ∃ n, fuel = n + 1 := ⟨fuel - 1, by simp at hfuel; omega⟩
    have hitem := read_item hread
    have htail := read_items_tail hread
    rw [byteSize_cons] at hsize
    cases item with
    | marker =>
      have hbyte := firstByte_of_marker hitem
      have hlt : processed < bytesToProcess := by simp [Item.bytes] at hsize; omega
      rw [scan_marker hlt hbyte]
      exact ⟨[.marker], items, memory, rfl, rfl, rfl, rfl, rfl, .marker [] items rfl⟩
    | record r =>
      have hfit : processed + r.bytes.length ≤ bytesToProcess := by
        simp only [Item.bytes] at hsize
        omega
      rw [scan_record hitem hfit]
      split
      · rename_i hstale
        exact ⟨[], .record r :: items, memory, rfl, rfl, rfl, rfl, rfl, .stale r items hstale⟩
      · rename_i hstale
        split
        · rename_i hnext
          split
          · rename_i processedMemory hproc
            have happly : applyRecord translate memory r = some
                (setCurrentPageVersion translate processedMemory r.pageGaddr r.pageVersion) := by
              simp [applyRecord, hnext, hproc]
            have hkeep : AgreeOn
                (setCurrentPageVersion translate processedMemory r.pageGaddr r.pageVersion)
                memory (logBuffer + processed + r.bytes.length) (byteSize items) := by
              intro address hge hlt
              have ha := harea (address - logBuffer) (by simp only [Item.bytes] at hsize; omega)
              rw [show logBuffer + (address - logBuffer) = address by omega] at ha
              exact applyRecord_avoids (havoid r (by simp)) happly ha
            obtain ⟨consumed, rest, middle, hsplit, happl, hprocd, hrun, hcount, hstop⟩ :=
              ih fuel (processed + r.bytes.length)
                (setCurrentPageVersion translate processedMemory r.pageGaddr r.pageVersion)
                (by simpa using hfuel)
                (by
                  rw [← Nat.add_assoc, read_congr hkeep]
                  exact htail)
                (by simp only [Item.bytes] at hsize; omega) harea
                (fun r' hr' => havoid r' (by simp [hr']))
            refine ⟨.record r :: consumed, rest, middle, by rw [hsplit]; rfl, ?_, ?_, ?_, ?_,
              hstop.cons _⟩
            · simp [happl]
            · simp only [hprocd, byteSize_cons, Item.bytes]
              omega
            · simp only [applyItems, happly, Option.bind_some, hrun]
            · simpa [markerCount] using hcount
          · rename_i processedMemory hproc
            exact ⟨[], .record r :: items, memory, rfl, rfl, rfl, rfl, rfl,
              .failed r items processedMemory hproc⟩
        · rename_i hnext
          exact ⟨[], .record r :: items, memory, rfl, rfl, rfl, rfl, rfl,
            .future r items (by omega)⟩

end Scan

structure Holds (memory : Memory) (segment : LogSegment) (items : List Item) : Prop where
  length : segment.receivedLength = byteSize items
  bytes : read memory segment.physicalPtr (byteSize items) = bytesOf items

/-- `area` covers the received bytes of every segment. -/
def Covers (area : Nat → Prop) (segments : List LogSegment) : Prop :=
  ∀ segment ∈ segments, ∀ i, i < segment.receivedLength → area (segment.physicalPtr + i)

theorem Holds.congr {segment : LogSegment} {items : List Item} (h : Holds memory segment items)
    (hkeep : ∀ i, i < segment.receivedLength → after (segment.physicalPtr + i) = memory
      (segment.physicalPtr + i)) : Holds after segment items := by
  refine ⟨h.length, ?_⟩
  rw [← h.bytes]
  apply read_congr
  intro address hge hlt
  have hlen := h.length
  have hk := hkeep (address - segment.physicalPtr) (by omega)
  rwa [show segment.physicalPtr + (address - segment.physicalPtr) = address by omega] at hk

variable {segments : List LogSegment} {itemss : List (List Item)}

theorem forall₂_holds_congr (area : Nat → Prop)
    (h : List.Forall₂ (Holds memory) segments itemss) (hcover : Covers area segments)
    (hkeep : ∀ address, area address → after address = memory address) :
    List.Forall₂ (Holds after) segments itemss := by
  induction h with
  | nil => exact .nil
  | cons hhead _ ih =>
    refine .cons ?_ (ih fun segment hseg => hcover segment (by simp [hseg]))
    exact hhead.congr fun i hi => hkeep _ (hcover _ (by simp) i hi)

theorem findSegment_spec
    (h : List.Forall₂ (Holds memory) segments itemss) :
    ∀ (done todo : List Item) (accumulated : Nat), itemss.flatten = done ++ todo → todo ≠ [] →
      ∃ segment found first second after,
        findSegment segments (accumulated + byteSize done) accumulated = some (segment, found) ∧
        segment ∈ segments ∧ Holds memory segment (first ++ second) ∧ second ≠ [] ∧
        todo = second ++ after ∧ accumulated + byteSize done = found + byteSize first := by
  induction h with
  | nil =>
    intro done todo accumulated hflat htodo
    simp at hflat
    exact absurd hflat.2 htodo
  | @cons segment items segments itemss hhead _ ih =>
    intro done todo accumulated hflat htodo
    by_cases hlt : byteSize done < byteSize items
    · have hfound : findSegment (segment :: segments) (accumulated + byteSize done) accumulated =
          some (segment, accumulated) := by
        simp [findSegment, hhead.length, hlt]
      rcases append_eq_append_iff.mp hflat with ⟨extra, hdone, _⟩ | ⟨second, hitems, htail⟩
      · rw [hdone, byteSize_append] at hlt
        omega
      · refine ⟨segment, accumulated, done, second, itemss.flatten, hfound, by simp, ?_, ?_,
          htail, rfl⟩
        · rw [← hitems]
          exact hhead
        · rintro rfl
          simp only [append_nil] at hitems
          rw [hitems] at hlt
          exact absurd hlt (lt_irrefl _)
    · obtain ⟨extra, hdone, hrest⟩ : ∃ extra, done = items ++ extra ∧
          itemss.flatten = extra ++ todo := by
        rcases append_eq_append_iff.mp hflat with ⟨extra, hd, hr⟩ | ⟨second, hitems, hr⟩
        · exact ⟨extra, hd, hr⟩
        · have hsnd : second = [] := by
            rw [← byteSize_eq_zero]
            rw [hitems, byteSize_append] at hlt
            omega
          subst hsnd
          exact ⟨[], by simpa using hitems.symm, by simpa using hr.symm⟩
      obtain ⟨found, acc, first, second, after, hfind, hmem, hholds, hne, htodo', hoffset⟩ :=
        ih extra todo (accumulated + byteSize items) hrest htodo
      have hsum : accumulated + byteSize done = accumulated + byteSize items + byteSize extra := by
        rw [hdone, byteSize_append]
        omega
      refine ⟨found, acc, first, second, after, ?_, by simp [hmem], hholds, hne, htodo', ?_⟩
      · rw [findSegment, hhead.length, if_neg (by omega), hsum]
        exact hfind
      · omega

/-- Where a pass can stop.  The number is what it added to `replayed_log_length`: a pass that is
aborted drops its last turn, which has not read a close marker. -/
inductive PassStop (translate : Nat → Nat) (middle : Memory) (consumed : List Item) :
    List Item → PassExit → Memory → Nat → Prop
  | caughtUp : PassStop translate middle consumed [] .caughtUp middle (byteSize consumed)
  | future (r rest) (h : getCurrentPageVersion translate middle r.pageGaddr + 1 < r.pageVersion) :
      PassStop translate middle consumed (.record r :: rest) .future middle (byteSize consumed)
  | stale (r rest stored turn) (hstor : consumed = stored ++ turn) (hturn : markerCount turn = 0)
      (h : r.pageVersion ≤ getCurrentPageVersion translate middle r.pageGaddr) :
      PassStop translate middle consumed (.record r :: rest) .aborted middle (byteSize stored)
  | failed (r rest stored turn) (hstor : consumed = stored ++ turn) (hturn : markerCount turn = 0)
      (after) (h : processLogRecord translate middle r = (false, after)) :
      PassStop translate middle consumed (.record r :: rest) .aborted after (byteSize stored)

theorem PassStop.append {exit : PassExit} {stored : Nat} (first : List Item)
    (h : PassStop translate middle consumed rest exit after stored) :
    PassStop translate middle (first ++ consumed) rest exit after (byteSize first + stored) := by
  cases h with
  | caughtUp =>
    rw [← byteSize_append]
    exact .caughtUp
  | future r rest h =>
    rw [← byteSize_append]
    exact .future r rest h
  | stale r rest stored turn hstor hturn h =>
    rw [← byteSize_append]
    exact .stale r rest _ turn (by rw [hstor, append_assoc]) hturn h
  | failed r rest stored turn hstor hturn after h =>
    rw [← byteSize_append]
    exact .failed r rest _ turn (by rw [hstor, append_assoc]) hturn after h

/-- What a pass over the items `pending` does. -/
structure PassSpec (translate : Nat → Nat) (memory : Memory) (pending : List Item)
    (replayed : Nat) (pass : Pass) (consumed rest : List Item) (middle : Memory) : Prop where
  split : pending = consumed ++ rest
  applied : pass.applied = recordsOf consumed
  run : applyItems translate memory consumed = some middle
  markers : pass.exits.count .marker = markerCount consumed
  wellFormed : ∀ exit ∈ pass.exits, ¬ exit.Malformed
  stop : ∃ stored, pass.replayed = replayed + stored ∧
    PassStop translate middle consumed rest pass.exit pass.memory stored

section Loop

variable {translate : Nat → Nat} {stream : LogStreamState} {available : Nat}
  {area : Nat → Prop} {itemss : List (List Item)}

/-- The bytes a turn looks at are whole items: what is left of the segment, or
what is left of the available bytes. -/
theorem batch_of_append_eq {later second after : List Item}
    (h : pending ++ later = second ++ after) (hpend : pending ≠ []) (hsnd : second ≠ []) :
    ∃ batch left right, batch ≠ [] ∧ pending = batch ++ left ∧ second = batch ++ right ∧
      min (byteSize pending) (byteSize second) = byteSize batch := by
  rcases append_eq_append_iff.mp h with ⟨right, hright, _⟩ | ⟨left, hleft, _⟩
  · refine ⟨pending, [], right, hpend, by simp, hright, ?_⟩
    rw [hright, byteSize_append]
    omega
  · refine ⟨second, left, [], hsnd, hleft, by simp, ?_⟩
    rw [hleft, byteSize_append]
    omega

theorem length_le_byteSize (items : List Item) : items.length ≤ byteSize items := by
  induction items with
  | nil => simp
  | cons item items ih =>
    have := item.bytes_length_pos
    rw [length_cons, byteSize_cons]
    omega

theorem replayTurn_spec (hcover : Covers area stream.segments) {total replayed : Nat}
    {done later : List Item} (hsegs : List.Forall₂ (Holds memory) stream.segments itemss)
    (hflat : itemss.flatten = done ++ (pending ++ later))
    (hrepl : replayed = stream.recycledPrefixBytes + byteSize done)
    (htotal : total + byteSize pending = available) (hne : pending ≠ [])
    (havoid : ∀ r ∈ recordsOf pending, Avoids translate area r) :
    ∃ turn consumed rest left middle,
      replayTurn translate stream available total replayed memory = some turn ∧
      pending = consumed ++ (rest ++ left) ∧ consumed ++ rest ≠ [] ∧
      turn.applied = recordsOf consumed ∧ turn.processed = byteSize consumed ∧
      applyItems translate memory consumed = some middle ∧
      markerCount consumed = (if turn.exit = .marker then 1 else 0) ∧
      ScanStop translate middle consumed rest turn.exit turn.memory := by
  obtain ⟨segment, found, first, second, after, hfind, hmem, hholds, hsecondNe, htodo, hoffset⟩ :=
    findSegment_spec hsegs done (pending ++ later) 0 hflat (by simp [hne])
  rw [Nat.zero_add] at hfind hoffset
  obtain ⟨batch, left, right, hbatchNe, hpend, hsnd, hmin⟩ :=
    batch_of_append_eq htodo hne hsecondNe
  have hoff : replayed - stream.recycledPrefixBytes = byteSize done := by omega
  have hinseg : byteSize done - found = byteSize first := by omega
  have hremaining : segment.receivedLength - byteSize first = byteSize second := by
    rw [hholds.length, byteSize_append]
    omega
  have havail : available - total = byteSize pending := by omega
  have hread : read memory (segment.physicalPtr + byteSize first + 0) (byteSize batch) =
      bytesOf batch := by
    have hsecondRead := read_items_right hholds.bytes
    rw [hsnd] at hsecondRead
    exact read_items_left hsecondRead
  have harea : ∀ i, i < byteSize batch → area (segment.physicalPtr + byteSize first + i) := by
    intro i hi
    rw [Nat.add_assoc]
    apply hcover segment hmem
    omega
  have hbatchAvoid : ∀ r ∈ recordsOf batch, Avoids translate area r := by
    intro r hr
    apply havoid r
    rw [hpend, recordsOf_append]
    exact mem_append_left _ hr
  obtain ⟨consumed, rest, middle, hsplit, happl, hprocd, hrun, hcount, hstop⟩ :=
    @scan_spec translate _ _ area batch (byteSize batch) 0 memory (length_le_byteSize batch)
      hread (by simp) harea hbatchAvoid
  refine ⟨_, consumed, rest, left, middle, ?_, ?_, by rwa [← hsplit], happl,
    by rw [hprocd, Nat.zero_add], hrun, hcount, hstop⟩
  · simp only [replayTurn, hoff, hfind, hinseg, hremaining, havail, hmin]
  · rw [hpend, hsplit, append_assoc]

theorem PassSpec.turn {first : List Item} {replayed : Nat} {pass : Pass}
    (hrun : applyItems translate memory first = some after) (hexit : ¬ exit.Malformed)
    (hmarkers : markerCount first = if exit = .marker then 1 else 0)
    (h : PassSpec translate after pending (replayed + byteSize first) pass consumed rest middle) :
    PassSpec translate memory (first ++ pending) replayed
      { pass with applied := recordsOf first ++ pass.applied, exits := exit :: pass.exits }
      (first ++ consumed) rest middle := by
  refine ⟨?_, ?_, ?_, ?_, ?_, ?_⟩
  · rw [h.split, append_assoc]
  · simp [h.applied]
  · rw [applyItems_append, hrun, Option.bind_some, h.run]
  · simp only [count_cons, h.markers, beq_iff_eq, markerCount_append, hmarkers]
    omega
  · intro e he
    rcases mem_cons.mp he with rfl | he
    · exact hexit
    · exact h.wellFormed e he
  · obtain ⟨stored, hrepl, hstop⟩ := h.stop
    exact ⟨byteSize first + stored, by simp only [hrepl]; omega, hstop.append first⟩

theorem PassSpec.last {replayed stored : Nat} {passExit : PassExit}
    (hrun : applyItems translate memory consumed = some middle) (hexit : ¬ exit.Malformed)
    (hmark : exit ≠ .marker) (hmarkers : markerCount consumed = if exit = .marker then 1 else 0)
    (hstop : PassStop translate middle consumed rest passExit after stored) :
    PassSpec translate memory (consumed ++ rest) replayed
      ⟨after, replayed + stored, recordsOf consumed, [exit], passExit⟩ consumed rest middle := by
  refine ⟨rfl, rfl, hrun, ?_, ?_, stored, rfl, hstop⟩
  · rw [hmarkers, if_neg hmark, count_singleton, if_neg (by simpa using hmark)]
  · intro e he
    rw [mem_singleton.mp he]
    exact hexit

/-- `ReplayLogData` over whole items, from any item boundary: it walks along the
items until it has used all the available bytes or meets a record that is not
the next version of its page. -/
theorem replayLoop_spec (hcover : Covers area stream.segments) :
    ∀ (fuel total replayed : Nat) (memory : Memory) (done pending later : List Item),
      List.Forall₂ (Holds memory) stream.segments itemss →
      itemss.flatten = done ++ (pending ++ later) →
      replayed = stream.recycledPrefixBytes + byteSize done →
      total + byteSize pending = available →
      byteSize pending < fuel →
      (∀ r ∈ recordsOf pending, Avoids translate area r) →
      ∃ consumed rest middle,
        PassSpec translate memory pending replayed
          (replayLoop translate stream available fuel total replayed memory)
          consumed rest middle := by
  intro fuel
  induction fuel with
  | zero =>
    intro total replayed memory done pending later _ _ _ _ hfuel
    exact absurd hfuel (Nat.not_lt_zero _)
  | succ fuel ih =>
    intro total replayed memory done pending later hsegs hflat hrepl htotal hfuel havoid
    by_cases hempty : pending = []
    · subst hempty
      have hdone : ¬ total < available := by simp at htotal; omega
      refine ⟨[], [], memory, ?_⟩
      rw [replayLoop, if_neg hdone]
      exact ⟨rfl, rfl, rfl, rfl, by simp, 0, by simp, .caughtUp⟩
    · have hlt : total < available := by
        have := byteSize_pos hempty
        omega
      obtain ⟨turn, consumed, rest, left, middle, hturn, hsplit, hnonempty, happl, hprocd,
        hrun, hcount, hstop⟩ :=
        replayTurn_spec hcover hsegs hflat hrepl htotal hempty havoid
      -- the two exits that go on to the next turn
      have hcontinue : consumed ≠ [] → ∀ exit : ScanExit, ¬ exit.Malformed →
          markerCount consumed = (if exit = .marker then 1 else 0) →
          ∃ consumed' rest' middle', PassSpec translate memory pending replayed
            { replayLoop translate stream available fuel (total + byteSize consumed)
                (replayed + byteSize consumed) middle with
              applied := recordsOf consumed ++ (replayLoop translate stream available fuel
                (total + byteSize consumed) (replayed + byteSize consumed) middle).applied
              exits := exit :: (replayLoop translate stream available fuel
                (total + byteSize consumed) (replayed + byteSize consumed) middle).exits }
            consumed' rest' middle' := by
        intro hne exit hexit hmarkers
        have hkeep : ∀ address, area address → middle address = memory address :=
          fun address ha => applyItems_avoids
            (fun r hr => havoid r (by rw [hsplit, recordsOf_append]; simp [hr])) hrun ha
        have hpos := byteSize_pos hne
        have hsum : byteSize pending = byteSize consumed + byteSize (rest ++ left) := by
          rw [hsplit, byteSize_append]
        obtain ⟨consumed', rest', middle', hspec⟩ :=
          ih (total + byteSize consumed) (replayed + byteSize consumed) middle
            (done ++ consumed) (rest ++ left) later (forall₂_holds_congr area hsegs hcover hkeep)
            (by rw [hflat, hsplit]; simp [append_assoc])
            (by rw [hrepl, byteSize_append]; omega) (by omega) (by omega)
            (fun r hr => havoid r (by
              rw [hsplit, recordsOf_append]
              exact mem_append_right _ hr))
        refine ⟨consumed ++ consumed', rest', middle', ?_⟩
        rw [hsplit]
        exact hspec.turn hrun hexit hmarkers
      rw [replayLoop, if_pos hlt, hturn]
      obtain ⟨turnMemory, processed, applied, exit⟩ := turn
      subst happl hprocd
      cases hstop with
      | exhausted =>
        exact hcontinue (by simpa using hnonempty) .exhausted
          (by simp [ScanExit.Malformed]) hcount
      | marker before rest h =>
        exact hcontinue (by simp [h]) .marker (by simp [ScanExit.Malformed]) hcount
      | stale r rest h =>
        refine ⟨consumed, .record r :: (rest ++ left), turnMemory, ?_⟩
        rw [hsplit]
        exact .last hrun (by simp [ScanExit.Malformed]) (by simp) hcount
          (.stale r _ [] consumed rfl hcount h)
      | failed r rest after h =>
        refine ⟨consumed, .record r :: (rest ++ left), middle, ?_⟩
        rw [hsplit]
        exact .last hrun (by simp [ScanExit.Malformed]) (by simp) hcount
          (.failed r _ [] consumed rfl hcount turnMemory h)
      | future r rest h =>
        refine ⟨consumed, .record r :: (rest ++ left), turnMemory, ?_⟩
        rw [hsplit]
        exact .last hrun (by simp [ScanExit.Malformed]) (by simp) hcount (.future r _ h)

end Loop

/-! ### Streams as item lists -/

/-- The items of a stream: those of recycled segments, those of each live
segment, and how many of the latter have been replayed. -/
structure View where
  recycled : List Item
  live : List (List Item)
  done : List Item

def View.received (view : View) : List Item := view.recycled ++ view.live.flatten
def View.replayed (view : View) : List Item := view.recycled ++ view.done

/-- `view` describes the stream and the bytes of its segments. -/
structure Views (memory : Memory) (stream : LogStreamState) (view : View) : Prop where
  segments : List.Forall₂ (Holds memory) stream.segments view.live
  prefixBytes : stream.recycledPrefixBytes = byteSize view.recycled
  receivedBytes : stream.receivedLogLength = byteSize view.received
  replayedBytes : stream.replayedLogLength = byteSize view.replayed
  donePrefix : view.done <+: view.live.flatten

theorem Views.congr (h : Views memory stream view) (hcover : Covers area stream.segments)
    (hkeep : ∀ address, area address → after address = memory address) : Views after stream view :=
  { h with segments := forall₂_holds_congr area h.segments hcover hkeep }

theorem prefix_of_byteSize_le {first second items : List Item} (hfirst : first <+: items)
    (hsnd : second <+: items) (hsize : byteSize first ≤ byteSize second) : first <+: second := by
  rcases prefix_or_prefix_of_prefix hfirst hsnd with h | ⟨extra, h⟩
  · exact h
  · have hextra : extra = [] := by
      rw [← byteSize_eq_zero]
      rw [← h, byteSize_append] at hsize
      omega
    subst hextra
    exact ⟨[], by rw [← h, append_nil, append_nil]⟩

theorem canRecycle_le {segment : LogSegment} {recyclable : Nat}
    (h : canRecycle memory segment recyclable = true) : segment.receivedLength ≤ recyclable := by
  unfold canRecycle at h
  split at h
  · cases h
  · omega

@[simp] theorem totalReceived_append (first second : List LogSegment) :
    totalReceived (first ++ second) = totalReceived first + totalReceived second := by
  simp [totalReceived]

theorem totalReceived_holds
    (h : List.Forall₂ (Holds memory) segments itemss) :
    totalReceived segments = byteSize itemss.flatten := by
  induction h with
  | nil => rfl
  | cons hhead _ ih =>
    rw [flatten_cons, byteSize_append, ← ih, ← hhead.length]
    simp [totalReceived]

theorem recyclePrefix_spec (memory : Memory) (segments : List LogSegment) (recyclable : Nat) :
    ∃ kept, segments = recyclePrefix memory segments recyclable ++ kept ∧
      (segments ≠ [] → kept ≠ []) ∧
      totalReceived (recyclePrefix memory segments recyclable) ≤ recyclable := by
  induction segments generalizing recyclable with
  | nil => exact ⟨[], rfl, id, Nat.zero_le _⟩
  | cons segment rest ih =>
    cases rest with
    | nil => exact ⟨[segment], rfl, id, Nat.zero_le _⟩
    | cons next rest =>
      rw [recyclePrefix]
      split
      · rename_i hcan
        obtain ⟨kept, hsplit, hkept, htotal⟩ := ih (recyclable - segment.receivedLength)
        have hroom := canRecycle_le hcan
        refine ⟨kept, by rw [cons_append, ← hsplit], fun _ => hkept (by simp), ?_⟩
        simp only [totalReceived, map_cons, sum_cons] at htotal ⊢
        omega
      · exact ⟨_, rfl, id, Nat.zero_le _⟩

/-- What `RecycleSegments` does, whatever the memory holds. -/
structure Recycles (stream after : LogStreamState) (recycled : List LogSegment) : Prop where
  segments : stream.segments = recycled ++ after.segments
  last : stream.segments ≠ [] → after.segments ≠ []
  total : totalReceived recycled ≤ stream.replayedLogLength - stream.recycledPrefixBytes
  same : after = { stream with
    segments := after.segments
    recycledPrefixBytes := stream.recycledPrefixBytes + totalReceived recycled }

theorem recycleSegments_recycles (memory : Memory) (stream : LogStreamState) :
    Recycles stream (recycleSegments memory stream).1 (recycleSegments memory stream).2 := by
  unfold recycleSegments
  split
  · exact ⟨rfl, id, Nat.zero_le _, rfl⟩
  · obtain ⟨kept, hsplit, hkept, htotal⟩ := recyclePrefix_spec memory stream.segments
      (stream.replayedLogLength - stream.recycledPrefixBytes)
    have hdrop := congrArg (List.drop (recyclePrefix memory stream.segments
      (stream.replayedLogLength - stream.recycledPrefixBytes)).length) hsplit
    rw [drop_left] at hdrop
    refine ⟨?_, ?_, htotal, rfl⟩
    · dsimp only
      rw [hdrop, ← hsplit]
    · dsimp only
      rwa [hdrop]

theorem Recycles.views {next : LogStreamState} {recycled : List LogSegment}
    (hrecyc : Recycles stream next recycled) (h : Views memory stream view) :
    ∃ dropped kept done,
      view.live = dropped ++ kept ∧ view.done = dropped.flatten ++ done ∧
      recycled.length = dropped.length ∧
      Views memory next ⟨view.recycled ++ dropped.flatten, kept, done⟩ := by
  have hheld := h.segments.flip
  rw [hrecyc.segments] at hheld
  obtain ⟨dropped, kept, hitems, hdropped, hkept⟩ : ∃ dropped kept, view.live = dropped ++ kept ∧
      List.Forall₂ (Holds memory) recycled dropped ∧
      List.Forall₂ (Holds memory) next.segments kept :=
    ⟨_, _, (take_append_drop recycled.length _).symm,
      (forall₂_take_append _ _ _ hheld).flip, (forall₂_drop_append _ _ _ hheld).flip⟩
  have htotal := totalReceived_holds hdropped
  have hbytes : stream.replayedLogLength - stream.recycledPrefixBytes = byteSize view.done := by
    rw [h.replayedBytes, h.prefixBytes, View.replayed, byteSize_append]
    omega
  obtain ⟨done, hdone⟩ : dropped.flatten <+: view.done := by
    apply prefix_of_byteSize_le _ h.donePrefix
    · rw [← htotal, ← hbytes]
      exact hrecyc.total
    · rw [hitems, flatten_append]
      exact prefix_append _ _
  refine ⟨dropped, kept, done, hitems, hdone.symm, hdropped.length_eq, hkept, ?_, ?_, ?_, ?_⟩
  · rw [hrecyc.same, htotal, byteSize_append]
    exact congrArg (· + _) h.prefixBytes
  · rw [hrecyc.same, View.received, append_assoc, ← flatten_append, ← hitems]
    exact h.receivedBytes
  · rw [hrecyc.same, View.replayed, append_assoc, hdone]
    exact h.replayedBytes
  · have hpre := h.donePrefix
    rw [← hdone, hitems, flatten_append] at hpre
    exact (prefix_append_right_inj _).mp hpre

theorem toChunks_go_flatten {α : Type} (n : Nat) (l : List α) :
    ∀ (batch : Array α) (batches : Array (List α)),
      (toChunks.go n l batch batches).flatten =
        batches.toList.flatten ++ batch.toList ++ l := by
  induction l with
  | nil =>
    intro batch batches
    simp [toChunks.go]
  | cons x l ih =>
    intro batch batches
    rw [toChunks.go]
    split
    · rw [ih]
      simp
    · rw [ih]
      simp

theorem toChunks_flatten {α : Type} (n : Nat) (l : List α) : (l.toChunks n).flatten = l := by
  cases l with
  | nil => simp [toChunks]
  | cons x l =>
    cases n with
    | zero => simp [toChunks]
    | succ n =>
      rw [toChunks, toChunks_go_flatten]
      · simp
      · simp

theorem sendSegmentRecycleRPC_addrs (stream : LogStreamState) (recycled : List LogSegment) :
    (sendSegmentRecycleRPC stream recycled).flatMap RecycleMessage.segmentAddrs =
      recycled.map LogSegment.segmentAddr := by
  rw [sendSegmentRecycleRPC, flatMap_map]
  exact flatMap_id'.trans (toChunks_flatten _ _)

/-! ### A whole call -/

section

variable {exit : PassExit} {size : Nat} (h : PassStop translate middle consumed rest exit after
  size)
include h

theorem PassStop.stored_isPrefix :
    ∃ stored, stored <+: consumed ∧ (∀ turn, consumed = stored ++ turn → markerCount turn = 0) ∧
      size = byteSize stored ∧ (exit ≠ .aborted → stored = consumed) := by
  have hwhole : ∀ turn, consumed = consumed ++ turn → markerCount turn = 0 := by
    intro turn hturn
    rw [self_eq_append_right.mp hturn]
    rfl
  cases h with
  | caughtUp => exact ⟨consumed, prefix_rfl, hwhole, rfl, fun _ => rfl⟩
  | future r rest h => exact ⟨consumed, prefix_rfl, hwhole, rfl, fun _ => rfl⟩
  | stale r rest stored turn hstor hturn h | failed r rest stored turn hstor hturn after h =>
    refine ⟨stored, ⟨turn, hstor.symm⟩, fun other hother => ?_, rfl, fun h => absurd rfl h⟩
    rw [hstor, append_cancel_left_eq] at hother
    exact hother ▸ hturn

theorem PassStop.avoids (havoid : ∀ r ∈ recordsOf rest, Avoids translate area r)
    (harea : area address) : after address = middle address := by
  cases h with
  | caughtUp => rfl
  | future r rest h => rfl
  | stale r rest stored turn hstor hturn h => rfl
  | failed r rest stored turn hstor hturn after h =>
    have hkeep := (havoid r (by simp) middle 0 address harea).1
    rwa [h] at hkeep

end

/-- What a call of `ReplayLogData` does to a stream described by `view`, when
the available bytes are the items `pending`.  `stored` are the items by which
`replayed_log_length` advances and `dropped` the recycled segments. -/
structure ReplaySpec (translate : Nat → Nat) (memory : Memory) (stream : LogStreamState)
    (view : View) (pending : List Item) (result : ReplayResult)
    (consumed rest stored : List Item) (middle : Memory) (dropped : List (List Item))
    (after : View) : Prop where
  split : pending = consumed ++ rest
  applied : result.applied = recordsOf consumed
  run : applyItems translate memory consumed = some middle
  markers : result.exits.count .marker = markerCount consumed
  wellFormed : ∀ exit ∈ result.exits, ¬ exit.Malformed
  stop : PassStop translate middle consumed rest result.exit result.memory (byteSize stored)
  storedPrefix : stored <+: consumed
  lastTurn : ∀ turn, consumed = stored ++ turn → markerCount turn = 0
  storedAll : result.exit ≠ .aborted → stored = consumed
  views : Views result.memory result.stream after
  received : after.received = view.received
  replayed : after.replayed = view.replayed ++ stored
  live : view.live = dropped ++ after.live
  recycled : after.recycled = view.recycled ++ dropped.flatten
  segments : stream.segments = result.recycled ++ result.stream.segments
  droppedLength : result.recycled.length = dropped.length
  lastKept : stream.segments ≠ [] → result.stream.segments ≠ []
  computeNodeId : result.stream.computeNodeId = stream.computeNodeId
  logicalRegionId : result.stream.logicalRegionId = stream.logicalRegionId

theorem ReplaySpec.keeps {after : View} {stored : List Item}
    {result : ReplayResult} {dropped : List (List Item)}
    (h : ReplaySpec translate memory stream view pending result consumed rest stored middle
      dropped after)
    (havoid : ∀ r ∈ recordsOf pending, Avoids translate area r)
    (harea : area address) : result.memory address = memory address := by
  rw [h.split, recordsOf_append] at havoid
  rw [h.stop.avoids (fun r hr => havoid r (mem_append_right _ hr)) harea]
  exact applyItems_avoids (fun r hr => havoid r (mem_append_left _ hr)) h.run harea

theorem replayLogData_spec {later : List Item}
    (hview : Views memory stream view) (hcover : Covers area stream.segments)
    (hpend : view.live.flatten = view.done ++ (pending ++ later))
    (havoid : ∀ r ∈ recordsOf pending, Avoids translate area r) :
    ∃ consumed rest stored middle dropped after,
      ReplaySpec translate memory stream view pending
        (replayLogData translate stream memory (byteSize pending))
        consumed rest stored middle dropped after := by
  have hrepl : stream.replayedLogLength =
      stream.recycledPrefixBytes + byteSize view.done := by
    rw [hview.replayedBytes, hview.prefixBytes, View.replayed, byteSize_append]
  obtain ⟨consumed, rest, middle, hpass⟩ :=
    replayLoop_spec hcover (byteSize pending + 1) 0 stream.replayedLogLength memory view.done
      pending later hview.segments hpend hrepl (Nat.zero_add _) (Nat.lt_succ_self _) havoid
  obtain ⟨size, hsize, hstop⟩ := hpass.stop
  obtain ⟨stored, hstor, hlast, rfl, hall⟩ := hstop.stored_isPrefix
  unfold replayLogData
  generalize replayLoop translate stream (byteSize pending) (byteSize pending + 1) 0
    stream.replayedLogLength memory = pass at hpass hsize hstop hall ⊢
  have hkeep : ∀ address, area address → pass.memory address = memory address := by
    intro address harea
    rw [hstop.avoids (fun r hr => havoid r (by
        rw [hpass.split, recordsOf_append]
        exact mem_append_right _ hr)) harea]
    exact applyItems_avoids (fun r hr => havoid r (by
        rw [hpass.split, recordsOf_append]
        exact mem_append_left _ hr)) hpass.run harea
  -- the stream after the loop, before any segment is recycled
  have hviews : Views pass.memory { stream with replayedLogLength := pass.replayed }
      ⟨view.recycled, view.live, view.done ++ stored⟩ := by
    have hbase := hview.congr hcover hkeep
    refine { hbase with replayedBytes := ?_, donePrefix := ?_ }
    · simp only [hsize, hview.replayedBytes, View.replayed, byteSize_append]
      omega
    · rw [hpend, hpass.split]
      obtain ⟨tail, rfl⟩ := hstor
      exact ⟨tail ++ rest ++ later, by simp [append_assoc]⟩
  by_cases hrecycle : pass.exit ≠ .aborted ∧ pass.applied.length > 0
  · have hrecyc := recycleSegments_recycles pass.memory
      { stream with replayedLogLength := pass.replayed }
    obtain ⟨dropped, kept, done, hlive, hdone, hlen, hafter⟩ := hrecyc.views hviews
    simp only [if_pos hrecycle]
    refine ⟨consumed, rest, stored, middle, dropped, _, hpass.split, hpass.applied, hpass.run,
      hpass.markers, hpass.wellFormed, hstop, hstor, hlast, hall, hafter, ?_, ?_, hlive, rfl,
      hrecyc.segments, hlen, hrecyc.last,
      (congrArg LogStreamState.computeNodeId hrecyc.same :),
      (congrArg LogStreamState.logicalRegionId hrecyc.same :)⟩
    · have hlive' : view.live = dropped ++ kept := hlive
      simp only [View.received, hlive', flatten_append, append_assoc]
    · have hdone' : view.done ++ stored = dropped.flatten ++ done := hdone
      simp only [View.replayed, append_assoc, hdone']
  · simp only [if_neg hrecycle]
    refine ⟨consumed, rest, stored, middle, [], _, hpass.split, hpass.applied, hpass.run,
      hpass.markers, hpass.wellFormed, hstop, hstor, hlast, hall, hviews, rfl, ?_, rfl,
      ?_, rfl, rfl, id, rfl, rfl⟩
    · simp only [View.replayed, append_assoc]
    · simp

end MemoryEngine.LogReplayer
