import MemoryEngine.Log.Delivery
import MemoryEngine.Library.VersionedLog

/-! What replayed records do to pages.

A record whose operations stay inside its page changes that page and nothing
else, and what it leaves there depends on that page only.  So the bytes of a
page after any sequence of records are those after its own records alone. -/
namespace MemoryEngine.LogReplayer

open ByteMemory RedoLog List

/-- Two memories agree outside `area`. -/
def AgreeOff (area : Nat → Prop) (left right : Memory) : Prop :=
  ∀ address, ¬ area address → left address = right address

/-- The node hosts the record's page, the payload decodes, and its operations
stay inside the page. -/
structure InPage (translate : Nat → Nat) (pageSize : Nat) (record : Record) : Prop where
  mapped : translate record.pageGaddr ≠ 0
  decodes : (LogCodec.decode record.payload).2 = true
  within : ∀ op ∈ (LogCodec.decode record.payload).1, op.Within pageSize

/-- Pages of one region on one node: every record stays in its page, page frames
do not meet each other, and none meets the memory of log segments. -/
structure PageFrames (translate : Nat → Nat) (pageSize : Nat) (logArea : Nat → Prop)
    (records : List Record) : Prop where
  header : pVersionOffset + 8 ≤ pageSize
  inPage : ∀ r ∈ records, InPage translate pageSize r
  apart : ∀ r ∈ records, ∀ r' ∈ records, r.pageGaddr ≠ r'.pageGaddr →
    translate r.pageGaddr + pageSize ≤ translate r'.pageGaddr ∨
      translate r'.pageGaddr + pageSize ≤ translate r.pageGaddr
  offLog : ∀ r ∈ records, ∀ i, i < pageSize → ¬ logArea (translate r.pageGaddr + i)

def effect (translate : Nat → Nat) (memory : Memory) (record : Record) : Memory :=
  setCurrentPageVersion translate (processLogRecord translate memory record).2
    record.pageGaddr record.pageVersion

def effects (translate : Nat → Nat) (memory : Memory) (records : List Record) : Memory :=
  records.foldl (effect translate) memory

variable {left right : Memory} {record : Record}

section Effects

variable {translate : Nat → Nat} {pageSize : Nat} {record : Record}

theorem DecodedOp.apply_congr {op : LogCodec.DecodedOp} {base : Nat}
    (hop : op.Within pageSize) (h : AgreeOn left right base pageSize) :
    AgreeOn (op.apply base left) (op.apply base right) base pageSize := by
  have hwrite : ∀ offset bytes, AgreeOn (write left (base + offset) bytes)
      (write right (base + offset) bytes) base pageSize := by
    intro offset bytes address hge hlt
    simp only [write]
    rw [h address hge hlt]
  cases op with
  | updateBytes offset len bytes => exact hwrite offset _
  | fillBytes offset len value => exact hwrite offset _
  | setU64LE offset value => exact hwrite offset _
  | memmove dst src len =>
    have hread : read left (base + src) len = read right (base + src) len := by
      apply read_congr
      exact h.mono (by omega) (by simp only [LogCodec.DecodedOp.Within] at hop; omega)
    simp only [LogCodec.DecodedOp.apply, move, hread]
    exact hwrite dst _

theorem applyAll_congr {ops : List LogCodec.DecodedOp} {base : Nat}
    (hops : ∀ op ∈ ops, op.Within pageSize) (h : AgreeOn left right base pageSize) :
    AgreeOn (LogCodec.applyAll ops base left) (LogCodec.applyAll ops base right)
      base pageSize := by
  induction ops generalizing left right with
  | nil => exact h
  | cons op ops ih =>
    simp only [LogCodec.applyAll_cons]
    exact ih (fun o ho => hops o (by simp [ho])) (DecodedOp.apply_congr (hops op (by simp)) h)

section

variable (h : InPage translate pageSize record)
include h

variable (memory : Memory)

theorem InPage.processLogRecord_eq :
    processLogRecord translate memory record =
      (true, LogCodec.applyAll (LogCodec.decode record.payload).1
        (translate record.pageGaddr) memory) := by
  simp [processLogRecord, h.mapped, h.decodes]

theorem InPage.effect_eq :
    effect translate memory record =
      write (LogCodec.applyAll (LogCodec.decode record.payload).1
        (translate record.pageGaddr) memory)
        (translate record.pageGaddr + pVersionOffset) (natLE 8 record.pageVersion) := by
  rw [effect, h.processLogRecord_eq, setCurrentPageVersion, if_neg h.mapped]

theorem InPage.process_outside (hhdr : pVersionOffset + 8 ≤ pageSize) (memory : Memory)
    (version : Nat) {address : Nat}
    (hout : address < translate record.pageGaddr ∨
      translate record.pageGaddr + pageSize ≤ address) :
    (processLogRecord translate memory record).2 address = memory address ∧
    setCurrentPageVersion translate memory record.pageGaddr version address =
      memory address := by
  rw [h.processLogRecord_eq, setCurrentPageVersion, if_neg h.mapped]
  refine ⟨LogCodec.applyAll_outside memory h.within hout, ?_⟩
  exact write_outside memory _ (by simp; omega)

theorem InPage.effect_outside (hhdr : pVersionOffset + 8 ≤ pageSize) (memory : Memory)
    {address : Nat}
    (hout : address < translate record.pageGaddr ∨
      translate record.pageGaddr + pageSize ≤ address) :
    effect translate memory record address = memory address := by
  rw [effect, (h.process_outside hhdr _ _ hout).2, (h.process_outside hhdr memory 0 hout).1]

theorem InPage.effect_congr (hagree : AgreeOn left right (translate record.pageGaddr) pageSize) :
    AgreeOn (effect translate left record) (effect translate right record)
      (translate record.pageGaddr) pageSize := by
  rw [h.effect_eq, h.effect_eq]
  intro address hge hlt
  simp only [write]
  rw [applyAll_congr h.within hagree address hge hlt]

theorem InPage.version_effect :
    getCurrentPageVersion translate (effect translate memory record) record.pageGaddr =
      record.pageVersion := by
  rw [getCurrentPageVersion, if_neg h.mapped, h.effect_eq]
  have hread := read_write_same (LogCodec.applyAll (LogCodec.decode record.payload).1
    (translate record.pageGaddr) memory) (translate record.pageGaddr + pVersionOffset)
    (natLE 8 record.pageVersion)
  rw [natLE_length] at hread
  rw [hread, ofLE_natLE_of_lt record.version_lt]

end

theorem getCurrentPageVersion_congr {page : Nat} (hhdr : pVersionOffset + 8 ≤ pageSize)
    (hagree : AgreeOn left right (translate page) pageSize) :
    getCurrentPageVersion translate left page = getCurrentPageVersion translate right page := by
  unfold getCurrentPageVersion
  split
  · rfl
  · rw [read_congr (hagree.mono (by omega) (by omega))]

end Effects

section Frames

variable {translate : Nat → Nat} {pageSize : Nat} {logArea : Nat → Prop}
  {records : List Record}

variable {applied : List Record}

section

variable (h : PageFrames translate pageSize logArea records)
include h

theorem PageFrames.avoids (hmem : record ∈ records) : Avoids translate logArea record := by
  intro memory version address harea
  apply (h.inPage record hmem).process_outside h.header
  by_contra hin
  have hoff := h.offLog record hmem (address - translate record.pageGaddr) (by omega)
  rw [show translate record.pageGaddr + (address - translate record.pageGaddr) = address by
    omega] at hoff
  exact hoff harea

theorem PageFrames.agreeOn (hmem : record ∈ records) (hagree : AgreeOff logArea left right) :
    AgreeOn left right (translate record.pageGaddr) pageSize := by
  intro address hge hlt
  apply hagree
  have hoff := h.offLog record hmem (address - translate record.pageGaddr) (by omega)
  rwa [show translate record.pageGaddr + (address - translate record.pageGaddr) = address by
    omega] at hoff

theorem PageFrames.effect_agreeOff (hmem : record ∈ records)
    (hagree : AgreeOff logArea left right) :
    AgreeOff logArea (effect translate left record) (effect translate right record) := by
  intro address harea
  by_cases hout : address < translate record.pageGaddr ∨
      translate record.pageGaddr + pageSize ≤ address
  · rw [(h.inPage record hmem).effect_outside h.header left hout,
      (h.inPage record hmem).effect_outside h.header right hout, hagree address harea]
  · exact (h.inPage record hmem).effect_congr (h.agreeOn hmem hagree) address (by omega)
      (by omega)

theorem PageFrames.effect_other {other : Record} (hmem : record ∈ records)
    (hother : other ∈ records) (hne : record.pageGaddr ≠ other.pageGaddr) (memory : Memory) :
    AgreeOn (effect translate memory record) memory (translate other.pageGaddr) pageSize := by
  intro address hge hlt
  apply (h.inPage record hmem).effect_outside h.header
  have := h.apart record hmem other hother hne
  omega

theorem PageFrames.effects_ofKey (hmem : record ∈ records)
    (happl : ∀ r ∈ applied, r ∈ records) :
    ∀ {left right : Memory}, AgreeOn left right (translate record.pageGaddr) pageSize →
    AgreeOn (effects translate left applied)
      (effects translate right
        (VersionedLog.ofKey Record.pageGaddr record.pageGaddr applied))
      (translate record.pageGaddr) pageSize := by
  induction applied with
  | nil => exact fun hagree => hagree
  | cons r applied ih =>
    intro left right hagree
    have hr : r ∈ records := happl r (by simp)
    have htail : ∀ r' ∈ applied, r' ∈ records := fun r' hr' => happl r' (by simp [hr'])
    by_cases hpage : r.pageGaddr = record.pageGaddr
    · have hcons : VersionedLog.ofKey Record.pageGaddr record.pageGaddr (r :: applied) =
          r :: VersionedLog.ofKey Record.pageGaddr record.pageGaddr applied := by
        simp [VersionedLog.ofKey, hpage]
      rw [hcons]
      apply ih htail
      rw [← hpage] at hagree ⊢
      exact (h.inPage r hr).effect_congr hagree
    · have hcons : VersionedLog.ofKey Record.pageGaddr record.pageGaddr (r :: applied) =
          VersionedLog.ofKey Record.pageGaddr record.pageGaddr applied := by
        simp [VersionedLog.ofKey, hpage]
      rw [hcons]
      exact ih htail ((h.effect_other hr hmem hpage left).trans hagree)

theorem PageFrames.version_effects {memory : Memory} (hmem : record ∈ records)
    (hzero : getCurrentPageVersion translate memory record.pageGaddr = 0)
    (happl : ∀ r ∈ applied, r ∈ records)
    (horder : VersionedLog.InOrder Record.pageGaddr Record.pageVersion applied) :
    getCurrentPageVersion translate (effects translate memory applied) record.pageGaddr =
      (VersionedLog.ofKey Record.pageGaddr record.pageGaddr applied).length := by
  induction applied using reverseRecOn with
  | nil => exact hzero
  | append_singleton applied r ih =>
    obtain ⟨hpre, hver⟩ := VersionedLog.inOrder_concat.mp horder
    have hr : r ∈ records := happl r (by simp)
    have hih := ih (fun r' hr' => happl r' (by simp [hr'])) hpre
    have heffects : effects translate memory (applied ++ [r]) =
        effect translate (effects translate memory applied) r := by
      simp [effects]
    rw [heffects]
    by_cases hpage : r.pageGaddr = record.pageGaddr
    · rw [← hpage, (h.inPage r hr).version_effect, hver, VersionedLog.ofKey_append,
        VersionedLog.ofKey_singleton_self, length_append, length_singleton]
    · rw [getCurrentPageVersion_congr h.header (h.effect_other hr hmem hpage _), hih,
        VersionedLog.ofKey_append, VersionedLog.ofKey_singleton_of_ne hpage, append_nil]

end

/-- The replica's memory as the effects of the records applied so far. -/
structure Replayed (translate : Nat → Nat) (logArea : Nat → Prop) (base memory : Memory)
    (records applied : List Record) : Prop where
  zero : ∀ r ∈ records, getCurrentPageVersion translate base r.pageGaddr = 0
  subset : ∀ r ∈ applied, r ∈ records
  order : VersionedLog.InOrder Record.pageGaddr Record.pageVersion applied
  pages : AgreeOff logArea memory (effects translate base applied)

theorem Replayed.version (hpages : PageFrames translate pageSize logArea records)
    {base memory : Memory}
    (h : Replayed translate logArea base memory records applied) {r : Record} (hr : r ∈ records) :
    getCurrentPageVersion translate memory r.pageGaddr =
      (VersionedLog.ofKey Record.pageGaddr r.pageGaddr applied).length := by
  rw [getCurrentPageVersion_congr hpages.header (hpages.agreeOn hr h.pages)]
  exact hpages.version_effects hr (h.zero r hr) h.subset h.order

theorem Replayed.applyItems (hpages : PageFrames translate pageSize logArea records)
    {base : Memory} {items : List Item} (hitems : ∀ r ∈ recordsOf items, r ∈ records) :
    ∀ {memory middle : Memory} {applied : List Record},
      Replayed translate logArea base memory records applied →
      applyItems translate memory items = some middle →
      Replayed translate logArea base middle records (applied ++ recordsOf items) := by
  induction items with
  | nil =>
    intro memory middle applied h hrun
    cases hrun
    simpa using h
  | cons item items ih =>
    intro memory middle applied h hrun
    cases item with
    | marker => exact ih hitems h hrun
    | record r =>
      have hr : r ∈ records := hitems r (by simp)
      obtain ⟨after, hfirst, hrest⟩ := Option.bind_eq_some_iff.mp hrun
      obtain ⟨hver, -, hafter⟩ := applyRecord_eq_some hfirst
      have hstep : Replayed translate logArea base after records (applied ++ [r]) := by
        refine ⟨h.zero, ?_, VersionedLog.inOrder_concat.mpr ⟨h.order, ?_⟩, ?_⟩
        · intro r' hr'
          rcases mem_append.mp hr' with hr' | hr'
          · exact h.subset r' hr'
          · rw [mem_singleton.mp hr']
            exact hr
        · rw [hver, h.version hpages hr]
        · rw [hafter, effects, foldl_append]
          exact hpages.effect_agreeOff hr h.pages
      have htail := ih (fun r' hr' => hitems r' (by simp [hr'])) hstep hrest
      rwa [append_assoc, singleton_append] at htail

end Frames

end MemoryEngine.LogReplayer
