import MemoryEngine.Log.ReplayRuns

/-! The replayer thread never gets stuck.

When everything has been received and the records have one total order that
respects both the streams and the page versions, the first record of that order
that is not applied is never blocked: it is the next record of its stream and
carries the next version of its page. -/
namespace MemoryEngine.LogReplayer

open ByteMemory RedoLog VersionedLog List

variable (region : Region) (state : RunState)

/-- The body of the stream loop of `ReplayerThreadFunc`. -/
def RunState.replayIfPending (c : Nat) : RunState :=
  let stream := state.stream region c
  if stream.receivedLogLength > stream.replayedLogLength then
    state.replay region c (stream.receivedLogLength - stream.replayedLogLength)
  else state

/-- One pass of `ReplayerThreadFunc` over the streams of its region. -/
def RunState.replayerPass : RunState :=
  (List.range maxComputeNodes).foldl (RunState.replayIfPending region) state

def AllDelivered : Prop :=
  ∀ c, c < maxComputeNodes → state.delivered c = (region.script c).length

/-- A total order of all records, consistent with the append order of every
stream and with the version order of every page. -/
structure ConsistentOrder (region : Region) (order : List Record) : Prop where
  perm : order.Perm region.records
  streams : ∀ c, c < maxComputeNodes → (recordsOf (region.streamItems c)).Sublist order
  pages : ∀ page, (ofKey Record.pageGaddr page order).Pairwise fun a b =>
    a.pageVersion < b.pageVersion

def Unreplayed (r : Record) : Prop :=
  ∃ c before after, c < maxComputeNodes ∧
    region.streamItems c = before ++ .record r :: after ∧
    (state.stream region c).replayedLogLength ≤ byteSize before

section Pass

variable {region : Region} {base : Memory} {state : RunState} {progress : Nat → Progress}

section

variable (h : Invariant region base state progress)
include h

theorem Invariant.received (hall : AllDelivered region state) {c : Nat} (hc : c < maxComputeNodes) :
    (state.stream region c).receivedLogLength = byteSize (region.streamItems c) := by
  rw [(h.streams c hc).tracks.received, (h.streams c hc).split, hall c hc]
  rfl

theorem Invariant.version_le {r : Record} (hr : r ∈ state.applied) :
    r.pageVersion ≤ (ofKey Record.pageGaddr r.pageGaddr state.applied).length := by
  have hmem : r.pageVersion ∈
      (ofKey Record.pageGaddr r.pageGaddr state.applied).map Record.pageVersion :=
    mem_map_of_mem (by simp [ofKey, hr])
  rw [h.replayed.order.versions, mem_range'_1] at hmem
  omega

theorem Invariant.not_applied (hregion : region.WellFramed) {r : Record}
    (hr : Unreplayed region state r) : r ∈ region.records ∧ r ∉ state.applied := by
  obtain ⟨c, before, after, hc, hitems, hlen⟩ := hr
  rw [(h.streams c hc).tracks.replayed] at hlen
  have hpre : (progress c).replayed <+: before :=
    prefix_of_byteSize_le (h.replayed_isPrefix hc)
      (by rw [hitems]; exact prefix_append _ _) hlen
  obtain ⟨between, rfl⟩ := hpre
  have hmore : (progress c).replayed ++ (between ++ [.record r]) <+: region.streamItems c :=
    ⟨after, by rw [hitems]; simp⟩
  have hnodup : (state.applied ++ recordsOf (between ++ [.record r])).Nodup := by
    obtain ⟨middle, hperm, hsublist⟩ := h.subperm hc hmore
    exact hperm.nodup_iff.mp (hsublist.nodup hregion.gapFree.nodup)
  constructor
  · apply mem_records hc
    rw [hitems]
    simp
  · intro happl
    exact (nodup_append.mp hnodup).2.2 r happl r (by simp) rfl

theorem Invariant.replayIfPending (hregion : region.WellFramed) (hall : AllDelivered region state)
    {c : Nat} (hc : c < maxComputeNodes) :
    ∃ consumed rest progress',
      region.streamItems c = (progress c).replayed ++ (consumed ++ rest) ∧
      (state.replayIfPending region c).applied = state.applied ++ recordsOf consumed ∧
      Blocked (state.replayIfPending region c).applied rest ∧
      (progress' c).replayed = (progress c).replayed ++ consumed ∧
      (∀ c', c' ≠ c → progress' c' = progress c') ∧
      AllDelivered region (state.replayIfPending region c) ∧
      Invariant region base (state.replayIfPending region c) progress' := by
  have hrecv := h.received hall hc
  have hlogs : allItems (region.logs c (state.delivered c)) = region.streamItems c := by
    rw [hall c hc]
    rfl
  unfold RunState.replayIfPending
  dsimp only
  split
  · have havail : (state.stream region c).replayedLogLength +
        ((state.stream region c).receivedLogLength -
          (state.stream region c).replayedLogLength) =
        byteSize (allItems (region.logs c (state.delivered c))) := by
      rw [hlogs, ← hrecv]
      omega
    obtain ⟨consumed, rest, progress', hitems, happl, hblocked, hself, hother, h'⟩ :=
      h.replay hregion hc (Nat.le_refl _) havail
    rw [hlogs] at hitems
    exact ⟨consumed, rest, progress', hitems, happl, hblocked, hself, hother, hall, h'⟩
  · -- no bytes are left, so no items are
    obtain ⟨left, hleft⟩ := h.replayed_isPrefix hc
    have hempty : left = [] := by
      rw [← byteSize_eq_zero]
      have hrepl : (state.stream region c).replayedLogLength =
        byteSize (progress c).replayed := (h.streams c hc).tracks.replayed
      rw [← hleft, byteSize_append] at hrecv
      omega
    subst hempty
    exact ⟨[], [], progress, hleft.symm, by simp, .inl rfl, by simp, fun _ _ => rfl, hall, h⟩

/-- The first record of the order that is missing gets applied when the pass
reaches its stream, unless something else was applied before. -/
theorem Invariant.applies_first_missing (hregion : region.WellFramed)
    (hall : AllDelivered region state) {order before after : List Record} {e : Record}
    (horder : ConsistentOrder region order) (hsplit : order = before ++ e :: after)
    (hbefore : before ⊆ state.applied) (he : e ∉ state.applied) {c : Nat} (hc : c < maxComputeNodes)
    (hmem : e ∈ recordsOf (region.streamItems c)) :
    state.applied.length < (state.replayIfPending region c).applied.length := by
  obtain ⟨consumed, rest, progress', hitems, happl, hblocked, -, -, -, -⟩ :=
    h.replayIfPending hregion hall hc
  rw [happl, length_append]
  by_contra hnot
  have hnone : recordsOf consumed = [] := eq_nil_of_length_eq_zero (by omega)
  rw [happl, hnone, append_nil] at hblocked
  have hnext : e.pageVersion =
      (ofKey Record.pageGaddr e.pageGaddr state.applied).length + 1 := by
    have hgap : GapFree Record.pageGaddr Record.pageVersion order := fun page => by
      obtain ⟨v, hv⟩ := hregion.gapFree page
      exact ⟨v, ((horder.perm.filter _).map _).trans hv⟩
    exact h.replayed.order.version_of_first_missing hgap horder.pages
      (fun r hr => horder.perm.mem_iff.mpr (h.replayed.subset r hr)) hsplit hbefore he
  -- `e` lies in what the pass left, behind a record that waits
  rw [hitems, recordsOf_append, recordsOf_append, hnone, nil_append, mem_append] at hmem
  have hrest : e ∈ recordsOf rest := by
    refine hmem.resolve_left fun hdone => he ?_
    exact h.applied.mem_iff.mpr (mem_flatMap.mpr ⟨c, mem_range.mpr hc, hdone⟩)
  rcases hblocked with rfl | ⟨r, later, rfl, hwait⟩
  · cases hrest
  rw [recordsOf_record, mem_cons] at hrest
  rcases hrest with rfl | hlater
  · omega
  · -- a record before `e` in its stream comes before it in the order
    have hpair : [r, e].Sublist order := by
      refine List.Sublist.trans ?_ (horder.streams c hc)
      rw [hitems, recordsOf_append, recordsOf_append, recordsOf_record]
      refine List.Sublist.trans ?_ (sublist_append_right _ _)
      refine List.Sublist.trans ?_ (sublist_append_right _ _)
      exact (singleton_sublist.mpr hlater).cons_cons r
    have hr : r ∈ before := by
      have hnodup : order.Nodup := horder.perm.nodup_iff.mpr hregion.gapFree.nodup
      rw [hsplit] at hpair hnodup
      exact mem_of_pair_sublist hnodup hpair
    have := h.version_le (hbefore hr)
    omega

end

variable {order : List Record}

theorem Invariant.foldl_replayIfPending (hregion : region.WellFramed)
    (horder : ConsistentOrder region order) (streams : List Nat)
    (hstreams : ∀ c ∈ streams, c < maxComputeNodes) :
    ∀ {state : RunState} {progress : Nat → Progress},
      Invariant region base state progress → AllDelivered region state →
      ∃ progress',
        Invariant region base (streams.foldl (RunState.replayIfPending region) state) progress' ∧
        AllDelivered region (streams.foldl (RunState.replayIfPending region) state) ∧
        state.applied <+: (streams.foldl (RunState.replayIfPending region) state).applied ∧
        (∀ c, (progress c).replayed <+: (progress' c).replayed) ∧
        (∀ before e after c, order = before ++ e :: after → before ⊆ state.applied →
          e ∉ state.applied → c ∈ streams → e ∈ recordsOf (region.streamItems c) →
          state.applied.length <
            (streams.foldl (RunState.replayIfPending region) state).applied.length) ∧
        ((∀ r ∈ region.records, r ∈ state.applied) → ∀ c ∈ streams,
          (progress' c).replayed = region.streamItems c) := by
  induction streams with
  | nil =>
    intro state progress h hall
    exact ⟨progress, h, hall, prefix_rfl, fun _ => prefix_rfl, by simp, by simp⟩
  | cons c₀ streams ih =>
    intro state progress h hall
    have hc₀ : c₀ < maxComputeNodes := hstreams c₀ (by simp)
    obtain ⟨consumed, rest, middle, hitems, happl, hblocked, hself, hother, hall', h'⟩ :=
      h.replayIfPending hregion hall hc₀
    obtain ⟨progress', h'', hall'', hgrow, hmono, hstep, hend⟩ :=
      ih (fun c hc => hstreams c (by simp [hc])) h' hall'
    have hfirst : state.applied <+: (state.replayIfPending region c₀).applied :=
      ⟨_, happl.symm⟩
    refine ⟨progress', h'', hall'', hfirst.trans hgrow, ?_, ?_, ?_⟩
    · intro c
      refine List.IsPrefix.trans ?_ (hmono c)
      by_cases hne : c = c₀
      · subst hne
        exact ⟨consumed, hself.symm⟩
      · exact ⟨[], by rw [append_nil, hother c hne]⟩
    · intro before e after c hsplit hbefore he hc hmem
      rcases mem_cons.mp hc with rfl | hc
      · exact (h.applies_first_missing hregion hall horder hsplit hbefore he hc₀ hmem).trans_le
          hgrow.length_le
      · by_cases hnone : recordsOf consumed = []
        · rw [hnone, append_nil] at happl
          rw [← happl] at hbefore he ⊢
          exact hstep before e after c hsplit hbefore he hc hmem
        · refine lt_of_lt_of_le ?_ hgrow.length_le
          rw [happl, length_append]
          have := length_pos_of_ne_nil hnone
          omega
    · intro happliedAll c hc
      have hkept : ∀ r ∈ region.records, r ∈ (state.replayIfPending region c₀).applied :=
        fun r hr => hfirst.subset (happliedAll r hr)
      rcases mem_cons.mp hc with rfl | hc
      · -- nothing can wait when every record is applied
        have hrest : rest = [] := by
          rcases hblocked with hrest | ⟨r, later, rfl, hwait⟩
          · exact hrest
          · have hr : r ∈ region.records := mem_records hc₀ (by rw [hitems]; simp)
            have := h'.version_le (hkept r hr)
            omega
        rw [hrest, append_nil, ← hself] at hitems
        have hle := hmono c
        rw [← hitems] at hle
        exact (h''.replayed_isPrefix hc₀).eq_of_length_le hle.length_le
      · exact hend hkept c hc

theorem Invariant.replayerPass (h : Invariant region base state progress)
    (hregion : region.WellFramed) (hall : AllDelivered region state)
    (horder : ConsistentOrder region order) :
    ∃ progress', Invariant region base (state.replayerPass region) progress' ∧
      AllDelivered region (state.replayerPass region) ∧
      ((∃ r ∈ region.records, r ∉ state.applied) →
        state.applied.length < (state.replayerPass region).applied.length) ∧
      ((∀ r ∈ region.records, r ∈ state.applied) → ∀ c, c < maxComputeNodes →
        (progress' c).replayed = region.streamItems c) := by
  obtain ⟨progress', h', hall', -, -, hstep, hend⟩ :=
    Invariant.foldl_replayIfPending hregion horder (List.range maxComputeNodes)
      (fun c hc => mem_range.mp hc) h hall
  refine ⟨progress', h', hall', ?_, fun happl c hc => hend happl c (mem_range.mpr hc)⟩
  rintro ⟨r, hr, hmissing⟩
  obtain ⟨before, e, after, hsplit, hbefore, he⟩ :=
    exists_first_missing ⟨r, horder.perm.mem_iff.mpr hr, hmissing⟩
  have hmem : e ∈ region.records := horder.perm.mem_iff.mp (by simp [hsplit])
  obtain ⟨c, hc, hstrm⟩ := mem_flatMap.mp hmem
  exact hstep before e after c hsplit hbefore he hc hstrm

theorem Invariant.iterate_replayerPass (h : Invariant region base state progress)
    (hregion : region.WellFramed) (hall : AllDelivered region state)
    (horder : ConsistentOrder region order) (passes : Nat) :
    ∃ progress', Invariant region base ((RunState.replayerPass region)^[passes] state) progress' ∧
      AllDelivered region ((RunState.replayerPass region)^[passes] state) := by
  induction passes with
  | zero => exact ⟨progress, h, hall⟩
  | succ passes ih =>
    obtain ⟨middle, h', hall'⟩ := ih
    obtain ⟨progress', h'', hall'', -⟩ := h'.replayerPass hregion hall' horder
    rw [Function.iterate_succ_apply']
    exact ⟨progress', h'', hall''⟩

theorem Invariant.replays_all (hregion : region.WellFramed)
    (horder : ConsistentOrder region order) (missing : Nat) :
    ∀ {state : RunState} {progress : Nat → Progress},
      Invariant region base state progress → AllDelivered region state →
      region.records.length ≤ state.applied.length + missing →
      ∃ passes, passes ≤ missing + 1 ∧ ∀ c, c < maxComputeNodes →
        (((RunState.replayerPass region)^[passes] state).stream region c).replayedLogLength =
          (((RunState.replayerPass region)^[passes] state).stream region c).receivedLogLength := by
  induction missing with
  | zero =>
    intro state progress h hall hbound
    have happl : ∀ r ∈ region.records, r ∈ state.applied := fun r hr =>
      (h.applied_subperm.perm_of_length_le (by omega)).mem_iff.mpr hr
    obtain ⟨progress', h', hall', -, hend⟩ := h.replayerPass hregion hall horder
    refine ⟨1, Nat.le_refl _, fun c hc => ?_⟩
    rw [Function.iterate_one, h'.received hall' hc, ← hend happl c hc]
    exact (h'.streams c hc).tracks.replayed
  | succ missing ih =>
    intro state progress h hall hbound
    obtain ⟨progress', h', hall', hstep, hend⟩ := h.replayerPass hregion hall horder
    by_cases happl : ∀ r ∈ region.records, r ∈ state.applied
    · refine ⟨1, by omega, fun c hc => ?_⟩
      rw [Function.iterate_one, h'.received hall' hc, ← hend happl c hc]
      exact (h'.streams c hc).tracks.replayed
    · have hlt := hstep (by simpa using happl)
      obtain ⟨passes, hpasses, hrepl⟩ := ih h' hall' (by omega)
      exact ⟨passes + 1, by omega, hrepl⟩

end Pass

/-- With everything received and one consistent total order of the records, each
pass that starts with an unreplayed record applies one, and finitely many passes
replay everything. -/
theorem replayerPass_never_stuck {region : Region} (hregion : region.WellFramed)
    {initial state : RunState} (hinitial : Initial region initial) (hrun : Run region initial state)
    (hall : AllDelivered region state) {order : List Record}
    (horder : ConsistentOrder region order) :
    (∀ passes r, Unreplayed region ((RunState.replayerPass region)^[passes] state) r →
      ((RunState.replayerPass region)^[passes] state).applied.length <
        ((RunState.replayerPass region)^[passes + 1] state).applied.length) ∧
    ∃ passes, passes ≤ region.records.length + 1 ∧ ∀ c, c < maxComputeNodes →
      (((RunState.replayerPass region)^[passes] state).stream region c).replayedLogLength =
        (((RunState.replayerPass region)^[passes] state).stream region c).receivedLogLength := by
  obtain ⟨progress, h⟩ := hrun.invariant hregion hinitial
  constructor
  · intro passes r hr
    obtain ⟨progress', h', hall'⟩ := h.iterate_replayerPass hregion hall horder passes
    obtain ⟨_, -, -, hstep, -⟩ := h'.replayerPass hregion hall' horder
    rw [Function.iterate_succ_apply']
    exact hstep ⟨r, h'.not_applied hregion hr⟩
  · exact Invariant.replays_all hregion horder region.records.length h hall (by omega)

theorem sampleRegion_order : ConsistentOrder sampleRegion [sampleFirst, sampleSecond] := by
  refine ⟨by rw [sampleRegion_records], by decide, ?_⟩
  intro page
  exact List.Pairwise.filter _ (by decide)

theorem replayerPass_never_stuck_sample :
    AllDelivered sampleRegion sampleReceived ∧
    Unreplayed sampleRegion sampleReceived sampleFirst ∧
    ∃ passes, passes ≤ sampleRegion.records.length + 1 ∧ ∀ c, c < maxComputeNodes →
      (((RunState.replayerPass sampleRegion)^[passes] sampleReceived).stream
          sampleRegion c).replayedLogLength =
        (((RunState.replayerPass sampleRegion)^[passes] sampleReceived).stream
          sampleRegion c).receivedLogLength := by
  have hall : AllDelivered sampleRegion sampleReceived := by
    unfold AllDelivered
    decide
  refine ⟨hall, ⟨0, [], [], by decide, by decide, by decide⟩, ?_⟩
  exact (replayerPass_never_stuck sampleRegion_wellFramed sampleInitial_initial
    sampleReceived_run hall sampleRegion_order).2

end MemoryEngine.LogReplayer
