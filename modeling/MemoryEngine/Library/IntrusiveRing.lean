import Mathlib.Data.List.Chain
import Mathlib.Data.List.Nodup
import Mathlib.Logic.Function.Basic

/-! Circular doubly linked lists whose links lie in the nodes.

A ring is seen as the list of its nodes, which may be read from any of them on.  A segment is cut
out of a ring or pasted before a node by four writes of links. -/
namespace IntrusiveRing

open List Function

/-- The two links of each node, `none` for the null pointer. -/
structure Links (N : Type) where
  next : N → Option N
  prev : N → Option N

variable {N : Type} {links after : Links N} {nodes others segment : List N} {first last node : N}

def Links.Joined (links : Links N) (before behind : N) : Prop :=
  links.next before = some behind ∧ links.prev behind = some before

/-- The nodes follow each other, the first one follows the last one. -/
structure Cyclic (links : Links N) (nodes : List N) : Prop where
  nodup : nodes.Nodup
  chain : nodes.IsChain links.Joined
  closed : ∀ last ∈ nodes.getLast?, ∀ first ∈ nodes.head?, links.Joined last first

theorem chain_congr (h : nodes.IsChain links.Joined)
    (hnext : ∀ node ∈ nodes.dropLast, after.next node = links.next node)
    (hprev : ∀ node ∈ nodes.tail, after.prev node = links.prev node) :
    nodes.IsChain after.Joined := by
  induction nodes with
  | nil => exact isChain_nil
  | cons head nodes ih =>
    cases nodes with
    | nil => exact isChain_singleton head
    | cons second nodes =>
      rw [isChain_cons_cons] at h ⊢
      have hjoined : after.Joined head second :=
        ⟨(hnext head mem_cons_self).trans h.1.1, (hprev second mem_cons_self).trans h.1.2⟩
      refine ⟨hjoined, ih h.2 ?_ ?_⟩
      · intro node hnode
        exact hnext node (mem_cons_of_mem _ hnode)
      · intro node hnode
        exact hprev node (mem_cons_of_mem _ hnode)

theorem Cyclic.congr (h : Cyclic links nodes)
    (hnext : ∀ node ∈ nodes, after.next node = links.next node)
    (hprev : ∀ node ∈ nodes, after.prev node = links.prev node) : Cyclic after nodes where
  nodup := h.nodup
  chain := chain_congr h.chain (fun node hnode => hnext node (dropLast_subset _ hnode))
    fun node hnode => hprev node (mem_of_mem_tail hnode)
  closed := by
    intro last hlast first hfirst
    have hjoined := h.closed last hlast first hfirst
    exact ⟨(hnext last (mem_of_getLast? hlast)).trans hjoined.1,
      (hprev first (mem_of_head? hfirst)).trans hjoined.2⟩

theorem Cyclic.rotate (h : Cyclic links (nodes ++ others)) : Cyclic links (others ++ nodes) := by
  rcases nodes with _ | ⟨first, nodes⟩
  · rw [append_nil]
    exact h
  · rcases others with _ | ⟨second, others⟩
    · rw [append_nil] at h
      exact h
    · obtain ⟨hchain, hotherChain, hjoin⟩ := isChain_append.mp h.chain
      have hclos := h.closed
      rw [getLast?_append_of_ne_nil _ (cons_ne_nil second others)] at hclos
      refine ⟨(nodup_append_comm).mp h.nodup, ?_, ?_⟩
      · exact isChain_append.mpr ⟨hotherChain, hchain, hclos⟩
      · rw [getLast?_append_of_ne_nil _ (cons_ne_nil first nodes)]
        exact hjoin

/-- What a change of links at a segment and a ring leaves alone. -/
structure Frame (links after : Links N) (touched : List N) : Prop where
  next : ∀ node ∉ touched, after.next node = links.next node
  prev : ∀ node ∉ touched, after.prev node = links.prev node

theorem Cyclic.frame (h : Cyclic links nodes) (hframe : Frame links after others)
    (hdisj : nodes.Disjoint others) : Cyclic after nodes :=
  h.congr (fun node hnode => hframe.next node fun hother => hdisj hnode hother)
    fun node hnode => hframe.prev node fun hother => hdisj hnode hother

theorem not_mem_dropLast_of_getLast? (hnodup : nodes.Nodup) (hlast : nodes.getLast? = some last) :
    last ∉ nodes.dropLast := by
  have hsplit := dropLast_append_getLast? last hlast
  rw [← hsplit, nodup_append] at hnodup
  intro hmem
  exact hnodup.2.2 last hmem last mem_cons_self rfl

theorem not_mem_tail_of_head? (hnodup : nodes.Nodup) (hfirst : nodes.head? = some first) :
    first ∉ nodes.tail := by
  rcases nodes with _ | ⟨head, nodes⟩
  · cases hfirst
  · cases hfirst
    exact (nodup_cons.mp hnodup).1

def Links.follow (links : Links N) : ℕ → N → Option N
  | 0, node => some node
  | count + 1, node => (links.next node).bind (links.follow count)

def Links.upToNull (links : Links N) : ℕ → N → List N
  | 0, _ => []
  | count + 1, node =>
      node :: match links.next node with
        | some behind => links.upToNull count behind
        | none => []

theorem follow_eq_getLast? (h : (node :: nodes).IsChain links.Joined) :
    links.follow nodes.length node = (node :: nodes).getLast? := by
  induction nodes generalizing node with
  | nil => rfl
  | cons second nodes ih =>
    rw [isChain_cons_cons] at h
    rw [length_cons, Links.follow, h.1.1, Option.bind_some, ih h.2, getLast?_cons_cons]

theorem upToNull_eq (h : (node :: nodes).IsChain links.Joined)
    (hlast : ∀ last ∈ (node :: nodes).getLast?, links.next last = none) :
    links.upToNull (node :: nodes).length node = node :: nodes := by
  induction nodes generalizing node with
  | nil =>
    have hnull : links.next node = none := hlast node rfl
    rw [length_singleton, Links.upToNull, hnull]
  | cons second nodes ih =>
    rw [isChain_cons_cons] at h
    rw [length_cons, Links.upToNull, h.1.1]
    exact congrArg (node :: ·) (ih h.2 hlast)

section Segments

variable [DecidableEq N]

/-- The segment from `first` to `last` is taken out, its ends become null. -/
def Links.cut (links : Links N) (first last : N) : Option (Links N) := do
  let behind ← links.next last
  let before ← links.prev first
  some
    { next := update (update links.next before (some behind)) last none
      prev := update (update links.prev behind (some before)) first none }

/-- The segment from `first` to `last` is put before `node`. -/
def Links.paste (links : Links N) (node first last : N) : Option (Links N) := do
  let before ← links.prev node
  some
    { next := update (update links.next last (some node)) before (some first)
      prev := update (update links.prev first (some before)) node (some last) }

theorem Links.exists_cut {behind before : N} (hbhd : links.next last = some behind)
    (hpre : links.prev first = some before) :
    ∃ after, links.cut first last = some after ∧
      after.next = update (update links.next before (some behind)) last none ∧
      after.prev = update (update links.prev behind (some before)) first none := by
  rw [Links.cut, hbhd, hpre]
  exact ⟨_, rfl, rfl, rfl⟩

theorem Links.exists_paste {before : N} (hpre : links.prev node = some before) :
    ∃ after, links.paste node first last = some after ∧
      after.next = update (update links.next last (some node)) before
        (some first) ∧
      after.prev = update (update links.prev first (some before)) node
        (some last) := by
  rw [Links.paste, hpre]
  exact ⟨_, rfl, rfl, rfl⟩

theorem Cyclic.cut (h : Cyclic links (segment ++ nodes)) (hfirst : segment.head? = some first)
    (hlast : segment.getLast? = some last) (hne : nodes ≠ []) :
    ∃ after, links.cut first last = some after ∧ Cyclic after nodes ∧
      segment.IsChain after.Joined ∧ after.next last = none ∧
      Frame links after (segment ++ nodes) := by
  obtain ⟨hseg, hnodes, hjoin⟩ := isChain_append.mp h.chain
  obtain ⟨hsegmentNodup, hnodup, hdisj⟩ := nodup_append.mp h.nodup
  obtain ⟨behind, hbhd⟩ := Option.isSome_iff_exists.mp (isSome_head?.mpr hne)
  obtain ⟨before, hpre⟩ := Option.isSome_iff_exists.mp (getLast?_isSome.mpr hne)
  have hnextLast : links.next last = some behind := (hjoin last hlast behind hbhd).1
  have hprevFirst : links.prev first = some before := by
    refine (h.closed before ?_ first ?_).2
    · rw [getLast?_append_of_ne_nil _ hne]
      exact hpre
    · rw [head?_append, hfirst]
      rfl
  have hfirstMem := mem_of_head? hfirst
  have hlastMem := mem_of_getLast? hlast
  have hbehindMem := mem_of_head? hbhd
  have hbeforeMem := mem_of_getLast? hpre
  have hapart : ∀ node ∈ segment, ∀ other ∈ nodes, other ≠ node :=
    fun node hnode other hother heq => hdisj node hnode other hother heq.symm
  obtain ⟨after, hcut, hnext, hprev⟩ := Links.exists_cut hnextLast hprevFirst
  refine ⟨after, hcut, ⟨hnodup, ?_, ?_⟩, ?_, ?_, ?_, ?_⟩
  · refine chain_congr hnodes ?_ ?_
    · intro node hnode
      have hmem := dropLast_subset _ hnode
      have hneq : node ≠ before := fun heq =>
        not_mem_dropLast_of_getLast? hnodup hpre (heq ▸ hnode)
      rw [hnext, update_of_ne (hapart last hlastMem node hmem), update_of_ne hneq]
    · intro node hnode
      have hmem := mem_of_mem_tail hnode
      have hneq : node ≠ behind := fun heq => not_mem_tail_of_head? hnodup hbhd (heq ▸ hnode)
      rw [hprev, update_of_ne (hapart first hfirstMem node hmem), update_of_ne hneq]
  · intro end_ hend start hstart
    rw [hpre] at hend
    rw [hbhd] at hstart
    cases hend
    cases hstart
    refine ⟨?_, ?_⟩
    · rw [hnext, update_of_ne (hapart last hlastMem before hbeforeMem), update_self]
    · rw [hprev, update_of_ne (hapart first hfirstMem behind hbehindMem),
        update_self]
  · refine chain_congr hseg ?_ ?_
    · intro node hnode
      have hmem := dropLast_subset _ hnode
      have hneq : node ≠ last := fun heq =>
        not_mem_dropLast_of_getLast? hsegmentNodup hlast (heq ▸ hnode)
      rw [hnext, update_of_ne hneq,
        update_of_ne (hapart node hmem before hbeforeMem).symm]
    · intro node hnode
      have hmem := mem_of_mem_tail hnode
      have hneq : node ≠ first := fun heq =>
        not_mem_tail_of_head? hsegmentNodup hfirst (heq ▸ hnode)
      rw [hprev, update_of_ne hneq,
        update_of_ne (hapart node hmem behind hbehindMem).symm]
  · rw [hnext, update_self]
  · intro node hnode
    rw [mem_append, not_or] at hnode
    have hlastNe : node ≠ last := fun heq => hnode.1 (heq ▸ hlastMem)
    have hbeforeNe : node ≠ before := fun heq => hnode.2 (heq ▸ hbeforeMem)
    rw [hnext, update_of_ne hlastNe, update_of_ne hbeforeNe]
  · intro node hnode
    rw [mem_append, not_or] at hnode
    have hfirstNe : node ≠ first := fun heq => hnode.1 (heq ▸ hfirstMem)
    have hbehindNe : node ≠ behind := fun heq => hnode.2 (heq ▸ hbehindMem)
    rw [hprev, update_of_ne hfirstNe, update_of_ne hbehindNe]

theorem Cyclic.paste (h : Cyclic links nodes) (hnode : nodes.head? = some node)
    (hseg : segment.IsChain links.Joined) (hnodup : segment.Nodup)
    (hdisj : segment.Disjoint nodes) (hfirst : segment.head? = some first)
    (hlast : segment.getLast? = some last) :
    ∃ after, links.paste node first last = some after ∧ Cyclic after (nodes ++ segment) ∧
      Frame links after (nodes ++ segment) := by
  have hne : nodes ≠ [] := fun heq => by
    rw [heq] at hnode
    cases hnode
  have hsegmentNe : segment ≠ [] := fun heq => by
    rw [heq] at hfirst
    cases hfirst
  obtain ⟨before, hpre⟩ := Option.isSome_iff_exists.mp (getLast?_isSome.mpr hne)
  have hprevNode : links.prev node = some before := (h.closed before hpre node hnode).2
  have hfirstMem := mem_of_head? hfirst
  have hlastMem := mem_of_getLast? hlast
  have hnodeMem := mem_of_head? hnode
  have hbeforeMem := mem_of_getLast? hpre
  have hapart : ∀ inner ∈ segment, ∀ other ∈ nodes, other ≠ inner :=
    fun inner hinner other hother heq => hdisj hinner (heq ▸ hother)
  have hpasted := @Links.exists_paste N links first last node _ before hprevNode
  obtain ⟨after, hpaste, hnext, hprev⟩ := hpasted
  refine ⟨after, hpaste, ⟨?_, ?_, ?_⟩, ?_, ?_⟩
  · exact List.Nodup.append h.nodup hnodup fun _ hnode hseg => hdisj hseg hnode
  · refine isChain_append.mpr ⟨chain_congr h.chain ?_ ?_, chain_congr hseg ?_ ?_, ?_⟩
    · intro other hother
      have hmem := dropLast_subset _ hother
      have hneq : other ≠ before := fun heq =>
        not_mem_dropLast_of_getLast? h.nodup hpre (heq ▸ hother)
      rw [hnext, update_of_ne hneq,
        update_of_ne (hapart last hlastMem other hmem)]
    · intro other hother
      have hmem := mem_of_mem_tail hother
      have hneq : other ≠ node := fun heq => not_mem_tail_of_head? h.nodup hnode (heq ▸ hother)
      rw [hprev, update_of_ne hneq,
        update_of_ne (hapart first hfirstMem other hmem)]
    · intro inner hinner
      have hmem := dropLast_subset _ hinner
      have hneq : inner ≠ last := fun heq =>
        not_mem_dropLast_of_getLast? hnodup hlast (heq ▸ hinner)
      rw [hnext, update_of_ne (hapart inner hmem before hbeforeMem).symm,
        update_of_ne hneq]
    · intro inner hinner
      have hmem := mem_of_mem_tail hinner
      have hneq : inner ≠ first := fun heq => not_mem_tail_of_head? hnodup hfirst (heq ▸ hinner)
      rw [hprev, update_of_ne (hapart inner hmem node hnodeMem).symm,
        update_of_ne hneq]
    · intro end_ hend start hstart
      rw [hpre] at hend
      rw [hfirst] at hstart
      cases hend
      cases hstart
      refine ⟨?_, ?_⟩
      · rw [hnext, update_self]
      · rw [hprev, update_of_ne (hapart first hfirstMem node hnodeMem).symm,
          update_self]
  · intro end_ hend start hstart
    rw [getLast?_append_of_ne_nil _ hsegmentNe, hlast] at hend
    rw [head?_append, hnode] at hstart
    cases hend
    cases hstart
    refine ⟨?_, ?_⟩
    · rw [hnext, update_of_ne (hapart last hlastMem before hbeforeMem).symm,
        update_self]
    · rw [hprev, update_self]
  · intro other hother
    rw [mem_append, not_or] at hother
    have hbeforeNe : other ≠ before := fun heq => hother.1 (heq ▸ hbeforeMem)
    have hlastNe : other ≠ last := fun heq => hother.2 (heq ▸ hlastMem)
    rw [hnext, update_of_ne hbeforeNe, update_of_ne hlastNe]
  · intro other hother
    rw [mem_append, not_or] at hother
    have hnodeNe : other ≠ node := fun heq => hother.1 (heq ▸ hnodeMem)
    have hfirstNe : other ≠ first := fun heq => hother.2 (heq ▸ hfirstMem)
    rw [hprev, update_of_ne hnodeNe, update_of_ne hfirstNe]

theorem Cyclic.cut_node (h : Cyclic links (node :: nodes)) (hne : nodes ≠ []) :
    ∃ after, links.cut node node = some after ∧ Cyclic after nodes ∧
      Frame links after (node :: nodes) := by
  have hfirst : [node].head? = some node := rfl
  have hlast : [node].getLast? = some node := rfl
  obtain ⟨after, hcut, hafter, -, -, hframe⟩ := @Cyclic.cut N links nodes
    [node] node node _ h hfirst hlast hne
  exact ⟨after, hcut, hafter, hframe⟩

theorem Cyclic.paste_node {behind : N} (h : Cyclic links (behind :: nodes))
    (hnode : node ∉ behind :: nodes) :
    ∃ after, links.paste behind node node = some after ∧
      Cyclic after (behind :: nodes ++ [node]) ∧
      Frame links after (behind :: nodes ++ [node]) := by
  have hfirst : [node].head? = some node := rfl
  have hlast : [node].getLast? = some node := rfl
  have hdisj : List.Disjoint [node] (behind :: nodes) := by
    intro other hother hin
    exact hnode (mem_singleton.mp hother ▸ hin)
  exact h.paste rfl (isChain_singleton node) (nodup_singleton node) hdisj hfirst hlast

end Segments

end IntrusiveRing
