import MemoryEngine.Storage.PageCache

/-! The three lists of a shard as lists of handles, and what the changes of the links do to them. -/
namespace MemoryEngine.PageCache

open IntrusiveRing List Function

abbrev Lists := ListHead → List ℕ

namespace Lists

variable {lists : Lists} {list other : ListHead} {handle found : ℕ}

def drop (lists : Lists) (list : ListHead) (handle : ℕ) : Lists :=
  update lists list ((lists list).erase handle)

def add (lists : Lists) (list : ListHead) (handle : ℕ) : Lists :=
  update lists list (lists list ++ [handle])

def addOldest (lists : Lists) (list : ListHead) (handle : ℕ) : Lists :=
  update lists list (handle :: lists list)

def ring (lists : Lists) (list : ListHead) : List Node :=
  .head list :: (lists list).map .handle

def Off (lists : Lists) (handle : ℕ) : Prop := ∀ list, handle ∉ lists list

theorem drop_of_ne (hne : other ≠ list) : lists.drop list handle other = lists other :=
  update_of_ne hne _ _

theorem drop_self : lists.drop list handle list = (lists list).erase handle :=
  update_self _ _ _

theorem add_of_ne (hne : other ≠ list) : lists.add list handle other = lists other :=
  update_of_ne hne _ _

theorem add_self : lists.add list handle list = lists list ++ [handle] :=
  update_self _ _ _

theorem mem_add : found ∈ lists.add list handle other ↔
    found ∈ lists other ∨ other = list ∧ found = handle := by
  by_cases heq : other = list
  · subst heq
    rw [add_self, mem_append, mem_singleton]
    simp
  · rw [add_of_ne heq]
    simp [heq]

theorem mem_addOldest : found ∈ lists.addOldest list handle other ↔
    found ∈ lists other ∨ other = list ∧ found = handle := by
  by_cases heq : other = list
  · subst heq
    rw [addOldest, update_self, mem_cons]
    simp [or_comm]
  · rw [addOldest, update_of_ne heq]
    simp [heq]

theorem mem_drop_of_ne (hne : found ≠ handle) :
    found ∈ lists.drop list handle other ↔ found ∈ lists other := by
  by_cases heq : other = list
  · subst heq
    rw [drop_self]
    exact mem_erase_of_ne hne
  · rw [drop_of_ne heq]

theorem handle_mem_ring : Node.handle handle ∈ lists.ring list ↔ handle ∈ lists list := by
  simp [ring]

end Lists

structure Rings (links : Links Node) (lists : Lists) : Prop where
  cyclic : ∀ list, Cyclic links (lists.ring list)
  apart : ∀ list other handle, handle ∈ lists list → handle ∈ lists other → list = other

namespace Rings

variable {links after : Links Node} {lists : Lists} {list other : ListHead} {handle : ℕ}

variable (h : Rings links lists)
include h

theorem nodup (list : ListHead) : (lists list).Nodup :=
  ((nodup_cons.mp (h.cyclic list).nodup).2).of_map

theorem disjoint (hne : list ≠ other) : (lists.ring list).Disjoint (lists.ring other) := by
  intro node hnode hother
  cases node with
  | head found =>
    have hlist : found = list := by simpa [Lists.ring] using hnode
    have hotherList : found = other := by simpa [Lists.ring] using hother
    exact hne (hlist.symm.trans hotherList)
  | handle found =>
    exact hne (h.apart list other found (Lists.handle_mem_ring.mp hnode)
      (Lists.handle_mem_ring.mp hother))

theorem off_drop (hmem : handle ∈ lists list) : (lists.drop list handle).Off handle := by
  intro other hother
  by_cases heq : other = list
  · subst heq
    rw [Lists.drop_self] at hother
    exact (h.nodup other).not_mem_erase hother
  · rw [Lists.drop_of_ne heq] at hother
    exact heq (h.apart other list handle hother hmem)

theorem mem_iff (hmem : handle ∈ lists list) : handle ∈ lists other ↔ some other = some list := by
  rw [Option.some.injEq]
  exact ⟨fun hother => h.apart other list handle hother hmem, fun heq => heq ▸ hmem⟩

theorem next_head (list : ListHead) :
    links.next (.head list) = match lists list with
      | [] => some (.head list)
      | oldest :: _ => some (.handle oldest) := by
  have hcyc := h.cyclic list
  unfold Lists.ring at hcyc
  cases hlist : lists list with
  | nil =>
    rw [hlist] at hcyc
    exact (hcyc.closed (.head list) rfl (.head list) rfl).1
  | cons oldest handles =>
    rw [hlist] at hcyc
    exact (isChain_cons_cons.mp hcyc.chain).1.1

theorem follow_round (list : ListHead) :
    links.follow ((lists list).length + 1) (.head list) = some (.head list) := by
  have hcyc := h.cyclic list
  have hclos : (lists.ring list ++ [Node.head list]).IsChain links.Joined := by
    refine isChain_append.mpr ⟨hcyc.chain, isChain_singleton _, ?_⟩
    intro last hlast first hfirst
    exact hcyc.closed last hlast first (by cases hfirst; rfl)
  have hfollow : links.follow ((lists list).map Node.handle ++ [Node.head list]).length
      (.head list) = (lists.ring list ++ [Node.head list]).getLast? := follow_eq_getLast? hclos
  rwa [length_append, length_map, getLast?_concat] at hfollow

theorem update {nodes : List Node} {handles : List ℕ}
    (hcyc : Cyclic after (.head list :: handles.map .handle)) (hframe : Frame links after nodes)
    (hnodes : ∀ other ≠ list, (lists.ring other).Disjoint nodes)
    (hapart : ∀ handle ∈ handles, ∀ other ≠ list, handle ∉ lists other) :
    Rings after (update lists list handles) where
  cyclic := by
    intro other
    unfold Lists.ring
    by_cases heq : other = list
    · subst heq
      rw [update_self]
      exact hcyc
    · rw [update_of_ne heq]
      exact (h.cyclic other).frame hframe (hnodes other heq)
  apart := by
    intro first second handle hfirst hsnd
    by_cases hone : first = list
    · by_cases htwo : second = list
      · exact hone.trans htwo.symm
      · subst hone
        rw [update_self] at hfirst
        rw [update_of_ne htwo] at hsnd
        exact absurd hsnd (hapart handle hfirst second htwo)
    · rw [update_of_ne hone] at hfirst
      by_cases htwo : second = list
      · subst htwo
        rw [update_self] at hsnd
        exact absurd hfirst (hapart handle hsnd first hone)
      · rw [update_of_ne htwo] at hsnd
        exact h.apart first second handle hfirst hsnd

theorem remove (hmem : handle ∈ lists list) :
    ∃ after, links.cut (.handle handle) (.handle handle) = some after ∧
      Rings after (lists.drop list handle) := by
  obtain ⟨older, newer, hsplit⟩ := append_of_mem hmem
  have hcyc := h.cyclic list
  have hring : lists.ring list = (.head list :: older.map .handle) ++
      (.handle handle :: newer.map .handle) := by
    rw [Lists.ring, hsplit]
    simp
  rw [hring] at hcyc
  have hrotated : Cyclic links (.handle handle :: (newer.map .handle ++
      .head list :: older.map .handle)) := hcyc.rotate
  obtain ⟨after, hcut, hafter, hframe⟩ := hrotated.cut_node (by simp)
  have herase : (lists list).erase handle = older ++ newer := by
    have hnodup := h.nodup list
    rw [hsplit] at hnodup ⊢
    have hnot : handle ∉ older := fun hin =>
      (nodup_append.mp hnodup).2.2 handle hin handle mem_cons_self rfl
    rw [erase_append_right _ hnot, erase_cons_head]
  refine ⟨after, hcut, ?_⟩
  rw [Lists.drop, herase]
  refine h.update ?_ hframe ?_ ?_
  · rw [map_append, ← cons_append]
    exact hafter.rotate
  · intro other hne node hnode hin
    refine h.disjoint hne hnode ?_
    rw [hring]
    simp only [mem_append, mem_cons] at hin ⊢
    tauto
  · intro found hfound other hne hother
    refine hne (h.apart other list found hother ?_)
    rw [hsplit]
    simp only [mem_append, mem_cons] at hfound ⊢
    tauto

theorem append (list : ListHead) (hoff : lists.Off handle) :
    ∃ after, links.paste (.head list) (.handle handle) (.handle handle) = some after ∧
      Rings after (lists.add list handle) := by
  have hnot : Node.handle handle ∉ lists.ring list := fun hring =>
    hoff list (Lists.handle_mem_ring.mp hring)
  obtain ⟨after, hpaste, hafter, hframe⟩ := (h.cyclic list).paste_node hnot
  refine ⟨after, hpaste, h.update ?_ hframe ?_ ?_⟩
  · rw [map_append, ← cons_append]
    exact hafter
  · intro other hne node hnode hin
    rcases mem_append.mp hin with hring | hsingle
    · exact h.disjoint hne hnode hring
    · rw [mem_singleton.mp hsingle, Lists.handle_mem_ring] at hnode
      exact hoff other hnode
  · intro found hfound other hne hother
    rcases mem_append.mp hfound with hold | hsingle
    · exact hne (h.apart other list found hother hold)
    · rw [mem_singleton.mp hsingle] at hother
      exact hoff other hother

theorem appendOldest (list : ListHead) (hoff : lists.Off handle) :
    ∃ oldest after, links.next (.head list) = some oldest ∧
      links.paste oldest (.handle handle) (.handle handle) = some after ∧
      Rings after (lists.addOldest list handle) := by
  have hnext := h.next_head list
  cases hlist : lists list with
  | nil =>
    rw [hlist] at hnext
    obtain ⟨after, hpaste, hafter⟩ := h.append list hoff
    refine ⟨_, after, hnext, hpaste, ?_⟩
    rw [Lists.add, hlist] at hafter
    rw [Lists.addOldest, hlist]
    exact hafter
  | cons oldest handles =>
    rw [hlist] at hnext
    have hring : lists.ring list = [.head list] ++ (.handle oldest :: handles.map .handle) := by
      rw [Lists.ring, hlist]
      rfl
    have hcyc := h.cyclic list
    rw [hring] at hcyc
    have hnot : Node.handle handle ∉ (.handle oldest :: handles.map .handle) ++ [.head list] := by
      intro hin
      refine hoff list (Lists.handle_mem_ring.mp ?_)
      rw [hring, mem_append]
      exact (mem_append.mp hin).symm
    have hrotated : Cyclic links (.handle oldest :: (handles.map .handle ++ [.head list])) :=
      hcyc.rotate
    obtain ⟨after, hpaste, hafter, hframe⟩ := hrotated.paste_node hnot
    refine ⟨_, after, hnext, hpaste, h.update ?_ hframe ?_ ?_⟩
    · have hring : Cyclic after ((.handle oldest :: handles.map .handle) ++
          [.head list, .handle handle]) := by
        rw [← cons_append, append_assoc] at hafter
        exact hafter
      rw [hlist]
      exact hring.rotate
    · intro other hne node hnode hin
      rcases mem_append.mp hin with hold | hsingle
      · refine h.disjoint hne hnode ?_
        rw [hring, mem_append]
        exact (mem_append.mp hold).symm
      · rw [mem_singleton.mp hsingle, Lists.handle_mem_ring] at hnode
        exact hoff other hnode
    · intro found hfound other hne hother
      rcases mem_cons.mp hfound with rfl | hold
      · exact hoff other hother
      · exact hne (h.apart other list found hother hold)

theorem cutOldest {oldest : ℕ} {batch rest : List ℕ}
    (hlist : lists list = (oldest :: batch) ++ rest) :
    ∃ last after, links.next (.head list) = some (.handle oldest) ∧
      links.follow batch.length (.handle oldest) = some last ∧
      ((oldest :: batch).map Node.handle).getLast? = some last ∧
      links.cut (.handle oldest) last = some after ∧
      Rings after (Function.update lists list rest) ∧
      ((oldest :: batch).map Node.handle).IsChain after.Joined ∧ after.next last = none := by
  have hcyc := h.cyclic list
  have hring : lists.ring list = [.head list] ++
      ((oldest :: batch).map .handle ++ rest.map .handle) := by
    rw [Lists.ring, hlist, List.map_append]
    rfl
  rw [hring] at hcyc
  have hrotated : Cyclic links ((oldest :: batch).map .handle ++
      (rest.map .handle ++ [.head list])) := by
    rw [← List.append_assoc]
    exact hcyc.rotate
  have hchain : ((oldest :: batch).map Node.handle).IsChain links.Joined :=
    (List.isChain_append.mp hrotated.chain).1
  obtain ⟨last, hlast⟩ := Option.isSome_iff_exists.mp
    (List.getLast?_isSome.mpr (List.cons_ne_nil (Node.handle oldest) (batch.map .handle)))
  have hfirst : ((oldest :: batch).map Node.handle).head? = some (.handle oldest) := rfl
  have hne : rest.map Node.handle ++ [.head list] ≠ [] := by simp
  obtain ⟨after, hcut, hafter, hseg, hnull, hframe⟩ := hrotated.cut hfirst hlast hne
  have hfollow : links.follow batch.length (.handle oldest) = some last := by
    have hwalk := follow_eq_getLast? hchain
    rw [List.length_map] at hwalk
    exact hwalk.trans hlast
  have hnext := h.next_head list
  rw [hlist] at hnext
  refine ⟨last, after, hnext, hfollow, hlast, hcut, h.update hafter.rotate hframe ?_ ?_,
    hseg, hnull⟩
  · intro other hother node hnode hin
    refine h.disjoint hother hnode ?_
    rw [hring]
    simp only [List.mem_append] at hin ⊢
    tauto
  · intro found hfound other hother hmem
    refine hother (h.apart other list found hmem ?_)
    rw [hlist]
    exact List.mem_append_right _ hfound

theorem pasteNewest (list : ListHead) {oldest : ℕ} {batch : List ℕ}
    {last : Node} (hchain : ((oldest :: batch).map Node.handle).IsChain links.Joined)
    (hnodup : (oldest :: batch).Nodup) (hoff : ∀ found ∈ oldest :: batch, lists.Off found)
    (hlast : ((oldest :: batch).map Node.handle).getLast? = some last) :
    ∃ after, links.paste (.head list) (.handle oldest) last = some after ∧
      Rings after (Function.update lists list (lists list ++ (oldest :: batch))) := by
  have hfirst : ((oldest :: batch).map Node.handle).head? = some (.handle oldest) := rfl
  have hdisj : ((oldest :: batch).map Node.handle).Disjoint (lists.ring list) := by
    intro node hnode hring
    obtain ⟨found, hfound, rfl⟩ := List.mem_map.mp hnode
    exact hoff found hfound list (Lists.handle_mem_ring.mp hring)
  have hinjective : Function.Injective Node.handle := fun _ _ heq => Node.handle.inj heq
  obtain ⟨after, hpaste, hafter, hframe⟩ :=
    (h.cyclic list).paste rfl hchain (hnodup.map hinjective) hdisj hfirst hlast
  refine ⟨after, hpaste, h.update ?_ hframe ?_ ?_⟩
  · rw [List.map_append, ← List.cons_append]
    exact hafter
  · intro other hother node hnode hin
    rcases List.mem_append.mp hin with hring | hseg
    · exact h.disjoint hother hnode hring
    · obtain ⟨found, hfound, rfl⟩ := List.mem_map.mp hseg
      exact hoff found hfound other (Lists.handle_mem_ring.mp hnode)
  · intro found hfound other hother hmem
    rcases List.mem_append.mp hfound with hold | hseg
    · exact hother (h.apart other list found hmem hold)
    · exact hoff found hseg other hmem

end Rings

end MemoryEngine.PageCache
