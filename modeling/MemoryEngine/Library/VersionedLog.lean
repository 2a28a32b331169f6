import Mathlib.Data.List.Duplicate
import Mathlib.Data.List.Induction
import Mathlib.Data.List.Perm.Subperm
import Mathlib.Data.List.Sort
import Mathlib.Tactic.Common

/-! Logs of versioned updates to many objects.

An event updates the object `key e` and produces its version `version e`.  A
log is in order when the events of each object carry the versions 1, 2, 3, ...
as they come.  The lemmas say that an in-order log of a gap-free history never
meets an old version, that such a log is determined object by object by the set
of its events, and that a history with one consistent total order always has an
event that can come next. -/
namespace VersionedLog

open List

variable {Event Key : Type} [DecidableEq Key] (key : Event → Key) (version : Event → Nat)

def ofKey (k : Key) (events : List Event) : List Event :=
  events.filter fun e => key e = k

def InOrder (events : List Event) : Prop :=
  ∀ before e after, events = before ++ e :: after →
    version e = (ofKey key (key e) before).length + 1

/-- The events of each object carry the versions `1, ..., v`, each once. -/
def GapFree (events : List Event) : Prop :=
  ∀ k, ∃ v, ((ofKey key k events).map version).Perm (range' 1 v)

variable {key version}

@[simp] theorem ofKey_append (k : Key) (first second : List Event) :
    ofKey key k (first ++ second) = ofKey key k first ++ ofKey key k second :=
  filter_append ..

theorem ofKey_singleton_self (e : Event) : ofKey key (key e) [e] = [e] := by
  simp [ofKey]

variable {e : Event} {events : List Event} {α : Type}

theorem ofKey_singleton_of_ne {k : Key} (h : key e ≠ k) : ofKey key k [e] = [] := by
  simp [ofKey, h]

theorem inOrder_nil : InOrder key version [] := by
  intro before e after h
  simp at h

theorem InOrder.of_append {first second : List Event}
    (h : InOrder key version (first ++ second)) : InOrder key version first := by
  intro before e after hsplit
  exact h before e (after ++ second) (by simp [hsplit])

theorem inOrder_concat :
    InOrder key version (events ++ [e]) ↔
      InOrder key version events ∧ version e = (ofKey key (key e) events).length + 1 := by
  constructor
  · intro h
    exact ⟨h.of_append, h events e [] rfl⟩
  · rintro ⟨hevents, he⟩ before e' after hsplit
    rcases eq_nil_or_concat' after with rfl | ⟨init, last, rfl⟩
    · obtain ⟨rfl, hlast⟩ := append_inj' hsplit rfl
      obtain rfl : e = e' := by simpa using hlast
      exact he
    · rw [← cons_append, ← append_assoc] at hsplit
      obtain ⟨rfl, -⟩ := append_inj' hsplit rfl
      exact hevents before e' init rfl

theorem InOrder.versions (h : InOrder key version events) (k : Key) :
    (ofKey key k events).map version = range' 1 (ofKey key k events).length := by
  induction events using reverseRecOn with
  | nil => rfl
  | append_singleton events e ih =>
    obtain ⟨hevents, he⟩ := inOrder_concat.mp h
    by_cases hk : key e = k
    · subst hk
      rw [ofKey_append, ofKey_singleton_self, map_append, ih hevents, length_append,
        length_singleton, range'_concat, map_singleton, he]
      simp [Nat.add_comm]
    · rw [ofKey_append, ofKey_singleton_of_ne hk, append_nil]
      exact ih hevents

theorem InOrder.pairwise (h : InOrder key version events) (k : Key) :
    (ofKey key k events).Pairwise fun a b => version a < version b := by
  have hrange : (range' 1 (ofKey key k events).length).Pairwise (· < ·) :=
    pairwise_lt_range'
  rw [← h.versions k, pairwise_map] at hrange
  exact hrange

theorem InOrder.nodup (h : InOrder key version events) : events.Nodup := by
  induction events using reverseRecOn with
  | nil => exact nodup_nil
  | append_singleton events e ih =>
    obtain ⟨hevents, he⟩ := inOrder_concat.mp h
    refine List.Nodup.append (ih hevents) (nodup_singleton e) ?_
    intro e' hmem heq
    obtain rfl : e' = e := by simpa using heq
    have hver : version e' ∈ (ofKey key (key e') events).map version :=
      mem_map_of_mem (by simp [ofKey, hmem])
    rw [hevents.versions, mem_range'_1] at hver
    omega

theorem subperm_map {β : Type} (f : α → β) {first second : List α}
    (h : first.Subperm second) : (first.map f).Subperm (second.map f) := by
  obtain ⟨middle, hperm, hsub⟩ := h
  exact ⟨middle.map f, hperm.map f, hsub.map f⟩

variable {all : List Event}

theorem InOrder.lt_version (hall : GapFree key version all)
    (h : InOrder key version events) (hsub : (events ++ [e]).Subperm all) :
    (ofKey key (key e) events).length < version e := by
  obtain ⟨v, hperm⟩ := hall (key e)
  have hsub' : ((ofKey key (key e) (events ++ [e])).map version).Subperm (range' 1 v) :=
    (subperm_map version (hsub.filter _)).trans hperm.subperm
  rw [ofKey_append, ofKey_singleton_self, map_append, h.versions] at hsub'
  have hpos : 1 ≤ version e := by
    have hmem := hsub'.subset (mem_append_right _ (mem_singleton.mpr rfl))
    exact (mem_range'_1.mp hmem).1
  have hnodup : (range' 1 (ofKey key (key e) events).length ++ [version e]).Nodup := by
    obtain ⟨middle, hmid, hsublist⟩ := hsub'
    exact hmid.nodup_iff.mp (hsublist.nodup nodup_range')
  by_contra hle
  refine (nodup_append.mp hnodup).2.2 (version e) ?_ (version e) (by simp) rfl
  rw [mem_range'_1]
  omega

theorem ofKey_eq_of_perm {first second : List Event} (hfirst : InOrder key version first)
    (hsnd : InOrder key version second) (hperm : first.Perm second) (k : Key) :
    ofKey key k first = ofKey key k second :=
  (hperm.filter _).eq_of_pairwise (fun _ _ _ _ hab hba => absurd hab (Nat.lt_asymm hba))
    (hfirst.pairwise k) (hsnd.pairwise k)

theorem GapFree.nodup (hall : GapFree key version all) : all.Nodup := by
  rw [nodup_iff_forall_not_duplicate]
  intro e hdup
  obtain ⟨v, hperm⟩ := hall (key e)
  have hnodup : ((ofKey key (key e) all).map version).Nodup :=
    hperm.nodup_iff.mpr nodup_range'
  have hpair : [e, e].Sublist (ofKey key (key e) all) := by
    have := (duplicate_iff_sublist.mp hdup).filter fun x => decide (key x = key e)
    simpa [ofKey] using this
  have := (hpair.map version).nodup hnodup
  simp at this

theorem GapFree.eq_of_version_eq (hall : GapFree key version all)
    {a b : Event} (ha : a ∈ all) (hb : b ∈ all) (hkey : key a = key b)
    (hver : version a = version b) : a = b := by
  obtain ⟨v, hperm⟩ := hall (key b)
  have hnodup : ((ofKey key (key b) all).map version).Nodup :=
    hperm.nodup_iff.mpr nodup_range'
  refine inj_on_of_nodup_map hnodup ?_ ?_ hver
  · simp [ofKey, ha, hkey]
  · simp [ofKey, hb]

/-- The first event of a consistent total order that is missing from an
in-order log carries the next version of its object. -/
theorem InOrder.version_of_first_missing {order before after : List Event}
    (hgap : GapFree key version order)
    (hsorted : ∀ k, (ofKey key k order).Pairwise fun a b => version a < version b)
    (h : InOrder key version events) (hsub : events ⊆ order)
    (hsplit : order = before ++ e :: after) (hpre : before ⊆ events) (he : e ∉ events) :
    version e = (ofKey key (key e) events).length + 1 := by
  have hmem : e ∈ order := by simp [hsplit]
  have hcut : ofKey key (key e) order =
      ofKey key (key e) before ++ e :: ofKey key (key e) after := by
    simp [hsplit, ofKey]
  -- sorted and gap-free: position and version agree
  have hposn : version e = (ofKey key (key e) before).length + 1 := by
    obtain ⟨v, hperm⟩ := hgap (key e)
    have hrange : (ofKey key (key e) order).map version = List.range' 1 v := by
      refine hperm.eq_of_pairwise (fun _ _ _ _ hab hba => absurd hab (Nat.lt_asymm hba)) ?_
        List.pairwise_lt_range'
      exact List.pairwise_map.mpr (hsorted (key e))
    have hget := congrArg (fun l => l[(ofKey key (key e) before).length]?) hrange
    rw [hcut] at hget
    simp only [List.map_append, List.map_cons] at hget
    rw [List.getElem?_append_right (by simp)] at hget
    simp only [List.length_map, Nat.sub_self, List.getElem?_cons_zero] at hget
    have hlt := (List.getElem?_eq_some_iff.mp hget.symm).1
    rw [List.getElem?_range' (by simpa using hlt)] at hget
    have := Option.some.inj hget
    omega
  have hle : (ofKey key (key e) before).length ≤ (ofKey key (key e) events).length := by
    have hnodup : (ofKey key (key e) before).Nodup := by
      have hpair := hsorted (key e)
      rw [hcut] at hpair
      exact (List.pairwise_append.mp hpair).1.imp fun hlt heq => by simp [heq] at hlt
    apply (hnodup.subperm ?_).length_le
    intro x hx
    simp only [ofKey, List.mem_filter, decide_eq_true_eq] at hx ⊢
    exact ⟨hpre hx.1, hx.2⟩
  have hgt : (ofKey key (key e) events).length < version e := by
    by_contra hnot
    have hin : version e ∈ (ofKey key (key e) events).map version := by
      rw [h.versions, List.mem_range'_1]
      omega
    obtain ⟨x, hx, hver⟩ := List.mem_map.mp hin
    simp only [ofKey, List.mem_filter, decide_eq_true_eq] at hx
    have hsame := hgap.eq_of_version_eq (hsub hx.1) hmem hx.2 hver
    exact he (hsame ▸ hx.1)
  omega

theorem exists_first_missing {order : List Event} (h : ∃ e ∈ order, e ∉ events) :
    ∃ before e after, order = before ++ e :: after ∧ before ⊆ events ∧ e ∉ events := by
  induction order with
  | nil => simp at h
  | cons a order ih =>
    by_cases ha : a ∈ events
    · obtain ⟨e, he, hmissing⟩ := h
      have hmem : e ∈ order := by
        rcases mem_cons.mp he with rfl | hmem
        · exact absurd ha hmissing
        · exact hmem
      obtain ⟨before, first, after, rfl, hpre, hfirst⟩ := ih ⟨e, hmem, hmissing⟩
      exact ⟨a :: before, first, after, rfl, cons_subset.mpr ⟨ha, hpre⟩, hfirst⟩
    · exact ⟨[], a, order, rfl, nil_subset _, ha⟩

/-! ### Logs made of several streams -/

theorem mem_of_pair_sublist {a e : α} {before after : List α}
    (hnodup : (before ++ e :: after).Nodup) (h : [a, e].Sublist (before ++ e :: after)) :
    a ∈ before := by
  have hafter : e ∉ after := (nodup_cons.mp (nodup_append.mp hnodup).2.1).1
  obtain ⟨first, second, hsplit, hfirst, hsnd⟩ := sublist_append_iff.mp h
  cases first with
  | cons b first =>
    obtain ⟨rfl, -⟩ := List.cons.inj hsplit
    exact hfirst.subset (by simp)
  | nil =>
    subst hsplit
    have hmem : e ∈ after := by
      cases hsnd with
      | cons _ htail => exact htail.subset (by simp)
      | cons_cons _ htail => exact htail.subset (by simp)
    exact absurd hmem hafter

theorem flatMap_append_perm (before after : Nat → List α) {c n : Nat} (hc : c < n) {extra : List α}
    (hself : after c = before c ++ extra) (hother : ∀ i, i ≠ c → after i = before i) :
    ((List.range n).flatMap before ++ extra).Perm ((List.range n).flatMap after) := by
  induction n with
  | zero => exact absurd hc (Nat.not_lt_zero _)
  | succ n ih =>
    simp only [range_succ, flatMap_append, flatMap_singleton]
    by_cases hn : n = c
    · subst hn
      have hsame : (List.range n).flatMap after = (List.range n).flatMap before :=
        flatMap_congr fun i hi => hother i (Nat.ne_of_lt (mem_range.mp hi))
      rw [hsame, hself, append_assoc]
    · rw [hother n hn, append_assoc]
      refine (perm_append_comm.append_left _).trans ?_
      rw [← append_assoc]
      exact (ih (by omega)).append_right _

theorem flatMap_sublist {β : Type} {f g : α → List β} (l : List α)
    (h : ∀ a ∈ l, (f a).Sublist (g a)) : (l.flatMap f).Sublist (l.flatMap g) := by
  induction l with
  | nil => simp
  | cons a l ih =>
    simp only [flatMap_cons]
    exact (h a (by simp)).append (ih fun b hb => h b (by simp [hb]))

end VersionedLog
