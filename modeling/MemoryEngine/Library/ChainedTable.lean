import Mathlib.Data.List.Nodup
import Mathlib.Logic.Function.Basic

/-! Hash tables with chained entries that carry their keys themselves.

The table holds entries only; the key of an entry is read from the entry.  The number of buckets
grows with the number of entries. -/
namespace ChainedTable

open List Function

structure Table (E : Type) where
  length : ℕ
  elems : ℕ
  bucket : ℕ → List E

variable {E K : Type} [DecidableEq K] (table : Table E)

section Operations

variable (keyOf : E → K) (hash : K → ℕ)

def index (length : ℕ) (key : K) : ℕ := hash key &&& (length - 1)

def Table.lookup (key : K) : Option E :=
  (table.bucket (index hash table.length key)).find? fun entry => keyOf entry = key

/-- The first entry of the chain with the key is replaced, or the entry is put at the end. -/
def place (entry : E) : List E → List E
  | [] => [entry]
  | head :: chain => if keyOf head = keyOf entry then entry :: chain else head :: place entry chain

/-- The first entry of the chain with the key is taken out. -/
def unlink (key : K) : List E → List E
  | [] => []
  | head :: chain => if keyOf head = key then chain else head :: unlink key chain

/-- Doubling from `length` until it reaches the number of entries. -/
def grow (elems : ℕ) : ℕ → ℕ → ℕ
  | 0, length => length
  | fuel + 1, length => if length < elems then grow elems fuel (2 * length) else length

def Table.entries : List E := (List.range table.length).flatMap table.bucket

/-- The entries go one after the other to the front of their new chains. -/
def Table.resize : Table E :=
  let length := grow table.elems table.elems 4
  { length := length
    elems := table.elems
    bucket := fun i =>
      (table.entries.filter fun entry => index hash length (keyOf entry) = i).reverse }

def Table.setChain (i : ℕ) (chain : List E) (elems : ℕ) : Table E :=
  ⟨table.length, elems, update table.bucket i chain⟩

/-- The entry is put in, the entry with the same key before is returned. -/
def Table.insert (entry : E) : Option E × Table E :=
  let i := index hash table.length (keyOf entry)
  let chain := place keyOf entry (table.bucket i)
  match table.lookup keyOf hash (keyOf entry) with
  | some old => (some old, table.setChain i chain table.elems)
  | none =>
      let grown := table.setChain i chain (table.elems + 1)
      (none, if grown.length < grown.elems then grown.resize keyOf hash else grown)

def Table.remove (key : K) : Option E × Table E :=
  match table.lookup keyOf hash key with
  | none => (none, table)
  | some old =>
      let i := index hash table.length key
      (some old, table.setChain i (unlink keyOf key (table.bucket i)) (table.elems - 1))

/-- Each entry stands in the bucket of its key, and no two entries have the same key. -/
structure Table.Sound (table : Table E) : Prop where
  length_pos : 0 < table.length
  place : ∀ i, ∀ entry ∈ table.bucket i, i = index hash table.length (keyOf entry)
  keys : ∀ i, ((table.bucket i).map keyOf).Nodup

end Operations

def Table.Mem (entry : E) : Prop := ∃ i, entry ∈ table.bucket i

variable {keyOf other : E → K} {hash : K → ℕ} {table : Table E} {entry found : E} {key : K}
  {chain : List E}

section Chains

omit [DecidableEq K]

theorem index_lt {length : ℕ} (h : 0 < length) : index hash length key < length := by
  have hle : index hash length key ≤ length - 1 := Nat.and_le_right
  omega

theorem grow_pos {elems fuel length : ℕ} (h : 0 < length) : 0 < grow elems fuel length := by
  induction fuel generalizing length with
  | zero => exact h
  | succ fuel ih =>
    rw [grow]
    split
    · exact ih (by omega)
    · exact h

variable (h : table.Sound keyOf hash)
include h

theorem Table.Sound.congr
    (hkeys : ∀ entry, table.Mem entry → other entry = keyOf entry) : table.Sound other hash where
  length_pos := h.length_pos
  place := by
    intro i entry hentry
    rw [hkeys entry ⟨i, hentry⟩]
    exact h.place i entry hentry
  keys := by
    intro i
    rw [map_congr_left fun entry hentry => hkeys entry ⟨i, hentry⟩]
    exact h.keys i

theorem Table.Sound.mem_iff :
    table.Mem entry ↔ entry ∈ table.bucket (index hash table.length (keyOf entry)) := by
  constructor
  · rintro ⟨i, hentry⟩
    rwa [← h.place i entry hentry]
  · intro hentry
    exact ⟨_, hentry⟩

theorem Table.Sound.mem_entries : entry ∈ table.entries ↔ table.Mem entry := by
  rw [Table.entries, mem_flatMap]
  constructor
  · rintro ⟨i, -, hentry⟩
    exact ⟨i, hentry⟩
  · rintro ⟨i, hentry⟩
    refine ⟨i, mem_range.mpr ?_, hentry⟩
    rw [h.place i entry hentry]
    exact index_lt h.length_pos

theorem Table.Sound.nodup_entries : (table.entries.map keyOf).Nodup := by
  rw [Table.entries, map_flatMap, nodup_flatMap]
  refine ⟨fun i _ => h.keys i, ?_⟩
  refine nodup_range.imp ?_
  intro i j hne key hi hj
  obtain ⟨first, hfirst, hfirstKey⟩ := mem_map.mp hi
  obtain ⟨second, hsnd, hsecondKey⟩ := mem_map.mp hj
  rw [h.place i first hfirst, h.place j second hsnd, hfirstKey, hsecondKey] at hne
  exact hne rfl

theorem Table.Sound.mem_resize : (table.resize keyOf hash).Mem entry ↔ table.Mem entry := by
  rw [← h.mem_entries]
  constructor
  · rintro ⟨i, hentry⟩
    exact (mem_filter.mp (mem_reverse.mp hentry)).1
  · intro hentry
    exact ⟨_, mem_reverse.mpr (mem_filter.mpr ⟨hentry, decide_eq_true rfl⟩)⟩

theorem Table.Sound.resize : (table.resize keyOf hash).Sound keyOf hash where
  length_pos := grow_pos (by decide)
  place := by
    intro i entry hentry
    have hindex := (mem_filter.mp (mem_reverse.mp hentry)).2
    exact (of_decide_eq_true hindex).symm
  keys := by
    intro i
    have hfilter := h.nodup_entries.sublist ((filter_sublist
      (p := fun entry => index hash (grow table.elems table.elems 4) (keyOf entry) = i)).map keyOf)
    exact (map_reverse ▸ nodup_reverse.mpr hfilter)

theorem Table.Sound.setChain {i elems : ℕ}
    (hplace : ∀ entry ∈ chain, i = index hash table.length (keyOf entry))
    (hkeys : (chain.map keyOf).Nodup) : (table.setChain i chain elems).Sound keyOf hash where
  length_pos := h.length_pos
  place := by
    intro j entry hentry
    by_cases hj : j = i
    · have hself : (table.setChain i chain elems).bucket j = chain := hj ▸ update_self _ _ _
      rw [hself] at hentry
      rw [hj]
      exact hplace entry hentry
    · have hother : (table.setChain i chain elems).bucket j = table.bucket j :=
        update_of_ne hj _ _
      rw [hother] at hentry
      exact h.place j entry hentry
  keys := by
    intro j
    by_cases hj : j = i
    · have hself : (table.setChain i chain elems).bucket j = chain := hj ▸ update_self _ _ _
      rw [hself]
      exact hkeys
    · have hother : (table.setChain i chain elems).bucket j = table.bucket j :=
        update_of_ne hj _ _
      rw [hother]
      exact h.keys j

theorem Table.Sound.mem_setChain {i elems : ℕ} :
    (table.setChain i chain elems).Mem entry ↔
      entry ∈ chain ∨ table.Mem entry ∧ index hash table.length (keyOf entry) ≠ i := by
  have hself : (table.setChain i chain elems).bucket i = chain := update_self _ _ _
  have hother : ∀ j ≠ i, (table.setChain i chain elems).bucket j = table.bucket j :=
    fun j hj => update_of_ne hj _ _
  constructor
  · rintro ⟨j, hentry⟩
    by_cases hj : j = i
    · rw [hj, hself] at hentry
      exact Or.inl hentry
    · rw [hother j hj] at hentry
      refine Or.inr ⟨⟨j, hentry⟩, ?_⟩
      rwa [← h.place j entry hentry]
  · rintro (hentry | ⟨⟨j, hentry⟩, hne⟩)
    · refine ⟨i, ?_⟩
      rw [hself]
      exact hentry
    · refine ⟨j, ?_⟩
      rw [← h.place j entry hentry] at hne
      rw [hother j hne]
      exact hentry

end Chains

theorem Table.Sound.lookup_eq_some_iff (h : table.Sound keyOf hash) :
    table.lookup keyOf hash key = some entry ↔ table.Mem entry ∧ keyOf entry = key := by
  constructor
  · intro hlook
    have hkey : keyOf entry = key := by simpa using find?_some hlook
    exact ⟨⟨_, mem_of_find?_eq_some hlook⟩, hkey⟩
  · rintro ⟨hmem, rfl⟩
    have hbucket := h.mem_iff.mp hmem
    cases hlook : table.lookup keyOf hash (keyOf entry) with
    | none =>
      have hnone := find?_eq_none.mp hlook entry hbucket
      simp at hnone
    | some found =>
      have hkey : keyOf found = keyOf entry := by simpa using find?_some hlook
      rw [inj_on_of_nodup_map (h.keys _) (mem_of_find?_eq_some hlook) hbucket hkey]

theorem Table.Sound.lookup_congr (h : table.Sound keyOf hash)
    (hkeys : ∀ entry, table.Mem entry → other entry = keyOf entry) :
    table.lookup other hash key = table.lookup keyOf hash key := by
  apply Option.ext
  intro entry
  rw [(h.congr hkeys).lookup_eq_some_iff, h.lookup_eq_some_iff]
  constructor
  · rintro ⟨hmem, hkey⟩
    exact ⟨hmem, (hkeys entry hmem).symm.trans hkey⟩
  · rintro ⟨hmem, hkey⟩
    exact ⟨hmem, (hkeys entry hmem).trans hkey⟩

theorem Table.Sound.lookup_eq_none_iff (h : table.Sound keyOf hash) :
    table.lookup keyOf hash key = none ↔ ∀ entry, table.Mem entry → keyOf entry ≠ key := by
  constructor
  · intro hnone entry hmem heq
    rw [h.lookup_eq_some_iff.mpr ⟨hmem, heq⟩] at hnone
    cases hnone
  · intro hkeys
    cases hlook : table.lookup keyOf hash key with
    | none => rfl
    | some found =>
      obtain ⟨hmem, hkey⟩ := h.lookup_eq_some_iff.mp hlook
      exact absurd hkey (hkeys found hmem)

theorem mem_place (h : (chain.map keyOf).Nodup) :
    found ∈ place keyOf entry chain ↔
      found = entry ∨ found ∈ chain ∧ keyOf found ≠ keyOf entry := by
  induction chain with
  | nil => simp [place]
  | cons head chain ih =>
    rw [map_cons, nodup_cons] at h
    rw [place]
    by_cases hhead : keyOf head = keyOf entry
    · -- the head is the only entry with the key
      have htail : ∀ later ∈ chain, keyOf later ≠ keyOf entry := by
        intro later hlater heq
        exact h.1 (hhead ▸ heq ▸ mem_map_of_mem hlater)
      rw [if_pos hhead, mem_cons, mem_cons]
      constructor
      · rintro (hfound | hfound)
        · exact Or.inl hfound
        · exact Or.inr ⟨Or.inr hfound, htail found hfound⟩
      · rintro (hfound | ⟨rfl | hfound, hkey⟩)
        · exact Or.inl hfound
        · exact absurd hhead hkey
        · exact Or.inr hfound
    · rw [if_neg hhead, mem_cons, mem_cons, ih h.2]
      constructor
      · rintro (rfl | hfound | hfound)
        · exact Or.inr ⟨Or.inl rfl, hhead⟩
        · exact Or.inl hfound
        · exact Or.inr ⟨Or.inr hfound.1, hfound.2⟩
      · rintro (hfound | ⟨hfound | hfound, hkey⟩)
        · exact Or.inr (Or.inl hfound)
        · exact Or.inl hfound
        · exact Or.inr (Or.inr ⟨hfound, hkey⟩)

theorem nodup_place (h : (chain.map keyOf).Nodup) :
    ((place keyOf entry chain).map keyOf).Nodup := by
  induction chain with
  | nil => simp [place]
  | cons head chain ih =>
    rw [place]
    split
    · rename_i hhead
      rw [map_cons, ← hhead, ← map_cons]
      exact h
    · rename_i hhead
      rw [map_cons, nodup_cons] at h ⊢
      refine ⟨?_, ih h.2⟩
      intro hmem
      obtain ⟨later, hlater, hkey⟩ := mem_map.mp hmem
      rcases (mem_place h.2).mp hlater with rfl | ⟨hchain, -⟩
      · exact hhead hkey.symm
      · exact h.1 (hkey ▸ mem_map_of_mem hchain)

theorem map_unlink : (unlink keyOf key chain).map keyOf = (chain.map keyOf).erase key := by
  induction chain with
  | nil => rfl
  | cons head chain ih =>
    rw [unlink, map_cons, erase_cons]
    by_cases hhead : keyOf head = key
    · rw [if_pos hhead, if_pos (beq_iff_eq.mpr hhead)]
    · rw [if_neg hhead, if_neg (by simpa using hhead), map_cons, ih]

theorem mem_unlink (h : (chain.map keyOf).Nodup) :
    found ∈ unlink keyOf key chain ↔ found ∈ chain ∧ keyOf found ≠ key := by
  induction chain with
  | nil => simp [unlink]
  | cons head chain ih =>
    rw [map_cons, nodup_cons] at h
    rw [unlink]
    by_cases hhead : keyOf head = key
    · have htail : ∀ later ∈ chain, keyOf later ≠ key := by
        intro later hlater heq
        exact h.1 (hhead ▸ heq ▸ mem_map_of_mem hlater)
      rw [if_pos hhead, mem_cons]
      constructor
      · intro hfound
        exact ⟨Or.inr hfound, htail found hfound⟩
      · rintro ⟨rfl | hfound, hkey⟩
        · exact absurd hhead hkey
        · exact hfound
    · rw [if_neg hhead, mem_cons, mem_cons, ih h.2]
      constructor
      · rintro (rfl | hfound)
        · exact ⟨Or.inl rfl, hhead⟩
        · exact ⟨Or.inr hfound.1, hfound.2⟩
      · rintro ⟨hfound | hfound, hkey⟩
        · exact Or.inl hfound
        · exact Or.inr ⟨hfound, hkey⟩

variable (h : table.Sound keyOf hash)
include h

theorem Table.Sound.place_index (hfound : found ∈ ChainedTable.place keyOf entry
      (table.bucket (index hash table.length (keyOf entry)))) :
    index hash table.length (keyOf entry) = index hash table.length (keyOf found) := by
  rcases (mem_place (h.keys _)).mp hfound with rfl | ⟨hold, -⟩
  · rfl
  · exact h.place _ found hold

theorem Table.Sound.mem_setChain_place {elems : ℕ} :
    (table.setChain (index hash table.length (keyOf entry))
      (ChainedTable.place keyOf entry (table.bucket (index hash table.length (keyOf entry))))
      elems).Mem found ↔ found = entry ∨ table.Mem found ∧ keyOf found ≠ keyOf entry := by
  rw [h.mem_setChain, mem_place (h.keys _)]
  constructor
  · rintro ((heq | ⟨hold, hkey⟩) | ⟨hmem, hindex⟩)
    · exact Or.inl heq
    · exact Or.inr ⟨⟨_, hold⟩, hkey⟩
    · exact Or.inr ⟨hmem, fun hkey => hindex (hkey ▸ rfl)⟩
  · rintro (heq | ⟨hmem, hkey⟩)
    · exact Or.inl (Or.inl heq)
    · by_cases hindex : index hash table.length (keyOf found) =
          index hash table.length (keyOf entry)
      · exact Or.inl (Or.inr ⟨hindex ▸ h.mem_iff.mp hmem, hkey⟩)
      · exact Or.inr ⟨hmem, hindex⟩

theorem Table.Sound.insert (entry : E) :
    (table.insert keyOf hash entry).1 = table.lookup keyOf hash (keyOf entry) ∧
      (table.insert keyOf hash entry).2.Sound keyOf hash ∧
      ∀ found, (table.insert keyOf hash entry).2.Mem found ↔
        found = entry ∨ table.Mem found ∧ keyOf found ≠ keyOf entry := by
  have hsound : ∀ elems, (table.setChain (index hash table.length (keyOf entry))
      (ChainedTable.place keyOf entry (table.bucket (index hash table.length (keyOf entry))))
      elems).Sound keyOf hash :=
    fun _ => h.setChain (fun _ hfound => h.place_index hfound) (nodup_place (h.keys _))
  rw [Table.insert]
  cases hlook : table.lookup keyOf hash (keyOf entry) with
  | some old => exact ⟨rfl, hsound _, fun _ => h.mem_setChain_place⟩
  | none =>
    dsimp only
    split
    · refine ⟨rfl, (hsound _).resize, fun found => ?_⟩
      rw [(hsound _).mem_resize, h.mem_setChain_place]
    · exact ⟨rfl, hsound _, fun _ => h.mem_setChain_place⟩

theorem Table.Sound.remove (key : K) :
    (table.remove keyOf hash key).1 = table.lookup keyOf hash key ∧
      (table.remove keyOf hash key).2.Sound keyOf hash ∧
      ∀ found, (table.remove keyOf hash key).2.Mem found ↔
        table.Mem found ∧ keyOf found ≠ key := by
  rw [Table.remove]
  cases hlook : table.lookup keyOf hash key with
  | none =>
    refine ⟨rfl, h, fun found => ?_⟩
    constructor
    · intro hmem
      exact ⟨hmem, h.lookup_eq_none_iff.mp hlook found hmem⟩
    · exact And.left
  | some old =>
    refine ⟨rfl, h.setChain ?_ ?_, fun found => ?_⟩
    · intro found hfound
      exact h.place _ found ((mem_unlink (h.keys _)).mp hfound).1
    · rw [map_unlink]
      exact (h.keys _).erase key
    · rw [h.mem_setChain, mem_unlink (h.keys _)]
      constructor
      · rintro (⟨hold, hkey⟩ | ⟨hmem, hindex⟩)
        · exact ⟨⟨_, hold⟩, hkey⟩
        · exact ⟨hmem, fun hkey => hindex (hkey ▸ rfl)⟩
      · rintro ⟨hmem, hkey⟩
        by_cases hindex : index hash table.length (keyOf found) = index hash table.length key
        · exact Or.inl ⟨hindex ▸ h.mem_iff.mp hmem, hkey⟩
        · exact Or.inr ⟨hmem, hindex⟩

end ChainedTable
