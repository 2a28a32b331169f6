import Mathlib.Data.List.Basic
import Mathlib.Order.Lattice
import Mathlib.Tactic.Common

/-! Versions that are reached from the newest one by stepping back.

A list holds the versions of one object, newest first.  A store gives the version before
a version, as far as it still has it. -/
namespace VersionChain

open List

variable {V T : Type} [LinearOrder T] (stamp : V → T) (older : V → Option V)

/-- Stepping back until the stamp is at most `bound`.  The outer `none` is a lack of
fuel, the inner one says that there is no version before. -/
def rollBackTo (bound : T) : Nat → V → Option (Option V)
  | 0, version => if stamp version ≤ bound then some (some version) else none
  | fuel + 1, version =>
      if stamp version ≤ bound then some (some version)
      else
        match older version with
        | some previous => rollBackTo bound fuel previous
        | none => some none

/-- The newest version that is not after `bound`. -/
def latest (bound : T) (versions : List V) : Option V :=
  versions.find? fun version => decide (stamp version ≤ bound)

/-- The store has the way from the newest version to the first one that is not after
`bound`. -/
def Linked (bound : T) : List V → Prop
  | [] => True
  | version :: rest => stamp version ≤ bound ∨ older version = rest.head? ∧ Linked bound rest

variable {stamp older} {bound : T}

theorem rollBackTo_eq_latest {version : V} {rest : List V}
    (h : Linked stamp older bound (version :: rest)) {fuel : Nat} (hfuel : rest.length < fuel) :
    rollBackTo stamp older bound fuel version = some (latest stamp bound (version :: rest)) := by
  induction rest generalizing version fuel with
  | nil =>
    obtain ⟨fuel, rfl⟩ : ∃ rest, fuel = rest + 1 := ⟨fuel - 1, by omega⟩
    by_cases hle : stamp version ≤ bound
    · simp [rollBackTo, latest, hle]
    · obtain ⟨hnone, -⟩ := h.resolve_left hle
      simp [rollBackTo, latest, hle, hnone]
  | cons previous rest ih =>
    rw [length_cons] at hfuel
    obtain ⟨fuel, rfl⟩ : ∃ rest, fuel = rest + 1 := ⟨fuel - 1, by omega⟩
    by_cases hle : stamp version ≤ bound
    · simp [rollBackTo, latest, hle]
    · obtain ⟨hprevious, hlinked⟩ := h.resolve_left hle
      have hrest := ih hlinked (show rest.length < fuel by omega)
      simp only [rollBackTo, if_neg hle, hprevious, head?_cons, hrest]
      simp only [latest, find?_cons, hle, decide_false]

theorem latest_eq_some_iff {versions : List V}
    (h : versions.Pairwise fun newer previous => stamp previous < stamp newer) {version : V} :
    latest stamp bound versions = some version ↔
      version ∈ versions ∧ stamp version ≤ bound ∧
        ∀ other ∈ versions, stamp other ≤ bound → stamp other ≤ stamp version := by
  induction versions with
  | nil => simp [latest]
  | cons first rest ih =>
    rw [pairwise_cons] at h
    obtain ⟨hfirst, hrest⟩ := h
    by_cases hle : stamp first ≤ bound
    · have hfound : latest stamp bound (first :: rest) = some first := by
        simp [latest, hle]
      rw [hfound, Option.some.injEq]
      constructor
      · rintro rfl
        refine ⟨mem_cons_self, hle, fun other hmem _ => ?_⟩
        rcases mem_cons.mp hmem with rfl | hmem
        · exact le_refl _
        · exact le_of_lt (hfirst other hmem)
      · rintro ⟨hmem, -, hgreat⟩
        rcases mem_cons.mp hmem with rfl | hmem
        · rfl
        · have hlt := hfirst version hmem
          have hge := hgreat first mem_cons_self hle
          exact absurd hlt (not_lt_of_ge hge)
    · have hskip : latest stamp bound (first :: rest) = latest stamp bound rest := by
        simp only [latest, find?_cons, hle, decide_false]
      rw [hskip, ih hrest]
      constructor
      · rintro ⟨hmem, hbound, hgreat⟩
        refine ⟨mem_cons_of_mem _ hmem, hbound, fun other hother hle' => ?_⟩
        rcases mem_cons.mp hother with rfl | hother
        · exact absurd hle' hle
        · exact hgreat other hother hle'
      · rintro ⟨hmem, hbound, hgreat⟩
        rcases mem_cons.mp hmem with rfl | hmem
        · exact absurd hbound hle
        · exact ⟨hmem, hbound, fun other hother => hgreat other (mem_cons_of_mem _ hother)⟩

theorem latest_eq_none_iff {versions : List V} :
    latest stamp bound versions = none ↔ ∀ version ∈ versions, bound < stamp version := by
  simp [latest]

end VersionChain
