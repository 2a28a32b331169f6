import Mathlib.Algebra.Ring.Nat
import Mathlib.Data.List.Basic
import Mathlib.Data.List.Range
import Mathlib.Tactic.Common

/-! Flat byte memory with block copies, and little-endian integers.

A memory is a total map from addresses to bytes.  Blocks are read and written
as lists, so an overlapping copy is a read followed by a write. -/
namespace ByteMemory

open List

abbrev Memory := Nat → UInt8

variable (memory : Memory)

def read (start length : Nat) : List UInt8 :=
  (List.range length).map fun i => memory (start + i)

/-- Overwrite the block at `start`; every other byte keeps its value. -/
def write (start : Nat) (bytes : List UInt8) : Memory :=
  fun address =>
    if address < start then memory address
    else (bytes[address - start]?).getD (memory address)

/-- The whole block is read before the first byte is stored. -/
def move (target source length : Nat) : Memory :=
  write memory target (read memory source length)

def fill (start length : Nat) (value : UInt8) : Memory :=
  write memory start (replicate length value)

def view (base : Nat) : Memory :=
  fun offset => memory (base + offset)

/-- Two memories hold the same bytes on `[start, start + length)`. -/
def AgreeOn (left right : Memory) (start length : Nat) : Prop :=
  ∀ address, start ≤ address → address < start + length →
    left address = right address

variable {start length : Nat} {bytes : List UInt8} {address : Nat} {left right : Memory}

section Blocks

variable (memory : Memory)

@[simp] theorem read_length (start length : Nat) : (read memory start length).length = length := by
  simp [read]

theorem read_getElem? (start length i : Nat) :
    (read memory start length)[i]? =
      if i < length then some (memory (start + i)) else none := by
  simp only [read, getElem?_map]
  split
  · rename_i h
    simp [getElem?_range h]
  · rename_i h
    simp [getElem?_eq_none (l := List.range length) (i := i) (by simpa using h)]

@[simp] theorem read_zero (start : Nat) : read memory start 0 = [] := rfl

theorem read_add (start first second : Nat) :
    read memory start (first + second) =
      read memory start first ++ read memory (start + first) second := by
  simp only [read, range_add, map_append, map_map]
  congr 1
  apply map_congr_left
  intro i _
  simp [Nat.add_assoc]

theorem read_part {offset width : Nat}
    (h : read memory start length = bytes) (hle : offset + width ≤ length) :
    read memory (start + offset) width = (bytes.drop offset).take width := by
  obtain ⟨rest, rfl⟩ := Nat.exists_eq_add_of_le hle
  rw [← h, read_add, read_add, append_assoc, drop_left' (by simp [read]),
    take_left' (by simp [read])]

theorem read_succ (start length : Nat) :
    read memory start (length + 1) =
      memory start :: read memory (start + 1) length := by
  rw [Nat.add_comm length 1, read_add]
  simp [read]

theorem read_view (base start length : Nat) :
    read (view memory base) start length = read memory (base + start) length := by
  simp [read, view, Nat.add_assoc]

theorem write_of_lt (bytes : List UInt8)
    (h : address < start) : write memory start bytes address = memory address := by
  simp [write, h]

theorem write_of_ge (bytes : List UInt8) (h : start + bytes.length ≤ address) :
    write memory start bytes address = memory address := by
  have hstart : ¬ address < start := by omega
  have hnone : bytes[address - start]? = none :=
    getElem?_eq_none (by omega)
  simp [write, hstart, hnone]

theorem write_outside (bytes : List UInt8) (h : address < start ∨ start + bytes.length ≤ address) :
    write memory start bytes address = memory address :=
  h.elim (write_of_lt memory bytes) (write_of_ge memory bytes)

theorem write_add (start i : Nat) (bytes : List UInt8) :
    write memory start bytes (start + i) =
      (bytes[i]?).getD (memory (start + i)) := by
  simp [write]

@[simp] theorem write_nil (start : Nat) : write memory start [] = memory := by
  funext address
  simp [write]

theorem write_append (start : Nat) (first second : List UInt8) :
    write memory start (first ++ second) =
      write (write memory start first) (start + first.length) second := by
  funext address
  by_cases hlt : address < start
  · simp [write, hlt, show address < start + first.length by omega]
  by_cases hfirst : address < start + first.length
  · have hi : address - start < first.length := by omega
    simp [write, hlt, hfirst, getElem?_append_left hi]
  · have hi : first.length ≤ address - start := by omega
    have hnone : first[address - start]? = none := getElem?_eq_none hi
    simp only [write, hlt, hfirst, if_false, getElem?_append_right hi,
      hnone, Option.getD_none]
    rw [show address - start - first.length = address - (start + first.length) by omega]

theorem read_write_same (start : Nat) (bytes : List UInt8) :
    read (write memory start bytes) start bytes.length = bytes := by
  apply ext_getElem?
  intro i
  rw [read_getElem?]
  split
  · rename_i h
    simp [write_add, getElem?_eq_getElem h]
  · rename_i h
    exact (getElem?_eq_none (by omega)).symm

theorem read_write_take (start : Nat) (h : length ≤ bytes.length) :
    read (write memory start bytes) start length = bytes.take length := by
  obtain ⟨rest, hrest⟩ := Nat.exists_eq_add_of_le h
  have hread := read_write_same memory start bytes
  rw [hrest, read_add] at hread
  conv_rhs => rw [← hread]
  rw [take_left' (read_length _ _ _)]

theorem write_read_self (start length : Nat) :
    write memory start (read memory start length) = memory := by
  funext address
  by_cases hlow : address < start
  · exact write_of_lt memory _ hlow
  · obtain ⟨i, rfl⟩ := Nat.exists_eq_add_of_le (Nat.le_of_not_lt hlow)
    rw [write_add, read_getElem?]
    split
    · rfl
    · rfl

theorem write_write_same (start : Nat) (bytes : List UInt8) :
    write (write memory start bytes) start bytes = write memory start bytes := by
  funext address
  by_cases hlow : address < start
  · rw [write_of_lt _ bytes hlow]
  · obtain ⟨i, rfl⟩ := Nat.exists_eq_add_of_le (Nat.le_of_not_lt hlow)
    rw [write_add, write_add]
    cases bytes[i]? with
    | none => rfl
    | some byte => rfl

theorem read_congr (h : AgreeOn left right start length) :
    read left start length = read right start length := by
  apply map_congr_left
  intro i hi
  exact h _ (by omega) (by simp at hi; omega)

theorem agreeOn_of_read_eq
    (h : read left start length = read right start length) : AgreeOn left right start length := by
  intro address hge hlt
  have hget := congrArg (fun bytes => bytes[address - start]?) h
  simp only [read_getElem?, show address - start < length by omega, if_true,
    show start + (address - start) = address by omega] at hget
  exact Option.some.inj hget

section

variable {target : Nat} (h : target + bytes.length ≤ start ∨ start + length ≤ target)
include h

theorem agreeOn_write : AgreeOn (write memory target bytes) memory start length := by
  intro address hge hlt
  exact write_outside memory bytes (by omega)

theorem read_write_disjoint :
    read (write memory target bytes) start length = read memory start length :=
  read_congr (agreeOn_write memory h)

end

theorem view_write (base offset : Nat) (bytes : List UInt8) :
    view (write memory (base + offset) bytes) base =
      write (view memory base) offset bytes := by
  funext i
  by_cases h : i < offset
  · simp [view, write, h]
  · simp [view, write, h, Nat.add_sub_add_left]

theorem view_move (base target source length : Nat) :
    view (move memory (base + target) (base + source) length) base =
      move (view memory base) target source length := by
  rw [move, view_write, move, read_view]

theorem view_fill (base start length : Nat) (value : UInt8) :
    view (fill memory (base + start) length value) base =
      fill (view memory base) start length value := by
  rw [fill, view_write, fill]

end Blocks

namespace AgreeOn

variable {left middle right : Memory} {start length : Nat}

theorem refl (start length : Nat) : AgreeOn memory memory start length :=
  fun _ _ _ => rfl

theorem symm (h : AgreeOn left right start length) : AgreeOn right left start length :=
  fun address hge hlt => (h address hge hlt).symm

theorem trans (first : AgreeOn left middle start length)
    (second : AgreeOn middle right start length) : AgreeOn left right start length :=
  fun address hge hlt => (first address hge hlt).trans (second address hge hlt)

theorem mono {inner innerLength : Nat} (h : AgreeOn left right start length) (hge : start ≤ inner)
    (hle : inner + innerLength ≤ start + length) : AgreeOn left right inner innerLength :=
  fun address h1 h2 => h address (by omega) (by omega)

end AgreeOn

def AgreeIn (set : Nat → Prop) (left right : Memory) : Prop :=
  ∀ address, set address → left address = right address

namespace AgreeIn

variable {set : Nat → Prop} {left right : Memory}

variable (h : AgreeIn set left right)
include h

theorem mono {inner : Nat → Prop}
    (hsub : ∀ address, inner address → set address) : AgreeIn inner left right :=
  fun address hinner => h address (hsub address hinner)

theorem symm : AgreeIn set right left :=
  fun address hset => (h address hset).symm

theorem agreeOn (hsub : ∀ address, start ≤ address → address < start + length → set address) :
    AgreeOn left right start length :=
  fun address hge hlt => h address (hsub address hge hlt)

theorem write_same (start : Nat) (bytes : List UInt8) :
    AgreeIn (fun address => set address ∨ start ≤ address ∧ address < start + bytes.length)
      (write left start bytes) (write right start bytes) := by
  intro address hmem
  by_cases hlow : address < start
  · rw [write_of_lt left bytes hlow, write_of_lt right bytes hlow]
    exact h address (hmem.resolve_right (by omega))
  · by_cases hhigh : start + bytes.length ≤ address
    · rw [write_of_ge left bytes hhigh, write_of_ge right bytes hhigh]
      exact h address (hmem.resolve_right (by omega))
    · obtain ⟨i, rfl⟩ := Nat.exists_eq_add_of_le (Nat.le_of_not_lt hlow)
      have hi : i < bytes.length := by omega
      rw [write_add, write_add, getElem?_eq_getElem hi]
      rfl

theorem move_same (target : Nat) {source : Nat}
    (hsrc : ∀ address, source ≤ address → address < source + length → set address) :
    AgreeIn (fun address => set address ∨ target ≤ address ∧ address < target + length)
      (move left target source length) (move right target source length) := by
  have hread : read left source length = read right source length :=
    read_congr (h.agreeOn hsrc)
  rw [move, move, hread]
  refine (h.write_same target (read right source length)).mono fun address hmem => ?_
  rwa [read_length]

theorem write_left
    (hout : ∀ address, set address → address < start ∨ start + bytes.length ≤ address) :
    AgreeIn set (write left start bytes) right := by
  intro address hmem
  rw [← h address hmem]
  exact write_outside left bytes (hout address hmem)

theorem write_right
    (hout : ∀ address, set address → address < start ∨ start + bytes.length ≤ address) :
    AgreeIn set left (write right start bytes) :=
  (h.symm.write_left hout).symm

theorem write_read (start length : Nat) :
    AgreeIn (fun address => set address ∨ start ≤ address ∧ address < start + length)
      (write left start (read right start length)) right := by
  intro address hmem
  by_cases hlow : address < start
  · rw [write_of_lt left _ hlow]
    exact h address (hmem.resolve_right (by omega))
  · by_cases hhigh : start + length ≤ address
    · rw [write_of_ge left _ (by rw [read_length]; exact hhigh)]
      exact h address (hmem.resolve_right (by omega))
    · obtain ⟨i, rfl⟩ := Nat.exists_eq_add_of_le (Nat.le_of_not_lt hlow)
      rw [write_add, read_getElem?, if_pos (by omega), Option.getD_some]

end AgreeIn

theorem write_comm {other : Nat} {others : List UInt8}
    (h : start + bytes.length ≤ other) :
    write (write memory start bytes) other others =
      write (write memory other others) start bytes := by
  funext address
  by_cases hlow : address < other
  · rw [write_of_lt _ others hlow]
    by_cases hstart : address < start
    · rw [write_of_lt _ bytes hstart, write_of_lt _ bytes hstart, write_of_lt _ others hlow]
    · obtain ⟨i, rfl⟩ := Nat.exists_eq_add_of_le (Nat.le_of_not_lt hstart)
      rw [write_add, write_add, write_of_lt _ others hlow]
  · rw [write_of_ge (write memory other others) bytes (by omega)]
    obtain ⟨i, rfl⟩ := Nat.exists_eq_add_of_le (Nat.le_of_not_lt hlow)
    rw [write_add, write_add, write_of_ge memory bytes (by omega)]

/-! ### Sequences of writes -/

def writeAll (writes : List (Nat × List UInt8)) : Memory :=
  writes.foldl (fun memory block => write memory block.1 block.2) memory

def copyOf (source : Memory) (range : Nat × Nat) : Nat × List UInt8 :=
  (range.1, read source range.1 (range.2 - range.1))

def copyRanges (source : Memory) (ranges : List (Nat × Nat)) (target : Memory) : Memory :=
  writeAll target (ranges.map (copyOf source))

def Covered (ranges : List (Nat × Nat)) (address : Nat) : Prop :=
  ∃ range ∈ ranges, range.1 ≤ address ∧ address < range.2

theorem write_read_apply (source target : Memory) (start length address : Nat) :
    write target start (read source start length) address =
      if start ≤ address ∧ address < start + length then source address else target address := by
  by_cases hlow : address < start
  · rw [write_of_lt target _ hlow, if_neg (by omega)]
  · obtain ⟨i, rfl⟩ := Nat.exists_eq_add_of_le (Nat.le_of_not_lt hlow)
    rw [write_add, read_getElem?]
    by_cases hlt : i < length
    · rw [if_pos hlt, if_pos (by omega), Option.getD_some]
    · rw [if_neg hlt, if_neg (by omega), Option.getD_none]

theorem writeAll_congr (h : left address = right address)
    (writes : List (Nat × List UInt8)) :
    writeAll left writes address = writeAll right writes address := by
  induction writes generalizing left right with
  | nil => exact h
  | cons block writes ih =>
    apply ih
    show write left block.1 block.2 address = write right block.1 block.2 address
    by_cases hlow : address < block.1
    · rw [write_of_lt left _ hlow, write_of_lt right _ hlow, h]
    · obtain ⟨i, rfl⟩ := Nat.exists_eq_add_of_le (Nat.le_of_not_lt hlow)
      rw [write_add, write_add, h]

theorem copyRanges_cons (source target : Memory) (range : Nat × Nat) (ranges : List (Nat × Nat)) :
    copyRanges source (range :: ranges) target =
      copyRanges source ranges (write target range.1 (read source range.1 (range.2 - range.1))) :=
  rfl

theorem copyRanges_of_eq {source target : Memory} (h : target address = source address)
    (ranges : List (Nat × Nat)) : copyRanges source ranges target address = source address := by
  induction ranges generalizing target with
  | nil => exact h
  | cons range ranges ih =>
    rw [copyRanges_cons]
    apply ih
    rw [write_read_apply, h, ite_self]

theorem copyRanges_of_covered {source target : Memory} {ranges : List (Nat × Nat)}
    (h : Covered ranges address) : copyRanges source ranges target address = source address := by
  obtain ⟨covering, hmem, hlow, hhigh⟩ := h
  induction ranges generalizing target with
  | nil => cases hmem
  | cons range ranges ih =>
    rw [copyRanges_cons]
    rcases mem_cons.mp hmem with rfl | hrest
    · apply copyRanges_of_eq
      rw [write_read_apply, if_pos (by omega)]
    · exact ih hrest

/-! Little-endian integers of a fixed number of bytes. -/

def natLE : Nat → Nat → List UInt8
  | 0, _ => []
  | width + 1, value => UInt8.ofNat value :: natLE width (value / 256)

def ofLE : List UInt8 → Nat
  | [] => 0
  | byte :: rest => byte.toNat + 256 * ofLE rest

@[simp] theorem natLE_length (width value : Nat) : (natLE width value).length = width := by
  induction width generalizing value with
  | zero => rfl
  | succ width ih => simp [natLE, ih]

theorem ofLE_natLE (width value : Nat) : ofLE (natLE width value) = value % 256 ^ width := by
  induction width generalizing value with
  | zero => simp [natLE, ofLE, Nat.mod_one]
  | succ width ih =>
    have hpow : 256 ^ (width + 1) = 256 * 256 ^ width := by
      rw [Nat.pow_succ, Nat.mul_comm]
    simp only [natLE, ofLE, ih, UInt8.toNat_ofNat', hpow, Nat.mod_mul]

theorem ofLE_natLE_of_lt {width value : Nat} (h : value < 256 ^ width) :
    ofLE (natLE width value) = value := by
  rw [ofLE_natLE, Nat.mod_eq_of_lt h]

theorem ofLE_lt (bytes : List UInt8) : ofLE bytes < 256 ^ bytes.length := by
  induction bytes with
  | nil => simp [ofLE]
  | cons byte rest ih =>
    have hbyte := byte.toNat_lt
    simp only [ofLE, length_cons, Nat.pow_succ]
    omega

theorem natLE_ofLE (bytes : List UInt8) : natLE bytes.length (ofLE bytes) = bytes := by
  induction bytes with
  | nil => rfl
  | cons byte rest ih =>
    have hbyte := byte.toNat_lt
    have hdiv : (byte.toNat + 256 * ofLE rest) / 256 = ofLE rest := by omega
    simp only [length_cons, ofLE, natLE, hdiv, ih]
    congr 1
    apply UInt8.toNat_inj.mp
    rw [UInt8.toNat_ofNat']
    omega

end ByteMemory
