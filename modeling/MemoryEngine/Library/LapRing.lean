import MemoryEngine.Library.ByteRange
import Mathlib.Data.List.Basic
import Mathlib.Tactic.Common

/-! Blocks in a ring of bytes.

A ring is written lap after lap.  A cursor is an offset together with a lap, and its
address counts the bytes since the start: the ring unrolled into a line.  A block stands
where the one before it ended, or at the start of the next lap, and blocks whose
addresses lie in a window of one ring size do not meet in the ring. -/
namespace LapRing

open List

/-- An offset of a ring and the number of times the ring was gone round before. -/
structure Cursor where
  lap : ℕ
  offset : ℕ
  deriving DecidableEq, Repr

/-- A block that follows the cursor `prev`, and the offset where it ends. -/
structure Block where
  prev : Cursor
  first : Cursor
  stop : ℕ
  deriving DecidableEq, Repr

def Cursor.address (size : ℕ) (cursor : Cursor) : ℕ := cursor.lap * size + cursor.offset

namespace Block

def last (block : Block) : Cursor := ⟨block.first.lap, block.stop⟩

def wrapped (block : Block) : Bool := block.first.lap != block.prev.lap

def range (block : Block) : ByteRange := ⟨block.first.offset, block.stop - block.first.offset⟩

structure Placed (size : ℕ) (block : Block) : Prop where
  room : block.prev.offset ≤ size
  start : block.first = block.prev ∨ block.first = ⟨block.prev.lap + 1, 0⟩
  proper : block.first.offset < block.stop
  inside : block.stop ≤ size

end Block

def Cursor.byte (cursor : Cursor) : Block := ⟨cursor, cursor, cursor.offset + 1⟩

def Chain (size : ℕ) : Cursor → List Block → Cursor → Prop
  | start, [], stop => start = stop
  | start, block :: blocks, stop =>
      block.prev = start ∧ block.Placed size ∧ Chain size block.last blocks stop

/-! ### Addresses -/

section Addresses

variable {size : ℕ} {cursor tail : Cursor} {block older : Block}

theorem lap_lt_or_offset_le (hoff : tail.offset < size)
    (h : cursor.address size ≤ tail.address size) :
    cursor.lap < tail.lap ∨ cursor.lap = tail.lap ∧ cursor.offset ≤ tail.offset := by
  unfold Cursor.address at h
  rcases Nat.lt_trichotomy cursor.lap tail.lap with hlt | heq | hgt
  · exact .inl hlt
  · rw [heq] at h
    exact .inr ⟨heq, by omega⟩
  · have hmul : (tail.lap + 1) * size ≤ cursor.lap * size := Nat.mul_le_mul_right _ hgt
    rw [Nat.add_mul, Nat.one_mul] at hmul
    omega

theorem mod_ne_of_window {a b : ℕ} (hlt : a < b) (hnear : b < a + size) : a % size ≠ b % size := by
  intro heq
  have hdvd : size ∣ b - a := Nat.dvd_of_mod_eq_zero (Nat.sub_mod_eq_zero_of_mod_eq heq.symm)
  have hzero : b - a = 0 := Nat.eq_zero_of_dvd_of_lt hdvd (by omega)
  omega

theorem address_eq_of_offset (hoff : cursor.offset = tail.offset)
    (hle : cursor.address size ≤ tail.address size)
    (hnear : tail.address size < cursor.address size + size) :
    cursor.address size = tail.address size := by
  by_contra hne
  refine mod_ne_of_window (Nat.lt_of_le_of_ne hle hne) hnear ?_
  simp only [Cursor.address, hoff, Nat.mul_add_mod_self_right]

theorem add_lt_of_lt_free {length : ℕ}
    (hfree : length < (cursor.offset + size - tail.offset) % size)
    (hroom : tail.offset ≤ size) (hle : cursor.address size ≤ tail.address size)
    (hwin : tail.address size ≤ cursor.address size + size) :
    tail.address size + length < cursor.address size + size := by
  have hmod : (cursor.offset + size - tail.offset) % size =
      (cursor.address size + size - tail.address size) % size := by
    unfold Cursor.address at *
    have hshift : cursor.lap * size + cursor.offset + size - (tail.lap * size + tail.offset) +
        tail.lap * size = cursor.offset + size - tail.offset + cursor.lap * size := by
      omega
    have hmods := congrArg (· % size) hshift
    simpa only [Nat.add_mul_mod_self_right] using hmods.symm
  rw [hmod] at hfree
  rcases Nat.lt_or_ge (cursor.address size + size - tail.address size) size with hlt | hge
  · rw [Nat.mod_eq_of_lt hlt] at hfree
    omega
  · -- The tail is at the head, where nothing is free.
    have hall : cursor.address size + size - tail.address size = size := by omega
    rw [hall, Nat.mod_self] at hfree
    omega

theorem lap_of_window (hhead : cursor.offset ≤ size)
    (hlt : cursor.address size < tail.address size) (hroom : tail.offset ≤ size)
    (hwin : tail.address size ≤ cursor.address size + size) (htail : 0 < tail.offset) :
    tail.lap = cursor.lap ∧ cursor.offset < tail.offset ∨
      tail.lap = cursor.lap + 1 ∧ tail.offset ≤ cursor.offset := by
  unfold Cursor.address at *
  rcases Nat.lt_trichotomy tail.lap cursor.lap with hlap | hlap | hlap
  · have hmul : (tail.lap + 1) * size ≤ cursor.lap * size := Nat.mul_le_mul_right size hlap
    rw [Nat.add_mul, Nat.one_mul] at hmul
    omega
  · rw [hlap] at hlt
    exact .inl ⟨hlap, by omega⟩
  · rcases Nat.lt_or_ge (cursor.lap + 1) tail.lap with hfar | hnear
    · have hmul : (cursor.lap + 1 + 1) * size ≤ tail.lap * size := Nat.mul_le_mul_right size hfar
      rw [Nat.add_mul, Nat.add_mul, Nat.one_mul] at hmul
      omega
    · have hnext : tail.lap = cursor.lap + 1 := by omega
      rw [hnext, Nat.add_mul, Nat.one_mul] at hwin
      exact .inr ⟨hnext, by omega⟩

variable {address : ℕ}

theorem lap_of_mem (hpos : 0 < size) (hroom : tail.offset ≤ size)
    (hge : cursor.address size ≤ address) (hlt : address < tail.address size) :
    cursor.lap ≤ address / size ∧ address / size ≤ tail.lap := by
  unfold Cursor.address at hge hlt
  constructor
  · rw [Nat.le_div_iff_mul_le hpos]
    omega
  · rw [← Nat.lt_succ_iff, Nat.div_lt_iff_lt_mul hpos, Nat.succ_mul]
    omega

theorem offset_le_mod (hlap : cursor.lap = address / size)
    (hge : cursor.address size ≤ address) : cursor.offset ≤ address % size := by
  have hcut := Nat.div_add_mod' address size
  rw [Cursor.address, hlap] at hge
  omega

theorem mod_lt_offset (hlap : tail.lap = address / size)
    (hlt : address < tail.address size) : address % size < tail.offset := by
  have hcut := Nat.div_add_mod' address size
  rw [Cursor.address, hlap] at hlt
  omega

namespace Block.Placed

variable (h : block.Placed size)
include h

theorem prev_le_first : block.prev.address size ≤ block.first.address size := by
  rcases h.start with hfirst | hfirst
  · exact Nat.le_of_eq (congrArg (Cursor.address size) hfirst.symm)
  · have hroom := h.room
    simp only [hfirst, Cursor.address, Nat.add_mul, Nat.one_mul]
    omega

theorem first_lt_last : block.first.address size < block.last.address size :=
  Nat.add_lt_add_left h.proper _

theorem range_within : block.range.Within ⟨0, size⟩ := by
  have hproper := h.proper
  have hinside := h.inside
  simp only [ByteRange.Within, range]
  omega

theorem prev_lt_first (hwrap : block.wrapped = true) (hroom : block.prev.offset < size) :
    block.prev.address size < block.first.address size := by
  rcases h.start with hfirst | hfirst
  · rw [Block.wrapped, hfirst] at hwrap
    simp at hwrap
  · simp only [hfirst, Cursor.address, Nat.add_mul, Nat.one_mul]
    omega

theorem lap_first : block.first.lap = block.prev.lap + if block.wrapped then 1 else 0 := by
  rcases h.start with hfirst | hfirst
  · simp [wrapped, hfirst]
  · simp [wrapped, hfirst]

theorem mod_of_mem
    (hfirst : block.first.address size ≤ address) (hlast : address < block.last.address size) :
    address % size = block.first.offset + (address - block.first.address size) := by
  have hinside := h.inside
  simp only [Cursor.address, Block.last] at hfirst hlast ⊢
  obtain ⟨rest, rfl⟩ := Nat.exists_eq_add_of_le hfirst
  rw [Nat.add_assoc, Nat.mul_add_mod_self_right, Nat.mod_eq_of_lt (by omega)]
  omega

theorem mod_not_mem (address : ℕ) (hpre : address < block.first.address size)
    (hwin : block.last.address size ≤ address + size) :
    address % size < block.first.offset ∨ block.stop ≤ address % size := by
  by_contra hin
  obtain ⟨i, hi⟩ := Nat.exists_eq_add_of_le (show block.first.offset ≤ address % size by omega)
  have hlast : block.first.address size + i < block.last.address size := by
    simp only [Cursor.address, Block.last]
    omega
  have hne : address % size ≠ (block.first.address size + i) % size :=
    mod_ne_of_window (by omega) (by omega)
  rw [h.mod_of_mem (Nat.le_add_right _ _) hlast, hi] at hne
  omega

theorem apart (holder : older.Placed size)
    (horder : older.last.address size ≤ block.first.address size)
    (hwin : block.last.address size ≤ older.first.address size + size) :
    block.range.Apart older.range := by
  have hproper := h.proper
  have holdProper := holder.proper
  have hinside := h.inside
  have holdInside := holder.inside
  have hlt := h.first_lt_last
  have holdLt := holder.first_lt_last
  simp only [ByteRange.Apart, range]
  rcases lap_of_window (Nat.le_trans (Nat.le_of_lt holdProper) holdInside)
    (Nat.lt_trans (Nat.lt_of_lt_of_le holdLt horder) hlt) hinside hwin
    (Nat.zero_lt_of_lt hproper) with ⟨hlap, -⟩ | ⟨hlap, hbhd⟩
  · simp only [Block.last] at hlap
    simp only [Cursor.address, Block.last, hlap] at horder
    omega
  · simp only [Block.last] at hbhd
    omega

end Block.Placed

theorem byte_placed (h : cursor.offset < size) : cursor.byte.Placed size :=
  ⟨Nat.le_of_lt h, .inl rfl, Nat.lt_succ_self _, h⟩

theorem byte_last (cursor : Cursor) : cursor.byte.last.address size = cursor.address size + 1 := rfl

end Addresses

/-! ### Chains -/

namespace Chain

variable {size : ℕ} {start stop : Cursor} {blocks others : List Block} {block other : Block}
  {i j : ℕ}

theorem append_iff : Chain size start (blocks ++ others) stop ↔
    ∃ middle, Chain size start blocks middle ∧ Chain size middle others stop := by
  induction blocks generalizing start with
  | nil => simp [Chain]
  | cons block blocks ih => simp only [cons_append, Chain, ih, exists_and_left, and_assoc]

theorem concat (h : Chain size start blocks block.prev) (hplaced : block.Placed size) :
    Chain size start (blocks ++ [block]) block.last :=
  append_iff.mpr ⟨block.prev, h, rfl, hplaced, rfl⟩

section

variable (h : Chain size start blocks stop)
include h

theorem split (hget : blocks[i]? = some block) :
    Chain size start (blocks.take i) block.prev ∧ block.Placed size ∧
      Chain size block.last (blocks.drop (i + 1)) stop := by
  obtain ⟨hlt, hblock⟩ := List.getElem?_eq_some_iff.mp hget
  have hcut : blocks = blocks.take i ++ block :: blocks.drop (i + 1) := by
    rw [← hblock, List.getElem_cons_drop, List.take_append_drop]
  rw [hcut] at h
  obtain ⟨middle, hpre, hprev, hplaced, hafter⟩ := append_iff.mp h
  exact ⟨hprev ▸ hpre, hplaced, hafter⟩

theorem le : start.address size ≤ stop.address size := by
  induction blocks generalizing start with
  | nil => exact Nat.le_of_eq (congrArg (Cursor.address size) h)
  | cons block blocks ih =>
    obtain ⟨hprev, hplaced, hrest⟩ := h
    calc start.address size
        = block.prev.address size := by rw [hprev]
      _ ≤ block.first.address size := hplaced.prev_le_first
      _ ≤ block.last.address size := Nat.le_of_lt hplaced.first_lt_last
      _ ≤ stop.address size := ih hrest

theorem prev_ge (hget : blocks[i]? = some block) :
    start.address size ≤ block.prev.address size := (h.split hget).1.le

theorem last_le (hget : blocks[i]? = some block) :
    block.last.address size ≤ stop.address size := (h.split hget).2.2.le

theorem ordered (hget : blocks[i]? = some block) (hother : blocks[j]? = some other) (hlt : i < j) :
    block.last.address size ≤ other.prev.address size := by
  have hrest : (blocks.drop (i + 1))[j - (i + 1)]? = some other := by
    rw [getElem?_drop, Nat.add_sub_cancel' hlt]
    exact hother
  exact (h.split hget).2.2.prev_ge hrest

theorem prev_eq (hget : blocks[i]? = some block)
    (hother : blocks[i + 1]? = some other) : other.prev = block.last := by
  have hafter := (h.split hget).2.2
  have hrest : (blocks.drop (i + 1))[0]? = some other := by
    rw [getElem?_drop]
    exact hother
  obtain ⟨hempty, -⟩ := hafter.split hrest
  exact (show block.last = other.prev from hempty).symm

theorem last_eq (hget : blocks[i]? = some block)
    (hend : i + 1 = blocks.length) : block.last = stop := by
  have hafter := (h.split hget).2.2
  rw [hend, drop_length] at hafter
  exact hafter

end

theorem eq_start (h : Chain size start [] stop) : start = stop := h

theorem offset_le (h : Chain size start blocks stop) (hstart : start.offset ≤ size) :
    stop.offset ≤ size := by
  induction blocks generalizing start with
  | nil => exact h ▸ hstart
  | cons block blocks ih =>
    obtain ⟨-, hplaced, hrest⟩ := h
    exact ih hrest hplaced.inside

theorem lap_eq (h : Chain size start blocks stop) :
    stop.lap = start.lap + blocks.countP Block.wrapped := by
  induction blocks generalizing start with
  | nil =>
    rw [← h.eq_start]
    rfl
  | cons block blocks ih =>
    obtain ⟨rfl, hplaced, hrest⟩ := h
    rw [ih hrest, countP_cons, Block.last, hplaced.lap_first]
    omega

end Chain

end LapRing
