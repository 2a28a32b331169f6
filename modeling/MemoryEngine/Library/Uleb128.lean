import Mathlib.Data.Nat.Bitwise
import Mathlib.Tactic.Common
import Mathlib.Tactic.Ring

/-! Unsigned LEB128 integers: groups of seven bits, lowest group first, with
the high bit set on every byte but the last.  The decoder reads a buffer from an offset on,
accumulates into a register of `bits` bits and refuses a group that would start past its end. -/
namespace Uleb128

/-- The encoding in at most `groups + 1` bytes. -/
def encode : Nat → Nat → List UInt8
  | 0, value => [UInt8.ofNat value]
  | groups + 1, value =>
      if value < 0x80 then [UInt8.ofNat value]
      else UInt8.ofNat (value ||| 0x80) :: encode groups (value >>> 7)

/-- Read one integer and return it with the offset behind it; an error leaves the offset where
the reading stopped.  A turn takes one byte. -/
def decodeFrom (bits : Nat) (buf : List UInt8) : Nat → Nat → Nat → Nat → Except Nat (Nat × Nat)
  | 0, _, _, off => .error off
  | turns + 1, shift, acc, off =>
      if h : off < buf.length then
        let byte := buf[off]
        let acc := acc ||| ((byte.toNat &&& 0x7F) <<< shift) % 2 ^ bits
        if byte.toNat &&& 0x80 = 0 then .ok (acc, off + 1)
        else if shift + 7 > bits - 1 then .error (off + 1)
        else decodeFrom bits buf turns (shift + 7) acc (off + 1)
      else .error off

def decode (bits : Nat) (buf : List UInt8) (off : Nat) : Except Nat (Nat × Nat) :=
  decodeFrom bits buf (buf.length - off) 0 0 off

theorem decodeFrom_within {bits turns shift acc off value stop : Nat} {buf : List UInt8}
    (h : decodeFrom bits buf turns shift acc off = .ok (value, stop)) :
    off < stop ∧ stop ≤ buf.length := by
  induction turns generalizing shift acc off with
  | zero => cases h
  | succ turns ih =>
    simp only [decodeFrom] at h
    split_ifs at h
    · obtain ⟨-, rfl⟩ := Prod.mk.inj (Except.ok.inj h)
      omega
    · have hrest := ih h
      omega

theorem encode_length_le (groups value : Nat) : (encode groups value).length ≤ groups + 1 := by
  induction groups generalizing value with
  | zero => simp [encode]
  | succ groups ih =>
    have hrest := ih (value >>> 7)
    unfold encode
    split
    · rw [List.length_singleton]
      omega
    · rw [List.length_cons]
      omega

theorem and_low_bits (value : Nat) : value &&& 0x7F = value % 128 :=
  Nat.and_two_pow_sub_one_eq_mod value 7

private theorem lastByte_and_high {value : Nat} (h : value < 128) :
    (UInt8.ofNat value).toNat &&& 0x80 = 0 := by
  rw [UInt8.toNat_ofNat', Nat.mod_eq_of_lt (by omega)]
  apply Nat.eq_of_testBit_eq
  intro i
  rw [Nat.testBit_and, show 0x80 = 2 ^ 7 by rfl, Nat.testBit_two_pow]
  by_cases hi : 7 = i
  · subst hi
    simp [Nat.testBit_lt_two_pow (show value < 2 ^ 7 by omega)]
  · simp [hi]

private theorem lastByte_and_low {value : Nat} (h : value < 128) :
    (UInt8.ofNat value).toNat &&& 0x7F = value := by
  rw [UInt8.toNat_ofNat', and_low_bits]
  omega

private theorem nextByte_and_high (value : Nat) :
    (UInt8.ofNat (value ||| 0x80)).toNat &&& 0x80 ≠ 0 := by
  have hhigh : Nat.testBit 0x80 7 = true := by decide
  have hbit : Nat.testBit ((value ||| 0x80) % 2 ^ 8 &&& 0x80) 7 = true := by
    simp only [Nat.testBit_and, Nat.testBit_mod_two_pow, Nat.testBit_or, hhigh]
    simp
  rw [UInt8.toNat_ofNat']
  intro h
  rw [h] at hbit
  exact absurd hbit (by decide)

private theorem nextByte_and_low (value : Nat) :
    (UInt8.ofNat (value ||| 0x80)).toNat &&& 0x7F = value % 128 := by
  have hor : (value ||| 0x80) % 2 ^ 7 = value % 2 ^ 7 := by
    rw [Nat.or_mod_two_pow]
    simp
  rw [UInt8.toNat_ofNat', and_low_bits]
  simp only [Nat.reducePow] at hor ⊢
  omega

private theorem or_group {acc shift group bits : Nat} (hacc : acc < 2 ^ shift)
    (hgroup : group * 2 ^ shift < 2 ^ bits) :
    acc ||| (group <<< shift) % 2 ^ bits = acc + group * 2 ^ shift := by
  rw [Nat.shiftLeft_eq, Nat.mod_eq_of_lt hgroup, ← Nat.shiftLeft_eq,
    Nat.or_comm, ← Nat.shiftLeft_add_eq_or_of_lt hacc, Nat.shiftLeft_eq]
  omega

private theorem drop_cons {buf rest : List UInt8} {byte : UInt8} {off : Nat}
    (h : buf.drop off = byte :: rest) :
    ∃ hlt : off < buf.length, buf[off] = byte ∧ buf.drop (off + 1) = rest := by
  have hlt : off < buf.length := by
    by_contra hge
    rw [List.drop_of_length_le (Nat.not_lt.mp hge)] at h
    cases h
  rw [List.drop_eq_getElem_cons hlt] at h
  exact ⟨hlt, List.cons.inj h⟩

theorem decodeFrom_encode {bits : Nat} {buf : List UInt8} (groups : Nat) :
    ∀ {value off turns : Nat} (shift acc : Nat) {rest : List UInt8},
      value < 2 ^ (7 * (groups + 1)) → value * 2 ^ shift < 2 ^ bits → acc < 2 ^ shift →
      buf.drop off = encode groups value ++ rest → buf.length - off ≤ turns →
      ∃ stop, decodeFrom bits buf turns shift acc off = .ok (acc + value * 2 ^ shift, stop) ∧
        buf.drop stop = rest := by
  have final : ∀ {value shift acc off turns : Nat} {rest : List UInt8},
      value < 128 → value * 2 ^ shift < 2 ^ bits → acc < 2 ^ shift →
      buf.drop off = UInt8.ofNat value :: rest → buf.length - off ≤ turns →
      ∃ stop, decodeFrom bits buf turns shift acc off = .ok (acc + value * 2 ^ shift, stop) ∧
        buf.drop stop = rest := by
    intro value shift acc off turns rest hvalue hbits hacc hdrop hturns
    obtain ⟨hlt, hbyte, hrest⟩ := drop_cons hdrop
    obtain ⟨turns, rfl⟩ : ∃ n, turns = n + 1 := ⟨turns - 1, by omega⟩
    refine ⟨off + 1, ?_, hrest⟩
    simp only [decodeFrom, dif_pos hlt, hbyte, lastByte_and_high hvalue,
      lastByte_and_low hvalue, if_true, or_group hacc hbits]
  induction groups with
  | zero =>
    intro value off turns shift acc rest hvalue hbits hacc hdrop hturns
    exact final (by simpa using hvalue) hbits hacc hdrop hturns
  | succ groups ih =>
    intro value off turns shift acc rest hvalue hbits hacc hdrop hturns
    rw [encode] at hdrop
    split at hdrop
    · rename_i hsmall
      exact final hsmall hbits hacc hdrop hturns
    · rename_i hlarge
      have hdecompose : value = 128 * (value / 128) + value % 128 :=
        (Nat.div_add_mod value 128).symm
      have hshift : value * 2 ^ shift =
          value / 128 * 2 ^ (shift + 7) + value % 128 * 2 ^ shift := by
        conv_lhs => rw [hdecompose]
        ring
      have hgroup : value % 128 * 2 ^ shift < 2 ^ bits := by omega
      have hroom : ¬ shift + 7 > bits - 1 := by
        have hpow : 2 ^ (shift + 7) ≤ value * 2 ^ shift := by
          rw [Nat.pow_add, Nat.mul_comm]
          exact Nat.mul_le_mul_right _ (by omega)
        have hlt := (Nat.pow_lt_pow_iff_right (by decide : 1 < 2)).mp
          (Nat.lt_of_le_of_lt hpow hbits)
        omega
      have hacc' : acc + value % 128 * 2 ^ shift < 2 ^ (shift + 7) := by
        have hmod : value % 128 ≤ 127 := by omega
        have hmul := Nat.mul_le_mul_right (2 ^ shift) hmod
        rw [Nat.pow_add]
        omega
      have hdiv : value / 128 < 2 ^ (7 * (groups + 1)) := by
        rw [show 7 * (groups + 1 + 1) = 7 * (groups + 1) + 7 by omega,
          Nat.pow_add] at hvalue
        omega
      rw [List.cons_append, Nat.shiftRight_eq_div_pow] at hdrop
      obtain ⟨hlt, hbyte, hnext⟩ := drop_cons hdrop
      obtain ⟨turns, rfl⟩ : ∃ n, turns = n + 1 := ⟨turns - 1, by omega⟩
      obtain ⟨stop, hdecode, hrest⟩ := ih (shift + 7) _ hdiv (by omega) hacc' hnext
        (show buf.length - (off + 1) ≤ turns by omega)
      refine ⟨stop, ?_, hrest⟩
      simp only [decodeFrom, dif_pos hlt, hbyte, nextByte_and_high, if_false,
        nextByte_and_low, or_group hacc hgroup, hroom]
      rw [hdecode, hshift]
      congr 2
      omega

theorem decode_encode {bits groups value off : Nat} {buf rest : List UInt8}
    (hgroups : value < 2 ^ (7 * (groups + 1))) (hbits : value < 2 ^ bits)
    (hdrop : buf.drop off = encode groups value ++ rest) :
    ∃ stop, decode bits buf off = .ok (value, stop) ∧ buf.drop stop = rest := by
  have hbits' : value * 2 ^ 0 < 2 ^ bits := by rwa [Nat.pow_zero, Nat.mul_one]
  obtain ⟨stop, hdecode, hrest⟩ := decodeFrom_encode groups 0 0 hgroups hbits' Nat.one_pos
    hdrop (Nat.le_refl _)
  refine ⟨stop, hdecode.trans ?_, hrest⟩
  rw [Nat.pow_zero, Nat.mul_one, Nat.zero_add]

end Uleb128
