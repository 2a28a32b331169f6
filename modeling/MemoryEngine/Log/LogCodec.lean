import MemoryEngine.Library.ByteMemory
import MemoryEngine.Library.Uleb128

/-! The payload codec of redo records (`txn/LogCodec.h`).  A payload is a
version byte followed by page operations; the decoder yields them one by one
and stops at the end of the payload or at the first malformed operation. -/
namespace MemoryEngine.LogCodec

open ByteMemory List Option

def kCodecVersion : UInt8 := 1

/-- The pointer of `UPDATE_BYTES` stands as the bytes that can be read through it, up to `len`. -/
inductive DecodedOp where
  | updateBytes (offset len : Nat) (bytes : List UInt8)
  | fillBytes (offset len : Nat) (value : UInt8)
  | memmove (dst src len : Nat)
  | setU64LE (offset value : Nat)
  deriving DecidableEq, Repr

/-- All of a block of bytes. -/
abbrev DecodedOp.update (offset : Nat) (bytes : List UInt8) : DecodedOp :=
  .updateBytes offset bytes.length bytes

/-- `uint64_t` needs at most ten groups of seven bits. -/
def putUVar (value : Nat) : List UInt8 := Uleb128.encode 9 value

def getUVar (buf : List UInt8) (off : Nat) : Except Nat (Nat × Nat) :=
  Uleb128.decode 64 buf off

variable (ops : List DecodedOp)

namespace Encoder

abbrev Buffer := List UInt8

def init : Buffer := [kCodecVersion]

variable (buf : Buffer)

def addUpdateBytes (offset : Nat) (src : List UInt8) (len : Nat) : Buffer :=
  buf ++ 0x01 :: (putUVar offset ++ putUVar len ++ src.take len)

def addFillBytes (offset len : Nat) (value : UInt8) : Buffer :=
  buf ++ 0x02 :: (putUVar offset ++ putUVar len ++ [value])

def addMemmove (dst src len : Nat) : Buffer :=
  buf ++ 0x03 :: (putUVar dst ++ putUVar src ++ putUVar len)

def addSetU64LE (offset value : Nat) : Buffer :=
  buf ++ 0x04 :: (putUVar offset ++ putUVar value)

def add : DecodedOp → Buffer
  | .updateBytes offset len bytes => addUpdateBytes buf offset bytes len
  | .fillBytes offset len value => addFillBytes buf offset len value
  | .memmove dst src len => addMemmove buf dst src len
  | .setU64LE offset value => addSetU64LE buf offset value

/-- The buffer after a sequence of `Add` calls on a new encoder. -/
def encode : Buffer := ops.foldl add init

end Encoder

/-- `base_` with its `len_` bytes, the read position `off_` and the flag `ok_`. -/
structure Decoder where
  base : List UInt8
  off : Nat
  ok : Bool
  deriving DecidableEq, Repr

namespace Decoder

def init (data : List UInt8) : Decoder :=
  match data with
  | [] => ⟨data, 0, false⟩
  | version :: _ => if version ≠ kCodecVersion then ⟨data, 0, false⟩ else ⟨data, 1, true⟩

def good (decoder : Decoder) : Bool := decoder.ok

/-- The operands of one operation from `off` on; an error is the decoder's `Fail`, with the
position it leaves.  Offsets and lengths are narrowed to `uint32_t` as the source does. -/
def operands (opcode : UInt8) (base : List UInt8) (off : Nat) : Except Nat (DecodedOp × Nat) :=
  if opcode = 0x01 then do
    let (offset, off) ← getUVar base off
    let (ln, off) ← getUVar base off
    let len := ln % 2 ^ 32
    if off + len > base.length then .error off
    else .ok (.updateBytes (offset % 2 ^ 32) len ((base.drop off).take len), off + len)
  else if opcode = 0x02 then do
    let (offset, off) ← getUVar base off
    let (ln, off) ← getUVar base off
    if h : off < base.length then
      .ok (.fillBytes (offset % 2 ^ 32) (ln % 2 ^ 32) base[off], off + 1)
    else .error off
  else if opcode = 0x03 then do
    let (d, off) ← getUVar base off
    let (s, off) ← getUVar base off
    let (ln, off) ← getUVar base off
    .ok (.memmove (d % 2 ^ 32) (s % 2 ^ 32) (ln % 2 ^ 32), off)
  else if opcode = 0x04 then do
    let (offset, off) ← getUVar base off
    let (value, off) ← getUVar base off
    .ok (.setU64LE (offset % 2 ^ 32) value, off)
  else .error off

def next (decoder : Decoder) : Option DecodedOp × Decoder :=
  if h : decoder.ok = true ∧ decoder.off < decoder.base.length then
    match operands (decoder.base[decoder.off]) decoder.base (decoder.off + 1) with
    | .ok (op, off) => (some op, { decoder with off := off })
    | .error off => (none, { decoder with off := off, ok := false })
  else (none, decoder)

/-- The loop `while (decoder.Next(op))`: the operations yielded, and `Good()`
after the last call.  Each call that yields an operation consumes a byte. -/
def drain : Nat → Decoder → List DecodedOp × Bool
  | 0, decoder => ([], decoder.good)
  | fuel + 1, decoder =>
      match decoder.next with
      | (some op, decoder) =>
          let (ops, ok) := drain fuel decoder
          (op :: ops, ok)
      | (none, decoder) => ([], decoder.good)

end Decoder

def decode (payload : List UInt8) : List DecodedOp × Bool :=
  Decoder.drain payload.length (Decoder.init payload)

/-! Applying an operation to the page at `base`. -/

variable (op : DecodedOp) (base : Nat)

variable (memory : Memory)

def DecodedOp.apply : Memory :=
  match op with
  | .updateBytes offset len bytes => write memory (base + offset) (bytes.take len)
  | .fillBytes offset len value => fill memory (base + offset) len value
  | .memmove dst src len => move memory (base + dst) (base + src) len
  | .setU64LE offset value => write memory (base + offset) (natLE 8 value)

def applyAll : Memory :=
  ops.foldl (fun memory op => op.apply base memory) memory

def DecodedOp.Fits : DecodedOp → Prop
  | .updateBytes offset len bytes => offset < 2 ^ 32 ∧ len < 2 ^ 32 ∧ bytes.length = len
  | .fillBytes offset len _ => offset < 2 ^ 32 ∧ len < 2 ^ 32
  | .memmove dst src len => dst < 2 ^ 32 ∧ src < 2 ^ 32 ∧ len < 2 ^ 32
  | .setU64LE offset value => offset < 2 ^ 32 ∧ value < 2 ^ 64

/-- Every byte the operation reads or writes lies in the first `size` bytes. -/
def DecodedOp.Within (size : Nat) : DecodedOp → Prop
  | .updateBytes offset len bytes => offset + len ≤ size ∧ bytes.length = len
  | .fillBytes offset len _ => offset + len ≤ size
  | .memmove dst src len => dst + len ≤ size ∧ src + len ≤ size
  | .setU64LE offset _ => offset + 8 ≤ size

theorem DecodedOp.apply_update (offset : Nat) (bytes : List UInt8) :
    (DecodedOp.update offset bytes).apply base memory = write memory (base + offset) bytes := by
  rw [apply, take_length]

theorem DecodedOp.within_update {size offset : Nat} {bytes : List UInt8} :
    (DecodedOp.update offset bytes).Within size ↔ offset + bytes.length ≤ size :=
  and_iff_left rfl

instance (op : DecodedOp) : Decidable op.Fits := by
  cases op <;> unfold DecodedOp.Fits <;> infer_instance

instance (size : Nat) (op : DecodedOp) : Decidable (op.Within size) := by
  cases op <;> unfold DecodedOp.Within <;> infer_instance

theorem getUVar_putUVar {value off : Nat} {buf rest : List UInt8} (h : value < 2 ^ 64)
    (hdrop : buf.drop off = putUVar value ++ rest) :
    ∃ stop, getUVar buf off = .ok (value, stop) ∧ buf.drop stop = rest :=
  Uleb128.decode_encode (h.trans (by decide)) h hdrop

theorem getUVar_within {buf : List UInt8} {off value stop : Nat}
    (h : getUVar buf off = .ok (value, stop)) : off < stop ∧ stop ≤ buf.length :=
  Uleb128.decodeFrom_within h

def DecodedOp.bytes : List UInt8 := Encoder.add [] op

theorem Encoder.add_eq (buf : Encoder.Buffer) (op : DecodedOp) :
    Encoder.add buf op = buf ++ op.bytes := by
  cases op <;> simp [DecodedOp.bytes, Encoder.add, Encoder.addUpdateBytes,
    Encoder.addFillBytes, Encoder.addMemmove, Encoder.addSetU64LE]

theorem Encoder.encode_eq :
    Encoder.encode ops = kCodecVersion :: ops.flatMap DecodedOp.bytes := by
  have h : ∀ buf, ops.foldl Encoder.add buf = buf ++ ops.flatMap DecodedOp.bytes := by
    induction ops with
    | nil => simp
    | cons op ops ih =>
      intro buf
      rw [foldl_cons, ih, Encoder.add_eq]
      simp
  rw [Encoder.encode, h]
  rfl

theorem getUVar_putUVar_u32 {value off : Nat} {buf rest : List UInt8} (h : value < 2 ^ 32)
    (hdrop : buf.drop off = putUVar value ++ rest) :
    ∃ stop, getUVar buf off = .ok (value, stop) ∧ buf.drop stop = rest :=
  getUVar_putUVar (h.trans (by decide)) hdrop

theorem Decoder.operands_bytes {op : DecodedOp} (h : op.Fits) {base rest : List UInt8} {off : Nat}
    (hdrop : base.drop off = op.bytes ++ rest) :
    ∃ (hlt : off < base.length) (stop : Nat),
      operands base[off] base (off + 1) = .ok (op, stop) ∧ base.drop stop = rest := by
  have hlt : off < base.length := by
    by_contra hge
    rw [drop_of_length_le (Nat.not_lt.mp hge)] at hdrop
    cases op <;> cases hdrop
  rw [drop_eq_getElem_cons hlt] at hdrop
  refine ⟨hlt, ?_⟩
  cases op with
  | updateBytes offset len bytes =>
    obtain ⟨hoff, hlen, hbytes⟩ := h
    simp only [DecodedOp.bytes, Encoder.add, Encoder.addUpdateBytes, nil_append, cons_append,
      append_assoc, cons.injEq, take_of_length_le (Nat.le_of_eq hbytes)] at hdrop
    obtain ⟨first, hfirst, hdrop1⟩ := getUVar_putUVar_u32 hoff hdrop.2
    obtain ⟨second, hsecond, hdrop2⟩ := getUVar_putUVar_u32 hlen hdrop1
    have hwithin := (getUVar_within hsecond).2
    have hsize := congrArg length hdrop2
    rw [length_drop, length_append, hbytes] at hsize
    refine ⟨second + len, ?_, ?_⟩
    · simp only [operands, hdrop.1, if_true, hfirst, hsecond, Nat.mod_eq_of_lt hoff,
        Nat.mod_eq_of_lt hlen, bind, Except.bind]
      rw [if_neg (by omega), hdrop2, ← hbytes, take_left]
    · rw [← drop_drop, hdrop2, ← hbytes, drop_left]
  | fillBytes offset len value =>
    obtain ⟨hoff, hlen⟩ := h
    simp only [DecodedOp.bytes, Encoder.add, Encoder.addFillBytes, nil_append, cons_append,
      append_assoc, cons.injEq] at hdrop
    obtain ⟨first, hfirst, hdrop1⟩ := getUVar_putUVar_u32 hoff hdrop.2
    obtain ⟨second, hsecond, hdrop2⟩ := getUVar_putUVar_u32 hlen hdrop1
    have hroom : second < base.length := by
      by_contra hge
      rw [drop_of_length_le (Nat.not_lt.mp hge)] at hdrop2
      cases hdrop2
    rw [drop_eq_getElem_cons hroom, cons.injEq] at hdrop2
    refine ⟨second + 1, ?_, hdrop2.2⟩
    simpa [operands, hdrop.1, hfirst, hsecond, bind, Except.bind, hroom, hdrop2.1] using
      And.intro hoff hlen
  | memmove dst src len =>
    obtain ⟨hdst, hsrc, hlen⟩ := h
    simp only [DecodedOp.bytes, Encoder.add, Encoder.addMemmove, nil_append, cons_append,
      append_assoc, cons.injEq] at hdrop
    obtain ⟨first, hfirst, hdrop1⟩ := getUVar_putUVar_u32 hdst hdrop.2
    obtain ⟨second, hsecond, hdrop2⟩ := getUVar_putUVar_u32 hsrc hdrop1
    obtain ⟨third, hthird, hdrop3⟩ := getUVar_putUVar_u32 hlen hdrop2
    refine ⟨third, ?_, hdrop3⟩
    simpa [operands, hdrop.1, hfirst, hsecond, hthird, bind, Except.bind] using
      And.intro hdst (And.intro hsrc hlen)
  | setU64LE offset value =>
    obtain ⟨hoff, hvalue⟩ := h
    simp only [DecodedOp.bytes, Encoder.add, Encoder.addSetU64LE, nil_append, cons_append,
      append_assoc, cons.injEq] at hdrop
    obtain ⟨first, hfirst, hdrop1⟩ := getUVar_putUVar_u32 hoff hdrop.2
    obtain ⟨second, hsecond, hdrop2⟩ := getUVar_putUVar hvalue hdrop1
    refine ⟨second, ?_, hdrop2⟩
    simpa [operands, hdrop.1, hfirst, hsecond, bind, Except.bind] using hoff

theorem Decoder.next_bytes {op : DecodedOp} (h : op.Fits) {base rest : List UInt8} {off : Nat}
    (hdrop : base.drop off = op.bytes ++ rest) :
    ∃ stop, next ⟨base, off, true⟩ = (some op, ⟨base, stop, true⟩) ∧ base.drop stop = rest := by
  obtain ⟨hlt, stop, hoperands, hrest⟩ := operands_bytes h hdrop
  refine ⟨stop, ?_, hrest⟩
  rw [next, dif_pos ⟨rfl, hlt⟩, hoperands]

theorem Decoder.next_end {base : List UInt8} {off : Nat} (hdrop : base.drop off = []) :
    next ⟨base, off, true⟩ = (none, ⟨base, off, true⟩) := by
  have hend := drop_eq_nil_iff.mp hdrop
  rw [next, dif_neg]
  rintro ⟨-, hlt⟩
  exact absurd hlt (Nat.not_lt.mpr hend)

/-- Successive calls of `Next` yield the operations, one for each call, and leave `last`. -/
inductive Decoder.Yields : Decoder → List DecodedOp → Decoder → Prop where
  | done (last : Decoder) : Yields last [] last
  | next {decoder after last : Decoder} {op : DecodedOp} {ops : List DecodedOp}
      (hnext : decoder.next = (some op, after)) (hrest : Yields after ops last) :
      Yields decoder (op :: ops) last

theorem Decoder.yields_bytes {ops : List DecodedOp} (h : ∀ op ∈ ops, op.Fits) {base : List UInt8}
    {off : Nat} (hdrop : base.drop off = ops.flatMap DecodedOp.bytes) :
    ∃ stop, Yields ⟨base, off, true⟩ ops ⟨base, stop, true⟩ ∧ base.drop stop = [] := by
  induction ops generalizing off with
  | nil => exact ⟨off, .done _, hdrop⟩
  | cons op ops ih =>
    rw [flatMap_cons] at hdrop
    obtain ⟨first, hnext, hrest⟩ := next_bytes (h op mem_cons_self) hdrop
    obtain ⟨stop, hyields, hstop⟩ :=
      ih (fun other hother => h other (mem_cons_of_mem op hother)) hrest
    exact ⟨stop, .next hnext hyields, hstop⟩

theorem Decoder.yields_encode {ops : List DecodedOp} (h : ∀ op ∈ ops, op.Fits) :
    ∃ last, Yields (init (Encoder.encode ops)) ops last ∧ last.next = (none, last) ∧
      last.good = true := by
  rw [Encoder.encode_eq]
  obtain ⟨stop, hyields, hstop⟩ := yields_bytes h
    (show (kCodecVersion :: ops.flatMap DecodedOp.bytes).drop 1 = _ from rfl)
  exact ⟨_, hyields, next_end hstop, rfl⟩

theorem Decoder.drain_yields {decoder last : Decoder} {ops : List DecodedOp}
    (h : Yields decoder ops last) (hlast : last.next = (none, last)) :
    ∀ {fuel : Nat}, ops.length ≤ fuel → drain fuel decoder = (ops, last.good) := by
  induction h with
  | done last =>
    intro fuel _
    cases fuel <;> simp [drain, hlast]
  | next hnext _ ih =>
    intro fuel hfuel
    obtain ⟨fuel, rfl⟩ : ∃ n, fuel = n + 1 := ⟨fuel - 1, by simp at hfuel; omega⟩
    simp [drain, hnext, ih hlast (by simpa using hfuel)]

theorem DecodedOp.bytes_length_pos : 0 < op.bytes.length := by
  cases op <;> simp [bytes, Encoder.add, Encoder.addUpdateBytes,
    Encoder.addFillBytes, Encoder.addMemmove, Encoder.addSetU64LE]

variable {ops : List DecodedOp}

/-- The replayer decodes exactly the operations that were encoded. -/
theorem decode_encode (h : ∀ op ∈ ops, op.Fits) :
    decode (Encoder.encode ops) = (ops, true) := by
  have hlength : ops.length ≤ (ops.flatMap DecodedOp.bytes).length := by
    clear h
    induction ops with
    | nil => simp
    | cons op ops ih =>
      have := op.bytes_length_pos
      simp only [length_cons, flatMap_cons, length_append]
      omega
  obtain ⟨last, hyields, hlast, hgood⟩ := Decoder.yields_encode h
  rw [decode, Decoder.drain_yields hyields hlast, hgood]
  rw [Encoder.encode_eq, length_cons]
  omega

/-- A decoder on the buffer of an encoder yields what was added, and then stops without an error. -/
theorem decoder_yields_encoded {ops : List DecodedOp} (h : ∀ op ∈ ops, op.Fits) :
    ∃ last, Decoder.Yields (Decoder.init (Encoder.encode ops)) ops last ∧
      last.next = (none, last) ∧ last.good = true :=
  Decoder.yields_encode h

def mixedOps : List DecodedOp :=
  [.update 5 [0x01, 0x80, 0x04], .fillBytes (2 ^ 32 - 1) 0 0xFF, .memmove 128 16384 0,
    .setU64LE 64 (2 ^ 64 - 1)]

theorem decoder_yields_encoded_mixedOps :
    ∃ last, Decoder.Yields (Decoder.init (Encoder.encode mixedOps)) mixedOps last ∧
      last.next = (none, last) ∧ last.good = true :=
  decoder_yields_encoded (by decide)

/-! The decoder on arbitrary bytes. -/

namespace Decoder

/-- An operation that was read from `off` to `stop`: all of it is input, and the inline bytes are
the `len` bytes before `stop`. -/
structure Consumes (input : List UInt8) (off : Nat) (op : DecodedOp) (stop : Nat) : Prop where
  forward : off < stop
  within : stop ≤ input.length
  inline : ∀ offset len bytes, op = .updateBytes offset len bytes → ∃ start, off < start ∧
    start + len = stop ∧ bytes = (input.drop start).take len ∧ bytes.length = len

variable {decoder after last : Decoder} {op : DecodedOp} {ops : List DecodedOp}

theorem bind_eq_ok {β γ : Type} {first : Except Nat β} {second : β → Except Nat γ} {result : γ} :
    first >>= second = .ok result ↔ ∃ value, first = .ok value ∧ second value = .ok result := by
  cases first with
  | error off => simp [bind, Except.bind]
  | ok value => simp [bind, Except.bind]

theorem operands_consumes {opcode : UInt8} {base : List UInt8} {off stop : Nat}
    (h : operands opcode base (off + 1) = .ok (op, stop)) : Consumes base off op stop := by
  unfold operands at h
  split_ifs at h
  · simp only [bind_eq_ok] at h
    obtain ⟨⟨offset, first⟩, hfirst, ⟨len, second⟩, hsecond, h⟩ := h
    have hpass := (getUVar_within hfirst).1
    have hnext := getUVar_within hsecond
    split_ifs at h with hroom
    obtain ⟨rfl, rfl⟩ := Prod.mk.inj (Except.ok.inj h)
    refine ⟨by omega, by omega, ?_⟩
    rintro _ _ _ ⟨⟩
    refine ⟨second, by omega, rfl, rfl, ?_⟩
    rw [length_take, length_drop]
    omega
  · simp only [bind_eq_ok] at h
    obtain ⟨⟨offset, first⟩, hfirst, ⟨len, second⟩, hsecond, h⟩ := h
    have hpass := (getUVar_within hfirst).1
    have hnext := getUVar_within hsecond
    split_ifs at h with hroom
    obtain ⟨rfl, rfl⟩ := Prod.mk.inj (Except.ok.inj h)
    exact ⟨by omega, by omega, fun _ _ _ heq => nomatch heq⟩
  · simp only [bind_eq_ok] at h
    obtain ⟨⟨dst, first⟩, hfirst, ⟨src, second⟩, hsecond, ⟨len, third⟩, hthird, h⟩ := h
    have hpass := (getUVar_within hfirst).1
    have hnext := (getUVar_within hsecond).1
    have hlast := getUVar_within hthird
    obtain ⟨rfl, rfl⟩ := Prod.mk.inj (Except.ok.inj h)
    exact ⟨by omega, hlast.2, fun _ _ _ heq => nomatch heq⟩
  · simp only [bind_eq_ok] at h
    obtain ⟨⟨offset, first⟩, hfirst, ⟨value, second⟩, hsecond, h⟩ := h
    have hpass := (getUVar_within hfirst).1
    have hnext := getUVar_within hsecond
    obtain ⟨rfl, rfl⟩ := Prod.mk.inj (Except.ok.inj h)
    exact ⟨by omega, hnext.2, fun _ _ _ heq => nomatch heq⟩

theorem next_some (h : decoder.next = (some op, after)) :
    after.base = decoder.base ∧ Consumes decoder.base decoder.off op after.off := by
  unfold next at h
  split_ifs at h
  · split at h
    · rename_i hoperands
      obtain ⟨rfl, rfl⟩ := h
      exact ⟨rfl, operands_consumes hoperands⟩
    · cases h
  · cases h

/-- A call that yields nothing is not followed by one that does, and only the end of the input
leaves `Good()` as it is. -/
theorem next_none (h : decoder.next = (none, after)) :
    after.next = (none, after) ∧ (after.good = true → decoder.base.length ≤ decoder.off) := by
  unfold next at h
  split_ifs at h with hok
  · split at h
    · cases h
    · obtain ⟨-, rfl⟩ := h
      exact ⟨by simp [next], by simp [good]⟩
  · obtain ⟨-, rfl⟩ := h
    refine ⟨by rw [next, dif_neg hok], fun hgood => ?_⟩
    exact Nat.not_lt.mp fun hlt => hok ⟨hgood, hlt⟩

theorem Yields.consumes (h : Yields decoder ops last) (hoff : decoder.off ≤ decoder.base.length) :
    last.base = decoder.base ∧ last.off ≤ decoder.base.length ∧
      decoder.off + ops.length ≤ last.off := by
  induction h with
  | done => exact ⟨rfl, hoff, Nat.le_refl _⟩
  | next hnext _ ih =>
    obtain ⟨hbase, hpass⟩ := next_some hnext
    have hforward := hpass.forward
    obtain ⟨hlast, hwithin, hmany⟩ := ih (hbase ▸ hpass.within)
    rw [length_cons]
    exact ⟨hlast.trans hbase, hbase ▸ hwithin, by omega⟩

theorem yields_until_none (decoder : Decoder) :
    ∃ ops last, Yields decoder ops last ∧ last.next.1 = none := by
  induction hsize : decoder.base.length - decoder.off using Nat.strong_induction_on
    generalizing decoder with
  | _ size ih =>
    rcases hnext : decoder.next with ⟨_ | op, after⟩
    · exact ⟨[], decoder, .done decoder, by rw [hnext]⟩
    · obtain ⟨hbase, hpass⟩ := next_some hnext
      have hforward := hpass.forward
      have hwithin := hpass.within
      obtain ⟨ops, last, hyields, hnone⟩ :=
        ih (after.base.length - after.off) (by rw [hbase]; omega) after rfl
      exact ⟨op :: ops, last, .next hnext hyields, hnone⟩

theorem init_within (input : List UInt8) :
    (init input).base = input ∧ (init input).off ≤ input.length := by
  unfold init
  split
  · exact ⟨rfl, Nat.zero_le _⟩
  · split_ifs
    · exact ⟨rfl, Nat.zero_le _⟩
    · exact ⟨rfl, Nat.succ_le_succ (Nat.zero_le _)⟩

end Decoder

/-- The calls of `Next` on any bytes come to an end, with the read position within the input.  Each
one that succeeds moves the position forward, and its inline bytes are as many as it says and lie
before the new position; a call that fails before the end clears `Good()`, and all later calls
fail. -/
theorem decoder_stays_within (input : List UInt8) :
    (∃ ops last, Decoder.Yields (Decoder.init input) ops last ∧ last.next.1 = none) ∧
    ∀ ops last, Decoder.Yields (Decoder.init input) ops last →
      ops.length ≤ input.length ∧ last.base = input ∧ last.off ≤ input.length ∧
      (∀ op after, last.next = (some op, after) →
        after.base = input ∧ Decoder.Consumes input last.off op after.off) ∧
      ∀ after, last.next = (none, after) →
        after.next = (none, after) ∧ (after.good = true → last.off = input.length) := by
  refine ⟨Decoder.yields_until_none _, ?_⟩
  intro ops last hyields
  obtain ⟨hinit, hstart⟩ := Decoder.init_within input
  obtain ⟨hbase, hwithin, hmany⟩ := hyields.consumes (by rwa [hinit])
  rw [hinit] at hbase hwithin
  refine ⟨by omega, hbase, hwithin, ?_, ?_⟩
  · intro op after hnext
    exact hbase ▸ Decoder.next_some hnext
  · intro after hnext
    obtain ⟨hlater, hgood⟩ := Decoder.next_none hnext
    refine ⟨hlater, fun h => Nat.le_antisymm hwithin ?_⟩
    exact hbase ▸ hgood h

/-! Operations on a page seen from its base address. -/

theorem DecodedOp.view_apply :
    view (op.apply base memory) base = op.apply 0 (view memory base) := by
  cases op <;> simp [apply, view_write, view_fill, view_move]

theorem view_applyAll :
    view (applyAll ops base memory) base = applyAll ops 0 (view memory base) := by
  induction ops generalizing memory with
  | nil => rfl
  | cons op ops ih =>
    simp only [applyAll, foldl_cons] at ih ⊢
    rw [ih, op.view_apply]

@[simp] theorem applyAll_nil :
    applyAll [] base memory = memory := rfl

@[simp] theorem applyAll_cons (ops : List DecodedOp) (base : Nat) (memory : Memory) :
    applyAll (op :: ops) base memory = applyAll ops base (op.apply base memory) := rfl

theorem applyAll_append (first second : List DecodedOp) (base : Nat) (memory : Memory) :
    applyAll (first ++ second) base memory =
      applyAll second base (applyAll first base memory) := by
  simp [applyAll]

theorem DecodedOp.apply_outside {op : DecodedOp} {size base address : Nat}
    (h : op.Within size) (hout : address < base ∨ base + size ≤ address) :
    op.apply base memory address = memory address := by
  cases op with
  | updateBytes offset len bytes =>
    simp only [Within] at h
    exact write_outside memory _ (by simp; omega)
  | fillBytes offset len value =>
    simp only [Within] at h
    exact write_outside memory _ (by simp; omega)
  | memmove dst src len =>
    simp only [Within] at h
    exact write_outside memory _ (by simp; omega)
  | setU64LE offset value =>
    simp only [Within] at h
    exact write_outside memory _ (by simp; omega)

theorem applyAll_outside {size base address : Nat}
    (h : ∀ op ∈ ops, op.Within size) (hout : address < base ∨ base + size ≤ address) :
    applyAll ops base memory address = memory address := by
  induction ops generalizing memory with
  | nil => rfl
  | cons op ops ih =>
    rw [applyAll_cons, ih _ fun o ho => h o (by simp [ho]),
      DecodedOp.apply_outside memory (h op (by simp)) hout]

end MemoryEngine.LogCodec
