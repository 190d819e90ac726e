import AionR.Lib.BigEndian
import AionR.Lib.Checked
import AionR.Lib.Except

/-!
# The AVM ABI tokens and decoder

`AbiToken` and `AVMDecoder` (`src/util/avm_abi/src/abi_token.rs`): the encoding of the arguments of
a call into the AVM, and the decoder that reads an AVM call's output back. The client builds the
staking contract's calls with the encoder and reads their results with `decode_one_address`
(`get_coinbase`) and `decode_one_bigint` (`get_stake`).

## Model

A token's encoding is its tag byte and then its value. Fixed-width values are written big-endian
(`to_vm_bytes` transmutes `to_be()`), floats through their bit patterns, which is what `ToBe` gives;
a `BigUint` is a natural number. The decoder is its input and an offset. A decode returns a
`Result` (`Except DecodeError`), inside `Checked` for the panics of its unchecked indexing:
`eat` compares the offset with the length, but `require` is a stub that always succeeds, so the
reads after it are checked by nothing but the slice bounds.

## Main results

* `decodeOneAddress_encode`: the address decoder inverts the encoder, and
  `decodeOneBigint_ok`: the big-integer decoder never panics.
* The address decoder panics on every input of 2 to 32 bytes, and the big-integer decoder reads
  the bytes after the declared length into the number.
-/

namespace AionR

/-- `AbiToken`. A float is given by its IEEE bit pattern. -/
inductive AbiToken where
  | uchar (v : UInt8)
  | bool (v : Bool)
  | int8 (v : Int8)
  | int16 (v : Int16)
  | int32 (v : Int32)
  | int64 (v : Int64)
  | float (bits : UInt32)
  | double (bits : UInt64)
  | auchar (v : List UInt8)
  | abool (v : List Bool)
  | aint8 (v : List Int8)
  | aint16 (v : List Int16)
  | aint32 (v : List Int32)
  | aint64 (v : List Int64)
  | afloat (v : List UInt32)
  | adouble (v : List UInt64)
  | string (v : String)
  | address (v : Vector UInt8 32)
  | biginteger (v : Bytes)

/-- `to_vm_bytes` of a `width`-byte value: its big-endian bytes. -/
def toVmBytes (width bits : ℕ) : Bytes := toBigEndian width bits

namespace AbiToken

/-- `AVMEncoder::encode`. -/
def encode : AbiToken → Bytes
  | .uchar v => [0x01, v]
  | .bool v => [0x02, if v then 0x01 else 0x00]
  | .int8 v => [0x03, v.toUInt8]
  | .int16 v => 0x04 :: toVmBytes 2 v.toBitVec.toNat
  | .int32 v => 0x05 :: toVmBytes 4 v.toBitVec.toNat
  | .int64 v => 0x06 :: toVmBytes 8 v.toBitVec.toNat
  | .float bits => 0x07 :: toVmBytes 4 bits.toNat
  | .double bits => 0x08 :: toVmBytes 8 bits.toNat
  | .auchar v => 0x11 :: v
  -- a `false` element is written as `0x02`, not `0x00`
  | .abool v => 0x12 :: v.map fun b ↦ if b then 0x01 else 0x02
  | .aint8 v => 0x13 :: v.map (·.toUInt8)
  | .aint16 v => 0x14 :: v.flatMap fun x ↦ toVmBytes 2 x.toBitVec.toNat
  | .aint32 v => 0x15 :: v.flatMap fun x ↦ toVmBytes 4 x.toBitVec.toNat
  | .aint64 v => 0x16 :: v.flatMap fun x ↦ toVmBytes 8 x.toBitVec.toNat
  | .afloat v => 0x17 :: v.flatMap fun x ↦ toVmBytes 4 x.toNat
  | .adouble v => 0x18 :: v.flatMap fun x ↦ toVmBytes 8 x.toNat
  -- the length as an `i16`, which keeps its low sixteen bits
  | .string v => 0x21 :: toVmBytes 2 v.utf8ByteSize ++ v.toUTF8.toList
  | .address a => 0x22 :: a.toList
  -- the length as a `u8`, which keeps its low eight bits
  | .biginteger v => 0x23 :: v.length.toUInt8 :: v

end AbiToken

/-- `DecodeError`. -/
inductive DecodeError where
  | noEnoughBytes
  | unknownFormat
  deriving DecidableEq, Repr

/-- `AVMDecoder`: the bytes and the offset read so far. -/
structure AVMDecoder where
  bytes : Bytes
  offset : ℕ
  deriving DecidableEq, Repr

namespace AVMDecoder

/-- `AVMDecoder::new`. -/
def new (input : Bytes) : AVMDecoder := ⟨input, 0⟩

variable (d : AVMDecoder)

/-- `eat`: move the offset on by `num`, unless that reaches the end of the bytes. -/
def eat (num : ℕ) : Except DecodeError AVMDecoder :=
  if d.offset + num ≥ d.bytes.length then .error .noEnoughBytes
  else .ok { d with offset := d.offset + num }

/-- `require`: a stub that accepts every length. -/
def require (_d : AVMDecoder) (_num : ℕ) : Except DecodeError Unit := .ok ()

/-- The loop of `decode_ulong`: `ret |= bytes[i] << (7 + offset - i) * 8` for the eight bytes
from the offset. -/
def readUlong : Checked UInt64 :=
  (List.range' d.offset 8).foldlM (fun (ret : UInt64) i ↦ do
    return ret ||| ((← Checked.index d.bytes i).toUInt64 <<< ((7 + d.offset - i) * 8).toUInt64)) 0

/-- `decode_ulong`: skip the tag, then read eight bytes big-endian. -/
def decodeUlong : Checked (Except DecodeError (UInt64 × AVMDecoder)) :=
  match d.eat 1 with
  | .error e => .ok (.error e)
  | .ok d =>
    match d.require 8 with
    | .error e => .ok (.error e)
    | .ok () => do return .ok (← d.readUlong, d)

/-- `decode_one_bigint`: skip the tag, read the length byte and ignore it, then read everything
after it as a big-endian number. -/
def decodeOneBigint : Checked (Except DecodeError (ℕ × AVMDecoder)) :=
  match d.eat 1 with
  | .error e => .ok (.error e)
  | .ok d => do
    let length ← Checked.index d.bytes d.offset
    -- the result of `require` is dropped: no `?`
    let _ := d.require length.toNat
    match d.eat 1 with
    | .error e => return .error e
    | .ok d =>
      let rest ← Checked.slice d.bytes d.offset d.bytes.length
      return .ok (fromBigEndian rest, d)

/-- The loop of `decode_one_address`: `ret[i - offset] = bytes[i]` for the 32 bytes from the offset.
The write index stays below 32; only the read may panic. -/
def copyAddress : Checked (Vector UInt8 32) :=
  (List.range' d.offset 32).foldlM (fun (ret : Vector UInt8 32) i ↦ do
    return ret.setIfInBounds (i - d.offset) (← Checked.index d.bytes i)) (Vector.replicate 32 0)

/-- `decode_one_address`: skip the tag, then copy the next 32 bytes. -/
def decodeOneAddress : Checked (Except DecodeError (Vector UInt8 32 × AVMDecoder)) :=
  match d.eat 1 with
  | .error e => .ok (.error e)
  | .ok d =>
    match d.require 32 with
    | .error e => .ok (.error e)
    | .ok () => do return .ok (← d.copyAddress, d)


/-! ## What the decoder reads -/

theorem eat_one_of_lt (h : d.offset + 1 < d.bytes.length) : d.eat 1 = .ok ⟨d.bytes, d.offset + 1⟩ :=
  if_neg (Nat.not_le.mpr h)

theorem eat_one_of_le (h : d.bytes.length ≤ d.offset + 1) : d.eat 1 = .error .noEnoughBytes :=
  if_pos h

/-- The copy loop over its first `m` bytes, all within the input, has written them to the first
`m` places. -/
theorem foldlM_copy_range' {m : ℕ} (hm : m ≤ 32) (hlen : d.offset + m ≤ d.bytes.length) :
    (List.range' d.offset m).foldlM (fun (ret : Vector UInt8 32) i ↦ do
        return ret.setIfInBounds (i - d.offset) (← Checked.index d.bytes i))
        (Vector.replicate 32 0) =
      .ok (Vector.ofFn fun k ↦ if k.val < m then d.bytes.getD (d.offset + k) 0 else 0) := by
  induction m with
  | zero =>
    rw [List.range'_zero, List.foldlM_nil]
    refine congrArg Except.ok ?_
    ext k hk
    simp
  | succ m ih =>
    have hread : Checked.index d.bytes (d.offset + m) = .ok d.bytes[d.offset + m] :=
      Checked.index_of_lt (by omega)
    rw [List.range'_1_concat, List.foldlM_append, ih (by omega) (by omega), except_ok_bind]
    simp only [List.foldlM_cons, List.foldlM_nil, hread, except_ok_bind, except_pure_eq,
      Nat.add_sub_cancel_left]
    -- the new byte goes to place `m`
    refine congrArg Except.ok ?_
    ext k hk
    rw [Vector.getElem_setIfInBounds hk, Vector.getElem_ofFn, Vector.getElem_ofFn]
    dsimp only
    by_cases hkm : m = k
    · subst hkm
      rw [if_pos rfl, if_pos (Nat.lt_succ_self m), List.getD_eq_getElem?_getD,
        List.getElem?_eq_getElem (by omega), Option.getD_some]
    · rw [if_neg hkm]
      split_ifs <;> first | rfl | omega


/-- With 32 bytes after the offset, the copy reads them. -/
theorem copyAddress_of_le (hlen : d.offset + 32 ≤ d.bytes.length) :
    d.copyAddress = .ok (Vector.ofFn fun k ↦ d.bytes.getD (d.offset + k) 0) := by
  rw [copyAddress, foldlM_copy_range' d (le_refl 32) hlen]
  refine congrArg Except.ok ?_
  ext k hk
  simp

/-- With fewer than 32 bytes after the offset, the copy panics when it reads past the end. -/
theorem copyAddress_of_lt (hoff : d.offset ≤ d.bytes.length)
    (hlen : d.bytes.length < d.offset + 32) : d.copyAddress = .error .indexOutOfBounds := by
  -- the bytes there are copied, then the read at the end panics
  obtain ⟨m, hm⟩ : ∃ m, d.bytes.length - d.offset + (m + 1) = 32 :=
    ⟨32 - (d.bytes.length - d.offset) - 1, by omega⟩
  have hsplit : List.range' d.offset 32 =
      List.range' d.offset (d.bytes.length - d.offset) ++ d.bytes.length :: List.range' (d.bytes.length + 1) m := by
    rw [← List.range'_succ, ← hm, ← List.range'_append,
      show d.offset + 1 * (d.bytes.length - d.offset) = d.bytes.length by omega]
  have hread : Checked.index d.bytes d.bytes.length = .error .indexOutOfBounds := by
    rw [Checked.index, List.getElem?_eq_none (le_refl _)]
  rw [copyAddress, hsplit, List.foldlM_append, foldlM_copy_range' d (by omega) (by omega),
    except_ok_bind]
  simp only [List.foldlM_cons, hread, except_error_bind]


/-- `decode_one_address` on a fresh decoder. An input too short for the tag and one byte is an
error; one of 2 to 32 bytes panics in the copy; otherwise the 32 bytes after the tag are the
address, whatever the tag. -/
theorem decodeOneAddress_new (input : Bytes) :
    (new input).decodeOneAddress =
      if input.length ≤ 1 then .ok (.error .noEnoughBytes)
      else if input.length < 33 then .error .indexOutOfBounds
      else .ok (.ok (Vector.ofFn fun k ↦ input.getD (1 + k) 0, ⟨input, 1⟩)) := by
  split_ifs with h1 h33
  · rw [decodeOneAddress, eat_one_of_le (new input) h1]
  · rw [decodeOneAddress, eat_one_of_lt (new input) (by simp only [new]; omega)]
    simp only [require, new, Nat.zero_add]
    rw [copyAddress_of_lt ⟨input, 1⟩ (by simp only; omega) (by simp only; omega)]
    rfl
  · rw [decodeOneAddress, eat_one_of_lt (new input) (by simp only [new]; omega)]
    simp only [require, new, Nat.zero_add]
    rw [copyAddress_of_le ⟨input, 1⟩ (by simp only; omega)]
    rfl

/-- `decode_one_bigint` on a fresh decoder: an error below three bytes, and otherwise the number
spelled by everything after the tag and the length byte. It never panics. -/
theorem decodeOneBigint_new (input : Bytes) :
    (new input).decodeOneBigint =
      if input.length ≤ 2 then .ok (.error .noEnoughBytes)
      else .ok (.ok (fromBigEndian (input.drop 2), ⟨input, 2⟩)) := by
  rcases Nat.lt_or_ge 1 input.length with h1 | h1
  · -- the tag is there, and so is the length byte it reads
    have hlength : Checked.index input (0 + 1) = .ok input[1] := Checked.index_of_lt h1
    rw [decodeOneBigint, eat_one_of_lt (new input) (by simp only [new]; omega)]
    simp only [new, hlength, except_ok_bind]
    split_ifs with h2
    · rw [eat_one_of_le ⟨input, 0 + 1⟩ (by simp only; omega)]
      rfl
    · rw [eat_one_of_lt ⟨input, 0 + 1⟩ (by simp only; omega)]
      simp only [Checked.slice_of_le (show 0 + 1 + 1 ≤ input.length by omega) (le_refl _),
        except_ok_bind, except_pure_eq]
      rw [List.take_of_length_le (by simp)]
  · rw [decodeOneBigint, eat_one_of_le (new input) h1, if_pos (by omega)]


/-- **The address decoder inverts the encoder.** -/
theorem decodeOneAddress_encode (a : Vector UInt8 32) :
    (new (AbiToken.address a).encode).decodeOneAddress =
      .ok (.ok (a, ⟨(AbiToken.address a).encode, 1⟩)) := by
  have hvec : (Vector.ofFn fun k : Fin 32 ↦ (AbiToken.address a).encode.getD (1 + k) 0) = a := by
    ext k hk
    simp [AbiToken.encode, Nat.add_comm 1 k, List.getD_eq_getElem?_getD, hk]
  rw [decodeOneAddress_new, if_neg (by simp [AbiToken.encode]), if_neg (by simp [AbiToken.encode]),
    hvec]

/-- **The big-integer decoder never panics.** -/
theorem decodeOneBigint_ok (input : Bytes) : ∃ r, (new input).decodeOneBigint = .ok r := by
  rw [decodeOneBigint_new]
  split_ifs
  · exact ⟨_, rfl⟩
  · exact ⟨_, rfl⟩

/-- **The address decoder panics on short output, and the big-integer decoder ignores the length it
is given.** Every input of 2 to 32 bytes makes `decode_one_address` index past the end, although
`eat` passed; and a big integer encoded with its length and followed by further bytes decodes as
the number of all of them. -/
theorem decode_panics_on_short_address_and_overreads_bigint :
    (∀ input : Bytes, 2 ≤ input.length → input.length < 33 →
      (new input).decodeOneAddress = .error .indexOutOfBounds) ∧
    ∀ v rest : Bytes, 1 ≤ v.length → v.length ≤ 255 →
      (new ((AbiToken.biginteger v).encode ++ rest)).decodeOneBigint =
        .ok (.ok (fromBigEndian (v ++ rest), ⟨(AbiToken.biginteger v).encode ++ rest, 2⟩)) := by
  refine ⟨fun input h2 h33 ↦ ?_, fun v rest h1 _ ↦ ?_⟩
  · rw [decodeOneAddress_new, if_neg (by omega), if_pos h33]
  · -- the tag and the length byte are skipped, and everything after them is read
    rw [decodeOneBigint_new, if_neg (by
      simp only [AbiToken.encode, List.cons_append, List.length_cons, List.length_append]; omega)]
    rfl

/-- Two bytes for an address panic, and the big integer `[1]` followed by a zero byte reads as
`256`. -/
theorem decode_short_address_and_padded_bigint :
    (new [0x22, 0]).decodeOneAddress = .error .indexOutOfBounds ∧
      (new ((AbiToken.biginteger [1]).encode ++ [0])).decodeOneBigint =
        .ok (.ok (256, ⟨[0x23, 1, 1, 0], 2⟩)) :=
  ⟨decode_panics_on_short_address_and_overreads_bigint.1 [0x22, 0] (by decide) (by decide),
    (decode_panics_on_short_address_and_overreads_bigint.2 [1] [0] (by decide) (by decide)).trans
      rfl⟩

end AVMDecoder

end AionR
