import AionR.Lib.BigEndian

/-!
# Bridge transfers and the bytes of their values

A `BridgeTransfer` (`src/core/src/precompiled/atb/bridge_transfer.rs`) is a value with a recipient
and the hash of the source transaction. Its value is a `num_bigint::BigInt`, which the bridge
writes in two ways: `get_instance` bounds the unsigned magnitude (`to_bytes_be`) by 16 bytes, and
`get_transfer_value_bytearray`, which feeds the bundle hash, pads the signed two's-complement
bytes (`to_signed_bytes_be`) to 16. The two bounds differ by the sign byte.

## Numbers

`BigInt` is an integer here. The two byte conversions of `num-bigint` the bridge calls are a
parameter, `BigIntBytes`, with the three facts about them that the proofs use. They are written
out in `BigInt` below, which is an implementation (`bigIntBytes`): the magnitude's big-endian
bytes without leading zeros (`[0]` for zero), and the signed bytes, which take a leading `0x00`
when a non-negative number's first byte has its top bit set, and are the two's complement of the
magnitude for a negative one.
-/

namespace AionR

/-- What the bridge uses of `num-bigint`: the bytes of a magnitude and the two's-complement bytes
of a `BigInt`, both big-endian. -/
class BigIntBytes where
  /-- `BigUint::to_bytes_be`. -/
  toBytesBe : ℕ → Bytes
  /-- `BigInt::to_signed_bytes_be`. -/
  toSignedBytesBe : ℤ → Bytes
  /-- A magnitude below `2 ^ 128` takes at most sixteen bytes. -/
  length_toBytesBe_le : ∀ {v : ℕ}, v < 2 ^ 128 → (toBytesBe v).length ≤ 16
  /-- Zero is the single byte `0`. -/
  toSignedBytesBe_zero : toSignedBytesBe 0 = [0]
  /-- A number of sixteen bytes with the top bit set takes a leading sign byte. -/
  toSignedBytesBe_of_topBit : ∀ {v : ℕ}, 2 ^ 127 ≤ v → v < 2 ^ 128 →
    toSignedBytesBe v = 0 :: toBigEndian 16 v

namespace BigInt

/-- `BigUint::to_bytes_be`: the big-endian bytes of `n` without leading zeros, `[0]` for `0`.
`Nat.log2 n / 8 + 1` is its number of bytes. -/
def toBytesBe (n : ℕ) : Bytes := toBigEndian (Nat.log2 n / 8 + 1) n

/-- Whether the magnitude bytes of a negative number need the extra sign byte of
`to_signed_bytes_be`: a first byte above `0x7f`, unless the number is exactly `-0x80…00`. -/
def needsSignByte (bytes : Bytes) (negative : Bool) : Bool :=
  decide (bytes.headD 0 > 0x7f) &&
    !(bytes.headD 0 == 0x80 && bytes.tail.all (· == 0) && negative)

/-- `BigInt::to_signed_bytes_be`: two's-complement big-endian bytes. -/
def toSignedBytesBe (n : ℤ) : Bytes :=
  let bytes := toBytesBe n.natAbs
  let bytes := if needsSignByte bytes (decide (n < 0)) then 0 :: bytes else bytes
  if n < 0 then toBigEndian bytes.length (2 ^ (8 * bytes.length) - n.natAbs) else bytes

theorem toSignedBytesBe_zero : toSignedBytesBe 0 = [0] := by decide

example : toSignedBytesBe 255 = [0, 255] := by decide
example : toSignedBytesBe (-1) = [255] := by decide
example : toSignedBytesBe (-129) = [255, 127] := by decide

/-- A number below `2 ^ 128` has at most sixteen magnitude bytes. -/
theorem length_toBytesBe_le {v : ℕ} (hv : v < 2 ^ 128) : (toBytesBe v).length ≤ 16 := by
  rw [toBytesBe, length_toBigEndian]
  rcases Nat.eq_zero_or_pos v with rfl | hpos
  · decide
  · have hlog := (Nat.log2_lt (Nat.pos_iff_ne_zero.mp hpos)).mpr hv
    omega

/-- A number of sixteen bytes with the top bit set takes the extra sign byte, seventeen in all. -/
theorem toSignedBytesBe_of_topBit {v : ℕ} (hlo : 2 ^ 127 ≤ v) (hhi : v < 2 ^ 128) :
    toSignedBytesBe v = 0 :: toBigEndian 16 v := by
  have hv : v ≠ 0 := Nat.ne_of_gt (Nat.lt_of_lt_of_le (Nat.two_pow_pos 127) hlo)
  have hlog : Nat.log2 v = 127 :=
    le_antisymm (Nat.lt_succ_iff.mp ((Nat.log2_lt hv).mpr hhi)) ((Nat.le_log2 hv).mpr hlo)
  -- the first of the sixteen bytes is the top one, at least 0x80
  have htop : 128 ≤ v / 256 ^ 15 ∧ v / 256 ^ 15 < 256 := by
    constructor
    · exact (Nat.le_div_iff_mul_le (Nat.pow_pos (by decide))).mpr (by omega)
    · exact (Nat.div_lt_iff_lt_mul (Nat.pow_pos (by decide))).mpr (by omega)
  have hsplit : toBigEndian 16 v = [(v / 256 ^ 15 % 256).toUInt8] ++ toBigEndian 15 v :=
    toBigEndian_add 1 15 v
  have hsign : needsSignByte (toBigEndian 16 v) false = true := by
    rw [needsSignByte, hsplit, List.singleton_append, List.headD_cons, Bool.and_false,
      Bool.not_false, Bool.and_true, decide_eq_true_iff, gt_iff_lt, UInt8.lt_iff_toNat_lt,
      toNat_toUInt8_mod]
    have : (0x7f : UInt8).toNat = 127 := rfl
    omega
  have hnonneg : ¬(v : ℤ) < 0 := by omega
  rw [toSignedBytesBe, Int.natAbs_natCast, toBytesBe, hlog, if_neg hnonneg,
    decide_eq_false hnonneg, hsign, if_pos rfl]

end BigInt

/-- The conversions of `BigInt` implement `BigIntBytes`. -/
@[reducible] def bigIntBytes : BigIntBytes where
  toBytesBe := BigInt.toBytesBe
  toSignedBytesBe := BigInt.toSignedBytesBe
  length_toBytesBe_le := BigInt.length_toBytesBe_le
  toSignedBytesBe_zero := BigInt.toSignedBytesBe_zero
  toSignedBytesBe_of_topBit := BigInt.toSignedBytesBe_of_topBit

section Transfers

variable [BigIntBytes]

/-- `BridgeTransfer`. The value is a `BigInt`; every transfer the bridge builds has a value read
from unsigned bytes. -/
structure BridgeTransfer where
  txValue : ℤ
  recipient : Vector UInt8 32
  srcTxHash : Vector UInt8 32
  deriving DecidableEq, Repr

namespace BridgeTransfer

/-- `get_transfer_value_bytearray`: the signed bytes of the value, padded to 16 bytes, or nothing
when they are longer. -/
def getTransferValueBytearray (t : BridgeTransfer) : Option Bytes :=
  let valueArray := BigIntBytes.toSignedBytesBe t.txValue
  if valueArray.length ≤ 16 then some (List.replicate (16 - valueArray.length) 0 ++ valueArray)
  else none

end BridgeTransfer

/-- `get_instance`: a transfer whose value's magnitude fits in 16 bytes. -/
def getInstance (txValue : ℤ) (recipient srcTxHash : Vector UInt8 32) : Option BridgeTransfer :=
  if (BigIntBytes.toBytesBe txValue.natAbs).length > 16 then none
  else some ⟨txValue, recipient, srcTxHash⟩

/-- `get_instance` accepts every value below `2 ^ 128`. -/
theorem getInstance_of_lt {v : ℕ} (hv : v < 2 ^ 128) (recipient srcTxHash : Vector UInt8 32) :
    getInstance v recipient srcTxHash = some ⟨v, recipient, srcTxHash⟩ := by
  rw [getInstance, Int.natAbs_natCast, if_neg (Nat.not_lt.mpr (BigIntBytes.length_toBytesBe_le hv))]

/-- The hash bytes of a transfer value with the top bit set: none, since the sign byte makes
seventeen. -/
theorem getTransferValueBytearray_of_topBit {v : ℕ} (hlo : 2 ^ 127 ≤ v) (hhi : v < 2 ^ 128)
    (recipient srcTxHash : Vector UInt8 32) :
    BridgeTransfer.getTransferValueBytearray ⟨v, recipient, srcTxHash⟩ = none := by
  rw [BridgeTransfer.getTransferValueBytearray]
  dsimp only
  rw [BigIntBytes.toSignedBytesBe_of_topBit hlo hhi, if_neg]
  rw [List.length_cons, length_toBigEndian]
  omega

/-- The hash bytes of a zero value: sixteen zero bytes. -/
theorem getTransferValueBytearray_zero (recipient srcTxHash : Vector UInt8 32) :
    BridgeTransfer.getTransferValueBytearray ⟨0, recipient, srcTxHash⟩ =
      some (List.replicate 16 0) := by
  rw [BridgeTransfer.getTransferValueBytearray]
  dsimp only
  rw [BigIntBytes.toSignedBytesBe_zero]
  rfl

end Transfers

/-- `TRANSFER_SIZE`: the bytes of one transfer in the bundle hash, `32 + 32 + 16`. -/
def transferSize : ℕ := 80

end AionR
