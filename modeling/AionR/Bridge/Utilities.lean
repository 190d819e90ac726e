import AionR.Bridge.Deserializer
import AionR.Lib.ByteBuffer

/-!
# The bundle hash and the result words of the bridge

`compute_bundle_hash` (`src/core/src/precompiled/atb/bridge_utilities.rs`) is the hash that ring
members sign: blake2b of a buffer sized for the source block hash and `TRANSFER_SIZE = 80` bytes
per transfer, into which it writes the block hash and, per transfer, its source transaction hash,
its recipient and the bytes of `get_transfer_value_bytearray`, or nothing when there are none.
The other helpers build the 16- and 32-byte words that the contract's getters return; `pad` is
`precompiled_utilities::pad`.

## The layout of the hashed bytes

`toBytes_bundleBuffer`: the hashed bytes are the block hash, the bytes of every transfer one after
the other, and zeros up to the size the buffer was given. A transfer without value bytes writes
64 bytes, and the next transfer starts 16 bytes early.
-/

namespace AionR

/-- `WORD_LENGTH`. -/
def wordLength : ℕ := 32

/-- `HALF_WORD_LENGTH`. -/
def halfWordLength : ℕ := 16

/-- `pad`: left-pad with zero bytes to `length`, or nothing when the input is longer. -/
def pad (input : Bytes) (length : ℕ) : Option Bytes :=
  if input.length > length then none
  else if input.length = length then some input
  else some (List.replicate (length - input.length) 0 ++ input)

/-- `get_signature`: the four-byte function selector of a call. -/
def getSignature (input : Bytes) : Option Bytes :=
  if input.length < 4 then none else some (input.take 4)

/-- `or_default_d_word`. -/
def orDefaultDWord (input : Option Bytes) : Bytes := input.getD (List.replicate wordLength 0)

/-- `boolean_to_result_bytes`: the 16-byte word `1` or `0`. -/
def booleanToResultBytes (input : Bool) : Bytes :=
  if input then List.replicate 15 0 ++ [1] else List.replicate halfWordLength 0

section Bundles

variable [BigIntBytes] {Buffer : Type} [ByteBufferApi Buffer]

open ByteBufferApi

/-- `int_to_result_bytes`: the signed bytes of an `i32`, padded to 16. -/
def intToResultBytes (input : ℤ) : Option Bytes := pad (BigIntBytes.toSignedBytesBe input) 16

/-- One round of the loop of `compute_bundle_hash`: a transfer's source transaction hash,
recipient and value bytes, the last ones empty when the transfer has none. -/
def writeTransfer (buffer : Buffer) (b : BridgeTransfer) : Buffer :=
  writeBytes (writeBytes (writeBytes buffer b.srcTxHash.toList) b.recipient.toList)
    (b.getTransferValueBytearray.getD [])

/-- The buffer `compute_bundle_hash` fills. -/
def bundleBuffer (sourceBlockHash : Vector UInt8 32) (bundles : List BridgeTransfer) : Buffer :=
  let size := sourceBlockHash.toList.length + bundles.length * transferSize
  let buffer := writeBytes (resize new size) sourceBlockHash.toList
  bundles.foldl writeTransfer buffer

/-- `compute_bundle_hash`. -/
def computeBundleHash (blake2b : Bytes → Vector UInt8 32) (sourceBlockHash : Vector UInt8 32)
    (bundles : List BridgeTransfer) : Vector UInt8 32 :=
  blake2b (toBytes (bundleBuffer sourceBlockHash bundles))

/-! ## The layout -/

/-- The bytes one transfer contributes to the bundle hash. -/
def transferBytes (b : BridgeTransfer) : Bytes :=
  b.srcTxHash.toList ++ b.recipient.toList ++ b.getTransferValueBytearray.getD []

theorem length_getTransferValueBytearray_getD_le (b : BridgeTransfer) :
    (b.getTransferValueBytearray.getD []).length ≤ 16 := by
  unfold BridgeTransfer.getTransferValueBytearray
  dsimp only
  split
  · rw [Option.getD_some, List.length_append, List.length_replicate]
    omega
  · exact Nat.zero_le _

-- Several proofs below unfold these at once: their equation lemmas are generated here, once.
section
attribute [local simp] transferBytes
end

theorem length_transferBytes_le (b : BridgeTransfer) : (transferBytes b).length ≤ transferSize := by
  have hvalue := length_getTransferValueBytearray_getD_le b
  simp only [transferBytes, List.length_append, Vector.length_toList, transferSize]
  omega

/-- One round writes the transfer's bytes into the zero tail of the buffer. -/
theorem filled_writeTransfer {buffer : Buffer} {written : Bytes} {k : ℕ}
    (hb : Filled buffer written k) {b : BridgeTransfer} (hk : (transferBytes b).length ≤ k) :
    Filled (writeTransfer buffer b) (written ++ transferBytes b) (k - (transferBytes b).length) := by
  have hvalue := length_getTransferValueBytearray_getD_le b
  simp only [transferBytes, List.length_append, Vector.length_toList] at hk ⊢
  have h₁ := hb.writeBytes b.srcTxHash.toList (by simp only [Vector.length_toList]; omega)
  have h₂ := h₁.writeBytes b.recipient.toList (by simp only [Vector.length_toList]; omega)
  have h₃ := h₂.writeBytes (b.getTransferValueBytearray.getD [])
    (by simp only [Vector.length_toList]; omega)
  rw [writeTransfer]
  simpa only [List.append_assoc, Vector.length_toList, Nat.sub_sub, Nat.add_assoc] using h₃

/-- The loop writes the transfers one after the other into the zero tail. -/
theorem filled_foldl_writeTransfer {bundles : List BridgeTransfer} :
    ∀ {buffer : Buffer} {written : Bytes} {k : ℕ}, Filled buffer written k →
      (bundles.flatMap transferBytes).length ≤ k →
      Filled (bundles.foldl writeTransfer buffer) (written ++ bundles.flatMap transferBytes)
        (k - (bundles.flatMap transferBytes).length) := by
  induction bundles with
  | nil =>
    intro buffer written k hb _
    simpa using hb
  | cons b bundles ih =>
    intro buffer written k hb hk
    rw [List.flatMap_cons, List.length_append] at hk
    have h := ih (filled_writeTransfer (b := b) hb (by omega)) (by omega)
    simpa only [List.foldl_cons, List.flatMap_cons, List.append_assoc, List.length_append,
      Nat.sub_sub] using h

theorem length_flatMap_transferBytes_le (bundles : List BridgeTransfer) :
    (bundles.flatMap transferBytes).length ≤ bundles.length * transferSize := by
  induction bundles with
  | nil => simp
  | cons b bundles ih =>
    have hb := length_transferBytes_le b
    rw [List.flatMap_cons, List.length_append, List.length_cons, Nat.succ_mul]
    omega

/-- The bytes `compute_bundle_hash` hashes: the block hash, every transfer's bytes, and zeros up
to `32 + 80` bytes per transfer. -/
theorem toBytes_bundleBuffer (sourceBlockHash : Vector UInt8 32) (bundles : List BridgeTransfer) :
    toBytes (bundleBuffer sourceBlockHash bundles : Buffer) =
      sourceBlockHash.toList ++ bundles.flatMap transferBytes ++
        List.replicate
          (bundles.length * transferSize - (bundles.flatMap transferBytes).length) 0 := by
  have hle := length_flatMap_transferBytes_le bundles
  -- the block hash goes first into the zeros `resize` wrote
  have hstart : Filled (writeBytes (resize (new : Buffer)
      (sourceBlockHash.toList.length + bundles.length * transferSize)) sourceBlockHash.toList)
        sourceBlockHash.toList (bundles.length * transferSize) := by
    simpa only [List.nil_append, Nat.add_sub_cancel_left] using
      (filled_resize_new _ : Filled (resize (new : Buffer) _) [] _).writeBytes _
        (Nat.le_add_right _ _)
  rw [bundleBuffer, (filled_foldl_writeTransfer hstart hle).1, List.append_assoc]

/-! ## Values the bundle hash does not commit to -/

/-- A transfer whose value has the top bit of sixteen bytes set writes no value bytes. -/
theorem transferBytes_of_topBit {v : ℕ} (hlo : 2 ^ 127 ≤ v) (hhi : v < 2 ^ 128)
    (recipient srcTxHash : Vector UInt8 32) :
    transferBytes ⟨v, recipient, srcTxHash⟩ = srcTxHash.toList ++ recipient.toList := by
  rw [transferBytes, getTransferValueBytearray_of_topBit hlo hhi, Option.getD_none, List.append_nil]

/-- A transfer of value zero writes sixteen zero bytes. -/
theorem transferBytes_zero (recipient srcTxHash : Vector UInt8 32) :
    transferBytes ⟨0, recipient, srcTxHash⟩ =
      srcTxHash.toList ++ recipient.toList ++ List.replicate 16 0 := by
  rw [transferBytes, getTransferValueBytearray_zero, Option.getD_some]

/-- The hashed bytes of a bundle whose last transfer has a value with the top bit of sixteen bytes
set are those of the same bundle with that value zero: the missing value bytes are the zeros the
buffer was resized with. -/
theorem toBytes_bundleBuffer_topBit (sourceBlockHash : Vector UInt8 32)
    (bundles : List BridgeTransfer) (recipient srcTxHash : Vector UInt8 32) {v : ℕ}
    (hlo : 2 ^ 127 ≤ v) (hhi : v < 2 ^ 128) :
    toBytes (bundleBuffer sourceBlockHash (bundles ++ [⟨v, recipient, srcTxHash⟩]) : Buffer) =
      toBytes (bundleBuffer sourceBlockHash (bundles ++ [⟨0, recipient, srcTxHash⟩]) : Buffer) := by
  have hle := length_flatMap_transferBytes_le bundles
  have hsize : transferSize = 80 := rfl
  -- the value-less transfer leaves sixteen more zeros at the end
  have hzeros :
      (bundles.length + 1) * transferSize - ((bundles.flatMap transferBytes).length + 64) =
        16 + ((bundles.length + 1) * transferSize -
          ((bundles.flatMap transferBytes).length + 80)) := by
    rw [Nat.succ_mul]
    omega
  rw [toBytes_bundleBuffer, toBytes_bundleBuffer, List.flatMap_append, List.flatMap_append,
    List.flatMap_singleton, List.flatMap_singleton, transferBytes_of_topBit hlo hhi,
    transferBytes_zero]
  simp only [List.length_append, Vector.length_toList, List.length_replicate,
    List.length_singleton]
  rw [hzeros, List.replicate_add]
  simp only [List.append_assoc]

end Bundles

/-! ## A value the bundle hash drops

The runs below use the implementations of the crates. -/

attribute [local instance] bigIntBytes byteBufferCrate

/-- A bundle request of one transfer with the value word `value`, source transaction hash `0x02…`,
recipient `0x03…`, block hash `0x01…` and no signatures; the lists start at 128, 176, 224, 256,
272 and 288. -/
def oneTransferCall (value : Bytes) : Bytes :=
  List.replicate 4 0 ++ List.replicate 32 1 ++
    (toBigEndian 16 128 ++ toBigEndian 16 176 ++ toBigEndian 16 224 ++
      toBigEndian 16 256 ++ toBigEndian 16 272 ++ toBigEndian 16 288) ++
    (toBigEndian 16 1 ++ List.replicate 32 2) ++ (toBigEndian 16 1 ++ List.replicate 32 3) ++
    (toBigEndian 16 1 ++ value) ++ (toBigEndian 16 0 ++ toBigEndian 16 0 ++ toBigEndian 16 0)

/-- Two bundle requests that differ only in the value of their transfer, `2 ^ 127` and `0`, both
parse, and `compute_bundle_hash` hashes the same bytes for them under any source block hash. -/
theorem computeBundleHash_ignores_topBit_value :
    ∃ r₁ r₂, parseBundleRequest (oneTransferCall (toBigEndian 16 (2 ^ 127))) = .ok (some r₁) ∧
      parseBundleRequest (oneTransferCall (toBigEndian 16 0)) = .ok (some r₂) ∧
      r₁.blockHash = r₂.blockHash ∧ r₁.bundles ≠ r₂.bundles ∧
      ∀ sourceBlockHash, (bundleBuffer sourceBlockHash r₁.bundles).toBytes =
        (bundleBuffer sourceBlockHash r₂.bundles).toBytes := by
  refine ⟨⟨List.replicate 32 1, [⟨2 ^ 127, Vector.replicate 32 3, Vector.replicate 32 2⟩], []⟩,
    ⟨List.replicate 32 1, [⟨0, Vector.replicate 32 3, Vector.replicate 32 2⟩], []⟩,
    by decide +kernel, by decide +kernel, rfl, by decide, fun sourceBlockHash ↦ ?_⟩
  exact toBytes_bundleBuffer_topBit sourceBlockHash [] _ _ (le_refl _) (by decide)

end AionR
