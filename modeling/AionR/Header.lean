import AionR.Rlp.RoundTrip

/-!
# Block headers

`Header` (`src/core/src/header.rs`) with its RLP encoding `stream_rlp` and its `Decodable`
implementation. The memoised hashes, the transaction fee and the reward are not part of either
and are left out.

## Types

Hashes are `[u8; 32]` and the bloom `[u8; 256]`, so they are vectors of bytes; the block number
and the timestamp are `u64`. `U256` fields are natural numbers: `stream_rlp` writes the difficulty
through a fixed-width buffer and the gas fields through `Encodable for U256`, and the decoder
reads all three through `to_u256`, which keeps their last bytes.
-/

namespace AionR

/-- `SealType`. -/
inductive SealType where
  | pow
  | pos
  deriving DecidableEq, Repr

namespace SealType

/-- `From<u8> for SealType`: `2` is `PoS`, every other byte `PoW`. -/
def ofU8 (v : UInt8) : SealType :=
  if v = 1 then .pow else if v = 2 then .pos else .pow

/-- `Into<u8> for SealType`. -/
def toU8 : SealType → UInt8
  | .pow => 1
  | .pos => 2

/-- `Default for SealType`. -/
instance : Inhabited SealType := ⟨.pow⟩

theorem ofU8_toU8 (s : SealType) : ofU8 s.toU8 = s := by
  cases s <;> rfl

end SealType

/-- `Seal`: whether the seal fields are part of an encoding (`With`, `Without`). -/
inductive Seal where
  | withSeal
  | withoutSeal
  deriving DecidableEq, Repr

/-- `to_u256`: the number spelled by the last `length` bytes of the input. -/
def toU256 (input : Bytes) (length : ℕ) : ℕ :=
  if length < input.length then fromBigEndian (input.drop (input.length - length))
  else fromBigEndian input

/-- `to_u256` of a fixed-width buffer no wider than `length` reads the buffer's number. -/
theorem toU256_toBigEndian {w length : ℕ} (hw : w ≤ length) (n : ℕ) :
    toU256 (toBigEndian w n) length = n % 256 ^ w := by
  rw [toU256, if_neg (by simpa using hw), fromBigEndian_toBigEndian]

/-- `to_u256(_, 8)` of the minimal form of a number below `2⁶⁴` is that number. -/
theorem toU256_minimalBigEndian {n : ℕ} (hn : n < 2 ^ 64) : toU256 (minimalBigEndian 32 n) 8 = n := by
  have hlen : (minimalBigEndian 32 n).length ≤ 8 :=
    length_minimalBigEndian_le (by norm_num) (by norm_num; omega)
  rw [toU256, if_neg (by omega), fromBigEndian_minimalBigEndian, Nat.mod_eq_of_lt (by omega)]

/-- `u256_to_u16`: bytes 30 and 31 of the big-endian word. -/
def u256ToU16 (value : ℕ) : Bytes := toBigEndian 2 value

/-- `u256_to_u128(value).to_big_endian`: the low sixteen bytes, big-endian. -/
def u256ToU128Bytes (value : ℕ) : Bytes := toBigEndian 16 value

/-- A block header. -/
structure Header where
  sealType : Option SealType
  number : UInt64
  parentHash : Vector UInt8 32
  author : Vector UInt8 32
  stateRoot : Vector UInt8 32
  transactionsRoot : Vector UInt8 32
  receiptsRoot : Vector UInt8 32
  logBloom : Vector UInt8 256
  difficulty : ℕ
  extraData : Bytes
  gasUsed : ℕ
  gasLimit : ℕ
  timestamp : UInt64
  /-- `seal`: the post-RLP-encoded seal fields. -/
  sealFields : List Bytes
  deriving DecidableEq, Repr

namespace Header

variable (h : Header)

/-- The difficulty buffer of `stream_rlp`: two bytes for the genesis block, sixteen otherwise. -/
def difficultyBuffer : Bytes :=
  if h.number = 0 then u256ToU16 h.difficulty else u256ToU128Bytes h.difficulty

/-- `stream_rlp`: the thirteen fields, then the seal fields when asked for. -/
def streamRlp (s : Seal) : RlpItem :=
  .list ([RlpItem.ofU8 (h.sealType.getD default).toU8,
    RlpItem.ofU64 h.number,
    RlpItem.ofHash h.parentHash,
    RlpItem.ofHash h.author,
    RlpItem.ofHash h.stateRoot,
    RlpItem.ofHash h.transactionsRoot,
    RlpItem.ofHash h.receiptsRoot,
    RlpItem.ofHash h.logBloom,
    RlpItem.ofBytes h.difficultyBuffer,
    RlpItem.ofBytes h.extraData,
    RlpItem.ofU256 h.gasUsed,
    RlpItem.ofU256 h.gasLimit,
    RlpItem.ofU64 h.timestamp] ++
    match s with
    | .withSeal => h.sealFields.map RlpItem.ofBytes
    | .withoutSeal => [])

/-- `Header::rlp`. -/
def rlp (s : Seal) : Bytes := (h.streamRlp s).encode

/-- The header that decoding `h`'s own encoding gives back: the seal type that `stream_rlp`
writes for it, and the difficulty as the buffer `stream_rlp` writes for it spells it. -/
def normalized : Header :=
  { h with sealType := some (h.sealType.getD default), difficulty := toU256 h.difficultyBuffer 16 }

theorem length_difficultyBuffer_le : h.difficultyBuffer.length ≤ 16 := by
  unfold difficultyBuffer u256ToU16 u256ToU128Bytes
  split_ifs <;> simp

theorem difficultyBuffer_normalized : h.normalized.difficultyBuffer = h.difficultyBuffer := by
  by_cases h0 : h.number = 0
  · have hbuf : h.difficultyBuffer = toBigEndian 2 h.difficulty := if_pos h0
    rw [difficultyBuffer, normalized, if_pos h0, hbuf, u256ToU16, toU256_toBigEndian (by norm_num),
      toBigEndian_mod]
  · have hbuf : h.difficultyBuffer = toBigEndian 16 h.difficulty := if_neg h0
    rw [difficultyBuffer, normalized, if_neg h0, hbuf, u256ToU128Bytes,
      toU256_toBigEndian le_rfl, toBigEndian_mod]

/-- Normalizing changes nothing that `stream_rlp` writes. -/
theorem rlp_normalized (s : Seal) : h.normalized.rlp s = h.rlp s := by
  have hbuf := h.difficultyBuffer_normalized
  simp only [rlp, streamRlp, hbuf]
  rfl

end Header

open Rlp in
/-- `Decodable for Header`: thirteen fields by index, the seal fields from index `13` up to the
item count. Numbers are read as `U256` and cut to their low 64 bits (`low_u64`). -/
def Header.decode (r : UntrustedRlp) : Except DecoderError Header := do
  let sealType ← (← r.atIndex 0).asU8
  let number ← (← r.atIndex 1).asU256
  let parentHash ← (← r.atIndex 2).asHash 32
  let author ← (← r.atIndex 3).asHash 32
  let stateRoot ← (← r.atIndex 4).asHash 32
  let transactionsRoot ← (← r.atIndex 5).asHash 32
  let receiptsRoot ← (← r.atIndex 6).asHash 32
  let logBloom ← (← r.atIndex 7).asHash 256
  let difficulty ← (← r.atIndex 8).asBytes
  let extraData ← (← r.atIndex 9).asBytes
  let gasUsed ← (← r.atIndex 10).asBytes
  let gasLimit ← (← r.atIndex 11).asBytes
  let timestamp ← (← r.atIndex 12).asU256
  let count ← r.itemCount
  let sealFields ← (List.range' 13 (count - 13)).mapM fun i ↦ do (← r.atIndex i).asBytes
  pure {
    sealType := some (SealType.ofU8 sealType)
    number := number.toUInt64
    parentHash, author, stateRoot, transactionsRoot, receiptsRoot, logBloom
    difficulty := toU256 difficulty 16
    extraData
    gasUsed := toU256 gasUsed 8
    gasLimit := toU256 gasLimit 8
    timestamp := timestamp.toUInt64
    sealFields }

/-! ## Round trip

The decoder inverts `stream_rlp` up to `normalized`, as long as the gas fields fit the eight bytes
that `to_u256` keeps of them and the lengths fit `insert_size`'s `u32`. It is not injective:
`SealType::from` reads every byte other than `2` as `PoW`, so a seal-type byte `3` decodes to the
same header as `1`. -/

namespace Header

open Rlp RlpItem

theorem decode_rlp (h : Header) (hgu : h.gasUsed < 2 ^ 64) (hgl : h.gasLimit < 2 ^ 64)
    (hsize : (h.rlp .withSeal).length < 2 ^ 32) :
    Header.decode ⟨h.rlp .withSeal⟩ = .ok h.normalized := by
  rw [rlp, streamRlp] at hsize ⊢
  set items : List RlpItem := [ofU8 (h.sealType.getD default).toU8, ofU64 h.number,
    ofHash h.parentHash, ofHash h.author, ofHash h.stateRoot, ofHash h.transactionsRoot,
    ofHash h.receiptsRoot, ofHash h.logBloom, ofBytes h.difficultyBuffer, ofBytes h.extraData,
    ofU256 h.gasUsed, ofU256 h.gasLimit, ofU64 h.timestamp] ++
    h.sealFields.map ofBytes with hitems
  have hlen : items.length = 13 + h.sealFields.length := by simp [items]; omega
  set r : UntrustedRlp := ⟨(list items).encode⟩
  -- every field is found where the stream put it, and is short enough to be read back
  have hat : ∀ i (hi : i < items.length), r.atIndex i = .ok ⟨items[i].encode⟩ := fun i hi ↦ by
    rw [atIndex_encode_list hsize, dif_pos hi]
  have hlt : ∀ i (hi : i < items.length), items[i].encode.length < 2 ^ 32 := fun i hi ↦
    encode_lt_of_mem (List.getElem_mem hi) hsize
  have a0 : r.atIndex 0 = .ok ⟨(ofU8 (h.sealType.getD default).toU8).encode⟩ := hat 0 (by omega)
  have a1 : r.atIndex 1 = .ok ⟨(ofU64 h.number).encode⟩ := hat 1 (by omega)
  have a2 : r.atIndex 2 = .ok ⟨(ofHash h.parentHash).encode⟩ := hat 2 (by omega)
  have a3 : r.atIndex 3 = .ok ⟨(ofHash h.author).encode⟩ := hat 3 (by omega)
  have a4 : r.atIndex 4 = .ok ⟨(ofHash h.stateRoot).encode⟩ := hat 4 (by omega)
  have a5 : r.atIndex 5 = .ok ⟨(ofHash h.transactionsRoot).encode⟩ := hat 5 (by omega)
  have a6 : r.atIndex 6 = .ok ⟨(ofHash h.receiptsRoot).encode⟩ := hat 6 (by omega)
  have a7 : r.atIndex 7 = .ok ⟨(ofHash h.logBloom).encode⟩ := hat 7 (by omega)
  have a8 : r.atIndex 8 = .ok ⟨(ofBytes h.difficultyBuffer).encode⟩ := hat 8 (by omega)
  have a9 : r.atIndex 9 = .ok ⟨(ofBytes h.extraData).encode⟩ := hat 9 (by omega)
  have a10 : r.atIndex 10 = .ok ⟨(ofU256 h.gasUsed).encode⟩ := hat 10 (by omega)
  have a11 : r.atIndex 11 = .ok ⟨(ofU256 h.gasLimit).encode⟩ := hat 11 (by omega)
  have a12 : r.atIndex 12 = .ok ⟨(ofU64 h.timestamp).encode⟩ := hat 12 (by omega)
  have hcount : r.itemCount = .ok (13 + h.sealFields.length) := by
    rw [← hlen]
    exact itemCount_encode_list hsize
  -- the seal fields are the items from index `13` on
  have hseal : (List.range' 13 (13 + h.sealFields.length - 13)).mapM
      (fun i ↦ do (← r.atIndex i).asBytes) = .ok h.sealFields := by
    rw [Nat.add_sub_cancel_left]
    refine mapM_range'_of_getElem _ _ _ fun j hj ↦ ?_
    have hi : 13 + j < items.length := by omega
    have hitem : items[13 + j] = ofBytes h.sealFields[j] := by
      simp only [items]
      rw [List.getElem_append_right (by simp)]
      simp
    have hl := hlt _ hi
    rw [hitem] at hl
    rw [hat _ hi, except_ok_bind, hitem]
    exact UntrustedRlp.asBytes_ofBytes_of_encode hl
  rw [Header.decode]
  simp only [a0, a1, a2, a3, a4, a5, a6, a7, a8, a9, a10, a11, a12, except_ok_bind,
    UntrustedRlp.asU8_ofU8, UntrustedRlp.asU256_ofU64,
    UntrustedRlp.asHash_ofHash (by norm_num : 32 < 2 ^ 32),
    UntrustedRlp.asHash_ofHash (by norm_num : 256 < 2 ^ 32), hcount, hseal]
  -- the byte-string fields, and the gas fields read as byte strings
  have hgas : ∀ g : ℕ, (UntrustedRlp.mk (ofU256 g).encode).asBytes = .ok (minimalBigEndian 32 g) :=
    fun g ↦ UntrustedRlp.asBytes_ofBytes
      (lt_of_le_of_lt (length_minimalBigEndian_le_width 32 g) (by norm_num))
  have hdiff : (UntrustedRlp.mk (ofBytes h.difficultyBuffer).encode).asBytes =
      .ok h.difficultyBuffer :=
    UntrustedRlp.asBytes_ofBytes (by have := h.length_difficultyBuffer_le; omega)
  have hextra : (UntrustedRlp.mk (ofBytes h.extraData).encode).asBytes = .ok h.extraData :=
    UntrustedRlp.asBytes_ofBytes_of_encode (hlt 9 (by omega))
  simp only [hdiff, hextra, hgas, except_ok_bind, except_pure_eq, toU256_minimalBigEndian hgu,
    toU256_minimalBigEndian hgl, SealType.ofU8_toU8, UInt64.ofNat_toNat]
  rfl

theorem rlp_of_decode_rlp (h : Header) (hgu : h.gasUsed < 2 ^ 64) (hgl : h.gasLimit < 2 ^ 64)
    (hsize : (h.rlp .withSeal).length < 2 ^ 32) :
    ∃ h', Header.decode ⟨h.rlp .withSeal⟩ = .ok h' ∧ h'.rlp .withSeal = h.rlp .withSeal :=
  ⟨h.normalized, decode_rlp h hgu hgl hsize, h.rlp_normalized .withSeal⟩

/-- A sealed proof-of-stake header with one seal field. -/
def sample : Header where
  sealType := some .pos
  number := 1
  parentHash := Vector.replicate 32 0
  author := Vector.replicate 32 0
  stateRoot := Vector.replicate 32 0
  transactionsRoot := Vector.replicate 32 0
  receiptsRoot := Vector.replicate 32 0
  logBloom := Vector.replicate 256 0
  difficulty := 16
  extraData := []
  gasUsed := 21000
  gasLimit := 15000000
  timestamp := 1000
  sealFields := [[1, 2, 3]]

theorem rlp_of_decode_rlp_sample : sample.gasUsed < 2 ^ 64 ∧ sample.gasLimit < 2 ^ 64 ∧
    (sample.rlp .withSeal).length < 2 ^ 32 ∧
    ∃ h', Header.decode ⟨sample.rlp .withSeal⟩ = .ok h' ∧ h'.rlp .withSeal = sample.rlp .withSeal :=
  have hsize : (sample.rlp .withSeal).length < 2 ^ 32 := by decide +kernel
  ⟨by decide, by decide, hsize, rlp_of_decode_rlp sample (by decide) (by decide) hsize⟩

/-- The sealed encoding of `sample` with its seal-type byte `2` replaced by `3`. -/
def sampleSealTypeThree : Bytes := (sample.rlp .withSeal).set 3 3

theorem decode_sealTypeThree :
    Header.decode ⟨sampleSealTypeThree⟩ = .ok { sample with sealType := some .pow } ∧
      { sample with sealType := some .pow }.rlp .withSeal ≠ sampleSealTypeThree := by
  decide +kernel

end Header

end AionR
