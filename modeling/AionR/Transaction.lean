import AionR.Header

/-!
# Transactions on the wire

`Transaction` and `UnverifiedTransaction` (`src/core/src/transaction/transaction.rs`) with the two
encodings the kernel writes, `rlp_append_unsigned_transaction` (what the sender signs) and
`rlp_append_sealed_transaction` (what is sent and hashed), and the `Decodable` implementation of
`UnverifiedTransaction`.

## Raw fields

Nonce, value, gas and gas price are kept twice: as the number and as the bytes they were decoded
from. An encoder writes the bytes when there are any and the number otherwise, so a decoded
transaction writes its fields back as it read them. The transaction type keeps only its first
byte, and the beacon extension is rebuilt from its tag.

## Hashes

`blake2b` is a parameter: the decoder stores the hash of the raw bytes it was given, and
`compute_hash` the hash of the sealed encoding. Signatures are byte strings; recovering a public
key from them is not modelled.
-/

namespace AionR

/-- `BEACON_HASH_EXTENSION`: the tag in front of the beacon hash. -/
def beaconHashExtension : UInt8 := 1

/-- `Action`: create a contract, or call the one at an address. -/
inductive Action where
  | create
  | call (address : Vector UInt8 32)
  deriving DecidableEq, Repr

namespace Action

/-- `Encodable for Action`: an empty string for `Create`, the address for `Call`. -/
def toRlp : Action → RlpItem
  | .create => .ofBytes []
  | .call address => .ofHash address

/-- `Decodable for Action`: an empty item (string or list) is `Create`. -/
def decode (r : UntrustedRlp) : Except Rlp.DecoderError Action :=
  if r.isEmpty then .ok .create else .call <$> r.asHash 32

end Action

/-- `Transaction`: the signed part of a transaction. -/
structure Transaction where
  nonce : ℕ
  nonceBytes : Bytes
  gasPrice : ℕ
  gasPriceBytes : Bytes
  gas : ℕ
  gasBytes : Bytes
  action : Action
  value : ℕ
  valueBytes : Bytes
  data : Bytes
  transactionType : ℕ
  beacon : Option (Vector UInt8 32)
  deriving DecidableEq, Repr

/-- `encode_long`: a number above `0xFFFFFFFF` as the last eight bytes of its 32-byte word, a
smaller one as a `U256`. -/
def encodeLong (value : ℕ) : RlpItem :=
  if value > 0xFFFFFFFF then .ofBytes ((toBigEndian 32 value).drop 24) else .ofU256 value

/-- A field kept as bytes and as a number: the bytes when there are any, else the `U256`. -/
def rawOrU256 (bytes : Bytes) (value : ℕ) : RlpItem :=
  if bytes.isEmpty then .ofU256 value else .ofBytes bytes

/-- A gas field kept as bytes and as a number: the bytes when there are any, else
`encode_long` of the number. -/
def rawOrLong (bytes : Bytes) (value : ℕ) : RlpItem :=
  if bytes.isEmpty then encodeLong value else .ofBytes bytes

namespace Transaction

variable (t : Transaction)

/-- The eight appends that the unsigned and the sealed encodings share, up to the transaction
type; `timestamp` is the one each of them is given. -/
def appendFields (timestamp : Bytes) : List RlpItem :=
  [rawOrU256 t.nonceBytes t.nonce,
    t.action.toRlp,
    rawOrU256 t.valueBytes t.value,
    .ofBytes t.data,
    .ofBytes timestamp,
    rawOrLong t.gasBytes t.gas,
    rawOrLong t.gasPriceBytes t.gasPrice,
    .ofU256 t.transactionType]

/-- The beacon extension: its tag and its hash, when there is a beacon. -/
def beaconItems : List RlpItem :=
  match t.beacon with
  | some hash => [.ofU8 beaconHashExtension, .ofHash hash]
  | none => []

/-- `rlp_append_unsigned_transaction`: eight items, ten with a beacon. -/
def rlpAppendUnsignedTransaction (timestamp : Bytes) : RlpItem :=
  .list (t.appendFields timestamp ++ t.beaconItems)

/-- `Transaction::hash`: the message the sender signs. -/
def hash (blake2b : Bytes → Vector UInt8 32) (timestamp : Bytes) : Vector UInt8 32 :=
  blake2b (t.rlpAppendUnsignedTransaction timestamp).encode

end Transaction

/-- `UnverifiedTransaction`: a transaction with its signature, its timestamp and the hash it was
received or created with. -/
structure UnverifiedTransaction where
  unsigned : Transaction
  sig : Bytes
  hash : Vector UInt8 32
  timestamp : Bytes
  deriving DecidableEq, Repr

namespace UnverifiedTransaction

variable (u : UnverifiedTransaction)

/-- `rlp_append_sealed_transaction`: the unsigned fields with the own timestamp, then the
signature, then the beacon extension: nine items, eleven with a beacon. -/
def rlpAppendSealedTransaction : RlpItem :=
  .list (u.unsigned.appendFields u.timestamp ++ [.ofBytes u.sig] ++ u.unsigned.beaconItems)

/-- `rlp_bytes`: the sealed encoding. -/
def rlpBytes : Bytes := u.rlpAppendSealedTransaction.encode

/-- `compute_hash`: the hash of the sealed encoding. -/
def computeHash (blake2b : Bytes → Vector UInt8 32) : UnverifiedTransaction :=
  { u with hash := blake2b u.rlpBytes }

/-- What decoding `u`'s sealed encoding gives back: every raw field as the bytes written for it,
with the number the decoder reads from those bytes, and the hash of the encoding. -/
def normalized (blake2b : Bytes → Vector UInt8 32) : UnverifiedTransaction :=
  let t := u.unsigned
  let nonceBytes := (rawOrU256 t.nonceBytes t.nonce).payload
  let valueBytes := (rawOrU256 t.valueBytes t.value).payload
  let gasBytes := (rawOrLong t.gasBytes t.gas).payload
  let gasPriceBytes := (rawOrLong t.gasPriceBytes t.gasPrice).payload
  { u with
    unsigned := { t with
      nonce := fromBigEndian nonceBytes, nonceBytes
      value := fromBigEndian valueBytes, valueBytes
      gas := toU256 gasBytes 8, gasBytes
      gasPrice := toU256 gasPriceBytes 8, gasPriceBytes }
    hash := blake2b u.rlpBytes }

end UnverifiedTransaction

open Rlp in
/-- A `U256` read from a raw field of at most 32 bytes; `message` names the field. -/
def decodeRawU256 (message : String) (raw : Bytes) : Except DecoderError ℕ :=
  if raw.length > 32 then throw (.custom message) else pure (fromBigEndian raw)

/-- The transaction type: the first byte of its field, zero for an empty one. -/
def transactionTypeOf (raw : Bytes) : ℕ :=
  match raw with
  | [] => 0
  | b :: _ => b.toNat

open Rlp in
/-- `Decodable for UnverifiedTransaction`: nine or eleven items, read in the order the source's
struct expression names them. -/
def UnverifiedTransaction.decode (blake2b : Bytes → Vector UInt8 32) (d : UntrustedRlp) :
    Except DecoderError UnverifiedTransaction := do
  let count ← d.itemCount
  if count ≠ 9 ∧ count ≠ 11 then throw .rlpIncorrectListLen
  let hash := blake2b d.asRaw
  let nonce ← decodeRawU256 "transaction nonce bytes > 32" (← (← d.atIndex 0).asBytes)
  let nonceBytes ← (← d.atIndex 0).asBytes
  let action ← Action.decode (← d.atIndex 1)
  let value ← decodeRawU256 "transaction value bytes > 32" (← (← d.atIndex 2).asBytes)
  let valueBytes ← (← d.atIndex 2).asBytes
  let data ← (← d.atIndex 3).asBytes
  let gas := toU256 (← (← d.atIndex 5).asBytes) 8
  let gasBytes ← (← d.atIndex 5).asBytes
  let gasPrice := toU256 (← (← d.atIndex 6).asBytes) 8
  let gasPriceBytes ← (← d.atIndex 6).asBytes
  let transactionType := transactionTypeOf (← (← d.atIndex 7).asBytes)
  -- a tag other than `BEACON_HASH_EXTENSION` falls through to the "should not be reached" arm
  let beacon ← match count with
    | 9 => pure none
    | 11 =>
      if (← (← d.atIndex 9).asU8) = beaconHashExtension then some <$> (← d.atIndex 10).asHash 32
      else throw .rlpIncorrectListLen
    | _ => throw .rlpIncorrectListLen
  let timestamp ← (← d.atIndex 4).asBytes
  let sig ← (← d.atIndex 8).asBytes
  pure {
    unsigned := {
      nonce, nonceBytes, action, value, valueBytes, data, gas, gasBytes, gasPrice, gasPriceBytes,
      transactionType, beacon }
    timestamp, sig, hash }

/-! ## Round trip

A decoded transaction writes back the bytes it was decoded from when those bytes are the sealed
encoding of a transaction whose raw nonce and value fit the decoder's 32 bytes and whose type is
one byte wide. The decoder is not injective on other inputs: it reads the transaction type
`[0x00]` as `0`, which is written back as the empty string. -/

section RoundTrip

open Rlp RlpItem

theorem rawOrU256_eq_data (bytes : Bytes) (value : ℕ) :
    rawOrU256 bytes value = .data (rawOrU256 bytes value).payload := by
  unfold rawOrU256
  split_ifs <;> rfl

theorem encodeLong_eq_data (value : ℕ) : encodeLong value = .data (encodeLong value).payload := by
  unfold encodeLong
  split_ifs <;> rfl

theorem rawOrLong_eq_data (bytes : Bytes) (value : ℕ) :
    rawOrLong bytes value = .data (rawOrLong bytes value).payload := by
  unfold rawOrLong
  split_ifs
  · exact encodeLong_eq_data value
  · rfl

/-- The nonce and value fields a decoder reads are written back as they were written. -/
theorem rawOrU256_payload (bytes : Bytes) (value : ℕ) :
    rawOrU256 (rawOrU256 bytes value).payload (fromBigEndian (rawOrU256 bytes value).payload) =
      rawOrU256 bytes value := by
  by_cases hp : (rawOrU256 bytes value).payload = []
  · have hnil : rawOrU256 [] (fromBigEndian []) = .data [] := by
      simp [rawOrU256, ofU256, ofUint]
    rw [hp, hnil, rawOrU256_eq_data bytes value, hp]
  · have hne : (rawOrU256 bytes value).payload.isEmpty = false := by simpa using hp
    rw [rawOrU256, if_neg (by simp [hne])]
    exact (rawOrU256_eq_data bytes value).symm

/-- The gas fields a decoder reads are written back as they were written. -/
theorem rawOrLong_payload (bytes : Bytes) (value : ℕ) :
    rawOrLong (rawOrLong bytes value).payload (toU256 (rawOrLong bytes value).payload 8) =
      rawOrLong bytes value := by
  by_cases hp : (rawOrLong bytes value).payload = []
  · have hnil : rawOrLong [] (toU256 [] 8) = .data [] := by
      simp [rawOrLong, encodeLong, toU256, ofU256, ofUint]
    rw [hp, hnil, rawOrLong_eq_data bytes value, hp]
  · have hne : (rawOrLong bytes value).payload.isEmpty = false := by simpa using hp
    rw [rawOrLong, if_neg (by simp [hne])]
    exact (rawOrLong_eq_data bytes value).symm

theorem length_payload_rawOrU256_le {bytes : Bytes} (hb : bytes.length ≤ 32) (value : ℕ) :
    (rawOrU256 bytes value).payload.length ≤ 32 := by
  unfold rawOrU256
  split_ifs
  · exact length_minimalBigEndian_le_width 32 value
  · exact hb

theorem decodeRawU256_of_length_le (message : String) {raw : Bytes} (h : raw.length ≤ 32) :
    decodeRawU256 message raw = .ok (fromBigEndian raw) := by
  rw [decodeRawU256, if_neg (by omega)]
  rfl

/-- A one-byte transaction type is read back from its minimal form. -/
theorem transactionTypeOf_minimalBigEndian {n : ℕ} (hn : n < 256) :
    transactionTypeOf (minimalBigEndian 32 n) = n := by
  rcases Nat.eq_zero_or_pos n with rfl | hpos
  · rw [minimalBigEndian_zero]
    rfl
  · rw [minimalBigEndian_of_lt_256 (by norm_num) hpos hn, transactionTypeOf]
    simp [Nat.toUInt8, Nat.mod_eq_of_lt hn]

theorem Action.decode_toRlp (a : Action) : Action.decode ⟨a.toRlp.encode⟩ = .ok a := by
  cases a with
  | create => rfl
  | call address =>
    have hsingle : ¬IsSingleByte address.toList := fun ⟨b, hb, _⟩ ↦ by
      simpa using congrArg List.length hb
    -- a 32-byte string starts with `0xa0`, which is not an empty item
    have hne : (UntrustedRlp.mk (ofHash address).encode).isEmpty = false := by
      rw [ofHash, encode_data, encodeValue_of_not_isSingleByte hsingle, lengthHeader,
        if_pos (by simp)]
      simp only [UntrustedRlp.isEmpty, List.singleton_append, List.head?_cons, Vector.length_toList]
      decide
    rw [decode, toRlp, if_neg (by simp [hne]), UntrustedRlp.asHash_ofHash (by norm_num)]
    rfl

namespace UnverifiedTransaction

variable (blake2b : Bytes → Vector UInt8 32) (u : UnverifiedTransaction)

/-- Normalizing changes nothing that the sealed encoding writes. -/
theorem rlpBytes_normalized : (u.normalized blake2b).rlpBytes = u.rlpBytes := by
  simp only [normalized, rlpBytes, rlpAppendSealedTransaction, Transaction.appendFields,
    Transaction.beaconItems, rawOrU256_payload, rawOrLong_payload]

theorem computeHash_normalized :
    (u.normalized blake2b).computeHash blake2b = u.normalized blake2b := by
  rw [computeHash, rlpBytes_normalized]
  rfl

theorem decode_rlpBytes (hnonce : u.unsigned.nonceBytes.length ≤ 32)
    (hvalue : u.unsigned.valueBytes.length ≤ 32) (htype : u.unsigned.transactionType < 256)
    (hsize : u.rlpBytes.length < 2 ^ 32) :
    decode blake2b ⟨u.rlpBytes⟩ = .ok (u.normalized blake2b) := by
  obtain ⟨t, sig, hash, timestamp⟩ := u
  simp only at hnonce hvalue htype
  have hraw : (UnverifiedTransaction.mk t sig hash timestamp).rlpBytes =
      (list (t.appendFields timestamp ++ [ofBytes sig] ++ t.beaconItems)).encode := rfl
  rw [hraw] at hsize ⊢
  set items := t.appendFields timestamp ++ [ofBytes sig] ++ t.beaconItems with hitems
  have hlen : items.length = 9 + t.beaconItems.length := by
    simp [items, Transaction.appendFields]
    omega
  set r : UntrustedRlp := ⟨(list items).encode⟩
  have hat : ∀ i (hi : i < items.length), r.atIndex i = .ok ⟨items[i].encode⟩ := fun i hi ↦ by
    rw [atIndex_encode_list hsize, dif_pos hi]
  have hlt : ∀ i (hi : i < items.length), items[i].encode.length < 2 ^ 32 := fun i hi ↦
    encode_lt_of_mem (List.getElem_mem hi) hsize
  -- the nine fields every sealed transaction has, where the stream put them
  have a0 : r.atIndex 0 = .ok ⟨(rawOrU256 t.nonceBytes t.nonce).encode⟩ := hat 0 (by omega)
  have a1 : r.atIndex 1 = .ok ⟨t.action.toRlp.encode⟩ := hat 1 (by omega)
  have a2 : r.atIndex 2 = .ok ⟨(rawOrU256 t.valueBytes t.value).encode⟩ := hat 2 (by omega)
  have a3 : r.atIndex 3 = .ok ⟨(ofBytes t.data).encode⟩ := hat 3 (by omega)
  have a4 : r.atIndex 4 = .ok ⟨(ofBytes timestamp).encode⟩ := hat 4 (by omega)
  have a5 : r.atIndex 5 = .ok ⟨(rawOrLong t.gasBytes t.gas).encode⟩ := hat 5 (by omega)
  have a6 : r.atIndex 6 = .ok ⟨(rawOrLong t.gasPriceBytes t.gasPrice).encode⟩ := hat 6 (by omega)
  have a7 : r.atIndex 7 = .ok ⟨(ofU256 t.transactionType).encode⟩ := hat 7 (by omega)
  have a8 : r.atIndex 8 = .ok ⟨(ofBytes sig).encode⟩ := hat 8 (by omega)
  -- and read back as byte strings
  have g0 := UntrustedRlp.asBytes_encode_of_eq_data (rawOrU256_eq_data t.nonceBytes t.nonce)
    (hlt 0 (by omega))
  have g2 := UntrustedRlp.asBytes_encode_of_eq_data (rawOrU256_eq_data t.valueBytes t.value)
    (hlt 2 (by omega))
  have g3 : (UntrustedRlp.mk (ofBytes t.data).encode).asBytes = .ok t.data :=
    UntrustedRlp.asBytes_ofBytes_of_encode (hlt 3 (by omega))
  have g4 : (UntrustedRlp.mk (ofBytes timestamp).encode).asBytes = .ok timestamp :=
    UntrustedRlp.asBytes_ofBytes_of_encode (hlt 4 (by omega))
  have g5 := UntrustedRlp.asBytes_encode_of_eq_data (rawOrLong_eq_data t.gasBytes t.gas)
    (hlt 5 (by omega))
  have g6 := UntrustedRlp.asBytes_encode_of_eq_data
    (rawOrLong_eq_data t.gasPriceBytes t.gasPrice) (hlt 6 (by omega))
  have g7 : (UntrustedRlp.mk (ofU256 t.transactionType).encode).asBytes =
      .ok (minimalBigEndian 32 t.transactionType) :=
    UntrustedRlp.asBytes_encode_of_eq_data rfl (hlt 7 (by omega))
  have g8 : (UntrustedRlp.mk (ofBytes sig).encode).asBytes = .ok sig :=
    UntrustedRlp.asBytes_ofBytes_of_encode (hlt 8 (by omega))
  have hn := decodeRawU256_of_length_le "transaction nonce bytes > 32"
    (length_payload_rawOrU256_le hnonce t.nonce)
  have hv := decodeRawU256_of_length_le "transaction value bytes > 32"
    (length_payload_rawOrU256_le hvalue t.value)
  have hcount : r.itemCount = .ok (9 + t.beaconItems.length) := by
    rw [← hlen]
    exact itemCount_encode_list hsize
  rw [decode]
  simp only [hcount, except_ok_bind, a0, a1, a2, a3, a4, a5, a6, a7, a8, g0, g2, g3, g4, g5, g6, g7,
    g8, hn, hv, Action.decode_toRlp, transactionTypeOf_minimalBigEndian htype]
  -- the count is nine without a beacon and eleven with one
  cases hb : t.beacon with
  | none =>
    have hnone : t.beaconItems = [] := by simp [Transaction.beaconItems, hb]
    rw [hnone, List.length_nil, Nat.add_zero, if_neg (by decide)]
    simp only [except_pure_eq, except_ok_bind, normalized, hb]
    rfl
  | some beacon =>
    have hsome : t.beaconItems = [ofU8 beaconHashExtension, ofHash beacon] := by
      simp [Transaction.beaconItems, hb]
    have h9 : 9 < items.length := by simp [hlen, hsome]
    have h10 : 10 < items.length := by simp [hlen, hsome]
    -- the extension sits at indices nine and ten
    have a9 : r.atIndex 9 = .ok ⟨(ofU8 beaconHashExtension).encode⟩ := by
      rw [hat 9 h9]
      simp [items, hsome, Transaction.appendFields]
    have a10 : r.atIndex 10 = .ok ⟨(ofHash beacon).encode⟩ := by
      rw [hat 10 h10]
      simp [items, hsome, Transaction.appendFields]
    rw [hsome, List.length_cons, List.length_cons, List.length_nil, if_neg (by decide)]
    simp only [a9, a10, except_ok_bind, UntrustedRlp.asU8_ofU8, if_pos,
      UntrustedRlp.asHash_ofHash (by norm_num : 32 < 2 ^ 32), except_map_ok, except_pure_eq,
      normalized, hb]
    rfl

theorem rlpBytes_of_decode_rlpBytes (hnonce : u.unsigned.nonceBytes.length ≤ 32)
    (hvalue : u.unsigned.valueBytes.length ≤ 32) (htype : u.unsigned.transactionType < 256)
    (hsize : u.rlpBytes.length < 2 ^ 32) :
    ∃ t, decode blake2b ⟨u.rlpBytes⟩ = .ok t ∧ t.rlpBytes = u.rlpBytes ∧
      t.computeHash blake2b = t :=
  ⟨u.normalized blake2b, u.decode_rlpBytes blake2b hnonce hvalue htype hsize,
    u.rlpBytes_normalized blake2b, u.computeHash_normalized blake2b⟩

/-- A signed call of five units to the address `0x0707…07`, with a gas price above `2³²`. -/
def sample : UnverifiedTransaction where
  unsigned := {
    nonce := 1, nonceBytes := [], gasPrice := 10000000000, gasPriceBytes := [], gas := 21000,
    gasBytes := [], action := .call (Vector.replicate 32 7), value := 5, valueBytes := [],
    data := [], transactionType := 1, beacon := none }
  sig := List.replicate 96 1
  hash := Vector.replicate 32 0
  timestamp := [0, 0, 0, 0, 0, 0, 0, 1]

/-- A hash function for the examples: every input hashes to zero. -/
def zeroHash : Bytes → Vector UInt8 32 := fun _ ↦ Vector.replicate 32 0

theorem rlpBytes_of_decode_rlpBytes_sample : sample.unsigned.nonceBytes.length ≤ 32 ∧
    sample.unsigned.valueBytes.length ≤ 32 ∧ sample.unsigned.transactionType < 256 ∧
    sample.rlpBytes.length < 2 ^ 32 ∧
    ∃ t, decode zeroHash ⟨sample.rlpBytes⟩ = .ok t ∧ t.rlpBytes = sample.rlpBytes ∧
      t.computeHash zeroHash = t :=
  have hsize : sample.rlpBytes.length < 2 ^ 32 := by decide +kernel
  ⟨by decide, by decide, by decide, hsize,
    rlpBytes_of_decode_rlpBytes zeroHash sample (by decide) (by decide) (by decide) hsize⟩

/-- The sealed encoding of `sample` with its transaction type written as the byte `0x00`. -/
def sampleTypeZeroByte : Bytes :=
  (RlpItem.list ((sample.unsigned.appendFields sample.timestamp).set 7 (.ofBytes [0]) ++
    [.ofBytes sample.sig])).encode

/-- `sampleTypeZeroByte` decodes to `sample` with type `0`, which is written back differently. -/
theorem decode_sampleTypeZeroByte :
    let t := sample.normalized zeroHash
    decode zeroHash ⟨sampleTypeZeroByte⟩ =
        .ok { t with unsigned := { t.unsigned with transactionType := 0 } } ∧
      ({ t with unsigned := { t.unsigned with transactionType := 0 } } : UnverifiedTransaction).rlpBytes ≠
        sampleTypeZeroByte := by
  decide +kernel

end UnverifiedTransaction

end RoundTrip

end AionR
