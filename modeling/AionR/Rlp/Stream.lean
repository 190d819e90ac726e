import AionR.Lib.BigEndian

/-!
# RLP encoding

What `RlpStream` writes (`src/util/rlp/src/stream.rs`). A stream used the way every encoder of the
kernel uses it, `begin_list(n)` followed by exactly `n` appends, writes the list header for the
total length of the appended encodings and then those encodings; `encode_value` writes a byte
string. `RlpItem` is the tree of such appends and `RlpItem.encode` the bytes the stream holds
once the outermost list is finished.

Lengths are written by `insert_size`, which takes the length `as u32`: a length of `2³²` bytes or
more is written modulo `2³²`, and `sizeBytes` keeps that.

The `Encodable` implementations of the value types used by headers and transactions are at the
end: integers are written big-endian without leading zeros, hashes as their raw bytes.
-/

namespace AionR

namespace Rlp

/-- `insert_size`: a length as a big-endian `u32` without leading zero bytes. -/
def sizeBytes (len : ℕ) : Bytes := minimalBigEndian 4 len

/-- `BasicEncoder::encode_value`: a single byte below `0x80` stands for itself; a string of up to
55 bytes gets the header `0x80 + len`; a longer one `0xb7 + |len|` followed by its length. -/
def encodeValue (value : Bytes) : Bytes :=
  match value with
  | [] => [0x80]
  | [b] => if b < 0x80 then [b] else [0x81, b]
  | _ =>
    if value.length ≤ 55 then (0x80 + value.length.toUInt8) :: value
    else (0xb7 + (sizeBytes value.length).length.toUInt8) :: sizeBytes value.length ++ value

/-- `BasicEncoder::insert_list_payload` in front of a finished list's payload. -/
def encodeListPayload (payload : Bytes) : Bytes :=
  if payload.length ≤ 55 then (0xc0 + payload.length.toUInt8) :: payload
  else (0xf7 + (sizeBytes payload.length).length.toUInt8) :: sizeBytes payload.length ++ payload

end Rlp

/-- The appends made to an `RlpStream`: a byte string, or a list of appends. -/
inductive RlpItem where
  | data (value : Bytes)
  | list (items : List RlpItem)
  deriving Repr

namespace RlpItem

mutual

/-- The bytes an `RlpStream` holds after the appends of one item. -/
def encode : RlpItem → Bytes
  | .data value => Rlp.encodeValue value
  | .list items => Rlp.encodeListPayload (encodeAll items)

/-- The encodings of several items, one after the other: a list's payload. -/
def encodeAll : List RlpItem → Bytes
  | [] => []
  | item :: items => encode item ++ encodeAll items

end

@[simp] theorem encode_data (value : Bytes) : (data value).encode = Rlp.encodeValue value := by
  rw [encode]

@[simp] theorem encode_list (items : List RlpItem) :
    (list items).encode = Rlp.encodeListPayload (encodeAll items) := by
  rw [encode]

@[simp] theorem encodeAll_nil : encodeAll [] = [] := by
  rw [encodeAll]

@[simp] theorem encodeAll_cons (item : RlpItem) (items : List RlpItem) :
    encodeAll (item :: items) = item.encode ++ encodeAll items := by
  rw [encodeAll]

/-! ## `Encodable` for value types -/

/-- `Encodable for u8`: zero is the empty string. -/
def ofU8 (v : UInt8) : RlpItem := .data (if v ≠ 0 then [v] else [])

/-- `impl_encodable_for_u!` and `impl_encodable_for_uint!`: a `w`-byte integer, big-endian,
without its leading zero bytes. -/
def ofUint (w n : ℕ) : RlpItem := .data (minimalBigEndian w n)

/-- `Encodable for U256`. -/
def ofU256 (n : ℕ) : RlpItem := ofUint 32 n

/-- `Encodable for u64`. -/
def ofU64 (n : UInt64) : RlpItem := ofUint 8 n.toNat

/-- `impl_encodable_for_hash!`: the raw bytes of a fixed-size hash. -/
def ofHash {n : ℕ} (h : Vector UInt8 n) : RlpItem := .data h.toList

/-- `Encodable for Vec<u8>` and `&[u8]`. -/
def ofBytes (v : Bytes) : RlpItem := .data v

end RlpItem

end AionR
