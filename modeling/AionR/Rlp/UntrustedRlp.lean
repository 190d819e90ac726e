import AionR.Rlp.Stream

/-!
# RLP decoding

`UntrustedRlp` (`src/util/rlp/src/untrusted_rlp.rs`) reads items out of raw bytes without
checking them up front. Each item is located by its header (`PayloadInfo`); the `i`-th item of a
list is found by skipping `i` items after the list's header; a value is read by `decode_value`,
and the `Decodable` implementations (`impls.rs`) turn its bytes into typed values.

## Leniency

Three things are not checked, and the header and transaction decoders inherit them:

* `at` skips items through the rest of the byte string, not through the list's declared payload,
  and `item_count` counts items until the first one that does not parse;
* `decode_value` accepts a long-form string header for a string of up to 55 bytes, and a single
  byte below `0x80` written with a header in long form;
* `Vec<u8>` accepts any string, whatever the number it will be read as.

The offset cache of `at` and the count cache of `item_count` only remember earlier answers, so
they are not modelled.
-/

namespace AionR

namespace Rlp

/-- `DecoderError`. -/
inductive DecoderError where
  | rlpIsTooBig
  | rlpIsTooShort
  | rlpExpectedToBeList
  | rlpExpectedToBeData
  | rlpIncorrectListLen
  | rlpDataLenWithZeroPrefix
  | rlpListLenWithZeroPrefix
  | rlpInvalidIndirection
  | rlpInconsistentLengthAndData
  | rlpInvalidLength
  | custom (message : String)
  deriving DecidableEq, Repr

/-- `decode_usize`: a length of at most eight bytes, without a leading zero. -/
def decodeUsize (bytes : Bytes) : Except DecoderError ℕ :=
  if bytes.length ≤ 8 then
    if bytes.head? = some 0 ∧ 1 < bytes.length then .error .rlpInvalidIndirection
    else .ok (fromBigEndian bytes)
  else .error .rlpIsTooBig

/-- `PayloadInfo`: the lengths of an item's header and of its value. -/
structure PayloadInfo where
  headerLen : ℕ
  valueLen : ℕ
  deriving DecidableEq, Repr

/-- `PayloadInfo::total`. -/
def PayloadInfo.total (p : PayloadInfo) : ℕ := p.headerLen + p.valueLen

/-- `calculate_payload_info`: a long-form header of `1 + lenOfLen` bytes. -/
def calculatePayloadInfo (headerBytes : Bytes) (lenOfLen : ℕ) : Except DecoderError PayloadInfo :=
  let headerLen := 1 + lenOfLen
  match (headerBytes[1]? : Option UInt8) with
  | some 0 => .error .rlpDataLenWithZeroPrefix
  | none => .error .rlpIsTooShort
  | some _ =>
    if headerBytes.length < headerLen then .error .rlpIsTooShort
    else (fun valueLen ↦ ⟨headerLen, valueLen⟩) <$> decodeUsize ((headerBytes.take headerLen).drop 1)

/-- `PayloadInfo::from`: classify the first byte. -/
def PayloadInfo.from (headerBytes : Bytes) : Except DecoderError PayloadInfo :=
  match headerBytes with
  | [] => .error .rlpIsTooShort
  | l :: _ =>
    if l ≤ 0x7f then .ok ⟨0, 1⟩
    else if l ≤ 0xb7 then .ok ⟨1, l.toNat - 0x80⟩
    else if l ≤ 0xbf then calculatePayloadInfo headerBytes (l.toNat - 0xb7)
    else if l ≤ 0xf7 then .ok ⟨1, l.toNat - 0xc0⟩
    else calculatePayloadInfo headerBytes (l.toNat - 0xf7)

/-- `BasicDecoder::payload_info`: the header, provided the whole item fits in the bytes. -/
def payloadInfo (bytes : Bytes) : Except DecoderError PayloadInfo := do
  let item ← PayloadInfo.from bytes
  if item.total ≤ bytes.length then pure item else throw .rlpIsTooShort

/-- `UntrustedRlp::consume`. -/
def consume (bytes : Bytes) (len : ℕ) : Except DecoderError Bytes :=
  if len ≤ bytes.length then .ok (bytes.drop len) else .error .rlpIsTooShort

/-- `UntrustedRlp::consume_items`: skip `items` whole items. -/
def consumeItems (bytes : Bytes) : ℕ → Except DecoderError Bytes
  | 0 => .ok bytes
  | items + 1 => do
    let i ← payloadInfo bytes
    consumeItems (← consume bytes i.total) items

end Rlp

/-- `UntrustedRlp`: a view of raw bytes as one RLP item. -/
structure UntrustedRlp where
  bytes : Bytes
  deriving DecidableEq, Repr

namespace UntrustedRlp

open Rlp

variable (r : UntrustedRlp)

/-- `as_raw`. -/
def asRaw : Bytes := r.bytes

def isNull : Bool := r.bytes.isEmpty

/-- `is_empty`: an empty list or an empty string. -/
def isEmpty : Bool := r.bytes.head? = some 0xc0 || r.bytes.head? = some 0x80

def isList : Bool := r.bytes.head?.any (0xc0 ≤ ·)

def isData : Bool := r.bytes.head?.any (· < 0xc0)

/-- `consume_list_payload`: the bytes after the list's header. -/
def consumeListPayload : Except DecoderError Bytes := do
  let item ← payloadInfo r.bytes
  consume r.bytes item.headerLen

/-- `at` (a keyword of Lean, hence the name): the `index`-th item after the list's header. -/
def atIndex (index : ℕ) : Except DecoderError UntrustedRlp := do
  if !r.isList then throw .rlpExpectedToBeList
  let bytes ← consumeItems (← r.consumeListPayload) index
  let found ← payloadInfo bytes
  pure ⟨bytes.take found.total⟩

/-- The iteration of `iter().count()`: count the indices from `index` on at which `at` succeeds,
stopping at the first failure. Every item takes at least one byte, so `fuel` set to the length of
the bytes never runs out first. -/
def countFrom : ℕ → ℕ → ℕ
  | 0, _ => 0
  | fuel + 1, index =>
    match r.atIndex index with
    | .ok _ => countFrom fuel (index + 1) + 1
    | .error _ => 0

/-- `item_count`. -/
def itemCount : Except DecoderError ℕ :=
  if r.isList then .ok (r.countFrom r.bytes.length 0) else .error .rlpExpectedToBeList

/-- The items `iter` yields from `index` on: `at` of each index, until the first that fails. The
fuel is that of `countFrom`. -/
def iterFrom : ℕ → ℕ → List UntrustedRlp
  | 0, _ => []
  | fuel + 1, index =>
    match r.atIndex index with
    | .ok item => item :: iterFrom fuel (index + 1)
    | .error _ => []

/-- `iter`. -/
def iter : List UntrustedRlp := r.iterFrom r.bytes.length 0

/-- `BasicDecoder::decode_value`: the value bytes of a string item, handed to `f`. -/
def decodeValue {α : Type} (f : Bytes → Except DecoderError α) : Except DecoderError α :=
  match r.bytes with
  | [] => .error .rlpIsTooShort
  | l :: _ =>
    if l ≤ 0x7f then f [l]
    else if l ≤ 0xb7 then
      let lastIndexOf := 1 + (l.toNat - 0x80)
      if r.bytes.length < lastIndexOf then .error .rlpInconsistentLengthAndData
      else
        let d := (r.bytes.take lastIndexOf).drop 1
        if l = 0x81 ∧ d.head?.any (· < 0x80) then .error .rlpInvalidIndirection
        else f d
    else if l ≤ 0xbf then
      let beginOfValue := 1 + (l.toNat - 0xb7)
      if r.bytes.length < beginOfValue then .error .rlpInconsistentLengthAndData
      else do
        let len ← decodeUsize ((r.bytes.take beginOfValue).drop 1)
        let lastIndexOfValue := beginOfValue + len
        if r.bytes.length < lastIndexOfValue then throw .rlpInconsistentLengthAndData
        f ((r.bytes.take lastIndexOfValue).drop beginOfValue)
    else .error .rlpExpectedToBeData

/-! ## `Decodable` for value types -/

/-- `Decodable for Vec<u8>`. -/
def asBytes : Except DecoderError Bytes := r.decodeValue pure

/-- `Decodable for u8`: zero is the empty string; a single zero byte is refused. -/
def asU8 : Except DecoderError UInt8 :=
  r.decodeValue fun bytes ↦
    match bytes with
    | [] => .ok 0
    | [b] => if b ≠ 0 then .ok b else .error .rlpInvalidIndirection
    | _ => .error .rlpIsTooBig

/-- `impl_decodable_for_uint!` for a `size`-byte integer: no leading zero, at most `size` bytes. -/
def asUint (size : ℕ) : Except DecoderError ℕ :=
  r.decodeValue fun bytes ↦
    if bytes.head? = some 0 then .error .rlpInvalidIndirection
    else if bytes.length ≤ size then .ok (fromBigEndian bytes)
    else .error .rlpIsTooBig

/-- `Decodable for U256`. -/
def asU256 : Except DecoderError ℕ := r.asUint 32

/-- `impl_decodable_for_hash!`: exactly `n` bytes. -/
def asHash (n : ℕ) : Except DecoderError (Vector UInt8 n) :=
  r.decodeValue fun bytes ↦
    if h : bytes.length = n then .ok ⟨bytes.toArray, by simp [h]⟩
    else if bytes.length < n then .error .rlpIsTooShort
    else .error .rlpIsTooBig

end UntrustedRlp

end AionR
