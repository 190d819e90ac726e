import AionR.Lib.BigEndian
import AionR.Lib.Checked
import AionR.Lib.Except

/-!
# The p2p frame codec

Peers exchange `ChannelBuffer`s (`src/p2p/src/msg.rs`): an eight-byte header, written by bincode
big-endian as `ver : u16`, `ctrl : u8`, `action : u8` and `len : u32`, followed by `len` bytes of
body. `Codec` (`src/p2p/src/codec.rs`) writes such frames, and reads them back off a `BytesMut`
into which the socket's bytes arrive in chunks of any size: `decode` waits for a whole header and
then for the whole body, and drops the buffer on a header it does not accept.

## Model

A buffer is a `Bytes` list; `decode` returns the buffer it leaves with the frame it took, if any.
Slicing panics past the end, so `decode` runs in `Checked`. The receiving side appends each chunk
and calls `decode` until it returns no frame (`drain`), chunk after chunk (`receive`).

What the codec uses of bincode is a parameter, `HeadBincode`: a header takes eight bytes, reads
back whatever follows it, and any eight bytes read as a header. The fields at their fixed widths,
big-endian, are one such codec (`bincodeBigEndian`).

## Main results

`drain_prefix`: a buffer that is a prefix of a stream of valid frames gives up exactly the frames
it holds whole and keeps the rest, which is shorter than the next frame (`Pending`). By induction
on the chunks, `receive_encoded` then reads back every frame of the stream in order, never
panics, and leaves the buffer empty.
-/

namespace AionR

namespace P2p

/-- `node::HEADER_LENGTH`. -/
def headerLength : ℕ := 8

/-- `route::Version`. -/
inductive Version
  | v0
  | v1
  | v2
  deriving DecidableEq, Repr

/-- `Version::value`. -/
def Version.value : Version → UInt16
  | .v0 => 0
  | .v1 => 1
  | .v2 => 2

/-- `msg::Head`. -/
structure Head where
  ver : UInt16
  ctrl : UInt8
  action : UInt8
  len : UInt32
  deriving DecidableEq, Repr

/-- `Head::new`: version 2, the p2p module (`Module::P2P.value()` is 0), action `0xFF`. -/
def Head.new : Head := ⟨Version.v2.value, 0, 0xFF, 0⟩

/-- `msg::ChannelBuffer`. -/
structure ChannelBuffer where
  head : Head
  body : Bytes
  deriving DecidableEq, Repr

/-- `ChannelBuffer::new`. -/
def ChannelBuffer.new : ChannelBuffer := ⟨Head.new, []⟩

/-- What the codec uses of bincode's big-endian configuration: `serialize` and `deserialize` of a
`Head`. -/
class HeadBincode where
  /-- `serialize(&head)`. -/
  serialize : Head → Bytes
  /-- `deserialize(bytes)`. -/
  deserialize : Bytes → Option Head
  /-- A header takes eight bytes. -/
  length_serialize : ∀ h, (serialize h).length = headerLength
  /-- A header reads back, whatever follows it. -/
  deserialize_serialize : ∀ h rest, deserialize (serialize h ++ rest) = some h
  /-- Any eight bytes read as a header: every field has a fixed width. -/
  deserialize_isSome : ∀ raw : Bytes, raw.length = headerLength → (deserialize raw).isSome

/-! ## Headers in bincode's big-endian configuration -/

/-- The header as bincode's big-endian configuration serializes it: the fields in order, each at
its fixed width. -/
def Head.serialize (h : Head) : Bytes :=
  toBigEndian 2 h.ver.toNat ++ [h.ctrl, h.action] ++ toBigEndian 4 h.len.toNat

/-- Bincode's deserialization of a header: it reads the fields in order, and fails when the bytes
run out before the last one. -/
def Head.deserialize (raw : Bytes) : Option Head :=
  if raw.length < headerLength then none
  else some ⟨UInt16.ofNat (fromBigEndian (raw.take 2)), raw.getD 2 0, raw.getD 3 0,
    UInt32.ofNat (fromBigEndian ((raw.drop 4).take 4))⟩

@[simp] theorem length_serialize (h : Head) : h.serialize.length = headerLength := by
  simp [Head.serialize, headerLength]

/-- Bincode reads back the header it wrote, whatever follows it. -/
theorem deserialize_serialize (h : Head) (rest : Bytes) :
    Head.deserialize (h.serialize ++ rest) = some h := by
  obtain ⟨v₀, v₁, hv⟩ := List.length_eq_two.mp (length_toBigEndian 2 h.ver.toNat)
  obtain ⟨l₀, l₁, l₂, l₃, hl⟩ := List.length_eq_four.mp (length_toBigEndian 4 h.len.toNat)
  have hver : UInt16.ofNat (fromBigEndian [v₀, v₁]) = h.ver := by
    rw [← hv, fromBigEndian_toBigEndian_of_lt h.ver.toNat_lt, UInt16.ofNat_toNat]
  have hlen : UInt32.ofNat (fromBigEndian [l₀, l₁, l₂, l₃]) = h.len := by
    rw [← hl, fromBigEndian_toBigEndian_of_lt h.len.toNat_lt, UInt32.ofNat_toNat]
  unfold Head.deserialize Head.serialize
  rw [hv, hl]
  simp [headerLength, hver, hlen]

/-- Eight bytes always deserialize. -/
theorem deserialize_isSome {raw : Bytes} (h8 : raw.length = headerLength) :
    (Head.deserialize raw).isSome := by
  rw [Head.deserialize, if_neg (by omega)]
  rfl

/-- The fields at their fixed widths, big-endian. -/
@[reducible] def bincodeBigEndian : HeadBincode where
  serialize := Head.serialize
  deserialize := Head.deserialize
  length_serialize := length_serialize
  deserialize_serialize := deserialize_serialize
  deserialize_isSome _ := deserialize_isSome

/-! ## The codec -/

/-- `split_at(mid)`, and `BytesMut::split_to(mid)`, which leaves the back half in the buffer:
both panic past the end. -/
def splitAt (src : Bytes) (mid : ℕ) : Checked (Bytes × Bytes) :=
  if mid ≤ src.length then .ok (src.take mid, src.drop mid) else .error .indexOutOfBounds

/-- The last branch of `Codec::decode`: the header and `len` bytes of body split off the buffer. -/
def takeFrame (src : Bytes) (head : Head) : Checked (Bytes × Option ChannelBuffer) := do
  let (buf, rest) ← splitAt src (head.len.toNat + headerLength)
  let (_, body) ← splitAt buf headerLength
  return (rest, some ⟨head, ChannelBuffer.new.body ++ body⟩)

/-! ## One call of `decode` -/

theorem splitAt_of_le {src : Bytes} {mid : ℕ} (h : mid ≤ src.length) :
    splitAt src mid = .ok (src.take mid, src.drop mid) := if_pos h

theorem takeFrame_of_le {src : Bytes} {head : Head}
    (hfit : head.len.toNat + headerLength ≤ src.length) :
    takeFrame src head = .ok (src.drop (head.len.toNat + headerLength),
      some ⟨head, (src.take (head.len.toNat + headerLength)).drop headerLength⟩) := by
  have hlen : headerLength ≤ (src.take (head.len.toNat + headerLength)).length := by
    rw [List.length_take]
    omega
  simp only [takeFrame, splitAt_of_le hfit, except_ok_bind, splitAt_of_le hlen]
  rfl

theorem takeFrame_of_lt {src : Bytes} {head : Head}
    (hshort : src.length < head.len.toNat + headerLength) :
    takeFrame src head = .error .indexOutOfBounds := by
  simp only [takeFrame, splitAt, if_neg (Nat.not_le.mpr hshort)]
  rfl

section Decode

variable [HeadBincode]

/-- `Codec::encode`: the serialized header, then the body, appended to `dst`. Serializing a header
never fails, so the source's `if let Ok(..)` always writes. -/
def encode (item : ChannelBuffer) (dst : Bytes) : Bytes :=
  dst ++ HeadBincode.serialize item.head ++ item.body

/-- `Codec::decode`: the buffer it leaves, and the frame it took off, if any. -/
def decode (src : Bytes) : Checked (Bytes × Option ChannelBuffer) := do
  let len := src.length
  if len ≥ headerLength then
    let (headRaw, _) ← splitAt src headerLength
    match HeadBincode.deserialize headRaw with
    | some head =>
      if head.ver > Version.v2.value ∨ head.ctrl > 1 then
        -- `invalid`: `src.split_to(len)` drops the whole buffer
        let (_, rest) ← splitAt src len
        return (rest, none)
      else if head.len.toNat + headerLength > len then
        return (src, none)
      else takeFrame src head
    -- a header that does not deserialize leaves `ChannelBuffer::new()`'s, whose `len` is 0
    | none => takeFrame src ChannelBuffer.new.head
  else
    return (src, none)

/-- Eight bytes always deserialize. -/
theorem deserialize_take_isSome {src : Bytes} (h8 : headerLength ≤ src.length) :
    ∃ head, HeadBincode.deserialize (src.take headerLength) = some head :=
  Option.isSome_iff_exists.mp (HeadBincode.deserialize_isSome _ (by rw [List.length_take]; omega))

/-- Less than a header: `decode` waits. -/
theorem decode_of_lt_headerLength {src : Bytes} (h : src.length < headerLength) :
    decode src = .ok (src, none) := by
  rw [decode, if_neg (by omega)]
  rfl

/-- A header the codec does not accept drops the whole buffer. -/
theorem decode_of_invalid {src : Bytes} (h8 : headerLength ≤ src.length) {head : Head}
    (hd : HeadBincode.deserialize (src.take headerLength) = some head)
    (hinv : head.ver > Version.v2.value ∨ head.ctrl > 1) : decode src = .ok ([], none) := by
  simp only [decode, if_pos h8, splitAt_of_le h8, except_ok_bind, hd, if_pos hinv,
    splitAt_of_le (le_refl src.length), List.drop_length]
  rfl

example : @decode bincodeBigEndian [0, 3, 0, 0, 0, 0, 0, 0, 5] = .ok ([], none) := by decide

/-- An accepted header: `decode` takes the frame off when its body is all there, and waits
otherwise. -/
theorem decode_of_valid {src : Bytes} (h8 : headerLength ≤ src.length) {head : Head}
    (hd : HeadBincode.deserialize (src.take headerLength) = some head)
    (hver : head.ver ≤ Version.v2.value) (hctrl : head.ctrl ≤ 1) :
    decode src = if head.len.toNat + headerLength ≤ src.length then
        .ok (src.drop (head.len.toNat + headerLength),
          some ⟨head, (src.take (head.len.toNat + headerLength)).drop headerLength⟩)
      else .ok (src, none) := by
  have hvalid : ¬(head.ver > Version.v2.value ∨ head.ctrl > 1) := by
    rintro (hv | hc)
    · exact absurd hver (UInt16.not_le.mpr hv)
    · exact absurd hctrl (UInt8.not_le.mpr hc)
  simp only [decode, if_pos h8, splitAt_of_le h8, except_ok_bind, hd, if_neg hvalid]
  split_ifs with hshort hfit hfit
  · omega
  · rfl
  · exact takeFrame_of_le hfit
  · omega

/-- The frames the codec accepts: version at most 2, `ctrl` at most 1, and a `len` that is the
body's length. -/
def Valid (m : ChannelBuffer) : Prop :=
  m.head.ver ≤ Version.v2.value ∧ m.head.ctrl ≤ 1 ∧ m.head.len.toNat = m.body.length

instance (m : ChannelBuffer) : Decidable (Valid m) := inferInstanceAs (Decidable (_ ∧ _ ∧ _))

theorem length_encode (m : ChannelBuffer) :
    (encode m []).length = m.body.length + headerLength := by
  simp [encode, HeadBincode.length_serialize]
  omega

/-- A whole valid frame at the front of the buffer is taken off it. -/
theorem decode_encode {m : ChannelBuffer} (hm : Valid m) (rest : Bytes) :
    decode (encode m [] ++ rest) = .ok (rest, some m) := by
  obtain ⟨hver, hctrl, hlen⟩ := hm
  have hframe : encode m [] ++ rest = HeadBincode.serialize m.head ++ (m.body ++ rest) := by
    simp [encode]
  have h8 : headerLength ≤ (encode m [] ++ rest).length := by
    rw [List.length_append, length_encode]
    omega
  have hd : HeadBincode.deserialize ((encode m [] ++ rest).take headerLength) = some m.head := by
    rw [hframe, List.take_append_of_le_length (by simp [HeadBincode.length_serialize]),
      List.take_of_length_le (by simp [HeadBincode.length_serialize]),
      ← List.append_nil (HeadBincode.serialize m.head), HeadBincode.deserialize_serialize]
  rw [decode_of_valid h8 hd hver hctrl, if_pos (by rw [List.length_append, length_encode]; omega),
    hframe, hlen]
  simp [List.take_append, List.drop_append, HeadBincode.length_serialize]

/-- A valid frame cut short stays in the buffer: its header is accepted, and its body is not all
there. -/
theorem decode_of_lt {m : ChannelBuffer} (hm : Valid m) {n : ℕ}
    (hn : n < (encode m []).length) :
    decode ((encode m []).take n) = .ok ((encode m []).take n, none) := by
  obtain ⟨hver, hctrl, hlen⟩ := hm
  rw [length_encode] at hn
  by_cases h8 : n < headerLength
  · exact decode_of_lt_headerLength (by rw [List.length_take]; omega)
  · have hd : HeadBincode.deserialize (((encode m []).take n).take headerLength) = some m.head := by
      rw [List.take_take, min_eq_left (by omega), encode, List.nil_append,
        List.take_append_of_le_length (by simp [HeadBincode.length_serialize]),
      List.take_of_length_le (by simp [HeadBincode.length_serialize]),
        ← List.append_nil (HeadBincode.serialize m.head), HeadBincode.deserialize_serialize]
    rw [decode_of_valid (by rw [List.length_take, length_encode]; omega) hd hver hctrl,
      if_neg (by rw [List.length_take, length_encode, hlen]; omega)]

/-! ## Reading a stream chunk by chunk -/

/-- A frame taken off leaves a shorter buffer, since every frame holds a header: `drain`
terminates. -/
theorem length_lt_of_decode {src rest : Bytes} {m : ChannelBuffer}
    (h : decode src = .ok (rest, some m)) : rest.length < src.length := by
  by_cases h8 : headerLength ≤ src.length
  · obtain ⟨head, hd⟩ := deserialize_take_isSome h8
    by_cases hinv : head.ver > Version.v2.value ∨ head.ctrl > 1
    · rw [decode_of_invalid h8 hd hinv] at h
      cases h
    · obtain ⟨hver, hctrl⟩ := not_or.mp hinv
      rw [decode_of_valid h8 hd (UInt16.not_lt.mp hver) (UInt8.not_lt.mp hctrl)] at h
      split_ifs at h with hfit
      · cases h
        rw [List.length_drop]
        have hpos : 0 < headerLength := by decide
        omega
      · cases h
  · rw [decode_of_lt_headerLength (by omega)] at h
    cases h

/-- The receiving side's loop after a chunk: `decode` until it returns no frame. -/
def drain (src : Bytes) : Checked (Bytes × List ChannelBuffer) :=
  match _hdecode : decode src with
  | .ok (rest, some m) => do
    let (rest', ms) ← drain rest
    return (rest', m :: ms)
  | .ok (rest, none) => .ok (rest, [])
  | .error e => .error e
termination_by src.length
decreasing_by exact length_lt_of_decode _hdecode

/-- Chunks arriving one after another into the buffer `buf`, each followed by `drain`: the buffer
left at the end, and the frames read. -/
def receive (buf : Bytes) : List Bytes → Checked (Bytes × List ChannelBuffer)
  | [] => .ok (buf, [])
  | chunk :: chunks => do
    let (buf', ms) ← drain (buf ++ chunk)
    let (buf'', ms') ← receive buf' chunks
    return (buf'', ms ++ ms')

theorem drain_of_decode_none {src rest : Bytes} (h : decode src = .ok (rest, none)) :
    drain src = .ok (rest, []) := by
  rw [drain]
  split
  · next hd => rw [h] at hd; cases hd
  · next hd => rw [h] at hd; cases hd; rfl
  · next hd => rw [h] at hd; cases hd

theorem drain_of_decode_some {src rest : Bytes} {m : ChannelBuffer}
    (h : decode src = .ok (rest, some m)) :
    drain src = (do let (rest', ms) ← drain rest; return (rest', m :: ms)) := by
  rw [drain]
  split
  · next hd => rw [h] at hd; cases hd; rfl
  · next hd => rw [h] at hd; cases hd
  · next hd => rw [h] at hd; cases hd

/-- The bytes of the frames `ms`, one after another. -/
def stream (ms : List ChannelBuffer) : Bytes := ms.flatMap (encode · [])

@[simp] theorem stream_nil : stream [] = [] := rfl

@[simp] theorem stream_cons (m : ChannelBuffer) (ms : List ChannelBuffer) :
    stream (m :: ms) = encode m [] ++ stream ms := List.flatMap_cons

theorem stream_take_append_drop (ms : List ChannelBuffer) (j : ℕ) :
    stream (ms.take j) ++ stream (ms.drop j) = stream ms := by
  rw [stream, stream, stream, ← List.flatMap_append, List.take_append_drop]

/-- Where the buffer stands in the stream of the frames `ms` still to come: it is a prefix of
their bytes that does not hold the first of them whole. -/
def Pending (buf : Bytes) (ms : List ChannelBuffer) : Prop :=
  buf <+: stream ms ∧ ∀ m rest, ms = m :: rest → buf.length < (encode m []).length

/-- **One chunk.** A buffer that is a prefix of a stream of valid frames gives up, in order, the
frames it holds whole, and keeps the rest of its bytes, which are pending. -/
theorem drain_prefix :
    ∀ {ms : List ChannelBuffer}, (∀ m ∈ ms, Valid m) → ∀ {buf : Bytes}, buf <+: stream ms →
      ∃ j rest, drain buf = .ok (rest, ms.take j) ∧ buf = stream (ms.take j) ++ rest ∧
        Pending rest (ms.drop j)
  | [], _, buf, hbuf => by
    have hnil : buf = [] := List.prefix_nil.mp hbuf
    subst hnil
    refine ⟨0, [], drain_of_decode_none (decode_of_lt_headerLength (by decide)), rfl,
      ⟨List.nil_prefix, fun m rest h ↦ by cases h⟩⟩
  | m :: ms, hms, buf, hbuf => by
    have hm : Valid m := hms m List.mem_cons_self
    rw [stream_cons] at hbuf
    by_cases hlt : buf.length < (encode m []).length
    · -- the first frame is not all there: `decode` waits
      have htake : buf = (encode m []).take buf.length := by
        have h := List.prefix_iff_eq_take.mp hbuf
        rwa [List.take_append_of_le_length hlt.le] at h
      have hdec : decode buf = .ok (buf, none) := by
        rw [htake]
        exact decode_of_lt hm hlt
      refine ⟨0, buf, drain_of_decode_none hdec, rfl, ?_⟩
      refine ⟨?_, fun m' rest h ↦ ?_⟩
      · rw [List.drop_zero, stream_cons]
        exact hbuf
      · rw [List.drop_zero, List.cons.injEq] at h
        rw [← h.1]
        exact hlt
    · -- the first frame is whole: it is taken off, and the rest is a prefix of the others
      obtain ⟨buf', rfl⟩ :=
        List.prefix_of_prefix_length_le (List.prefix_append _ _) hbuf (by omega)
      have hbuf' : buf' <+: stream ms := (List.prefix_append_right_inj _).mp hbuf
      obtain ⟨j, rest, hdrain, hsplit, hpending⟩ :=
        drain_prefix (fun m' hm' ↦ hms m' (List.mem_cons_of_mem m hm')) hbuf'
      refine ⟨j + 1, rest, ?_, ?_, hpending⟩
      · rw [drain_of_decode_some (decode_encode hm buf'), hdrain]
        rfl
      · rw [List.take_succ_cons, stream_cons, hsplit, List.append_assoc]

/-- **Chunk after chunk.** From a pending buffer, chunks that bring the rest of the stream are read
back as its frames, and leave nothing behind. -/
theorem receive_pending :
    ∀ (chunks : List Bytes) {buf : Bytes} {ms : List ChannelBuffer}, (∀ m ∈ ms, Valid m) →
      Pending buf ms → buf ++ chunks.flatten = stream ms → receive buf chunks = .ok ([], ms)
  | [], buf, ms, _, hpending, hstream => by
    rw [List.flatten_nil, List.append_nil] at hstream
    -- the buffer is the whole rest of the stream, and holds no frame whole: nothing is left
    cases ms with
    | nil =>
      rw [stream_nil] at hstream
      rw [hstream]
      rfl
    | cons m ms =>
      have hlt := hpending.2 m ms rfl
      rw [hstream, stream_cons, List.length_append] at hlt
      omega
  | chunk :: chunks, buf, ms, hms, hpending, hstream => by
    have hprefix : buf ++ chunk <+: stream ms := by
      rw [← hstream, List.flatten_cons, ← List.append_assoc]
      exact List.prefix_append _ _
    obtain ⟨j, rest, hdrain, hsplit, hrest⟩ := drain_prefix hms hprefix
    -- what stays in the buffer, and the chunks still to come, are the frames not yet read
    have hrest_stream : rest ++ chunks.flatten = stream (ms.drop j) := by
      have hboth : stream (ms.take j) ++ (rest ++ chunks.flatten) =
          stream (ms.take j) ++ stream (ms.drop j) := by
        rw [← List.append_assoc, ← hsplit, stream_take_append_drop, ← hstream, List.flatten_cons,
          List.append_assoc]
      exact List.append_cancel_left hboth
    have hnext := receive_pending chunks
      (fun m hm ↦ hms m (List.mem_of_mem_drop hm)) hrest hrest_stream
    rw [receive, hdrain, except_ok_bind]
    simp only [hnext, except_ok_bind, except_pure_eq, List.take_append_drop]

/-- **The codec reads back what it wrote.** For frames with version at most 2, `ctrl` at most 1
and `len` the body's length, cutting the concatenation of their encodings into chunks in any way
and delivering them one after another, each followed by `decode` until it returns no frame, reads
back exactly those frames in order, never panics, and leaves the buffer empty. -/
theorem receive_encoded (ms : List ChannelBuffer)
    (hms : ∀ m ∈ ms, m.head.ver ≤ Version.v2.value ∧ m.head.ctrl ≤ 1 ∧
      m.head.len.toNat = m.body.length)
    (chunks : List Bytes) (hchunks : chunks.flatten = (ms.map fun m ↦ encode m []).flatten) :
    receive [] chunks = .ok ([], ms) := by
  have hstream : [] ++ chunks.flatten = stream ms := by
    rw [List.nil_append, hchunks, stream, List.flatMap_def]
  refine receive_pending chunks hms ⟨List.nil_prefix, fun m rest _ ↦ ?_⟩ hstream
  rw [List.length_nil, length_encode, headerLength]
  omega

end Decode

/-! ## A run

The run reads its headers with `bincodeBigEndian`. -/

attribute [local instance] bincodeBigEndian

/-- Two frames, the first cut across all three chunks. -/
theorem receive_two_frames_in_three_chunks :
    receive [] [[0, 2, 1], [4, 0, 0, 0, 2, 7], [9, 0, 0, 0, 1, 0, 0, 0, 0]] =
      .ok ([], [⟨⟨2, 1, 4, 2⟩, [7, 9]⟩, ⟨⟨0, 0, 1, 0⟩, []⟩]) :=
  receive_encoded _ (by decide) _ (by decide)

end P2p

end AionR
