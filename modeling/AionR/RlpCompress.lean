import AionR.Rlp.RoundTrip
import Mathlib.Data.List.AList

/-!
# RLP compression

`rlp_compress` (`src/util/rlp_compress/src/lib.rs`) shrinks the RLP of snapshots and blocks by
replacing common byte strings, such as the RLP of `BLAKE2B_NULL_RLP`, with two-byte tokens
`0x81, k` for `k < 0x7f`. The stream never writes such a token, since it writes a byte below
`0x80` as itself. `compress` walks the RLP, replacing each string item found in the swapper's
table and rebuilding each list around its compressed items with `RlpStream`; `decompress` walks
it back the same way.

## Model

The swapper's two hash maps are association lists. `compress` and `decompress` recurse through
`map_rlp` into the items of a list, each shorter than the list (`length_lt_of_mem_iter`), which is
the measure of their recursion.

## Main results

For a swapper whose compressed forms are tokens, each no longer than what it stands for and read
back by the other map (`Swapper.Lawful`), and for every RLP item the stream writes, by induction on
the item: its compression is one item, no longer, which decompresses to it (`compresses_encode`),
and decompressing the item itself leaves it as it is (`decompress_encode_of_lawful`). Both of the
crate's swappers are lawful (`lawful_snapshotSwapper`, `lawful_blocksSwapper`), which gives
`decompress_compress`.
-/

namespace AionR

namespace RlpCompress

open Rlp

/-- `Swapper`: the common RLPs and their compressed forms, in both directions. -/
structure Swapper where
  compressedToRlp : AList (fun _ : Bytes ↦ Bytes)
  rlpToCompressed : AList (fun _ : Bytes ↦ Bytes)

/-- The maps of `Swapper::new`: each RLP paired with the compressed form at its index, as far as
the shorter table goes, inserted into both maps. -/
def Swapper.build (rlpsToSwap compressed : List Bytes) : Swapper :=
  (rlpsToSwap.zip compressed).foldl
    (fun s p ↦ ⟨s.compressedToRlp.insert p.2 p.1, s.rlpToCompressed.insert p.1 p.2⟩) ⟨∅, ∅⟩

/-- `Swapper::new`, which refuses more than `0x7e` RLPs. -/
def Swapper.new (rlpsToSwap compressed : List Bytes) : Except String Swapper :=
  if rlpsToSwap.length > 0x7e then .error "Invalid usage, only 127 RLPs can be swappable."
  else .ok (Swapper.build rlpsToSwap compressed)

/-- `Decompressor for Swapper`. -/
def Swapper.decompressed (s : Swapper) (compressed : Bytes) : Option Bytes :=
  s.compressedToRlp.lookup compressed

/-- `Compressor for Swapper`. -/
def Swapper.compressed (s : Swapper) (rlp : Bytes) : Option Bytes :=
  s.rlpToCompressed.lookup rlp

/-- `EMPTY_RLPS`: the RLP of `BLAKE2B_NULL_RLP` and of `BLAKE2B_EMPTY`. -/
def emptyRlps : List Bytes :=
  [[160, 69, 176, 207, 194, 32, 206, 236, 91, 124, 28, 98, 196, 212, 25, 61, 56, 228, 235, 164,
      142, 136, 21, 114, 156, 231, 95, 156, 10, 176, 228, 193, 192],
    [160, 14, 87, 81, 192, 38, 229, 67, 178, 232, 171, 46, 176, 96, 153, 218, 161, 209, 229,
      223, 71, 119, 143, 119, 135, 250, 171, 69, 205, 241, 47, 227, 168]]

/-- `COMMON_RLPS`: those of `EMPTY_RLPS`, the RLP of `BLAKE2B_EMPTY_LIST_RLP`, two addresses, and
256 zero bytes. -/
def commonRlps : List Bytes :=
  emptyRlps ++
    [[160, 218, 34, 59, 9, 150, 124, 91, 210, 17, 7, 67, 48, 126, 10, 246, 211, 159, 97, 114, 10,
        167, 33, 138, 100, 10, 8, 238, 209, 45, 213, 117, 199],
      [148, 50, 190, 52, 59, 148, 248, 96, 18, 77, 196, 254, 226, 120, 253, 203, 211, 140, 16, 45,
        136],
      [148, 82, 188, 68, 213, 55, 131, 9, 238, 42, 191, 21, 57, 191, 113, 222, 27, 125, 123, 227,
        181],
      List.replicate 256 0]

/-- `INVALID_RLPS`: `0x81, 0x0` to `0x81, 0x7e`. -/
def invalidRlps : List Bytes := (List.range 0x7f).map fun k ↦ [0x81, k.toUInt8]

/-- `SNAPSHOT_SWAPPER`, as `snapshot_swapper()` returns it. -/
def snapshotSwapper : Except String Swapper := Swapper.new emptyRlps invalidRlps

/-- `BLOCKS_SWAPPER`, as `blocks_swapper()` returns it. -/
def blocksSwapper : Except String Swapper := Swapper.new commonRlps invalidRlps

/-- `map_rlp`: a stream begun as a list of `item_count` items, to which the bytes `f` gives for
each item of `rlp` are appended raw, one item each. `item_count` counts the items `iter` yields, so
the list is finished by the last append. -/
def mapRlp (rlp : UntrustedRlp) (f : (r : UntrustedRlp) → r ∈ rlp.iter → Bytes) : Bytes :=
  encodeListPayload (rlp.iter.attach.map fun r ↦ f r.1 r.2).flatten

/-- `compress`: a string item found in the table is replaced by its compressed form, and a list is
rebuilt around its compressed items. -/
def compress (c : Bytes) (swapper : Swapper) : Bytes :=
  if (UntrustedRlp.mk c).isData then ((swapper.compressed c).getD c)
  else mapRlp ⟨c⟩ fun r _hr ↦ compress r.asRaw swapper
termination_by c.length
decreasing_by exact length_lt_of_mem_iter _hr

/-- `decompress`: the same walk, reading compressed forms back. -/
def decompress (c : Bytes) (swapper : Swapper) : Bytes :=
  if (UntrustedRlp.mk c).isData then ((swapper.decompressed c).getD c)
  else mapRlp ⟨c⟩ fun r _hr ↦ decompress r.asRaw swapper
termination_by c.length
decreasing_by exact length_lt_of_mem_iter _hr

/-! ## Tokens and lawful swappers -/

/-- A compressed form: `0x81` followed by a byte below `0x80`, which the stream would write as
itself. -/
def isToken : Bytes → Bool
  | [a, b] => a == 0x81 && b < 0x80
  | _ => false

/-- What `compress` and `decompress` need of a swapper: every key of `compressed_to_rlp` is a
token, and every compressed form is a token no longer than its RLP, which it reads back as. -/
def Swapper.Lawful (s : Swapper) : Prop :=
  (∀ e ∈ s.compressedToRlp.entries, isToken e.1 = true) ∧
    ∀ e ∈ s.rlpToCompressed.entries,
      isToken e.2 = true ∧ e.2.length ≤ e.1.length ∧ s.compressedToRlp.lookup e.2 = some e.1

instance (s : Swapper) : Decidable s.Lawful := inferInstanceAs (Decidable (_ ∧ _))

/-- The snapshot swapper's table is short enough: its static does not panic. -/
theorem snapshotSwapper_eq : snapshotSwapper = .ok (Swapper.build emptyRlps invalidRlps) := by
  unfold snapshotSwapper Swapper.new
  exact if_neg (by decide)

theorem blocksSwapper_eq : blocksSwapper = .ok (Swapper.build commonRlps invalidRlps) := by
  unfold blocksSwapper Swapper.new
  exact if_neg (by decide)

theorem lawful_snapshotSwapper {S : Swapper} (h : snapshotSwapper = .ok S) : S.Lawful := by
  rw [snapshotSwapper_eq, Except.ok.injEq] at h
  subst h
  decide +kernel

theorem lawful_blocksSwapper {S : Swapper} (h : blocksSwapper = .ok S) : S.Lawful := by
  rw [blocksSwapper_eq, Except.ok.injEq] at h
  subst h
  decide +kernel

theorem Swapper.Lawful.decompressed_eq_none {s : Swapper} (hs : s.Lawful) {c : Bytes}
    (hc : isToken c = false) : s.decompressed c = none := by
  cases hlook : s.compressedToRlp.lookup c with
  | none => exact hlook
  | some rlp =>
    have := hs.1 ⟨c, rlp⟩ (AList.mem_lookup_iff.mp hlook)
    rw [hc] at this
    cases this

theorem Swapper.Lawful.of_compressed {s : Swapper} (hs : s.Lawful) {rlp c : Bytes}
    (hc : s.compressed rlp = some c) :
    isToken c = true ∧ c.length ≤ rlp.length ∧ s.decompressed c = some rlp :=
  hs.2 ⟨rlp, c⟩ (AList.mem_lookup_iff.mp hc)

/-- A string the stream writes is never a token: it writes a byte below `0x80` as itself. -/
theorem isToken_encodeValue (value : Bytes) : isToken (encodeValue value) = false := by
  rcases value with _ | ⟨b, _ | ⟨b₂, rest⟩⟩
  · rfl
  · by_cases hb : b < 0x80
    · rw [encodeValue_of_isSingleByte ⟨b, rfl, hb⟩]
      rfl
    · show isToken (if b < 0x80 then [b] else [0x81, b]) = false
      rw [if_neg hb]
      simp [isToken, hb]
  · -- two bytes or more: a header and at least two more bytes
    have hlen : (encodeValue (b :: b₂ :: rest)).length ≠ 2 := by
      rw [encodeValue_of_not_isSingleByte (by rintro ⟨_, h, _⟩; cases h), List.length_append]
      have := length_lengthHeader_pos 0x80 (b :: b₂ :: rest).length
      have h2 : 2 ≤ (b :: b₂ :: rest).length := by simp
      omega
    rcases hcode : encodeValue (b :: b₂ :: rest) with _ | ⟨x, _ | ⟨y, _ | ⟨z, tail⟩⟩⟩
    · rfl
    · rfl
    · rw [hcode] at hlen
      exact absurd rfl hlen
    · rfl

theorem isData_token {c : Bytes} (hc : isToken c = true) : (UntrustedRlp.mk c).isData = true := by
  match c, hc with
  | [a, b], hc =>
    simp only [isToken, Bool.and_eq_true, beq_iff_eq] at hc
    rw [hc.1]
    rfl

theorem isItem_token {c : Bytes} (hc : isToken c = true) : IsItem c := by
  match c, hc with
  | [a, b], hc =>
    simp only [isToken, Bool.and_eq_true, beq_iff_eq] at hc
    intro rest
    refine ⟨⟨1, 1⟩, ?_, rfl⟩
    rw [hc.1, payloadInfo, List.cons_append, payloadInfoFrom_cons]
    simp [PayloadInfo.total]

/-! ## One step of the walk -/

theorem compress_of_isData {c : Bytes} (h : (UntrustedRlp.mk c).isData = true) (S : Swapper) :
    compress c S = (S.compressed c).getD c := by
  rw [compress, if_pos h]

theorem compress_of_not_isData {c : Bytes} (h : (UntrustedRlp.mk c).isData = false)
    (S : Swapper) :
    compress c S = encodeListPayload ((UntrustedRlp.mk c).iter.map fun r ↦ compress r.bytes S).flatten := by
  rw [compress, if_neg (by rw [h]; decide), mapRlp,
    @List.attach_map_val _ _ _ fun r : UntrustedRlp ↦ compress r.asRaw S]
  rfl

theorem decompress_of_isData {c : Bytes} (h : (UntrustedRlp.mk c).isData = true) (S : Swapper) :
    decompress c S = (S.decompressed c).getD c := by
  rw [decompress, if_pos h]

theorem decompress_of_not_isData {c : Bytes} (h : (UntrustedRlp.mk c).isData = false)
    (S : Swapper) :
    decompress c S =
      encodeListPayload ((UntrustedRlp.mk c).iter.map fun r ↦ decompress r.bytes S).flatten := by
  rw [decompress, if_neg (by rw [h]; decide), mapRlp,
    @List.attach_map_val _ _ _ fun r : UntrustedRlp ↦ decompress r.asRaw S]
  rfl

/-- `compress` rebuilds a list around its compressed items. -/
theorem compress_encodeListPayload {parts : List Bytes} (hparts : ∀ p ∈ parts, IsItem p)
    (hlt : parts.flatten.length < 2 ^ 32) (S : Swapper) :
    compress (encodeListPayload parts.flatten) S =
      encodeListPayload (parts.map fun p ↦ compress p S).flatten := by
  rw [compress_of_not_isData (isData_encodeListPayload _), iter_encodeListPayload hparts hlt,
    List.map_map]
  rfl

theorem decompress_encodeListPayload {parts : List Bytes} (hparts : ∀ p ∈ parts, IsItem p)
    (hlt : parts.flatten.length < 2 ^ 32) (S : Swapper) :
    decompress (encodeListPayload parts.flatten) S =
      encodeListPayload (parts.map fun p ↦ decompress p S).flatten := by
  rw [decompress_of_not_isData (isData_encodeListPayload _), iter_encodeListPayload hparts hlt,
    List.map_map]
  rfl

/-! ## The walk over an item the stream wrote -/

/-- Compressing a list's items one by one shortens their concatenation, if anything. -/
theorem length_flatten_map_le {l : List RlpItem} {f g : RlpItem → Bytes}
    (h : ∀ x ∈ l, (f x).length ≤ (g x).length) :
    (l.map f).flatten.length ≤ (l.map g).flatten.length := by
  induction l with
  | nil => simp
  | cons x l ih =>
    simp only [List.map_cons, List.flatten_cons, List.length_append]
    have hx := h x List.mem_cons_self
    have hl := ih fun y hy ↦ h y (List.mem_cons_of_mem x hy)
    omega

variable {S : Swapper}

/-- What compressing an item the stream wrote gives: one whole item, no longer than the item, which
decompresses to it. -/
def Compresses (S : Swapper) (item : RlpItem) : Prop :=
  IsItem (compress item.encode S) ∧ (compress item.encode S).length ≤ item.encode.length ∧
    decompress (compress item.encode S) S = item.encode

/-- A string: replaced by its token, which reads back as it, or kept, since no string the stream
writes is a token. -/
theorem compresses_data (hS : S.Lawful) (value : Bytes)
    (hlt : (RlpItem.data value).encode.length < 2 ^ 32) : Compresses S (.data value) := by
  rw [Compresses, compress_of_isData (by rw [RlpItem.encode_data]; exact isData_encodeValue value)]
  cases hc : S.compressed (RlpItem.data value).encode with
  | some token =>
    obtain ⟨htoken, hle, hback⟩ := hS.of_compressed hc
    refine ⟨isItem_token htoken, hle, ?_⟩
    rw [Option.getD_some, decompress_of_isData (isData_token htoken), hback, Option.getD_some]
  | none =>
    have hkeep : S.decompressed (RlpItem.data value).encode = none := by
      rw [RlpItem.encode_data]
      exact hS.decompressed_eq_none (isToken_encodeValue value)
    refine ⟨RlpItem.isItem_encode _ hlt, le_rfl, ?_⟩
    rw [Option.getD_none, decompress_of_isData
      (by rw [RlpItem.encode_data]; exact isData_encodeValue value), hkeep, Option.getD_none]

section Lists

variable {items : List RlpItem} (hlt : (RlpItem.list items).encode.length < 2 ^ 32)
include hlt

/-- The items of a list the stream wrote, as raw parts. -/
theorem isItem_of_mem_map_encode : ∀ p ∈ items.map RlpItem.encode, IsItem p := by
  intro p hp
  obtain ⟨item, hitem, rfl⟩ := List.mem_map.mp hp
  exact RlpItem.isItem_encode item (RlpItem.encode_lt_of_mem hitem hlt)

theorem length_flatten_map_encode_lt : (items.map RlpItem.encode).flatten.length < 2 ^ 32 := by
  have := (RlpItem.list items).payload_suffix.length_le
  rw [RlpItem.payload, encodeAll_eq_flatten] at this
  omega

/-- A list: rebuilt around its compressed items, which are no longer than the items, so that its
length still fits the stream's `u32` and decompression finds them again. -/
theorem compresses_list (hitems : ∀ item ∈ items, Compresses S item) :
    Compresses S (.list items) := by
  have hpayload := length_flatten_map_encode_lt hlt
  -- the compressed items
  have hshorter : (items.map fun item ↦ compress item.encode S).flatten.length ≤
      (items.map RlpItem.encode).flatten.length :=
    length_flatten_map_le fun item h ↦ (hitems item h).2.1
  have hcparts : ∀ p ∈ items.map (fun item ↦ compress item.encode S), IsItem p := by
    intro p hp
    obtain ⟨item, hitem, rfl⟩ := List.mem_map.mp hp
    exact (hitems item hitem).1
  have hcompress : compress (RlpItem.list items).encode S =
      encodeListPayload (items.map fun item ↦ compress item.encode S).flatten := by
    rw [RlpItem.encode_list, encodeAll_eq_flatten,
      compress_encodeListPayload (isItem_of_mem_map_encode hlt) hpayload, List.map_map]
    rfl
  refine ⟨?_, ?_, ?_⟩
  · rw [hcompress]
    exact isItem_encodeListPayload (lt_of_le_of_lt hshorter hpayload)
  · rw [hcompress, RlpItem.encode_list, encodeAll_eq_flatten]
    exact length_encodeListPayload_le hshorter hpayload
  · rw [hcompress, decompress_encodeListPayload hcparts (lt_of_le_of_lt hshorter hpayload),
      List.map_map, RlpItem.encode_list, encodeAll_eq_flatten]
    congr 2
    exact List.map_congr_left fun item h ↦ (hitems item h).2.2

/-- A list whose items decompress to themselves does too. -/
theorem decompress_list (hitems : ∀ item ∈ items, decompress item.encode S = item.encode) :
    decompress (RlpItem.list items).encode S = (RlpItem.list items).encode := by
  rw [RlpItem.encode_list, encodeAll_eq_flatten,
    decompress_encodeListPayload (isItem_of_mem_map_encode hlt) (length_flatten_map_encode_lt hlt),
    List.map_map]
  congr 2
  exact List.map_congr_left fun item h ↦ hitems item h

end Lists

/-- No string the stream writes is a token, so decompression leaves it. -/
theorem decompress_data (hS : S.Lawful) (value : Bytes) :
    decompress (RlpItem.data value).encode S = (RlpItem.data value).encode := by
  rw [RlpItem.encode_data, decompress_of_isData (isData_encodeValue value),
    hS.decompressed_eq_none (isToken_encodeValue value), Option.getD_none]

mutual

/-- Every item the stream wrote compresses, by induction on the item. -/
theorem compresses_encode (hS : S.Lawful) :
    ∀ item : RlpItem, item.encode.length < 2 ^ 32 → Compresses S item
  | .data value, hlt => compresses_data hS value hlt
  | .list items, hlt =>
    compresses_list hlt (compresses_encodeAll hS items fun _ h ↦ RlpItem.encode_lt_of_mem h hlt)

theorem compresses_encodeAll (hS : S.Lawful) :
    ∀ items : List RlpItem, (∀ item ∈ items, item.encode.length < 2 ^ 32) →
      ∀ item ∈ items, Compresses S item
  | [], _ => fun _ h ↦ absurd h List.not_mem_nil
  | x :: xs, hlt =>
    List.forall_mem_cons.mpr ⟨compresses_encode hS x (hlt x List.mem_cons_self),
      compresses_encodeAll hS xs fun y hy ↦ hlt y (List.mem_cons_of_mem x hy)⟩

end

mutual

/-- Decompression leaves every item the stream wrote as it is, by induction on the item. -/
theorem decompress_encode_of_lawful (hS : S.Lawful) :
    ∀ item : RlpItem, item.encode.length < 2 ^ 32 → decompress item.encode S = item.encode
  | .data value, _ => decompress_data hS value
  | .list items, hlt =>
    decompress_list hlt
      (decompress_encodeAll_of_lawful hS items fun _ h ↦ RlpItem.encode_lt_of_mem h hlt)

theorem decompress_encodeAll_of_lawful (hS : S.Lawful) :
    ∀ items : List RlpItem, (∀ item ∈ items, item.encode.length < 2 ^ 32) →
      ∀ item ∈ items, decompress item.encode S = item.encode
  | [], _ => fun _ h ↦ absurd h List.not_mem_nil
  | x :: xs, hlt =>
    List.forall_mem_cons.mpr ⟨decompress_encode_of_lawful hS x (hlt x List.mem_cons_self),
      decompress_encodeAll_of_lawful hS xs fun y hy ↦ hlt y (List.mem_cons_of_mem x hy)⟩

end

/-- **Compression round-trips.** For either of the crate's swappers and every RLP item the stream
writes, decompressing its compression gives it back, and decompressing it leaves it as it is. -/
theorem decompress_compress (S : Swapper) (hS : snapshotSwapper = .ok S ∨ blocksSwapper = .ok S)
    (item : RlpItem) (hlt : item.encode.length < 2 ^ 32) :
    decompress (compress item.encode S) S = item.encode ∧ decompress item.encode S = item.encode := by
  have hlawful : S.Lawful := hS.elim lawful_snapshotSwapper lawful_blocksSwapper
  exact ⟨(compresses_encode hlawful item hlt).2.2, decompress_encode_of_lawful hlawful item hlt⟩

/-- The account of the crate's `simple_compression` test without its code hash: nonce 4, balance
2, and the storage root `BLAKE2B_NULL_RLP`, whose RLP the snapshot swapper compresses. -/
def testAccount : RlpItem := .list [.data [4], .data [2], .data ((emptyRlps.headD []).drop 1)]

theorem decompress_compress_testAccount :
    ∃ S, snapshotSwapper = .ok S ∧
      decompress (compress testAccount.encode S) S = testAccount.encode ∧
        decompress testAccount.encode S = testAccount.encode :=
  ⟨_, snapshotSwapper_eq, decompress_compress _ (.inl snapshotSwapper_eq) _ (by decide)⟩

end RlpCompress

end AionR
