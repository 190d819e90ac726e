import AionR.Lib.HexPrefix
import AionR.Lib.Checked
import AionR.Lib.Except

/-!
# Nibble slices and their hex-prefix encoding

`NibbleSlice` (`src/util/patricia_trie/src/nibbleslice.rs`) is a view of a byte string as nibbles
from a nibble offset, optionally followed by a second such view; the trie encodes a node's partial
key with `encoded` and reads it back with `from_encoded`. `hex_prefix_encode`
(`src/util/triehash/src/lib.rs`) is the same encoding as the trie root computation writes it.

## Model

Indexing a byte slice panics out of bounds, so `at` and the encoders run in `Checked`. The `u8`
arithmetic is `UInt8`: its operands are nibbles, below 16, so no sum or product reaches 256. The
two encoders of a slice, `encoded` and `encoded_leftmost`, differ only in the number of nibbles
they encode: both are `encodePrefix`.

## Main results

A slice whose offsets lie within their bytes yields its `contents` (`nibbles_eq`): the nibbles of
its data from the offset, then those of its suffix. Both of its encoders and `hex_prefix_encode`
give the abstract `hexPrefix` of those nibbles (`encoded_eq`, `encodedLeftmost_eq`,
`hexPrefixEncode_eq`), and `from_encoded` reads them back with the leaf flag
(`fromEncoded_hexPrefix`).
-/

namespace AionR

/-- `NibbleSlice`: nibbles of `data` from `offset`, then those of `dataEncodeSuffix` from
`offsetEncodeSuffix`. -/
structure NibbleSlice where
  data : Bytes
  offset : ℕ
  dataEncodeSuffix : Bytes
  offsetEncodeSuffix : ℕ
  deriving DecidableEq, Repr

namespace NibbleSlice

/-- `new_offset`. -/
def newOffset (data : Bytes) (offset : ℕ) : NibbleSlice := ⟨data, offset, [], 0⟩

/-- `new`. -/
def new (data : Bytes) : NibbleSlice := newOffset data 0

/-- `new_composed`: the nibbles of `a`, then those of `b`. -/
def newComposed (a b : NibbleSlice) : NibbleSlice := ⟨a.data, a.offset, b.data, b.offset⟩

variable (s : NibbleSlice)

/-- `len`. -/
def len : ℕ := (s.data.length + s.dataEncodeSuffix.length) * 2 - s.offset - s.offsetEncodeSuffix

/-- The nibble at nibble position `p` of `bytes`: the low half of byte `p / 2` at an odd position,
the high half at an even one. -/
def nibbleAt (bytes : Bytes) (p : ℕ) : Checked UInt8 :=
  if p &&& 1 = 1 then (fun (b : UInt8) ↦ b &&& 15) <$> Checked.index bytes (p / 2)
  else (fun (b : UInt8) ↦ b >>> 4) <$> Checked.index bytes (p / 2)

/-- `at`. -/
def at' (i : ℕ) : Checked UInt8 :=
  let l := s.data.length * 2 - s.offset
  if i < l then nibbleAt s.data (s.offset + i)
  else nibbleAt s.dataEncodeSuffix (s.offsetEncodeSuffix + (i - l))

/-- The nibbles of the slice, as `iter` yields them. -/
def nibbles : Checked (List UInt8) := (List.range s.len).mapM s.at'

/-- `from_encoded`: bit 4 of the first byte tells whether one nibble or two precede the key, and
bit 5 whether the node is a leaf. -/
def fromEncoded (data : Bytes) : Checked (NibbleSlice × Bool) := do
  let first ← Checked.index data 0
  return (newOffset data (if first &&& 16 = 16 then 1 else 2), first &&& 32 = 32)

/-- The body shared by `encoded` and `encoded_leftmost`: the hex-prefix encoding of the first `l`
nibbles. -/
def encodePrefix (l : ℕ) (isLeaf : Bool) : Checked Bytes := do
  let i := l % 2
  let first ← if i = 1 then (0x10 + ·) <$> s.at' 0 else pure 0
  -- `while i < l { r.push(at(i) * 16 + at(i + 1)); i += 2 }`
  let rest ← (List.range' i (l / 2) 2).mapM fun j ↦ do return (← s.at' j) * 16 + (← s.at' (j + 1))
  return (first + if isLeaf then 0x20 else 0) :: rest

/-- `encoded`. -/
def encoded (isLeaf : Bool) : Checked Bytes := s.encodePrefix s.len isLeaf

/-- `encoded_leftmost`. -/
def encodedLeftmost (n : ℕ) (isLeaf : Bool) : Checked Bytes := s.encodePrefix (min s.len n) isLeaf

end NibbleSlice

/-- `triehash::hex_prefix_encode`. -/
def hexPrefixEncode (nibbles : List UInt8) (leaf : Bool) : Checked Bytes := do
  let inlen := nibbles.length
  let oddnessFactor := inlen % 2
  let bits : UInt8 := ((inlen.toUInt8 &&& 1) + 2 * (if leaf then 1 else 0)) <<< 4
  let firstByte ← if oddnessFactor = 1 then (bits + ·) <$> Checked.index nibbles 0 else pure bits
  let rest ← (List.range' oddnessFactor (inlen / 2) 2).mapM fun offset ↦ do
    return ((← Checked.index nibbles offset) <<< 4) + (← Checked.index nibbles (offset + 1))
  return firstByte :: rest

/-! ## The nibbles a slice stands for -/

namespace NibbleSlice

variable (s : NibbleSlice)

/-- The nibbles of the data from the offset, followed by those of the suffix from its offset. -/
def contents : List UInt8 :=
  (nibblesOf s.data).drop s.offset ++ (nibblesOf s.dataEncodeSuffix).drop s.offsetEncodeSuffix

/-- Both offsets lie within their bytes, so that no length of the source underflows. -/
def WellFormed : Prop :=
  s.offset ≤ 2 * s.data.length ∧ s.offsetEncodeSuffix ≤ 2 * s.dataEncodeSuffix.length

instance : Decidable s.WellFormed := inferInstanceAs (Decidable (_ ∧ _))

theorem wellFormed_newOffset {data : Bytes} {offset : ℕ} (h : offset ≤ 2 * data.length) :
    (newOffset data offset).WellFormed :=
  ⟨h, Nat.zero_le _⟩

@[simp] theorem contents_newOffset (data : Bytes) (offset : ℕ) :
    (newOffset data offset).contents = (nibblesOf data).drop offset := by
  simp [contents, newOffset]

theorem length_contents {s : NibbleSlice} (hs : s.WellFormed) : s.contents.length = s.len := by
  obtain ⟨h₁, h₂⟩ := hs
  simp only [contents, len, List.length_append, List.length_drop, length_nibblesOf]
  omega

theorem lt_sixteen_of_mem_contents {x : UInt8} (hx : x ∈ s.contents) : x < 16 := by
  rcases List.mem_append.mp hx with hx | hx
  · exact lt_sixteen_of_mem_nibblesOf (List.mem_of_mem_drop hx)
  · exact lt_sixteen_of_mem_nibblesOf (List.mem_of_mem_drop hx)

theorem nibbleAt_of_getElem? {bytes : Bytes} {p : ℕ} {x : UInt8}
    (h : (nibblesOf bytes)[p]? = some x) : nibbleAt bytes p = .ok x := by
  rw [getElem?_nibblesOf] at h
  obtain ⟨b, hb, rfl⟩ := Option.map_eq_some_iff.mp h
  have hidx : Checked.index bytes (p / 2) = .ok b := by simp [Checked.index, hb]
  unfold nibbleAt
  rw [hidx, Nat.and_one_is_mod]
  split_ifs <;> rfl

/-- `at` reads the slice's contents: from the data below its nibble count there, from the suffix
above. -/
theorem at'_of_getElem? {s : NibbleSlice} {i : ℕ} {x : UInt8}
    (h : s.contents[i]? = some x) : s.at' i = .ok x := by
  have hl : ((nibblesOf s.data).drop s.offset).length = s.data.length * 2 - s.offset := by
    rw [List.length_drop, length_nibblesOf, Nat.mul_comm]
  unfold at'
  unfold contents at h
  dsimp only
  split_ifs with hi
  · rw [List.getElem?_append_left (by omega), List.getElem?_drop] at h
    exact nibbleAt_of_getElem? h
  · rw [List.getElem?_append_right (by omega), List.getElem?_drop, hl] at h
    exact nibbleAt_of_getElem? h

/-! ## The loops over positions -/

/-- A loop reading every position of `xs` reads `xs`. -/
theorem mapM_range_of_getElem? {f : ℕ → Checked UInt8} {xs : List UInt8}
    (hf : ∀ i x, xs[i]? = some x → f i = .ok x) : (List.range xs.length).mapM f = .ok xs := by
  rw [List.range_eq_range']
  refine mapM_range'_of_getElem f xs 0 fun j hj ↦ ?_
  rw [Nat.zero_add]
  exact hf j _ (List.getElem?_eq_getElem hj)

/-- The encoders' loop, reading the positions of `xs` two by two from `o` and packing each pair
into a byte, packs the nibbles of `xs` from `o`. -/
theorem mapM_pairs_of_getElem? {f : ℕ → Checked UInt8} {xs : List UInt8}
    (hf : ∀ i x, xs[i]? = some x → f i = .ok x) :
    ∀ k o, o + 2 * k = xs.length →
      (List.range' o k 2).mapM (fun j ↦ do return (← f j) * 16 + (← f (j + 1))) =
        .ok (packNibbles (xs.drop o)) := by
  intro k
  induction k with
  | zero =>
    intro o ho
    rw [Nat.mul_zero, Nat.add_zero] at ho
    subst ho
    rw [List.range'_zero, List.mapM_nil, List.drop_length]
    rfl
  | succ k ih =>
    intro o ho
    -- the pair at `o` and `o + 1`, then the rest from `o + 2`
    have ho₀ : o < xs.length := by omega
    have ho₁ : o + 1 < xs.length := by omega
    rw [List.range'_succ, List.mapM_cons, List.drop_eq_getElem_cons ho₀,
      List.drop_eq_getElem_cons ho₁, packNibbles,
      hf o _ (List.getElem?_eq_getElem ho₀), hf (o + 1) _ (List.getElem?_eq_getElem ho₁)]
    simp only [except_ok_bind]
    rw [ih (o + 2) (by omega)]
    rfl

/-! ## The encoders -/

/-- The first `l` nibbles of a well-formed slice are encoded as their hex-prefix encoding. -/
theorem encodePrefix_eq {s : NibbleSlice} (hs : s.WellFormed) {l : ℕ} (hl : l ≤ s.len)
    (isLeaf : Bool) : s.encodePrefix l isLeaf = .ok (hexPrefix (s.contents.take l) isLeaf) := by
  have hlen : (s.contents.take l).length = l := by
    rw [List.length_take, length_contents hs]
    omega
  have hf : ∀ i x, (s.contents.take l)[i]? = some x → s.at' i = .ok x := by
    intro i x h
    rw [List.getElem?_take] at h
    split_ifs at h
    exact at'_of_getElem? h
  unfold encodePrefix hexPrefix
  dsimp only
  rw [hlen]
  by_cases hodd : l % 2 = 1
  · -- an odd count: the first nibble goes into the first byte, the pairs start at `1`
    obtain ⟨n, tail, hnt⟩ : ∃ n tail, s.contents.take l = n :: tail :=
      List.exists_cons_of_ne_nil (by rintro h; rw [h, List.length_nil] at hlen; omega)
    have h₀ : s.at' 0 = .ok n := hf 0 n (by rw [hnt]; rfl)
    simp only [if_pos hodd]
    rw [h₀, hodd, mapM_pairs_of_getElem? hf (l / 2) 1 (by rw [hlen]; omega), hnt]
    rfl
  · simp only [if_neg hodd]
    rw [show l % 2 = 0 by omega, mapM_pairs_of_getElem? hf (l / 2) 0 (by rw [hlen]; omega)]
    simp only [except_pure_eq, except_ok_bind, List.drop_zero, UInt8.zero_add, leafFlag]

/-- Iterating a well-formed slice yields its contents. -/
theorem nibbles_eq {s : NibbleSlice} (hs : s.WellFormed) : s.nibbles = .ok s.contents := by
  unfold nibbles
  rw [← length_contents hs]
  exact mapM_range_of_getElem? fun _ _ h ↦ at'_of_getElem? h

theorem encoded_eq {s : NibbleSlice} (hs : s.WellFormed) (isLeaf : Bool) :
    s.encoded isLeaf = .ok (hexPrefix s.contents isLeaf) := by
  rw [encoded, encodePrefix_eq hs le_rfl, ← length_contents hs, List.take_length]

example : (newOffset [0x01, 0x23, 0x45] 1).encoded true = .ok [0x31, 0x23, 0x45] := by decide

theorem encodedLeftmost_eq {s : NibbleSlice} (hs : s.WellFormed) (n : ℕ) (isLeaf : Bool) :
    s.encodedLeftmost n isLeaf = .ok (hexPrefix (s.contents.take n) isLeaf) := by
  have htake : s.contents.take (min s.len n) = s.contents.take n := by
    rw [List.take_eq_take_iff, length_contents hs]
    omega
  rw [encodedLeftmost, encodePrefix_eq hs (min_le_left _ _), htake]

/-- `from_encoded` reads a hex-prefix encoding back: a slice over the encoding holding exactly the
encoded nibbles, and the leaf flag. -/
theorem fromEncoded_hexPrefix {ns : List UInt8} (hns : ∀ x ∈ ns, x < 16) (leaf : Bool) :
    ∃ t, fromEncoded (hexPrefix ns leaf) = .ok (t, leaf) ∧ t.WellFormed ∧ t.contents = ns := by
  obtain ⟨x, rest, henc, h32, hdrop⟩ := hexPrefix_decode hns leaf
  have hflag : decide (x &&& 32 = 32) = leaf := Bool.eq_iff_iff.mpr (decide_eq_true_iff.trans h32)
  refine ⟨newOffset (x :: rest) (if x &&& 16 = 16 then 1 else 2), ?_, ?_, ?_⟩
  · rw [henc, fromEncoded, Checked.index_of_lt (by simp), List.getElem_cons_zero, ← hflag]
    rfl
  · apply wellFormed_newOffset
    rw [List.length_cons]
    split_ifs <;> omega
  · rw [contents_newOffset, ← henc, hdrop]

end NibbleSlice

/-! ## The trie root computation's encoder -/

theorem toUInt8_and_one (n : ℕ) : n.toUInt8 &&& 1 = if n % 2 = 1 then 1 else 0 := by
  apply UInt8.toNat_inj.mp
  rw [UInt8.toNat_and, Nat.toUInt8_eq, UInt8.toNat_ofNat', show UInt8.toNat 1 = 1 from rfl,
    Nat.and_one_is_mod]
  split_ifs with h
  · show _ = 1
    omega
  · show _ = 0
    omega

/-- The first byte `hex_prefix_encode` writes for an odd count: the parity bit, the leaf bit and the
first nibble. -/
theorem oddFirstByte_eq (n : UInt8) (leaf : Bool) :
    (1 + 2 * (if leaf = true then 1 else 0) : UInt8) * 16 + n = 0x10 + n + leafFlag leaf := by
  cases leaf <;> simp only [leafFlag] <;> grind

/-- `hex_prefix_encode` is the hex-prefix encoding. -/
theorem hexPrefixEncode_eq (nibbles : List UInt8) (leaf : Bool) :
    hexPrefixEncode nibbles leaf = .ok (hexPrefix nibbles leaf) := by
  have hf : ∀ i x, nibbles[i]? = some x → Checked.index nibbles i = .ok x := by
    intro i x h
    simp [Checked.index, h]
  unfold hexPrefixEncode hexPrefix
  simp only [shiftLeft_four, toUInt8_and_one]
  by_cases hodd : nibbles.length % 2 = 1
  · -- the parity bit is set, and the first nibble is added into the first byte
    obtain ⟨n, tail, hnt⟩ : ∃ n tail, nibbles = n :: tail :=
      List.exists_cons_of_ne_nil (by rintro rfl; simp at hodd)
    have h₀ : Checked.index nibbles 0 = .ok n := hf 0 n (by rw [hnt]; rfl)
    simp only [if_pos hodd]
    rw [h₀, hodd, NibbleSlice.mapM_pairs_of_getElem? hf (nibbles.length / 2) 1 (by omega), hnt,
      List.drop_one, List.headD_cons]
    simp only [except_map_ok, except_ok_bind, except_pure_eq, oddFirstByte_eq]
  · simp only [if_neg hodd]
    rw [show nibbles.length % 2 = 0 by omega, NibbleSlice.mapM_pairs_of_getElem? hf _ 0 (by omega),
      List.drop_zero]
    cases leaf <;> rfl

namespace NibbleSlice

/-- A slice over any bytes from any offset within them: `from_encoded` reads its encoding back as
its nibbles and its leaf flag, `encoded_leftmost n` encodes its first `min n len` nibbles, and
`encoded` agrees with the trie root computation's `hex_prefix_encode`. -/
theorem encoded_roundTrip_agrees_with_hexPrefixEncode (data : Bytes) (offset : ℕ)
    (hoff : offset ≤ 2 * data.length) (leaf : Bool) (n : ℕ) :
    ∃ ns enc, (newOffset data offset).nibbles = .ok ns ∧ ns = (nibblesOf data).drop offset ∧
      (newOffset data offset).encoded leaf = .ok enc ∧
      (∃ t, fromEncoded enc = .ok (t, leaf) ∧ t.nibbles = .ok ns) ∧
      (newOffset data offset).encodedLeftmost n leaf =
        hexPrefixEncode (ns.take (min n (newOffset data offset).len)) leaf ∧
      (newOffset data offset).encoded leaf = hexPrefixEncode ns leaf := by
  have hs := wellFormed_newOffset hoff
  obtain ⟨t, hdec, ht, hcont⟩ :=
    fromEncoded_hexPrefix (fun x hx ↦ lt_sixteen_of_mem_contents _ hx) leaf
  refine ⟨_, _, nibbles_eq hs, contents_newOffset data offset, encoded_eq hs leaf,
    ⟨t, hdec, by rw [nibbles_eq ht, hcont]⟩, ?_, ?_⟩
  · have htake : (newOffset data offset).contents.take (min n (newOffset data offset).len) =
        (newOffset data offset).contents.take n := by
      rw [List.take_eq_take_iff, length_contents hs]
      omega
    rw [encodedLeftmost_eq hs, hexPrefixEncode_eq, htake]
  · rw [encoded_eq hs, hexPrefixEncode_eq]

theorem encoded_roundTrip_at_odd_offset :
    ∃ ns enc, (newOffset [0x01, 0x23, 0x45] 3).nibbles = .ok ns ∧
      ns = (nibblesOf [0x01, 0x23, 0x45]).drop 3 ∧
      (newOffset [0x01, 0x23, 0x45] 3).encoded true = .ok enc ∧
      (∃ t, fromEncoded enc = .ok (t, true) ∧ t.nibbles = .ok ns) ∧
      (newOffset [0x01, 0x23, 0x45] 3).encodedLeftmost 2 true =
        hexPrefixEncode (ns.take (min 2 (newOffset [0x01, 0x23, 0x45] 3).len)) true ∧
      (newOffset [0x01, 0x23, 0x45] 3).encoded true = hexPrefixEncode ns true :=
  encoded_roundTrip_agrees_with_hexPrefixEncode [0x01, 0x23, 0x45] 3 (by decide) true 2

end NibbleSlice

end AionR
