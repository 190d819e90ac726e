import AionR.Lib.Bits
import Mathlib.Data.List.Nodup

/-!
# The Equihash solution validator

`EquihashValidator` (`src/util/equihash/src/lib.rs`): a solution is a bit-packed list of
`2ᵏ` indices of `collision_bit_length + 1` bits each. The validator unpacks them
(`get_indices_from_minimal`), refuses duplicates, hashes every index (`get_solution_hash`) and
walks the binary tree over the indices (`verify`), checking at each node that the left subtree
starts with the smaller index and that the XOR of the node's leaf hashes starts with enough zero
bits.

## Machine words

Indices are `i32`, unpacked from big-endian words, and compared signed, so they are `Int32`. The
accumulator of `extend_array` is shifted left past 32 bits and only its low 32 bits matter, so it
is a `UInt32`. The counters and widths derived from `n` and `k` stay far below `2³¹` for the
validator the kernel builds (`n = 210`, `k = 9`) and are natural numbers.

## Hashing

The Blake2b instance is a parameter, applied to the parameter block `get_solution_hash` builds and
to the bytes it is fed. Out-of-range writes and reads, which panic in the source, cannot happen
once the width check has passed; the model writes nothing and reads zero there.

## The Equihash condition

`EquihashCondition` states the Equihash(`n`, `k`) validity condition on unpacked indices and their
leaf hashes: distinct indices, ordered subtrees, and at each level `r < k` every subtree's XOR
starting with `r * collision_bit_length` zero bits, the whole XOR with `n`. `verify` checks
`collision_bit_length` bits at every level below the top instead.
-/

namespace AionR

namespace Equihash

/-! ## Unpacking the indices -/

/-- The loop state of `extend_array`. -/
structure ExtendState where
  accBits : ℕ
  accValue : UInt32
  j : ℕ
  output : Bytes

/-- One input byte of `extend_array`: shift it into the accumulator, and once `bitLen` bits are
there, write them out big-endian into `outWidth - bytePad` bytes after `bytePad` zero bytes. -/
def extendStep (bitLen bytePad : ℕ) (s : ExtendState) (b : UInt8) : ExtendState :=
  let outWidth := (bitLen + 7) / 8 + bytePad
  let bitLenMask : UInt32 := (1 <<< bitLen.toUInt32) - 1
  let accValue := (s.accValue <<< 8) ||| (b.toUInt32 &&& 0xff)
  let accBits := s.accBits + 8
  if accBits ≥ bitLen then
    let accBits := accBits - bitLen
    let output := (List.range' bytePad (outWidth - bytePad)).foldl (fun out x ↦
      let temp := 8 * (outWidth - x - 1)
      out.set (s.j + x) ((accValue >>> ((accBits + temp) % 32).toUInt32) &&&
        ((bitLenMask >>> (temp % 32).toUInt32) &&& 0xFF)).toUInt8) s.output
    ⟨accBits, accValue, s.j + outWidth, output⟩
  else ⟨accBits, accValue, s.j, s.output⟩

/-- `extend_array`: unpack `bitLen`-bit fields of `input` into `output`. -/
def extendArray (input output : Bytes) (bitLen bytePad : ℕ) : Bytes :=
  (input.foldl (extendStep bitLen bytePad) ⟨0, 0, 0, output⟩).output

/-- `bytes_to_i32s` on its big-endian branch, the only one the validator takes: `count` words of
four bytes. -/
def bytesToI32s (input : Bytes) (count : ℕ) : List Int32 :=
  (List.range count).map fun i ↦
    let byte (o : ℕ) : UInt32 := (input.getD (4 * i + o) 0).toUInt32
    ((byte 0 <<< 24) ||| ((byte 1 <<< 16) &&& (0x00FF0000 : UInt32)) |||
      ((byte 2 <<< 8) &&& (0x0000FF00 : UInt32)) ||| (byte 3 &&& (0x000000FF : UInt32))).toInt32

/-- `i32_to_bytes` of `i.to_le()`, and `i32_to_bytes_le`: the little-endian bytes of `i` on
either byte order. -/
def i32ToBytesLe (i : Int32) : Bytes :=
  [i.toUInt32.toUInt8, (i.toUInt32 >>> 8).toUInt8, (i.toUInt32 >>> 16).toUInt8,
    (i.toUInt32 >>> 24).toUInt8]

/-- `has_duplicate`: insert the indices one by one into a set, and report the first that is
already there. -/
def hasDuplicateFrom (seen : List Int32) : List Int32 → Bool
  | [] => false
  | index :: indices => if index ∈ seen then true else hasDuplicateFrom (index :: seen) indices

/-- `has_duplicate`. -/
def hasDuplicate (indices : List Int32) : Bool := hasDuplicateFrom [] indices

/-! ## The validator -/

/-- `EquihashValidator`. -/
structure EquihashValidator where
  n : ℕ
  k : ℕ
  indicesHashLength : ℕ
  collisionBitLength : ℕ
  solutionWidth : ℕ
  deriving DecidableEq, Repr

namespace EquihashValidator

/-- `EquihashValidator::new`. -/
def new (n k : ℕ) : EquihashValidator :=
  let collisionBitLength := n / (k + 1)
  { n, k
    indicesHashLength := (n + 7) / 8
    collisionBitLength
    solutionWidth := 2 ^ k * (collisionBitLength + 1) / 8 }

variable (v : EquihashValidator)

/-- `get_indices_from_minimal`: the `cBitLen + 1`-bit fields, each padded to a four-byte word. -/
def getIndicesFromMinimal (minimal : Bytes) (cBitLen : ℕ) : List Int32 :=
  let lenIndices := 8 * 4 * minimal.length / (cBitLen + 1)
  let bytePad := 4 - ((cBitLen + 1) + 7) / 8
  let arr := extendArray minimal (List.replicate lenIndices 0) (cBitLen + 1) bytePad
  bytesToI32s arr (arr.length / 4)

/-- The Blake2b parameter block of `get_solution_hash`: a 54-byte digest, fanout and depth one, and
the personalization in its last sixteen bytes. -/
def blakeParams (personalization : Bytes) : Bytes :=
  [54, 0, 1, 1] ++ List.replicate 44 0 ++ personalization.take 16

/-- The loop body of `get_solution_hash`: an index is hashed as the half of the Blake2b output of
`header ‖ nonce ‖ index / 2` that its parity selects. -/
def indexHash (blake2b : Bytes → Bytes → Vector UInt8 54) (param nonce header : Bytes)
    (index : Int32) : Vector UInt8 27 :=
  let blakehash := blake2b param (header ++ nonce ++ i32ToBytesLe (index / 2))
  let s := ((index % 2) * Int32.ofNat (v.n + 7) / 8).toNatClampNeg
  Vector.ofFn fun p : Fin 27 ↦ if p.val < (v.n + 7) / 8 then blakehash.toList.getD (s + p.val) 0 else 0

/-- `get_solution_hash`. -/
def getSolutionHash (blake2b : Bytes → Bytes → Vector UInt8 54) (personalization nonce : Bytes)
    (indices : List Int32) (header : Bytes) : List (Vector UInt8 27) :=
  indices.map (v.indexHash blake2b (blakeParams personalization) nonce header)

/-- The XOR of the first `indicesHashLength` bytes of two hashes, written over `hash`. -/
def xorInto (hash hash0 hash1 : Vector UInt8 27) : Vector UInt8 27 :=
  Vector.ofFn fun p : Fin 27 ↦ if p.val < v.indicesHashLength then hash0[p] ^^^ hash1[p] else hash[p]

/-- The zero-bits check at the end of `verify`: the first `bits / 8` bytes are zero and so are the
top `bits % 8` bits of the next one. -/
def leadingBitsZero (hash : Vector UInt8 27) (bits : ℕ) : Bool :=
  (List.range (bits / 8)).all (fun i ↦ hash.toList.getD i 0 = 0) &&
    !(bits % 8 > 0 && (hash.toList.getD (bits / 8) 0 >>> (8 - (bits % 8)).toUInt8) ≠ 0)

/-- `verify`: validate the subtree of `2 ^ round` indices from `index`, leaving the XOR of its
leaf hashes in `hash`. The result is the verdict and the hash buffer afterwards. -/
def verify (indices : List Int32) (hashes : List (Vector UInt8 27)) :
    ℕ → Vector UInt8 27 → ℕ → Bool × Vector UInt8 27
  | _, hash, 0 => (true, hash)
  | index, hash, round + 1 =>
    let index1 := index + 2 ^ (round % 32)
    if indices.getD index 0 ≥ indices.getD index1 0 then (false, hash)
    else
      -- the subtrees work on copies of their first leaves' hashes
      let (verify0, hash0) := verify indices hashes index (hashes.getD index default) round
      if !verify0 then (false, hash)
      else
        let (verify1, hash1) := verify indices hashes index1 (hashes.getD index1 default) round
        if !verify1 then (false, hash)
        else
          let hash := v.xorInto hash hash0 hash1
          let bits := if round + 1 < v.k then v.collisionBitLength else v.n
          (leadingBitsZero hash bits, hash)

/-- The Blake2b personalization of `is_valid_solution`: `"AION0PoW"`, then `n` and `k` as
little-endian `i32`s. -/
def personalization : Bytes :=
  [0x41, 0x49, 0x4f, 0x4e, 0x30, 0x50, 0x6f, 0x57] ++ i32ToBytesLe (Int32.ofNat v.n) ++
    i32ToBytesLe (Int32.ofNat v.k)

/-- `is_valid_solution`. -/
def isValidSolution (blake2b : Bytes → Bytes → Vector UInt8 54) (solution blockHeader nonce : Bytes) :
    Bool :=
  if solution.length ≠ v.solutionWidth then false
  else
    let indices := getIndicesFromMinimal solution v.collisionBitLength
    if hasDuplicate indices then false
    else
      let nativeHash := v.getSolutionHash blake2b v.personalization nonce indices blockHeader
      (v.verify indices nativeHash 0 (Vector.replicate 27 0) v.k).1

end EquihashValidator

/-! ## Unpacking inverts packing

For the kernel's validator `collision_bit_length + 1 = 22`: `extend_array` turns every 22 bits of
the solution into a four-byte word after one zero byte. After `t` input bytes its state is
`unpackedState`: the accumulator holds the bytes read so far, and the words of the
`8 * t / 22` complete fields are written. -/

/-- Indices packed into `bitLen`-bit fields, first index in the most significant bits. -/
def packIndices (bitLen : ℕ) (indices : List ℕ) : ℕ :=
  indices.foldl (fun acc i ↦ acc * 2 ^ bitLen + i) 0

/-- The `i`-th 22-bit field of the low `8 * t` bits of `n`, most significant first. -/
def indexField (t n i : ℕ) : ℕ := n / 2 ^ (8 * t - 22 * (i + 1)) % 2 ^ 22

/-- The complete fields of the low `8 * t` bits of `n`, each as a big-endian four-byte word. -/
def unpackedWords (t n : ℕ) : Bytes :=
  (List.range (8 * t / 22)).flatMap fun i ↦ toBigEndian 4 (indexField t n i)

/-- The state of `extend_array` (`bitLen = 22`, `bytePad = 1`) over an `M`-byte output after
reading the low `t` bytes of `n`. -/
def unpackedState (t n M : ℕ) : ExtendState :=
  ⟨8 * t % 22, UInt32.ofNat (n % 2 ^ (8 * t)), 4 * (8 * t / 22),
    unpackedWords t n ++ List.replicate (M - 4 * (8 * t / 22)) 0⟩

-- Several proofs below unfold these at once: their equation lemmas are generated here, once.
section
attribute [local simp] unpackedWords indexField unpackedState
end

theorem length_unpackedWords (t n : ℕ) : (unpackedWords t n).length = 4 * (8 * t / 22) := by
  simp [unpackedWords, List.length_flatMap, Nat.mul_comm]

/-- The accumulator after one more byte holds one more byte of `n`. -/
theorem accumulate_eq (t n : ℕ) :
    (UInt32.ofNat (n / 256 % 2 ^ (8 * t)) <<< 8) ||| ((n % 256).toUInt8.toUInt32 &&& 0xff) =
      UInt32.ofNat (n % 2 ^ (8 * (t + 1))) := by
  rw [ofNat_shiftLeft_eight_or]
  congr 1
  have hb : ((n % 256).toUInt8).toNat = n % 256 := by
    simp [Nat.toUInt8, Nat.mod_mod_of_dvd]
  have hpow : 2 ^ (8 * (t + 1)) = 256 * 2 ^ (8 * t) := by ring
  rw [hb, hpow, Nat.mod_mul]
  ring

/-- A field already complete after `t` bytes is the same field after `t + 1`. -/
theorem indexField_succ {t i : ℕ} (n : ℕ) (hi : i < 8 * t / 22) :
    indexField t (n / 256) i = indexField (t + 1) n i := by
  have hle : 22 * (i + 1) ≤ 8 * t := by omega
  rw [indexField, indexField, Nat.div_div_eq_div_mul, show (256 : ℕ) = 2 ^ 8 from rfl, ← pow_add]
  congr 3
  omega

theorem unpackedWords_succ_of_not_emit {t : ℕ} (n : ℕ) (h : 8 * (t + 1) / 22 = 8 * t / 22) :
    unpackedWords (t + 1) n = unpackedWords t (n / 256) := by
  rw [unpackedWords, unpackedWords, h]
  refine List.flatMap_congr fun i hi ↦ ?_
  rw [indexField_succ n (List.mem_range.mp hi)]

theorem unpackedWords_succ_of_emit {t : ℕ} (n : ℕ) (h : 8 * (t + 1) / 22 = 8 * t / 22 + 1) :
    unpackedWords (t + 1) n =
      unpackedWords t (n / 256) ++ toBigEndian 4 (indexField (t + 1) n (8 * t / 22)) := by
  rw [unpackedWords, unpackedWords, h, List.range_succ, List.flatMap_append, List.flatMap_singleton]
  congr 1
  refine List.flatMap_congr fun i hi ↦ ?_
  rw [indexField_succ n (List.mem_range.mp hi)]

/-- The inner loop of `extend_array` writes bytes one to three of a word into zeros after `W`. -/
theorem foldl_set_word (W : Bytes) (m : ℕ) (f : ℕ → UInt8) :
    (List.range' 1 3).foldl (fun out x ↦ out.set (W.length + x) (f x))
        (W ++ List.replicate (m + 4) 0) = W ++ [0, f 1, f 2, f 3] ++ List.replicate m 0 := by
  rw [show List.range' 1 3 = [1, 2, 3] from rfl]
  simp [List.replicate_succ]

/-- The byte written at place `x` of a completed field's word. -/
theorem emittedByte {t : ℕ} (n : ℕ) (hemit : 8 * t % 22 + 8 ≥ 22) {x : ℕ} (hx1 : 1 ≤ x) (hx3 : x ≤ 3) :
    ((UInt32.ofNat (n % 2 ^ (8 * (t + 1))) >>>
        ((8 * t % 22 + 8 - 22 + 8 * ((22 + 7) / 8 + 1 - x - 1)) % 32).toUInt32) &&&
      (((1 <<< Nat.toUInt32 22) - 1) >>> (8 * ((22 + 7) / 8 + 1 - x - 1) % 32).toUInt32 &&& 255)).toUInt8 =
      (toBigEndian 4 (indexField (t + 1) n (8 * t / 22))).getD x 0 := by
  set a := 8 * t % 22 + 8 - 22 with ha
  have hshift : 8 * (t + 1) - 22 * (8 * t / 22 + 1) = a := by omega
  have hfits : a + 22 ≤ 8 * (t + 1) := by omega
  rw [toBigEndian_four, indexField, hshift]
  have ha8 : a < 8 := by omega
  interval_cases x
  · -- the top six bits of the field
    have hs : (a + 8 * ((22 + 7) / 8 + 1 - 1 - 1)) % 32 = a + 16 := by omega
    have hm : ((1 <<< Nat.toUInt32 22) - 1) >>> (8 * ((22 + 7) / 8 + 1 - 1 - 1) % 32).toUInt32 &&& 255 =
        (63 : UInt32) := by decide
    rw [hs, hm, ofNat_shiftRight_and_toUInt8 _ (a + 16) 6 (show (63 : UInt32).toNat = 2 ^ 6 - 1 from rfl)
      (by norm_num) (by norm_num) (by omega)]
    simp only [List.getD_cons_succ, List.getD_cons_zero]
    have hlt : n / 2 ^ a / 2 ^ 16 % 2 ^ 6 < 256 := lt_of_lt_of_le (Nat.mod_lt _ (by norm_num)) (by norm_num)
    rw [mod_two_pow_div_two_pow_mod (by omega), show (22 : ℕ) = 16 + 6 from rfl,
      mod_two_pow_div_two_pow, Nat.mod_eq_of_lt hlt, Nat.div_div_eq_div_mul, ← pow_add]
  · -- the middle byte
    have hs : (a + 8 * ((22 + 7) / 8 + 1 - 2 - 1)) % 32 = a + 8 := by omega
    have hm : ((1 <<< Nat.toUInt32 22) - 1) >>> (8 * ((22 + 7) / 8 + 1 - 2 - 1) % 32).toUInt32 &&& 255 =
        (255 : UInt32) := by decide
    rw [hs, hm, ofNat_shiftRight_and_toUInt8 _ (a + 8) 8 (show (255 : UInt32).toNat = 2 ^ 8 - 1 from rfl)
      (by norm_num) (by norm_num) (by omega)]
    simp only [List.getD_cons_succ, List.getD_cons_zero]
    rw [mod_two_pow_div_two_pow_mod (by omega), show (256 : ℕ) = 2 ^ 8 from rfl,
      mod_two_pow_div_two_pow_mod (by norm_num), Nat.div_div_eq_div_mul, ← pow_add]
  · -- the low byte
    have hs : (a + 8 * ((22 + 7) / 8 + 1 - 3 - 1)) % 32 = a := by omega
    have hm : ((1 <<< Nat.toUInt32 22) - 1) >>> (8 * ((22 + 7) / 8 + 1 - 3 - 1) % 32).toUInt32 &&& 255 =
        (255 : UInt32) := by decide
    rw [hs, hm, ofNat_shiftRight_and_toUInt8 _ a 8 (show (255 : UInt32).toNat = 2 ^ 8 - 1 from rfl)
      (by norm_num) (by norm_num) (by omega)]
    simp only [List.getD_cons_succ, List.getD_cons_zero]
    rw [mod_two_pow_div_two_pow_mod (by omega), show (256 : ℕ) = 2 ^ 8 from rfl,
      Nat.mod_mod_of_dvd _ (pow_dvd_pow 2 (by norm_num))]

theorem extendStep_unpackedState (t n M : ℕ) (hM : 4 * (8 * (t + 1) / 22) ≤ M) :
    extendStep 22 1 (unpackedState t (n / 256) M) (n % 256).toUInt8 = unpackedState (t + 1) n M := by
  unfold extendStep unpackedState
  simp only [accumulate_eq]
  split_ifs with hemit
  · have hg : 8 * (t + 1) / 22 = 8 * t / 22 + 1 := by omega
    obtain ⟨m, hm⟩ : ∃ m, M - 4 * (8 * t / 22) = m + 4 := ⟨M - 4 * (8 * t / 22) - 4, by omega⟩
    rw [hm, show (22 + 7) / 8 + 1 - 1 = 3 from rfl, ← length_unpackedWords t (n / 256), foldl_set_word,
      emittedByte n hemit (le_refl 1) (by norm_num : (1 : ℕ) ≤ 3),
      emittedByte n hemit (by norm_num : (1 : ℕ) ≤ 2) (by norm_num : (2 : ℕ) ≤ 3),
      emittedByte n hemit (by norm_num : (1 : ℕ) ≤ 3) (le_refl 3)]
    -- the field has 22 bits, so its word starts with a zero byte
    have hword : [0, (toBigEndian 4 (indexField (t + 1) n (8 * t / 22))).getD 1 0,
        (toBigEndian 4 (indexField (t + 1) n (8 * t / 22))).getD 2 0,
        (toBigEndian 4 (indexField (t + 1) n (8 * t / 22))).getD 3 0] =
        toBigEndian 4 (indexField (t + 1) n (8 * t / 22)) := by
      have hlt : indexField (t + 1) n (8 * t / 22) < 2 ^ 24 :=
        lt_of_lt_of_le (Nat.mod_lt _ (by norm_num)) (by norm_num)
      rw [toBigEndian_four, Nat.div_eq_of_lt hlt]
      rfl
    rw [hword, ← unpackedWords_succ_of_emit n hg, length_unpackedWords, hg]
    congr 1
    · omega
    · rw [show M - 4 * (8 * t / 22 + 1) = m by omega]
  · have hg : 8 * (t + 1) / 22 = 8 * t / 22 := by omega
    rw [unpackedWords_succ_of_not_emit n hg, hg]
    congr 1
    omega

/-- The run of `extend_array` over the big-endian bytes of `n`, by induction on their number. -/
theorem foldl_extendStep_toBigEndian (t n M : ℕ) (hM : 4 * (8 * t / 22) ≤ M) :
    (toBigEndian t n).foldl (extendStep 22 1) ⟨0, 0, 0, List.replicate M 0⟩ = unpackedState t n M := by
  induction t generalizing n with
  | zero =>
    simp [toBigEndian, unpackedState, unpackedWords, Nat.mod_one]
  | succ t ih =>
    rw [toBigEndian, List.foldl_append, ih (n / 256) (by omega), List.foldl_cons, List.foldl_nil]
    exact extendStep_unpackedState t n M hM

/-- A byte of the `i`-th word of a list of words. -/
theorem getD_flatMap_toBigEndian (f : ℕ → ℕ) {G i : ℕ} (hi : i < G) {o : ℕ} (ho : o < 4)
    (rest : Bytes) :
    ((List.range G).flatMap (fun i ↦ toBigEndian 4 (f i)) ++ rest).getD (4 * i + o) 0 =
      (toBigEndian 4 (f i)).getD o 0 := by
  induction G generalizing rest with
  | zero => omega
  | succ G ih =>
    have hlen : ((List.range G).flatMap fun i ↦ toBigEndian 4 (f i)).length = 4 * G := by
      simp [List.length_flatMap, Nat.mul_comm]
    rw [List.range_succ, List.flatMap_append, List.flatMap_singleton, List.append_assoc]
    rcases Nat.lt_succ_iff_lt_or_eq.mp hi with hi | rfl
    · exact ih hi _
    · rw [List.getD_eq_getElem?_getD, List.getElem?_append_right (by omega), hlen,
        Nat.add_sub_cancel_left, List.getElem?_append_left (by simpa using ho),
        ← List.getD_eq_getElem?_getD]

/-- `bytes_to_i32s` reads back words written big-endian. -/
theorem bytesToI32s_flatMap (f : ℕ → ℕ) (G : ℕ) (rest : Bytes) :
    bytesToI32s ((List.range G).flatMap (fun i ↦ toBigEndian 4 (f i)) ++ rest) G =
      (List.range G).map fun i ↦ (UInt32.ofNat (f i)).toInt32 := by
  unfold bytesToI32s
  refine List.map_congr_left fun i hi ↦ ?_
  have hi := List.mem_range.mp hi
  have h0 := getD_flatMap_toBigEndian f hi (show 0 < 4 by norm_num) rest
  rw [Nat.add_zero] at h0
  simp only [h0, getD_flatMap_toBigEndian f hi (show 1 < 4 by norm_num),
    getD_flatMap_toBigEndian f hi (show 2 < 4 by norm_num),
    getD_flatMap_toBigEndian f hi (show 3 < 4 by norm_num), Nat.add_zero]
  rw [word_eq_ofNat]
  -- the four bytes read are the word written
  have hbytes : [(toBigEndian 4 (f i)).getD 0 0, (toBigEndian 4 (f i)).getD 1 0,
      (toBigEndian 4 (f i)).getD 2 0, (toBigEndian 4 (f i)).getD 3 0] = toBigEndian 4 (f i) := by
    rw [toBigEndian_four]
    rfl
  rw [hbytes, fromBigEndian_toBigEndian]
  congr 1
  apply UInt32.toNat_inj.mp
  simp

theorem packIndices_append_singleton (w : ℕ) (xs : List ℕ) (x : ℕ) :
    packIndices w (xs ++ [x]) = packIndices w xs * 2 ^ w + x := by
  rw [packIndices, List.foldl_append]
  rfl

/-- The `i`-th field of packed indices is the `i`-th index. -/
theorem packIndices_div_mod (w : ℕ) (xs : List ℕ) (hxs : ∀ x ∈ xs, x < 2 ^ w) {i : ℕ}
    (hi : i < xs.length) : packIndices w xs / 2 ^ (w * (xs.length - 1 - i)) % 2 ^ w = xs[i] := by
  induction xs using List.reverseRecOn generalizing i with
  | nil => simp at hi
  | append_singleton xs x ih =>
    have hx : x < 2 ^ w := hxs x (by simp)
    have hdiv : (packIndices w xs * 2 ^ w + x) / 2 ^ w = packIndices w xs := by
      rw [Nat.mul_comm, Nat.mul_add_div (Nat.two_pow_pos w), Nat.div_eq_of_lt hx, Nat.add_zero]
    rw [packIndices_append_singleton]
    simp only [List.length_append, List.length_singleton] at hi ⊢
    rcases Nat.lt_succ_iff_lt_or_eq.mp hi with hi | rfl
    · -- an earlier field: drop the last one first
      have hexp : w * (xs.length + 1 - 1 - i) = w + w * (xs.length - 1 - i) := by
        rw [show xs.length + 1 - 1 - i = 1 + (xs.length - 1 - i) by omega, Nat.mul_add, Nat.mul_one]
      rw [hexp, pow_add, ← Nat.div_div_eq_div_mul, hdiv, List.getElem_append_left hi]
      exact ih (fun y hy ↦ hxs y (by simp [hy])) hi
    · rw [List.getElem_append_right (le_refl _)]
      simp [Nat.mod_eq_of_lt hx]

/-- **Unpacking inverts packing.** The indices the kernel's validator unpacks from a solution
are the 22-bit fields it is made of. -/
theorem getIndicesFromMinimal_toBigEndian (idx : List ℕ) (hidx : ∀ i ∈ idx, i < 2 ^ 22) {L : ℕ}
    (hL : 8 * L = 22 * idx.length) :
    EquihashValidator.getIndicesFromMinimal (toBigEndian L (packIndices 22 idx)) 21 =
      idx.map Int32.ofNat := by
  have hG : 8 * L / 22 = idx.length := by omega
  have hlen : 8 * 4 * (toBigEndian L (packIndices 22 idx)).length / (21 + 1) = 4 * idx.length := by
    rw [length_toBigEndian]
    omega
  have harr : extendArray (toBigEndian L (packIndices 22 idx)) (List.replicate (4 * idx.length) 0)
      22 1 = unpackedWords L (packIndices 22 idx) := by
    rw [extendArray, foldl_extendStep_toBigEndian L _ _ (by omega), unpackedState, hG,
      Nat.sub_self, List.replicate_zero, List.append_nil]
  have hfield : ∀ i (hi : i < idx.length), indexField L (packIndices 22 idx) i = idx[i] := by
    intro i hi
    rw [indexField, show 8 * L - 22 * (i + 1) = 22 * (idx.length - 1 - i) by omega]
    exact packIndices_div_mod 22 idx hidx hi
  rw [EquihashValidator.getIndicesFromMinimal]
  simp only [hlen, show 4 - (21 + 1 + 7) / 8 = 1 from rfl, show (21 : ℕ) + 1 = 22 from rfl, harr]
  rw [length_unpackedWords, hG, Nat.mul_div_cancel_left _ (by norm_num), unpackedWords, hG,
    ← List.append_nil (List.flatMap _ _), bytesToI32s_flatMap]
  apply List.ext_getElem (by simp)
  intro i h1 h2
  simp [hfield i (by simpa using h1)]

/-- For a solution of any length, the indices the kernel's validator unpacks are its complete
22-bit fields, most significant first. -/
theorem getIndicesFromMinimal_eq_indexField (sol : Bytes) :
    EquihashValidator.getIndicesFromMinimal sol 21 =
      (List.range (8 * sol.length / 22)).map fun i ↦
        Int32.ofNat (indexField sol.length (fromBigEndian sol) i) := by
  -- `extend_array` runs over the big-endian bytes of the number the solution spells
  have hsol := toBigEndian_fromBigEndian sol
  set L := sol.length
  set n := fromBigEndian sol
  have harr : extendArray sol (List.replicate (8 * 4 * L / (21 + 1)) 0) 22 1 =
      unpackedWords L n ++ List.replicate (32 * L / 22 - 4 * (8 * L / 22)) 0 := by
    rw [extendArray, ← hsol, foldl_extendStep_toBigEndian L n _ (by omega), unpackedState]
  have hcount : (unpackedWords L n ++ List.replicate (32 * L / 22 - 4 * (8 * L / 22)) 0).length / 4 =
      8 * L / 22 := by
    rw [List.length_append, length_unpackedWords, List.length_replicate]
    omega
  rw [EquihashValidator.getIndicesFromMinimal]
  simp only [show 4 - (21 + 1 + 7) / 8 = 1 from rfl, show (21 : ℕ) + 1 = 22 from rfl]
  rw [harr, hcount, unpackedWords, bytesToI32s_flatMap]
  refine List.map_congr_left fun i _ ↦ ?_
  simp

/-- A field of the number a byte string spells is a run of its bits. -/
theorem indexField_eq_bigEndianBits (sol : Bytes) {i : ℕ} (hi : i < 8 * sol.length / 22) :
    indexField sol.length (fromBigEndian sol) i = bigEndianBits sol (22 * i) 22 := by
  rw [indexField, bigEndianBits_eq (by omega), Nat.mul_add, Nat.mul_one]

/-- **The unpacked indices are the solution's bits.** A solution of the kernel's width (`n = 210`,
`k = 9`: 512 indices of 22 bits in 1408 bytes) unpacks to 512 indices, the `i`-th being bits
`22 * i` to `22 * i + 21` of the solution; each lies in `[0, 2²²)`, and distinct fields give
distinct indices. -/
theorem getIndicesFromMinimal_bits (sol : Bytes) (hsol : sol.length = 1408) :
    EquihashValidator.getIndicesFromMinimal sol 21 =
        (List.range 512).map (fun i ↦ Int32.ofNat (bigEndianBits sol (22 * i) 22)) ∧
      (∀ x ∈ EquihashValidator.getIndicesFromMinimal sol 21, 0 ≤ x.toInt ∧ x.toInt < 2 ^ 22) ∧
      ∀ i < 512, ∀ j < 512, bigEndianBits sol (22 * i) 22 ≠ bigEndianBits sol (22 * j) 22 →
        (EquihashValidator.getIndicesFromMinimal sol 21)[i]? ≠
          (EquihashValidator.getIndicesFromMinimal sol 21)[j]? := by
  have hcount : 8 * sol.length / 22 = 512 := by omega
  have hindices : EquihashValidator.getIndicesFromMinimal sol 21 =
      (List.range 512).map (fun i ↦ Int32.ofNat (bigEndianBits sol (22 * i) 22)) := by
    rw [getIndicesFromMinimal_eq_indexField, hcount]
    refine List.map_congr_left fun i hi ↦ ?_
    rw [indexField_eq_bigEndianBits sol (by rw [hcount]; exact List.mem_range.mp hi)]
  -- every field has 22 bits, so it reads back unchanged as a signed word
  have htoInt : ∀ i,
      (Int32.ofNat (bigEndianBits sol (22 * i) 22)).toInt = bigEndianBits sol (22 * i) 22 := fun i ↦ Int32.toInt_ofNat_of_lt (lt_of_lt_of_le (bigEndianBits_lt sol _ 22) (by norm_num))
  refine ⟨hindices, ?_, ?_⟩
  · intro x hx
    rw [hindices, List.mem_map] at hx
    obtain ⟨i, -, rfl⟩ := hx
    rw [htoInt]
    exact ⟨Int.natCast_nonneg _, by exact_mod_cast bigEndianBits_lt sol _ 22⟩
  · intro i hi j hj hne heq
    rw [hindices, List.getElem?_map, List.getElem?_map, List.getElem?_range hi,
      List.getElem?_range hj, Option.map_some, Option.map_some, Option.some.injEq] at heq
    have h := congrArg Int32.toInt heq
    rw [htoInt, htoInt] at h
    exact hne (by exact_mod_cast h)

/-- The all-zero solution of the kernel's width, read field by field. -/
theorem getIndicesFromMinimal_zeroSolution :
    EquihashValidator.getIndicesFromMinimal (List.replicate 1408 0) 21 =
      (List.range 512).map (fun i ↦ Int32.ofNat (bigEndianBits (List.replicate 1408 0) (22 * i) 22)) :=
  (getIndicesFromMinimal_bits (List.replicate 1408 0) List.length_replicate).1

/-! ## The Equihash condition -/

/-- The bit at position `b` of a hash, counting from the most significant bit of its first byte. -/
def bitAt (hash : Vector UInt8 27) (b : ℕ) : Bool :=
  (hash.toList.getD (b / 8) 0).toNat.testBit (7 - b % 8)

/-- The first `bits` bits of `hash` are zero. -/
def LeadingZeroBits (hash : Vector UInt8 27) (bits : ℕ) : Prop := ∀ b < bits, bitAt hash b = false

instance (hash : Vector UInt8 27) (bits : ℕ) : Decidable (LeadingZeroBits hash bits) :=
  inferInstanceAs (Decidable (∀ b < bits, bitAt hash b = false))

/-- The XOR of the leaf hashes of the subtree of `2 ^ r` leaves from `index`. -/
def subtreeXor (hashes : List (Vector UInt8 27)) (index : ℕ) : ℕ → Vector UInt8 27
  | 0 => hashes.getD index default
  | r + 1 => Vector.zipWith (· ^^^ ·) (subtreeXor hashes index r) (subtreeXor hashes (index + 2 ^ r) r)

/-- The Equihash(`n`, `k`) condition on unpacked indices and their leaf hashes, with
`cbl = n / (k + 1)` bits of collision per level. -/
structure EquihashCondition (n k cbl : ℕ) (indices : List Int32)
    (hashes : List (Vector UInt8 27)) : Prop where
  length_eq : indices.length = 2 ^ k
  nodup : indices.Nodup
  /-- At every node the left subtree starts with the smaller index. -/
  ordered : ∀ r < k, ∀ j < 2 ^ (k - r - 1),
    indices.getD (j * 2 ^ (r + 1)) 0 < indices.getD (j * 2 ^ (r + 1) + 2 ^ r) 0
  /-- Below the top, a subtree of `2 ^ r` leaves collides on its first `r * cbl` bits. -/
  collisions : ∀ r < k, ∀ j < 2 ^ (k - r), LeadingZeroBits (subtreeXor hashes (j * 2 ^ r) r) (r * cbl)
  /-- All the leaves together collide on all `n` bits. -/
  final : LeadingZeroBits (subtreeXor hashes 0 k) n

/-! ## What `verify` checks -/

namespace EquihashValidator

variable (v : EquihashValidator) (indices : List Int32) (hashes : List (Vector UInt8 27))

/-- The checks `verify` makes on the subtree of `2 ^ round` leaves from `index`, with the XOR of
the subtree's leaves computed directly. -/
def treeChecks : ℕ → ℕ → Bool
  | _, 0 => true
  | index, round + 1 =>
    decide (indices.getD index 0 < indices.getD (index + 2 ^ round) 0) &&
      treeChecks index round && treeChecks (index + 2 ^ round) round &&
      leadingBitsZero (subtreeXor hashes index (round + 1))
        (if round + 1 < v.k then v.collisionBitLength else v.n)

variable {v}

theorem xorInto_eq (hihl : 27 ≤ v.indicesHashLength) (hash hash0 hash1 : Vector UInt8 27) :
    v.xorInto hash hash0 hash1 = Vector.zipWith (· ^^^ ·) hash0 hash1 := by
  apply Vector.ext
  intro p hp
  simp [xorInto, show p < v.indicesHashLength by omega]

/-- `verify` computes `treeChecks`, and when it succeeds on a proper subtree it leaves the XOR of
the subtree's leaves in its buffer. Induction on the round; the buffer a subtree is given does not
matter once the whole hash is XOR-ed. -/
theorem verify_eq (hihl : 27 ≤ v.indicesHashLength) :
    ∀ round index hash, round < 32 →
      (v.verify indices hashes index hash round).1 = treeChecks v indices hashes index round ∧
      ((v.verify indices hashes index hash round).1 = true → 0 < round →
        (v.verify indices hashes index hash round).2 = subtreeXor hashes index round) := by
  intro round
  induction round with
  | zero => intro index hash _; simp [verify, treeChecks]
  | succ round ih =>
    intro index hash hround
    -- a subtree called on its first leaf's hash leaves the XOR of its leaves when it succeeds
    have hchild : ∀ i, (v.verify indices hashes i (hashes.getD i default) round).1 = true →
        (v.verify indices hashes i (hashes.getD i default) round).2 = subtreeXor hashes i round := by
      intro i hok
      rcases Nat.eq_zero_or_pos round with rfl | hpos
      · rfl
      · exact (ih i _ (by omega)).2 hok hpos
    have hmod : round % 32 = round := Nat.mod_eq_of_lt (by omega)
    simp only [verify, hmod]
    by_cases hord : indices.getD index 0 ≥ indices.getD (index + 2 ^ round) 0
    · have hlt : ¬indices.getD index 0 < indices.getD (index + 2 ^ round) 0 :=
        Int32.not_lt.mpr hord
      rw [if_pos hord]
      refine ⟨?_, fun h ↦ absurd h (by simp)⟩
      simp only [treeChecks, decide_eq_false hlt, Bool.false_and]
    · have hlt : indices.getD index 0 < indices.getD (index + 2 ^ round) 0 := Int32.not_le.mp hord
      rw [if_neg hord]
      have h0 := (ih index (hashes.getD index default) (by omega)).1
      have h1 := (ih (index + 2 ^ round) (hashes.getD (index + 2 ^ round) default) (by omega)).1
      have hbuf0 := hchild index
      have hbuf1 := hchild (index + 2 ^ round)
      rcases hv0 : v.verify indices hashes index (hashes.getD index default) round with ⟨b0, buf0⟩
      rcases hv1 : v.verify indices hashes (index + 2 ^ round) (hashes.getD (index + 2 ^ round) default)
        round with ⟨b1, buf1⟩
      rw [hv0] at h0 hbuf0
      rw [hv1] at h1 hbuf1
      simp only at h0 h1 hbuf0 hbuf1
      cases b0 with
      | false => simp [treeChecks, ← h0]
      | true =>
        cases b1 with
        | false => simp [treeChecks, ← h0, ← h1]
        | true =>
          -- both subtrees hold; the buffer is the XOR of their XORs
          have hxor : v.xorInto hash buf0 buf1 = subtreeXor hashes index (round + 1) := by
            rw [xorInto_eq hihl, hbuf0 rfl, hbuf1 rfl, subtreeXor]
          simp only [List.getD_eq_getElem?_getD] at hlt
          simp [treeChecks, ← h0, ← h1, hlt, hxor]

theorem hasDuplicateFrom_eq_false_iff (seen indices : List Int32) :
    hasDuplicateFrom seen indices = false ↔ indices.Nodup ∧ ∀ x ∈ indices, x ∉ seen := by
  induction indices generalizing seen with
  | nil => simp [hasDuplicateFrom]
  | cons index indices ih =>
    by_cases hseen : index ∈ seen
    · simp [hasDuplicateFrom, hseen]
    · rw [hasDuplicateFrom, if_neg hseen, ih]
      simp only [List.nodup_cons, List.forall_mem_cons]
      simp only [List.mem_cons, not_or]
      constructor
      · rintro ⟨hnd, hfresh⟩
        exact ⟨⟨fun h ↦ (hfresh index h).1 rfl, hnd⟩, hseen, fun x hx ↦ (hfresh x hx).2⟩
      · rintro ⟨⟨hnot, hnd⟩, -, hfresh⟩
        exact ⟨hnd, fun x hx ↦ ⟨fun h ↦ hnot (h ▸ hx), hfresh x hx⟩⟩

/-- `has_duplicate` finds a duplicate exactly when there is one. -/
theorem hasDuplicate_eq_false_iff (indices : List Int32) :
    hasDuplicate indices = false ↔ indices.Nodup := by
  simp [hasDuplicate, hasDuplicateFrom_eq_false_iff]

/-- **What the validator decides.** A solution is accepted when it has the expected width, its
indices are distinct, and `treeChecks` holds of the whole tree. -/
theorem isValidSolution_eq (hihl : 27 ≤ v.indicesHashLength) (hk : v.k < 32)
    (blake2b : Bytes → Bytes → Vector UInt8 54) (solution blockHeader nonce : Bytes) :
    v.isValidSolution blake2b solution blockHeader nonce =
      (decide (solution.length = v.solutionWidth) &&
        !hasDuplicate (getIndicesFromMinimal solution v.collisionBitLength) &&
        treeChecks v (getIndicesFromMinimal solution v.collisionBitLength)
          (v.getSolutionHash blake2b v.personalization nonce
            (getIndicesFromMinimal solution v.collisionBitLength) blockHeader) 0 v.k) := by
  rw [isValidSolution]
  by_cases hw : solution.length = v.solutionWidth
  · by_cases hd : hasDuplicate (getIndicesFromMinimal solution v.collisionBitLength)
    · simp [hw, hd]
    · simp only [hw, hd, ne_eq, not_true_eq_false, if_false, Bool.false_eq_true, decide_true,
        Bool.not_false, Bool.true_and]
      exact (verify_eq _ _ hihl _ _ _ hk).1
  · simp [hw]

end EquihashValidator

/-! ## A solution the validator accepts that is not an Equihash solution -/

/-- The indices `0, 1, …, 511` as a solution of `EquihashValidator::new(210, 9)`. -/
def ascendingSolution : Bytes := toBigEndian 1408 (packIndices 22 (List.range 512))

/-- A hash whose only set bit is bit `21`, just past the first collision. -/
def bitTwentyOne : Vector UInt8 27 := Vector.ofFn fun p ↦ if p.val = 2 then 4 else 0

/-- A Blake2b stand-in under which, for an empty header and nonce, the leaves `0` and `4` hash to
`bitTwentyOne` and every other leaf to zero. -/
def twoLeafBlake2b : Bytes → Bytes → Vector UInt8 54 := fun _ message ↦
  if message = [0, 0, 0, 0] ∨ message = [2, 0, 0, 0] then
    Vector.ofFn fun p ↦ if p.val = 2 then 4 else 0
  else Vector.replicate 54 0

theorem i32ToBytesLe_ofNat {m : ℕ} (hm : m < 256) :
    i32ToBytesLe (Int32.ofNat m) = [m.toUInt8, 0, 0, 0] := by
  have hu : (Int32.ofNat m).toUInt32 = UInt32.ofNat m := rfl
  simp only [i32ToBytesLe, hu, List.cons.injEq, and_true]
  refine ⟨?_, ?_, ?_, ?_⟩ <;> apply UInt8.toNat_inj.mp <;> simp [Nat.shiftRight_eq_div_pow] <;> omega

/-- The leaf hashes of the ascending indices under `twoLeafBlake2b`. -/
theorem indexHash_twoLeafBlake2b (param : Bytes) {i : ℕ} (hi : i < 512) :
    (EquihashValidator.new 210 9).indexHash twoLeafBlake2b param [] [] (Int32.ofNat i) =
      if i = 0 ∨ i = 4 then bitTwentyOne else Vector.replicate 27 0 := by
  have hs : (Int32.ofNat (i % 2) * Int32.ofNat (210 + 7) / 8).toNatClampNeg = i % 2 * 27 := by
    rcases Nat.mod_two_eq_zero_or_one i with h | h <;> rw [h] <;> decide
  simp only [EquihashValidator.indexHash, EquihashValidator.new, int32_ofNat_div_two (by omega : i < 2 ^ 31),
    int32_ofNat_mod_two (by omega : i < 2 ^ 31), i32ToBytesLe_ofNat (by omega : i / 2 < 256), List.nil_append,
    hs, twoLeafBlake2b]
  -- the message names the pair `i / 2`; only the pairs `0` and `2` have a nonzero digest
  have hmsg : ([(i / 2).toUInt8, 0, 0, 0] = [0, 0, 0, 0] ∨ [(i / 2).toUInt8, 0, 0, 0] = [2, 0, 0, 0]) ↔
      (i / 2 = 0 ∨ i / 2 = 2) := by
    simp only [List.cons.injEq, and_true, ← UInt8.toNat_inj, UInt8.toNat_ofNat, Nat.toUInt8,
      UInt8.toNat_ofNat']
    omega
  by_cases hhit : i / 2 = 0 ∨ i / 2 = 2
  · rw [if_pos (hmsg.mpr hhit)]
    apply Vector.ext
    intro p hp
    rcases Nat.mod_two_eq_zero_or_one i with h | h
    · simp [h, bitTwentyOne, show i = 0 ∨ i = 4 by omega, show p < 54 by omega]
    · simp [h, show ¬(i = 0 ∨ i = 4) by omega, show 27 + p < 54 by omega, show 27 + p ≠ 2 by omega]
  · rw [if_neg (mt hmsg.mp hhit), if_neg (by omega)]
    apply Vector.ext
    intro p hp
    simp only [Vector.getElem_ofFn, Vector.getElem_replicate, Vector.toList_replicate]
    simp only [List.getD_eq_getElem?_getD, List.getElem?_replicate, if_pos (show i % 2 * 27 + p < 54 by omega),
      Option.getD_some, ite_self]

/-- The leaf hashes of the ascending indices under `twoLeafBlake2b`. -/
def twoLeafHashes : List (Vector UInt8 27) :=
  (List.range 512).map fun i ↦ if i = 0 ∨ i = 4 then bitTwentyOne else Vector.replicate 27 0

theorem getD_twoLeafHashes {i : ℕ} (hi : i < 512) :
    twoLeafHashes.getD i default = if i = 0 ∨ i = 4 then bitTwentyOne else Vector.replicate 27 0 := by
  simp [twoLeafHashes, List.getD_eq_getElem?_getD, hi]

theorem getD_map_ofNat_range {i : ℕ} (hi : i < 512) :
    ((List.range 512).map Int32.ofNat).getD i 0 = Int32.ofNat i := by
  simp [List.getD_eq_getElem?_getD, hi]

theorem getIndicesFromMinimal_ascendingSolution :
    EquihashValidator.getIndicesFromMinimal ascendingSolution 21 = (List.range 512).map Int32.ofNat :=
  getIndicesFromMinimal_toBigEndian _ (fun i hi ↦ by rw [List.mem_range] at hi; omega) (by simp)

theorem getSolutionHash_ascending (personalization : Bytes) :
    (EquihashValidator.new 210 9).getSolutionHash twoLeafBlake2b personalization []
      ((List.range 512).map Int32.ofNat) [] = twoLeafHashes := by
  rw [EquihashValidator.getSolutionHash, List.map_map, twoLeafHashes]
  exact List.map_congr_left fun i hi ↦ indexHash_twoLeafBlake2b _ (List.mem_range.mp hi)

/-- A subtree's XOR is `bitTwentyOne` when it holds exactly one of the leaves `0` and `4`, and zero
otherwise. Induction on the height; each marked leaf lies in one half or neither. -/
theorem subtreeXor_twoLeafHashes (r : ℕ) :
    ∀ index, index + 2 ^ r ≤ 512 →
      subtreeXor twoLeafHashes index r =
        if Xor (index = 0) (index ≤ 4 ∧ 4 < index + 2 ^ r) then bitTwentyOne else Vector.replicate 27 0 := by
  induction r with
  | zero =>
    intro index hle
    rw [subtreeXor, getD_twoLeafHashes (by omega)]
    by_cases h : index = 0 ∨ index = 4
    · rw [if_pos h, if_pos (by simp only [Xor, pow_zero]; omega)]
    · rw [if_neg h, if_neg (by simp only [Xor, pow_zero]; omega)]
  | succ r ih =>
    intro index hle
    have hpow : 2 ^ (r + 1) = 2 ^ r + 2 ^ r := by ring
    have hpos : 0 < 2 ^ r := Nat.two_pow_pos r
    rw [subtreeXor, ih index (by omega), ih (index + 2 ^ r) (by omega), hpow, ← Nat.add_assoc]
    -- the parity of the whole is the sum of the halves' parities
    by_cases hl : Xor (index = 0) (index ≤ 4 ∧ 4 < index + 2 ^ r)
    · by_cases hr : Xor (index + 2 ^ r = 0) (index + 2 ^ r ≤ 4 ∧ 4 < index + 2 ^ r + 2 ^ r)
      · -- one marked leaf in each half: their hashes cancel
        rw [if_pos hl, if_pos hr, zipWith_xor_self, if_neg (by simp only [Xor] at hl hr ⊢; omega)]
      · rw [if_pos hl, if_neg hr, zipWith_xor_replicate_zero, if_pos (by simp only [Xor] at hl hr ⊢; omega)]
    · by_cases hr : Xor (index + 2 ^ r = 0) (index + 2 ^ r ≤ 4 ∧ 4 < index + 2 ^ r + 2 ^ r)
      · rw [if_neg hl, if_pos hr, zipWith_replicate_zero_xor, if_pos (by simp only [Xor] at hl hr ⊢; omega)]
      · rw [if_neg hl, if_neg hr, zipWith_xor_self, if_neg (by simp only [Xor] at hl hr ⊢; omega)]
/-- Every node of the ascending indices' tree passes the validator's checks: the indices ascend,
and every subtree's XOR is zero or `bitTwentyOne`, both of which start with 21 zero bits. The whole
tree holds both marked leaves, so its XOR is zero. Induction on the height. -/
theorem treeChecks_ascending (r : ℕ) :
    ∀ index, r ≤ 9 → index + 2 ^ r ≤ 512 →
      EquihashValidator.treeChecks (EquihashValidator.new 210 9) ((List.range 512).map Int32.ofNat)
        twoLeafHashes index r = true := by
  induction r with
  | zero => intro index _ _; rfl
  | succ r ih =>
    intro index hr hle
    have hpow : 2 ^ (r + 1) = 2 ^ r + 2 ^ r := by ring
    have hpos : 0 < 2 ^ r := Nat.two_pow_pos r
    have hord : ((List.range 512).map Int32.ofNat).getD index 0 <
        ((List.range 512).map Int32.ofNat).getD (index + 2 ^ r) 0 := by
      rw [getD_map_ofNat_range (by omega), getD_map_ofNat_range (by omega)]
      exact int32_ofNat_lt_ofNat (by omega) (by omega)
    simp only [EquihashValidator.treeChecks, decide_eq_true hord, ih index (by omega) (by omega),
      ih (index + 2 ^ r) (by omega) (by omega), Bool.true_and, subtreeXor_twoLeafHashes (r + 1) index hle]
    by_cases htop : r + 1 < 9
    · -- below the top the validator checks 21 bits, which both hashes pass
      rw [if_pos (show r + 1 < (EquihashValidator.new 210 9).k from htop)]
      split_ifs <;> decide
    · -- the whole tree: both marked leaves are in it, and its XOR is zero
      obtain rfl : r = 8 := by omega
      obtain rfl : index = 0 := by omega
      rw [if_neg (show ¬8 + 1 < (EquihashValidator.new 210 9).k from htop),
        if_neg (show ¬Xor (0 = 0) (0 ≤ 4 ∧ 4 < 0 + 2 ^ (8 + 1)) by decide)]
      decide

/-- **The validator accepts a solution that is not an Equihash solution.** With the leaf hashes of
`twoLeafBlake2b`, the ascending indices pass every check of `is_valid_solution`, but the subtree
of the first four leaves XORs to `bitTwentyOne`, whose bit 21 is set, although a subtree of four
leaves must collide on its first `2 * 21` bits. -/
theorem isValidSolution_ascendingSolution :
    (EquihashValidator.new 210 9).isValidSolution twoLeafBlake2b ascendingSolution [] [] = true ∧
      ¬EquihashCondition 210 9 21 (EquihashValidator.getIndicesFromMinimal ascendingSolution 21)
        ((EquihashValidator.new 210 9).getSolutionHash twoLeafBlake2b
          (EquihashValidator.new 210 9).personalization []
          (EquihashValidator.getIndicesFromMinimal ascendingSolution 21) []) := by
  have hcbl : (EquihashValidator.new 210 9).collisionBitLength = 21 := rfl
  rw [getIndicesFromMinimal_ascendingSolution, getSolutionHash_ascending]
  constructor
  · have hnodup : ((List.range 512).map Int32.ofNat).Nodup :=
      List.Nodup.map_on (fun a ha b hb h ↦
        int32_ofNat_inj (by rw [List.mem_range] at ha; omega) (by rw [List.mem_range] at hb; omega) h)
        List.nodup_range
    have hk : (EquihashValidator.new 210 9).k = 9 := rfl
    rw [EquihashValidator.isValidSolution_eq (by decide) (by decide), hcbl, hk,
      getIndicesFromMinimal_ascendingSolution, getSolutionHash_ascending,
      (EquihashValidator.hasDuplicate_eq_false_iff _).mpr hnodup,
      treeChecks_ascending 9 0 (le_refl 9) (by norm_num)]
    simp [ascendingSolution, length_toBigEndian, EquihashValidator.new]
  · -- the subtree of leaves 0 to 3 holds leaf 0 and not leaf 4
    intro hcond
    have hfour := hcond.collisions 2 (by norm_num) 0 (by norm_num)
    rw [Nat.zero_mul, subtreeXor_twoLeafHashes 2 0 (by norm_num),
      if_pos (show Xor (0 = 0) (0 ≤ 4 ∧ 4 < 0 + 2 ^ 2) by decide)] at hfour
    exact absurd hfour (by decide)

end Equihash

end AionR
