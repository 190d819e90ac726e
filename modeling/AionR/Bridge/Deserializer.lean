import AionR.Bridge.Transfer
import AionR.Lib.Checked
import AionR.Lib.Except

/-!
# Deserializing bridge calls

`src/core/src/precompiled/atb/bridge_deserializer.rs` reads the arguments of the token bridge's
calls. A call is a four-byte function selector followed by ABI words. A dynamic list is given by a
16-byte meta word at a fixed offset holding the list's position (counted after the selector),
where a 16-byte meta word gives its length, followed by the elements.

The meta words are attacker-controlled, so the source bounds them in several places: `parse_meta`
refuses a position above `i32::MAX` or one whose word does not fit in the call, and `parse_list`
refuses a list longer than 512, or one whose elements run past the call or past `i32::MAX`.

## Panics

The model runs in `Checked`: every `u64` operation, slice, `copy_from_slice` and `unwrap` of the
source is one of its operations, so a model that returns `.ok` is a run of the source without a
panic or an arithmetic overflow. The short-circuiting `||` of `parse_meta` is kept as nested
tests, since the sum it guards is only computed once the position is known to be small.
-/

namespace AionR

/-- `FUNCTION_SIGNATURE`: the length of the selector. -/
def functionSignature : ℕ := 4

/-- `DOUBLE_WORD_SIZE`. -/
def doubleWordSize : ℕ := 32

/-- `ADDRESS_SIZE`. -/
def addressSize : ℕ := 32

/-- `LIST_META_LEN`: the length of a meta word. -/
def listMetaLen : ℕ := 16

/-- `LIST_SIZE_MAX`. -/
def listSizeMax : ℕ := 512

/-- `ADDRESS_HEADER`: the first byte of a user account address. -/
def addressHeader : UInt8 := 0xa0

/-- `MAX_SIGNED_4_BYTES_AS_U64`: `i32::MAX`. -/
def maxSigned4BytesAsU64 : ℕ := 2 ^ 31 - 1

/-- `is_invalid_address`: not 32 bytes, or not a user address. -/
def isInvalidAddress (address : Bytes) : Bool :=
  decide (address.length ≠ addressSize) || address.head? != some addressHeader

/-- `parse_meta`: the number in the 16-byte meta word at `offset`, if it is at most `i32::MAX`. -/
def parseMeta (call : Bytes) (offset : ℕ) : Checked (Option ℕ) := do
  let callLen := call.length
  if offset > maxSigned4BytesAsU64 then return none
  if offset > callLen then return none
  if (← Checked.add 64 offset listMetaLen) > callLen then return none
  let metaBytes ← Checked.copyFromSlice listMetaLen
    (← Checked.slice call offset (← Checked.add 64 offset listMetaLen))
  let ptBigint := fromBigEndian metaBytes
  if ptBigint > maxSigned4BytesAsU64 then return none
  -- `to_u64().unwrap()`
  return some (← Checked.unwrap (if ptBigint < 2 ^ 64 then some ptBigint else none))

/-- The loop of `parse_list`: the `i`-th element of `elementLength` bytes from `start` on. -/
def parseListElement (call : Bytes) (start elementLength i : ℕ) : Checked Bytes := do
  let lo ← Checked.add 64 (← Checked.mul 64 i elementLength) start
  let hi ← Checked.add 64 (← Checked.mul 64 (← Checked.add 64 i 1) elementLength) start
  Checked.copyFromSlice elementLength (← Checked.slice call lo hi)

/-- `parse_list`: the list whose position is in the meta word at `offset`. -/
def parseList (call : Bytes) (offset elementLength : ℕ) : Checked (Option (List Bytes)) := do
  let callLen := call.length
  if callLen < (← Checked.add 64 offset (listMetaLen * 2)) then return none
  match ← parseMeta call offset with
  | none => return none
  | some listPos =>
    let listPos ← Checked.add 64 listPos functionSignature
    match ← parseMeta call listPos with
    | none => return none
    | some listLen =>
      if listLen > listSizeMax then return none
      let consumedLength ← Checked.mul 64 listLen elementLength
      if consumedLength > (← Checked.sub (← Checked.sub callLen listPos) listMetaLen) then
        return none
      let start ← Checked.add 64 listPos listMetaLen
      if start > maxSigned4BytesAsU64 then return none
      let «end» ← Checked.add 64 start consumedLength
      if «end» > maxSigned4BytesAsU64 then return none
      return some (← (List.range listLen).mapM (parseListElement call start elementLength))

/-- `parse_double_word_from_call`: the 32 bytes after the selector. -/
def parseDoubleWordFromCall (call : Bytes) : Checked (Option Bytes) := do
  if call.length < functionSignature + doubleWordSize then return none
  return some (← Checked.copyFromSlice addressSize
    (← Checked.slice call functionSignature (functionSignature + addressSize)))

/-- `parse_address_from_call`: the address argument of a call, if it is a user address. -/
def parseAddressFromCall (call : Bytes) : Checked (Option Bytes) := do
  match ← parseDoubleWordFromCall call with
  | some address => return if isInvalidAddress address then none else some address
  | none => return none

/-- `parse_address_list`: the list of user addresses of `initializeRing`. -/
def parseAddressList (call : Bytes) : Checked (Option (List Bytes)) := do
  if call.length < functionSignature + doubleWordSize then return none
  match ← parseList call functionSignature 32 with
  | none => return none
  | some addressListParsed =>
    return if addressListParsed.any isInvalidAddress then none else some addressListParsed

/-- `BundleRequestCall`. -/
structure BundleRequestCall where
  blockHash : Bytes
  bundles : List BridgeTransfer
  signatures : List Bytes
  deriving DecidableEq, Repr

/-- One round of the signature loop of `parse_bundle_request`: the three chunks of the `i`-th
signature, one after the other. -/
def mergeSignature (chunk0 chunk1 chunk2 : List Bytes) (i : ℕ) : Checked Bytes := do
  let m0 ← Checked.index chunk0 i
  let m1 ← Checked.index chunk1 i
  let m2 ← Checked.index chunk2 i
  return m0 ++ m1 ++ m2

/-- The transfer loop of `parse_bundle_request` over the indices `is`: any transfer that
`get_instance` refuses breaks the bundle. -/
def packageBundles [BigIntBytes] (uintList addressList sourceTransactionList : List Bytes) :
    List ℕ → Checked (Option (List BridgeTransfer))
  | [] => return some []
  | i :: is => do
    let value := fromBigEndian (← Checked.index uintList i)
    let recipient ← Checked.toVector 32 (← Checked.index addressList i)
    let srcTxHash ← Checked.toVector 32 (← Checked.index sourceTransactionList i)
    match getInstance value recipient srcTxHash with
    | some transfer =>
      return (← packageBundles uintList addressList sourceTransactionList is).map (transfer :: ·)
    | none => return none

/-- `parse_bundle_request`: block hash, source transaction hashes, recipients, values and the
three chunk lists of the signatures. -/
def parseBundleRequest [BigIntBytes] (call : Bytes) : Checked (Option BundleRequestCall) := do
  if call.length < functionSignature + doubleWordSize + (listMetaLen * 2) * 5 then return none
  let some blockHash ← parseDoubleWordFromCall call | return none
  let some sourceTransactionList ← parseList call (functionSignature + doubleWordSize) 32
    | return none
  let some addressList ← parseList call (functionSignature + doubleWordSize + listMetaLen) 32
    | return none
  let some uintList ← parseList call (functionSignature + doubleWordSize + listMetaLen * 2) 16
    | return none
  if addressList.length ≠ uintList.length ∨ addressList.length ≠ sourceTransactionList.length then
    return none
  let some signatureChunk0 ←
      parseList call (functionSignature + listMetaLen * 3 + doubleWordSize) 32 | return none
  let some signatureChunk1 ←
      parseList call (functionSignature + listMetaLen * 4 + doubleWordSize) 32 | return none
  let some signatureChunk2 ←
      parseList call (functionSignature + listMetaLen * 5 + doubleWordSize) 32 | return none
  if signatureChunk0.length ≠ signatureChunk1.length ∨
      signatureChunk0.length ≠ signatureChunk2.length then
    return none
  let mergedSignatureList ← (List.range signatureChunk0.length).mapM
    (mergeSignature signatureChunk0 signatureChunk1 signatureChunk2)
  let some bundles ← packageBundles uintList addressList sourceTransactionList
    (List.range uintList.length) | return none
  return some ⟨blockHash, bundles, mergedSignatureList⟩

/-! ## Reading a meta word -/

/-- The number in the meta word at `offset`. -/
def metaWord (call : Bytes) (offset : ℕ) : ℕ :=
  fromBigEndian ((call.drop offset).take listMetaLen)

theorem maxSigned4BytesAsU64_eq : maxSigned4BytesAsU64 = 2147483647 := rfl

theorem listMetaLen_eq : listMetaLen = 16 := rfl

theorem listSizeMax_eq : listSizeMax = 512 := rfl

theorem functionSignature_eq : functionSignature = 4 := rfl

/-- `parse_meta` never panics: it reads the meta word when the offset and the word's number are
at most `i32::MAX` and the word lies inside the call. -/
theorem parseMeta_eq (call : Bytes) (offset : ℕ) :
    parseMeta call offset = .ok (if offset ≤ maxSigned4BytesAsU64 ∧
        offset + listMetaLen ≤ call.length ∧ metaWord call offset ≤ maxSigned4BytesAsU64
      then some (metaWord call offset) else none) := by
  have hmax := maxSigned4BytesAsU64_eq
  have hmeta := listMetaLen_eq
  unfold parseMeta
  dsimp only
  by_cases hbig : offset > maxSigned4BytesAsU64
  · rw [if_pos hbig, if_neg (by omega)]
    rfl
  rw [if_neg hbig]
  by_cases hlen : offset > call.length
  · rw [if_pos hlen, if_neg (by omega)]
    rfl
  have hadd : Checked.add 64 offset listMetaLen = .ok (offset + listMetaLen) :=
    Checked.add_of_lt (by omega)
  rw [if_neg hlen, hadd, except_ok_bind]
  by_cases hfit : offset + listMetaLen > call.length
  · rw [if_pos hfit, if_neg (by omega)]
    rfl
  -- the word lies inside the call, so it is read whole
  have hword : ((call.drop offset).take listMetaLen).length = listMetaLen := by
    rw [List.length_take, List.length_drop]
    omega
  rw [if_neg hfit, except_ok_bind, Checked.slice_of_le (Nat.le_add_right _ _) (by omega),
    Nat.add_sub_cancel_left, except_ok_bind, Checked.copyFromSlice_of_length hword,
    except_ok_bind]
  rw [← metaWord]
  by_cases hpt : metaWord call offset > maxSigned4BytesAsU64
  · rw [if_pos hpt, if_neg (by omega)]
    rfl
  rw [if_neg hpt, if_pos (by omega), Checked.unwrap_some, except_ok_bind,
    if_pos ⟨by omega, by omega, by omega⟩]
  rfl

theorem parseMeta_eq_some {call : Bytes} {offset p : ℕ} (h : parseMeta call offset = .ok (some p)) :
    offset + listMetaLen ≤ call.length ∧ p ≤ maxSigned4BytesAsU64 ∧ p = metaWord call offset := by
  rw [parseMeta_eq] at h
  split at h
  · cases h
    exact ⟨‹_ ∧ _ ∧ _›.2.1, ‹_ ∧ _ ∧ _›.2.2, rfl⟩
  · cases h

/-! ## Reading a list -/

/-- One round of the loop of `parse_list` copies the `i`-th element. -/
theorem parseListElement_eq (call : Bytes) {start w i : ℕ} (hi : i + 1 < 2 ^ 64)
    (hend : start + (i + 1) * w < 2 ^ 64) (hlen : start + (i + 1) * w ≤ call.length) :
    parseListElement call start w i = .ok ((call.drop (start + i * w)).take w) := by
  have hstep : (i + 1) * w = i * w + w := Nat.succ_mul i w
  have hlo : i * w + start < 2 ^ 64 := by omega
  have hcopy : ((call.drop (i * w + start)).take (i * w + w + start - (i * w + start))).length =
      w := by
    rw [List.length_take, List.length_drop]
    omega
  unfold parseListElement
  rw [Checked.mul_of_lt (by omega), except_ok_bind, Checked.add_of_lt hlo, except_ok_bind,
    Checked.add_of_lt hi, except_ok_bind, Checked.mul_of_lt (by omega), except_ok_bind, hstep,
    Checked.add_of_lt (by omega), except_ok_bind, Checked.slice_of_le (by omega) (by omega),
    except_ok_bind, Checked.copyFromSlice_of_length hcopy]
  congr 3
  · omega
  · omega

/-- What a list that `parse_list` returns is: at most 512 elements of `w` bytes each, read one
after the other from just after the list's length word and all inside the call. -/
theorem parseList_eq_some {call : Bytes} {offset w : ℕ} {v : List Bytes}
    (h : parseList call offset w = .ok (some v)) :
    ∃ listPos, parseMeta call offset = .ok (some listPos) ∧ v.length ≤ listSizeMax ∧
      listPos + functionSignature + listMetaLen + v.length * w ≤ call.length ∧
      ∀ i (hi : i < v.length), Checked.slice call (listPos + functionSignature + listMetaLen + i * w)
        (listPos + functionSignature + listMetaLen + (i + 1) * w) = .ok v[i] := by
  have hmax := maxSigned4BytesAsU64_eq
  unfold parseList at h
  dsimp only at h
  obtain ⟨a, ha, h⟩ := except_bind_eq_ok.mp h
  obtain ⟨-, rfl⟩ := Checked.add_eq_ok ha
  obtain ⟨-, h⟩ := ite_none_eq_ok_some h
  obtain ⟨m, hm, h⟩ := except_bind_eq_ok.mp h
  cases m with
  | none => cases h
  | some listPos =>
  dsimp only at h
  obtain ⟨p, hp, h⟩ := except_bind_eq_ok.mp h
  obtain ⟨-, rfl⟩ := Checked.add_eq_ok hp
  obtain ⟨m, hm', h⟩ := except_bind_eq_ok.mp h
  cases m with
  | none => cases h
  | some listLen =>
  dsimp only at h
  -- each guard that returns nothing was passed, and each operation returned
  obtain ⟨hsize, h⟩ := ite_none_eq_ok_some h
  obtain ⟨consumed, hc, h⟩ := except_bind_eq_ok.mp h
  obtain ⟨-, rfl⟩ := Checked.mul_eq_ok hc
  obtain ⟨r, hr, h⟩ := except_bind_eq_ok.mp h
  obtain ⟨hle₁, rfl⟩ := Checked.sub_eq_ok hr
  obtain ⟨r, hr, h⟩ := except_bind_eq_ok.mp h
  obtain ⟨hle₂, rfl⟩ := Checked.sub_eq_ok hr
  obtain ⟨hfit, h⟩ := ite_none_eq_ok_some h
  obtain ⟨start, hstart, h⟩ := except_bind_eq_ok.mp h
  obtain ⟨-, rfl⟩ := Checked.add_eq_ok hstart
  obtain ⟨-, h⟩ := ite_none_eq_ok_some h
  obtain ⟨e, he, h⟩ := except_bind_eq_ok.mp h
  obtain ⟨hend, rfl⟩ := Checked.add_eq_ok he
  obtain ⟨-, h⟩ := ite_none_eq_ok_some h
  obtain ⟨out, hout, h⟩ := except_bind_eq_ok.mp h
  cases h
  obtain ⟨hlen, hget⟩ := mapM_eq_ok hout
  rw [List.length_range] at hlen
  have hmeta := listMetaLen_eq
  have hsizeMax := listSizeMax_eq
  refine ⟨listPos, hm, by omega, by rw [hlen]; omega, fun i hi ↦ ?_⟩
  -- the `i`-th round reads inside the call, since every element up to the last one does
  have hi' : i < listLen := hlen ▸ hi
  have hstep : (i + 1) * w ≤ listLen * w := Nat.mul_le_mul_right w hi'
  have hsucc : (i + 1) * w = i * w + w := Nat.succ_mul i w
  have hround := hget i (by rw [List.length_range]; exact hi') hi
  have hread := @parseListElement_eq call (listPos + functionSignature + listMetaLen) w i
    (by omega) (by omega) (by omega)
  have hwidth : listPos + functionSignature + listMetaLen + (i + 1) * w -
      (listPos + functionSignature + listMetaLen + i * w) = w := by omega
  rw [List.getElem_range, hread] at hround
  rw [Checked.slice_of_le (by omega) (by omega), hwidth, Except.ok.inj hround]

/-- Every element of a list that `parse_list` returns has the element length. -/
theorem length_of_mem_parseList {call : Bytes} {offset w : ℕ} {v : List Bytes}
    (h : parseList call offset w = .ok (some v)) {x : Bytes} (hx : x ∈ v) : x.length = w := by
  obtain ⟨listPos, -, -, -, hslice⟩ := parseList_eq_some h
  obtain ⟨i, hi, rfl⟩ := List.mem_iff_getElem.mp hx
  rw [Checked.length_slice (hslice i hi), Nat.succ_mul]
  omega

/-- `parse_list` never panics when its offset and element length are small, as they are at every
call site. -/
theorem parseList_ok (call : Bytes) {offset w : ℕ} (hoff : offset + listMetaLen * 2 < 2 ^ 64)
    (hw : w ≤ 2 ^ 32) : ∃ r, parseList call offset w = .ok r := by
  have hmax := maxSigned4BytesAsU64_eq
  have hmeta := listMetaLen_eq
  have hsizeMax := listSizeMax_eq
  have hsig := functionSignature_eq
  unfold parseList
  dsimp only
  rw [Checked.add_of_lt hoff, except_ok_bind]
  refine ite_none_ok fun _ ↦ ?_
  rw [parseMeta_eq, except_ok_bind]
  by_cases hpos : offset ≤ maxSigned4BytesAsU64 ∧ offset + listMetaLen ≤ call.length ∧
      metaWord call offset ≤ maxSigned4BytesAsU64
  case neg => exact ⟨none, by rw [if_neg hpos]; rfl⟩
  rw [if_pos hpos]
  dsimp only
  rw [Checked.add_of_lt (by omega), except_ok_bind, parseMeta_eq, except_ok_bind]
  by_cases hlen : metaWord call offset + functionSignature ≤ maxSigned4BytesAsU64 ∧
      metaWord call offset + functionSignature + listMetaLen ≤ call.length ∧
      metaWord call (metaWord call offset + functionSignature) ≤ maxSigned4BytesAsU64
  case neg => exact ⟨none, by rw [if_neg hlen]; rfl⟩
  rw [if_pos hlen]
  dsimp only
  generalize metaWord call offset + functionSignature = listPos at hlen ⊢
  generalize metaWord call listPos = listLen at hlen ⊢
  refine ite_none_ok fun hsize ↦ ?_
  -- at most 512 elements of at most 2^32 bytes: no operation on the sizes overflows
  have hmul : listLen * w ≤ 512 * 2 ^ 32 := Nat.mul_le_mul (by omega) hw
  rw [Checked.mul_of_lt (by omega), except_ok_bind, Checked.sub_of_le (by omega), except_ok_bind,
    Checked.sub_of_le (by omega), except_ok_bind]
  refine ite_none_ok fun hfit ↦ ?_
  rw [Checked.add_of_lt (by omega), except_ok_bind]
  refine ite_none_ok fun _ ↦ ?_
  rw [Checked.add_of_lt (by omega), except_ok_bind]
  refine ite_none_ok fun _ ↦ ?_
  -- every round of the loop reads inside the call
  obtain ⟨out, hout⟩ :=
    @mapM_ok_of_forall _ _ _ (parseListElement call (listPos + listMetaLen) w)
    (List.range listLen) fun i hi ↦ by
      have hi : i < listLen := List.mem_range.mp hi
      have hstep : (i + 1) * w ≤ listLen * w := Nat.mul_le_mul_right w hi
      exact ⟨_, parseListElement_eq call (by omega) (by omega) (by omega)⟩
  exact ⟨some out, by rw [hout, except_ok_bind]; rfl⟩

/-! ## The calls -/

/-- `parse_double_word_from_call` never panics: it reads the 32 bytes after the selector. -/
theorem parseDoubleWordFromCall_eq (call : Bytes) :
    parseDoubleWordFromCall call = .ok (if call.length < functionSignature + doubleWordSize then none
      else some ((call.drop functionSignature).take addressSize)) := by
  have hsig := functionSignature_eq
  have hword : doubleWordSize = 32 := rfl
  have haddr : addressSize = 32 := rfl
  unfold parseDoubleWordFromCall
  by_cases hlen : call.length < functionSignature + doubleWordSize
  · rw [if_pos hlen, if_pos hlen]
    rfl
  have hcopy : ((call.drop functionSignature).take addressSize).length = addressSize := by
    rw [List.length_take, List.length_drop]
    omega
  rw [if_neg hlen, if_neg hlen, Checked.slice_of_le (Nat.le_add_right _ _) (by omega),
    Nat.add_sub_cancel_left, except_ok_bind, Checked.copyFromSlice_of_length hcopy, except_ok_bind]
  rfl

theorem parseAddressFromCall_ok (call : Bytes) : ∃ r, parseAddressFromCall call = .ok r := by
  rw [parseAddressFromCall, parseDoubleWordFromCall_eq, except_ok_bind]
  split <;> exact ⟨_, rfl⟩

theorem parseAddressList_ok (call : Bytes) : ∃ r, parseAddressList call = .ok r := by
  unfold parseAddressList
  refine ite_none_ok fun _ ↦ ?_
  obtain ⟨r, hr⟩ := @parseList_ok call functionSignature 32 (by decide) (by decide)
  rw [hr, except_ok_bind]
  cases r <;> exact ⟨_, rfl⟩

/-- One round of the signature loop reads the three chunks at an index below their lengths. -/
theorem mergeSignature_eq {chunk0 chunk1 chunk2 : List Bytes} {i : ℕ} (h0 : i < chunk0.length)
    (h1 : i < chunk1.length) (h2 : i < chunk2.length) :
    mergeSignature chunk0 chunk1 chunk2 i = .ok (chunk0[i] ++ chunk1[i] ++ chunk2[i]) := by
  rw [mergeSignature, Checked.index_of_lt h0, except_ok_bind, Checked.index_of_lt h1,
    except_ok_bind, Checked.index_of_lt h2, except_ok_bind]
  rfl

/-! ## Bundle requests -/

section Bundles

variable [BigIntBytes]

/-- The transfer loop never panics over indices below the lengths of the three lists, when the
recipients and source transaction hashes have 32 bytes, as `H256::from` requires. -/
theorem packageBundles_ok {uintList addressList sourceTransactionList : List Bytes}
    (haddr : ∀ x ∈ addressList, x.length = 32) (hsrc : ∀ x ∈ sourceTransactionList, x.length = 32) :
    ∀ {is : List ℕ}, (∀ i ∈ is, i < uintList.length ∧ i < addressList.length ∧
      i < sourceTransactionList.length) →
      ∃ r, packageBundles uintList addressList sourceTransactionList is = .ok r
  | [], _ => ⟨some [], rfl⟩
  | i :: is, h => by
    obtain ⟨hu, ha, hs⟩ := h i List.mem_cons_self
    obtain ⟨recipient, hrecipient, -⟩ :=
      Checked.toVector_of_length (haddr _ (List.getElem_mem ha))
    obtain ⟨srcTxHash, hsrcTx, -⟩ := Checked.toVector_of_length (hsrc _ (List.getElem_mem hs))
    rw [packageBundles, Checked.index_of_lt hu, except_ok_bind, Checked.index_of_lt ha,
      except_ok_bind, hrecipient, except_ok_bind, Checked.index_of_lt hs, except_ok_bind, hsrcTx,
      except_ok_bind]
    split
    · obtain ⟨r, hr⟩ :=
        packageBundles_ok haddr hsrc fun j hj ↦ h j (List.mem_cons_of_mem i hj)
      exact ⟨_, by rw [hr, except_ok_bind]; rfl⟩
    · exact ⟨none, rfl⟩

/-- The transfer loop that returns transfers returns one per index. -/
theorem length_packageBundles {uintList addressList sourceTransactionList : List Bytes} :
    ∀ {is : List ℕ} {bundles : List BridgeTransfer},
      packageBundles uintList addressList sourceTransactionList is = .ok (some bundles) →
      bundles.length = is.length
  | [], bundles, h => by
    cases h
    rfl
  | i :: is, bundles, h => by
    rw [packageBundles] at h
    obtain ⟨_, -, h⟩ := except_bind_eq_ok.mp h
    obtain ⟨_, -, h⟩ := except_bind_eq_ok.mp h
    obtain ⟨_, -, h⟩ := except_bind_eq_ok.mp h
    obtain ⟨_, -, h⟩ := except_bind_eq_ok.mp h
    obtain ⟨_, -, h⟩ := except_bind_eq_ok.mp h
    split at h
    · obtain ⟨rest, hrest, h⟩ := except_bind_eq_ok.mp h
      cases rest with
      | none => cases h
      | some rest =>
        cases h
        rw [List.length_cons, List.length_cons, length_packageBundles hrest]
    · cases h

theorem parseBundleRequest_ok (call : Bytes) : ∃ r, parseBundleRequest call = .ok r := by
  unfold parseBundleRequest
  refine ite_none_ok fun _ ↦ ?_
  rw [parseDoubleWordFromCall_eq, except_ok_bind]
  by_cases hshort : call.length < functionSignature + doubleWordSize
  · exact ⟨none, by rw [if_pos hshort]; rfl⟩
  rw [if_neg hshort]
  dsimp only
  refine bind_option_ok (parseList_ok call (by decide) (by decide)) (fun _ ↦ ⟨none, rfl⟩)
    fun sources hsources ↦ ?_
  dsimp only
  refine bind_option_ok (parseList_ok call (by decide) (by decide)) (fun _ ↦ ⟨none, rfl⟩)
    fun addresses haddresses ↦ ?_
  dsimp only
  refine bind_option_ok (parseList_ok call (by decide) (by decide)) (fun _ ↦ ⟨none, rfl⟩)
    fun values hvalues ↦ ?_
  dsimp only
  refine ite_none_ok fun hlists ↦ ?_
  refine bind_option_ok (parseList_ok call (by decide) (by decide)) (fun _ ↦ ⟨none, rfl⟩)
    fun chunk0 _ ↦ ?_
  dsimp only
  refine bind_option_ok (parseList_ok call (by decide) (by decide)) (fun _ ↦ ⟨none, rfl⟩)
    fun chunk1 _ ↦ ?_
  dsimp only
  refine bind_option_ok (parseList_ok call (by decide) (by decide)) (fun _ ↦ ⟨none, rfl⟩)
    fun chunk2 _ ↦ ?_
  dsimp only
  refine ite_none_ok fun hchunks ↦ ?_
  obtain ⟨h01, h02⟩ := not_or.mp hchunks
  obtain ⟨merged, hmerged⟩ := @mapM_ok_of_forall _ _ _ (mergeSignature chunk0 chunk1 chunk2)
    (List.range chunk0.length) fun i hi ↦ by
      have hi : i < chunk0.length := List.mem_range.mp hi
      exact ⟨_, mergeSignature_eq hi (by omega) (by omega)⟩
  rw [hmerged, except_ok_bind]
  -- the transfer loop reads every list at indices below their common length
  obtain ⟨hav, has⟩ := not_or.mp hlists
  refine bind_option_ok (packageBundles_ok (fun x hx ↦ length_of_mem_parseList haddresses hx)
    (fun x hx ↦ length_of_mem_parseList hsources hx) fun i hi ↦ ?_) (fun _ ↦ ⟨none, rfl⟩)
    fun bundles _ ↦ ⟨_, rfl⟩
  have hi : i < values.length := List.mem_range.mp hi
  exact ⟨hi, by omega, by omega⟩

/-- A bundle request that `parse_bundle_request` returns was read from lists of equal length: the
source transaction hashes, recipients and values, and the three signature chunks. -/
theorem parseBundleRequest_eq_some {call : Bytes} {r : BundleRequestCall}
    (h : parseBundleRequest call = .ok (some r)) :
    ∃ sources addresses values chunk0 chunk1 chunk2,
      parseList call (functionSignature + doubleWordSize) 32 = .ok (some sources) ∧
      parseList call (functionSignature + doubleWordSize + listMetaLen) 32 = .ok (some addresses) ∧
      parseList call (functionSignature + doubleWordSize + listMetaLen * 2) 16 =
        .ok (some values) ∧
      parseList call (functionSignature + listMetaLen * 3 + doubleWordSize) 32 =
        .ok (some chunk0) ∧
      parseList call (functionSignature + listMetaLen * 4 + doubleWordSize) 32 =
        .ok (some chunk1) ∧
      parseList call (functionSignature + listMetaLen * 5 + doubleWordSize) 32 =
        .ok (some chunk2) ∧
      sources.length = addresses.length ∧ addresses.length = values.length ∧
      chunk0.length = chunk1.length ∧ chunk1.length = chunk2.length ∧
      r.bundles.length = values.length ∧ r.signatures.length = chunk0.length := by
  unfold parseBundleRequest at h
  obtain ⟨-, h⟩ := ite_none_eq_ok_some h
  obtain ⟨blockHash, -, h⟩ := bind_option_eq_ok_some h rfl
  obtain ⟨sources, hsources, h⟩ := bind_option_eq_ok_some h rfl
  obtain ⟨addresses, haddresses, h⟩ := bind_option_eq_ok_some h rfl
  obtain ⟨values, hvalues, h⟩ := bind_option_eq_ok_some h rfl
  obtain ⟨hlists, h⟩ := ite_none_eq_ok_some h
  obtain ⟨chunk0, hchunk0, h⟩ := bind_option_eq_ok_some h rfl
  obtain ⟨chunk1, hchunk1, h⟩ := bind_option_eq_ok_some h rfl
  obtain ⟨chunk2, hchunk2, h⟩ := bind_option_eq_ok_some h rfl
  obtain ⟨hchunks, h⟩ := ite_none_eq_ok_some h
  obtain ⟨merged, hmerged, h⟩ := except_bind_eq_ok.mp h
  obtain ⟨bundles, hbundles, h⟩ := bind_option_eq_ok_some h rfl
  cases h
  obtain ⟨hav, has⟩ := not_or.mp hlists
  obtain ⟨h01, h02⟩ := not_or.mp hchunks
  refine ⟨sources, addresses, values, chunk0, chunk1, chunk2, hsources, haddresses, hvalues,
    hchunk0, hchunk1, hchunk2, by omega, by omega, by omega, by omega, ?_, ?_⟩
  · rw [length_packageBundles hbundles, List.length_range]
  · rw [(mapM_eq_ok hmerged).1, List.length_range]

/-- The deserializer never panics on any call, and what it returns lies inside the call: a list
has at most 512 elements of `w` bytes, the `i`-th read from `start + i * w`, with `start` just
after the list's length word; a bundle request comes from lists of equal lengths. -/
theorem bridgeDeserializer_safe :
    (∀ call, (∃ r, parseAddressFromCall call = .ok r) ∧ (∃ r, parseAddressList call = .ok r) ∧
      ∃ r, parseBundleRequest call = .ok r) ∧
    (∀ call offset w v, parseList call offset w = .ok (some v) →
      v.length ≤ listSizeMax ∧ ∃ listPos, parseMeta call offset = .ok (some listPos) ∧
        listPos + functionSignature + listMetaLen + v.length * w ≤ call.length ∧
        ∀ i (hi : i < v.length), v[i].length = w ∧
          Checked.slice call (listPos + functionSignature + listMetaLen + i * w)
            (listPos + functionSignature + listMetaLen + (i + 1) * w) = .ok v[i]) ∧
    ∀ call r, parseBundleRequest call = .ok (some r) →
      ∃ sources addresses values chunk0 chunk1 chunk2,
        parseList call (functionSignature + doubleWordSize) 32 = .ok (some sources) ∧
        parseList call (functionSignature + doubleWordSize + listMetaLen) 32 =
          .ok (some addresses) ∧
        parseList call (functionSignature + doubleWordSize + listMetaLen * 2) 16 =
          .ok (some values) ∧
        parseList call (functionSignature + listMetaLen * 3 + doubleWordSize) 32 =
          .ok (some chunk0) ∧
        parseList call (functionSignature + listMetaLen * 4 + doubleWordSize) 32 =
          .ok (some chunk1) ∧
        parseList call (functionSignature + listMetaLen * 5 + doubleWordSize) 32 =
          .ok (some chunk2) ∧
        sources.length = addresses.length ∧ addresses.length = values.length ∧
        chunk0.length = chunk1.length ∧ chunk1.length = chunk2.length := by
  refine ⟨fun call ↦ ⟨parseAddressFromCall_ok call, parseAddressList_ok call,
    parseBundleRequest_ok call⟩, fun call offset w v h ↦ ?_, fun call r h ↦ ?_⟩
  · obtain ⟨listPos, hmeta, hlen, hend, hslice⟩ := parseList_eq_some h
    exact ⟨hlen, listPos, hmeta, hend, fun i hi ↦
      ⟨length_of_mem_parseList h (List.getElem_mem hi), hslice i hi⟩⟩
  · obtain ⟨sources, addresses, values, chunk0, chunk1, chunk2, h₁, h₂, h₃, h₄, h₅, h₆, hsa,
      hav, h01, h12, -, -⟩ := parseBundleRequest_eq_some h
    exact ⟨sources, addresses, values, chunk0, chunk1, chunk2, h₁, h₂, h₃, h₄, h₅, h₆, hsa,
      hav, h01, h12⟩

end Bundles

end AionR
