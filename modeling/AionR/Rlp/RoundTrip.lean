import AionR.Rlp.UntrustedRlp
import AionR.Lib.Except
import Mathlib.Tactic.IntervalCases

/-!
# Decoding what the stream writes

`UntrustedRlp` inverts `RlpStream` on the stream's own output: every header the stream writes is
classified back to the lengths it was written for, `at` finds the items of a list where the stream
put them, `item_count` counts them, and each value decoder returns the value that was appended.

All of this needs the lengths to survive `insert_size`'s cast to `u32`: an item whose encoding is
shorter than `2³²` bytes has no longer length inside it, so that one bound on the outermost item
is the only hypothesis.
-/

namespace AionR

namespace Rlp

/-- The header written in front of a payload of `len` bytes: `base + len` for a short payload,
`base + 55 + |len|` followed by the length otherwise. `base` is `0x80` for strings and `0xc0` for
lists. -/
def lengthHeader (base : UInt8) (len : ℕ) : Bytes :=
  if len ≤ 55 then [base + len.toUInt8]
  else (base + 55 + (sizeBytes len).length.toUInt8) :: sizeBytes len

/-! ## Lengths written by `insert_size` -/

section SizeBytes

variable {len : ℕ}

theorem fromBigEndian_sizeBytes (hlt : len < 2 ^ 32) : fromBigEndian (sizeBytes len) = len := by
  rw [sizeBytes, fromBigEndian_minimalBigEndian, Nat.mod_eq_of_lt (by norm_num; omega)]

theorem length_sizeBytes_le (len : ℕ) : (sizeBytes len).length ≤ 4 := by
  have := length_stripLeadingZeros_le (toBigEndian 4 len)
  rwa [length_toBigEndian] at this

theorem sizeBytes_ne_nil (hpos : 0 < len) (hlt : len < 2 ^ 32) : sizeBytes len ≠ [] := by
  intro h
  have := fromBigEndian_sizeBytes hlt
  rw [h, fromBigEndian_nil] at this
  omega

theorem head_sizeBytes_ne_zero {b : UInt8} {rest : Bytes} (h : sizeBytes len = b :: rest) :
    b ≠ 0 :=
  head_stripLeadingZeros_ne_zero h

theorem decodeUsize_sizeBytes (hpos : 0 < len) (hlt : len < 2 ^ 32) :
    decodeUsize (sizeBytes len) = .ok len := by
  have hlen := length_sizeBytes_le len
  have hhead : ¬((sizeBytes len).head? = some 0 ∧ 1 < (sizeBytes len).length) := by
    rintro ⟨hh, -⟩
    obtain ⟨b, rest, hbr⟩ := List.exists_cons_of_ne_nil (sizeBytes_ne_nil hpos hlt)
    rw [hbr, List.head?_cons, Option.some.injEq] at hh
    exact head_sizeBytes_ne_zero hbr hh
  rw [decodeUsize, if_pos (by omega), if_neg hhead, fromBigEndian_sizeBytes hlt]

end SizeBytes

/-! ## Classifying headers -/

theorem toNat_add_toUInt8 {base : UInt8} {n : ℕ} (h : base.toNat + n < 256) :
    (base + n.toUInt8).toNat = base.toNat + n := by
  rw [UInt8.toNat_add, Nat.toUInt8, UInt8.toNat_ofNat']
  have hn : n % 2 ^ 8 = n := Nat.mod_eq_of_lt (by omega)
  rw [hn, Nat.mod_eq_of_lt (by omega)]

/-- `PayloadInfo::from` on a first byte, with the byte ranges as numbers. -/
theorem payloadInfoFrom_cons (l : UInt8) (rest : Bytes) :
    PayloadInfo.from (l :: rest) =
      if l.toNat ≤ 127 then .ok ⟨0, 1⟩
      else if l.toNat ≤ 183 then .ok ⟨1, l.toNat - 128⟩
      else if l.toNat ≤ 191 then calculatePayloadInfo (l :: rest) (l.toNat - 183)
      else if l.toNat ≤ 247 then .ok ⟨1, l.toNat - 192⟩
      else calculatePayloadInfo (l :: rest) (l.toNat - 247) := by
  simp [PayloadInfo.from, UInt8.le_iff_toNat_le]

/-- `calculate_payload_info` on a long header: the length bytes are read back. -/
theorem calculatePayloadInfo_sizeBytes (b : UInt8) {len : ℕ} (hlen : 55 < len)
    (hlt : len < 2 ^ 32) (rest : Bytes) :
    calculatePayloadInfo (b :: (sizeBytes len ++ rest)) (sizeBytes len).length =
      .ok ⟨1 + (sizeBytes len).length, len⟩ := by
  obtain ⟨c, cs, hc⟩ := List.exists_cons_of_ne_nil (sizeBytes_ne_nil (by omega) hlt)
  have hc0 : c ≠ 0 := head_sizeBytes_ne_zero hc
  have htake : ((b :: (sizeBytes len ++ rest)).take (1 + (sizeBytes len).length)).drop 1 =
      sizeBytes len := by
    rw [show 1 + (sizeBytes len).length = (sizeBytes len).length + 1 by omega]
    simp
  have hsecond : ((b :: (sizeBytes len ++ rest))[1]? : Option UInt8) = some c := by
    rw [hc]; rfl
  rw [calculatePayloadInfo, hsecond]
  simp only [htake, decodeUsize_sizeBytes (by omega : 0 < len) hlt]
  rw [if_neg (by simp; omega)]
  simp

-- Several proofs below unfold these at once: their equation lemmas are generated here, once.
section
attribute [local simp] lengthHeader PayloadInfo.total consume
end

/-- `PayloadInfo::from` on the header of a string or a list of `len` bytes. -/
theorem payloadInfoFrom_lengthHeader {base : UInt8} (hb : base = 0x80 ∨ base = 0xc0) {len : ℕ}
    (hlt : len < 2 ^ 32) (rest : Bytes) :
    PayloadInfo.from (lengthHeader base len ++ rest) = .ok ⟨(lengthHeader base len).length, len⟩ := by
  by_cases hlen : len ≤ 55
  · rw [lengthHeader, if_pos hlen, List.singleton_append, List.length_singleton,
      payloadInfoFrom_cons]
    rcases hb with rfl | rfl
    · have hval : ((0x80 : UInt8) + len.toUInt8).toNat = 128 + len :=
        toNat_add_toUInt8 (by simp; omega)
      rw [hval, if_neg (by omega), if_pos (by omega), Nat.add_sub_cancel_left]
    · have hval : ((0xc0 : UInt8) + len.toUInt8).toNat = 192 + len :=
        toNat_add_toUInt8 (by simp; omega)
      rw [hval, if_neg (by omega), if_neg (by omega), if_neg (by omega), if_pos (by omega),
        Nat.add_sub_cancel_left]
  · have hk := length_sizeBytes_le len
    have hk0 : 0 < (sizeBytes len).length :=
      List.length_pos_of_ne_nil (sizeBytes_ne_nil (by omega) hlt)
    rw [lengthHeader, if_neg hlen, List.cons_append, List.length_cons, payloadInfoFrom_cons]
    rcases hb with rfl | rfl
    · have hval : ((0x80 : UInt8) + 55 + (sizeBytes len).length.toUInt8).toNat =
          183 + (sizeBytes len).length := toNat_add_toUInt8 (by simp; omega)
      rw [hval, if_neg (by omega), if_neg (by omega), if_pos (by omega), Nat.add_sub_cancel_left,
        calculatePayloadInfo_sizeBytes _ (by omega) hlt, Nat.add_comm]
    · have hval : ((0xc0 : UInt8) + 55 + (sizeBytes len).length.toUInt8).toNat =
          247 + (sizeBytes len).length := toNat_add_toUInt8 (by simp; omega)
      rw [hval, if_neg (by omega), if_neg (by omega), if_neg (by omega), if_neg (by omega),
        Nat.add_sub_cancel_left, calculatePayloadInfo_sizeBytes _ (by omega) hlt, Nat.add_comm]

/-! ## The stream's output as header and payload -/

theorem encodeListPayload_eq (payload : Bytes) :
    encodeListPayload payload = lengthHeader 0xc0 payload.length ++ payload := by
  unfold encodeListPayload lengthHeader
  split_ifs <;> rfl

/-- Whether `encode_value` writes the value as its own single byte. -/
def IsSingleByte (value : Bytes) : Prop := ∃ b, value = [b] ∧ b < 0x80

instance (value : Bytes) : Decidable (IsSingleByte value) :=
  match value with
  | [b] => decidable_of_iff (b < 0x80) ⟨fun h ↦ ⟨b, rfl, h⟩, fun ⟨_, hb, h⟩ ↦ by cases hb; exact h⟩
  | [] => .isFalse fun ⟨_, hb, _⟩ ↦ by cases hb
  | _ :: _ :: _ => .isFalse fun ⟨_, hb, _⟩ ↦ by cases hb

theorem encodeValue_of_isSingleByte {value : Bytes} (h : IsSingleByte value) :
    encodeValue value = value := by
  obtain ⟨b, rfl, hb⟩ := h
  rw [encodeValue, if_pos hb]

theorem encodeValue_of_not_isSingleByte {value : Bytes} (h : ¬IsSingleByte value) :
    encodeValue value = lengthHeader 0x80 value.length ++ value := by
  match value, h with
  | [], _ => rfl
  | [b], h =>
    have hb : ¬b < 0x80 := fun hb ↦ h ⟨b, rfl, hb⟩
    rw [encodeValue, if_neg hb, lengthHeader, if_pos (by simp)]
    rfl
  | b :: c :: rest, _ =>
    unfold encodeValue lengthHeader
    split_ifs <;> rfl

theorem length_lengthHeader_pos (base : UInt8) (len : ℕ) : 0 < (lengthHeader base len).length := by
  unfold lengthHeader
  split_ifs <;> simp

/-! ## Locating items -/

theorem payloadInfo_lengthHeader_append {base : UInt8} (hb : base = 0x80 ∨ base = 0xc0)
    (payload rest : Bytes) (hlt : payload.length < 2 ^ 32) :
    payloadInfo (lengthHeader base payload.length ++ payload ++ rest) =
      .ok ⟨(lengthHeader base payload.length).length, payload.length⟩ := by
  rw [payloadInfo, List.append_assoc, payloadInfoFrom_lengthHeader hb hlt]
  simp [PayloadInfo.total]

theorem payloadInfo_singleByte_append {b : UInt8} (hb : b < 0x80) (rest : Bytes) :
    payloadInfo (b :: rest) = .ok ⟨0, 1⟩ := by
  have hb' : b.toNat ≤ 127 := by simp [UInt8.lt_iff_toNat_lt] at hb; omega
  rw [payloadInfo, payloadInfoFrom_cons, if_pos hb']
  simp [PayloadInfo.total]

end Rlp

namespace RlpItem

open Rlp

/-- The payload of an item: a string's bytes, or the encodings of a list's items. -/
def payload : RlpItem → Bytes
  | .data value => value
  | .list items => encodeAll items

-- Several proofs below unfold these at once: their equation lemmas are generated here, once.
section
attribute [local simp] payload
end

theorem payload_suffix (item : RlpItem) : item.payload <:+ item.encode := by
  cases item with
  | data value =>
    by_cases h : IsSingleByte value
    · -- `rewrite`: with all of Mathlib, `rw` would close the goal by the reflexivity of `<:+`
      rewrite [payload, encode_data, encodeValue_of_isSingleByte h]
      exact List.suffix_refl _
    · rw [payload, encode_data, encodeValue_of_not_isSingleByte h]
      exact List.suffix_append _ _
  | list items =>
    rw [payload, encode_list, encodeListPayload_eq]
    exact List.suffix_append _ _

/-- `payload_info` on an item the stream wrote, with anything after it: the header is what
precedes the payload. -/
theorem payloadInfo_encode_append (item : RlpItem) (rest : Bytes)
    (hlt : item.encode.length < 2 ^ 32) :
    payloadInfo (item.encode ++ rest) =
      .ok ⟨item.encode.length - item.payload.length, item.payload.length⟩ := by
  have hpl : item.payload.length < 2 ^ 32 := lt_of_le_of_lt item.payload_suffix.length_le hlt
  cases item with
  | data value =>
    by_cases h : IsSingleByte value
    · obtain ⟨b, rfl, hb⟩ := h
      rw [encode_data, encodeValue_of_isSingleByte ⟨b, rfl, hb⟩, List.singleton_append,
        payloadInfo_singleByte_append hb]
      rfl
    · have hv : value.length < 2 ^ 32 := hpl
      rw [encode_data, encodeValue_of_not_isSingleByte h,
        payloadInfo_lengthHeader_append (.inl rfl) _ _ hv]
      simp [payload]
  | list items =>
    have hv : (encodeAll items).length < 2 ^ 32 := hpl
    rw [encode_list, encodeListPayload_eq, payloadInfo_lengthHeader_append (.inr rfl) _ _ hv]
    simp [payload]

theorem length_encode_pos (item : RlpItem) : 0 < item.encode.length := by
  cases item with
  | data value =>
    by_cases h : IsSingleByte value
    · rw [encode_data, encodeValue_of_isSingleByte h]
      obtain ⟨b, rfl, -⟩ := h
      simp
    · rw [encode_data, encodeValue_of_not_isSingleByte h, List.length_append]
      have := length_lengthHeader_pos 0x80 value.length
      omega
  | list items =>
    rw [encode_list, encodeListPayload_eq, List.length_append]
    have := length_lengthHeader_pos 0xc0 (encodeAll items).length
    omega

/-! ## Lists -/

theorem encode_le_encodeAll {item : RlpItem} {items : List RlpItem} (h : item ∈ items) :
    item.encode.length ≤ (encodeAll items).length := by
  induction items with
  | nil => simp at h
  | cons x xs ih =>
    rw [encodeAll_cons, List.length_append]
    rcases List.mem_cons.mp h with rfl | h
    · omega
    · have := ih h
      omega

/-- `consume_items` skips the encodings of the first `i` items. -/
theorem consumeItems_encodeAll (items : List RlpItem)
    (hlt : ∀ item ∈ items, item.encode.length < 2 ^ 32) (rest : Bytes) :
    ∀ i ≤ items.length, consumeItems (encodeAll items ++ rest) i = .ok (encodeAll (items.drop i) ++ rest) := by
  induction items with
  | nil =>
    intro i hi
    rw [List.length_nil, Nat.le_zero] at hi
    subst hi
    rfl
  | cons item items ih =>
    intro i hi
    cases i with
    | zero => rfl
    | succ i =>
      have hitem := hlt item List.mem_cons_self
      rw [consumeItems, encodeAll_cons, List.append_assoc,
        payloadInfo_encode_append item _ hitem]
      have hdrop : consume (item.encode ++ (encodeAll items ++ rest))
          (PayloadInfo.total ⟨item.encode.length - item.payload.length, item.payload.length⟩) =
          .ok (encodeAll items ++ rest) := by
        have := item.payload_suffix.length_le
        rw [consume, if_pos (by simp [PayloadInfo.total]; omega)]
        simp [PayloadInfo.total, Nat.sub_add_cancel this]
      simp only [except_ok_bind, hdrop, List.drop_succ_cons]
      exact ih (fun x hx ↦ hlt x (List.mem_cons_of_mem _ hx)) i (by simp at hi; omega)

theorem consumeItems_nil_succ (i : ℕ) : consumeItems [] (i + 1) = .error .rlpIsTooShort := rfl

/-- Skipping `a + b` items is skipping `a`, then `b`. -/
theorem consumeItems_add (bytes : Bytes) (a b : ℕ) :
    consumeItems bytes (a + b) = (consumeItems bytes a).bind (consumeItems · b) := by
  induction a generalizing bytes with
  | zero => rw [Nat.zero_add]; rfl
  | succ a ih =>
    rw [Nat.add_right_comm, consumeItems, consumeItems]
    cases payloadInfo bytes with
    | error e => rfl
    | ok i =>
      simp only [except_ok_bind]
      cases consume bytes i.total with
      | error e => rfl
      | ok rest => exact ih rest

theorem head_lengthHeader_list (len : ℕ) :
    ∃ l rest, lengthHeader 0xc0 len = l :: rest ∧ 0xc0 ≤ l := by
  unfold lengthHeader
  split_ifs with h
  · refine ⟨_, [], rfl, ?_⟩
    rw [UInt8.le_iff_toNat_le, toNat_add_toUInt8 (by simp; omega)]
    simp
  · refine ⟨_, _, rfl, ?_⟩
    have hk := length_sizeBytes_le len
    rw [UInt8.le_iff_toNat_le, toNat_add_toUInt8 (by simp; omega)]
    simp
    omega

theorem isList_encode_list (items : List RlpItem) :
    (UntrustedRlp.mk (list items).encode).isList = true := by
  obtain ⟨l, rest, hl, hle⟩ := head_lengthHeader_list (encodeAll items).length
  rw [encode_list, encodeListPayload_eq, hl]
  simp [UntrustedRlp.isList, hle]

theorem consumeListPayload_encode_list {items : List RlpItem}
    (hlt : (list items).encode.length < 2 ^ 32) :
    (UntrustedRlp.mk (list items).encode).consumeListPayload = .ok (encodeAll items) := by
  have hinfo := payloadInfo_encode_append (list items) [] hlt
  rw [List.append_nil] at hinfo
  have hsuffix := (list items).payload_suffix
  rw [UntrustedRlp.consumeListPayload, hinfo, except_ok_bind, consume,
    if_pos (Nat.sub_le _ _)]
  obtain ⟨pre, hpre⟩ := hsuffix
  simp only [payload] at hpre ⊢
  rw [← hpre]
  simp

theorem encode_lt_of_mem {item : RlpItem} {items : List RlpItem} (h : item ∈ items)
    (hlt : (list items).encode.length < 2 ^ 32) : item.encode.length < 2 ^ 32 := by
  have h₁ := encode_le_encodeAll h
  have h₂ := (list items).payload_suffix.length_le
  simp only [payload] at h₂
  omega

/-- `at` finds the `i`-th item of a list the stream wrote, and fails past the last one. -/
theorem atIndex_encode_list {items : List RlpItem} (hlt : (list items).encode.length < 2 ^ 32)
    (i : ℕ) :
    (UntrustedRlp.mk (list items).encode).atIndex i =
      if hi : i < items.length then .ok ⟨items[i].encode⟩ else .error .rlpIsTooShort := by
  have hall : ∀ item ∈ items, item.encode.length < 2 ^ 32 := fun _ h ↦ encode_lt_of_mem h hlt
  rw [UntrustedRlp.atIndex, isList_encode_list, consumeListPayload_encode_list hlt]
  simp only [Bool.not_true, Bool.false_eq_true, if_false, except_ok_bind]
  split_ifs with hi
  · have hskip := consumeItems_encodeAll items hall [] i hi.le
    rw [List.append_nil, List.append_nil] at hskip
    rw [hskip, except_ok_bind, List.drop_eq_getElem_cons hi, encodeAll_cons,
      payloadInfo_encode_append _ _ (hall _ (List.getElem_mem hi))]
    have := items[i].payload_suffix.length_le
    simp [PayloadInfo.total, Nat.sub_add_cancel this]
  · have hskip := consumeItems_encodeAll items hall [] items.length le_rfl
    rw [List.append_nil, List.append_nil, List.drop_length, encodeAll_nil] at hskip
    obtain ⟨k, hk⟩ := Nat.exists_eq_add_of_le (Nat.not_lt.mp hi)
    cases k with
    | zero =>
      rw [hk, Nat.add_zero, hskip]
      rfl
    | succ k =>
      rw [hk, consumeItems_add, hskip]
      rfl

theorem length_le_length_encodeAll (items : List RlpItem) :
    items.length ≤ (encodeAll items).length := by
  induction items with
  | nil => simp
  | cons item items ih =>
    rw [encodeAll_cons, List.length_append, List.length_cons]
    have := item.length_encode_pos
    omega

/-- The count of `item_count` from index `k` on, with enough fuel. -/
theorem countFrom_encode_list {items : List RlpItem} (hlt : (list items).encode.length < 2 ^ 32) :
    ∀ fuel k, k ≤ items.length → items.length - k ≤ fuel →
      (UntrustedRlp.mk (list items).encode).countFrom fuel k = items.length - k := by
  intro fuel
  induction fuel with
  | zero => intro k _ hfuel; rw [UntrustedRlp.countFrom]; omega
  | succ fuel ih =>
    intro k hk hfuel
    rw [UntrustedRlp.countFrom, atIndex_encode_list hlt]
    by_cases hlt' : k < items.length
    · simp only [dif_pos hlt', ih (k + 1) hlt' (by omega)]
      omega
    · simp only [dif_neg hlt']
      omega

/-- `item_count` of a list the stream wrote is its number of items. -/
theorem itemCount_encode_list {items : List RlpItem} (hlt : (list items).encode.length < 2 ^ 32) :
    (UntrustedRlp.mk (list items).encode).itemCount = .ok items.length := by
  have hfuel : items.length ≤ (list items).encode.length := by
    have h₁ := length_le_length_encodeAll items
    have h₂ := (list items).payload_suffix.length_le
    simp only [payload] at h₂
    omega
  rw [UntrustedRlp.itemCount, isList_encode_list, if_pos rfl,
    countFrom_encode_list hlt _ 0 (Nat.zero_le _) (by simpa using hfuel), Nat.sub_zero]

end RlpItem

/-! ## Lists of raw items

`RlpStream::append_raw` puts any bytes into a list. `at` and `iter` find them again as long as
`payload_info` reads each as one whole item, which holds of every item the stream writes and of
the compressed tokens of `rlp_compress` as well. -/

namespace Rlp

/-- Bytes that `payload_info` reads as one whole item, whatever follows them. -/
def IsItem (bytes : Bytes) : Prop :=
  ∀ rest, ∃ info : PayloadInfo, payloadInfo (bytes ++ rest) = .ok info ∧ info.total = bytes.length

theorem RlpItem.isItem_encode (item : RlpItem) (hlt : item.encode.length < 2 ^ 32) :
    IsItem item.encode := by
  intro rest
  refine ⟨_, item.payloadInfo_encode_append rest hlt, ?_⟩
  have := item.payload_suffix.length_le
  simp only [PayloadInfo.total]
  omega

theorem headerLen_of_calculatePayloadInfo {bytes : Bytes} {lenOfLen : ℕ} {info : PayloadInfo}
    (h : calculatePayloadInfo bytes lenOfLen = .ok info) : info.headerLen = 1 + lenOfLen := by
  unfold calculatePayloadInfo at h
  dsimp only at h
  split at h
  · cases h
  · cases h
  · split_ifs at h
    cases hlen : decodeUsize ((bytes.take (1 + lenOfLen)).drop 1) with
    | error e => rw [hlen] at h; cases h
    | ok len =>
      rw [hlen] at h
      cases h
      rfl

/-- Every item takes at least a byte: a single byte, or a header of at least one. -/
theorem one_le_total_of_from {bytes : Bytes} {info : PayloadInfo}
    (h : PayloadInfo.from bytes = .ok info) : 1 ≤ info.total := by
  unfold PayloadInfo.from at h
  split at h
  · cases h
  · split_ifs at h
    · cases h
      decide
    · cases h
      simp [PayloadInfo.total]
    · have := headerLen_of_calculatePayloadInfo h
      simp only [PayloadInfo.total]
      omega
    · cases h
      simp [PayloadInfo.total]
    · have := headerLen_of_calculatePayloadInfo h
      simp only [PayloadInfo.total]
      omega

theorem one_le_total_of_payloadInfo {bytes : Bytes} {info : PayloadInfo}
    (h : payloadInfo bytes = .ok info) : 1 ≤ info.total := by
  obtain ⟨item, hitem, hfit⟩ := except_bind_eq_ok.mp h
  -- an item that does not fit in the bytes was refused
  split_ifs at hfit
  cases hfit
  exact one_le_total_of_from hitem

theorem IsItem.length_pos {bytes : Bytes} (h : IsItem bytes) : 0 < bytes.length := by
  obtain ⟨info, hinfo, htotal⟩ := h []
  rw [List.append_nil] at hinfo
  have := one_le_total_of_payloadInfo hinfo
  omega

/-- `consume_items` skips the first `i` parts. -/
theorem consumeItems_flatten {parts : List Bytes} (hparts : ∀ p ∈ parts, IsItem p) (rest : Bytes) :
    ∀ i ≤ parts.length,
      consumeItems (parts.flatten ++ rest) i = .ok ((parts.drop i).flatten ++ rest) := by
  induction parts with
  | nil =>
    intro i hi
    rw [List.length_nil, Nat.le_zero] at hi
    subst hi
    rfl
  | cons p parts ih =>
    intro i hi
    cases i with
    | zero => rfl
    | succ i =>
      obtain ⟨info, hinfo, htotal⟩ := hparts p List.mem_cons_self (parts.flatten ++ rest)
      have hdrop : consume (p ++ (parts.flatten ++ rest)) info.total =
          .ok (parts.flatten ++ rest) := by
        rw [consume, if_pos (by simp; omega), htotal, List.drop_left]
      rw [consumeItems, List.flatten_cons, List.append_assoc, hinfo, except_ok_bind, hdrop,
        except_ok_bind, List.drop_succ_cons]
      exact ih (fun q hq ↦ hparts q (List.mem_cons_of_mem p hq)) i (by simp at hi; omega)

theorem isList_encodeListPayload (payload : Bytes) :
    (UntrustedRlp.mk (encodeListPayload payload)).isList = true := by
  obtain ⟨l, rest, hl, hle⟩ := RlpItem.head_lengthHeader_list payload.length
  rw [encodeListPayload_eq, hl]
  simp [UntrustedRlp.isList, hle]

theorem consumeListPayload_encodeListPayload {payload : Bytes} (hlt : payload.length < 2 ^ 32) :
    (UntrustedRlp.mk (encodeListPayload payload)).consumeListPayload = .ok payload := by
  have hinfo := payloadInfo_lengthHeader_append (.inr rfl) payload [] hlt
  rw [List.append_nil] at hinfo
  rw [UntrustedRlp.consumeListPayload, encodeListPayload_eq, hinfo, except_ok_bind, consume,
    if_pos (by simp), List.drop_left]

/-- `at` finds the `i`-th part of a list of parts, and fails past the last one. -/
theorem atIndex_encodeListPayload {parts : List Bytes} (hparts : ∀ p ∈ parts, IsItem p)
    (hlt : parts.flatten.length < 2 ^ 32) (i : ℕ) :
    (UntrustedRlp.mk (encodeListPayload parts.flatten)).atIndex i =
      if hi : i < parts.length then .ok ⟨parts[i]⟩ else .error .rlpIsTooShort := by
  rw [UntrustedRlp.atIndex, isList_encodeListPayload, consumeListPayload_encodeListPayload hlt]
  simp only [Bool.not_true, Bool.false_eq_true, if_false, except_ok_bind]
  split_ifs with hi
  · have hskip := consumeItems_flatten hparts [] i hi.le
    rw [List.append_nil, List.append_nil] at hskip
    obtain ⟨info, hinfo, htotal⟩ := hparts parts[i] (List.getElem_mem hi)
      (parts.drop (i + 1)).flatten
    rw [hskip, except_ok_bind, List.drop_eq_getElem_cons hi, List.flatten_cons, hinfo,
      except_ok_bind, htotal, List.take_left]
    rfl
  · have hskip := consumeItems_flatten hparts [] parts.length le_rfl
    rw [List.append_nil, List.append_nil, List.drop_length, List.flatten_nil] at hskip
    obtain ⟨k, hk⟩ := Nat.exists_eq_add_of_le (Nat.not_lt.mp hi)
    cases k with
    | zero =>
      rw [hk, Nat.add_zero, hskip]
      rfl
    | succ k =>
      rw [hk, RlpItem.consumeItems_add, hskip]
      rfl

theorem length_le_length_flatten {parts : List Bytes} (hparts : ∀ p ∈ parts, IsItem p) :
    parts.length ≤ parts.flatten.length := by
  induction parts with
  | nil => simp
  | cons p parts ih =>
    rw [List.flatten_cons, List.length_append, List.length_cons]
    have := (hparts p List.mem_cons_self).length_pos
    have := ih fun q hq ↦ hparts q (List.mem_cons_of_mem p hq)
    omega

/-- `iter` from index `k` on yields the parts from `k` on, with enough fuel. -/
theorem iterFrom_encodeListPayload {parts : List Bytes} (hparts : ∀ p ∈ parts, IsItem p)
    (hlt : parts.flatten.length < 2 ^ 32) :
    ∀ fuel k, k ≤ parts.length → parts.length - k ≤ fuel →
      (UntrustedRlp.mk (encodeListPayload parts.flatten)).iterFrom fuel k =
        (parts.drop k).map UntrustedRlp.mk := by
  intro fuel
  induction fuel with
  | zero =>
    intro k hk hfuel
    rw [UntrustedRlp.iterFrom, List.drop_of_length_le (by omega), List.map_nil]
  | succ fuel ih =>
    intro k hk hfuel
    rw [UntrustedRlp.iterFrom, atIndex_encodeListPayload hparts hlt]
    by_cases hk' : k < parts.length
    · simp only [dif_pos hk', ih (k + 1) hk' (by omega), List.drop_eq_getElem_cons hk',
        List.map_cons]
    · simp only [dif_neg hk', List.drop_of_length_le (Nat.not_lt.mp hk'), List.map_nil]

theorem iter_encodeListPayload {parts : List Bytes} (hparts : ∀ p ∈ parts, IsItem p)
    (hlt : parts.flatten.length < 2 ^ 32) :
    (UntrustedRlp.mk (encodeListPayload parts.flatten)).iter = parts.map UntrustedRlp.mk := by
  have hfuel : parts.length ≤ (encodeListPayload parts.flatten).length := by
    rw [encodeListPayload_eq, List.length_append]
    have := length_le_length_flatten hparts
    omega
  rw [UntrustedRlp.iter, iterFrom_encodeListPayload hparts hlt _ 0 (Nat.zero_le _) (by omega),
    List.drop_zero]

theorem encodeAll_eq_flatten (items : List RlpItem) :
    RlpItem.encodeAll items = (items.map RlpItem.encode).flatten := by
  induction items with
  | nil => rfl
  | cons item items ih => rw [RlpItem.encodeAll_cons, ih, List.map_cons, List.flatten_cons]

theorem isItem_encodeListPayload {payload : Bytes} (hlt : payload.length < 2 ^ 32) :
    IsItem (encodeListPayload payload) := by
  intro rest
  rw [encodeListPayload_eq]
  refine ⟨_, payloadInfo_lengthHeader_append (.inr rfl) payload rest hlt, ?_⟩
  simp [PayloadInfo.total]

theorem head_lengthHeader_string (len : ℕ) :
    ∃ l rest, lengthHeader 0x80 len = l :: rest ∧ l < 0xc0 := by
  unfold lengthHeader
  split_ifs with h
  · refine ⟨_, [], rfl, ?_⟩
    rw [UInt8.lt_iff_toNat_lt, toNat_add_toUInt8 (by simp; omega)]
    simp
    omega
  · refine ⟨_, _, rfl, ?_⟩
    have hk := length_sizeBytes_le len
    rw [UInt8.lt_iff_toNat_lt, toNat_add_toUInt8 (by simp; omega)]
    simp
    omega

/-- A string the stream writes is read as data. -/
theorem isData_encodeValue (value : Bytes) :
    (UntrustedRlp.mk (encodeValue value)).isData = true := by
  by_cases h : IsSingleByte value
  · obtain ⟨b, rfl, hb⟩ := h
    rw [encodeValue_of_isSingleByte ⟨b, rfl, hb⟩]
    have hb' : b < 0xc0 := by
      rw [UInt8.lt_iff_toNat_lt] at hb ⊢
      simp only [UInt8.toNat_ofNat] at hb ⊢
      omega
    simp [UntrustedRlp.isData, hb']
  · obtain ⟨l, rest, hl, hlt⟩ := head_lengthHeader_string value.length
    rw [encodeValue_of_not_isSingleByte h, hl]
    simp [UntrustedRlp.isData, hlt]

/-- A list the stream writes is not read as data. -/
theorem isData_encodeListPayload (payload : Bytes) :
    (UntrustedRlp.mk (encodeListPayload payload)).isData = false := by
  obtain ⟨l, rest, hl, hle⟩ := RlpItem.head_lengthHeader_list payload.length
  rw [encodeListPayload_eq, hl]
  simp [UntrustedRlp.isData, UInt8.not_lt.mpr hle]

/-- A longer payload takes a header no shorter. -/
theorem length_lengthHeader_le {base : UInt8} {a b : ℕ} (hab : a ≤ b) (hb : b < 2 ^ 32) :
    (lengthHeader base a).length ≤ (lengthHeader base b).length := by
  by_cases ha : a ≤ 55
  · rw [lengthHeader, if_pos ha, List.length_singleton]
    exact length_lengthHeader_pos base b
  · rw [lengthHeader, if_neg ha, lengthHeader, if_neg (by omega), List.length_cons,
      List.length_cons]
    -- `a` fits in the bytes that `b` is written in
    have hbk : b < 256 ^ (sizeBytes b).length := by
      have := fromBigEndian_lt (sizeBytes b)
      rwa [fromBigEndian_sizeBytes hb] at this
    have hak : (sizeBytes a).length ≤ (sizeBytes b).length :=
      length_minimalBigEndian_le (length_sizeBytes_le b) (lt_of_le_of_lt hab hbk)
    omega

theorem length_encodeListPayload_le {p q : Bytes} (h : p.length ≤ q.length)
    (hq : q.length < 2 ^ 32) : (encodeListPayload p).length ≤ (encodeListPayload q).length := by
  have hheader : (lengthHeader 0xc0 p.length).length ≤ (lengthHeader 0xc0 q.length).length :=
    length_lengthHeader_le h hq
  rw [encodeListPayload_eq, encodeListPayload_eq, List.length_append, List.length_append]
  omega

/-- `consume_items` leaves a suffix of its bytes. -/
theorem length_le_of_consumeItems :
    ∀ {bytes rest : Bytes} {i : ℕ}, consumeItems bytes i = .ok rest → rest.length ≤ bytes.length
  | _, _, 0, h => by cases h; exact le_rfl
  | bytes, rest, i + 1, h => by
    obtain ⟨info, -, h⟩ := except_bind_eq_ok.mp h
    obtain ⟨skipped, hskip, h⟩ := except_bind_eq_ok.mp h
    have hle := length_le_of_consumeItems h
    unfold consume at hskip
    split_ifs at hskip
    cases hskip
    rw [List.length_drop] at hle
    omega

/-- A list's header takes at least a byte. -/
theorem one_le_headerLen_of_from {l : UInt8} {tail : Bytes} {info : PayloadInfo}
    (h : PayloadInfo.from (l :: tail) = .ok info) (hl : 0xc0 ≤ l) : 1 ≤ info.headerLen := by
  have hl' : 192 ≤ l.toNat := by simpa [UInt8.le_iff_toNat_le] using hl
  rw [payloadInfoFrom_cons, if_neg (by omega), if_neg (by omega), if_neg (by omega)] at h
  split_ifs at h
  · cases h
    exact le_rfl
  · rw [headerLen_of_calculatePayloadInfo h]
    omega

/-- Every item `at` finds in a list lies after the list's header, so it is shorter than the list. -/
theorem length_lt_of_atIndex {r item : UntrustedRlp} {i : ℕ} (h : r.atIndex i = .ok item) :
    item.bytes.length < r.bytes.length := by
  unfold UntrustedRlp.atIndex at h
  by_cases hlist : r.isList = true
  swap
  · simp [hlist] at h
  simp only [hlist, Bool.not_true, Bool.false_eq_true, if_false] at h
  obtain ⟨payload, hpayload, h⟩ := except_bind_eq_ok.mp h
  obtain ⟨skipped, hskip, h⟩ := except_bind_eq_ok.mp h
  obtain ⟨found, -, h⟩ := except_bind_eq_ok.mp h
  cases h
  -- the list's bytes start with a list header
  obtain ⟨l, tail, hbytes⟩ : ∃ l tail, r.bytes = l :: tail := by
    cases hb : r.bytes with
    | nil => simp [UntrustedRlp.isList, hb] at hlist
    | cons l tail => exact ⟨l, tail, rfl⟩
  have hl : 0xc0 ≤ l := by simpa [UntrustedRlp.isList, hbytes] using hlist
  obtain ⟨info, hinfo, hconsume⟩ := except_bind_eq_ok.mp hpayload
  obtain ⟨item, hfrom, hfit⟩ := except_bind_eq_ok.mp hinfo
  split_ifs at hfit
  cases hfit
  rw [hbytes] at hfrom
  have hheader := one_le_headerLen_of_from hfrom hl
  unfold consume at hconsume
  split_ifs at hconsume
  cases hconsume
  have hle := length_le_of_consumeItems hskip
  rw [List.length_drop] at hle
  have hpos : 0 < r.bytes.length := by
    rw [hbytes]
    exact Nat.succ_pos _
  calc (skipped.take found.total).length ≤ skipped.length := List.length_take_le' _ _
    _ ≤ r.bytes.length - info.headerLen := hle
    _ < r.bytes.length := Nat.sub_lt hpos hheader

theorem atIndex_of_mem_iterFrom (r : UntrustedRlp) {item : UntrustedRlp} :
    ∀ {fuel k : ℕ}, item ∈ r.iterFrom fuel k → ∃ i, r.atIndex i = .ok item
  | 0, _, h => by simp [UntrustedRlp.iterFrom] at h
  | fuel + 1, k, h => by
    unfold UntrustedRlp.iterFrom at h
    split at h
    · next found hfound =>
      rcases List.mem_cons.mp h with rfl | h
      · exact ⟨k, hfound⟩
      · exact atIndex_of_mem_iterFrom r h
    · simp at h

/-- Every item of a list is shorter than the list: the recursion of `map_rlp` terminates. -/
theorem length_lt_of_mem_iter {r item : UntrustedRlp} (h : item ∈ r.iter) :
    item.bytes.length < r.bytes.length := by
  obtain ⟨i, hi⟩ := atIndex_of_mem_iterFrom r h
  exact length_lt_of_atIndex hi

end Rlp

namespace UntrustedRlp

open Rlp

/-! ## Values -/

theorem decodeValue_lengthHeader_short {α : Type} (value : Bytes) (hlen : value.length ≤ 55)
    (hsingle : ¬IsSingleByte value) (f : Bytes → Except DecoderError α) :
    (UntrustedRlp.mk (lengthHeader 0x80 value.length ++ value)).decodeValue f = f value := by
  have hval : ((0x80 : UInt8) + value.length.toUInt8).toNat = 128 + value.length :=
    toNat_add_toUInt8 (by simp; omega)
  rw [lengthHeader, if_pos hlen, List.singleton_append, decodeValue]
  simp only [UInt8.le_iff_toNat_le, hval]
  rw [if_neg (by simp; omega), if_pos (by simp; omega)]
  simp only [List.length_cons, Nat.add_sub_cancel_left]
  rw [if_neg (by omega)]
  have hd : ((((0x80 : UInt8) + value.length.toUInt8) :: value).take (1 + value.length)).drop 1 =
      value := by
    rw [Nat.add_comm]; simp
  rw [hd, if_neg]
  rintro ⟨h81, hhead⟩
  have hone : value.length = 1 := by
    have := congrArg UInt8.toNat h81
    rw [hval] at this
    simp at this
    omega
  obtain ⟨b, rfl⟩ := List.length_eq_one_iff.mp hone
  simp at hhead
  exact hsingle ⟨b, rfl, hhead⟩

theorem decodeValue_lengthHeader_long {α : Type} (value : Bytes) (hlen : 55 < value.length)
    (hlt : value.length < 2 ^ 32) (f : Bytes → Except DecoderError α) :
    (UntrustedRlp.mk (lengthHeader 0x80 value.length ++ value)).decodeValue f = f value := by
  have hk := length_sizeBytes_le value.length
  have hk0 : 0 < (sizeBytes value.length).length :=
    List.length_pos_of_ne_nil (sizeBytes_ne_nil (by omega) hlt)
  have hval : ((0xb7 : UInt8) + (sizeBytes value.length).length.toUInt8).toNat =
      183 + (sizeBytes value.length).length := toNat_add_toUInt8 (by simp; omega)
  rw [lengthHeader, if_neg (by omega), List.cons_append,
    show (0x80 : UInt8) + 55 = 0xb7 from rfl, decodeValue]
  simp only [UInt8.le_iff_toNat_le, hval]
  have c1 : ¬(183 + (sizeBytes value.length).length ≤ UInt8.toNat 127) := by
    rw [show UInt8.toNat 127 = 127 from rfl]; omega
  have c2 : ¬(183 + (sizeBytes value.length).length ≤ UInt8.toNat 183) := by
    rw [show UInt8.toNat 183 = 183 from rfl]; omega
  have c3 : 183 + (sizeBytes value.length).length ≤ UInt8.toNat 191 := by
    rw [show UInt8.toNat 191 = 191 from rfl]; omega
  rw [if_neg c1, if_neg c2, if_pos c3, Nat.add_sub_cancel_left]
  generalize hl : (183 : UInt8) + (sizeBytes value.length).length.toUInt8 = l
  have hall : (l :: (sizeBytes value.length ++ value)).length =
      1 + (sizeBytes value.length).length + value.length := by simp; omega
  have htake : ((l :: (sizeBytes value.length ++ value)).take
      (1 + (sizeBytes value.length).length)).drop 1 = sizeBytes value.length := by
    rw [Nat.add_comm]; simp
  have hrest : ((l :: (sizeBytes value.length ++ value)).take
      (1 + (sizeBytes value.length).length + value.length)).drop
        (1 + (sizeBytes value.length).length) = value := by
    rw [← hall, List.take_length, Nat.add_comm, List.drop_succ_cons, List.drop_left]
  rw [if_neg (by omega), htake, decodeUsize_sizeBytes (by omega) hlt, except_ok_bind,
    if_neg (by omega), hrest]

/-- `decode_value` hands back every byte string the stream wrote. -/
theorem decodeValue_encodeValue {α : Type} (value : Bytes) (hlt : value.length < 2 ^ 32)
    (f : Bytes → Except DecoderError α) :
    (UntrustedRlp.mk (encodeValue value)).decodeValue f = f value := by
  by_cases hsingle : IsSingleByte value
  · obtain ⟨b, rfl, hb⟩ := hsingle
    have hb' : b ≤ 0x7f := by simp [UInt8.lt_iff_toNat_lt, UInt8.le_iff_toNat_le] at *; omega
    rw [encodeValue_of_isSingleByte ⟨b, rfl, hb⟩, decodeValue]
    exact if_pos hb'
  · rw [encodeValue_of_not_isSingleByte hsingle]
    by_cases hlen : value.length ≤ 55
    · exact decodeValue_lengthHeader_short value hlen hsingle f
    · exact decodeValue_lengthHeader_long value (by omega) hlt f

theorem asBytes_ofBytes {value : Bytes} (hlt : value.length < 2 ^ 32) :
    (UntrustedRlp.mk (RlpItem.ofBytes value).encode).asBytes = .ok value := by
  rw [RlpItem.ofBytes, RlpItem.encode_data, asBytes, decodeValue_encodeValue value hlt]
  rfl

/-- `asBytes_ofBytes` under the bound on the encoding, which is what a list's bound gives. -/
theorem asBytes_ofBytes_of_encode {value : Bytes}
    (hlt : (RlpItem.ofBytes value).encode.length < 2 ^ 32) :
    (UntrustedRlp.mk (RlpItem.ofBytes value).encode).asBytes = .ok value :=
  asBytes_ofBytes (lt_of_le_of_lt (RlpItem.ofBytes value).payload_suffix.length_le hlt)

/-- Any item that is a byte string is read back as that string. -/
theorem asBytes_encode_of_eq_data {item : RlpItem} {value : Bytes} (h : item = .data value)
    (hlt : item.encode.length < 2 ^ 32) : (UntrustedRlp.mk item.encode).asBytes = .ok value := by
  subst h
  exact asBytes_ofBytes_of_encode hlt

theorem asU8_ofU8 (v : UInt8) : (UntrustedRlp.mk (RlpItem.ofU8 v).encode).asU8 = .ok v := by
  rw [RlpItem.ofU8, RlpItem.encode_data, asU8, decodeValue_encodeValue _ (by split_ifs <;> simp)]
  by_cases hv : v = 0
  · simp [hv]
  · simp [hv]

theorem asUint_ofUint {size w : ℕ} (hw : w ≤ size) (hw32 : w < 2 ^ 32) (n : ℕ) :
    (UntrustedRlp.mk (RlpItem.ofUint w n).encode).asUint size = .ok (n % 256 ^ w) := by
  have hlen := length_minimalBigEndian_le_width w n
  rw [RlpItem.ofUint, RlpItem.encode_data, asUint, decodeValue_encodeValue _ (by omega)]
  have hlead : (minimalBigEndian w n).head? ≠ some 0 := by
    intro h
    obtain ⟨rest, hrest⟩ := List.head?_eq_some_iff.mp h
    exact head_stripLeadingZeros_ne_zero hrest rfl
  rw [if_neg hlead, if_pos (by omega), fromBigEndian_minimalBigEndian]

/-- A `u64` is read back whole as a `U256`. -/
theorem asU256_ofU64 (n : UInt64) : (UntrustedRlp.mk (RlpItem.ofU64 n).encode).asU256 = .ok n.toNat := by
  rw [asU256, RlpItem.ofU64, asUint_ofUint (by norm_num) (by norm_num),
    Nat.mod_eq_of_lt (by simpa using n.toNat_lt)]

theorem asHash_ofHash {n : ℕ} (hn : n < 2 ^ 32) (h : Vector UInt8 n) :
    (UntrustedRlp.mk (RlpItem.ofHash h).encode).asHash n = .ok h := by
  rw [RlpItem.ofHash, RlpItem.encode_data, asHash, decodeValue_encodeValue _ (by simpa using hn),
    dif_pos (by simp)]
  simp [Vector.toArray_toList]

end UntrustedRlp

end AionR
