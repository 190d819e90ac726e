import AionR.Lib.BigEndian

/-!
# Nibbles and the hex-prefix encoding

A byte string read as nibbles, high half first, and the hex-prefix encoding of a nibble sequence:
a first byte whose high nibble flags the parity of the sequence (bit 4) and a leaf (bit 5), holding
the first nibble when their number is odd, then the remaining nibbles packed two to a byte. The
encoding is decoded by reading the bytes as nibbles again and dropping one nibble after an odd flag
or two after an even one: `nibblesOf_hexPrefix`.
-/

namespace AionR

/-- A byte string read as nibbles, the high half of each byte first. -/
def nibblesOf (bs : Bytes) : List UInt8 := bs.flatMap fun (b : UInt8) ↦ [b >>> 4, b &&& 15]

/-- Nibbles packed two to a byte, the first in the high half; an odd last nibble is dropped. -/
def packNibbles : List UInt8 → Bytes
  | a :: b :: rest => (a * 16 + b) :: packNibbles rest
  | _ => []

/-- The flag bits of a hex-prefix encoding's first byte, before the parity bit. -/
def leafFlag (leaf : Bool) : UInt8 := if leaf then 0x20 else 0

/-- The hex-prefix encoding of a nibble sequence. -/
def hexPrefix (ns : List UInt8) (leaf : Bool) : Bytes :=
  if ns.length % 2 = 1 then (0x10 + ns.headD 0 + leafFlag leaf) :: packNibbles ns.tail
  else leafFlag leaf :: packNibbles ns

/-! ## Nibbles of bytes -/

@[simp] theorem nibblesOf_nil : nibblesOf [] = [] := rfl

@[simp] theorem nibblesOf_cons (b : UInt8) (bs : Bytes) :
    nibblesOf (b :: bs) = (b >>> 4) :: (b &&& 15) :: nibblesOf bs := rfl

@[simp] theorem length_nibblesOf (bs : Bytes) : (nibblesOf bs).length = 2 * bs.length := by
  induction bs with
  | nil => rfl
  | cons b bs ih =>
    rw [nibblesOf_cons, List.length_cons, List.length_cons, ih, List.length_cons]
    omega

theorem toNat_shiftRight_four (b : UInt8) : (b >>> 4).toNat = b.toNat / 16 := by
  rw [UInt8.toNat_shiftRight, Nat.shiftRight_eq_div_pow]
  rfl

theorem toNat_and_fifteen (b : UInt8) : (b &&& 15).toNat = b.toNat % 16 := by
  rw [UInt8.toNat_and, show (UInt8.toNat 15) = 2 ^ 4 - 1 from rfl, Nat.and_two_pow_sub_one_eq_mod]

theorem shiftLeft_four (b : UInt8) : b <<< 4 = b * 16 := by
  apply UInt8.toNat_inj.mp
  rw [UInt8.toNat_shiftLeft, UInt8.toNat_mul, Nat.shiftLeft_eq]
  rfl

/-- Every nibble of a byte string is below 16. -/
theorem lt_sixteen_of_mem_nibblesOf {bs : Bytes} {x : UInt8} (hx : x ∈ nibblesOf bs) : x < 16 := by
  induction bs with
  | nil => simp at hx
  | cons b bs ih =>
    rw [nibblesOf_cons] at hx
    rcases List.mem_cons.mp hx with rfl | hx
    · rw [UInt8.lt_iff_toNat_lt, toNat_shiftRight_four]
      have := b.toNat_lt
      simp only [UInt8.toNat_ofNat]
      omega
    rcases List.mem_cons.mp hx with rfl | hx
    · rw [UInt8.lt_iff_toNat_lt, toNat_and_fifteen]
      exact Nat.mod_lt _ (by norm_num)
    · exact ih hx

/-- The `j`-th nibble is a half of byte `j / 2`: the low half at an odd place. -/
theorem getElem?_nibblesOf (bs : Bytes) (j : ℕ) :
    (nibblesOf bs)[j]? = bs[j / 2]?.map fun (b : UInt8) ↦ if j % 2 = 1 then b &&& 15 else b >>> 4 := by
  induction bs generalizing j with
  | nil => simp
  | cons b bs ih =>
    -- the first byte gives places `0` and `1`, the rest start at `2`
    rw [nibblesOf_cons]
    match j with
    | 0 => rfl
    | 1 => rfl
    | j + 2 =>
      rw [List.getElem?_cons_succ, List.getElem?_cons_succ, ih,
        show (j + 2) / 2 = j / 2 + 1 by omega, List.getElem?_cons_succ,
        show (j + 2) % 2 = j % 2 by omega]

/-! ## Packing -/

/-- Two nibbles packed into a byte read back as the same two nibbles. -/
theorem nibbles_pack {a b : UInt8} (ha : a < 16) (hb : b < 16) :
    (a * 16 + b) >>> 4 = a ∧ (a * 16 + b) &&& 15 = b := by
  rw [UInt8.lt_iff_toNat_lt] at ha hb
  simp only [UInt8.toNat_ofNat] at ha hb
  have hsum : (a * 16 + b).toNat = a.toNat * 16 + b.toNat := by
    rw [UInt8.toNat_add, UInt8.toNat_mul]
    simp only [UInt8.toNat_ofNat]
    omega
  constructor
  · apply UInt8.toNat_inj.mp
    rw [toNat_shiftRight_four, hsum]
    omega
  · apply UInt8.toNat_inj.mp
    rw [toNat_and_fifteen, hsum]
    omega

/-- Packing an even number of nibbles and reading the bytes back gives the nibbles. -/
theorem nibblesOf_packNibbles {ns : List UInt8} (hns : ∀ x ∈ ns, x < 16)
    (heven : ns.length % 2 = 0) : nibblesOf (packNibbles ns) = ns := by
  induction ns using packNibbles.induct with
  | case1 a b rest ih =>
    obtain ⟨hhigh, hlow⟩ := nibbles_pack (hns a (by simp)) (hns b (by simp))
    rw [packNibbles, nibblesOf_cons, hhigh, hlow,
      ih (fun x hx ↦ hns x (by simp [hx])) (by simp at heven; omega)]
  | case2 ns hshort =>
    -- fewer than two nibbles, and an even number of them: none
    match ns with
    | [] => rfl
    | [_] => simp at heven
    | a :: b :: rest => exact (hshort a b rest rfl).elim

/-! ## Decoding -/

/-- The first byte of an encoding of an odd number of nibbles: the parity bit is set, the leaf bit
is the flag, and the low half is the first nibble. -/
theorem oddFirstByte_bits {n : UInt8} (hn : n < 16) (leaf : Bool) :
    (0x10 + n + leafFlag leaf) &&& 16 = 16 ∧
      ((0x10 + n + leafFlag leaf) &&& 32 = 32 ↔ leaf = true) ∧
      (0x10 + n + leafFlag leaf) &&& 15 = n := by
  -- sixteen nibbles and two flags: checked one by one
  have key : ∀ m : Fin 16, ∀ l : Bool,
      (0x10 + m.val.toUInt8 + leafFlag l) &&& 16 = 16 ∧
        ((0x10 + m.val.toUInt8 + leafFlag l) &&& 32 = 32 ↔ l = true) ∧
        (0x10 + m.val.toUInt8 + leafFlag l) &&& 15 = m.val.toUInt8 := by
    decide
  have hm : n.toNat < 16 := by simpa [UInt8.lt_iff_toNat_lt] using hn
  simpa only [UInt8.ofNat_toNat] using key ⟨n.toNat, hm⟩ leaf

/-- The first byte of an encoding of an even number of nibbles: the parity bit is clear, and the
leaf bit is the flag. -/
theorem evenFirstByte_bits (leaf : Bool) :
    leafFlag leaf &&& 16 ≠ 16 ∧ (leafFlag leaf &&& 32 = 32 ↔ leaf = true) := by
  cases leaf <;> decide

/-- **Decoding inverts the hex-prefix encoding.** The first byte's bit 5 is the leaf flag, and the
nibbles are those of the encoding after the first one when its bit 4 is set, after the first two
otherwise. -/
theorem hexPrefix_decode {ns : List UInt8} (hns : ∀ x ∈ ns, x < 16) (leaf : Bool) :
    ∃ x rest, hexPrefix ns leaf = x :: rest ∧ (x &&& 32 = 32 ↔ leaf = true) ∧
      (nibblesOf (hexPrefix ns leaf)).drop (if x &&& 16 = 16 then 1 else 2) = ns := by
  unfold hexPrefix
  split_ifs with hodd
  · -- an odd number: the first nibble sits in the first byte
    obtain ⟨n, tail, rfl⟩ : ∃ n tail, ns = n :: tail :=
      List.exists_cons_of_ne_nil (by rintro rfl; simp at hodd)
    obtain ⟨h16, h32, h15⟩ := oddFirstByte_bits (hns n (by simp)) leaf
    refine ⟨_, _, rfl, h32, ?_⟩
    rw [List.headD_cons, List.tail_cons, if_pos h16, nibblesOf_cons, List.drop_one, List.tail_cons,
      h15, nibblesOf_packNibbles (fun x hx ↦ hns x (by simp [hx])) (by simp at hodd; omega)]
  · obtain ⟨h16, h32⟩ := evenFirstByte_bits leaf
    refine ⟨_, _, rfl, h32, ?_⟩
    rw [if_neg h16, nibblesOf_cons, List.drop_succ_cons, List.drop_one, List.tail_cons,
      nibblesOf_packNibbles hns (by omega)]

end AionR
