import AionR.Bridge.Controller

/-!
# The total currency contract

`TotalCurrencyContract` (`src/core/src/precompiled/total_currency_contract.rs`) is a builtin that
keeps, for each chain id, the total amount of currency, and lets its owner raise or lower it. An
update input is one byte of chain id, one byte of sign, sixteen bytes of amount and a 96-byte
Ed25519 signature (public key, then signature) of the first eighteen bytes. A one-byte input is a
query of the stored total.

## Model

The storage is read through `BuiltinExt`: a 16-byte word under each 16-byte key, zero where
nothing was written, so it is a function. Blake2b and Ed25519 verification are the parameters
`Crypto` of the bridge. `H128` and `H256` built from a slice take its first bytes and pad with
zeros on the right (`from_slice`), as the module's own tests rely on: `tcc_get_total_amount`
queries with a one-byte key. `U128` arithmetic panics on overflow (the `uint` crate's
`panic_on_overflow`), and the update runs in `Checked`, so a panic is an error.

## Main results

* `executeUpdateTotalBalance_eq`: what an update of at least 114 bytes does, branch by branch.
* An update whose addition passes `2¹²⁸` panics, with any valid owner signature.
-/

namespace AionR

/-- `H128::from_slice` and `H256::from_slice` (also `From<&[u8]>`): the first `n` bytes of a slice,
padded with zeros on the right when it is shorter. -/
def hashFromSlice (n : ℕ) (bytes : Bytes) : Vector UInt8 n := Vector.ofFn fun i ↦ bytes.getD i 0

/-- `U128::from(H128)`: the big-endian number of the sixteen bytes. -/
def u128FromH128 (h : Vector UInt8 16) : ℕ := fromBigEndian h.toList

/-- `H128::from(U128)`: the sixteen big-endian bytes of the number. -/
def h128FromU128 (v : ℕ) : Vector UInt8 16 := ⟨(toBigEndian 16 v).toArray, by simp⟩

/-- The contract's storage as `BuiltinExt::storage_at` reads it. -/
abbrev CurrencyStorage := Vector UInt8 16 → Vector UInt8 16

/-- `TotalCurrencyContract`. -/
structure TotalCurrencyContract where
  deactivateAt : Option ℕ
  name : String
  ownerAddress : AccountAddress

namespace TotalCurrencyContract

variable (crypto : Crypto) (c : TotalCurrencyContract)

/-- `fail`. -/
def fail (errMsg : String) : ExecutionResult := ExecutionResult.failure errMsg

/-- A success without return data. -/
def success : ExecutionResult :=
  { gasLeft := 0, statusCode := .success, returnData := [], exception := "" }

/-- `query_network_balance`: the word stored under the input, padded to a key. -/
def queryNetworkBalance (storage : CurrencyStorage) (input : Bytes) : ExecutionResult :=
  let result := (storage (hashFromSlice 16 input)).toList
  { gasLeft := 0, statusCode := .success, returnData := result, exception := "" }

/-- `execute_update_total_balance`. -/
def executeUpdateTotalBalance (storage : CurrencyStorage) (input : Bytes) :
    Checked (ExecutionResult × CurrencyStorage) := do
  if input.length < 114 then return (fail "internal error: input length < 114.", storage)
  let chainId := (Vector.replicate 16 (0 : UInt8)).set 0 (← Checked.index input 0)
  let signum ← Checked.index input 1
  let amount ← Checked.slice input 2 18
  let sign ← Checked.slice input 18 114
  let payload ← Checked.slice input 0 18
  let signature ← Checked.toVector 96 sign
  let publicKey := getPublic signature
  let address := publicToAddressEd25519 crypto.blake2b publicKey
  let b := crypto.verify publicKey (hashFromSlice 32 payload) (signature.toList.drop 32)
  if !b then return (fail "internal error: verify signature failed.", storage)
  if c.ownerAddress ≠ address then return (fail "internal error: owner address doesn't match.", storage)
  if signum ≠ 0 ∧ signum ≠ 1 then
    return (fail "signum is invalid, possible value is 0 and 1.", storage)
  let totalCurr := u128FromH128 (storage chainId)
  let value := u128FromH128 (hashFromSlice 16 amount)
  let mut finalValue := 0
  if signum = 0 then
    finalValue ← Checked.add 128 totalCurr value
  else
    if value > totalCurr then return (fail "internal error: value > total_curr.", storage)
    finalValue ← Checked.sub totalCurr value
  return (success, Function.update storage chainId (h128FromU128 finalValue))

/-- `BuiltinContract::execute`: a one-byte input is a query, any other an update. -/
def execute (storage : CurrencyStorage) (input : Bytes) :
    Checked (ExecutionResult × CurrencyStorage) :=
  if input.length = 1 then .ok (queryNetworkBalance storage input, storage)
  else c.executeUpdateTotalBalance crypto storage input

/-- `is_active`. -/
def isActive (at' : ℕ) : Bool :=
  match c.deactivateAt with
  | none => true
  | some d => at' < d

/-- `cost`. -/
def cost (_input : Bytes) : ℕ := 21000


/-- What an update of at least 114 bytes does: the checks in their order, then the addition, which
may overflow, or the guarded subtraction. -/
theorem executeUpdateTotalBalance_eq (storage : CurrencyStorage) {input : Bytes}
    {signature : Vector UInt8 96} (hlen : 114 ≤ input.length)
    (hsig : signature.toList = (input.drop 18).take 96) :
    c.executeUpdateTotalBalance crypto storage input =
      let chainId := (Vector.replicate 16 (0 : UInt8)).set 0 input[0]
      let totalCurr := u128FromH128 (storage chainId)
      let value := u128FromH128 (hashFromSlice 16 ((input.drop 2).take 16))
      if crypto.verify (getPublic signature) (hashFromSlice 32 (input.take 18))
          (signature.toList.drop 32) = false then
        .ok (fail "internal error: verify signature failed.", storage)
      else if c.ownerAddress ≠ publicToAddressEd25519 crypto.blake2b (getPublic signature) then
        .ok (fail "internal error: owner address doesn't match.", storage)
      else if input[1] ≠ 0 ∧ input[1] ≠ 1 then
        .ok (fail "signum is invalid, possible value is 0 and 1.", storage)
      else if input[1] = 0 then
        (Checked.add 128 totalCurr value).map fun v ↦
          (success, Function.update storage chainId (h128FromU128 v))
      else if value > totalCurr then .ok (fail "internal error: value > total_curr.", storage)
      else .ok (success, Function.update storage chainId (h128FromU128 (totalCurr - value))) := by
  have h0 : Checked.index input 0 = .ok input[0] := Checked.index_of_lt (by omega)
  have h1 : Checked.index input 1 = .ok input[1] := Checked.index_of_lt (by omega)
  have hamount : Checked.slice input 2 18 = .ok ((input.drop 2).take 16) :=
    Checked.slice_of_le (by omega) (by omega)
  have hsign : Checked.slice input 18 114 = .ok ((input.drop 18).take 96) :=
    Checked.slice_of_le (by omega) (by omega)
  have hpayload : Checked.slice input 0 18 = .ok (input.take 18) :=
    Checked.slice_of_le (by omega) (by omega)
  unfold executeUpdateTotalBalance
  simp only [if_neg (Nat.not_lt.mpr hlen), h0, h1, hamount, hsign, hpayload,
    Checked.toVector_of_toList hsig, except_ok_bind, Bool.not_eq_true']
  split_ifs with hverify howner hsignum hzero hgt
  · rfl
  · rfl
  · rfl
  · -- the addition: a panic stays a panic, a sum is written
    cases Checked.add 128 _ _ <;> rfl
  · rfl
  · rw [Checked.sub_of_le (Nat.le_of_not_gt hgt)]
    rfl


/-- **An owner-signed addition past `2¹²⁸` panics.** With a valid owner signature and sign `0`,
an update whose amount and stored total sum to `2¹²⁸` or more aborts in the `U128` addition:
`execute` neither succeeds nor fails. The signed payload has no nonce, so a valid update can be
replayed until the total gets there. -/
theorem execute_panics_on_total_overflow (storage : CurrencyStorage) {input : Bytes}
    {signature : Vector UInt8 96} (hlen : 114 ≤ input.length)
    (hsig : signature.toList = (input.drop 18).take 96)
    (hverify : crypto.verify (getPublic signature) (hashFromSlice 32 (input.take 18))
      (signature.toList.drop 32) = true)
    (howner : c.ownerAddress = publicToAddressEd25519 crypto.blake2b (getPublic signature))
    (hsignum : input[1] = 0)
    (hoverflow : 2 ^ 128 ≤ u128FromH128 (storage ((Vector.replicate 16 0).set 0 input[0])) +
      u128FromH128 (hashFromSlice 16 ((input.drop 2).take 16))) :
    c.execute crypto storage input = .error .overflow := by
  have hexec : c.execute crypto storage input = c.executeUpdateTotalBalance crypto storage input :=
    if_neg (by omega)
  rw [hexec, executeUpdateTotalBalance_eq crypto c storage hlen hsig]
  dsimp only
  rw [if_neg (by rw [hverify]; decide), if_neg (not_not.mpr howner),
    if_neg (by rw [hsignum]; decide), if_pos hsignum, Checked.add, if_neg (Nat.not_lt.mpr hoverflow)]
  rfl

/-- A Blake2b that hashes everything to zero and a verification that accepts every signature. -/
def acceptingCrypto : Crypto := ⟨fun _ ↦ Vector.replicate 32 0, fun _ _ _ ↦ true⟩

/-- The contract owned by the key that `acceptingCrypto` gives the zero public key. -/
def zeroKeyContract : TotalCurrencyContract :=
  ⟨none, "total_currency", publicToAddressEd25519 acceptingCrypto.blake2b (Vector.replicate 32 0)⟩

/-- An update of chain `1` by one, signed by the zero key, on a total of `2¹²⁸ - 1`: it panics. -/
theorem execute_overflows_at_top :
    zeroKeyContract.execute acceptingCrypto (fun _ ↦ Vector.replicate 16 0xff)
      ([1, 0] ++ toBigEndian 16 1 ++ List.replicate 96 0) = .error .overflow :=
  @execute_panics_on_total_overflow acceptingCrypto zeroKeyContract _ _ (Vector.replicate 96 0)
    (by decide) (by decide) rfl (by decide) rfl (by decide)

end TotalCurrencyContract
end AionR
