import AionR.Blockchain.Provider
import AionR.Header
import AionR.Transaction
import AionR.Lib.Checked

/-!
# The beacon check of Unity

After the Unity fork a transaction may name a beacon block, and `beacon_check`
(`src/core/src/verification/mod.rs`) decides whether a block may carry it. The check reads the
chain through `beacon_list` and `block_details`, and splits on where the parent lies:

* the parent is canonical: every beacon must be canonical;
* the parent is on a branch and the beacon canonical: the walk back from the parent must reach
  the canonical chain before it reaches the beacon's height;
* neither is canonical: the walk back from the parent must reach the beacon itself, before the
  beacon's height and before the canonical chain.

Before the fork every beacon is banned.

## Model

The result is `Result<(), Error>` inside a computation that may panic (`BeaconM`): `block_num -= 1`
below zero panics. The loops are recursions: the two backward walks on the block number, which the
walk decreases by one each step, and the loop over the transactions on the list. In the branch
arm one transaction returns whether the loop goes on, since the first `break` there leaves the
loop over the transactions, not a walk.
-/

namespace AionR

/-- `BlockError`, the variants `beacon_check` returns. -/
inductive BlockError where
  | invalidBeaconHash (hash : Vector UInt8 32)
  | incompleteBranch
  | beaconHashBanned
  deriving DecidableEq, Repr

/-- A check that returns `Result<(), Error>` and may panic. -/
abbrev BeaconM := ExceptT BlockError Checked

namespace BlockProvider

variable (p : BlockProvider)

/-- The `loop` of the arm where the beacon is canonical and the parent is not: back from
`parentHash` at height `blockNum` to the first canonical block, failing at the beacon's height. -/
def walkToCanon (hash : Vector UInt8 32) (beaconNum : ℕ) : Vector UInt8 32 → ℕ → BeaconM Unit
  | parentHash, blockNum =>
    if (p.beaconList parentHash).isSome then pure ()
    else if blockNum = beaconNum then throw (.invalidBeaconHash hash)
    else
      match p.blockDetails parentHash, blockNum with
      | none, _ => throw .incompleteBranch
      -- `block_num -= 1` below zero
      | some _, 0 => ExceptT.lift (.error .overflow)
      | some detail, blockNum + 1 => walkToCanon hash beaconNum detail.parent blockNum

/-- The `loop` of the arm where neither the beacon nor the parent is canonical: back from
`parentHash` at height `blockNum` to the beacon, failing at the beacon's height or on the
canonical chain. -/
def walkToBeacon (hash : Vector UInt8 32) (beaconNum : ℕ) : Vector UInt8 32 → ℕ → BeaconM Unit
  | parentHash, blockNum =>
    if parentHash = hash then pure ()
    else if beaconNum = blockNum ∨ (p.beaconList parentHash).isSome then
      throw (.invalidBeaconHash hash)
    else
      match p.blockDetails parentHash, blockNum with
      | none, _ => throw .incompleteBranch
      | some _, 0 => ExceptT.lift (.error .overflow)
      | some detail, blockNum + 1 => walkToBeacon hash beaconNum detail.parent blockNum

/-- The body of the loop over the transactions when the parent is not canonical, for a beacon
`hash`: `false` when it leaves that loop with `break`. -/
def checkBranchBeacon (parent : Header) (parentHash hash : Vector UInt8 32) : BeaconM Bool :=
  match p.beaconList hash with
  | some beaconNum =>
    -- `continue` when the parent is canonical, which this arm is never entered with
    if (p.beaconList parentHash).isSome then pure true
    else if parent.number.toNat = beaconNum then throw (.invalidBeaconHash hash)
    else do
      let blockNum ← ExceptT.lift (Checked.sub parent.number.toNat 1)
      p.walkToCanon hash beaconNum parent.parentHash blockNum
      pure true
  | none =>
    match p.blockDetails hash with
    | none => throw (.invalidBeaconHash hash)
    | some detail =>
      if parentHash = hash then pure false
      else if detail.number = parent.number.toNat ∨ (p.beaconList parentHash).isSome then
        throw (.invalidBeaconHash hash)
      else do
        let blockNum ← ExceptT.lift (Checked.sub parent.number.toNat 1)
        p.walkToBeacon hash detail.number parent.parentHash blockNum
        pure true

/-- The loop over the transactions when the parent is not canonical. -/
def checkBranchTxs (parent : Header) (parentHash : Vector UInt8 32) :
    List UnverifiedTransaction → BeaconM Unit
  | [] => pure ()
  | tx :: txs =>
    match tx.unsigned.beacon with
    | some hash => p.checkBranchBeacon parent parentHash hash >>= fun goOn ↦
      if goOn then checkBranchTxs parent parentHash txs else pure ()
    | none => checkBranchTxs parent parentHash txs

/-- The loop over the transactions when the parent is canonical. -/
def checkCanonTxs : List UnverifiedTransaction → BeaconM Unit
  | [] => pure ()
  | tx :: txs =>
    match tx.unsigned.beacon with
    | some hash =>
      if (p.beaconList hash).isNone then throw (.invalidBeaconHash hash) else checkCanonTxs txs
    | none => checkCanonTxs txs

end BlockProvider

/-- The loop before the fork: no transaction may carry a beacon. -/
def checkBannedTxs : List UnverifiedTransaction → BeaconM Unit
  | [] => pure ()
  | tx :: txs => if tx.unsigned.beacon.isSome then throw .beaconHashBanned else checkBannedTxs txs

namespace BlockProvider

variable (p : BlockProvider)

/-- `beacon_check`, under the engine's `unity_update`. -/
def beaconCheck (unityUpdate : Option ℕ) (header parent : Header)
    (txs : List UnverifiedTransaction) : BeaconM Unit :=
  match unityUpdate with
  | some updateNum =>
    if header.number.toNat > updateNum then
      if (p.beaconList header.parentHash).isSome then p.checkCanonTxs txs
      else p.checkBranchTxs parent header.parentHash txs
    else checkBannedTxs txs
  | none => checkBannedTxs txs

/-! ## What the check accepts -/

/-- With a canonical parent the loop passes exactly when every beacon is canonical. -/
theorem checkCanonTxs_eq_ok_iff (txs : List UnverifiedTransaction) :
    (p.checkCanonTxs txs).run = .ok (.ok ()) ↔
      ∀ tx ∈ txs, ∀ hash, tx.unsigned.beacon = some hash → (p.beaconList hash).isSome := by
  induction txs with
  | nil => simp [checkCanonTxs]
  | cons tx txs ih =>
    rw [List.forall_mem_cons, ← ih, checkCanonTxs]
    cases hb : tx.unsigned.beacon with
    | none => simp
    | some hash =>
      cases hl : p.beaconList hash with
      | none => simp [hl, ExceptT.run_throw]
      | some n => simp [hl]

/-- After the fork, a block whose parent is canonical passes the check exactly when every beacon
it carries is canonical: the beacon's height is never compared with the parent's. -/
theorem beaconCheck_canonical_parent {unityUpdate : Option ℕ} {updateNum : ℕ}
    {header parent : Header} (hu : unityUpdate = some updateNum)
    (hn : updateNum < header.number.toNat) (hparent : (p.beaconList header.parentHash).isSome)
    (txs : List UnverifiedTransaction) :
    (p.beaconCheck unityUpdate header parent txs).run = .ok (.ok ()) ↔
      ∀ tx ∈ txs, ∀ hash, tx.unsigned.beacon = some hash → (p.beaconList hash).isSome := by
  subst hu
  rw [beaconCheck, if_pos hn, if_pos hparent]
  exact p.checkCanonTxs_eq_ok_iff txs

/-- After the fork, when the parent is on a branch, a transaction whose beacon is the parent
itself ends the check with success: the `break` leaves the loop, and the transactions after it
are never looked at. -/
theorem beaconCheck_stops_at_parent_beacon {unityUpdate : Option ℕ} {updateNum : ℕ}
    {header parent : Header} (hu : unityUpdate = some updateNum)
    (hn : updateNum < header.number.toNat) (hparent : p.beaconList header.parentHash = none)
    (hheld : (p.blockDetails header.parentHash).isSome)
    {tx : UnverifiedTransaction} (hb : tx.unsigned.beacon = some header.parentHash)
    (txs : List UnverifiedTransaction) :
    (p.beaconCheck unityUpdate header parent (tx :: txs)).run = .ok (.ok ()) := by
  subst hu
  obtain ⟨d, hd⟩ := Option.isSome_iff_exists.mp hheld
  rw [beaconCheck, if_pos hn, hparent]
  simp [checkBranchTxs, hb, checkBranchBeacon, hparent, hd]

end BlockProvider

/-! ## A chain with a branch -/

/-- The hash `0xii…ii`. -/
def blockId (i : UInt8) : Vector UInt8 32 := Vector.replicate 32 i

/-- Canonical blocks `0x00…`, `0x01…`, `0x02…` and `0x03…` at heights 0 to 3, and a branch
block `0x22…` at height 2 on `0x01…`. -/
def forkedChain : BlockProvider where
  blockDetails hash :=
    [(blockId 0, ⟨0, 1, blockId 0xff, [blockId 1]⟩),
      (blockId 1, ⟨1, 2, blockId 0, [blockId 2, blockId 0x22]⟩),
      (blockId 2, ⟨2, 3, blockId 1, [blockId 3]⟩), (blockId 3, ⟨3, 4, blockId 2, []⟩),
      (blockId 0x22, ⟨2, 3, blockId 1, []⟩)].lookup hash
  blockHash n := [blockId 0, blockId 1, blockId 2, blockId 3][n]?

/-- A header at `number` on the parent `parentHash`. -/
def headerOn (number : UInt64) (parentHash : Vector UInt8 32) : Header :=
  { Header.sample with number, parentHash }

/-- A transaction with the beacon `hash`. -/
def beaconTx (hash : Vector UInt8 32) : UnverifiedTransaction :=
  { UnverifiedTransaction.sample with
    unsigned := { UnverifiedTransaction.sample.unsigned with beacon := some hash } }

theorem beaconCheck_accepts_higher_beacons :
    forkedChain.beaconList (blockId 3) = some 3 ∧
    (forkedChain.beaconCheck (some 0) (headerOn 2 (blockId 1)) (headerOn 1 (blockId 0))
      [beaconTx (blockId 3)]).run = .ok (.ok ()) ∧
    (forkedChain.beaconCheck (some 0) (headerOn 3 (blockId 0x22)) (headerOn 2 (blockId 1))
      [beaconTx (blockId 3)]).run = .ok (.ok ()) ∧
    (forkedChain.beaconCheck (some 0) (headerOn 3 (blockId 0x22)) (headerOn 2 (blockId 1))
      [beaconTx (blockId 2)]).run = .ok (.error (.invalidBeaconHash (blockId 2))) ∧
    (forkedChain.beaconCheck (some 0) (headerOn 3 (blockId 0x22)) (headerOn 2 (blockId 1))
      [beaconTx (blockId 0x22), beaconTx (blockId 0xee)]).run = .ok (.ok ()) ∧
    (forkedChain.beaconCheck (some 0) (headerOn 3 (blockId 0x22)) (headerOn 2 (blockId 1))
      [beaconTx (blockId 0xee)]).run = .ok (.error (.invalidBeaconHash (blockId 0xee))) := by
  have hbeacon : forkedChain.beaconList (blockId 3) = some 3 := by decide +kernel
  -- on the canonical parent a beacon is only checked for being canonical, whatever its height
  have hcanonical : (forkedChain.beaconCheck (some 0) (headerOn 2 (blockId 1))
      (headerOn 1 (blockId 0)) [beaconTx (blockId 3)]).run = .ok (.ok ()) :=
    (forkedChain.beaconCheck_canonical_parent rfl (by decide) (by decide +kernel) _).mpr
      fun tx htx hash hhash ↦ by
      rw [List.mem_singleton] at htx
      subst htx
      obtain rfl : hash = blockId 3 := (Option.some.inj hhash).symm
      rw [hbeacon]
      rfl
  -- on the branch a beacon that is the parent ends the loop before the unknown beacon
  have hstop : (forkedChain.beaconCheck (some 0) (headerOn 3 (blockId 0x22)) (headerOn 2 (blockId 1))
      [beaconTx (blockId 0x22), beaconTx (blockId 0xee)]).run = .ok (.ok ()) :=
    forkedChain.beaconCheck_stops_at_parent_beacon rfl (by decide) (by decide +kernel)
      (by decide +kernel) rfl _
  exact ⟨hbeacon, hcanonical, by decide +kernel, by decide +kernel, hstop, by decide +kernel⟩

end AionR
