import Triangles.Model.Connect

/-! The checks of `ConnectBlock` and the reward functions (main.cpp). -/

namespace Triangles

open Outcome

def int64 (n : Int) : Int := Int.bmod n (2 ^ 64)

theorem int64_of_range {n : Int} (hlo : -2 ^ 63 ≤ n) (hhi : n < 2 ^ 63) : int64 n = n := by
  unfold int64
  exact Int.bmod_eq_of_le (by omega) (by omega)

/-- A machine value differs from the number by a multiple of `2 ^ 64`. -/
theorem int64_spec (n : Int) : ∃ k : Int, int64 n = n - k * 2 ^ 64 ∧ -2 ^ 63 ≤ int64 n ∧
    int64 n < 2 ^ 63 := by
  refine ⟨Int.bdiv n (2 ^ 64), ?_, ?_, ?_⟩
  · have := Int.bmod_eq_self_sub_bdiv_mul n (2 ^ 64)
    simpa [int64] using this
  · have := Int.le_bmod (x := n) (m := 2 ^ 64) (by decide)
    unfold int64
    omega
  · have := Int.bmod_lt (x := n) (m := 2 ^ 64) (by decide)
    unfold int64
    omega

def MAX_TRI_PROOF_OF_STAKE : Int := 330000

/-- The subsidy of `GetProofOfWorkReward` by the height of `pindexBest`; the last
assignment whose condition holds wins. -/
def powSubsidy (nHeightBest : Int) : Int :=
  if 9001 ≤ nHeightBest then 0 * COIN
  else if 7000 ≤ nHeightBest then 10 * COIN
  else if 3000 ≤ nHeightBest then 5 * COIN
  else if 1000 ≤ nHeightBest then 10 * COIN
  else if 100 ≤ nHeightBest then 20 * COIN
  else 1 * COIN

def getProofOfWorkReward (nHeightBest nFees : Int) : Int := powSubsidy nHeightBest + nFees

def getProofOfStakeReward (nCoinAge nFees : Int) : Int :=
  ((int64 (nCoinAge * MAX_TRI_PROOF_OF_STAKE)).tdiv 365).tdiv COIN + nFees

namespace CTransaction

/-- One round of `GetCoinAge`, in cent-seconds: an input whose previous transaction is not
indexed or is too young adds nothing. -/
def addCoinAge (env : Env) (txdb : CTxDB) (tx : CTransaction) (bnCentSecond : Int) (txin : CTxIn) :
    Except Reject Int :=
  match readTxFromDisk env txdb txin.prevout with
  | none => .ok bnCentSecond
  | some (txPrev, txindex) =>
    if tx.nTime < txPrev.nTime then .error { msg := "" }
    else
      match env.readHeader txindex.pos.nFile txindex.pos.nBlockPos with
      | none => .error { msg := "" }
      | some block =>
        if tx.nTime.toNat < block.nTime.toNat + nStakeMinAge env then .ok bnCentSecond
        else
          let nValueIn := ((txPrev.vout[txin.prevout.n.toNat]?).map CTxOut.nValue).getD 0
          .ok (bnCentSecond + (nValueIn * (tx.nTime - txPrev.nTime).toNat).tdiv CENT)

def getCoinAge (env : Env) (txdb : CTxDB) (tx : CTransaction) : Except Reject Nat :=
  if tx.isCoinBase then .ok 0
  else do
    let bnCentSecond ← tx.vin.foldlM (addCoinAge env txdb tx) 0
    pure (getuint64 ((bnCentSecond * CENT).tdiv (24 * 60 * 60)))

end CTransaction

structure ConnectAcc where
  mapQueuedChanges : QueuedChanges := ∅
  nFees : Int := 0
  nValueIn : Int := 0
  nValueOut : Int := 0
  nStakeReward : Int := 0
  nSigOps : Nat := 0
  nTxPos : UInt32

def CBlockIndex.posOf (pindex : CBlockIndex) (nTxPos : UInt32) : CDiskTxPos :=
  ⟨pindex.fields.nFile, pindex.fields.nBlockPos, nTxPos, fun h => absurd h pindex.fields.nFile_ne⟩

/-- Where the first transaction of the block lies; 1 refers to the memory pool. -/
def firstTxPos (block : CBlock) (pindex : CBlockIndex) (fJustCheck : Bool) : UInt32 :=
  if fJustCheck then 1
  else
    let header : CBlock := { hashPrevBlock := 0, hashMerkleRoot := 0, nTime := 0, nBits := 0, vtx := [] }
    pindex.fields.nBlockPos + UInt32.ofNat (header.getSerializeSize - 2 * getSizeOfCompactSize 0 +
      getSizeOfCompactSize block.vtx.length)

def nextTxPos (fJustCheck : Bool) (nTxPos : UInt32) (tx : CTransaction) : UInt32 :=
  if fJustCheck then nTxPos else nTxPos + UInt32.ofNat tx.getSerializeSize

def mayOverwrite (txdb : CTxDB) (hashTx : uint256) : Bool :=
  match txdb.readTxIndex hashTx with
  | none => true
  | some txindexOld => txindexOld.vSpent.all fun pos => !pos.isNull

def connectTx (env : Env) (ctx : Ctx) (txdb : CTxDB) (pindex : CBlockIndex) (fJustCheck : Bool)
    (acc : ConnectAcc) (tx : CTransaction) : Except Reject ConnectAcc := do
  let hashTx := tx.getHash env
  check (mayOverwrite txdb hashTx) { msg := "" }
  let nSigOps := acc.nSigOps + tx.getLegacySigOpCount
  check (decide (nSigOps ≤ MAX_BLOCK_SIGOPS))
    { msg := "ConnectBlock() : too many sigops", nDoS := 100 }
  let posThisTx := pindex.posOf acc.nTxPos
  let nTxPos := nextTxPos fJustCheck acc.nTxPos tx
  if tx.isCoinBase then
    let nTxValueOut ← tx.getValueOut
    pure { acc with
      nValueOut := acc.nValueOut + nTxValueOut
      nSigOps := nSigOps
      nTxPos := nTxPos
      mapQueuedChanges := acc.mapQueuedChanges.insert hashTx (.fresh posThisTx tx.vout.length) }
  else
    let mapInputs ← tx.fetchInputs env txdb acc.mapQueuedChanges ctx.mempool true false
    let nP2SHSigOps ← tx.getP2SHSigOpCount mapInputs
    check (decide (nSigOps + nP2SHSigOps ≤ MAX_BLOCK_SIGOPS))
      { msg := "ConnectBlock() : too many sigops", nDoS := 100 }
    let nTxValueIn ← tx.getValueIn mapInputs
    let nTxValueOut ← tx.getValueOut
    let queued ← tx.connectInputs env ctx mapInputs acc.mapQueuedChanges posThisTx pindex true false
    pure
      { nValueIn := acc.nValueIn + nTxValueIn
        nValueOut := acc.nValueOut + nTxValueOut
        nFees := if tx.isCoinStake then acc.nFees else acc.nFees + (nTxValueIn - nTxValueOut)
        nStakeReward := if tx.isCoinStake then nTxValueOut - nTxValueIn else acc.nStakeReward
        nSigOps := nSigOps + nP2SHSigOps
        nTxPos := nTxPos
        mapQueuedChanges := queued.insert hashTx (.fresh posThisTx tx.vout.length) }

def checkPowReward (ctx : Ctx) (block : CBlock) (nFees : Int) : Except Reject Unit :=
  match block.vtx with
  | [] => .error { msg := "vtx[0] out of range" }
  | coinbase :: _ => do
    let nValueOut ← coinbase.getValueOut
    check (decide (nValueOut ≤ getProofOfWorkReward ctx.nHeightBest nFees))
      { msg := "ConnectBlock() : coinbase reward exceeded (actual=%d vs calculated=%d)", nDoS := 50 }

def checkStakeReward (env : Env) (txdb : CTxDB) (block : CBlock) (nStakeReward nFees : Int) :
    Except Reject Unit :=
  match block.vtx with
  | _ :: coinstake :: _ =>
    match coinstake.getCoinAge env txdb with
    | .error _ => .error { msg := "ConnectBlock() : %s unable to get coin age for coinstake" }
    | .ok nCoinAge =>
      check (decide (nStakeReward ≤ getProofOfStakeReward (int64 nCoinAge) nFees))
        { msg := "ConnectBlock() : coinstake pays too much(actual=%d vs calculated=%d)",
          nDoS := 100 }
  | _ => .error { msg := "vtx[1] out of range" }

/-- `ConnectBlock` up to the point where it starts to write. -/
def connectBlockChecks (env : Env) (ctx : Ctx) (txdb : CTxDB) (block : CBlock)
    (pindex : CBlockIndex) (fJustCheck : Bool) : Except Reject ConnectAcc := do
  block.checkBlock env ctx.nAdjustedTime (!fJustCheck) (!fJustCheck) false
  let acc ← block.vtx.foldlM (connectTx env ctx txdb pindex fJustCheck)
    { nTxPos := firstTxPos block pindex fJustCheck }
  if block.isProofOfWork then checkPowReward ctx block acc.nFees
  if block.isProofOfStake then checkStakeReward env txdb block acc.nStakeReward acc.nFees
  pure acc

def writeQueued (txdb : CTxDB) (queued : QueuedChanges) : CTxDB :=
  queued.entries.foldl (fun txdb e => txdb.updateTxIndex e.1 e.2) txdb

def disconnectInput (txin : CTxIn) : EStateM Reject CTxDB Unit := fun txdb =>
  match txdb.readTxIndex txin.prevout.hash with
  | none => .error { msg := "DisconnectInputs() : ReadTxIndex failed" } txdb
  | some txindex =>
    if txin.prevout.n.toNat < txindex.vSpent.length then
      .ok () (txdb.updateTxIndex txin.prevout.hash
        { txindex with vSpent := txindex.vSpent.set txin.prevout.n.toNat .null })
    else .error { msg := "DisconnectInputs() : prevout.n out of range" } txdb

def CTransaction.disconnectInputs (env : Env) (tx : CTransaction) : EStateM Reject CTxDB Unit := do
  if !tx.isCoinBase then tx.vin.forM disconnectInput
  modify fun txdb => CTxDB.eraseTxIndex env txdb tx

end Triangles
