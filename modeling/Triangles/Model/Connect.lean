import Triangles.Model.Block
import Triangles.Model.TxDb

/-! Connecting the inputs of a block's transactions (main.cpp): what `ConnectBlock`
computes before it writes anything. -/

namespace Triangles

open Outcome

abbrev MapPrevTx := AList (fun _ : uint256 => CTxIndex × CTransaction)

abbrev QueuedChanges := AList (fun _ : uint256 => CTxIndex)

/-- What validation reads from the node besides the database: the clock, the height of
`pindexBest`, the global `nBestHeight` and the memory pool. -/
structure Ctx where
  nAdjustedTime : Int
  nHeightBest : Int
  nBestHeight : Int
  mempool : CTxMemPool

def nCoinbaseMaturity (env : Env) : Int := if env.fTestNet then 10 else 7

def nStakeMinAge (env : Env) : Nat := if env.fTestNet then 10 * 60 else 60 * 60 * 1

def checkpointHeights : List Int :=
  [0, 2000, 2101, 2847, 3589, 3935, 5703, 9000, 9001, 9002, 10881, 17650, 100000, 200000]

def getTotalBlocksEstimate : Int := checkpointHeights.getLast (by decide)

def verifySignature (env : Env) (nHeightBest : Int) (txFrom txTo : CTransaction) (nIn : Nat) :
    Bool :=
  match txTo.vin[nIn]? with
  | none => false
  | some txin =>
    match txFrom.vout[txin.prevout.n.toNat]? with
    | none => false
    | some txout =>
      txin.prevout.hash == txFrom.getHash env &&
        env.verifyScript (isCanonicalSignature nHeightBest) txin.scriptSig txout.scriptPubKey
          txTo nIn

namespace CTransaction

/-- One round of the first loop of `FetchInputs`: the previous transaction of one input. -/
def fetchInput (env : Env) (txdb : CTxDB) (mapTestPool : QueuedChanges) (mempool : CTxMemPool)
    (fBlock fMiner : Bool) (inputsRet : MapPrevTx) (txin : CTxIn) : Except Reject MapPrevTx :=
  let hash := txin.prevout.hash
  if hash ∈ inputsRet then .ok inputsRet
  else
    let found :=
      if (fBlock || fMiner) && decide (hash ∈ mapTestPool) then mapTestPool.lookup hash
      else txdb.readTxIndex hash
    match found with
    | none =>
      if fMiner then .error { msg := "" }
      else if fBlock then
        .error { msg := "FetchInputs() : %s prev tx %s index entry not found" }
      else
        match mempool.lookup hash with
        | none => .error { msg := "FetchInputs() : %s mempool Tx prev not found %s" }
        | some txPrev => .ok (inputsRet.insert hash (.fresh .null txPrev.vout.length, txPrev))
    | some txindex =>
      if txindex.pos = .inMempool then
        match mempool.lookup hash with
        | none => .error { msg := "FetchInputs() : %s mempool Tx prev not found %s" }
        | some txPrev => .ok (inputsRet.insert hash (txindex, txPrev))
      else
        match env.readTx txindex.pos with
        | none => .error { msg := "FetchInputs() : %s ReadFromDisk prev tx %s failed" }
        | some txPrev => .ok (inputsRet.insert hash (txindex, txPrev))

def checkPrevoutRange (inputsRet : MapPrevTx) (txin : CTxIn) : Except Reject Unit :=
  check (match inputsRet.lookup txin.prevout.hash with
      | none => false
      | some (txindex, txPrev) =>
        decide (txin.prevout.n.toNat < txPrev.vout.length) &&
          decide (txin.prevout.n.toNat < txindex.vSpent.length))
    { msg := "FetchInputs() : %s prevout.n out of range %d %u %u prev tx %s\n%s", nDoS := 100,
      fInvalid := true }

def fetchInputs (env : Env) (txdb : CTxDB) (mapTestPool : QueuedChanges) (mempool : CTxMemPool)
    (fBlock fMiner : Bool) (tx : CTransaction) : Except Reject MapPrevTx :=
  if tx.isCoinBase then .ok ∅
  else do
    let inputsRet ← tx.vin.foldlM (fetchInput env txdb mapTestPool mempool fBlock fMiner) ∅
    tx.vin.forM (checkPrevoutRange inputsRet)
    pure inputsRet

/-- `GetOutputFor`, which throws when the previous output is not there. -/
def getOutputFor (input : CTxIn) (inputs : MapPrevTx) : Except Reject CTxOut :=
  match inputs.lookup input.prevout.hash with
  | none => .error { msg := "CTransaction::GetOutputFor() : prevout.hash not found" }
  | some (_, txPrev) =>
    match txPrev.vout[input.prevout.n.toNat]? with
    | none => .error { msg := "CTransaction::GetOutputFor() : prevout.n out of range" }
    | some txout => .ok txout

def getValueIn (tx : CTransaction) (inputs : MapPrevTx) : Except Reject Int :=
  if tx.isCoinBase then .ok 0
  else tx.vin.foldlM (fun nResult txin => do
    let txout ← getOutputFor txin inputs
    pure (nResult + txout.nValue)) 0

def getP2SHSigOpCount (tx : CTransaction) (inputs : MapPrevTx) : Except Reject Nat :=
  if tx.isCoinBase then .ok 0
  else tx.vin.foldlM (fun nSigOps txin => do
    let prevout ← getOutputFor txin inputs
    pure (if isPayToScriptHash prevout.scriptPubKey then
      nSigOps + getP2SHSigOps prevout.scriptPubKey txin.scriptSig else nSigOps)) 0

/-- A coinbase or coinstake is mature when its block is not among the last
`nCoinbaseMaturity` blocks ending in `pindexBlock`. -/
def isMature (env : Env) (pindexBlock : CBlockIndex) (pos : CDiskTxPos) : Bool :=
  (pindexBlock.ancestors.takeWhile fun pindex =>
    decide ((pindexBlock.nHeight : Int) - pindex.nHeight < nCoinbaseMaturity env)).all
      fun pindex => !(pindex.fields.nBlockPos == pos.nBlockPos && pindex.fields.nFile == pos.nFile)

def checkInput (env : Env) (pindexBlock : CBlockIndex) (tx : CTransaction) (inputs : MapPrevTx)
    (nValueIn : Int) (txin : CTxIn) : Except Reject Int :=
  let n := txin.prevout.n.toNat
  match inputs.lookup txin.prevout.hash with
  | none => .error { msg := "assert(inputs.count(prevout.hash) > 0)" }
  | some (txindex, txPrev) =>
    match txPrev.vout[n]? with
    | none => .error { msg := "ConnectInputs() : %s prevout.n out of range %d %u %u prev tx %s\n%s",
                       nDoS := 100 }
    | some txout => do
      check (decide (n < txindex.vSpent.length))
        { msg := "ConnectInputs() : %s prevout.n out of range %d %u %u prev tx %s\n%s",
          nDoS := 100 }
      check (!(txPrev.isCoinBase || txPrev.isCoinStake) || isMature env pindexBlock txindex.pos)
        { msg := "ConnectInputs() : tried to spend %s at depth %d" }
      check (decide (txPrev.nTime ≤ tx.nTime))
        { msg := "ConnectInputs() : transaction timestamp earlier than input transaction",
          nDoS := 100 }
      check (moneyRange txout.nValue && moneyRange (nValueIn + txout.nValue))
        { msg := "ConnectInputs() : txin values out of range", nDoS := 100 }
      pure (nValueIn + txout.nValue)

/-- One round of the second loop of `ConnectInputs`: refuse a spent output, verify the
signature, mark the output spent and write the entry back. -/
def spendInput (verify : CTransaction → CTransaction → Nat → Bool) (tx : CTransaction)
    (posThisTx : CDiskTxPos) (fBlock fMiner : Bool) (acc : MapPrevTx × QueuedChanges)
    (input : CTxIn × Nat) : Except Reject (MapPrevTx × QueuedChanges) :=
  let (inputs, mapTestPool) := acc
  let (txin, i) := input
  let n := txin.prevout.n.toNat
  match inputs.lookup txin.prevout.hash with
  | none => .error { msg := "assert(inputs.count(prevout.hash) > 0)" }
  | some (txindex, txPrev) =>
    match txindex.vSpent[n]? with
    -- the first loop has already refused an index out of range
    | none => .error { msg := "vSpent[prevout.n] out of range" }
    | some spent => do
      check spent.isNull { msg := "ConnectInputs() : %s prev tx already used at %s" }
      check (verify txPrev tx i)
        { msg := "ConnectInputs() : %s VerifySignature failed", nDoS := 100 }
      let txindex := { txindex with vSpent := txindex.vSpent.set n posThisTx }
      pure (inputs.insert txin.prevout.hash (txindex, txPrev),
        if fBlock || fMiner then mapTestPool.insert txin.prevout.hash txindex else mapTestPool)

/-- Signatures are not verified while connecting blocks below the last checkpoint;
the height compared is that of the best chain. -/
def verifyInput (env : Env) (ctx : Ctx) (fBlock : Bool) (txPrev tx : CTransaction) (i : Nat) :
    Bool :=
  (fBlock && decide (ctx.nBestHeight < getTotalBlocksEstimate)) ||
    verifySignature env ctx.nHeightBest txPrev tx i

/-- The value rules of `ConnectInputs` for anything but a coinstake. -/
def checkFee (tx : CTransaction) (fBlock : Bool) (nValueIn : Int) : Except Reject Unit :=
  if tx.isCoinStake then .ok ()
  else do
    let nValueOut ← tx.getValueOut
    check (decide (nValueOut ≤ nValueIn))
      { msg := "ConnectInputs() : %s value in < value out", nDoS := 100 }
    let nTxFee := nValueIn - nValueOut
    check (decide (0 ≤ nTxFee)) { msg := "ConnectInputs() : %s nTxFee < 0", nDoS := 100 }
    check (decide (tx.getMinFee ≤ nTxFee))
      (if fBlock then { msg := "ConnectInputs() : %s not paying required fee=%s, paid=%s",
                        nDoS := 100 } else { msg := "" })
    check (moneyRange nTxFee) { msg := "ConnectInputs() : nFees out of range", nDoS := 100 }

def connectInputs (env : Env) (ctx : Ctx) (tx : CTransaction) (inputs : MapPrevTx)
    (mapTestPool : QueuedChanges) (posThisTx : CDiskTxPos) (pindexBlock : CBlockIndex)
    (fBlock fMiner : Bool) : Except Reject QueuedChanges :=
  if tx.isCoinBase then .ok mapTestPool
  else do
    let nValueIn ← tx.vin.foldlM (checkInput env pindexBlock tx inputs) 0
    let (_, mapTestPool) ← tx.vin.zipIdx.foldlM
      (spendInput (verifyInput env ctx fBlock) tx posThisTx fBlock fMiner) (inputs, mapTestPool)
    tx.checkFee fBlock nValueIn
    pure mapTestPool

end CTransaction

end Triangles
