import Triangles.Model.Interpreter
import Triangles.Model.Miner
import Triangles.Model.WalletCalls

/-! Staking: the coinstake a wallet builds, `CreateCoinStake` (wallet.cpp), and the block signed
with it, `SignBlock` (main.cpp). -/

namespace Triangles

open Outcome

def nStakeSplitAge : Int := 1 * 3 * 60 * 60
def nStakeCombineThreshold : Int := 20 * COIN
def nMaxStakeSearchInterval : Nat := 60

structure CKey where
  pubKey : List UInt8
  sign : uint256 → Option (List UInt8)

/-- What a wallet stakes with: its records in the order of their keys, what the chain says of
them, the keys, `Hash160`, the signing of an input, and the order of the pointers in a set. -/
structure Staker where
  wallet : CWallet
  keys : List uint256
  view : CoinView
  getKey : uint160 → Option CKey
  hash160 : List UInt8 → uint160
  signSignature : CTransaction → CTransaction → Nat → Option CScript
  nReserveBalance : Int := 0
  fShutdown : Bool := false
  pointerOrder : List COutput → List COutput
  pointerOrder_perm : ∀ l, (pointerOrder l).Perm l

def COutput.txout (o : COutput) : CTxOut := o.wtx.tx.vout.getD o.i .null

namespace CWallet

/-- `GetCredit` of an output, which throws on a value out of range. -/
def getCredit (w : CWallet) (txout : CTxOut) : Except Reject Int := do
  check (moneyRange txout.nValue) { msg := "CWallet::GetCredit() : value out of range" }
  pure (if w.isMine txout then txout.nValue else 0)

def addCredit (w : CWallet) (wtx : CWalletTx) (nCredit : Int) (output : CTxOut × Nat) :
    Except Reject Int :=
  if wtx.isSpent output.2 then .ok nCredit
  else do
    let credit ← w.getCredit output.1
    check (moneyRange (nCredit + credit))
      { msg := "CWalletTx::GetAvailableCredit() : value out of range" }
    pure (nCredit + credit)

/-- `GetAvailableCredit`. Its cache holds what it computes here. -/
def getAvailableCredit (view : CoinView) (w : CWallet) (wtx : CWalletTx) : Except Reject Int :=
  if (wtx.tx.isCoinBase || wtx.tx.isCoinStake) && decide (0 < view.getBlocksToMaturity wtx) then
    .ok 0
  else wtx.tx.vout.zipIdx.foldlM (w.addCredit wtx) 0

def getBalance (view : CoinView) (w : CWallet) (keys : List uint256) : Except Reject Int :=
  keys.foldlM (fun nTotal hash =>
    match w.mapWallet hash with
    | none => .ok nTotal
    | some pcoin =>
      if view.isTrusted pcoin then do
        let nCredit ← w.getAvailableCredit view pcoin
        pure (nTotal + nCredit)
      else .ok nTotal) 0

def availableCoinsMinConf (view : CoinView) (w : CWallet) (keys : List uint256) (nConf : Int) :
    List COutput :=
  keys.flatMap fun hash =>
    match w.mapWallet hash with
    | none => []
    | some pcoin =>
      if !view.isFinal pcoin.tx then []
      else if view.getDepthInMainChain pcoin < nConf then []
      else pcoin.tx.vout.zipIdx.filterMap fun (txout, i) =>
        if !pcoin.isSpent i && w.isMine txout && decide (w.nMinimumInputValue ≤ txout.nValue) then
          some ⟨hash, pcoin, i, view.getDepthInMainChain pcoin⟩
        else none

end CWallet

def selectSimple (nTargetValue : Int) (nSpendTime : UInt32) : Int → List COutput → List COutput
  | _, [] => []
  | nValueRet, output :: rest =>
    if nTargetValue ≤ nValueRet then []
    else if nSpendTime < output.wtx.tx.nTime then
      selectSimple nTargetValue nSpendTime nValueRet rest
    else
      let n := output.txout.nValue
      if nTargetValue ≤ n then [output]
      else if n < nTargetValue + CENT then
        output :: selectSimple nTargetValue nSpendTime (nValueRet + n) rest
      else selectSimple nTargetValue nSpendTime nValueRet rest

def Staker.selectCoinsSimple (st : Staker) (nTargetValue : Int) (nSpendTime : UInt32)
    (nMinConf : Int) : List COutput :=
  selectSimple nTargetValue nSpendTime 0
    (st.wallet.availableCoinsMinConf st.view st.keys nMinConf)

/-- The key and the script that the stake is paid back to: only pay to public key and pay to
address are supported. -/
def Staker.kernelKey (st : Staker) (scriptPubKeyKernel : CScript) : Option (CKey × CScript) :=
  match solver scriptPubKeyKernel with
  | some (.TX_PUBKEYHASH, vSolutions) =>
    match st.getKey (vSolutions.headD []) with
    | none => none
    | some key => some (key, pushData key.pubKey ++ [OP_CHECKSIG])
  | some (.TX_PUBKEY, vSolutions) =>
    match st.getKey (st.hash160 (vSolutions.headD [])) with
    | none => none
    | some key =>
      if key.pubKey ≠ vSolutions.headD [] then none else some (key, scriptPubKeyKernel)
  | _ => none

structure StakeState where
  txNew : CTransaction
  key : CKey
  scriptPubKeyKernel : CScript
  nCredit : Int
  vwtxPrev : List CTransaction

section CreateCoinStake

variable (env : Env) (host : Host) (n : FullNode) (st : Staker)

def kernelAt (nBits : UInt32) (block : CBlockHeader) (txindex : CTxIndex) (pcoin : COutput)
    (nTime : UInt32) : Bool :=
  !fails (checkStakeKernelHash env host n.mapBlockIndex n.toState nBits block
    (txindex.pos.nTxPos - txindex.pos.nBlockPos) pcoin.wtx.tx
    ⟨pcoin.wtx.tx.getHash env, UInt32.ofNat pcoin.i⟩ nTime false) {}

def kernelOffset (kernel : UInt32 → Bool) (fShutdown : Bool) (nSearchInterval : Int)
    (nTime : UInt32) : Option Nat :=
  if fShutdown then none
  else (List.range (min nSearchInterval nMaxStakeSearchInterval).toNat).find? fun k =>
    kernel (nTime - UInt32.ofNat k)

def stakeOn (tx : CTransaction) (pcoin : COutput) (block : CBlockHeader) (k : Nat) (key : CKey)
    (scriptPubKeyOut : CScript) : StakeState where
  txNew :=
    let nTime := tx.nTime - UInt32.ofNat k
    { tx with
      nTime := nTime
      vin := [{ prevout := ⟨pcoin.wtx.tx.getHash env, UInt32.ofNat pcoin.i⟩, scriptSig := [] }]
      vout := tx.vout ++ [⟨0, scriptPubKeyOut⟩] ++
        if getWeight env block.nTime.toNat nTime.toNat < nStakeSplitAge then
          [⟨0, scriptPubKeyOut⟩]
        else [] }
  key := key
  scriptPubKeyKernel := pcoin.txout.scriptPubKey
  nCredit := pcoin.txout.nValue
  vwtxPrev := [pcoin.wtx.tx]

def searchCoin (nBits : UInt32) (nSearchInterval : Int) (tx : CTransaction) (pcoin : COutput) :
    Option StakeState :=
  match n.openTxDb.readTxIndex (pcoin.wtx.tx.getHash env) with
  | none => none
  | some txindex =>
    match env.readHeader txindex.pos.nFile txindex.pos.nBlockPos with
    | none => none
    | some block =>
      if (tx.nTime - UInt32.ofNat nMaxStakeSearchInterval).toNat <
          block.nTime.toNat + nStakeMinAge env then none
      else
        match kernelOffset (kernelAt env host n nBits block txindex pcoin) st.fShutdown
            nSearchInterval tx.nTime with
        | none => none
        | some k =>
          match st.kernelKey pcoin.txout.scriptPubKey with
          | none => none
          | some (key, scriptPubKeyOut) => some (stakeOn env tx pcoin block k key scriptPubKeyOut)

def addInputs (nLimit : Int) : List COutput → StakeState → StakeState
  | [], s => s
  | pcoin :: rest, s =>
    let txNew := s.txNew
    let sameKey := decide (pcoin.txout.scriptPubKey = s.scriptPubKeyKernel) ||
      decide (some pcoin.txout.scriptPubKey = (txNew.vout[1]?).map CTxOut.scriptPubKey)
    let hash := pcoin.wtx.tx.getHash env
    if txNew.vout.length = 2 ∧ sameKey = true ∧
        some hash ≠ (txNew.vin.head?).map (fun txin => txin.prevout.hash) then
      if 100 ≤ txNew.vin.length then s
      else if nStakeCombineThreshold ≤ s.nCredit then s
      else if nLimit < s.nCredit + pcoin.txout.nValue then s
      else if nStakeCombineThreshold ≤ pcoin.txout.nValue then addInputs nLimit rest s
      else if getWeight env pcoin.wtx.tx.nTime.toNat txNew.nTime.toNat < nStakeMinAge env then
        addInputs nLimit rest s
      else
        addInputs nLimit rest
          { s with
            txNew :=
              { txNew with vin := txNew.vin ++ [⟨⟨hash, UInt32.ofNat pcoin.i⟩, [], 0xffffffff⟩] }
            nCredit := s.nCredit + pcoin.txout.nValue
            vwtxPrev := s.vwtxPrev ++ [pcoin.wtx.tx] }
    else addInputs nLimit rest s

def setAmounts (tx : CTransaction) (nCredit : Int) : CTransaction :=
  match tx.vout with
  | [o, o₁, o₂] =>
    let half := (nCredit.tdiv 2).tdiv CENT * CENT
    { tx with vout := [o, { o₁ with nValue := half }, { o₂ with nValue := nCredit - half }] }
  | o :: o₁ :: rest => { tx with vout := o :: { o₁ with nValue := nCredit } :: rest }
  | _ => tx

def signInput (tx : CTransaction) (input : CTransaction × Nat) : Except Reject CTransaction :=
  match st.signSignature input.1 tx input.2 with
  | none => .error { msg := "CreateCoinStake : failed to sign coinstake" }
  | some scriptSig => .ok { tx with
      vin := tx.vin.modify input.2 fun txin => { txin with scriptSig := scriptSig } }

/-- `CreateCoinStake`, from the point where the kernel is found. -/
def finishCoinStake (nFees nLimit : Int) (setCoins : List COutput) (found : StakeState) :
    Except Reject (CTransaction × CKey) := do
  check (!(found.nCredit == 0 || decide (nLimit < found.nCredit))) { msg := "" }
  let s := addInputs env nLimit setCoins found
  let nCoinAge ←
    match s.txNew.getCoinAge env n.openTxDb with
    | .error _ => .error { msg := "CreateCoinStake : failed to calculate coin age" }
    | .ok nCoinAge => .ok nCoinAge
  let nReward := getProofOfStakeReward (int64 nCoinAge) nFees
  check (decide (0 < nReward)) { msg := "" }
  let txNew ← s.vwtxPrev.zipIdx.foldlM (signInput st) (setAmounts s.txNew (s.nCredit + nReward))
  check (decide (txNew.getSerializeSize < MAX_BLOCK_SIZE_GEN / 5))
    { msg := "CreateCoinStake : exceeded coinstake size limit" }
  pure (txNew, found.key)

def createCoinStake (nBits : UInt32) (nSearchInterval nFees : Int) (txNew : CTransaction) :
    Except Reject (CTransaction × CKey) := do
  let txNew := { txNew with vin := [], vout := [⟨0, []⟩] }
  let nBalance ← st.wallet.getBalance st.view st.keys
  check (decide (st.nReserveBalance < nBalance)) { msg := "" }
  let nLimit := nBalance - st.nReserveBalance
  let setCoins := st.pointerOrder
    (st.selectCoinsSimple nLimit txNew.nTime (nCoinbaseMaturity env))
  check (!setCoins.isEmpty) { msg := "" }
  match setCoins.findSome? (searchCoin env host n st nBits nSearchInterval txNew) with
  | none => .error { msg := "" }
  | some found => finishCoinStake env n st nFees nLimit setCoins found

end CreateCoinStake

structure StakeSearch where
  nLastCoinStakeSearchTime : Int
  nLastCoinStakeSearchInterval : Int

def newTransaction (host : Host) : CTransaction where
  nTime := UInt32.ofInt host.nAdjustedTime
  vin := []
  vout := []

def CBlockIndex.minStakeTime (pindexBest : CBlockIndex) : Int :=
  max (pindexBest.getMedianTimePast + 1) (pastDrift pindexBest.getBlockTime)

def CBlock.setStakeTime (block : CBlock) (pindexBest : CBlockIndex) (txCoinStake : CTransaction) :
    CBlock :=
  let block := { block with
    nTime := txCoinStake.nTime
    vtx := block.vtx.modifyHead fun (tx : CTransaction) => { tx with nTime := txCoinStake.nTime } }
  let block := block.setTime (max (pindexBest.getMedianTimePast + 1) block.getMaxTransactionTime)
  block.setTime (max block.getBlockTime (pastDrift pindexBest.getBlockTime))

/-- The block with the coinstake: transactions with later times go, the coinstake is inserted. -/
def CBlock.insertCoinStake (env : Env) (block : CBlock) (txCoinStake : CTransaction) : CBlock :=
  let vtx := block.vtx.filter fun tx : CTransaction => !decide (block.nTime < tx.nTime)
  let block := { block with vtx := vtx.insertIdx 1 txCoinStake }
  { block with hashMerkleRoot := block.buildMerkleTree env }

/-- `SignBlock`: whether the block is complete, the block as it is left, and the search times. -/
def signBlock (env : Env) (host : Host) (n : FullNode) (st : Staker) (search : StakeSearch)
    (block : CBlock) (nFees : Int) : Bool × CBlock × StakeSearch :=
  if !((block.vtx.head?.bind fun tx => tx.vout.head?).any CTxOut.isEmpty) then
    (false, block, search)
  else if block.isProofOfStake then (true, block, search)
  else
    let txCoinStake := newTransaction host
    let nSearchTime : Int := txCoinStake.nTime.toNat
    if nSearchTime ≤ search.nLastCoinStakeSearchTime then (false, block, search)
    else
      let nSearchInterval := nSearchTime - search.nLastCoinStakeSearchTime
      let searched : StakeSearch := ⟨nSearchTime, nSearchInterval⟩
      match n.pindexBest with
      | none => (false, block, searched)
      | some pindexBest =>
        match createCoinStake env host n st block.nBits nSearchInterval nFees txCoinStake with
        | .error _ => (false, block, searched)
        | .ok (txCoinStake, key) =>
          if (txCoinStake.nTime.toNat : Int) < pindexBest.minStakeTime then (false, block, searched)
          else
            let block := (block.setStakeTime pindexBest txCoinStake).insertCoinStake env txCoinStake
            match key.sign (block.getHash env) with
            | none => (false, block, search)
            | some vchBlockSig => (true, { block with vchBlockSig := vchBlockSig }, search)

end Triangles
