import Triangles.Model.ProcessBlock
import Triangles.Model.Standard

/-! Building a block template, `CreateNewBlock` (miner.cpp). -/

namespace Triangles

open Outcome

/-- The arithmetic of `double` as far as the miner uses it: `d + (double)nValueIn * nConf`,
`d / nTxSize`, `double(nFee) / (double(nTxSize)/1000.0)` and `d < n`. -/
structure Doubles (double : Type) where
  zero : double
  addAge : double → Int → Int → double
  perByte : double → Nat → double
  perKb : Int → Nat → double
  less : double → Int → Bool

/-- `make_heap`, `push_heap` and `pop_heap` under one of the two orders of
`TxPriorityCompare`: they rearrange the vector. `pop` is what stays once the front is off. -/
structure Heap (α : Type) where
  make : Bool → List α → List α
  push : Bool → List α → List α
  pop : Bool → α → List α → List α
  make_perm : ∀ byFee l, (make byFee l).Perm l
  push_perm : ∀ byFee l, (push byFee l).Perm l
  pop_perm : ∀ byFee front rest, (pop byFee front rest).Perm rest

structure TxPriority (double : Type) where
  dPriority : double
  dFeePerKb : double
  ptx : CTransaction

structure COrphan (double : Type) where
  ptx : CTransaction
  setDependsOn : Finset uint256 := ∅
  dPriority : double
  dFeePerKb : double

structure Miner (double : Type) where
  blockmaxsize : Int := MAX_BLOCK_SIZE_GEN / 2
  blockprioritysize : Int := 27000
  blockminsize : Int := 0
  nMinTxFee : Int := MIN_TX_FEE
  COINBASE_FLAGS : CScript := []
  reservedKey : uint160
  fDebug : Bool := false
  doubles : Doubles double
  heap : Heap (TxPriority double)

def uint32 (n : Int) : Nat := (UInt32.ofInt n).toNat

def pastDrift (nTime : Int) : Int := nTime - 10 * 60

def setDestination : CTxDestination → CScript
  | .noDestination => []
  | .keyID id =>
    [OP_DUP, OP_HASH160, UInt8.ofNat id.length] ++ id ++ [OP_EQUALVERIFY, OP_CHECKSIG]
  | .scriptID id => [OP_HASH160, UInt8.ofNat id.length] ++ id ++ [OP_EQUAL]

def CBlock.setTime (block : CBlock) (t : Int) : CBlock := { block with nTime := UInt32.ofInt t }

def CBlock.getMaxTransactionTime (block : CBlock) : Int :=
  block.vtx.foldl (fun maxTransactionTime tx => max maxTransactionTime tx.nTime.toNat) 0

namespace State

def openTxDb (s : State) : CTxDB := ⟨s.txdb.committed, none⟩

end State

def CTxIndex.getDepthInMainChain (env : Env) (n : FullNode) (txindex : CTxIndex) : Int :=
  match env.readHeader txindex.pos.nFile txindex.pos.nBlockPos with
  | none => 0
  | some block =>
    match n.mapBlockIndex.find (env.hash9 block) with
    | none => 0
    | some pindex =>
      if n.isInMainChain pindex then 1 + n.nBestHeight - pindex.nHeight else 0

namespace Miner

variable {double : Type}

def nBlockMaxSize (m : Miner double) : Nat :=
  max 1000 (min (MAX_BLOCK_SIZE - 1000) (uint32 m.blockmaxsize))

def nBlockPrioritySize (m : Miner double) : Nat :=
  min m.nBlockMaxSize (uint32 m.blockprioritysize)

def nBlockMinSize (m : Miner double) : Nat := min m.nBlockMaxSize (uint32 m.blockminsize)

end Miner

structure PoolScan (double : Type) where
  vOrphan : List (COrphan double) := []
  mapDependers : uint256 → List Nat := fun _ => []
  vecPriority : List (TxPriority double) := []

structure InputScan (double : Type) where
  vOrphan : List (COrphan double)
  mapDependers : uint256 → List Nat
  porphan : Option Nat := none
  dPriority : double
  nTotalIn : Int := 0
  fMissingInputs : Bool := false

structure Collected (double : Type) where
  vtx : List CTransaction := []
  mapTestPool : QueuedChanges := ∅
  nBlockSize : Nat := 1000
  nBlockSigOps : Nat := 100
  nFees : Int := 0
  fSortedByFee : Bool
  vOrphan : List (COrphan double)
  vecPriority : List (TxPriority double)

section CreateNewBlock

variable {double : Type} (env : Env) (host : Host) (m : Miner double) (n : FullNode)

def waitFor (tx : CTransaction) (s : InputScan double) (txin : CTxIn) (txPrev : CTransaction) :
    InputScan double :=
  let hash := txin.prevout.hash
  let porphan := s.porphan.getD s.vOrphan.length
  let vOrphan :=
    if s.porphan.isSome then s.vOrphan
    else s.vOrphan ++ [{ ptx := tx, dPriority := m.doubles.zero, dFeePerKb := m.doubles.zero }]
  { s with
    porphan := some porphan
    vOrphan := vOrphan.modify porphan fun orphan =>
      { orphan with setDependsOn := insert hash orphan.setDependsOn }
    mapDependers := Function.update s.mapDependers hash (s.mapDependers hash ++ [porphan])
    nTotalIn := s.nTotalIn + ((txPrev.vout[txin.prevout.n.toNat]?).map CTxOut.nValue).getD 0 }

/-- One round of the loop over the inputs. An input that is nowhere ends the loop and drops
the orphan; with `-debug` it aborts. -/
def scanInput (tx : CTransaction) (s : InputScan double) (txin : CTxIn) :
    Except Reject (InputScan double) :=
  if s.fMissingInputs then .ok s
  else
    match readTxFromDisk env n.openTxDb txin.prevout with
    | some (txPrev, txindex) =>
      let nValueIn := ((txPrev.vout[txin.prevout.n.toNat]?).map CTxOut.nValue).getD 0
      .ok { s with
        nTotalIn := s.nTotalIn + nValueIn
        dPriority := m.doubles.addAge s.dPriority nValueIn (txindex.getDepthInMainChain env n) }
    | none =>
      match n.mempool.lookup txin.prevout.hash with
      | some txPrev => .ok (waitFor m tx s txin txPrev)
      | none => do
        check (!m.fDebug) { msg := "assert(\"mempool transaction missing input\" == 0)" }
        pure { s with
          fMissingInputs := true
          vOrphan := if s.porphan.isSome then s.vOrphan.dropLast else s.vOrphan }

def enqueue (tx : CTransaction) (q : PoolScan double) (s : InputScan double) (nValueOut : Int) :
    PoolScan double :=
  let nTxSize := tx.getSerializeSize
  let dPriority := m.doubles.perByte s.dPriority nTxSize
  let dFeePerKb := m.doubles.perKb (s.nTotalIn - nValueOut) nTxSize
  match s.porphan with
  | some porphan =>
    { q with
      mapDependers := s.mapDependers
      vOrphan := s.vOrphan.modify porphan fun orphan =>
        { orphan with dPriority := dPriority, dFeePerKb := dFeePerKb } }
  | none =>
    { vOrphan := s.vOrphan
      mapDependers := s.mapDependers
      vecPriority := q.vecPriority ++ [⟨dPriority, dFeePerKb, tx⟩] }

def scanTx (q : PoolScan double) (tx : CTransaction) : Except Reject (PoolScan double) :=
  if tx.isCoinBase || tx.isCoinStake || !tx.isFinal n.nBestHeight host.nAdjustedTime 0 0 then .ok q
  else do
    let s ← tx.vin.foldlM (scanInput env m n tx)
      { vOrphan := q.vOrphan, mapDependers := q.mapDependers, dPriority := m.doubles.zero }
    if s.fMissingInputs then
      pure { q with vOrphan := s.vOrphan, mapDependers := s.mapDependers }
    else
      let nValueOut ← tx.getValueOut
      pure (enqueue m tx q s nValueOut)

def poolTxs (pool : CTxMemPool) : List CTransaction :=
  (pool.mapTx.keys.insertionSort (· ≤ ·)).filterMap pool.lookup

/-- One entry of `mapDependers[hash]` once `hash` is in the block: the last parent placed
puts the transaction on the queue. -/
def release (hash : uint256) (c : Collected double) (porphan : Nat) : Collected double :=
  match c.vOrphan[porphan]? with
  | none => c
  | some orphan =>
    if orphan.setDependsOn = ∅ then c
    else
      let setDependsOn := orphan.setDependsOn.erase hash
      { c with
        vOrphan := c.vOrphan.set porphan { orphan with setDependsOn := setDependsOn }
        vecPriority :=
          if setDependsOn = ∅ then
            m.heap.push c.fSortedByFee
              (c.vecPriority ++ [⟨orphan.dPriority, orphan.dFeePerKb, orphan.ptx⟩])
          else c.vecPriority }

/-- The tests a transaction meets before its inputs are fetched: size, legacy signature
operations, timestamp, and free transactions past the minimum block size. -/
def passedOver (fProofOfStake : Bool) (c : Collected double) (p : TxPriority double) : Bool :=
  let nTxSize := p.ptx.getSerializeSize
  decide (m.nBlockMaxSize ≤ c.nBlockSize + nTxSize) ||
  decide (MAX_BLOCK_SIGOPS ≤ c.nBlockSigOps + p.ptx.getLegacySigOpCount) ||
  (decide (host.nAdjustedTime < p.ptx.nTime.toNat) ||
    (fProofOfStake && decide (UInt32.ofInt host.nAdjustedTime < p.ptx.nTime))) ||
  (c.fSortedByFee && m.doubles.less p.dFeePerKb m.nMinTxFee &&
    decide (m.nBlockMinSize ≤ c.nBlockSize + nTxSize))

def sortByFee (c : Collected double) (p : TxPriority double) : Collected double :=
  if !c.fSortedByFee && (decide (m.nBlockPrioritySize ≤ c.nBlockSize + p.ptx.getSerializeSize) ||
      m.doubles.less p.dPriority (COIN * 144 / 250)) then
    { c with fSortedByFee := true, vecPriority := m.heap.make true c.vecPriority }
  else c

def addTx (mapDependers : uint256 → List Nat) (c : Collected double) (tx : CTransaction)
    (mapTestPool : QueuedChanges) (nTxSigOps : Nat) (nTxFees : Int) : Collected double :=
  let hash := tx.getHash env
  (mapDependers hash).foldl (release m hash)
    { c with
      vtx := c.vtx ++ [tx]
      mapTestPool := mapTestPool.insert hash (.fresh .inMempool tx.vout.length)
      nBlockSize := c.nBlockSize + tx.getSerializeSize
      nBlockSigOps := c.nBlockSigOps + nTxSigOps
      nFees := c.nFees + nTxFees }

def connectTxInputs (pindexPrev : CBlockIndex) (mapDependers : uint256 → List Nat)
    (nMinFee : Int) (c : Collected double) (tx : CTransaction) :
    Except Reject (Collected double) :=
  match tx.fetchInputs env n.openTxDb c.mapTestPool n.mempool false true with
  | .error _ => .ok c
  | .ok mapInputs => do
    let nValueIn ← tx.getValueIn mapInputs
    let nValueOut ← tx.getValueOut
    let nTxFees := nValueIn - nValueOut
    if nTxFees < nMinFee then pure c
    else
      let nP2SHSigOps ← tx.getP2SHSigOpCount mapInputs
      let nTxSigOps := tx.getLegacySigOpCount + nP2SHSigOps
      if MAX_BLOCK_SIGOPS ≤ c.nBlockSigOps + nTxSigOps then pure c
      else
        match tx.connectInputs env (n.ctx host) mapInputs c.mapTestPool .inMempool pindexPrev
            false true with
        | .error _ => pure c
        | .ok mapTestPool => pure (addTx env m mapDependers c tx mapTestPool nTxSigOps nTxFees)

def collectTx (fProofOfStake : Bool) (pindexPrev : CBlockIndex) (mapDependers : uint256 → List Nat)
    (c : Collected double) (p : TxPriority double) : Except Reject (Collected double) :=
  if passedOver host m fProofOfStake c p then .ok c
  else
    connectTxInputs env host m n pindexPrev mapDependers (p.ptx.getMinFee c.nBlockSize)
      (sortByFee m c p) p.ptx

/-- `while (!vecPriority.empty())`. Every round takes one transaction off the queue and each
orphan gets there once, so their number bounds the rounds. -/
def collect (fProofOfStake : Bool) (pindexPrev : CBlockIndex) (mapDependers : uint256 → List Nat) :
    Nat → Collected double → Except Reject (Collected double)
  | 0, c => .ok c
  | rounds + 1, c =>
    match c.vecPriority with
    | [] => .ok c
    | front :: rest => do
      let c ← collectTx env host m n fProofOfStake pindexPrev mapDependers
        { c with vecPriority := m.heap.pop c.fSortedByFee front rest } front
      collect fProofOfStake pindexPrev mapDependers rounds c

def collectPool (fProofOfStake : Bool) (pindexPrev : CBlockIndex) :
    Except Reject (Collected double) := do
  let q ← (poolTxs n.mempool).foldlM (scanTx env host m n) {}
  let fSortedByFee := decide (m.nBlockPrioritySize ≤ 0)
  collect env host m n fProofOfStake pindexPrev q.mapDependers
    (q.vecPriority.length + q.vOrphan.length)
    { fSortedByFee := fSortedByFee
      vOrphan := q.vOrphan
      vecPriority := m.heap.make fSortedByFee q.vecPriority }

/-- The coinbase of the template; the constructor stamps it with the clock. For a staked
block it starts with the height. -/
def coinbaseTx (fProofOfStake : Bool) (pindexPrev : CBlockIndex) (nFees : Int) : CTransaction where
  nTime := UInt32.ofInt host.nAdjustedTime
  vin := [{ prevout := ⟨0, 0xffffffff⟩
            scriptSig :=
              if fProofOfStake then pushInt64 (pindexPrev.nHeight + 1) ++ m.COINBASE_FLAGS else [] }]
  vout :=
    if fProofOfStake then [{ nValue := 0, scriptPubKey := [] }]
    else
      [{ nValue := getProofOfWorkReward (n.ctx host).nHeightBest nFees
         scriptPubKey := setDestination (.keyID m.reservedKey) }]

def createNewBlock (fProofOfStake : Bool) : Except Reject (CBlock × Int) :=
  match n.pindexBest with
  | none => .error { msg := "pindexBest is NULL" }
  | some pindexPrev => do
    check (!fProofOfStake || decide ((pushInt64 (pindexPrev.nHeight + 1) ++ m.COINBASE_FLAGS).length
      ≤ 100)) { msg := "assert(txNew.vin[0].scriptSig.size() <= 100)" }
    let c ← collectPool env host m n fProofOfStake pindexPrev
    let block : CBlock :=
      { hashPrevBlock := pindexPrev.getBlockHash
        hashMerkleRoot := 0
        nTime := 0
        nBits := getNextTargetRequired env (some pindexPrev) fProofOfStake
        vtx := coinbaseTx host m n fProofOfStake pindexPrev c.nFees :: c.vtx }
    let block := block.setTime (max (pindexPrev.getMedianTimePast + 1) block.getMaxTransactionTime)
    let block := block.setTime (max block.getBlockTime (pastDrift pindexPrev.getBlockTime))
    let block :=
      if fProofOfStake then block else block.setTime (max block.getBlockTime host.nAdjustedTime)
    pure (block, c.nFees)

end CreateNewBlock

end Triangles
