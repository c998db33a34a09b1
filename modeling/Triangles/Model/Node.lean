import Triangles.Model.ConnectBlock
import Triangles.Model.Wallet

/-! The chain state of a node and the functions that move it to another best block:
`ConnectBlock`, `DisconnectBlock`, `Reorganize`, `SetBestChain` (main.cpp). -/

namespace Triangles

open Outcome Batch

/-- The globals of main.cpp that describe the best chain, the database handle, the mutable
fields of the block index, the memory pool and the registered wallets. -/
structure State where
  txdb : CTxDB
  pnext : CBlockIndex → Option CBlockIndex
  nMint : CBlockIndex → Int
  nMoneySupply : CBlockIndex → Int
  pindexGenesisBlock : Option CBlockIndex
  pindexBest : Option CBlockIndex
  hashBestChain : uint256
  nBestHeight : Int
  nBestChainTrust : uint256
  nBestInvalidTrust : uint256
  mempool : CTxMemPool
  wallets : List CWallet

/-- What the surroundings decide during one call: the clock, which block files cannot be
read and which database writes fail. -/
structure Host where
  nAdjustedTime : Int
  readFails : CBlockIndex → Bool := fun _ => false
  commitFails : CTxDB → Bool := fun _ => false

abbrev Node := EStateM Reject State

def hashGenesisBlock : uint256 := 0x7e7a6e4dd5fe895106fca912dfbacaeaf2a89e76c6a588df8ff96e0e18b96021

def named (msg : String) (x : EStateM Reject σ α) : EStateM Reject σ α := fun s =>
  match x s with
  | .ok a t => .ok a t
  | .error e t => .error { msg := msg, nDoS := e.nDoS } t

def onTxDb (x : EStateM Reject CTxDB α) : Node α := fun s =>
  match x s.txdb with
  | .ok a db => .ok a { s with txdb := db }
  | .error e db => .error e { s with txdb := db }

namespace State

def ctx (s : State) (host : Host) : Ctx where
  nAdjustedTime := host.nAdjustedTime
  nHeightBest := (s.pindexBest.map fun p => (p.nHeight : Int)).getD (-1)
  nBestHeight := s.nBestHeight
  mempool := s.mempool

def isInMainChain (s : State) (pindex : CBlockIndex) : Bool :=
  (s.pnext pindex).isSome || s.pindexBest == some pindex

def diskBlockIndex (s : State) (pindex : CBlockIndex) : CDiskBlockIndex where
  pindex := pindex
  nMint := s.nMint pindex
  nMoneySupply := s.nMoneySupply pindex
  hashNext := ((s.pnext pindex).map CBlockIndex.getBlockHash).getD 0

/-- Rewrite the record of the previous block with another `hashNext`, on disk only. -/
def writePrevIndex (s : State) (pindex : CBlockIndex) (hashNext : uint256) : State :=
  match pindex.pprev with
  | none => s
  | some p => { s with txdb := s.txdb.writeBlockIndex { s.diskBlockIndex p with hashNext := hashNext } }

def setMint (s : State) (pindex : CBlockIndex) (acc : ConnectAcc) : State :=
  { s with
    nMint := Function.update s.nMint pindex (acc.nValueOut - acc.nValueIn + acc.nFees)
    nMoneySupply := Function.update s.nMoneySupply pindex
      ((pindex.pprev.map s.nMoneySupply).getD 0 + acc.nValueOut - acc.nValueIn) }

/-- The writes of a successful `ConnectBlock`. With a batch in progress they cannot fail. -/
def afterConnect (env : Env) (block : CBlock) (pindex : CBlockIndex) (fJustCheck : Bool)
    (acc : ConnectAcc) (s : State) : State :=
  let s := s.setMint pindex acc
  let s := { s with txdb := s.txdb.writeBlockIndex (s.diskBlockIndex pindex) }
  if fJustCheck then s
  else
    let s := { s with txdb := writeQueued s.txdb acc.mapQueuedChanges }
    let s := s.writePrevIndex pindex pindex.getBlockHash
    { s with wallets := syncWithWallets env block true true s.wallets }

def txnBegin (s : State) : State := { s with txdb := s.txdb.start }

def txnAbort (s : State) : State := { s with txdb := s.txdb.abort }

def invalidChainFound (s : State) (pindexNew : CBlockIndex) : State :=
  if s.nBestInvalidTrust < pindexNew.nChainTrust then
    { s with
      nBestInvalidTrust := pindexNew.nChainTrust
      txdb := { s.txdb with
        committed := (CTxDB.writeBestInvalidTrust ⟨s.txdb.committed, none⟩
          pindexNew.nChainTrust).committed } }
  else s

def newBest (s : State) (hash : uint256) (pindexNew : CBlockIndex) : State :=
  { s with
    hashBestChain := hash
    pindexBest := some pindexNew
    nBestHeight := pindexNew.nHeight
    nBestChainTrust := pindexNew.nChainTrust }

def setPnext (s : State) (pindex : CBlockIndex) (next : Option CBlockIndex) : State :=
  { s with pnext := Function.update s.pnext pindex next }

def unlink (s : State) (pindex : CBlockIndex) : State :=
  match pindex.pprev with
  | none => s
  | some p => s.setPnext p none

def link (s : State) (pindex : CBlockIndex) : State :=
  match pindex.pprev with
  | none => s
  | some p => s.setPnext p (some pindex)

end State

def connectBlock (env : Env) (host : Host) (block : CBlock) (pindex : CBlockIndex)
    (fJustCheck : Bool := false) : Node Unit := fun s =>
  match connectBlockChecks env (s.ctx host) s.txdb block pindex fJustCheck with
  | .error e => .error e s
  | .ok acc => .ok () (s.afterConnect env block pindex fJustCheck acc)

def disconnectBlock (env : Env) (block : CBlock) (pindex : CBlockIndex) : Node Unit := do
  onTxDb (block.vtx.reverse.forM (CTransaction.disconnectInputs env))
  modify fun s => s.writePrevIndex pindex 0
  modify fun s => { s with wallets := syncWithWallets env block false false s.wallets }

def readBlockOf (env : Env) (host : Host) (pindex : CBlockIndex) : Except Reject CBlock :=
  if host.readFails pindex then .error { msg := "CBlock::ReadFromDisk() : OpenBlockFile failed" }
  else readFromDisk env pindex

def txnCommit (host : Host) : Node Unit := fun s =>
  if host.commitFails s.txdb then .error { msg := "TxnCommit failed" } s.txnAbort
  else .ok () { s with txdb := s.txdb.commit }

def writeHashBestChain (hash : uint256) : Node Unit :=
  modify fun s => { s with txdb := s.txdb.writeHashBestChain hash }

namespace CBlockIndex

/-- Go back while the height is above `h`. The genesis block has height 0, so the null
test in the source never fires. -/
def lowerTo (h : Nat) : CBlockIndex → CBlockIndex
  | genesis f => genesis f
  | child f p => if h < p.nHeight + 1 then p.lowerTo h else child f p

def findFork : CBlockIndex → CBlockIndex → Except Reject CBlockIndex
  | genesis f, plonger =>
    if plonger.lowerTo 0 = genesis f then .ok (genesis f)
    else .error { msg := "Reorganize() : pfork->pprev is null" }
  | child f p, plonger =>
    let plonger := plonger.lowerTo (p.nHeight + 1)
    if plonger = child f p then .ok (child f p) else p.findFork plonger

/-- The blocks from `pindex` back to, but without, `pfork`. -/
def downTo (pfork pindex : CBlockIndex) : List CBlockIndex :=
  pindex.ancestors.takeWhile (· ≠ pfork)

/-- The first block of the new chain that makes it the best chain, and the blocks above it
whose connection is postponed, highest first. -/
def postpone (nBestTrust : uint256) : CBlockIndex → CBlockIndex × List CBlockIndex
  | genesis f => (genesis f, [])
  | child f p =>
    if nBestTrust < p.nChainTrust then
      ((p.postpone nBestTrust).1, child f p :: (p.postpone nBestTrust).2)
    else (child f p, [])

end CBlockIndex

def disconnectRound (env : Env) (host : Host) (vResurrect : List CTransaction)
    (pindex : CBlockIndex) : Node (List CTransaction) := do
  let block ← named "Reorganize() : ReadFromDisk for disconnect failed"
    (lift (readBlockOf env host pindex))
  named "Reorganize() : DisconnectBlock %s failed" (disconnectBlock env block pindex)
  pure (vResurrect ++ block.vtx.filter fun tx => !(tx.isCoinBase || tx.isCoinStake))

def connectRound (env : Env) (host : Host) (vDelete : List CTransaction)
    (pindex : CBlockIndex) : Node (List CTransaction) := do
  let block ← named "Reorganize() : ReadFromDisk for connect failed"
    (lift (readBlockOf env host pindex))
  named "Reorganize() : ConnectBlock %s failed" (connectBlock env host block pindex)
  pure (vDelete ++ block.vtx)

/-- Resurrect the transactions of the disconnected branch, then drop those of the
connected one. -/
def updatePool (env : Env) (vResurrect vDelete : List CTransaction) (pool : CTxMemPool) :
    CTxMemPool :=
  let pool := vResurrect.foldl (fun pool tx =>
    match pool.acceptUnfetched env tx with
    | .ok pool => pool
    | .error _ => pool) pool
  vDelete.foldl (fun pool tx => (pool.remove env tx).removeConflicts env tx) pool

def switchBranch (env : Env) (host : Host) (vDisconnect vConnect : List CBlockIndex)
    (pindexNew : CBlockIndex) : Node (List CTransaction × List CTransaction) := do
  let vResurrect ← vDisconnect.foldlM (disconnectRound env host) []
  let vDelete ← vConnect.foldlM (connectRound env host) []
  writeHashBestChain pindexNew.getBlockHash
  named "Reorganize() : TxnCommit failed" (txnCommit host)
  pure (vResurrect, vDelete)

/-- `Reorganize`. Memory is changed only after the commit. -/
def reorganize (env : Env) (host : Host) (pindexBest pindexNew : CBlockIndex) : Node Unit := do
  let pfork ← lift (pindexBest.findFork pindexNew)
  let vDisconnect := CBlockIndex.downTo pfork pindexBest
  let vConnect := (CBlockIndex.downTo pfork pindexNew).reverse
  let (vResurrect, vDelete) ← switchBranch env host vDisconnect vConnect pindexNew
  modify fun s => vDisconnect.foldl State.unlink s
  modify fun s => vConnect.foldl State.link s
  modify fun s => { s with mempool := updatePool env vResurrect vDelete s.mempool }

def setBestChainInner (env : Env) (host : Host) (block : CBlock) (pindexNew : CBlockIndex) :
    Node Unit := fun s =>
  match (do connectBlock env host block pindexNew; writeHashBestChain (block.getHash env) :
      Node Unit) s with
  | .error e t => .error e (t.txnAbort.invalidChainFound pindexNew)
  | .ok _ t =>
    (do
      named "SetBestChain() : TxnCommit failed" (txnCommit host)
      modify fun s => s.link pindexNew
      modify fun s => { s with
        mempool := block.vtx.foldl (fun pool tx => pool.remove env tx) s.mempool } : Node Unit) t

/-- The loop that connects the postponed blocks, lowest first. Errors end it but are not fatal. -/
def connectFurther (env : Env) (host : Host) : List CBlockIndex → State → State
  | [], s => s
  | pindex :: rest, s =>
    match readBlockOf env host pindex with
    | .error _ => s
    | .ok block =>
      match setBestChainInner env host block pindex s.txnBegin with
      | .error _ t => t
      | .ok _ t => connectFurther env host rest t

def switchBestChain (env : Env) (host : Host) (pindexBest pindexNew : CBlockIndex) : Node Unit :=
  fun s =>
    let (pindexIntermediate, vpindexSecondary) := pindexNew.postpone pindexBest.nChainTrust
    match reorganize env host pindexBest pindexIntermediate s with
    | .error e t => .error { msg := "SetBestChain() : Reorganize failed", nDoS := e.nDoS }
        (t.txnAbort.invalidChainFound pindexNew)
    | .ok _ t => .ok () (connectFurther env host vpindexSecondary.reverse t)

def startBestChain (host : Host) (hash : uint256) (pindexNew : CBlockIndex) : Node Unit := do
  writeHashBestChain hash
  named "SetBestChain() : TxnCommit failed" (txnCommit host)
  modify fun s => { s with pindexGenesisBlock := some pindexNew }

/-- The three ways in which `SetBestChain` moves the chain: start it, extend it, or switch to
another branch. -/
def moveBestChain (env : Env) (host : Host) (block : CBlock) (pindexNew : CBlockIndex) : Node Unit :=
  fun s =>
    if s.pindexGenesisBlock = none ∧ block.getHash env = hashGenesisBlock then
      startBestChain host (block.getHash env) pindexNew s
    else if block.hashPrevBlock = s.hashBestChain then
      named "SetBestChain() : SetBestChainInner failed" (setBestChainInner env host block pindexNew) s
    else
      match s.pindexBest with
      | none => .error { msg := "pindexBest is null" } s
      | some pindexBest => switchBestChain env host pindexBest pindexNew s

def setBestChain (env : Env) (host : Host) (block : CBlock) (pindexNew : CBlockIndex) : Node Unit :=
  do
    modify State.txnBegin
    moveBestChain env host block pindexNew
    modify fun s => s.newBest (block.getHash env) pindexNew

end Triangles
