import Mathlib.Logic.Function.Basic
import Triangles.Model.Block

/-! What a wallet records about the transactions of connected and disconnected blocks
(wallet.h, wallet.cpp). Receive times, order positions and key pool top-ups are left out:
no spent flag, block hash or Merkle branch depends on them. -/

namespace Triangles

structure CWalletTx where
  tx : CTransaction
  hashBlock : uint256 := 0
  vMerkleBranch : List uint256 := []
  nIndex : Int := -1
  fFromMe : Bool := false
  vfSpent : List Bool := []
deriving DecidableEq

namespace CWalletTx

def resized (wtx : CWalletTx) : List Bool :=
  (wtx.vfSpent ++ List.replicate wtx.tx.vout.length false).take wtx.tx.vout.length

def markSpent (wtx : CWalletTx) (nOut : Nat) : CWalletTx :=
  { wtx with vfSpent := wtx.resized.set nOut true }

def markUnspent (wtx : CWalletTx) (nOut : Nat) : CWalletTx :=
  { wtx with vfSpent := wtx.resized.set nOut false }

def isSpent (wtx : CWalletTx) (nOut : Nat) : Bool := wtx.vfSpent.getD nOut false

/-- `UpdateSpent`: flags set in the new vector are set here, as far as this one reaches. -/
def updateSpent (wtx : CWalletTx) (vfNewSpent : List Bool) : CWalletTx :=
  { wtx with vfSpent := wtx.vfSpent.zipIdx.map fun (f, i) => f || vfNewSpent.getD i false }

/-- `SetMerkleBranch(pblock)`: block hash, position and branch; a transaction that is not in
the block gets position -1 and no branch. -/
def setMerkleBranch (env : Env) (wtx : CWalletTx) (block : CBlock) : CWalletTx :=
  match block.vtx.findIdx? (· == wtx.tx) with
  | none => { wtx with hashBlock := block.getHash env, vMerkleBranch := [], nIndex := -1 }
  | some nIndex =>
    { wtx with
      hashBlock := block.getHash env
      vMerkleBranch := block.getMerkleBranch env nIndex
      nIndex := nIndex }

end CWalletTx

/-- A registered wallet: the scripts its keys can spend, the global `nMinimumInputValue`
and the transactions it has recorded. -/
structure CWallet where
  ownsScript : CScript → Bool
  nMinimumInputValue : Int := 0
  mapWallet : uint256 → Option CWalletTx

namespace CWallet

def isMine (w : CWallet) (txout : CTxOut) : Bool := w.ownsScript txout.scriptPubKey

def isMineTx (w : CWallet) (tx : CTransaction) : Bool :=
  tx.vout.any fun txout => w.isMine txout && decide (w.nMinimumInputValue ≤ txout.nValue)

def ownPrevout (w : CWallet) (txin : CTxIn) : Option CTxOut :=
  match w.mapWallet txin.prevout.hash with
  | none => none
  | some prev =>
    match prev.tx.vout[txin.prevout.n.toNat]? with
    | none => none
    | some txout => if w.isMine txout then some txout else none

def getDebit (w : CWallet) (tx : CTransaction) : Int :=
  (tx.vin.map fun txin => ((w.ownPrevout txin).map CTxOut.nValue).getD 0).sum

def isFromMe (w : CWallet) (tx : CTransaction) : Bool := decide (0 < w.getDebit tx)

def update (w : CWallet) (hash : uint256) (f : CWalletTx → CWalletTx) : CWallet :=
  { w with mapWallet := Function.update w.mapWallet hash ((w.mapWallet hash).map f) }

def spendPrevout (w : CWallet) (txin : CTxIn) : CWallet :=
  let n := txin.prevout.n.toNat
  match w.mapWallet txin.prevout.hash with
  | none => w
  | some wtx =>
    if !wtx.isSpent n && (w.ownPrevout txin).isSome then
      w.update txin.prevout.hash (·.markSpent n)
    else w

/-- `WalletUpdateSpent(tx, fBlock)`. With `fBlock` the own outputs of a transaction found in
a block are marked unspent. -/
def walletUpdateSpent (env : Env) (w : CWallet) (tx : CTransaction) (fBlock : Bool) : CWallet :=
  let w := tx.vin.foldl spendPrevout w
  if fBlock then
    tx.vout.zipIdx.foldl (fun w (txout, i) =>
      if w.isMine txout then w.update (tx.getHash env) (·.markUnspent i) else w) w
  else w

/-- `AddToWallet`: insert the record, or merge it into the one already there. -/
def addToWallet (env : Env) (w : CWallet) (wtxIn : CWalletTx) : CWallet :=
  let hash := wtxIn.tx.getHash env
  let merged : CWalletTx :=
    match w.mapWallet hash with
    | none => wtxIn
    | some wtx =>
      let wtx := if wtxIn.hashBlock ≠ 0 then { wtx with hashBlock := wtxIn.hashBlock } else wtx
      let wtx :=
        if wtxIn.nIndex ≠ -1 then
          { wtx with vMerkleBranch := wtxIn.vMerkleBranch, nIndex := wtxIn.nIndex }
        else wtx
      { wtx with fFromMe := wtx.fFromMe || wtxIn.fFromMe }.updateSpent wtxIn.vfSpent
  let w := { w with mapWallet := Function.update w.mapWallet hash (some merged) }
  w.walletUpdateSpent env merged.tx (decide (wtxIn.hashBlock ≠ 0))

def addToWalletIfInvolvingMe (env : Env) (w : CWallet) (tx : CTransaction) (block : CBlock)
    (fUpdate : Bool) : CWallet :=
  let fExisted := (w.mapWallet (tx.getHash env)).isSome
  if fExisted && !fUpdate then w
  else if fExisted || w.isMineTx tx || w.isFromMe tx then
    w.addToWallet env (CWalletTx.setMerkleBranch env { tx := tx } block)
  else w.walletUpdateSpent env tx false

def disableTransaction (w : CWallet) (tx : CTransaction) : CWallet :=
  if !tx.isCoinStake || !w.isFromMe tx then w
  else tx.vin.foldl (fun w txin =>
    if (w.ownPrevout txin).isSome then
      w.update txin.prevout.hash (·.markUnspent txin.prevout.n.toNat)
    else w) w

def syncTransaction (env : Env) (block : CBlock) (fUpdate fConnect : Bool) (w : CWallet)
    (tx : CTransaction) : CWallet :=
  if fConnect then w.addToWalletIfInvolvingMe env tx block fUpdate
  else if tx.isCoinStake && w.isFromMe tx then w.disableTransaction tx
  else w

end CWallet

def syncWithWallets (env : Env) (block : CBlock) (fUpdate fConnect : Bool)
    (wallets : List CWallet) : List CWallet :=
  wallets.map fun w => block.vtx.foldl (CWallet.syncTransaction env block fUpdate fConnect) w

end Triangles
