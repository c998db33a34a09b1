import Triangles.Model.Wallet
import Triangles.Model.TxDb

/-! The calls that record transactions in a wallet, loose or from a block and with what the
wallet file answers, and the coins the wallet then offers (wallet.h, wallet.cpp). -/

namespace Triangles

namespace CWalletTx

/-- `UpdateSpent` returns true: a flag of the new vector was not set here. -/
def updatesSpent (wtx : CWalletTx) (vfNewSpent : List Bool) : Bool :=
  wtx.vfSpent.zipIdx.any fun (f, i) => vfNewSpent.getD i false && !f

/-- The merge in `AddToWallet` for a transaction that is there already. -/
def merge (wtx wtxIn : CWalletTx) : CWalletTx :=
  let wtx := if wtxIn.hashBlock ≠ 0 then { wtx with hashBlock := wtxIn.hashBlock } else wtx
  let wtx :=
    if wtxIn.nIndex ≠ -1 then
      { wtx with vMerkleBranch := wtxIn.vMerkleBranch, nIndex := wtxIn.nIndex }
    else wtx
  { wtx with fFromMe := wtx.fFromMe || wtxIn.fFromMe }.updateSpent wtxIn.vfSpent

def updatedBy (wtx wtxIn : CWalletTx) : Bool :=
  decide (wtxIn.hashBlock ≠ 0 ∧ wtxIn.hashBlock ≠ wtx.hashBlock) ||
  decide (wtxIn.nIndex ≠ -1 ∧
    (wtxIn.vMerkleBranch ≠ wtx.vMerkleBranch ∨ wtxIn.nIndex ≠ wtx.nIndex)) ||
  (wtxIn.fFromMe && wtxIn.fFromMe != wtx.fFromMe) ||
  wtx.updatesSpent wtxIn.vfSpent

end CWalletTx

namespace CWallet

def record (w : CWallet) (hash : uint256) (wtx : CWalletTx) : CWallet :=
  { w with mapWallet := Function.update w.mapWallet hash (some wtx) }

/-- `AddToWallet`, given what `WriteToDisk` returns. When the record had to be written and
was not, the function returns false without a look at the inputs. -/
def addToWalletWriting (env : Env) (w : CWallet) (wtxIn : CWalletTx) (fWritten : Bool) : CWallet :=
  let hash := wtxIn.tx.getHash env
  match w.mapWallet hash with
  | none =>
    let w := w.record hash wtxIn
    if !fWritten then w else w.walletUpdateSpent env wtxIn.tx (decide (wtxIn.hashBlock ≠ 0))
  | some wtx =>
    let w := w.record hash (wtx.merge wtxIn)
    if wtx.updatedBy wtxIn && !fWritten then w
    else w.walletUpdateSpent env wtx.tx (decide (wtxIn.hashBlock ≠ 0))

end CWallet

inductive WalletCall where
  | addToWallet (wtxIn : CWalletTx) (fWritten : Bool)
  | addToWalletIfInvolvingMe (tx : CTransaction) (pblock : Option CBlock) (fUpdate : Bool)
      (fWritten : Bool)

namespace CWallet

def walletTxOf (env : Env) (tx : CTransaction) (pblock : Option CBlock) : CWalletTx :=
  match pblock with
  | none => { tx := tx }
  | some block => CWalletTx.setMerkleBranch env { tx := tx } block

def call (env : Env) (w : CWallet) : WalletCall → CWallet
  | .addToWallet wtxIn fWritten => w.addToWalletWriting env wtxIn fWritten
  | .addToWalletIfInvolvingMe tx pblock fUpdate fWritten =>
    let fExisted := (w.mapWallet (tx.getHash env)).isSome
    if fExisted && !fUpdate then w
    else if fExisted || w.isMineTx tx || w.isFromMe tx then
      w.addToWalletWriting env (walletTxOf env tx pblock) fWritten
    else w.walletUpdateSpent env tx false

def calls (env : Env) (w : CWallet) (l : List WalletCall) : CWallet := l.foldl (call env) w

end CWallet

structure CoinView where
  isFinal : CTransaction → Bool
  isTrusted : CWalletTx → Bool
  getBlocksToMaturity : CWalletTx → Int
  getDepthInMainChain : CWalletTx → Int

structure COutput where
  hash : uint256
  wtx : CWalletTx
  i : Nat
  nDepth : Int

namespace CWallet

def coinsOf (view : CoinView) (w : CWallet) (fOnlyConfirmed : Bool)
    (coinControl : Option (List COutPoint)) (hash : uint256) (pcoin : CWalletTx) : List COutput :=
  let nDepth := view.getDepthInMainChain pcoin
  if !view.isFinal pcoin.tx then []
  else if fOnlyConfirmed && !view.isTrusted pcoin then []
  else if pcoin.tx.isCoinBase && decide (0 < view.getBlocksToMaturity pcoin) then []
  else if pcoin.tx.isCoinStake && decide (0 < view.getBlocksToMaturity pcoin) then []
  else if nDepth < 0 then []
  else pcoin.tx.vout.zipIdx.filterMap fun (txout, i) =>
    if !pcoin.isSpent i && w.isMine txout && decide (w.nMinimumInputValue ≤ txout.nValue) &&
        (match coinControl with
          | none => true
          | some selected => selected.isEmpty || selected.contains ⟨hash, UInt32.ofNat i⟩) then
      some ⟨hash, pcoin, i, nDepth⟩
    else none

def availableCoins (view : CoinView) (w : CWallet) (keys : List uint256) (fOnlyConfirmed : Bool)
    (coinControl : Option (List COutPoint)) : List COutput :=
  keys.flatMap fun hash =>
    match w.mapWallet hash with
    | none => []
    | some pcoin => w.coinsOf view fOnlyConfirmed coinControl hash pcoin

theorem merge_tx (wtx wtxIn : CWalletTx) : (wtx.merge wtxIn).tx = wtx.tx := by
  unfold CWalletTx.merge
  simp only
  split <;> split <;> rfl

end CWallet

/-! `FixSpentCoins`: the spent flags of the wallet against the transaction index (wallet.cpp). -/

def CTxIndex.hasSpent (txindex : CTxIndex) (n : Nat) : Bool :=
  match txindex.vSpent[n]? with
  | none => false
  | some pos => !pos.isNull

structure Mismatches where
  nMismatchFound : Int := 0
  nBalanceInQuestion : Int := 0
deriving DecidableEq

namespace CWallet

def fixOutput (w : CWallet) (txindex : CTxIndex) (fCheckOnly : Bool) (s : Mismatches × CWalletTx)
    (o : CTxOut × Nat) : Mismatches × CWalletTx :=
  let (m, pcoin) := s
  let found : Mismatches := ⟨m.nMismatchFound + 1, m.nBalanceInQuestion + o.1.nValue⟩
  if w.isMine o.1 && pcoin.isSpent o.2 && !txindex.hasSpent o.2 then
    (found, if fCheckOnly then pcoin else pcoin.markUnspent o.2)
  else if w.isMine o.1 && !pcoin.isSpent o.2 && txindex.hasSpent o.2 then
    (found, if fCheckOnly then pcoin else pcoin.markSpent o.2)
  else (m, pcoin)

/-- One coin; without an index it is left alone. -/
def fixCoin (env : Env) (txdb : CTxDB) (fCheckOnly : Bool) (s : Mismatches × CWallet)
    (hash : uint256) : Mismatches × CWallet :=
  match s.2.mapWallet hash with
  | none => s
  | some pcoin =>
    match txdb.readTxIndex (pcoin.tx.getHash env) with
    | none => s
    | some txindex =>
      let r := pcoin.tx.vout.zipIdx.foldl (s.2.fixOutput txindex fCheckOnly) (s.1, pcoin)
      (r.1, s.2.record hash r.2)

def fixSpentCoins (env : Env) (txdb : CTxDB) (w : CWallet) (keys : List uint256)
    (fCheckOnly : Bool) : Mismatches × CWallet :=
  keys.foldl (fixCoin env txdb fCheckOnly) ({}, w)

end CWallet

end Triangles
