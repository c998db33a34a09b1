import Triangles.Lib.Batch
import Triangles.Model.Block

/-! The transaction database (txdb-leveldb.h, txdb-leveldb.cpp). -/

namespace Triangles

open Outcome Batch

/-- `CDiskBlockIndex`: an index entry with its mutable fields and the next block's hash. -/
structure CDiskBlockIndex where
  pindex : CBlockIndex
  nMint : Int
  nMoneySupply : Int
  hashNext : uint256
deriving DecidableEq

inductive DbKey where
  | tx (hash : uint256)
  | blockindex (hash : uint256)
  | hashBestChain
  | bnBestInvalidTrust
  | hashSyncCheckpoint
  | strCheckpointPubKey
  | version
deriving DecidableEq

abbrev DbVal : DbKey → Type
  | .tx _ => CTxIndex
  | .blockindex _ => CDiskBlockIndex
  | .hashBestChain => uint256
  | .bnBestInvalidTrust => Int
  | .hashSyncCheckpoint => uint256
  | .strCheckpointPubKey => String
  | .version => Int

abbrev CTxDB := Db DbVal

abbrev TxIndexMap := uint256 → Option CTxIndex

def txIndexOf (s : Store DbVal) : TxIndexMap := fun h => s (.tx h)

namespace CTxDB

def readTxIndex (txdb : CTxDB) (hash : uint256) : Option CTxIndex := txdb.read (.tx hash)

def updateTxIndex (txdb : CTxDB) (hash : uint256) (txindex : CTxIndex) : CTxDB :=
  txdb.write (.tx hash) txindex

def eraseTxIndex (env : Env) (txdb : CTxDB) (tx : CTransaction) : CTxDB :=
  txdb.erase (.tx (tx.getHash env))

def writeBlockIndex (txdb : CTxDB) (blockindex : CDiskBlockIndex) : CTxDB :=
  txdb.write (.blockindex blockindex.pindex.getBlockHash) blockindex

def writeHashBestChain (txdb : CTxDB) (hash : uint256) : CTxDB := txdb.write .hashBestChain hash

def writeBestInvalidTrust (txdb : CTxDB) (bn : Int) : CTxDB := txdb.write .bnBestInvalidTrust bn

/-- `Exists`. A pending write answers at once; anything else, a pending erase included, is
looked up in the database. -/
def existsKey (txdb : CTxDB) (k : DbKey) : Bool :=
  match txdb.batch with
  | none => (txdb.committed k).isSome
  | some ops =>
    match scan k ops with
    | some (some _) => true
    | _ => (txdb.committed k).isSome

def containsTx (txdb : CTxDB) (hash : uint256) : Bool := txdb.existsKey (.tx hash)

def txIndex (txdb : CTxDB) : TxIndexMap := txIndexOf txdb.view

theorem readTxIndex_eq (txdb : CTxDB) (h : uint256) : txdb.readTxIndex h = txdb.txIndex h :=
  txdb.read_eq_view (.tx h)

theorem txIndexOf_update (s : Store DbVal) (h : uint256) (v : Option CTxIndex) :
    txIndexOf (Function.update s (.tx h) v) = Function.update (txIndexOf s) h v := by
  funext h'
  by_cases hh : h' = h
  · subst hh
    simp [txIndexOf]
  · have hk : DbKey.tx h' ≠ DbKey.tx h := fun hc => hh (by simpa using hc)
    rw [Function.update_of_ne hh]
    exact Function.update_of_ne hk v s

@[simp] theorem txIndex_updateTxIndex (txdb : CTxDB) (h : uint256) (v : CTxIndex) :
    (txdb.updateTxIndex h v).txIndex = Function.update txdb.txIndex h (some v) := by
  unfold txIndex updateTxIndex
  rw [Db.view_write]
  exact txIndexOf_update txdb.view h (some v)

@[simp] theorem txIndex_eraseTxIndex (env : Env) (txdb : CTxDB) (tx : CTransaction) :
    (eraseTxIndex env txdb tx).txIndex =
      Function.update txdb.txIndex (tx.getHash env) none := by
  unfold txIndex eraseTxIndex
  rw [Db.view_erase]
  exact txIndexOf_update txdb.view (tx.getHash env) none

/-- Other records do not show in the transaction index. -/
theorem txIndexOf_other (s : Store DbVal) (k : DbKey) (v : Option (DbVal k))
    (hk : ∀ h, k ≠ .tx h) : txIndexOf (Function.update s k v) = txIndexOf s := by
  funext h
  exact Function.update_of_ne (hk h).symm v s

@[simp] theorem txIndex_writeBlockIndex (txdb : CTxDB) (b : CDiskBlockIndex) :
    (txdb.writeBlockIndex b).txIndex = txdb.txIndex := by
  unfold txIndex writeBlockIndex
  rw [Db.view_write]
  exact txIndexOf_other _ _ _ (by simp)

@[simp] theorem txIndex_writeHashBestChain (txdb : CTxDB) (h : uint256) :
    (txdb.writeHashBestChain h).txIndex = txdb.txIndex := by
  unfold txIndex writeHashBestChain
  rw [Db.view_write]
  exact txIndexOf_other _ _ _ (by simp)

end CTxDB

def readTxFromDisk (env : Env) (txdb : CTxDB) (prevout : COutPoint) :
    Option (CTransaction × CTxIndex) :=
  match txdb.readTxIndex prevout.hash with
  | none => none
  | some txindex =>
    match env.readTx txindex.pos with
    | none => none
    | some tx => if tx.vout.length ≤ prevout.n.toNat then none else some (tx, txindex)

end Triangles
