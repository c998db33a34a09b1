import Mathlib.Data.List.AList
import Triangles.Model.Transaction

/-! Blocks, the block index and the context-free block checks (main.h, main.cpp). -/

namespace Triangles

open Outcome

/-- Position of a transaction in the block files. File number -1 marks the null position,
which is only ever written by `SetNull`, with the other fields zero. -/
structure CDiskTxPos where
  nFile : UInt32
  nBlockPos : UInt32
  nTxPos : UInt32
  null_fields : nFile = 0xffffffff → nBlockPos = 0 ∧ nTxPos = 0
deriving DecidableEq

namespace CDiskTxPos

def null : CDiskTxPos := ⟨0xffffffff, 0, 0, fun _ => ⟨rfl, rfl⟩⟩

def isNull (p : CDiskTxPos) : Bool := p.nFile == 0xffffffff

def inMempool : CDiskTxPos := ⟨1, 1, 1, by decide⟩

@[simp] theorem null_isNull : null.isNull = true := rfl

theorem eq_null {p : CDiskTxPos} (h : p.isNull = true) : p = null := by
  obtain ⟨f, b, t, hn⟩ := p
  have hf : f = 0xffffffff := by simpa [isNull] using h
  subst hf
  obtain ⟨rfl, rfl⟩ := hn rfl
  rfl

end CDiskTxPos

/-- The index record of a transaction: where it is, and for each output where it was spent. -/
structure CTxIndex where
  pos : CDiskTxPos
  vSpent : List CDiskTxPos
deriving DecidableEq

def CTxIndex.fresh (pos : CDiskTxPos) (nOutputs : Nat) : CTxIndex :=
  ⟨pos, List.replicate nOutputs .null⟩

structure CBlockHeader where
  nVersion : Int := 6
  hashPrevBlock : uint256
  hashMerkleRoot : uint256
  nTime : UInt32
  nBits : UInt32
  nNonce : UInt32 := 0
deriving DecidableEq, Repr

structure CBlock extends CBlockHeader where
  vtx : List CTransaction
  vchBlockSig : List UInt8 := []
deriving DecidableEq, Repr

/-- The fields of a `CBlockIndex` that never change once the block is indexed. Blocks are
indexed after `WriteToDisk` gave them a file, so the file number is never -1, and put
them behind an index header of eight bytes. -/
structure BlockFields where
  phashBlock : uint256
  nFile : UInt32
  nBlockPos : UInt32
  nFile_ne : nFile ≠ 0xffffffff
  nBlockPos_ge : 8 ≤ nBlockPos
  nChainTrust : uint256
  nFlags : UInt32 := 0
  nStakeModifier : UInt64 := 0
  nStakeModifierChecksum : UInt32 := 0
  prevoutStake : COutPoint := ⟨0, 0xffffffff⟩
  nStakeTime : UInt32 := 0
  hashProofOfStake : uint256 := 0
  nVersion : Int := 6
  hashMerkleRoot : uint256 := 0
  nTime : UInt32
  nBits : UInt32 := 0
  nNonce : UInt32 := 0
deriving DecidableEq

/-- An index entry with its `pprev` chain. `pprev` is set once, when the entry is made, so an
entry is the finite list of its ancestors; what does change (`pnext`, `nMint`,
`nMoneySupply`) is kept in the node's state. -/
inductive CBlockIndex where
  | genesis (fields : BlockFields)
  | child (fields : BlockFields) (prev : CBlockIndex)
deriving DecidableEq

namespace CBlockIndex

def fields : CBlockIndex → BlockFields
  | genesis f => f
  | child f _ => f

def pprev : CBlockIndex → Option CBlockIndex
  | genesis _ => none
  | child _ p => some p

/-- `AddToBlockIndex` sets 0 for a block without parent, else the parent's height plus one. -/
def nHeight : CBlockIndex → Nat
  | genesis _ => 0
  | child _ p => p.nHeight + 1

def ancestors : CBlockIndex → List CBlockIndex
  | genesis f => [genesis f]
  | child f p => child f p :: p.ancestors

def getBlockHash (p : CBlockIndex) : uint256 := p.fields.phashBlock

def getBlockTime (p : CBlockIndex) : Int := p.fields.nTime.toNat

def nChainTrust (p : CBlockIndex) : uint256 := p.fields.nChainTrust

def isProofOfStake (p : CBlockIndex) : Bool := p.fields.nFlags &&& 1 != 0

def getStakeEntropyBit (p : CBlockIndex) : UInt32 := (p.fields.nFlags &&& 2) >>> 1

def generatedStakeModifier (p : CBlockIndex) : Bool := p.fields.nFlags &&& 4 != 0

end CBlockIndex

/-- What the modelled code uses but does not define: the hash functions, the script
interpreter, the block files and the network switch. -/
structure Env where
  /-- `SerializeHash` of a transaction. -/
  serializeHash : CTransaction → uint256
  /-- `Hash9` over the header fields. -/
  hash9 : CBlockHeader → uint256
  /-- `Hash` of two concatenated hashes, as in the Merkle tree. -/
  hashPair : uint256 → uint256 → uint256
  /-- `Hash(hashProof, nStakeModifierPrev)`. -/
  hashSelection : uint256 → UInt64 → uint256
  /-- `Hash(nStakeModifier, nTimeBlockFrom, nTxPrevOffset, txPrev.nTime, prevout.n, nTimeTx)`. -/
  hashKernel : UInt64 → UInt32 → UInt32 → UInt32 → UInt32 → UInt32 → uint256
  /-- `VerifyScript` with hash type 0, given the signature encoding test it applies. -/
  verifyScript : (List UInt8 → Bool) → CScript → CScript → CTransaction → Nat → Bool
  checkBlockSignature : CBlock → Bool
  /-- `CTransaction::IsStandard`. -/
  isStandard : CTransaction → Bool
  fTestNet : Bool
  /-- The transaction that deserializes at a position of the block files. -/
  readTx : CDiskTxPos → Option CTransaction
  /-- The block that deserializes at (nFile, nBlockPos). -/
  readBlock : UInt32 → UInt32 → Option CBlock
  /-- Its header, read with `SER_BLOCKHEADERONLY`. -/
  readHeader : UInt32 → UInt32 → Option CBlockHeader

def CTransaction.getHash (env : Env) (tx : CTransaction) : uint256 := env.serializeHash tx

namespace CBlock

def getHash (env : Env) (block : CBlock) : uint256 := env.hash9 block.toCBlockHeader

def getBlockTime (block : CBlock) : Int := block.nTime.toNat

def isProofOfStake (block : CBlock) : Bool :=
  match block.vtx with
  | _ :: tx :: _ => tx.isCoinStake
  | _ => false

def isProofOfWork (block : CBlock) : Bool := !block.isProofOfStake

def getSerializeSize (block : CBlock) : Nat :=
  80 + getSizeOfCompactSize block.vtx.length + (block.vtx.map CTransaction.getSerializeSize).sum +
    getSizeOfCompactSize block.vchBlockSig.length + block.vchBlockSig.length

end CBlock

def merkleLevel (env : Env) : List uint256 → List uint256
  | [] => []
  | [a] => [env.hashPair a a]
  | a :: b :: rest => env.hashPair a b :: merkleLevel env rest

/-- `vMerkleTree`: all levels one after the other. Levels halve, so the number of leaves
bounds the number of rounds. -/
def merkleTree (env : Env) : Nat → List uint256 → List uint256
  | 0, level => level
  | rounds + 1, level =>
    if level.length ≤ 1 then level else level ++ merkleTree env rounds (merkleLevel env level)

def CBlock.vMerkleTree (env : Env) (block : CBlock) : List uint256 :=
  merkleTree env block.vtx.length (block.vtx.map (CTransaction.getHash env))

def CBlock.buildMerkleTree (env : Env) (block : CBlock) : uint256 :=
  ((block.vMerkleTree env).getLast?).getD 0

/-- The sibling hashes on the way from leaf `nIndex` to the root; `j` is where the level
of `nSize` entries starts in the tree. -/
def merkleBranch (tree : List uint256) : Nat → Nat → Nat → Nat → List uint256
  | 0, _, _, _ => []
  | rounds + 1, j, nSize, nIndex =>
    if nSize ≤ 1 then []
    else tree.getD (j + min (nIndex ^^^ 1) (nSize - 1)) 0 ::
      merkleBranch tree rounds (j + nSize) ((nSize + 1) / 2) (nIndex / 2)

def CBlock.getMerkleBranch (env : Env) (block : CBlock) (nIndex : Nat) : List uint256 :=
  merkleBranch (block.vMerkleTree env) block.vtx.length 0 block.vtx.length nIndex

/-- The loop of `CheckMerkleBranch`: the low bit of the index says on which side the hash
stands at each level. -/
def foldMerkleBranch (env : Env) : List uint256 → uint256 → Int → uint256
  | [], hash, _ => hash
  | otherside :: rest, hash, nIndex =>
    foldMerkleBranch env rest
      (if nIndex % 2 = 1 then env.hashPair otherside hash else env.hashPair hash otherside)
      (nIndex / 2)

def checkMerkleBranch (env : Env) (hash : uint256) (vMerkleBranch : List uint256)
    (nIndex : Int) : uint256 :=
  if nIndex = -1 then 0 else foldMerkleBranch env vMerkleBranch hash nIndex

def setCompact (nCompact : UInt32) : Int :=
  let nSize := nCompact.toNat / 2 ^ 24
  let word := nCompact.toNat % 2 ^ 23
  let mag : Nat := if nSize ≤ 3 then word / 256 ^ (3 - nSize) else word * 256 ^ (nSize - 3)
  if nCompact.toNat / 2 ^ 23 % 2 = 1 then -(mag : Int) else mag

def getuint64 (n : Int) : Nat := n.natAbs % 2 ^ 64

def getuint256 (n : Int) : uint256 := n.natAbs % 2 ^ 256

def bnProofOfWorkLimit : Int := 2 ^ 248 - 1

def checkProofOfWork (hash : uint256) (nBits : UInt32) : Bool :=
  let bnTarget := setCompact nBits
  decide (0 < bnTarget) && decide (bnTarget ≤ bnProofOfWorkLimit) &&
    decide (hash ≤ getuint256 bnTarget)

def futureDrift (nTime : Int) : Int := nTime + 10 * 60

def checkCoinStakeTimestamp (nTimeBlock nTimeTx : Int) : Bool := nTimeBlock == nTimeTx

namespace CBlock

def checkStakeLayout (env : Env) (block : CBlock) (fCheckSig : Bool) : Except Reject Unit :=
  match block.vtx with
  | coinbase :: coinstake :: rest => do
    check (match coinbase.vout with | [txout] => txout.isEmpty | _ => false)
      { msg := "CheckBlock() : coinbase output not empty for proof-of-stake block", nDoS := 100 }
    check coinstake.isCoinStake
      { msg := "CheckBlock() : second tx is not coinstake", nDoS := 100 }
    check (rest.all fun tx => !tx.isCoinStake)
      { msg := "CheckBlock() : more than one coinstake", nDoS := 100 }
    check (checkCoinStakeTimestamp block.getBlockTime coinstake.nTime.toNat)
      { msg := "CheckBlock() : coinstake timestamp violation nTimeBlock=%d nTimeTx=%u", nDoS := 50 }
    check (!fCheckSig || env.checkBlockSignature block)
      { msg := "CheckBlock() : bad proof-of-stake block signature", nDoS := 100 }
  | _ => .error { msg := "CheckBlock() : second tx is not coinstake", nDoS := 100 }

def checkBlockTx (block : CBlock) (tx : CTransaction) : Except Reject Unit :=
  match tx.checkTransaction with
  | .error e => .error { msg := "CheckBlock() : CheckTransaction failed", nDoS := e.nDoS }
  | .ok _ => check (decide ((tx.nTime.toNat : Int) ≤ block.getBlockTime))
      { msg := "CheckBlock() : block timestamp earlier than transaction timestamp", nDoS := 50 }

def checkBlock (env : Env) (nAdjustedTime : Int) (block : CBlock)
    (fCheckPOW fCheckMerkleRoot fCheckSig : Bool) : Except Reject Unit := do
  check (!block.vtx.isEmpty && decide (block.vtx.length ≤ MAX_BLOCK_SIZE) &&
      decide (block.getSerializeSize ≤ MAX_BLOCK_SIZE))
    { msg := "CheckBlock() : size limits failed", nDoS := 100 }
  check (!(fCheckPOW && block.isProofOfWork && !checkProofOfWork (block.getHash env) block.nBits))
    { msg := "CheckBlock() : proof of work failed", nDoS := 50 }
  check (decide (block.getBlockTime ≤ futureDrift nAdjustedTime))
    { msg := "CheckBlock() : block timestamp too far in the future" }
  check (block.vtx.head?.any CTransaction.isCoinBase)
    { msg := "CheckBlock() : first tx is not coinbase", nDoS := 100 }
  check (block.vtx.tail.all fun tx => !tx.isCoinBase)
    { msg := "CheckBlock() : more than one coinbase", nDoS := 100 }
  check (block.vtx.head?.all fun tx =>
      decide (block.getBlockTime ≤ futureDrift tx.nTime.toNat))
    { msg := "CheckBlock() : coinbase timestamp is too early", nDoS := 50 }
  if block.isProofOfStake then block.checkStakeLayout env fCheckSig
  block.vtx.forM block.checkBlockTx
  check (decide (block.vtx.map (CTransaction.getHash env)).Nodup)
    { msg := "CheckBlock() : duplicate transaction", nDoS := 100 }
  check (decide ((block.vtx.map CTransaction.getLegacySigOpCount).sum ≤ MAX_BLOCK_SIGOPS))
    { msg := "CheckBlock() : out-of-bounds SigOpCount", nDoS := 100 }
  check (!fCheckMerkleRoot || block.hashMerkleRoot == block.buildMerkleTree env)
    { msg := "CheckBlock() : hashMerkleRoot mismatch", nDoS := 100 }

end CBlock

/-- The rule of `AcceptBlock` that the coinbase starts with the serialized block height. -/
def CBlock.coinbaseHasHeight (block : CBlock) (nHeight : Nat) : Bool :=
  match block.vtx with
  | [] => false
  | coinbase :: _ =>
    match coinbase.vin with
    | [] => false
    | txin :: _ => (pushInt64 nHeight).isPrefixOf txin.scriptSig

/-- `CBlock::ReadFromDisk(nFile, nBlockPos, true)`: a proof-of-work header is checked. -/
def readBlockFromDisk (env : Env) (nFile nBlockPos : UInt32) : Except Reject CBlock :=
  match env.readBlock nFile nBlockPos with
  | none => .error { msg := "CBlock::ReadFromDisk() : OpenBlockFile failed" }
  | some block => do
    check (!(block.isProofOfWork && !checkProofOfWork (block.getHash env) block.nBits))
      { msg := "CBlock::ReadFromDisk() : errors in block header" }
    pure block

def readFromDisk (env : Env) (pindex : CBlockIndex) : Except Reject CBlock := do
  let block ← readBlockFromDisk env pindex.fields.nFile pindex.fields.nBlockPos
  check (block.getHash env == pindex.getBlockHash)
    { msg := "CBlock::ReadFromDisk() : GetHash() doesn't match index" }
  pure block

/-! The memory pool, `CTxMemPool` (main.h, main.cpp). -/

open Outcome

/-- An input of a pool transaction. The source holds a pointer into `mapTx`; here it is
the key of that entry. -/
structure CInPoint where
  ptx : uint256
  n : Nat
deriving DecidableEq

structure CTxMemPool where
  mapTx : AList (fun _ : uint256 => CTransaction)
  mapNextTx : AList (fun _ : COutPoint => CInPoint)
deriving DecidableEq

namespace CTxMemPool

def empty : CTxMemPool := ⟨∅, ∅⟩

def lookup (pool : CTxMemPool) (hash : uint256) : Option CTransaction := pool.mapTx.lookup hash

def addUnchecked (pool : CTxMemPool) (hash : uint256) (tx : CTransaction) : CTxMemPool where
  mapTx := pool.mapTx.insert hash tx
  mapNextTx := tx.vin.zipIdx.foldl (fun m (txin, i) => m.insert txin.prevout ⟨hash, i⟩)
    pool.mapNextTx

def acceptUnfetched (env : Env) (pool : CTxMemPool) (tx : CTransaction) :
    Except Reject CTxMemPool :=
  match tx.checkTransaction with
  | .error e => .error { msg := "CTxMemPool::accept() : CheckTransaction failed", nDoS := e.nDoS }
  | .ok _ => do
    check (!tx.isCoinBase)
      { msg := "CTxMemPool::accept() : coinbase as individual tx", nDoS := 100 }
    check (!tx.isCoinStake)
      { msg := "CTxMemPool::accept() : coinstake as individual tx", nDoS := 100 }
    check (decide (tx.nLockTime.toNat ≤ 2147483647))
      { msg := "CTxMemPool::accept() : not accepting nLockTime beyond 2038 yet" }
    check (env.fTestNet || env.isStandard tx)
      { msg := "CTxMemPool::accept() : nonstandard transaction type" }
    check (decide (tx.getHash env ∉ pool.mapTx)) { msg := "" }
    check (tx.vin.all fun txin => decide (txin.prevout ∉ pool.mapNextTx)) { msg := "" }
    pure (pool.addUnchecked (tx.getHash env) tx)

/-- `remove(tx, fRecursive)`. Pool transactions that spend an output of `tx` go first;
`depth` bounds that descent, and the number of pool transactions is always enough. -/
def removeDepth (env : Env) : Nat → CTxMemPool → CTransaction → Bool → CTxMemPool
  | 0, pool, _, _ => pool
  | depth + 1, pool, tx, fRecursive =>
    let hash := tx.getHash env
    if hash ∈ pool.mapTx then
      let pool :=
        if fRecursive then
          (List.range tx.vout.length).foldl (fun pool i =>
            match pool.mapNextTx.lookup ⟨hash, UInt32.ofNat i⟩ with
            | none => pool
            | some inpoint =>
              match pool.lookup inpoint.ptx with
              | none => pool
              | some spender => removeDepth env depth pool spender true) pool
        else pool
      { mapTx := pool.mapTx.erase hash
        mapNextTx := tx.vin.foldl (fun m txin => m.erase txin.prevout) pool.mapNextTx }
    else pool

def remove (env : Env) (pool : CTxMemPool) (tx : CTransaction) (fRecursive : Bool := false) :
    CTxMemPool :=
  removeDepth env (pool.mapTx.keys.length + 1) pool tx fRecursive

def removeConflicts (env : Env) (pool : CTxMemPool) (tx : CTransaction) : CTxMemPool :=
  tx.vin.foldl (fun pool txin =>
    match pool.mapNextTx.lookup txin.prevout with
    | none => pool
    | some inpoint =>
      match pool.lookup inpoint.ptx with
      | none => pool
      | some txConflict => if txConflict ≠ tx then pool.remove env txConflict true else pool) pool

end CTxMemPool

end Triangles
