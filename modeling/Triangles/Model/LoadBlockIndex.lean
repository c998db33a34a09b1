import Mathlib.Data.List.AList
import Mathlib.Data.List.Sort
import Triangles.Model.Index
import Triangles.Model.NetMessage
import Triangles.Model.ProcessBlock

/-! `CTxDB::LoadBlockIndex`: the block index from its records (main.h, txdb-leveldb.cpp). -/

namespace Triangles

open Outcome Batch

/-- What is on disk of a `CDiskBlockIndex`. The stake fields are only written for a
proof-of-stake block. -/
structure StoredIndex where
  hashNext : uint256
  nFile : UInt32
  nBlockPos : UInt32
  nHeight : Nat
  nMint : Int
  nMoneySupply : Int
  nFlags : UInt32
  nStakeModifier : UInt64
  stake : Option (COutPoint × UInt32 × uint256)
  nVersion : Int
  hashPrev : uint256
  hashMerkleRoot : uint256
  nTime : UInt32
  nBits : UInt32
  nNonce : UInt32
  blockHash : uint256
deriving DecidableEq

def CBlockIndex.getBlockHeader (p : CBlockIndex) : CBlockHeader where
  nVersion := p.fields.nVersion
  hashPrevBlock := (p.pprev.map CBlockIndex.getBlockHash).getD 0
  hashMerkleRoot := p.fields.hashMerkleRoot
  nTime := p.fields.nTime
  nBits := p.fields.nBits
  nNonce := p.fields.nNonce

/-- Write a record. Its key was computed just before, which leaves `blockHash` set. -/
def CDiskBlockIndex.store (env : Env) (diskindex : CDiskBlockIndex) : StoredIndex :=
  let pindex := diskindex.pindex
  { hashNext := diskindex.hashNext
    nFile := pindex.fields.nFile
    nBlockPos := pindex.fields.nBlockPos
    nHeight := pindex.nHeight
    nMint := diskindex.nMint
    nMoneySupply := diskindex.nMoneySupply
    nFlags := pindex.fields.nFlags
    nStakeModifier := pindex.fields.nStakeModifier
    stake :=
      if pindex.isProofOfStake then
        some (pindex.fields.prevoutStake, pindex.fields.nStakeTime, pindex.fields.hashProofOfStake)
      else none
    nVersion := pindex.fields.nVersion
    hashPrev := (pindex.pprev.map CBlockIndex.getBlockHash).getD 0
    hashMerkleRoot := pindex.fields.hashMerkleRoot
    nTime := pindex.fields.nTime
    nBits := pindex.fields.nBits
    nNonce := pindex.fields.nNonce
    blockHash := env.hash9 pindex.getBlockHeader }

structure IndexEntry where
  pprev : Option uint256 := none
  pnext : Option uint256 := none
  nFile : UInt32 := 0
  nBlockPos : UInt32 := 0
  nHeight : Nat := 0
  nChainTrust : uint256 := 0
  nFlags : UInt32 := 0
  nStakeModifier : UInt64 := 0
  nStakeModifierChecksum : UInt32 := 0
  prevoutStake : COutPoint := ⟨0, 0xffffffff⟩
  nStakeTime : UInt32 := 0
  hashProofOfStake : uint256 := 0
  nVersion : Int := 0
  hashMerkleRoot : uint256 := 0
  nTime : UInt32 := 0
  nBits : UInt32 := 0
  nNonce : UInt32 := 0
deriving DecidableEq

structure LoadedIndex extends IndexEntry where
  nMint : Int := 0
  nMoneySupply : Int := 0
deriving DecidableEq

structure Loaded where
  mapBlockIndex : AList fun _ : uint256 => LoadedIndex := ∅
  pindexGenesisBlock : Option uint256 := none
  setStakeSeen : Finset Stake := ∅
  hashBestChain : uint256 := 0
  pindexBest : Option uint256 := none
  nBestHeight : Int := -1
  nBestChainTrust : uint256 := 0
  nBestInvalidTrust : uint256 := 0
  hashSyncCheckpoint : uint256 := 0

/-- `fUseFastIndex`, the clock, and where the objects of the index are in memory. -/
structure LoadHost where
  fUseFastIndex : Bool
  nAdjustedTime : Int
  address : uint256 → Nat

/-- The iterator over the block index: each of its keys once, in some order. -/
structure Cursor (disk : Store DbVal) where
  keys : List uint256
  nodup : keys.Nodup
  complete : ∀ hash, hash ∈ keys ↔ (disk (.blockindex hash)).isSome

def Cursor.records {disk : Store DbVal} (env : Env) (cursor : Cursor disk) : List StoredIndex :=
  cursor.keys.filterMap fun hash => (disk (.blockindex hash)).map (CDiskBlockIndex.store env)

namespace StoredIndex

def header (r : StoredIndex) : CBlockHeader where
  nVersion := r.nVersion
  hashPrevBlock := r.hashPrev
  hashMerkleRoot := r.hashMerkleRoot
  nTime := r.nTime
  nBits := r.nBits
  nNonce := r.nNonce

def getBlockHash (env : Env) (host : LoadHost) (r : StoredIndex) : uint256 :=
  if host.fUseFastIndex ∧ (r.nTime.toNat : Int) < host.nAdjustedTime - 24 * 60 * 60 ∧
      r.blockHash ≠ 0 then
    r.blockHash
  else env.hash9 r.header

def entry (r : StoredIndex) (pprev pnext : Option uint256) : LoadedIndex where
  pprev := pprev
  pnext := pnext
  nFile := r.nFile
  nBlockPos := r.nBlockPos
  nHeight := r.nHeight
  nMint := r.nMint
  nMoneySupply := r.nMoneySupply
  nFlags := r.nFlags
  nStakeModifier := r.nStakeModifier
  prevoutStake := (r.stake.map fun x => x.1).getD ⟨0, 0xffffffff⟩
  nStakeTime := (r.stake.map fun x => x.2.1).getD 0
  hashProofOfStake := (r.stake.map fun x => x.2.2).getD 0
  nVersion := r.nVersion
  hashMerkleRoot := r.hashMerkleRoot
  nTime := r.nTime
  nBits := r.nBits
  nNonce := r.nNonce

end StoredIndex

/-- `InsertBlockIndex`: the object under a hash, made if it is not there; none for 0. -/
def insertBlockIndex (m : AList fun _ : uint256 => LoadedIndex) (hash : uint256) :
    Option uint256 × AList fun _ : uint256 => LoadedIndex :=
  if hash = 0 then (none, m)
  else if hash ∈ m then (some hash, m)
  else (some hash, m.insert hash {})

def loadRecord (env : Env) (host : LoadHost) (g : Loaded) (r : StoredIndex) : Loaded :=
  let blockHash := r.getBlockHash env host
  let m := (insertBlockIndex g.mapBlockIndex blockHash).2
  let (pprev, m) := insertBlockIndex m r.hashPrev
  let (pnext, m) := insertBlockIndex m r.hashNext
  let pindexNew := r.entry pprev pnext
  { g with
    mapBlockIndex := m.insert blockHash pindexNew
    pindexGenesisBlock :=
      if g.pindexGenesisBlock = none ∧ blockHash = hashGenesisBlock then some blockHash
      else g.pindexGenesisBlock
    setStakeSeen :=
      if pindexNew.nFlags &&& BLOCK_PROOF_OF_STAKE != 0 then
        insert (pindexNew.prevoutStake, pindexNew.nStakeTime) g.setStakeSeen
      else g.setStakeSeen }

abbrev Load := EStateM Reject Loaded

def byHeight (host : LoadHost) (a b : Nat × uint256) : Prop :=
  a.1 < b.1 ∨ a.1 = b.1 ∧ host.address a.2 ≤ host.address b.2

instance (host : LoadHost) : DecidableRel (byHeight host) := fun a b =>
  inferInstanceAs (Decidable (a.1 < b.1 ∨ a.1 = b.1 ∧ host.address a.2 ≤ host.address b.2))

def Loaded.sortedByHeight (host : LoadHost) (g : Loaded) : List (Nat × uint256) :=
  (g.mapBlockIndex.entries.map fun item => (item.2.nHeight, item.1)).insertionSort (byHeight host)

def IndexEntry.chainTrust (pindex : IndexEntry) (pprev : Option LoadedIndex) : uint256 :=
  ((pprev.map fun p => p.nChainTrust).getD 0 + getBlockTrust pindex.nBits) % 2 ^ 256

def IndexEntry.stakeModifierChecksum (env : IndexEnv) (pindex : IndexEntry)
    (pprev : Option LoadedIndex) : UInt32 :=
  UInt32.ofNat (env.hashChecksum (pprev.map fun p => p.nStakeModifierChecksum) pindex.nFlags
    pindex.hashProofOfStake pindex.nStakeModifier / 2 ^ (256 - 32))

/-- One round of the loop over `vSortedByHeight`: trust and checksum from the previous block.
A block without one other than the first fails an assertion. -/
def setTrust (env : IndexEnv) (item : Nat × uint256) : Load Unit := fun g =>
  match g.mapBlockIndex.lookup item.2 with
  | none => .ok () g
  | some pindex =>
    let pprev := pindex.pprev.bind g.mapBlockIndex.lookup
    let nStakeModifierChecksum := pindex.stakeModifierChecksum env pprev
    let pindex :=
      { pindex with
        nChainTrust := pindex.chainTrust pprev
        nStakeModifierChecksum := nStakeModifierChecksum }
    let g := { g with mapBlockIndex := g.mapBlockIndex.insert item.2 pindex }
    if pindex.pprev = none ∧ item.2 ≠ hashGenesisBlock then .error { msg := "assert" } g
    else if checkStakeModifierCheckpoints env.toEnv pindex.nHeight nStakeModifierChecksum then
      .ok () g
    else .error { msg := "CTxDB::LoadBlockIndex() : Failed stake modifier checkpoint height=%d, modifier=0x%016" } g

def loadBestChain (disk : Store DbVal) : Load Unit := fun g =>
  match disk .hashBestChain with
  | none =>
    if g.pindexGenesisBlock = none then .ok () g
    else .error { msg := "CTxDB::LoadBlockIndex() : hashBestChain not loaded" } g
  | some hashBestChain =>
    let g := { g with hashBestChain := hashBestChain }
    match g.mapBlockIndex.lookup hashBestChain with
    | none =>
      .error { msg := "CTxDB::LoadBlockIndex() : hashBestChain not found in the block index" } g
    | some pindexBest =>
      let g := { g with
        pindexBest := some hashBestChain
        nBestHeight := pindexBest.nHeight
        nBestChainTrust := pindexBest.nChainTrust }
      match disk .hashSyncCheckpoint with
      | none => .error { msg := "CTxDB::LoadBlockIndex() : hashSyncCheckpoint not loaded" } g
      | some hashSyncCheckpoint =>
        .ok () { g with
          hashSyncCheckpoint := hashSyncCheckpoint
          nBestInvalidTrust := getuint256 ((disk .bnBestInvalidTrust).getD 0) }

def loadBlockIndex (env : IndexEnv) (host : LoadHost) (disk : Store DbVal) (cursor : Cursor disk) :
    Load Unit := do
  let g ← get
  if g.mapBlockIndex.entries.isEmpty then
    modify fun g => (cursor.records env.toEnv).foldl (loadRecord env.toEnv host) g
    let g ← get
    (g.sortedByHeight host).forM (setTrust env)
    loadBestChain disk

end Triangles

/-! `LoadExternalBlockFile` (main.cpp). The file can be read and no shutdown is requested; the messages
in the log are left out. -/

namespace Triangles

open Codec Outcome

def pchMessageStart (fTestNet : Bool) : Net.MessageStart :=
  if fTestNet then ⟨[0x6f, 0x3e, 0x04, 0x13], rfl⟩ else ⟨[0x70, 0x35, 0x22, 0x05], rfl⟩

namespace Import

def bufferSize : Nat := 65536

def memchr (s : List UInt8) (c : UInt8) (n : Nat) : Option Nat := (s.take n).idxOf? c

inductive Round where
  | ended
  | found (nPos : UInt32)
  | onward (nPos : UInt32)
deriving DecidableEq

variable (fTestNet : Bool) (file : List UInt8)

/-- A round of the inner loop. The 8 bytes that a record has in front of its block are too few. -/
def searchRound (nPos : UInt32) : Round :=
  let start := (pchMessageStart fTestNet).1
  let pchData := (file.drop nPos.toNat).take bufferSize
  let nRead := pchData.length
  if nRead ≤ 8 then .ended
  else
    match memchr pchData (start.headD 0) (nRead + 1 - start.length) with
    | some nFind =>
      if (pchData.drop nFind).take start.length = start then
        .found (nPos + (UInt32.ofNat nFind + UInt32.ofNat start.length))
      else .onward (nPos + (UInt32.ofNat nFind + 1))
    | none => .onward (nPos + UInt32.ofNat (bufferSize - start.length + 1))

/-- The inner loop: the position behind the next message start, if there is one. The search ends
within the given number of rounds or not at all. -/
def search : Nat → UInt32 → Option (Option UInt32)
  | 0, _ => none
  | rounds + 1, nPos =>
    match searchRound fTestNet file nPos with
    | .ended => some none
    | .found nPos => some (some nPos)
    | .onward nPos => search rounds nPos

/-- A block that was read behind the message start at `nPos`, and what `ProcessBlock` returned. -/
structure Visit where
  nPos : UInt32
  nSize : UInt32
  block : CBlock
  fRet : Bool

/-- What an import leaves: the blocks it passed to `ProcessBlock`, the node, and whether it ended with an
exception. -/
structure Result (σ : Type) where
  visits : List Visit
  node : σ
  fThrown : Bool

def Result.nLoaded {σ : Type} (r : Result σ) : Nat := r.visits.countP Visit.fRet

variable {σ : Type} (processBlock : CBlock → σ → Bool × σ)

def loop : Nat → UInt32 → σ → Option (Result σ)
  | 0, _, _ => none
  | rounds + 1, nPos, node =>
    if nPos = 0xffffffff then some ⟨[], node, false⟩
    else
      match search fTestNet file (file.length + 1) nPos with
      | none => none
      | some none => some ⟨[], node, false⟩
      | some (some nPos) =>
        match readUInt32 (file.drop nPos.toNat) with
        | .error _ => some ⟨[], node, true⟩
        | .ok (nSize, blkdat) =>
          if 0 < nSize ∧ nSize.toNat ≤ MAX_BLOCK_SIZE then
            match CBlock.unserialize SER_DISK blkdat with
            | .error _ => some ⟨[], node, true⟩
            | .ok (block, _) =>
              let (fRet, node) := processBlock block node
              (loop rounds (if fRet then nPos + (4 + nSize) else nPos) node).map fun r =>
                { r with visits := ⟨nPos, nSize, block, fRet⟩ :: r.visits }
          else loop rounds nPos node

def loadExternalBlockFile (rounds : Nat) (node : σ) : Option (Bool × Result σ) :=
  (loop fTestNet file processBlock rounds 0 node).map fun r => (decide (0 < r.nLoaded), r)

end Import

/-- The calls of `ProcessBlock` in an import, with what the surroundings decide during each. -/
def processImported (env : IndexEnv) (mode : CPMode) (hosts : Nat → ProcessHost) (block : CBlock)
    (s : BlockNode × Nat) : Bool × (BlockNode × Nat) :=
  let run := processBlock env mode (hosts s.2) block
  (!fails run s.1, (leaves run s.1, s.2 + 1))

end Triangles
