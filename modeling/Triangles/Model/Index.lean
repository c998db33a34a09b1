import Triangles.Model.Kernel
import Triangles.Model.Retarget

/-! The block index in memory and `AddToBlockIndex` (main.h, main.cpp). -/

namespace Triangles

open Outcome

namespace BlockMap

def has (m : BlockMap) (hash : uint256) : Bool := (m.find hash).isSome

/-- Add an entry under a new hash, on top of an entry that is there. -/
def insert (m : BlockMap) (pindexNew : CBlockIndex)
    (hnew : m.find pindexNew.getBlockHash = none)
    (hprev : ∀ p, pindexNew.pprev = some p → m.find p.getBlockHash = some p) : BlockMap where
  find h := if h = pindexNew.getBlockHash then some pindexNew else m.find h
  hash_eq := by
    intro h p hp
    split at hp
    · rename_i hh
      rw [← Option.some.inj hp, hh]
    · exact m.hash_eq hp
  parent := by
    intro h f p hp
    have hfound : m.find p.getBlockHash = some p := by
      split at hp
      · exact hprev p (by rw [Option.some.inj hp]; rfl)
      · exact m.parent hp
    have hne : p.getBlockHash ≠ pindexNew.getBlockHash := by
      intro he
      rw [he, hnew] at hfound
      cases hfound
    rw [if_neg hne, hfound]

end BlockMap

/-- What the index uses besides: `Hash` over the previous checksum, if any, the flags, the
proof hash and the modifier. -/
structure IndexEnv extends Env where
  hashChecksum : Option UInt32 → UInt32 → uint256 → UInt64 → uint256

/-- Where `WriteToDisk` puts a block: behind an index header, in a file that is not -1. -/
structure DiskSpot where
  nFile : UInt32
  nBlockPos : UInt32
  nFile_ne : nFile ≠ 0xffffffff
  nBlockPos_ge : 8 ≤ nBlockPos

abbrev Stake := COutPoint × UInt32

/-- A node with its block index, the stakes seen in it and the synchronized checkpoints. -/
structure FullNode extends State where
  mapBlockIndex : BlockMap
  setStakeSeen : Finset Stake
  hashSyncCheckpoint : uint256
  hashPendingCheckpoint : uint256
  hashInvalidCheckpoint : uint256

/-- A function on the whole node that may return false; the state it has reached stays. -/
abbrev Full := EStateM Reject FullNode

def onState (x : Node α) : Full α := fun n =>
  match x n.toState with
  | .ok a s => .ok a { n with toState := s }
  | .error e s => .error e { n with toState := s }

def BLOCK_PROOF_OF_STAKE : UInt32 := 1
def BLOCK_STAKE_ENTROPY : UInt32 := 2
def BLOCK_STAKE_MODIFIER : UInt32 := 4

def CBlock.getProofOfStake (block : CBlock) : Stake :=
  match block.isProofOfStake, block.vtx with
  | true, _ :: tx :: _ => ((tx.vin.head?.map CTxIn.prevout).getD ⟨0, 0xffffffff⟩, tx.nTime)
  | _, _ => (⟨0, 0xffffffff⟩, 0)

def CBlock.getStakeEntropyBit (env : Env) (block : CBlock) : Nat := block.getHash env % 2

def blockFlags (env : Env) (block : CBlock) (fGeneratedStakeModifier : Bool) : UInt32 :=
  (if block.isProofOfStake then BLOCK_PROOF_OF_STAKE else 0) |||
  (if block.getStakeEntropyBit env = 0 then 0 else BLOCK_STAKE_ENTROPY) |||
  (if fGeneratedStakeModifier then BLOCK_STAKE_MODIFIER else 0)

def getStakeModifierChecksum (env : IndexEnv) (pprev : Option CBlockIndex) (nFlags : UInt32)
    (hashProofOfStake : uint256) (nStakeModifier : UInt64) : UInt32 :=
  UInt32.ofNat (env.hashChecksum (pprev.map fun p => p.fields.nStakeModifierChecksum) nFlags
    hashProofOfStake nStakeModifier / 2 ^ (256 - 32))

/-- `CheckStakeModifierCheckpoints`, which lists only the first block. -/
def checkStakeModifierCheckpoints (env : Env) (nHeight : Nat) (nStakeModifierChecksum : UInt32) :
    Bool :=
  env.fTestNet || (if nHeight = 0 then nStakeModifierChecksum == 0x0e00670b else true)

def newBlockFields (env : IndexEnv) (pprev : Option CBlockIndex) (block : CBlock) (spot : DiskSpot)
    (hashProofOfStake : uint256) (nStakeModifier : UInt64) (fGeneratedStakeModifier : Bool) :
    BlockFields where
  phashBlock := block.getHash env.toEnv
  nFile := spot.nFile
  nBlockPos := spot.nBlockPos
  nFile_ne := spot.nFile_ne
  nBlockPos_ge := spot.nBlockPos_ge
  nChainTrust := chainTrust pprev block.nBits
  nFlags := blockFlags env.toEnv block fGeneratedStakeModifier
  nStakeModifier := nStakeModifier
  nStakeModifierChecksum := getStakeModifierChecksum env pprev
    (blockFlags env.toEnv block fGeneratedStakeModifier) hashProofOfStake nStakeModifier
  prevoutStake := block.getProofOfStake.1
  nStakeTime := block.getProofOfStake.2
  hashProofOfStake := hashProofOfStake
  nVersion := block.nVersion
  hashMerkleRoot := block.hashMerkleRoot
  nTime := block.nTime
  nBits := block.nBits
  nNonce := block.nNonce

def CBlockIndex.onTop (pprev : Option CBlockIndex) (fields : BlockFields) : CBlockIndex :=
  match pprev with
  | none => .genesis fields
  | some p => .child fields p

def newBlockIndex (env : IndexEnv) (mapBlockIndex : BlockMap) (block : CBlock) (spot : DiskSpot)
    (hashProofOfStake : uint256) : Except Reject CBlockIndex :=
  let pprev := mapBlockIndex.find block.hashPrevBlock
  match computeNextStakeModifier env.toEnv mapBlockIndex pprev with
  | .error _ => .error { msg := "AddToBlockIndex() : ComputeNextStakeModifier() failed" }
  | .ok (nStakeModifier, fGeneratedStakeModifier) => do
    -- a block without parent other than the first one fails an assertion
    check (pprev.isSome || block.getHash env.toEnv == hashGenesisBlock) { msg := "assert" }
    let pindexNew := CBlockIndex.onTop pprev
      (newBlockFields env pprev block spot hashProofOfStake nStakeModifier fGeneratedStakeModifier)
    check (checkStakeModifierCheckpoints env.toEnv pindexNew.nHeight
        pindexNew.fields.nStakeModifierChecksum)
      { msg := "AddToBlockIndex() : Rejected by stake modifier checkpoint height=%d, modifier=0x%016" }
    pure pindexNew

@[simp] theorem CBlockIndex.onTop_fields (pprev : Option CBlockIndex) (fields : BlockFields) :
    (onTop pprev fields).fields = fields := by
  cases pprev <;> rfl

@[simp] theorem CBlockIndex.onTop_pprev (pprev : Option CBlockIndex) (fields : BlockFields) :
    (onTop pprev fields).pprev = pprev := by
  cases pprev <;> rfl

theorem newBlockIndex_ok {env : IndexEnv} {m : BlockMap} {block : CBlock} {spot : DiskSpot}
    {hashProofOfStake : uint256} {pindexNew : CBlockIndex}
    (h : newBlockIndex env m block spot hashProofOfStake = .ok pindexNew) :
    ((m.find block.hashPrevBlock).isSome ∨ block.getHash env.toEnv = hashGenesisBlock) ∧
    ∃ nStakeModifier fGenerated, pindexNew = .onTop (m.find block.hashPrevBlock)
      (newBlockFields env (m.find block.hashPrevBlock) block spot hashProofOfStake nStakeModifier
        fGenerated) := by
  unfold newBlockIndex at h
  simp only at h
  split at h
  · cases h
  · simp only [check_bind, pure_ok, Bool.or_eq_true, beq_iff_eq] at h
    obtain ⟨hroot, _, rfl⟩ := h
    exact ⟨hroot, _, _, rfl⟩

theorem newBlockIndex_hash {env : IndexEnv} {m : BlockMap} {block : CBlock} {spot : DiskSpot}
    {hashProofOfStake : uint256} {pindexNew : CBlockIndex}
    (h : newBlockIndex env m block spot hashProofOfStake = .ok pindexNew) :
    pindexNew.getBlockHash = block.getHash env.toEnv := by
  obtain ⟨_, _, _, rfl⟩ := newBlockIndex_ok h
  rw [CBlockIndex.getBlockHash, CBlockIndex.onTop_fields]
  rfl

theorem newBlockIndex_pprev {env : IndexEnv} {m : BlockMap} {block : CBlock} {spot : DiskSpot}
    {hashProofOfStake : uint256} {pindexNew : CBlockIndex}
    (h : newBlockIndex env m block spot hashProofOfStake = .ok pindexNew) :
    pindexNew.pprev = m.find block.hashPrevBlock := by
  obtain ⟨_, _, _, rfl⟩ := newBlockIndex_ok h
  exact CBlockIndex.onTop_pprev _ _

/-- The entry is on top of one that is there. -/
theorem newBlockIndex_prev {env : IndexEnv} {m : BlockMap} {block : CBlock} {spot : DiskSpot}
    {hashProofOfStake : uint256} {pindexNew : CBlockIndex}
    (h : newBlockIndex env m block spot hashProofOfStake = .ok pindexNew) :
    ∀ p, pindexNew.pprev = some p → m.find p.getBlockHash = some p := by
  intro p hp
  rw [newBlockIndex_pprev h] at hp
  rw [m.hash_eq hp]
  exact hp

def FullNode.enter (n : FullNode) (pindexNew : CBlockIndex)
    (hnew : n.mapBlockIndex.find pindexNew.getBlockHash = none)
    (hprev : ∀ p, pindexNew.pprev = some p → n.mapBlockIndex.find p.getBlockHash = some p) :
    FullNode :=
  { n with
    mapBlockIndex := n.mapBlockIndex.insert pindexNew hnew hprev
    setStakeSeen :=
      if pindexNew.isProofOfStake then
        insert (pindexNew.fields.prevoutStake, pindexNew.fields.nStakeTime) n.setStakeSeen
      else n.setStakeSeen
    pnext := Function.update n.pnext pindexNew none
    nMint := Function.update n.nMint pindexNew 0
    nMoneySupply := Function.update n.nMoneySupply pindexNew 0 }

/-- Write the record of the new block, and make it the best one if it has more trust. -/
def recordBlockIndex (env : Env) (host : Host) (block : CBlock) (pindexNew : CBlockIndex) :
    Node Unit := do
  modify State.txnBegin
  modify fun s => { s with txdb := s.txdb.writeBlockIndex (s.diskBlockIndex pindexNew) }
  txnCommit host
  let s ← get
  if s.nBestChainTrust < pindexNew.nChainTrust then setBestChain env host block pindexNew

def addToBlockIndex (env : IndexEnv) (host : Host) (block : CBlock) (spot : DiskSpot)
    (hashProofOfStake : uint256) : Full Unit := fun n =>
  if hnew : n.mapBlockIndex.find (block.getHash env.toEnv) = none then
    match hok : newBlockIndex env n.mapBlockIndex block spot hashProofOfStake with
    | .error e => .error e n
    | .ok pindexNew =>
      onState (recordBlockIndex env.toEnv host block pindexNew)
        (n.enter pindexNew (newBlockIndex_hash hok ▸ hnew) (newBlockIndex_prev hok))
  else .error { msg := "AddToBlockIndex() : %s already exists" } n

end Triangles
