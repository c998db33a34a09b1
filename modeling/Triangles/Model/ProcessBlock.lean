import Triangles.Model.Index

/-! Hardened and synchronized checkpoints (checkpoints.cpp). -/

namespace Triangles

open Outcome

def mapCheckpoints : List (Nat × uint256) :=
  [(0, hashGenesisBlock),
    (2000, 0x0000000000b5f20078bf46ebdf1500813bb6b2cb482065aa93b89e073b2c6467),
    (2101, 0xd4ea1ac45b63c8162a7fc8033cec441db8d532ba988202849d7831e32fe2d059),
    (2847, 0xb5015e2835f13fd3bb6135cff9b31ac33310c9b77d694bdb592b8680d98d018e),
    (3589, 0xb12a2ca3db4e288cada98aa2139768532bd4474c49dd7b8158031032dac08d51),
    (3935, 0xe16290c9757d1368b8d7c35de07d4f8f70c2c9f9c785b667df0c3bff85086ca6),
    (5703, 0x587db07bb2172ad7db72c5fabc2518262a1b27f503f99417510b2c6fafa6557b),
    (9000, 0x00000000019ef6b2f5e7c324c7d083ee94502305aabc7e9cd73a7fb2a57bb8db),
    (9001, 0x6d5c6c5f201cc9e59659ee0da30d1430dc6bf3b12a8ff4c3864ab8d6286b0007),
    (9002, 0xa1e20fb1d44688b763690cf74d6aefe859e4cc32981f9e3f2b2ae9702bbcf249),
    (10881, 0x4b6554c45e1e6764a6f3c309c47baf53c9edd81f624e52b072518cd15da237e6),
    (17650, 0x224940e1f986a202209b8e762728d1452ab45870c308abf84905674acf326a47),
    (100000, 0x2f737bded65284d70cdf8992f83ecd8bd1ee00cf24e527b6763465cdd43017b1),
    (200000, 0xd94347d8c21034c0b3fe2a7a0ea9d63127a0d9ed4dd3c063c38a3b06125f38e4)]

def checkHardened (nHeight : Nat) (hash : uint256) : Bool :=
  match mapCheckpoints.lookup nHeight with
  | none => true
  | some h => hash == h

inductive CPMode where
  | STRICT
  | ADVISORY
  | PERMISSIVE
deriving DecidableEq, Repr

namespace FullNode

def getLastSyncCheckpoint (n : FullNode) : Option CBlockIndex :=
  n.mapBlockIndex.find n.hashSyncCheckpoint

/-- `ValidateSyncCheckpoint`: only a descendant of the current checkpoint is allowed. A
conflicting one is remembered. -/
def validateSyncCheckpoint (n : FullNode) (hashCheckpoint : uint256) : Bool × FullNode :=
  match n.mapBlockIndex.find n.hashSyncCheckpoint, n.mapBlockIndex.find hashCheckpoint with
  | some pindexSyncCheckpoint, some pindexCheckpointRecv =>
    if pindexCheckpointRecv.nHeight ≤ pindexSyncCheckpoint.nHeight then
      let pindex := pindexSyncCheckpoint.lowerTo pindexCheckpointRecv.nHeight
      if pindex.getBlockHash ≠ hashCheckpoint then
        (false, { n with hashInvalidCheckpoint := hashCheckpoint })
      else (false, n)
    else
      let pindex := pindexCheckpointRecv.lowerTo pindexSyncCheckpoint.nHeight
      if pindex.getBlockHash ≠ n.hashSyncCheckpoint then
        (false, { n with hashInvalidCheckpoint := hashCheckpoint })
      else (true, n)
  | _, _ => (false, n)

/-- `CheckSync`: a new block must be above the checkpoint and descend from it. The checkpoint
is always indexed; the assertion that says so is an error here. -/
def checkSync (n : FullNode) (fTestNet : Bool) (hashBlock : uint256) (pindexPrev : CBlockIndex) :
    Except Reject Bool :=
  if fTestNet then .ok true
  else
    match n.mapBlockIndex.find n.hashSyncCheckpoint with
    | none => .error { msg := "assert" }
    | some pindexSync =>
      let nHeight := pindexPrev.nHeight + 1
      let pindex := pindexPrev.lowerTo pindexSync.nHeight
      .ok <|
        if pindexSync.nHeight < nHeight ∧
            (pindex.nHeight < pindexSync.nHeight ∨ pindex.getBlockHash ≠ n.hashSyncCheckpoint) then
          false
        else if nHeight = pindexSync.nHeight ∧ hashBlock ≠ n.hashSyncCheckpoint then false
        else if nHeight < pindexSync.nHeight ∧ n.mapBlockIndex.has hashBlock = false then false
        else true

end FullNode

def writeSyncCheckpoint (host : Host) (hashCheckpoint : uint256) : Full Unit := do
  onState (modify State.txnBegin)
  onState (modify fun s => { s with txdb := s.txdb.write .hashSyncCheckpoint hashCheckpoint })
  onState (txnCommit host)
  modify fun n => { n with hashSyncCheckpoint := hashCheckpoint }

def switchToCheckpoint (env : Env) (host : Host) (caller : String) (pindexCheckpoint : CBlockIndex) :
    Full Unit := fun n =>
  if n.isInMainChain pindexCheckpoint then .ok () n
  else
    match readBlockOf env host pindexCheckpoint with
    | .error _ => .error { msg := caller ++ ": ReadFromDisk failed for sync checkpoint %s" } n
    | .ok block =>
      match onState (setBestChain env host block pindexCheckpoint) n with
      | .ok u t => .ok u t
      | .error _ t => .error { msg := caller ++ ": SetBestChain failed for sync checkpoint %s" }
          { t with hashInvalidCheckpoint := pindexCheckpoint.getBlockHash }

/-- Make a valid checkpoint the synchronized one. The pending and the received checkpoint go
the same way, under different messages. -/
def adoptSyncCheckpoint (env : Env) (host : Host) (caller : String) (pindexCheckpoint : CBlockIndex) :
    Full Unit := do
  switchToCheckpoint env host caller pindexCheckpoint
  named (caller ++ "(): failed to write sync checkpoint %s")
    (writeSyncCheckpoint host pindexCheckpoint.getBlockHash)
  modify fun n => { n with hashPendingCheckpoint := 0 }

def acceptPendingSyncCheckpoint (env : Env) (host : Host) : Full Unit := fun n =>
  if n.hashPendingCheckpoint = 0 then .error { msg := "" } n
  else
    match n.mapBlockIndex.find n.hashPendingCheckpoint with
    | none => .error { msg := "" } n
    | some pindexCheckpoint =>
      match n.validateSyncCheckpoint n.hashPendingCheckpoint with
      | (false, n) => .error { msg := "" } { n with hashPendingCheckpoint := 0 }
      | (true, n) => adoptSyncCheckpoint env host "AcceptPendingSyncCheckpoint" pindexCheckpoint n

/-- `CSyncCheckpoint::ProcessSyncCheckpoint`, given the hash that the message carries if its
signature verifies. A checkpoint whose block is not there yet stays pending. -/
def processSyncCheckpoint (env : Env) (host : Host) (signed : Option uint256) : Full Unit := fun n =>
  match signed with
  | none => .error { msg := "CSyncCheckpoint::CheckSignature() : verify signature failed" } n
  | some hashCheckpoint =>
    match n.mapBlockIndex.find hashCheckpoint with
    | none => .error { msg := "" } { n with hashPendingCheckpoint := hashCheckpoint }
    | some pindexCheckpoint =>
      match n.validateSyncCheckpoint hashCheckpoint with
      | (false, n) => .error { msg := "" } n
      | (true, n) => adoptSyncCheckpoint env host "ProcessSyncCheckpoint" pindexCheckpoint n

end Triangles

/-! `AcceptBlock` (main.cpp). -/

namespace Triangles

open Outcome

def CUTOFF_POW_BLOCK : Nat := 9000
def MODIFIER_INTERVAL_SWITCH : Nat := 1
def LOCKTIME_THRESHOLD : Int := 500000000
def nMedianTimeSpan : Nat := 11

def CBlockIndex.getMedianTimePast (pindex : CBlockIndex) : Int :=
  let times := ((pindex.ancestors.take nMedianTimeSpan).map CBlockIndex.getBlockTime).insertionSort
    (· ≤ ·)
  times.getD (times.length / 2) 0

/-- `CTransaction::IsFinal(nBlockHeight, nBlockTime)`; zeros stand for the best height and
the clock. -/
def CTransaction.isFinal (tx : CTransaction) (nBestHeight nAdjustedTime nBlockHeight nBlockTime : Int) :
    Bool :=
  if tx.nLockTime = 0 then true
  else
    let nBlockHeight := if nBlockHeight = 0 then nBestHeight else nBlockHeight
    let nBlockTime := if nBlockTime = 0 then nAdjustedTime else nBlockTime
    let nLockTime : Int := tx.nLockTime.toNat
    decide (nLockTime < if nLockTime < LOCKTIME_THRESHOLD then nBlockHeight else nBlockTime) ||
      tx.vin.all fun txin => txin.nSequence == 0xffffffff

/-- What the surroundings decide during `AcceptBlock`: besides the clock and the failures of
the database, whether `CheckDiskSpace` finds room, and where the block is written, if it can be. -/
structure AcceptHost extends Host where
  checkDiskSpace : Bool := true
  spot : Option DiskSpot
  fDebug : Bool := false

/-- `CheckProofOfStake` of the block's coinstake: the kernel hash. Any failure ends
`AcceptBlock` without a message of its own. -/
def CBlock.proofHash (env : Env) (host : Host) (fDebug : Bool) (n : FullNode) (block : CBlock) :
    Except Reject uint256 :=
  match block.isProofOfStake, block.vtx with
  | true, _ :: coinstake :: _ =>
    match checkProofOfStake env host n.mapBlockIndex n.toState coinstake block.nBits fDebug {} with
    | .ok _ out => .ok out.hashProofOfStake
    | .error e _ => .error { msg := "", nDoS := e.nDoS }
  | _, _ => .ok 0

/-- The checks of `AcceptBlock`, up to the point where the block is written. A wrong target
is only logged up to the cutoff. -/
def acceptChecks (env : Env) (mode : CPMode) (host : AcceptHost) (n : FullNode) (block : CBlock) :
    Except Reject uint256 := do
  let hash := block.getHash env
  check (!n.mapBlockIndex.has hash) { msg := "AcceptBlock() : block already in mapBlockIndex" }
  match n.mapBlockIndex.find block.hashPrevBlock with
  | none => .error { msg := "AcceptBlock() : prev block not found", nDoS := 10 }
  | some pindexPrev => do
    let nHeight := pindexPrev.nHeight + 1
    check (!(block.isProofOfWork && decide (CUTOFF_POW_BLOCK < nHeight)))
      { msg := "AcceptBlock() : No proof-of-work allowed anymore (height = %d)", nDoS := 100 }
    check (!(block.isProofOfStake && decide (nHeight < MODIFIER_INTERVAL_SWITCH)))
      { msg := "AcceptBlock() : reject proof-of-stake at height %d", nDoS := 100 }
    check (block.nBits == getNextTargetRequired env (some pindexPrev) block.isProofOfStake ||
        decide ((nHeight : Int) ≤ CRAPCHAIN_CUTOFF_BLOCK))
      { msg := "AcceptBlock() : incorrect %s", nDoS := 100 }
    check (decide (pindexPrev.getMedianTimePast < block.getBlockTime) &&
        decide (pindexPrev.getBlockTime ≤ futureDrift block.getBlockTime))
      { msg := "AcceptBlock() : block's timestamp is too early" }
    check (block.vtx.all fun tx =>
        tx.isFinal n.nBestHeight host.nAdjustedTime nHeight block.getBlockTime)
      { msg := "AcceptBlock() : contains a non-final transaction", nDoS := 10 }
    check (checkHardened nHeight hash)
      { msg := "AcceptBlock() : rejected by hardened checkpoint lock-in at %d", nDoS := 100 }
    let hashProofOfStake ← block.proofHash env host.toHost host.fDebug n
    let cpSatisfies ← n.checkSync env.fTestNet hash pindexPrev
    check (!(mode == .STRICT && !cpSatisfies))
      { msg := "AcceptBlock() : rejected by synchronized checkpoint" }
    check (block.coinbaseHasHeight nHeight)
      { msg := "AcceptBlock() : block height mismatch in coinbase", nDoS := 100 }
    pure hashProofOfStake

/-- `CBlock::AcceptBlock`. What becomes of a pending checkpoint does not change its result. -/
def acceptBlock (env : IndexEnv) (mode : CPMode) (host : AcceptHost) (block : CBlock) : Full Unit :=
  fun n =>
    match acceptChecks env.toEnv mode host n block with
    | .error e => .error e n
    | .ok hashProofOfStake =>
      match host.checkDiskSpace, host.spot with
      | false, _ => .error { msg := "AcceptBlock() : out of disk space" } n
      | true, none => .error { msg := "AcceptBlock() : WriteToDisk failed" } n
      | true, some spot =>
        match addToBlockIndex env host.toHost block spot hashProofOfStake n with
        | .error e t => .error { msg := "AcceptBlock() : AddToBlockIndex failed", nDoS := e.nDoS } t
        | .ok _ t =>
          match acceptPendingSyncCheckpoint env.toEnv host.toHost t with
          | .ok _ u => .ok () u
          | .error _ u => .ok () u

/-! Blocks whose previous block is not known yet, and `ProcessBlock` (main.cpp). -/

open Outcome

/-- The orphan blocks. The entries of the multimap under one key keep the order in which they
came. -/
structure OrphanBlocks where
  mapOrphanBlocks : AList (fun _ : uint256 => CBlock)
  mapOrphanBlocksByPrev : List (uint256 × CBlock)
  setStakeSeenOrphan : Finset Stake

structure BlockNode extends FullNode, OrphanBlocks

namespace OrphanBlocks

/-- The loop of `WantedByOrphan`. No block is its own ancestor, so the number of orphans
bounds the number of steps. -/
def workBack (o : OrphanBlocks) : Nat → CBlock → CBlock
  | 0, pblockOrphan => pblockOrphan
  | steps + 1, pblockOrphan =>
    match o.mapOrphanBlocks.lookup pblockOrphan.hashPrevBlock with
    | none => pblockOrphan
    | some pblock => o.workBack steps pblock

def wantedByOrphan (o : OrphanBlocks) (pblockOrphan : CBlock) : uint256 :=
  (o.workBack o.mapOrphanBlocks.keys.length pblockOrphan).hashPrevBlock

def hasChild (o : OrphanBlocks) (hash : uint256) : Bool :=
  o.mapOrphanBlocksByPrev.any fun e => e.1 == hash

def waitingFor (o : OrphanBlocks) (hashPrev : uint256) : List CBlock :=
  (o.mapOrphanBlocksByPrev.filter fun e => e.1 == hashPrev).map Prod.snd

def store (env : Env) (o : OrphanBlocks) (block : CBlock) : OrphanBlocks where
  mapOrphanBlocks := o.mapOrphanBlocks.insert (block.getHash env) block
  mapOrphanBlocksByPrev := o.mapOrphanBlocksByPrev ++ [(block.hashPrevBlock, block)]
  setStakeSeenOrphan :=
    if block.isProofOfStake then insert block.getProofOfStake o.setStakeSeenOrphan
    else o.setStakeSeenOrphan

/-- What is done for an orphan once its previous block is there, whether or not it was
accepted; the entry of `mapOrphanBlocksByPrev` stays for now. -/
def release (env : Env) (o : OrphanBlocks) (block : CBlock) : OrphanBlocks :=
  { o with
    mapOrphanBlocks := o.mapOrphanBlocks.erase (block.getHash env)
    setStakeSeenOrphan := o.setStakeSeenOrphan.erase block.getProofOfStake }

def erasePrev (o : OrphanBlocks) (hashPrev : uint256) : OrphanBlocks :=
  { o with mapOrphanBlocksByPrev := o.mapOrphanBlocksByPrev.filter fun e => e.1 != hashPrev }

end OrphanBlocks

namespace BlockNode

def wantedByPendingSyncCheckpoint (n : BlockNode) (hashBlock : uint256) : Bool :=
  if n.hashPendingCheckpoint = 0 then false
  else if hashBlock = n.hashPendingCheckpoint then true
  else
    match n.mapOrphanBlocks.lookup n.hashPendingCheckpoint with
    | none => false
    | some pblock => hashBlock == n.toOrphanBlocks.wantedByOrphan pblock

/-- The exception under which a block with a stake that was seen before is let through. -/
def duplicateAllowed (n : BlockNode) (hash : uint256) : Bool :=
  n.toOrphanBlocks.hasChild hash || n.wantedByPendingSyncCheckpoint hash

end BlockNode

def CHECKPOINT_MAX_SPAN : Int := 60 * 60 * 2

def CBlockIndex.selectBack (pindexBest : CBlockIndex) : CBlockIndex → CBlockIndex
  | .genesis f => .genesis f
  | .child f p =>
    if pindexBest.getBlockTime < (CBlockIndex.child f p).getBlockTime + CHECKPOINT_MAX_SPAN ∨
        pindexBest.nHeight < (CBlockIndex.child f p).nHeight + 8 then
      pindexBest.selectBack p
    else .child f p

/-- What the surroundings decide during one call: for each block it offers to `AcceptBlock`,
and whether the node signs checkpoints of its own. -/
structure ProcessHost where
  offering : CBlock → AcceptHost
  master : Bool := false

/-- Offer a block to `AcceptBlock`: whether it returned true, and the node afterwards. -/
def BlockNode.offer (env : IndexEnv) (mode : CPMode) (host : ProcessHost) (n : BlockNode)
    (block : CBlock) : Bool × BlockNode :=
  (!fails (acceptBlock env mode (host.offering block) block) n.toFullNode,
    { n with toFullNode := leaves (acceptBlock env mode (host.offering block) block) n.toFullNode })

def releaseOrphan (env : IndexEnv) (mode : CPMode) (host : ProcessHost)
    (w : BlockNode × List uint256) (pblockOrphan : CBlock) : BlockNode × List uint256 :=
  let (accepted, n) := w.1.offer env mode host pblockOrphan
  ({ n with toOrphanBlocks := n.toOrphanBlocks.release env.toEnv pblockOrphan },
    if accepted then w.2 ++ [pblockOrphan.getHash env.toEnv] else w.2)

def releaseWaiting (env : IndexEnv) (mode : CPMode) (host : ProcessHost)
    (w : BlockNode × List uint256) (hashPrev : uint256) : BlockNode × List uint256 :=
  let (n, vWorkQueue) :=
    (w.1.toOrphanBlocks.waitingFor hashPrev).foldl (releaseOrphan env mode host) w
  ({ n with toOrphanBlocks := n.toOrphanBlocks.erasePrev hashPrev }, vWorkQueue)

def releaseLoop (env : IndexEnv) (mode : CPMode) (host : ProcessHost) :
    Nat → Nat → BlockNode × List uint256 → BlockNode × List uint256
  | 0, _, w => w
  | rounds + 1, i, w =>
    match w.2[i]? with
    | none => w
    | some hashPrev =>
      releaseLoop env mode host rounds (i + 1) (releaseWaiting env mode host w hashPrev)

def sendSyncCheckpoint (env : Env) (host : Host) (n : FullNode) : FullNode :=
  match n.pindexBest with
  | none => n
  | some pindexBest =>
    leaves (processSyncCheckpoint env host (some (pindexBest.selectBack pindexBest).getBlockHash)) n

def processChecks (env : Env) (host : Host) (n : BlockNode) (block : CBlock) :
    Except Reject Unit := do
  let hash := block.getHash env
  check (!n.mapBlockIndex.has hash) { msg := "ProcessBlock() : already have block %d %s" }
  check (n.mapOrphanBlocks.lookup hash).isNone
    { msg := "ProcessBlock() : already have block (orphan) %s" }
  check (!(block.isProofOfStake && decide (block.getProofOfStake ∈ n.setStakeSeen) &&
      !n.duplicateAllowed hash))
    { msg := "ProcessBlock() : duplicate proof-of-stake (%s, %d) for block %s" }
  check (succeeds (block.checkBlock env host.nAdjustedTime true true true))
    { msg := "ProcessBlock() : CheckBlock FAILED" }
  check (match n.getLastSyncCheckpoint with
      | none => true
      | some pcheckpoint => !(block.hashPrevBlock != n.hashBestChain &&
          !n.wantedByPendingSyncCheckpoint hash && tooLittleProof pcheckpoint block))
    { msg := "ProcessBlock() : block with too little %s", nDoS := 100 }

def storeOrphan (env : Env) (block : CBlock) (n : BlockNode) : EStateM.Result Reject BlockNode Unit :=
  if block.isProofOfStake = true ∧ block.getProofOfStake ∈ n.setStakeSeenOrphan ∧
      n.duplicateAllowed (block.getHash env) = false then
    .error { msg := "ProcessBlock() : duplicate proof-of-stake (%s, %d) for orphan block %s" } n
  else .ok () { n with toOrphanBlocks := n.toOrphanBlocks.store env block }

/-- `ProcessBlock`. Every hash in the work queue but the first is that of an orphan that was
taken out, so the loop ends after as many rounds as there are orphans, and one more. -/
def processBlock (env : IndexEnv) (mode : CPMode) (host : ProcessHost) (block : CBlock) :
    EStateM Reject BlockNode Unit := fun n =>
  match processChecks env.toEnv (host.offering block).toHost n block with
  | .error e => .error e n
  | .ok _ =>
    match n.mapBlockIndex.find block.hashPrevBlock with
    | none => storeOrphan env.toEnv block n
    | some _ =>
      match n.offer env mode host block with
      | (false, n) => .error { msg := "ProcessBlock() : AcceptBlock FAILED" } n
      | (true, n) =>
        let (n, _) := releaseLoop env mode host (n.mapOrphanBlocksByPrev.length + 1) 0
          (n, [block.getHash env.toEnv])
        .ok () (if host.master then
          { n with toFullNode :=
              sendSyncCheckpoint env.toEnv (host.offering block).toHost n.toFullNode }
          else n)

end Triangles
