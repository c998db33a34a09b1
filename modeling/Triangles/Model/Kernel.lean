import Mathlib.Data.List.Sort
import Triangles.Model.Node

/-! Stake modifiers and the proof-of-stake kernel (kernel.cpp). -/

namespace Triangles

open Outcome

structure BlockMap where
  find : uint256 → Option CBlockIndex
  hash_eq : ∀ {h p}, find h = some p → p.getBlockHash = h
  parent : ∀ {h f p}, find h = some (.child f p) → find p.getBlockHash = some p

def nModifierInterval (env : Env) : Nat := if env.fTestNet then 60 else 5 * 60

def MODIFIER_INTERVAL_RATIO : Nat := 3

def nStakeMaxAge (env : Env) : Nat := if env.fTestNet then 30 * 60 else 60 * 60 * 12

def getWeight (env : Env) (nIntervalBeginning nIntervalEnd : Int) : Int :=
  min (nIntervalEnd - nIntervalBeginning - nStakeMinAge env) (nStakeMaxAge env)

/-- `GetLastStakeModifier`: the modifier and the time of the nearest block that generated one. -/
def getLastStakeModifier : CBlockIndex → Except Reject (UInt64 × Int)
  | .genesis f =>
    if (CBlockIndex.genesis f).generatedStakeModifier then .ok (f.nStakeModifier, f.nTime.toNat)
    else .error { msg := "GetLastStakeModifier: no generation at genesis block" }
  | .child f p =>
    if (CBlockIndex.child f p).generatedStakeModifier then .ok (f.nStakeModifier, f.nTime.toNat)
    else getLastStakeModifier p

def getStakeModifierSelectionIntervalSection (env : Env) (nSection : Nat) : Nat :=
  nModifierInterval env * 63 / (63 + (63 - nSection) * ( MODIFIER_INTERVAL_RATIO - 1))

def getStakeModifierSelectionInterval (env : Env) : Nat :=
  ((List.range 64).map (getStakeModifierSelectionIntervalSection env)).sum

abbrev Candidate := Int × uint256

def Candidate.le (a b : Candidate) : Prop := a.1 < b.1 ∨ a.1 = b.1 ∧ a.2 ≤ b.2

instance : DecidableRel Candidate.le := fun a b =>
  inferInstanceAs (Decidable (a.1 < b.1 ∨ a.1 = b.1 ∧ a.2 ≤ b.2))

def CBlockIndex.candidate (p : CBlockIndex) : Candidate := (p.getBlockTime, p.getBlockHash)

abbrev SelectedBlocks := AList (fun _ : uint256 => CBlockIndex)

/-- The hash by which candidates compete: over the proof hash and the previous modifier, and
divided by 2^32 for a proof-of-stake block. -/
def CBlockIndex.selectionHash (env : Env) (nStakeModifierPrev : UInt64) (p : CBlockIndex) : uint256 :=
  let hashProof := if p.isProofOfStake then p.fields.hashProofOfStake else p.getBlockHash
  let hashSelection := env.hashSelection hashProof nStakeModifierPrev
  if p.isProofOfStake then hashSelection / 2 ^ 32 else hashSelection

/-- The loop of `SelectBlockFromCandidates`; `best` is the block selected so far with its hash. -/
def selectFrom (env : Env) (mapBlockIndex : BlockMap) (mapSelectedBlocks : SelectedBlocks)
    (nSelectionIntervalStop : Int) (nStakeModifierPrev : UInt64) :
    List Candidate → Option (CBlockIndex × uint256) → Except Reject (Option (CBlockIndex × uint256))
  | [], best => .ok best
  | item :: rest, best =>
    match mapBlockIndex.find item.2 with
    | none => .error
        { msg := "SelectBlockFromCandidates: failed to find block index for candidate block %s" }
    | some pindex =>
      if best.isSome && decide (nSelectionIntervalStop < pindex.getBlockTime) then .ok best
      else if pindex.getBlockHash ∈ mapSelectedBlocks then
        selectFrom env mapBlockIndex mapSelectedBlocks nSelectionIntervalStop nStakeModifierPrev
          rest best
      else
        let hashSelection := pindex.selectionHash env nStakeModifierPrev
        let best := match best with
          | some (pindexSelected, hashBest) =>
            if hashSelection < hashBest then some (pindex, hashSelection)
            else some (pindexSelected, hashBest)
          | none => some (pindex, hashSelection)
        selectFrom env mapBlockIndex mapSelectedBlocks nSelectionIntervalStop nStakeModifierPrev
          rest best

def selectBlockFromCandidates (env : Env) (mapBlockIndex : BlockMap)
    (vSortedByTimestamp : List Candidate) (mapSelectedBlocks : SelectedBlocks)
    (nSelectionIntervalStop : Int) (nStakeModifierPrev : UInt64) : Except Reject CBlockIndex := do
  let best ← selectFrom env mapBlockIndex mapSelectedBlocks nSelectionIntervalStop
    nStakeModifierPrev vSortedByTimestamp none
  match best with
  | none => .error { msg := "" }
  | some (pindexSelected, _) => pure pindexSelected

structure ModifierAcc where
  nStakeModifierNew : UInt64 := 0
  nSelectionIntervalStop : Int
  mapSelectedBlocks : SelectedBlocks := ∅

def modifierRound (env : Env) (mapBlockIndex : BlockMap) (vSortedByTimestamp : List Candidate)
    (nStakeModifier : UInt64) (acc : ModifierAcc) (nRound : Nat) : Except Reject ModifierAcc :=
  let nSelectionIntervalStop :=
    acc.nSelectionIntervalStop + getStakeModifierSelectionIntervalSection env nRound
  match selectBlockFromCandidates env mapBlockIndex vSortedByTimestamp acc.mapSelectedBlocks
      nSelectionIntervalStop nStakeModifier with
  | .error _ => .error { msg := "ComputeNextStakeModifier: unable to select block at round %d" }
  | .ok pindex => .ok
      { nStakeModifierNew := acc.nStakeModifierNew |||
          (pindex.getStakeEntropyBit.toUInt64 <<< UInt64.ofNat nRound)
        nSelectionIntervalStop := nSelectionIntervalStop
        mapSelectedBlocks := acc.mapSelectedBlocks.insert pindex.getBlockHash pindex }

/-- Where the selection interval that ends at the block's modifier interval starts. -/
def nSelectionIntervalStart (env : Env) (pindexPrev : CBlockIndex) : Int :=
  pindexPrev.getBlockTime / nModifierInterval env * nModifierInterval env -
    getStakeModifierSelectionInterval env

/-- The blocks back from `pindexPrev` to the first one before the selection interval. -/
def candidates (env : Env) (pindexPrev : CBlockIndex) : List CBlockIndex :=
  pindexPrev.ancestors.takeWhile fun pindex =>
    decide (nSelectionIntervalStart env pindexPrev ≤ pindex.getBlockTime)

def sortedCandidates (env : Env) (pindexPrev : CBlockIndex) : List Candidate :=
  ((candidates env pindexPrev).map CBlockIndex.candidate).reverse.insertionSort Candidate.le

def computeNextStakeModifier (env : Env) (mapBlockIndex : BlockMap) :
    Option CBlockIndex → Except Reject (UInt64 × Bool)
  | none => .ok (0, true)
  | some pindexPrev =>
    match getLastStakeModifier pindexPrev with
    | .error _ => .error { msg := "ComputeNextStakeModifier: unable to get last modifier" }
    | .ok (nStakeModifier, nModifierTime) =>
      if pindexPrev.getBlockTime / nModifierInterval env ≤ nModifierTime / nModifierInterval env then
        .ok (nStakeModifier, false)
      else do
        let vSortedByTimestamp := sortedCandidates env pindexPrev
        let acc ← (List.range (min 64 vSortedByTimestamp.length)).foldlM
          (modifierRound env mapBlockIndex vSortedByTimestamp nStakeModifier)
          { nSelectionIntervalStop := nSelectionIntervalStart env pindexPrev }
        pure (acc.nStakeModifierNew, true)

namespace State

def nHeightBest (s : State) : Int := (s.pindexBest.map fun p => (p.nHeight : Int)).getD (-1)

/-- The loop of `GetKernelStakeModifier`: follow `pnext` until the last modifier generated on
the way is late enough, or fail at the block without successor. Every link leads one up
and none leads above the best block, whose height bounds the number of rounds. -/
def walkToModifier (s : State) (nStop : Int) : Nat → CBlockIndex → Int →
    Except CBlockIndex CBlockIndex
  | 0, pindex, nStakeModifierTime =>
    if nStakeModifierTime < nStop then .error pindex else .ok pindex
  | rounds + 1, pindex, nStakeModifierTime =>
    if nStakeModifierTime < nStop then
      match s.pnext pindex with
      | none => .error pindex
      | some next =>
        s.walkToModifier nStop rounds next
          (if next.generatedStakeModifier then next.getBlockTime else nStakeModifierTime)
    else .ok pindex

end State

def getKernelStakeModifier (env : Env) (host : Host) (mapBlockIndex : BlockMap) (s : State)
    (hashBlockFrom : uint256) (fPrintProofOfStake : Bool) : Except Reject UInt64 :=
  match mapBlockIndex.find hashBlockFrom with
  | none => .error { msg := "GetKernelStakeModifier() : block not indexed" }
  | some pindexFrom =>
    let nStakeModifierSelectionInterval : Int := 2 * nModifierInterval env
    match s.walkToModifier (pindexFrom.getBlockTime + nStakeModifierSelectionInterval)
        s.nHeightBest.toNat pindexFrom pindexFrom.getBlockTime with
    | .ok pindex => .ok pindex.fields.nStakeModifier
    | .error pindex =>
      if fPrintProofOfStake || decide (host.nAdjustedTime <
          pindex.getBlockTime + nStakeMinAge env - nStakeModifierSelectionInterval) then
        .error { msg := "GetKernelStakeModifier() : reached best block %s at height %d from block %s" }
      else .error { msg := "" }

/-- The reference parameters of `CheckProofOfStake`; they keep what was written when it fails. -/
structure ProofOut where
  hashProofOfStake : uint256 := 0
  targetProofOfStake : uint256 := 0

def stakeTarget (env : Env) (nBits : UInt32) (txPrev : CTransaction) (prevout : COutPoint)
    (nTimeTx : UInt32) : Int :=
  let nValueIn := ((txPrev.vout[prevout.n.toNat]?).map CTxOut.nValue).getD 0
  let bnCoinDayWeight := ((nValueIn * getWeight env txPrev.nTime.toNat nTimeTx.toNat).tdiv COIN).tdiv
    (24 * 60 * 60)
  bnCoinDayWeight * setCompact nBits

def checkStakeKernelHash (env : Env) (host : Host) (mapBlockIndex : BlockMap) (s : State)
    (nBits : UInt32) (blockFrom : CBlockHeader) (nTxPrevOffset : UInt32) (txPrev : CTransaction)
    (prevout : COutPoint) (nTimeTx : UInt32) (fPrintProofOfStake : Bool) :
    EStateM Reject ProofOut Unit := do
  lift (check (decide (txPrev.nTime ≤ nTimeTx)) { msg := "CheckStakeKernelHash() : nTime violation" })
  lift (check (decide (blockFrom.nTime + UInt32.ofNat (nStakeMinAge env) ≤ nTimeTx))
    { msg := "CheckStakeKernelHash() : min age violation" })
  let bnTarget := stakeTarget env nBits txPrev prevout nTimeTx
  modify fun out => { out with targetProofOfStake := getuint256 bnTarget }
  let nStakeModifier ← lift (getKernelStakeModifier env host mapBlockIndex s (env.hash9 blockFrom)
    fPrintProofOfStake)
  let hashProofOfStake := env.hashKernel nStakeModifier blockFrom.nTime nTxPrevOffset txPrev.nTime
    prevout.n nTimeTx
  modify fun out => { out with hashProofOfStake := hashProofOfStake }
  -- a hash above the target is accepted while the best block is at or below the cutoff
  lift (check (decide ((hashProofOfStake : Int) ≤ bnTarget) ||
    decide (s.nHeightBest ≤ CRAPCHAIN_CUTOFF_BLOCK)) { msg := "" })

def failsAs (e : Reject) (x : EStateM Reject σ α) : EStateM Reject σ α := fun s =>
  match x s with
  | .ok a t => .ok a t
  | .error _ t => .error e t

def checkProofOfStake (env : Env) (host : Host) (mapBlockIndex : BlockMap) (s : State)
    (tx : CTransaction) (nBits : UInt32) (fDebug : Bool) : EStateM Reject ProofOut Unit := do
  lift (check tx.isCoinStake { msg := "CheckProofOfStake() : called on non-coinstake %s" })
  match tx.vin with
  | [] => lift (.error { msg := "vin[0] out of range" })
  | txin :: _ =>
    match readTxFromDisk env ⟨s.txdb.committed, none⟩ txin.prevout with
    | none => lift (.error { msg := "CheckProofOfStake() : INFO: read txPrev failed", nDoS := 1 })
    | some (txPrev, txindex) =>
      lift (check (verifySignature env s.nHeightBest txPrev tx 0)
        { msg := "CheckProofOfStake() : VerifySignature failed on coinstake %s", nDoS := 100 })
      match env.readHeader txindex.pos.nFile txindex.pos.nBlockPos with
      | none => lift (.error
          { msg := if fDebug then "CheckProofOfStake() : read block failed" else "" })
      | some block =>
        failsAs
          { msg := "CheckProofOfStake() : INFO: check kernel failed on coinstake %s, hashProof=%s",
            nDoS := 1 }
          (checkStakeKernelHash env host mapBlockIndex s nBits block
            (txindex.pos.nTxPos - txindex.pos.nBlockPos) txPrev txin.prevout tx.nTime fDebug)

end Triangles
