import Mathlib.Data.Nat.Size
import Triangles.Model.Connect

/-! Targets: the compact form (bignum.h), retargeting, the bound of the spam check and the
trust of a block (main.cpp). -/

namespace Triangles

def mpiBytes (mag : Nat) : Nat := if mag = 0 then 0 else Nat.size mag / 8 + 1

def getCompact (n : Int) : UInt32 :=
  let nSize := mpiBytes n.natAbs
  let word :=
    if nSize ≤ 3 then n.natAbs * 256 ^ (3 - nSize) else n.natAbs / 256 ^ (nSize - 3)
  UInt32.ofNat (nSize * 2 ^ 24 + (if n < 0 then 2 ^ 23 else 0) + word)

def bnProofOfStakeLimit : Int := 2 ^ 248 - 1

def bnTargetLimit (fProofOfStake : Bool) : Int :=
  if fProofOfStake then bnProofOfStakeLimit else bnProofOfWorkLimit

def nTargetSpacing (env : Env) : Int := if env.fTestNet then 1 * 60 else 60 * 2

def nTargetTimespan : Int := 60 * 30

def getLastBlockIndex (fProofOfStake : Bool) : CBlockIndex → CBlockIndex
  | .genesis f => .genesis f
  | .child f p =>
    if (CBlockIndex.child f p).isProofOfStake ≠ fProofOfStake then
      getLastBlockIndex fProofOfStake p
    else .child f p

def retarget (env : Env) (fProofOfStake : Bool) (nBits : UInt32) (nActualSpacing : Int) : UInt32 :=
  let nActualSpacing := if nActualSpacing < 0 then nTargetSpacing env else nActualSpacing
  let nInterval := nTargetTimespan / nTargetSpacing env
  let bnNew := (setCompact nBits *
    ((nInterval - 1) * nTargetSpacing env + nActualSpacing + nActualSpacing)).tdiv
      ((nInterval + 1) * nTargetSpacing env)
  if bnNew ≤ 0 ∨ bnTargetLimit fProofOfStake < bnNew then getCompact (bnTargetLimit fProofOfStake)
  else getCompact bnNew

def getNextTargetRequired (env : Env) (pindexLast : Option CBlockIndex) (fProofOfStake : Bool) :
    UInt32 :=
  match pindexLast with
  | none => getCompact (bnTargetLimit fProofOfStake)
  | some pindexLast =>
    match getLastBlockIndex fProofOfStake pindexLast with
    | .genesis _ => getCompact (bnTargetLimit fProofOfStake)
    | .child f p =>
      match getLastBlockIndex fProofOfStake p with
      | .genesis _ => getCompact (bnTargetLimit fProofOfStake)
      | pindexPrevPrev =>
        retarget env fProofOfStake f.nBits
          ((CBlockIndex.child f p).getBlockTime - pindexPrevPrev.getBlockTime)

def maxBitsLoop (bnTargetLimit : Int) : Nat → Int → Int → Int
  | 0, _, bnResult => bnResult
  | rounds + 1, nTime, bnResult =>
    if 0 < nTime ∧ bnResult < bnTargetLimit then
      maxBitsLoop bnTargetLimit rounds (nTime - 24 * 60 * 60) (bnResult * 2)
    else bnResult

/-- `ComputeMaxBits`. Each round takes a day off the time, so the seconds bound the rounds. -/
def computeMaxBits (bnTargetLimit : Int) (nBase : UInt32) (nTime : Int) : UInt32 :=
  let bnResult := maxBitsLoop bnTargetLimit nTime.toNat nTime (setCompact nBase * 2)
  getCompact (if bnTargetLimit < bnResult then bnTargetLimit else bnResult)

def computeMinWork (nBase : UInt32) (nTime : Int) : UInt32 :=
  computeMaxBits bnProofOfWorkLimit nBase nTime

def computeMinStake (nBase : UInt32) (nTime : Int) : UInt32 :=
  computeMaxBits bnProofOfStakeLimit nBase nTime

/-- The extra check of `ProcessBlock`: the block's target is above what could be required. -/
def tooLittleProof (pcheckpoint : CBlockIndex) (block : CBlock) : Bool :=
  let deltaTime := block.getBlockTime - pcheckpoint.getBlockTime
  let bnNewBlock := setCompact block.nBits
  let bnRequired := setCompact <|
    if block.isProofOfStake then
      computeMinStake (getLastBlockIndex true pcheckpoint).fields.nBits deltaTime
    else computeMinWork (getLastBlockIndex false pcheckpoint).fields.nBits deltaTime
  decide (bnRequired < bnNewBlock)

def getBlockTrust (nBits : UInt32) : uint256 :=
  let bnTarget := setCompact nBits
  if bnTarget ≤ 0 then 0 else getuint256 (2 ^ 256 / (bnTarget + 1))

/-- The trust `AddToBlockIndex` gives a block: that of its parent and its own, in 256 bits. -/
def chainTrust (pprev : Option CBlockIndex) (nBits : UInt32) : uint256 :=
  ((pprev.map CBlockIndex.nChainTrust).getD 0 + getBlockTrust nBits) % 2 ^ 256

end Triangles
