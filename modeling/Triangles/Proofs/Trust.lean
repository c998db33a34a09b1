import Triangles.Proofs.AcceptSpec
import Triangles.Proofs.Compact
import Triangles.Proofs.KernelView

/-! The trust of the blocks that `AcceptBlock` adds: the measure by which chains are chosen. -/

namespace Triangles

open Outcome

/-- For a positive target the quotient fits into 256 bits. -/
theorem getBlockTrust_eq {nBits : UInt32} (h : 0 < setCompact nBits) :
    getBlockTrust nBits = 2 ^ 256 / ((setCompact nBits).toNat + 1) := by
  unfold getBlockTrust
  simp only
  rw [if_neg (not_le.mpr h)]
  obtain ⟨m, hm⟩ := Int.eq_ofNat_of_zero_le h.le
  rw [hm] at h ⊢
  have hdiv : (2 ^ 256 : Int) / ((m : Int) + 1) = ((2 ^ 256 / (m + 1) : Nat) : Int) := by
    push_cast
    rfl
  have hlt : 2 ^ 256 / (m + 1) < 2 ^ 256 := Nat.div_lt_self (by norm_num) (by omega)
  unfold getuint256
  rw [hdiv, Int.natAbs_natCast, Nat.mod_eq_of_lt hlt, Int.toNat_natCast]

/-- A block has trust when its target is a positive number of at most 256 bits. -/
theorem getBlockTrust_pos {nBits : UInt32} :
    0 < getBlockTrust nBits ↔ 0 < setCompact nBits ∧ setCompact nBits < 2 ^ 256 := by
  by_cases h : 0 < setCompact nBits
  · rw [getBlockTrust_eq h, Nat.div_pos_iff]
    omega
  · have hzero : getBlockTrust nBits = 0 := if_pos (not_lt.mp h)
    rw [hzero]
    simp [h]

/-- A target within the limit leaves a trust of at least 256. -/
theorem le_getBlockTrust {nBits : UInt32} (hpos : 0 < setCompact nBits)
    (hle : setCompact nBits ≤ 2 ^ 248 - 1) : 2 ^ 8 ≤ getBlockTrust nBits := by
  rw [getBlockTrust_eq hpos, Nat.le_div_iff_mul_le (by omega)]
  omega

/-- A wrapping sum is above its first part when the second is not zero and it does not wrap. -/
theorem lt_add_mod {a b m : Nat} (hb : b < m) : a < (a + b) % m ↔ 0 < b ∧ a + b < m := by
  rcases Nat.lt_or_ge (a + b) m with hlt | hge
  · rw [Nat.mod_eq_of_lt hlt]
    omega
  · -- a sum that wraps loses at least what was added
    have hmod : (a + b) % m ≤ a := by
      rw [Nat.mod_eq_sub_mod hge]
      refine (Nat.mod_le _ _).trans ?_
      omega
    omega

theorem lt_chainTrust {p : CBlockIndex} {nBits : UInt32} :
    p.nChainTrust < chainTrust (some p) nBits ↔
      0 < getBlockTrust nBits ∧ p.nChainTrust + getBlockTrust nBits < 2 ^ 256 := by
  apply lt_add_mod
  unfold getBlockTrust getuint256
  simp only
  split
  · norm_num
  · exact Nat.mod_lt _ (by norm_num)

/-- `CheckBlock` lets through a proof-of-work block only with a target within the limit. -/
theorem checkBlock_target {env : Env} {nAdjustedTime : Int} {block : CBlock} {root sig : Bool}
    (h : block.checkBlock env nAdjustedTime true root sig = .ok ()) (hw : block.isProofOfWork = true) :
    0 < setCompact block.nBits ∧ setCompact block.nBits ≤ 2 ^ 248 - 1 := by
  simp only [CBlock.checkBlock, check_bind] at h
  obtain ⟨_, hpow, _⟩ := h
  simp only [hw, Bool.true_and, Bool.not_not, checkProofOfWork, bnProofOfWorkLimit,
    Bool.and_eq_true, decide_eq_true_eq] at hpow
  exact ⟨hpow.1.1, of_decide_eq_true hpow.1.2⟩

/-- The block that `AcceptBlock` adds has more trust than its parent exactly when its target
is a positive number of at most 256 bits and the sum does not wrap. For proof-of-work and
above the cutoff the block's own trust is at least 256. -/
theorem added_block_trust {env : IndexEnv} {mode : CPMode} {host : AcceptHost} {n : FullNode}
    {block : CBlock} {nAdjustedTime : Int} {pindexNew : CBlockIndex}
    (hcheck : block.checkBlock env.toEnv nAdjustedTime true true true = .ok ())
    (hbefore : n.mapBlockIndex.find (block.getHash env.toEnv) = none)
    (hafter : (leaves (acceptBlock env mode host block) n).mapBlockIndex.find
      (block.getHash env.toEnv) = some pindexNew) :
    ∃ p, pindexNew.pprev = some p ∧
      (p.nChainTrust < pindexNew.nChainTrust ↔
        0 < setCompact block.nBits ∧ setCompact block.nBits < 2 ^ 256 ∧
          p.nChainTrust + getBlockTrust block.nBits < 2 ^ 256) ∧
      (block.isProofOfWork = true ∨ CRAPCHAIN_CUTOFF_BLOCK < pindexNew.nHeight →
        2 ^ 8 ≤ getBlockTrust block.nBits) := by
  rcases acceptBlock_index env mode host n block with hsame | ⟨pindex, hadmits, hentered⟩
  · rw [hsame.mapBlockIndex, hbefore] at hafter
    cases hafter
  · rw [hentered.mapBlockIndex, hadmits.entered_find, if_pos hadmits.hash.symm] at hafter
    cases hafter
    obtain ⟨p, hp, hpasses⟩ := hadmits.passes
    refine ⟨p, hp, ?_, ?_⟩
    · have htrust : pindexNew.nChainTrust = chainTrust (some p) block.nBits := by
        obtain ⟨_, _, _, _, hnew⟩ := hadmits
        obtain ⟨_, _, _, rfl⟩ := newBlockIndex_ok hnew
        rw [CBlockIndex.nChainTrust, CBlockIndex.onTop_fields, hpasses.prev]
        rfl
      rw [htrust, lt_chainTrust, getBlockTrust_pos, and_assoc]
    · intro hkind
      rcases hkind with hwork | hheight
      · obtain ⟨hpos, hle⟩ := checkBlock_target hcheck hwork
        exact le_getBlockTrust hpos hle
      · rcases hpasses.bits with hbits | hlow
        · obtain ⟨target, hpos, hle, hrequired⟩ :=
            nextTarget_range env.toEnv (some p) block.isProofOfStake
          rw [hrequired] at hbits
          obtain ⟨hpos', hle'⟩ := compact_range hpos hle
          rw [hbits]
          exact le_getBlockTrust hpos' hle'
        · obtain ⟨f, rfl⟩ := CBlockIndex.pprev_eq_some hp
          simp only [CBlockIndex.nHeight] at hheight
          omega

namespace Sample

def stakeBlock (hashPrevBlock : uint256) (nTime : UInt32) (nHeight : UInt8) (nBits : UInt32) : CBlock :=
  let noReward := { coinbase (nTime - 1) 0 nHeight with vout := [⟨0, []⟩] }
  { blockOf hashPrevBlock nTime [noReward, { coinstake with nTime := nTime }] with nBits := nBits }

def fairBlock : CBlock := stakeBlock 1600 5000 3 0x1d00ffff

def indexEnv : IndexEnv := { stakeEnv with hashChecksum := fun _ _ _ _ => 0 }

def stakeFullNode : FullNode :=
  { stakeNode [stakedIndex, modifierIndex] modifierIndex with
    mapBlockIndex := stakeMap
    setStakeSeen := ∅
    hashSyncCheckpoint := hashGenesisBlock
    hashPendingCheckpoint := 0
    hashInvalidCheckpoint := 0 }

def hostAt (nBlockPos : UInt32) (h : 8 ≤ nBlockPos) : AcceptHost :=
  { stakeHost with spot := some ⟨1, nBlockPos, firstFile_ne, h⟩ }

def offer (nBlockPos : UInt32) (h : 8 ≤ nBlockPos) (block : CBlock) (n : FullNode) : FullNode :=
  leaves (acceptBlock indexEnv .STRICT (hostAt nBlockPos h) block) n

def trustOf (n : FullNode) (hash : uint256) : Option (uint256 × Option uint256) :=
  (n.mapBlockIndex.find hash).map fun p => (p.nChainTrust, p.pprev.map CBlockIndex.nChainTrust)

end Sample

/-- A block with a target within the limit gets more trust than its parent. -/
theorem fairBlock_more_trust :
    ∃ pindexNew p, (Sample.offer 6000 (by decide) Sample.fairBlock
        Sample.stakeFullNode).mapBlockIndex.find (Sample.fairBlock.getHash Sample.indexEnv.toEnv) =
          some pindexNew ∧
      pindexNew.pprev = some p ∧ p.nChainTrust < pindexNew.nChainTrust := by
  have hcheck : Sample.fairBlock.checkBlock Sample.indexEnv.toEnv 6000 true true true = .ok () := by
    decide
  have hbefore : Sample.stakeFullNode.mapBlockIndex.find
      (Sample.fairBlock.getHash Sample.indexEnv.toEnv) = none := by decide
  have htrust : Sample.trustOf (Sample.offer 6000 (by decide) Sample.fairBlock Sample.stakeFullNode)
      (Sample.fairBlock.getHash Sample.indexEnv.toEnv) = some (4295032836, some 3) := by
    decide +kernel
  obtain ⟨pindexNew, hnew, hpair⟩ := Option.map_eq_some_iff.mp htrust
  have hadded := hnew
  unfold Sample.offer at hadded
  obtain ⟨p, hp, hiff, _⟩ := added_block_trust hcheck hbefore hadded
  have hparent : p.nChainTrust = 3 := by
    have hsnd := (Prod.mk.inj hpair).2
    rw [hp] at hsnd
    exact Option.some.inj hsnd
  refine ⟨pindexNew, p, hnew, hp, hiff.mpr ?_⟩
  rw [hparent]
  decide

/-- Up to the cutoff a proof-of-stake block is added whatever its target: with a target of 0
it has the trust of its parent, and two blocks of target 1 come back to it. -/
theorem stakeBlock_no_more_trust :
    (Sample.stakeBlock 1600 5000 3 0).checkBlock Sample.indexEnv.toEnv 6000 true true true = .ok () ∧
    Sample.trustOf (Sample.offer 6000 (by decide) (Sample.stakeBlock 1600 5000 3 0)
      Sample.stakeFullNode) 5000 = some (3, some 3) ∧
    Sample.trustOf (Sample.offer 7000 (by decide) (Sample.stakeBlock 5000 5100 4 0x01010000)
      (Sample.offer 6000 (by decide) (Sample.stakeBlock 1600 5000 3 0x01010000)
        Sample.stakeFullNode)) 5100 = some (3, some (2 ^ 255 + 3)) := by
  decide +kernel

end Triangles
