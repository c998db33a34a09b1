import Triangles.Lib.Sums
import Triangles.Proofs.CoinChoice
import Triangles.Proofs.KernelView
import Triangles.Proofs.SyncSafety

/-! The weight of a stake: the time of its input, and the minimum age that is added in 32 bits. -/

namespace Triangles

open Outcome Ledger

/-- The two tests of times in `CheckStakeKernelHash`. -/
def TimeTests (env : Env) (blockFrom : CBlockHeader) (txPrev : CTransaction) (nTimeTx : UInt32) :
    Prop :=
  txPrev.nTime ≤ nTimeTx ∧ blockFrom.nTime + UInt32.ofNat (nStakeMinAge env) ≤ nTimeTx

/-- The weight is between 0 and the maximum age, and keeps the sign of the target. -/
def WeightInRange (env : Env) (txPrev : CTransaction) (prevout : COutPoint) (nTimeTx : UInt32) :
    Prop :=
  0 ≤ getWeight env txPrev.nTime.toNat nTimeTx.toNat ∧
  getWeight env txPrev.nTime.toNat nTimeTx.toNat ≤ nStakeMaxAge env ∧
  ∀ nBits, 0 ≤ setCompact nBits → 0 ≤ stakeTarget env nBits txPrev prevout nTimeTx

/-- The end of the minimum age does not fit in 32 bits. What is left of it and the time of the
input let a coinstake through that is younger than the minimum age. -/
def YoungStake (env : Env) (blockFrom : CBlockHeader) (txPrev : CTransaction) (nTimeTx : UInt32) :
    Prop :=
  2 ^ 32 ≤ blockFrom.nTime.toNat + nStakeMinAge env ∧
  blockFrom.nTime.toNat + nStakeMinAge env ≤ 2 ^ 32 + nTimeTx.toNat ∧
  txPrev.nTime ≤ nTimeTx ∧ nTimeTx.toNat < txPrev.nTime.toNat + nStakeMinAge env

section Times

variable {env : Env}

theorem nStakeMinAge_bounds (env : Env) : 600 ≤ nStakeMinAge env ∧ nStakeMinAge env ≤ 3600 := by
  unfold nStakeMinAge
  split <;> decide

/-- The end of the minimum age, as the test computes it. -/
theorem minAge_toNat (env : Env) (t : UInt32) :
    (t + UInt32.ofNat (nStakeMinAge env)).toNat = (t.toNat + nStakeMinAge env) % 2 ^ 32 := by
  have hage := (nStakeMinAge_bounds env).2
  have hlt : nStakeMinAge env < UInt32.size := lt_of_le_of_lt hage (by decide)
  rw [UInt32.toNat_add, UInt32.toNat_ofNat_of_lt' hlt]

variable {block : CBlock} {nAdjustedTime : Int} {pow root sig : Bool}

/-- The times `CheckBlock` lets a transaction of the block have. -/
theorem checkBlock_times (h : block.checkBlock env nAdjustedTime pow root sig = .ok ()) :
    (∀ tx ∈ block.vtx, tx.nTime.toNat ≤ block.nTime.toNat) ∧
      ∃ coinbase ∈ block.vtx, block.nTime.toNat ≤ coinbase.nTime.toNat + 600 := by
  have hlayout := (checkBlock_spec h).coinbase
  simp only [CBlock.checkBlock, check_bind] at h
  obtain ⟨_, _, _, _, _, hearly, h⟩ := h
  constructor
  · have htxs : block.vtx.forM block.checkBlockTx = .ok () := by
      cases hs : block.isProofOfStake <;>
        simp only [hs, Bool.false_eq_true, ↓reduceIte, bind_ok] at h
      · obtain ⟨_, hl, _⟩ := h
        exact hl
      · obtain ⟨_, _, _, hl, _⟩ := h
        exact hl
    intro tx htx
    have htime := forM_ok.mp htxs tx htx
    unfold CBlock.checkBlockTx at htime
    split at htime
    · cases htime
    · rw [check_ok, decide_eq_true_eq] at htime
      unfold CBlock.getBlockTime at htime
      omega
  · obtain ⟨coinbase, rest, hv, _, _⟩ := hlayout
    refine ⟨coinbase, hv ▸ List.mem_cons_self, ?_⟩
    rw [hv, List.head?_cons, Option.all_some, decide_eq_true_eq] at hearly
    unfold CBlock.getBlockTime futureDrift at hearly
    omega

/-- A weight in range gives a target in range, as no output is negative. -/
theorem stakeTarget_nonneg {txPrev : CTransaction} (hvout : ∀ o ∈ txPrev.vout, 0 ≤ o.nValue)
    (prevout : COutPoint) {nTimeTx : UInt32}
    (hweight : 0 ≤ getWeight env txPrev.nTime.toNat nTimeTx.toNat) {nBits : UInt32}
    (hbits : 0 ≤ setCompact nBits) : 0 ≤ stakeTarget env nBits txPrev prevout nTimeTx := by
  have hvalue : 0 ≤ ((txPrev.vout[prevout.n.toNat]?).map CTxOut.nValue).getD 0 := by
    cases hout : txPrev.vout[prevout.n.toNat]? with
    | none => exact le_refl 0
    | some o => exact hvout o (List.mem_of_getElem? hout)
  unfold stakeTarget
  have hcoins := Int.tdiv_nonneg (Int.mul_nonneg hvalue hweight) (by decide : (0 : Int) ≤ COIN)
  exact Int.mul_nonneg (Int.tdiv_nonneg hcoins (by decide)) hbits

/-- The weight starts from 0 at the minimum age, and never passes the maximum age. -/
theorem getWeight_range (env : Env) (tPrev nTimeTx : Nat) :
    (0 ≤ getWeight env tPrev nTimeTx ↔ tPrev + nStakeMinAge env ≤ nTimeTx) ∧
      getWeight env tPrev nTimeTx ≤ nStakeMaxAge env := by
  unfold getWeight
  omega

/-- One coinstake on an output of a block that passed `CheckBlock`. -/
theorem weight_iff (h : block.checkBlock env nAdjustedTime pow root sig = .ok ())
    {txPrev : CTransaction} (htx : txPrev ∈ block.vtx) (prevout : COutPoint) (nTimeTx : UInt32) :
    (TimeTests env block.toCBlockHeader txPrev nTimeTx → WeightInRange env txPrev prevout nTimeTx) ↔
      ¬ YoungStake env block.toCBlockHeader txPrev nTimeTx := by
  have hblock := (checkBlock_times h).1 txPrev htx
  have hage := nStakeMinAge_bounds env
  have hsum := minAge_toNat env block.nTime
  have hbound := block.nTime.toNat_lt
  obtain ⟨hiff, hmax⟩ := getWeight_range env txPrev.nTime.toNat nTimeTx.toNat
  have hrange : WeightInRange env txPrev prevout nTimeTx ↔
      txPrev.nTime.toNat + nStakeMinAge env ≤ nTimeTx.toNat := by
    rw [← hiff]
    refine ⟨fun hw => hw.1, fun hw => ⟨hw, hmax, fun nBits hbits => ?_⟩⟩
    have hvout := outputs_nonneg ((checkBlock_spec h).valid txPrev htx)
    exact stakeTarget_nonneg hvout prevout hw hbits
  rw [hrange]
  unfold TimeTests YoungStake
  rw [UInt32.le_iff_toNat_le, UInt32.le_iff_toNat_le, hsum]
  by_cases hwrap : 2 ^ 32 ≤ block.nTime.toNat + nStakeMinAge env
  · have hmod : (block.nTime.toNat + nStakeMinAge env) % 2 ^ 32 =
        block.nTime.toNat + nStakeMinAge env - 2 ^ 32 := by omega
    rw [hmod]
    omega
  · rw [Nat.mod_eq_of_lt (not_le.mp hwrap)]
    omega

end Times

/-- The weight of a coinstake is in range if and only if the minimum age is not cut short, and
of a block all coinstakes are so if and only if its minimum age ends within 32 bits. -/
theorem stake_weight_in_range_iff {env : Env} {block : CBlock} {nAdjustedTime : Int}
    {pow root sig : Bool} (h : block.checkBlock env nAdjustedTime pow root sig = .ok ()) :
    (∀ txPrev ∈ block.vtx, ∀ prevout nTimeTx,
      ((TimeTests env block.toCBlockHeader txPrev nTimeTx →
          WeightInRange env txPrev prevout nTimeTx) ↔
        ¬ YoungStake env block.toCBlockHeader txPrev nTimeTx)) ∧
    ((∀ txPrev ∈ block.vtx, ∀ prevout nTimeTx,
        TimeTests env block.toCBlockHeader txPrev nTimeTx →
          WeightInRange env txPrev prevout nTimeTx) ↔
      block.nTime.toNat + nStakeMinAge env < 2 ^ 32) := by
  have hone := fun (txPrev : CTransaction) (htx : txPrev ∈ block.vtx) prevout nTimeTx =>
    weight_iff h htx prevout nTimeTx
  refine ⟨hone, fun hall => ?_, fun hfits txPrev htx prevout nTimeTx => ?_⟩
  · -- a coinstake at the time of the coinbase
    obtain ⟨hbefore, coinbase, hmem, hlate⟩ := checkBlock_times h
    have hage := nStakeMinAge_bounds env
    have hbound := coinbase.nTime.toNat_lt
    have hold := (hone coinbase hmem ⟨0, 0⟩ coinbase.nTime).mp
      (hall coinbase hmem ⟨0, 0⟩ coinbase.nTime)
    by_contra hwrap
    refine hold ⟨not_lt.mp hwrap, ?_, UInt32.le_refl _, ?_⟩ <;> omega
  · exact (hone txPrev htx prevout nTimeTx).mpr fun hyoung => absurd hyoung.1 (not_le.mpr hfits)

namespace Sample

def lastBlock : CBlock := blockOf hashGenesisBlock 0xffffffff [coinbase 0xffffffff (24 * COIN)]

def lastCoinbase : CTransaction := coinbase 0xffffffff (24 * COIN)

end Sample

/-- A coinstake of the same second on the coinbase of that block passes both tests, and its weight
and its target are negative. -/
theorem lastBlock_young_stake :
    Sample.lastBlock.checkBlock (Sample.env []) 0xffffffff true true true = .ok () ∧
    Sample.lastCoinbase ∈ Sample.lastBlock.vtx ∧
    TimeTests (Sample.env []) Sample.lastBlock.toCBlockHeader Sample.lastCoinbase 0xffffffff ∧
    getWeight (Sample.env []) Sample.lastCoinbase.nTime.toNat (0xffffffff : UInt32).toNat = -3600 ∧
    0 < setCompact 0x1d00ffff ∧
    stakeTarget (Sample.env []) 0x1d00ffff Sample.lastCoinbase ⟨1000, 0⟩ 0xffffffff =
      -setCompact 0x1d00ffff := by
  unfold TimeTests
  decide

/-- The block does pass `CheckBlock`, and has such a coinstake. -/
theorem lastBlock_not_in_range :
    ¬ ∀ txPrev ∈ Sample.lastBlock.vtx, ∀ prevout nTimeTx,
      TimeTests (Sample.env []) Sample.lastBlock.toCBlockHeader txPrev nTimeTx →
        WeightInRange (Sample.env []) txPrev prevout nTimeTx := by
  have hcheck : Sample.lastBlock.checkBlock (Sample.env []) 0xffffffff true true true = .ok () := by
    decide
  rw [(stake_weight_in_range_iff hcheck).2]
  decide

end Triangles

/-! The median time of the last blocks does not go back from a block to the next. -/

namespace Triangles

open Outcome

/-- An index entry whose blocks but the first all came through `AcceptBlock`. -/
inductive AcceptedChain (env : IndexEnv) : CBlockIndex → Prop
  | genesis (fields : BlockFields) : AcceptedChain env (.genesis fields)
  | accepted {mode : CPMode} {host : AcceptHost} {block : CBlock} {n t : FullNode}
      {pindexNew : CBlockIndex} (hrun : acceptBlock env mode host block n = .ok () t)
      (hnew : t.mapBlockIndex.find (block.getHash env.toEnv) = some pindexNew)
      (hprev : ∀ p, pindexNew.pprev = some p → AcceptedChain env p) :
      AcceptedChain env pindexNew

def CBlockIndex.pastTimes (pindex : CBlockIndex) : List Int :=
  (pindex.ancestors.take nMedianTimeSpan).map CBlockIndex.getBlockTime

theorem getMedianTimePast_eq (pindex : CBlockIndex) :
    pindex.getMedianTimePast = ranked pindex.pastTimes (pindex.pastTimes.length / 2) 0 := by
  simp only [CBlockIndex.getMedianTimePast, ranked, CBlockIndex.pastTimes,
    List.length_insertionSort]

theorem pastTimes_pos (pindex : CBlockIndex) : 0 < pindex.pastTimes.length := by
  cases pindex <;> simp [CBlockIndex.pastTimes, CBlockIndex.ancestors, nMedianTimeSpan]

/-- While the window grows, the new time joins those of the parent. -/
theorem pastTimes_grow (fields : BlockFields) {p : CBlockIndex}
    (hshort : p.ancestors.length < nMedianTimeSpan) :
    (CBlockIndex.child fields p).pastTimes =
      (CBlockIndex.child fields p).getBlockTime :: p.pastTimes := by
  have hnew : p.ancestors.take 10 = p.ancestors :=
    List.take_of_length_le (by simp only [nMedianTimeSpan] at hshort; omega)
  have hold : p.ancestors.take nMedianTimeSpan = p.ancestors :=
    List.take_of_length_le hshort.le
  simp only [CBlockIndex.pastTimes, hold]
  simp only [CBlockIndex.ancestors, nMedianTimeSpan, List.take_succ_cons, List.map_cons, hnew]

/-- After that the oldest time of the parent's window leaves it. -/
theorem pastTimes_slide (fields : BlockFields) {p : CBlockIndex}
    (hlong : nMedianTimeSpan ≤ p.ancestors.length) :
    (CBlockIndex.child fields p).pastTimes =
      (CBlockIndex.child fields p).getBlockTime :: p.pastTimes.dropLast := by
  simp only [nMedianTimeSpan] at hlong
  have hold : (p.ancestors.take 11).dropLast = p.ancestors.take 10 := by
    rw [List.dropLast_eq_take, List.take_take, List.length_take, Nat.min_eq_left hlong]
    rfl
  simp only [CBlockIndex.pastTimes, CBlockIndex.ancestors, nMedianTimeSpan,
    List.take_succ_cons, List.map_cons, ← List.map_dropLast, hold]

/-- A block later than the median of its parent has no smaller median. -/
theorem median_step (fields : BlockFields) (p : CBlockIndex)
    (hlater : p.getMedianTimePast < (CBlockIndex.child fields p).getBlockTime) :
    p.getMedianTimePast ≤ (CBlockIndex.child fields p).getMedianTimePast := by
  have hpos := pastTimes_pos p
  have hmedian := (getMedianTimePast_eq p).le
  rw [getMedianTimePast_eq (.child fields p)]
  rcases Nat.lt_or_ge p.ancestors.length nMedianTimeSpan with hshort | hlong
  · rw [pastTimes_grow fields hshort, List.length_cons]
    exact ranked_cons (by omega) hmedian hlater.le (by omega) (by omega)
  · have hlen : p.pastTimes.length = 11 := by
      simp only [CBlockIndex.pastTimes, List.length_map, List.length_take, nMedianTimeSpan]
      simp only [nMedianTimeSpan] at hlong
      omega
    rw [pastTimes_slide fields hlong, List.length_cons, List.length_dropLast, Nat.sub_add_cancel hpos]
    exact ranked_slide (by omega) hmedian hlater.le

/-- `AcceptBlock` lets a block in only if it is later than the median of its parent. -/
theorem acceptChecks_later {env : Env} {mode : CPMode} {host : AcceptHost} {n : FullNode}
    {block : CBlock} {hashProofOfStake : uint256}
    (h : acceptChecks env mode host n block = .ok hashProofOfStake) :
    ∃ p, n.mapBlockIndex.find block.hashPrevBlock = some p ∧
      p.getMedianTimePast < block.getBlockTime := by
  unfold acceptChecks at h
  obtain ⟨_, h⟩ := check_bind.mp h
  split at h
  · cases h
  · rename_i p hprev
    simp only [check_bind, Bool.and_eq_true, decide_eq_true_eq] at h
    obtain ⟨_, _, _, ⟨hlater, _⟩, _⟩ := h
    exact ⟨p, hprev, hlater⟩

theorem newBlockIndex_time {env : IndexEnv} {m : BlockMap} {block : CBlock} {spot : DiskSpot}
    {hashProofOfStake : uint256} {pindexNew : CBlockIndex}
    (h : newBlockIndex env m block spot hashProofOfStake = .ok pindexNew) :
    pindexNew.getBlockTime = block.getBlockTime := by
  obtain ⟨_, _, _, rfl⟩ := newBlockIndex_ok h
  rw [CBlockIndex.getBlockTime, CBlockIndex.onTop_fields]
  rfl

theorem Admits.later {env : IndexEnv} {mode : CPMode} {host : AcceptHost} {n : FullNode}
    {block : CBlock} {pindexNew p : CBlockIndex} (h : Admits env mode host n block pindexNew)
    (hp : pindexNew.pprev = some p) : p.getMedianTimePast < pindexNew.getBlockTime := by
  obtain ⟨_, _, hchecks, _, hnew⟩ := h
  obtain ⟨q, hq, hlater⟩ := acceptChecks_later hchecks
  rw [newBlockIndex_pprev hnew, hq] at hp
  cases hp
  rwa [newBlockIndex_time hnew]

/-- An accepted block is the one that `AcceptBlock` entered in the index. -/
theorem acceptBlock_admits {env : IndexEnv} {mode : CPMode} {host : AcceptHost} {block : CBlock}
    {n t : FullNode} {pindexNew : CBlockIndex} (hrun : acceptBlock env mode host block n = .ok () t)
    (hnew : t.mapBlockIndex.find (block.getHash env.toEnv) = some pindexNew) :
    Admits env mode host n block pindexNew := by
  rcases acceptBlock_cases env mode host n block with ⟨e, he⟩ | ⟨pindex, h, hcases⟩
  · rw [he] at hrun
    cases hrun
  · rcases hcases with ⟨_, _, _, _, hfail⟩ | ⟨u, hrec, hdone⟩
    · rw [hfail] at hrun
      cases hrun
    · have hsame := (onState_sameIndex
        (recordBlockIndex env.toEnv host.toHost block pindex)).ok hrec
      have hpending : SameIndex u (leaves (acceptPendingSyncCheckpoint env.toEnv host.toHost) u) :=
        (acceptPendingSyncCheckpoint_step u).sameIndex
      rw [hdone] at hrun
      cases hrun
      rw [(hsame.trans _ _ _ hpending).mapBlockIndex, h.entered_find, if_pos h.hash.symm] at hnew
      cases hnew
      exact h

theorem AcceptedChain.later {env : IndexEnv} {b p : CBlockIndex} (h : AcceptedChain env b)
    (hp : b.pprev = some p) :
    p.getMedianTimePast < b.getBlockTime ∧ AcceptedChain env p := by
  cases h with
  | genesis fields => cases hp
  | accepted hrun hnew hprev => exact ⟨(acceptBlock_admits hrun hnew).later hp, hprev p hp⟩

theorem AcceptedChain.ancestor {env : IndexEnv} {c b : CBlockIndex} (h : AcceptedChain env c)
    (hb : b ∈ c.ancestors) : AcceptedChain env b := by
  induction c with
  | genesis fields =>
    rw [List.mem_singleton.mp hb]
    exact h
  | child fields p ih =>
    rcases List.mem_cons.mp hb with rfl | hb
    · exact h
    · exact ih (h.later rfl).2 hb

/-- In a chain of accepted blocks the median time of each block is at least that of its
parent. -/
theorem median_time_never_goes_back {env : IndexEnv} {c : CBlockIndex} (h : AcceptedChain env c)
    (b p : CBlockIndex) (hb : b ∈ c.ancestors) (hp : b.pprev = some p) :
    p.getMedianTimePast ≤ b.getMedianTimePast := by
  obtain ⟨hlater, _⟩ := (h.ancestor hb).later hp
  obtain ⟨fields, rfl⟩ := CBlockIndex.pprev_eq_some hp
  exact median_step fields p hlater

/-- The first block mined, accepted on top of the genesis block. -/
theorem powBlock_median : ∃ b p : CBlockIndex, b.getBlockHash = 400 ∧ b.pprev = some p ∧
    p.getMedianTimePast ≤ b.getMedianTimePast := by
  have hok : fails (acceptBlock (Sample.netEnv false) .STRICT
      (Sample.minedHost (Sample.minedAt 1)) (Sample.powBlock 1)) Sample.rootNode = false := by
    decide +kernel
  have hgenesis : ((leaves (acceptBlock (Sample.netEnv false) .STRICT
      (Sample.minedHost (Sample.minedAt 1)) (Sample.powBlock 1))
        Sample.rootNode).mapBlockIndex.find 400).bind CBlockIndex.pprev =
          some (.genesis Sample.rootFields) := by decide +kernel
  obtain ⟨u, hrun⟩ := ok_of_not_fails hok
  obtain ⟨b, hb, hp⟩ := Option.bind_eq_some_iff.mp hgenesis
  have hchain : AcceptedChain (Sample.netEnv false) b := by
    have hhash : (Sample.powBlock 1).getHash (Sample.netEnv false).toEnv = 400 := by decide
    refine .accepted hrun (hhash ▸ hb) fun p hp' => ?_
    rw [hp] at hp'
    cases hp'
    exact .genesis _
  exact ⟨b, .genesis Sample.rootFields, BlockMap.hash_eq _ hb, hp,
    median_time_never_goes_back hchain b _ b.self_mem_ancestors hp⟩

end Triangles
