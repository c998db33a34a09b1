import Triangles.Proofs.StakeModifier

/-! What the proof-of-stake verdict on a block takes from the best chain: the height of its
end, and the block above the staked output whose modifier it uses. -/

namespace Triangles

open Outcome CBlockIndex

namespace State

def successors (s : State) : Nat → CBlockIndex → List CBlockIndex
  | 0, _ => []
  | rounds + 1, pindex =>
    match s.pnext pindex with
    | none => []
    | some next => next :: s.successors rounds next

def isLateModifier (nStop : Int) (pindex : CBlockIndex) : Bool :=
  pindex.generatedStakeModifier && decide (nStop ≤ pindex.getBlockTime)

/-- The walk finds the first late modifier above the block it starts from. -/
theorem walkToModifier_ok {s : State} {nStop : Int} {b : CBlockIndex} {rounds : Nat}
    {pindex : CBlockIndex} {nTime : Int} (ht : nTime < nStop) :
    s.walkToModifier nStop rounds pindex nTime = .ok b ↔
      (s.successors rounds pindex).find? (isLateModifier nStop) = some b := by
  induction rounds generalizing pindex nTime with
  | zero => simp [walkToModifier, successors, ht]
  | succ rounds ih =>
    unfold walkToModifier successors
    cases hn : s.pnext pindex with
    | none => simp [ht]
    | some next =>
      simp only [ht, ↓reduceIte]
      by_cases hl : isLateModifier nStop next = true
      · have hparts : next.generatedStakeModifier = true ∧ nStop ≤ next.getBlockTime := by
          simpa [isLateModifier] using hl
        rw [List.find?_cons_of_pos hl, if_pos hparts.1]
        cases rounds <;> simp [walkToModifier, not_lt.mpr hparts.2]
      · rw [List.find?_cons_of_neg hl]
        apply ih
        -- an early modifier, or none: the time reached stays below the stop
        split
        · rename_i hg
          by_contra hle
          exact hl (by simp [isLateModifier, hg, not_lt.mp hle])
        · exact ht

/-- Where the links are those of a chain, its height is rounds enough: the walk ends before
the bound does. -/
theorem walkToModifier_bound {s : State} {m : CBlockIndex} (hl : LinkedTo s.pnext m) (nStop : Int)
    (k : Nat) {rounds : Nat} {pindex : CBlockIndex} (nTime : Int)
    (hh : m.nHeight ≤ rounds + pindex.nHeight) :
    s.walkToModifier nStop (rounds + k) pindex nTime =
      s.walkToModifier nStop rounds pindex nTime := by
  induction rounds generalizing pindex nTime with
  | zero =>
    have hnone : s.pnext pindex = none := by
      cases hn : s.pnext pindex with
      | none => rfl
      | some next =>
        obtain ⟨hm, hp⟩ := (hl pindex next).mp hn
        obtain ⟨f, rfl⟩ := pprev_eq_some hp
        have := mem_ancestors_height hm
        simp only [nHeight] at this
        omega
    cases k with
    | zero => rfl
    | succ k => simp [walkToModifier, hnone]
  | succ rounds ih =>
    rw [Nat.add_right_comm]
    unfold walkToModifier
    cases hn : s.pnext pindex with
    | none => rfl
    | some next =>
      obtain ⟨_, hp⟩ := (hl pindex next).mp hn
      obtain ⟨f, rfl⟩ := pprev_eq_some hp
      have hup : m.nHeight ≤ rounds + (child f pindex).nHeight := by
        simp only [nHeight]
        omega
      simp only [ih _ hup]

end State

/-- The block whose modifier the kernel uses: the first one of the best chain above
`pindexFrom` that generated a modifier two modifier intervals or more later. -/
def kernelBlock (env : Env) (s : State) (pindexFrom : CBlockIndex) : Option CBlockIndex :=
  (s.successors s.nHeightBest.toNat pindexFrom).find?
    (State.isLateModifier (pindexFrom.getBlockTime + 2 * nModifierInterval env))

theorem nModifierInterval_pos (env : Env) : 0 < nModifierInterval env := by
  unfold nModifierInterval
  split <;> decide

theorem getKernelStakeModifier_ok {env : Env} {host : Host} {mapBlockIndex : BlockMap} {s : State}
    {hash : uint256} {fPrint : Bool} {nStakeModifier : UInt64} :
    getKernelStakeModifier env host mapBlockIndex s hash fPrint = .ok nStakeModifier ↔
      ∃ b, (mapBlockIndex.find hash).bind (kernelBlock env s) = some b ∧
        b.fields.nStakeModifier = nStakeModifier := by
  unfold getKernelStakeModifier
  cases hf : mapBlockIndex.find hash with
  | none => simp
  | some pindexFrom =>
    have hlt : pindexFrom.getBlockTime <
        pindexFrom.getBlockTime + 2 * (nModifierInterval env : Int) := by
      have := nModifierInterval_pos env
      omega
    simp only [Option.bind_some, kernelBlock, ← State.walkToModifier_ok hlt]
    cases hw : s.walkToModifier (pindexFrom.getBlockTime + 2 * (nModifierInterval env : Int))
        s.nHeightBest.toNat pindexFrom pindexFrom.getBlockTime with
    | ok b => simp
    | error last =>
      simp only [reduceCtorEq, false_and, exists_false, iff_false]
      split <;> simp

/-- What a coinstake is checked with: its first input, the transaction it spends and the
block of that transaction. -/
structure Kernel where
  prevout : COutPoint
  txPrev : CTransaction
  nTxPrevOffset : UInt32
  blockFrom : CBlockHeader
deriving DecidableEq

def kernelOf (env : Env) (s : State) (tx : CTransaction) : Option Kernel :=
  match tx.isCoinStake, tx.vin with
  | true, txin :: _ =>
    match readTxFromDisk env ⟨s.txdb.committed, none⟩ txin.prevout with
    | none => none
    | some (txPrev, txindex) =>
      match env.readHeader txindex.pos.nFile txindex.pos.nBlockPos with
      | none => none
      | some block =>
        if txPrev.nTime ≤ tx.nTime ∧ block.nTime + UInt32.ofNat (nStakeMinAge env) ≤ tx.nTime then
          some ⟨txin.prevout, txPrev, txindex.pos.nTxPos - txindex.pos.nBlockPos, block⟩
        else none
  | _, _ => none

namespace Kernel

/-- The block whose modifier a node uses for the kernel, when it accepts the signature. -/
def seenBlock (env : Env) (mapBlockIndex : BlockMap) (s : State) (tx : CTransaction) (k : Kernel) :
    Option CBlockIndex :=
  if verifySignature env s.nHeightBest k.txPrev tx 0 then
    (mapBlockIndex.find (env.hash9 k.blockFrom)).bind (kernelBlock env s)
  else none

def hashWith (env : Env) (tx : CTransaction) (k : Kernel) (b : CBlockIndex) : uint256 :=
  env.hashKernel b.fields.nStakeModifier k.blockFrom.nTime k.nTxPrevOffset k.txPrev.nTime
    k.prevout.n tx.nTime

def target (env : Env) (tx : CTransaction) (nBits : UInt32) (k : Kernel) : Int :=
  stakeTarget env nBits k.txPrev k.prevout tx.nTime

end Kernel

section Verdict

variable {env : Env} {host : Host} {mapBlockIndex : BlockMap} {s : State} {tx : CTransaction}
  {nBits : UInt32} {fDebug : Bool}

/-- Whether `CheckProofOfStake` returns false, and the hash it leaves behind. -/
def stakeVerdict (env : Env) (host : Host) (mapBlockIndex : BlockMap) (s : State)
    (tx : CTransaction) (nBits : UInt32) (fDebug : Bool) : Bool × uint256 :=
  (fails (checkProofOfStake env host mapBlockIndex s tx nBits fDebug) {},
    (leaves (checkProofOfStake env host mapBlockIndex s tx nBits fDebug) {}).hashProofOfStake)

def verdictOf (r : EStateM.Result Reject ProofOut Unit) : Bool × uint256 :=
  match r with
  | .ok _ out => (false, out.hashProofOfStake)
  | .error _ out => (true, out.hashProofOfStake)

theorem stakeVerdict_run : stakeVerdict env host mapBlockIndex s tx nBits fDebug =
    verdictOf (checkProofOfStake env host mapBlockIndex s tx nBits fDebug {}) := by
  unfold stakeVerdict verdictOf fails leaves
  cases checkProofOfStake env host mapBlockIndex s tx nBits fDebug {} <;> rfl

theorem verdictOf_failsAs (e : Reject) (x : EStateM Reject ProofOut Unit) (out : ProofOut) :
    verdictOf (failsAs e x out) = verdictOf (x out) := by
  unfold failsAs
  cases x out <;> rfl

theorem checkStakeKernelHash_verdict {blockFrom : CBlockHeader} {nTxPrevOffset : UInt32}
    {txPrev : CTransaction} {prevout : COutPoint} {nTimeTx : UInt32} :
    verdictOf (checkStakeKernelHash env host mapBlockIndex s nBits blockFrom nTxPrevOffset txPrev
      prevout nTimeTx fDebug {}) =
    if txPrev.nTime ≤ nTimeTx ∧ blockFrom.nTime + UInt32.ofNat (nStakeMinAge env) ≤ nTimeTx then
      match (mapBlockIndex.find (env.hash9 blockFrom)).bind (kernelBlock env s) with
      | none => (true, 0)
      | some b =>
        let hash := env.hashKernel b.fields.nStakeModifier blockFrom.nTime nTxPrevOffset
          txPrev.nTime prevout.n nTimeTx
        (!(decide ((hash : Int) ≤ stakeTarget env nBits txPrev prevout nTimeTx) ||
          decide (s.nHeightBest ≤ CRAPCHAIN_CUTOFF_BLOCK)), hash)
    else (true, 0) := by
  unfold checkStakeKernelHash
  rw [lift_check_bind]
  by_cases ht : txPrev.nTime ≤ nTimeTx
  · rw [lift_check_bind]
    by_cases ha : blockFrom.nTime + UInt32.ofNat (nStakeMinAge env) ≤ nTimeTx
    · simp only [ht, ha, decide_true, ↓reduceIte, and_self]
      cases hm : getKernelStakeModifier env host mapBlockIndex s (env.hash9 blockFrom) fDebug with
      | error e =>
        have hnone : (mapBlockIndex.find (env.hash9 blockFrom)).bind (kernelBlock env s) = none := by
          by_contra hne
          obtain ⟨b, hb⟩ := Option.ne_none_iff_exists'.mp hne
          rw [getKernelStakeModifier_ok.mpr ⟨b, hb, rfl⟩] at hm
          cases hm
        rw [hnone]
        rfl
      | ok m =>
        obtain ⟨b, hb, rfl⟩ := getKernelStakeModifier_ok.mp hm
        rw [hb, modify_bind, lift_ok_bind, modify_bind]
        cases hc : decide ((env.hashKernel b.fields.nStakeModifier blockFrom.nTime nTxPrevOffset
            txPrev.nTime prevout.n nTimeTx : Int) ≤ stakeTarget env nBits txPrev prevout nTimeTx) ||
            decide (s.nHeightBest ≤ CRAPCHAIN_CUTOFF_BLOCK) <;>
          simp only [hc] <;> rfl
    · simp [ht, ha, verdictOf]
  · simp [ht, verdictOf]

theorem stakeVerdict_eq : stakeVerdict env host mapBlockIndex s tx nBits fDebug =
    match kernelOf env s tx with
    | none => (true, 0)
    | some k =>
      match k.seenBlock env mapBlockIndex s tx with
      | none => (true, 0)
      | some b => (!(decide ((k.hashWith env tx b : Int) ≤ k.target env tx nBits) ||
          decide (s.nHeightBest ≤ CRAPCHAIN_CUTOFF_BLOCK)), k.hashWith env tx b) := by
  rw [stakeVerdict_run]
  unfold checkProofOfStake kernelOf
  rw [lift_check_bind]
  cases hc : tx.isCoinStake with
  | false => rfl
  | true =>
    cases hv : tx.vin with
    | nil => rfl
    | cons txin rest =>
      simp only [↓reduceIte]
      cases hr : readTxFromDisk env ⟨s.txdb.committed, none⟩ txin.prevout with
      | none => rfl
      | some prev =>
        obtain ⟨txPrev, txindex⟩ := prev
        simp only [lift_check_bind]
        cases hh : env.readHeader txindex.pos.nFile txindex.pos.nBlockPos with
        | none => split <;> rfl
        | some block =>
          by_cases hold : txPrev.nTime ≤ tx.nTime ∧
              block.nTime + UInt32.ofNat (nStakeMinAge env) ≤ tx.nTime
          · simp only [if_pos hold, Kernel.seenBlock]
            split
            · rw [verdictOf_failsAs, checkStakeKernelHash_verdict, if_pos hold]
              rfl
            · rfl
          · simp only [if_neg hold]
            split
            · rw [verdictOf_failsAs, checkStakeKernelHash_verdict, if_neg hold]
            · rfl

/-- Two nodes with the same index entry for the first input see the same kernel. -/
theorem kernelOf_congr {s' : State}
    (h : ∀ txin, tx.vin.head? = some txin →
      s.txdb.committed (.tx txin.prevout.hash) = s'.txdb.committed (.tx txin.prevout.hash)) :
    kernelOf env s tx = kernelOf env s' tx := by
  unfold kernelOf
  cases tx.isCoinStake with
  | false => rfl
  | true =>
    cases hv : tx.vin with
    | nil => rfl
    | cons txin rest =>
      have hread : readTxFromDisk env ⟨s.txdb.committed, none⟩ txin.prevout =
          readTxFromDisk env ⟨s'.txdb.committed, none⟩ txin.prevout := by
        have := h txin (by simp [hv])
        simp only [readTxFromDisk, CTxDB.readTxIndex, Batch.Db.read, this]
      simp only [hread]

end Verdict

/-- A kernel hash that a node refuses is left as 0 only under a negative target. -/
theorem refused_zero_iff {h : uint256} {target nHeight : Int} :
    ((true, 0) : Bool × uint256) =
        (!(decide ((h : Int) ≤ target) || decide (nHeight ≤ CRAPCHAIN_CUTOFF_BLOCK)), h) ↔
      target < 0 ∧ h = 0 ∧ CRAPCHAIN_CUTOFF_BLOCK < nHeight := by
  simp only [Prod.mk.injEq, Bool.true_eq, Bool.not_eq_true', Bool.or_eq_false_iff,
    decide_eq_false_iff_not, not_le]
  constructor
  · intro h
    obtain ⟨⟨ht, hh⟩, rfl⟩ := h
    exact ⟨by simpa using ht, rfl, hh⟩
  · intro h
    obtain ⟨ht, rfl, hh⟩ := h
    exact ⟨⟨by simpa using ht, hh⟩, rfl⟩

/-- Two nodes come to the same verdict on a kernel: neither finds a modifier for it, or both
find modifiers with the same kernel hash and that hash meets the target or their best
blocks are on the same side of the cutoff. A negative target leaves a further case, a hash of 0 that is
refused by the node that computes it. -/
def AgreeOnKernel (env : Env) (mapBlockIndex mapBlockIndex' : BlockMap) (s s' : State)
    (tx : CTransaction) (nBits : UInt32) (k : Kernel) : Prop :=
  let seen := k.seenBlock env mapBlockIndex s tx
  let seen' := k.seenBlock env mapBlockIndex' s' tx
  (seen = none ∧ seen' = none) ∨
  (∃ b b', seen = some b ∧ seen' = some b' ∧ k.hashWith env tx b = k.hashWith env tx b' ∧
    ((k.hashWith env tx b : Int) ≤ k.target env tx nBits ∨
      (s.nHeightBest ≤ CRAPCHAIN_CUTOFF_BLOCK ↔ s'.nHeightBest ≤ CRAPCHAIN_CUTOFF_BLOCK))) ∨
  (k.target env tx nBits < 0 ∧ ∃ b, k.hashWith env tx b = 0 ∧
    (seen = some b ∧ seen' = none ∧ CRAPCHAIN_CUTOFF_BLOCK < s.nHeightBest ∨
      seen = none ∧ seen' = some b ∧ CRAPCHAIN_CUTOFF_BLOCK < s'.nHeightBest))

/-- Two nodes that have the same index entry and the same block for the staked output give
the same proof-of-stake verdict and the same kernel hash exactly when the coinstake fails
a check that does not look at the best chain, or their best chains agree on the kernel. -/
theorem stake_verdict_same_iff {env : Env} {host host' : Host}
    {mapBlockIndex mapBlockIndex' : BlockMap} {s s' : State} {tx : CTransaction} {nBits : UInt32}
    {fDebug fDebug' : Bool}
    (htx : ∀ txin, tx.vin.head? = some txin →
      s.txdb.committed (.tx txin.prevout.hash) = s'.txdb.committed (.tx txin.prevout.hash)) :
    stakeVerdict env host mapBlockIndex s tx nBits fDebug =
        stakeVerdict env host' mapBlockIndex' s' tx nBits fDebug' ↔
      ∀ k, kernelOf env s tx = some k → AgreeOnKernel env mapBlockIndex mapBlockIndex' s s' tx nBits k := by
  rw [stakeVerdict_eq, stakeVerdict_eq, ← kernelOf_congr htx]
  cases hk : kernelOf env s tx with
  | none => simp
  | some k =>
    simp only [Option.some.injEq, forall_eq', AgreeOnKernel]
    cases hseen : k.seenBlock env mapBlockIndex s tx with
    | none =>
      cases hseen' : k.seenBlock env mapBlockIndex' s' tx with
      | none => simp
      | some b' =>
        rw [refused_zero_iff]
        simp
    | some b =>
      cases hseen' : k.seenBlock env mapBlockIndex' s' tx with
      | none =>
        rw [eq_comm, refused_zero_iff]
        simp
      | some b' =>
        simp only [Prod.mk.injEq, Option.some.injEq, exists_and_left, exists_eq_left', reduceCtorEq,
          false_and, and_false, exists_false, or_false, false_or]
        constructor
        · intro h
          obtain ⟨hv, hh⟩ := h
          refine ⟨hh, ?_⟩
          rw [← hh] at hv
          by_cases ht : (k.hashWith env tx b : Int) ≤ k.target env tx nBits
          · exact .inl ht
          · exact .inr (by simpa [ht] using hv)
        · intro h
          obtain ⟨hh, hcase⟩ := h
          refine ⟨?_, hh⟩
          rw [← hh]
          rcases hcase with ht | hside
          · simp [ht]
          · simp [hside]

namespace Sample

/-- A block with an output to stake, and two branches above it: one generates a modifier ten
minutes later, the other has only come to a block that does not. -/
def stakedBlock : CBlock := blockOf hashGenesisBlock 1000 [coinbase 1000 COIN]

def stakedIndex : CBlockIndex := .child (fieldsOf 1000 1000 1000 2) genesisIndex

def modifierIndex : CBlockIndex :=
  .child { fieldsOf 1600 1600 2000 3 with nFlags := 4, nStakeModifier := 7 } stakedIndex

def laterIndex : CBlockIndex := .child (fieldsOf 1700 1700 3000 4) modifierIndex

def otherIndex : CBlockIndex := .child (fieldsOf 1100 1100 4000 5) stakedIndex

def stakeEnv : Env := env [(stakedIndex, stakedBlock)]

def stakeMap : BlockMap :=
  mapOf [genesisIndex, stakedIndex, modifierIndex, laterIndex, otherIndex] (by decide)

def coinstake : CTransaction where
  nTime := 5000
  vin := [{ prevout := ⟨1000, 0⟩, scriptSig := opTrue }]
  vout := [⟨0, []⟩, ⟨COIN, opTrue⟩]

def stakeNode (chain : List CBlockIndex) (tip : CBlockIndex) : State :=
  let s := nodeWith fun h =>
    if h = 1000 then some (.fresh (stakedIndex.posOf (firstTxPos stakedBlock stakedIndex false)) 1)
    else none
  (chain.foldl State.link s).newBest tip.getBlockHash tip

def stakeKernel : Kernel where
  prevout := ⟨1000, 0⟩
  txPrev := coinbase 1000 COIN
  nTxPrevOffset := firstTxPos stakedBlock stakedIndex false - 1000
  blockFrom := stakedBlock.toCBlockHeader

def stakeHost : Host := { nAdjustedTime := 6000 }

end Sample

/-- A node that has gone on from the modifier's block gives the verdict that its parent's
node gives. -/
theorem coinstake_same_verdict :
    stakeVerdict Sample.stakeEnv Sample.stakeHost Sample.stakeMap
        (Sample.stakeNode [Sample.stakedIndex, Sample.modifierIndex] Sample.modifierIndex)
        Sample.coinstake 0x1d00ffff false =
      stakeVerdict Sample.stakeEnv Sample.stakeHost Sample.stakeMap
        (Sample.stakeNode [Sample.stakedIndex, Sample.modifierIndex, Sample.laterIndex]
          Sample.laterIndex) Sample.coinstake 0x1d00ffff false := by
  refine (stake_verdict_same_iff ?_).mpr ?_
  · intro _ _
    rfl
  · intro k hk
    have hkernel : kernelOf Sample.stakeEnv
        (Sample.stakeNode [Sample.stakedIndex, Sample.modifierIndex] Sample.modifierIndex)
        Sample.coinstake = some Sample.stakeKernel := by decide
    cases hk.symm.trans hkernel
    exact .inr (.inl ⟨Sample.modifierIndex, Sample.modifierIndex, by decide,
      by decide, rfl, .inr (by decide)⟩)

/-- A node whose best chain is the other branch refuses the coinstake that the first accepts. -/
theorem coinstake_verdict_differs :
    (stakeVerdict Sample.stakeEnv Sample.stakeHost Sample.stakeMap
        (Sample.stakeNode [Sample.stakedIndex, Sample.modifierIndex] Sample.modifierIndex)
        Sample.coinstake 0x1d00ffff false).1 = false ∧
      (stakeVerdict Sample.stakeEnv Sample.stakeHost Sample.stakeMap
        (Sample.stakeNode [Sample.stakedIndex, Sample.otherIndex] Sample.otherIndex)
        Sample.coinstake 0x1d00ffff false).1 = true := by
  decide

end Triangles
