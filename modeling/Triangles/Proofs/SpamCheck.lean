import Triangles.Model.ProcessBlock
import Triangles.Proofs.Chain
import Triangles.Proofs.Compact

/-! The extra check of `ProcessBlock` against the targets that a chain above the checkpoint
requires. -/

namespace Triangles

open CBlockIndex

/-- The times of the blocks of a kind, newest first, without the first block. -/
def kindTimes (fProofOfStake : Bool) : CBlockIndex → List Int
  | .genesis _ => []
  | .child f p =>
    if (CBlockIndex.child f p).isProofOfStake = fProofOfStake then
      (CBlockIndex.child f p).getBlockTime :: kindTimes fProofOfStake p
    else kindTimes fProofOfStake p

def timesAbove (fProofOfStake : Bool) (c p : CBlockIndex) : List Int :=
  ((downTo c p).filter fun b => b.isProofOfStake == fProofOfStake).map CBlockIndex.getBlockTime

/-- The bits required after blocks with the times `new`, newest first, from the bits `base` of the
block before them and the times `old` up to it. -/
def bitsFromTimes (env : Env) (fProofOfStake : Bool) (base : UInt32) (old : List Int) :
    List Int → UInt32
  | [] =>
    match old with
    | t :: t' :: _ => retarget env fProofOfStake base (t - t')
    | _ => getCompact (bnTargetLimit fProofOfStake)
  | t :: new =>
    match new ++ old with
    | [] => getCompact (bnTargetLimit fProofOfStake)
    | t' :: _ => retarget env fProofOfStake (bitsFromTimes env fProofOfStake base old new) (t - t')

/-- The bits of every block above `c` are those required on top of its parent. -/
def FollowsTargets (env : Env) (c p : CBlockIndex) : Prop :=
  ∀ b ∈ downTo c p, ∀ q, b.pprev = some q →
    b.fields.nBits = getNextTargetRequired env (some q) b.isProofOfStake

section Times

variable {kind : Bool}

theorem getLastBlockIndex_same {f : BlockFields} {p : CBlockIndex}
    (h : (child f p).isProofOfStake = kind) : getLastBlockIndex kind (child f p) = child f p := by
  rw [getLastBlockIndex, if_neg (not_not.mpr h)]

theorem getLastBlockIndex_other {f : BlockFields} {p : CBlockIndex}
    (h : (child f p).isProofOfStake ≠ kind) :
    getLastBlockIndex kind (child f p) = getLastBlockIndex kind p := by
  rw [getLastBlockIndex, if_pos h]

theorem kindTimes_child (kind : Bool) (f : BlockFields) (p : CBlockIndex) :
    kindTimes kind (child f p) =
      if (child f p).isProofOfStake = kind then (child f p).getBlockTime :: kindTimes kind p
      else kindTimes kind p := rfl

/-- What `GetLastBlockIndex` finds carries the newest time. -/
theorem getLastBlockIndex_times (kind : Bool) (p : CBlockIndex) :
    (∃ f, getLastBlockIndex kind p = .genesis f ∧ kindTimes kind p = []) ∨
    ∃ f q, getLastBlockIndex kind p = .child f q ∧
      kindTimes kind p = (CBlockIndex.child f q).getBlockTime :: kindTimes kind q := by
  induction p with
  | genesis f => exact .inl ⟨f, rfl, rfl⟩
  | child f p ih =>
    rw [kindTimes_child]
    by_cases hk : (CBlockIndex.child f p).isProofOfStake = kind
    · rw [getLastBlockIndex_same hk, if_pos hk]
      exact .inr ⟨f, p, rfl, rfl⟩
    · rw [getLastBlockIndex_other hk, if_neg hk]
      exact ih

/-- The required bits look at the two newest times only. -/
theorem getNextTargetRequired_times (env : Env) (p : CBlockIndex) :
    getNextTargetRequired env (some p) kind =
      match kindTimes kind p with
      | t :: t' :: _ => retarget env kind (getLastBlockIndex kind p).fields.nBits (t - t')
      | _ => getCompact (bnTargetLimit kind) := by
  unfold getNextTargetRequired
  simp only
  rcases getLastBlockIndex_times kind p with ⟨f, hlast, htimes⟩ | ⟨f, q, hlast, htimes⟩
  · rw [hlast, htimes]
  · rw [hlast, htimes]
    rcases getLastBlockIndex_times kind q with ⟨g, hprev, hq⟩ | ⟨g, r, hprev, hq⟩
    · simp only [hprev, hq]
    · simp only [hprev, hq]
      rfl

theorem timesAbove_child {c p : CBlockIndex} {f : BlockFields} (hne : child f p ≠ c) :
    timesAbove kind c (child f p) =
      if (child f p).isProofOfStake = kind then (child f p).getBlockTime :: timesAbove kind c p
      else timesAbove kind c p := by
  unfold timesAbove
  rw [downTo_child hne, List.filter_cons]
  simp only [beq_iff_eq]
  split <;> rfl

theorem timesAbove_append {c p : CBlockIndex} (h : c ∈ p.ancestors) :
    kindTimes kind p = timesAbove kind c p ++ kindTimes kind c := by
  induction p with
  | genesis f =>
    rw [List.mem_singleton.mp h, timesAbove, downTo_self]
    rfl
  | child f p ih =>
    by_cases hne : child f p = c
    · rw [hne, timesAbove, downTo_self]
      rfl
    · have hm := mem_parent_ancestors h hne
      rw [timesAbove_child hne, kindTimes_child, ih hm]
      split <;> rfl

end Times

theorem FollowsTargets.parent {env : Env} {c p : CBlockIndex} {f : BlockFields}
    (h : FollowsTargets env c (child f p)) (hne : child f p ≠ c) : FollowsTargets env c p := by
  intro b hb
  apply h
  rw [downTo_child hne]
  exact List.mem_cons_of_mem _ hb

/-- Above the checkpoint the required bits come from the times alone. -/
theorem required_from_times {env : Env} {c p : CBlockIndex} (h : c ∈ p.ancestors)
    (hrule : FollowsTargets env c p) (kind : Bool) :
    getNextTargetRequired env (some p) kind =
      bitsFromTimes env kind (getLastBlockIndex kind c).fields.nBits (kindTimes kind c)
        (timesAbove kind c p) := by
  induction p with
  | genesis f =>
    rw [List.mem_singleton.mp h, timesAbove, downTo_self]
    exact getNextTargetRequired_times env _
  | child f p ih =>
    by_cases hne : child f p = c
    · rw [hne, timesAbove, downTo_self]
      exact getNextTargetRequired_times env _
    · have hm := mem_parent_ancestors h hne
      have hprev := ih hm (hrule.parent hne)
      rw [timesAbove_child hne]
      by_cases hk : (child f p).isProofOfStake = kind
      · have hbits : f.nBits = getNextTargetRequired env (some p) kind := by
          rw [← hk]
          exact hrule (child f p) (by rw [downTo_child hne]; exact List.mem_cons_self) p rfl
        rw [if_pos hk, getNextTargetRequired_times, kindTimes_child, if_pos hk,
          getLastBlockIndex_same hk, bitsFromTimes, ← timesAbove_append hm, ← hprev, ← hbits]
        cases kindTimes kind p <;> rfl
      · rw [if_neg hk, ← hprev]
        unfold getNextTargetRequired
        simp only [getLastBlockIndex_other hk]

/-! The bound that the check allows. -/

def daysBegun (nTime : Int) : Nat := ((nTime + (24 * 60 * 60 - 1)) / (24 * 60 * 60)).toNat

theorem daysBegun_zero {nTime : Int} (h : nTime ≤ 0) : daysBegun nTime = 0 := by
  unfold daysBegun
  omega

theorem daysBegun_succ {nTime : Int} (h : 0 < nTime) :
    daysBegun nTime = daysBegun (nTime - 24 * 60 * 60) + 1 := by
  unfold daysBegun
  omega

/-- Up to the limit the loop reaches what doubling every day reaches. -/
theorem le_maxBitsLoop (limit target : Int) (ht : target ≤ limit) (rounds : Nat) :
    ∀ (nTime bnResult : Int), nTime ≤ rounds → 0 < bnResult →
      (target ≤ maxBitsLoop limit rounds nTime bnResult ↔
        target ≤ bnResult * 2 ^ daysBegun nTime) := by
  induction rounds with
  | zero =>
    intro nTime bnResult htime _
    rw [daysBegun_zero (by omega), pow_zero, mul_one]
    rfl
  | succ rounds ih =>
    intro nTime bnResult htime hpos
    rw [maxBitsLoop]
    split
    · rename_i h
      rw [ih (nTime - 24 * 60 * 60) (bnResult * 2) (by omega) (by omega), daysBegun_succ h.1,
        pow_succ', ← mul_assoc]
    · rename_i h
      by_cases hzero : nTime ≤ 0
      · rw [daysBegun_zero hzero, pow_zero, mul_one]
      · -- the limit is reached before the time is up
        have hlimit : target ≤ bnResult := by
          by_contra hlt
          exact h ⟨by omega, by omega⟩
        have hgrow : bnResult ≤ bnResult * 2 ^ daysBegun nTime :=
          le_mul_of_one_le_right hpos.le (one_le_pow₀ (by norm_num))
        exact ⟨fun _ => hlimit.trans hgrow, fun _ => hlimit⟩

theorem maxBitsLoop_nonpos {limit : Int} (rounds : Nat) :
    ∀ (nTime bnResult : Int), bnResult ≤ 0 → maxBitsLoop limit rounds nTime bnResult ≤ 0 := by
  induction rounds with
  | zero => exact fun _ _ h => h
  | succ rounds ih =>
    intro nTime bnResult h
    rw [maxBitsLoop]
    split
    · exact ih _ _ (by omega)
    · exact h

theorem setCompact_getCompact_nonpos {n : Int} (h : n ≤ 0) : setCompact (getCompact n) ≤ 0 := by
  rcases h.lt_or_eq with hneg | rfl
  · have hmant := mantissa_lt n.natAbs
    have hbits : (getCompact n).toNat / 2 ^ 23 % 2 = 1 := by
      unfold getCompact
      rw [UInt32.toNat_ofNat', if_pos hneg]
      change (mpiBytes n.natAbs * 2 ^ 24 + 2 ^ 23 + mantissa n.natAbs) % 2 ^ 32 / 2 ^ 23 % 2 = 1
      omega
    unfold setCompact
    simp only [hbits, if_true]
    omega
  · exact le_of_eq (by decide)

/-- Rounding the bound as well makes no difference to a target in compact form. -/
theorem compact_le_compact {n x : Int} (hpos : 0 < n) (hle : n ≤ 2 ^ 248 - 1) (hxpos : 0 < x)
    (hx : x ≤ 2 ^ 248 - 1) :
    setCompact (getCompact n) ≤ setCompact (getCompact x) ↔ setCompact (getCompact n) ≤ x := by
  rw [setCompact_getCompact_target hxpos hx, setCompact_getCompact_target hpos hle]
  have hround := roundCompact_le x.toNat
  constructor
  · intro h
    omega
  · intro h
    exact_mod_cast le_roundCompact (a := n.toNat) (b := x.toNat) (by omega)

/-- Nor does the limit, for a target within it. -/
theorem le_clipped {limit target r : Int} (ht : target ≤ limit) :
    target ≤ (if limit < r then limit else r) ↔ target ≤ r := by
  split <;> omega

/-- A target in compact form is within the bound when it is at most the base, doubled once
and again for every day begun. -/
theorem le_computeMaxBits {n : Int} (hpos : 0 < n) (hle : n ≤ 2 ^ 248 - 1) (nBase : UInt32)
    (nTime : Int) :
    setCompact (getCompact n) ≤ setCompact (computeMaxBits (2 ^ 248 - 1) nBase nTime) ↔
      setCompact (getCompact n) ≤ setCompact nBase * 2 ^ (1 + daysBegun nTime) := by
  obtain ⟨htpos, htle⟩ := compact_range hpos hle
  have hdouble : setCompact nBase * 2 ^ (1 + daysBegun nTime) =
      setCompact nBase * 2 * 2 ^ daysBegun nTime := by
    rw [pow_add, pow_one, mul_assoc]
  rw [hdouble]
  unfold computeMaxBits
  simp only
  by_cases hbase : setCompact nBase ≤ 0
  · have hloop : maxBitsLoop (2 ^ 248 - 1) nTime.toNat nTime (setCompact nBase * 2) ≤ 0 :=
      maxBitsLoop_nonpos _ _ _ (by omega)
    have hright : setCompact nBase * 2 * 2 ^ daysBegun nTime ≤ 0 :=
      mul_nonpos_of_nonpos_of_nonneg (by omega) (by positivity)
    rw [if_neg (by omega)]
    have hleft := setCompact_getCompact_nonpos hloop
    constructor <;> intro h <;> omega
  · have hloop := fun target ht => le_maxBitsLoop (2 ^ 248 - 1) target ht
      nTime.toNat nTime (setCompact nBase * 2) (Int.self_le_toNat nTime) (by omega)
    have hgrow : setCompact nBase * 2 ≤ setCompact nBase * 2 * 2 ^ daysBegun nTime :=
      le_mul_of_one_le_right (by omega) (one_le_pow₀ (by norm_num))
    have hrpos := (hloop 1 (by norm_num)).mpr (by omega)
    rw [← hloop _ htle]
    generalize maxBitsLoop (2 ^ 248 - 1) nTime.toNat nTime (setCompact nBase * 2) = r at hrpos ⊢
    have hxpos : 0 < if 2 ^ 248 - 1 < r then 2 ^ 248 - 1 else r :=
      (le_clipped (by norm_num)).mpr hrpos
    have hx : (if 2 ^ 248 - 1 < r then 2 ^ 248 - 1 else r) ≤ 2 ^ 248 - 1 := by
      split <;> omega
    rw [compact_le_compact hpos hle hxpos hx, le_clipped htle]

theorem tooLittleProof_eq (c : CBlockIndex) (block : CBlock) :
    tooLittleProof c block =
      decide (setCompact (computeMaxBits (2 ^ 248 - 1)
        (getLastBlockIndex block.isProofOfStake c).fields.nBits
        (block.getBlockTime - c.getBlockTime)) < setCompact block.nBits) := by
  unfold tooLittleProof
  cases block.isProofOfStake <;> rfl

/-- A block with the required bits, on a chain above the checkpoint that has them too, passes
the check exactly when the target that the retargets since the checkpoint come to is at
most the target before it, doubled once and again for every day begun. -/
theorem spam_check_passes_iff {env : Env} {c p : CBlockIndex} {block : CBlock}
    (hext : c ∈ p.ancestors) (hrule : FollowsTargets env c p)
    (hbits : block.nBits = getNextTargetRequired env (some p) block.isProofOfStake) :
    tooLittleProof c block = false ↔
      setCompact (bitsFromTimes env block.isProofOfStake
          (getLastBlockIndex block.isProofOfStake c).fields.nBits (kindTimes block.isProofOfStake c)
          (timesAbove block.isProofOfStake c p)) ≤
        setCompact (getLastBlockIndex block.isProofOfStake c).fields.nBits *
          2 ^ (1 + daysBegun (block.getBlockTime - c.getBlockTime)) := by
  obtain ⟨n, hpos, hle, hn⟩ := nextTarget_range env (some p) block.isProofOfStake
  rw [← required_from_times hext hrule, tooLittleProof_eq, hbits, hn, decide_eq_false_iff_not,
    not_lt]
  exact le_computeMaxBits hpos hle _ _

namespace Sample

/-- A chain of proof-of-work blocks with the given times, newest first, and the required bits. -/
def minedChain : List UInt32 → CBlockIndex
  | [] => genesisIndex
  | t :: times =>
    .child { fieldsOf t.toNat t t 0 with
      nBits := getNextTargetRequired (env []) (some (minedChain times)) false } (minedChain times)

theorem minedChain_isProofOfStake (t : UInt32) (times : List UInt32) :
    (minedChain (t :: times)).isProofOfStake = false := by
  change ((0 : UInt32) &&& 1 != 0) = false
  decide

theorem minedChain_mem (new times : List UInt32) :
    minedChain times ∈ (minedChain (new ++ times)).ancestors := by
  induction new with
  | nil => exact self_mem_ancestors _
  | cons t new ih => exact List.mem_cons_of_mem _ ih

theorem minedChain_rule (times : List UInt32) : ∀ b ∈ (minedChain times).ancestors, ∀ q,
    b.pprev = some q → b.fields.nBits = getNextTargetRequired (env []) (some q) b.isProofOfStake := by
  induction times with
  | nil =>
    intro b hb q hq
    rw [List.mem_singleton.mp hb] at hq
    cases hq
  | cons t times ih =>
    intro b hb q hq
    rcases List.mem_cons.mp hb with rfl | hb
    · cases hq
      rw [← minedChain, minedChain_isProofOfStake]
      rfl
    · exact ih b hb q hq

theorem minedChain_follows (c : CBlockIndex) (times : List UInt32) :
    FollowsTargets (env []) c (minedChain times) :=
  fun b hb => minedChain_rule times b (List.takeWhile_subset _ hb)

def quickTimes : List UInt32 := (List.range 20).reverse.map fun i => UInt32.ofNat (i + 1)

def minedBlock (times : List UInt32) (t : UInt32) : CBlock :=
  { blockOf (minedChain times).getBlockHash t [coinbase t 0] with
    nBits := getNextTargetRequired (env []) (some (minedChain times)) false }

theorem minedBlock_bits (times : List UInt32) (t : UInt32) :
    (minedBlock times t).nBits = getNextTargetRequired (env []) (some (minedChain times))
      (minedBlock times t).isProofOfStake := rfl

def timely (p : CBlockIndex) (nTime : Int) : Bool :=
  decide (p.getMedianTimePast < nTime) && decide (p.getBlockTime ≤ futureDrift nTime)

end Sample

/-- Blocks that come every second pass. -/
theorem quick_block_passes :
    tooLittleProof (Sample.minedChain Sample.quickTimes)
      (Sample.minedBlock (21 :: Sample.quickTimes) 22) = false := by
  have hrule := Sample.minedChain_follows (Sample.minedChain Sample.quickTimes)
    (21 :: Sample.quickTimes)
  refine (spam_check_passes_iff (Sample.minedChain_mem [21] _) hrule
    (Sample.minedBlock_bits _ _)).mpr ?_
  decide +kernel

/-- A block comes a day after the checkpoint, and the one that follows two minutes later has a
target that is over the bound. All targets are those required, and all times are allowed. -/
theorem block_after_slow_day_refused :
    FollowsTargets (Sample.env []) Sample.genesisIndex
        (Sample.minedChain (86420 :: Sample.quickTimes)) ∧
    Sample.minedChain Sample.quickTimes ∈
      (Sample.minedChain (86420 :: Sample.quickTimes)).ancestors ∧
    ((Sample.minedChain (86420 :: Sample.quickTimes)).ancestors.all fun b =>
      b.pprev.all fun q => Sample.timely q b.getBlockTime) = true ∧
    (Sample.minedBlock (86420 :: Sample.quickTimes) 86540).nBits =
      getNextTargetRequired (Sample.env [])
        (some (Sample.minedChain (86420 :: Sample.quickTimes)))
        (Sample.minedBlock (86420 :: Sample.quickTimes) 86540).isProofOfStake ∧
    Sample.timely (Sample.minedChain (86420 :: Sample.quickTimes)) 86540 = true ∧
    tooLittleProof (Sample.minedChain Sample.quickTimes)
      (Sample.minedBlock (86420 :: Sample.quickTimes) 86540) = true := by
  refine ⟨Sample.minedChain_follows _ _, Sample.minedChain_mem [86420] _, ?_,
    Sample.minedBlock_bits _ _, ?_, ?_⟩
  · decide
  · decide
  · decide +kernel

end Triangles
