import Mathlib.Tactic.Linarith
import Triangles.Proofs.Compact
import Triangles.Proofs.Undo

/-! Targets: the compact form of every number below 2^256, and the way retargeting moves. -/

namespace Triangles

/-- Every number below 2^256 is rounded down to its three highest bytes, and the compact form
of a number whose byte count fits its byte is read and written again unchanged. -/
theorem compact_form_rounds :
    (∀ x : Nat, x < 2 ^ 256 → ∃ y : Nat, setCompact (getCompact x) = y ∧
      IsGreatest {k | 256 ^ (mpiBytes x - 3) ∣ k ∧ k ≤ x} y ∧
      (mpiBytes x ≤ 3 → y = x) ∧ y ≤ x ∧ (x ≠ 0 → y ≠ 0) ∧
      ∀ x', x ≤ x' → x' < 2 ^ 256 → (y : Int) ≤ setCompact (getCompact x')) ∧
    ∀ n : Int, mpiBytes n.natAbs ≤ 255 → getCompact (setCompact (getCompact n)) = getCompact n := by
  have hbytes : ∀ {x : Nat}, x < 2 ^ 256 → mpiBytes x ≤ 255 := by
    intro x hx
    have hsize : Nat.size x ≤ 256 := Nat.size_le.mpr hx
    unfold mpiBytes
    split <;> omega
  refine ⟨?_, fun n hn => getCompact_setCompact hn⟩
  intro x hx
  refine ⟨roundCompact x, setCompact_getCompact (hbytes hx), roundCompact_isGreatest x,
    roundCompact_of_le, roundCompact_le x, ?_, ?_⟩
  · intro hne
    exact (roundCompact_pos (Nat.pos_of_ne_zero hne)).ne'
  · intro x' hle hx'
    rw [setCompact_getCompact (hbytes hx')]
    exact Int.ofNat_le.mpr (roundCompact_mono hle)

theorem getCompact_pow {k : Nat} (hk : 3 ≤ k) :
    getCompact ((256 ^ k : Nat) : Int) = UInt32.ofNat ((k + 1) * 2 ^ 24 + 2 ^ 16) := by
  have hpow : 256 ^ k = 2 ^ (8 * k) := by rw [Nat.pow_mul]
  have hsize : mpiBytes (256 ^ k) = k + 1 := by
    rw [mpiBytes, if_neg (Nat.pow_pos (by decide)).ne', hpow, Nat.size_pow]
    omega
  have hword : 256 ^ k / 256 ^ (k + 1 - 3) = 2 ^ 16 := by
    rw [Nat.pow_div (by omega) (by decide), show k - (k + 1 - 3) = 2 by omega]
    rfl
  have hneg : ¬ ((256 ^ k : Nat) : Int) < 0 := Int.not_lt.mpr (Int.natCast_nonneg _)
  have hlong : ¬ k + 1 ≤ 3 := by omega
  simp only [getCompact, Int.natAbs_natCast, hsize, if_neg hneg, if_neg hlong, hword,
    Nat.add_zero]

/-- The least number of 256 bytes: its byte count does not fit, and its compact form is not
that of the number it is read as. -/
theorem compact_form_overflows :
    getCompact (setCompact (getCompact ((256 ^ 255 : Nat) : Int))) ≠
      getCompact ((256 ^ 255 : Nat) : Int) := by
  rw [getCompact_pow (by decide)]
  decide

/-! Retargeting: the next target against the last one of its kind and the time it took. -/

/-- The last two blocks of a kind as `GetNextTargetRequired` finds them; the second walk ends
at the first block of the chain whatever that is. -/
structure LastTwo (fProofOfStake : Bool) (pindexLast pindexPrev pindexPrevPrev : CBlockIndex) :
    Prop where
  prev : getLastBlockIndex fProofOfStake pindexLast = pindexPrev
  prevPrev : ∃ p, pindexPrev.pprev = some p ∧ getLastBlockIndex fProofOfStake p = pindexPrevPrev

def countedSpacing (env : Env) (pindexPrev pindexPrevPrev : CBlockIndex) : Int :=
  let nActualSpacing := pindexPrev.getBlockTime - pindexPrevPrev.getBlockTime
  if nActualSpacing < 0 then nTargetSpacing env else nActualSpacing

def nInterval (env : Env) : Int := nTargetTimespan / nTargetSpacing env

def movedTarget (env : Env) (T nSpacing : Int) : Int :=
  T * ((nInterval env - 1) * nTargetSpacing env + nSpacing + nSpacing) /
    ((nInterval env + 1) * nTargetSpacing env)

section
variable {env : Env} {fProofOfStake : Bool}

variable (env) in
theorem nTargetSpacing_pos : 0 < nTargetSpacing env := by
  unfold nTargetSpacing
  split <;> decide

variable (env) in
theorem countedSpacing_nonneg (p q : CBlockIndex) : 0 ≤ countedSpacing env p q := by
  have hpos := nTargetSpacing_pos env
  unfold countedSpacing
  dsimp only
  split <;> omega

variable (env) in
theorem nInterval_ge : 15 ≤ nInterval env := by
  unfold nInterval nTargetSpacing
  split <;> decide

/-- A target of two or more that is moved all the way down is still a target. -/
theorem lowered_pos {T : Int} (hT : 2 ≤ T) :
    0 < T * (nInterval env - 1) / (nInterval env + 1) := by
  have hI := nInterval_ge env
  have hmul : 2 * (nInterval env - 1) ≤ T * (nInterval env - 1) :=
    Int.mul_le_mul_of_nonneg_right hT (by omega)
  have hone : 1 ≤ T * (nInterval env - 1) / (nInterval env + 1) :=
    (Int.le_ediv_iff_mul_le (by omega)).mpr (by omega)
  omega

theorem movedTarget_mono {T s s' : Int} (hT : 0 ≤ T) (h : s ≤ s') :
    movedTarget env T s ≤ movedTarget env T s' := by
  have hS := nTargetSpacing_pos env
  have hI := nInterval_ge env
  unfold movedTarget
  apply Int.ediv_le_ediv (Int.mul_pos (by omega) hS)
  exact Int.mul_le_mul_of_nonneg_left (by omega) hT

/-- With no time between the blocks the target moves all the way down. -/
theorem movedTarget_zero {T : Int} :
    movedTarget env T 0 = T * (nInterval env - 1) / (nInterval env + 1) := by
  have hS := nTargetSpacing_pos env
  rw [movedTarget, Int.add_zero, Int.add_zero, ← Int.mul_assoc,
    Int.mul_ediv_mul_of_pos_left _ _ hS]

theorem movedTarget_spacing {T : Int} : movedTarget env T (nTargetSpacing env) = T := by
  have hS := nTargetSpacing_pos env
  have hI := nInterval_ge env
  have hsum : (nInterval env - 1) * nTargetSpacing env + nTargetSpacing env + nTargetSpacing env =
      (nInterval env + 1) * nTargetSpacing env := by
    rw [Int.sub_mul, Int.add_mul]
    omega
  rw [movedTarget, hsum]
  exact Int.mul_ediv_cancel _ (Int.mul_pos (by omega) hS).ne'

theorem movedTarget_pos {T s : Int} (hT : 2 ≤ T) (hs : 0 ≤ s) : 0 < movedTarget env T s := by
  have hlow : 0 < movedTarget env T 0 := by
    rw [movedTarget_zero]
    exact lowered_pos hT
  exact hlow.trans_le (movedTarget_mono (by omega) hs)

theorem clamp_eq {bnNew bnLimit : Int} (h : 0 < bnNew) :
    (if bnNew ≤ 0 ∨ bnLimit < bnNew then getCompact bnLimit else getCompact bnNew) =
      getCompact (min bnNew bnLimit) := by
  by_cases hover : bnLimit < bnNew
  · rw [if_pos (.inr hover), Int.min_eq_right hover.le]
  · rw [if_neg (by omega), Int.min_eq_left (by omega)]

/-- One retarget is the moved target, held within the limit. -/
theorem retarget_eq {nBits : UInt32} {p q : CBlockIndex} (hT : 2 ≤ setCompact nBits) :
    retarget env fProofOfStake nBits (p.getBlockTime - q.getBlockTime) =
      getCompact (min (movedTarget env (setCompact nBits) (countedSpacing env p q))
        (bnTargetLimit fProofOfStake)) := by
  have hS := nTargetSpacing_pos env
  have hI := nInterval_ge env
  have hs := countedSpacing_nonneg env p q
  have hnum : 0 ≤ setCompact nBits * ((nInterval env - 1) * nTargetSpacing env +
      countedSpacing env p q + countedSpacing env p q) := by
    have hmul : 0 ≤ (nInterval env - 1) * nTargetSpacing env :=
      Int.mul_nonneg (by omega) hS.le
    exact Int.mul_nonneg (by omega) (by omega)
  have hmoved : (setCompact nBits * ((nInterval env - 1) * nTargetSpacing env +
      countedSpacing env p q + countedSpacing env p q)).tdiv
        ((nInterval env + 1) * nTargetSpacing env) =
      movedTarget env (setCompact nBits) (countedSpacing env p q) :=
    Int.tdiv_eq_ediv_of_nonneg hnum
  have hpos : 0 < movedTarget env (setCompact nBits) (countedSpacing env p q) :=
    movedTarget_pos hT hs
  rw [← hmoved] at hpos ⊢
  exact clamp_eq hpos

/-- The next target when the two blocks are there: the moved target within the limit, or the
limit while the second of them is the first block of the chain. -/
theorem nextTarget_eq {pindexLast p q : CBlockIndex} (h : LastTwo fProofOfStake pindexLast p q)
    (hT : 2 ≤ setCompact p.fields.nBits) :
    getNextTargetRequired env (some pindexLast) fProofOfStake =
      if q.pprev = none then getCompact (bnTargetLimit fProofOfStake)
      else getCompact (min (movedTarget env (setCompact p.fields.nBits) (countedSpacing env p q))
        (bnTargetLimit fProofOfStake)) := by
  obtain ⟨hp, r, hr, hq⟩ := h
  cases p with
  | genesis f => simp [CBlockIndex.pprev] at hr
  | child f r' =>
    obtain rfl : r' = r := by simpa [CBlockIndex.pprev] using hr
    simp only [getNextTargetRequired, hp, hq]
    cases q with
    | genesis g => rfl
    | child g q' => exact retarget_eq hT

theorem compact_mono {a b : Int} (ha : 0 < a) (hab : a ≤ b)
    (hb : b ≤ bnTargetLimit fProofOfStake) :
    setCompact (getCompact a) ≤ setCompact (getCompact b) := by
  rw [bnTargetLimit_eq] at hb
  rw [setCompact_getCompact_target ha (by omega), setCompact_getCompact_target (by omega) hb]
  exact Int.ofNat_le.mpr (roundCompact_mono (by omega))

theorem bnTargetLimit_pos : 0 < bnTargetLimit fProofOfStake := by
  rw [bnTargetLimit_eq]
  norm_num

def nextTarget (env : Env) (fProofOfStake : Bool) (pindexLast : CBlockIndex) : Int :=
  setCompact (getNextTargetRequired env (some pindexLast) fProofOfStake)

theorem nextTarget_le_limit {pindexLast : CBlockIndex} :
    0 < nextTarget env fProofOfStake pindexLast ∧
      nextTarget env fProofOfStake pindexLast ≤ bnTargetLimit fProofOfStake := by
  obtain ⟨n, hpos, hle, hn⟩ := nextTarget_range env (some pindexLast) fProofOfStake
  rw [nextTarget, hn, bnTargetLimit_eq]
  exact compact_range hpos hle

/-- No walk lowers the target by more than a spacing of no time does. -/
theorem lowered_le_nextTarget {pindexLast : CBlockIndex} {T : Int}
    (hT : T = setCompact (getLastBlockIndex fProofOfStake pindexLast).fields.nBits)
    (hlow : 2 ≤ T) (hhigh : T ≤ bnTargetLimit fProofOfStake) :
    setCompact (getCompact (T * (nInterval env - 1) / (nInterval env + 1))) ≤
      nextTarget env fProofOfStake pindexLast := by
  have hI := nInterval_ge env
  have hle : T * (nInterval env - 1) / (nInterval env + 1) ≤ T := by
    apply Int.ediv_le_of_le_mul (by omega)
    exact Int.mul_le_mul_of_nonneg_left (by omega) (by omega)
  have hlimit : setCompact (getCompact (T * (nInterval env - 1) / (nInterval env + 1))) ≤
      setCompact (getCompact (bnTargetLimit fProofOfStake)) :=
    compact_mono (lowered_pos hlow) (hle.trans hhigh) le_rfl
  cases hp : getLastBlockIndex fProofOfStake pindexLast with
  | genesis f =>
    have hfirst : getNextTargetRequired env (some pindexLast) fProofOfStake =
        getCompact (bnTargetLimit fProofOfStake) := by
      simp only [getNextTargetRequired, hp]
    rw [nextTarget, hfirst]
    exact hlimit
  | child f r =>
    rw [hp] at hT
    subst hT
    have htwo : LastTwo fProofOfStake pindexLast (.child f r) (getLastBlockIndex fProofOfStake r) :=
      ⟨hp, r, rfl, rfl⟩
    rw [nextTarget, nextTarget_eq htwo hlow]
    split
    · exact hlimit
    · refine compact_mono (lowered_pos hlow) (Int.le_min.mpr ⟨?_, hle.trans hhigh⟩)
        (Int.min_le_right _ _)
      rw [← movedTarget_zero]
      exact movedTarget_mono (by omega) (countedSpacing_nonneg env _ _)

/-- More time between the last two blocks never gives a smaller target. -/
theorem nextTarget_mono {pindexLast pindexLast' p q p' q' : CBlockIndex}
    (h : LastTwo fProofOfStake pindexLast p q) (h' : LastTwo fProofOfStake pindexLast' p' q')
    (hlow : 2 ≤ setCompact p.fields.nBits) (hbits : p'.fields.nBits = p.fields.nBits)
    (hfirst : q.pprev = none ↔ q'.pprev = none)
    (hle : countedSpacing env p q ≤ countedSpacing env p' q') :
    nextTarget env fProofOfStake pindexLast ≤ nextTarget env fProofOfStake pindexLast' := by
  rw [nextTarget, nextTarget, nextTarget_eq h hlow, nextTarget_eq h' (by rwa [hbits]), hbits]
  by_cases hq : q.pprev = none
  · rw [if_pos hq, if_pos (hfirst.mp hq)]
  · have hmono : movedTarget env (setCompact p.fields.nBits) (countedSpacing env p q) ≤
        movedTarget env (setCompact p.fields.nBits) (countedSpacing env p' q') :=
      movedTarget_mono (by omega) hle
    have hpos : 0 < movedTarget env (setCompact p.fields.nBits) (countedSpacing env p q) :=
      movedTarget_pos hlow (countedSpacing_nonneg env p q)
    have hlimit : 0 < bnTargetLimit fProofOfStake := bnTargetLimit_pos
    rw [if_neg hq, if_neg fun hq' => hq (hfirst.mpr hq')]
    exact compact_mono (by omega) (by omega) (Int.min_le_right _ _)

end

/-- The next target is in range and no lower than one step down allows. Between the last two
blocks of the kind it grows with time and stays at the target spacing, unless the second of
them is the first block of the chain: then the limit comes next. -/
theorem nextTarget_moves (env : Env) (fProofOfStake : Bool) (pindexLast : CBlockIndex)
    (hlow : 2 ≤ setCompact (getLastBlockIndex fProofOfStake pindexLast).fields.nBits)
    (hhigh : setCompact (getLastBlockIndex fProofOfStake pindexLast).fields.nBits ≤
      bnTargetLimit fProofOfStake) :
    (0 < nextTarget env fProofOfStake pindexLast ∧
      nextTarget env fProofOfStake pindexLast ≤ bnTargetLimit fProofOfStake) ∧
    setCompact (getCompact
        (setCompact (getLastBlockIndex fProofOfStake pindexLast).fields.nBits *
          (nInterval env - 1) / (nInterval env + 1))) ≤
      nextTarget env fProofOfStake pindexLast ∧
    ∀ p q, LastTwo fProofOfStake pindexLast p q →
      (∀ pindexLast' p' q', LastTwo fProofOfStake pindexLast' p' q' →
        p'.fields.nBits = p.fields.nBits → (q.pprev = none ↔ q'.pprev = none) →
        countedSpacing env p q ≤ countedSpacing env p' q' →
        nextTarget env fProofOfStake pindexLast ≤ nextTarget env fProofOfStake pindexLast') ∧
      (q.pprev = none → getNextTargetRequired env (some pindexLast) fProofOfStake =
        getCompact (bnTargetLimit fProofOfStake)) ∧
      (q.pprev ≠ none → p.getBlockTime - q.getBlockTime = nTargetSpacing env →
        getCompact (setCompact p.fields.nBits) = p.fields.nBits →
        getNextTargetRequired env (some pindexLast) fProofOfStake = p.fields.nBits) := by
  refine ⟨nextTarget_le_limit, lowered_le_nextTarget rfl hlow hhigh, ?_⟩
  intro p q h
  rw [h.prev] at hlow hhigh
  refine ⟨?_, ?_, ?_⟩
  · intro pindexLast' p' q' h' hbits hfirst hle
    exact nextTarget_mono h h' hlow hbits hfirst hle
  · intro hq
    rw [nextTarget_eq h hlow, if_pos hq]
  · intro hq hspacing hcanonical
    have hcounted : countedSpacing env p q = nTargetSpacing env := by
      have hpos := nTargetSpacing_pos env
      unfold countedSpacing
      dsimp only
      rw [if_neg (by omega), hspacing]
    rw [nextTarget_eq h hlow, if_neg hq, hcounted, movedTarget_spacing, Int.min_eq_left hhigh,
      hcanonical]

namespace Sample

def steadyChain : List UInt32 → CBlockIndex
  | [] => genesisIndex
  | t :: times => .child { fieldsOf t.toNat t 8 0 with nBits := 0x01020000 } (steadyChain times)

theorem steadyChain_isProofOfStake (times : List UInt32) :
    (steadyChain times).isProofOfStake = false := by
  cases times with
  | nil => rfl
  | cons t times =>
    change ((0 : UInt32) &&& 1 != 0) = false
    decide

theorem steadyChain_last (times : List UInt32) :
    getLastBlockIndex false (steadyChain times) = steadyChain times := by
  cases times with
  | nil => rfl
  | cons t times =>
    have hkind := steadyChain_isProofOfStake (t :: times)
    rw [steadyChain] at hkind
    rw [steadyChain, getLastBlockIndex, if_neg (by simp [hkind])]

theorem steadyChain_lastTwo (t : UInt32) (times : List UInt32) :
    LastTwo false (steadyChain (t :: times)) (steadyChain (t :: times)) (steadyChain times) :=
  ⟨steadyChain_last _, steadyChain times, rfl, steadyChain_last times⟩

theorem steadyChain_canonical : getCompact 2 = 0x01020000 := by
  have hsize : mpiBytes 2 = 1 := by
    have h2 : Nat.size 2 = 2 := Nat.size_pow (n := 1)
    rw [mpiBytes, h2]
    rfl
  have habs : Int.natAbs 2 = 2 := rfl
  unfold getCompact
  rw [habs, hsize]
  rfl

end Sample

theorem nextTarget_moves_three :
    getNextTargetRequired (Sample.env []) (some (Sample.steadyChain [360, 240, 120])) false = 0x01020000 :=
  ((nextTarget_moves (Sample.env []) false (Sample.steadyChain [360, 240, 120]) (by decide) (by decide)).2.2 _ _
    (Sample.steadyChain_lastTwo 360 [240, 120])).2.2 (by decide) (by decide) Sample.steadyChain_canonical

/-- On the second block of a chain that keeps the spacing the limit comes next, not the target
of the block, although that is canonical and in range. -/
theorem nextTarget_second_block :
    LastTwo false (Sample.steadyChain [120]) (Sample.steadyChain [120]) (Sample.steadyChain []) ∧
    (Sample.steadyChain [120]).isProofOfStake = false ∧ (Sample.steadyChain []).isProofOfStake = false ∧
    2 ≤ setCompact (Sample.steadyChain [120]).fields.nBits ∧
    setCompact (Sample.steadyChain [120]).fields.nBits ≤ bnTargetLimit false ∧
    (Sample.steadyChain [120]).getBlockTime - (Sample.steadyChain []).getBlockTime =
      nTargetSpacing (Sample.env []) ∧
    getCompact (setCompact (Sample.steadyChain [120]).fields.nBits) =
      (Sample.steadyChain [120]).fields.nBits ∧
    getNextTargetRequired (Sample.env []) (some (Sample.steadyChain [120])) false ≠
      (Sample.steadyChain [120]).fields.nBits := by
  refine ⟨Sample.steadyChain_lastTwo 120 [], by decide, by decide, by decide, by decide, by decide,
    Sample.steadyChain_canonical, ?_⟩
  have hlimit : getNextTargetRequired (Sample.env []) (some (Sample.steadyChain [120])) false =
      getCompact (bnTargetLimit false) := rfl
  intro h
  have htwo : setCompact (getCompact (bnTargetLimit false)) = 2 := by
    rw [← hlimit, h]
    rfl
  -- the limit keeps its three highest bytes
  have hmono : setCompact (getCompact 3) ≤ setCompact (getCompact (bnTargetLimit false)) :=
    compact_mono (by decide) (by decide) le_rfl
  have hthree : setCompact (getCompact 3) = 3 := by
    have hsize : mpiBytes 3 ≤ 3 := by
      have h3 : Nat.size 3 ≤ 8 := Nat.size_le.mpr (by decide)
      unfold mpiBytes
      split <;> omega
    have h3 := setCompact_getCompact (n := 3) (by omega)
    rw [roundCompact_of_le hsize] at h3
    exact h3
  omega

end Triangles
