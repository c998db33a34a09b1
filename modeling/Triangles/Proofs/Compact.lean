import Mathlib.Order.Bounds.Basic
import Mathlib.Tactic.NormNum
import Triangles.Model.Retarget

/-! The compact form of targets: what is left of a number, the order it keeps, and the range
of the targets that retargeting gives. -/

namespace Triangles

def roundCompact (n : Nat) : Nat := n / 256 ^ (mpiBytes n - 3) * 256 ^ (mpiBytes n - 3)

theorem lt_mpiBytes (n : Nat) : n * 2 < 256 ^ mpiBytes n := by
  unfold mpiBytes
  split
  · rename_i h
    simp [h]
  · have hsize : n < 2 ^ Nat.size n := Nat.lt_size_self n
    have hpow : 2 ^ (Nat.size n + 1) ≤ 256 ^ (Nat.size n / 8 + 1) := by
      have h256 : (256 : Nat) ^ (Nat.size n / 8 + 1) = 2 ^ (8 * (Nat.size n / 8 + 1)) := by
        rw [Nat.pow_mul]
      rw [h256]
      exact Nat.pow_le_pow_right (by decide) (by omega)
    rw [Nat.pow_succ] at hpow
    omega

theorem mpiBytes_le {n : Nat} (h : 0 < n) : 256 ^ (mpiBytes n - 3) ≤ n := by
  have hsize : 0 < Nat.size n := Nat.size_pos.mpr h
  have hlow : 2 ^ (Nat.size n - 1) ≤ n := Nat.lt_size.mp (by omega)
  refine le_trans ?_ hlow
  have h256 : (256 : Nat) ^ (mpiBytes n - 3) = 2 ^ (8 * (mpiBytes n - 3)) := by rw [Nat.pow_mul]
  rw [h256]
  apply Nat.pow_le_pow_right (by decide)
  unfold mpiBytes
  rw [if_neg (by omega)]
  omega

theorem roundCompact_le (n : Nat) : roundCompact n ≤ n := Nat.div_mul_le_self _ _

theorem roundCompact_pos {n : Nat} (h : 0 < n) : 0 < roundCompact n :=
  Nat.mul_pos (Nat.div_pos (mpiBytes_le h) (Nat.pow_pos (by decide))) (Nat.pow_pos (by decide))

/-- The three bytes that the compact form keeps, without the sign bit. -/
def mantissa (n : Nat) : Nat :=
  if mpiBytes n ≤ 3 then n * 256 ^ (3 - mpiBytes n) else n / 256 ^ (mpiBytes n - 3)

theorem mantissa_lt (n : Nat) : mantissa n < 2 ^ 23 := by
  have h := lt_mpiBytes n
  unfold mantissa
  split
  · rename_i hs
    have hpow : 256 ^ mpiBytes n * 256 ^ (3 - mpiBytes n) = 256 ^ 3 := by
      rw [← Nat.pow_add]
      congr 1
      omega
    have hmul : n * 2 * 256 ^ (3 - mpiBytes n) < 256 ^ mpiBytes n * 256 ^ (3 - mpiBytes n) :=
      Nat.mul_lt_mul_of_pos_right h (Nat.pow_pos (by decide))
    rw [hpow] at hmul
    have hcomm : n * 2 * 256 ^ (3 - mpiBytes n) = n * 256 ^ (3 - mpiBytes n) * 2 := by
      rw [Nat.mul_right_comm]
    omega
  · rename_i hs
    have hpow : 256 ^ mpiBytes n = 256 ^ (mpiBytes n - 3) * 256 ^ 3 := by
      rw [← Nat.pow_add]
      congr 1
      omega
    rw [Nat.div_lt_iff_lt_mul (Nat.pow_pos (by decide))]
    rw [hpow] at h
    omega

/-- The fields of the compact form, apart from each other while the byte count fits its byte. -/
theorem getCompact_toNat {n : Int} (h : mpiBytes n.natAbs ≤ 255) :
    (getCompact n).toNat =
      mpiBytes n.natAbs * 2 ^ 24 + (if n < 0 then 2 ^ 23 else 0) + mantissa n.natAbs := by
  have hmant := mantissa_lt n.natAbs
  have hsign : (if n < 0 then 2 ^ 23 else 0) ≤ 2 ^ 23 := by split <;> omega
  unfold getCompact
  rw [UInt32.toNat_ofNat']
  change (mpiBytes n.natAbs * 2 ^ 24 + (if n < 0 then 2 ^ 23 else 0) + mantissa n.natAbs) %
    2 ^ 32 = _
  omega

theorem roundCompact_of_le {n : Nat} (h : mpiBytes n ≤ 3) : roundCompact n = n := by
  rw [roundCompact, Nat.sub_eq_zero_of_le h, Nat.pow_zero, Nat.div_one, Nat.mul_one]

/-- The compact form keeps the sign and rounds the magnitude. -/
theorem setCompact_getCompact_int {n : Int} (h : mpiBytes n.natAbs ≤ 255) :
    setCompact (getCompact n) =
      if n < 0 then -(roundCompact n.natAbs : Int) else roundCompact n.natAbs := by
  have hmant := mantissa_lt n.natAbs
  have hmag : (if mpiBytes n.natAbs ≤ 3 then mantissa n.natAbs / 256 ^ (3 - mpiBytes n.natAbs)
      else mantissa n.natAbs * 256 ^ (mpiBytes n.natAbs - 3)) = roundCompact n.natAbs := by
    unfold mantissa
    by_cases hs : mpiBytes n.natAbs ≤ 3
    · rw [if_pos hs, if_pos hs, Nat.mul_div_cancel _ (Nat.pow_pos (by decide)),
        roundCompact_of_le hs]
    · rw [if_neg hs, if_neg hs, roundCompact]
  have hbits := getCompact_toNat h
  by_cases hneg : n < 0
  · rw [if_pos hneg] at hbits
    have hsize : (getCompact n).toNat / 2 ^ 24 = mpiBytes n.natAbs := by omega
    have hword : (getCompact n).toNat % 2 ^ 23 = mantissa n.natAbs := by omega
    have hsign : (getCompact n).toNat / 2 ^ 23 % 2 = 1 := by omega
    simp only [setCompact, hsize, hword, hsign, hmag, if_true, if_pos hneg]
  · rw [if_neg hneg] at hbits
    have hsize : (getCompact n).toNat / 2 ^ 24 = mpiBytes n.natAbs := by omega
    have hword : (getCompact n).toNat % 2 ^ 23 = mantissa n.natAbs := by omega
    have hsign : (getCompact n).toNat / 2 ^ 23 % 2 = 0 := by omega
    simp only [setCompact, hsize, hword, hsign, hmag, zero_ne_one, if_false, if_neg hneg]

theorem setCompact_getCompact {n : Nat} (h : mpiBytes n ≤ 255) :
    setCompact (getCompact n) = roundCompact n := by
  rw [setCompact_getCompact_int (by rwa [Int.natAbs_natCast]), if_neg (by omega),
    Int.natAbs_natCast]

/-- The compact form keeps the number of bytes. -/
theorem mpiBytes_roundCompact (n : Nat) : mpiBytes (roundCompact n) = mpiBytes n := by
  by_cases hs : mpiBytes n ≤ 3
  · rw [roundCompact_of_le hs]
  · have hpos : 0 < n := by
      rcases Nat.eq_zero_or_pos n with rfl | hn
      · simp [mpiBytes] at hs
      · exact hn
    have hbytes : mpiBytes n = Nat.size n / 8 + 1 := by rw [mpiBytes, if_neg (by omega)]
    have hlow : 2 ^ (Nat.size n - 1) ≤ n := Nat.lt_size.mp (by
      have := Nat.size_pos.mpr hpos
      omega)
    have hdvd : 256 ^ (mpiBytes n - 3) ∣ 2 ^ (Nat.size n - 1) := by
      have h256 : (256 : Nat) ^ (mpiBytes n - 3) = 2 ^ (8 * (mpiBytes n - 3)) := by
        rw [Nat.pow_mul]
      rw [h256]
      exact Nat.pow_dvd_pow 2 (by omega)
    -- the highest bit of `n` is above the bytes that are dropped
    have hround : 2 ^ (Nat.size n - 1) ≤ roundCompact n := by
      rw [← Nat.div_mul_cancel hdvd]
      exact Nat.mul_le_mul_right _ (Nat.div_le_div_right hlow)
    have hsize : Nat.size (roundCompact n) = Nat.size n := by
      have hle : Nat.size (roundCompact n) ≤ Nat.size n := Nat.size_le_size (roundCompact_le n)
      have hlt : Nat.size n - 1 < Nat.size (roundCompact n) := Nat.lt_size.mpr hround
      omega
    have hne : roundCompact n ≠ 0 := (roundCompact_pos hpos).ne'
    rw [hbytes, mpiBytes, if_neg hne, hsize]

theorem mantissa_roundCompact (n : Nat) : mantissa (roundCompact n) = mantissa n := by
  by_cases hs : mpiBytes n ≤ 3
  · rw [roundCompact_of_le hs]
  · rw [mantissa, mantissa, mpiBytes_roundCompact, if_neg hs, if_neg hs, roundCompact,
      Nat.mul_div_cancel _ (Nat.pow_pos (by decide))]

/-- A number that was read from a compact form is written in that form again. -/
theorem getCompact_setCompact {n : Int} (h : mpiBytes n.natAbs ≤ 255) :
    getCompact (setCompact (getCompact n)) = getCompact n := by
  have habs : (setCompact (getCompact n)).natAbs = roundCompact n.natAbs := by
    rw [setCompact_getCompact_int h]
    split <;> simp
  have hneg : setCompact (getCompact n) < 0 ↔ n < 0 := by
    rw [setCompact_getCompact_int h]
    split
    · have hpos := roundCompact_pos (n := n.natAbs) (by omega)
      omega
    · omega
  apply UInt32.toNat_inj.mp
  rw [getCompact_toNat h, getCompact_toNat (by rwa [habs, mpiBytes_roundCompact]), habs,
    mpiBytes_roundCompact, mantissa_roundCompact, if_congr hneg rfl rfl]

/-- A number in compact form that is at most `b` is at most what the form keeps of `b`. -/
theorem le_roundCompact {a b : Nat} (h : roundCompact a ≤ b) : roundCompact a ≤ roundCompact b := by
  by_cases hk : mpiBytes b - 3 ≤ mpiBytes a - 3
  · have hdvd : 256 ^ (mpiBytes b - 3) ∣ roundCompact a :=
      (Nat.pow_dvd_pow 256 hk).trans (Nat.dvd_mul_left _ _)
    rw [← Nat.div_mul_cancel hdvd]
    exact Nat.mul_le_mul_right _ (Nat.div_le_div_right h)
  · -- `b` has more bytes than `a`, so its highest ones alone are more than `a`
    have hbpos : 0 < b := by
      rcases Nat.eq_zero_or_pos b with rfl | hb
      · simp [mpiBytes] at hk
      · exact hb
    have hsize : 8 * (mpiBytes b - 1) ≤ Nat.size b := by
      unfold mpiBytes
      rw [if_neg (by omega)]
      omega
    have hbytes : 256 ^ (mpiBytes b - 3) * 32768 ≤ b := by
      have hlow : 2 ^ (Nat.size b - 1) ≤ b := Nat.lt_size.mp (by
        have := Nat.size_pos.mpr hbpos
        omega)
      refine le_trans ?_ hlow
      have hpow : 256 ^ (mpiBytes b - 3) * 32768 = 2 ^ (8 * (mpiBytes b - 3) + 15) := by
        rw [Nat.pow_add, Nat.pow_mul]
      rw [hpow]
      exact Nat.pow_le_pow_right (by decide) (by omega)
    have hround : 256 ^ (mpiBytes b - 3) * 32768 ≤ roundCompact b := by
      rw [roundCompact, Nat.mul_comm]
      exact Nat.mul_le_mul_right _
        ((Nat.le_div_iff_mul_le (Nat.pow_pos (by decide))).mpr (by rw [Nat.mul_comm]; exact hbytes))
    have ha : a * 2 < 256 ^ (mpiBytes b - 1) :=
      (lt_mpiBytes a).trans_le (Nat.pow_le_pow_right (by decide) (by omega))
    have hsplit : 256 ^ (mpiBytes b - 1) = 256 ^ (mpiBytes b - 3) * 65536 := by
      have he : mpiBytes b - 1 = mpiBytes b - 3 + 2 := by omega
      rw [he, Nat.pow_add]
    have := roundCompact_le a
    omega

theorem roundCompact_mono {a b : Nat} (h : a ≤ b) : roundCompact a ≤ roundCompact b :=
  le_roundCompact ((roundCompact_le a).trans h)

/-- What the compact form keeps is the largest multiple of the bytes it drops. -/
theorem roundCompact_isGreatest (n : Nat) :
    IsGreatest {k | 256 ^ (mpiBytes n - 3) ∣ k ∧ k ≤ n} (roundCompact n) := by
  refine ⟨⟨Nat.dvd_mul_left _ _, roundCompact_le n⟩, ?_⟩
  rintro k ⟨⟨q, rfl⟩, hk⟩
  rw [roundCompact, Nat.mul_comm]
  refine Nat.mul_le_mul_right _ ?_
  exact (Nat.le_div_iff_mul_le (Nat.pow_pos (by decide))).mpr (by rwa [Nat.mul_comm])

/-! The limit and the targets below it. -/

theorem bnTargetLimit_eq (fProofOfStake : Bool) : bnTargetLimit fProofOfStake = 2 ^ 248 - 1 := by
  cases fProofOfStake <;> rfl

/-- A target between 1 and the limit keeps within that range in compact form. -/
theorem setCompact_getCompact_target {n : Int} (hpos : 0 < n) (hle : n ≤ 2 ^ 248 - 1) :
    setCompact (getCompact n) = roundCompact n.toNat := by
  obtain ⟨m, rfl⟩ := Int.eq_ofNat_of_zero_le hpos.le
  have hlt : m < 2 ^ 248 := by omega
  have hsize : Nat.size m ≤ 248 := Nat.size_le.mpr hlt
  rw [setCompact_getCompact]
  · rfl
  · unfold mpiBytes
    split <;> omega

theorem compact_range {n : Int} (hpos : 0 < n) (hle : n ≤ 2 ^ 248 - 1) :
    0 < setCompact (getCompact n) ∧ setCompact (getCompact n) ≤ 2 ^ 248 - 1 := by
  rw [setCompact_getCompact_target hpos hle]
  have hp := roundCompact_pos (n := n.toNat) (by omega)
  have hl := roundCompact_le n.toNat
  omega

theorem retarget_range (env : Env) (fProofOfStake : Bool) (nBits : UInt32) (nActualSpacing : Int) :
    ∃ n, 0 < n ∧ n ≤ 2 ^ 248 - 1 ∧ retarget env fProofOfStake nBits nActualSpacing = getCompact n := by
  unfold retarget
  simp only [bnTargetLimit_eq]
  generalize (setCompact nBits * _).tdiv _ = bnNew
  by_cases h : bnNew ≤ 0 ∨ 2 ^ 248 - 1 < bnNew
  · exact ⟨2 ^ 248 - 1, by norm_num, le_rfl, if_pos h⟩
  · refine ⟨bnNew, ?_, ?_, if_neg h⟩
    · exact not_le.mp fun hle => h (.inl hle)
    · exact not_lt.mp fun hlt => h (.inr hlt)

/-- Every required target is a number between 1 and the limit, in compact form. -/
theorem nextTarget_range (env : Env) (pindexLast : Option CBlockIndex) (fProofOfStake : Bool) :
    ∃ n, 0 < n ∧ n ≤ 2 ^ 248 - 1 ∧
      getNextTargetRequired env pindexLast fProofOfStake = getCompact n := by
  have hlimit : ∃ n, 0 < n ∧ n ≤ 2 ^ 248 - 1 ∧
      getCompact (bnTargetLimit fProofOfStake) = getCompact n :=
    ⟨2 ^ 248 - 1, by norm_num, le_rfl, by rw [bnTargetLimit_eq]⟩
  unfold getNextTargetRequired
  split
  · exact hlimit
  · split
    · exact hlimit
    · split
      · exact hlimit
      · exact retarget_range env fProofOfStake _ _

end Triangles
