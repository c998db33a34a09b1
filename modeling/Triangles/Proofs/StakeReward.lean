import Mathlib.Tactic.Linarith
import Mathlib.Tactic.Ring
import Triangles.Proofs.Supply

/-! The reward of a coinstake in exact numbers: what `GetCoinAge` counts, and when the 64-bit
product of `GetProofOfStakeReward` holds it. -/

namespace Triangles

open Outcome Ledger

section CoinAge

variable {env : Env} {txdb : CTxDB} {tx : CTransaction}

def readValue (env : Env) (txdb : CTxDB) (txin : CTxIn) : Option Int :=
  (readTxFromDisk env txdb txin.prevout).map fun r =>
    ((r.1.vout[txin.prevout.n.toNat]?).map CTxOut.nValue).getD 0

/-- Value and age of an input, if it is mature: its block is at least the minimum age older than the
transaction. -/
def matureInput (env : Env) (txdb : CTxDB) (tx : CTransaction) (txin : CTxIn) :
    Option (Int × Nat) := do
  let (txPrev, txindex) ← readTxFromDisk env txdb txin.prevout
  let block ← env.readHeader txindex.pos.nFile txindex.pos.nBlockPos
  if tx.nTime.toNat < block.nTime.toNat + nStakeMinAge env then none
  else some (((txPrev.vout[txin.prevout.n.toNat]?).map CTxOut.nValue).getD 0,
    tx.nTime.toNat - txPrev.nTime.toNat)

def centSeconds (env : Env) (txdb : CTxDB) (tx : CTransaction) : Int :=
  ((tx.vin.filterMap (matureInput env txdb tx)).map fun p => p.1 * p.2 / CENT).sum

/-- The values and their sum are in range, as `ConnectInputs` checks it. -/
def RangeChecked (env : Env) (txdb : CTxDB) (vin : List CTxIn) : Prop :=
  (∀ v ∈ vin.filterMap (readValue env txdb), moneyRange v = true) ∧
    moneyRange (vin.filterMap (readValue env txdb)).sum = true

theorem readValue_of_mature {txin : CTxIn} {p : Int × Nat}
    (h : matureInput env txdb tx txin = some p) :
    readValue env txdb txin = some p.1 ∧ p.2 < 2 ^ 32 := by
  simp only [matureInput, Option.bind_eq_bind, Option.bind_eq_some_iff] at h
  obtain ⟨r, hr, block, -, h⟩ := h
  split at h
  · simp at h
  · rw [Option.some.injEq] at h
    subst h
    have := tx.nTime.toNat_lt
    exact ⟨by simp [readValue, hr], by simp only; omega⟩

/-- One round of `GetCoinAge`. -/
theorem addCoinAge_spec {a b : Int} {txin : CTxIn}
    (h : CTransaction.addCoinAge env txdb tx a txin = .ok b) :
    b = a + (match matureInput env txdb tx txin with
      | none => 0
      | some p => (p.1 * p.2).tdiv CENT) := by
  unfold CTransaction.addCoinAge at h
  cases hr : readTxFromDisk env txdb txin.prevout with
  | none =>
    simp only [hr, Except.ok.injEq] at h
    simp [matureInput, hr, h]
  | some r =>
    obtain ⟨txPrev, txindex⟩ := r
    simp only [hr] at h
    split at h
    · simp at h
    · rename_i hlt
      cases hb : env.readHeader txindex.pos.nFile txindex.pos.nBlockPos with
      | none => simp [hb] at h
      | some block =>
        simp only [hb] at h
        split at h
        · rename_i hyoung
          rw [Except.ok.injEq] at h
          simp [matureInput, hr, hb, hyoung, h]
        · rename_i hyoung
          rw [Except.ok.injEq] at h
          have hsub : (tx.nTime - txPrev.nTime).toNat = tx.nTime.toNat - txPrev.nTime.toNat := by
            apply UInt32.toNat_sub_of_le
            simpa using hlt
          simp [matureInput, hr, hb, hyoung, ← h, hsub]

/-- The loop of `GetCoinAge`, when no value is negative. -/
theorem addCoinAge_foldlM {vin : List CTxIn} {a b : Int}
    (hpos : ∀ v ∈ vin.filterMap (readValue env txdb), 0 ≤ v)
    (h : vin.foldlM (CTransaction.addCoinAge env txdb tx) a = .ok b) :
    b = a + ((vin.filterMap (matureInput env txdb tx)).map fun p => p.1 * p.2 / CENT).sum := by
  induction vin generalizing a with
  | nil =>
    simp only [List.foldlM_nil, pure_ok] at h
    simp [h]
  | cons txin vin ih =>
    simp only [List.foldlM_cons, bind_ok] at h
    obtain ⟨c, hc, hl⟩ := h
    rw [ih (fun v hv => hpos v ?_) hl, addCoinAge_spec hc]
    · cases hm : matureInput env txdb tx txin with
      | none => simp [hm]
      | some p =>
        have hp : 0 ≤ p.1 := hpos _ (by simp [(readValue_of_mature hm).1])
        simp only [List.filterMap_cons, hm, List.map_cons, List.sum_cons]
        rw [Int.tdiv_eq_ediv_of_nonneg (Int.mul_nonneg hp (Int.natCast_nonneg _)), add_assoc]
    · rw [List.filterMap_cons]
      split
      · exact hv
      · exact List.mem_cons_of_mem _ hv

variable (tx) in
/-- An age is less than `429497` times `CENT`. -/
theorem centSeconds_bounds {vin : List CTxIn}
    (hpos : ∀ v ∈ vin.filterMap (readValue env txdb), 0 ≤ v) :
    let S := ((vin.filterMap (matureInput env txdb tx)).map fun p => p.1 * p.2 / CENT).sum
    0 ≤ S ∧ S ≤ 429497 * (vin.filterMap (readValue env txdb)).sum := by
  induction vin with
  | nil => simp
  | cons txin vin ih =>
    have hrest : ∀ v ∈ vin.filterMap (readValue env txdb), 0 ≤ v := by
      intro v hv
      apply hpos
      rw [List.filterMap_cons]
      split
      · exact hv
      · exact List.mem_cons_of_mem _ hv
    obtain ⟨hlo, hhi⟩ := ih hrest
    cases hr : readValue env txdb txin with
    | none =>
      have hm : matureInput env txdb tx txin = none := by
        cases hm : matureInput env txdb tx txin with
        | none => rfl
        | some p => simp [(readValue_of_mature hm).1] at hr
      simpa [hr, hm] using And.intro hlo hhi
    | some v =>
      have hv : 0 ≤ v := hpos v (by simp [hr])
      cases hm : matureInput env txdb tx txin with
      | none =>
        simp only [List.filterMap_cons, hm, hr, List.sum_cons]
        constructor <;> linarith
      | some p =>
        obtain ⟨hp, hage⟩ := readValue_of_mature hm
        rw [hr, Option.some.injEq] at hp
        subst hp
        have hnum : 0 ≤ p.1 * (p.2 : Int) := Int.mul_nonneg hv (Int.natCast_nonneg _)
        have hterm : p.1 * (p.2 : Int) / CENT ≤ 429497 * p.1 := by
          apply Int.ediv_le_of_le_mul (by decide)
          have hle : (p.2 : Int) ≤ 429497 * CENT := by
            have : (429497 * CENT : Int) = 4294970000 := by decide
            omega
          calc p.1 * (p.2 : Int) ≤ p.1 * (429497 * CENT) := Int.mul_le_mul_of_nonneg_left hle hv
            _ = 429497 * p.1 * CENT := by ring
        have hnn : 0 ≤ p.1 * (p.2 : Int) / CENT := Int.ediv_nonneg hnum (by decide)
        simp only [List.filterMap_cons, hm, hr, List.map_cons, List.sum_cons]
        exact ⟨by linarith, by linarith⟩

def coinDays (S : Int) : Int := S * CENT / (24 * 60 * 60)

def exactSubsidy (nCoinAge : Int) : Int := nCoinAge * MAX_TRI_PROOF_OF_STAKE / 365 / COIN

/-- The cent-seconds whose product with the yearly rate still is an `int64_t`: those of 120000 coins
in a little less than 233 days. -/
def maxCentSeconds : Int := 241484649692204

theorem RangeChecked.nonneg {vin : List CTxIn} (h : RangeChecked env txdb vin) :
    ∀ v ∈ vin.filterMap (readValue env txdb), 0 ≤ v := by
  intro v hv
  have := h.1 v hv
  simp only [moneyRange, Bool.and_eq_true, decide_eq_true_eq] at this
  exact this.1

theorem RangeChecked.centSeconds (h : RangeChecked env txdb tx.vin) :
    0 ≤ centSeconds env txdb tx ∧ centSeconds env txdb tx ≤ 429497 * MAX_MONEY := by
  obtain ⟨hlo, hhi⟩ := centSeconds_bounds tx h.nonneg
  have hsum := h.2
  simp only [moneyRange, Bool.and_eq_true, decide_eq_true_eq] at hsum
  have hmul := Int.mul_le_mul_of_nonneg_left hsum.2 (by decide : (0 : Int) ≤ 429497)
  exact ⟨hlo, hhi.trans hmul⟩

/-- One input that passes the checks of `ConnectInputs`. -/
theorem checkInput_range {pindexBlock : CBlockIndex} {inputs : MapPrevTx} {txin : CTxIn} {a b : Int}
    (h : CTransaction.checkInput env pindexBlock tx inputs a txin = .ok b) :
    ∃ e txout, inputs.lookup txin.prevout.hash = some e ∧
      e.2.vout[txin.prevout.n.toNat]? = some txout ∧ moneyRange txout.nValue = true ∧
      b = a + txout.nValue ∧ moneyRange b = true := by
  unfold CTransaction.checkInput at h
  cases he : inputs.lookup txin.prevout.hash with
  | none => simp [he] at h
  | some e =>
    simp only [he] at h
    cases ho : e.2.vout[txin.prevout.n.toNat]? with
    | none => simp [ho] at h
    | some txout =>
      simp only [ho, bind_ok, check_ok, pure_ok, exists_const, Bool.and_eq_true] at h
      obtain ⟨-, -, -, ⟨hv, hsum⟩, rfl⟩ := h
      exact ⟨e, txout, rfl, ho, hv, rfl, hsum⟩

/-- Inputs that pass the checks of `ConnectInputs` are in range for `GetCoinAge`, when it reads the
same transactions. -/
theorem rangeChecked_of_connect {pindexBlock : CBlockIndex} {inputs : MapPrevTx} {vin : List CTxIn}
    {b : Int} (h : vin.foldlM (CTransaction.checkInput env pindexBlock tx inputs) 0 = .ok b)
    (hsame : ∀ txin ∈ vin, ∀ r e, readTxFromDisk env txdb txin.prevout = some r →
      inputs.lookup txin.prevout.hash = some e → e.2 = r.1) : RangeChecked env txdb vin := by
  have hfold : ∀ a, moneyRange a = true →
      vin.foldlM (CTransaction.checkInput env pindexBlock tx inputs) a = .ok b →
      (∀ v ∈ vin.filterMap (readValue env txdb), moneyRange v = true) ∧
        0 ≤ (vin.filterMap (readValue env txdb)).sum ∧
        a + (vin.filterMap (readValue env txdb)).sum ≤ MAX_MONEY := by
    clear h
    induction vin with
    | nil =>
      intro a ha _
      simp only [moneyRange, Bool.and_eq_true, decide_eq_true_eq] at ha
      simp [ha.2]
    | cons txin vin ih =>
      intro a ha h
      simp only [List.foldlM_cons, bind_ok] at h
      obtain ⟨c, hc, hl⟩ := h
      obtain ⟨e, txout, he, ho, hv, rfl, hsum⟩ := checkInput_range hc
      obtain ⟨hall, hpos, hmax⟩ := ih (fun t ht => hsame t (List.mem_cons_of_mem _ ht)) _ hsum hl
      have hv0 := hv
      simp only [moneyRange, Bool.and_eq_true, decide_eq_true_eq] at hv0
      cases hr : readTxFromDisk env txdb txin.prevout with
      | none =>
        have hnone : readValue env txdb txin = none := by simp [readValue, hr]
        simp only [List.filterMap_cons, hnone]
        exact ⟨hall, hpos, by omega⟩
      | some r =>
        have heq := hsame txin List.mem_cons_self r e hr he
        have hsome : readValue env txdb txin = some txout.nValue := by
          simp [readValue, hr, ← heq, ho]
        simp only [List.filterMap_cons, hsome, List.sum_cons, List.forall_mem_cons]
        exact ⟨⟨hv, hall⟩, by omega, by omega⟩
  obtain ⟨hall, hpos, hmax⟩ := hfold 0 (by decide) h
  refine ⟨hall, ?_⟩
  simp only [moneyRange, Bool.and_eq_true, decide_eq_true_eq]
  omega

/-- `GetCoinAge` counts the coin-days of the mature inputs; they fit in 64 bits. -/
theorem getCoinAge_eq (hcb : tx.isCoinBase = false) (hr : RangeChecked env txdb tx.vin)
    {nCoinAge : Nat} (h : tx.getCoinAge env txdb = .ok nCoinAge) :
    (nCoinAge : Int) = coinDays (centSeconds env txdb tx) := by
  simp only [CTransaction.getCoinAge, hcb, Bool.false_eq_true, ↓reduceIte, bind_ok, pure_ok] at h
  obtain ⟨S, hS, rfl⟩ := h
  have hsum := addCoinAge_foldlM hr.nonneg hS
  rw [Int.zero_add] at hsum
  obtain ⟨hlo, hhi⟩ := hr.centSeconds
  have heq : S = centSeconds env txdb tx := hsum
  rw [heq, coinDays, getuint64, Int.tdiv_eq_ediv_of_nonneg (Int.mul_nonneg hlo (by decide))]
  have hc : CENT = 10000 := rfl
  have hm : MAX_MONEY = 120000000000 := rfl
  rw [hm] at hhi
  rw [hc]
  omega

end CoinAge

/-! The product in 64 bits. -/

/-- The two divisions of the reward, which round towards zero. -/
theorem tdiv_year_coin (W : Int) : (W.tdiv 365).tdiv 1000000 =
    if 0 ≤ W then W / 365 / 1000000 else -((-W) / 365 / 1000000) := by
  split
  · rename_i h
    rw [Int.tdiv_eq_ediv_of_nonneg h,
      Int.tdiv_eq_ediv_of_nonneg (Int.ediv_nonneg h (by decide))]
  · rename_i h
    have hneg : 0 ≤ -W := by omega
    have hW : W = -(-W) := by omega
    conv_lhs => rw [hW]
    rw [Int.neg_tdiv, Int.neg_tdiv, Int.tdiv_eq_ediv_of_nonneg hneg,
      Int.tdiv_eq_ediv_of_nonneg (Int.ediv_nonneg hneg (by decide))]

/-- The reward is exact exactly when the product and the sum fit. -/
theorem stakeReward_exact {nCoinAge nFees : Int} (hlo : 0 ≤ nCoinAge)
    (hhi : nCoinAge ≤ 5965236111111111) (hflo : -2 ^ 63 ≤ nFees) (hfhi : nFees < 2 ^ 63) :
    int64 (getProofOfStakeReward (int64 nCoinAge) nFees) = exactSubsidy nCoinAge + nFees ↔
      nCoinAge * MAX_TRI_PROOF_OF_STAKE < 2 ^ 63 ∧ exactSubsidy nCoinAge + nFees < 2 ^ 63 := by
  have hrate : MAX_TRI_PROOF_OF_STAKE = 330000 := rfl
  have hcoin : COIN = 1000000 := rfl
  simp only [getProofOfStakeReward, exactSubsidy, hrate, hcoin, tdiv_year_coin,
    int64_of_range (n := nCoinAge) (by omega) (by omega)]
  obtain ⟨k, hk, hklo, hkhi⟩ := int64_spec (nCoinAge * 330000)
  generalize int64 (nCoinAge * 330000) = W at hk hklo hkhi ⊢
  generalize hR : (if 0 ≤ W then W / 365 / 1000000 else -(-W / 365 / 1000000)) = R
  have hsmall : -30000000000 ≤ R ∧ R ≤ 30000000000 := by
    split at hR <;> omega
  have hexact : 0 ≤ nCoinAge * 330000 / 365 / 1000000 ∧
      nCoinAge * 330000 / 365 / 1000000 ≤ 6000000000000 := by omega
  constructor
  · intro h
    obtain ⟨j, hj, hjlo, hjhi⟩ := int64_spec (R + nFees)
    have hj0 : j = 0 := by omega
    refine ⟨?_, by omega⟩
    by_contra hbig
    have hk1 : 1 ≤ k := by omega
    split at hR <;> omega
  · rintro ⟨hP, hsum⟩
    have hk0 : k = 0 := by omega
    have hsame : R = nCoinAge * 330000 / 365 / 1000000 := by
      rw [← hR, if_pos (by omega), hk, hk0, zero_mul, sub_zero]
    rw [hsame]
    exact int64_of_range (by omega) hsum

/-- The code has exact coin-days and an exact reward. -/
def StakeExact (env : Env) (txdb : CTxDB) (tx : CTransaction) (nCoinAge : Nat) (nFees : Int) :
    Prop :=
  (nCoinAge : Int) = coinDays (centSeconds env txdb tx) ∧
    int64 (getProofOfStakeReward (int64 nCoinAge) nFees) =
      exactSubsidy (coinDays (centSeconds env txdb tx)) + nFees

/-- For a coinstake whose inputs are in range the reward is exact exactly when its cent-seconds are
few enough, and the reward with the fees is an amount of 64 bits. -/
theorem stake_reward_exact_iff {env : Env} {txdb : CTxDB} {tx : CTransaction}
    (hstake : tx.isCoinStake = true) (hr : RangeChecked env txdb tx.vin) {nCoinAge : Nat}
    (hage : tx.getCoinAge env txdb = .ok nCoinAge) {nFees : Int} (hflo : -2 ^ 63 ≤ nFees)
    (hfhi : nFees < 2 ^ 63) :
    StakeExact env txdb tx nCoinAge nFees ↔
      centSeconds env txdb tx ≤ maxCentSeconds ∧
        exactSubsidy (coinDays (centSeconds env txdb tx)) + nFees < 2 ^ 63 := by
  have hcb : tx.isCoinBase = false := by
    cases h : tx.isCoinBase with
    | false => rfl
    | true => simp [coinBase_not_coinStake h] at hstake
  have hdays := getCoinAge_eq hcb hr hage
  obtain ⟨hlo, hhi⟩ := hr.centSeconds
  have hc : CENT = 10000 := rfl
  have hm : MAX_MONEY = 120000000000 := rfl
  have hrate : MAX_TRI_PROOF_OF_STAKE = 330000 := rfl
  have hmax : maxCentSeconds = 241484649692204 := rfl
  rw [hm] at hhi
  have hfit : coinDays (centSeconds env txdb tx) * MAX_TRI_PROOF_OF_STAKE < 2 ^ 63 ↔
      centSeconds env txdb tx ≤ maxCentSeconds := by
    rw [coinDays, hc, hrate, hmax]
    omega
  have hdlo : 0 ≤ coinDays (centSeconds env txdb tx) := by rw [← hdays]; exact Int.natCast_nonneg _
  have hdhi : coinDays (centSeconds env txdb tx) ≤ 5965236111111111 := by
    rw [coinDays, hc]
    omega
  rw [StakeExact, and_iff_right hdays, hdays, stakeReward_exact hdlo hdhi hflo hfhi, hfit]

namespace Sample

def hoard : CTransaction := transfer 10 [⟨999, 0⟩] [MAX_MONEY]

def hoardBlock : CBlock := blockOf 0 15 [hoard]

def hoardEnv : Env := env [(fundIndex, hoardBlock)]

def hoardDb : CTxDB := (nodeWith fun h =>
  if h = 10 then some (.fresh (fundIndex.posOf (firstTxPos hoardBlock fundIndex false)) 1)
  else none).txdb

def hoardStake (nAge : UInt32) : CTransaction where
  nTime := 10 + nAge
  vin := [{ prevout := ⟨10, 0⟩, scriptSig := opTrue }]
  vout := [⟨0, []⟩, ⟨MAX_MONEY, opTrue⟩]

theorem hoard_rangeChecked (nAge : UInt32) :
    RangeChecked hoardEnv hoardDb (hoardStake nAge).vin := by
  have hread : (hoardStake 0).vin.filterMap (readValue hoardEnv hoardDb) = [MAX_MONEY] := by
    decide
  have hsame : (hoardStake nAge).vin = (hoardStake 0).vin := rfl
  rw [RangeChecked, hsame, hread]
  simp [moneyRange, MAX_MONEY, COIN]

end Sample

theorem stake_reward_exact_hundred_days :
    StakeExact Sample.hoardEnv Sample.hoardDb (Sample.hoardStake 8640000) 12000000000000 100 :=
  (stake_reward_exact_iff (by decide) (Sample.hoard_rangeChecked _) (by decide) (by decide)
    (by decide)).mpr (by decide)

/-- At 300 days the product is more than 2 ^ 63, and the reward is negative. -/
theorem stake_reward_overflows :
    RangeChecked Sample.hoardEnv Sample.hoardDb (Sample.hoardStake 25920000).vin ∧
      (Sample.hoardStake 25920000).isCoinStake = true ∧
      (Sample.hoardStake 25920000).getCoinAge Sample.hoardEnv Sample.hoardDb =
        .ok 36000000000000 ∧
      exactSubsidy 36000000000000 = 32547945205 ∧
      getProofOfStakeReward (int64 36000000000000) 0 = -17991079653 ∧
      ¬StakeExact Sample.hoardEnv Sample.hoardDb (Sample.hoardStake 25920000) 36000000000000 0 := by
  refine ⟨Sample.hoard_rangeChecked _, by decide, by decide, by decide,
    by decide, fun h => ?_⟩
  have hreward := h.2
  rw [← h.1] at hreward
  exact absurd hreward (by decide)

end Triangles
