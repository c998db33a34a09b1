import Mathlib.Algebra.Order.Group.Nat
import Mathlib.Algebra.Order.Ring.Int
import Mathlib.Algebra.Order.Ring.Unbundled.Basic
import Triangles.Proofs.CoinChoice
import Triangles.Proofs.Signing
import Triangles.Proofs.StakedBlock

/-! What `CreateTransaction` puts together, and what the memory pool asks of it. -/

namespace Triangles

open Outcome

section Attempt

variable {env : Env} {p : Payer} {chance : CoinChance} {coinControl : Option CCoinControl}

/-- What a signed input holds: pushes, and no more bytes than the wallet's coins can take. -/
def SignedWithin (bound : Nat) (tx : CTransaction) : Prop :=
  ∀ txin ∈ tx.vin, SigPushes txin.scriptSig ∧ txin.scriptSig.length ≤ bound

/-- Signing writes scripts into inputs and leaves the rest of the transaction. -/
structure SignedFrom (bound : Nat) (tx tx' : CTransaction) : Prop where
  version : tx'.nVersion = tx.nVersion
  vout : tx'.vout = tx.vout
  prevouts : tx'.vin.map CTxIn.prevout = tx.vin.map CTxIn.prevout
  scripts : SignedWithin bound tx → SignedWithin bound tx'

theorem SignedFrom.refl (bound : Nat) (tx : CTransaction) : SignedFrom bound tx tx :=
  ⟨rfl, rfl, rfl, id⟩

theorem SignedFrom.trans {bound : Nat} {a b c : CTransaction} (hab : SignedFrom bound a b)
    (hbc : SignedFrom bound b c) : SignedFrom bound a c where
  version := hbc.version.trans hab.version
  vout := hbc.vout.trans hab.vout
  prevouts := hbc.prevouts.trans hab.prevouts
  scripts h := hbc.scripts (hab.scripts h)

theorem signSignature_spec {keystore : CKeyStore} {nHeightBest : Int} {fromPubKey s : CScript}
    {txTo : CTransaction} {nIn : Nat}
    (h : keystore.signSignature env nHeightBest fromPubKey txTo nIn = some s) :
    SigPushes s ∧ s.length ≤ sigBound keystore fromPubKey := by
  unfold CKeyStore.signSignature at h
  split at h
  · cases h
  · rename_i scriptSig hsign
    split at h
    · cases h
      exact signScript_spec hsign
    · cases h

theorem signCoin_signedFrom {bound : Nat} {tx tx' : CTransaction} {coin : COutput × Nat}
    (hbound : sigBound p.keystore coin.1.txout.scriptPubKey ≤ bound)
    (h : signCoin env p tx coin = some tx') : SignedFrom bound tx tx' := by
  obtain ⟨s, hsign, rfl⟩ := Option.map_eq_some_iff.mp h
  obtain ⟨hp, hlen⟩ := signSignature_spec hsign
  refine ⟨rfl, rfl, ?_, fun hs txin hm => ?_⟩
  · apply List.ext_getElem?
    intro i
    rw [List.getElem?_map, List.getElem?_map, List.getElem?_modify]
    cases tx.vin[i]? with
    | none => rfl
    | some txin =>
      simp only [Option.map_eq_map, Option.map_some]
      split <;> rfl
  · obtain ⟨i, hi⟩ := List.mem_iff_getElem?.mp hm
    rw [List.getElem?_modify] at hi
    obtain ⟨txin, hin, rfl⟩ := Option.map_eq_some_iff.mp hi
    split
    · exact ⟨hp, hlen.trans hbound⟩
    · exact hs txin (List.mem_of_getElem? hin)

theorem signCoins_signedFrom {bound : Nat} {tx tx' : CTransaction}
    (coins : List (COutput × Nat))
    (hbound : ∀ coin ∈ coins, sigBound p.keystore coin.1.txout.scriptPubKey ≤ bound)
    (h : coins.foldlM (signCoin env p) tx = some tx') : SignedFrom bound tx tx' := by
  induction coins generalizing tx with
  | nil =>
    cases h
    exact .refl bound _
  | cons coin coins ih =>
    rw [List.foldlM_cons] at h
    obtain ⟨tx₁, hfirst, hrest⟩ := Option.bind_eq_some_iff.mp h
    exact (signCoin_signedFrom (hbound coin List.mem_cons_self) hfirst).trans
      (ih (fun c hc => hbound c (List.mem_cons_of_mem _ hc)) hrest)

theorem stepBack_le (vout : List CTxOut) (position : Nat) : stepBack vout position ≤ position := by
  induction position with
  | zero => exact le_rfl
  | succ position ih =>
    unfold stepBack
    split
    · exact le_rfl
    · exact Nat.le_succ_of_le ih

theorem changePosition_le {vout : List CTxOut} {position : Nat} (h : position ≤ vout.length) :
    changePosition vout position ≤ vout.length := by
  unfold changePosition
  split
  · exact (stepBack_le vout position).trans h
  · exact h

/-- The outputs are the payments, with a change of a positive amount among them. -/
theorem paymentOutputs_change (p : Payer) (chance : CoinChance) (coinControl : Option CCoinControl)
    (vecSend : List (CScript × Int)) (nChange : Int) :
    ∃ change : List Int, (∀ n ∈ change, 0 < n) ∧ change.sum = max nChange 0 ∧
      (paymentOutputs p chance coinControl vecSend nChange).Perm
        ((change.map fun n => ⟨n, scriptChange p coinControl⟩) ++
          vecSend.map fun s => ⟨s.2, s.1⟩) := by
  unfold paymentOutputs
  simp only
  split
  · rename_i hpos
    refine ⟨[nChange], ?_, ?_, ?_⟩
    · intro n hn
      rw [List.mem_singleton.mp hn]
      exact hpos
    · rw [List.sum_singleton, max_eq_left hpos.le]
    · apply List.perm_insertIdx
      apply changePosition_le
      exact Nat.le_of_lt_succ (chance.getRandInt_lt _ (Nat.succ_pos _))
  · rename_i hnone
    exact ⟨[], nofun, (max_eq_right (Int.not_lt.mp hnone)).symm, .refl _⟩

/-- The outputs have the value of the payments and of the change. -/
theorem paymentOutputs_value (p : Payer) (chance : CoinChance)
    (coinControl : Option CCoinControl) (vecSend : List (CScript × Int)) (nChange : Int) :
    ((paymentOutputs p chance coinControl vecSend nChange).map CTxOut.nValue).sum =
      max nChange 0 + (vecSend.map Prod.snd).sum := by
  obtain ⟨change, -, hsum, hperm⟩ := paymentOutputs_change p chance coinControl vecSend nChange
  rw [(hperm.map CTxOut.nValue).sum_eq, List.map_append, List.sum_append, List.map_map,
    List.map_map, ← hsum]
  exact congrArg (·.sum + _) (List.map_id change)

theorem moveToFee_bounds {nFeeRet nChange : Int} (hfee : 0 ≤ nFeeRet) (h : 0 ≤ nChange) :
    0 ≤ moveToFee nFeeRet nChange ∧ moveToFee nFeeRet nChange ≤ nChange := by
  have hmin : MIN_TX_FEE = 100 := rfl
  unfold moveToFee
  split
  · rename_i hc
    rw [int64_of_range (by omega) (by omega)]
    omega
  · omega

theorem moveToFee_enough {nFeeRet : Int} (nChange : Int) (h : MIN_TX_FEE ≤ nFeeRet) :
    moveToFee nFeeRet nChange = 0 := if_neg fun hc => absurd hc.1 (Int.not_lt.mpr h)

/-- The parts of coins each of a positive value are not worth more than the whole. -/
theorem valueSum_le {coins offered : List COutput} (h : coins.Subperm offered)
    (hpos : ∀ coin ∈ offered, 0 ≤ coin.txout.nValue) : valueSum coins ≤ valueSum offered := by
  obtain ⟨l, hperm, hsub⟩ := h
  rw [valueSum, ← (hperm.map _).sum_eq]
  exact hsub.map _ |>.sum_le_sum fun v hv => by
    obtain ⟨coin, hm, rfl⟩ := List.mem_map.mp hv
    exact hpos coin hm

/-- The coins that are offered add up in 64 bits. -/
structure CoinsFit (p : Payer) (coinControl : Option CCoinControl) : Prop where
  nonneg : ∀ coin ∈ p.offered coinControl, 0 ≤ coin.txout.nValue
  worth : valueSum (p.offered coinControl) < 2 ^ 63

/-- What a round asks of the coins is an amount of 64 bits. -/
structure RoundFits (nValue nFeeRet : Int) : Prop where
  value : 0 ≤ nValue
  fee : 0 ≤ nFeeRet
  total : nValue + nFeeRet < 2 ^ 63

theorem RoundFits.target {nValue nFeeRet : Int} (h : RoundFits nValue nFeeRet) :
    int64 (nValue + nFeeRet) = nValue + nFeeRet := by
  have hvalue := h.value
  have hfee := h.fee
  exact int64_of_range (by omega) h.total

/-- The change of a round that fits, and what is moved from it to the fee, are the plain ones. -/
theorem RoundFits.change {nValue nFeeRet nValueIn : Int} (h : RoundFits nValue nFeeRet)
    (hin : nValueIn < 2 ^ 63) (henough : nValue + nFeeRet ≤ nValueIn) :
    int64 (nValueIn - nValue - nFeeRet) = nValueIn - nValue - nFeeRet ∧
      ∃ nMove, nMove = moveToFee nFeeRet (nValueIn - nValue - nFeeRet) ∧ 0 ≤ nMove ∧
        nMove ≤ nValueIn - nValue - nFeeRet ∧
        int64 (nValueIn - nValue - nFeeRet - nMove) = nValueIn - nValue - nFeeRet - nMove ∧
        int64 (nFeeRet + nMove) = nFeeRet + nMove := by
  obtain ⟨hvalue, hfee, -⟩ := h
  obtain ⟨hlow, hhigh⟩ := moveToFee_bounds hfee
    (show 0 ≤ nValueIn - nValue - nFeeRet by omega)
  exact ⟨int64_of_range (by omega) (by omega), _, rfl, hlow, hhigh,
    int64_of_range (by omega) (by omega), int64_of_range (by omega) (by omega)⟩

/-- What the round that succeeds has made. -/
structure Pays (env : Env) (p : Payer) (coinControl : Option CCoinControl)
    (vecSend : List (CScript × Int)) (wtxNew tx : CTransaction) (nFeeRet : Int)
    (coins : List COutput) : Prop where
  offered : coins.Subperm (p.offered coinControl)
  version : tx.nVersion = wtxNew.nVersion
  prevouts : tx.vin.map CTxIn.prevout = coins.map (COutput.outpoint env)
  scripts : ∀ bound, (∀ coin ∈ p.offered coinControl,
    sigBound p.keystore coin.txout.scriptPubKey ≤ bound) → SignedWithin bound tx
  outputs : ∃ change : List Int, (∀ n ∈ change, 0 < n) ∧
    tx.vout.Perm ((change.map fun n => ⟨n, scriptChange p coinControl⟩) ++
      vecSend.map fun s => ⟨s.2, s.1⟩)
  value : valueSum coins = tx.valueOut + nFeeRet
  fee : tx.getMinFee 1 .GMF_SEND tx.getSerializeSize ≤ nFeeRet
  size : tx.getSerializeSize < MAX_BLOCK_SIZE_GEN / 5

theorem createAttempt_cases {vecSend : List (CScript × Int)} {wtxNew tx : CTransaction}
    {nValue nFeeRet nFeeRet' : Int}
    (h : createAttempt env p chance coinControl vecSend nValue wtxNew nFeeRet =
      .created tx nFeeRet') :
    ∃ setCoins nValueIn nChange,
      selectCoins p chance coinControl (int64 (nValue + nFeeRet)) wtxNew.nTime =
        some (setCoins, nValueIn) ∧
      nChange = int64 (nValueIn - nValue - nFeeRet) ∧
      nFeeRet' = int64 (nFeeRet + moveToFee nFeeRet nChange) ∧
      (chance.pointerOrder setCoins).zipIdx.foldlM (signCoin env p) { wtxNew with
        vin := (chance.pointerOrder setCoins).map fun coin =>
          ⟨⟨coin.wtx.tx.getHash env, UInt32.ofNat coin.i⟩, [], 0xffffffff⟩
        vout := paymentOutputs p chance coinControl vecSend
          (int64 (nChange - moveToFee nFeeRet nChange)) } = some tx ∧
      tx.getSerializeSize < MAX_BLOCK_SIZE_GEN / 5 ∧
      max (int64 (p.nTransactionFee * (1 + (tx.getSerializeSize / 1000 : Nat))))
        (tx.getMinFee 1 .GMF_SEND tx.getSerializeSize) ≤ nFeeRet' := by
  unfold createAttempt at h
  simp only at h
  split at h
  · cases h
  · rename_i setCoins nValueIn hselect
    split at h
    · cases h
    · rename_i signed hsign
      split at h
      · cases h
      · rename_i hsize
        split at h
        · cases h
        · rename_i hfee
          cases h
          exact ⟨setCoins, nValueIn, _, hselect, rfl, rfl, hsign, Nat.not_le.mp hsize,
            Int.not_lt.mp hfee⟩

theorem createAttempt_vout {vecSend : List (CScript × Int)} {wtxNew tx : CTransaction}
    {nValue nFeeRet nFeeRet' : Int}
    (h : createAttempt env p chance coinControl vecSend nValue wtxNew nFeeRet =
      .created tx nFeeRet') :
    ∃ nChange, tx.vout = paymentOutputs p chance coinControl vecSend nChange := by
  obtain ⟨setCoins, nValueIn, nChange, -, -, -, hsign, -, -⟩ := createAttempt_cases h
  exact ⟨_, (signCoins_signedFrom _ (fun coin hm => List.le_sum_of_mem (List.mem_map_of_mem
    (f := fun c : COutput × Nat => sigBound p.keystore c.1.txout.scriptPubKey) hm)) hsign).vout⟩

theorem createAttempt_created {vecSend : List (CScript × Int)} {wtxNew tx : CTransaction}
    {nValue nFeeRet nFeeRet' : Int} (hcoins : CoinsFit p coinControl)
    (hfits : RoundFits nValue nFeeRet) (hsent : nValue = (vecSend.map Prod.snd).sum)
    (h : createAttempt env p chance coinControl vecSend nValue wtxNew nFeeRet =
      .created tx nFeeRet') :
    ∃ coins, Pays env p coinControl vecSend wtxNew tx nFeeRet' coins := by
  obtain ⟨setCoins, nValueIn, nChange, hselect, rfl, rfl, hsign, hsize, hfee⟩ :=
    createAttempt_cases h
  rw [hfits.target] at hselect
  have hcovers := selectCoins_covers hselect
  have hperm := chance.pointerOrder_perm setCoins
  have hoff : (chance.pointerOrder setCoins).Subperm (p.offered coinControl) :=
    hperm.subperm.trans hcovers.subperm
  have hfrom : ∀ bound, (∀ coin ∈ p.offered coinControl,
      sigBound p.keystore coin.txout.scriptPubKey ≤ bound) → SignedFrom bound _ tx :=
    fun bound hbound => signCoins_signedFrom _
      (fun coin hm => hbound _ (hoff.subset (List.fst_mem_of_mem_zipIdx hm))) hsign
  have hplain := hfrom _ fun coin hm => List.le_sum_of_mem
    (List.mem_map_of_mem (f := fun c : COutput => sigBound p.keystore c.txout.scriptPubKey) hm)
  have hvalueIn : valueSum (chance.pointerOrder setCoins) = nValueIn := by
    rw [hcovers.value]
    exact (hperm.map _).sum_eq
  have hin : nValueIn < 2 ^ 63 := by
    have hle := valueSum_le hoff hcoins.nonneg
    have hworth := hcoins.worth
    omega
  obtain ⟨hchange, nMove, hmove, -, hrange, hrest, hpaid⟩ := hfits.change hin hcovers.enough
  rw [hchange, ← hmove] at hplain hfrom hfee ⊢
  rw [hrest] at hplain hfrom
  rw [hpaid] at hfee ⊢
  refine ⟨_, hoff, hplain.version, ?_, ?_, ?_, ?_, ?_, hsize⟩
  · rw [hplain.prevouts, List.map_map]
    rfl
  · intro bound hbound
    refine (hfrom bound hbound).scripts fun txin hm => ?_
    obtain ⟨coin, -, rfl⟩ := List.mem_map.mp hm
    exact ⟨sigPushes_nil, Nat.zero_le _⟩
  · obtain ⟨change, hpos, -, hpays⟩ := paymentOutputs_change p chance coinControl vecSend
      (nValueIn - nValue - nFeeRet - nMove)
    rw [hplain.vout]
    exact ⟨change, hpos, hpays⟩
  · rw [hvalueIn, CTransaction.valueOut, hplain.vout, paymentOutputs_value, ← hsent,
      max_eq_left (by omega)]
    omega
  · exact (le_max_right ..).trans hfee

end Attempt

section Fees

theorem getMinFee_small (tx : CTransaction) {nBytes : Nat} (h : nBytes < MAX_BLOCK_SIZE_GEN / 5) :
    tx.getMinFee 1 .GMF_SEND nBytes = (1 + (nBytes / 1000 : Nat)) * MIN_TX_FEE ∧
      tx.getMinFee 1000 .GMF_RELAY nBytes = (1 + (nBytes / 1000 : Nat)) * MIN_TX_FEE := by
  have hgen : MAX_BLOCK_SIZE_GEN = 500000 := rfl
  have hfee : MIN_TX_FEE = 100 := rfl
  have hrelay : MIN_RELAY_TX_FEE = 100 := rfl
  have hmoney : MAX_MONEY = 120000000000 := rfl
  rw [hgen] at h
  have hroom : ¬ (MAX_BLOCK_SIZE_GEN / 2 ≤ 1000 + nBytes) := by omega
  have hk : nBytes / 1000 ≤ 99 := by omega
  unfold CTransaction.getMinFee
  generalize nBytes / 1000 = k at hk
  have hlow : ¬ (1 + (k : Int)) * 100 < 100 := by omega
  have hrange : moneyRange ((1 + (k : Int)) * 100) = true := by
    simp only [moneyRange, hmoney, Bool.and_eq_true, decide_eq_true_eq]
    omega
  constructor
  · simp [hfee, hlow, hrange]
  · simp [hrelay, hfee, hlow, hrange, hroom]

variable {env : Env} {p : Payer} {coinControl : Option CCoinControl}

def laterFee (p : Payer) (k : Nat) : Int :=
  max (int64 (p.nTransactionFee * (1 + k))) ((1 + k) * MIN_TX_FEE)

theorem laterFee_bounds (p : Payer) {k : Nat} (hk : k ≤ 99) :
    MIN_TX_FEE ≤ laterFee p k ∧ laterFee p k < 2 ^ 63 := by
  have hmin : MIN_TX_FEE = 100 := rfl
  obtain ⟨-, -, -, hlt⟩ := int64_spec (p.nTransactionFee * (1 + k))
  unfold laterFee
  rw [hmin]
  constructor
  · apply le_max_of_le_right
    omega
  · apply max_lt hlt
    omega

variable {vecSend : List (CScript × Int)} {wtxNew : CTransaction} {nValue nFeeRet : Int}

theorem createAttempt_again {chance : CoinChance} {nFeeRet' : Int}
    (h : createAttempt env p chance coinControl vecSend nValue wtxNew nFeeRet = .again nFeeRet') :
    (∃ coins nValueIn, selectCoins p chance coinControl (int64 (nValue + nFeeRet)) wtxNew.nTime =
      some (coins, nValueIn)) ∧ (∃ k ≤ 99, nFeeRet' = laterFee p k) ∧
      (MIN_TX_FEE ≤ nFeeRet → nFeeRet < 2 ^ 63 → nFeeRet < nFeeRet') := by
  unfold createAttempt at h
  simp only at h
  split at h
  · cases h
  · rename_i setCoins nValueIn hselect
    split at h
    · cases h
    · rename_i signed hsign
      split at h
      · cases h
      · rename_i hsize
        split at h
        · rename_i hfee
          cases h
          have hsmall := Nat.not_le.mp hsize
          refine ⟨⟨setCoins, nValueIn, hselect⟩, ⟨signed.getSerializeSize / 1000, ?_, ?_⟩,
            fun hmin hlt => ?_⟩
          · have hgen : MAX_BLOCK_SIZE_GEN = 500000 := rfl
            omega
          · rw [(getMinFee_small signed hsmall).1, laterFee]
          · -- nothing is moved to a fee of the minimum or more
            have hleast : MIN_TX_FEE = 100 := rfl
            rw [moveToFee_enough _ hmin, Int.add_zero, int64_of_range (by omega) hlt] at hfee
            exact hfee
        · cases h

def feesAbove (p : Payer) (nFeeRet : Int) : Finset Int :=
  ((Finset.range 100).image (laterFee p)).filter (nFeeRet < ·)

theorem laterFee_mem_feesAbove {k : Nat} (hk : k ≤ 99) (h : nFeeRet < laterFee p k) :
    laterFee p k ∈ feesAbove p nFeeRet :=
  Finset.mem_filter.mpr ⟨Finset.mem_image_of_mem _ (Finset.mem_range.mpr (by omega)), h⟩

theorem feesAbove_card_lt {nFeeRet' : Int} (h : nFeeRet' ∈ feesAbove p nFeeRet) :
    (feesAbove p nFeeRet').card < (feesAbove p nFeeRet).card := by
  have hlt : nFeeRet < nFeeRet' := (Finset.mem_filter.mp h).2
  apply Finset.card_lt_card
  refine ⟨fun n hn => ?_, fun hsub => ?_⟩
  · obtain ⟨himage, habove⟩ := Finset.mem_filter.mp hn
    exact Finset.mem_filter.mpr ⟨himage, hlt.trans habove⟩
  · exact lt_irrefl _ (Finset.mem_filter.mp (hsub h)).2

/-- The fee rises from round to round, and there are a hundred that it can take. -/
theorem createLoop_ends {chance : Nat → CoinChance} {rounds round : Nat}
    (hmin : MIN_TX_FEE ≤ nFeeRet) (hlt : nFeeRet < 2 ^ 63)
    (hrounds : (feesAbove p nFeeRet).card < rounds) :
    createLoop env p chance coinControl vecSend nValue wtxNew rounds round nFeeRet ≠ none := by
  induction rounds generalizing round nFeeRet with
  | zero => exact absurd hrounds (Nat.not_lt_zero _)
  | succ rounds ih =>
    unfold createLoop
    split
    · exact nofun
    · rename_i nFeeRet' hagain
      obtain ⟨-, ⟨k, hk, rfl⟩, hmore⟩ := createAttempt_again hagain
      obtain ⟨hmin', hlt'⟩ := laterFee_bounds p hk
      have hfewer := feesAbove_card_lt (laterFee_mem_feesAbove hk (hmore hmin hlt))
      exact ih hmin' hlt' (by omega)
    · exact nofun

/-- The rounds of the loop suffice, whatever the fee that the user has set. -/
theorem createLoop_returns (chance : Nat → CoinChance) (vecSend : List (CScript × Int))
    (nValue : Int) (wtxNew : CTransaction) (nFeeRet : Int) :
    createLoop env p chance coinControl vecSend nValue wtxNew createRounds 0 nFeeRet ≠ none := by
  rw [show createRounds = 100 + 1 from rfl, createLoop]
  split
  · exact nofun
  · rename_i nFeeRet' hagain
    obtain ⟨-, ⟨k, hk, rfl⟩, -⟩ := createAttempt_again hagain
    obtain ⟨hmin, hlt⟩ := laterFee_bounds p hk
    refine createLoop_ends hmin hlt ?_
    have hmem := laterFee_mem_feesAbove (p := p) hk (Int.sub_one_lt_of_le (le_refl (laterFee p k)))
    calc (feesAbove p (laterFee p k)).card < (feesAbove p (laterFee p k - 1)).card :=
          feesAbove_card_lt hmem
      _ ≤ ((Finset.range 100).image (laterFee p)).card := Finset.card_filter_le _ _
      _ ≤ 100 := Finset.card_image_le
  · exact nofun

/-- What the loop returns was made by one of its rounds, with a fee of which every round keeps `P`. -/
theorem createLoop_created {chance : Nat → CoinChance} {tx : CTransaction} {rounds round : Nat}
    {nFeeRet' : Int} {P : Int → Prop} (hstart : P nFeeRet)
    (hstep : ∀ chance nFeeRet nFeeRet', P nFeeRet →
      createAttempt env p chance coinControl vecSend nValue wtxNew nFeeRet = .again nFeeRet' →
      P nFeeRet')
    (h : createLoop env p chance coinControl vecSend nValue wtxNew rounds round nFeeRet =
      some (some (tx, nFeeRet'))) :
    ∃ round nFeeRet, P nFeeRet ∧
      createAttempt env p (chance round) coinControl vecSend nValue wtxNew nFeeRet =
        .created tx nFeeRet' := by
  induction rounds generalizing round nFeeRet with
  | zero => cases h
  | succ rounds ih =>
    unfold createLoop at h
    split at h
    · cases h
    · rename_i nFeeRet₁ hagain
      exact ih (hstep _ _ _ hstart hagain) h
    · rename_i hcreated
      cases h
      exact ⟨round, nFeeRet, hstart, hcreated⟩

/-- Amounts that are not negative, as 64 bits hold them. -/
def SendAmounts (vecSend : List (CScript × Int)) : Prop := ∀ s ∈ vecSend, 0 ≤ s.2 ∧ s.2 < 2 ^ 63

/-- Where the sum leaves 64 bits it turns negative, which the next check refuses. -/
theorem totalSent_eq {vecSend : List (CScript × Int)} (hamounts : SendAmounts vecSend)
    {nValue total : Int} (hlow : 0 ≤ nValue) (hhigh : nValue < 2 ^ 63)
    (h : totalSent vecSend nValue = some total) :
    total = nValue + (vecSend.map Prod.snd).sum ∧ 0 ≤ total ∧ total < 2 ^ 63 := by
  induction vecSend generalizing nValue with
  | nil =>
    rw [totalSent, if_neg (by omega)] at h
    cases h
    exact ⟨by simp, hlow, hhigh⟩
  | cons s rest ih =>
    obtain ⟨hs, hrest⟩ := List.forall_mem_cons.mp hamounts
    rw [totalSent, if_neg (by omega)] at h
    obtain ⟨k, hwrap, hmin, hmax⟩ := int64_spec (nValue + s.2)
    rcases Int.lt_or_le (nValue + s.2) (2 ^ 63) with hfits | hover
    · rw [int64_of_range (by omega) hfits] at h
      obtain ⟨htotal, hrange⟩ := ih hrest (by omega) hfits h
      refine ⟨?_, hrange⟩
      rw [htotal, List.map_cons, List.sum_cons]
      omega
    · have hneg : int64 (nValue + s.2) < 0 := by omega
      cases rest with
      | nil => rw [totalSent, if_pos hneg] at h; cases h
      | cons s' rest => rw [totalSent, if_pos hneg] at h; cases h

def Payer.maxFee (p : Payer) : Int := 100 * max p.nTransactionFee MIN_TX_FEE

/-- What is sent and the fee fit in 64 bits together, with the `CENT` that the choice of coins adds:
with the fee that is set, and, unless the coins do not pay for that, with the fee of the largest
transaction. -/
structure Payer.Fits (p : Payer) (coinControl : Option CCoinControl)
    (vecSend : List (CScript × Int)) : Prop extends CoinsFit p coinControl where
  first : (vecSend.map Prod.snd).sum + p.nTransactionFee + CENT < 2 ^ 63
  later : (vecSend.map Prod.snd).sum + p.nTransactionFee ≤ valueSum (p.offered coinControl) →
    (vecSend.map Prod.snd).sum + p.maxFee + CENT < 2 ^ 63

/-- The fee that is set is an amount of 64 bits. -/
def Payer.FeeSet (p : Payer) : Prop := 0 ≤ p.nTransactionFee ∧ p.nTransactionFee < 2 ^ 63

theorem laterFee_plain (hset : p.FeeSet) (hmax : p.maxFee < 2 ^ 63) {k : Nat} (hk : k ≤ 99) :
    int64 (p.nTransactionFee * (1 + k)) = p.nTransactionFee * (1 + k) ∧
      laterFee p k ≤ p.maxFee := by
  have hleast : MIN_TX_FEE = 100 := rfl
  obtain ⟨hlow, -⟩ := hset
  have hpos : 0 ≤ p.nTransactionFee * (1 + k) := Int.mul_nonneg hlow (by omega)
  have hle : p.nTransactionFee * (1 + k) ≤ p.nTransactionFee * 100 :=
    Int.mul_le_mul_of_nonneg_left (by omega) hlow
  unfold Payer.maxFee at hmax ⊢
  have hplain : int64 (p.nTransactionFee * (1 + k)) = p.nTransactionFee * (1 + k) :=
    int64_of_range (by omega) (by omega)
  refine ⟨hplain, ?_⟩
  rw [laterFee, hplain, hleast]
  exact max_le (by omega) (by omega)

/-- A fee of some round: the one that is set, or a later one. -/
def RoundFee (p : Payer) (coinControl : Option CCoinControl) (nValue nFeeRet : Int) : Prop :=
  nFeeRet = p.nTransactionFee ∨
    nValue + p.nTransactionFee ≤ valueSum (p.offered coinControl) ∧ 0 ≤ nFeeRet ∧
      nFeeRet ≤ p.maxFee

/-- The largest fee is an amount of 64 bits as soon as the coins pay for the one that is set. -/
theorem Payer.Fits.maxFee_lt (hfits : p.Fits coinControl vecSend)
    (hsent : nValue = (vecSend.map Prod.snd).sum) (hvalue : 0 ≤ nValue)
    (hpaid : nValue + p.nTransactionFee ≤ valueSum (p.offered coinControl)) :
    p.maxFee < 2 ^ 63 := by
  have hlater := hfits.later (by omega)
  have hcent : 0 < CENT := by decide
  omega

section Fits

variable (hfits : p.Fits coinControl vecSend) (hset : p.FeeSet)
  (hsent : nValue = (vecSend.map Prod.snd).sum) (hvalue : 0 ≤ nValue)
include hfits hset hsent hvalue

theorem RoundFee.fits (h : RoundFee p coinControl nValue nFeeRet) : RoundFits nValue nFeeRet := by
  have hfirst := hfits.first
  have hlater := hfits.later
  obtain ⟨hlow, -⟩ := hset
  have hcent : 0 < CENT := by decide
  rcases h with rfl | ⟨hpaid, hfee, hmost⟩
  · exact ⟨hvalue, hlow, by omega⟩
  · have hmax := hlater (by omega)
    exact ⟨hvalue, hfee, by omega⟩

/-- A round that finds coins shows that they pay for the fee that is set. -/
theorem RoundFee.paid {chance : CoinChance} {coins : List COutput} {nSpendTime : UInt32}
    {nValueIn : Int} (h : RoundFee p coinControl nValue nFeeRet)
    (hselect : selectCoins p chance coinControl (int64 (nValue + nFeeRet)) nSpendTime =
      some (coins, nValueIn)) : nValue + p.nTransactionFee ≤ valueSum (p.offered coinControl) := by
  rw [(h.fits hfits hset hsent hvalue).target] at hselect
  have hcovers := selectCoins_covers hselect
  have hworth := valueSum_le hcovers.subperm hfits.nonneg
  have henough := hcovers.enough
  rw [hcovers.value] at henough
  rcases h with rfl | ⟨hpaid, -⟩
  · omega
  · exact hpaid

theorem RoundFee.again {chance : CoinChance} {nFeeRet' : Int}
    (h : RoundFee p coinControl nValue nFeeRet)
    (hagain : createAttempt env p chance coinControl vecSend nValue wtxNew nFeeRet =
      .again nFeeRet') : RoundFee p coinControl nValue nFeeRet' := by
  obtain ⟨⟨coins, nValueIn, hselect⟩, ⟨k, hk, rfl⟩, -⟩ := createAttempt_again hagain
  have hpaid := h.paid hfits hset hsent hvalue hselect
  have hleast : MIN_TX_FEE = 100 := rfl
  obtain ⟨hmin, -⟩ := laterFee_bounds p hk
  exact .inr ⟨hpaid, by omega,
    (laterFee_plain hset (hfits.maxFee_lt hsent hvalue hpaid) hk).2⟩

end Fits
/-- The payments of `CreateTransaction`: one, and a narration if there is a text. -/
def sendOf (scriptPubKey : CScript) (nValue : Int) (sNarr : List UInt8) : List (CScript × Int) :=
  (scriptPubKey, nValue) :: if 0 < sNarr.length then [(narrationScript sNarr, 0)] else []

/-- A payment that fits was made by a round that fits, and was asked the plain fee for its size. -/
theorem createTransactionMany_created {chance : Nat → CoinChance} {tx : CTransaction}
    {nFeeRet' : Int} (hfits : p.Fits coinControl vecSend) (hset : p.FeeSet)
    (hamounts : SendAmounts vecSend)
    (h : createTransactionMany env p chance coinControl vecSend wtxNew = some (tx, nFeeRet')) :
    (∃ coins, Pays env p coinControl vecSend wtxNew tx nFeeRet' coins) ∧
      p.nTransactionFee * (1 + (tx.getSerializeSize / 1000 : Nat)) ≤ nFeeRet' := by
  unfold createTransactionMany at h
  split at h
  · cases h
  · rename_i nValue htotal
    obtain ⟨hsent, hvalue, -⟩ := totalSent_eq hamounts (le_refl 0) (by decide) htotal
    rw [Int.zero_add] at hsent
    split at h
    · cases h
    · obtain ⟨round, nFeeRet, hround, hcreated⟩ := createLoop_created
        (P := RoundFee p coinControl nValue) (.inl rfl)
        (fun chance nFeeRet nFeeRet' hround hagain =>
          hround.again hfits hset hsent hvalue hagain) (Option.join_eq_some_iff.mp h)
      refine ⟨createAttempt_created hfits.toCoinsFit (hround.fits hfits hset hsent hvalue) hsent
        hcreated, ?_⟩
      obtain ⟨setCoins, nValueIn, nChange, hselect, -, -, -, hsize, hfee⟩ :=
        createAttempt_cases hcreated
      have hgen : MAX_BLOCK_SIZE_GEN = 500000 := rfl
      have hmax := hfits.maxFee_lt hsent hvalue
        (hround.paid hfits hset hsent hvalue hselect)
      rw [(laterFee_plain hset hmax (by omega)).1] at hfee
      exact (le_max_left ..).trans hfee

/-- What is returned was made by some round, whether its sums fit or not. -/
theorem createTransactionMany_vout {chance : Nat → CoinChance} {tx : CTransaction}
    {nFeeRet' : Int}
    (h : createTransactionMany env p chance coinControl vecSend wtxNew = some (tx, nFeeRet')) :
    ∃ round nChange, tx.vout = paymentOutputs p (chance round) coinControl vecSend nChange := by
  unfold createTransactionMany at h
  split at h
  · cases h
  · split at h
    · cases h
    · obtain ⟨round, nFeeRet, -, hcreated⟩ := createLoop_created (P := fun _ => True) trivial
        (fun _ _ _ _ _ => trivial) (Option.join_eq_some_iff.mp h)
      exact ⟨round, createAttempt_vout hcreated⟩

theorem createTransaction_pays {chance : Nat → CoinChance} {scriptPubKey : CScript}
    {sNarr : List UInt8} {tx : CTransaction} {nFeeRet : Int}
    (hfits : p.Fits coinControl (sendOf scriptPubKey nValue sNarr)) (hset : p.FeeSet)
    (hvalue : 0 < nValue ∧ nValue < 2 ^ 63)
    (h : createTransaction env p chance coinControl scriptPubKey nValue sNarr wtxNew =
      some (tx, nFeeRet)) :
    ∃ coins, Pays env p coinControl (sendOf scriptPubKey nValue sNarr) wtxNew tx nFeeRet coins := by
  refine (createTransactionMany_created hfits hset (fun s hm => ?_) h).1
  rcases List.mem_cons.mp hm with rfl | hm
  · exact ⟨hvalue.1.le, hvalue.2⟩
  · split at hm
    · rw [List.mem_singleton.mp hm]
      exact ⟨le_refl (0 : Int), show (0 : Int) < 2 ^ 63 by decide⟩
    · cases hm

end Fees

section Standard

theorem matchTemplate_step {opcode2 : UInt8} (ho : opcode2 ≠ OP_PUBKEYS) (tplate : List UInt8)
    {script : CScript} {op : ScriptOp} (hop : getOp script = some op)
    (vSolutions : List (List UInt8)) :
    matchTemplate (opcode2 :: tplate) script vSolutions =
      (matchOpcode opcode2 op vSolutions).bind (matchTemplate tplate op.2.2) := by
  rw [matchTemplate, hop]
  simp only [if_neg ho]
  cases matchOpcode opcode2 op vSolutions <;> rfl

theorem getOp_push20 {id : uint160} (hlen : id.length = 20) (rest : CScript) :
    getOp (20 :: (id ++ rest)) = some (20, id, rest) := by
  rw [getOp, if_pos (by decide), pushSize, if_pos (by decide)]
  simp only [show (20 : UInt8).toNat = 20 from rfl, ← hlen]
  rw [if_neg (by simp), List.take_left, List.drop_left]

theorem push20_not_wasteful {id : uint160} (hlen : id.length = 20) :
    wastefulPush 20 id = false := by
  simp [wastefulPush, hlen, show (20 : UInt8) ≠ OP_PUSHDATA1 by decide,
    show (20 : UInt8) ≠ OP_PUSHDATA2 by decide, show (20 : UInt8) ≠ OP_PUSHDATA4 by decide]

theorem keyID_standard {id : uint160} (hlen : id.length = 20) :
    isStandardScript (setDestination (.keyID id)) = true ∧
      hasCanonicalPushes (setDestination (.keyID id)) = true := by
  have hshape : setDestination (.keyID id) =
      OP_DUP :: OP_HASH160 :: 20 :: (id ++ [OP_EQUALVERIFY, OP_CHECKSIG]) := by
    simp [setDestination, hlen]
  have hsize : (setDestination (.keyID id)).length = 25 := by simp [hshape, hlen]
  have hpay : isPayToScriptHash (setDestination (.keyID id)) = false := by
    simp [isPayToScriptHash, hsize]
  have hdup : ∀ rest, getOp (OP_DUP :: rest) = some (OP_DUP, [], rest) := fun _ => rfl
  have hhash : ∀ rest, getOp (OP_HASH160 :: rest) = some (OP_HASH160, [], rest) := fun _ => rfl
  have hverify : getOp [OP_EQUALVERIFY, OP_CHECKSIG] = some (OP_EQUALVERIFY, [], [OP_CHECKSIG]) :=
    rfl
  have hcheck : getOp [OP_CHECKSIG] = some (OP_CHECKSIG, [], []) := rfl
  have hpush := getOp_push20 hlen [OP_EQUALVERIFY, OP_CHECKSIG]
  constructor
  · have hkey : matchTemplate templatePubKey (setDestination (.keyID id)) [] = none := by
      rw [hshape, templatePubKey, matchTemplate_step (by decide) _ (hdup _)]
      rfl
    have hid : matchOpcode OP_PUBKEYHASH (20, id, [OP_EQUALVERIFY, OP_CHECKSIG]) [] =
        some [id] := by
      simp [matchOpcode, hlen, show OP_PUBKEYHASH ≠ OP_PUBKEY by decide]
    have hsolve : matchTemplate templatePubKeyHash (setDestination (.keyID id)) [] = some [id] := by
      rw [hshape, templatePubKeyHash, matchTemplate_step (by decide) _ (hdup _)]
      change matchTemplate _ (OP_HASH160 :: _) [] = _
      rw [matchTemplate_step (by decide) _ (hhash _)]
      change matchTemplate _ (20 :: _) [] = _
      rw [matchTemplate_step (by decide) _ hpush, hid]
      rfl
    simp [isStandardScript, solver, hpay, hkey, hsolve]
  · rw [hasCanonicalPushes, hsize, hshape]
    simp only [canonicalPushes, hdup, hhash, hpush, hverify, hcheck, push20_not_wasteful hlen]
    rfl

theorem scriptID_standard {id : uint160} (hlen : id.length = 20) :
    isStandardScript (setDestination (.scriptID id)) = true ∧
      hasCanonicalPushes (setDestination (.scriptID id)) = true := by
  have hshape : setDestination (.scriptID id) = OP_HASH160 :: 20 :: (id ++ [OP_EQUAL]) := by
    simp [setDestination, hlen]
  have hsize : (setDestination (.scriptID id)).length = 23 := by simp [hshape, hlen]
  constructor
  · have hpay : isPayToScriptHash (setDestination (.scriptID id)) = true := by
      rw [hshape]
      simp [isPayToScriptHash, hlen]
    simp [isStandardScript, solver, hpay]
  · have hhash : ∀ rest, getOp (OP_HASH160 :: rest) = some (OP_HASH160, [], rest) := fun _ => rfl
    have hequal : getOp [OP_EQUAL] = some (OP_EQUAL, [], []) := rfl
    rw [hasCanonicalPushes, hsize, hshape]
    simp only [canonicalPushes, hhash, getOp_push20 hlen, hequal, push20_not_wasteful hlen]
    rfl

/-- The change goes to a standard script, and its pushes are canonical. -/
theorem scriptChange_standard (p : Payer) (coinControl : Option CCoinControl) :
    isStandardScript (scriptChange p coinControl) = true ∧
      hasCanonicalPushes (scriptChange p coinControl) = true := by
  unfold scriptChange
  split
  · exact keyID_standard p.reservedKey_length
  · rename_i c
    split
    · exact keyID_standard p.reservedKey_length
    · cases hdest : c.destChange with
      | noDestination => contradiction
      | keyID id => exact keyID_standard (c.destChange_length id (.inl hdest))
      | scriptID id => exact scriptID_standard (c.destChange_length id (.inr hdest))

end Standard

section Accepted

variable {env : Env} {p : Payer} {coinControl : Option CCoinControl}

def Payer.valueIn (p : Payer) (tx : CTransaction) : Int :=
  (tx.vin.map fun txin =>
    match p.wallet.mapWallet txin.prevout.hash with
    | none => 0
    | some wtx => (wtx.tx.vout.getD txin.prevout.n.toNat .null).nValue).sum

theorem valueIn_eq (hs : p.Sound env) {tx : CTransaction} {coins : List COutput}
    (hrec : ∀ coin ∈ coins, p.Records coin)
    (hprev : tx.vin.map CTxIn.prevout = coins.map (COutput.outpoint env)) :
    p.valueIn tx = valueSum coins := by
  let worth (o : COutPoint) : Int :=
    match p.wallet.mapWallet o.hash with
    | none => 0
    | some wtx => (wtx.tx.vout.getD o.n.toNat .null).nValue
  calc p.valueIn tx = ((tx.vin.map CTxIn.prevout).map worth).sum := by rw [List.map_map]; rfl
    _ = ((coins.map (COutput.outpoint env)).map worth).sum := by rw [hprev]
    _ = valueSum coins := by
      rw [List.map_map, valueSum]
      congr 1
      apply List.map_congr_left
      intro coin hm
      have hr := hrec coin hm
      simp only [Function.comp_apply, worth, COutput.outpoint, hr.hash_eq hs, hr.record,
        hr.index_toNat hs, COutput.txout]

/-- What `AcceptToMemoryPool` asks of a transaction by itself. -/
structure Acceptable (fEnforceCanonical : Bool) (p : Payer) (tx : CTransaction) : Prop where
  valid : tx.checkTransaction = .ok ()
  standard : tx.isStandard fEnforceCanonical = true
  fee : tx.getMinFee 1000 .GMF_RELAY tx.getSerializeSize ≤ p.valueIn tx - tx.valueOut

/-- A payment of money that there can be, which says nothing, to a script of canonical pushes where
these are asked for. -/
structure PlainPayment (fEnforceCanonical : Bool) (scriptPubKey : CScript) (nValue : Int)
    (sNarr : List UInt8) : Prop where
  amount : nValue ≤ MAX_MONEY
  silent : sNarr = []
  canonical : fEnforceCanonical = true → hasCanonicalPushes scriptPubKey = true

/-- Coins that can be spent by short scripts, and not too many of them. -/
structure PlainCoins (p : Payer) (coinControl : Option CCoinControl) : Prop where
  scripts : ∀ coin ∈ p.offered coinControl, sigBound p.keystore coin.txout.scriptPubKey ≤ 500
  money : valueSum (p.offered coinControl) ≤ MAX_MONEY

/-- A fee as `ParseMoney` and `AmountFromValue` give it, far from the end of 64 bits. -/
def Payer.PlainFee (p : Payer) : Prop := 0 ≤ p.nTransactionFee ∧ p.nTransactionFee < 2 ^ 62

theorem sendOf_sum (scriptPubKey : CScript) (nValue : Int) (sNarr : List UInt8) :
    ((sendOf scriptPubKey nValue sNarr).map Prod.snd).sum = nValue := by
  unfold sendOf
  split <;> simp

theorem PlainCoins.fits (hs : p.Sound env) (h : PlainCoins p coinControl) (hfee : p.PlainFee)
    (scriptPubKey : CScript) {nValue : Int} (sNarr : List UInt8) (hpos : 0 < nValue)
    (hamount : nValue ≤ MAX_MONEY) :
    p.Fits coinControl (sendOf scriptPubKey nValue sNarr) where
  nonneg coin hm := (offered_records hm).value_nonneg hs
  worth := lt_of_le_of_lt h.money (by decide)
  first := by
    have hmoney : MAX_MONEY = 120000000000 := rfl
    have hcent : CENT = 10000 := rfl
    have hhigh := hfee.2
    rw [sendOf_sum]
    omega
  later := by
    have hmoney : MAX_MONEY = 120000000000 := rfl
    have hcent : CENT = 10000 := rfl
    have hmin : MIN_TX_FEE = 100 := rfl
    have hworth := h.money
    rw [sendOf_sum, Payer.maxFee]
    omega

variable {vecSend : List (CScript × Int)} {wtxNew tx : CTransaction} {nFeeRet : Int}
  {coins : List COutput}

theorem Pays.fee_paid (hs : p.Sound env)
    (h : Pays env p coinControl vecSend wtxNew tx nFeeRet coins) :
    tx.getMinFee 1000 .GMF_RELAY tx.getSerializeSize ≤ p.valueIn tx - tx.valueOut := by
  have hin := valueIn_eq hs (fun coin hm => offered_records (h.offered.subset hm)) h.prevouts
  have hfee := h.fee
  have hvalue := h.value
  rw [(getMinFee_small tx h.size).1] at hfee
  rw [(getMinFee_small tx h.size).2, hin]
  omega

theorem createTransactionMany_sends {chance : Nat → CoinChance}
    (h : createTransactionMany env p chance coinControl vecSend wtxNew = some (tx, nFeeRet))
    {s : CScript × Int} (hm : s ∈ vecSend) : ⟨s.2, s.1⟩ ∈ tx.vout := by
  obtain ⟨round, nChange, hvout⟩ := createTransactionMany_vout h
  obtain ⟨change, -, -, hperm⟩ := paymentOutputs_change p (chance round) coinControl vecSend nChange
  rw [hvout]
  exact hperm.mem_iff.mpr (List.mem_append_right _ (List.mem_map.mpr ⟨s, hm, rfl⟩))

theorem checkTxOuts_le {l : List CTxOut} {a b : Int} (h : l.foldlM tx.checkTxOut a = .ok b) :
    ∀ o ∈ l, o.nValue ≤ MAX_MONEY := by
  induction l generalizing a with
  | nil => exact nofun
  | cons o l ih =>
    rw [List.foldlM_cons] at h
    obtain ⟨c, hc, hl⟩ := bind_ok.mp h
    simp only [CTransaction.checkTxOut, check_bind] at hc
    exact List.forall_mem_cons.mpr ⟨of_decide_eq_true hc.2.2.1, ih hl⟩

theorem outputs_le (h : tx.checkTransaction = .ok ()) : ∀ o ∈ tx.vout, o.nValue ≤ MAX_MONEY := by
  simp only [CTransaction.checkTransaction, check_bind] at h
  obtain ⟨_, hout, _⟩ := bind_ok.mp h.2.2.2
  exact checkTxOuts_le hout

section Plain

variable (hs : p.Sound env) {fEnforceCanonical : Bool}
  (h : Pays env p coinControl vecSend wtxNew tx nFeeRet coins)
include h

/-- The change is standard, and so are all outputs when what is sent is. -/
theorem Pays.outputs_plain
    (hsend : ∀ s ∈ vecSend, 0 < s.2 ∧ isStandardScript s.1 = true ∧
      (fEnforceCanonical = true → hasCanonicalPushes s.1 = true)) :
    ∀ o ∈ tx.vout, 0 < o.nValue ∧ isStandardScript o.scriptPubKey = true ∧
      (fEnforceCanonical = true → hasCanonicalPushes o.scriptPubKey = true) := by
  obtain ⟨change, hchange, hperm⟩ := h.outputs
  intro o hm
  rcases List.mem_append.mp (hperm.mem_iff.mp hm) with hm | hm
  · obtain ⟨n, hn, rfl⟩ := List.mem_map.mp hm
    obtain ⟨hstd, hcanon⟩ := scriptChange_standard p coinControl
    exact ⟨hchange n hn, hstd, fun _ => hcanon⟩
  · obtain ⟨s, hsent, rfl⟩ := List.mem_map.mp hm
    exact hsend s hsent

include hs in
theorem Pays.not_null : ∀ txin ∈ tx.vin, txin.prevout.isNull = false := by
  intro txin hm
  have hmem : txin.prevout ∈ coins.map (COutput.outpoint env) := by
    rw [← h.prevouts]
    exact List.mem_map_of_mem hm
  obtain ⟨coin, hc, heq⟩ := List.mem_map.mp hmem
  rw [← heq]
  exact (offered_records (h.offered.subset hc)).outpoint_not_null hs

include hs in
theorem Pays.not_coinBase : tx.isCoinBase = false := by
  have hnotnull := h.not_null hs
  unfold CTransaction.isCoinBase
  split
  · rename_i txin heq
    simp [hnotnull txin (heq ▸ List.mem_cons_self)]
  · rfl

/-- A fee is paid, so that there is a coin to pay it from. -/
theorem Pays.spends (hnonneg : ∀ o ∈ tx.vout, 0 ≤ o.nValue) : 0 ≤ tx.valueOut ∧ tx.vin ≠ [] := by
  have houtsum : 0 ≤ tx.valueOut := by
    apply List.sum_nonneg
    intro v hv
    obtain ⟨o, hm, rfl⟩ := List.mem_map.mp hv
    exact hnonneg o hm
  have hfee : 0 < nFeeRet := lt_of_lt_of_le (getMinFee_pos ..) h.fee
  have hvalue := h.value
  refine ⟨houtsum, fun hnil => ?_⟩
  have hcoins : coins = [] := by simpa [hnil] using h.prevouts.symm
  have hzero : valueSum coins = 0 := by
    rw [hcoins]
    rfl
  omega

include hs in
theorem Pays.checks (hsome : vecSend ≠ []) (hpositive : ∀ o ∈ tx.vout, 0 < o.nValue)
    (hplain : PlainCoins p coinControl) : tx.checkTransaction = .ok () := by
  have hnonneg : ∀ o ∈ tx.vout, 0 ≤ o.nValue := fun o hm => (hpositive o hm).le
  obtain ⟨houtsum, hvin⟩ := h.spends hnonneg
  have hfee : 0 < nFeeRet := lt_of_lt_of_le (getMinFee_pos ..) h.fee
  have hvalue := h.value
  have hin := valueSum_le h.offered fun coin hm => (offered_records hm).value_nonneg hs
  have hmoney := hplain.money
  have hvout : tx.vout ≠ [] := by
    obtain ⟨s, hm⟩ := List.exists_mem_of_ne_nil _ hsome
    obtain ⟨change, -, hperm⟩ := h.outputs
    exact List.ne_nil_of_mem
      (hperm.mem_iff.mpr (List.mem_append_right _ (List.mem_map.mpr ⟨s, hm, rfl⟩)))
  have hsize := h.size
  have hgen : MAX_BLOCK_SIZE_GEN = 500000 := rfl
  have hmax : MAX_BLOCK_SIZE = 1000000 := rfl
  have hempty : ∀ o ∈ tx.vout, o.isEmpty = false := fun o hm => by
    simp [CTxOut.isEmpty, (hpositive o hm).ne']
  obtain ⟨total, htotal⟩ := checkTxOuts_ok tx le_rfl hempty hnonneg
    (show 0 + tx.valueOut ≤ MAX_MONEY by omega)
  have hnodup : (tx.vin.map CTxIn.prevout).Nodup := by
    rw [h.prevouts]
    obtain ⟨l, hl, hsub⟩ := h.offered
    exact (hl.map _).nodup_iff.mp
      ((offered_outpoints_nodup hs coinControl).sublist (hsub.map _))
  simp only [CTransaction.checkTransaction, check_bind, h.not_coinBase hs]
  refine ⟨by simpa using hvin, by simpa using hvout, decide_eq_true (by omega),
    bind_ok.mpr ⟨total, htotal, check_bind.mpr ⟨decide_eq_true hnodup, ?_⟩⟩⟩
  rw [if_neg (by simp), check_ok, List.all_eq_true]
  intro txin hm
  rw [h.not_null hs txin hm]
  rfl

theorem Pays.standard (hversion : wtxNew.nVersion = 1)
    (hout : ∀ o ∈ tx.vout, 0 < o.nValue ∧ isStandardScript o.scriptPubKey = true ∧
      (fEnforceCanonical = true → hasCanonicalPushes o.scriptPubKey = true))
    (hplain : PlainCoins p coinControl) : tx.isStandard fEnforceCanonical = true := by
  have hscripts := h.scripts 500 hplain.scripts
  simp only [CTransaction.isStandard, Bool.and_eq_true, List.all_eq_true, decide_eq_true_eq,
    h.version, hversion]
  refine ⟨⟨le_rfl, fun txin hm => ?_⟩, fun o hm => ?_⟩
  · obtain ⟨⟨operands, heq, hne⟩, hlen⟩ := hscripts txin hm
    rw [heq] at hlen ⊢
    obtain ⟨hpush, hcanon⟩ := pushes_standard (by omega) hne
    simp [hlen, hpush, hcanon]
  · obtain ⟨hpos, hstd, hcanon⟩ := hout o hm
    refine ⟨⟨hstd, by simpa using hpos.ne'⟩, ?_⟩
    cases hf : fEnforceCanonical with
    | false => rfl
    | true => simpa using hcanon hf

include hs in
/-- Outputs that are all standard and positive, and coins that are plain, give a transaction
that passes both checks. -/
theorem Pays.acceptable (hversion : wtxNew.nVersion = 1) (hsome : vecSend ≠ [])
    (hsend : ∀ s ∈ vecSend, 0 < s.2 ∧ isStandardScript s.1 = true ∧
      (fEnforceCanonical = true → hasCanonicalPushes s.1 = true))
    (hplain : PlainCoins p coinControl) : Acceptable fEnforceCanonical p tx := by
  have hout := h.outputs_plain hsend
  exact ⟨h.checks hs hsome (fun o hm => (hout o hm).1) hplain, h.standard hversion hout hplain,
    h.fee_paid hs⟩

end Plain

/-- What the wallet creates pays the fee that the pool asks for, where amount and fee fit in 64 bits
together. It passes the other checks only for money that there can be and without a narration, and
then it does when the coins and the fee that is set are plain. -/
theorem payment_acceptable {chance : Nat → CoinChance} {fEnforceCanonical : Bool} {host : Host}
    {scriptPubKey : CScript} {nValue : Int} {sNarr : List UInt8} (hs : p.Sound env)
    (hset : p.FeeSet) (hpayee : isStandardScript scriptPubKey = true)
    (hvalue : 0 < nValue ∧ nValue < 2 ^ 63)
    (h : createTransaction env p chance coinControl scriptPubKey nValue sNarr
      (newTransaction host) = some (tx, nFeeRet)) :
    (p.Fits coinControl (sendOf scriptPubKey nValue sNarr) →
      tx.getMinFee 1000 .GMF_RELAY tx.getSerializeSize ≤ p.valueIn tx - tx.valueOut) ∧
    (Acceptable fEnforceCanonical p tx →
      PlainPayment fEnforceCanonical scriptPubKey nValue sNarr) ∧
    (PlainCoins p coinControl → p.PlainFee →
      PlainPayment fEnforceCanonical scriptPubKey nValue sNarr →
      Acceptable fEnforceCanonical p tx) := by
  refine ⟨fun hfits => ?_, fun ha => ?_, fun hcoins hfee hplain => ?_⟩
  · obtain ⟨coins, hpays⟩ := createTransaction_pays hfits hset hvalue h
    exact hpays.fee_paid hs
  · have hsends : ∀ {s}, s ∈ sendOf scriptPubKey nValue sNarr → ⟨s.2, s.1⟩ ∈ tx.vout :=
      fun hm => createTransactionMany_sends h hm
    have hout := ha.standard
    simp only [CTransaction.isStandard, Bool.and_eq_true, List.all_eq_true] at hout
    constructor
    · exact outputs_le ha.valid _ (hsends List.mem_cons_self)
    · -- the output of a narration has no value
      by_contra hnarr
      have hm : (narrationScript sNarr, (0 : Int)) ∈ sendOf scriptPubKey nValue sNarr := by
        rw [sendOf, if_pos (List.length_pos_of_ne_nil hnarr)]
        exact List.mem_cons_of_mem _ List.mem_cons_self
      have hzero := (hout.2 _ (hsends hm)).1.2
      exact absurd hzero Bool.false_ne_true
    · intro hcanon
      have hpush := (hout.2 _ (hsends List.mem_cons_self)).2
      rw [hcanon] at hpush
      exact hpush
  · have hfits := hcoins.fits hs hfee scriptPubKey sNarr hvalue.1 hplain.amount
    obtain ⟨coins, hpays⟩ := createTransaction_pays hfits hset hvalue h
    refine hpays.acceptable hs rfl (List.cons_ne_nil _ _) (fun s hm => ?_) hcoins
    rw [sendOf, hplain.silent, if_neg (by simp), List.mem_singleton] at hm
    rw [hm]
    exact ⟨hvalue.1, hpayee, hplain.canonical⟩

end Accepted

namespace Sample

def byValue (a b : COutput) : Bool := decide (b.txout.nValue ≤ a.txout.nValue)

def noChance : CoinChance where
  shuffle _ l := l
  rand _ _ _ := false
  getRandInt _ := 0
  sort l := l.mergeSort byValue
  pointerOrder l := l
  shuffle_perm _ l := .refl l
  getRandInt_lt _ h := h
  sort_perm l := l.mergeSort_perm _
  sort_sorted l := by
    have htrans : ∀ a b c, byValue a b = true → byValue b c = true → byValue a c = true := by
      simp only [byValue, decide_eq_true_eq]
      omega
    have htotal : ∀ a b, (byValue a b || byValue b a) = true := by
      simp only [byValue, Bool.or_eq_true, decide_eq_true_eq]
      omega
    exact (List.pairwise_mergeSort htrans htotal l).imp of_decide_eq_true
  pointerOrder_perm l := .refl l

def keystore : CKeyStore where
  getKey _ := some ⟨List.replicate 33 2, fun _ => some (List.replicate 70 1)⟩
  getCScript _ := none
  Hash _ := 0
  hash160 _ := []
  pubKey_length h := by
    cases h
    exact .inl rfl
  sign_length h hsign := by
    cases h
    cases hsign
    exact ⟨by decide, by decide⟩

def payEnv : Env := { towerEnv with verifyScript := fun _ _ _ _ _ => true }

def payer : Payer where
  wallet := staker.wallet
  keys := staker.keys
  view := staker.view
  keystore := keystore
  nHeightBest := 17692
  reservedKey := List.replicate 20 3
  reservedKey_length := rfl

def payee : CScript := setDestination (.keyID (List.replicate 20 4))

def narrated (sNarr : List UInt8) : Option (CTransaction × Int) :=
  createTransaction payEnv payer (fun _ => noChance) none payee COIN sNarr
    (newTransaction towerHost)

theorem payer_sound : payer.Sound payEnv where
  keys_nodup := by decide
  keyed k tx h := by
    simp only [CWallet.txAt, payer, staker] at h
    split at h
    · cases h
      rename_i hk
      exact hk.symm
    · cases h
  checked k tx h := by
    simp only [CWallet.txAt, payer, staker] at h
    split at h
    · cases h
      decide
    · cases h

theorem payer_plainCoins : PlainCoins payer none where
  scripts := by decide
  money := by decide

end Sample

theorem payment_acceptable_silent : ∃ tx nFeeRet, Sample.narrated [] = some (tx, nFeeRet) ∧
    Acceptable true Sample.payer tx := by
  have hpays : (Sample.narrated []).isSome = true := by decide
  obtain ⟨⟨tx, nFeeRet⟩, h⟩ := Option.isSome_iff_exists.mp hpays
  exact ⟨tx, nFeeRet, h, (payment_acceptable Sample.payer_sound ⟨by decide, by decide⟩ (by decide)
    (by decide) h).2.2 Sample.payer_plainCoins ⟨by decide, by decide⟩
    ⟨by decide, rfl, fun _ => by decide⟩⟩

/-- A payment with the narration `a`: the wallet creates it, and it is not standard. -/
theorem payment_narrated_refused : Sample.payer.Sound Sample.payEnv ∧
    isStandardScript Sample.payee = true ∧
    ∃ tx nFeeRet, Sample.narrated [97] = some (tx, nFeeRet) ∧ tx.isStandard true = false ∧
      tx.isStandard false = false := by
  have hpays : (Sample.narrated [97]).map
      (fun r => (r.1.isStandard true, r.1.isStandard false)) = some (false, false) := by
    decide
  obtain ⟨⟨tx, nFeeRet⟩, h, hstd⟩ := Option.map_eq_some_iff.mp hpays
  obtain ⟨htrue, hfalse⟩ := Prod.mk.inj hstd
  exact ⟨Sample.payer_sound, by decide, tx, nFeeRet, h, htrue, hfalse⟩

end Triangles
