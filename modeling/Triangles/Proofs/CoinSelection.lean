import Triangles.Proofs.Payment

/-! Coin selection: what is chosen are eligible coins that pay for the target, and nothing is
chosen only when the eligible coins do not. -/

namespace Triangles

section
variable {chance : CoinChance} {w : CWallet} {nTargetValue : Int} {nSpendTime : UInt32}
  {nConfMine nConfTheirs : Int}

/-- A coin that is deep enough and not from after the spend time. -/
def Eligible (w : CWallet) (nSpendTime : UInt32) (nConfMine nConfTheirs : Int)
    (output : COutput) : Prop :=
  (if w.isFromMe output.wtx.tx then nConfMine else nConfTheirs) ≤ output.nDepth ∧
    output.wtx.tx.nTime ≤ nSpendTime

instance : DecidablePred (Eligible w nSpendTime nConfMine nConfTheirs) :=
  fun _ => inferInstanceAs (Decidable (_ ∧ _))

theorem sortCoins_skip {output : COutput} (rest : List COutput) (s : CoinSort)
    (h : ¬ Eligible w nSpendTime nConfMine nConfTheirs output) :
    sortCoins w nTargetValue nSpendTime nConfMine nConfTheirs (output :: rest) s =
      sortCoins w nTargetValue nSpendTime nConfMine nConfTheirs rest s := by
  by_cases hdepth : output.nDepth <
      (if w.isFromMe output.wtx.tx then nConfMine else nConfTheirs)
  · rw [sortCoins, if_pos hdepth]
  · have hlate : nSpendTime < output.wtx.tx.nTime := by
      apply UInt32.not_le.mp
      intro htime
      exact h ⟨Int.not_lt.mp hdepth, htime⟩
    rw [sortCoins, if_neg hdepth, if_pos hlate]

theorem sortCoins_take {output : COutput} (rest : List COutput) (s : CoinSort)
    (h : Eligible w nSpendTime nConfMine nConfTheirs output) :
    sortCoins w nTargetValue nSpendTime nConfMine nConfTheirs (output :: rest) s =
      if output.txout.nValue = nTargetValue then .inl output
      else if output.txout.nValue < nTargetValue + CENT then
        sortCoins w nTargetValue nSpendTime nConfMine nConfTheirs rest
          { s with vValue := s.vValue ++ [output],
                   nTotalLower := s.nTotalLower + output.txout.nValue }
      else if output.txout.nValue <
          (s.coinLowestLarger.map fun o => o.txout.nValue).getD (2 ^ 63 - 1) then
        sortCoins w nTargetValue nSpendTime nConfMine nConfTheirs rest
          { s with coinLowestLarger := some output }
      else sortCoins w nTargetValue nSpendTime nConfMine nConfTheirs rest s := by
  rw [sortCoins, if_neg (Int.not_lt.mpr h.1), if_neg (UInt32.not_lt.mpr h.2)]

/-- The loop passes over the coins that are not eligible. -/
theorem sortCoins_filter (coins : List COutput) (s : CoinSort) :
    sortCoins w nTargetValue nSpendTime nConfMine nConfTheirs coins s =
      sortCoins w nTargetValue nSpendTime nConfMine nConfTheirs
        (coins.filter (Eligible w nSpendTime nConfMine nConfTheirs)) s := by
  induction coins generalizing s with
  | nil => rfl
  | cons output rest ih =>
    by_cases h : Eligible w nSpendTime nConfMine nConfTheirs output
    · rw [List.filter_cons_of_pos (by simpa using h), sortCoins_take rest s h, sortCoins_take _ s h,
        ← ih, ← ih, ← ih]
    · rw [List.filter_cons_of_neg (by simpa using h), sortCoins_skip rest s h, ih]

/-- Without a larger coin all eligible coins are among the smaller ones: none of them has the
value that stands for "no larger coin". -/
theorem sortCoins_total {coins : List COutput} {s t : CoinSort}
    (hmax : ∀ c ∈ coins, c.txout.nValue < 2 ^ 63 - 1)
    (h : sortCoins w nTargetValue nSpendTime nConfMine nConfTheirs coins s = .inr t)
    (hnone : t.coinLowestLarger = none) :
    s.coinLowestLarger = none ∧ t.nTotalLower =
      s.nTotalLower + valueSum (coins.filter (Eligible w nSpendTime nConfMine nConfTheirs)) := by
  induction coins generalizing s with
  | nil =>
    cases h
    exact ⟨hnone, (Int.add_zero _).symm⟩
  | cons output rest ih =>
    have hrest : ∀ c ∈ rest, c.txout.nValue < 2 ^ 63 - 1 :=
      fun c hc => hmax c (List.mem_cons_of_mem _ hc)
    by_cases he : Eligible w nSpendTime nConfMine nConfTheirs output
    · rw [sortCoins_take rest s he] at h
      rw [List.filter_cons_of_pos (by simpa using he)]
      split at h
      · cases h
      · split at h
        · obtain ⟨hlarger, htotal⟩ := ih hrest h
          refine ⟨hlarger, ?_⟩
          rw [htotal]
          simp only [valueSum, List.map_cons, List.sum_cons]
          omega
        · split at h
          · obtain ⟨hlarger, -⟩ := ih hrest h
            cases hlarger
          · rename_i hover
            obtain ⟨hlarger, -⟩ := ih hrest h
            rw [hlarger] at hover
            exact absurd (hmax output List.mem_cons_self) hover
    · rw [sortCoins_skip rest s he] at h
      rw [List.filter_cons_of_neg (by simpa using he)]
      exact ih hrest h

theorem shuffle_eligible_perm (attempt : Nat) (vCoins : List COutput) :
    ((chance.shuffle attempt vCoins).filter (Eligible w nSpendTime nConfMine nConfTheirs)).Perm
      (vCoins.filter (Eligible w nSpendTime nConfMine nConfTheirs)) :=
  (chance.shuffle_perm attempt vCoins).filter _

/-- The coins chosen are among the eligible ones. -/
theorem selectCoinsMinConf_eligible {attempt : Nat} {vCoins coins : List COutput}
    {nValueRet : Int}
    (h : selectCoinsMinConf chance w nTargetValue nSpendTime attempt nConfMine nConfTheirs vCoins =
      some (coins, nValueRet)) :
    Covers (vCoins.filter (Eligible w nSpendTime nConfMine nConfTheirs)) nTargetValue coins
      nValueRet := by
  have hsort := sortCoins_spec w nSpendTime nConfMine nConfTheirs
    ((chance.shuffle attempt vCoins).filter (Eligible w nSpendTime nConfMine nConfTheirs))
    (sorts_nil nTargetValue)
  rw [← sortCoins_filter] at hsort
  exact selectCoinsMinConf_sorted hsort (shuffle_eligible_perm attempt vCoins) h

/-- Nothing is chosen when the coins in sight are too little and there is no larger one. -/
theorem selectCoinsMinConf_none {attempt : Nat} {vCoins : List COutput}
    (h : selectCoinsMinConf chance w nTargetValue nSpendTime attempt nConfMine nConfTheirs vCoins =
      none) :
    ∃ s, sortCoins w nTargetValue nSpendTime nConfMine nConfTheirs (chance.shuffle attempt vCoins)
        {} = .inr s ∧ s.nTotalLower < nTargetValue ∧ s.coinLowestLarger = none := by
  unfold selectCoinsMinConf at h
  split at h
  · cases h
  · rename_i s hs
    refine ⟨s, hs, ?_⟩
    split at h
    · cases h
    · split at h
      · rename_i hless
        exact ⟨hless, Option.map_eq_none_iff.mp h⟩
      · simp only at h
        split at h
        · cases h
        · split at h <;> cases h

end

/-- Coins without a repetition are chosen among the eligible ones, for the value that is
returned and covers the target; and where nothing is chosen the eligible coins do not cover it. -/
theorem selectCoinsMinConf_sound_complete (chance : CoinChance) (w : CWallet)
    (nTargetValue : Int) (nSpendTime : UInt32) (attempt : Nat) (nConfMine nConfTheirs : Int)
    (vCoins : List COutput) (hnodup : (vCoins.map fun c => (c.hash, c.i)).Nodup)
    (hmax : ∀ c ∈ vCoins, c.txout.nValue < 2 ^ 63 - 1) :
    (∀ coins nValueRet,
      selectCoinsMinConf chance w nTargetValue nSpendTime attempt nConfMine nConfTheirs vCoins =
        some (coins, nValueRet) →
      (coins.map fun c => (c.hash, c.i)).Nodup ∧
      (∀ c ∈ coins, c ∈ vCoins ∧ Eligible w nSpendTime nConfMine nConfTheirs c) ∧
      valueSum coins = nValueRet ∧ nTargetValue ≤ nValueRet) ∧
    (selectCoinsMinConf chance w nTargetValue nSpendTime attempt nConfMine nConfTheirs vCoins =
        none →
      valueSum (vCoins.filter (Eligible w nSpendTime nConfMine nConfTheirs)) < nTargetValue) := by
  constructor
  · intro coins nValueRet h
    have hcovers := selectCoinsMinConf_eligible h
    have hsub : coins.Subperm vCoins :=
      hcovers.subperm.trans List.filter_sublist.subperm
    refine ⟨?_, ?_, hcovers.value.symm, hcovers.enough⟩
    · obtain ⟨l, hperm, hl⟩ := hsub
      exact (hperm.map _).nodup_iff.mp ((hl.map _).nodup hnodup)
    · intro c hc
      obtain ⟨hm, he⟩ := List.mem_filter.mp (hcovers.subperm.subset hc)
      exact ⟨hm, of_decide_eq_true he⟩
  · intro h
    obtain ⟨s, hs, hless, hnone⟩ := selectCoinsMinConf_none h
    have hshuffled : ∀ c ∈ chance.shuffle attempt vCoins, c.txout.nValue < 2 ^ 63 - 1 :=
      fun c hc => hmax c ((chance.shuffle_perm attempt vCoins).mem_iff.mp hc)
    obtain ⟨-, htotal⟩ := sortCoins_total hshuffled hs hnone
    have hsum : valueSum ((chance.shuffle attempt vCoins).filter
          (Eligible w nSpendTime nConfMine nConfTheirs)) =
        valueSum (vCoins.filter (Eligible w nSpendTime nConfMine nConfTheirs)) :=
      ((shuffle_eligible_perm attempt vCoins).map _).sum_eq
    have hstart : ({} : CoinSort).nTotalLower = 0 := rfl
    omega

namespace Sample

def coinsOf (values : List Int) : List COutput :=
  let wtx : CWalletTx := { tx := transfer 1 [] values }
  (List.range values.length).map fun i => { hash := 1, wtx := wtx, i := i, nDepth := 10 }

def select (nTargetValue : Int) (values : List Int) : Option (List COutput × Int) :=
  selectCoinsMinConf noChance emptyWallet nTargetValue 1 0 1 6 (coinsOf values)

end Sample

theorem selectCoinsMinConf_two :
    valueSum (Sample.coinsOf [5, 7]) = 12 ∧ valueSum ((Sample.coinsOf [3, 4]).filter
      (Eligible Sample.emptyWallet 1 1 6)) < 12 :=
  ⟨((selectCoinsMinConf_sound_complete Sample.noChance Sample.emptyWallet 12 1 0 1 6
      (Sample.coinsOf [5, 7]) (by decide) (by decide)).1 (Sample.coinsOf [5, 7]) 12 rfl).2.2.1,
    (selectCoinsMinConf_sound_complete Sample.noChance Sample.emptyWallet 12 1 0 1 6
      (Sample.coinsOf [3, 4]) (by decide) (by decide)).2 rfl⟩

/-- A coin of the value that stands for "no larger coin" is not seen, and a target of 1 is not
paid. -/
theorem selectCoinsMinConf_misses_largest :
    ((Sample.coinsOf [2 ^ 63 - 1]).map fun c => (c.hash, c.i)).Nodup ∧
    (∀ c ∈ Sample.coinsOf [2 ^ 63 - 1], 0 ≤ c.txout.nValue) ∧
    Sample.select 1 [2 ^ 63 - 1] = none ∧
    1 ≤ valueSum ((Sample.coinsOf [2 ^ 63 - 1]).filter (Eligible Sample.emptyWallet 1 1 6)) :=
  ⟨by decide, by decide, rfl, by decide⟩

end Triangles

/-! The outputs of a payment in their order, and what the payment conserves. -/

namespace Triangles

/-- An output inserted at position `k` comes between a non-zero output and one of the
zero-valued outputs that directly follow it. -/
def Separates (vout : List CTxOut) (k : Nat) : Prop :=
  ∃ a b, a < k ∧ k ≤ b ∧ b < vout.length ∧ (vout.getD a .null).nValue ≠ 0 ∧
    ∀ c, a < c → c ≤ b → (vout.getD c .null).nValue = 0

/-- The way back ends at the front or before an output of some value. -/
theorem stepBack_stops (vout : List CTxOut) (position : Nat) :
    stepBack vout position = 0 ∨
      (vout.getD (stepBack vout position) .null).nValue ≠ 0 := by
  induction position with
  | zero => exact .inl rfl
  | succ position ih =>
    rw [stepBack]
    split
    · rename_i hvalue
      exact .inr hvalue
    · exact ih

theorem changePosition_not_separates {vout : List CTxOut} {position : Nat}
    (h : position ≤ vout.length) : ¬ Separates vout (changePosition vout position) := by
  rintro ⟨a, b, ha, hb, hlen, -, hzero⟩
  have hz := hzero (changePosition vout position) ha hb
  unfold changePosition at ha hb hz
  split at ha
  · rename_i hinside
    rw [if_pos hinside] at hz
    rcases stepBack_stops vout position with hfront | hvalue
    · omega
    · exact hvalue hz
  · rename_i hedge
    rw [if_neg hedge] at hb
    omega

section
variable {env : Env} {p : Payer} {coinControl : Option CCoinControl}

def payments (vecSend : List (CScript × Int)) : List CTxOut := vecSend.map fun s => ⟨s.2, s.1⟩

/-- The outputs of a payment: the payments in their order and at most a change, which keeps no
payment apart from its narration. -/
def LaidOut (vecSend : List (CScript × Int)) (vout : List CTxOut) : Prop :=
  vout = payments vecSend ∨ ∃ k change, k ≤ (payments vecSend).length ∧ 0 < change.nValue ∧
    vout = (payments vecSend).insertIdx k change ∧ ¬ Separates (payments vecSend) k

theorem paymentOutputs_laidOut (p : Payer) (chance : CoinChance)
    (coinControl : Option CCoinControl) (vecSend : List (CScript × Int)) (nChange : Int) :
    LaidOut vecSend (paymentOutputs p chance coinControl vecSend nChange) := by
  unfold paymentOutputs
  dsimp only
  split
  · rename_i hpos
    have hrand : chance.getRandInt ((payments vecSend).length + 1) ≤ (payments vecSend).length :=
      Nat.le_of_lt_succ (chance.getRandInt_lt _ (Nat.succ_pos _))
    exact .inr ⟨_, _, changePosition_le hrand, hpos, rfl, changePosition_not_separates hrand⟩
  · exact .inl rfl

/-- A payment spends distinct coins of the wallet, pays what was asked for in order, loses nothing
but the fee, and its fee is what its size asks for. -/
def Conserves (env : Env) (p : Payer) (coinControl : Option CCoinControl)
    (vecSend : List (CScript × Int)) (tx : CTransaction) (nFeeRet : Int) : Prop :=
  ∃ coins : List COutput, (∀ c ∈ coins, c ∈ p.offered coinControl) ∧
    (coins.map fun c => (c.hash, c.i)).Nodup ∧
    tx.vin.map CTxIn.prevout = coins.map (COutput.outpoint env) ∧
    (p.Sound env → (tx.vin.map CTxIn.prevout).Nodup) ∧
    LaidOut vecSend tx.vout ∧
    valueSum coins = tx.valueOut + nFeeRet ∧
    max (p.nTransactionFee * (1 + (tx.getSerializeSize / 1000 : Nat)))
      (tx.getMinFee 1 .GMF_SEND tx.getSerializeSize) ≤ nFeeRet

variable {vecSend : List (CScript × Int)} {wtxNew tx : CTransaction} {nFeeRet : Int}

theorem createTransactionMany_fits {chance : Nat → CoinChance} (hkeys : p.keys.Nodup)
    (hfits : p.Fits coinControl vecSend) (hset : p.FeeSet) (hamounts : SendAmounts vecSend)
    (h : createTransactionMany env p chance coinControl vecSend wtxNew = some (tx, nFeeRet)) :
    Conserves env p coinControl vecSend tx nFeeRet := by
  obtain ⟨⟨coins, hpays⟩, hfee⟩ := createTransactionMany_created hfits hset hamounts h
  obtain ⟨round, nChange, hvout⟩ := createTransactionMany_vout h
  have hdistinct : ∀ {β : Type} (f : COutput → β), ((p.offered coinControl).map f).Nodup →
      (coins.map f).Nodup := by
    intro β f hnodup
    obtain ⟨l, hperm, hl⟩ := hpays.offered
    exact (hperm.map f).nodup_iff.mp ((hl.map f).nodup hnodup)
  refine ⟨coins, fun c hc => hpays.offered.subset hc, hdistinct _ (offered_nodup hkeys _),
    hpays.prevouts, fun hs => ?_, ?_, hpays.value, max_le hfee hpays.fee⟩
  · rw [hpays.prevouts]
    exact hdistinct _ (offered_outpoints_nodup hs _)
  · rw [hvout]
    exact paymentOutputs_laidOut ..

theorem LaidOut.valueOut_ge (h : LaidOut vecSend tx.vout) :
    (vecSend.map Prod.snd).sum ≤ tx.valueOut := by
  have hsum : ((payments vecSend).map CTxOut.nValue).sum = (vecSend.map Prod.snd).sum := by
    rw [payments, List.map_map]
    rfl
  rcases h with hvout | ⟨k, change, hk, hpos, hvout, -⟩
  · rw [CTransaction.valueOut, hvout, hsum]
  · rw [CTransaction.valueOut, hvout, ((List.perm_insertIdx change _ hk).map _).sum_eq,
      List.map_cons, List.sum_cons, hsum]
    omega

/-- Of coins that are no more than the money there can be, a payment that loses nothing shows that
what was asked for fits. -/
theorem Conserves.fits (hset : p.FeeSet) (hamounts : SendAmounts vecSend)
    (hnonneg : ∀ coin ∈ p.offered coinControl, 0 ≤ coin.txout.nValue)
    (hmoney : valueSum (p.offered coinControl) ≤ MAX_MONEY)
    (h : Conserves env p coinControl vecSend tx nFeeRet) : p.Fits coinControl vecSend := by
  obtain ⟨coins, hoffered, hdistinct, -, -, hlaid, hvalue, hfee⟩ := h
  have hmax : MAX_MONEY = 120000000000 := rfl
  have hcent : CENT = 10000 := rfl
  have hmin : MIN_TX_FEE = 100 := rfl
  have hsent : 0 ≤ (vecSend.map Prod.snd).sum := by
    apply List.sum_nonneg
    intro n hn
    obtain ⟨s, hs, rfl⟩ := List.mem_map.mp hn
    exact (hamounts s hs).1
  have hworth : valueSum coins ≤ valueSum (p.offered coinControl) :=
    valueSum_le (List.subperm_of_subset (List.Nodup.of_map _ hdistinct) hoffered) hnonneg
  have hout := hlaid.valueOut_ge
  have hpaid := (le_max_left ..).trans hfee
  have hlow : 0 ≤ p.nTransactionFee := hset.1
  have hleast : p.nTransactionFee ≤
      p.nTransactionFee * (1 + (tx.getSerializeSize / 1000 : Nat)) :=
    le_mul_of_one_le_right hlow (by omega)
  refine ⟨⟨hnonneg, by omega⟩, by omega, fun _ => ?_⟩
  unfold Payer.maxFee
  omega

end

/-- The fee loop ends. A payment that it makes conserves the value where amounts and fee fit in 64
bits together; and, from coins that are no more than the money there can be, only there. -/
theorem createTransactionMany_conserves_iff (env : Env) (p : Payer) (chance : Nat → CoinChance)
    (coinControl : Option CCoinControl) (vecSend : List (CScript × Int)) (wtxNew : CTransaction)
    (hkeys : p.keys.Nodup) (hset : p.FeeSet) (hamounts : SendAmounts vecSend) :
    (∀ nValue,
      createLoop env p chance coinControl vecSend nValue wtxNew createRounds 0 p.nTransactionFee ≠
        none) ∧
    ∀ tx nFeeRet,
      createTransactionMany env p chance coinControl vecSend wtxNew = some (tx, nFeeRet) →
      (p.Fits coinControl vecSend → Conserves env p coinControl vecSend tx nFeeRet) ∧
      ((∀ coin ∈ p.offered coinControl, 0 ≤ coin.txout.nValue) →
        valueSum (p.offered coinControl) ≤ MAX_MONEY →
        Conserves env p coinControl vecSend tx nFeeRet → p.Fits coinControl vecSend) :=
  ⟨fun nValue => createLoop_returns chance vecSend nValue wtxNew _, fun _ _ h =>
    ⟨fun hfits => createTransactionMany_fits hkeys hfits hset hamounts h,
      fun hnonneg hmoney hconserves => hconserves.fits hset hamounts hnonneg hmoney⟩⟩

theorem createTransactionMany_conserves_narrated : ∃ tx nFeeRet,
    Sample.narrated [97] = some (tx, nFeeRet) ∧
      Conserves Sample.payEnv Sample.payer none (sendOf Sample.payee COIN [97]) tx nFeeRet := by
  have hpays : (Sample.narrated [97]).isSome = true := by decide
  obtain ⟨⟨tx, nFeeRet⟩, h⟩ := Option.isSome_iff_exists.mp hpays
  exact ⟨tx, nFeeRet, h, ((createTransactionMany_conserves_iff Sample.payEnv
    Sample.payer (fun _ => Sample.noChance) none (sendOf Sample.payee COIN [97])
    (newTransaction Sample.towerHost) Sample.payer_sound.keys_nodup ⟨by decide, by decide⟩
    (by unfold SendAmounts; decide)).2 tx nFeeRet h).1 (Sample.payer_plainCoins.fits Sample.payer_sound
      ⟨by decide, by decide⟩ Sample.payee [97] (by decide) (by decide))⟩

/-- A payment of `2 ^ 63 - 1`: amount and fee leave 64 bits, nothing is chosen, and a transaction
without inputs is returned that sends more than there is. -/
theorem createTransactionMany_wraps : SendAmounts [(Sample.payee, 2 ^ 63 - 1)] ∧
    ∃ tx nFeeRet, createTransactionMany Sample.payEnv Sample.payer (fun _ => Sample.noChance) none
        [(Sample.payee, 2 ^ 63 - 1)] (newTransaction Sample.towerHost) = some (tx, nFeeRet) ∧
      tx.vin = [] ∧ ¬Conserves Sample.payEnv Sample.payer none [(Sample.payee, 2 ^ 63 - 1)] tx
        nFeeRet := by
  have hpays : (createTransactionMany Sample.payEnv Sample.payer (fun _ => Sample.noChance) none
      [(Sample.payee, 2 ^ 63 - 1)] (newTransaction Sample.towerHost)).map
        (fun r => (r.1.vin.length, decide (0 < r.1.valueOut + r.2))) = some (0, true) := by
    decide +kernel
  obtain ⟨⟨tx, nFeeRet⟩, h, hshape⟩ := Option.map_eq_some_iff.mp hpays
  obtain ⟨hlen, hmore⟩ := Prod.mk.inj hshape
  have hvin : tx.vin = [] := List.length_eq_zero_iff.mp hlen
  refine ⟨by unfold SendAmounts; decide, tx, nFeeRet, h, hvin, ?_⟩
  rintro ⟨coins, -, -, hprev, -, -, hvalue, -⟩
  have hcoins : coins = [] := by simpa [hvin] using hprev.symm
  rw [hcoins] at hvalue
  have hmore' : 0 < tx.valueOut + nFeeRet := of_decide_eq_true hmore
  exact absurd hvalue (ne_of_lt hmore')

end Triangles
