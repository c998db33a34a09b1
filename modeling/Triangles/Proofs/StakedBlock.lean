import Triangles.Model.CoinStake
import Triangles.Proofs.KernelView
import Triangles.Proofs.Template

/-! A template that `SignBlock` completes with a coinstake. Its rules hold for every coinstake
found, but the one on times, for which the coinstake must not be earlier than any of the
template's transactions. -/

namespace Triangles

open Outcome Trace Ledger

def outputOf (env : Env) (txs : List CTransaction) (o : COutPoint) : Option CTxOut :=
  (txs.find? fun tx => tx.getHash env == o.hash).bind fun tx => tx.vout[o.n.toNat]?

def valueOf (env : Env) (txs : List CTransaction) (o : COutPoint) : Int :=
  ((outputOf env txs o).map CTxOut.nValue).getD 0

section Coins

variable {env : Env} {chain : List CTransaction}

theorem selectSimple_subset (nTargetValue : Int) (nSpendTime : UInt32) (nValueRet : Int)
    (l : List COutput) : selectSimple nTargetValue nSpendTime nValueRet l ⊆ l := by
  induction l generalizing nValueRet with
  | nil => exact List.Subset.refl _
  | cons output rest ih =>
    have hskip : ∀ v, selectSimple nTargetValue nSpendTime v rest ⊆ output :: rest := fun v =>
      List.subset_cons_of_subset _ (ih v)
    unfold selectSimple
    split
    · exact List.nil_subset _
    · split
      · exact hskip _
      · simp only
        split
        · exact List.cons_subset_cons _ (List.nil_subset _)
        · split
          · exact List.cons_subset_cons _ (ih _)
          · exact hskip _

/-- A coin of a transaction of the chain. -/
structure ChainCoin (chain : List CTransaction) (pcoin : COutput) : Prop where
  mem : pcoin.wtx.tx ∈ chain
  index : pcoin.i < pcoin.wtx.tx.vout.length

theorem mem_availableCoinsMinConf {view : CoinView} {w : CWallet} {keys : List uint256} {nConf : Int}
    {pcoin : COutput} (h : pcoin ∈ w.availableCoinsMinConf view keys nConf) :
    ∃ hash, w.mapWallet hash = some pcoin.wtx ∧ nConf ≤ view.getDepthInMainChain pcoin.wtx ∧
      pcoin.i < pcoin.wtx.tx.vout.length := by
  obtain ⟨hash, _, hm⟩ := List.mem_flatMap.mp h
  split at hm
  · cases hm
  · rename_i wtx hw
    split at hm
    · cases hm
    · split at hm
      · cases hm
      · rename_i hdepth
        obtain ⟨⟨txout, i⟩, hi, hsome⟩ := List.mem_filterMap.mp hm
        simp only at hsome
        split at hsome
        · obtain rfl := Option.some.inj hsome
          refine ⟨hash, hw, Int.not_lt.mp hdepth, ?_⟩
          have hlt := List.snd_lt_add_of_mem_zipIdx hi
          simpa using hlt
        · cases hsome

theorem nCoinbaseMaturity_pos (env : Env) : 1 ≤ nCoinbaseMaturity env := by
  unfold nCoinbaseMaturity
  split <;> decide

/-- What the wallet takes to be in the main chain is there. -/
def InMainChain (st : Staker) (chain : List CTransaction) : Prop :=
  ∀ hash wtx, st.wallet.mapWallet hash = some wtx → 1 ≤ st.view.getDepthInMainChain wtx →
    wtx.tx ∈ chain

theorem mem_selectCoinsSimple {st : Staker} (hw : InMainChain st chain) {nTargetValue : Int}
    {nSpendTime : UInt32} {pcoin : COutput}
    (h : pcoin ∈ st.pointerOrder
      (st.selectCoinsSimple nTargetValue nSpendTime (nCoinbaseMaturity env))) :
    ChainCoin chain pcoin := by
  have hsel := selectSimple_subset _ _ _ _ ((st.pointerOrder_perm _).mem_iff.mp h)
  obtain ⟨hash, hmap, hdepth, hindex⟩ := mem_availableCoinsMinConf hsel
  exact ⟨hw hash _ hmap ((nCoinbaseMaturity_pos env).trans hdepth), hindex⟩

theorem find_of_ids (hids : (chain.map (CTransaction.getHash env)).Nodup) {tx : CTransaction}
    (hm : tx ∈ chain) : chain.find? (fun t => t.getHash env == tx.getHash env) = some tx := by
  cases hf : chain.find? (fun t => t.getHash env == tx.getHash env) with
  | none => exact absurd (beq_self_eq_true _) (List.find?_eq_none.mp hf tx hm)
  | some t =>
    have hsame : t.getHash env = tx.getHash env := by simpa using List.find?_some hf
    rw [List.inj_on_of_nodup_map hids (List.mem_of_find?_eq_some hf) hm hsame]

/-- The wallet's copy of the coin has the value the chain gives it. -/
theorem ChainCoin.value {pcoin : COutput} (h : ChainCoin chain pcoin)
    (hids : (chain.map (CTransaction.getHash env)).Nodup)
    (hroom : ∀ tx ∈ chain, tx.vout.length < 2 ^ 32) :
    valueOf env chain ⟨pcoin.wtx.tx.getHash env, UInt32.ofNat pcoin.i⟩ = pcoin.txout.nValue := by
  have hlt : pcoin.i < 2 ^ 32 := h.index.trans (hroom _ h.mem)
  have hn : (UInt32.ofNat pcoin.i).toNat = pcoin.i := by
    simpa using Nat.mod_eq_of_lt hlt
  unfold valueOf outputOf COutput.txout
  rw [find_of_ids hids h.mem, Option.bind_some, hn, List.getElem?_eq_getElem h.index,
    List.getD_eq_getElem?_getD, List.getElem?_eq_getElem h.index]
  rfl

def valuesOf (env : Env) (txs : List CTransaction) (vin : List CTxIn) : Int :=
  (vin.map fun txin => valueOf env txs txin.prevout).sum

/-- The coinstake under construction: nothing is paid out yet, and the inputs spend coins of
the chain that are worth the credit. -/
structure Staking (env : Env) (chain : List CTransaction) (s : StakeState) : Prop where
  outputs : ∃ script, s.txNew.vout = [⟨0, []⟩, ⟨0, script⟩] ∨
    s.txNew.vout = [⟨0, []⟩, ⟨0, script⟩, ⟨0, script⟩]
  credit : s.nCredit = valuesOf env chain s.txNew.vin
  in_chain : ∀ txin ∈ s.txNew.vin, txin.prevout.hash ∈ chain.map (CTransaction.getHash env)

section Build

variable {n : FullNode} {st : Staker}
  (hids : (chain.map (CTransaction.getHash env)).Nodup)
  (hroom : ∀ tx ∈ chain, tx.vout.length < 2 ^ 32)

include hids hroom

theorem Staking.start {tx : CTransaction} (htx : tx.vout = [⟨0, []⟩]) {pcoin : COutput}
    (hc : ChainCoin chain pcoin) (block : CBlockHeader) (k : Nat) (key : CKey)
    (scriptPubKeyOut : CScript) :
    Staking env chain (stakeOn env tx pcoin block k key scriptPubKeyOut) where
  outputs := by
    refine ⟨scriptPubKeyOut, ?_⟩
    simp only [stakeOn, htx]
    split
    · exact .inr rfl
    · exact .inl rfl
  credit := by
    simp only [stakeOn, valuesOf, List.map_singleton, List.sum_singleton]
    exact (hc.value hids hroom).symm
  in_chain := by
    intro txin hm
    rw [List.mem_singleton.mp hm]
    exact List.mem_map_of_mem hc.mem

theorem Staking.addInputs {setCoins : List COutput} (hcoins : ∀ c ∈ setCoins, ChainCoin chain c)
    (nLimit : Int) {s : StakeState} (h : Staking env chain s) :
    Staking env chain (Triangles.addInputs env nLimit setCoins s) := by
  induction setCoins generalizing s with
  | nil => exact h
  | cons pcoin rest ih =>
    have ih := fun s => ih (s := s) fun c hm => hcoins c (List.mem_cons_of_mem _ hm)
    have hc := hcoins pcoin List.mem_cons_self
    unfold Triangles.addInputs
    simp only
    split
    · split
      · exact h
      · split
        · exact h
        · split
          · exact h
          · split
            · exact ih _ h
            · split
              · exact ih _ h
              · refine ih _ ⟨h.outputs, ?_, ?_⟩
                · simp only [valuesOf, List.map_append, List.sum_append, List.map_singleton,
                    List.sum_singleton, hc.value hids hroom]
                  rw [h.credit, valuesOf]
                · intro txin hm
                  rcases List.mem_append.mp hm with hm | hm
                  · exact h.in_chain txin hm
                  · rw [List.mem_singleton.mp hm]
                    exact List.mem_map_of_mem hc.mem
    · exact ih _ h

end Build

/-- Two transactions that differ in the scripts of their inputs and in what they pay. -/
structure SameSpends (tx tx' : CTransaction) : Prop where
  nTime : tx'.nTime = tx.nTime
  prevouts : tx'.vin.map CTxIn.prevout = tx.vin.map CTxIn.prevout
  outputs : tx'.vout.length = tx.vout.length

theorem setAmounts_spec {tx : CTransaction} {script : CScript}
    (h : tx.vout = [⟨0, []⟩, ⟨0, script⟩] ∨ tx.vout = [⟨0, []⟩, ⟨0, script⟩, ⟨0, script⟩])
    (nCredit : Int) :
    SameSpends tx (setAmounts tx nCredit) ∧ (setAmounts tx nCredit).valueOut = nCredit := by
  unfold setAmounts CTransaction.valueOut
  rcases h with h | h <;> rw [h]
  · refine ⟨⟨rfl, rfl, by rw [h]; rfl⟩, ?_⟩
    simp
  · refine ⟨⟨rfl, rfl, by rw [h]; rfl⟩, ?_⟩
    simp


theorem SameSpends.isCoinBase {tx tx' : CTransaction} (h : SameSpends tx tx') :
    tx'.isCoinBase = tx.isCoinBase := by
  have hnull : (tx'.vin.map CTxIn.prevout).map COutPoint.isNull =
      (tx.vin.map CTxIn.prevout).map COutPoint.isNull := by rw [h.prevouts]
  have hempty : tx'.vout.isEmpty = tx.vout.isEmpty := by
    rw [Bool.eq_iff_iff, List.isEmpty_iff_length_eq_zero, List.isEmpty_iff_length_eq_zero, h.outputs]
  unfold CTransaction.isCoinBase
  rw [hempty]
  match hv : tx'.vin, hw : tx.vin with
  | [], [] => rfl
  | [a], [b] =>
    simp only [hv, hw, List.map_cons, List.map_nil, List.cons.injEq, and_true] at hnull
    simp only [hnull]
  | _ :: _ :: _, _ :: _ :: _ => rfl
  | [], _ :: _ => simp [hv, hw] at hnull
  | _ :: _, [] => simp [hv, hw] at hnull
  | [_], _ :: _ :: _ => simp [hv, hw] at hnull
  | _ :: _ :: _, [_] => simp [hv, hw] at hnull

/-- The coin age is a matter of the time and of what is spent. -/
theorem SameSpends.getCoinAge {tx tx' : CTransaction} (h : SameSpends tx tx') (env : Env)
    (txdb : CTxDB) : tx'.getCoinAge env txdb = tx.getCoinAge env txdb := by
  have hadd : ∀ vin : List CTxIn, vin.foldlM (CTransaction.addCoinAge env txdb tx) 0 =
      (vin.map CTxIn.prevout).foldlM (fun bnCentSecond prevout =>
        tx.addCoinAge env txdb bnCentSecond ⟨prevout, [], 0xffffffff⟩) 0 := by
    intro vin
    rw [List.foldlM_map]
    rfl
  have htime : tx'.addCoinAge env txdb = tx.addCoinAge env txdb := by
    funext bnCentSecond txin
    unfold CTransaction.addCoinAge
    rw [h.nTime]
  unfold CTransaction.getCoinAge
  rw [h.isCoinBase, htime, hadd, hadd, h.prevouts]

theorem SameSpends.trans {tx tx' tx'' : CTransaction} (h : SameSpends tx tx')
    (h' : SameSpends tx' tx'') : SameSpends tx tx'' where
  nTime := h'.nTime.trans h.nTime
  prevouts := h'.prevouts.trans h.prevouts
  outputs := h'.outputs.trans h.outputs

theorem signInput_ok {st : Staker} {tx tx' : CTransaction} {input : CTransaction × Nat}
    (h : signInput st tx input = .ok tx') : SameSpends tx tx' ∧ tx'.vout = tx.vout := by
  unfold signInput at h
  split at h
  · cases h
  · cases h
    refine ⟨⟨rfl, ?_, rfl⟩, rfl⟩
    apply List.ext_getElem?
    intro k
    simp only [List.getElem?_map, List.getElem?_modify]
    cases tx.vin[k]? with
    | none => rfl
    | some txin => split <;> rfl

/-- Signing changes scripts only. -/
theorem signInputs_ok {st : Staker} {inputs : List (CTransaction × Nat)} {tx tx' : CTransaction}
    (h : inputs.foldlM (signInput st) tx = .ok tx') : SameSpends tx tx' ∧ tx'.vout = tx.vout := by
  refine foldlM_keeps (fun t => SameSpends tx t ∧ t.vout = tx.vout) inputs ?_ _ _ h
    ⟨⟨rfl, rfl, rfl⟩, rfl⟩
  intro t _ _ t' ht hsame
  have := signInput_ok ht
  exact ⟨hsame.1.trans this.1, this.2.trans hsame.2⟩

/-- What a coinstake is to the chain it is made for: it spends coins of the chain and creates
the reward for their age and the fees. -/
structure PaysReward (env : Env) (n : FullNode) (chain : List CTransaction) (nFees : Int)
    (coinstake : CTransaction) : Prop where
  in_chain : ∀ txin ∈ coinstake.vin, txin.prevout.hash ∈ chain.map (CTransaction.getHash env)
  reward : ∃ nCoinAge, coinstake.getCoinAge env n.openTxDb = .ok nCoinAge ∧
    coinstake.valueOut - valuesOf env chain coinstake.vin =
      getProofOfStakeReward (int64 nCoinAge) nFees

theorem valuesOf_prevouts (env : Env) (txs : List CTransaction) (vin : List CTxIn) :
    valuesOf env txs vin = ((vin.map CTxIn.prevout).map (valueOf env txs)).sum := by
  rw [valuesOf, List.map_map]
  rfl

/-- The coinstake that is paid out and signed, with the key of its kernel. -/
theorem finishCoinStake_signed {n : FullNode} {st : Staker} {setCoins : List COutput}
    {found : StakeState} {nFees nLimit : Int} {coinstake : CTransaction} {key : CKey}
    (h : finishCoinStake env n st nFees nLimit setCoins found = .ok (coinstake, key)) :
    key = found.key ∧ ∃ nCoinAge,
      (addInputs env nLimit setCoins found).txNew.getCoinAge env n.openTxDb = .ok nCoinAge ∧
      (addInputs env nLimit setCoins found).vwtxPrev.zipIdx.foldlM (signInput st)
        (setAmounts (addInputs env nLimit setCoins found).txNew
          ((addInputs env nLimit setCoins found).nCredit +
            getProofOfStakeReward (int64 nCoinAge) nFees)) = .ok coinstake := by
  unfold finishCoinStake at h
  rw [check_bind] at h
  obtain ⟨-, h⟩ := h
  simp only at h
  split at h
  · obtain ⟨_, hfail, _⟩ := bind_ok.mp h
    cases hfail
  · rename_i nCoinAge hage
    obtain ⟨_, hsome, h⟩ := bind_ok.mp h
    cases hsome
    rw [check_bind] at h
    obtain ⟨txNew, hsigned, h⟩ := bind_ok.mp h.2
    rw [check_bind, pure_ok] at h
    obtain ⟨rfl, rfl⟩ := Prod.mk.inj h.2
    exact ⟨rfl, nCoinAge, hage, hsigned⟩

theorem finishCoinStake_ok {n : FullNode} {st : Staker}
    (hids : (chain.map (CTransaction.getHash env)).Nodup)
    (hroom : ∀ tx ∈ chain, tx.vout.length < 2 ^ 32) {setCoins : List COutput}
    (hcoins : ∀ c ∈ setCoins, ChainCoin chain c) {found : StakeState}
    (hfound : Staking env chain found) {nFees nLimit : Int} {coinstake : CTransaction} {key : CKey}
    (h : finishCoinStake env n st nFees nLimit setCoins found = .ok (coinstake, key)) :
    PaysReward env n chain nFees coinstake := by
  obtain ⟨-, nCoinAge, hage, hsigned⟩ := finishCoinStake_signed h
  have hs := hfound.addInputs hids hroom hcoins nLimit
  obtain ⟨script, hvout⟩ := hs.outputs
  obtain ⟨hamounts, hvalue⟩ := setAmounts_spec hvout
    ((addInputs env nLimit setCoins found).nCredit + getProofOfStakeReward (int64 nCoinAge) nFees)
  obtain ⟨hsame, hpaid⟩ := signInputs_ok hsigned
  have hsame := hamounts.trans hsame
  refine ⟨?_, nCoinAge, ?_, ?_⟩
  · intro txin hm
    have hmem : txin.prevout ∈ coinstake.vin.map CTxIn.prevout := List.mem_map_of_mem hm
    rw [hsame.prevouts] at hmem
    obtain ⟨txin', hm', hprev⟩ := List.mem_map.mp hmem
    exact hprev ▸ hs.in_chain txin' hm'
  · rw [hsame.getCoinAge, hage]
  · rw [valuesOf_prevouts, hsame.prevouts, ← valuesOf_prevouts, ← hs.credit,
      CTransaction.valueOut, hpaid, ← CTransaction.valueOut, hvalue]
    omega

theorem createCoinStake_ok {host : Host} {n : FullNode} {st : Staker}
    (hids : (chain.map (CTransaction.getHash env)).Nodup)
    (hroom : ∀ tx ∈ chain, tx.vout.length < 2 ^ 32) (hw : InMainChain st chain) {nBits : UInt32}
    {nSearchInterval nFees : Int} {txNew coinstake : CTransaction} {key : CKey}
    (h : createCoinStake env host n st nBits nSearchInterval nFees txNew = .ok (coinstake, key)) :
    PaysReward env n chain nFees coinstake := by
  unfold createCoinStake at h
  obtain ⟨nBalance, _, h⟩ := bind_ok.mp h
  rw [check_bind, check_bind] at h
  obtain ⟨-, -, h⟩ := h
  split at h
  · cases h
  · rename_i found hsearch
    refine finishCoinStake_ok hids hroom (fun c hm => mem_selectCoinsSimple hw hm) ?_ h
    obtain ⟨pcoin, hm, hfound⟩ := List.exists_of_findSome?_eq_some hsearch
    have hcoin := mem_selectCoinsSimple hw hm
    unfold searchCoin at hfound
    split at hfound
    · cases hfound
    · split at hfound
      · cases hfound
      · split at hfound
        · cases hfound
        · split at hfound
          · cases hfound
          · split at hfound
            · cases hfound
            · cases hfound
              exact .start hids hroom rfl hcoin ..


end Coins

section Times

theorem foldl_max_le {l : List CTransaction} {m t : Int} :
    l.foldl (fun maxTransactionTime tx => max maxTransactionTime tx.nTime.toNat) m ≤ t ↔
      m ≤ t ∧ ∀ tx ∈ l, (tx.nTime.toNat : Int) ≤ t := by
  induction l generalizing m with
  | nil => simp
  | cons tx l ih =>
    rw [List.foldl_cons, ih, max_le_iff, List.forall_mem_cons, and_assoc]

theorem getMaxTransactionTime_le {block : CBlock} {t : Int} (ht : 0 ≤ t) :
    block.getMaxTransactionTime ≤ t ↔ ∀ tx ∈ block.vtx, (tx.nTime.toNat : Int) ≤ t := by
  rw [CBlock.getMaxTransactionTime, foldl_max_le]
  exact and_iff_right ht

theorem getMaxTransactionTime_nonneg (block : CBlock) : 0 ≤ block.getMaxTransactionTime :=
  (foldl_max_le.mp (le_refl block.getMaxTransactionTime)).1

theorem le_getMaxTransactionTime {block : CBlock} {tx : CTransaction} (h : tx ∈ block.vtx) :
    (tx.nTime.toNat : Int) ≤ block.getMaxTransactionTime :=
  (getMaxTransactionTime_le (getMaxTransactionTime_nonneg block)).mp le_rfl tx h

theorem getMaxTransactionTime_lt (block : CBlock) : block.getMaxTransactionTime < 2 ^ 32 := by
  have hle : block.getMaxTransactionTime ≤ 2 ^ 32 - 1 := by
    rw [getMaxTransactionTime_le (by decide)]
    intro tx _
    have := tx.nTime.toNat_lt
    omega
  omega

theorem setTime_toNat {block : CBlock} {t : Int} (h0 : 0 ≤ t) (hlt : t < 2 ^ 32) :
    ((block.setTime t).nTime.toNat : Int) = t := by
  obtain ⟨k, rfl⟩ := Int.eq_ofNat_of_zero_le h0
  have hk : (UInt32.ofInt (k : Int)).toNat = k := by
    simp [UInt32.ofInt]
    omega
  exact congrArg Nat.cast hk

/-- The block of a coinstake that is late enough gets the latest time of its transactions:
the two bounds of `SignBlock` are below it. -/
theorem setStakeTime_spec {block : CBlock} {pindexBest : CBlockIndex}
    {coinbase coinstake : CTransaction} {txs : List CTransaction} (hvtx : block.vtx = coinbase :: txs)
    (hlate : pindexBest.minStakeTime ≤ coinstake.nTime.toNat) :
    (block.setStakeTime pindexBest coinstake).vtx = { coinbase with nTime := coinstake.nTime } :: txs ∧
      ((block.setStakeTime pindexBest coinstake).nTime.toNat : Int) =
        (block.setStakeTime pindexBest coinstake).getMaxTransactionTime := by
  unfold CBlock.setStakeTime
  simp only [hvtx, List.modifyHead_cons]
  generalize hstaked : ({ block with
    nTime := coinstake.nTime
    vtx := { coinbase with nTime := coinstake.nTime } :: txs } : CBlock) = staked
  have hm : { coinbase with nTime := coinstake.nTime } ∈ staked.vtx := by
    rw [← hstaked]
    exact List.mem_cons_self
  have hmax := le_getMaxTransactionTime hm
  have hlate := hlate.trans hmax
  rw [CBlockIndex.minStakeTime, max_le_iff] at hlate
  rw [max_eq_right hlate.1]
  have h0 := getMaxTransactionTime_nonneg staked
  have hlt := getMaxTransactionTime_lt staked
  have htime : (staked.setTime staked.getMaxTransactionTime).getBlockTime =
      staked.getMaxTransactionTime := setTime_toNat h0 hlt
  rw [htime, max_eq_left hlate.2]
  refine ⟨?_, setTime_toNat h0 hlt⟩
  rw [← hstaked]
  rfl

/-- Nothing is later than the block, so the loop that removes transactions removes none. -/
theorem insertCoinStake_vtx (env : Env) {block : CBlock} {coinbase coinstake : CTransaction}
    {txs : List CTransaction} (hvtx : block.vtx = coinbase :: txs)
    (htimes : ∀ tx ∈ block.vtx, (tx.nTime.toNat : Int) ≤ block.nTime.toNat) :
    (block.insertCoinStake env coinstake).vtx = coinbase :: coinstake :: txs := by
  have hall : (coinbase :: txs).filter (fun tx : CTransaction => !decide (block.nTime < tx.nTime)) =
      coinbase :: txs := by
    rw [List.filter_eq_self]
    intro tx hm
    have hle := htimes tx (hvtx ▸ hm)
    simp only [Bool.not_eq_true', decide_eq_false_iff_not, UInt32.lt_iff_toNat_lt]
    omega
  simp only [CBlock.insertCoinStake, hvtx, hall]
  rfl

end Times

section Sign

variable {double : Type} {env : Env} {host host' : Host} {m : Miner double} {n : FullNode}
  {st : Staker} {chain : List CTransaction}

/-- What `CheckBlock` and `ConnectBlock` ask of a block with these transactions on the given
chain: the time protocol, the order of transactions and the limit of the reward. -/
structure StakedRules (env : Env) (n : FullNode) (chain : List CTransaction) (nTime : UInt32)
    (coinbase coinstake : CTransaction) (txs : List CTransaction) : Prop where
  timestamp : checkCoinStakeTimestamp nTime.toNat coinstake.nTime.toNat = true
  times : ∀ tx ∈ coinbase :: coinstake :: txs, tx.nTime ≤ nTime
  inputs : ∀ pre tx post, coinbase :: coinstake :: txs = pre ++ tx :: post → ∀ o ∈ spends tx,
    o.hash ∉ chain.map (CTransaction.getHash env) → ∃ prev ∈ pre, prev.getHash env = o.hash
  reward : ∃ nCoinAge, coinstake.getCoinAge env n.openTxDb = .ok nCoinAge ∧
    coinstake.valueOut - valuesOf env chain coinstake.vin ≤
      getProofOfStakeReward (int64 nCoinAge)
        (total (applyTx env .inMempool) (feeOf env n.mempool) n.openTxDb.txIndex txs)

/-- The rules for a staked block, whose second transaction is the coinstake. -/
def StakedValid (env : Env) (n : FullNode) (chain : List CTransaction) (block : CBlock) : Prop :=
  match block.vtx with
  | coinbase :: coinstake :: txs => StakedRules env n chain block.nTime coinbase coinstake txs
  | _ => False

/-- A template is signed with the coinstake that is found for it. -/
theorem signBlock_ok {search search' : StakeSearch} {block block' : CBlock} {nFees : Int}
    (hw : block.isProofOfStake = false) {coinstake : CTransaction} {key : CKey}
    (hfound : createCoinStake env host n st block.nBits
      ((newTransaction host).nTime.toNat - search.nLastCoinStakeSearchTime) nFees
      (newTransaction host) = .ok (coinstake, key))
    (h : signBlock env host n st search block nFees = (true, block', search')) :
    ∃ pindexBest : CBlockIndex, ∃ vchBlockSig,
      pindexBest.minStakeTime ≤ (coinstake.nTime.toNat : Int) ∧
      block' = { (block.setStakeTime pindexBest coinstake).insertCoinStake env coinstake with
        vchBlockSig := vchBlockSig } := by
  unfold signBlock at h
  rw [hw] at h
  split at h
  · cases h
  · simp only [Bool.false_eq_true, if_false] at h
    split at h
    · cases h
    · split at h
      · cases h
      · rename_i pindexBest _
        rw [hfound] at h
        simp only at h
        split at h
        · cases h
        · rename_i hlate
          split at h
          · cases h
          · rename_i vchBlockSig _
            cases h
            exact ⟨pindexBest, vchBlockSig, Int.not_lt.mp hlate, rfl⟩

/-- A template for which a coinstake is found late enough is signed with a key that signs all. -/
theorem signBlock_of_found {search : StakeSearch} {block : CBlock} {nFees : Int}
    (hempty : ((block.vtx.head?.bind fun tx => tx.vout.head?).any CTxOut.isEmpty) = true)
    (hw : block.isProofOfStake = false)
    (hnew : search.nLastCoinStakeSearchTime < (newTransaction host).nTime.toNat)
    {pindexBest : CBlockIndex} (hbest : n.pindexBest = some pindexBest)
    {coinstake : CTransaction} {key : CKey}
    (hfound : createCoinStake env host n st block.nBits
      ((newTransaction host).nTime.toNat - search.nLastCoinStakeSearchTime) nFees
      (newTransaction host) = .ok (coinstake, key))
    (hlate : pindexBest.minStakeTime ≤ coinstake.nTime.toNat)
    (hkey : ∀ hash, (key.sign hash).isSome) :
    ∃ block', signBlock env host n st search block nFees = (true, block', search) := by
  unfold signBlock
  rw [hempty, hw, if_neg (by simp), if_neg (by simp)]
  simp only [if_neg (Int.not_le.mpr hnew), hbest, hfound, if_neg (Int.not_lt.mpr hlate)]
  obtain ⟨vchBlockSig, hsig⟩ := Option.isSome_iff_exists.mp (hkey
    (((block.setStakeTime pindexBest coinstake).insertCoinStake env coinstake).getHash env))
  rw [hsig]
  exact ⟨_, rfl⟩

/-- A signed template is its coinbase at the time of the coinstake, the coinstake and all the rest.
The block has the time of the coinstake unless something of the rest is later. -/
theorem signed_block {search search' : StakeSearch} {block block' : CBlock} {nFees : Int}
    (hw : block.isProofOfStake = false) {coinbase coinstake : CTransaction} {key : CKey}
    {txs : List CTransaction} (hvtx : block.vtx = coinbase :: txs)
    (hfound : createCoinStake env host n st block.nBits
      ((newTransaction host).nTime.toNat - search.nLastCoinStakeSearchTime) nFees
      (newTransaction host) = .ok (coinstake, key))
    (h : signBlock env host n st search block nFees = (true, block', search')) :
    block'.vtx = { coinbase with nTime := coinstake.nTime } :: coinstake :: txs ∧
      (∀ tx ∈ txs, tx.nTime ≤ block'.nTime) ∧
      (block'.nTime = coinstake.nTime ↔ ∀ tx ∈ txs, tx.nTime ≤ coinstake.nTime) := by
  obtain ⟨pindexBest, vchBlockSig, hlate, rfl⟩ := signBlock_ok hw hfound h
  obtain ⟨hstaked, htime⟩ := setStakeTime_spec hvtx hlate
  generalize hstk : block.setStakeTime pindexBest coinstake = staked at hstaked htime
  have hle : ∀ tx ∈ staked.vtx, (tx.nTime.toNat : Int) ≤ staked.nTime.toNat := by
    intro tx hm
    rw [htime]
    exact le_getMaxTransactionTime hm
  have hrest : ∀ tx ∈ txs, tx.nTime ≤ staked.nTime := by
    intro tx hm
    rw [UInt32.le_iff_toNat_le]
    exact_mod_cast hle tx (hstaked ▸ List.mem_cons_of_mem _ hm)
  refine ⟨insertCoinStake_vtx env hstaked hle, hrest, ?_⟩
  constructor
  · intro heq tx hm
    exact heq ▸ hrest tx hm
  · intro hearly
    have hmax : staked.getMaxTransactionTime ≤ coinstake.nTime.toNat := by
      rw [getMaxTransactionTime_le (Int.natCast_nonneg _), hstaked, List.forall_mem_cons]
      refine ⟨le_rfl, fun tx hm => ?_⟩
      exact_mod_cast UInt32.le_iff_toNat_le.mp (hearly tx hm)
    have hge := hle _ (hstaked ▸ List.mem_cons_self)
    simp only at hge
    have heq : staked.nTime.toNat = coinstake.nTime.toNat := by omega
    exact UInt32.toNat_inj.mp heq

theorem StakedRules.nTime_eq {nTime : UInt32} {coinbase coinstake : CTransaction}
    {txs : List CTransaction} (h : StakedRules env n chain nTime coinbase coinstake txs) :
    nTime = coinstake.nTime := by
  have hstamp := h.timestamp
  simp only [checkCoinStakeTimestamp, beq_iff_eq, Nat.cast_inj] at hstamp
  exact UInt32.toNat_inj.mp hstamp

theorem spends_subset (tx : CTransaction) : spends tx ⊆ tx.vin.map CTxIn.prevout := by
  unfold spends
  split
  · exact List.nil_subset _
  · exact List.Subset.refl _

/-- The inputs of the coinstake are in the chain, and those of what was collected are in the
chain or come before. -/
theorem inputs_earlier {c : Collected double}
    (ha : Assembled env m n.mempool n.openTxDb.txIndex chain c) {coinbase coinstake : CTransaction}
    (hcoinbase : coinbase.isCoinBase = true)
    (hstake : ∀ txin ∈ coinstake.vin, txin.prevout.hash ∈ chain.map (CTransaction.getHash env))
    (pre : List CTransaction) (tx : CTransaction) (post : List CTransaction)
    (h : coinbase :: coinstake :: c.vtx = pre ++ tx :: post) (o : COutPoint) (ho : o ∈ spends tx)
    (hnew : o.hash ∉ chain.map (CTransaction.getHash env)) :
    ∃ prev ∈ pre, prev.getHash env = o.hash := by
  match pre, h with
  | [], h =>
    obtain ⟨rfl, -⟩ := List.cons.inj h
    rw [spends, if_pos hcoinbase] at ho
    cases ho
  | [_], h =>
    obtain ⟨-, h⟩ := List.cons.inj h
    obtain ⟨rfl, -⟩ := List.cons.inj h
    obtain ⟨txin, hm, rfl⟩ := List.mem_map.mp (spends_subset _ ho)
    exact absurd (hstake txin hm) hnew
  | _ :: _ :: pre, h =>
    obtain ⟨-, h⟩ := List.cons.inj h
    obtain ⟨-, h⟩ := List.cons.inj h
    have hsplit : chain ++ c.vtx = (chain ++ pre) ++ tx :: post := by
      rw [h, List.append_assoc]
      rfl
    obtain ⟨prev, hprev, hh, -⟩ := ha.records.sound.earlier (chain ++ pre) tx post hsplit o ho
    rcases List.mem_append.mp hprev with hprev | hprev
    · exact absurd (hh ▸ List.mem_map_of_mem hprev) hnew
    · exact ⟨prev, List.mem_cons_of_mem _ (List.mem_cons_of_mem _ hprev), hh⟩

theorem template_isProofOfStake {c : Collected double}
    (ha : Assembled env m n.mempool n.openTxDb.txIndex chain c) {block : CBlock}
    {coinbase : CTransaction} (hvtx : block.vtx = coinbase :: c.vtx) :
    block.isProofOfStake = false := by
  unfold CBlock.isProofOfStake
  rw [hvtx]
  cases hc : c.vtx with
  | nil => rfl
  | cons tx txs => exact (ha.eligible tx (hc ▸ List.mem_cons_self)).2.not_coinStake

/-- A signed template keeps all rules but the one on the time of the coinstake, and keeps that
one exactly when no transaction of the template is later than the coinstake. -/
theorem staked_block_valid_iff (hrec : Records env n.openTxDb.txIndex chain)
    (hcheck : ∀ tx ∈ chain, tx.checkTransaction = .ok ())
    (hno : NoCollision env (chain ++ poolTxs n.mempool)) (hw : InMainChain st chain)
    {block : CBlock} {nFees : Int} (htemplate : createNewBlock env host m n true = .ok (block, nFees))
    {search : StakeSearch} {coinstake : CTransaction} {key : CKey}
    (hfound : createCoinStake env host' n st block.nBits
      ((newTransaction host').nTime.toNat - search.nLastCoinStakeSearchTime) nFees
      (newTransaction host') = .ok (coinstake, key))
    {block' : CBlock} {search' : StakeSearch}
    (hsigned : signBlock env host' n st search block nFees = (true, block', search')) :
    StakedValid env n chain block' ↔ ∀ tx ∈ block.vtx.tail, tx.nTime ≤ coinstake.nTime := by
  obtain ⟨pindexPrev, c, -, hc, rfl, hvtx⟩ := createNewBlock_ok htemplate
  have ha := collectPool_assembled hrec hno hc
  have hpays := createCoinStake_ok hrec.ids (fun tx hm => outputs_lt (hcheck tx hm)) hw hfound
  obtain ⟨hblock, hrest, htime⟩ := signed_block (template_isProofOfStake ha hvtx) hvtx hfound hsigned
  rw [hvtx, List.tail_cons, ← htime]
  unfold StakedValid
  simp only [hblock]
  constructor
  · exact StakedRules.nTime_eq
  · intro heq
    constructor
    · rw [heq, checkCoinStakeTimestamp, beq_self_eq_true]
    · intro tx hm
      rcases List.mem_cons.mp hm with rfl | hm
      · exact heq ▸ UInt32.le_refl _
      rcases List.mem_cons.mp hm with rfl | hm
      · exact heq ▸ UInt32.le_refl _
      · exact hrest tx hm
    · exact inputs_earlier ha (coinbaseTx_isCoinBase host m n true pindexPrev c.nFees) hpays.in_chain
    · obtain ⟨nCoinAge, hage, hreward⟩ := hpays.reward
      exact ⟨nCoinAge, hage, by rw [hreward, ha.fees]⟩

end Sign

theorem kernelAt_eq {env : Env} {host : Host} {n : FullNode} {nBits : UInt32}
    {block : CBlockHeader} {txindex : CTxIndex} {pcoin : COutput} {nTime : UInt32} :
    kernelAt env host n nBits block txindex pcoin nTime =
      !(verdictOf (checkStakeKernelHash env host n.mapBlockIndex n.toState nBits block
        (txindex.pos.nTxPos - txindex.pos.nBlockPos) pcoin.wtx.tx
        ⟨pcoin.wtx.tx.getHash env, UInt32.ofNat pcoin.i⟩ nTime false {})).1 := by
  unfold kernelAt verdictOf fails
  cases checkStakeKernelHash env host n.mapBlockIndex n.toState nBits block
    (txindex.pos.nTxPos - txindex.pos.nBlockPos) pcoin.wtx.tx
    ⟨pcoin.wtx.tx.getHash env, UInt32.ofNat pcoin.i⟩ nTime false {} <;> rfl

namespace Sample

/-! A chain of staked blocks that goes past the cutoff, and a wallet that stakes an output of the
fifteenth. The kernel hash meets the target in every second second. -/

def towerFields (k : Nat) : BlockFields :=
  { fieldsOf (600 * (k + 1)) (UInt32.ofNat (600 * (k + 1))) (UInt32.ofNat (600 * (k + 1))) (k + 1) with
    nFlags := 5
    nStakeModifier := 7
    nBits := 0x1d00ffff }

def tower : Nat → CBlockIndex
  | 0 => .genesis (towerFields 0)
  | k + 1 => .child (towerFields (k + 1)) (tower k)

theorem tower_nHeight (k : Nat) : (tower k).nHeight = k := by
  induction k with
  | zero => rfl
  | succ k ih => rw [tower, CBlockIndex.nHeight, ih]

theorem tower_hash (k : Nat) : (tower k).getBlockHash = 600 * (k + 1) := by cases k <;> rfl

def towerTop : Nat := 17692

def findTower (h : Nat) : Option CBlockIndex :=
  if h % 600 = 0 ∧ 600 ≤ h ∧ h ≤ 600 * (towerTop + 1) then some (tower (h / 600 - 1)) else none

theorem findTower_hash {h : Nat} {p : CBlockIndex} (hf : findTower h = some p) :
    p.getBlockHash = h := by
  unfold findTower at hf
  split at hf
  · cases hf
    have htower : (600 * (h / 600 - 1 + 1) : Nat) = h := by omega
    exact (tower_hash _).trans htower
  · cases hf

theorem findTower_parent {h : Nat} {f : BlockFields} {p : CBlockIndex}
    (hf : findTower h = some (.child f p)) : findTower p.getBlockHash = some p := by
  unfold findTower at hf
  split at hf
  · rename_i hh
    have htower := Option.some.inj hf
    cases hk : h / 600 - 1 with
    | zero =>
      rw [hk] at htower
      cases htower
    | succ k =>
      rw [hk, tower] at htower
      cases htower
      unfold findTower
      rw [tower_hash, if_pos (by omega)]
      congr 2
      omega
  · cases hf

def towerMap : BlockMap where
  find := findTower
  hash_eq := findTower_hash
  parent := findTower_parent

def payToKey : CScript := pushData (List.replicate 33 2) ++ [OP_CHECKSIG]

def stakedFund : CTransaction :=
  { transfer 8999 [⟨999, 0⟩] [] with vout := [⟨5000, opTrue⟩, ⟨1000 * COIN, payToKey⟩] }

def stakedFundBlock : CBlock := blockOf 8400 9000 [stakedFund]

def towerEnv : Env :=
  { env [(tower 14, stakedFundBlock)] with
    hashKernel := fun _ _ _ _ _ nTimeTx => nTimeTx.toNat % 2 * 2 ^ 255 }

def towerPayment (nTime : UInt32) : CTransaction := transfer nTime [⟨8999, 0⟩] [3000, 1800]

def towerNode (nTime : UInt32) : FullNode :=
  { nodeWith fun h =>
      if h = 8999 then
        some (.fresh ((tower 14).posOf (firstTxPos stakedFundBlock (tower 14) false)) 2)
      else none with
    pnext := fun p => findTower (p.getBlockHash + 600)
    pindexGenesisBlock := some (tower 0)
    pindexBest := some (tower towerTop)
    hashBestChain := (tower towerTop).getBlockHash
    nBestHeight := towerTop
    mempool := CTxMemPool.empty.addUnchecked nTime.toNat (towerPayment nTime)
    mapBlockIndex := towerMap
    setStakeSeen := ∅
    hashSyncCheckpoint := 0
    hashPendingCheckpoint := 0
    hashInvalidCheckpoint := 0 }

def towerHost : Host := { nAdjustedTime := 10616001 }

def stakeKey : CKey := ⟨List.replicate 33 2, fun _ => some [1]⟩

def staker : Staker where
  wallet :=
    { ownsScript := fun script => script == payToKey
      mapWallet := fun hash => if hash = 8999 then some { tx := stakedFund } else none }
  keys := [8999]
  view :=
    { isFinal := fun _ => true
      isTrusted := fun _ => true
      getBlocksToMaturity := fun _ => 0
      getDepthInMainChain := fun _ => 17679 }
  getKey _ := some stakeKey
  hash160 _ := []
  signSignature _ _ _ := some opTrue
  pointerOrder l := l
  pointerOrder_perm l := .refl l

def towerChain : List CTransaction := [coinbase 999 10000, stakedFund]

def feeMiner : Miner Rat := { miner 250000 with blockprioritysize := 0 }

def towerSearch : StakeSearch := ⟨10615999, 0⟩

def towerStake : CTransaction where
  nTime := 10616000
  vin := [{ prevout := ⟨8999, 1⟩, scriptSig := opTrue }]
  vout := [⟨0, []⟩, ⟨1110994312, payToKey⟩]

def towerCoin : COutput := ⟨8999, { tx := stakedFund }, 1, 17679⟩

def towerTxIndex : CTxIndex :=
  .fresh ((tower 14).posOf (firstTxPos stakedFundBlock (tower 14) false)) 2

def towerBits : UInt32 := 486637566

section Tower

variable (t : UInt32)

theorem tower_records : Records towerEnv (towerNode t).openTxDb.txIndex towerChain :=
  have hindex : ∀ h, (towerNode t).openTxDb.txIndex h =
      if h = stakedFund.getHash towerEnv then some (.fresh towerTxIndex.pos 2) else none :=
    fun _ => rfl
  records_of_spent hindex rfl rfl (by decide) (by decide)

theorem staker_inMainChain : InMainChain staker towerChain := by
  intro hash wtx hm _
  simp only [staker] at hm
  split at hm
  · cases hm
    exact List.mem_cons_of_mem _ List.mem_cons_self
  · cases hm

theorem tower_nHeightBest : (towerNode t).toState.nHeightBest = 17692 :=
  congrArg Nat.cast (tower_nHeight towerTop)

theorem tower_kernelBlock :
    (towerMap.find (towerEnv.hash9 stakedFundBlock.toCBlockHeader)).bind
      (kernelBlock towerEnv (towerNode t).toState) = some (tower 15) := by
  have h : towerMap.find (towerEnv.hash9 stakedFundBlock.toCBlockHeader) = some (tower 14) := rfl
  rw [h, Option.bind_some, kernelBlock, tower_nHeightBest]
  rfl

theorem tower_kernelAt {nTime : UInt32} (hn : nTime = 10616001 ∨ nTime = 10616000) :
    kernelAt towerEnv towerHost (towerNode t) towerBits stakedFundBlock.toCBlockHeader towerTxIndex
      towerCoin nTime = decide (nTime = 10616000) := by
  have hblock := tower_kernelBlock t
  change ((towerNode t).mapBlockIndex.find _).bind _ = _ at hblock
  rw [kernelAt_eq, checkStakeKernelHash_verdict, hblock, tower_nHeightBest]
  rcases hn with rfl | rfl <;> decide

def towerStart : CTransaction := { newTransaction towerHost with vin := [], vout := [⟨0, []⟩] }

theorem tower_kernelOffset :
    kernelOffset (kernelAt towerEnv towerHost (towerNode t) towerBits
      stakedFundBlock.toCBlockHeader towerTxIndex towerCoin) staker.fShutdown 2 towerStart.nTime =
      some 1 := by
  have hmiss := tower_kernelAt t (.inl rfl)
  have hhit := tower_kernelAt t (.inr rfl)
  show List.find? (fun k => kernelAt towerEnv towerHost (towerNode t) towerBits
    stakedFundBlock.toCBlockHeader towerTxIndex towerCoin (10616001 - UInt32.ofNat k)) [0, 1] = _
  have h0 : (10616001 : UInt32) - UInt32.ofNat 0 = 10616001 := rfl
  have h1 : (10616001 : UInt32) - UInt32.ofNat 1 = 10616000 := rfl
  simp only [List.find?, h0, h1, hmiss, hhit]
  rfl

theorem tower_searchCoin :
    searchCoin towerEnv towerHost (towerNode t) staker towerBits 2 towerStart towerCoin =
      some (stakeOn towerEnv towerStart towerCoin stakedFundBlock.toCBlockHeader 1 stakeKey
        payToKey) := by
  have hindex : (towerNode t).openTxDb.readTxIndex (towerCoin.wtx.tx.getHash towerEnv) =
      some towerTxIndex := rfl
  have hheader : towerEnv.readHeader towerTxIndex.pos.nFile towerTxIndex.pos.nBlockPos =
      some stakedFundBlock.toCBlockHeader := rfl
  have hold : ¬ (towerStart.nTime - UInt32.ofNat nMaxStakeSearchInterval).toNat <
      stakedFundBlock.nTime.toNat + nStakeMinAge towerEnv := by decide
  have hkey : staker.kernelKey towerCoin.txout.scriptPubKey = some (stakeKey, payToKey) := rfl
  unfold searchCoin
  simp only [hindex, hheader, if_neg hold, tower_kernelOffset t, hkey]

variable {t} (ht : t = 10616000 ∨ t = 10616001)

include ht

theorem tower_finishCoinStake :
    finishCoinStake towerEnv (towerNode t) staker 200 (1000 * COIN) [towerCoin]
      (stakeOn towerEnv towerStart towerCoin stakedFundBlock.toCBlockHeader 1 stakeKey payToKey) =
      .ok (towerStake, stakeKey) := by
  have heval : (finishCoinStake towerEnv (towerNode t) staker 200 (1000 * COIN) [towerCoin]
      (stakeOn towerEnv towerStart towerCoin stakedFundBlock.toCBlockHeader 1 stakeKey
        payToKey)).map Prod.fst = .ok towerStake := by
    rcases ht with rfl | rfl <;> decide
  obtain ⟨⟨coinstake, key⟩, h, rfl⟩ := map_ok.mp heval
  obtain ⟨rfl, -⟩ := finishCoinStake_signed h
  exact h

theorem tower_createCoinStake :
    createCoinStake towerEnv towerHost (towerNode t) staker towerBits
      ((newTransaction towerHost).nTime.toNat - towerSearch.nLastCoinStakeSearchTime) 200
      (newTransaction towerHost) = .ok (towerStake, stakeKey) := by
  have hbalance : staker.wallet.getBalance staker.view staker.keys = .ok (1000 * COIN) := rfl
  have hcoins : staker.pointerOrder (staker.selectCoinsSimple (1000 * COIN - staker.nReserveBalance)
      (newTransaction towerHost).nTime (nCoinbaseMaturity towerEnv)) = [towerCoin] := rfl
  have hinterval : ((newTransaction towerHost).nTime.toNat : Int) -
      towerSearch.nLastCoinStakeSearchTime = 2 := rfl
  rw [hinterval]
  refine bind_ok.mpr ⟨_, hbalance, check_bind.mpr ⟨rfl, check_bind.mpr ⟨?_, ?_⟩⟩⟩
  · simp only [hcoins]
    rfl
  · have hsearch := tower_searchCoin t
    unfold towerStart at hsearch
    simp only [hcoins]
    rw [List.findSome?_cons, hsearch]
    exact tower_finishCoinStake ht

theorem tower_collectPool : ∃ c, collectPool towerEnv towerHost feeMiner (towerNode t) true
    (tower towerTop) = .ok c ∧ c.vtx = [towerPayment t] ∧ c.nFees = 200 := by
  have heval : (collectPool towerEnv towerHost feeMiner (towerNode t) true (tower towerTop)).map
      (fun c => (c.vtx, c.nFees)) = .ok ([towerPayment t], 200) := by
    rcases ht with rfl | rfl <;> decide +kernel
  obtain ⟨c, hc, hr⟩ := map_ok.mp heval
  obtain ⟨hvtx, hfees⟩ := Prod.mk.inj hr
  exact ⟨c, hc, hvtx, hfees⟩

theorem tower_createNewBlock : ∃ block, createNewBlock towerEnv towerHost feeMiner (towerNode t)
      true = .ok (block, 200) ∧ block.nBits = towerBits ∧
    block.vtx = [coinbaseTx towerHost feeMiner (towerNode t) true (tower towerTop) 200,
      towerPayment t] := by
  obtain ⟨c, hc, hvtx, hfees⟩ := tower_collectPool ht
  have hsize : (pushInt64 ((tower towerTop).nHeight + 1) ++ feeMiner.COINBASE_FLAGS).length ≤
      100 := by
    rw [tower_nHeight]
    decide
  obtain ⟨block, hblock, hall, hbits⟩ := createNewBlock_of_collectPool rfl hsize hc
  rw [hfees] at hblock hall
  rw [hvtx] at hall
  refine ⟨block, hblock, ?_, hall⟩
  rw [hbits]
  decide

theorem tower_signBlock {block : CBlock} (hbits : block.nBits = towerBits)
    (hvtx : block.vtx = [coinbaseTx towerHost feeMiner (towerNode t) true (tower towerTop) 200,
      towerPayment t]) :
    ∃ block', signBlock towerEnv towerHost (towerNode t) staker towerSearch block 200 =
      (true, block', towerSearch) := by
  have hcreate := tower_createCoinStake ht
  rw [← hbits] at hcreate
  refine signBlock_of_found ?_ ?_ (by decide) rfl hcreate (by decide) fun _ => rfl
  · rw [hvtx]
    rfl
  · rw [CBlock.isProofOfStake, hvtx]
    rfl

end Tower

end Sample

/-- The payment has the time of the coinstake. -/
theorem staked_block_valid_on_time :
    ∃ block block', createNewBlock Sample.towerEnv Sample.towerHost Sample.feeMiner
        (Sample.towerNode 10616000) true = .ok (block, 200) ∧
      signBlock Sample.towerEnv Sample.towerHost (Sample.towerNode 10616000) Sample.staker
        Sample.towerSearch block 200 = (true, block', Sample.towerSearch) ∧
      StakedValid Sample.towerEnv (Sample.towerNode 10616000) Sample.towerChain block' := by
  have ht : (10616000 : UInt32) = 10616000 ∨ (10616000 : UInt32) = 10616001 := .inl rfl
  obtain ⟨block, htemplate, hbits, hvtx⟩ := Sample.tower_createNewBlock ht
  obtain ⟨block', hsigned⟩ := Sample.tower_signBlock ht hbits hvtx
  have hfound := Sample.tower_createCoinStake ht
  rw [← hbits] at hfound
  refine ⟨block, block', htemplate, hsigned, ?_⟩
  refine (staked_block_valid_iff (Sample.tower_records _) (by decide) (by decide)
    Sample.staker_inMainChain htemplate hfound hsigned).mpr ?_
  rw [hvtx]
  decide

/-- A payment of the present second is in the template, and the kernel found is a second older: the
block gets the time of the payment. -/
theorem staked_block_too_late :
    Records Sample.towerEnv (Sample.towerNode 10616001).openTxDb.txIndex Sample.towerChain ∧
    InMainChain Sample.staker Sample.towerChain ∧
    ∃ block block', createNewBlock Sample.towerEnv Sample.towerHost Sample.feeMiner
        (Sample.towerNode 10616001) true = .ok (block, 200) ∧
      signBlock Sample.towerEnv Sample.towerHost (Sample.towerNode 10616001) Sample.staker
        Sample.towerSearch block 200 = (true, block', Sample.towerSearch) ∧
      ¬ StakedValid Sample.towerEnv (Sample.towerNode 10616001) Sample.towerChain block' := by
  have ht : (10616001 : UInt32) = 10616000 ∨ (10616001 : UInt32) = 10616001 := .inr rfl
  obtain ⟨block, htemplate, hbits, hvtx⟩ := Sample.tower_createNewBlock ht
  obtain ⟨block', hsigned⟩ := Sample.tower_signBlock ht hbits hvtx
  have hfound := Sample.tower_createCoinStake ht
  rw [← hbits] at hfound
  refine ⟨Sample.tower_records _, Sample.staker_inMainChain, block, block', htemplate, hsigned, ?_⟩
  have hstake : block.isProofOfStake = false := by
    rw [CBlock.isProofOfStake, hvtx]
    rfl
  obtain ⟨hblock, -, htime⟩ := signed_block hstake hvtx hfound hsigned
  unfold StakedValid
  simp only [hblock]
  intro hrules
  exact absurd (htime.mp hrules.nTime_eq) (by decide)

end Triangles
