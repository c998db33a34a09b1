import Mathlib.Algebra.Order.BigOperators.Group.List
import Triangles.Model.Spend
import Triangles.Proofs.SpentFlags
import Triangles.Proofs.Worth

/-! The coins chosen for a payment are coins the wallet offers, each once, and they are worth
what the payment asks for. -/

namespace Triangles

open Mask Outcome Ledger

section Subset

variable {vValue : List Int} {nTargetValue : Int}

/-- The best subset so far reaches the target, with the value that is noted for it. -/
structure Reaches (vValue : List Int) (nTargetValue : Int) (s : Subset) : Prop where
  best : s.nBest = weight vValue s.vfBest
  best_ge : nTargetValue ≤ s.nBest

structure Balanced (vValue : List Int) (nTargetValue : Int) (s : Subset) : Prop extends
    Reaches vValue nTargetValue s where
  total : s.nTotal = weight vValue s.vfIncluded
  length : s.vfIncluded.length = vValue.length

theorem tryCoin_balanced {s : Subset} (h : Balanced vValue nTargetValue s) {i : Nat}
    (hi : i < vValue.length) (hfree : s.vfIncluded[i]? = some false) :
    Balanced vValue nTargetValue (tryCoin vValue nTargetValue s i) := by
  have hadd : weight vValue (s.vfIncluded.set i true) = s.nTotal + vValue.getD i 0 := by
    rw [weight_set_true hi hfree, h.total]
  unfold tryCoin
  simp only
  split
  · rename_i hreached
    refine ⟨⟨?_, ?_⟩, ?_, ?_⟩
    · simp only
      split
      · exact hadd.symm
      · exact h.best
    · simp only
      split
      · exact hreached
      · exact h.best_ge
    · simp only [set_false hfree]
      exact h.total
    · simp only [set_false hfree]
      exact h.length
  · exact ⟨⟨h.best, h.best_ge⟩, hadd.symm, by rw [List.length_set, h.length]⟩

theorem tryCoin_others (s : Subset) {i j : Nat} (hne : i ≠ j) :
    (tryCoin vValue nTargetValue s i).vfIncluded[j]? = s.vfIncluded[j]? := by
  unfold tryCoin
  simp only
  split <;> exact List.getElem?_set_ne hne

/-- A pass that takes only coins that are not in keeps the account. -/
theorem subsetPass_balanced {wanted : Subset → Nat → Bool} {s : Subset}
    (h : Balanced vValue nTargetValue s)
    (hfree : ∀ (t : Subset) (i : Nat), i < vValue.length →
      t.vfIncluded[i]? = s.vfIncluded[i]? → wanted t i = true → t.vfIncluded[i]? = some false) :
    Balanced vValue nTargetValue (subsetPass vValue nTargetValue wanted s) := by
  -- behind the coins of the first `n` rounds the flags are those of the start
  have hrounds : ∀ n, n ≤ vValue.length →
      Balanced vValue nTargetValue ((List.range n).foldl
        (fun s i => if wanted s i then tryCoin vValue nTargetValue s i else s) s) ∧
      ∀ j, n ≤ j → ((List.range n).foldl
        (fun s i => if wanted s i then tryCoin vValue nTargetValue s i else s)
          s).vfIncluded[j]? = s.vfIncluded[j]? := by
    intro n hn
    induction n with
    | zero => exact ⟨h, fun _ _ => rfl⟩
    | succ n ih =>
      obtain ⟨hb, hsame⟩ := ih (Nat.le_of_succ_le hn)
      rw [List.range_succ, List.foldl_concat]
      split
      · rename_i hw
        refine ⟨tryCoin_balanced hb hn (hfree _ n hn (hsame n le_rfl) hw), fun j hj => ?_⟩
        rw [tryCoin_others _ (Nat.ne_of_lt hj), hsame j (Nat.le_of_succ_le hj)]
      · exact ⟨hb, fun j hj => hsame j (Nat.le_of_succ_le hj)⟩
  exact (hrounds _ le_rfl).1

theorem subsetRep_reaches {s : Subset} (h : Reaches vValue nTargetValue s) (rand : Nat → Bool) :
    Reaches vValue nTargetValue (subsetRep vValue nTargetValue rand s) := by
  unfold subsetRep
  generalize hstart : ({ s with
    vfIncluded := List.replicate vValue.length false
    nTotal := 0
    fReachedTarget := false } : Subset) = start
  have hempty : Balanced vValue nTargetValue start := by
    rw [← hstart]
    exact ⟨⟨h.best, h.best_ge⟩, (weight_none vValue _).symm, List.length_replicate⟩
  have hfirst : Balanced vValue nTargetValue
      (subsetPass vValue nTargetValue (fun _ i => rand i) start) := by
    refine subsetPass_balanced hempty fun t i hi hsame _ => ?_
    rw [hsame, ← hstart, List.getElem?_replicate, if_pos hi]
  simp only
  split
  · exact hfirst.toReaches
  · refine (subsetPass_balanced hfirst fun t i hi hsame hw => ?_).toReaches
    rw [← hfirst.length] at hi
    rw [List.getElem?_eq_getElem hi] at hsame
    rw [hsame, Option.some.injEq]
    simpa [List.getD_eq_getElem?_getD, hsame] using hw

/-- The best subset of coins that together reach the target reaches it. -/
theorem approximateBestSubset_spec {nTotalLower : Int} (htotal : nTotalLower = vValue.sum)
    (hge : nTargetValue ≤ nTotalLower) (rand : Nat → Nat → Bool) (iterations : Nat) :
    (approximateBestSubset vValue nTargetValue rand nTotalLower iterations).2 =
        weight vValue (approximateBestSubset vValue nTargetValue rand nTotalLower iterations).1 ∧
      nTargetValue ≤ (approximateBestSubset vValue nTargetValue rand nTotalLower iterations).2 := by
  have hreach : ∀ (l : List Nat) (s : Subset), Reaches vValue nTargetValue s →
      Reaches vValue nTargetValue (l.foldl (fun s nRep =>
        if s.nBest = nTargetValue then s else subsetRep vValue nTargetValue (rand nRep) s) s) := by
    intro l
    induction l with
    | nil => exact fun _ h => h
    | cons nRep l ih =>
      intro s h
      rw [List.foldl_cons]
      apply ih
      split
      · exact h
      · exact subsetRep_reaches h _
  have h := hreach (List.range iterations)
    ⟨[], 0, false, List.replicate vValue.length true, nTotalLower⟩
    ⟨by rw [htotal, weight_all], hge⟩
  exact ⟨h.best, h.best_ge⟩

end Subset

section Choice

variable {chance : CoinChance} {w : CWallet} {nTargetValue : Int} {nSpendTime : UInt32}

theorem valueSum_append (l l' : List COutput) : valueSum (l ++ l') = valueSum l + valueSum l' := by
  simp [valueSum]

/-- What the loop has sorted out of the coins `pre`. -/
structure Sorts (nTargetValue : Int) (pre : List COutput) (s : CoinSort) : Prop where
  smaller : s.vValue.Sublist pre
  total : s.nTotalLower = valueSum s.vValue
  larger : ∀ c ∈ s.coinLowestLarger, c ∈ pre ∧ nTargetValue ≤ c.txout.nValue

theorem Sorts.skip {pre : List COutput} {s : CoinSort} (h : Sorts nTargetValue pre s)
    (output : COutput) : Sorts nTargetValue (pre ++ [output]) s where
  smaller := h.smaller.trans (List.sublist_append_left ..)
  total := h.total
  larger c hc := ⟨List.mem_append_left _ (h.larger c hc).1, (h.larger c hc).2⟩

/-- The outcome of the loop over the coins: one of just the target value, or all sorted out. -/
def SortedOut (nTargetValue : Int) (coins : List COutput) : COutput ⊕ CoinSort → Prop
  | .inl coin => coin ∈ coins ∧ coin.txout.nValue = nTargetValue
  | .inr s => Sorts nTargetValue coins s

theorem sortCoins_spec (w : CWallet) (nSpendTime : UInt32) (nConfMine nConfTheirs : Int)
    (rest : List COutput) {pre : List COutput} {s : CoinSort} (h : Sorts nTargetValue pre s) :
    SortedOut nTargetValue (pre ++ rest)
      (sortCoins w nTargetValue nSpendTime nConfMine nConfTheirs rest s) := by
  induction rest generalizing pre s with
  | nil =>
    rw [List.append_nil]
    exact h
  | cons output rest ih =>
    have hsplit : pre ++ output :: rest = (pre ++ [output]) ++ rest := by simp
    unfold sortCoins
    rw [hsplit]
    generalize (if w.isFromMe output.wtx.tx then nConfMine else nConfTheirs) = nConf
    split
    · exact ih (h.skip output)
    · split
      · exact ih (h.skip output)
      · simp only
        split
        · rename_i heq
          exact ⟨List.mem_append_left _ (List.mem_append_right _ List.mem_cons_self), heq⟩
        · split
          · refine ih ⟨h.smaller.append_right _, ?_, fun c hc => (h.skip output).larger c hc⟩
            rw [valueSum_append, h.total]
            simp [valueSum]
          · rename_i hlarge
            split
            · refine ih ⟨(h.skip output).smaller, h.total, fun c hc => ?_⟩
              obtain rfl := Option.some.inj hc
              have hcent : 0 < CENT := by decide
              exact ⟨List.mem_append_right _ List.mem_cons_self, by omega⟩
            · exact ih (h.skip output)

/-- Coins that pay for the target: some of those offered, no coin more often than offered. -/
structure Covers (vCoins : List COutput) (nTargetValue : Int) (coins : List COutput)
    (nValueRet : Int) : Prop where
  subperm : coins.Subperm vCoins
  value : nValueRet = valueSum coins
  enough : nTargetValue ≤ nValueRet

theorem covers_single {vCoins : List COutput} {coin : COutput} (hm : coin ∈ vCoins)
    (hge : nTargetValue ≤ coin.txout.nValue) :
    Covers vCoins nTargetValue [coin] (valueSum [coin]) where
  subperm := List.singleton_subperm_iff.mpr hm
  value := rfl
  enough := by simpa [valueSum] using hge

/-- The two searches for a subset find one that reaches the target. -/
theorem bestSubset_spec {attempt : Nat} {vValue : List COutput} {nTotalLower : Int}
    (htotal : nTotalLower = valueSum vValue) (hge : nTargetValue ≤ nTotalLower) :
    nTargetValue ≤ valueSum
      (chosen vValue (bestSubset chance nTargetValue attempt vValue nTotalLower).1) := by
  have hsum : ∀ bs, weight (vValue.map fun o => o.txout.nValue) bs =
      valueSum (chosen vValue bs) := by
    intro bs
    rw [weight, chosen_map, valueSum]
  have hcent : 0 < CENT := by decide
  unfold bestSubset
  simp only
  split
  · rename_i hmore
    obtain ⟨hbest, hreach⟩ := approximateBestSubset_spec htotal hmore.2
      (chance.rand (2 * attempt + 1)) 1000
    rw [← hsum, ← hbest]
    omega
  · obtain ⟨hbest, hreach⟩ := approximateBestSubset_spec htotal hge (chance.rand (2 * attempt)) 1000
    rw [← hsum, ← hbest]
    exact hreach

/-- What the loop has sorted out of some coins is what the choice covers the target with. -/
theorem selectCoinsMinConf_sorted {attempt : Nat} {nConfMine nConfTheirs : Int}
    {vCoins sorted vOffered coins : List COutput} {nValueRet : Int}
    (hsort : SortedOut nTargetValue sorted (sortCoins w nTargetValue nSpendTime nConfMine
      nConfTheirs (chance.shuffle attempt vCoins) {}))
    (hperm : sorted.Perm vOffered)
    (h : selectCoinsMinConf chance w nTargetValue nSpendTime attempt nConfMine nConfTheirs vCoins =
      some (coins, nValueRet)) : Covers vOffered nTargetValue coins nValueRet := by
  unfold selectCoinsMinConf at h
  split at h
  · rename_i coin hexact
    rw [hexact] at hsort
    cases h
    exact covers_single (hperm.mem_iff.mp hsort.1) hsort.2.ge
  · rename_i s hsorted
    rw [hsorted] at hsort
    have hsmaller : s.vValue.Subperm vOffered := hsort.smaller.subperm.trans hperm.subperm
    have hlarger : ∀ coin, s.coinLowestLarger = some coin →
        Covers vOffered nTargetValue [coin] (valueSum [coin]) := fun coin hc =>
      covers_single (hperm.mem_iff.mp (hsort.larger coin hc).1) (hsort.larger coin hc).2
    split at h
    · rename_i heq
      cases h
      exact ⟨hsmaller, rfl, by rw [← hsort.total, heq]⟩
    · split at h
      · obtain ⟨coin, hc, hsome⟩ := Option.map_eq_some_iff.mp h
        cases hsome
        exact hlarger coin hc
      · rename_i hne hlt
        have hvalue : valueSum (chance.sort s.vValue) = valueSum s.vValue :=
          ((chance.sort_perm s.vValue).map _).sum_eq
        have hsubset : Covers vOffered nTargetValue
            (chosen (chance.sort s.vValue)
              (bestSubset chance nTargetValue attempt (chance.sort s.vValue) s.nTotalLower).1)
            (valueSum (chosen (chance.sort s.vValue)
              (bestSubset chance nTargetValue attempt (chance.sort s.vValue) s.nTotalLower).1)) := by
          refine ⟨?_, rfl, bestSubset_spec (by rw [hvalue, hsort.total]) (Int.not_lt.mp hlt)⟩
          exact (chosen_sublist ..).subperm.trans
            ((chance.sort_perm s.vValue).subperm.trans hsmaller)
        simp only at h
        split at h
        · cases h
          exact hsubset
        · rename_i coin hc
          split at h
          · cases h
            exact hlarger coin hc
          · cases h
            exact hsubset

variable (nTargetValue) in
theorem sorts_nil : Sorts nTargetValue [] {} := ⟨List.Sublist.refl _, rfl, nofun⟩

theorem selectCoinsMinConf_covers {attempt : Nat} {nConfMine nConfTheirs : Int}
    {vCoins coins : List COutput} {nValueRet : Int}
    (h : selectCoinsMinConf chance w nTargetValue nSpendTime attempt nConfMine nConfTheirs vCoins =
      some (coins, nValueRet)) : Covers vCoins nTargetValue coins nValueRet :=
  selectCoinsMinConf_sorted (sortCoins_spec w nSpendTime nConfMine nConfTheirs
    (chance.shuffle attempt vCoins) (sorts_nil nTargetValue)) (chance.shuffle_perm attempt vCoins) h

theorem selectCoins_covers {p : Payer} {coinControl : Option CCoinControl} {coins : List COutput}
    {nValueRet : Int}
    (h : selectCoins p chance coinControl nTargetValue nSpendTime = some (coins, nValueRet)) :
    Covers (p.offered coinControl) nTargetValue coins nValueRet := by
  unfold selectCoins at h
  simp only at h
  split at h
  · split at h
    · rename_i henough
      cases h
      exact ⟨List.Subperm.refl _, rfl, henough⟩
    · cases h
  · rcases Option.or_eq_some_iff.mp h with h | ⟨-, h⟩
    · exact selectCoinsMinConf_covers h
    · rcases Option.or_eq_some_iff.mp h with h | ⟨-, h⟩
      · exact selectCoinsMinConf_covers h
      · exact selectCoinsMinConf_covers h

end Choice

section Amounts

theorem checkTxOuts_nonneg {tx : CTransaction} {l : List CTxOut} {a b : Int}
    (h : l.foldlM tx.checkTxOut a = .ok b) : ∀ o ∈ l, 0 ≤ o.nValue := by
  induction l generalizing a with
  | nil => exact fun _ hm => nomatch hm
  | cons o l ih =>
    rw [List.foldlM_cons] at h
    obtain ⟨c, hc, hl⟩ := bind_ok.mp h
    simp only [CTransaction.checkTxOut, check_bind] at hc
    intro o' hm
    rcases List.mem_cons.mp hm with rfl | hm
    · exact of_decide_eq_true hc.2.1
    · exact ih hl o' hm

/-- `CheckTransaction` lets no output be negative. -/
theorem outputs_nonneg {tx : CTransaction} (h : tx.checkTransaction = .ok ()) :
    ∀ o ∈ tx.vout, 0 ≤ o.nValue := by
  simp only [CTransaction.checkTransaction, check_bind] at h
  obtain ⟨_, hout, _⟩ := bind_ok.mp h.2.2.2
  exact checkTxOuts_nonneg hout

theorem checkTxOuts_ok (tx : CTransaction) {l : List CTxOut} {a : Int} (ha : 0 ≤ a)
    (hempty : ∀ o ∈ l, o.isEmpty = false) (hnonneg : ∀ o ∈ l, 0 ≤ o.nValue)
    (hmax : a + (l.map CTxOut.nValue).sum ≤ MAX_MONEY) : ∃ b, l.foldlM tx.checkTxOut a = .ok b := by
  induction l generalizing a with
  | nil => exact ⟨a, rfl⟩
  | cons o l ih =>
    have hrest : 0 ≤ (l.map CTxOut.nValue).sum := by
      apply List.sum_nonneg
      intro v hv
      obtain ⟨o', ho', rfl⟩ := List.mem_map.mp hv
      exact hnonneg o' (List.mem_cons_of_mem _ ho')
    have ho := hnonneg o List.mem_cons_self
    rw [List.map_cons, List.sum_cons] at hmax
    obtain ⟨b, hb⟩ := ih (a := a + o.nValue) (by omega)
      (fun o' hm => hempty o' (List.mem_cons_of_mem _ hm))
      (fun o' hm => hnonneg o' (List.mem_cons_of_mem _ hm)) (by omega)
    refine ⟨b, ?_⟩
    rw [List.foldlM_cons]
    refine bind_ok.mpr ⟨a + o.nValue, ?_, hb⟩
    simp only [CTransaction.checkTxOut, check_bind, moneyRange, hempty o List.mem_cons_self]
    refine ⟨rfl, decide_eq_true ho, decide_eq_true (by omega), ?_, rfl⟩
    simp only [Bool.and_eq_true, decide_eq_true_eq]
    omega

end Amounts

def COutput.outpoint (env : Env) (o : COutput) : COutPoint :=
  ⟨o.wtx.tx.getHash env, UInt32.ofNat o.i⟩

/-- A wallet as the calls that record transactions keep it: each record once and under its
hash, and of transactions that passed `CheckTransaction`. -/
structure Payer.Sound (env : Env) (p : Payer) : Prop where
  keys_nodup : p.keys.Nodup
  keyed : p.wallet.Keyed env
  checked : ∀ k tx, p.wallet.txAt k = some tx → tx.checkTransaction = .ok ()

/-- A coin is an output of a recorded transaction. -/
structure Payer.Records (p : Payer) (coin : COutput) : Prop where
  record : p.wallet.mapWallet coin.hash = some coin.wtx
  index : coin.i < coin.wtx.tx.vout.length

section Offered

variable {env : Env} {p : Payer} {coinControl : Option CCoinControl}

theorem coinsOf_pairwise (view : CoinView) (w : CWallet) (fOnlyConfirmed : Bool)
    (selected : Option (List COutPoint)) (hash : uint256) (pcoin : CWalletTx) :
    (w.coinsOf view fOnlyConfirmed selected hash pcoin).Pairwise (fun a b => a.i < b.i) ∧
      ∀ c ∈ w.coinsOf view fOnlyConfirmed selected hash pcoin,
        c.hash = hash ∧ c.wtx = pcoin ∧ c.i < pcoin.tx.vout.length := by
  unfold CWallet.coinsOf
  simp only
  iterate 5
    split
    · exact ⟨List.Pairwise.nil, nofun⟩
  constructor
  · have hlt : pcoin.tx.vout.zipIdx.Pairwise fun a b => a.2 < b.2 := by
      rw [← List.pairwise_map, List.zipIdx_map_snd]
      exact List.pairwise_lt_range'
    refine hlt.filterMap _ ?_
    intro a a' hlt c hc c' hc'
    simp only [Option.ite_none_right_eq_some, Option.some.injEq] at hc hc'
    rw [← hc.2, ← hc'.2]
    exact hlt
  · intro c hc
    obtain ⟨⟨txout, i⟩, hm, hsome⟩ := List.mem_filterMap.mp hc
    simp only [Option.ite_none_right_eq_some, Option.some.injEq] at hsome
    obtain ⟨-, rfl⟩ := hsome
    refine ⟨rfl, rfl, ?_⟩
    simpa using List.snd_lt_add_of_mem_zipIdx hm

theorem offered_records {coin : COutput} (h : coin ∈ p.offered coinControl) : p.Records coin := by
  obtain ⟨k, -, hk⟩ := List.mem_flatMap.mp h
  cases hw : p.wallet.mapWallet k with
  | none => simp [hw] at hk
  | some pcoin =>
    simp only [hw] at hk
    obtain ⟨rfl, rfl, hi⟩ := (coinsOf_pairwise ..).2 coin hk
    exact ⟨hw, hi⟩

theorem Payer.Records.hash_eq (hs : p.Sound env) {coin : COutput} (h : p.Records coin) :
    coin.wtx.tx.getHash env = coin.hash :=
  hs.keyed _ _ (by simp [CWallet.txAt, h.record])

theorem Payer.Records.checked (hs : p.Sound env) {coin : COutput} (h : p.Records coin) :
    coin.wtx.tx.checkTransaction = .ok () :=
  hs.checked coin.hash _ (by simp [CWallet.txAt, h.record])

theorem Payer.Records.index_toNat (hs : p.Sound env) {coin : COutput} (h : p.Records coin) :
    (UInt32.ofNat coin.i).toNat = coin.i := by
  have hlt := h.index.trans (outputs_lt (h.checked hs))
  simpa using Nat.mod_eq_of_lt hlt

theorem Payer.Records.outpoint_not_null (hs : p.Sound env) {coin : COutput} (h : p.Records coin) :
    (coin.outpoint env).isNull = false := by
  have hlt := outputs_lt (h.checked hs)
  have hi := h.index
  have hn := h.index_toNat hs
  simp only [COutput.outpoint, COutPoint.isNull, Bool.and_eq_false_iff, beq_eq_false_iff_ne]
  right
  intro heq
  rw [heq] at hn
  have hmax : (0xffffffff : UInt32).toNat = 4294967295 := rfl
  omega

theorem Payer.Records.value_nonneg (hs : p.Sound env) {coin : COutput} (h : p.Records coin) :
    0 ≤ coin.txout.nValue := by
  apply outputs_nonneg (h.checked hs)
  unfold COutput.txout
  rw [List.getD_eq_getElem?_getD, List.getElem?_eq_getElem h.index]
  exact List.getElem_mem _

theorem offered_key {view : CoinView} {w : CWallet} {k : uint256} {fOnlyConfirmed : Bool}
    {selected : Option (List COutPoint)} {c : COutput}
    (h : c ∈ w.availableCoins view [k] fOnlyConfirmed selected) : c.hash = k := by
  obtain ⟨k', hk', hc⟩ := List.mem_flatMap.mp h
  rw [List.mem_singleton.mp hk'] at hc
  split at hc
  · cases hc
  · exact ((coinsOf_pairwise ..).2 c hc).1

/-- No coin is offered twice: a record once and its outputs in order. -/
theorem offered_nodup (hkeys : p.keys.Nodup) (coinControl : Option CCoinControl) :
    ((p.offered coinControl).map fun c => (c.hash, c.i)).Nodup := by
  rw [List.nodup_iff_pairwise_ne, List.pairwise_map]
  unfold Payer.offered CWallet.availableCoins
  rw [List.pairwise_flatMap]
  constructor
  · intro k hk
    cases hw : p.wallet.mapWallet k with
    | none => exact List.Pairwise.nil
    | some pcoin =>
      refine (coinsOf_pairwise ..).1.imp fun {a b} hlt heq => ?_
      have hi := congrArg Prod.snd heq
      simp only at hi
      omega
  · refine hkeys.imp_of_mem fun {k k'} hk hk' hne a ha b hb heq => hne ?_
    have hka := offered_key (List.mem_flatMap.mpr ⟨k, List.mem_singleton_self k, ha⟩)
    have hkb := offered_key (List.mem_flatMap.mpr ⟨k', List.mem_singleton_self k', hb⟩)
    rw [← hka, ← hkb]
    exact congrArg Prod.fst heq

/-- Coins of one outpoint are the same output of the same record. -/
theorem Payer.Records.outpoint_inj (hs : p.Sound env) {a b : COutput} (ha : p.Records a)
    (hb : p.Records b) (h : a.outpoint env = b.outpoint env) : (a.hash, a.i) = (b.hash, b.i) := by
  have hhash := congrArg COutPoint.hash h
  have hn := congrArg (fun o : COutPoint => o.n.toNat) h
  simp only [COutput.outpoint, ha.hash_eq hs, hb.hash_eq hs] at hhash
  simp only [COutput.outpoint, ha.index_toNat hs, hb.index_toNat hs] at hn
  rw [hhash, hn]

/-- No outpoint is offered twice. -/
theorem offered_outpoints_nodup (hs : p.Sound env) (coinControl : Option CCoinControl) :
    ((p.offered coinControl).map (COutput.outpoint env)).Nodup := by
  have hcoins := offered_nodup hs.keys_nodup coinControl
  rw [List.nodup_iff_pairwise_ne, List.pairwise_map] at hcoins ⊢
  refine hcoins.imp_of_mem fun {a b} ha hb hne heq => ?_
  exact hne ((offered_records ha).outpoint_inj hs (offered_records hb) heq)

end Offered

end Triangles
