import Triangles.Lib.Sums
import Triangles.Lib.Trace
import Triangles.Model.Accounts
import Triangles.Proofs.SpentFlags

/-! What `GetAmounts` makes of a transaction: the fee and the outputs that are listed. -/

namespace Triangles

open Outcome Trace

namespace AccountWallet

variable {w : AccountWallet} {wtx : WalletRecord}

/-- The wallet has paid for the transaction. -/
def Funded (w : AccountWallet) (wtx : WalletRecord) : Prop := 0 < w.coins.getDebit wtx.tx

instance (w : AccountWallet) (wtx : WalletRecord) : Decidable (w.Funded wtx) :=
  inferInstanceAs (Decidable (_ < _))

/-- An output that is not taken off although the fee gives it back: it has no script, or it is
change. -/
def kept (w : AccountWallet) (wtx : WalletRecord) (txout : CTxOut) : Bool :=
  decide (w.Funded wtx) && (txout.scriptPubKey.isEmpty || w.isChange txout)

def sent (w : AccountWallet) (wtx : WalletRecord) (txout : CTxOut) : Bool :=
  decide (w.Funded wtx) && !(txout.scriptPubKey.isEmpty || w.isChange txout)

def received (w : AccountWallet) (wtx : WalletRecord) (txout : CTxOut) : Bool :=
  w.isMine txout && !txout.scriptPubKey.isEmpty && !w.kept wtx txout

def listed (w : AccountWallet) (txout : CTxOut) : CTxDestination × Int :=
  ((extractDestination w.keystore.hash160 txout.scriptPubKey).getD .noDestination, txout.nValue)

/-- A debit that is computed is the sum of the own outputs that are spent. -/
theorem getDebit_ok {tx : CTransaction} {n : Int} (h : w.getDebit tx = .ok n) :
    n = w.coins.getDebit tx := by
  have hstep : ∀ a txin b, w.addDebit a txin = .ok b → b = a + w.debitOf txin := by
    intro a txin b hb
    simp only [addDebit, bind_ok, check_ok, pure_ok, exists_const] at hb
    exact hb.2.symm
  have hsum := foldlM_sum hstep h
  rw [zero_add] at hsum
  exact hsum

theorem addDebit_ok {a b : Int} {txin : CTxIn} (h : w.addDebit a txin = .ok b) : 0 ≤ b := by
  simp only [addDebit, bind_ok, check_ok, pure_ok, exists_const, moneyRange, Bool.and_eq_true,
    decide_eq_true_eq] at h
  obtain ⟨⟨hle, -⟩, rfl⟩ := h
  exact hle

theorem getDebit_nonneg {tx : CTransaction} {n : Int} (h : w.getDebit tx = .ok n) : 0 ≤ n :=
  foldlM_keeps (0 ≤ ·) tx.vin (fun _ _ _ _ hb _ => addDebit_ok hb) 0 n h le_rfl

/-- One output is listed as sent, as received, as both or not at all. -/
theorem addAmount_eq (w : AccountWallet) (wtx : WalletRecord) (amounts : Amounts) (txout : CTxOut) :
    w.addAmount (w.coins.getDebit wtx.tx) amounts txout = { amounts with
      listReceived := amounts.listReceived ++ if w.received wtx txout then [w.listed txout] else []
      listSent := amounts.listSent ++ if w.sent wtx txout then [w.listed txout] else [] } := by
  have hfunded : (0 < w.coins.getDebit wtx.tx) = w.Funded wtx := rfl
  unfold addAmount received sent kept
  simp only [hfunded]
  cases txout.scriptPubKey.isEmpty <;> by_cases h : w.Funded wtx <;> cases w.isChange txout <;>
    cases w.isMine txout <;> simp [h, listed]

/-- The loop lists what is sent and what is received. -/
theorem foldl_addAmount (w : AccountWallet) (wtx : WalletRecord) (l : List CTxOut) (amounts : Amounts) :
    l.foldl (w.addAmount (w.coins.getDebit wtx.tx)) amounts = { amounts with
      listReceived := amounts.listReceived ++ (l.filter (w.received wtx)).map w.listed
      listSent := amounts.listSent ++ (l.filter (w.sent wtx)).map w.listed } := by
  induction l generalizing amounts with
  | nil => simp
  | cons txout l ih =>
    rw [List.foldl_cons, ih, addAmount_eq, List.filter_cons, List.filter_cons]
    cases w.received wtx txout <;> cases w.sent wtx txout <;> simp

def fee (w : AccountWallet) (wtx : WalletRecord) : Int :=
  if w.Funded wtx then w.coins.getDebit wtx.tx - wtx.tx.valueOut else 0

theorem getAmounts_ok {amounts : Amounts} (h : w.getAmounts wtx = .ok amounts) :
    0 ≤ w.coins.getDebit wtx.tx ∧ amounts =
      { listReceived := (wtx.tx.vout.filter (w.received wtx)).map w.listed
        listSent := (wtx.tx.vout.filter (w.sent wtx)).map w.listed
        nFee := w.fee wtx
        strSentAccount := wtx.strFromAccount } := by
  rw [getAmounts, bind_ok] at h
  obtain ⟨nDebit, hdebit, h⟩ := h
  rw [bind_ok] at h
  obtain ⟨nFee, hfee, h⟩ := h
  obtain rfl := getDebit_ok hdebit
  have hnFee : nFee = w.fee wtx := by
    by_cases hfunded : w.Funded wtx
    · have hpos : 0 < w.coins.getDebit wtx.tx := hfunded
      rw [getFee, if_pos hpos, bind_ok] at hfee
      obtain ⟨nValueOut, hout, hfee⟩ := hfee
      rw [fee, if_pos hfunded, ← get_value_out_ok hout]
      exact (pure_ok.mp hfee).symm
    · have hzero : ¬ 0 < w.coins.getDebit wtx.tx := hfunded
      rw [getFee, if_neg hzero] at hfee
      rw [fee, if_neg hfunded]
      exact (pure_ok.mp hfee).symm
  refine ⟨getDebit_nonneg hdebit, ?_⟩
  rw [← pure_ok.mp h, foldl_addAmount, hnFee]
  rfl

end AccountWallet

end Triangles

/-! The balance as the sum of what is received, sent and paid as fees, and as the sum of what is
unspent. -/

namespace Triangles

open Outcome Sums Trace

namespace AccountWallet

variable {w : AccountWallet} {wtx : WalletRecord} {view : ChainView} {env : Env}

def records (w : AccountWallet) : List WalletRecord := w.mapWallet.toList.map Prod.snd

def Mature (view : ChainView) (wtx : WalletRecord) : Prop :=
  view.getBlocksToMaturity wtx.toCMerkleTx = 0

instance (view : ChainView) (wtx : WalletRecord) : Decidable (Mature view wtx) :=
  inferInstanceAs (Decidable (_ = _))

def total (f : CTxOut × Nat → Bool) (wtx : WalletRecord) : Int :=
  (wtx.tx.vout.zipIdx.map fun o => if f o then o.1.nValue else 0).sum

def ownOut (w : AccountWallet) (o : CTxOut × Nat) : Bool := w.isMine o.1

def spentOut (wtx : WalletRecord) (o : CTxOut × Nat) : Bool := wtx.walletTx.isSpent o.2

/-- The outputs that the lists count though they are no balance: change and outputs without a
script, of transactions that the wallet has paid for, that are not own ones that are spent or
mature. -/
def overcounted (view : ChainView) (w : AccountWallet) (wtx : WalletRecord) : Int :=
  total (fun o => w.kept wtx o.1 &&
    !(w.ownOut o && (spentOut wtx o || decide (Mature view wtx)))) wtx

/-- The outputs that the lists miss: the own ones of immature transactions that are spent, unless
they are such change. -/
def undercounted (view : ChainView) (w : AccountWallet) (wtx : WalletRecord) : Int :=
  total (fun o => !w.kept wtx o.1 && (w.ownOut o && spentOut wtx o && !decide (Mature view wtx))) wtx

/-! One transaction. -/

def share (view : ChainView) (w : AccountWallet) (wtx : WalletRecord) : Int :=
  (if Mature view wtx then ((wtx.tx.vout.filter (w.received wtx)).map CTxOut.nValue).sum else 0) -
    ((wtx.tx.vout.filter (w.sent wtx)).map CTxOut.nValue).sum - w.fee wtx

def available (view : ChainView) (w : AccountWallet) (wtx : WalletRecord) : Int :=
  total (fun o => w.ownOut o && !spentOut wtx o && decide (Mature view wtx)) wtx

def spentOwn (w : AccountWallet) (wtx : WalletRecord) : Int :=
  total (fun o => w.ownOut o && spentOut wtx o) wtx

theorem total_map (p : CTxOut → Bool) (wtx : WalletRecord) :
    total (fun o => p o.1) wtx = ((wtx.tx.vout.filter p).map CTxOut.nValue).sum := by
  have hzip : wtx.tx.vout.zipIdx.map Prod.fst = wtx.tx.vout := List.zipIdx_map_fst 0 _
  rw [sum_filter, total]
  conv_rhs => rw [← hzip, List.map_map]
  rfl

theorem isMine_empty {txout : CTxOut} (h : w.isMine txout = true) :
    txout.scriptPubKey.isEmpty = false := by
  cases hscript : txout.scriptPubKey with
  | nil =>
    rw [isMine, hscript] at h
    cases h
  | cons op script => rfl

theorem total_and (f : CTxOut × Nat → Bool) (P : Prop) [Decidable P] (wtx : WalletRecord) :
    total (fun o => f o && decide P) wtx = if P then total f wtx else 0 := by
  by_cases h : P
  · simp [h]
  · simp [total, h]

theorem share_total (hdebit : 0 ≤ w.coins.getDebit wtx.tx) : w.share view wtx =
    total (fun o => w.received wtx o.1 && decide (Mature view wtx)) wtx -
      total (fun o => w.sent wtx o.1) wtx + total (fun _ => true && decide (w.Funded wtx)) wtx -
      w.coins.getDebit wtx.tx := by
  rw [share, total_and, total_and, total_map, total_map, total_map fun _ => true, List.filter_true, fee]
  by_cases h : w.Funded wtx
  · rw [if_pos h, if_pos h, CTransaction.valueOut]
    omega
  · have hzero : w.coins.getDebit wtx.tx = 0 := le_antisymm (not_lt.mp h) hdebit
    rw [if_neg h, if_neg h, hzero]
    omega

/-- One output: what the lists count of it, and what it is worth. -/
theorem counted_eq (v : Int) (funded mature mine spent change empty : Bool)
    (h : mine = true → empty = false) :
    (if mine && !empty && !(funded && (empty || change)) && mature then v else 0) -
        (if funded && !(empty || change) then v else 0) + (if true && funded then v else 0) =
      (if mine && !spent && mature then v else 0) + (if mine && spent then v else 0) +
        ((if (funded && (empty || change)) && !(mine && (spent || mature)) then v else 0) -
          (if !(funded && (empty || change)) && (mine && spent && !mature) then v else 0)) := by
  revert h
  cases mine <;> cases empty <;> cases funded <;> cases mature <;> cases spent <;> cases change <;>
    simp

/-- Beyond the debit, the lists and the unspent outputs differ by what is counted wrongly. -/
theorem share_eq (hdebit : 0 ≤ w.coins.getDebit wtx.tx) :
    w.share view wtx = w.available view wtx + w.spentOwn wtx - w.coins.getDebit wtx.tx +
      (w.overcounted view wtx - w.undercounted view wtx) := by
  have hsum := sum_congr (l := wtx.tx.vout.zipIdx) fun o _ =>
    counted_eq o.1.nValue (decide (w.Funded wtx)) (decide (Mature view wtx)) (w.isMine o.1)
      (spentOut wtx o) (w.isChange o.1) o.1.scriptPubKey.isEmpty isMine_empty
  rw [sum_add, sum_sub, sum_add, sum_add, sum_sub] at hsum
  rw [share_total hdebit, sub_eq_iff_eq_add]
  have htotal : total (fun o => w.received wtx o.1 && decide (Mature view wtx)) wtx -
      total (fun o => w.sent wtx o.1) wtx + total (fun _ => true && decide (w.Funded wtx)) wtx =
      w.available view wtx + w.spentOwn wtx +
        (w.overcounted view wtx - w.undercounted view wtx) := hsum
  rw [htotal]
  omega

/-! The sums over the wallet. -/

theorem isTrusted_depth (h : w.isTrusted env view wtx = true) :
    0 ≤ view.getDepthInMainChain wtx.toCMerkleTx := by
  unfold isTrusted at h
  simp only at h
  split_ifs at h <;> omega

theorem addToTotal_ok {a b : Int} (ht : w.isTrusted env view wtx = true)
    (h : w.addToTotal env view 0 a wtx = .ok b) :
    0 ≤ w.coins.getDebit wtx.tx ∧ b = a + w.share view wtx := by
  rw [addToTotal, ht, Bool.not_true, if_neg Bool.false_ne_true, bind_ok] at h
  obtain ⟨amounts, hamounts, h⟩ := h
  obtain ⟨hdebit, rfl⟩ := getAmounts_ok hamounts
  refine ⟨hdebit, ?_⟩
  have hsum : ∀ l : List CTxOut, ((l.map w.listed).map Prod.snd).sum = (l.map CTxOut.nValue).sum := by
    intro l
    rw [List.map_map]
    rfl
  rw [← pure_ok.mp h, foldl_sub, hsum, share]
  by_cases hm : Mature view wtx
  · rw [if_pos hm, if_pos ⟨isTrusted_depth ht, hm⟩, foldl_add, hsum]
    dsimp only
    omega
  · rw [if_neg hm, if_neg fun hboth => hm hboth.2]
    dsimp only
    omega

theorem getAvailableCredit_ok {nCredit : Int} (h : w.getAvailableCredit view wtx = .ok nCredit) :
    nCredit = w.available view wtx := by
  rw [available, total_and]
  by_cases hm : Mature view wtx
  · have hzero : view.getBlocksToMaturity wtx.toCMerkleTx = 0 := hm
    rw [getAvailableCredit, hzero, decide_eq_false (lt_irrefl 0), Bool.and_false,
      if_neg Bool.false_ne_true] at h
    rw [if_pos hm, total, ← zero_add (List.sum _)]
    refine foldlM_sum (fun a o b hb => ?_) h
    · unfold CWallet.addCredit at hb
      have hspent : wtx.walletTx.isSpent o.2 = spentOut wtx o := rfl
      have hmine : w.coins.isMine o.1 = w.ownOut o := rfl
      rw [hspent] at hb
      cases hs : spentOut wtx o with
      | true =>
        rw [hs, if_pos rfl] at hb
        simpa using (Except.ok.inj hb).symm
      | false =>
        simp only [hs, Bool.false_eq_true, if_false, CWallet.getCredit, bind_ok, check_ok, pure_ok,
          exists_const, hmine] at hb
        obtain ⟨credit, ⟨-, rfl⟩, -, rfl⟩ := hb
        simp
  · -- what is not mature comes from a coinbase or coinstake
    rw [if_neg hm]
    unfold Mature ChainView.getBlocksToMaturity at hm
    unfold getAvailableCredit ChainView.getBlocksToMaturity at h
    cases hkind : wtx.tx.isCoinBase || wtx.tx.isCoinStake with
    | false =>
      rw [hkind, Bool.not_false, if_pos rfl] at hm
      exact absurd rfl hm
    | true =>
      rw [hkind, Bool.not_true, if_neg Bool.false_ne_true] at hm h
      rw [Bool.true_and, decide_eq_true (by omega), if_pos rfl] at h
      exact (Except.ok.inj h).symm

def prevouts (w : AccountWallet) : List COutPoint :=
  w.records.flatMap fun wtx => wtx.tx.vin.map CTxIn.prevout

/-- What the wallet is asked to be: its transactions are trusted, no own output is spent twice, and
an own output is marked spent when some transaction spends it, and only then. -/
structure Settled (env : Env) (view : ChainView) (w : AccountWallet) : Prop where
  trusted : ∀ wtx ∈ w.records, w.isTrusted env view wtx = true
  once : ∀ o : COutPoint, w.coins.Own o.hash o.n.toNat → w.prevouts.count o ≤ 1
  marked : ∀ k n, w.coins.Own k n →
    (w.coins.flag k n = true ↔ ∃ o ∈ w.prevouts, o.hash = k ∧ o.n.toNat = n)

def ownValue (w : AccountWallet) (p : uint256 × Nat) : Int :=
  match w.coins.mapWallet p.1 with
  | none => 0
  | some prev =>
    match prev.tx.vout[p.2]? with
    | none => 0
    | some txout => if w.isMine txout then txout.nValue else 0

theorem mem_toList {k : uint256} {wtx : WalletRecord} :
    (k, wtx) ∈ w.mapWallet.toList ↔ w.mapWallet[k]? = some wtx :=
  Std.ExtTreeMap.mem_toList_iff_getElem?_eq_some

theorem own_iff {k : uint256} {n : Nat} : w.coins.Own k n ↔
    ∃ wtx, w.mapWallet[k]? = some wtx ∧ ∃ txout, wtx.tx.vout[n]? = some txout ∧ w.isMine txout = true := by
  have htx : w.coins.txAt k = w.mapWallet[k]?.map fun wtx => wtx.tx := by
    rw [CWallet.txAt, coins, Option.map_map]
    rfl
  unfold CWallet.Own CWallet.OwnOut
  rw [htx]
  constructor
  · rintro ⟨tx, htx, txout, hout, hmine⟩
    obtain ⟨wtx, hwtx, rfl⟩ := Option.map_eq_some_iff.mp htx
    exact ⟨wtx, hwtx, txout, hout, hmine⟩
  · rintro ⟨wtx, hwtx, txout, hout, hmine⟩
    exact ⟨wtx.tx, by rw [hwtx]; rfl, txout, hout, hmine⟩

theorem ownValue_eq_zero {p : uint256 × Nat} (h : ¬ w.coins.Own p.1 p.2) : w.ownValue p = 0 := by
  rw [own_iff] at h
  unfold ownValue coins
  simp only
  cases hwtx : w.mapWallet[p.1]? with
  | none => rfl
  | some wtx =>
    simp only [Option.map_some]
    cases hout : wtx.walletTx.tx.vout[p.2]? with
    | none => rfl
    | some txout =>
      refine if_neg fun hmine => h ⟨wtx, hwtx, txout, hout, hmine⟩

theorem debitOf_eq (txin : CTxIn) :
    w.debitOf txin = w.ownValue (txin.prevout.hash, txin.prevout.n.toNat) := by
  unfold debitOf CWallet.ownPrevout ownValue
  simp only
  cases w.coins.mapWallet txin.prevout.hash with
  | none => rfl
  | some prev =>
    simp only
    cases prev.tx.vout[txin.prevout.n.toNat]? with
    | none => rfl
    | some txout =>
      have hmine : w.coins.isMine txout = w.isMine txout := rfl
      simp only [hmine]
      split_ifs <;> rfl

def spentPlaces (w : AccountWallet) : List (uint256 × Nat) :=
  w.mapWallet.toList.flatMap fun e =>
    (e.2.tx.vout.zipIdx.filter fun o => w.ownOut o && spentOut e.2 o).map fun o => (e.1, o.2)

theorem mem_spentPlaces {k : uint256} {n : Nat} :
    (k, n) ∈ w.spentPlaces ↔ w.coins.Own k n ∧ w.coins.flag k n = true := by
  have hflag : ∀ wtx, w.mapWallet[k]? = some wtx → w.coins.flag k n = wtx.walletTx.isSpent n := by
    intro wtx hwtx
    simp only [CWallet.flag, coins, hwtx, Option.map_some, Option.getD_some]
  rw [own_iff, spentPlaces, List.mem_flatMap]
  constructor
  · rintro ⟨⟨k', wtx⟩, he, hplace⟩
    obtain ⟨⟨txout, i⟩, hout, heq⟩ := List.mem_map.mp hplace
    obtain ⟨rfl, rfl⟩ := Prod.mk.inj heq
    obtain ⟨hzip, hboth⟩ := List.mem_filter.mp hout
    rw [Bool.and_eq_true] at hboth
    have hwtx := mem_toList.mp he
    exact ⟨⟨wtx, hwtx, txout, List.mem_zipIdx_iff_getElem?.mp hzip, hboth.1⟩,
      (hflag wtx hwtx).trans hboth.2⟩
  · rintro ⟨⟨wtx, hwtx, txout, hout, hmine⟩, hspent⟩
    refine ⟨(k, wtx), mem_toList.mpr hwtx, List.mem_map.mpr ⟨(txout, n), ?_, rfl⟩⟩
    rw [List.mem_filter, Bool.and_eq_true]
    exact ⟨List.mem_zipIdx_iff_getElem?.mpr hout, hmine, (hflag wtx hwtx).symm.trans hspent⟩

theorem spentPlaces_nodup (w : AccountWallet) : w.spentPlaces.Nodup := by
  refine List.nodup_flatMap.mpr ⟨fun e _ => ?_, ?_⟩
  · have hzip : (e.2.tx.vout.zipIdx.map Prod.snd).Nodup := by
      rw [List.zipIdx_map_snd]
      exact List.nodup_range'
    refine List.Nodup.of_map Prod.snd ?_
    rw [List.map_map]
    exact hzip.sublist (List.filter_sublist.map _)
  · have hkeys : w.mapWallet.toList.Pairwise fun a b => ¬ compare a.1 b.1 = .eq :=
      Std.ExtTreeMap.distinct_keys_toList
    refine hkeys.imp fun {a b} hne => ?_
    rintro ⟨k, n⟩ ha hb
    obtain ⟨o, -, hoa⟩ := List.mem_map.mp ha
    obtain ⟨o', -, hob⟩ := List.mem_map.mp hb
    refine hne ?_
    rw [(Prod.mk.inj hoa).1, (Prod.mk.inj hob).1]
    exact Std.ReflCmp.compare_self

/-- What all transactions take from own outputs is what own outputs are spent. -/
theorem Settled.debits_eq (h : Settled env view w) :
    (w.records.map fun wtx => w.coins.getDebit wtx.tx).sum = (w.records.map w.spentOwn).sum := by
  classical
  have hdebits : (w.records.map fun wtx => w.coins.getDebit wtx.tx).sum =
      ((w.prevouts.map fun o => (o.hash, o.n.toNat)).map w.ownValue).sum := by
    rw [prevouts, List.map_map, sum_flatMap]
    refine sum_congr fun wtx _ => ?_
    rw [List.map_map]
    exact sum_congr fun txin _ => debitOf_eq txin
  have hspent : (w.spentPlaces.map w.ownValue).sum = (w.records.map w.spentOwn).sum := by
    rw [spentPlaces, sum_flatMap, records, List.map_map]
    refine sum_congr fun e he => ?_
    have hwtx := mem_toList.mp he
    rw [List.map_map, Function.comp_apply, spentOwn, total, ← sum_filter]
    refine sum_congr fun o ho => ?_
    obtain ⟨hzip, hboth⟩ := List.mem_filter.mp ho
    rw [Bool.and_eq_true] at hboth
    have hmine : w.isMine o.1 = true := hboth.1
    have hout : e.2.walletTx.tx.vout[o.2]? = some o.1 := List.mem_zipIdx_iff_getElem?.mp hzip
    simp only [Function.comp_apply, ownValue, coins, hwtx, Option.map_some, hout, hmine, if_true]
  rw [hdebits, ← hspent]
  have hvalue : ∀ p : uint256 × Nat, decide (w.coins.Own p.1 p.2) = false → w.ownValue p = 0 :=
    fun p hp => ownValue_eq_zero (of_decide_eq_false hp)
  refine sum_exchange hvalue ?_ w.spentPlaces_nodup ?_
  · rw [List.filter_map]
    refine List.Nodup.map_on ?_ ?_
    · rintro ⟨k, n⟩ - ⟨k', n'⟩ - hsame
      obtain ⟨rfl, hn⟩ := Prod.mk.inj hsame
      obtain rfl : n = n' := UInt32.toNat_inj.mp hn
      rfl
    · rw [List.nodup_iff_count_le_one]
      intro o
      by_cases hown : w.coins.Own o.hash o.n.toNat
      · exact (List.Sublist.count_le o List.filter_sublist).trans (h.once o hown)
      · rw [List.count_eq_zero.mpr fun hmem => ?_]
        · exact Nat.zero_le 1
        · exact hown (of_decide_eq_true (List.mem_filter.mp hmem).2)
  · rintro ⟨k, n⟩
    rw [mem_spentPlaces, decide_eq_true_eq, and_comm, List.mem_map]
    refine and_congr_left fun hown => ?_
    rw [h.marked k n hown]
    refine exists_congr fun o => and_congr_right fun _ => ?_
    rw [Prod.mk.injEq]

/-! The two balances. -/

def wronglyCounted (view : ChainView) (w : AccountWallet) : Int :=
  (w.records.map fun wtx => w.overcounted view wtx - w.undercounted view wtx).sum

/-- The two numbers differ by what is counted wrongly. -/
theorem Settled.total_eq (h : Settled env view w) {a b : Int}
    (ha : w.getBalanceTotal env view 0 = .ok a) (hb : w.getBalance env view = .ok b) :
    a = b + w.wronglyCounted view := by
  have hstep : ∀ n, ∀ wtx ∈ w.records, ∀ n', w.addToTotal env view 0 n wtx = .ok n' →
      n' = n + (w.available view wtx + w.spentOwn wtx - w.coins.getDebit wtx.tx +
        (w.overcounted view wtx - w.undercounted view wtx)) := by
    intro n wtx hwtx n' hn'
    obtain ⟨hdebit, rfl⟩ := addToTotal_ok (h.trusted wtx hwtx) hn'
    rw [share_eq hdebit]
  have htotal := foldlM_sum_mem hstep ha
  have hstep' : ∀ n, ∀ wtx ∈ w.records, ∀ n', (if w.isTrusted env view wtx then do
        let nCredit ← w.getAvailableCredit view wtx
        pure (n + nCredit)
      else .ok n) = .ok n' → n' = n + w.available view wtx := by
    intro n wtx hwtx n' hn'
    rw [h.trusted wtx hwtx, if_pos rfl, bind_ok] at hn'
    obtain ⟨nCredit, hcredit, hn'⟩ := hn'
    rw [← pure_ok.mp hn', getAvailableCredit_ok hcredit]
  have hbalance := foldlM_sum_mem hstep' hb
  rw [htotal, hbalance, sum_add, sum_sub, sum_add, h.debits_eq, wronglyCounted]
  omega

/-- Amounts are those of money: outputs, what the transactions pay out and what they take. -/
structure Ranged (w : AccountWallet) : Prop where
  outputs : ∀ wtx ∈ w.records, ∀ txout ∈ wtx.tx.vout, moneyRange txout.nValue = true
  paid : ∀ wtx ∈ w.records, wtx.tx.valueOut ≤ MAX_MONEY
  taken : ∀ wtx ∈ w.records, w.coins.getDebit wtx.tx ≤ MAX_MONEY

theorem moneyRange_iff {n : Int} : moneyRange n = true ↔ 0 ≤ n ∧ n ≤ MAX_MONEY := by
  rw [moneyRange, Bool.and_eq_true, decide_eq_true_eq, decide_eq_true_eq]

namespace Ranged

variable (h : Ranged w)
include h

theorem ownValue_nonneg (p : uint256 × Nat) : 0 ≤ w.ownValue p := by
  by_cases hown : w.coins.Own p.1 p.2
  · obtain ⟨wtx, hwtx, txout, hout, hmine⟩ := own_iff.mp hown
    have hrecord : wtx ∈ w.records := List.mem_map.mpr ⟨(p.1, wtx), mem_toList.mpr hwtx, rfl⟩
    have hvalue : w.ownValue p = txout.nValue := by
      have hout' : wtx.walletTx.tx.vout[p.2]? = some txout := hout
      simp only [ownValue, coins, hwtx, Option.map_some, hout', hmine, if_true]
    rw [hvalue]
    exact (moneyRange_iff.mp (h.outputs wtx hrecord txout (List.mem_of_getElem? hout))).1
  · rw [ownValue_eq_zero hown]

theorem getDebit_eq (hwtx : wtx ∈ w.records) :
    w.getDebit wtx.tx = .ok (w.coins.getDebit wtx.tx) := by
  have hsum : 0 + (wtx.tx.vin.map w.debitOf).sum ≤ MAX_MONEY := by
    rw [zero_add]
    exact h.taken wtx hwtx
  have hstep : ∀ a, ∀ txin ∈ wtx.tx.vin, 0 ≤ a → a + w.debitOf txin ≤ MAX_MONEY →
      w.addDebit a txin = .ok (a + w.debitOf txin) := by
    intro a txin _ ha hle
    have hnonneg : 0 ≤ w.debitOf txin := debitOf_eq txin ▸ h.ownValue_nonneg _
    rw [addDebit, moneyRange_iff.mpr ⟨by omega, hle⟩]
    rfl
  have hloop := foldlM_adds_within hstep (fun txin _ => debitOf_eq txin ▸ h.ownValue_nonneg _)
    le_rfl hsum
  rw [zero_add] at hloop
  exact hloop

theorem getValueOut_eq (hwtx : wtx ∈ w.records) : wtx.tx.getValueOut = .ok wtx.tx.valueOut := by
  have hrange := h.outputs wtx hwtx
  have hsum : 0 + (wtx.tx.vout.map CTxOut.nValue).sum ≤ MAX_MONEY := by
    rw [zero_add]
    exact h.paid wtx hwtx
  have hstep : ∀ a, ∀ txout ∈ wtx.tx.vout, 0 ≤ a → a + txout.nValue ≤ MAX_MONEY →
      CTransaction.addTxOut a txout = .ok (a + txout.nValue) := by
    intro a txout hout ha hle
    have hout := hrange txout hout
    have hnonneg := (moneyRange_iff.mp hout).1
    rw [CTransaction.addTxOut, hout, moneyRange_iff.mpr ⟨by omega, hle⟩]
    rfl
  have hloop := foldlM_adds_within hstep
    (fun txout hout => (moneyRange_iff.mp (hrange txout hout)).1) le_rfl hsum
  rw [zero_add] at hloop
  exact hloop

theorem getAmounts_succeeds (hwtx : wtx ∈ w.records) : ∃ amounts, w.getAmounts wtx = .ok amounts := by
  have hfee : ∃ nFee, getFee (w.coins.getDebit wtx.tx) wtx.tx = .ok nFee := by
    unfold getFee
    split_ifs
    · rw [h.getValueOut_eq hwtx]
      exact ⟨_, rfl⟩
    · exact ⟨0, rfl⟩
  obtain ⟨nFee, hfee⟩ := hfee
  rw [getAmounts, h.getDebit_eq hwtx]
  change ∃ amounts, (getFee (w.coins.getDebit wtx.tx) wtx.tx >>= _) = _
  rw [hfee]
  exact ⟨_, rfl⟩

theorem getAvailableCredit_succeeds (hwtx : wtx ∈ w.records) :
    ∃ nCredit, w.getAvailableCredit view wtx = .ok nCredit := by
  have hout : ∀ o ∈ wtx.tx.vout.zipIdx, moneyRange o.1.nValue = true := fun o ho =>
    h.outputs wtx hwtx o.1 (List.fst_mem_of_mem_zipIdx ho)
  have hnonneg : ∀ o ∈ wtx.tx.vout.zipIdx,
      0 ≤ if w.ownOut o && !spentOut wtx o then o.1.nValue else 0 := by
    intro o ho
    split_ifs
    · exact (moneyRange_iff.mp (hout o ho)).1
    · exact le_rfl
  have hsum : 0 + (wtx.tx.vout.zipIdx.map fun o =>
      if w.ownOut o && !spentOut wtx o then o.1.nValue else 0).sum ≤ MAX_MONEY := by
    have hall : total (fun _ => true) wtx = wtx.tx.valueOut := by
      rw [total_map fun _ => true, List.filter_true, CTransaction.valueOut]
    rw [zero_add]
    refine le_trans (List.sum_le_sum fun o ho => ?_) (hall.trans_le (h.paid wtx hwtx))
    by_cases hcounted : (w.ownOut o && !spentOut wtx o) = true
    · rw [if_pos hcounted, if_pos rfl]
    · rw [if_neg hcounted, if_pos rfl]
      exact (moneyRange_iff.mp (hout o ho)).1
  have hstep : ∀ a, ∀ o ∈ wtx.tx.vout.zipIdx, 0 ≤ a →
      a + (if w.ownOut o && !spentOut wtx o then o.1.nValue else 0) ≤ MAX_MONEY →
      w.coins.addCredit wtx.walletTx a o =
        .ok (a + if w.ownOut o && !spentOut wtx o then o.1.nValue else 0) := by
    intro a o ho ha hle
    have hspent : wtx.walletTx.isSpent o.2 = spentOut wtx o := rfl
    have hmine : w.coins.isMine o.1 = w.ownOut o := rfl
    rw [CWallet.addCredit, hspent]
    cases hs : spentOut wtx o with
    | true => simp
    | false =>
      have hsame : (if w.ownOut o && !spentOut wtx o then o.1.nValue else 0) =
          if w.ownOut o then o.1.nValue else 0 := by rw [hs, Bool.not_false, Bool.and_true]
      have hvalue := hnonneg o ho
      rw [hsame] at hle hvalue
      rw [if_neg Bool.false_ne_true, CWallet.getCredit, hout o ho, hmine, Bool.not_false, Bool.and_true]
      change (check (moneyRange (a + if w.ownOut o then o.1.nValue else 0)) _ >>= _) = _
      rw [moneyRange_iff.mpr ⟨by omega, hle⟩]
      rfl
  unfold getAvailableCredit
  split_ifs
  · exact ⟨0, rfl⟩
  · exact ⟨_, foldlM_adds_within hstep hnonneg le_rfl hsum⟩

theorem getBalance_succeeds : ∃ b, w.getBalance env view = .ok b := by
  refine foldlM_succeeds (fun n wtx hwtx => ?_) 0
  split_ifs
  · obtain ⟨nCredit, hcredit⟩ := h.getAvailableCredit_succeeds hwtx
    rw [hcredit]
    exact ⟨n + nCredit, rfl⟩
  · exact ⟨n, rfl⟩

theorem getBalanceTotal_succeeds : ∃ a, w.getBalanceTotal env view 0 = .ok a := by
  refine foldlM_succeeds (fun n wtx hwtx => ?_) 0
  unfold addToTotal
  by_cases ht : (!w.isTrusted env view wtx) = true
  · rw [if_pos ht]
    exact ⟨n, rfl⟩
  · obtain ⟨amounts, hamounts⟩ := h.getAmounts_succeeds hwtx
    rw [if_neg ht, hamounts]
    exact ⟨_, rfl⟩

end Ranged

/-- Both calls return when the amounts are those of money, and the numbers agree when what is
counted wrongly on one side is made up for on the other. -/
theorem getbalance_agrees_iff (h : Settled env view w) :
    (∀ a b, w.getBalanceTotal env view 0 = .ok a → w.getBalance env view = .ok b →
      (a = b ↔ (w.records.map (w.overcounted view)).sum = (w.records.map (w.undercounted view)).sum)) ∧
    (w.Ranged → ∃ a b, w.getBalanceTotal env view 0 = .ok a ∧ w.getBalance env view = .ok b) := by
  constructor
  · intro a b ha hb
    have hdiff := h.total_eq ha hb
    rw [wronglyCounted, sum_sub] at hdiff
    omega
  · intro hrange
    obtain ⟨a, ha⟩ : ∃ a, w.getBalanceTotal env view 0 = .ok a := hrange.getBalanceTotal_succeeds
    obtain ⟨b, hb⟩ : ∃ b, w.getBalance env view = .ok b := hrange.getBalance_succeeds
    exact ⟨a, b, ha, hb⟩

end AccountWallet

namespace Sample

def bookKeys : KeyLookup where
  hash160 bytes := bytes.take 20
  haveKey id := id.headD 0 == 1

def payTo (id : uint160) : CScript := [0x76, 0xa9, 0x14] ++ id ++ [0x88, 0xac]

def bookId : uint160 := List.replicate 20 1

def changeId : uint160 := 1 :: List.replicate 19 2

def incoming : WalletRecord where
  tx := { nTime := 1, vin := [⟨⟨99, 0⟩, [], 0⟩], vout := [⟨100, payTo bookId⟩] }
  vfSpent := [true]

def staked : WalletRecord where
  tx := { nTime := 2, vin := [⟨⟨5, 0⟩, [], 0⟩], vout := [⟨0, []⟩, ⟨120, payTo changeId⟩] }

def stakeWallet : AccountWallet where
  keystore := bookKeys
  mapWallet := (∅ : Std.ExtTreeMap uint256 WalletRecord compare).insert 5 incoming |>.insert 6 staked
  mapAddressBook := AList.singleton (.keyID bookId) (ascii "till")

def stakeView : ChainView where
  isFinal _ := true
  getDepthInMainChain _ := 4
  nCoinbaseMaturity := 30

end Sample

namespace AccountWallet

theorem stakeWallet_settled : Settled Sample.spendEnv Sample.stakeView Sample.stakeWallet where
  trusted _ _ := rfl
  once o _ := by
    have hprevouts : Sample.stakeWallet.prevouts = [⟨99, 0⟩, ⟨5, 0⟩] := rfl
    rw [hprevouts]
    exact List.nodup_iff_count_le_one.mp (by decide) o
  marked k n hown := by
    obtain ⟨wtx, hwtx, txout, hout, hmine⟩ := own_iff.mp hown
    have hprevouts : Sample.stakeWallet.prevouts = [⟨99, 0⟩, ⟨5, 0⟩] := rfl
    have hmem : (k, wtx) ∈ [(5, Sample.incoming), (6, Sample.staked)] := mem_toList.mpr hwtx
    rw [hprevouts]
    rcases List.mem_cons.mp hmem with heq | hmem
    · obtain ⟨rfl, rfl⟩ := Prod.mk.inj heq
      have hn : n = 0 := Nat.lt_one_iff.mp (List.getElem?_eq_some_iff.mp hout).1
      subst hn
      exact iff_of_true rfl ⟨⟨5, 0⟩, by decide, rfl, rfl⟩
    · obtain ⟨rfl, rfl⟩ := Prod.mk.inj (List.mem_singleton.mp hmem)
      refine iff_of_false (fun hflag => ?_) ?_
      · cases hflag
      · rintro ⟨o, ho, hk, -⟩
        simp only [List.mem_cons, List.not_mem_nil, or_false] at ho
        rcases ho with rfl | rfl
        · exact absurd hk (by decide)
        · exact absurd hk (by decide)

theorem stakeWallet_agrees_iff :
    (∀ a b, Sample.stakeWallet.getBalanceTotal Sample.spendEnv Sample.stakeView 0 = .ok a →
      Sample.stakeWallet.getBalance Sample.spendEnv Sample.stakeView = .ok b →
      (a = b ↔ (120 : Int) = 0)) ∧
    (Sample.stakeWallet.Ranged →
      ∃ a b, Sample.stakeWallet.getBalanceTotal Sample.spendEnv Sample.stakeView 0 = .ok a ∧
        Sample.stakeWallet.getBalance Sample.spendEnv Sample.stakeView = .ok b) :=
  getbalance_agrees_iff stakeWallet_settled

/-- The coinstake is counted on one side before it is mature. -/
theorem stakeWallet_differs :
    Settled Sample.spendEnv Sample.stakeView Sample.stakeWallet ∧
      Sample.stakeWallet.getBalanceTotal Sample.spendEnv Sample.stakeView 0 = .ok 120 ∧
      Sample.stakeWallet.getBalance Sample.spendEnv Sample.stakeView = .ok 0 :=
  ⟨stakeWallet_settled, rfl, rfl⟩

end AccountWallet

end Triangles
